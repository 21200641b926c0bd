import InfiniteRicks.Alert

/-!
# What a rejected alert does

`ProcessAlert` removes the alerts that the new one cancels before it looks whether a held one cancels
the new one. An alert that is rejected by that last test has then had its effect.
-/

namespace InfiniteRicks

namespace CAlert

/-- No two alerts in effect, of which one cancels the other. -/
def ConflictFree (now : Int64) (mapAlerts : AlertMap) : Prop :=
  ∀ entry ∈ mapAlerts, ∀ other ∈ mapAlerts, entry ≠ other → entry.2.isInEffect now = true →
    other.2.isInEffect now = true → entry.2.cancels now other.2 = false

/-- A call that rejects its alert keeps all that is in effect, and one that accepts it leaves no conflict. -/
def Call.AllOrNothing (key : AlertKey) (call : Call) (mapAlerts : AlertMap) : Prop :=
  ((call.result key mapAlerts).1 = false →
      ∀ entry ∈ mapAlerts, entry.2.isInEffect call.now = true → entry ∈ (call.result key mapAlerts).2) ∧
    ((call.result key mapAlerts).1 = true → ConflictFree call.now mapAlerts →
      ConflictFree call.now (call.result key mapAlerts).2)

/-- Where a held alert that the new one leaves cancels the new one, the new one cancels none that is in effect. -/
def Call.Harmless (key : AlertKey) (call : Call) (mapAlerts : AlertMap) : Prop :=
  ∀ alert, checkSignature key call.vchMsg call.vchSig = some alert → alert.admitted call.now = true →
    (∃ entry ∈ mapAlerts, alert.cancels call.now entry.2 = false ∧ entry.2.cancels call.now alert = true) →
      ∀ entry ∈ mapAlerts, entry.2.isInEffect call.now = true → alert.cancels call.now entry.2 = false

section Effect

variable {key : AlertKey} {call : Call} {mapAlerts : AlertMap} {alert : CAlert}

theorem mem_cancelPrevious {now : Int64} {entry : UInt256 × CAlert} :
    entry ∈ alert.cancelPrevious now mapAlerts ↔
      entry ∈ mapAlerts ∧ alert.cancels now entry.2 = false ∧ entry.2.isInEffect now = true := by
  simp [cancelPrevious, List.mem_filter]

/-- Only an alert in effect cancels another. -/
theorem inEffect_of_cancels {now : Int64} {self : CAlert} (cancels : self.cancels now alert = true) :
    self.isInEffect now = true := by
  unfold CAlert.cancels at cancels
  split at cancels
  case isTrue => cases cancels
  case isFalse expired => simpa using expired

/-- An admitted alert that a held one cancels is rejected after the removals. -/
theorem result_blocked (signed : checkSignature key call.vchMsg call.vchSig = some alert)
    (admitted : alert.admitted call.now = true)
    (blocked : ∃ entry ∈ alert.cancelPrevious call.now mapAlerts, entry.2.cancels call.now alert = true) :
    call.result key mapAlerts = (false, alert.cancelPrevious call.now mapAlerts) := by
  have any : ((alert.cancelPrevious call.now mapAlerts).any fun entry => entry.2.cancels call.now alert) = true :=
    List.any_eq_true.mpr blocked
  unfold CAlert.admitted at admitted
  obtain ⟨effect, form⟩ := Bool.and_eq_true_iff.mp admitted
  rw [Bool.not_eq_true'] at form
  simp [Call.result, processAlert, signed, effect, form, any]

theorem ConflictFree.insert {now : Int64} {hash : UInt256} (free : ConflictFree now mapAlerts)
    (leaves : ∀ entry ∈ mapAlerts, alert.cancels now entry.2 = false)
    (left : ∀ entry ∈ mapAlerts, entry.2.cancels now alert = false) :
    ConflictFree now (insert hash alert mapAlerts) := by
  intro entry member other otherMember different effect otherEffect
  rcases mem_of_mem_insert member with held | rfl
  · rcases mem_of_mem_insert otherMember with otherHeld | rfl
    · exact free entry held other otherHeld different effect otherEffect
    · exact left entry held
  · rcases mem_of_mem_insert otherMember with otherHeld | rfl
    · exact leaves other otherHeld
    · exact absurd rfl different

theorem ConflictFree.cancelPrevious {now : Int64} (free : ConflictFree now mapAlerts) :
    ConflictFree now (alert.cancelPrevious now mapAlerts) :=
  fun entry member other otherMember =>
    free entry (mem_cancelPrevious.mp member).1 other (mem_cancelPrevious.mp otherMember).1

/-- An accepted alert leaves no conflict where there was none. -/
theorem accepted_conflictFree (accepted : (call.result key mapAlerts).1 = true) (free : ConflictFree call.now mapAlerts) :
    ConflictFree call.now (call.result key mapAlerts).2 := by
  rcases processAlert_cases key call mapAlerts with same | ⟨alert, -, -, ⟨-, result⟩ | ⟨unblocked, result⟩⟩
  · rw [same] at accepted
    cases accepted
  · rw [result] at accepted
    cases accepted
  · rw [result]
    exact free.cancelPrevious.insert (fun entry member => (mem_cancelPrevious.mp member).2.1) unblocked

/-- A call has all of its effect or none, exactly when it is harmless: not both does a held alert that the new one
leaves cancel the new one, and the new one cancel a held alert that is in effect. -/
theorem allOrNothing_iff (key : AlertKey) (call : Call) (mapAlerts : AlertMap) :
    call.AllOrNothing key mapAlerts ↔ call.Harmless key mapAlerts := by
  constructor
  · rintro ⟨rejected, -⟩ alert signed admitted ⟨blocker, held, leaves, cancels⟩ entry member effect
    have blocked := mem_cancelPrevious.mpr ⟨held, leaves, inEffect_of_cancels cancels⟩
    have result := result_blocked signed admitted ⟨blocker, blocked, cancels⟩
    rw [result] at rejected
    exact (mem_cancelPrevious.mp (rejected rfl entry member effect)).2.1
  · intro harmless
    refine ⟨fun rejected entry member effect => ?_, accepted_conflictFree⟩
    rcases processAlert_cases key call mapAlerts with same | ⟨alert, signed, admitted, ⟨blocked, result⟩ | ⟨-, result⟩⟩
    · rw [same]
      exact member
    · obtain ⟨blocker, kept, cancels⟩ := blocked
      obtain ⟨held, leaves, -⟩ := mem_cancelPrevious.mp kept
      rw [result]
      exact mem_cancelPrevious.mpr
        ⟨member, harmless alert signed admitted ⟨blocker, held, leaves, cancels⟩ entry member effect, effect⟩
    · rw [result] at rejected
      cases rejected

end Effect

section Concrete

/-- The call of an ordinary alert with this number, which cancels all up to `nCancel`. -/
def numberedCall (nID nCancel : Int32) : Call := ⟨2000, sampleMsg 9000 nID nCancel maxInt 1 [0x68, 0x69], []⟩

/-- `mapAlerts` after alert 7, and alert 9 that cancels all up to 6. -/
def heldAlerts : AlertMap := run sampleAlertKey [numberedCall 7 0, numberedCall 9 6] []

/-- Alert 5 is cancelled by alert 9 and rejected, but alert 7, which it cancels, is gone. -/
theorem rejected_alert_removes :
    ((numberedCall 5 7).result sampleAlertKey heldAlerts).1 = false ∧
      heldAlerts.map (fun entry => (entry.2.nID, entry.2.isInEffect 2000)) = [(7, true), (9, true)] ∧
      ((numberedCall 5 7).result sampleAlertKey heldAlerts).2.map (·.2.nID) = [9] ∧
      ¬ (numberedCall 5 7).AllOrNothing sampleAlertKey heldAlerts := by
  have rejected : ((numberedCall 5 7).result sampleAlertKey heldAlerts).1 = false := by decide +kernel
  have before : heldAlerts.map (fun entry => (entry.2.nID, entry.2.isInEffect 2000)) = [(7, true), (9, true)] := by
    decide +kernel
  have after : ((numberedCall 5 7).result sampleAlertKey heldAlerts).2.map (·.2.nID) = [9] := by decide +kernel
  refine ⟨rejected, before, after, fun claim => ?_⟩
  obtain ⟨entry, member, same⟩ : ∃ entry ∈ heldAlerts, (entry.2.nID, entry.2.isInEffect 2000) = (7, true) :=
    List.mem_map.mp (by rw [before]; exact List.mem_cons_self)
  obtain ⟨number, effect⟩ := Prod.mk.inj same
  have kept := List.mem_map_of_mem (f := fun held : UInt256 × CAlert => held.2.nID) (claim.1 rejected entry member effect)
  rw [after, List.mem_singleton, number] at kept
  cases kept

end Concrete

end CAlert

end InfiniteRicks
