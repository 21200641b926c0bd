import InfiniteRicks.SignatureHash

/-!
# Alerts

`CAlert` (`alert.h`, `alert.cpp`). An alert is a signed message; its fields are read from
the message when the signature is checked. `ProcessAlert` first lets the new alert
cancel others and only then asks whether it is cancelled itself, so an alert that
cancels the last one is not stopped by it.
-/

namespace InfiniteRicks

open Library Library.Codec

/-- `CUnsignedAlert`. The sets are listed as they are read. -/
structure CUnsignedAlert where
  nVersion : Int32
  nRelayUntil : Int64
  nExpiration : Int64
  nID : Int32
  nCancel : Int32
  setCancel : List Int32
  nMinVer : Int32
  nMaxVer : Int32
  setSubVer : List Bytes
  nPriority : Int32
  strComment : Bytes
  strStatusBar : Bytes
  strReserved : Bytes
deriving DecidableEq

/-- `Unserialize` of a `std::string`. -/
def readString : Reader CDataStream Bytes := do
  let nSize ← readCompactSize
  CDataStream.read nSize

def CUnsignedAlert.unserialize : Reader CDataStream CUnsignedAlert := do
  let nVersion ← readInt32
  let nRelayUntil ← readInt64
  let nExpiration ← readInt64
  let nID ← readInt32
  let nCancel ← readInt32
  let setCancel ← readVector readInt32
  let nMinVer ← readInt32
  let nMaxVer ← readInt32
  let setSubVer ← readVector readString
  let nPriority ← readInt32
  let strComment ← readString
  let strStatusBar ← readString
  let strReserved ← readString
  return ⟨nVersion, nRelayUntil, nExpiration, nID, nCancel, setCancel, nMinVer, nMaxVer, setSubVer, nPriority,
    strComment, strStatusBar, strReserved⟩

/-- `CAlert`, once its fields have been read. -/
structure CAlert extends CUnsignedAlert where
  vchMsg : Bytes
  vchSig : Bytes
deriving DecidableEq

/-- `Hash`, and `CKey::Verify` under the alert key. -/
structure AlertKey where
  hash : Bytes → UInt256
  verify : UInt256 → Bytes → Bool

/-- `std::numeric_limits<int>::max()`. -/
def maxInt : Int32 := 2147483647

/-- "URGENT: Alert key compromised, upgrade required" -/
def compromisedText : Bytes :=
  [0x55, 0x52, 0x47, 0x45, 0x4e, 0x54, 0x3a, 0x20, 0x41, 0x6c, 0x65, 0x72, 0x74, 0x20, 0x6b, 0x65, 0x79,
    0x20, 0x63, 0x6f, 0x6d, 0x70, 0x72, 0x6f, 0x6d, 0x69, 0x73, 0x65, 0x64, 0x2c, 0x20, 0x75, 0x70, 0x67,
    0x72, 0x61, 0x64, 0x65, 0x20, 0x72, 0x65, 0x71, 0x75, 0x69, 0x72, 0x65, 0x64]

namespace CAlert

/-- `CAlert::CheckSignature`, which reads the fields; `none` where it fails or throws. -/
def checkSignature (key : AlertKey) (vchMsg vchSig : Bytes) : Option CAlert :=
  if !key.verify (key.hash vchMsg) vchSig then none
  else
    match CUnsignedAlert.unserialize (.ofBytes vchMsg) with
    | none => none
    | some (fields, _) => some ⟨fields, vchMsg, vchSig⟩

/-- `CAlert::IsInEffect`, when `GetAdjustedTime` is `now`. -/
def isInEffect (now : Int64) (alert : CAlert) : Bool := now < alert.nExpiration

/-- `CAlert::Cancels`. -/
def cancels (now : Int64) (self alert : CAlert) : Bool :=
  if !self.isInEffect now then false
  else alert.nID ≤ self.nCancel || self.setCancel.contains alert.nID

/-- The form that an alert with the highest `nID` must have. -/
def requiredForm (alert : CAlert) : Bool :=
  alert.nExpiration = maxInt.toInt64 && alert.nCancel = maxInt - 1 && alert.nMinVer = 0 && alert.nMaxVer = maxInt &&
    alert.setSubVer.isEmpty && alert.nPriority = maxInt && alert.strStatusBar = compromisedText

/-- `mapAlerts`. -/
abbrev AlertMap := List (UInt256 × CAlert)

/-- `std::map::insert`, which leaves an entry that is there. -/
def insert (hash : UInt256) (alert : CAlert) (mapAlerts : AlertMap) : AlertMap :=
  if mapAlerts.any (·.1 = hash) then mapAlerts else mapAlerts ++ [(hash, alert)]

/-- The alerts that the new one leaves: neither cancelled by it nor expired. -/
def cancelPrevious (now : Int64) (alert : CAlert) (mapAlerts : AlertMap) : AlertMap :=
  mapAlerts.filter fun entry => !(alert.cancels now entry.2) && entry.2.isInEffect now

/-- `CAlert::ProcessAlert`, without its notifications. -/
def processAlert (key : AlertKey) (now : Int64) (vchMsg vchSig : Bytes) (mapAlerts : AlertMap) : Bool × AlertMap :=
  match checkSignature key vchMsg vchSig with
  | none => (false, mapAlerts)
  | some alert =>
      if !alert.isInEffect now then (false, mapAlerts)
      else if alert.nID = maxInt && !alert.requiredForm then (false, mapAlerts)
      else
        let mapAlerts := alert.cancelPrevious now mapAlerts
        if mapAlerts.any fun entry => entry.2.cancels now alert then (false, mapAlerts)
        else (true, insert (key.hash alert.vchMsg) alert mapAlerts)

/-- One call of `ProcessAlert`: the clock, the message and its signature. -/
structure Call where
  now : Int64
  vchMsg : Bytes
  vchSig : Bytes

def Call.result (key : AlertKey) (call : Call) (mapAlerts : AlertMap) : Bool × AlertMap :=
  processAlert key call.now call.vchMsg call.vchSig mapAlerts

/-- `mapAlerts` after a sequence of calls. -/
def run (key : AlertKey) : List Call → AlertMap → AlertMap
  | [], mapAlerts => mapAlerts
  | call :: calls, mapAlerts => run key calls (call.result key mapAlerts).2

/-- The tests that `ProcessAlert` makes on the alert itself. -/
def admitted (now : Int64) (alert : CAlert) : Bool :=
  alert.isInEffect now && !(alert.nID = maxInt && !alert.requiredForm)

/-- The call does not remove an alert with the highest `nID`: the clock is before its expiration, and an alert
that is admitted does not name it, neither by `nCancel` nor in `setCancel`. -/
def Call.Spares (key : AlertKey) (call : Call) : Prop :=
  call.now < maxInt.toInt64 ∧ ∀ alert, checkSignature key call.vchMsg call.vchSig = some alert →
    alert.admitted call.now = true → alert.nCancel ≠ maxInt ∧ maxInt ∉ alert.setCancel

/-- What `ProcessAlert` can do: refuse the alert outright, refuse it as cancelled, or insert it. -/
theorem processAlert_cases (key : AlertKey) (call : Call) (mapAlerts : AlertMap) :
    call.result key mapAlerts = (false, mapAlerts) ∨
      ∃ alert, checkSignature key call.vchMsg call.vchSig = some alert ∧ alert.admitted call.now = true ∧
        (((∃ entry ∈ alert.cancelPrevious call.now mapAlerts, entry.2.cancels call.now alert = true) ∧
            call.result key mapAlerts = (false, alert.cancelPrevious call.now mapAlerts)) ∨
          ((∀ entry ∈ alert.cancelPrevious call.now mapAlerts, entry.2.cancels call.now alert = false) ∧
            call.result key mapAlerts =
              (true, insert (key.hash alert.vchMsg) alert (alert.cancelPrevious call.now mapAlerts)))) := by
  unfold Call.result processAlert
  cases signed : checkSignature key call.vchMsg call.vchSig with
  | none => exact Or.inl rfl
  | some alert =>
      cases effect : alert.isInEffect call.now with
      | false => exact Or.inl (by simp [effect])
      | true =>
          cases form : (decide (alert.nID = maxInt) && !alert.requiredForm) with
          | true => exact Or.inl (by simp [effect, form])
          | false =>
              refine Or.inr ⟨alert, rfl, by simp [admitted, effect, form], ?_⟩
              cases cancelled : (alert.cancelPrevious call.now mapAlerts).any fun entry => entry.2.cancels call.now alert with
              | true =>
                  refine Or.inl ⟨?_, by simp [effect, form, cancelled]⟩
                  simpa only [List.any_eq_true] using cancelled
              | false =>
                  refine Or.inr ⟨?_, by simp [effect, form, cancelled]⟩
                  simpa using cancelled

theorem mem_insert_of_mem {entry : UInt256 × CAlert} {mapAlerts : AlertMap} (hash : UInt256) (alert : CAlert)
    (member : entry ∈ mapAlerts) : entry ∈ insert hash alert mapAlerts := by
  unfold insert
  split
  · exact member
  · exact List.mem_append_left _ member

theorem mem_of_mem_insert {entry : UInt256 × CAlert} {mapAlerts : AlertMap} {hash : UInt256} {alert : CAlert}
    (member : entry ∈ insert hash alert mapAlerts) : entry ∈ mapAlerts ∨ entry = (hash, alert) := by
  unfold insert at member
  split at member
  · exact Or.inl member
  · rcases List.mem_append.mp member with old | own
    · exact Or.inl old
    · exact Or.inr (List.mem_singleton.mp own)

/-- An alert with the highest `nID` in the required form. -/
def Final (alert : CAlert) : Prop := alert.nID = maxInt ∧ alert.requiredForm = true

theorem Final.expires {alert : CAlert} (final : alert.Final) :
    alert.nExpiration = maxInt.toInt64 ∧ alert.nCancel = maxInt - 1 := by
  have form := final.2
  simp only [requiredForm, Bool.and_eq_true, decide_eq_true_eq] at form
  exact ⟨form.1.1.1.1.1.1, form.1.1.1.1.1.2⟩

theorem le_maxInt (n : Int32) : n ≤ maxInt := by
  rw [Int32.le_iff_toInt_le]
  have bound := n.toInt_lt
  have top : maxInt.toInt = 2147483647 := by decide
  omega

theorem Final.inEffect {key : AlertKey} {call : Call} {alert : CAlert} (final : alert.Final) (spares : call.Spares key) :
    alert.isInEffect call.now = true := by
  rw [isInEffect, final.expires.1]
  exact decide_eq_true spares.1

section Kept

variable {key : AlertKey} {call : Call} {mapAlerts : AlertMap} {entry : UInt256 × CAlert}

/-- A call that spares the last alert leaves it among the others. -/
theorem Final.spared {alert : CAlert} (final : entry.2.Final) (member : entry ∈ mapAlerts) (spares : call.Spares key)
    (signed : checkSignature key call.vchMsg call.vchSig = some alert) (admitted : alert.admitted call.now = true) :
    entry ∈ alert.cancelPrevious call.now mapAlerts := by
  obtain ⟨range, listed⟩ := spares.2 alert signed admitted
  have notNamed : alert.cancels call.now entry.2 = false := by
    have above : ¬ maxInt ≤ alert.nCancel := fun le => range (Int32.le_antisymm (le_maxInt _) le)
    simp [cancels, final.1, above, listed]
  exact List.mem_filter.mpr ⟨member, by simp [notNamed, final.inEffect spares]⟩

theorem Final.stays (final : entry.2.Final) (member : entry ∈ mapAlerts) (spares : call.Spares key) :
    entry ∈ (call.result key mapAlerts).2 := by
  rcases processAlert_cases key call mapAlerts with same | ⟨alert, signed, admitted, ⟨-, result⟩ | ⟨-, result⟩⟩
  · rw [same]
    exact member
  · rw [result]
    exact final.spared member spares signed admitted
  · rw [result]
    exact mem_insert_of_mem _ _ (final.spared member spares signed admitted)

theorem Final.rejects {other : CAlert} (final : entry.2.Final) (member : entry ∈ mapAlerts) (spares : call.Spares key)
    (signed : checkSignature key call.vchMsg call.vchSig = some other) (different : other.nID ≠ maxInt) :
    (call.result key mapAlerts).1 = false := by
  have cancels : entry.2.cancels call.now other = true := by
    have below : other.nID ≤ maxInt - 1 := by
      have notTop : other.nID.toInt ≠ maxInt.toInt := fun same => different (Int32.toInt_inj.mp same)
      have bound := Int32.le_iff_toInt_le.mp (le_maxInt other.nID)
      have top : maxInt.toInt = 2147483647 := by decide
      have next : (maxInt - 1).toInt = 2147483646 := by decide
      rw [Int32.le_iff_toInt_le]
      omega
    simp [CAlert.cancels, final.inEffect spares, final.expires.2, below]
  rcases processAlert_cases key call mapAlerts with same | ⟨alert, found, admitted, ⟨-, result⟩ | ⟨free, -⟩⟩
  · rw [same]
  · rw [result]
  · obtain rfl := Option.some.inj (signed.symm.trans found)
    have clear := free entry (final.spared member spares signed admitted)
    cases cancels.symm.trans clear

theorem Final.stays_run {calls : List Call} (final : entry.2.Final) (member : entry ∈ mapAlerts)
    (spared : ∀ call ∈ calls, call.Spares key) : entry ∈ run key calls mapAlerts := by
  induction calls generalizing mapAlerts with
  | nil => exact member
  | cons call calls ih =>
      obtain ⟨first, rest⟩ := List.forall_mem_cons.mp spared
      exact ih (final.stays member first) rest

end Kept

/-- The entries come from calls: the key is the hash of the message, and the fields are its fields. -/
def FromCalls (key : AlertKey) (calls : List Call) (mapAlerts : AlertMap) : Prop :=
  ∀ entry ∈ mapAlerts, entry.1 = key.hash entry.2.vchMsg ∧
    checkSignature key entry.2.vchMsg entry.2.vchSig = some entry.2 ∧ ∃ call ∈ calls, call.vchMsg = entry.2.vchMsg

theorem checkSignature_fields {key : AlertKey} {vchMsg vchSig : Bytes} {alert : CAlert}
    (signed : checkSignature key vchMsg vchSig = some alert) : alert.vchMsg = vchMsg ∧ alert.vchSig = vchSig := by
  unfold checkSignature at signed
  split at signed
  · cases signed
  · split at signed
    · cases signed
    · cases signed
      exact ⟨rfl, rfl⟩

/-- Two signed forms of one message have the same fields. -/
theorem checkSignature_same {key : AlertKey} {vchMsg vchSig vchSig' : Bytes} {alert alert' : CAlert}
    (signed : checkSignature key vchMsg vchSig = some alert) (signed' : checkSignature key vchMsg vchSig' = some alert') :
    alert.toCUnsignedAlert = alert'.toCUnsignedAlert := by
  unfold checkSignature at signed signed'
  split at signed
  · cases signed
  · split at signed'
    · cases signed'
    · cases read : CUnsignedAlert.unserialize (.ofBytes vchMsg) with
      | none =>
          rw [read] at signed
          cases signed
      | some result =>
          rw [read] at signed signed'
          cases signed
          cases signed'
          rfl

theorem FromCalls.result {key : AlertKey} {calls : List Call} {mapAlerts : AlertMap}
    (known : FromCalls key calls mapAlerts) (call : Call) :
    FromCalls key (calls ++ [call]) (call.result key mapAlerts).2 := by
  have wider : ∀ entry ∈ mapAlerts, entry.1 = key.hash entry.2.vchMsg ∧
      checkSignature key entry.2.vchMsg entry.2.vchSig = some entry.2 ∧
        ∃ earlier ∈ calls ++ [call], earlier.vchMsg = entry.2.vchMsg := by
    intro entry member
    obtain ⟨hash, signed, earlier, inCalls, same⟩ := known entry member
    exact ⟨hash, signed, earlier, List.mem_append_left _ inCalls, same⟩
  rcases processAlert_cases key call mapAlerts with same | ⟨alert, signed, -, ⟨-, result⟩ | ⟨-, result⟩⟩
  · rw [same]
    exact wider
  · rw [result]
    exact fun entry member => wider entry (List.mem_filter.mp member).1
  · rw [result]
    intro entry member
    rcases mem_of_mem_insert member with old | rfl
    · exact wider entry (List.mem_filter.mp old).1
    · obtain ⟨message, signature⟩ := checkSignature_fields signed
      refine ⟨rfl, ?_, call, List.mem_append_right _ (List.mem_singleton_self call), message.symm⟩
      rw [message, signature]
      exact signed

theorem FromCalls.run {key : AlertKey} {before : List Call} {mapAlerts : AlertMap}
    (known : FromCalls key before mapAlerts) (calls : List Call) :
    FromCalls key (before ++ calls) (CAlert.run key calls mapAlerts) := by
  induction calls generalizing before mapAlerts with
  | nil => rwa [List.append_nil]
  | cons call calls ih =>
      rw [List.append_cons]
      exact ih (known.result call)

/-- The highest alert that is accepted is in the map afterwards, unless another message has its hash. -/
theorem accepted_mem {key : AlertKey} {calls : List Call} {mapAlerts : AlertMap} {call : Call} {alert : CAlert}
    (known : FromCalls key calls mapAlerts)
    (noCollision : ∀ earlier ∈ calls, key.hash earlier.vchMsg = key.hash call.vchMsg → earlier.vchMsg = call.vchMsg)
    (signed : checkSignature key call.vchMsg call.vchSig = some alert) (accepted : (call.result key mapAlerts).1 = true) :
    alert.admitted call.now = true ∧ ∃ entry ∈ (call.result key mapAlerts).2, entry.1 = key.hash call.vchMsg ∧
      entry.2.vchMsg = call.vchMsg ∧ entry.2.toCUnsignedAlert = alert.toCUnsignedAlert := by
  rcases processAlert_cases key call mapAlerts with same | ⟨found, again, admitted, ⟨-, result⟩ | ⟨-, result⟩⟩
  · rw [same] at accepted
    cases accepted
  · rw [result] at accepted
    cases accepted
  · obtain rfl := Option.some.inj (signed.symm.trans again)
    obtain ⟨message, -⟩ := checkSignature_fields signed
    refine ⟨admitted, ?_⟩
    rw [result]
    by_cases present : (alert.cancelPrevious call.now mapAlerts).any (·.1 = key.hash alert.vchMsg) = true
    · obtain ⟨entry, member, same⟩ := List.any_eq_true.mp present
      obtain ⟨hash, entrySigned, earlier, inCalls, sent⟩ := known entry (List.mem_filter.mp member).1
      have sameHash : entry.1 = key.hash call.vchMsg := (of_decide_eq_true same).trans (congrArg key.hash message)
      have sameMessage : entry.2.vchMsg = call.vchMsg := by
        rw [← sent]
        refine noCollision earlier inCalls ?_
        rw [sent, ← hash, sameHash]
      refine ⟨entry, mem_insert_of_mem _ _ member, sameHash, sameMessage, ?_⟩
      rw [sameMessage] at entrySigned
      exact checkSignature_same entrySigned signed
    · refine ⟨(key.hash alert.vchMsg, alert), ?_, by rw [message], message, rfl⟩
      rw [insert, if_neg present]
      exact List.mem_append_right _ (List.mem_singleton_self _)

/-- After the highest alert has been accepted, and as long as every later alert spares it, it stays in `mapAlerts` and
every alert with another `nID` is rejected. -/
theorem compromise_alert_final (key : AlertKey) (earlier later : List Call) (call next : Call) (alert : CAlert)
    (signed : checkSignature key call.vchMsg call.vchSig = some alert) (highest : alert.nID = maxInt)
    (accepted : (call.result key (run key earlier [])).1 = true)
    (noCollision : ∀ other ∈ earlier, key.hash other.vchMsg = key.hash call.vchMsg → other.vchMsg = call.vchMsg)
    (spared : ∀ other ∈ later ++ [next], other.Spares key) :
    (∃ entry ∈ run key later (call.result key (run key earlier [])).2, entry.1 = key.hash call.vchMsg ∧
        entry.2.vchMsg = call.vchMsg ∧ entry.2.toCUnsignedAlert = alert.toCUnsignedAlert) ∧
      ∀ other, checkSignature key next.vchMsg next.vchSig = some other → other.nID ≠ maxInt →
        (next.result key (run key later (call.result key (run key earlier [])).2)).1 = false := by
  have known : FromCalls key earlier (run key earlier []) := @FromCalls.run key [] [] (List.forall_mem_nil _) earlier
  obtain ⟨admitted, entry, member, hash, message, fields⟩ := accepted_mem known noCollision signed accepted
  have final : entry.2.Final := by
    have form : alert.requiredForm = true := by
      simp only [CAlert.admitted, highest, decide_true, Bool.true_and, Bool.not_not, Bool.and_eq_true] at admitted
      exact admitted.2
    refine ⟨by rw [fields]; exact highest, ?_⟩
    unfold requiredForm at form ⊢
    rw [fields]
    exact form
  have stays : entry ∈ run key later (call.result key (run key earlier [])).2 :=
    final.stays_run member fun other inLater => spared other (List.mem_append_left _ inLater)
  refine ⟨⟨entry, stays, hash, message, fields⟩, fun other found different => ?_⟩
  exact final.rejects stays (spared next (List.mem_append_right _ (List.mem_singleton_self next))) found different

/-- Stand-ins for `Hash` and the alert key. -/
def sampleAlertKey : AlertKey := ⟨lastBytes, fun _ _ => true⟩

/-- The message of an alert with these numbers and this status. -/
def sampleMsg (nExpiration : Int64) (nID nCancel nMaxVer nPriority : Int32) (strStatusBar : Bytes) : Bytes :=
  writeInt32 1 ++ writeInt64 0 ++ writeInt64 nExpiration ++ writeInt32 nID ++ writeInt32 nCancel ++ [0] ++
    writeInt32 0 ++ writeInt32 nMaxVer ++ [0] ++ writeInt32 nPriority ++ [0] ++ writeBytes strStatusBar ++ [0]

/-- The alert that the key is compromised. -/
def compromisedCall : Call := ⟨1000, sampleMsg maxInt.toInt64 maxInt (maxInt - 1) maxInt maxInt compromisedText, []⟩

/-- An ordinary alert, and one that cancels every other. -/
def ordinaryCall : Call := ⟨2000, sampleMsg 9000 5 4 maxInt 1 [0x68, 0x69], []⟩
def overridingCall : Call := ⟨2000, sampleMsg 9000 5 maxInt maxInt 1 [0x68, 0x69], []⟩

/-- How the two messages are read. -/
theorem sampleCalls_signed :
    checkSignature sampleAlertKey compromisedCall.vchMsg compromisedCall.vchSig =
        some ⟨⟨1, 0, maxInt.toInt64, maxInt, maxInt - 1, [], 0, maxInt, [], maxInt, [], compromisedText, []⟩,
          compromisedCall.vchMsg, []⟩ ∧
      checkSignature sampleAlertKey ordinaryCall.vchMsg ordinaryCall.vchSig =
        some ⟨⟨1, 0, 9000, 5, 4, [], 0, maxInt, [], 1, [], [0x68, 0x69], []⟩, ordinaryCall.vchMsg, []⟩ := by
  decide +kernel

/-- An ordinary alert is rejected after the highest one. -/
theorem compromise_alert_final_sample :
    (compromisedCall.result sampleAlertKey []).1 = true ∧
      (ordinaryCall.result sampleAlertKey (compromisedCall.result sampleAlertKey []).2).1 = false := by
  obtain ⟨compromised, ordinary⟩ := sampleCalls_signed
  have accepted : (compromisedCall.result sampleAlertKey []).1 = true := by
    simp only [Call.result, processAlert, compromised]
    decide
  have spares : ordinaryCall.Spares sampleAlertKey := by
    refine ⟨by decide, fun alert found _ => ?_⟩
    obtain rfl := Option.some.inj (ordinary.symm.trans found)
    exact ⟨by decide, List.not_mem_nil⟩
  obtain ⟨-, rejects⟩ := compromise_alert_final sampleAlertKey [] [] compromisedCall ordinaryCall _
    compromised rfl accepted (List.forall_mem_nil _) (List.forall_mem_singleton.mpr spares)
  exact ⟨accepted, rejects _ ordinary (by decide)⟩

/-- An alert with `nCancel` at the maximum removes the highest alert and is accepted. -/
theorem compromise_alert_overridden :
    (checkSignature sampleAlertKey compromisedCall.vchMsg compromisedCall.vchSig).any
        (fun alert => alert.nID = maxInt && alert.requiredForm) = true ∧
      (checkSignature sampleAlertKey overridingCall.vchMsg overridingCall.vchSig).any (fun alert => alert.nID ≠ maxInt) = true ∧
      (compromisedCall.result sampleAlertKey []).1 = true ∧
      (overridingCall.result sampleAlertKey (compromisedCall.result sampleAlertKey []).2).1 = true ∧
      ((overridingCall.result sampleAlertKey (compromisedCall.result sampleAlertKey []).2).2.any
        fun entry => entry.2.nID = maxInt) = false := by
  decide +kernel

end CAlert

end InfiniteRicks
