import Mathlib.Data.List.NodupEquivFin
import Mathlib.Data.Fintype.Card
import Mathlib.Order.Fin.Basic

/-!
# Assignments in order

Each signature is to be assigned a key of its own that accepts it, and a later signature
a later key. Taking the first key that accepts the next signature finds such an
assignment whenever there is one.
-/

namespace InfiniteRicks.Library.Assignment

variable {α β : Type*}

/-- There is a strictly order-preserving assignment of the signatures to keys that accept them. -/
def Assignable (accepts : α → β → Bool) (sigs : List α) (keys : List β) : Prop :=
  ∃ assigned : Fin sigs.length → Fin keys.length, StrictMono assigned ∧
    ∀ i, accepts (sigs.get i) (keys.get (assigned i)) = true

/-- Take the keys in order, and each for the next signature if it accepts that one. -/
def greedy (accepts : α → β → Bool) : List α → List β → Bool
  | [], _ => true
  | _ :: _, [] => false
  | sig :: sigs, key :: keys =>
      if accepts sig key then greedy accepts sigs keys else greedy accepts (sig :: sigs) keys

variable {accepts : α → β → Bool} {sigs : List α} {keys : List β}

@[simp] theorem greedy_nil : greedy accepts [] keys = true := by
  cases keys <;> rfl

/-- The keys of an assignment are a sublist of the keys. -/
theorem assignable_iff_sublist :
    Assignable accepts sigs keys ↔
      ∃ chosen, chosen.Sublist keys ∧ List.Forall₂ (fun sig key => accepts sig key = true) sigs chosen := by
  constructor
  · rintro ⟨assigned, mono, accepted⟩
    have length : (List.ofFn fun i => keys.get (assigned i)).length = sigs.length := List.length_ofFn
    refine ⟨List.ofFn fun i => keys.get (assigned i), ?_, ?_⟩
    · rw [List.sublist_iff_exists_fin_orderEmbedding_get_eq]
      refine ⟨(Fin.castOrderIso length).toOrderEmbedding.trans (OrderEmbedding.ofStrictMono assigned mono), fun i => ?_⟩
      rw [List.get_ofFn]
      rfl
    · rw [List.forall₂_iff_get]
      refine ⟨length.symm, fun i inSigs _ => ?_⟩
      rw [List.get_ofFn]
      exact accepted ⟨i, inSigs⟩
  · rintro ⟨chosen, sublist, accepted⟩
    obtain ⟨embedding, same⟩ := List.sublist_iff_exists_fin_orderEmbedding_get_eq.mp sublist
    obtain ⟨length, each⟩ := List.forall₂_iff_get.mp accepted
    refine ⟨fun i => embedding (i.cast length), fun i j less => embedding.strictMono less, fun i => ?_⟩
    rw [← same (i.cast length)]
    exact each i i.isLt (length ▸ i.isLt)

/-- The exchange: where the first key accepts the first signature, an assignment can use it for that. -/
theorem exchange {sig : α} {key : β} (accepted : accepts sig key = true) :
    (∃ chosen, chosen.Sublist (key :: keys) ∧
      List.Forall₂ (fun sig key => accepts sig key = true) (sig :: sigs) chosen) ↔
    ∃ chosen, chosen.Sublist keys ∧ List.Forall₂ (fun sig key => accepts sig key = true) sigs chosen := by
  constructor
  · rintro ⟨chosen, sublist, each⟩
    cases each with
    | cons _ later => exact ⟨_, sublist.tail, later⟩
  · rintro ⟨chosen, sublist, each⟩
    exact ⟨key :: chosen, sublist.cons_cons key, .cons accepted each⟩

/-- A key that does not accept the first signature is of no use to the later ones either. -/
theorem skip {sig : α} {key : β} (refused : ¬ accepts sig key = true) :
    (∃ chosen, chosen.Sublist (key :: keys) ∧
      List.Forall₂ (fun sig key => accepts sig key = true) (sig :: sigs) chosen) ↔
    ∃ chosen, chosen.Sublist keys ∧ List.Forall₂ (fun sig key => accepts sig key = true) (sig :: sigs) chosen := by
  constructor
  · rintro ⟨chosen, sublist, each⟩
    cases sublist with
    | cons _ within => exact ⟨chosen, within, each⟩
    | cons_cons _ within =>
        cases each with
        | cons accepted _ => exact absurd accepted refused
  · rintro ⟨chosen, sublist, each⟩
    exact ⟨chosen, sublist.cons key, each⟩

/-- Taking keys greedily succeeds exactly where there is an assignment. -/
theorem greedy_iff : greedy accepts sigs keys = true ↔ Assignable accepts sigs keys := by
  rw [assignable_iff_sublist]
  induction keys generalizing sigs with
  | nil =>
      cases sigs with
      | nil => exact iff_of_true rfl ⟨[], List.Sublist.refl [], .nil⟩
      | cons sig sigs =>
          refine iff_of_false Bool.false_ne_true ?_
          rintro ⟨chosen, sublist, each⟩
          obtain rfl := List.sublist_nil.mp sublist
          cases each
  | cons key keys ih =>
      cases sigs with
      | nil => exact iff_of_true rfl ⟨[], List.nil_sublist _, .nil⟩
      | cons sig sigs =>
          rw [greedy]
          split_ifs with accepted
          · rw [exchange accepted, ih]
          · rw [skip accepted, ih]

/-- There is no assignment to fewer keys than signatures. -/
theorem greedy_of_length_lt (fewer : keys.length < sigs.length) : greedy accepts sigs keys = false := by
  rw [← Bool.not_eq_true, greedy_iff]
  rintro ⟨assigned, mono, -⟩
  have card := Fintype.card_le_of_injective assigned mono.injective
  rw [Fintype.card_fin, Fintype.card_fin] at card
  omega

end InfiniteRicks.Library.Assignment
