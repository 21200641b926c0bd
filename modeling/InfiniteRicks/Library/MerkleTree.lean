import Mathlib.Data.List.Nodup
import Mathlib.Logic.Function.Basic

/-!
# Merkle trees with a duplicated last node

Levels of a hash tree over an arbitrary type: neighbours are paired, and an odd last
node is paired with itself. An entry of the next level is the pair of two entries of
this one (`getD_level`), and distinct leaves that are not pairs themselves are
determined by the root (`root_inj`).
-/

namespace InfiniteRicks.Library.MerkleTree

variable {α : Type*} (pair : α → α → α)

/-- One level up. -/
def level : List α → List α
  | [] => []
  | [left] => [pair left left]
  | left :: right :: rest => pair left right :: level rest

/-- Levels up to a single node, which is the root; the fuel bounds the height. -/
def root (zero : α) : Nat → List α → α
  | _, [] => zero
  | _, [top] => top
  | 0, top :: _ => top
  | fuel + 1, entries => root zero fuel (level pair entries)

/-- The levels from the leaves to the root. -/
def levels : Nat → List α → List (List α)
  | 0, entries => [entries]
  | fuel + 1, entries => if 1 < entries.length then entries :: levels fuel (level pair entries) else [entries]

theorem length_level : ∀ entries : List α, (level pair entries).length = (entries.length + 1) / 2
  | [] => by simp [level]
  | [_] => by simp [level]
  | left :: right :: rest => by
      simp only [level, List.length_cons, length_level rest]
      omega

/-- An entry of a level is the pair of the two entries below it; the right one is the
last entry where there is no other. -/
theorem getD_level (zero : α) : ∀ (entries : List α) {k : Nat}, 2 * k < entries.length →
    (level pair entries).getD k zero =
      pair (entries.getD (2 * k) zero) (entries.getD (min (2 * k + 1) (entries.length - 1)) zero)
  | [], k, inside => by simp at inside
  | [only], k, inside => by
      have first : k = 0 := by
        simp only [List.length_singleton] at inside
        omega
      subst first
      rfl
  | left :: right :: rest, 0, _ => by simp [level]
  | left :: right :: rest, k + 1, inside => by
      have below : 2 * k < rest.length := by
        simp only [List.length_cons] at inside
        omega
      have double : 2 * (k + 1) = 2 * k + 1 + 1 := by omega
      have last : min (2 * k + 1 + 1 + 1) (rest.length + 1 + 1 - 1) = min (2 * k + 1) (rest.length - 1) + 1 + 1 := by
        omega
      rw [level, List.getD_cons_succ, getD_level zero rest below, double, List.length_cons, List.length_cons, last]
      simp only [List.getD_cons_succ]

theorem level_ne_nil {entries : List α} (nonempty : entries ≠ []) : level pair entries ≠ [] := by
  match entries, nonempty with
  | [_], _ => simp [level]
  | _ :: _ :: _, _ => simp [level]

/-- The root is the last node of all levels. -/
theorem getLast_levels (zero : α) {fuel : Nat} {entries : List α} (enough : entries.length ≤ fuel)
    (nonempty : entries ≠ []) : (levels pair fuel entries).flatten.getLast? = some (root pair zero fuel entries) := by
  induction fuel generalizing entries with
  | zero => exact absurd (List.eq_nil_of_length_eq_zero (Nat.le_zero.mp enough)) nonempty
  | succ fuel ih =>
      match entries, nonempty with
      | [top], _ => simp [levels, root]
      | left :: right :: rest, _ =>
          have shorter : (level pair (left :: right :: rest)).length ≤ fuel := by
            rw [length_level]
            simp only [List.length_cons] at enough ⊢
            omega
          have last := ih shorter (level_ne_nil pair (List.cons_ne_nil _ _))
          rw [levels, if_pos (by simp), List.flatten_cons, List.getLast?_append, last]
          rfl

/-- The pairs that are hashed for one level. -/
def pairs : List α → List (α × α)
  | [] => []
  | [left] => [(left, left)]
  | left :: right :: rest => (left, right) :: pairs rest

/-- The pairs that are hashed for the whole tree. -/
def hashed : Nat → List α → List (α × α)
  | 0, _ => []
  | fuel + 1, entries =>
      if 1 < entries.length then pairs entries ++ hashed fuel (level pair entries) else []

section Injective

variable {pair} {Hashed : α × α → Prop}

/-- No two of the pairs collide. -/
def CollisionFree (pair : α → α → α) (Hashed : α × α → Prop) : Prop :=
  ∀ {left right left' right'}, Hashed (left, right) → Hashed (left', right') →
    pair left right = pair left' right' → left = left' ∧ right = right'

/-- Pairs of pairs, down to leaves that are not pairs. -/
inductive Depth (pair : α → α → α) (Hashed : α × α → Prop) : Nat → α → Prop
  | leaf {entry} (notPair : ∀ left right, Hashed (left, right) → pair left right ≠ entry) :
      Depth pair Hashed 0 entry
  | node {depth left right} (within : Hashed (left, right)) (below : Depth pair Hashed depth left) :
      Depth pair Hashed (depth + 1) (pair left right)

/-- An entry has one depth. -/
theorem Depth.unique (injective : CollisionFree pair Hashed) {first second : Nat} {entry : α}
    (one : Depth pair Hashed first entry) (other : Depth pair Hashed second entry) : first = second := by
  induction one generalizing second with
  | leaf notPair =>
      cases other with
      | leaf => rfl
      | node within => exact absurd rfl (notPair _ _ within)
  | @node depth left right within below ih =>
      generalize whole : pair left right = entry at other
      cases other with
      | leaf notPair => exact absurd whole (notPair _ _ within)
      | node inside lower =>
          obtain ⟨rfl, rfl⟩ := injective within inside whole
          rw [ih lower]

/-- Every entry of a level is the pair of an entry of the level below with another. -/
theorem mem_level : ∀ {entries : List α} {entry : α}, entry ∈ level pair entries →
    ∃ left right, left ∈ entries ∧ (left, right) ∈ pairs entries ∧ entry = pair left right
  | [], _, member => by simp [level] at member
  | [only], entry, member =>
      ⟨only, only, List.mem_cons_self, List.mem_cons_self, List.mem_singleton.mp member⟩
  | left :: right :: rest, entry, member => by
      rcases List.mem_cons.mp member with rfl | later
      · exact ⟨left, right, List.mem_cons_self, List.mem_cons_self, rfl⟩
      · obtain ⟨first, second, inside, paired, same⟩ := mem_level later
        exact ⟨first, second, List.mem_cons_of_mem _ (List.mem_cons_of_mem _ inside),
          List.mem_cons_of_mem _ paired, same⟩

theorem depth_level {depth : Nat} {entries : List α} (within : ∀ both ∈ pairs entries, Hashed both)
    (deep : ∀ entry ∈ entries, Depth pair Hashed depth entry) :
    ∀ entry ∈ level pair entries, Depth pair Hashed (depth + 1) entry := by
  intro entry member
  obtain ⟨left, right, inside, paired, rfl⟩ := mem_level member
  exact .node (within _ paired) (deep left inside)

theorem nodup_level (injective : CollisionFree pair Hashed) : ∀ {entries : List α},
    (∀ both ∈ pairs entries, Hashed both) → entries.Nodup → (level pair entries).Nodup
  | [], _, _ => List.nodup_nil
  | [_], _, _ => List.nodup_singleton _
  | left :: right :: rest, within, distinct => by
      obtain ⟨leftNew, rightDistinct⟩ := List.nodup_cons.mp distinct
      have later : ∀ both ∈ pairs rest, Hashed both := fun both member =>
        within both (List.mem_cons_of_mem _ member)
      refine List.nodup_cons.mpr ⟨?_, nodup_level injective later (List.nodup_cons.mp rightDistinct).2⟩
      intro repeated
      obtain ⟨first, second, inside, paired, same⟩ := mem_level repeated
      obtain ⟨rfl, -⟩ := injective (within _ List.mem_cons_self) (later _ paired) same
      exact leftNew (List.mem_cons_of_mem _ inside)

/-- Distinct entries are determined by the next level: a list that ends with its last
entry twice is not distinct. -/
theorem level_inj (injective : CollisionFree pair Hashed) : ∀ {first second : List α},
    (∀ both ∈ pairs first, Hashed both) → (∀ both ∈ pairs second, Hashed both) →
    first.Nodup → second.Nodup → level pair first = level pair second → first = second
  | [], [], _, _, _, _, _ => rfl
  | [], [_], _, _, _, _, same => by simp [level] at same
  | [], _ :: _ :: _, _, _, _, _, same => by simp [level] at same
  | [_], [], _, _, _, _, same => by simp [level] at same
  | _ :: _ :: _, [], _, _, _, _, same => by simp [level] at same
  | [only], [other], within, within', _, _, same => by
      obtain ⟨rfl, -⟩ := injective (within _ List.mem_cons_self) (within' _ List.mem_cons_self)
        (List.cons.inj same).1
      rfl
  | [only], left :: right :: rest, within, within', _, distinct, same => by
      obtain ⟨rfl, twice⟩ := injective (within _ List.mem_cons_self) (within' _ List.mem_cons_self)
        (List.cons.inj same).1
      simp [twice] at distinct
  | left :: right :: rest, [only], within, within', distinct, _, same => by
      obtain ⟨rfl, twice⟩ := injective (within _ List.mem_cons_self) (within' _ List.mem_cons_self)
        (List.cons.inj same).1
      simp [twice] at distinct
  | left :: right :: rest, left' :: right' :: rest', within, within', distinct, distinct', same => by
      obtain ⟨rfl, rfl⟩ := injective (within _ List.mem_cons_self) (within' _ List.mem_cons_self)
        (List.cons.inj same).1
      have tails := level_inj injective (fun both member => within both (List.mem_cons_of_mem _ member))
        (fun both member => within' both (List.mem_cons_of_mem _ member))
        (List.nodup_cons.mp (List.nodup_cons.mp distinct).2).2
        (List.nodup_cons.mp (List.nodup_cons.mp distinct').2).2 (List.cons.inj same).2
      rw [tails]

/-- The pairs of several entries are those of their level and of the levels above. -/
theorem hashed_several {fuel : Nat} {entries : List α} (several : 1 < entries.length)
    (within : ∀ both ∈ hashed pair (fuel + 1) entries, Hashed both) :
    (∀ both ∈ pairs entries, Hashed both) ∧ ∀ both ∈ hashed pair fuel (level pair entries), Hashed both := by
  simp only [hashed, several, if_true, List.mem_append] at within
  exact ⟨fun both member => within both (Or.inl member), fun both member => within both (Or.inr member)⟩

theorem length_level_le {fuel : Nat} {entries : List α} (several : 1 < entries.length)
    (enough : entries.length ≤ fuel + 1) : (level pair entries).length ≤ fuel := by
  rw [length_level]
  omega

/-- The root lies as deep as the levels below it. -/
theorem depth_root (zero : α) {fuel depth : Nat} {entries : List α} (enough : entries.length ≤ fuel)
    (nonempty : entries ≠ []) (within : ∀ both ∈ hashed pair fuel entries, Hashed both)
    (deep : ∀ entry ∈ entries, Depth pair Hashed depth entry) :
    ∃ height, Depth pair Hashed (depth + height) (root pair zero fuel entries) ∧
      (1 < entries.length → 1 ≤ height) := by
  induction fuel generalizing depth entries with
  | zero => exact absurd (List.eq_nil_of_length_eq_zero (Nat.le_zero.mp enough)) nonempty
  | succ fuel ih =>
      match entries, nonempty with
      | [top], _ => exact ⟨0, deep _ List.mem_cons_self, by simp⟩
      | left :: right :: rest, _ =>
          have several : 1 < (left :: right :: rest).length := by simp
          obtain ⟨here, above⟩ := hashed_several several within
          obtain ⟨height, lies, -⟩ := ih (length_level_le several enough)
            (level_ne_nil pair (List.cons_ne_nil _ _)) above (depth_level here deep)
          refine ⟨height + 1, ?_, fun _ => by omega⟩
          rw [← Nat.add_assoc, Nat.add_right_comm]
          exact lies

theorem root_singleton (zero : α) (fuel : Nat) (top : α) : root pair zero fuel [top] = top := by
  cases fuel <;> rfl

/-- The root of several entries is not an entry of their depth. -/
theorem root_ne (injective : CollisionFree pair Hashed) (zero : α) {fuel depth : Nat} {top : α} {entries : List α}
    (enough : entries.length ≤ fuel) (several : 1 < entries.length)
    (within : ∀ both ∈ hashed pair fuel entries, Hashed both) (deepTop : Depth pair Hashed depth top)
    (deep : ∀ entry ∈ entries, Depth pair Hashed depth entry) : root pair zero fuel entries ≠ top := by
  intro same
  have nonempty : entries ≠ [] := by
    rintro rfl
    simp at several
  obtain ⟨height, lies, positive⟩ := depth_root zero enough nonempty within deep
  have equal := Depth.unique injective (same ▸ lies) deepTop
  have := positive several
  omega

/-- Lists of distinct entries of one depth that have the same root are equal, when no
two of the hashed pairs collide. -/
theorem root_inj (injective : CollisionFree pair Hashed) (zero : α) {fuel fuel' depth : Nat} {first second : List α}
    (enough : first.length ≤ fuel) (enough' : second.length ≤ fuel') (nonempty : first ≠ []) (nonempty' : second ≠ [])
    (within : ∀ both ∈ hashed pair fuel first, Hashed both)
    (within' : ∀ both ∈ hashed pair fuel' second, Hashed both)
    (deep : ∀ entry ∈ first, Depth pair Hashed depth entry)
    (deep' : ∀ entry ∈ second, Depth pair Hashed depth entry)
    (distinct : first.Nodup) (distinct' : second.Nodup)
    (same : root pair zero fuel first = root pair zero fuel' second) : first = second := by
  induction fuel generalizing fuel' depth first second with
  | zero => exact absurd (List.eq_nil_of_length_eq_zero (Nat.le_zero.mp enough)) nonempty
  | succ fuel ih =>
      match first, second, nonempty, nonempty' with
      | [top], [top'], _, _ =>
          rw [root_singleton, root_singleton] at same
          rw [same]
      | [top], left :: right :: rest, _, _ =>
          rw [root_singleton] at same
          exact absurd same.symm
            (root_ne injective zero enough' (by simp) within' (deep _ List.mem_cons_self) deep')
      | left :: right :: rest, [top], _, _ =>
          rw [root_singleton] at same
          exact absurd same (root_ne injective zero enough (by simp) within (deep' _ List.mem_cons_self) deep)
      | left :: right :: rest, left' :: right' :: rest', _, _ =>
          obtain ⟨fewer, rfl⟩ : ∃ fewer, fuel' = fewer + 1 := ⟨fuel' - 1, by simp at enough'; omega⟩
          have several : 1 < (left :: right :: rest).length := by simp
          have several' : 1 < (left' :: right' :: rest').length := by simp
          obtain ⟨here, above⟩ := hashed_several several within
          obtain ⟨here', above'⟩ := hashed_several several' within'
          have levels := ih (length_level_le several enough) (length_level_le several' enough')
            (level_ne_nil pair (List.cons_ne_nil _ _)) (level_ne_nil pair (List.cons_ne_nil _ _)) above above'
            (depth_level here deep) (depth_level here' deep') (nodup_level injective here distinct)
            (nodup_level injective here' distinct') same
          exact level_inj injective here here' distinct distinct' levels

end Injective

end InfiniteRicks.Library.MerkleTree
