import InfiniteRicks.BaseUint
import InfiniteRicks.Library.Words
import InfiniteRicks.WalletDumpSpec
import Mathlib.Data.Int.ModEq
import Mathlib.Data.List.GetD

/-!
# Arithmetic modulo 2^BITS

The operators of `base_uint` compute on the represented numbers modulo `2 ^ BITS`: the carry of an addition
stays in its 64 bits, an increment and a decrement stop at the first word that does not pass its range, and
a shift moves every bit by the whole amount.
-/

namespace InfiniteRicks

open Library.Words

namespace BaseUint

open Nat (ofDigits)

variable {WIDTH : Nat}

/-! ## Words as digits -/

/-- The digits of some words, in base `2 ^ 32`. -/
def digits (pn : List UInt32) : List Nat := pn.map UInt32.toNat

theorem digits_lt (pn : List UInt32) : ∀ x ∈ digits pn, x < 2 ^ 32 := by
  intro x member
  obtain ⟨p, -, rfl⟩ := List.mem_map.mp member
  exact p.toNat_lt

theorem length_digits (a : BaseUint WIDTH) : (digits a.pn).length = WIDTH :=
  (List.length_map _).trans a.length_pn

theorem range_eq (WIDTH : Nat) : (2 ^ 32) ^ WIDTH = 2 ^ (32 * WIDTH) := (pow_mul 2 32 WIDTH).symm

theorem value_lt (a : BaseUint WIDTH) : a.value < 2 ^ (32 * WIDTH) := by
  have bounded := Nat.ofDigits_lt_base_pow_length (by decide : 1 < 2 ^ 32) (digits_lt a.pn)
  rwa [length_digits, range_eq] at bounded

theorem digits_inj {pn bpn : List UInt32} (same : digits pn = digits bpn) : pn = bpn :=
  List.map_injective_iff.mpr (fun _ _ => UInt32.toNat_inj.mp) same

/-- The number determines the words. -/
theorem value_inj {a b : BaseUint WIDTH} : a.value = b.value ↔ a = b := by
  refine ⟨fun same => BaseUint.ext (digits_inj ?_), congrArg value⟩
  exact Nat.ofDigits_inj_of_len_eq (by decide : 1 < 2 ^ 32) ((length_digits a).trans (length_digits b).symm)
    (digits_lt a.pn) (digits_lt b.pn) same

/-! ## The loops -/

theorem digits_incWords (pn : List UInt32) : digits (incWords pn) = increment (2 ^ 32) (digits pn) := by
  induction pn with
  | nil => rfl
  | cons p rest ih =>
      have next : (p + 1).toNat = (p.toNat + 1) % 2 ^ 32 := UInt32.toNat_add p 1
      have wraps : p + 1 = 0 ↔ (p.toNat + 1) % 2 ^ 32 = 0 := by
        rw [← UInt32.toNat_inj, next, UInt32.toNat_zero]
      simp only [digits, List.map_cons, incWords, increment] at ih ⊢
      by_cases full : p + 1 = 0
      · rw [if_pos full, if_pos (wraps.mp full), List.map_cons, next, wraps.mp full, ih]
      · rw [if_neg full, if_neg (fun zero => full (wraps.mpr zero)), List.map_cons, next]

theorem digits_decWords (pn : List UInt32) : digits (decWords pn) = decrement (2 ^ 32) (digits pn) := by
  induction pn with
  | nil => rfl
  | cons p rest ih =>
      have wraps : p - 1 = 0xffffffff ↔ p.toNat = 0 := by
        rw [← UInt32.toNat_zero, UInt32.toNat_inj]
        constructor
        · intro top
          rw [← UInt32.sub_add_cancel p 1, top]
          rfl
        · rintro rfl
          rfl
      simp only [digits, List.map_cons, decWords, decrement] at ih ⊢
      by_cases zero : p.toNat = 0
      · rw [if_pos (wraps.mpr zero), if_pos zero, List.map_cons, wraps.mpr zero, ih]
        rfl
      · have least : 1 ≤ p := UInt32.le_iff_toNat_le.mpr (Nat.pos_of_ne_zero zero)
        rw [if_neg (fun top => zero (wraps.mp top)), if_neg zero, List.map_cons, UInt32.toNat_sub_of_le _ _ least]
        rfl

/-- The carry is 0 or 1, so the sum of a round is less than `2 ^ 64`. -/
theorem digits_addWords {carry : UInt64} (small : carry.toNat ≤ 1) (pn bpn : List UInt32) :
    digits (addWords carry pn bpn) = addCarry (2 ^ 32) carry.toNat (digits pn) (digits bpn) := by
  induction pn generalizing carry bpn with
  | nil => rfl
  | cons p pn ih =>
      cases bpn with
      | nil => rfl
      | cons q bpn =>
          have sum : (carry + p.toUInt64 + q.toUInt64).toNat = carry.toNat + p.toNat + q.toNat := by
            rw [UInt64.toNat_add, UInt64.toNat_add, UInt32.toNat_toUInt64, UInt32.toNat_toUInt64]
            have := p.toNat_lt
            have := q.toNat_lt
            omega
          have low : ((carry + p.toUInt64 + q.toUInt64) &&& 0xffffffff).toUInt32.toNat =
              (carry.toNat + p.toNat + q.toNat) % 2 ^ 32 := by
            rw [UInt64.toNat_toUInt32, UInt64.toNat_and, sum]
            change (_ &&& (2 ^ 32 - 1)) % 2 ^ 32 = _
            rw [Nat.and_two_pow_sub_one_eq_mod, Nat.mod_mod]
          have high : ((carry + p.toUInt64 + q.toUInt64) >>> 32).toNat =
              (carry.toNat + p.toNat + q.toNat) / 2 ^ 32 := by
            rw [UInt64.toNat_shiftRight, sum]
            exact Nat.shiftRight_eq_div_pow _ 32
          have next : ((carry + p.toUInt64 + q.toUInt64) >>> 32).toNat ≤ 1 := by
            rw [high]
            have := p.toNat_lt
            have := q.toNat_lt
            omega
          have rest := ih next bpn
          simp only [digits, List.map_cons, addWords, addCarry] at rest ⊢
          rw [low, rest, high]

theorem digits_compl (pn : List UInt32) : digits (pn.map (~~~ ·)) = (digits pn).map (2 ^ 32 - 1 - ·) := by
  simp only [digits, List.map_map]
  exact List.map_congr_left fun p _ => UInt32.toNat_not p

/-! ## Sums and differences -/

theorem value_incr (a : BaseUint WIDTH) : a.incr.value = (a.value + 1) % 2 ^ (32 * WIDTH) := by
  change ofDigits (2 ^ 32) (digits (incWords a.pn)) = _
  rw [digits_incWords, ofDigits_increment (by decide) (digits_lt a.pn), length_digits, range_eq]
  rfl

theorem value_decr (a : BaseUint WIDTH) : (a.decr.value + 1) % 2 ^ (32 * WIDTH) = a.value := by
  have after := ofDigits_decrement (by decide) (digits_lt a.pn)
  rw [← digits_decWords, length_digits, range_eq] at after
  exact after

theorem value_addAssign (a b : BaseUint WIDTH) : (a.addAssign b).value = (a.value + b.value) % 2 ^ (32 * WIDTH) := by
  change ofDigits (2 ^ 32) (digits (addWords 0 a.pn b.pn)) = _
  rw [digits_addWords (by decide), ofDigits_addCarry (by decide) _ ((length_digits a).trans (length_digits b).symm),
    length_digits, range_eq, UInt64.toNat_zero, Nat.zero_add]
  rfl

theorem value_compl (a : BaseUint WIDTH) : a.compl.value + a.value + 1 = 2 ^ (32 * WIDTH) := by
  have whole := ofDigits_complement (digits_lt a.pn)
  rw [← digits_compl, length_digits, range_eq] at whole
  exact whole

theorem value_neg (a : BaseUint WIDTH) : a.neg.value = (2 ^ (32 * WIDTH) - a.value) % 2 ^ (32 * WIDTH) := by
  have whole := value_compl a
  rw [neg, postIncr, value_incr]
  congr 1
  omega

theorem neg_modulo (a : BaseUint WIDTH) : (a.neg.value : Int) = -(a.value : Int) % 2 ^ (32 * WIDTH) := by
  rw [value_neg, Int.natCast_mod, Nat.cast_sub (value_lt a).le, sub_eq_neg_add, Int.add_emod_right]
  push_cast
  rfl

theorem subAssign_modulo (a b : BaseUint WIDTH) :
    ((a.subAssign b).value : Int) = ((a.value : Int) - b.value) % 2 ^ (32 * WIDTH) := by
  rw [subAssign, value_addAssign, Int.natCast_mod, Nat.cast_add, neg_modulo, sub_eq_add_neg]
  push_cast
  rw [Int.add_emod_emod]

theorem decr_modulo (a : BaseUint WIDTH) : (a.decr.value : Int) = ((a.value : Int) - 1) % 2 ^ (32 * WIDTH) := by
  have below : (a.decr.value : Int) < 2 ^ (32 * WIDTH) := by exact_mod_cast value_lt a.decr
  rw [← value_decr a, Int.natCast_mod, Nat.cast_add]
  push_cast
  rw [Int.emod_sub_emod, add_sub_cancel_right, Int.emod_eq_of_lt (Int.natCast_nonneg _) below]

/-! ## Single words -/

theorem getElem_pn {a : BaseUint WIDTH} {i : Nat} (inside : i < a.pn.length) : a.pn[i] = a.word i := by
  rw [word, List.getD_eq_getElem _ _ inside]

theorem word_inj {a b : BaseUint WIDTH} : (∀ i < WIDTH, a.word i = b.word i) ↔ a = b := by
  refine ⟨fun same => BaseUint.ext (List.ext_getElem (a.length_pn.trans b.length_pn.symm) fun i left right => ?_), ?_⟩
  · rw [getElem_pn, getElem_pn]
    exact same i (left.trans_eq a.length_pn)
  · rintro rfl _ _
    rfl

theorem word_ofUInt64 (b : UInt64) {i : Nat} (inside : i < WIDTH) :
    (ofUInt64 WIDTH b).word i = if i = 0 then b.toUInt32 else if i = 1 then (b >>> 32).toUInt32 else 0 := by
  have within : i < (ofUInt64 WIDTH b).pn.length := inside.trans_eq (ofUInt64 WIDTH b).length_pn.symm
  rw [← getElem_pn within]
  simp only [ofUInt64, List.getElem_map, List.getElem_range]

theorem value_ofUInt64 (wide : 2 ≤ WIDTH) (b : UInt64) : (ofUInt64 WIDTH b).value = b.toNat := by
  obtain ⟨rest, rfl⟩ : ∃ rest, WIDTH = rest + 2 := ⟨WIDTH - 2, (Nat.sub_add_cancel wide).symm⟩
  have low : b.toUInt32.toNat = b.toNat % 2 ^ 32 := UInt64.toNat_toUInt32 b
  have high : (b >>> 32).toUInt32.toNat = b.toNat / 2 ^ 32 := by
    rw [UInt64.toNat_toUInt32, UInt64.toNat_shiftRight]
    change b.toNat >>> 32 % 2 ^ 32 = _
    rw [Nat.shiftRight_eq_div_pow]
    have := b.toNat_lt
    omega
  have words : digits (ofUInt64 (rest + 2) b).pn =
      b.toUInt32.toNat :: (b >>> 32).toUInt32.toNat :: List.replicate rest 0 := by
    simp only [digits, ofUInt64, List.range_succ_eq_map, List.map_cons, List.map_map]
    simp [Function.comp_def, List.map_const']
  change ofDigits (2 ^ 32) (digits (ofUInt64 (rest + 2) b).pn) = _
  rw [words, Nat.ofDigits_cons, Nat.ofDigits_cons, Nat.ofDigits_replicate_zero, low, high]
  omega

/-! ## Comparison -/

theorem eq_iff (a b : BaseUint WIDTH) : a.eq b = true ↔ a.value = b.value := by
  rw [value_inj, ← word_inj, eq, List.all_eq_true]
  simp only [List.mem_range, beq_iff_eq]

theorem eq64_iff (wide : 2 ≤ WIDTH) (a : BaseUint WIDTH) (b : UInt64) : a.eq64 b = true ↔ a.value = b.toNat := by
  rw [← value_ofUInt64 wide, value_inj, ← word_inj, eq64, Bool.and_eq_true, Bool.and_eq_true, List.all_eq_true]
  simp only [List.mem_range, beq_iff_eq, Bool.or_eq_true, decide_eq_true_eq]
  constructor
  · rintro ⟨low, high, zero⟩ i inside
    rw [word_ofUInt64 b inside]
    split
    case isTrue first => rw [first, low]
    case isFalse later =>
      split
      case isTrue second => rw [second, high]
      case isFalse last => exact (zero i inside).resolve_left (by omega)
  · intro same
    refine ⟨?_, ?_, fun i inside => ?_⟩
    · rw [same 0 (by omega), word_ofUInt64 b (by omega), if_pos rfl]
    · rw [same 1 (by omega), word_ofUInt64 b (by omega), if_neg Nat.one_ne_zero, if_pos rfl]
    · by_cases top : i < 2
      · exact Or.inl top
      · rw [same i inside, word_ofUInt64 b inside, if_neg (by omega), if_neg (by omega)]
        exact Or.inr rfl

/-- All words 0. -/
def zero (WIDTH : Nat) : BaseUint WIDTH := ⟨List.replicate WIDTH 0, List.length_replicate⟩

theorem value_zero (WIDTH : Nat) : (zero WIDTH).value = 0 := by
  rw [value, zero, List.map_replicate, UInt32.toNat_zero, Nat.ofDigits_replicate_zero]

theorem word_zero (WIDTH i : Nat) : (zero WIDTH).word i = 0 := by
  rw [word, List.getD_eq_getElem?_getD]
  exact List.getElem?_getD_replicate_default_eq 0 WIDTH i

theorem isZero_iff (a : BaseUint WIDTH) : a.isZero = true ↔ a.value = 0 := by
  rw [← value_zero WIDTH, value_inj, ← word_inj, isZero, List.all_eq_true]
  simp only [List.mem_range, beq_iff_eq, word_zero]

theorem fromTop_swap (first second : UInt32 → UInt32 → Bool) (same : Bool) (ps qs : List UInt32) :
    fromTop (fun p q => first q p) (fun p q => second q p) same ps qs = fromTop first second same qs ps := by
  induction ps generalizing qs with
  | nil => cases qs with
    | nil => rfl
    | cons q qs => rfl
  | cons p ps ih =>
      cases qs with
      | nil => rfl
      | cons q qs => rw [fromTop, fromTop, ih]

/-- The highest word that differs decides. -/
theorem fromTop_reverse (same : Bool) {pn bpn : List UInt32} (length : pn.length = bpn.length) :
    fromTop (fun p q => p < q) (fun p q => p > q) same pn.reverse bpn.reverse =
      if ofDigits (2 ^ 32) (digits pn) < ofDigits (2 ^ 32) (digits bpn) then true
      else if ofDigits (2 ^ 32) (digits bpn) < ofDigits (2 ^ 32) (digits pn) then false else same := by
  induction pn using List.reverseRecOn generalizing bpn with
  | nil =>
      rw [List.length_eq_zero_iff.mp length.symm]
      simp [fromTop]
  | append_singleton pn p ih =>
      rcases List.eq_nil_or_concat bpn with rfl | ⟨bpn, q, rfl⟩
      · rw [List.length_append] at length
        exact absurd length (Nat.succ_ne_zero _)
      · rw [List.concat_eq_append] at length ⊢
        rw [List.length_append, List.length_append] at length
        have lower : pn.length = bpn.length := Nat.succ.inj length
        have even : (digits pn).length = (digits bpn).length := by
          rw [digits, digits, List.length_map, List.length_map, lower]
        have concat : ∀ (pn : List UInt32) p, digits (pn ++ [p]) = digits pn ++ [p.toNat] := fun _ _ => List.map_append
        rw [List.reverse_append, List.reverse_append, List.reverse_singleton, List.reverse_singleton,
          List.singleton_append, List.singleton_append, fromTop, concat, concat]
        rcases lt_trichotomy p.toNat q.toNat with less | equal | more
        · have below := ofDigits_lt_of_top (by decide) (digits_lt pn) even less
          rw [if_pos (decide_eq_true (UInt32.lt_iff_toNat_lt.mpr less)), if_pos below]
        · rw [UInt32.toNat_inj.mp equal, ih lower]
          simp only [ofDigits_lt_concat_iff even, ofDigits_lt_concat_iff even.symm, gt_iff_lt, UInt32.lt_irrefl,
            decide_false, Bool.false_eq_true, if_false]
        · have above := ofDigits_lt_of_top (by decide) (digits_lt bpn) even.symm more
          have greater : p > q := UInt32.lt_iff_toNat_lt.mpr more
          have notLess : ¬ p < q := fun less => absurd (UInt32.lt_iff_toNat_lt.mp less) (Nat.lt_asymm more)
          rw [if_neg (by rw [decide_eq_false notLess]; exact Bool.false_ne_true), if_pos (decide_eq_true greater),
            if_neg (Nat.lt_asymm above), if_pos above]

theorem fromTop_below (same : Bool) (a b : BaseUint WIDTH) :
    fromTop (fun p q => p < q) (fun p q => p > q) same a.pn.reverse b.pn.reverse =
      if a.value < b.value then true else if b.value < a.value then false else same :=
  fromTop_reverse same (a.length_pn.trans b.length_pn.symm)

theorem lt_iff (a b : BaseUint WIDTH) : a.lt b = true ↔ a.value < b.value := by
  rw [lt, fromTop_below]
  split
  case isTrue less => exact iff_of_true rfl less
  case isFalse least => rw [ite_self]; exact iff_of_false Bool.false_ne_true least

theorem le_iff (a b : BaseUint WIDTH) : a.le b = true ↔ a.value ≤ b.value := by
  rw [le, fromTop_below]
  split
  case isTrue less => exact iff_of_true rfl less.le
  case isFalse least =>
    split
    case isTrue more => exact iff_of_false Bool.false_ne_true (Nat.not_le_of_lt more)
    case isFalse most => exact iff_of_true rfl (Nat.le_of_not_lt most)

/-- `>` tests the two orders the other way round, which is `<` of the operands exchanged. -/
theorem gt_eq (a b : BaseUint WIDTH) : a.gt b = b.lt a :=
  fromTop_swap (fun p q => p < q) (fun p q => p > q) false a.pn.reverse b.pn.reverse

theorem ge_eq (a b : BaseUint WIDTH) : a.ge b = b.le a :=
  fromTop_swap (fun p q => p < q) (fun p q => p > q) true a.pn.reverse b.pn.reverse

/-! ## Shifts -/

/-- Bit `r` of word `j`. -/
def BitAt (pn : List UInt32) (j r : Nat) : Prop := (pn.getD j 0).toNat.testBit r = true

theorem bitAt_orAt {pn : List UInt32} {i : Nat} (inside : i < pn.length) (x : UInt32) (j r : Nat) :
    BitAt (orAt pn i x) j r ↔ BitAt pn j r ∨ i = j ∧ x.toNat.testBit r = true := by
  rw [BitAt, BitAt, orAt, List.getD_eq_getElem?_getD, List.getD_eq_getElem?_getD, List.getElem?_modify]
  by_cases here : i = j
  · subst here
    simp only [if_true, List.getElem?_eq_getElem inside, Option.map_eq_map, Option.map_some, Option.getD_some,
      UInt32.toNat_or, Nat.testBit_or, Bool.or_eq_true, true_and]
  · simp only [here, if_false, false_and, or_false, id_map']

theorem bitAt_ite {pn : List UInt32} {c : Prop} [Decidable c] {i : Nat} (inside : c → i < pn.length) (x : UInt32)
    (j r : Nat) :
    BitAt (if c then orAt pn i x else pn) j r ↔ BitAt pn j r ∨ c ∧ i = j ∧ x.toNat.testBit r = true := by
  split
  case isTrue taken => rw [bitAt_orAt (inside taken), and_iff_right taken]
  case isFalse passed => rw [iff_false_intro (fun both => passed (And.left both)), or_false]

theorem bitAt_of_round {round : List UInt32 → Nat → List UInt32} {j r : Nat} {Sets : Nat → Prop}
    (kept : ∀ pn i, (round pn i).length = pn.length)
    (step : ∀ pn i, pn.length = WIDTH → i < WIDTH → (BitAt (round pn i) j r ↔ BitAt pn j r ∨ Sets i)) :
    BitAt (shiftWords WIDTH round) j r ↔ ∃ i < WIDTH, Sets i := by
  have along : ∀ m ≤ WIDTH, ((List.range m).foldl round (List.replicate WIDTH 0)).length = WIDTH ∧
      (BitAt ((List.range m).foldl round (List.replicate WIDTH 0)) j r ↔ ∃ i < m, Sets i) := by
    intro m
    induction m with
    | zero =>
        refine fun _ => ⟨List.length_replicate, iff_of_false (fun bit => ?_) fun none => ?_⟩
        · have clear : (0 : UInt32).toNat.testBit r = true := word_zero WIDTH j ▸ bit
          rw [UInt32.toNat_zero, Nat.zero_testBit] at clear
          exact Bool.false_ne_true clear
        · obtain ⟨i, before, -⟩ := none
          exact Nat.not_lt_zero i before
    | succ m ih =>
        intro within
        obtain ⟨length, before⟩ := ih (Nat.le_of_succ_le within)
        rw [List.range_succ, List.foldl_append, List.foldl_cons, List.foldl_nil]
        refine ⟨(kept _ m).trans length, (step _ m length within).trans ?_⟩
        rw [before, Nat.exists_lt_succ_right]
  exact (along WIDTH le_rfl).2

/-- A bit of the number is a bit of one word. -/
theorem testBit_value (a : BaseUint WIDTH) (j : Nat) {r : Nat} (inside : r < 32) :
    a.value.testBit (32 * j + r) = (a.word j).toNat.testBit r := by
  have bit := testBit_ofDigits (digits_lt a.pn) j inside
  rwa [digits, ← UInt32.toNat_zero, List.getD_map] at bit

theorem value_of_bits {a : BaseUint WIDTH} {v : Nat}
    (bits : ∀ j r, j < WIDTH → r < 32 → (BitAt a.pn j r ↔ v.testBit (32 * j + r) = true)) :
    a.value = v % 2 ^ (32 * WIDTH) := by
  have whole : ofDigits (2 ^ 32) (digits a.pn) = v % 2 ^ (32 * (digits a.pn).length) := by
    refine ofDigits_eq_of_testBit (by decide) (digits_lt a.pn) fun j r within inside => ?_
    rw [length_digits] at within
    rw [digits, ← UInt32.toNat_zero, List.getD_map, Bool.eq_iff_iff]
    exact bits j r within inside
  rwa [length_digits] at whole

theorem bit_shiftLeft (x : UInt32) {t : UInt32} (small : t.toNat < 32) {r : Nat} (inside : r < 32) :
    (x <<< t).toNat.testBit r = true ↔ t.toNat ≤ r ∧ x.toNat.testBit (r - t.toNat) = true := by
  rw [UInt32.toNat_shiftLeft, Nat.mod_eq_of_lt small, Nat.testBit_mod_two_pow, Nat.testBit_shiftLeft,
    decide_eq_true inside, Bool.true_and, Bool.and_eq_true, decide_eq_true_eq]

theorem bit_shiftRight (x : UInt32) {t : UInt32} (small : t.toNat < 32) (r : Nat) :
    (x >>> t).toNat.testBit r = true ↔ t.toNat + r < 32 ∧ x.toNat.testBit (t.toNat + r) = true := by
  rw [UInt32.toNat_shiftRight, Nat.mod_eq_of_lt small, Nat.testBit_shiftRight]
  exact ⟨fun bit => ⟨lt_of_testBit x.toNat_lt bit, bit⟩, And.right⟩

/-- `32-shift` where it is used. -/
theorem rest_toNat {t : UInt32} (small : t.toNat < 32) (nonzero : t ≠ 0) :
    (32 - t).toNat = 32 - t.toNat ∧ 32 - t.toNat < 32 := by
  have positive : t.toNat ≠ 0 := fun zero => nonzero (UInt32.toNat_inj.mp zero)
  refine ⟨UInt32.toNat_sub_of_le _ _ (UInt32.le_iff_toNat_le.mpr small.le), by omega⟩

theorem bit_upper (x : UInt32) {t : UInt32} (small : t.toNat < 32) (r : Nat) :
    t ≠ 0 ∧ (x >>> (32 - t)).toNat.testBit r = true ↔ r < t.toNat ∧ x.toNat.testBit (32 - t.toNat + r) = true := by
  constructor
  · rintro ⟨nonzero, bit⟩
    obtain ⟨rest, less⟩ := rest_toNat small nonzero
    rw [bit_shiftRight x (rest.trans_lt less), rest] at bit
    exact ⟨by omega, bit.2⟩
  · rintro ⟨low, bit⟩
    have nonzero : t ≠ 0 := by
      rintro rfl
      exact Nat.not_lt_zero r low
    obtain ⟨rest, less⟩ := rest_toNat small nonzero
    rw [bit_shiftRight x (rest.trans_lt less), rest]
    exact ⟨nonzero, by omega, bit⟩

theorem bit_lower (x : UInt32) {t : UInt32} (small : t.toNat < 32) {r : Nat} (inside : r < 32) :
    t ≠ 0 ∧ (x <<< (32 - t)).toNat.testBit r = true ↔
      32 - t.toNat ≤ r ∧ x.toNat.testBit (r - (32 - t.toNat)) = true := by
  constructor
  · rintro ⟨nonzero, bit⟩
    obtain ⟨rest, less⟩ := rest_toNat small nonzero
    rwa [bit_shiftLeft x (rest.trans_lt less) inside, rest] at bit
  · rintro ⟨high, bit⟩
    have nonzero : t ≠ 0 := by
      rintro rfl
      exact absurd inside (Nat.not_lt_of_le high)
    obtain ⟨rest, less⟩ := rest_toNat small nonzero
    rw [bit_shiftLeft x (rest.trans_lt less) inside, rest]
    exact ⟨nonzero, high, bit⟩

/-- What a round of `<<=` sets: the upper part of the word goes to the next place. -/
theorem bitAt_shlRound (a : BaseUint WIDTH) (k : Nat) {t : UInt32} (small : t.toNat < 32) {j r : Nat} (inside : r < 32)
    {pn : List UInt32} {i : Nat} (length : pn.length = WIDTH) (within : j < WIDTH) :
    BitAt (shlRound a k t pn i) j r ↔ BitAt pn j r ∨
      ((i + k + 1 = j ∧ r < t.toNat ∧ a.value.testBit (32 * i + (32 - t.toNat + r)) = true) ∨
        (i + k = j ∧ t.toNat ≤ r ∧ a.value.testBit (32 * i + (r - t.toNat)) = true)) := by
  have upper : (i + k + 1 < WIDTH ∧ t ≠ 0) ∧ i + k + 1 = j ∧ (a.word i >>> (32 - t)).toNat.testBit r = true ↔
      i + k + 1 = j ∧ r < t.toNat ∧ a.value.testBit (32 * i + (32 - t.toNat + r)) = true := by
    constructor
    · rintro ⟨⟨-, nonzero⟩, target, bit⟩
      obtain ⟨low, bit⟩ := (bit_upper _ small r).mp ⟨nonzero, bit⟩
      rw [← testBit_value a i (by omega)] at bit
      exact ⟨target, low, bit⟩
    · rintro ⟨target, low, bit⟩
      rw [testBit_value a i (by omega)] at bit
      obtain ⟨nonzero, bit⟩ := (bit_upper _ small r).mpr ⟨low, bit⟩
      exact ⟨⟨target.trans_lt within, nonzero⟩, target, bit⟩
  have lower : i + k < WIDTH ∧ i + k = j ∧ (a.word i <<< t).toNat.testBit r = true ↔
      i + k = j ∧ t.toNat ≤ r ∧ a.value.testBit (32 * i + (r - t.toNat)) = true := by
    rw [bit_shiftLeft _ small inside, testBit_value a i (by omega)]
    exact ⟨And.right, fun holds => ⟨holds.1.trans_lt within, holds⟩⟩
  simp only [shlRound]
  rw [bitAt_ite (fun room => ?_), bitAt_ite (fun room => ?_), or_assoc, upper, lower]
  · exact room.1.trans_eq length.symm
  · split
    · exact room.trans_eq (length.symm.trans (length_orAt _ _ _).symm)
    · exact room.trans_eq length.symm

/-- What a round of `>>=` sets: the lower part of the word goes to the place before. -/
theorem bitAt_shrRound (a : BaseUint WIDTH) (k : Nat) {t : UInt32} (small : t.toNat < 32) {j r : Nat} (inside : r < 32)
    {pn : List UInt32} {i : Nat} (length : pn.length = WIDTH) (within : i < WIDTH) :
    BitAt (shrRound a k t pn i) j r ↔ BitAt pn j r ∨
      ((i = j + k + 1 ∧ 32 - t.toNat ≤ r ∧ a.value.testBit (32 * i + (r - (32 - t.toNat))) = true) ∨
        (i = j + k ∧ t.toNat + r < 32 ∧ a.value.testBit (32 * i + (t.toNat + r)) = true)) := by
  have lower : (k + 1 ≤ i ∧ t ≠ 0) ∧ i - k - 1 = j ∧ (a.word i <<< (32 - t)).toNat.testBit r = true ↔
      i = j + k + 1 ∧ 32 - t.toNat ≤ r ∧ a.value.testBit (32 * i + (r - (32 - t.toNat))) = true := by
    rw [testBit_value a i (by omega), ← bit_lower _ small inside]
    constructor
    · rintro ⟨⟨room, nonzero⟩, target, bit⟩
      exact ⟨by omega, nonzero, bit⟩
    · rintro ⟨target, nonzero, bit⟩
      exact ⟨⟨by omega, nonzero⟩, by omega, bit⟩
  have upper : k ≤ i ∧ i - k = j ∧ (a.word i >>> t).toNat.testBit r = true ↔
      i = j + k ∧ t.toNat + r < 32 ∧ a.value.testBit (32 * i + (t.toNat + r)) = true := by
    rw [bit_shiftRight _ small]
    constructor
    · rintro ⟨room, target, low, bit⟩
      rw [← testBit_value a i low] at bit
      exact ⟨by omega, low, bit⟩
    · rintro ⟨target, low, bit⟩
      rw [testBit_value a i low] at bit
      exact ⟨by omega, by omega, low, bit⟩
  simp only [shrRound]
  rw [bitAt_ite (fun room => ?_), bitAt_ite (fun room => ?_), or_assoc, lower, upper]
  · omega
  · split
    · rw [length_orAt]
      omega
    · omega

theorem shift_parts (shift : UInt32) :
    shift.toNat = 32 * (shift / 32).toNat + (shift % 32).toNat ∧ (shift % 32).toNat < 32 := by
  rw [UInt32.toNat_mod, UInt32.toNat_div]
  exact ⟨(Nat.div_add_mod _ _).symm, Nat.mod_lt _ (by decide)⟩

theorem value_shlAssign (a : BaseUint WIDTH) (shift : UInt32) :
    (a.shlAssign shift).value = a.value * 2 ^ shift.toNat % 2 ^ (32 * WIDTH) := by
  obtain ⟨parts, small⟩ := shift_parts shift
  rw [← Nat.shiftLeft_eq]
  refine value_of_bits fun j r within inside => ?_
  rw [shlAssign, bitAt_of_round (length_shlRound a _ _) fun pn i length _ =>
    bitAt_shlRound a _ small inside length within, Nat.testBit_shiftLeft, Bool.and_eq_true, decide_eq_true_eq, parts]
  generalize (shift / 32).toNat = k
  generalize (shift % 32).toNat = t at small
  constructor
  · rintro ⟨i, -, ⟨target, low, bit⟩ | ⟨target, high, bit⟩⟩
    · refine ⟨by omega, ?_⟩
      rwa [show 32 * j + r - (32 * k + t) = 32 * i + (32 - t + r) by omega]
    · refine ⟨by omega, ?_⟩
      rwa [show 32 * j + r - (32 * k + t) = 32 * i + (r - t) by omega]
  · rintro ⟨beyond, bit⟩
    rcases Nat.lt_or_ge r t with low | high
    · refine ⟨j - k - 1, by omega, Or.inl ⟨by omega, low, ?_⟩⟩
      rwa [show 32 * (j - k - 1) + (32 - t + r) = 32 * j + r - (32 * k + t) by omega]
    · refine ⟨j - k, by omega, Or.inr ⟨by omega, high, ?_⟩⟩
      rwa [show 32 * (j - k) + (r - t) = 32 * j + r - (32 * k + t) by omega]

theorem value_shrAssign (a : BaseUint WIDTH) (shift : UInt32) :
    (a.shrAssign shift).value = a.value / 2 ^ shift.toNat := by
  obtain ⟨parts, small⟩ := shift_parts shift
  have fits : a.value / 2 ^ shift.toNat < 2 ^ (32 * WIDTH) := (Nat.div_le_self _ _).trans_lt (value_lt a)
  rw [← Nat.mod_eq_of_lt fits, ← Nat.shiftRight_eq_div_pow]
  refine value_of_bits fun j r within inside => ?_
  rw [shrAssign, bitAt_of_round (length_shrRound a _ _) fun pn i length within =>
    bitAt_shrRound a _ small inside length within, Nat.testBit_shiftRight, parts]
  generalize (shift / 32).toNat = k
  generalize (shift % 32).toNat = t at small
  constructor
  · rintro ⟨i, -, ⟨target, high, bit⟩ | ⟨target, low, bit⟩⟩
    · rwa [show 32 * k + t + (32 * j + r) = 32 * i + (r - (32 - t)) by omega]
    · rwa [show 32 * k + t + (32 * j + r) = 32 * i + (t + r) by omega]
  · intro bit
    have range := lt_of_testBit (value_lt a) bit
    rcases Nat.lt_or_ge (t + r) 32 with low | high
    · refine ⟨j + k, by omega, Or.inr ⟨rfl, low, ?_⟩⟩
      rwa [show 32 * (j + k) + (t + r) = 32 * k + t + (32 * j + r) by omega]
    · refine ⟨j + k + 1, by omega, Or.inl ⟨rfl, by omega, ?_⟩⟩
      rwa [show 32 * (j + k + 1) + (r - (32 - t)) = 32 * k + t + (32 * j + r) by omega]

/-! ## Hexadecimal text -/

/-- What `SetHex` reads as a digit wherever it stands. -/
def Plain (c : UInt8) : Prop := isSpace c = false ∧ c ≠ 120 ∧ c ≠ 88 ∧ (phexdigit c ≠ 0 || c = 48) = true

instance (c : UInt8) : Decidable (Plain c) := inferInstanceAs (Decidable (_ ∧ _))

theorem plain_hexmap {half : UInt8} (small : half.toNat < 16) :
    Plain (WalletDump.hexmap half) ∧ phexdigit (WalletDump.hexmap half) = half :=
  @WalletDump.forall_hexmap (fun half => Plain (WalletDump.hexmap half) ∧ phexdigit (WalletDump.hexmap half) = half)
    (by decide) half small

theorem plain_hexStr (bytes : Bytes) : ∀ c ∈ WalletDump.hexStr bytes, Plain c := by
  intro c member
  obtain ⟨val, -, written⟩ := List.mem_flatMap.mp member
  rcases List.mem_pair.mp written with rfl | rfl
  · exact (plain_hexmap (WalletDump.shiftRight_four_lt val)).1
  · exact (plain_hexmap (WalletDump.and_fifteen_lt val)).1

/-- Digits alone are all read: there is no space to skip and no `0x`. -/
theorem hexDigits_of_plain {psz : Bytes} (plain : ∀ c ∈ psz, Plain c) : hexDigits psz = psz := by
  have unskipped : psz.dropWhile isSpace = psz := by
    cases psz with
    | nil => rfl
    | cons c rest => rw [List.dropWhile_cons, if_neg (by rw [(plain c List.mem_cons_self).1]; exact Bool.false_ne_true)]
  have unmarked : ¬ (psz.take 2 = text ['0', 'x'] ∨ psz.take 2 = text ['0', 'X']) := by
    rintro (marked | marked)
    · have member : (120 : UInt8) ∈ psz := List.mem_of_mem_take (marked ▸ (by decide : (120 : UInt8) ∈ text ['0', 'x']))
      exact (plain _ member).2.1 rfl
    · have member : (88 : UInt8) ∈ psz := List.mem_of_mem_take (marked ▸ (by decide : (88 : UInt8) ∈ text ['0', 'X']))
      exact (plain _ member).2.2.1 rfl
  simp only [hexDigits, unskipped, if_neg unmarked]
  exact List.takeWhile_eq_self_iff.mpr fun c member => (plain c member).2.2.2

/-- The two digits of each byte, the last byte first, fill the bytes again. -/
theorem fillBytes_hexStr (bytes : Bytes) :
    fillBytes bytes.length (WalletDump.hexStr bytes.reverse).reverse = bytes := by
  rw [WalletDump.hexStr, List.reverse_flatMap, List.reverse_reverse]
  induction bytes with
  | nil => rfl
  | cons val rest ih =>
      have low := (plain_hexmap (WalletDump.and_fifteen_lt val)).2
      have high := (plain_hexmap (WalletDump.shiftRight_four_lt val)).2
      change (phexdigit (WalletDump.hexmap (val &&& 15)) ||| phexdigit (WalletDump.hexmap (val >>> 4)) <<< 4) ::
        fillBytes rest.length _ = _
      rw [low, high, UInt8.or_comm, WalletDump.halves]
      exact congrArg _ ih

theorem length_bytes (a : BaseUint WIDTH) : a.bytes.length = WIDTH * 4 := by
  have each : (a.pn.map fun p => (littleEndianBytes 4 p.toNat).length) = a.pn.map fun _ => 4 :=
    List.map_congr_left fun p _ => length_littleEndianBytes 4 p.toNat
  rw [bytes, List.length_flatMap, each, List.map_const', List.sum_replicate_nat, a.length_pn]

theorem wordsOf_flatMap (pn : List UInt32) :
    wordsOf pn.length (pn.flatMap fun p => littleEndianBytes 4 p.toNat) = pn := by
  induction pn with
  | nil => rfl
  | cons p rest ih =>
      have size : (littleEndianBytes 4 p.toNat).length = 4 := length_littleEndianBytes 4 p.toNat
      have fits : p.toNat < 256 ^ 4 := p.toNat_lt
      rw [List.length_cons, wordsOf, List.flatMap_cons, List.take_left' size, List.drop_left' size, ih,
        littleEndian_littleEndianBytes fits, UInt32.ofNat_toNat]

theorem setHex_getHex (a : BaseUint WIDTH) : setHex WIDTH a.getHex = a := by
  refine BaseUint.ext ?_
  change wordsOf WIDTH (fillBytes (WIDTH * 4) (hexDigits a.getHex).reverse) = a.pn
  rw [getHex, hexDigits_of_plain (plain_hexStr a.bytes.reverse), ← length_bytes a, fillBytes_hexStr, bytes]
  have words := wordsOf_flatMap a.pn
  rwa [a.length_pn] at words

/-! ## The class -/

/-- Every operator computes on the represented numbers, modulo `2 ^ BITS`. -/
structure Modular (WIDTH : Nat) : Prop where
  range : ∀ a : BaseUint WIDTH, a.value < 2 ^ (32 * WIDTH)
  unique : ∀ a b : BaseUint WIDTH, a.value = b.value ↔ a = b
  addition : ∀ a b : BaseUint WIDTH, (a.addAssign b).value = (a.value + b.value) % 2 ^ (32 * WIDTH)
  addition64 : ∀ (a : BaseUint WIDTH) (b64 : UInt64),
    (a.addAssign64 b64).value = (a.value + b64.toNat) % 2 ^ (32 * WIDTH)
  subtraction : ∀ a b : BaseUint WIDTH,
    ((a.subAssign b).value : Int) = ((a.value : Int) - b.value) % 2 ^ (32 * WIDTH)
  subtraction64 : ∀ (a : BaseUint WIDTH) (b64 : UInt64),
    ((a.subAssign64 b64).value : Int) = ((a.value : Int) - b64.toNat) % 2 ^ (32 * WIDTH)
  minus : ∀ a : BaseUint WIDTH, (a.neg.value : Int) = -(a.value : Int) % 2 ^ (32 * WIDTH)
  increment : ∀ a : BaseUint WIDTH, a.incr.value = (a.value + 1) % 2 ^ (32 * WIDTH)
  postIncrement : ∀ a : BaseUint WIDTH, a.postIncr.1 = a ∧ a.postIncr.2 = a.incr
  decrement : ∀ a : BaseUint WIDTH, (a.decr.value : Int) = ((a.value : Int) - 1) % 2 ^ (32 * WIDTH)
  postDecrement : ∀ a : BaseUint WIDTH, a.postDecr.1 = a ∧ a.postDecr.2 = a.decr
  shiftLeft : ∀ (a : BaseUint WIDTH) (shift : UInt32),
    (a.shlAssign shift).value = a.value * 2 ^ shift.toNat % 2 ^ (32 * WIDTH)
  shiftRight : ∀ (a : BaseUint WIDTH) (shift : UInt32), (a.shrAssign shift).value = a.value / 2 ^ shift.toNat
  less : ∀ a b : BaseUint WIDTH, a.lt b = true ↔ a.value < b.value
  lessEqual : ∀ a b : BaseUint WIDTH, a.le b = true ↔ a.value ≤ b.value
  greater : ∀ a b : BaseUint WIDTH, a.gt b = true ↔ b.value < a.value
  greaterEqual : ∀ a b : BaseUint WIDTH, a.ge b = true ↔ b.value ≤ a.value
  equal : ∀ a b : BaseUint WIDTH, a.eq b = true ↔ a.value = b.value
  equal64 : ∀ (a : BaseUint WIDTH) (b : UInt64), a.eq64 b = true ↔ a.value = b.toNat
  unequal : ∀ a b : BaseUint WIDTH, a.ne b = true ↔ a.value ≠ b.value
  unequal64 : ∀ (a : BaseUint WIDTH) (b : UInt64), a.ne64 b = true ↔ a.value ≠ b.toNat
  isZero : ∀ a : BaseUint WIDTH, a.isZero = true ↔ a.value = 0
  hex : ∀ a : BaseUint WIDTH, setHex WIDTH a.getHex = a

/-- An unsigned 64-bit operand fills two words, which every instance has. -/
theorem operators_modular (wide : 2 ≤ WIDTH) : Modular WIDTH where
  range := value_lt
  unique := fun _ _ => value_inj
  addition := value_addAssign
  addition64 := fun a b64 => by rw [addAssign64, value_addAssign, value_ofUInt64 wide]
  subtraction := subAssign_modulo
  subtraction64 := fun a b64 => by
    rw [← value_ofUInt64 wide]
    exact subAssign_modulo a (ofUInt64 WIDTH b64)
  minus := neg_modulo
  increment := value_incr
  postIncrement := fun _ => ⟨rfl, rfl⟩
  decrement := decr_modulo
  postDecrement := fun _ => ⟨rfl, rfl⟩
  shiftLeft := value_shlAssign
  shiftRight := value_shrAssign
  less := lt_iff
  lessEqual := le_iff
  greater := fun a b => by rw [gt_eq, lt_iff]
  greaterEqual := fun a b => by rw [ge_eq, le_iff]
  equal := eq_iff
  equal64 := eq64_iff wide
  unequal := fun a b => by rw [ne, Bool.not_eq_true', ← Bool.not_eq_true, eq_iff]
  unequal64 := fun a b => by rw [ne64, Bool.not_eq_true', ← Bool.not_eq_true, eq64_iff wide]
  isZero := isZero_iff
  hex := setHex_getHex

/-- `uint160` and `uint256`. -/
theorem instances_modular : Modular 5 ∧ Modular 8 := ⟨operators_modular (by decide), operators_modular (by decide)⟩

end BaseUint

end InfiniteRicks
