import Mathlib.Data.Nat.Digits.Lemmas

/-!
# Numbers in words

A list of digits, the least significant first, is read by `Nat.ofDigits`. The loops of multiple precision
arithmetic over a fixed number of digits compute modulo a power of the base: a carry that runs upwards,
a complement, an increment and a decrement. Digits are compared from the top, and where the base is a
power of two each bit of the number is a bit of one digit.
-/

namespace InfiniteRicks.Library.Words

open Nat (ofDigits)

variable {b : Nat} {xs ys : List Nat}

/-! ## Carries -/

def addCarry (b : Nat) : Nat → List Nat → List Nat → List Nat
  | _, [], _ => []
  | _, _ :: _, [] => []
  | carry, x :: xs, y :: ys => (carry + x + y) % b :: addCarry b ((carry + x + y) / b) xs ys

theorem ofDigits_addCarry (positive : 0 < b) (carry : Nat) (same : xs.length = ys.length) :
    ofDigits b (addCarry b carry xs ys) = (carry + ofDigits b xs + ofDigits b ys) % b ^ xs.length := by
  induction xs generalizing carry ys with
  | nil => rw [addCarry, Nat.ofDigits_nil, List.length_nil, pow_zero, Nat.mod_one]
  | cons x xs ih =>
      cases ys with
      | nil => exact absurd same (Nat.succ_ne_zero _)
      | cons y ys =>
          have sum : carry + ofDigits b (x :: xs) + ofDigits b (y :: ys) =
              (carry + x + y) + b * (ofDigits b xs + ofDigits b ys) := by
            rw [Nat.ofDigits_cons, Nat.ofDigits_cons]
            ring
          rw [sum, addCarry, Nat.ofDigits_cons, ih _ (Nat.succ.inj same), List.length_cons, pow_succ', Nat.mod_mul,
            Nat.add_mul_mod_self_left, Nat.add_mul_div_left _ _ positive, Nat.add_assoc _ (ofDigits b xs)]

/-! ## One more and one less -/

/-- Every digit that passes the top of its range starts again at 0, and the first other one ends the loop. -/
def increment (b : Nat) : List Nat → List Nat
  | [] => []
  | x :: xs => if (x + 1) % b = 0 then 0 :: increment b xs else (x + 1) % b :: xs

def decrement (b : Nat) : List Nat → List Nat
  | [] => []
  | x :: xs => if x = 0 then (b - 1) :: decrement b xs else (x - 1) :: xs

theorem ofDigits_increment (large : 1 < b) (small : ∀ x ∈ xs, x < b) :
    ofDigits b (increment b xs) = (ofDigits b xs + 1) % b ^ xs.length := by
  induction xs with
  | nil => rw [increment, Nat.ofDigits_nil, List.length_nil, pow_zero, Nat.mod_one]
  | cons x xs ih =>
      obtain ⟨digit, others⟩ := List.forall_mem_cons.mp small
      rw [increment, Nat.ofDigits_cons]
      split
      case isTrue full =>
        have top : x + 1 = b := by
          rcases Nat.lt_or_ge (x + 1) b with under | least
          · rw [Nat.mod_eq_of_lt under] at full
            exact absurd full (Nat.succ_ne_zero x)
          · omega
        have carried : x + b * ofDigits b xs + 1 = b * (ofDigits b xs + 1) := by
          rw [Nat.mul_succ, ← top]
          omega
        rw [Nat.ofDigits_cons, ih others, carried, List.length_cons, pow_succ', Nat.mul_mod_mul_left, Nat.zero_add]
      case isFalse under =>
        have below : x + 1 < b := by
          rcases Nat.lt_or_ge (x + 1) b with below | least
          · exact below
          · rw [show x + 1 = b by omega, Nat.mod_self] at under
            exact absurd rfl under
        have grown : ∀ y ∈ (x + 1) :: xs, y < b := List.forall_mem_cons.mpr ⟨below, others⟩
        have bounded : ofDigits b ((x + 1) :: xs) < b ^ (x :: xs).length := Nat.ofDigits_lt_base_pow_length large grown
        have whole : x + b * ofDigits b xs + 1 = ofDigits b ((x + 1) :: xs) := by
          rw [Nat.ofDigits_cons]
          omega
        rw [Nat.mod_eq_of_lt below, whole, Nat.mod_eq_of_lt bounded]

theorem increment_decrement (large : 1 < b) (small : ∀ x ∈ xs, x < b) : increment b (decrement b xs) = xs := by
  induction xs with
  | nil => rfl
  | cons x xs ih =>
      obtain ⟨digit, others⟩ := List.forall_mem_cons.mp small
      rw [decrement]
      split
      case isTrue zero =>
        have full : (b - 1 + 1) % b = 0 := by rw [Nat.sub_add_cancel large.le, Nat.mod_self]
        rw [increment, if_pos full, ih others, zero]
      case isFalse nonzero =>
        have back : (x - 1 + 1) % b = x := by
          rw [Nat.sub_add_cancel (Nat.pos_of_ne_zero nonzero), Nat.mod_eq_of_lt digit]
        rw [increment, back, if_neg nonzero]

theorem length_decrement (xs : List Nat) : (decrement b xs).length = xs.length := by
  induction xs with
  | nil => rfl
  | cons x xs ih =>
      rw [decrement]
      split
      · rw [List.length_cons, List.length_cons, ih]
      · rw [List.length_cons, List.length_cons]

theorem decrement_lt (large : 1 < b) (small : ∀ x ∈ xs, x < b) : ∀ x ∈ decrement b xs, x < b := by
  induction xs with
  | nil => exact small
  | cons x xs ih =>
      obtain ⟨digit, others⟩ := List.forall_mem_cons.mp small
      rw [decrement]
      split
      · exact List.forall_mem_cons.mpr ⟨by omega, ih others⟩
      · exact List.forall_mem_cons.mpr ⟨by omega, others⟩

theorem ofDigits_decrement (large : 1 < b) (small : ∀ x ∈ xs, x < b) :
    (ofDigits b (decrement b xs) + 1) % b ^ xs.length = ofDigits b xs := by
  have after := ofDigits_increment large (decrement_lt large small)
  rw [increment_decrement large small, length_decrement] at after
  exact after.symm

/-! ## The complement -/

theorem ofDigits_complement (small : ∀ x ∈ xs, x < b) :
    ofDigits b (xs.map (b - 1 - ·)) + ofDigits b xs + 1 = b ^ xs.length := by
  induction xs with
  | nil => rfl
  | cons x xs ih =>
      obtain ⟨digit, others⟩ := List.forall_mem_cons.mp small
      rw [List.map_cons, Nat.ofDigits_cons, Nat.ofDigits_cons, List.length_cons, pow_succ', ← ih others, Nat.mul_succ,
        Nat.mul_add]
      omega

/-! ## Comparison -/

theorem ofDigits_concat (xs : List Nat) (x : Nat) : ofDigits b (xs ++ [x]) = ofDigits b xs + b ^ xs.length * x := by
  rw [Nat.ofDigits_append, Nat.ofDigits_singleton]

/-- The top digit decides where it differs. -/
theorem ofDigits_lt_of_top (large : 1 < b) (small : ∀ x ∈ xs, x < b) (same : xs.length = ys.length) {x y : Nat}
    (less : x < y) : ofDigits b (xs ++ [x]) < ofDigits b (ys ++ [y]) := by
  rw [ofDigits_concat, ofDigits_concat, ← same]
  have low := Nat.ofDigits_lt_base_pow_length large small
  calc ofDigits b xs + b ^ xs.length * x < b ^ xs.length + b ^ xs.length * x := Nat.add_lt_add_right low _
    _ = b ^ xs.length * (x + 1) := by rw [Nat.mul_succ, Nat.add_comm]
    _ ≤ b ^ xs.length * y := Nat.mul_le_mul_left _ less
    _ ≤ ofDigits b ys + b ^ xs.length * y := Nat.le_add_left _ _

theorem ofDigits_lt_concat_iff (same : xs.length = ys.length) (x : Nat) :
    ofDigits b (xs ++ [x]) < ofDigits b (ys ++ [x]) ↔ ofDigits b xs < ofDigits b ys := by
  rw [ofDigits_concat, ofDigits_concat, ← same]
  exact Nat.add_lt_add_iff_right

/-! ## Bits -/

variable {w : Nat}

theorem testBit_ofDigits (small : ∀ x ∈ xs, x < 2 ^ w) (j : Nat) {r : Nat} (inside : r < w) :
    (ofDigits (2 ^ w) xs).testBit (w * j + r) = (xs.getD j 0).testBit r := by
  induction xs generalizing j with
  | nil => rw [Nat.ofDigits_nil, List.getD_nil, Nat.zero_testBit, Nat.zero_testBit]
  | cons x xs ih =>
      obtain ⟨digit, others⟩ := List.forall_mem_cons.mp small
      have cast : ofDigits (2 ^ w) (x :: xs) = 2 ^ w * ofDigits (2 ^ w) xs + x := by
        rw [Nat.ofDigits_cons, Nat.add_comm]
      rw [cast, Nat.testBit_two_pow_mul_add _ digit]
      cases j with
      | zero => rw [Nat.mul_zero, Nat.zero_add, if_pos inside, List.getD_cons_zero]
      | succ j =>
          have beyond : ¬ w * (j + 1) + r < w := by
            rw [Nat.mul_succ]
            omega
          have lower : w * (j + 1) + r - w = w * j + r := by
            rw [Nat.mul_succ]
            omega
          rw [if_neg beyond, List.getD_cons_succ, lower, ih others]

theorem lt_of_testBit {v i : Nat} (fits : v < 2 ^ w) (bit : v.testBit i = true) : i < w := by
  by_contra beyond
  have clear := Nat.testBit_lt_two_pow (fits.trans_le (Nat.pow_le_pow_right (by decide) (Nat.le_of_not_lt beyond)))
  exact Bool.false_ne_true (clear.symm.trans bit)

/-- Words whose bits are those of a number are that number modulo the range. -/
theorem ofDigits_eq_of_testBit (positive : 0 < w) (small : ∀ x ∈ xs, x < 2 ^ w) {v : Nat}
    (bits : ∀ j r, j < xs.length → r < w → (xs.getD j 0).testBit r = v.testBit (w * j + r)) :
    ofDigits (2 ^ w) xs = v % 2 ^ (w * xs.length) := by
  refine Nat.eq_of_testBit_eq fun n => ?_
  have inside : n % w < w := Nat.mod_lt n positive
  rw [Nat.testBit_mod_two_pow, ← Nat.div_add_mod n w, testBit_ofDigits small _ inside]
  by_cases within : n / w < xs.length
  · have below : w * (n / w) + n % w < w * xs.length := by
      calc w * (n / w) + n % w < w * (n / w) + w := Nat.add_lt_add_left inside _
        _ = w * (n / w + 1) := (Nat.mul_succ _ _).symm
        _ ≤ w * xs.length := Nat.mul_le_mul_left _ within
    rw [bits _ _ within inside, decide_eq_true below, Bool.true_and]
  · have beyond : ¬ w * (n / w) + n % w < w * xs.length := fun below =>
      within (lt_of_mul_lt_mul_left (lt_of_le_of_lt (Nat.le_add_right _ _) below) w.zero_le)
    rw [decide_eq_false beyond, Bool.false_and, List.getD_eq_getElem?_getD,
      List.getElem?_eq_none (Nat.le_of_not_lt within), Option.getD_none, Nat.zero_testBit]

end InfiniteRicks.Library.Words
