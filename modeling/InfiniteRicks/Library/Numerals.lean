import Mathlib.Data.Nat.Digits.Lemmas

/-!
# Numerals with leading zeros

A list of digits, most significant first, is determined by the number of its leading zeros
and by its value (`numeral_eq`), and any two such numbers are those of a list
(`leadingZeros_numeral`, `value_numeral`). A text that keeps both numbers can be translated from one
base to another and back.
-/

namespace InfiniteRicks.Library.Numerals

/-- How many zeros a list starts with. -/
def leadingZeros (digits : List Nat) : Nat := (digits.takeWhile fun d => decide (d = 0)).length

/-- The value of digits, most significant first. -/
def value (b : Nat) (digits : List Nat) : Nat := digits.foldl (fun n d => n * b + d) 0

/-- The digits of a number after some zeros. -/
def numeral (b zeros n : Nat) : List Nat := List.replicate zeros 0 ++ (Nat.digits b n).reverse

variable {b : Nat}

theorem value_eq (digits : List Nat) : value b digits = Nat.ofDigits b digits.reverse := by
  induction digits using List.reverseRecOn with
  | nil => rfl
  | append_singleton digits d ih =>
      rw [value, List.foldl_append, List.reverse_append, List.reverse_singleton, List.singleton_append, Nat.ofDigits_cons,
        ← ih, value, List.foldl_cons, List.foldl_nil, Nat.mul_comm, Nat.add_comm]

theorem value_numeral (b zeros n : Nat) : value b (numeral b zeros n) = n := by
  rw [value_eq, numeral, List.reverse_append, List.reverse_reverse, List.reverse_replicate,
    Nat.ofDigits_append_replicate_zero, Nat.ofDigits_digits]

theorem leadingZeros_cons_zero (digits : List Nat) : leadingZeros (0 :: digits) = leadingZeros digits + 1 := by
  rw [leadingZeros, List.takeWhile_cons, if_pos (decide_eq_true rfl), List.length_cons]
  rfl

theorem leadingZeros_cons {d : Nat} (digits : List Nat) (nonzero : d ≠ 0) : leadingZeros (d :: digits) = 0 := by
  rw [leadingZeros, List.takeWhile_cons, if_neg (by rw [decide_eq_false nonzero]; exact Bool.false_ne_true)]
  rfl

theorem leadingZeros_numeral (zeros n : Nat) : leadingZeros (numeral b zeros n) = zeros := by
  induction zeros with
  | zero =>
      rw [numeral, List.replicate_zero, List.nil_append]
      rcases List.eq_nil_or_concat (Nat.digits b n) with none | ⟨lower, top, shape⟩
      · rw [none]
        rfl
      · rw [List.concat_eq_append] at shape
        have nonzero : top ≠ 0 := by
          have last := Nat.getLast_digit_ne_zero b (m := n) (by
            rintro rfl
            rw [Nat.digits_zero] at shape
            exact List.append_ne_nil_of_right_ne_nil _ (List.cons_ne_nil _ _) shape.symm)
          simpa [shape] using last
        rw [shape, List.reverse_append, List.reverse_singleton, List.singleton_append, leadingZeros_cons _ nonzero]
  | succ zeros ih =>
      rw [numeral, List.replicate_succ, List.cons_append, leadingZeros_cons_zero]
      exact congrArg Nat.succ ih

/-- Every list of digits is a numeral. -/
theorem numeral_eq (large : 1 < b) {digits : List Nat} (small : ∀ d ∈ digits, d < b) :
    numeral b (leadingZeros digits) (value b digits) = digits := by
  induction digits with
  | nil => rw [value, List.foldl_nil, numeral, Nat.digits_zero]; rfl
  | cons d rest ih =>
      obtain ⟨first, others⟩ := List.forall_mem_cons.mp small
      by_cases zero : d = 0
      · subst zero
        have same : value b (0 :: rest) = value b rest := by
          rw [value, List.foldl_cons, Nat.zero_mul]
          rfl
        rw [leadingZeros_cons_zero, same, numeral, List.replicate_succ, List.cons_append]
        exact congrArg _ (ih others)
      · have whole : Nat.digits b (Nat.ofDigits b (d :: rest).reverse) = (d :: rest).reverse := by
          refine Nat.digits_ofDigits b large _ (fun e member => small e (List.mem_reverse.mp member)) fun real => ?_
          rw [List.getLast_reverse]
          exact zero
        rw [leadingZeros_cons _ zero, value_eq, numeral, whole, List.reverse_reverse, List.replicate_zero, List.nil_append]

theorem lt_of_mem_numeral (large : 1 < b) {zeros n d : Nat} (member : d ∈ numeral b zeros n) : d < b := by
  rcases List.mem_append.mp member with padding | digit
  · rw [List.eq_of_mem_replicate padding]
    omega
  · exact Nat.digits_lt_base large (List.mem_reverse.mp digit)

theorem value_append_singleton (digits : List Nat) (d : Nat) : value b (digits ++ [d]) = value b digits * b + d := by
  rw [value, List.foldl_append, List.foldl_cons, List.foldl_nil, ← value]

/-- Digits are determined by their number and their value. -/
theorem value_injective {left right : List Nat} (leftSmall : ∀ d ∈ left, d < b) (rightSmall : ∀ d ∈ right, d < b)
    (length : left.length = right.length) (same : value b left = value b right) : left = right := by
  induction left using List.reverseRecOn generalizing right with
  | nil => exact (List.length_eq_zero_iff.mp length.symm).symm
  | append_singleton left d ih =>
      rcases List.eq_nil_or_concat right with rfl | ⟨right, e, rfl⟩
      · rw [List.length_append, List.length_singleton, List.length_nil] at length
        omega
      · rw [List.concat_eq_append] at rightSmall length same ⊢
        have dSmall := leftSmall d (List.mem_append_right _ (List.mem_singleton_self d))
        have eSmall := rightSmall e (List.mem_append_right _ (List.mem_singleton_self e))
        rw [value_append_singleton, value_append_singleton] at same
        have last : d = e := by
          have mods := congrArg (· % b) same
          simpa [Nat.add_mod, Nat.mod_eq_of_lt dSmall, Nat.mod_eq_of_lt eSmall] using mods
        subst last
        have front := Nat.eq_of_mul_eq_mul_right (Nat.zero_lt_of_lt dSmall) (Nat.add_right_cancel same)
        rw [ih (fun e member => leftSmall e (List.mem_append_left _ member))
          (fun e member => rightSmall e (List.mem_append_left _ member))
          (by rw [List.length_append, List.length_append] at length; exact Nat.add_right_cancel length) front]

end InfiniteRicks.Library.Numerals
