import InfiniteRicks.Library.Numerals
import Mathlib.Tactic.Ring

/-!
# Regrouping bits

Digits of `s` bits read one after another, and digits of `t` bits written whenever enough bits have
come. `Regrouped` says that what has been written and the bits that are pending are what has been read.
The last bits are `Padded` with zeros; with the widths exchanged the digits come out again (`unpad`), and
padded digits are determined by what they hold (`Padded.unique`).
-/

namespace InfiniteRicks.Library.Regroup

open Numerals

/-- `output`, followed by `r` pending bits of value `p`, has the bits of `input`. -/
structure Regrouped (s t : Nat) (input output : List Nat) (r p : Nat) : Prop where
  value : Numerals.value (2 ^ t) output * 2 ^ r + p = Numerals.value (2 ^ s) input
  size : t * output.length + r = s * input.length
  pending : p < 2 ^ r
  input : ∀ d ∈ input, d < 2 ^ s
  output : ∀ d ∈ output, d < 2 ^ t

variable {s t r p : Nat} {input output : List Nat}

theorem regrouped_nil (s t : Nat) : Regrouped s t [] [] 0 0 where
  value := rfl
  size := rfl
  pending := Nat.one_pos
  input d member := (List.not_mem_nil member).elim
  output d member := (List.not_mem_nil member).elim

/-- A digit is read. -/
theorem Regrouped.push (done : Regrouped s t input output r p) {d : Nat} (small : d < 2 ^ s) :
    Regrouped s t (input ++ [d]) output (r + s) (p * 2 ^ s + d) where
  value := by
    rw [value_append_singleton, ← done.value, pow_add]
    ring
  size := by
    rw [List.length_append, List.length_singleton, Nat.mul_add, Nat.mul_one, ← done.size]
    omega
  pending := by
    calc p * 2 ^ s + d < p * 2 ^ s + 2 ^ s := Nat.add_lt_add_left small _
      _ = (p + 1) * 2 ^ s := by ring
      _ ≤ 2 ^ r * 2 ^ s := Nat.mul_le_mul_right _ done.pending
      _ = 2 ^ (r + s) := (pow_add 2 r s).symm
  input e member := by
    rcases List.mem_append.mp member with old | own
    · exact done.input e old
    · rw [List.mem_singleton.mp own]
      exact small
  output := done.output

/-- A digit is written. -/
theorem Regrouped.emit (done : Regrouped s t input output (r + t) p) :
    Regrouped s t input (output ++ [p / 2 ^ r]) r (p % 2 ^ r) where
  value := by
    rw [value_append_singleton, ← done.value, pow_add]
    have split := Nat.div_add_mod p (2 ^ r)
    calc (Numerals.value (2 ^ t) output * 2 ^ t + p / 2 ^ r) * 2 ^ r + p % 2 ^ r
        = Numerals.value (2 ^ t) output * (2 ^ r * 2 ^ t) + (2 ^ r * (p / 2 ^ r) + p % 2 ^ r) := by ring
      _ = Numerals.value (2 ^ t) output * (2 ^ r * 2 ^ t) + p := by rw [split]
  size := by
    rw [List.length_append, List.length_singleton, Nat.mul_add, Nat.mul_one, ← done.size]
    omega
  pending := Nat.mod_lt _ (Nat.two_pow_pos r)
  input := done.input
  output e member := by
    rcases List.mem_append.mp member with old | own
    · exact done.output e old
    · rw [List.mem_singleton.mp own]
      refine Nat.div_lt_of_lt_mul ?_
      rw [← pow_add]
      exact done.pending

/-- `digits` have the bits of `input` and then some zeros. -/
structure Padded (s t : Nat) (input digits : List Nat) (zeros : Nat) : Prop where
  value : Numerals.value (2 ^ t) digits = Numerals.value (2 ^ s) input * 2 ^ zeros
  size : t * digits.length = s * input.length + zeros
  input : ∀ d ∈ input, d < 2 ^ s
  digits : ∀ d ∈ digits, d < 2 ^ t

/-- Nothing is pending. -/
theorem Regrouped.padded (done : Regrouped s t input output 0 p) : Padded s t input output 0 where
  value := by
    have none : p = 0 := Nat.lt_one_iff.mp done.pending
    rw [← done.value, none]
    ring
  size := done.size
  input := done.input
  digits := done.output

/-- Pending bits are filled up with zeros and written. -/
theorem Regrouped.pad (done : Regrouped s t input output r p) (fewer : r ≤ t) :
    Padded s t input (output ++ [p * 2 ^ (t - r)]) (t - r) := by
  have whole : 2 ^ t = 2 ^ r * 2 ^ (t - r) := by rw [← pow_add, Nat.add_sub_cancel' fewer]
  refine ⟨?_, ?_, done.input, ?_⟩
  · rw [value_append_singleton, ← done.value, Nat.add_mul, Nat.mul_assoc, ← whole]
  · have size := done.size
    rw [List.length_append, List.length_singleton, Nat.mul_add, Nat.mul_one]
    omega
  · intro d member
    rcases List.mem_append.mp member with old | own
    · exact done.output d old
    · rw [List.mem_singleton.mp own, whole]
      exact Nat.mul_lt_mul_of_pos_right done.pending (Nat.two_pow_pos _)

/-- Padded digits with fewer zeros than a digit has bits are determined. -/
theorem Padded.unique {left right : List Nat} {leftZeros rightZeros : Nat} (first : Padded s t input left leftZeros)
    (second : Padded s t input right rightZeros) (few : leftZeros < t) (few' : rightZeros < t) :
    left = right ∧ leftZeros = rightZeros := by
  have positive : 0 < t := Nat.zero_lt_of_lt few
  have firstSize := first.size
  have secondSize := second.size
  have length : left.length = right.length := by
    rcases Nat.lt_trichotomy left.length right.length with less | same | more
    · have step := Nat.mul_le_mul_left t less
      rw [Nat.mul_succ] at step
      omega
    · exact same
    · have step := Nat.mul_le_mul_left t more
      rw [Nat.mul_succ] at step
      omega
  have zeros : leftZeros = rightZeros := by
    rw [length] at firstSize
    omega
  subst zeros
  exact ⟨value_injective first.digits second.digits length (first.value.trans second.value.symm), rfl⟩

/-- Padded digits, regrouped, give the input and the zeros. -/
theorem Regrouped.unpad {zeros : Nat} {digits back : List Nat} (done : Regrouped t s digits back r p)
    (padded : Padded s t input digits zeros) (fewZeros : zeros < s) (few : r < s) : back = input ∧ r = zeros ∧ p = 0 := by
  have sizes : s * back.length + r = s * input.length + zeros := done.size.trans padded.size
  have lengths : back.length = input.length := by
    have left := congrArg (· / s) sizes
    simpa [Nat.mul_add_div (Nat.zero_lt_of_lt few), Nat.div_eq_of_lt few, Nat.div_eq_of_lt fewZeros] using left
  have same : r = zeros := by
    rw [lengths] at sizes
    omega
  subst same
  have values := done.value.trans padded.value
  have pendingZero : p = 0 := by
    have mods := congrArg (· % 2 ^ r) values
    simpa [Nat.mod_eq_of_lt done.pending] using mods
  rw [pendingZero, Nat.add_zero] at values
  exact ⟨value_injective done.output padded.input lengths (Nat.eq_of_mul_eq_mul_right (Nat.two_pow_pos r) values), rfl,
    pendingZero⟩

/-- Where the pending bits are zero, the digits read are the output with zeros. -/
theorem Regrouped.repad {digits back : List Nat} (done : Regrouped t s digits back r 0) : Padded s t back digits r :=
  ⟨done.value.symm, done.size.symm, done.output, done.input⟩

end InfiniteRicks.Library.Regroup
