import InfiniteRicks.Money
import InfiniteRicks.WalletRecordSpec
import Mathlib.Tactic.NormNum
import Mathlib.Tactic.Ring

/-!
# What the texts of amounts say

A text that `FormatMoney` prints is the amount exactly where the two directives read the quotient and
the remainder, and `ParseMoney` reads it back where the whole part has at most ten digits. What
`ParseMoney` accepts is a number with at most eight decimals, up to a terminating zero.
-/

namespace InfiniteRicks

/-- All characters are digits. -/
def Digits (str : Bytes) : Prop := ∀ c ∈ str, isDigit c = true

/-- The digits after the point, as base units. -/
def fractionUnits (fraction : Bytes) : Nat := readDigits fraction * 10 ^ (8 - fraction.length)

/-- The text is a number with at most eight decimals, of so many base units. -/
def Amount (body : Bytes) (units : Nat) : Prop :=
  ∃ whole fraction : Bytes, (body = whole ++ 46 :: fraction ∨ body = whole ∧ fraction = []) ∧ Digits whole ∧
    Digits fraction ∧ fraction.length ≤ 8 ∧ whole ++ fraction ≠ [] ∧
    units = readDigits whole * 10 ^ 8 + fractionUnits fraction

/-- The same between spaces. -/
def SpacedAmount (str : Bytes) (value : Int) : Prop :=
  ∃ (front body back : Bytes) (units : Nat), str = front ++ (body ++ back) ∧ (∀ c ∈ front, isSpace c = true) ∧
    (∀ c ∈ back, isSpace c = true) ∧ Amount body units ∧ value = units

/-- The sign that `FormatMoney` prints. -/
def moneySign (n : Int) (fPlus : Bool) : Bytes := if n < 0 then [45] else if fPlus && 0 < n then [43] else []

/-- The same after the sign. -/
def SignedAmount (str : Bytes) (n : Int) (fPlus : Bool) : Prop :=
  ∃ body, str = moneySign n fPlus ++ body ∧ Amount body n.natAbs

section Digits

variable {str rest : Bytes}

theorem Digits.append (left : Digits str) (right : Digits rest) : Digits (str ++ rest) :=
  fun c member => (List.mem_append.mp member).elim (left c) (right c)

theorem digits_replicate (k : Nat) : Digits (List.replicate k 48) := by
  intro c member
  rw [List.eq_of_mem_replicate member]
  rfl

theorem digits_decimal (value : Nat) : Digits (decimal value) := fun _ => isDigit_of_mem_decimal

theorem readDigits_eq (digits : Digits str) : readDigits str = str.foldl (fun value c => 10 * value + (c.toNat - 48)) 0 := by
  rw [readDigits, List.takeWhile_eq_self_iff.mpr digits]

theorem foldl_digits (str : Bytes) (start : Nat) :
    str.foldl (fun value c => 10 * value + (c.toNat - 48)) start =
      start * 10 ^ str.length + str.foldl (fun value c => 10 * value + (c.toNat - 48)) 0 := by
  induction str generalizing start with
  | nil => simp
  | cons c rest ih =>
      rw [List.foldl_cons, ih, List.foldl_cons, ih (10 * 0 + _), List.length_cons, pow_succ]
      ring

theorem readDigits_append (left : Digits str) (right : Digits rest) :
    readDigits (str ++ rest) = readDigits str * 10 ^ rest.length + readDigits rest := by
  rw [readDigits_eq (left.append right), List.foldl_append, foldl_digits, ← readDigits_eq left, ← readDigits_eq right]

theorem readDigits_replicate (k : Nat) : readDigits (List.replicate k 48) = 0 := by
  induction k with
  | zero => rfl
  | succ k ih =>
      have zero : Digits [48] := digits_replicate 1
      rw [List.replicate_succ', readDigits_append (digits_replicate k) zero, ih]
      rfl

theorem digit_toNat {c : UInt8} (digit : isDigit c = true) : 48 ≤ c.toNat ∧ c.toNat ≤ 57 := by
  simpa [isDigit, UInt8.le_iff_toNat_le] using digit

theorem Digits.point_notMem (digits : Digits str) : (46 : UInt8) ∉ str := by
  intro member
  cases (digits 46 member).symm.trans (by decide : isDigit 46 = false)

theorem readDigits_lt (digits : Digits str) : readDigits str < 10 ^ str.length := by
  induction str using List.reverseRecOn with
  | nil => exact Nat.one_pos
  | append_singleton str c ih =>
      have before : Digits str := fun d member => digits d (List.mem_append_left _ member)
      have last : Digits [c] := fun d member => digits d (List.mem_append_right _ member)
      have bounds := digit_toNat (last c (List.mem_singleton_self c))
      have one : readDigits [c] = c.toNat - 48 := by rw [readDigits_eq last]; simp
      have less := ih before
      rw [readDigits_append before last, one, List.length_append, List.length_singleton, pow_succ]
      omega

theorem length_decimal_le {value k : Nat} (positive : 0 < k) : (decimal value).length ≤ k ↔ value < 10 ^ k := by
  rw [decimal, text, List.length_map]
  exact Nat.length_toDigits_le_iff (by decide) positive

/-- Ten times a number has one zero more. -/
theorem decimal_mul_ten {value : Nat} (positive : 0 < value) : decimal (value * 10) = decimal value ++ [48] := by
  rw [decimal, Nat.toDigits_of_base_le (by decide) (by omega), Nat.mul_div_cancel _ (by decide), Nat.mul_mod_left, text,
    List.map_append]
  rfl

theorem decimal_mul_pow {value : Nat} (positive : 0 < value) (k : Nat) :
    decimal (value * 10 ^ k) = decimal value ++ List.replicate k 48 := by
  induction k with
  | zero => simp
  | succ k ih =>
      rw [pow_succ, ← Nat.mul_assoc, decimal_mul_ten (Nat.mul_pos positive (Nat.pow_pos (by decide))), ih,
        List.append_assoc, ← List.replicate_succ']

end Digits

section Printed

/-- What the trimming loop leaves of the digits after the point: it cuts zeros, and keeps two places. -/
theorem rightTrim_point (places whole : Bytes) (enough : 2 ≤ places.length) :
    ∃ (k : Nat) (kept : Bytes), places = List.replicate k 48 ++ kept ∧ 2 ≤ kept.length ∧
      rightTrim (places ++ 46 :: whole) = kept ++ 46 :: whole ∧
      (kept.length = 2 ∨ kept.head? ≠ some 48 ∨ ∃ c ∈ kept, isDigit c = false) := by
  induction places with
  | nil => cases enough
  | cons last places ih =>
      match places with
      | [] => exact absurd enough (Nat.not_succ_le_self 1)
      | [middle] =>
          refine ⟨0, [last, middle], rfl, le_rfl, ?_, Or.inl rfl⟩
          have point : isDigit 46 = false := by decide
          change (if (last = 48 && isDigit 46) then _ else _) = _
          rw [point, Bool.and_false]
          rfl
      | middle :: before :: rest =>
          have unfolded : rightTrim (last :: middle :: before :: rest ++ 46 :: whole) =
              if last = 48 && isDigit before then rightTrim (middle :: before :: rest ++ 46 :: whole)
              else last :: middle :: before :: rest ++ 46 :: whole := rfl
          rw [unfolded]
          by_cases zero : last = 48 ∧ isDigit before = true
          · obtain ⟨k, kept, split, two, trimmed, stop⟩ := ih (by rw [List.length_cons, List.length_cons]; omega)
            refine ⟨k + 1, kept, ?_, two, ?_, stop⟩
            · rw [split, List.replicate_succ, zero.1, List.cons_append]
            · rw [if_pos (by rw [zero.2, Bool.and_true, decide_eq_true_eq]; exact zero.1), trimmed]
          · refine ⟨0, last :: middle :: before :: rest, rfl, by rw [List.length_cons, List.length_cons]; omega, ?_, ?_⟩
            · rw [if_neg (by rw [Bool.and_eq_true, decide_eq_true_eq]; exact zero)]
            · by_cases digit : isDigit before = true
              · exact Or.inr (Or.inl fun first => zero ⟨Option.some.inj first, digit⟩)
              · exact Or.inr (Or.inr ⟨before, by simp, Bool.eq_false_iff.mpr digit⟩)

/-- The same from the front: the digits after the point are those kept and the zeros cut off. -/
theorem trimmed_point (whole places : Bytes) (enough : 2 ≤ places.length) :
    ∃ (k : Nat) (kept : Bytes), places = kept ++ List.replicate k 48 ∧ 2 ≤ kept.length ∧
      (rightTrim (whole ++ 46 :: places).reverse).reverse = whole ++ 46 :: kept ∧
      (kept.length = 2 ∨ kept.getLast? ≠ some 48 ∨ ∃ c ∈ kept, isDigit c = false) := by
  obtain ⟨k, kept, split, two, trimmed, stop⟩ := rightTrim_point places.reverse whole.reverse (by rwa [List.length_reverse])
  refine ⟨k, kept.reverse, ?_, by rwa [List.length_reverse], ?_, ?_⟩
  · rw [← List.reverse_reverse places, split, List.reverse_append, List.reverse_replicate]
  · rw [List.reverse_append, List.reverse_cons, List.append_assoc, List.singleton_append, trimmed, List.reverse_append,
      List.reverse_cons, List.reverse_reverse, List.append_assoc, List.singleton_append]
  · rwa [List.length_reverse, List.getLast?_reverse, show (∃ c ∈ kept.reverse, isDigit c = false) ↔ ∃ c ∈ kept, isDigit c = false by
      simp only [List.mem_reverse]]

/-- A number with digits around a point is an amount by these digits. -/
theorem amount_point {whole fraction : Bytes} {units : Nat} :
    Amount (whole ++ 46 :: fraction) units ↔ Digits whole ∧ Digits fraction ∧ fraction.length ≤ 8 ∧
      whole ++ fraction ≠ [] ∧ units = readDigits whole * 10 ^ 8 + fractionUnits fraction := by
  constructor
  · rintro ⟨other, otherFraction, shape | ⟨shape, -⟩, wholeDigits, fractionDigits, short, some_, value⟩
    · obtain ⟨rfl, -, rfl⟩ :=
        (List.append_cons_inj_of_notMem wholeDigits.point_notMem fractionDigits.point_notMem).mp shape.symm
      exact ⟨wholeDigits, fractionDigits, short, some_, value⟩
    · have member : (46 : UInt8) ∈ other := by
        rw [← shape]
        exact List.mem_append_right _ List.mem_cons_self
      exact absurd member wholeDigits.point_notMem
  · rintro ⟨wholeDigits, fractionDigits, short, some_, value⟩
    exact ⟨whole, fraction, Or.inl rfl, wholeDigits, fractionDigits, short, some_, value⟩

/-- What `i64tostr` prints is digits exactly for a number that is not negative. -/
theorem digits_i64tostr (n : Int64) : Digits (i64tostr n) ↔ 0 ≤ n.toInt := by
  unfold i64tostr
  by_cases negative : n.toInt < 0
  · rw [if_pos negative]
    exact ⟨fun digits => absurd (digits 45 List.mem_cons_self) (by decide), fun positive => absurd negative (by omega)⟩
  · rw [if_neg negative]
    exact ⟨fun _ => by omega, fun _ => digits_decimal _⟩

theorem readDigits_i64tostr {n : Int64} (positive : 0 ≤ n.toInt) : readDigits (i64tostr n) = n.toInt.natAbs := by
  rw [i64tostr, if_neg (by omega), readDigits_decimal]

/-- What `%08` prints of a number that is not negative: zeros and its digits, at least eight. -/
theorem padded_of_nonneg {n : Int64} (positive : 0 ≤ n.toInt) :
    Digits (padded n) ∧ readDigits (padded n) = n.toInt.natAbs ∧
      (padded n).length = max 8 (decimal n.toInt.natAbs).length := by
  rw [padded, if_neg (by omega)]
  refine ⟨(digits_replicate _).append (digits_decimal _), ?_, ?_⟩
  · rw [readDigits_append (digits_replicate _) (digits_decimal _), readDigits_replicate, readDigits_decimal]
    omega
  · rw [List.length_append, List.length_replicate]
    omega

theorem length_padded (n : Int64) : 8 ≤ (padded n).length := by
  unfold padded
  split
  · rw [List.length_cons, List.length_append, List.length_replicate]
    omega
  · rw [List.length_append, List.length_replicate]
    omega

/-- The digits that stay of what `%08` prints are those of a remainder exactly where it is the number, or has eight digits
and is the number without zeros at its end. -/
theorem kept_iff {n : Int64} {kept : Bytes} {k remainder : Nat} (split : padded n = kept ++ List.replicate k 48)
    (two : 2 ≤ kept.length)
    (stop : kept.length = 2 ∨ kept.getLast? ≠ some 48 ∨ ∃ c ∈ kept, isDigit c = false) (small : remainder < 10 ^ 8) :
    Digits kept ∧ kept.length ≤ 8 ∧ fractionUnits kept = remainder ↔
      ∃ zeros : Nat, n.toInt = remainder * 10 ^ zeros ∧ (zeros = 0 ∨ 10 ^ 7 ≤ remainder) := by
  by_cases positive : 0 ≤ n.toInt
  · obtain ⟨digits, value, length⟩ := padded_of_nonneg positive
    have keptDigits : Digits kept := fun c member => digits c (by rw [split]; exact List.mem_append_left _ member)
    have keptValue : readDigits kept * 10 ^ k = n.toInt.natAbs := by
      rw [← value, split, readDigits_append keptDigits (digits_replicate k), readDigits_replicate, List.length_replicate]
      rfl
    have keptLength : kept.length + k = max 8 (decimal n.toInt.natAbs).length := by
      rw [← length, split, List.length_append, List.length_replicate]
    have lastNotZero : kept.length = 2 ∨ kept.getLast? ≠ some 48 :=
      stop.imp_right fun either => either.resolve_right fun ⟨c, member, other⟩ => by
        rw [keptDigits c member] at other
        cases other
    -- the zeros that the number has beyond the eight places
    obtain ⟨beyond, more⟩ : ∃ beyond, max 8 (decimal n.toInt.natAbs).length = 8 + beyond :=
      ⟨_, (Nat.add_sub_cancel' (le_max_left _ _)).symm⟩
    have whole : kept.length ≤ 8 → n.toInt.natAbs = fractionUnits kept * 10 ^ beyond := by
      intro short
      rw [← keptValue, show k = (8 - kept.length) + beyond by omega, pow_add, ← Nat.mul_assoc]
      rfl
    constructor
    · rintro ⟨-, short, rfl⟩
      have number := whole short
      refine ⟨beyond, by rw [← Int.natAbs_of_nonneg positive, number]; push_cast; rfl, ?_⟩
      rcases Nat.eq_zero_or_pos beyond with none | some_
      · exact Or.inl none
      · refine Or.inr (Nat.le_of_mul_le_mul_right ?_ (Nat.pow_pos (n := beyond) (by decide : 0 < 10)))
        rw [← number, ← pow_add]
        by_contra smaller
        have fewer := (length_decimal_le (by omega)).mpr (not_le.mp smaller)
        omega
    · rintro ⟨zeros, number, either⟩
      have value : n.toInt.natAbs = remainder * 10 ^ zeros := by
        rw [number, ← Nat.cast_ofNat, ← Nat.cast_pow, ← Nat.cast_mul, Int.natAbs_natCast]
      obtain ⟨short, same⟩ : kept.length ≤ 8 ∧ beyond = zeros := by
        rcases Nat.eq_zero_or_pos zeros with rfl | some_
        · rw [pow_zero, Nat.mul_one] at value
          have fits : (decimal n.toInt.natAbs).length ≤ 8 := (length_decimal_le (by decide)).mpr (by rw [value]; exact small)
          omega
        · have large := either.resolve_left (Nat.ne_of_gt some_)
          have eight : (decimal remainder).length = 8 := by
            have upper := (@length_decimal_le remainder 8 (by decide)).mpr small
            have lower : ¬ (decimal remainder).length ≤ 7 := fun less =>
              absurd ((length_decimal_le (by decide)).mp less) (not_lt.mpr large)
            omega
          have shape : decimal n.toInt.natAbs = decimal remainder ++ List.replicate zeros 48 := by
            rw [value, decimal_mul_pow (by omega)]
          have printed : padded n = decimal remainder ++ List.replicate zeros 48 := by
            rw [padded, if_neg (by omega), shape, List.length_append, eight, List.length_replicate,
              Nat.sub_eq_zero_of_le (Nat.le_add_right 8 zeros), List.replicate_zero, List.nil_append]
          rw [shape, List.length_append, eight, List.length_replicate] at more keptLength
          refine ⟨?_, by omega⟩
          by_contra long
          have lastZero : kept.getLast? = some 48 := by
            have inside : kept.length - 1 < kept.length := by omega
            rw [List.getLast?_eq_getElem?, List.getElem?_eq_getElem inside]
            have place : (kept ++ List.replicate k 48)[kept.length - 1]? =
                (decimal remainder ++ List.replicate zeros 48)[kept.length - 1]? := by rw [← split, printed]
            rw [List.getElem?_append_left inside, List.getElem?_eq_getElem inside,
              List.getElem?_append_right (by omega), List.getElem?_replicate, if_pos (by omega)] at place
            exact place
          rcases lastNotZero with two_ | notZero
          · omega
          · exact notZero lastZero
      refine ⟨keptDigits, short, Nat.eq_of_mul_eq_mul_right (Nat.pow_pos (n := zeros) (by decide : 0 < 10)) ?_⟩
      rw [← value, whole short, same]
  · have sign : 45 ∈ kept := by
      rw [padded, if_pos (by omega)] at split
      match kept, two with
      | first :: _ :: _, _ =>
          rw [(List.cons.inj split).1]
          exact List.mem_cons_self
    constructor
    · rintro ⟨digits, -⟩
      exact absurd (digits 45 sign) (by decide)
    · rintro ⟨zeros, number, -⟩
      refine absurd ?_ positive
      rw [number]
      positivity

theorem fractionUnits_lt {fraction : Bytes} (digits : Digits fraction) (short : fraction.length ≤ 8) :
    fractionUnits fraction < 10 ^ 8 := by
  have value := readDigits_lt digits
  calc fractionUnits fraction < 10 ^ fraction.length * 10 ^ (8 - fraction.length) :=
        Nat.mul_lt_mul_of_pos_right value (Nat.pow_pos (by decide))
    _ = 10 ^ 8 := by rw [← pow_add, Nat.add_sub_cancel' short]

/-- The two numbers printed are those of an amount: the quotient, and the remainder up to zeros cut off. -/
def Prints (first second : Int64) (units : Nat) : Prop :=
  first.toInt = (units / 10 ^ 8 : Nat) ∧
    ∃ zeros : Nat, second.toInt = (units % 10 ^ 8 : Nat) * 10 ^ zeros ∧ (zeros = 0 ∨ 10 ^ 7 ≤ units % 10 ^ 8)

theorem printed_amount_iff (first second : Int64) (units : Nat) :
    Amount (rightTrim (i64tostr first ++ 46 :: padded second).reverse).reverse units ↔ Prints first second units := by
  obtain ⟨k, kept, split, two, trimmed, stop⟩ := trimmed_point (i64tostr first) (padded second)
    ((length_padded second).trans' (by decide))
  have kept_spec := kept_iff split two stop (Nat.mod_lt units (by decide : 0 < 10 ^ 8))
  rw [trimmed, amount_point, digits_i64tostr]
  constructor
  · rintro ⟨positive, digits, short, -, value⟩
    rw [readDigits_i64tostr positive] at value
    have less := fractionUnits_lt digits short
    refine ⟨?_, kept_spec.mp ⟨digits, short, by omega⟩⟩
    omega
  · rintro ⟨quotient, remainder⟩
    obtain ⟨digits, short, same⟩ := kept_spec.mpr remainder
    have positive : 0 ≤ first.toInt := by omega
    refine ⟨positive, digits, short, fun none => ?_, ?_⟩
    · have length := congrArg List.length none
      rw [List.length_append, List.length_nil] at length
      omega
    · rw [readDigits_i64tostr positive, same]
      omega

end Printed

/-- The quotient and the remainder that `FormatMoney` hands to `strprintf`. -/
def moneyArgs (n : Int) : Int × Int :=
  let n_abs := if 0 < n then n else toInt128 (-n)
  (n_abs.tdiv coin.toInt, n_abs.tmod coin.toInt)

/-- The directives read the parts of the amount. -/
def VarArgs.Reads (va : VarArgs) (n : Int) : Prop :=
  Prints (va (moneyArgs n).1 (moneyArgs n).2).1 (va (moneyArgs n).1 (moneyArgs n).2).2 n.natAbs

section Format

variable {va : VarArgs} {n : Int} {fPlus : Bool}

theorem formatMoney_eq (va : VarArgs) (n : Int) (fPlus : Bool) :
    formatMoney va n fPlus = moneySign n fPlus ++ (rightTrim (i64tostr (va (moneyArgs n).1 (moneyArgs n).2).1 ++
      46 :: padded (va (moneyArgs n).1 (moneyArgs n).2).2).reverse).reverse := by
  unfold formatMoney moneySign
  dsimp only
  split
  · rfl
  · split
    · rfl
    · rfl

/-- A text of `FormatMoney` is the amount exactly where the directives read its parts. -/
theorem formatMoney_signed_iff (va : VarArgs) (n : Int) (fPlus : Bool) :
    SignedAmount (formatMoney va n fPlus) n fPlus ↔ va.Reads n := by
  rw [formatMoney_eq]
  constructor
  · rintro ⟨body, shape, amount⟩
    rw [← List.append_cancel_left shape] at amount
    exact (printed_amount_iff _ _ _).mp amount
  · exact fun reads => ⟨_, rfl, (printed_amount_iff _ _ _).mpr reads⟩

theorem moneyArgs_of_range (range : -2 ^ 127 < n ∧ n < 2 ^ 127) :
    moneyArgs n = (((n.natAbs / 10 ^ 8 : Nat) : Int), ((n.natAbs % 10 ^ 8 : Nat) : Int)) := by
  have units : coin.toInt = ((10 ^ 8 : Nat) : Int) := by decide
  have absolute : (if 0 < n then n else toInt128 (-n)) = (n.natAbs : Int) := by
    split
    · omega
    · rw [toInt128, Int.bmod_eq_of_le (by omega) (by omega)]
      omega
  rw [moneyArgs, absolute, units]
  rfl

theorem toInt_ofInt_eq_iff (value : Nat) : (Int64.ofInt value).toInt = value ↔ value < 2 ^ 63 := by
  constructor
  · intro same
    have upper := (Int64.ofInt value).toInt_lt
    omega
  · intro small
    exact Int64.toInt_ofInt_of_le (by omega) (by omega)

/-- Where the low halves are read, an amount is printed exactly when its quotient is an `int64_t`. -/
theorem lowHalves_reads (range : -2 ^ 127 < n ∧ n < 2 ^ 127) : VarArgs.lowHalves.Reads n ↔ n.natAbs / 10 ^ 8 < 2 ^ 63 := by
  have remainder := Nat.mod_lt n.natAbs (by decide : 0 < 10 ^ 8)
  unfold VarArgs.Reads Prints VarArgs.lowHalves
  simp only [moneyArgs_of_range range, toInt_ofInt_eq_iff]
  refine and_iff_left ⟨0, ?_, Or.inl rfl⟩
  rw [(toInt_ofInt_eq_iff _).mpr (by omega), pow_zero, Int.mul_one]

end Format

section Parse

/-- `nMult` before the digit that has `left` places to come, itself included. -/
def multiplier (left : Nat) : Int64 := if left = 0 then 0 else Int64.ofNat (10 ^ (left - 1))

theorem multiplier_succ {left : Nat} (few : left < 8) :
    0 < multiplier (left + 1) ∧ multiplier (left + 1) = Int64.ofNat (10 ^ left) ∧
      multiplier (left + 1) / 10 = multiplier left := by
  have all : ∀ left : Fin 8, 0 < multiplier (left.1 + 1) ∧ multiplier (left.1 + 1) = Int64.ofNat (10 ^ left.1) ∧
      multiplier (left.1 + 1) / 10 = multiplier left.1 := by
    decide
  exact all ⟨left, few⟩

theorem digit_value {c : UInt8} (digit : isDigit c = true) : (c - 48).toUInt64.toInt64 = Int64.ofNat (c.toNat - 48) := by
  rw [isDigit, Bool.and_eq_true, decide_eq_true_iff, decide_eq_true_iff, UInt8.le_iff_toNat_le, UInt8.le_iff_toNat_le] at digit
  change 48 ≤ c.toNat ∧ c.toNat ≤ 57 at digit
  have all : ∀ n : Fin 10, (UInt8.ofNat (48 + n.1) - 48).toUInt64.toInt64 = Int64.ofNat n.1 := by decide
  have own := all ⟨c.toNat - 48, by omega⟩
  dsimp only at own
  rwa [Nat.add_sub_cancel' digit.1, UInt8.ofNat_toNat] at own

theorem readDigits_cons {c : UInt8} {rest : Bytes} (digits : Digits (c :: rest)) :
    readDigits (c :: rest) = (c.toNat - 48) * 10 ^ rest.length + readDigits rest := by
  have first : Digits [c] := fun d member => digits d (List.mem_cons.mpr (Or.inl (List.mem_singleton.mp member)))
  have later : Digits rest := fun d member => digits d (List.mem_cons_of_mem _ member)
  have whole := readDigits_append first later
  rw [readDigits_eq first] at whole
  simpa using whole

/-- The loop after the point reads digits for the places that are left. -/
theorem readUnits_spec (str : Bytes) {left : Nat} (few : left ≤ 8) (nUnits : Int64) :
    ∃ fraction rest, str = fraction ++ rest ∧ Digits fraction ∧ fraction.length ≤ left ∧
      (fraction.length = left ∨ ∀ c, rest.head? = some c → isDigit c = false) ∧
      readUnits str (multiplier left) nUnits =
        (nUnits + Int64.ofNat (readDigits fraction * 10 ^ (left - fraction.length)), rest) := by
  have zero : ∀ nUnits : Int64, nUnits + Int64.ofNat (readDigits [] * 10 ^ (left - ([] : Bytes).length)) = nUnits := by
    intro nUnits
    rw [show readDigits [] = 0 from rfl, Nat.zero_mul]
    exact Int64.add_zero nUnits
  have noDigits : Digits [] := fun c member => (List.not_mem_nil member).elim
  induction str generalizing left nUnits with
  | nil => exact ⟨[], [], rfl, noDigits, Nat.zero_le _, Or.inr (fun c none => by cases none), by rw [zero]; rfl⟩
  | cons c rest ih =>
      unfold readUnits
      cases left with
      | zero =>
          have stop : (isDigit c && decide (0 < multiplier 0)) = false := by
            rw [show decide (0 < multiplier 0) = false by decide, Bool.and_false]
          refine ⟨[], c :: rest, rfl, noDigits, le_rfl, Or.inl rfl, ?_⟩
          rw [stop, zero]
          rfl
      | succ left =>
          obtain ⟨positive, power, next⟩ := multiplier_succ (Nat.lt_of_succ_le few)
          by_cases digit : isDigit c = true
          · rw [digit, Bool.true_and, decide_eq_true positive, if_pos rfl, next, digit_value digit, power, ← Int64.ofNat_mul]
            obtain ⟨fraction, remaining, shape, digits, short, stop, result⟩ :=
              ih (Nat.le_of_succ_le few) (nUnits + Int64.ofNat (10 ^ left * (c.toNat - 48))) fun nUnits => by
                rw [show readDigits [] = 0 from rfl, Nat.zero_mul]
                exact Int64.add_zero nUnits
            have all : Digits (c :: fraction) := fun d member =>
              (List.mem_cons.mp member).elim (fun same => same ▸ digit) (digits d)
            refine ⟨c :: fraction, remaining, by rw [shape]; rfl, all, Nat.succ_le_succ short, ?_, ?_⟩
            · exact stop.imp_left fun same => congrArg Nat.succ same
            · rw [result, Int64.add_assoc, ← Int64.ofNat_add, readDigits_cons all, List.length_cons,
                Nat.add_sub_add_right, Nat.add_mul, Nat.mul_assoc, ← pow_add, Nat.add_sub_cancel' short, Nat.mul_comm (10 ^ left)]
          · refine ⟨[], c :: rest, rfl, noDigits, Nat.zero_le _, Or.inr fun d first => ?_, ?_⟩
            · cases first
              exact Bool.eq_false_iff.mpr digit
            · rw [Bool.eq_false_iff.mpr digit, Bool.false_and, zero]
              rfl

/-- What the loop over the number has read when it stops. -/
theorem readAmount_spec {str strWhole : Bytes} {result : Bytes × Int64 × Bytes}
    (accepted : readAmount str strWhole = some result) :
    ∃ whole, Digits whole ∧ result.1 = strWhole ++ whole ∧
      ((∃ fraction, str = whole ++ 46 :: (fraction ++ result.2.2) ∧ Digits fraction ∧ fraction.length ≤ 8 ∧
          result.2.1 = Int64.ofNat (fractionUnits fraction)) ∨
        str = whole ++ result.2.2 ∧ result.2.1 = 0) := by
  have noDigits : Digits [] := fun c member => (List.not_mem_nil member).elim
  induction str generalizing strWhole with
  | nil =>
      cases accepted
      exact ⟨[], noDigits, (List.append_nil _).symm, Or.inr ⟨rfl, rfl⟩⟩
  | cons c rest ih =>
      unfold readAmount at accepted
      split at accepted
      · rename_i point
        obtain ⟨fraction, remaining, shape, digits, short, -, units⟩ := readUnits_spec rest le_rfl 0
        change some (strWhole, readUnits rest (multiplier 8) 0) = some result at accepted
        rw [units] at accepted
        cases accepted
        refine ⟨[], noDigits, (List.append_nil _).symm, Or.inl ⟨fraction, by rw [point, shape]; rfl, digits, short, ?_⟩⟩
        exact Int64.zero_add _
      · split at accepted
        · cases accepted
          exact ⟨[], noDigits, (List.append_nil _).symm, Or.inr ⟨rfl, rfl⟩⟩
        · split at accepted
          · cases accepted
          · rename_i notPoint space digit
            obtain ⟨whole, digits, first, tail⟩ := ih accepted
            have own : isDigit c = true := by simpa using digit
            refine ⟨c :: whole, fun d member => (List.mem_cons.mp member).elim (fun same => same ▸ own) (digits d), ?_, ?_⟩
            · rw [first, List.append_assoc]
              rfl
            · rcases tail with ⟨fraction, shape, rest_⟩ | ⟨shape, units⟩
              · exact Or.inl ⟨fraction, by rw [shape]; rfl, rest_⟩
              · exact Or.inr ⟨by rw [shape]; rfl, units⟩

theorem digit_not {c : UInt8} (digit : isDigit c = true) : isSpace c = false ∧ c ≠ 0 ∧ c ≠ 45 ∧ c ≠ 43 ∧ c ≠ 46 := by
  have bounds := digit_toNat digit
  have apart : ∀ {d : UInt8}, d.toNat < 48 → c ≠ d := by
    rintro d less rfl
    omega
  refine ⟨?_, apart (by decide), apart (by decide), apart (by decide), apart (by decide)⟩
  have control : ¬ c ≤ 13 := by
    rw [UInt8.le_iff_toNat_le, show (13 : UInt8).toNat = 13 from rfl]
    omega
  simp [isSpace, apart (d := 32) (by decide), control]

theorem atoi64_digits {str : Bytes} (digits : Digits str) : atoi64 str = clampInt64 (readDigits str) := by
  cases str with
  | nil => rfl
  | cons c rest =>
      obtain ⟨space, -, minus, plus, -⟩ := digit_not (digits c List.mem_cons_self)
      rw [atoi64, List.dropWhile_cons_of_neg (by simp [space])]
      split
      · rename_i same
        exact absurd (List.cons.inj same).1 minus
      · rename_i same
        exact absurd (List.cons.inj same).1 plus
      · rfl

/-- Ten digits and eight decimals do not overflow. -/
theorem toInt_parsed {whole : Bytes} (digits : Digits whole) (short : whole.length ≤ 10) {nUnits : Nat}
    (small : nUnits < 10 ^ 8) :
    (atoi64 whole * coin + Int64.ofNat nUnits).toInt = (readDigits whole * 10 ^ 8 + nUnits : Nat) := by
  have less : readDigits whole < 10 ^ 10 :=
    lt_of_lt_of_le (readDigits_lt digits) (Nat.pow_le_pow_right (by decide) short)
  have units : coin = Int64.ofNat (10 ^ 8) := rfl
  rw [atoi64_digits digits, clampInt64_of_range (by omega), Int64.ofInt_eq_ofNat, units, ← Int64.ofNat_mul, ← Int64.ofNat_add,
    Int64.toInt_ofNat_of_lt (by omega)]

/-- What `ParseMoney` accepts is, up to a terminating zero, a number between spaces, and the result is its value. -/
theorem parseMoney_spec {str : Bytes} {ret : Int64} (accepted : parseMoney str = some ret) :
    ∃ front body back whole fraction : Bytes, Base58.cString str = front ++ (body ++ back) ∧
      (∀ c ∈ front, isSpace c = true) ∧ (∀ c ∈ back, isSpace c = true) ∧
      (body = whole ++ 46 :: fraction ∨ body = whole ∧ fraction = []) ∧ Digits whole ∧ Digits fraction ∧
      fraction.length ≤ 8 ∧ whole.length ≤ 10 ∧ ret.toInt = (readDigits whole * 10 ^ 8 + fractionUnits fraction : Nat) := by
  obtain ⟨⟨strWhole, nUnits, back⟩, read, tests⟩ := Option.bind_eq_some_iff.mp accepted
  dsimp only at tests
  split at tests
  · cases tests
  rename_i spaces
  split at tests
  · cases tests
  rename_i long
  split at tests
  · cases tests
  cases tests
  obtain ⟨whole, digits, first, tail⟩ := readAmount_spec read
  dsimp only at first tail
  rw [List.nil_append] at first
  subst first
  have front := List.takeWhile_append_dropWhile (p := isSpace) (l := Base58.cString str)
  have frontSpaces : ∀ c ∈ (Base58.cString str).takeWhile isSpace, isSpace c = true := fun c member => List.mem_takeWhile_imp member
  have backSpaces : ∀ c ∈ back, isSpace c = true := by
    simpa using spaces
  rcases tail with ⟨fraction, shape, fractionDigits, short, rfl⟩ | ⟨shape, rfl⟩
  · refine ⟨_, strWhole ++ 46 :: fraction, back, strWhole, fraction, ?_, frontSpaces, backSpaces, Or.inl rfl, digits,
      fractionDigits, short, by omega, toInt_parsed digits (by omega) (fractionUnits_lt fractionDigits short)⟩
    exact front.symm.trans (congrArg _ (shape.trans (by rw [List.append_assoc]; rfl)))
  · refine ⟨_, strWhole, back, strWhole, [], front.symm.trans (congrArg _ shape), frontSpaces, backSpaces, Or.inr ⟨rfl, rfl⟩, digits,
      (fun c member => (List.not_mem_nil member).elim), Nat.zero_le _, by omega, ?_⟩
    exact toInt_parsed digits (by omega) (Nat.pow_pos (by decide) : 0 < 10 ^ 8)

/-- A number with a point that is short enough is accepted. -/
theorem parseMoney_point {whole fraction : Bytes} (digits : Digits whole) (fractionDigits : Digits fraction)
    (short : fraction.length ≤ 8) (few : whole.length ≤ 10) :
    ∃ ret, parseMoney (whole ++ 46 :: fraction) = some ret ∧
      ret.toInt = (readDigits whole * 10 ^ 8 + fractionUnits fraction : Nat) := by
  have chars : ∀ c ∈ whole ++ 46 :: fraction, isSpace c = false ∧ c ≠ 0 := by
    intro c member
    rcases List.mem_append.mp member with inWhole | tail
    · exact ⟨(digit_not (digits c inWhole)).1, (digit_not (digits c inWhole)).2.1⟩
    · rcases List.mem_cons.mp tail with rfl | inFraction
      · exact ⟨by decide, by decide⟩
      · exact ⟨(digit_not (fractionDigits c inFraction)).1, (digit_not (fractionDigits c inFraction)).2.1⟩
  have start : (Base58.cString (whole ++ 46 :: fraction)).dropWhile isSpace = whole ++ 46 :: fraction := by
    rw [Base58.cString_eq fun c member => (chars c member).2]
    exact Base58.dropWhile_isSpace fun c first => (chars c (List.mem_of_mem_head? first)).1
  have units : readUnits fraction (cent * 10) 0 = (Int64.ofNat (fractionUnits fraction), []) := by
    obtain ⟨read, rest, shape, -, -, stop, result⟩ := readUnits_spec fraction le_rfl 0
    have none : rest = [] := by
      cases rest with
      | nil => rfl
      | cons c rest =>
          rcases stop with full | other
          · rw [shape, List.length_append, List.length_cons] at short
            omega
          · have digit := fractionDigits c (by rw [shape]; exact List.mem_append_right _ List.mem_cons_self)
            rw [other c rfl] at digit
            cases digit
    subst none
    rw [List.append_nil] at shape
    subst shape
    exact result.trans (by rw [Int64.zero_add]; rfl)
  have read : ∀ before : Bytes, readAmount (whole ++ 46 :: fraction) before =
      some (before ++ whole, Int64.ofNat (fractionUnits fraction), []) := by
    clear start chars few
    induction whole with
    | nil =>
        intro before
        change some (before, readUnits fraction (cent * 10) 0) = _
        rw [units, List.append_nil]
    | cons c rest ih =>
        intro before
        have digit := digits c List.mem_cons_self
        obtain ⟨space, -, -, -, point⟩ := digit_not digit
        rw [List.cons_append, readAmount, if_neg point, space, digit, if_neg (by decide), if_neg (by decide),
          ih fun d member => digits d (List.mem_cons_of_mem _ member), List.append_assoc]
        rfl
  have small := fractionUnits_lt fractionDigits short
  have value : (Int64.ofNat (fractionUnits fraction)).toInt = fractionUnits fraction := Int64.toInt_ofNat_of_lt (by omega)
  have inside : (decide (Int64.ofNat (fractionUnits fraction) < 0) || decide (coin < Int64.ofNat (fractionUnits fraction))) = false := by
    rw [Bool.or_eq_false_iff, decide_eq_false_iff_not, decide_eq_false_iff_not, Int64.lt_iff_toInt_lt, Int64.lt_iff_toInt_lt,
      value, Int64.toInt_zero, show coin.toInt = 10 ^ 8 by decide]
    omega
  refine ⟨_, ?_, toInt_parsed digits few small⟩
  rw [parseMoney, start, read, Option.bind_eq_bind, Option.bind_some]
  dsimp only
  rw [List.all_nil, List.nil_append, if_neg (by decide), if_neg (by omega), inside, if_neg (by decide)]

end Parse

section Exact

theorem mem_trimmed {c : UInt8} (first second : Int64)
    (member : c ∈ (rightTrim (i64tostr first ++ 46 :: padded second).reverse).reverse) : c = 45 ∨ c = 46 ∨ isDigit c = true := by
  obtain ⟨k, kept, split, -, trimmed, -⟩ := trimmed_point (i64tostr first) (padded second)
    ((length_padded second).trans' (by decide))
  rw [trimmed] at member
  rcases List.mem_append.mp member with inWhole | tail
  · unfold i64tostr at inWhole
    split at inWhole
    · exact (List.mem_cons.mp inWhole).imp_right fun digit => Or.inr (isDigit_of_mem_decimal digit)
    · exact Or.inr (Or.inr (isDigit_of_mem_decimal inWhole))
  · rcases List.mem_cons.mp tail with point | inKept
    · exact Or.inr (Or.inl point)
    · have inPadded : c ∈ padded second := by
        rw [split]
        exact List.mem_append_left _ inKept
      have digits := (digits_replicate (7 - (decimal second.toInt.natAbs).length)).append (digits_decimal second.toInt.natAbs)
      have digits' := (digits_replicate (8 - (decimal second.toInt.natAbs).length)).append (digits_decimal second.toInt.natAbs)
      unfold padded at inPadded
      split at inPadded
      · exact (List.mem_cons.mp inPadded).imp_right fun digit => Or.inr (digits c digit)
      · exact Or.inr (Or.inr (digits' c inPadded))

/-- `ParseMoney` reads the printed numbers back as the amount exactly where they are its parts and the whole part has at
most ten digits. -/
theorem parseMoney_printed_iff (first second : Int64) (units : Nat) :
    ((parseMoney (rightTrim (i64tostr first ++ 46 :: padded second).reverse).reverse).map Int64.toInt = some (units : Int)) ↔
      Prints first second units ∧ units / 10 ^ 8 < 10 ^ 10 := by
  obtain ⟨k, kept, -, two, trimmed, -⟩ := trimmed_point (i64tostr first) (padded second)
    ((length_padded second).trans' (by decide))
  have printed := printed_amount_iff first second units
  have chars : ∀ c ∈ (rightTrim (i64tostr first ++ 46 :: padded second).reverse).reverse, isSpace c = false ∧ c ≠ 0 := by
    intro c member
    rcases mem_trimmed first second member with rfl | rfl | digit
    · exact ⟨by decide, by decide⟩
    · exact ⟨by decide, by decide⟩
    · exact ⟨(digit_not digit).1, (digit_not digit).2.1⟩
  rw [trimmed] at printed chars ⊢
  constructor
  · intro same
    obtain ⟨ret, accepted, value⟩ := Option.map_eq_some_iff.mp same
    obtain ⟨front, body, back, whole, fraction, shape, frontSpaces, backSpaces, point, digits, fractionDigits, short, few,
      exact_⟩ := parseMoney_spec accepted
    rw [Base58.cString_eq fun c member => (chars c member).2] at shape
    have noFront : front = [] := List.eq_nil_iff_forall_not_mem.mpr fun c member => by
      have space := frontSpaces c member
      rw [(chars c (by rw [shape]; exact List.mem_append_left _ member)).1] at space
      cases space
    have noBack : back = [] := List.eq_nil_iff_forall_not_mem.mpr fun c member => by
      have space := backSpaces c member
      rw [(chars c (by rw [shape]; exact List.mem_append_right _ (List.mem_append_right _ member))).1] at space
      cases space
    rw [noFront, noBack, List.nil_append, List.append_nil] at shape
    have some_ : whole ++ fraction ≠ [] := by
      intro none
      have length := congrArg List.length shape
      rw [List.append_eq_nil_iff] at none
      rcases point with rfl | ⟨rfl, -⟩
      · rw [none.1, none.2] at length
        simp only [List.length_append, List.length_cons, List.length_nil] at length
        omega
      · rw [none.1] at length
        simp only [List.length_append, List.length_cons, List.length_nil] at length
        omega
    have total : units = readDigits whole * 10 ^ 8 + fractionUnits fraction := by omega
    have amount : Amount (i64tostr first ++ 46 :: kept) units :=
      ⟨whole, fraction, by rwa [shape], digits, fractionDigits, short, some_, total⟩
    have wholeLess : readDigits whole < 10 ^ 10 :=
      lt_of_lt_of_le (readDigits_lt digits) (Nat.pow_le_pow_right (by decide) few)
    have less := fractionUnits_lt fractionDigits short
    exact ⟨printed.mp amount, by omega⟩
  · rintro ⟨prints, small⟩
    obtain ⟨digits, keptDigits, short, -, total⟩ := amount_point.mp (printed.mpr prints)
    have positive := (digits_i64tostr first).mp digits
    have few : (i64tostr first).length ≤ 10 := by
      rw [i64tostr, if_neg (by omega)]
      refine (length_decimal_le (by decide)).mpr ?_
      have quotient := prints.1
      omega
    obtain ⟨ret, accepted, value⟩ := parseMoney_point digits keptDigits short few
    rw [accepted, Option.map_some, value, ← total]

/-- What `ParseMoney` accepts is the amount that it returns, exactly where it has a digit and no zero byte. -/
theorem parseMoney_spaced_iff {str : Bytes} {ret : Int64} (accepted : parseMoney str = some ret) :
    SpacedAmount str ret.toInt ↔ 0 ∉ str ∧ ∃ c ∈ str, isDigit c = true := by
  have spaceNotZero : ∀ {c : UInt8}, isSpace c = true → c ≠ 0 := by
    rintro c space rfl
    exact absurd space (by decide)
  constructor
  · rintro ⟨front, body, back, units, rfl, frontSpaces, backSpaces, ⟨whole, fraction, point, digits, fractionDigits, -, some_, -⟩, -⟩
    have bodyChars : ∀ c ∈ body, c = 46 ∨ isDigit c = true := by
      intro c member
      rcases point with rfl | ⟨rfl, -⟩
      · rcases List.mem_append.mp member with inWhole | tail
        · exact Or.inr (digits c inWhole)
        · exact (List.mem_cons.mp tail).imp_right (fractionDigits c)
      · exact Or.inr (digits c member)
    refine ⟨fun member => ?_, ?_⟩
    · rcases List.mem_append.mp member with inFront | tail
      · exact spaceNotZero (frontSpaces 0 inFront) rfl
      · rcases List.mem_append.mp tail with inBody | inBack
        · rcases bodyChars 0 inBody with point_ | digit
          · cases point_
          · exact absurd digit (by decide)
        · exact spaceNotZero (backSpaces 0 inBack) rfl
    · obtain ⟨c, member⟩ := List.exists_mem_of_ne_nil _ some_
      have digit : isDigit c = true := (List.mem_append.mp member).elim (digits c) (fractionDigits c)
      have inBody : c ∈ body := by
        rcases point with rfl | ⟨rfl, rfl⟩
        · exact (List.mem_append.mp member).elim (List.mem_append_left _) fun tail =>
            List.mem_append_right _ (List.mem_cons_of_mem _ tail)
        · rwa [List.append_nil] at member
      exact ⟨c, List.mem_append_right _ (List.mem_append_left _ inBody), digit⟩
  · rintro ⟨noZero, c, member, digit⟩
    obtain ⟨front, body, back, whole, fraction, shape, frontSpaces, backSpaces, point, digits, fractionDigits, short, -,
      value⟩ := parseMoney_spec accepted
    have whole_ : Base58.cString str = str := Base58.cString_eq fun d inside => by
      rintro rfl
      exact noZero inside
    rw [whole_] at shape
    refine ⟨front, body, back, _, shape, frontSpaces, backSpaces, ⟨whole, fraction, point, digits, fractionDigits, short,
      fun none => ?_, rfl⟩, value⟩
    rw [List.append_eq_nil_iff] at none
    obtain ⟨rfl, rfl⟩ := none
    have notSpace := digit_not digit
    rw [shape] at member
    rcases List.mem_append.mp member with inFront | tail
    · cases notSpace.1.symm.trans (frontSpaces c inFront)
    · rcases List.mem_append.mp tail with inBody | inBack
      · rcases point with rfl | ⟨rfl, -⟩
        · exact notSpace.2.2.2.2 (List.mem_singleton.mp inBody)
        · cases inBody
      · cases notSpace.1.symm.trans (backSpaces c inBack)

/-- Whatever the directives read: an amount comes back through its text exactly where they read its parts and it has at
most ten whole digits, an accepted text is the amount that is returned exactly where it has a digit and no zero byte, and
an `__int128` is printed as it is exactly where they read its parts. -/
theorem money_texts_exact_iff (va : VarArgs) :
    (∀ n : Int, 0 ≤ n → n ≤ maxMoney.toInt →
      ((parseMoney (formatMoney va n false)).map Int64.toInt = some n ↔ va.Reads n ∧ n / 10 ^ 8 < 10 ^ 10)) ∧
    (∀ str ret, parseMoney str = some ret →
      (SpacedAmount str ret.toInt ↔ 0 ∉ str ∧ ∃ c ∈ str, isDigit c = true)) ∧
    ∀ (n : Int) (fPlus : Bool), SignedAmount (formatMoney va n fPlus) n fPlus ↔ va.Reads n := by
  refine ⟨fun n nonneg _ => ?_, fun str ret accepted => parseMoney_spaced_iff accepted,
    fun n fPlus => formatMoney_signed_iff va n fPlus⟩
  obtain ⟨units, rfl⟩ := Int.eq_ofNat_of_zero_le nonneg
  have sign : moneySign units false = [] := by
    rw [moneySign, if_neg (by omega)]
    rfl
  rw [formatMoney_eq, sign, List.nil_append, parseMoney_printed_iff]
  refine and_congr Iff.rfl ?_
  norm_cast

end Exact

section Concrete

/-- An amount of the unit tests comes back where the low halves are read. -/
theorem money_texts_exact_low :
    (parseMoney (formatMoney .lowHalves 1234567890000 false)).map Int64.toInt = some 1234567890000 ∧
      SignedAmount (formatMoney .lowHalves (-100000000) true) (-100000000) true :=
  ⟨((money_texts_exact_iff .lowHalves).1 _ (by decide) (by decide)).mpr
      ⟨(lowHalves_reads (by decide)).mpr (by decide), by decide⟩,
    ((money_texts_exact_iff .lowHalves).2.2 _ _).mpr ((lowHalves_reads (by decide)).mpr (by decide))⟩

/-- The largest amount is printed with eleven whole digits, whatever is read for its decimals, and is not read back. A
supply whose quotient is no `int64_t` is printed as another number. -/
theorem maxMoney_not_read_back :
    parseMoney (formatMoney .lowHalves maxMoney.toInt false) = none ∧
      parseMoney (formatMoney .registers maxMoney.toInt false) = none ∧
      formatMoney .lowHalves maxMoney.toInt false =
        text ['9', '2', '2', '3', '3', '7', '2', '0', '3', '6', '8', '.', '5', '4', '7', '7', '5', '8', '0', '7'] ∧
      formatMoney .registers maxMoney.toInt false =
        text ['9', '2', '2', '3', '3', '7', '2', '0', '3', '6', '8', '.', '0', '0'] ∧
      formatMoney .lowHalves (2 ^ 63 * 10 ^ 8) false =
        45 :: text ['9', '2', '2', '3', '3', '7', '2', '0', '3', '6', '8', '5', '4', '7', '7', '5', '8', '0', '8', '.', '0', '0'] := by
  decide +kernel

end Concrete

end InfiniteRicks
