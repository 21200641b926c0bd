import InfiniteRicks.BitcoinUnits
import InfiniteRicks.MoneySpec

/-!
# What the texts of amounts in the windows say

`format` prints an amount exactly where its quotient is a `qint64`, and `parse` reads digits with at most
one point as the number they are. Amounts from 10 ^ 18 base units on have nineteen digits in every unit,
and `parse` refuses these.
-/

namespace InfiniteRicks

/-- Digits are converted to the number they are, where it is a `qint64`. -/
def QString.ToLongLong.Reads (toLongLong : QString.ToLongLong) : Prop :=
  ∀ str : QString, str ≠ [] → Digits str → readDigits str < 2 ^ 63 →
    toLongLong str = (Int64.ofNat (readDigits str), true)

namespace BitcoinUnits

/-- Digits with at most one point. -/
def PointedDigits (value : QString) : Prop := (∀ c ∈ value, isDigit c = true ∨ c = 46) ∧ value.count 46 ≤ 1

/-- The two runs of digits of a text, around its point or with none. -/
def Parts (value whole fraction : QString) : Prop := value = whole ++ 46 :: fraction ∨ value = whole ∧ fraction = []

/-- What digits with so many decimal places after the point are, in units of the last place. -/
def placed (places : Nat) (whole fraction : QString) : Nat :=
  readDigits whole * 10 ^ places + readDigits fraction * 10 ^ (places - fraction.length)

/-- The text is a number of at most so many decimals, and is so many units of the last place. -/
def Denotes (places : Nat) (value : QString) (units : Nat) : Prop :=
  ∃ whole fraction : QString, Parts value whole fraction ∧ Digits whole ∧ Digits fraction ∧ fraction.length ≤ places ∧
    units = placed places whole fraction

variable {unit : Int} {toLongLong : QString.ToLongLong}

/-- The factor of a unit is the power of ten of its decimals. -/
theorem factor_toInt (unit : Int) (known : valid unit = true) :
    (factor unit).toInt = ((10 ^ decimals unit : Nat) : Int) := by
  simp only [valid, Bool.or_eq_true, decide_eq_true_eq] at known
  rcases known with (rfl | rfl) | rfl <;> decide

theorem decimals_range (known : valid unit = true) : 2 ≤ decimals unit ∧ decimals unit ≤ 8 := by
  simp only [valid, Bool.or_eq_true, decide_eq_true_eq] at known
  rcases known with (rfl | rfl) | rfl <;> decide

section Parse

/-- A text of digits with at most one point has two parts. -/
theorem parts_of_pointed {value : QString} (pointed : PointedDigits value) :
    ∃ whole fraction, Parts value whole fraction ∧ Digits whole ∧ Digits fraction := by
  obtain ⟨characters, once⟩ := pointed
  have digits : ∀ {str : QString}, (∀ c ∈ str, c ∈ value) → 46 ∉ str → Digits str := fun part none c member =>
    (characters c (part c member)).resolve_right fun point => none (point ▸ member)
  by_cases point : (46 : UInt8) ∈ value
  · obtain ⟨whole, fraction, rfl⟩ := List.append_of_mem point
    rw [List.count_append, List.count_cons_self] at once
    exact ⟨whole, fraction, Or.inl rfl,
      digits (fun c member => List.mem_append_left _ member) (List.count_eq_zero.mp (by omega)),
      digits (fun c member => List.mem_append_right _ (List.mem_cons_of_mem _ member))
        (List.count_eq_zero.mp (by omega))⟩
  · exact ⟨value, [], Or.inr ⟨rfl, rfl⟩, digits (fun c member => member) point,
    fun c member => absurd member List.not_mem_nil⟩

/-- The parts are what `split` returns. -/
theorem splitOn_parts {value whole fraction : QString} (parts : Parts value whole fraction) (wholeDigits : Digits whole)
    (fractionDigits : Digits fraction) :
    value.splitOn 46 = [whole, fraction] ∨ value.splitOn 46 = [whole] ∧ fraction = [] := by
  rcases parts with rfl | ⟨rfl, rfl⟩
  · refine Or.inl ?_
    have joined : whole ++ 46 :: fraction = List.intercalate [46] [whole, fraction] := by simp [List.intercalate]
    rw [joined, List.splitOn_intercalate 46 ?_ (List.cons_ne_nil _ _)]
    simp only [List.forall_mem_cons, List.not_mem_nil, false_implies, implies_true, and_true]
    exact ⟨wholeDigits.point_notMem, fractionDigits.point_notMem⟩
  · refine Or.inr ⟨?_, rfl⟩
    have alone : value = List.intercalate [46] [value] := by simp [List.intercalate]
    rw [alone, List.splitOn_intercalate 46 ?_ (List.cons_ne_nil _ _), ← alone]
    simpa using wholeDigits.point_notMem

/-- The digits that `parse` hands on are the number in units of the last place. -/
theorem readDigits_justified {whole fraction : QString} (wholeDigits : Digits whole) (fractionDigits : Digits fraction)
    {places : Nat} (short : fraction.length ≤ places) :
    Digits (whole ++ QString.leftJustified fraction places 48) ∧
      readDigits (whole ++ QString.leftJustified fraction places 48) = placed places whole fraction := by
  have padding := fractionDigits.append (digits_replicate (places - fraction.length))
  refine ⟨wholeDigits.append padding, ?_⟩
  rw [QString.leftJustified, readDigits_append wholeDigits padding,
    readDigits_append fractionDigits (digits_replicate _),
    readDigits_replicate, List.length_append, List.length_replicate, Nat.add_sub_cancel' short, Nat.add_zero]
  rfl

/-- What `parse` does with digits around a point: it accepts at most as many decimals as the unit has, and at most
eighteen digits with them. -/
theorem parse_parts (reads : toLongLong.Reads) (known : valid unit = true) {value whole fraction : QString}
    (parts : Parts value whole fraction) (wholeDigits : Digits whole) (fractionDigits : Digits fraction)
    (some_ : value ≠ []) :
    parse toLongLong unit value =
      if fraction.length ≤ decimals unit ∧ whole.length + decimals unit ≤ 18 then
        (true, some (Int64.ofNat (placed (decimals unit) whole fraction)))
      else (false, none) := by
  have entry : (!valid unit || value.isEmpty) = false := by
    rw [known, Bool.not_true, Bool.false_or, List.isEmpty_eq_false_iff]
    exact some_
  have few : ¬2 < (value.splitOn 46).length ∧ (value.splitOn 46).getD 0 [] = whole ∧
      (if 1 < (value.splitOn 46).length then (value.splitOn 46).getD 1 [] else []) = fraction := by
    rcases splitOn_parts parts wholeDigits fractionDigits with split | ⟨split, rfl⟩
    · rw [split]
      exact ⟨by simp, rfl, rfl⟩
    · rw [split]
      exact ⟨by simp, rfl, rfl⟩
  unfold parse
  rw [entry, if_neg Bool.false_ne_true]
  dsimp only
  rw [if_neg few.1, few.2.1, few.2.2]
  by_cases short : fraction.length ≤ decimals unit
  · obtain ⟨digits, number⟩ := readDigits_justified wholeDigits fractionDigits short
    have length : (whole ++ QString.leftJustified fraction (decimals unit) 48).length =
      whole.length + decimals unit := by
      rw [List.length_append, QString.leftJustified, List.length_append, List.length_replicate]
      omega
    have range := decimals_range known
    rw [if_neg (Nat.not_lt.mpr short), length]
    by_cases fits : whole.length + decimals unit ≤ 18
    · have nonempty : whole ++ QString.leftJustified fraction (decimals unit) 48 ≠ [] := by
        rw [← List.length_pos_iff, length]
        omega
      have bound := readDigits_lt digits
      rw [length] at bound
      have small := bound.trans_le (Nat.pow_le_pow_right (by decide : 0 < 10) fits)
      rw [if_neg (Nat.not_lt.mpr fits), if_pos ⟨short, fits⟩, reads _ nonempty digits (small.trans (by decide)), number]
    · rw [if_pos (Nat.not_le.mp fits), if_neg fun both => fits both.2]
  · rw [if_pos (Nat.not_le.mp short), if_neg fun both => short both.1]

end Parse

section Format

/-- The loop counts zeros, and stops at the second character. -/
theorem nTrim_spec (str : QString) {i : Nat} (inside : i ≤ str.length) :
    nTrim str i ≤ i ∧ (2 ≤ i → 2 ≤ i - nTrim str i) ∧
      str.take i = str.take (i - nTrim str i) ++ List.replicate (nTrim str i) 48 := by
  induction i with
  | zero => exact ⟨le_rfl, id, by simp [nTrim]⟩
  | succ i ih =>
      rw [nTrim]
      by_cases zero : 2 ≤ i ∧ str[i]? = some 48
      · obtain ⟨less, kept, split⟩ := ih (Nat.le_of_succ_le inside)
        rw [if_pos zero, Nat.add_sub_add_right]
        refine ⟨Nat.succ_le_succ less, fun _ => kept zero.1, ?_⟩
        rw [List.take_add_one, zero.2, split, Option.toList_some, List.append_assoc, ← List.replicate_succ']
      · rw [if_neg zero]
        exact ⟨Nat.zero_le _, id, by simp⟩

/-- What is chopped off are zeros, and two characters stay. -/
theorem chop_nTrim (str : QString) (long : 2 ≤ str.length) :
    ∃ k, str = QString.chop str (nTrim str str.length) ++ List.replicate k 48 ∧
      2 ≤ (QString.chop str (nTrim str str.length)).length := by
  obtain ⟨less, kept, split⟩ := nTrim_spec str le_rfl
  refine ⟨nTrim str str.length, ?_, ?_⟩
  · rwa [List.take_length] at split
  · rw [QString.chop, List.length_take]
    have := kept long
    omega

/-- The quotient and the remainder that `format` prints. -/
def printedParts (unit n : Int) : Int64 × Int64 :=
  let n_abs := if 0 < n then n else toInt128 (-n)
  (Int64.ofInt (n_abs.tdiv (factor unit).toInt), Int64.ofInt (n_abs.tmod (factor unit).toInt))

/-- The remainder as `format` prints it before the zeros are chopped off. -/
def paddedRemainder (unit n : Int) : QString :=
  QString.rightJustified (i64tostr (printedParts unit n).2) (decimals unit) 48

/-- What `format` writes: the sign, the quotient, and the remainder without the zeros at its end. -/
theorem format_eq (known : valid unit = true) (n : Int) (fPlus : Bool) :
    format unit n fPlus = moneySign n fPlus ++ (i64tostr (printedParts unit n).1 ++
      46 :: QString.chop (paddedRemainder unit n)
        (nTrim (paddedRemainder unit n) (paddedRemainder unit n).length)) := by
  unfold format moneySign
  rw [known, Bool.not_true, if_neg Bool.false_ne_true]
  dsimp only
  split
  · simp [printedParts, paddedRemainder]
  · split
    · simp [printedParts, paddedRemainder]
    · simp [printedParts, paddedRemainder]

/-- Where the quotient is a `qint64`, the parts printed are the quotient and the remainder. -/
theorem printedParts_eq (known : valid unit = true) {n : Int} (small : n.natAbs / 10 ^ decimals unit < 2 ^ 63) :
    (printedParts unit n).1.toInt = ((n.natAbs / 10 ^ decimals unit : Nat) : Int) ∧
      (printedParts unit n).2.toInt = ((n.natAbs % 10 ^ decimals unit : Nat) : Int) := by
  have range := decimals_range known
  have large : 10 ^ decimals unit ≤ 10 ^ 8 := Nat.pow_le_pow_right (by decide) range.2
  have positive : 0 < 10 ^ decimals unit := Nat.pow_pos (by decide)
  have bound : n.natAbs < 2 ^ 127 := by
    have upper := (Nat.div_lt_iff_lt_mul positive).mp small
    calc n.natAbs < 2 ^ 63 * 10 ^ decimals unit := upper
      _ ≤ 2 ^ 63 * 10 ^ 8 := Nat.mul_le_mul_left _ large
      _ < 2 ^ 127 := by decide
  have absolute : (if 0 < n then n else toInt128 (-n)) = (n.natAbs : Int) := by
    split
    · omega
    · rw [toInt128, Int.bmod_eq_of_le (by omega) (by omega)]
      omega
  have remainder := Nat.mod_lt n.natAbs positive
  unfold printedParts
  rw [absolute, factor_toInt unit known]
  refine ⟨(toInt_ofInt_eq_iff _).mpr small, (toInt_ofInt_eq_iff _).mpr (by omega)⟩

/-- The decimals printed are the remainder, in at most as many places as the unit has. -/
theorem remainder_printed (known : valid unit = true) {n : Int} (small : n.natAbs / 10 ^ decimals unit < 2 ^ 63) :
    let kept := QString.chop (paddedRemainder unit n) (nTrim (paddedRemainder unit n) (paddedRemainder unit n).length)
    Digits kept ∧ kept.length ≤ decimals unit ∧
      readDigits kept * 10 ^ (decimals unit - kept.length) = n.natAbs % 10 ^ decimals unit := by
  intro kept
  have range := decimals_range known
  obtain ⟨-, remainder⟩ := printedParts_eq known small
  have positive : 0 ≤ (printedParts unit n).2.toInt := by omega
  have written := (digits_i64tostr _).mpr positive
  have less := Nat.mod_lt n.natAbs (Nat.pow_pos (by decide) : 0 < 10 ^ decimals unit)
  have short : (i64tostr (printedParts unit n).2).length ≤ decimals unit := by
    rw [i64tostr, if_neg (by omega), length_decimal_le (by omega)]
    omega
  have length : (paddedRemainder unit n).length = decimals unit := by
    rw [paddedRemainder, QString.rightJustified, List.length_append, List.length_replicate]
    omega
  have digits : Digits (paddedRemainder unit n) := (digits_replicate _).append written
  have number : readDigits (paddedRemainder unit n) = n.natAbs % 10 ^ decimals unit := by
    rw [paddedRemainder, QString.rightJustified, readDigits_append (digits_replicate _) written, readDigits_replicate,
      readDigits_i64tostr positive]
    omega
  obtain ⟨k, split, -⟩ := chop_nTrim (paddedRemainder unit n) (by omega)
  have keptDigits : Digits kept := fun c member => digits c (split ▸ List.mem_append_left _ member)
  have total : (paddedRemainder unit n).length = kept.length + k := by
    rw [split, List.length_append, List.length_replicate]
  refine ⟨keptDigits, by omega, ?_⟩
  rw [← number, split, readDigits_append keptDigits (digits_replicate k), readDigits_replicate, List.length_replicate,
    Nat.add_zero, show decimals unit - kept.length = k by omega]

theorem placed_lt {places : Nat} (whole : QString) {fraction : QString} (digits : Digits fraction)
    (short : fraction.length ≤ places) :
    readDigits whole * 10 ^ places ≤ placed places whole fraction ∧
      placed places whole fraction < (readDigits whole + 1) * 10 ^ places := by
  refine ⟨Nat.le_add_right _ _, ?_⟩
  have value : readDigits fraction * 10 ^ (places - fraction.length) < 10 ^ places :=
    calc readDigits fraction * 10 ^ (places - fraction.length)
        < 10 ^ fraction.length * 10 ^ (places - fraction.length) :=
          Nat.mul_lt_mul_of_pos_right (readDigits_lt digits) (Nat.pow_pos (by decide))
      _ = 10 ^ places := by rw [← pow_add, Nat.add_sub_cancel' short]
  rw [placed, Nat.add_mul, Nat.one_mul]
  omega

/-- A text with a point has one pair of parts. -/
theorem Parts.unique {whole fraction other otherFraction : QString}
    (parts : Parts (whole ++ 46 :: fraction) other otherFraction) (digits : Digits other)
    (fractionDigits : Digits otherFraction) : other = whole ∧ otherFraction = fraction := by
  rcases parts with shape | ⟨shape, -⟩
  · obtain ⟨rfl, -, rfl⟩ :=
      (List.append_cons_inj_of_notMem digits.point_notMem fractionDigits.point_notMem).mp shape.symm
    exact ⟨rfl, rfl⟩
  · have member : (46 : UInt8) ∈ other := by
      rw [← shape]
      exact List.mem_append_right _ List.mem_cons_self
    exact absurd member digits.point_notMem

/-- A text of `format` is the amount exactly where its quotient is a `qint64`. -/
theorem format_exact_iff (known : valid unit = true) (n : Int) (fPlus : Bool) :
    (∃ body, format unit n fPlus = moneySign n fPlus ++ body ∧ Denotes (decimals unit) body n.natAbs) ↔
      n.natAbs / 10 ^ decimals unit < 2 ^ 63 := by
  have positive : 0 < 10 ^ decimals unit := Nat.pow_pos (by decide)
  rw [format_eq known]
  constructor
  · rintro ⟨body, shape, other, otherFraction, parts, digits, fractionDigits, short, value⟩
    rw [← List.append_cancel_left shape] at parts
    obtain ⟨rfl, rfl⟩ := parts.unique digits fractionDigits
    have bounds := placed_lt (i64tostr (printedParts unit n).1) fractionDigits short
    rw [← value, readDigits_i64tostr ((digits_i64tostr _).mp digits)] at bounds
    have upper := (printedParts unit n).1.toInt_lt
    have sign := (digits_i64tostr _).mp digits
    rw [Nat.div_eq_of_lt_le bounds.1 bounds.2]
    omega
  · intro small
    obtain ⟨quotient, -⟩ := printedParts_eq known small
    obtain ⟨digits, short, remainder⟩ := remainder_printed known small
    have sign : 0 ≤ (printedParts unit n).1.toInt := quotient ▸ Int.natCast_nonneg _
    refine ⟨_, rfl, _, _, Or.inl rfl, (digits_i64tostr _).mpr sign, digits, short, ?_⟩
    rw [placed, remainder, readDigits_i64tostr sign, quotient, Int.natAbs_natCast]
    exact (Nat.div_add_mod' _ _).symm

end Format

/-- The text of an amount is read back exactly where it has at most eighteen digits. -/
theorem parse_format_iff (reads : toLongLong.Reads) (known : valid unit = true) {n : Int} (nonneg : 0 ≤ n)
    (amount : n ≤ maxMoney.toInt) :
    parse toLongLong unit (format unit n false) = (true, some (Int64.ofInt n)) ↔ n < 10 ^ 18 := by
  obtain ⟨units, rfl⟩ := Int.eq_ofNat_of_zero_le nonneg
  have range := decimals_range known
  have positive : 0 < 10 ^ decimals unit := Nat.pow_pos (by decide)
  have money : units < 2 ^ 63 := by
    have most : maxMoney.toInt = 2 ^ 63 - 1 := by decide
    omega
  have small : (units : Int).natAbs / 10 ^ decimals unit < 2 ^ 63 := (Nat.div_le_self _ _).trans_lt money
  obtain ⟨quotient, -⟩ := printedParts_eq known small
  obtain ⟨digits, short, remainder⟩ := remainder_printed known small
  have sign : moneySign units false = [] := by
    rw [moneySign, if_neg (by omega)]
    rfl
  have quotientSign : 0 ≤ (printedParts unit units).1.toInt := quotient ▸ Int.natCast_nonneg _
  have written := (digits_i64tostr _).mpr quotientSign
  have value : placed (decimals unit) (i64tostr (printedParts unit units).1)
      (QString.chop (paddedRemainder unit units)
        (nTrim (paddedRemainder unit units) (paddedRemainder unit units).length)) =
      units := by
    rw [placed, remainder, readDigits_i64tostr quotientSign, quotient, Int.natAbs_natCast, Int.natAbs_natCast]
    exact Nat.div_add_mod' _ _
  have length : (i64tostr (printedParts unit units).1).length + decimals unit ≤ 18 ↔ units < 10 ^ 18 := by
    have split : 10 ^ 18 = 10 ^ (18 - decimals unit) * 10 ^ decimals unit := by
      rw [← pow_add, Nat.sub_add_cancel (by omega)]
    rw [← Nat.le_sub_iff_add_le (by omega), i64tostr, if_neg (Int.not_lt.mpr quotientSign),
      length_decimal_le (by omega), quotient,
      Int.natAbs_natCast, Int.natAbs_natCast, Nat.div_lt_iff_lt_mul positive, ← split]
  rw [format_eq known, sign, List.nil_append,
    parse_parts reads known (Or.inl rfl) written digits (by simp), value]
  by_cases fits : units < 10 ^ 18
  · rw [if_pos ⟨short, length.mpr fits⟩]
    exact ⟨fun _ => by exact_mod_cast fits, fun _ => rfl⟩
  · rw [if_neg fun both => fits (length.mp both.2)]
    refine ⟨fun same => ?_, fun less => absurd (by exact_mod_cast less) fits⟩
    cases (Prod.mk.inj same).1

/-- Digits with at most one point that `parse` accepts are the number it returns. -/
theorem parse_exact (reads : toLongLong.Reads) (known : valid unit = true) {value : QString} {ret : Int64}
    (pointed : PointedDigits value) (accepted : parse toLongLong unit value = (true, some ret)) :
    ∃ units : Nat, Denotes (decimals unit) value units ∧ ret.toInt = units := by
  obtain ⟨whole, fraction, parts, digits, fractionDigits⟩ := parts_of_pointed pointed
  have some_ : value ≠ [] := by
    rintro rfl
    rw [parse, List.isEmpty_nil, Bool.or_true, if_pos rfl] at accepted
    cases accepted
  rw [parse_parts reads known parts digits fractionDigits some_] at accepted
  by_cases fits : fraction.length ≤ decimals unit ∧ whole.length + decimals unit ≤ 18
  · rw [if_pos fits] at accepted
    have same := Option.some.inj (Prod.mk.inj accepted).2
    refine ⟨_, ⟨whole, fraction, parts, digits, fractionDigits, fits.1, rfl⟩, ?_⟩
    have bound : placed (decimals unit) whole fraction < 10 ^ 18 := by
      have upper := (placed_lt whole fractionDigits fits.1).2
      have wholeLess := readDigits_lt digits
      calc placed (decimals unit) whole fraction < (readDigits whole + 1) * 10 ^ decimals unit := upper
        _ ≤ 10 ^ whole.length * 10 ^ decimals unit := Nat.mul_le_mul_right _ wholeLess
        _ = 10 ^ (whole.length + decimals unit) := (pow_add _ _ _).symm
        _ ≤ 10 ^ 18 := Nat.pow_le_pow_right (by decide) fits.2
    rw [← same]
    exact Int64.toInt_ofNat_of_lt (bound.trans (by decide))
  · rw [if_neg fits] at accepted
    cases (Prod.mk.inj accepted).1

/-- An amount comes back through its text exactly below 10 ^ 18 base units, accepted digits with at most one
point are the amount that is returned, and an `__int128` is printed as it is exactly where its quotient is a
`qint64`. -/
theorem unit_texts_exact_iff (toLongLong : QString.ToLongLong) (reads : toLongLong.Reads) (unit : Int)
    (known : valid unit = true) :
    (∀ n : Int, 0 ≤ n → n ≤ maxMoney.toInt →
      (parse toLongLong unit (format unit n false) = (true, some (Int64.ofInt n)) ↔ n < 10 ^ 18)) ∧
    (∀ (value : QString) (ret : Int64), PointedDigits value → parse toLongLong unit value = (true, some ret) →
      ∃ units : Nat, Denotes (decimals unit) value units ∧ ret.toInt = units) ∧
    ∀ (n : Int) (fPlus : Bool),
      (∃ body, format unit n fPlus = moneySign n fPlus ++ body ∧ Denotes (decimals unit) body n.natAbs) ↔
        n.natAbs / 10 ^ decimals unit < 2 ^ 63 :=
  ⟨fun _ => parse_format_iff reads known, fun _ _ => parse_exact reads known, format_exact_iff known⟩

section Concrete

/-- Digits converted, and nothing else. -/
def digitsToLongLong : QString.ToLongLong := fun str =>
  if !str.isEmpty && str.all isDigit && readDigits str < 2 ^ 63 then (Int64.ofNat (readDigits str), true)
  else (0, false)

theorem digitsToLongLong_reads : QString.ToLongLong.Reads digitsToLongLong := by
  intro str nonempty digits small
  have filled : str.isEmpty = false := List.isEmpty_eq_false_iff.mpr nonempty
  rw [digitsToLongLong, filled, List.all_eq_true.mpr digits, decide_eq_true small]
  rfl

/-- The largest amount with eighteen digits comes back, and the largest supply whose quotient fits is printed. -/
theorem unit_texts_exact_mBTC :
    parse digitsToLongLong mBTC (format mBTC (10 ^ 18 - 1) false) = (true, some (Int64.ofInt (10 ^ 18 - 1))) ∧
      ∃ body, format mBTC (2 ^ 63 * 10 ^ 5 - 1) true = 43 :: body ∧ Denotes 5 body (2 ^ 63 * 10 ^ 5 - 1) := by
  obtain ⟨returns, -, prints⟩ := unit_texts_exact_iff digitsToLongLong digitsToLongLong_reads mBTC rfl
  exact ⟨(returns _ (by decide) (by decide)).mpr (by decide), (prints (2 ^ 63 * 10 ^ 5 - 1) true).mpr (by decide)⟩

/-- The least amount with nineteen digits is not read back in any unit, and a supply whose quotient is no
`qint64` is printed with two signs. -/
theorem nineteen_digits_refused :
    (∀ unit ∈ [BTC, mBTC, uBTC], parse digitsToLongLong unit (format unit (10 ^ 18) false) = (false, none)) ∧
      format BTC (10 ^ 18) false = text ['1', '0', '0', '0', '0', '0', '0', '0', '0', '0', '0', '.', '0', '0'] ∧
      format BTC (2 ^ 63 * 10 ^ 8) true =
        43 :: text ['-', '9', '2', '2', '3', '3', '7', '2', '0', '3', '6', '8', '5', '4', '7', '7', '5', '8', '0',
          '8', '.', '0', '0'] := by
  refine ⟨fun unit member => ?_, by decide, by decide⟩
  simp only [List.mem_cons, List.not_mem_nil, or_false] at member
  rcases member with rfl | rfl | rfl <;> decide

end Concrete

end BitcoinUnits

end InfiniteRicks
