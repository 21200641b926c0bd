import InfiniteRicks.Base64
import InfiniteRicks.Library.Regroup

/-!
# What the texts of base 64 and base 32 hold

Both codecs regroup bits, so what they do is proved once, for any `BaseText` whose encoder and decoder
do that. The bytes come back from their text; an accepted text is the text of its bytes, up to letter
case, with nothing after it or something that starts outside the alphabet.
-/

namespace InfiniteRicks

open Library.Regroup
open Base58 (cString cString_eq)

/-- A codec that writes bytes in digits of `bits` bits: its alphabet, the letter case that it reads, how many equals signs
stand for so many zeros, and its two functions. -/
structure BaseText where
  bits : Nat
  char : Nat → UInt8
  digit : UInt8 → Option Nat
  fold : UInt8 → UInt8
  count : Nat → Nat
  encode : Bytes → Bytes
  decode : Bytes → Bytes × Bool

namespace BaseText

/-- The bytes as numbers. -/
def numbers (bytes : Bytes) : List Nat := bytes.map UInt8.toNat

variable (codec : BaseText)

/-- What the decoder finds in a text: digits, and how it goes on where the digits end. -/
structure Read (text bytes : Bytes) (invalid : Bool) (front rest : Bytes) (digits : List Nat) (r p : Nat) : Prop where
  split : text = front ++ rest
  inside : front.map codec.digit = digits.map some
  stop : codec.digit (rest.getD 0 0) = none
  regrouped : Regrouped codec.bits 8 digits (numbers bytes) r p
  few : r < 8
  accepted : invalid = false ↔ r < codec.bits ∧ p = 0 ∧ rest.take (codec.count r) = List.replicate (codec.count r) 61 ∧
    codec.digit (rest.getD (codec.count r) 0) = none

/-- The alphabet is read as it is written, and both functions regroup. -/
structure Lawful : Prop where
  digit_char : ∀ d < 2 ^ codec.bits, codec.digit (codec.char d) = some d
  fold_digit : ∀ {c d}, codec.digit c = some d → codec.fold c = codec.char d
  digit_equals : codec.digit 61 = none
  fold_equals : codec.fold 61 = 61
  digit_zero : codec.digit 0 = none
  narrow : codec.bits < 8
  encode : ∀ bytes, ∃ digits zeros, Padded 8 codec.bits (numbers bytes) digits zeros ∧ zeros < codec.bits ∧
    codec.encode bytes = digits.map codec.char ++ List.replicate (codec.count zeros) 61
  decode : ∀ text, ∃ front rest digits r p,
    codec.Read (cString text) (codec.decode text).1 (codec.decode text).2 front rest digits r p

variable {codec} {bytes text : Bytes}

theorem numbers_injective {left right : Bytes} (same : numbers left = numbers right) : left = right :=
  List.map_injective_iff.mpr (fun _ _ => UInt8.toNat_inj.mp) same

/-- Where a text splits into digits and what starts outside the alphabet, it does so in one way. -/
theorem split_unique {front front' rest rest' : Bytes} (same : front ++ rest = front' ++ rest')
    {digits digits' : List Nat} (inside : front.map codec.digit = digits.map some)
    (inside' : front'.map codec.digit = digits'.map some) (stop : codec.digit (rest.getD 0 0) = none)
    (stop' : codec.digit (rest'.getD 0 0) = none) : digits = digits' ∧ rest = rest' := by
  induction front generalizing front' digits digits' with
  | nil =>
      have none : digits = [] := List.map_eq_nil_iff.mp inside.symm
      cases front' with
      | nil => exact ⟨none.trans (List.map_eq_nil_iff.mp inside'.symm).symm, same⟩
      | cons c front' =>
          obtain ⟨d, digits', rfl⟩ : ∃ d more, digits' = d :: more :=
            List.exists_cons_of_ne_nil fun empty => by rw [empty] at inside'; cases inside'
          rw [List.nil_append] at same
          rw [same, List.cons_append, List.getD_cons_zero, (List.cons.inj inside').1] at stop
          cases stop
  | cons c front ih =>
      obtain ⟨d, digits, rfl⟩ : ∃ d more, digits = d :: more :=
        List.exists_cons_of_ne_nil fun empty => by rw [empty] at inside; cases inside
      cases front' with
      | nil =>
          rw [List.nil_append] at same
          rw [← same, List.cons_append, List.getD_cons_zero, (List.cons.inj inside).1] at stop'
          cases stop'
      | cons c' front' =>
          obtain ⟨d', digits', rfl⟩ : ∃ d more, digits' = d :: more :=
            List.exists_cons_of_ne_nil fun empty => by rw [empty] at inside'; cases inside'
          obtain ⟨rfl, more⟩ := List.cons.inj same
          obtain ⟨head, tail⟩ := List.cons.inj inside
          obtain ⟨head', tail'⟩ := List.cons.inj inside'
          obtain ⟨sameDigits, sameRest⟩ := ih more tail tail'
          exact ⟨by rw [Option.some.inj (head.symm.trans head'), sameDigits], sameRest⟩

namespace Lawful

variable (lawful : codec.Lawful)
include lawful

theorem map_digit_char {digits : List Nat} (small : ∀ d ∈ digits, d < 2 ^ codec.bits) :
    (digits.map codec.char).map codec.digit = digits.map some := by
  rw [List.map_map]
  exact List.map_congr_left fun d member => lawful.digit_char d (small d member)

/-- The terminator is neither in the alphabet nor an equals sign. -/
theorem encode_nonzero {digits : List Nat} (small : ∀ d ∈ digits, d < 2 ^ codec.bits) (n : Nat) :
    ∀ c ∈ digits.map codec.char ++ List.replicate n 61, c ≠ 0 := by
  rintro c member rfl
  rcases List.mem_append.mp member with inside | padding
  · obtain ⟨d, own, zero⟩ := List.mem_map.mp inside
    have read := lawful.digit_char d (small d own)
    rw [zero, lawful.digit_zero] at read
    cases read
  · cases List.eq_of_mem_replicate padding

/-- The padding stops the decoder. -/
theorem digit_padding (n : Nat) : codec.digit ((List.replicate n (61 : UInt8)).getD 0 0) = none := by
  cases n with
  | zero => exact lawful.digit_zero
  | succ n => exact lawful.digit_equals

/-- What is encoded comes back. -/
theorem decode_encode (bytes : Bytes) : codec.decode (codec.encode bytes) = (bytes, false) := by
  obtain ⟨digits, zeros, padded, fewZeros, shape⟩ := lawful.encode bytes
  obtain ⟨front, rest, digits', r, p, found⟩ := lawful.decode (codec.encode bytes)
  have split := found.split
  rw [shape, cString_eq (lawful.encode_nonzero padded.digits _)] at split
  obtain ⟨sameDigits, sameRest⟩ := split_unique split (lawful.map_digit_char padded.digits) found.inside
    (lawful.digit_padding _) found.stop
  have regrouped := found.regrouped
  rw [← sameDigits] at regrouped
  obtain ⟨sameNumbers, sameZeros, nothing⟩ := regrouped.unpad padded (fewZeros.trans lawful.narrow) found.few
  have valid : (codec.decode (codec.encode bytes)).2 = false := by
    refine found.accepted.mpr ⟨sameZeros ▸ fewZeros, nothing, ?_, ?_⟩
    · rw [← sameRest, sameZeros, List.take_of_length_le (List.length_replicate.le)]
    · rw [← sameRest, sameZeros, List.getD_eq_default _ _ (List.length_replicate.le)]
      exact lawful.digit_zero
  exact Prod.ext (numbers_injective sameNumbers) valid

theorem map_fold {front : Bytes} {digits : List Nat} (inside : front.map codec.digit = digits.map some) :
    front.map codec.fold = digits.map codec.char := by
  induction front generalizing digits with
  | nil => rw [List.map_eq_nil_iff.mp inside.symm, List.map_nil, List.map_nil]
  | cons c front ih =>
      obtain ⟨d, digits, rfl⟩ : ∃ d more, digits = d :: more :=
        List.exists_cons_of_ne_nil fun empty => by rw [empty] at inside; cases inside
      obtain ⟨head, tail⟩ := List.cons.inj inside
      rw [List.map_cons, List.map_cons, lawful.fold_digit head, ih tail]

/-- An accepted text starts with the text of its bytes, and the alphabet does not go on there. -/
theorem accepted_prefix (valid : (codec.decode text).2 = false) : ∃ front rest : Bytes, cString text = front ++ rest ∧
    front.map codec.fold = codec.encode (codec.decode text).1 ∧ codec.digit (rest.getD 0 0) = none := by
  obtain ⟨front, rest, digits', r, p, found⟩ := lawful.decode text
  obtain ⟨few, nothing, padding, after⟩ := found.accepted.mp valid
  have regrouped := found.regrouped
  rw [nothing] at regrouped
  obtain ⟨digits, zeros, padded, fewZeros, shape⟩ := lawful.encode (codec.decode text).1
  obtain ⟨sameDigits, sameZeros⟩ := regrouped.repad.unique padded few fewZeros
  have back := List.take_append_drop (codec.count r) rest
  refine ⟨front ++ rest.take (codec.count r), rest.drop (codec.count r), ?_, ?_, ?_⟩
  · rw [List.append_assoc, back]
    exact found.split
  · rw [List.map_append, lawful.map_fold found.inside, padding, List.map_replicate, lawful.fold_equals, shape, sameDigits,
      sameZeros]
  · rw [List.getD_eq_getElem?_getD, List.getElem?_drop, Nat.add_zero, ← List.getD_eq_getElem?_getD]
    exact after

end Lawful

/-! The machines. A mode stands for a number of pending bits, which `pending` lists. -/

section Machines

variable {char : Nat → UInt8} {digit : UInt8 → Option Nat} {fewer : Nat} {pending : List Nat}

theorem and_mask {n m : Nat} (i : Nat) (mask : m = 2 ^ i - 1) : n &&& m = n % 2 ^ i := by
  rw [mask, Nat.and_two_pow_sub_one_eq_mod]

/-- The upper bits of `x` followed by `d`, as the code takes them together. -/
theorem upper_bits {x d w i r : Nat} (small : d < 2 ^ w) (whole : w = i + r) :
    (x * 2 ^ w + d) / 2 ^ r = x <<< i ||| d >>> r := by
  have fits : d / 2 ^ r < 2 ^ i := Nat.div_lt_of_lt_mul (by rw [← pow_add, Nat.add_comm, ← whole]; exact small)
  rw [Nat.shiftRight_eq_div_pow, ← Nat.shiftLeft_add_eq_or_of_lt fits, Nat.shiftLeft_eq, whole, pow_add, ← Nat.mul_assoc,
    Nat.add_comm, Nat.add_mul_div_right _ _ (Nat.two_pow_pos r), Nat.add_comm]

theorem lower_bits {x d w i r m : Nat} (whole : w = i + r) (mask : m = 2 ^ r - 1) : (x * 2 ^ w + d) % 2 ^ r = d &&& m := by
  rw [and_mask r mask, whole, pow_add, ← Nat.mul_assoc, Nat.add_comm, Nat.add_mul_mod_self_right]

theorem numbers_append (bytes : Bytes) (b : UInt8) : numbers (bytes ++ [b]) = numbers bytes ++ [b.toNat] :=
  List.map_append

/-- The encoder has written the digits of the bytes; its pending bits stand at the top of the next digit. -/
structure Encoding (bits : Nat) (char : Nat → UInt8) (pending : List Nat) (bytes : Bytes) (s : EncodeState)
    (digits : List Nat) (p : Nat) : Prop where
  mode : s.mode < pending.length
  regrouped : Regrouped 8 bits (numbers bytes) digits (pending.getD s.mode 0) p
  written : s.strRet = digits.map char
  left : s.mode ≠ 0 → s.left = p * 2 ^ (bits - pending.getD s.mode 0)

/-- The decoder has written the bytes of the digits. -/
structure Decoding (bits : Nat) (pending : List Nat) (digits : List Nat) (s : DecodeState) (p : Nat) : Prop where
  mode : s.mode < pending.length
  regrouped : Regrouped bits 8 digits (numbers s.vchRet) (pending.getD s.mode 0) p
  left : s.mode ≠ 0 → s.left = p

theorem Encoding.foldl {bits : Nat} {step : EncodeState → Nat → EncodeState}
    (start : ∃ digits p, Encoding bits char pending [] ⟨0, 0, []⟩ digits p)
    (one : ∀ {bytes s digits p}, Encoding bits char pending bytes s digits p → ∀ b : UInt8,
      ∃ digits p, Encoding bits char pending (bytes ++ [b]) (step s b.toNat) digits p) (bytes : Bytes) :
    ∃ digits p, Encoding bits char pending bytes (bytes.foldl (fun s c => step s c.toNat) ⟨0, 0, []⟩) digits p := by
  induction bytes using List.reverseRecOn with
  | nil => exact start
  | append_singleton before b ih =>
      obtain ⟨digits, p, done⟩ := ih
      rw [List.foldl_append, List.foldl_cons, List.foldl_nil]
      exact one done b

/-- The loop reads digits while there are some. -/
theorem decodeLoop_spec {bits : Nat} {step : DecodeState → Nat → DecodeState}
    (small : ∀ {c d}, digit c = some d → d < 2 ^ bits)
    (one : ∀ {digits s p d}, Decoding bits pending digits s p → d < 2 ^ bits →
      ∃ p, Decoding bits pending (digits ++ [d]) (step s d) p) (outside : digit 0 = none) (text : Bytes) (s : DecodeState)
    {before : List Nat} {p : Nat} (done : Decoding bits pending before s p) :
    ∃ front digits p, text = front ++ (decodeLoop digit step text s).2 ∧ front.map digit = digits.map some ∧
      digit ((decodeLoop digit step text s).2.getD 0 0) = none ∧
      Decoding bits pending (before ++ digits) (decodeLoop digit step text s).1 p := by
  induction text generalizing s before p with
  | nil => exact ⟨[], [], p, rfl, rfl, outside, by rw [List.append_nil]; exact done⟩
  | cons c text ih =>
      cases read : digit c with
      | none =>
          rw [decodeLoop, read]
          exact ⟨[], [], p, rfl, rfl, read, by rw [List.append_nil]; exact done⟩
      | some d =>
          rw [decodeLoop, read]
          obtain ⟨p, next⟩ := one done (small read)
          obtain ⟨front, digits, p, split, inside, stop, last⟩ := ih (step s d) next
          refine ⟨c :: front, d :: digits, p, ?_, ?_, stop, ?_⟩
          · rw [List.cons_append, ← split]
          · rw [List.map_cons, List.map_cons, read, inside]
          · rw [List.append_assoc, List.singleton_append] at last
            exact last

theorem wrongPadding_eq_false (count left : Nat) (rest : Bytes) : wrongPadding digit count left rest = false ↔
    left = 0 ∧ rest.take count = List.replicate count 61 ∧ digit (rest.getD count 0) = none := by
  rw [wrongPadding, Bool.or_eq_false_iff, Bool.or_eq_false_iff, Bool.not_eq_false', Option.isSome_eq_false_iff,
    Option.isNone_iff_eq_none, decide_eq_true_iff, decide_eq_false_iff_not, not_not, and_assoc]

/-- The pending bits become the last digit. -/
theorem Encoding.finish {bits : Nat} {bytes : Bytes} {s : EncodeState} {digits : List Nat} {p : Nat}
    (done : Encoding bits char pending bytes s digits p) (busy : s.mode ≠ 0) (fits : pending.getD s.mode 0 ≤ bits) :
    ∃ all, Padded 8 bits (numbers bytes) all (bits - pending.getD s.mode 0) ∧ s.strRet ++ [char s.left] = all.map char := by
  refine ⟨_, done.regrouped.pad fits, ?_⟩
  rw [List.map_append, List.map_singleton, ← done.left busy, done.written]

theorem Decoding.accepted {bits : Nat} {digits : List Nat} {s : DecodeState} {p : Nat}
    (done : Decoding bits pending digits s p) (busy : s.mode ≠ 0) (few : pending.getD s.mode 0 < bits) (count : Nat)
    (rest : Bytes) : wrongPadding digit count s.left rest = false ↔ pending.getD s.mode 0 < bits ∧ p = 0 ∧
      rest.take count = List.replicate count 61 ∧ digit (rest.getD count 0) = none := by
  rw [wrongPadding_eq_false, done.left busy, and_iff_right few]

/-- A byte is written by a decoder. -/
theorem push_regrouped {bits i r d m : Nat} {digits : List Nat} (s : DecodeState)
    (done : Regrouped bits 8 digits (numbers s.vchRet) (r + 8) (s.left * 2 ^ bits + d)) (small : d < 2 ^ bits)
    (whole : bits = i + r) (mask : m = 2 ^ r - 1) :
    Regrouped bits 8 digits (numbers (s.push (s.left <<< i ||| d >>> r))) r (d &&& m) := by
  have next := done.emit
  rw [upper_bits small whole, lower_bits whole mask] at next
  have byte : s.left <<< i ||| d >>> r < 256 := next.output _ (List.mem_append_right _ (List.mem_singleton_self _))
  rw [DecodeState.push, numbers_append, UInt8.toNat_ofNat_of_lt' byte]
  exact next

/-- A digit is written by an encoder. -/
theorem digit_regrouped {bits i r b m : Nat} {bytes : Bytes} {digits : List Nat} {p : Nat}
    (done : Regrouped 8 bits (numbers bytes) digits (r + bits) (p * 2 ^ 8 + b)) (small : b < 2 ^ 8)
    (whole : 8 = i + r) (mask : m = 2 ^ r - 1) :
    Regrouped 8 bits (numbers bytes) (digits ++ [p * 2 ^ i ||| b >>> r]) r (b &&& m) := by
  have next := done.emit
  rw [upper_bits small whole, lower_bits whole mask, Nat.shiftLeft_eq] at next
  exact next

/-- An encoder writes a second digit. -/
theorem second_regrouped {bits r b m k : Nat} {bytes : Bytes} {digits : List Nat} {l : Nat}
    (done : Regrouped 8 bits (numbers bytes) digits (r + bits) (b &&& l)) (all : l = 2 ^ (r + bits) - 1)
    (digit : k = 2 ^ bits - 1) (mask : m = 2 ^ r - 1) :
    Regrouped 8 bits (numbers bytes) (digits ++ [b >>> r &&& k]) r (b &&& m) := by
  have next := done.emit
  rw [and_mask _ all, Nat.mod_mod_of_dvd _ (pow_dvd_pow 2 (Nat.le_add_right r bits)), pow_add, Nat.mod_mul_right_div_self,
    ← Nat.shiftRight_eq_div_pow, ← and_mask bits digit, ← and_mask r mask] at next
  exact next

end Machines

/-- `EncodeBase64` and `DecodeBase64`. -/
def base64 : BaseText where
  bits := 6
  char := char64
  digit := digit64
  fold := id
  count zeros := [0, 0, 1, 0, 2].getD zeros 0
  encode := encodeBase64
  decode := decodeBase64

theorem encodeBase64Step_encoding {bytes : Bytes} {s : EncodeState} {digits : List Nat} {p : Nat}
    (done : Encoding 6 char64 [0, 2, 4] bytes s digits p) (b : UInt8) :
    ∃ digits p, Encoding 6 char64 [0, 2, 4] (bytes ++ [b]) (encodeBase64Step s b.toNat) digits p := by
  obtain ⟨mode, left, strRet⟩ := s
  obtain ⟨inside, regrouped, written, pendingLeft⟩ := done
  have small : b.toNat < 2 ^ 8 := b.toNat_lt
  have read := regrouped.push small
  rw [← numbers_append] at read
  subst written
  match mode, inside with
  | 0, _ =>
      have nothing : p = 0 := Nat.lt_one_iff.mp regrouped.pending
      subst nothing
      have next := digit_regrouped (r := 2) read small (show 8 = 6 + 2 by decide) (show 3 = 2 ^ 2 - 1 by decide)
      rw [Nat.zero_mul, Nat.zero_or] at next
      exact ⟨_, _, show 1 < 3 by decide, next, by rw [List.map_append]; rfl, fun _ => Nat.shiftLeft_eq _ _⟩
  | 1, _ =>
      have kept : left = p * 2 ^ 4 := pendingLeft (Nat.succ_ne_zero _)
      subst kept
      have next := digit_regrouped (r := 4) read small (show 8 = 4 + 4 by decide) (show 15 = 2 ^ 4 - 1 by decide)
      exact ⟨_, _, show 2 < 3 by decide, next, by rw [List.map_append]; rfl, fun _ => Nat.shiftLeft_eq _ _⟩
  | 2, _ =>
      have kept : left = p * 2 ^ 2 := pendingLeft (Nat.succ_ne_zero _)
      subst kept
      have first := digit_regrouped (r := 0 + 6) read small (show 8 = 2 + 6 by decide) (show 63 = 2 ^ 6 - 1 by decide)
      have next := second_regrouped (m := 0) first rfl (show 63 = 2 ^ 6 - 1 by decide) rfl
      rw [List.append_assoc] at next
      exact ⟨_, _, show 0 < 3 by decide, next, by rw [List.map_append]; rfl, fun other => (other rfl).elim⟩

theorem decodeBase64Step_decoding {digits : List Nat} {s : DecodeState} {p d : Nat}
    (done : Decoding 6 [0, 6, 4, 2] digits s p) (small : d < 2 ^ 6) :
    ∃ p, Decoding 6 [0, 6, 4, 2] (digits ++ [d]) (decodeBase64Step s d) p := by
  obtain ⟨mode, left, vchRet⟩ := s
  obtain ⟨inside, regrouped, pendingLeft⟩ := done
  have read := regrouped.push small
  match mode, inside with
  | 0, _ =>
      have nothing : p = 0 := Nat.lt_one_iff.mp regrouped.pending
      refine ⟨_, show 1 < 4 by decide, read, fun _ => ?_⟩
      rw [nothing, Nat.zero_mul, Nat.zero_add]
      rfl
  | 1, _ =>
      rw [← pendingLeft (Nat.succ_ne_zero _)] at read
      exact ⟨_, show 2 < 4 by decide, push_regrouped (r := 4) _ read small rfl rfl, fun _ => rfl⟩
  | 2, _ =>
      rw [← pendingLeft (Nat.succ_ne_zero _)] at read
      exact ⟨_, show 3 < 4 by decide, push_regrouped (r := 2) _ read small rfl rfl, fun _ => rfl⟩
  | 3, _ =>
      rw [← pendingLeft (Nat.succ_ne_zero _)] at read
      exact ⟨_, show 0 < 4 by decide, push_regrouped (r := 0) (m := 0) _ read small rfl rfl, fun other => (other rfl).elim⟩

theorem digit64_lt {c : UInt8} {d : Nat} (read : digit64 c = some d) : d < 64 ∧ char64 d = c := by
  have all : ∀ n : Fin 256, ∀ d ∈ digit64 (UInt8.ofNat n), d < 64 ∧ char64 d = UInt8.ofNat n := by decide +kernel
  have own := all ⟨c.toNat, c.toNat_lt⟩ d
  rw [UInt8.ofNat_toNat] at own
  exact own read

theorem digit64_char64 : ∀ d < 64, digit64 (char64 d) = some d := by decide +kernel

theorem encodeBase64_padded (bytes : Bytes) : ∃ digits zeros, Padded 8 6 (numbers bytes) digits zeros ∧ zeros < 6 ∧
    encodeBase64 bytes = digits.map char64 ++ List.replicate (base64.count zeros) 61 := by
  obtain ⟨digits, p, done⟩ := @Encoding.foldl char64 [0, 2, 4] 6 encodeBase64Step
    ⟨[], 0, by decide, regrouped_nil 8 6, rfl, fun other => (other rfl).elim⟩ encodeBase64Step_encoding bytes
  rw [encodeBase64]
  generalize bytes.foldl (fun s c => encodeBase64Step s c.toNat) ⟨0, 0, []⟩ = s at done
  have modes : ∀ m < 3, m ≠ 0 → [0, 2, 4].getD m 0 ≤ 6 ∧ 6 - [0, 2, 4].getD m 0 < 6 ∧
      (61 : UInt8) :: (if m = 1 then [61] else []) = List.replicate (base64.count (6 - [0, 2, 4].getD m 0)) 61 := by decide
  by_cases idle : s.mode = 0
  · have regrouped := done.regrouped
    rw [idle] at regrouped
    rw [if_pos idle, done.written]
    exact ⟨digits, 0, regrouped.padded, by decide, (List.append_nil _).symm⟩
  · obtain ⟨fits, few, padding⟩ := modes s.mode done.mode idle
    obtain ⟨all, padded, last⟩ := done.finish idle fits
    refine ⟨all, _, padded, few, ?_⟩
    rw [if_neg idle, ← padding, ← last, List.append_assoc, List.append_assoc]
    rfl

theorem decodeBase64_read (text : Bytes) : ∃ front rest digits r p,
    base64.Read (cString text) (decodeBase64 text).1 (decodeBase64 text).2 front rest digits r p := by
  obtain ⟨front, digits, p, split, inside, stop, done⟩ := @decodeLoop_spec digit64 [0, 6, 4, 2] 6 decodeBase64Step
    (fun read => (digit64_lt read).1) decodeBase64Step_decoding (by decide) (cString text) ⟨0, 0, []⟩ [] 0
    ⟨by decide, regrouped_nil 6 8, fun other => (other rfl).elim⟩
  rw [decodeBase64]
  rw [List.nil_append] at done
  generalize decodeLoop digit64 decodeBase64Step (cString text) ⟨0, 0, []⟩ = result at split stop done
  obtain ⟨⟨mode, left, vchRet⟩, rest⟩ := result
  have known := done.mode
  match mode, known with
  | 0, _ =>
      have nothing : p = 0 := Nat.lt_one_iff.mp done.regrouped.pending
      exact ⟨front, rest, digits, 0, p, split, inside, stop, done.regrouped, by decide,
        fun _ => ⟨by decide, nothing, rfl, stop⟩, fun _ => rfl⟩
  | 1, _ =>
      exact ⟨front, rest, digits, 6, p, split, inside, stop, done.regrouped, by decide,
        (fun valid => by cases valid), fun fits => absurd fits.1 (by decide)⟩
  | 2, _ =>
      exact ⟨front, rest, digits, 4, p, split, inside, stop, done.regrouped, by decide,
        done.accepted (Nat.succ_ne_zero _) (show 4 < 6 by decide) 2 rest⟩
  | 3, _ =>
      exact ⟨front, rest, digits, 2, p, split, inside, stop, done.regrouped, by decide,
        done.accepted (Nat.succ_ne_zero _) (show 2 < 6 by decide) 1 rest⟩

theorem base64_lawful : base64.Lawful where
  digit_char := digit64_char64
  fold_digit read := (digit64_lt read).2.symm
  digit_equals := by decide
  fold_equals := rfl
  digit_zero := by decide
  narrow := by decide
  encode := encodeBase64_padded
  decode := decodeBase64_read

/-- The small letter for a capital letter. -/
def foldLetter (c : UInt8) : UInt8 := if 65 ≤ c ∧ c ≤ 90 then c + 32 else c

/-- `EncodeBase32` and `DecodeBase32`. -/
def base32 : BaseText where
  bits := 5
  char := char32
  digit := digit32
  fold := foldLetter
  count zeros := [0, 3, 6, 1, 4].getD zeros 0
  encode := encodeBase32
  decode := decodeBase32

theorem encodeBase32Step_encoding {bytes : Bytes} {s : EncodeState} {digits : List Nat} {p : Nat}
    (done : Encoding 5 char32 [0, 3, 1, 4, 2] bytes s digits p) (b : UInt8) :
    ∃ digits p, Encoding 5 char32 [0, 3, 1, 4, 2] (bytes ++ [b]) (encodeBase32Step s b.toNat) digits p := by
  obtain ⟨mode, left, strRet⟩ := s
  obtain ⟨inside, regrouped, written, pendingLeft⟩ := done
  have small : b.toNat < 2 ^ 8 := b.toNat_lt
  have read := regrouped.push small
  rw [← numbers_append] at read
  subst written
  match mode, inside with
  | 0, _ =>
      have nothing : p = 0 := Nat.lt_one_iff.mp regrouped.pending
      subst nothing
      have next := digit_regrouped (r := 3) read small (show 8 = 5 + 3 by decide) (show 7 = 2 ^ 3 - 1 by decide)
      rw [Nat.zero_mul, Nat.zero_or] at next
      exact ⟨_, _, show 1 < 5 by decide, next, by rw [List.map_append]; rfl, fun _ => Nat.shiftLeft_eq _ _⟩
  | 1, _ =>
      have kept : left = p * 2 ^ 2 := pendingLeft (Nat.succ_ne_zero _)
      subst kept
      have first := digit_regrouped (r := 1 + 5) read small (show 8 = 2 + 6 by decide) (show 63 = 2 ^ 6 - 1 by decide)
      have next := second_regrouped first rfl (show 31 = 2 ^ 5 - 1 by decide) (show 1 = 2 ^ 1 - 1 by decide)
      rw [List.append_assoc] at next
      exact ⟨_, _, show 2 < 5 by decide, next, by rw [List.map_append]; rfl, fun _ => Nat.shiftLeft_eq _ _⟩
  | 2, _ =>
      have kept : left = p * 2 ^ 4 := pendingLeft (Nat.succ_ne_zero _)
      subst kept
      have next := digit_regrouped (r := 4) read small (show 8 = 4 + 4 by decide) (show 15 = 2 ^ 4 - 1 by decide)
      exact ⟨_, _, show 3 < 5 by decide, next, by rw [List.map_append]; rfl, fun _ => Nat.shiftLeft_eq _ _⟩
  | 3, _ =>
      have kept : left = p * 2 ^ 1 := pendingLeft (Nat.succ_ne_zero _)
      subst kept
      have first := digit_regrouped (r := 2 + 5) read small (show 8 = 1 + 7 by decide) (show 127 = 2 ^ 7 - 1 by decide)
      have next := second_regrouped first rfl (show 31 = 2 ^ 5 - 1 by decide) (show 3 = 2 ^ 2 - 1 by decide)
      rw [List.append_assoc] at next
      exact ⟨_, _, show 4 < 5 by decide, next, by rw [List.map_append]; rfl, fun _ => Nat.shiftLeft_eq _ _⟩
  | 4, _ =>
      have kept : left = p * 2 ^ 3 := pendingLeft (Nat.succ_ne_zero _)
      subst kept
      have first := digit_regrouped (r := 0 + 5) read small (show 8 = 3 + 5 by decide) (show 31 = 2 ^ 5 - 1 by decide)
      have next := second_regrouped (m := 0) first rfl (show 31 = 2 ^ 5 - 1 by decide) rfl
      rw [List.append_assoc] at next
      exact ⟨_, _, show 0 < 5 by decide, next, by rw [List.map_append]; rfl, fun other => (other rfl).elim⟩

theorem decodeBase32Step_decoding {digits : List Nat} {s : DecodeState} {p d : Nat}
    (done : Decoding 5 [0, 5, 2, 7, 4, 1, 6, 3] digits s p) (small : d < 2 ^ 5) :
    ∃ p, Decoding 5 [0, 5, 2, 7, 4, 1, 6, 3] (digits ++ [d]) (decodeBase32Step s d) p := by
  obtain ⟨mode, left, vchRet⟩ := s
  obtain ⟨inside, regrouped, pendingLeft⟩ := done
  have read := regrouped.push small
  have joined : left <<< 5 ||| d = left * 2 ^ 5 + d := by
    rw [← Nat.shiftLeft_add_eq_or_of_lt small, Nat.shiftLeft_eq]
  match mode, inside with
  | 0, _ =>
      have nothing : p = 0 := Nat.lt_one_iff.mp regrouped.pending
      refine ⟨_, show 1 < 8 by decide, read, fun _ => ?_⟩
      rw [nothing, Nat.zero_mul, Nat.zero_add]
      rfl
  | 1, _ =>
      rw [← pendingLeft (Nat.succ_ne_zero _)] at read
      exact ⟨_, show 2 < 8 by decide, push_regrouped (r := 2) _ read small rfl rfl, fun _ => rfl⟩
  | 2, _ =>
      rw [← pendingLeft (Nat.succ_ne_zero _)] at read
      exact ⟨_, show 3 < 8 by decide, read, fun _ => joined⟩
  | 3, _ =>
      rw [← pendingLeft (Nat.succ_ne_zero _)] at read
      exact ⟨_, show 4 < 8 by decide, push_regrouped (r := 4) _ read small rfl rfl, fun _ => rfl⟩
  | 4, _ =>
      rw [← pendingLeft (Nat.succ_ne_zero _)] at read
      exact ⟨_, show 5 < 8 by decide, push_regrouped (r := 1) _ read small rfl rfl, fun _ => rfl⟩
  | 5, _ =>
      rw [← pendingLeft (Nat.succ_ne_zero _)] at read
      exact ⟨_, show 6 < 8 by decide, read, fun _ => joined⟩
  | 6, _ =>
      rw [← pendingLeft (Nat.succ_ne_zero _)] at read
      exact ⟨_, show 7 < 8 by decide, push_regrouped (r := 3) _ read small rfl rfl, fun _ => rfl⟩
  | 7, _ =>
      rw [← pendingLeft (Nat.succ_ne_zero _)] at read
      exact ⟨_, show 0 < 8 by decide, push_regrouped (r := 0) (m := 0) _ read small rfl rfl, fun other => (other rfl).elim⟩

theorem digit32_lt {c : UInt8} {d : Nat} (read : digit32 c = some d) : d < 32 ∧ foldLetter c = char32 d := by
  have all : ∀ n : Fin 256, ∀ d ∈ digit32 (UInt8.ofNat n), d < 32 ∧ foldLetter (UInt8.ofNat n) = char32 d := by
    decide +kernel
  have own := all ⟨c.toNat, c.toNat_lt⟩ d
  rw [UInt8.ofNat_toNat] at own
  exact own read

theorem digit32_char32 : ∀ d < 32, digit32 (char32 d) = some d := by decide +kernel

theorem encodeBase32_padded (bytes : Bytes) : ∃ digits zeros, Padded 8 5 (numbers bytes) digits zeros ∧ zeros < 5 ∧
    encodeBase32 bytes = digits.map char32 ++ List.replicate (base32.count zeros) 61 := by
  obtain ⟨digits, p, done⟩ := @Encoding.foldl char32 [0, 3, 1, 4, 2] 5 encodeBase32Step
    ⟨[], 0, by decide, regrouped_nil 8 5, rfl, fun other => (other rfl).elim⟩ encodeBase32Step_encoding bytes
  rw [encodeBase32]
  generalize bytes.foldl (fun s c => encodeBase32Step s c.toNat) ⟨0, 0, []⟩ = s at done
  have modes : ∀ m < 5, m ≠ 0 → [0, 3, 1, 4, 2].getD m 0 ≤ 5 ∧ 5 - [0, 3, 1, 4, 2].getD m 0 < 5 ∧
      nPadding.getD m 0 = base32.count (5 - [0, 3, 1, 4, 2].getD m 0) := by decide
  by_cases idle : s.mode = 0
  · have regrouped := done.regrouped
    rw [idle] at regrouped
    rw [if_pos idle, done.written]
    exact ⟨digits, 0, regrouped.padded, by decide, (List.append_nil _).symm⟩
  · obtain ⟨fits, few, padding⟩ := modes s.mode done.mode idle
    obtain ⟨all, padded, last⟩ := done.finish idle fits
    refine ⟨all, _, padded, few, ?_⟩
    rw [if_neg idle, padding, ← last]

theorem decodeBase32_read (text : Bytes) : ∃ front rest digits r p,
    base32.Read (cString text) (decodeBase32 text).1 (decodeBase32 text).2 front rest digits r p := by
  obtain ⟨front, digits, p, split, inside, stop, done⟩ := @decodeLoop_spec digit32 [0, 5, 2, 7, 4, 1, 6, 3] 5
    decodeBase32Step (fun read => (digit32_lt read).1) decodeBase32Step_decoding (by decide) (cString text) ⟨0, 0, []⟩ [] 0
    ⟨by decide, regrouped_nil 5 8, fun other => (other rfl).elim⟩
  rw [decodeBase32]
  rw [List.nil_append] at done
  generalize decodeLoop digit32 decodeBase32Step (cString text) ⟨0, 0, []⟩ = result at split stop done
  obtain ⟨⟨mode, left, vchRet⟩, rest⟩ := result
  have known := done.mode
  -- 1, 3 and 6 digits of a group hold no whole byte more than one digit less
  match mode, known with
  | 0, _ =>
      have nothing : p = 0 := Nat.lt_one_iff.mp done.regrouped.pending
      exact ⟨front, rest, digits, 0, p, split, inside, stop, done.regrouped, by decide,
        fun _ => ⟨by decide, nothing, rfl, stop⟩, fun _ => rfl⟩
  | 1, _ =>
      exact ⟨front, rest, digits, 5, p, split, inside, stop, done.regrouped, by decide,
        (fun valid => by cases valid), fun fits => absurd fits.1 (by decide)⟩
  | 2, _ =>
      exact ⟨front, rest, digits, 2, p, split, inside, stop, done.regrouped, by decide,
        done.accepted (Nat.succ_ne_zero _) (show 2 < 5 by decide) 6 rest⟩
  | 3, _ =>
      exact ⟨front, rest, digits, 7, p, split, inside, stop, done.regrouped, by decide,
        (fun valid => by cases valid), fun fits => absurd fits.1 (by decide)⟩
  | 4, _ =>
      exact ⟨front, rest, digits, 4, p, split, inside, stop, done.regrouped, by decide,
        done.accepted (Nat.succ_ne_zero _) (show 4 < 5 by decide) 4 rest⟩
  | 5, _ =>
      exact ⟨front, rest, digits, 1, p, split, inside, stop, done.regrouped, by decide,
        done.accepted (Nat.succ_ne_zero _) (show 1 < 5 by decide) 3 rest⟩
  | 6, _ =>
      exact ⟨front, rest, digits, 6, p, split, inside, stop, done.regrouped, by decide,
        (fun valid => by cases valid), fun fits => absurd fits.1 (by decide)⟩
  | 7, _ =>
      exact ⟨front, rest, digits, 3, p, split, inside, stop, done.regrouped, by decide,
        done.accepted (Nat.succ_ne_zero _) (show 3 < 5 by decide) 1 rest⟩

theorem base32_lawful : base32.Lawful where
  digit_char := digit32_char32
  fold_digit read := (digit32_lt read).2
  digit_equals := by decide
  fold_equals := by decide
  digit_zero := by decide
  narrow := by decide
  encode := encodeBase32_padded
  decode := decodeBase32_read

end BaseText

open BaseText

/-- What an accepted text holds: the text of the bytes, and then nothing or a character outside the alphabet. -/
def BaseText.Holds (codec : BaseText) (str bytes : Bytes) : Prop :=
  ∃ front rest : Bytes, cString str = front ++ rest ∧ front.map codec.fold = codec.encode bytes ∧
    codec.digit (rest.getD 0 0) = none

/-- Bytes come back from both texts, and a text that is not flagged holds its bytes. -/
theorem base_texts_exact (bytes str : Bytes) :
    decodeBase64 (encodeBase64 bytes) = (bytes, false) ∧ decodeBase32 (encodeBase32 bytes) = (bytes, false) ∧
      ((decodeBase64 str).2 = false → base64.Holds str (decodeBase64 str).1) ∧
      ((decodeBase32 str).2 = false → base32.Holds str (decodeBase32 str).1) :=
  ⟨base64_lawful.decode_encode bytes, base32_lawful.decode_encode bytes, base64_lawful.accepted_prefix,
    base32_lawful.accepted_prefix⟩

/-- After whole groups anything may follow, an equals sign too. -/
theorem base_text_with_trailer : (decodeBase64 (text ['A', 'A', 'A', 'A', '='])).2 = false ∧
    encodeBase64 (decodeBase64 (text ['A', 'A', 'A', 'A', '='])).1 ≠ text ['A', 'A', 'A', 'A', '='] := by decide

end InfiniteRicks
