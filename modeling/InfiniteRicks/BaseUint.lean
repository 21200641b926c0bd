import InfiniteRicks.WalletDump

/-!
# Integers of fixed width

`base_uint<BITS>` (`uint256.h`), whose instances `uint160` and `uint256` have 5 and 8 words. Every operator
is a loop over the words, the least significant first, as the machine stores them.
-/

namespace InfiniteRicks

/-- `base_uint<BITS>`; `WIDTH` is `BITS/32`. -/
structure BaseUint (WIDTH : Nat) where
  pn : List UInt32
  length_pn : pn.length = WIDTH

namespace BaseUint

variable {WIDTH : Nat}

@[ext] theorem ext {a b : BaseUint WIDTH} (same : a.pn = b.pn) : a = b := by
  cases a
  cases b
  cases same
  rfl

/-- The represented number. -/
def value (a : BaseUint WIDTH) : Nat := Nat.ofDigits (2 ^ 32) (a.pn.map UInt32.toNat)

/-- `pn[i]`. -/
def word (a : BaseUint WIDTH) (i : Nat) : UInt32 := a.pn.getD i 0

/-- The value after `operator=(uint64_t)`. -/
def ofUInt64 (WIDTH : Nat) (b : UInt64) : BaseUint WIDTH where
  pn := (List.range WIDTH).map fun i => if i = 0 then b.toUInt32 else if i = 1 then (b >>> 32).toUInt32 else 0
  length_pn := by rw [List.length_map, List.length_range]

/-! ## Arithmetic -/

/-- The loop of `operator++()`. -/
def incWords : List UInt32 → List UInt32
  | [] => []
  | p :: rest => if p + 1 = 0 then (p + 1) :: incWords rest else (p + 1) :: rest

/-- The loop of `operator--()`, which compares with -1 as an `unsigned int`. -/
def decWords : List UInt32 → List UInt32
  | [] => []
  | p :: rest => if p - 1 = 0xffffffff then (p - 1) :: decWords rest else (p - 1) :: rest

/-- The loop of `operator+=`. -/
def addWords : UInt64 → List UInt32 → List UInt32 → List UInt32
  | _, [], _ => []
  | _, _ :: _, [] => []
  | carry, p :: pn, q :: bpn =>
      let n := carry + p.toUInt64 + q.toUInt64
      (n &&& 0xffffffff).toUInt32 :: addWords (n >>> 32) pn bpn

theorem length_incWords (pn : List UInt32) : (incWords pn).length = pn.length := by
  induction pn with
  | nil => rfl
  | cons p rest ih =>
      rw [incWords]
      split
      · rw [List.length_cons, List.length_cons, ih]
      · rw [List.length_cons, List.length_cons]

theorem length_decWords (pn : List UInt32) : (decWords pn).length = pn.length := by
  induction pn with
  | nil => rfl
  | cons p rest ih =>
      rw [decWords]
      split
      · rw [List.length_cons, List.length_cons, ih]
      · rw [List.length_cons, List.length_cons]

theorem length_addWords (carry : UInt64) {pn bpn : List UInt32} (same : pn.length = bpn.length) :
    (addWords carry pn bpn).length = pn.length := by
  induction pn generalizing carry bpn with
  | nil => rfl
  | cons p pn ih =>
      cases bpn with
      | nil => exact absurd same (Nat.succ_ne_zero _)
      | cons q bpn => rw [addWords, List.length_cons, List.length_cons, ih _ (Nat.succ.inj same)]

/-- `operator~`. -/
def compl (a : BaseUint WIDTH) : BaseUint WIDTH :=
  ⟨a.pn.map (~~~ ·), (List.length_map _).trans a.length_pn⟩

/-- `operator++()`. -/
def incr (a : BaseUint WIDTH) : BaseUint WIDTH := ⟨incWords a.pn, (length_incWords a.pn).trans a.length_pn⟩

/-- `operator++(int)`: what it returns, and the value after it. -/
def postIncr (a : BaseUint WIDTH) : BaseUint WIDTH × BaseUint WIDTH := (a, a.incr)

/-- `operator--()`. -/
def decr (a : BaseUint WIDTH) : BaseUint WIDTH := ⟨decWords a.pn, (length_decWords a.pn).trans a.length_pn⟩

/-- `operator--(int)`. -/
def postDecr (a : BaseUint WIDTH) : BaseUint WIDTH × BaseUint WIDTH := (a, a.decr)

/-- `operator-()`. -/
def neg (a : BaseUint WIDTH) : BaseUint WIDTH := a.compl.postIncr.2

/-- `operator+=(const base_uint&)`. -/
def addAssign (a b : BaseUint WIDTH) : BaseUint WIDTH :=
  ⟨addWords 0 a.pn b.pn, (length_addWords 0 (a.length_pn.trans b.length_pn.symm)).trans a.length_pn⟩

/-- `operator-=(const base_uint&)`. -/
def subAssign (a b : BaseUint WIDTH) : BaseUint WIDTH := a.addAssign b.neg

/-- `operator+=(uint64_t)`. -/
def addAssign64 (a : BaseUint WIDTH) (b64 : UInt64) : BaseUint WIDTH := a.addAssign (ofUInt64 WIDTH b64)

/-- `operator-=(uint64_t)`. -/
def subAssign64 (a : BaseUint WIDTH) (b64 : UInt64) : BaseUint WIDTH := a.addAssign (ofUInt64 WIDTH b64).neg

/-! ## Shifts -/

/-- `pn[i] |= x`. -/
def orAt (pn : List UInt32) (i : Nat) (x : UInt32) : List UInt32 := pn.modify i (· ||| x)

/-- One round of `operator<<=`, with `shift` below 32. -/
def shlRound (a : BaseUint WIDTH) (k : Nat) (shift : UInt32) (pn : List UInt32) (i : Nat) : List UInt32 :=
  let pn := if i + k + 1 < WIDTH ∧ shift ≠ 0 then orAt pn (i + k + 1) (a.word i >>> (32 - shift)) else pn
  if i + k < WIDTH then orAt pn (i + k) (a.word i <<< shift) else pn

/-- One round of `operator>>=`, with `shift` below 32. -/
def shrRound (a : BaseUint WIDTH) (k : Nat) (shift : UInt32) (pn : List UInt32) (i : Nat) : List UInt32 :=
  let pn := if k + 1 ≤ i ∧ shift ≠ 0 then orAt pn (i - k - 1) (a.word i <<< (32 - shift)) else pn
  if k ≤ i then orAt pn (i - k) (a.word i >>> shift) else pn

/-- The loop over `i` of a shift, from words that are 0. -/
def shiftWords (WIDTH : Nat) (round : List UInt32 → Nat → List UInt32) : List UInt32 :=
  (List.range WIDTH).foldl round (List.replicate WIDTH 0)

theorem length_orAt (pn : List UInt32) (i : Nat) (x : UInt32) : (orAt pn i x).length = pn.length :=
  List.length_modify _ _ _

theorem length_shlRound (a : BaseUint WIDTH) (k : Nat) (shift : UInt32) (pn : List UInt32) (i : Nat) :
    (shlRound a k shift pn i).length = pn.length := by
  simp only [shlRound]
  split <;> split <;> simp only [length_orAt]

theorem length_shrRound (a : BaseUint WIDTH) (k : Nat) (shift : UInt32) (pn : List UInt32) (i : Nat) :
    (shrRound a k shift pn i).length = pn.length := by
  simp only [shrRound]
  split <;> split <;> simp only [length_orAt]

theorem length_shiftWords {round : List UInt32 → Nat → List UInt32}
    (kept : ∀ pn i, (round pn i).length = pn.length) : (shiftWords WIDTH round).length = WIDTH := by
  have along : ∀ (is : List Nat) (pn : List UInt32), (is.foldl round pn).length = pn.length := by
    intro is
    induction is with
    | nil => exact fun _ => rfl
    | cons i is ih => exact fun pn => (ih _).trans (kept pn i)
  exact (along _ _).trans List.length_replicate

/-- `operator<<=`. -/
def shlAssign (a : BaseUint WIDTH) (shift : UInt32) : BaseUint WIDTH where
  pn := shiftWords WIDTH (shlRound a (shift / 32).toNat (shift % 32))
  length_pn := length_shiftWords (length_shlRound a _ _)

/-- `operator>>=`. -/
def shrAssign (a : BaseUint WIDTH) (shift : UInt32) : BaseUint WIDTH where
  pn := shiftWords WIDTH (shrRound a (shift / 32).toNat (shift % 32))
  length_pn := length_shiftWords (length_shrRound a _ _)

/-! ## Comparison -/

/-- The loop from the last word down: `true` at the first word with `first`, `false` at the first one with `second`. -/
def fromTop (first second : UInt32 → UInt32 → Bool) (same : Bool) : List UInt32 → List UInt32 → Bool
  | p :: ps, q :: qs => if first p q then true else if second p q then false else fromTop first second same ps qs
  | _, _ => same

/-- `operator<`. -/
def lt (a b : BaseUint WIDTH) : Bool :=
  fromTop (fun p q => p < q) (fun p q => p > q) false a.pn.reverse b.pn.reverse

/-- `operator<=`. -/
def le (a b : BaseUint WIDTH) : Bool :=
  fromTop (fun p q => p < q) (fun p q => p > q) true a.pn.reverse b.pn.reverse

/-- `operator>`. -/
def gt (a b : BaseUint WIDTH) : Bool :=
  fromTop (fun p q => p > q) (fun p q => p < q) false a.pn.reverse b.pn.reverse

/-- `operator>=`. -/
def ge (a b : BaseUint WIDTH) : Bool :=
  fromTop (fun p q => p > q) (fun p q => p < q) true a.pn.reverse b.pn.reverse

/-- `operator==(const base_uint&, const base_uint&)`. -/
def eq (a b : BaseUint WIDTH) : Bool := (List.range WIDTH).all fun i => a.word i == b.word i

/-- `operator==(const base_uint&, uint64_t)`. -/
def eq64 (a : BaseUint WIDTH) (b : UInt64) : Bool :=
  a.word 0 == b.toUInt32 && (a.word 1 == (b >>> 32).toUInt32 &&
    (List.range WIDTH).all fun i => decide (i < 2) || a.word i == 0)

/-- `operator!=(const base_uint&, const base_uint&)`. -/
def ne (a b : BaseUint WIDTH) : Bool := !a.eq b

/-- `operator!=(const base_uint&, uint64_t)`. -/
def ne64 (a : BaseUint WIDTH) (b : UInt64) : Bool := !a.eq64 b

/-- `operator!`. -/
def isZero (a : BaseUint WIDTH) : Bool := (List.range WIDTH).all fun i => a.word i == 0

/-! ## Hexadecimal text -/

/-- The words as the machine stores them. -/
def bytes (a : BaseUint WIDTH) : Bytes := a.pn.flatMap fun p => littleEndianBytes 4 p.toNat

/-- `GetHex`. -/
def getHex (a : BaseUint WIDTH) : Bytes := WalletDump.hexStr a.bytes.reverse

/-- The table of `SetHex`. -/
def phexdigit (c : UInt8) : UInt8 :=
  if 48 ≤ c ∧ c ≤ 57 then c - 48
  else if 65 ≤ c ∧ c ≤ 70 then c - 55
  else if 97 ≤ c ∧ c ≤ 102 then c - 87
  else 0

/-- The bytes that the last loop of `SetHex` fills from the digits, the last one first; the others stay 0. -/
def fillBytes : Nat → Bytes → Bytes
  | 0, _ => []
  | room + 1, [] => 0 :: fillBytes room []
  | room + 1, [low] => phexdigit low :: fillBytes room []
  | room + 1, low :: high :: rest => (phexdigit low ||| phexdigit high <<< 4) :: fillBytes room rest

/-- The words that are stored in some bytes. -/
def wordsOf : Nat → Bytes → List UInt32
  | 0, _ => []
  | width + 1, bytes => UInt32.ofNat (CScript.littleEndian (bytes.take 4)) :: wordsOf width (bytes.drop 4)

theorem length_wordsOf (width : Nat) (bytes : Bytes) : (wordsOf width bytes).length = width := by
  induction width generalizing bytes with
  | zero => rfl
  | succ width ih => rw [wordsOf, List.length_cons, ih]

/-- The digits that `SetHex` reads. -/
def hexDigits (psz : Bytes) : Bytes :=
  let psz := psz.dropWhile isSpace
  let psz := if psz.take 2 = text ['0', 'x'] ∨ psz.take 2 = text ['0', 'X'] then psz.drop 2 else psz
  psz.takeWhile fun c => phexdigit c ≠ 0 || c = 48

/-- `SetHex`. -/
def setHex (WIDTH : Nat) (psz : Bytes) : BaseUint WIDTH :=
  ⟨wordsOf WIDTH (fillBytes (WIDTH * 4) (hexDigits psz).reverse), length_wordsOf WIDTH _⟩

end BaseUint

end InfiniteRicks
