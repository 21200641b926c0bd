import InfiniteRicks.Base58

/-!
# Amounts as texts

`FormatMoney` and `ParseMoney` (`util.cpp`). `FormatMoney` hands two `__int128` to directives for
64-bit numbers. What `vsnprintf` reads for them is up to the calling convention, and is a parameter.
-/

namespace InfiniteRicks

/-- What the directives `PRId64` and `%08` with `PRId64` read where two `__int128` are passed. -/
abbrev VarArgs := Int → Int → Int64 × Int64

/-- The low halves of both. -/
def VarArgs.lowHalves : VarArgs := fun first second => (Int64.ofInt first, Int64.ofInt second)

/-- The next two registers, as where a `__int128` takes two: the halves of the first one. -/
def VarArgs.registers : VarArgs := fun first _ => (Int64.ofInt first, Int64.ofInt (first / 2 ^ 64))

/-- A number as `%08` with `PRId64` prints it. -/
def padded (n : Int64) : Bytes :=
  if n.toInt < 0 then 45 :: (List.replicate (7 - (decimal n.toInt.natAbs).length) 48 ++ decimal n.toInt.natAbs)
  else List.replicate (8 - (decimal n.toInt.natAbs).length) 48 ++ decimal n.toInt.natAbs

/-- The trimming loop of `FormatMoney`, on the string from its end: a zero goes where two places before it is a digit. -/
def rightTrim : Bytes → Bytes
  | last :: middle :: before :: rest =>
      if last = 48 && isDigit before then rightTrim (middle :: before :: rest) else last :: middle :: before :: rest
  | str => str

/-- A number as an `__int128`. -/
def toInt128 (n : Int) : Int := n.bmod (2 ^ 128)

/-- `FormatMoney`. -/
def formatMoney (va : VarArgs) (n : Int) (fPlus : Bool) : Bytes :=
  let n_abs := if 0 < n then n else toInt128 (-n)
  let quotient := n_abs.tdiv coin.toInt
  let remainder := n_abs.tmod coin.toInt
  let str := i64tostr (va quotient remainder).1 ++ 46 :: padded (va quotient remainder).2
  let str := (rightTrim str.reverse).reverse
  if n < 0 then 45 :: str
  else if fPlus && 0 < n then 43 :: str
  else str

/-- The loop after the point: `nUnits` and where it stops. -/
def readUnits : Bytes → Int64 → Int64 → Int64 × Bytes
  | c :: rest, nMult, nUnits =>
      if isDigit c && 0 < nMult then readUnits rest (nMult / 10) (nUnits + nMult * (c - 48).toUInt64.toInt64)
      else (nUnits, c :: rest)
  | [], _, nUnits => (nUnits, [])

/-- The loop over the number: `strWhole`, `nUnits` and where it stops; `none` at a character that is no digit. -/
def readAmount : Bytes → Bytes → Option (Bytes × Int64 × Bytes)
  | [], strWhole => some (strWhole, 0, [])
  | c :: rest, strWhole =>
      if c = 46 then some (strWhole, readUnits rest (cent * 10) 0)
      else if isSpace c then some (strWhole, 0, c :: rest)
      else if !isDigit c then none
      else readAmount rest (strWhole ++ [c])

/-- `ParseMoney`, with the result in `nRet`. -/
def parseMoney (str : Bytes) : Option Int64 := do
  let (strWhole, nUnits, p) ← readAmount ((Base58.cString str).dropWhile isSpace) []
  if !p.all isSpace then none
  else if 10 < strWhole.length then none
  else if nUnits < 0 || coin < nUnits then none
  else some (atoi64 strWhole * coin + nUnits)

end InfiniteRicks
