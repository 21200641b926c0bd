import InfiniteRicks.Money

/-!
# Amounts in the windows

`BitcoinUnits::format` and `BitcoinUnits::parse` (`qt/bitcoinunits.cpp`). A `QString` is the list of its
Latin-1 characters. `QString::toLongLong` is a parameter: the number it returns and its `ok`.
-/

namespace InfiniteRicks

abbrev QString := Bytes

namespace QString

/-- What `toLongLong` returns and writes to `ok`. -/
abbrev ToLongLong := QString → Int64 × Bool

/-- `QString::rightJustified` without truncation. -/
def rightJustified (str : QString) (width : Nat) (fill : UInt8) : QString :=
  List.replicate (width - str.length) fill ++ str

/-- `QString::leftJustified` without truncation. -/
def leftJustified (str : QString) (width : Nat) (fill : UInt8) : QString :=
  str ++ List.replicate (width - str.length) fill

/-- `QString::chop`. -/
def chop (str : QString) (n : Nat) : QString := str.take (str.length - n)

end QString

namespace BitcoinUnits

/-- `BitcoinUnits::BTC`. -/
def BTC : Int := 0

/-- `BitcoinUnits::mBTC`. -/
def mBTC : Int := 1

/-- `BitcoinUnits::uBTC`. -/
def uBTC : Int := 2

/-- `BitcoinUnits::valid`. -/
def valid (unit : Int) : Bool := unit = BTC || unit = mBTC || unit = uBTC

/-- `BitcoinUnits::factor`. -/
def factor (unit : Int) : Int64 :=
  if unit = BTC then 100000000
  else if unit = mBTC then 100000
  else if unit = uBTC then 100
  else 100000000

/-- `BitcoinUnits::decimals`. -/
def decimals (unit : Int) : Nat :=
  if unit = BTC then 8
  else if unit = mBTC then 5
  else if unit = uBTC then 2
  else 0

/-- The loop of `format` that counts in `nTrim`: how many zeros end at this position, from the third character on. -/
def nTrim (remainder_str : QString) : Nat → Nat
  | i + 1 => if 2 ≤ i ∧ remainder_str[i]? = some 48 then nTrim remainder_str i + 1 else 0
  | 0 => 0

/-- `BitcoinUnits::format`. The quotient and the remainder are narrowed to `qint64`. -/
def format (unit : Int) (n : Int) (fPlus : Bool) : QString :=
  if !valid unit then []
  else
    let coin := (factor unit).toInt
    let num_decimals := decimals unit
    let n_abs := if 0 < n then n else toInt128 (-n)
    let quotient := Int64.ofInt (n_abs.tdiv coin)
    let remainder := Int64.ofInt (n_abs.tmod coin)
    let quotient_str := i64tostr quotient
    let remainder_str := QString.rightJustified (i64tostr remainder) num_decimals 48
    let remainder_str := QString.chop remainder_str (nTrim remainder_str remainder_str.length)
    let quotient_str :=
      if n < 0 then 45 :: quotient_str
      else if fPlus && 0 < n then 43 :: quotient_str
      else quotient_str
    quotient_str ++ [46] ++ remainder_str

/-- `BitcoinUnits::parse`: what it returns, and what it writes to `val_out`. -/
def parse (toLongLong : QString.ToLongLong) (unit : Int) (value : QString) : Bool × Option Int64 :=
  if !valid unit || value.isEmpty then (false, none)
  else
    let num_decimals := decimals unit
    let parts := value.splitOn 46
    if 2 < parts.length then (false, none)
    else
      let whole := parts.getD 0 []
      let decimals := if 1 < parts.length then parts.getD 1 [] else []
      if num_decimals < decimals.length then (false, none)
      else
        let str := whole ++ QString.leftJustified decimals num_decimals 48
        if 18 < str.length then (false, none)
        else ((toLongLong str).2, some (toLongLong str).1)

end BitcoinUnits

end InfiniteRicks
