import PropDiagram.Powers

set_option autoImplicit false

/-! # Non-negative binary floating-point numbers

The non-negative numbers of the 64-bit binary format, as a significand and a power of two, with
exact arithmetic underneath: a sum or a product is computed exactly and then rounded once, to the
nearest number of the format, and to the one with the even significand if two are equally near.
Numbers too large for the format become infinite, and what has no value is undefined.

A finite number has a significand below `2 ^ 53` and an exponent of at least `-1074`. Its significand
is below `2 ^ 52` only if the exponent is the least one, so each number has one form. -/

namespace PropDiagram

/-- A non-negative number of the format. -/
inductive Binary64 where
  /-- The number `significand * 2 ^ exponent`. -/
  | finite (significand : Nat) (exponent : Int)
  | infinite
  | undefined
deriving DecidableEq, Repr

namespace Binary64

open Powers

/-- How many binary digits a significand may have. -/
def digits : Nat := 53

/-- The least exponent. -/
def leastExponent : Int := -1074

/-- The greatest exponent of a finite number. -/
def greatestExponent : Int := 971

/-- The quotient `n / d`, rounded to the nearest integer, a half to the even neighbour. -/
def divideToEven (n d : Nat) : Nat :=
  let q := n / d
  let twice := 2 * (n % d)
  if d < twice ∨ (twice = d ∧ q % 2 = 1) then q + 1 else q

/-- The number of the format nearest to `m * 2 ^ e`. -/
def round (m : Nat) (e : Int) : Binary64 :=
  if m = 0 then finite 0 leastExponent
  else
    -- The significand keeps as many digits as it may have, but none below the least exponent.
    let exponent := max (e + (m.log2 + 1) - digits) leastExponent
    let significand :=
      if exponent ≤ e then m * 2 ^ (e - exponent).toNat
      else divideToEven m (2 ^ (exponent - e).toNat)
    -- Rounding up can carry into one digit more; the significand is then a power of two.
    let (significand, exponent) :=
      if significand = 2 ^ digits then (2 ^ (digits - 1), exponent + 1) else (significand, exponent)
    if greatestExponent < exponent then infinite else finite significand exponent

def add : Binary64 → Binary64 → Binary64
  | finite m d, finite n e =>
    let least := min d e
    round (m * 2 ^ (d - least).toNat + n * 2 ^ (e - least).toNat) least
  | undefined, _ | _, undefined => undefined
  | infinite, _ | _, infinite => infinite

/-- The product, rounded. Zero times infinity has no value. -/
def mul : Binary64 → Binary64 → Binary64
  | finite m d, finite n e => round (m * n) (d + e)
  | undefined, _ | _, undefined => undefined
  | finite m _, infinite | infinite, finite m _ => if m = 0 then undefined else infinite
  | infinite, infinite => infinite

/-- The number nearest to `n`, if `n` is not too large. -/
def ofNat? (n : Nat) : Option Binary64 :=
  match round n 0 with
  | infinite => none
  | x => some x

/-- The number of the format nearest to the quotient `n / d`. -/
def ofQuotient (n d : Nat) : Binary64 :=
  -- A quotient of more digits than a significand has, then one digit for what was cut off: that
  -- digit only tells whether the quotient lies above the cut, so rounding comes out the same.
  let shift := 64 + d.log2 - n.log2
  let scaled := n * 2 ^ shift
  let rest := if scaled % d = 0 then 0 else 1
  round (2 * (scaled / d) + rest) (-(shift + 1))

/-- The number of the format nearest to the decimal `digits * 10 ^ scale`. Far above the greatest
    number it is infinite, and far below the least one it is zero, whatever the digits. -/
def ofDecimal (digits : Nat) (scale : Int) : Binary64 :=
  let point := scale + (Nat.toDigits 10 digits).length
  if digits = 0 ∨ point < -400 then finite 0 leastExponent
  else if 400 < point then infinite
  else if 0 ≤ scale then ofQuotient (digits * 10 ^ scale.toNat) 1
  else ofQuotient digits (10 ^ (-scale).toNat)

def isZero : Binary64 → Bool
  | finite m _ => m == 0
  | infinite | undefined => false

def one : Binary64 := round 1 0

/-- The number nearest to a power of two. -/
def powTwo (k : Int) : Binary64 := round 1 k

/-! ## Samples of rounding -/

example : round (2 ^ 53 + 1) 0 = finite (2 ^ 52) 1 := by decide
example : round (2 ^ 53 + 3) 0 = finite (2 ^ 52 + 2) 1 := by decide
example : powTwo (-1075) = finite 0 (-1074) := by decide +kernel
example : ofDecimal 75 (-2) = finite (3 * 2 ^ 51) (-53) := by decide +kernel
example : ofDecimal 9007199254740993 0 = finite (2 ^ 52) 1 := by decide +kernel
example : ofDecimal 99999999999999999999 (-20) = one := by decide +kernel
example : ofDecimal 24703282292062327 (-340) = finite 0 (-1074) := by decide +kernel
example : ofDecimal 24703282292062328 (-340) = finite 1 (-1074) := by decide +kernel
example : ofDecimal 17976931348623159 292 = infinite := by decide +kernel

end Binary64

end PropDiagram
