import PropDiagram.Number.Binary64

set_option autoImplicit false

/-! # Shortest decimals

The decimal that stands for a floating-point number is the shortest one that reads back as the same
number, and of those the nearest. For one digit, two digits and so on the two decimals next to the
number are tried, in exact arithmetic, until one lies in the interval of the values that round to the
number. Seventeen digits always suffice. -/

namespace PropDiagram

/-- A decimal number: `0.d₁d₂… * 10 ^ point`. -/
structure Decimal where
  digits : List Nat
  point : Int
deriving DecidableEq, Repr

namespace Decimal

open Powers

/-- A positive quotient, and the ends of the interval of the values that read back as the same
    number. All three have the same denominator. -/
structure Target where
  low : Nat
  value : Nat
  high : Nat
  denominator : Nat
  /-- Whether the ends themselves read back as the number. -/
  closed : Bool

/-- The target of `m * 2 ^ e`. The neighbour below a power of two is only half as far away as the one
    above. -/
def Target.ofBinary (m : Nat) (e : Int) : Target :=
  let below := if m = 2 ^ (Binary64.digits - 1) ∧ Binary64.leastExponent < e then 1 else 2
  let scale := 2 ^ (e - 2).toNat
  ⟨(4 * m - below) * scale, 4 * m * scale, (4 * m + 2) * scale, 2 ^ (2 - e).toNat, m % 2 = 0⟩

/-- The target in units of `10 ^ k`. -/
def Target.inUnits (t : Target) (k : Int) : Target :=
  let up := 10 ^ (-k).toNat
  ⟨t.low * up, t.value * up, t.high * up, t.denominator * 10 ^ k.toNat, t.closed⟩

/-- Whether the integer `c` reads back as the number. -/
def Target.accepts (t : Target) (c : Nat) : Bool :=
  let x := c * t.denominator
  if t.closed then t.low ≤ x && x ≤ t.high else t.low < x && x < t.high

/-- The integer next to the value that reads back as the number, the nearer one if both neighbours
    do, and the even one if they are equally near. -/
def Target.nearest? (t : Target) : Option Nat :=
  let c := t.value / t.denominator
  match t.accepts c, t.accepts (c + 1) with
  | true, true => some (Binary64.divideToEven t.value t.denominator)
  | true, false => some c
  | false, true => some (c + 1)
  | false, false => none

/-- How many digits the integer part of the quotient has; if it is zero, how many zeros follow the
    point, as a negative number. The search for zeros stops after `fuel` of them. -/
def Target.point (t : Target) : (fuel : Nat) → Int
  | 0 => 0
  | fuel + 1 =>
    if t.denominator ≤ t.value then (Nat.toDigits 10 (t.value / t.denominator)).length
    else Target.point ⟨t.low, 10 * t.value, t.high, t.denominator, t.closed⟩ fuel - 1

/-- No number of the format has more zeros after the point. -/
def mostZeros : Nat := 400

/-- The first of the grids with `count` digits, `count + 1` digits and so on that holds a decimal that
    reads back. -/
def search (t : Target) (point : Int) : (fuel count : Nat) → Option (Nat × Int)
  | 0, _ => none
  | fuel + 1, count =>
    let k := point - count
    match (t.inUnits k).nearest? with
    | some c => some (c, k)
    | none => search t point fuel (count + 1)

/-- The decimal `c * 10 ^ k`, without zeros at its end. -/
def ofScaled (c : Nat) (k : Int) : Decimal :=
  let all := (Nat.toDigits 10 c).map fun d => d.toNat - '0'.toNat
  ⟨(all.reverse.dropWhile fun d => d == 0).reverse, k + all.length⟩

/-- The shortest decimal that reads back as the positive number `m * 2 ^ e`. -/
def shortest (m : Nat) (e : Int) : Decimal :=
  let t := Target.ofBinary m e
  match search t (t.point mostZeros) 17 1 with
  | some (c, k) => ofScaled c k
  | none => ⟨[], 0⟩

/-! ## Layout -/

/-- Where a decimal is written with an exponent. -/
structure Layout where
  /-- The least position of the point that is written without exponent. -/
  leastPoint : Int
  /-- The greatest position of the point that is written without exponent. -/
  greatestPoint : Int
  /-- How many digits an exponent has at least. -/
  exponentDigits : Nat

/-- Decimals from `0.0001` up to below `10 ^ 16` are written without exponent, others with an
    exponent of two digits or more. -/
def Layout.usual : Layout := ⟨-3, 16, 2⟩

def digitText (ds : List Nat) : String := String.ofList (ds.map Nat.digitChar)

/-- A number with at least `width` digits, filled up with zeros. -/
def padded (width n : Nat) : String :=
  let s := toString n
  String.ofList (List.replicate (width - s.length) '0') ++ s

/-- The decimal as text. A whole number without exponent keeps one zero after the point. -/
def text (layout : Layout) (d : Decimal) : String :=
  if layout.leastPoint ≤ d.point ∧ d.point ≤ layout.greatestPoint then
    if d.point ≤ 0 then
      "0." ++ digitText (List.replicate (-d.point).toNat 0 ++ d.digits)
    else
      let whole := d.point.toNat
      let fraction := d.digits.drop whole
      digitText (d.digits.take whole ++ List.replicate (whole - d.digits.length) 0) ++ "." ++
        digitText (if fraction.isEmpty then [0] else fraction)
  else
    let exponent := d.point - 1
    let rest := d.digits.drop 1
    digitText (d.digits.take 1) ++ (if rest.isEmpty then "" else "." ++ digitText rest) ++ "e" ++
      (if exponent < 0 then "-" else "+") ++ padded layout.exponentDigits exponent.natAbs

end Decimal

/-- The number as text: its shortest decimal. -/
def Binary64.text : Binary64 → String
  | finite 0 _ => "0.0"
  | finite m e => (Decimal.shortest m e).text .usual
  | infinite => "inf"
  | undefined => "nan"

/-! ## Samples -/

example : (Binary64.round 3 (-2)).text = "0.75" := by decide +kernel
example : (Binary64.round 1 60).text = "1.152921504606847e+18" := by decide +kernel
example : (Binary64.round 3 0).text = "3.0" := by decide +kernel

end PropDiagram
