import ChartPipeline.Text.Nearest

/-!
# Numbers written in decimal

Integers of 64 bits are exact.  Every other number becomes a float from its first digits, as many
as fit into 64 bits, by one multiplication with or division by a power of ten; one that is too
large for a float has no value.
-/

namespace ChartPipeline

/-- A number as it is written: sign, digits before and after the point, exponent. -/
structure Numeral where
  negative : Bool
  whole : List Nat
  fraction : Option (List Nat)
  /-- Whether the exponent is negative, and its digits. -/
  exponent : Option (Bool × List Nat)

/-- The value of a numeral. -/
inductive Number where
  | int (value : Int)
  | float (value : Float)

namespace Numeral

/-- The significant digits read so far, and the power of ten they still lack. -/
structure Significand where
  digits : Nat
  exponent : Int

/-- The largest significand. -/
def limit : Nat := 2 ^ 64 - 1

/-- Reads the digits before the point; those that no longer fit count into the exponent. -/
def Significand.ofWhole : List Nat → Significand → Significand
  | [], s => s
  | d :: rest, s =>
    if s.digits * 10 + d ≤ limit then ofWhole rest ⟨s.digits * 10 + d, s.exponent⟩
    else ⟨s.digits, s.exponent + (rest.length + 1)⟩

/-- Reads the digits after the point, up to the first that no longer fits. -/
def Significand.withFraction : List Nat → Significand → Significand
  | [], s => s
  | d :: rest, s =>
    if s.digits * 10 + d ≤ limit then withFraction rest ⟨s.digits * 10 + d, s.exponent - 1⟩
    else s

/-- Scales a float by a power of ten; none if the result is infinite. -/
def scale (x : Float) (e : Int) : Nat → Option Float
  | 0 => some x
  | fuel + 1 =>
    if e.natAbs ≤ 308 then
      let power := nearestDecimal 1 e.natAbs
      if e ≥ 0 then
        let y := x * power
        if y.isInf then none else some y
      else some (x / power)
    else if x == 0 then some x
    else if e ≥ 0 then none
    -- a very small power is reached in steps
    else scale (x / nearestDecimal 1 308) (e + 308) fuel

/-- Gives a float its sign. -/
def signed (negative : Bool) (x : Float) : Float := if negative then -x else x

/-- The value of the numeral, if a float can hold it. -/
def value (n : Numeral) : Option Number :=
  let whole := Significand.ofWhole n.whole ⟨0, 0⟩
  match n.fraction, n.exponent with
  | none, none =>
    if whole.exponent ≠ 0 then
      (scale (nearestDecimal whole.digits 0) whole.exponent 8).map fun x =>
        .float (signed n.negative x)
    else if !n.negative then some (.int whole.digits)
    -- minus zero, and what is below all integers, is a float
    else if whole.digits = 0 ∨ whole.digits > 2 ^ 63 then
      some (.float (-(nearestDecimal whole.digits 0)))
    else some (.int (-whole.digits))
  | fraction, exponent =>
    let s := Significand.withFraction (fraction.getD []) whole
    match exponent with
    | none =>
      (scale (nearestDecimal s.digits 0) s.exponent 8).map fun x => .float (signed n.negative x)
    | some (down, digits) =>
      let e : Nat := digits.foldl (fun acc d => min (acc * 10 + d) (2 ^ 31)) 0
      -- so great an exponent leaves zero, or no value at all
      if e ≥ 2 ^ 31 then
        if s.digits ≠ 0 ∧ !down then none else some (.float (signed n.negative 0))
      else
        let total := if down then s.exponent - e else s.exponent + e
        (scale (nearestDecimal s.digits 0) total 8).map fun x => .float (signed n.negative x)

end Numeral

end ChartPipeline
