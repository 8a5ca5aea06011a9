import ChartPipeline.Text.Nearest

/-!
# The fewest decimal digits of a double

A finite double is `m * 2 ^ q`.  The reals that round to it form an interval whose ends belong to
it when `m` is even.  `Decimal.shortest` goes through the decimal grids of 1, 2, … 17 significant
digits and takes the first one with a point in that interval; of two such points it takes the
nearer one.  All arithmetic is exact, on natural numbers.
-/

namespace ChartPipeline

/-- A decimal number `digits * 10 ^ exponent`. -/
structure Decimal where
  digits : Nat
  exponent : Int
deriving DecidableEq, Repr

/-- Which of two equally near decimals is taken. -/
inductive Tie where
  | even
  | up
deriving DecidableEq, Repr

/-- What the bits of a double stand for. -/
inductive Double where
  | nan
  | infinite (negative : Bool)
  /-- The number `± mantissa * 2 ^ exponent`. -/
  | finite (negative : Bool) (mantissa : Nat) (exponent : Int)
deriving DecidableEq, Repr

namespace Double

/-- Reads sign, exponent and fraction off the bits. -/
def ofBits (bits : UInt64) : Double :=
  let n := bits.toNat
  let negative := n / 2 ^ 63 = 1
  let exponent : Nat := n / 2 ^ 52 % 2 ^ 11
  let fraction := n % 2 ^ 52
  if exponent = 2 ^ 11 - 1 then
    if fraction = 0 then infinite negative else nan
  -- subnormal numbers lack the leading bit
  else if exponent = 0 then finite negative fraction (-1074)
  else finite negative (fraction + 2 ^ 52) ((exponent : Int) - 1075)

/-- The double that a `Float` holds. -/
def ofFloat (x : Float) : Double := ofBits x.toBits

end Double

namespace Decimal

/-- A positive number with the interval of the reals that round to it, as four numerators over one
denominator. -/
structure Target where
  low : Nat
  value : Nat
  high : Nat
  denominator : Nat
  /-- The ends of the interval round to the number too. -/
  closed : Bool

/-- The number `m * 2 ^ q` with the doubles next to it at half distance.  Below a power of two the
gap is half as wide, except at the least exponent. -/
def Target.ofDouble (m : Nat) (q : Int) : Target :=
  let gap := if m = 2 ^ 52 ∧ q > -1074 then 1 else 2
  let scale := 2 ^ (q - 2).toNat
  { low := (4 * m - gap) * scale
    value := 4 * m * scale
    high := (4 * m + 2) * scale
    denominator := 2 ^ (2 - q).toNat
    closed := m % 2 = 0 }

/-- Multiplies the number and its interval by `10 ^ k`. -/
def Target.scale (t : Target) (k : Int) : Target :=
  { t with
    low := t.low * 10 ^ k.toNat
    value := t.value * 10 ^ k.toNat
    high := t.high * 10 ^ k.toNat
    denominator := t.denominator * 10 ^ (-k).toNat }

/-- Whether the natural number `c` rounds to the target. -/
def Target.admits (t : Target) (c : Nat) : Bool :=
  let p := c * t.denominator
  if t.closed then t.low ≤ p && p ≤ t.high else t.low < p && p < t.high

/-- The nearest of the two natural numbers around the target that round to it. -/
def Target.pick? (tie : Tie) (t : Target) : Option Nat :=
  let c := t.value / t.denominator
  match t.admits c, t.admits (c + 1) with
  | false, false => none
  | true, false => some c
  | false, true => some (c + 1)
  | true, true =>
    let below := t.value - c * t.denominator
    let above := (c + 1) * t.denominator - t.value
    if below < above then some c
    else if above < below then some (c + 1)
    else match tie with
      | .up => some (c + 1)
      | .even => if c % 2 = 0 then some c else some (c + 1)

/-- The position of the leading digit: `10 ^ (k - 1) ≤ value < 10 ^ k` for every positive
double. -/
def Target.magnitude (t : Target) : Int :=
  -- this power of ten gives every double a whole part
  (Nat.toDigits 10 (t.value * 10 ^ 350 / t.denominator)).length - 350

/-- Drops trailing zeros of the digits, at most `fuel` of them. -/
def trim (d : Decimal) : Nat → Decimal
  | 0 => d
  | fuel + 1 =>
    if d.digits % 10 = 0 ∧ d.digits ≠ 0 then trim ⟨d.digits / 10, d.exponent + 1⟩ fuel else d

/-- The shortest decimal that rounds to the positive double `m * 2 ^ q`. -/
def shortest (tie : Tie) (m : Nat) (q : Int) : Decimal :=
  let t := Target.ofDouble m q
  let k := t.magnitude
  let found := (List.range 17).findSome? fun n : Nat =>
    let e := k - (n + 1)
    ((t.scale (-e)).pick? tie).map fun c => (⟨c, e⟩ : Decimal)
  -- seventeen digits tell all doubles apart, so one is found
  (found.getD ⟨0, 0⟩).trim 20

end Decimal

end ChartPipeline
