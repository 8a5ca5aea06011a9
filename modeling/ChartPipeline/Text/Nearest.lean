/-!
# The double nearest to a fraction

`nearestDouble n d` is the double nearest to `n / d`; of two equally near ones it is the one with
the even mantissa, and beyond the largest finite double it is infinity.  The mantissa is computed
exactly: the fraction is scaled by a power of two until its whole part has 53 bits, or until the
least exponent is reached.
-/

namespace ChartPipeline

@[default_instance high]
instance instPowNumber : Pow Nat Nat := ⟨Nat.pow⟩

@[default_instance high]
instance instPowInteger : Pow Int Nat := ⟨Int.pow⟩

/-- The quotient, rounded to the nearest whole number; a half goes to the even neighbour. -/
def roundedQuotient (n d : Nat) : Nat :=
  let q := n / d
  let r := 2 * (n % d)
  if r < d then q else if r > d then q + 1 else q + q % 2

/-- The bits of the double `mantissa * 2 ^ exponent`, for a mantissa of at most 53 bits and an
exponent from -1074 on. -/
def doubleBits (mantissa : Nat) (exponent : Int) : Nat :=
  if mantissa < 2 ^ 52 then mantissa
  else
    let biased := (exponent + 1075).toNat
    if biased ≥ 2047 then 2047 * 2 ^ 52 else biased * 2 ^ 52 + (mantissa - 2 ^ 52)

/-- The double nearest to the fraction `n / d`. -/
def nearestDouble (n d : Nat) : Float :=
  if n = 0 ∨ d = 0 then Float.ofBits 0
  else
    -- the quotient of numbers with these leading bits has 53 bits, or one less
    let guess : Int := (n.log2 : Int) - d.log2 - 52
    let below := n * 2 ^ (-guess).toNat < d * 2 ^ guess.toNat * 2 ^ 52
    let e := max (if below then guess - 1 else guess) (-1074)
    let m := roundedQuotient (n * 2 ^ (-e).toNat) (d * 2 ^ e.toNat)
    -- rounding may carry into one bit more
    let bits := if m = 2 ^ 53 then doubleBits (2 ^ 52) (e + 1) else doubleBits m e
    Float.ofBits (UInt64.ofNat bits)

/-- The double nearest to `digits * 10 ^ exponent`.  From `10 ^ 400` on it is infinity and below
`10 ^ (-400)` it is zero, so the powers that are computed stay small. -/
def nearestDecimal (digits : Nat) (exponent : Int) : Float :=
  if digits = 0 then Float.ofBits 0
  else if exponent > 400 then nearestDouble (10 ^ 400) 1
  else if exponent < -(400 + (digits.log2 : Int)) then Float.ofBits 0
  else nearestDouble (digits * 10 ^ exponent.toNat) (10 ^ (-exponent).toNat)

end ChartPipeline
