import ChartPipeline.Text.Shortest

/-!
# The written forms of floats

Both forms write the fewest digits that read back.  `Float.plain` is positional at every magnitude
and writes whole numbers without a point; it goes into expressions, keys and messages.
`Float.json` is positional from `1e-5` up to `1e16`, there always with a point, and uses an
exponent beyond; JSON has no text for NaN and infinity, which it writes as `null`.
-/

namespace ChartPipeline

/-- The digits of a decimal with the number of them that stand before the point. -/
structure Digits where
  digits : List Char
  point : Int

/-- The digits of a decimal, most significant first. -/
def Decimal.toDigits (d : Decimal) : Digits :=
  let ds := Nat.toDigits 10 d.digits
  ⟨ds, ds.length + d.exponent⟩

/-- Positional notation; `whole` follows the digits of a number without a fraction. -/
def Digits.positional (d : Digits) (whole : String) : String :=
  let n := d.digits.length
  if d.point ≤ 0 then
    "0." ++ String.ofList (List.replicate (-d.point).toNat '0' ++ d.digits)
  else if d.point.toNat ≥ n then
    String.ofList (d.digits ++ List.replicate (d.point.toNat - n) '0') ++ whole
  else
    String.ofList (d.digits.take d.point.toNat ++ '.' :: d.digits.drop d.point.toNat)

/-- Scientific notation: one digit before the point, and the exponent with its sign. -/
def Digits.scientific (d : Digits) : String :=
  let e := d.point - 1
  let mantissa := match d.digits with
    | [] => ""
    | [c] => String.ofList [c]
    | c :: rest => String.ofList (c :: '.' :: rest)
  mantissa ++ (if e < 0 then "e-" else "e+") ++ toString e.natAbs

namespace FloatText

/-- The sign in front of a negative number. -/
def sign (negative : Bool) : String := if negative then "-" else ""

/-- Positional text: `5`, `0.1`, `-0`, `NaN`, `inf`. -/
def plain (x : Float) : String :=
  match Double.ofFloat x with
  | .nan => "NaN"
  | .infinite negative => sign negative ++ "inf"
  | .finite negative 0 _ => sign negative ++ "0"
  | .finite negative m q =>
    sign negative ++ (Decimal.shortest .up m q).toDigits.positional ""

/-- JSON text: `5.0`, `1e+16`, `null` for NaN and infinity. -/
def json (x : Float) : String :=
  match Double.ofFloat x with
  | .nan | .infinite _ => "null"
  | .finite negative 0 _ => sign negative ++ "0.0"
  | .finite negative m q =>
    let d := (Decimal.shortest .even m q).toDigits
    sign negative ++ if -5 < d.point ∧ d.point ≤ 16 then d.positional ".0" else d.scientific

end FloatText

/-- Whether the float is neither NaN nor infinite. -/
def FloatText.finite (x : Float) : Bool :=
  match Double.ofFloat x with
  | .finite .. => true
  | _ => false

end ChartPipeline
