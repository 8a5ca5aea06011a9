import ChartPipeline.Text.Nearest

/-!
# Numbers in texts

Integers and floats as they are written in configurations and documents: an optional sign, decimal
digits, and for floats a point and an exponent.
-/

namespace ChartPipeline.NumberText

/-- The value of a hexadecimal digit. -/
def hexDigit? (c : Char) : Option Nat :=
  if '0' ≤ c ∧ c ≤ '9' then some (c.toNat - '0'.toNat)
  else if 'a' ≤ c ∧ c ≤ 'f' then some (c.toNat - 'a'.toNat + 10)
  else if 'A' ≤ c ∧ c ≤ 'F' then some (c.toNat - 'A'.toNat + 10)
  else none

/-- The number that digits of a base stand for, at least one digit, the first one in front. -/
def digits? (base : Nat) (cs : List Char) : Option Nat :=
  if cs.isEmpty then none
  else cs.foldlM (fun n c => do
    let d ← hexDigit? c
    if d < base then some (n * base + d) else none) 0

/-- The integer of an optional sign and decimal digits. -/
def integer? : List Char → Option Int
  | '-' :: rest => (digits? 10 rest).map fun n => -(n : Int)
  | '+' :: rest => (digits? 10 rest).map fun n => (n : Int)
  | cs => (digits? 10 cs).map fun n => (n : Int)

/-- An integer that fits into 64 bits with a sign. -/
def word? (cs : List Char) : Option Int :=
  (integer? cs).filter fun n => -(2 ^ 63) ≤ n && n < 2 ^ 63

/-- An exponent, if there is one: an optional sign and digits. -/
def exponent? : List Char → Option Int
  | [] => some 0
  | e :: rest => if e = 'e' || e = 'E' then integer? rest else none

/-- A float without a sign: digits with an optional point, and an exponent. -/
def unsignedFloat? (cs : List Char) : Option Float := do
  let whole := cs.takeWhile Char.isDigit
  let rest := cs.drop whole.length
  let (fraction, rest) := match rest with
    | '.' :: rest =>
      let fraction := rest.takeWhile Char.isDigit
      (fraction, rest.drop fraction.length)
    | _ => ([], rest)
  let digits ← digits? 10 (whole ++ fraction)
  let exponent ← exponent? rest
  pure (nearestDecimal digits (exponent - fraction.length))

/-- A float with an optional sign. -/
def float? : List Char → Option Float
  | '-' :: rest => (unsignedFloat? rest).map fun x => -x
  | '+' :: rest => unsignedFloat? rest
  | cs => unsignedFloat? cs

/-- Infinity or the value that is no number, by its name; case does not matter. -/
def namedFloat? (cs : List Char) : Option Float :=
  let name := String.ofList (cs.map Char.toLower)
  if name = "inf" || name = "infinity" then some (1.0 / 0.0)
  else if name = "nan" then some (0.0 / 0.0)
  else none

/-- A float with an optional sign, or one by its name. -/
def floatOrName? (cs : List Char) : Option Float :=
  (float? cs).orElse fun _ =>
    match cs with
    | '-' :: rest => (namedFloat? rest).map fun x => -x
    | '+' :: rest => namedFloat? rest
    | _ => namedFloat? cs

end ChartPipeline.NumberText
