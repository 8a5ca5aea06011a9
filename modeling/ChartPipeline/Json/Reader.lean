import ChartPipeline.Json.Basic
import ChartPipeline.Json.Number
import ChartPipeline.Text.NumberText

/-!
# Reading JSON

`Json.read` reads a whole text.  Lists and objects nest at most 127 deep; of several fields with
one name the last one counts.  A text that breaks off is told apart from one that is wrong
somewhere.
-/

namespace ChartPipeline.Json

/-- Why a text is not JSON. -/
inductive Fault where
  /-- The text ends too early. -/
  | truncated
  /-- The text breaks the grammar, nests too deep, or has a number that no float can hold. -/
  | malformed
deriving DecidableEq, Repr

namespace Read

/-- Blank, tab and line ends. -/
def isBlank (c : Char) : Bool := c = ' ' || c = '\t' || c = '\n' || c = '\r'

/-- Skips blanks. -/
def skip (cs : List Char) : List Char := cs.dropWhile isBlank

/-- Four hexadecimal digits.  The text breaks off if fewer than four bytes remain. -/
def hex4 (cs : List Char) : Except Fault (Nat × List Char) :=
  match cs with
  | a :: b :: c :: d :: rest =>
    match NumberText.hexDigit? a, NumberText.hexDigit? b, NumberText.hexDigit? c,
        NumberText.hexDigit? d with
    | some w, some x, some y, some z => .ok (((w * 16 + x) * 16 + y) * 16 + z, rest)
    | _, _, _, _ => .error .malformed
  | _ =>
    if (String.ofList cs).utf8ByteSize < 4 then .error .truncated else .error .malformed

/-- The character of an escape that starts with `u`; one beyond the basic plane takes two. -/
def unicodeEscape (cs : List Char) : Except Fault (Char × List Char) := do
  let (n, rest) ← hex4 cs
  if 0xDC00 ≤ n ∧ n ≤ 0xDFFF then .error .malformed
  else if n < 0xD800 ∨ n > 0xDBFF then .ok (Char.ofNat n, rest)
  -- the first half of a pair needs the second one
  else match rest with
    | [] => .error .truncated
    | '\\' :: [] => .error .truncated
    | '\\' :: 'u' :: rest =>
      let (low, rest) ← hex4 rest
      if 0xDC00 ≤ low ∧ low ≤ 0xDFFF then
        .ok (Char.ofNat ((n - 0xD800) * 0x400 + (low - 0xDC00) + 0x10000), rest)
      else .error .malformed
    | _ => .error .malformed

/-- The character that an escape stands for. -/
def escape : List Char → Except Fault (Char × List Char)
  | [] => .error .truncated
  | '"' :: rest => .ok ('"', rest)
  | '\\' :: rest => .ok ('\\', rest)
  | '/' :: rest => .ok ('/', rest)
  | 'b' :: rest => .ok (Char.ofNat 8, rest)
  | 'f' :: rest => .ok (Char.ofNat 12, rest)
  | 'n' :: rest => .ok ('\n', rest)
  | 'r' :: rest => .ok ('\r', rest)
  | 't' :: rest => .ok ('\t', rest)
  | 'u' :: rest => unicodeEscape rest
  | _ => .error .malformed

/-- The rest of a string after its opening quote. -/
def stringRest : Nat → List Char → List Char → Except Fault (String × List Char)
  | 0, _, _ => .error .truncated
  | fuel + 1, acc, cs =>
    match cs with
    | [] => .error .truncated
    | '"' :: rest => .ok (String.ofList acc.reverse, rest)
    | '\\' :: rest => do
      let (c, rest) ← escape rest
      stringRest fuel (c :: acc) rest
    | c :: rest => if c.toNat < 32 then .error .malformed else stringRest fuel (c :: acc) rest

/-- The digits at the front. -/
def digits (cs : List Char) : List Nat × List Char :=
  ((cs.takeWhile Char.isDigit).map fun c => c.toNat - '0'.toNat, cs.dropWhile Char.isDigit)

/-- At least one digit. -/
def someDigits (cs : List Char) : Except Fault (List Nat × List Char) :=
  match digits cs, cs with
  | ([], _), [] => .error .truncated
  | ([], _), _ => .error .malformed
  | (ds, rest), _ => .ok (ds, rest)

/-- The digits before the point: no zero in front of another digit. -/
def wholeDigits (cs : List Char) : Except Fault (List Nat × List Char) := do
  let (ds, rest) ← someDigits cs
  match ds with
  | 0 :: _ :: _ => .error .malformed
  | _ => .ok (ds, rest)

/-- The digits after a point, if there is one. -/
def fractionDigits : List Char → Except Fault (Option (List Nat) × List Char)
  | '.' :: rest => do
    let (ds, rest) ← someDigits rest
    .ok (some ds, rest)
  | rest => .ok (none, rest)

/-- The exponent, if there is one. -/
def exponentDigits : List Char → Except Fault (Option (Bool × List Nat) × List Char)
  | 'e' :: rest | 'E' :: rest => do
    let (down, rest) := match rest with
      | '+' :: rest => (false, rest)
      | '-' :: rest => (true, rest)
      | _ => (false, rest)
    let (ds, rest) ← someDigits rest
    .ok (some (down, ds), rest)
  | rest => .ok (none, rest)

/-- A number. -/
def number (cs : List Char) : Except Fault (Json × List Char) := do
  let (negative, rest) := match cs with
    | '-' :: rest => (true, rest)
    | _ => (false, cs)
  let (whole, rest) ← wholeDigits rest
  let (fraction, rest) ← fractionDigits rest
  let (exponent, rest) ← exponentDigits rest
  match Numeral.value { negative, whole, fraction, exponent } with
  | some (.int n) => .ok (int n, rest)
  | some (.float x) => .ok (float x, rest)
  | none => .error .malformed

/-- The given word. -/
def word (value : Json) : List Char → List Char → Except Fault (Json × List Char)
  | [], rest => .ok (value, rest)
  | _ :: _, [] => .error .truncated
  | w :: ws, c :: rest => if w = c then word value ws rest else .error .malformed

mutual

/-- A value; `depth` is how many lists and objects may still open. -/
def value : Nat → Nat → List Char → Except Fault (Json × List Char)
  | 0, _, _ => .error .truncated
  | fuel + 1, depth, cs =>
    match skip cs with
    | [] => .error .truncated
    | 'n' :: rest => word null ['u', 'l', 'l'] rest
    | 't' :: rest => word (bool true) ['r', 'u', 'e'] rest
    | 'f' :: rest => word (bool false) ['a', 'l', 's', 'e'] rest
    | '"' :: rest => do
      let (s, rest) ← stringRest (rest.length + 1) [] rest
      .ok (str s, rest)
    | '[' :: rest =>
      if depth = 0 then .error .malformed
      else do
        let (js, rest) ← items fuel (depth - 1) true [] rest
        .ok (arr js.reverse, rest)
    | '{' :: rest =>
      if depth = 0 then .error .malformed
      else do
        let (fs, rest) ← fields fuel (depth - 1) true [] rest
        .ok (object fs.reverse, rest)
    | c :: rest =>
      if c = '-' || c.isDigit then number (c :: rest) else .error .malformed

/-- The items of a list after its opening bracket, the last one in front. -/
def items : Nat → Nat → Bool → List Json → List Char → Except Fault (List Json × List Char)
  | 0, _, _, _, _ => .error .truncated
  | fuel + 1, depth, first, acc, cs =>
    match first, skip cs with
    | _, [] => .error .truncated
    | _, ']' :: rest => .ok (acc, rest)
    | false, ',' :: rest =>
      match skip rest with
      | [] => .error .truncated
      -- a comma needs an item behind it
      | ']' :: _ => .error .malformed
      | rest => do
        let (j, rest) ← value fuel depth rest
        items fuel depth false (j :: acc) rest
    | true, rest => do
      let (j, rest) ← value fuel depth rest
      items fuel depth false (j :: acc) rest
    | false, _ => .error .malformed

/-- The fields of an object after its opening brace, the last one in front. -/
def fields : Nat → Nat → Bool → List (String × Json) → List Char →
    Except Fault (List (String × Json) × List Char)
  | 0, _, _, _, _ => .error .truncated
  | fuel + 1, depth, first, acc, cs =>
    match first, skip cs with
    | _, [] => .error .truncated
    | _, '}' :: rest => .ok (acc, rest)
    | false, ',' :: rest =>
      match skip rest with
      | [] => .error .truncated
      | '"' :: rest => fieldRest fuel depth acc rest
      | _ => .error .malformed
    | true, '"' :: rest => fieldRest fuel depth acc rest
    | _, _ => .error .malformed

/-- A field after the opening quote of its name, and the fields after it. -/
def fieldRest : Nat → Nat → List (String × Json) → List Char →
    Except Fault (List (String × Json) × List Char)
  | 0, _, _, _ => .error .truncated
  | fuel + 1, depth, acc, cs => do
    let (name, rest) ← stringRest (cs.length + 1) [] cs
    match skip rest with
    | [] => .error .truncated
    | ':' :: rest =>
      let (j, rest) ← value fuel depth rest
      fields fuel depth false ((name, j) :: acc) rest
    | _ => .error .malformed

end

end Read

/-- How deep lists and objects may nest. -/
def maxDepth : Nat := 127

/-- Reads a text that holds one JSON value and nothing else but blanks. -/
def read (text : String) : Except Fault Json := do
  let cs := text.toList
  -- more fuel than a text of this length can use
  let (j, rest) ← Read.value (3 * cs.length + 3) maxDepth cs
  if (Read.skip rest).isEmpty then .ok j else .error .malformed

end ChartPipeline.Json
