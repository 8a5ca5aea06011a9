import ChartPipeline.Toml.Scalar
import ChartPipeline.Toml.Table

/-!
# TOML documents

A TOML text is a sequence of lines: entries, and headers that declare the table which the entries
after them belong to.
-/

namespace ChartPipeline.Toml

mutual

/-- Reads a value. -/
def value : Nat → List Char → Option (Value × List Char)
  | 0, _ => none
  | fuel + 1, cs =>
    match cs with
    | '"' :: rest => (string? '"' true rest).map fun (s, rest) => (.str s, rest)
    | '\'' :: rest => (string? '\'' true rest).map fun (s, rest) => (.str s, rest)
    | '[' :: rest => (items fuel rest).map fun (vs, rest) => (.list vs, rest)
    | '\x7b' :: rest =>
      match skipBlanks rest with
      | '\x7d' :: rest => some (.map [], rest)
      | rest => (inlineEntries fuel [] rest).map fun (es, rest) =>
          (.map (entriesToValues es), rest)
    | cs => atom cs

/-- Reads the items of a list. -/
def items : Nat → List Char → Option (List Value × List Char)
  | 0, _ => none
  | fuel + 1, cs =>
    match skipLines (cs.length + 1) cs with
    -- also after a comma behind the last item
    | ']' :: rest => some ([], rest)
    | cs => do
      let (v, rest) ← value fuel cs
      match skipLines (rest.length + 1) rest with
      | ',' :: rest =>
        let (vs, rest) ← items fuel rest
        pure (v :: vs, rest)
      | ']' :: rest => pure ([v], rest)
      | _ => none

/-- Reads the entries of a table on one line. -/
def inlineEntries : Nat → Entries → List Char → Option (Entries × List Char)
  | 0, _, _ => none
  | fuel + 1, es, cs => do
    let (name, v, rest) ← entry fuel cs
    let es ← addEntry name v es
    match skipBlanks rest with
    | ',' :: rest => inlineEntries fuel es rest
    | '\x7d' :: rest => pure (es, rest)
    | _ => none

/-- Reads an entry: a key and a value. -/
def entry : Nat → List Char → Option (List String × Value × List Char)
  | 0, _ => none
  | fuel + 1, cs => do
    let (name, rest) ← key (cs.length + 1) cs
    let rest ← skipChar? '=' (skipBlanks rest)
    let (v, rest) ← value fuel (skipBlanks rest)
    pure (name, v, rest)

end

/-- Reads lines: entries go below the table that was declared last. -/
def lines : Nat → List String → Entries → List Char → Option Entries
  | 0, _, _, _ => none
  | fuel + 1, table, es, cs =>
    match skipLines (cs.length + 1) cs with
    | [] => some es
    | '[' :: '[' :: rest => do
      let (name, rest) ← key (rest.length + 1) rest
      let rest ← skipChar? ']' (← skipChar? ']' (skipBlanks rest))
      lines fuel name (← appendTable name es) (← endLine? rest)
    | '[' :: rest => do
      let (name, rest) ← key (rest.length + 1) rest
      let rest ← skipChar? ']' (skipBlanks rest)
      lines fuel name (← declareTable name es) (← endLine? rest)
    | cs => do
      let (name, v, rest) ← entry (2 * cs.length + 2) cs
      lines fuel table (← addUnder table name v es) (← endLine? rest)

/-- The value of a TOML text, which is a table. -/
def read (text : String) : Option Value :=
  let cs := match text.toList with
    | c :: rest => if c.toNat = 0xFEFF then rest else c :: rest
    | [] => []
  (lines (cs.length + 1) [] [] cs).map fun es => .map (entriesToValues es)

end ChartPipeline.Toml
