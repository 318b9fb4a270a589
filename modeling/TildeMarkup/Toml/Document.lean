import TildeMarkup.Toml.Scan
import TildeMarkup.Toml.Table

/-!
# Configuration documents

A TOML document, line by line: headers of tables, and keys with values.
-/

namespace TildeMarkup.Toml

/-- A dotted key as the path to its last part, and the last part. A key that was read has one. -/
def splitKey : List String → List String × String
  | [] => ([], "")
  | [last] => ([], last)
  | part :: rest =>
    let (path, last) := splitKey rest
    (part :: path, last)

mutual

/-- A value. Every second step takes a character, so `steps` is enough when it is more than twice
the number of characters. -/
def value : (steps : Nat) → List Char → Except Problem (Value × List Char)
  | 0, _ => .error .exhausted
  | steps + 1, cs =>
    match cs with
    | '[' :: rest => do
      let (items, after) ← items steps (← skipGaps false rest)
      return (.array items, after)
    | '\x7b' :: rest => do
      match skipBlanks rest with
      | '\x7d' :: after => return (.table [], after)
      | rest =>
        let (entries, after) ← pairs steps [] rest
        return (.table (entriesToValues entries), after)
    | _ => atom cs

/-- The items of an array up to its end. -/
def items : (steps : Nat) → List Char → Except Problem (List Value × List Char)
  | 0, _ => .error .exhausted
  | steps + 1, cs =>
    match cs with
    | ']' :: after => return ([], after)
    | _ => do
      let (item, rest) ← value steps cs
      match ← skipGaps false rest with
      | ']' :: after => return ([item], after)
      | ',' :: rest =>
        let (others, after) ← items steps (← skipGaps false rest)
        return (item :: others, after)
      | _ => .error (.expected "the end of the array")

/-- The entries of a table on one line, after those in `entries`, up to its end. -/
def pairs : (steps : Nat) → Entries → List Char → Except Problem (Entries × List Char)
  | 0, _, _ => .error .exhausted
  | steps + 1, entries, cs => do
    let (parts, rest) ← key (cs.length + 1) cs
    match rest with
    | '=' :: rest =>
      let (value, rest) ← value steps (skipBlanks rest)
      let (path, last) := splitKey parts
      -- The table has no header, so the number says nothing but that all its keys have the same.
      let entries ← entries.assign 0 path last value
      -- No comma may stand behind the last entry of such a table, unlike in an array.
      match skipBlanks rest with
      | '\x7d' :: after => return (entries, after)
      | ',' :: rest => pairs steps entries (skipBlanks rest)
      | _ => .error (.expected "the end of the table")
    | _ => .error (.expected "=")

end

/-- A document that is being read: its entries, the header that is in force, and the number of
headers so far. -/
structure Reading where
  entries : Entries
  header : List String
  count : Nat

namespace Reading

/-- A document of which nothing has been read: no entries, and the table at the top in force. -/
def initial : Reading := ⟨[], [], 0⟩

/-- Reads a header after its opening bracket. The table is opened even if no entry follows. -/
def tableHeader (reading : Reading) (cs : List Char) : Except Problem (Reading × List Char) := do
  let (parts, rest) ← key (cs.length + 1) (skipBlanks cs)
  let (path, last) := splitKey parts
  let entries ← reading.entries.declare path last
  match rest with
  | ']' :: after => return (⟨entries, parts, reading.count + 1⟩, after)
  | _ => .error (.expected "]")

/-- Reads the header of an array of tables after its opening brackets. -/
def arrayHeader (reading : Reading) (cs : List Char) : Except Problem (Reading × List Char) := do
  let (parts, rest) ← key (cs.length + 1) (skipBlanks cs)
  let (path, last) := splitKey parts
  let entries ← reading.entries.append path last
  match rest with
  | ']' :: ']' :: after => return (⟨entries, parts, reading.count + 1⟩, after)
  | _ => .error (.expected "]]")

/-- Reads a key with its value. The value is read before the key is given it, so a fault of the value is
found first. -/
def assignment (reading : Reading) (cs : List Char) : Except Problem (Reading × List Char) := do
  let (parts, rest) ← key (cs.length + 1) cs
  match rest with
  | '=' :: rest =>
    let (value, after) ← value (2 * rest.length + 2) (skipBlanks rest)
    let (path, last) := splitKey parts
    let entries ← Entries.within reading.header
      (fun entries => entries.assign reading.count path last value) reading.entries
    return ({ reading with entries }, after)
  | _ => .error (.expected "=")

/-- Reads what a line holds, after its blanks: a header, a key with its value, or nothing but a
comment. -/
def statement (reading : Reading) (cs : List Char) : Except Problem (Reading × List Char) :=
  match cs with
  | '[' :: '[' :: rest => reading.arrayHeader rest
  | '[' :: rest => reading.tableHeader rest
  | '#' :: _ => .ok (reading, cs)
  | '\n' :: _ => .ok (reading, cs)
  | [] => .ok (reading, cs)
  | _ => reading.assignment cs

/-- Reads line after line. Every line takes a character, so `steps` is enough when it is more than
the number of characters. -/
def lines : (steps : Nat) → Reading → List Char → Except Problem Reading
  | 0, _, _ => .error .exhausted
  | steps + 1, reading, cs => do
    let (reading, rest) ← reading.statement (skipBlanks cs)
    match ← skipComment (skipBlanks rest) with
    | [] => return reading
    | '\n' :: rest => lines steps reading rest
    | _ => .error (.expected "the end of the line")

end Reading

/-- The characters with every carriage return dropped that stands before a line feed. -/
def joinLineEnds : List Char → List Char
  | '\r' :: '\n' :: rest => '\n' :: joinLineEnds rest
  | c :: rest => c :: joinLineEnds rest
  | [] => []

/-- The table that a TOML document describes. Line ends are made line feeds before anything else is
done. -/
def parse (text : String) : Except Problem Value := do
  let cs := joinLineEnds text.toList
  let reading ← Reading.initial.lines (cs.length + 1) cs
  return .table (entriesToValues reading.entries)

end TildeMarkup.Toml
