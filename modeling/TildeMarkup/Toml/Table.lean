import TildeMarkup.Toml.Problem
import TildeMarkup.Toml.Value

/-!
# Tables while they are read

A table may be opened by its header, come into being on the way to another one, or be made by a
dotted key. Each way leaves it open to other additions, so an entry remembers how it arose. A value
that is written out is complete, and so are the arrays and tables inside it.
-/

namespace TildeMarkup.Toml

/-- How a table arose. -/
inductive Origin where
  /-- On the way to a table below it. It may still have a header of its own. -/
  | implied
  /-- By a header of its own. -/
  | declared
  /-- By a dotted key, under the header of this number. Only keys under that header extend it. -/
  | dotted (header : Nat)
  deriving DecidableEq, Repr

/-- What a key stands for while the document is read. Tables stay open, each in the way in which it
arose. -/
inductive Entry where
  | value (value : Value)
  | table (origin : Origin) (entries : List (String × Entry))
  /-- The tables of an array of tables: those before the last one, the latest first, and the last
  one, which is still open. -/
  | tables (done : List (List (String × Entry))) (last : List (String × Entry))

/-- The entries of a table, in the order in which they were made. -/
abbrev Entries := List (String × Entry)

namespace Entries

/-- Makes or changes the entry of a key. New entries go to the end, so that the order is that of the
document. -/
def alter (entries : Entries) (key : String) (f : Option Entry → Except Problem Entry) :
    Except Problem Entries :=
  match entries with
  | [] => do return [(key, ← f none)]
  | (name, entry) :: rest =>
    if name == key then do return (name, ← f (some entry)) :: rest
    else do return (name, entry) :: (← alter rest key f)

/-- Changes the entries below a path of tables. Tables that are missing are implied, and of an array
of tables the last one is meant. -/
def within (path : List String) (f : Entries → Except Problem Entries) (entries : Entries) :
    Except Problem Entries :=
  match path with
  | [] => f entries
  | key :: path =>
    alter entries key fun
      | none => do return .table .implied (← within path f [])
      | some (.table origin below) => do return .table origin (← within path f below)
      | some (.tables done last) => do return .tables done (← within path f last)
      | some (.value _) => .error (.redefined key)

/-- Opens a table by its header. A table may have been implied before, but may not have had a header
already. -/
def declare (path : List String) (key : String) : Entries → Except Problem Entries :=
  within path fun entries =>
    alter entries key fun
      | none => .ok (.table .declared [])
      | some (.table .implied below) => .ok (.table .declared below)
      | some _ => .error (.redefined key)

/-- Adds a table to an array of tables. An array that is written out as a value is complete, and takes
none. -/
def append (path : List String) (key : String) : Entries → Except Problem Entries :=
  within path fun entries =>
    alter entries key fun
      | none => .ok (.tables [] [])
      | some (.tables done last) => .ok (.tables (last :: done) [])
      | some _ => .error (.redefined key)

/-- Gives a value to a dotted key, under the header of a number. -/
def assign (header : Nat) (path : List String) (key : String) (value : Value)
    (entries : Entries) : Except Problem Entries :=
  match path with
  | [] =>
    alter entries key fun
      | none => .ok (.value value)
      | some _ => .error (.redefined key)
  | first :: path =>
    alter entries first fun
      | none => do return .table (.dotted header) (← assign header path key value [])
      | some (.table origin below) =>
        -- A table with a header of its own is closed to dotted keys from elsewhere.
        if origin = .implied ∨ origin = .dotted header then do
          return .table (.dotted header) (← assign header path key value below)
        else .error (.redefined first)
      | some _ => .error (.redefined first)

end Entries

mutual

/-- The value of an entry. What the way it arose allowed no longer matters once the document is read. -/
def Entry.toValue : Entry → Value
  | .value value => value
  | .table _ entries => .table (entriesToValues entries)
  | .tables done last => .array (tablesToValues done [.table (entriesToValues last)])

/-- The values of some entries. -/
def entriesToValues : List (String × Entry) → List (String × Value)
  | [] => []
  | (key, entry) :: rest => (key, entry.toValue) :: entriesToValues rest

/-- The values of some tables, the latest first, in front of those of the tables after them. -/
def tablesToValues : List (List (String × Entry)) → List Value → List Value
  | [], later => later
  | entries :: earlier, later => tablesToValues earlier (.table (entriesToValues entries) :: later)

end

end TildeMarkup.Toml
