import TildeMarkup.Document.Tree

/-!
# The state of a reader

A reader takes a source one byte at a time. Between two bytes it knows which brackets are open,
which arguments enclose the place where it stands, and what it is in the middle of. Brackets of
prose and brackets of arguments share one stack. An argument remembers how high the stack was when
it opened, so that a closer belongs to the argument exactly when nothing above that height is open.

Lists that grow as bytes arrive hold the newest element first.
-/

namespace TildeMarkup.Reader

/-- Where a command stands. It decides whether braces may follow its name, and where the finished command
goes. -/
inductive Place where
  /-- By itself: it is a block, or the whole of a bracketed argument. -/
  | alone
  /-- Inside a run of text, after the pieces of the run that came before it. -/
  | within (pieces : List Tree)

/-- A command whose arguments are being read, with those that are there already. -/
structure Call where
  place : Place
  name : Span
  /-- The arguments stand in a parenthesised list. -/
  listed : Bool
  args : List (Argument Tree)

/-- What encloses the place where the reader stands: the document, or an argument and what encloses
the command it belongs to. -/
inductive Scope where
  | document (blocks : List Tree)
  | braces (outer : Scope) (call : Call) (start depth : Nat) (blocks : List Tree)
  | brackets (outer : Scope) (call : Call) (start depth : Nat) (content : Option Tree)

/-- What the reader is in the middle of. -/
inductive Mode where
  /-- Between the parts of the enclosing scope. -/
  | ready
  /-- In a run of text: its pieces so far, the start of the text piece being read, and whether the
  last byte was a carriage return. -/
  | text (pieces : List Tree) (start : Nat) (afterReturn : Bool)
  /-- In the name of a command. -/
  | name (place : Place) (start : Nat)
  /-- After the name of a command, before its arguments. -/
  | head (place : Place) (name : Span)
  /-- In a list, where an argument may start; `fresh` right after the byte that led here. -/
  | list (call : Call) (fresh : Bool)
  /-- In an identifier. -/
  | ident (call : Call) (start : Nat)
  /-- In a string; `escaped` right after a backslash. -/
  | string (call : Call) (start : Nat) (escaped : Bool)
  /-- In a list, after an argument. -/
  | next (call : Call)

end Reader

/-- A reader between two bytes of its source. -/
structure Reader where
  /-- The number of bytes read. -/
  offset : Nat
  /-- The brackets that are open, the innermost first. -/
  opened : List Bracket
  scope : Reader.Scope
  mode : Reader.Mode

namespace Reader

/-- The reader that has read nothing. No bracket is open, and any block may come. -/
def initial : Reader :=
  { offset := 0, opened := [], scope := .document [], mode := .ready }

namespace Scope

/-- The height of the stack of open brackets at which a closer belongs to the scope. What prose has opened
since then stands above it. -/
def depth : Scope → Nat
  | document _ => 0
  | braces _ _ _ depth _ => depth
  | brackets _ _ _ depth _ => depth

/-- Commands that stand by themselves may have an argument in braces, except in square brackets. -/
def allowsBlocks : Scope → Bool
  | document _ => true
  | braces .. => true
  | brackets .. => false

/-- Adds a finished part: a block, or the content of the square brackets. -/
def add : Scope → Tree → Scope
  | document blocks, part => document (part :: blocks)
  | braces outer call start depth blocks, part => braces outer call start depth (part :: blocks)
  | brackets outer call start depth _, part => brackets outer call start depth (some part)

/-- Adds a finished run of text: a paragraph, or the inline group in square brackets. -/
def addRun (scope : Scope) (pieces : List Tree) : Scope :=
  match scope with
  | brackets .. => scope.add (.node (.group pieces.reverse))
  | _ => scope.add (.node (.paragraph pieces.reverse))

end Scope

/-- The pieces of a run with the text from `start` to `stop` after them, if there is any. -/
def addText (pieces : List Tree) (start stop : Nat) : List Tree :=
  if start < stop then .node (.text ⟨start, stop⟩) :: pieces else pieces

end Reader

end TildeMarkup
