import TildeMarkup.Document.Walk
import TildeMarkup.Text.Quoted

/-!
# Outlines

A document as an indented list: a line for every node and every argument, each before what is below
it. Texts are shown as quoted excerpts, so that no text can break a line.
-/

namespace TildeMarkup

namespace Outline

/-- A line, and how deep it stands. The label never holds a line feed, since texts are quoted in it. -/
structure Line where
  depth : Nat
  label : String
  deriving DecidableEq, Repr

namespace Line

/-- The line one level further down, as it stands in the outline of what is around it. -/
def below (line : Line) : Line :=
  { line with depth := line.depth + 1 }

/-- The line as it is written, two spaces for every level. -/
def toText (line : Line) : String :=
  String.ofList (List.replicate (2 * line.depth) ' ') ++ line.label ++ "\n"

end Line

/-- The text that a span covers, quoted. What is not printable is written as an escape. -/
def excerpt (source : Bytes) (span : Span) : String :=
  String.ofList (Quoted.encode (Utf8.decodeChars (span.slice source)))

/-- The bounds of an argument, its delimiters included. Only arguments show where they stand. -/
def bounds (span : Span) : String :=
  "@" ++ toString span.start ++ ".." ++ toString span.stop

/-- The lines of an argument, from those of its nodes. What is below an argument stands one level deeper
than its own line. -/
def argumentLines (source : Bytes) (arg : Argument (List Line)) : List Line :=
  let label :=
    match arg with
    | .block .. => "Block "
    | .inline .. => "Inline "
    | .ident span => "Ident(" ++ excerpt source span ++ ") "
    | .string span => "String(" ++ excerpt source span ++ ") "
  ⟨0, label ++ bounds arg.span⟩ :: arg.children.flatten.map Line.below

/-- The lines of one layer, from those of its children. Unlike a rendering this asks nothing of a command
but a name. -/
def nodeLines (source : Bytes) : Node (List Line) → List Line
  | .group children => ⟨0, "Group"⟩ :: children.flatten.map Line.below
  | .paragraph children => ⟨0, "Paragraph"⟩ :: children.flatten.map Line.below
  | .text span => [⟨0, "Text(" ++ excerpt source span ++ ")"⟩]
  | .command name args =>
    ⟨0, "Command ~" ++ commandName source name⟩
      :: (args.flatMap (argumentLines source)).map Line.below

/-- Checks a layer. Only the name of a command can be at fault. -/
def checkNode (source : Bytes) : Node Unit → Except Failure Unit
  | .command name _ => checkName source name
  | _ => .ok ()

/-- How outlining visits a layer. -/
def visit (source : Bytes) : Visit (List Line) :=
  ⟨checkNode source, nodeLines source⟩

/-- The lines of the document in an arena. -/
def ofArena {ι : Type} [Handle ι] (source : Bytes) (arena : Arena ι) : Except Failure (List Line) :=
  arena.walk (visit source)

/-- The lines of a tree. -/
def ofTree (source : Bytes) (tree : Tree) : Except Failure (List Line) :=
  tree.walk (visit source)

/-- An outline as a text. -/
def toText (lines : List Line) : String :=
  String.join (lines.map Line.toText)

end Outline

/-- The outline of the document in an arena. It fails only as a walk can fail, or for a name that is not
ASCII. -/
def outline {ι : Type} [Handle ι] (source : Bytes) (arena : Arena ι) : Except Failure String :=
  (Outline.ofArena source arena).map Outline.toText

end TildeMarkup
