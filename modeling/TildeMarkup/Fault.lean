import TildeMarkup.Document.Node
import TildeMarkup.Text.Utf8

/-!
# Faults of a source

A fault is a cause and the span that it concerns. The causes are those that the rules of the
language can find; `Cause.message` is the one place where they are put into words. No bytes stand
for the end of the source.
-/

namespace TildeMarkup

/-- The stage of compilation that finds a fault. The exit code of a run tells the first two apart. -/
inductive Stage where
  /-- Reading the source into a tree. -/
  | reading
  /-- Rendering the tree. -/
  | rendering
  /-- Neither in particular. -/
  | general
  deriving DecidableEq, Repr

/-- Why a source is refused, with what the message names. What was found is a piece of the source, and
empty at its end. -/
inductive Cause where
  /-- One particular byte has to stand here. -/
  | expected (wanted found : Bytes)
  /-- What stands here starts no argument. -/
  | expectedArguments (found : Bytes)
  /-- A bracket is closed that is not the innermost open one; `wanted` closes that one, if any is
  open. -/
  | unbalanced (wanted : Option Bytes) (found : Bytes)
  /-- A command has too many or too few arguments. -/
  | argumentCount (wanted found : Int)
  /-- An argument is of another kind than its parameter. -/
  | argumentKind (wanted : Kind)
  /-- No command has this name. -/
  | unknownCommand (name : String)
  /-- The file name of a listing ends in no extension of a known language. -/
  | unknownLanguage (extension : String)
  /-- A cause in words of its own. -/
  | stated (stage : Stage) (words : String)
  deriving DecidableEq, Repr

namespace Cause

/-- A single byte, as messages name it. A line feed is spelled out, so that a message stays on its
line. -/
def describe (found : Bytes) : String :=
  if found.isEmpty then "end of input"
  else if found == [lineFeed] then "newline"
  else "`" ++ Utf8.decode found ++ "`"

/-- The cause in words. A name or an extension stands in them as it is written in the source. -/
def message : Cause → String
  | expected wanted found => "expected " ++ describe wanted ++ ", found " ++ describe found
  | expectedArguments found => "expected arguments, found " ++ describe found
  | unbalanced none found => "unmatched closing " ++ describe found
  | unbalanced (some wanted) found =>
    "mismatched closing " ++ describe found ++ ", expected " ++ describe wanted
  | argumentCount wanted found =>
    "expected " ++ toString wanted ++ (if wanted = 1 then " argument" else " arguments")
      ++ ", found " ++ toString found
  | argumentKind .inline => "expected an inline argument"
  | argumentKind .block => "expected a block argument"
  | argumentKind .ident => "expected an identifier argument"
  | argumentKind .string => "expected a string argument"
  | unknownCommand name => "unknown command `~" ++ name ++ "`"
  | unknownLanguage extension =>
    if extension.isEmpty then "code block file name has no extension"
    else "unknown code block file extension `" ++ extension ++ "`"
  | stated _ words => words

/-- The stage that finds a cause. Only a cause in words of its own may belong to any of them. -/
def stage : Cause → Stage
  | expected .. => .reading
  | expectedArguments .. => .reading
  | unbalanced .. => .reading
  | argumentCount .. => .rendering
  | argumentKind .. => .rendering
  | unknownCommand .. => .rendering
  | unknownLanguage .. => .rendering
  | stated stage _ => stage

end Cause

/-- A cause, and the bytes of the source that it concerns. The span is empty where something is missing at
the end. -/
structure Fault where
  cause : Cause
  span : Span
  deriving DecidableEq, Repr

end TildeMarkup
