import TildeMarkup.Fault
import TildeMarkup.Position

/-!
# Reports

A fault as a reader sees it: the message, the place, and the line with the bytes at fault
underlined.
-/

namespace TildeMarkup

/-- The line of a source in which an offset lies, from the line feed before it to the one after it. An
offset at a line feed lies in the line that this ends. -/
def lineAt (source : Bytes) (offset : Nat) : Bytes :=
  Position.linePrefix source offset ++ (source.drop offset).takeWhile (· != lineFeed)

/-- Bytes without the carriage returns at their end, however many there are. -/
def dropReturns (line : Bytes) : Bytes :=
  (line.reverse.dropWhile (· == carriageReturn)).reverse

namespace Report

/-- The text of the line at fault, as far as it is shown. Bytes that are no text show as replacement
characters. -/
def shownLine (source : Bytes) (offset : Nat) : List Char :=
  Utf8.decodeChars (dropReturns (lineAt source offset))

/-- The number of characters that are underlined: those of the span if it ends on the line where it
starts, else all to the end of the line, and one at least. -/
def underlined (source : Bytes) (span : Span) : Nat :=
  let first := Position.ofOffset source span.start
  let last := Position.ofOffset source span.stop
  if last.line = first.line then max 1 (last.column - first.column)
  else max 1 ((shownLine source span.start).length + 1 - first.column)

/-- A text of one character, as many times as is asked for. -/
def times (n : Nat) (c : Char) : String :=
  String.ofList (List.replicate n c)

/-- The report on a fault of the source in a file. -/
def format (fileName : String) (source : Bytes) (fault : Fault) : String :=
  let place := Position.ofOffset source fault.span.start
  let number := toString place.line
  -- All lines but the numbered one are indented by the width of the number and a space.
  let gutter := times (number.length + 1) ' '
  "error: " ++ fault.cause.message ++ "\n"
    ++ gutter ++ "--> " ++ fileName ++ ":" ++ number ++ ":" ++ toString place.column ++ "\n"
    ++ gutter ++ "|\n"
    ++ number ++ " | " ++ String.ofList (shownLine source fault.span.start) ++ "\n"
    ++ gutter ++ "| " ++ times (place.column - 1) ' ' ++ times (underlined source fault.span) '^'

end Report

end TildeMarkup
