/-!
# Lines and quotes inside strings

What the text of a string argument goes through before it is shown: the escaped quotes are resolved,
and a listing is cut into lines.
-/

namespace TildeMarkup.Text

/-- Replaces every backslash with a quote after it by the quote, from left to right. -/
def unescapeChars : List Char → List Char
  | '\\' :: '"' :: rest => '"' :: unescapeChars rest
  | c :: rest => c :: unescapeChars rest
  | [] => []

/-- Resolves the one escape of a string argument, a backslash before a quote. -/
def unescape (text : String) : String :=
  String.ofList (unescapeChars text.toList)

/-- The pieces between line feeds, without a final empty one. Several line feeds in a row have empty
pieces between them. -/
def splitLines : List Char → List (List Char)
  | [] => []
  | c :: rest =>
    if c == '\n' then [] :: splitLines rest
    else
      match splitLines rest with
      -- The last line has no line feed at its end.
      | [] => [[c]]
      | line :: lines => (c :: line) :: lines

/-- A line without the carriage return at its end, if it has one. -/
def dropReturn (line : List Char) : List Char :=
  if line.getLast? == some '\r' then line.dropLast else line

/-- The lines of some characters, without their ends. An end is a line feed, or a carriage return and a
line feed. -/
def lineChars (chars : List Char) : List (List Char) :=
  (splitLines chars).map dropReturn

/-- The lines of a text, without their ends. A text that ends with a line feed has no empty line
after it, and the empty text has no lines. -/
def lines (text : String) : List String :=
  (lineChars text.toList).map String.ofList

end TildeMarkup.Text
