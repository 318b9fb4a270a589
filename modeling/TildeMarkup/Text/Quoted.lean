import TildeMarkup.Text.Printable

/-!
# Quoted excerpts

A text between quotes, in one line of printable characters. The quotes are single ones, unless the
text holds single quotes and no double ones. The quote in use and the backslash are written after a
backslash, and characters that are not printable by their code point.
-/

namespace TildeMarkup.Quoted

/-- A number in hexadecimal, in lower case, with at least `width` digits. -/
def hex (width n : Nat) : List Char :=
  let digits := Nat.toDigits 16 n
  List.replicate (width - digits.length) '0' ++ digits

/-- A character between two quotes, of which `mark` is one. What has no escape of its own and is not
printable shows its code point. -/
def encodeChar (mark c : Char) : List Char :=
  if c == mark || c == '\\' then ['\\', c]
  else if c == '\n' then ['\\', 'n']
  else if c == '\r' then ['\\', 'r']
  else if c == '\t' then ['\\', 't']
  else if Printable.isPrintable c then [c]
  else if c.toNat < 0x100 then '\\' :: 'x' :: hex 2 c.toNat
  else if c.toNat < 0x10000 then '\\' :: 'u' :: hex 4 c.toNat
  else '\\' :: 'U' :: hex 8 c.toNat

/-- The quote that is put around some characters. It is the double one where that spares them a
backslash. -/
def markFor (chars : List Char) : Char :=
  if chars.contains '\'' && !chars.contains '"' then '"' else '\''

/-- Some characters between quotes. The quote is chosen by all of them, so no character can be written by
itself. -/
def encode (chars : List Char) : List Char :=
  let mark := markFor chars
  mark :: (chars.flatMap (encodeChar mark) ++ [mark])

end TildeMarkup.Quoted
