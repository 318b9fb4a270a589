/-!
# Bytes of a source

A source is a list of bytes. This module names the bytes that carry meaning in the language, the
two classes that its rules test (letters and blanks), and the three kinds of bracket.
-/

namespace TildeMarkup

/-- A source, or a piece of one, byte by byte. -/
abbrev Bytes := List UInt8

/-- The `~` that starts every command. -/
def tilde : UInt8 := 0x7e

/-- The `"` that opens and closes a string argument. -/
def quote : UInt8 := 0x22

/-- The `\` that keeps the quote after it inside a string argument. -/
def backslash : UInt8 := 0x5c

/-- The `,` between the arguments of a list. -/
def comma : UInt8 := 0x2c

/-- Line feed, the end of a line. It ends a paragraph of prose, and closes nothing by itself. -/
def lineFeed : UInt8 := 0x0a

/-- Carriage return, dropped where it stands before a line feed. -/
def carriageReturn : UInt8 := 0x0d

/-- The ASCII letters, of which names and identifiers are made. -/
def isLetter (b : UInt8) : Bool :=
  (0x41 ≤ b && b ≤ 0x5a) || (0x61 ≤ b && b ≤ 0x7a)

/-- Space, tab, line feed, carriage return and form feed. What is skipped between blocks and between the
arguments of a list. -/
def isBlank (b : UInt8) : Bool :=
  b == 0x20 || b == 0x09 || b == lineFeed || b == carriageReturn || b == 0x0c

/-- The three kinds of bracket. Round ones stand around lists of arguments, square ones around runs of
text, and curly ones around blocks. -/
inductive Bracket where
  | round
  | square
  | curly
  deriving DecidableEq, Repr

namespace Bracket

/-- The byte that opens a bracket of this kind. -/
def opener : Bracket → UInt8
  | round => 0x28
  | square => 0x5b
  | curly => 0x7b

/-- The byte that closes a bracket of this kind. -/
def closer : Bracket → UInt8
  | round => 0x29
  | square => 0x5d
  | curly => 0x7d

/-- The kind of bracket that a byte opens, if it is one of the three opening brackets. -/
def ofOpener? (b : UInt8) : Option Bracket :=
  if b == round.opener then some round
  else if b == square.opener then some square
  else if b == curly.opener then some curly
  else none

/-- The kind of bracket that a byte closes, if it is one of the three closing brackets. -/
def ofCloser? (b : UInt8) : Option Bracket :=
  if b == round.closer then some round
  else if b == square.closer then some square
  else if b == curly.closer then some curly
  else none

@[simp] theorem ofOpener?_opener (k : Bracket) : ofOpener? k.opener = some k := by
  cases k <;> decide

@[simp] theorem ofCloser?_closer (k : Bracket) : ofCloser? k.closer = some k := by
  cases k <;> decide

@[simp] theorem ofOpener?_closer (k : Bracket) : ofOpener? k.closer = none := by
  cases k <;> decide

@[simp] theorem ofCloser?_opener (k : Bracket) : ofCloser? k.opener = none := by
  cases k <;> decide

/-- A byte that closes a bracket is the one closer of its kind. -/
theorem eq_closer_of_ofCloser? {b : UInt8} {k : Bracket} (h : ofCloser? b = some k) :
    b = k.closer := by
  unfold ofCloser? at h
  split at h
  · cases h; simp_all
  · split at h
    · cases h; simp_all
    · split at h
      · cases h; simp_all
      · cases h

end Bracket

end TildeMarkup
