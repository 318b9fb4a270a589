import TildeMarkup.Text.Utf8

/-!
# Positions

Where an offset is in a source, for a reader: its line, and how many characters of the line come
before it. Characters are those of the line up to the offset, read as text, so a character that the
offset cuts through counts as one.
-/

namespace TildeMarkup

/-- A place in a source: line and column from 1 on, and the offset. -/
structure Position where
  line : Nat
  column : Nat
  offset : Nat
  deriving DecidableEq, Repr

namespace Position

/-- The part of a source from the start of the line of an offset up to the offset. -/
def linePrefix (source : Bytes) (offset : Nat) : Bytes :=
  ((source.take offset).reverse.takeWhile (· != lineFeed)).reverse

/-- The position of an offset. One past the end counts as the end. -/
def ofOffset (source : Bytes) (offset : Nat) : Position :=
  let before := source.take offset
  { line := before.count lineFeed + 1
    -- Bytes are decoded only up to the offset, so what is cut off counts as one character.
    column := (Utf8.decodeChars (linePrefix source offset)).length + 1
    offset := min offset source.length }

end Position

end TildeMarkup
