/-!
# Problems of a configuration

Why nothing comes of a text that should be a TOML document. Nearly always it is none. But integers are
converted from decimal digits, and to them, only up to a number of digits, so a document may also have an
integer in it that is too long to be read.
-/

namespace TildeMarkup.Toml

/-- The most decimal digits that an integer may be converted from, and to. Signs and underscores are not
counted, and other bases have no such limit. -/
def maxDigits : Nat := 4300

/-- Why nothing comes of a text. -/
inductive Problem where
  /-- Something else should stand here. -/
  | expected (wanted : String)
  /-- A character that may not stand here. -/
  | illegal (c : Char)
  /-- A name that is already in use, or cannot be extended. -/
  | redefined (name : String)
  /-- A day that is not in the calendar. -/
  | noSuchDay
  /-- A decimal integer with more digits than are converted. The text may be a document for all that. -/
  | tooManyDigits
  /-- More nesting than there are characters. -/
  | exhausted
  deriving DecidableEq, Repr

/-- The problem in words. -/
def Problem.message : Problem → String
  | expected wanted => "expected " ++ wanted
  | illegal c => "illegal character U+" ++ String.ofList (Nat.toDigits 16 c.toNat)
  | redefined name => "cannot define " ++ name ++ " here"
  | noSuchDay => "no such day"
  | tooManyDigits => "too many digits"
  | exhausted => "nested too deep"

end TildeMarkup.Toml
