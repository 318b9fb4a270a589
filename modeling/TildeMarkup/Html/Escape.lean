/-!
# Escaped text

Text as the content of an element or of a quoted attribute value: the four characters that could end
either are written as entities.
-/

namespace TildeMarkup.Html

/-- A character as it stands in HTML. The ampersand is among the four, so that what is written can be read
back. -/
def escapeChar : Char → List Char
  | '&' => "&amp;".toList
  | '<' => "&lt;".toList
  | '>' => "&gt;".toList
  | '"' => "&quot;".toList
  | c => [c]

/-- Characters as they stand in HTML. -/
def escapeChars (chars : List Char) : List Char :=
  chars.flatMap escapeChar

/-- A text as it stands in HTML. -/
def escape (text : String) : String :=
  String.ofList (escapeChars text.toList)

/-- Each character is escaped by itself, whatever stands around it. -/
theorem escapeChars_append (cs ds : List Char) :
    escapeChars (cs ++ ds) = escapeChars cs ++ escapeChars ds := by
  rw [escapeChars, escapeChars, escapeChars, List.flatMap_append]

theorem toList_escape (text : String) : (escape text).toList = escapeChars text.toList := by
  rw [escape, String.toList_ofList]

/-- Escaped text holds none of the three characters that end an element or an attribute value. -/
theorem not_mem_escapeChars (cs : List Char) :
    '<' ∉ escapeChars cs ∧ '>' ∉ escapeChars cs ∧ '"' ∉ escapeChars cs := by
  -- An entity is made of letters between an ampersand and a semicolon.
  have single (c : Char) :
      '<' ∉ escapeChar c ∧ '>' ∉ escapeChar c ∧ '"' ∉ escapeChar c := by
    unfold escapeChar
    split <;> simp_all [eq_comm]
  induction cs with
  | nil => simp [escapeChars]
  | cons c rest ih =>
    rw [escapeChars] at ih ⊢
    simp only [List.flatMap_cons, List.mem_append, not_or]
    exact ⟨⟨(single c).1, ih.1⟩, ⟨(single c).2.1, ih.2.1⟩, ⟨(single c).2.2, ih.2.2⟩⟩

end TildeMarkup.Html
