import TildeMarkup.Proofs.Position
import TildeMarkup.Proofs.Tags

/-!
# Reading entities back

Escaped text is read back by whoever reads the four entities as the characters that they stand for
(`plainText_escape`), so no two texts are escaped alike. In a longer output it ends in front of the next
tag, or of the quote that closes it, and is told by what stands up to there (`eq_of_encode_escape`).
-/

namespace TildeMarkup.Html

/-- Reads each of the four entities as its character, from left to right, and all else as it is. -/
def readEntities : List Char → List Char
  | '&' :: 'a' :: 'm' :: 'p' :: ';' :: rest => '&' :: readEntities rest
  | '&' :: 'l' :: 't' :: ';' :: rest => '<' :: readEntities rest
  | '&' :: 'g' :: 't' :: ';' :: rest => '>' :: readEntities rest
  | '&' :: 'q' :: 'u' :: 'o' :: 't' :: ';' :: rest => '"' :: readEntities rest
  | c :: rest => c :: readEntities rest
  | [] => []

/-- The text that is shown for some HTML without tags. -/
def plainText (html : String) : String :=
  String.ofList (readEntities html.toList)

/-- Only an ampersand starts an entity. -/
theorem readEntities_cons {c : Char} (h : c ≠ '&') (rest : List Char) :
    readEntities (c :: rest) = c :: readEntities rest := by
  rw [readEntities] <;> exact fun _ hc => absurd hc h

/-- A character is read back, whatever stands behind it. -/
theorem readEntities_escapeChar (c : Char) (rest : List Char) :
    readEntities (escapeChar c ++ rest) = c :: readEntities rest := by
  unfold escapeChar
  split
  · exact readEntities.eq_1 rest
  · exact readEntities.eq_2 rest
  · exact readEntities.eq_3 rest
  · exact readEntities.eq_4 rest
  · next hamp _ _ _ => exact readEntities_cons hamp rest

/-- Read back one after the other, escaped characters are the characters. -/
theorem readEntities_escapeChars (cs : List Char) : readEntities (escapeChars cs) = cs := by
  induction cs with
  | nil => rfl
  | cons c rest ih =>
    rw [escapeChars, List.flatMap_cons, ← escapeChars, readEntities_escapeChar, ih]

/-- Reading the entities undoes escaping, so nothing of a text is lost in the output. -/
theorem plainText_escape (text : String) : plainText (escape text) = text := by
  rw [plainText, toList_escape, readEntities_escapeChars, String.ofList_toList]

/-- No two texts are escaped alike. -/
theorem escape_injective {text other : String} (h : escape text = escape other) : text = other := by
  rw [← plainText_escape text, h, plainText_escape]

/-! ## Escaped text in front of something else -/

/-- Neither the byte that starts a tag nor a quote is left in escaped text. -/
theorem not_mem_encode_escape {last : UInt8} (hlast : last = Tags.opener ∨ last = quote)
    (text : String) : last ∉ Utf8.encode (escape text) := by
  obtain ⟨hopener, _, hquote⟩ := not_mem_escapeChars text.toList
  rw [Utf8.encode, toList_escape]
  rcases hlast with rfl | rfl
  · exact fun hmem => hopener (Utf8.exists_of_mem_encodeChars (by decide) hmem)
  · exact fun hmem => hquote (Utf8.exists_of_mem_encodeChars (by decide) hmem)

/-- Escaped text goes up to the next tag, or to the quote that closes it. -/
theorem eq_of_encode_escape {last : UInt8} (hlast : last = Tags.opener ∨ last = quote)
    {text other : String} {back more : Bytes}
    (h : Utf8.encode (escape text) ++ last :: back = Utf8.encode (escape other) ++ last :: more) :
    text = other ∧ back = more := by
  obtain ⟨htext, hback⟩ := eq_of_append_cons (not_mem_encode_escape hlast text)
    (not_mem_encode_escape hlast other) h
  exact ⟨escape_injective (String.toList_inj.1 (Utf8.encodeChars_injective htext)), hback⟩

end TildeMarkup.Html
