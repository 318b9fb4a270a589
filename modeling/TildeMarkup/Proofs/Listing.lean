import TildeMarkup.Proofs.Code
import TildeMarkup.Proofs.Text.Lines

/-!
# Listings

The listing of a file shows a caption and the lines of a text, each in an element of its own
(`compile_listing`). Escaped text has no angle bracket, so the tags tell where each part ends: the file
and the lines can be read off the HTML (`Html.codeBlock_injective`).
-/

namespace TildeMarkup

open Utf8

/-- The source that shows a text as the listing of a file. -/
def listingSource (file text : String) : Bytes :=
  encode ("~codeblock(\"" ++ Text.escapeQuotes file ++ "\", \"" ++ Text.escapeQuotes text ++ "\")")

namespace Html

/-- A caption over lines of code, each in an element of its own and all in one element. -/
def codeBlock (language file : String) (lines : List String) : Bytes :=
  element "pre" (encode ("<div class=\"language-tag\">" ++ language ++ " &bull; " ++ escape file ++ "</div>")
    ++ lines.flatMap fun line => element "code" (encode (escape line)))

/-- The listing of a text is the block of its lines. -/
theorem listing_eq (language file text : String) :
    listing "pre" language file text = codeBlock language file (Text.lines text) := by
  rw [listing, codeBlock, Text.lines_escape, List.flatMap_map]

/-! ## Reading a listing back -/

/-- The lines of code tell where each of them ends. -/
theorem eq_of_flatMap_code {lines others : List String}
    (h : (lines.flatMap fun line => element "code" (encode (escape line)))
      = others.flatMap fun line => element "code" (encode (escape line))) : lines = others := by
  have hopen : openTag "code" = Tags.opener :: encode "code>" := rfl
  have hclose : closeTag "code" = Tags.opener :: encode "/code>" := rfl
  -- By induction on the lines: where both have one more, it is told by what stands in front of the next
  -- tag.
  induction lines generalizing others with
  | nil =>
    cases others with
    | nil => rfl
    | cons other more =>
      rw [List.flatMap_cons, element, hopen] at h
      cases h
  | cons line rest ih =>
    cases others with
    | nil =>
      rw [List.flatMap_cons, element, hopen] at h
      cases h
    | cons other more =>
      simp only [List.flatMap_cons, element, hclose, List.append_assoc, List.cons_append] at h
      obtain ⟨rfl, hrest⟩ := eq_of_encode_escape (.inl rfl) (List.append_cancel_left h)
      rw [ih (by simpa only [element, hclose, List.append_assoc, List.cons_append]
        using List.append_cancel_left hrest)]

/-- The file and the lines of a listing are told by its HTML, if the name of a language has no space. -/
theorem codeBlock_injective {language other file otherFile : String} {lines otherLines : List String}
    (hlanguage : ' ' ∉ language.toList) (hother : ' ' ∉ other.toList)
    (h : codeBlock language file lines = codeBlock other otherFile otherLines) :
    file = otherFile ∧ lines = otherLines := by
  have hspace {name : String} (hname : ' ' ∉ name.toList) : Tags.space ∉ encode name :=
    fun hmem => hname (exists_of_mem_encodeChars (by decide) hmem)
  have hbullet : encode " &bull; " = Tags.space :: encode "&bull; " := rfl
  have hend : encode "</div>" = Tags.opener :: encode "/div>" := rfl
  have hcontent := element_injective h
  simp only [encode_append, hbullet, hend, List.append_assoc, List.cons_append] at hcontent
  -- The language ends at the blank in front of the bullet, and the file name at the next tag.
  obtain ⟨_, hfile⟩ := eq_of_append_cons (hspace hlanguage) (hspace hother)
    (List.append_cancel_left hcontent)
  obtain ⟨hsame, hlines⟩ := eq_of_encode_escape (.inl rfl) (List.append_cancel_left hfile)
  exact ⟨hsame, eq_of_flatMap_code (List.append_cancel_left hlines)⟩

end Html

/-! ## Languages -/

namespace Listing

variable {file extension language : String}

theorem language?_eq (hlanguage : (extension, language) ∈ languages)
    (hfile : HasExtension file extension) : language? file = some language := by
  have hlookup : ∀ pair ∈ languages, languages.lookup pair.1 = some pair.2 := by decide
  rw [language?, extension?_eq_some.2 hfile]
  exact hlookup _ hlanguage

/-- A file with a known extension does not end in a backslash. -/
theorem getLast?_file (hlanguage : (extension, language) ∈ languages)
    (hfile : HasExtension file extension) : file.toList.getLast? ≠ some '\\' := by
  have hlast : ∀ pair ∈ languages, ('.' :: pair.1.toList).getLast? ≠ some '\\' := by decide
  obtain ⟨stem, hstem, _⟩ := hfile
  rw [hstem, List.getLast?_append_of_ne_nil _ (List.cons_ne_nil _ _)]
  exact hlast _ hlanguage

theorem space_not_mem_language (hlanguage : (extension, language) ∈ languages) :
    ' ' ∉ language.toList := by
  have hspace : ∀ pair ∈ languages, ' ' ∉ pair.2.toList := by decide
  exact hspace _ hlanguage

end Listing

/-! ## Listings -/

/-- What is written into the two strings comes out as the file and the text. -/
theorem compile_listingSource {file text extension language : String}
    (hlanguage : (extension, language) ∈ Listing.languages)
    (hfile : Listing.HasExtension file extension) (htext : text.toList.getLast? ≠ some '\\') :
    compile (listingSource file text) = .ok (Html.codeBlock language file (Text.lines text)) := by
  let listing : Builtin := ⟨"codeblock", "pre", [⟨"file", .string⟩, ⟨"code", .string⟩], .listing⟩
  have hlisting : listing ∈ Builtin.all := by decide
  have hlast := Listing.getLast?_file hlanguage hfile
  have hargs := ArgsOf.cons (ArgOf.text hlast)
    ((ArgsOf.cons (ArgOf.text htext) (ArgsOf.nil true)).blank (b := Html.Tags.space) rfl).comma
  have hsource : listingSource file text = tilde :: (encode listing.name ++ Bracket.round.opener
      :: ((quote :: (encode (Text.escapeQuotes file) ++ [quote]) ++ comma :: Html.Tags.space
        :: (quote :: (encode (Text.escapeQuotes text) ++ [quote]) ++ [])) ++ [Bracket.round.closer])) := by
    have hopen : encode "~codeblock(\"" = tilde :: (encode "codeblock" ++ [Bracket.round.opener, quote]) :=
      rfl
    have hbetween : encode "\", \"" = [quote, comma, Html.Tags.space, quote] := rfl
    have hclose : encode "\")" = [quote, Bracket.round.closer] := rfl
    simp only [listingSource, Html.encode_append, hopen, hbetween, hclose, List.cons_append,
      List.append_assoc, List.nil_append, listing]
  obtain ⟨spans, hspans, hcompile⟩ := compile_strings [file, text] hlisting hargs rfl rfl (by
    rintro _ _ _ ⟨⟩
    exact ⟨extension, List.mem_map_of_mem hlanguage, hfile⟩) hsource
  obtain ⟨fileSpan, rest, rfl, hfileText, hrest⟩ := List.map_eq_cons_iff.1 hspans
  obtain ⟨textSpan, rfl, htextText⟩ := List.map_eq_singleton_iff.1 hrest
  rw [hcompile]
  simp only [List.map_cons, List.map_nil, Html.renderCall, hfileText, htextText, listing,
    Listing.language?_eq hlanguage hfile, Option.getD_some, Html.listing_eq]

/-- The listing of a file with a known extension is a caption over the lines of the text. They are the
pieces between line feeds, without an empty one at the end and without one carriage return each, and it
makes no difference whether the text is escaped before it is taken apart or after. The HTML tells the file
and the lines, and lines of a text without carriage returns give the text, but for a line feed at its
end. -/
theorem compile_listing {file text extension language : String}
    (hlanguage : (extension, language) ∈ Listing.languages)
    (hfile : Listing.HasExtension file extension) (htext : text.toList.getLast? ≠ some '\\') :
    compile (listingSource file text) = .ok (Html.codeBlock language file (Text.lines text))
      ∧ Text.lines text = (Text.dropEmptyEnd (text.toList.splitOn '\n')).map
        (String.ofList ∘ Text.dropReturn)
      ∧ Text.lines (Html.escape text) = (Text.lines text).map Html.escape
      ∧ (∀ otherFile otherText otherExtension otherLanguage,
        (otherExtension, otherLanguage) ∈ Listing.languages →
        Listing.HasExtension otherFile otherExtension → otherText.toList.getLast? ≠ some '\\' →
        compile (listingSource otherFile otherText) = compile (listingSource file text) →
          otherFile = file ∧ Text.lines otherText = Text.lines text)
      ∧ ('\r' ∉ text.toList →
        "\n".intercalate (Text.lines text) = text ∨ "\n".intercalate (Text.lines text) ++ "\n" = text) := by
  have hcompile := compile_listingSource hlanguage hfile htext
  refine ⟨hcompile, ?_, Text.lines_escape text, ?_, Text.intercalate_lines⟩
  · rw [Text.lines, Text.lineChars, Text.splitLines_eq, List.map_map]
  · intro otherFile otherText otherExtension otherLanguage hother hotherFile hotherText hsame
    rw [hcompile, compile_listingSource hother hotherFile hotherText] at hsame
    exact Html.codeBlock_injective (Listing.space_not_mem_language hother)
      (Listing.space_not_mem_language hlanguage) (Except.ok.inj hsame)

/-- Two lines, of which the second is empty. No file of another name is shown like that. -/
theorem compile_listing_sample :
    ∃ extension language, (extension, language) ∈ Listing.languages
      ∧ Listing.HasExtension "a.rs" extension ∧ "\"<\n\n".toList.getLast? ≠ some '\\'
      ∧ compile (listingSource "a.rs" "\"<\n\n") = .ok (Html.codeBlock "Rust" "a.rs" ["\"<", ""])
      ∧ compile (listingSource "b.txt" "x") ≠ compile (listingSource "a.rs" "\"<\n\n")
      ∧ "\n".intercalate ["\"<", ""] ++ "\n" = "\"<\n\n" := by
  have hrs : ("rs", "Rust") ∈ Listing.languages := by decide
  have htxt : ("txt", "Text") ∈ Listing.languages := by decide
  have hfile : Listing.HasExtension "a.rs" "rs" := ⟨['a'], rfl, by decide⟩
  have hother : Listing.HasExtension "b.txt" "txt" := ⟨['b'], rfl, by decide⟩
  have hlines : Text.lines "\"<\n\n" = ["\"<", ""] := by decide
  have htext : "\"<\n\n".toList.getLast? ≠ some '\\' := by decide
  obtain ⟨hcompile, _, _, hunique, hjoin⟩ := compile_listing hrs hfile htext
  rw [hlines] at hcompile hjoin
  refine ⟨"rs", "Rust", hrs, hfile, htext, hcompile, fun hsame => ?_, ?_⟩
  · exact absurd (hunique _ _ _ _ htxt hother (by decide) hsame).1 (by decide)
  · exact (hjoin (by decide)).resolve_left (by decide)

end TildeMarkup
