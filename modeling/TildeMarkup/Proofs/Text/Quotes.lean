import Mathlib.Data.List.Basic
import Mathlib.Data.List.Induction
import TildeMarkup.Proofs.Content.Basic
import TildeMarkup.Proofs.LineEnds.Text
import TildeMarkup.Proofs.Utf8.Decode

/-!
# Quotes inside of strings

How a text is written as the contents of a string: a backslash is put in front of every quote
(`Text.escapeQuotes`), as a carriage return is put in front of a line feed. Then every quote has a
backslash in front of it (`Escaped`), and resolving the quotes gives the text back, whatever backslashes
it has of its own. Contents in which every quote is escaped are written like that, too, so the two
directions undo each other.
-/

namespace TildeMarkup

open Utf8 Text

/-! ## Escaped marks -/

section Escaped

variable {α : Type} {escape mark : α}

/-- In front of every mark stands its escape, so no mark stands first. -/
def Escaped (escape mark : α) (l : List α) : Prop :=
  ∀ front back, l = front ++ mark :: back → front.getLast? = some escape

namespace Escaped

variable {front back : List α}

/-- The front of an escaped list is escaped. -/
theorem left (h : Escaped escape mark (front ++ back)) : Escaped escape mark front := by
  rintro before after rfl
  exact h before (after ++ back) (by rw [List.append_assoc, List.cons_append])

/-- The back of an escaped list is escaped, unless a mark stands at its start. -/
theorem right (front : List α) (h : Escaped escape mark (front ++ back)) (hhead : back.head? ≠ some mark) :
    Escaped escape mark back := by
  rintro before after rfl
  have hlast := h (front ++ before) after (by rw [List.append_assoc])
  rwa [List.getLast?_append_of_ne_nil] at hlast
  rintro rfl
  exact hhead rfl

end Escaped

variable [DecidableEq α]

/-- Where an escape is put in front of every mark, every mark is escaped. -/
theorem escaped_withReturns (hne : escape ≠ mark) (l : List α) :
    Escaped escape mark (withReturns escape mark l) := by
  induction l with
  | nil =>
    intro front back h
    simp at h
  | cons a rest ih =>
    intro front back h
    by_cases ha : a = mark
    · rw [ha, withReturns_feed] at h
      -- the mark is the one that is escaped here, or a later one
      match front, h with
      | [], h => exact absurd (List.cons.inj h).1 hne
      | [b], h => rw [List.getLast?_singleton, (List.cons.inj h).1]
      | b :: c :: more, h =>
        have hmore := ih more back (List.cons.inj (List.cons.inj h).2).2
        rw [List.getLast?_cons, List.getLast?_cons, hmore]
        rfl
    · rw [withReturns_cons ha] at h
      match front, h with
      | [], h => exact absurd (List.cons.inj h).1 ha
      | b :: more, h =>
        have hmore := ih more back (List.cons.inj h).2
        rw [List.getLast?_cons, hmore]
        rfl

theorem getLast?_withReturns (l : List α) : (withReturns escape mark l).getLast? = l.getLast? := by
  induction l using List.reverseRecOn with
  | nil => rfl
  | append_singleton init a _ =>
    rw [withReturns_append, List.getLast?_concat]
    by_cases ha : a = mark
    · rw [ha, withReturns_feed, withReturns_nil, List.getLast?_append_of_ne_nil _ (List.cons_ne_nil _ _)]
      rfl
    · rw [withReturns_cons ha, withReturns_nil, List.getLast?_concat]

end Escaped

/-! ## The contents of a string -/

namespace Text

/-- The characters of a text with a backslash put in front of every quote. -/
def escapeQuoteChars (cs : List Char) : List Char :=
  withReturns '\\' '"' cs

/-- A text as it is written between the quotes of a string. -/
def escapeQuotes (text : String) : String :=
  String.ofList (escapeQuoteChars text.toList)

theorem head?_escapeQuoteChars (cs : List Char) : (escapeQuoteChars cs).head? ≠ some '"' := by
  intro h
  obtain ⟨rest, hrest⟩ := List.head?_eq_some_iff.1 h
  cases escaped_withReturns (by decide) cs [] rest hrest

/-- Resolving the quotes undoes escaping them, by induction on the characters. -/
theorem unescapeChars_escapeQuoteChars (cs : List Char) : unescapeChars (escapeQuoteChars cs) = cs := by
  induction cs with
  | nil => rfl
  | cons c rest ih =>
    by_cases hc : c = '"'
    · rw [hc, escapeQuoteChars, withReturns_feed, unescapeChars]
      exact congrArg ('"' :: ·) ih
    · -- a backslash of the text is not in front of a quote any more
      rw [escapeQuoteChars, withReturns_cons hc, ← escapeQuoteChars,
        unescapeChars_cons fun _ => head?_escapeQuoteChars rest]
      exact congrArg (c :: ·) ih

/-- Where every quote is escaped, escaping the quotes undoes resolving them. -/
theorem escapeQuoteChars_unescapeChars {cs : List Char} (h : Escaped '\\' '"' cs) :
    escapeQuoteChars (unescapeChars cs) = cs := by
  induction cs using unescapeChars.induct with
  | case1 rest ih =>
    have hhead : rest.head? ≠ some '"' := fun hhead => by
      obtain ⟨more, rfl⟩ := List.head?_eq_some_iff.1 hhead
      exact absurd (h ['\\', '"'] more rfl) (by decide)
    rw [unescapeChars, escapeQuoteChars, withReturns_feed]
    exact congrArg ('\\' :: '"' :: ·) (ih (h.right ['\\', '"'] hhead))
  | case2 c rest hplain ih =>
    have hc : c ≠ '"' := by
      rintro rfl
      cases h [] rest rfl
    have hhead : rest.head? ≠ some '"' := fun hhead => by
      obtain ⟨more, rfl⟩ := List.head?_eq_some_iff.1 hhead
      exact hplain more (Option.some.inj (h [c] more rfl)) rfl
    rw [unescapeChars_cons fun _ => hhead, escapeQuoteChars, withReturns_cons hc]
    exact congrArg (c :: ·) (ih (h.right [c] hhead))
  | case3 => rfl

theorem unescape_escapeQuotes (text : String) : unescape (escapeQuotes text) = text := by
  rw [unescape, escapeQuotes, String.toList_ofList, unescapeChars_escapeQuoteChars,
    String.ofList_toList]

end Text

/-! ## Their bytes -/

namespace Utf8

theorem quote_not_mem_utf8EncodeChar {c : Char} (h : c ≠ '"') : quote ∉ String.utf8EncodeChar c := by
  intro hmem
  have hnat := toNat_of_mem_utf8EncodeChar (by decide) hmem
  exact h (Char.toNat_inj.1 hnat)

/-- The quotes of the bytes are those of the characters, so they may be escaped in either form. -/
theorem encodeChars_escapeQuoteChars (cs : List Char) :
    encodeChars (escapeQuoteChars cs) = withReturns backslash quote (encodeChars cs) := by
  induction cs with
  | nil => rfl
  | cons c rest ih =>
    have hsplit (c : Char) (cs : List Char) :
        encodeChars (c :: cs) = String.utf8EncodeChar c ++ encodeChars cs := rfl
    by_cases hc : c = '"'
    · rw [hc, escapeQuoteChars, withReturns_feed, ← escapeQuoteChars, hsplit, hsplit, hsplit, ih,
        withReturns_append]
      rfl
    · rw [escapeQuoteChars, withReturns_cons hc, ← escapeQuoteChars, hsplit, hsplit, ih,
        withReturns_append, withReturns_of_not_mem (quote_not_mem_utf8EncodeChar hc)]

theorem encode_escapeQuotes (text : String) :
    encode (escapeQuotes text) = withReturns backslash quote (encode text) := by
  rw [encode, escapeQuotes, String.toList_ofList, encodeChars_escapeQuoteChars, ← encode]

/-- A backslash is a byte by itself, so it ends the bytes exactly if it ends the characters. -/
theorem getLast?_encodeChars {cs : List Char} :
    (encodeChars cs).getLast? = some backslash ↔ cs.getLast? = some '\\' := by
  rcases List.eq_nil_or_concat cs with rfl | ⟨init, c, rfl⟩
  · exact iff_of_false (fun h => by cases h) fun h => by cases h
  · have hlast : encodeChars [c] ≠ [] := by
      rw [← List.length_pos_iff, length_encodeChars_cons]
      exact Nat.add_pos_left c.utf8Size_pos _
    rw [List.concat_eq_append, encodeChars_append, List.getLast?_append_of_ne_nil _ hlast,
      List.getLast?_concat, Option.some.injEq]
    constructor
    · intro h
      have hmem : backslash ∈ encodeChars [c] := List.mem_of_getLast? h
      rw [← List.mem_singleton.1 (exists_of_mem_encodeChars (by decide) hmem)]
      decide
    · rintro rfl
      rfl

/-- In bytes with every quote escaped, every quote among the characters is. -/
theorem escaped_of_encodeChars {cs : List Char} (h : Escaped backslash quote (encodeChars cs)) :
    Escaped '\\' '"' cs := by
  rintro front back rfl
  exact getLast?_encodeChars.1 (h (encodeChars front) (encodeChars back) (encodeChars_append ..))

end Utf8

section Contents

variable {text : String}

theorem escaped_escapeQuotes (text : String) :
    Escaped backslash quote (encode (escapeQuotes text)) := by
  rw [encode_escapeQuotes]
  exact escaped_withReturns (by decide) _

theorem getLast?_escapeQuotes :
    (encode (escapeQuotes text)).getLast? = some backslash ↔ text.toList.getLast? = some '\\' := by
  rw [encode_escapeQuotes, getLast?_withReturns]
  exact getLast?_encodeChars

/-- A text that does not end in a backslash can be written as a string. -/
theorem quoted_escapeQuotes (h : text.toList.getLast? ≠ some '\\') :
    Quoted (encode (escapeQuotes text)) :=
  ⟨escaped_escapeQuotes text, fun hlast => h (getLast?_escapeQuotes.1 hlast)⟩

end Contents

end TildeMarkup
