import Mathlib.Data.List.Basic
import TildeMarkup.Proofs.LineEnds.Text
import TildeMarkup.Proofs.Position

/-!
# Lines of a text

The lines of a text are what stands between its line feeds, without an empty piece at the end
(`splitLines_eq`) and without a carriage return at the end of each. Escaping changes no line end, so the
lines of an escaped text are the escaped lines (`lines_escape`). A text without carriage returns is its
lines put together, up to a line feed at the end (`intercalate_lines`).
-/

namespace TildeMarkup.Text

open Html

/-! ## Pieces between line feeds -/

/-- The pieces without the last one, if that is empty: a line feed at the end starts no line. -/
def dropEmptyEnd (pieces : List (List Char)) : List (List Char) :=
  if pieces.getLast? = some [] then pieces.dropLast else pieces

theorem dropEmptyEnd_cons (line next : List Char) (rest : List (List Char)) :
    dropEmptyEnd (line :: next :: rest) = line :: dropEmptyEnd (next :: rest) := by
  rw [dropEmptyEnd, dropEmptyEnd, List.getLast?_cons_cons, List.dropLast_cons_cons]
  split <;> rfl

theorem splitLines_feed (rest : List Char) : splitLines ('\n' :: rest) = [] :: splitLines rest := rfl

/-- A character that is no line feed is added to the first line of the rest. -/
theorem splitLines_cons {c : Char} (hc : c ≠ '\n') (rest : List Char) :
    splitLines (c :: rest) = (c :: (splitLines rest).headD []) :: (splitLines rest).tail := by
  rw [splitLines, if_neg (by simpa using hc)]
  cases splitLines rest <;> rfl

/-- The lines are the pieces between line feeds, by induction on the text. -/
theorem splitLines_eq (cs : List Char) : splitLines cs = dropEmptyEnd (cs.splitOn '\n') := by
  induction cs with
  | nil => rfl
  | cons c rest ih =>
    -- what is behind the first character has a first piece
    have hpieces : rest.splitOn '\n' ≠ [] := List.ne_nil_of_length_eq_add_one (length_splitOn rest)
    rw [List.splitOn_cons_eq_if_modifyHead]
    generalize rest.splitOn '\n' = pieces at ih hpieces
    obtain ⟨line, more, rfl⟩ := List.exists_cons_of_ne_nil hpieces
    by_cases hc : c = '\n'
    · rw [if_pos (beq_iff_eq.2 hc), dropEmptyEnd_cons, ← ih, hc, splitLines_feed]
    · rw [if_neg (by simpa using hc), List.modifyHead_cons, splitLines_cons hc, ih]
      cases more with
      | nil => cases line <;> rfl
      | cons next rest => rw [dropEmptyEnd_cons, dropEmptyEnd_cons]; rfl

/-- Characters without line feeds in front of a text are added to its first line. -/
theorem splitLines_append {front : List Char} (hne : front ≠ []) (hfeed : '\n' ∉ front)
    (rest : List Char) :
    splitLines (front ++ rest)
      = (front ++ (splitLines rest).headD []) :: (splitLines rest).tail := by
  induction front with
  | nil => exact absurd rfl hne
  | cons c more ih =>
    rw [List.mem_cons, not_or] at hfeed
    rw [List.cons_append, splitLines_cons (Ne.symm hfeed.1)]
    cases more with
    | nil => rfl
    | cons d others =>
      rw [ih (List.cons_ne_nil _ _) hfeed.2]
      rfl

theorem splitLines_eq_nil {cs : List Char} (h : splitLines cs = []) : cs = [] := by
  cases cs with
  | nil => rfl
  | cons c rest =>
    by_cases hc : c = '\n'
    · rw [hc] at h
      cases h
    · rw [splitLines_cons hc] at h
      cases h

/-- The pieces with line feeds between them are the text, but for a line feed at its end. -/
theorem intercalate_splitLines (cs : List Char) :
    ['\n'].intercalate (splitLines cs) = cs ∨ ['\n'].intercalate (splitLines cs) ++ ['\n'] = cs := by
  induction cs with
  | nil => exact .inl rfl
  | cons c rest ih =>
    cases hlines : splitLines rest with
    | nil =>
      rw [splitLines_eq_nil hlines]
      by_cases hc : c = '\n'
      · exact .inr (by rw [hc]; rfl)
      · exact .inl (by rw [splitLines_cons hc]; rfl)
    | cons line lines =>
      rw [hlines] at ih
      have hjoin : ['\n'].intercalate (splitLines (c :: rest))
          = c :: ['\n'].intercalate (line :: lines) := by
        by_cases hc : c = '\n'
        · rw [hc, splitLines_feed, hlines, List.intercalate_cons_cons]
          rfl
        · rw [splitLines_cons hc, hlines]
          cases lines with
          | nil => rfl
          | cons next more =>
            show ['\n'].intercalate ((c :: line) :: next :: more) = _
            rw [List.intercalate_cons_cons, List.intercalate_cons_cons]
            rfl
      rw [hjoin, List.cons_append]
      exact ih.imp (congrArg (c :: ·)) (congrArg (c :: ·))

/-! ## Escaped lines -/

theorem escapeChar_ne_nil (c : Char) : escapeChar c ≠ [] := by
  unfold escapeChar
  split <;> exact List.cons_ne_nil _ _

/-- Escaping makes no line feed and takes none away, so it can be done line by line. -/
theorem splitLines_escapeChars (cs : List Char) :
    splitLines (escapeChars cs) = (splitLines cs).map escapeChars := by
  induction cs with
  | nil => rfl
  | cons c rest ih =>
    rw [escapeChars, List.flatMap_cons, ← escapeChars]
    by_cases hc : c = '\n'
    · rw [hc]
      exact congrArg ([] :: ·) ih
    · have hfeed : '\n' ∉ escapeChar c := fun hmem => hc (mem_escapeChar (.inl rfl) hmem).symm
      rw [splitLines_append (escapeChar_ne_nil c) hfeed, ih, splitLines_cons hc, List.map_cons,
        List.map_tail]
      cases splitLines rest with
      | nil => rfl
      | cons line lines => rfl

theorem dropReturn_of_ne {line : List Char} (h : line.getLast? ≠ some '\r') : dropReturn line = line :=
  if_neg (by simpa using h)

theorem dropReturn_concat (line : List Char) : dropReturn (line ++ ['\r']) = line := by
  rw [dropReturn, List.getLast?_concat, if_pos (beq_self_eq_true _), List.dropLast_concat]

/-- Escaping keeps a carriage return at the end of a line, and makes none. -/
theorem dropReturn_escapeChars (line : List Char) :
    dropReturn (escapeChars line) = escapeChars (dropReturn line) := by
  rcases List.eq_nil_or_concat line with rfl | ⟨init, c, rfl⟩
  · rfl
  · rw [List.concat_eq_append, escapeChars_append]
    by_cases hc : c = '\r'
    · rw [hc, dropReturn_concat]
      exact dropReturn_concat _
    · have hlast : (escapeChars init ++ escapeChars [c]).getLast? ≠ some '\r' := fun hreturn => by
        have hsingle : escapeChars [c] = escapeChar c := List.append_nil _
        rw [hsingle, List.getLast?_append_of_ne_nil _ (escapeChar_ne_nil c)] at hreturn
        exact hc (mem_escapeChar (.inr rfl) (List.mem_of_getLast? hreturn)).symm
      rw [dropReturn_of_ne hlast, dropReturn_of_ne (by simpa using hc), escapeChars_append]

theorem lineChars_escapeChars (cs : List Char) :
    lineChars (escapeChars cs) = (lineChars cs).map escapeChars := by
  rw [lineChars, lineChars, splitLines_escapeChars, List.map_map, List.map_map]
  exact List.map_congr_left fun line _ => dropReturn_escapeChars line

/-- Escaping before the lines are taken apart is escaping each of them. -/
theorem lines_escape (text : String) : lines (escape text) = (lines text).map escape := by
  rw [lines, lines, toList_escape, lineChars_escapeChars, List.map_map, List.map_map]
  refine List.map_congr_left fun line _ => ?_
  rw [Function.comp_apply, Function.comp_apply, escape, String.toList_ofList]

/-! ## Texts without carriage returns -/

theorem lineChars_of_not_mem {cs : List Char} (h : '\r' ∉ cs) : lineChars cs = splitLines cs := by
  induction cs with
  | nil => rfl
  | cons c rest ih =>
    rw [List.mem_cons, not_or] at h
    by_cases hc : c = '\n'
    · rw [hc]
      exact congrArg ([] :: ·) (ih h.2)
    · rw [lineChars_cons hc (Ne.symm h.1), splitLines_cons hc, ih h.2]

/-- The lines of a text without carriage returns give the text, but for a line feed at its end. -/
theorem intercalate_lines {text : String} (h : '\r' ∉ text.toList) :
    "\n".intercalate (lines text) = text ∨ "\n".intercalate (lines text) ++ "\n" = text := by
  have hlines : ("\n".intercalate (lines text)).toList = ['\n'].intercalate (splitLines text.toList) := by
    rw [String.toList_intercalate, lines, lineChars_of_not_mem h, List.map_map]
    congr 1
    exact (List.map_congr_left fun line _ => String.toList_ofList).trans (List.map_id _)
  refine (intercalate_splitLines text.toList).imp (fun hjoin => ?_) fun hjoin => ?_
  · exact String.toList_inj.1 (hlines.trans hjoin)
  · refine String.toList_inj.1 ?_
    rw [String.toList_append, hlines]
    exact hjoin

end TildeMarkup.Text
