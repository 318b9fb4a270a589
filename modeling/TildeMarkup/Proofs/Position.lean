import Mathlib.Data.List.Induction
import TildeMarkup.Position
import TildeMarkup.Proofs.Utf8.Decode

/-!
# Positions in characters

Positions are computed from bytes, by reading the line up to an offset as text. Behind whole characters
that gives what counting them gives: the line feeds, and the characters behind the last of them
(`lastLine`). What the offset leaves over of a character it cuts through is read by itself, behind those
(`decodeChars_linePrefix`).
-/

namespace TildeMarkup

open Utf8

/-! ## The last line of some characters -/

/-- The characters behind the last line feed, or all of them if there is none. -/
def lastLine (front : List Char) : List Char :=
  (front.reverse.takeWhile (· != '\n')).reverse

section LastLine

variable {front mid : List Char} {c : Char}

/-- Behind a line feed a new line starts. -/
theorem lastLine_feed (front : List Char) : lastLine (front ++ ['\n']) = [] := by
  simp [lastLine]

theorem lastLine_snoc (h : c ≠ '\n') : lastLine (front ++ [c]) = lastLine front ++ [c] := by
  simp [lastLine, h]

/-- Characters without a line feed are put to the last line. -/
theorem lastLine_append (h : '\n' ∉ mid) : lastLine (front ++ mid) = lastLine front ++ mid := by
  induction mid using List.reverseRecOn with
  | nil => simp
  | append_singleton mid c ih =>
    simp only [List.mem_append, List.mem_singleton, not_or] at h
    rw [← List.append_assoc, lastLine_snoc (Ne.symm h.2), ih h.1, List.append_assoc]

theorem not_mem_lastLine (front : List Char) : '\n' ∉ lastLine front := by
  intro h
  have hpassed := List.all_eq_true.1 List.all_takeWhile _ (List.mem_reverse.1 h)
  simp at hpassed

/-- What is in front of the last line is nothing, or ends with a line feed. -/
theorem exists_lastLine (front : List Char) :
    ∃ before, front = before ++ lastLine front
      ∧ (before = [] ∨ ∃ init, before = init ++ ['\n']) := by
  induction front using List.reverseRecOn with
  | nil => exact ⟨[], rfl, .inl rfl⟩
  | append_singleton front c ih =>
    -- A line feed starts a new line; any other character is added to the last one.
    by_cases hc : c = '\n'
    · rw [hc, lastLine_feed]
      exact ⟨front ++ ['\n'], (List.append_nil _).symm, .inr ⟨front, rfl⟩⟩
    · obtain ⟨before, hfront, hbefore⟩ := ih
      rw [lastLine_snoc hc]
      refine ⟨before, ?_, hbefore⟩
      rw [← List.append_assoc, ← hfront]

/-- There are as many lines as line feeds, and one more. -/
theorem length_splitOn (front : List Char) : (front.splitOn '\n').length = front.count '\n' + 1 := by
  induction front with
  | nil => rfl
  | cons c rest ih =>
    rw [List.splitOn_cons_eq_if_modifyHead]
    by_cases hc : c = '\n'
    · rw [if_pos (beq_iff_eq.2 hc), List.length_cons, ih, hc, List.count_cons_self]
    · rw [if_neg (by simpa using hc), List.length_modifyHead, ih, List.count_cons_of_ne hc]

/-- A start of two texts together is one of the first, or goes on with one of the second. -/
theorem prefix_append_cases {cs left right : List Char} (h : cs <+: left ++ right) :
    cs <+: left ∨ ∃ part, part <+: right ∧ cs = left ++ part := by
  rcases List.prefix_or_prefix_of_prefix h (List.prefix_append left right) with hinside | hpast
  · exact .inl hinside
  · obtain ⟨part, rfl⟩ := hpast
    exact .inr ⟨part, (List.prefix_append_right_inj left).1 h, rfl⟩

/-- What goes up to an end goes on behind a part in which the end is not. -/
theorem takeWhile_append_of_not_mem {α : Type} [BEq α] [LawfulBEq α] {last : α} {line : List α}
    (h : last ∉ line) (rest : List α) :
    (line ++ rest).takeWhile (· != last) = line ++ rest.takeWhile (· != last) :=
  List.takeWhile_append_of_pos fun _ hc => bne_iff_ne.2 fun hlast => h (hlast ▸ hc)

/-- A part that goes up to an end which it does not hold tells where it ends. -/
theorem eq_of_append_cons {α : Type} [BEq α] [LawfulBEq α] {last : α} {front other back more : List α}
    (hfront : last ∉ front) (hother : last ∉ other) (h : front ++ last :: back = other ++ last :: more) :
    front = other ∧ back = more := by
  have hread {part : List α} (hpart : last ∉ part) (rest : List α) :
      (part ++ last :: rest).takeWhile (· != last) = part := by
    rw [takeWhile_append_of_not_mem hpart, List.takeWhile_cons_of_neg (by simp), List.append_nil]
  have hsame : front = other := by
    rw [← hread hfront back, h, hread hother]
  rw [hsame] at h
  exact ⟨hsame, (List.cons.inj (List.append_cancel_left h)).2⟩

/-- The first line goes up to the first line feed, or to the end. -/
theorem splitOn_zero (back : List Char) :
    (back.splitOn '\n')[0]? = some (back.takeWhile (· != '\n')) := by
  induction back with
  | nil => rfl
  | cons c rest ih =>
    rw [List.splitOn_cons_eq_if_modifyHead]
    by_cases hc : c = '\n'
    · rw [if_pos (beq_iff_eq.2 hc), List.takeWhile_cons_of_neg (by simp [hc])]
      rfl
    · rw [if_neg (by simpa using hc), List.getElem?_modifyHead, if_pos rfl, ih,
        List.takeWhile_cons_of_pos (by simp [hc])]
      rfl

/-- Among the lines of a text, the one in which some characters of it end. -/
theorem getElem?_splitOn (front back : List Char) :
    ((front ++ back).splitOn '\n')[front.count '\n']?
      = some (lastLine front ++ back.takeWhile (· != '\n')) := by
  obtain ⟨before, hfront, hbefore⟩ := exists_lastLine front
  have hcount : (lastLine front).count '\n' = 0 := List.count_eq_zero.2 (not_mem_lastLine front)
  have hline : ((lastLine front ++ back).splitOn '\n')[0]?
      = some (lastLine front ++ back.takeWhile (· != '\n')) := by
    rw [splitOn_zero, takeWhile_append_of_not_mem (not_mem_lastLine front)]
  generalize lastLine front = line at *
  subst hfront
  rw [List.count_append, hcount, Nat.add_zero]
  rcases hbefore with rfl | ⟨init, rfl⟩
  · exact hline
  · -- the lines up to the last line feed are all in front
    rw [List.append_assoc, List.append_assoc, List.singleton_append, List.splitOn_append_cons_self,
      List.count_append, List.count_singleton_self, ← length_splitOn,
      List.getElem?_append_right (Nat.le_refl _), Nat.sub_self]
    exact hline

end LastLine

/-! ## Lines of bytes -/

section Bytes

variable {source cut : Bytes} {front : List Char} {n : Nat}

theorem ne_lineFeed_of_size {c : Char} (h : 1 < c.utf8Size) : c ≠ '\n' := by
  rintro rfl
  exact absurd h (by decide)

theorem lineFeed_not_mem_encodeChars {cs : List Char} (h : '\n' ∉ cs) : lineFeed ∉ encodeChars cs :=
  fun hmem => h (exists_of_mem_encodeChars (by decide) hmem)

theorem count_encodeChars (cs : List Char) : (encodeChars cs).count lineFeed = cs.count '\n' := by
  induction cs with
  | nil => rfl
  | cons c rest ih =>
    have hsplit : encodeChars (c :: rest) = String.utf8EncodeChar c ++ encodeChars rest := rfl
    rw [hsplit, List.count_append, ih]
    -- No other character than the line feed is written with its byte.
    by_cases hc : c = '\n'
    · rw [hc, List.count_cons_self, Nat.add_comm]
      rfl
    · rw [List.count_cons_of_ne hc, List.count_eq_zero.2, Nat.zero_add]
      intro hmem
      have hchar : Char.ofNat lineFeed.toNat ∈ [c] :=
        exists_of_mem_encodeChars (by decide) (by simpa [encodeChars] using hmem)
      exact hc (List.mem_singleton.1 hchar).symm

/-- The line of an offset starts behind the last line feed in front of it. -/
theorem linePrefix_eq {before line : Bytes} (h : source.take n = before ++ line)
    (hbefore : before = [] ∨ ∃ init, before = init ++ [lineFeed]) (hline : lineFeed ∉ line) :
    Position.linePrefix source n = line := by
  have hreverse : lineFeed ∉ line.reverse := fun hfeed => hline (List.mem_reverse.1 hfeed)
  rw [Position.linePrefix, h, List.reverse_append, takeWhile_append_of_not_mem hreverse]
  rcases hbefore with rfl | ⟨init, rfl⟩
  · simp
  · simp

/-- Behind some characters, and some bytes without a line feed, the line is the last one of the
characters with the bytes behind it. -/
theorem linePrefix_encodeChars (h : source.take n = encodeChars front ++ cut) (hcut : lineFeed ∉ cut) :
    Position.linePrefix source n = encodeChars (lastLine front) ++ cut := by
  obtain ⟨before, hfront, hbefore⟩ := exists_lastLine front
  -- The last line has no line feed in front of the cut, and the cut has none.
  have hline : lineFeed ∉ encodeChars (lastLine front) ++ cut := by
    rw [List.mem_append, not_or]
    exact ⟨lineFeed_not_mem_encodeChars (not_mem_lastLine front), hcut⟩
  have hsplit : source.take n = encodeChars before ++ (encodeChars (lastLine front) ++ cut) := by
    rw [h, ← List.append_assoc, ← encodeChars_append, ← hfront]
  refine linePrefix_eq hsplit ?_ hline
  rcases hbefore with rfl | ⟨init, rfl⟩
  · exact .inl rfl
  · rw [encodeChars_append]
    exact .inr ⟨encodeChars init, rfl⟩

/-- The characters of the line up to an offset. What is cut of a character is read by itself. -/
theorem decodeChars_linePrefix (h : source.take n = encodeChars front ++ cut) (hcut : lineFeed ∉ cut) :
    decodeChars (Position.linePrefix source n) = lastLine front ++ decodeChars cut := by
  rw [linePrefix_encodeChars h hcut]
  exact decodeFrom_encodeChars (lastLine front) cut

/-- The number of line feeds up to an offset. -/
theorem count_take (h : source.take n = encodeChars front ++ cut) (hcut : lineFeed ∉ cut) :
    (source.take n).count lineFeed = front.count '\n' := by
  rw [h, List.count_append, count_encodeChars, List.count_eq_zero.2 hcut, Nat.add_zero]

end Bytes

end TildeMarkup
