import Mathlib.Data.List.DropRight
import TildeMarkup.Report
import TildeMarkup.Proofs.Touched

/-!
# What a report shows

A report is computed from bytes and columns. Here it is told by characters: the line on which the
fault starts, the characters of it in front of the fault, and those that the fault has bytes of
(`format_underlines`).

The fault may end on a later line. Then all of the line behind its start is underlined. It may also
have carriage returns at the end of the line, which are not shown, and have no carets.
-/

namespace TildeMarkup

open Utf8

/-! ## The line of an offset -/

/-- The line on which a span starts: `left` is in front of the start, `right` behind it. The line stands
between line feeds, or the ends of the source. -/
structure Span.StartsOn (source : Bytes) (span : Span) (before left right after : List Char) :
    Prop where
  source_eq : encodeChars (before ++ left ++ (right ++ after)) = source
  start_eq : (encodeChars (before ++ left)).length = span.start
  before_eq : before = [] ∨ ∃ init, before = init ++ ['\n']
  after_eq : after = [] ∨ ∃ rest, after = '\n' :: rest
  left_free : '\n' ∉ left
  right_free : '\n' ∉ right

section Lines

variable {source : Bytes} {span : Span} {front mid back before left right after : List Char}

/-- The rest of some characters from the end of their line on is nothing, or starts with a line feed. -/
theorem dropWhile_cases (cs : List Char) :
    cs.dropWhile (· != '\n') = [] ∨ ∃ rest, cs.dropWhile (· != '\n') = '\n' :: rest := by
  induction cs with
  | nil => exact .inl rfl
  | cons c rest ih =>
    by_cases hc : c = '\n'
    · rw [hc]
      exact .inr ⟨rest, rfl⟩
    · rwa [List.dropWhile_cons_of_pos (by simpa using hc)]

/-- Characters that a span touches start on a line, which is what is left of the front and of the rest. -/
theorem Span.Touches.exists_startsOn (h : span.Touches source front mid back) :
    ∃ before after, span.StartsOn source before (lastLine front)
      ((mid ++ back).takeWhile (· != '\n')) after := by
  obtain ⟨before, hfront, hbefore⟩ := exists_lastLine front
  refine ⟨before, (mid ++ back).dropWhile (· != '\n'), ?_, ?_, hbefore, dropWhile_cases _,
    not_mem_lastLine front, fun hfeed => ?_⟩
  · rw [← hfront, List.takeWhile_append_dropWhile, h.source_eq]
  · rw [← hfront, h.start_eq]
  · have hpassed := List.all_eq_true.1 List.all_takeWhile _ hfeed
    simp at hpassed

/-- The bytes up to a line feed encode the characters up to it, as no other character has that byte. -/
theorem takeWhile_encodeChars (hafter : after = [] ∨ ∃ rest, after = '\n' :: rest)
    (hright : '\n' ∉ right) :
    (encodeChars (right ++ after)).takeWhile (· != lineFeed) = encodeChars right := by
  rw [encodeChars_append, takeWhile_append_of_not_mem (lineFeed_not_mem_encodeChars hright)]
  rcases hafter with rfl | ⟨rest, rfl⟩
  · exact List.append_nil _
  · exact List.append_nil _

/-- The line that is cut out of the bytes encodes the line of characters. -/
theorem lineAt_eq (h : span.StartsOn source before left right after) :
    lineAt source span.start = encodeChars (left ++ right) := by
  have hsource : source = encodeChars (before ++ left) ++ encodeChars (right ++ after) := by
    rw [← encodeChars_append, h.source_eq]
  have htake : source.take span.start = encodeChars before ++ encodeChars left := by
    rw [hsource, ← h.start_eq, List.take_left, encodeChars_append]
  have hbytes : encodeChars before = [] ∨ ∃ init, encodeChars before = init ++ [lineFeed] := by
    rcases h.before_eq with rfl | ⟨init, rfl⟩
    · exact .inl rfl
    · rw [encodeChars_append]
      exact .inr ⟨encodeChars init, rfl⟩
  rw [lineAt, linePrefix_eq htake hbytes (lineFeed_not_mem_encodeChars h.left_free),
    encodeChars_append]
  rw [hsource, ← h.start_eq, List.drop_left, takeWhile_encodeChars h.after_eq h.right_free]

/-- The carriage returns at the end of a line of bytes are those at the end of its characters. -/
theorem dropReturns_encodeChars (cs : List Char) :
    dropReturns (encodeChars cs) = encodeChars (cs.rdropWhile (· == '\r')) := by
  -- From the end, where the returns are: one that is dropped, or a character that ends the dropping.
  induction cs using List.reverseRecOn with
  | nil => rfl
  | append_singleton cs c ih =>
    by_cases hc : c = '\r'
    · have hbytes : encodeChars (cs ++ [c]) = encodeChars cs ++ [carriageReturn] := by
        rw [encodeChars_append, hc]
        rfl
      rw [List.rdropWhile_concat_pos _ _ _ (by simpa using hc), ← ih, hbytes]
      exact List.rdropWhile_concat_pos _ _ _ rfl
    · obtain ⟨init, last, hlast⟩ : ∃ init last, encodeChars [c] = init ++ [last] := by
        rcases List.eq_nil_or_concat (encodeChars [c]) with hnil | ⟨init, last, hlast⟩
        · have hsize := c.utf8Size_pos
          have hlength := length_encodeChars_cons c []
          rw [hnil, List.length_nil] at hlength
          omega
        · exact ⟨init, last, hlast.trans List.concat_eq_append⟩
      -- the last byte is one of a character that is no carriage return
      have hreturn : last ≠ carriageReturn := by
        rintro rfl
        have hmem : carriageReturn ∈ encodeChars [c] := by rw [hlast]; simp
        exact hc (List.mem_singleton.1 (exists_of_mem_encodeChars (by decide) hmem)).symm
      rw [List.rdropWhile_concat_neg _ _ _ (by simpa using hc), encodeChars_append, hlast,
        ← List.append_assoc]
      exact List.rdropWhile_concat_neg _ _ _ (by simpa using hreturn)

/-- The line that is shown is the line of characters without the carriage returns at its end. -/
theorem shownLine_eq (h : span.StartsOn source before left right after) :
    Report.shownLine source span.start = (left ++ right).rdropWhile (· == '\r') := by
  rw [Report.shownLine, lineAt_eq h, dropReturns_encodeChars, decodeChars_encodeChars]

end Lines

/-! ## What is underlined -/

section Underlined

variable {source : Bytes} {span : Span} {front mid back before left right after : List Char}

/-- What is dropped at the end of a line is behind a character that is not dropped. -/
theorem prefix_rdropWhile {cs : List Char} (more : List Char) (h : cs.getLast? ≠ some '\r') :
    cs <+: (cs ++ more).rdropWhile (· == '\r') := by
  -- From the end again: characters behind may be dropped, but never more than all of them.
  induction more using List.reverseRecOn with
  | nil =>
    have hkept : cs.rdropWhile (· == '\r') = cs := by
      rw [List.rdropWhile_eq_self_iff]
      intro hne hlast
      exact h ((List.getLast?_eq_some_getLast hne).trans (congrArg some (beq_iff_eq.1 hlast)))
    exact ⟨[], by rw [List.append_nil, hkept]⟩
  | append_singleton more c ih =>
    rw [← List.append_assoc, List.rdropWhile_concat]
    split
    · exact ih
    · rw [List.append_assoc]
      exact List.prefix_append cs _

/-- Of the whole line, a span that ends on it has bytes of the characters that it touches. -/
theorem Span.Touches.overlap_line (h : span.Touches source front mid back) {n : Nat}
    (hleft : n + (encodeChars left).length = span.start) {more : List Char} (hmore : more <+: back) :
    span.overlap n (left ++ mid) = mid.length ∧ span.overlap n (left ++ (mid ++ more)) = mid.length := by
  have hback : span.overlap (span.start + (encodeChars mid).length) more = 0 :=
    Nat.le_zero.1 (h.overlap_back ▸ overlap_le_of_prefix hmore)
  rw [overlap_append, overlap_append, overlap_before hleft.le, hleft, overlap_append, h.overlap_mid,
    hback]
  exact ⟨Nat.zero_add _, Nat.zero_add _⟩

/-- The carets by the characters that a span touches: one for each if they are on one line, else those
up to the end of the line. -/
theorem underlined_eq (h : span.Touches source front mid back) :
    Report.underlined source span
      = if '\n' ∈ mid then
          max 1 ((Report.shownLine source span.start).length - (lastLine front).length)
        else max 1 mid.length := by
  simp only [Report.underlined, Position.ofOffset, h.count_start, h.count_stop, h.line_start,
    h.length_line_stop, List.count_append, Nat.add_right_cancel_iff]
  -- The line numbers of start and end differ exactly if there is a line feed between them.
  by_cases hfeed : '\n' ∈ mid
  · have hcount : 0 < mid.count '\n' := List.count_pos_iff.2 hfeed
    rw [if_neg (by omega), if_pos hfeed, Nat.add_sub_add_right]
  · rw [List.count_eq_zero.2 hfeed, if_pos (Nat.add_zero _), if_neg hfeed, lastLine_append hfeed,
      List.length_append, Nat.add_sub_add_right, Nat.add_sub_cancel_left]

/-- Of a span that ends on its line, all is shown that needs a caret. Dropped returns count only in a span
of one byte, which has its one caret anyway. -/
theorem overlap_shown (h : span.Touches source front mid back)
    (hlast : mid.length ≤ 1 ∨ mid.getLast? ≠ some '\r') {n : Nat}
    (hleft : n + (encodeChars left).length = span.start) {more : List Char} (hmore : more <+: back) :
    max 1 (span.overlap n ((left ++ (mid ++ more)).rdropWhile (· == '\r'))) = max 1 mid.length := by
  obtain ⟨hpart, hwhole⟩ := h.overlap_line hleft hmore
  have hle : span.overlap n ((left ++ (mid ++ more)).rdropWhile (· == '\r')) ≤ mid.length := by
    rw [← hwhole]
    exact Span.overlap_le_of_prefix (List.rdropWhile_prefix _ _)
  -- One character has one caret, shown or not. More of them end in one that is no return, hence shown.
  by_cases hshort : mid.length ≤ 1
  · omega
  · have hne : mid ≠ [] := by
      rintro rfl
      exact hshort (Nat.zero_le 1)
    have hend : (left ++ mid).getLast? ≠ some '\r' := by
      rw [List.getLast?_append_of_ne_nil _ hne]
      exact hlast.resolve_left hshort
    have hge : mid.length ≤ span.overlap n ((left ++ (mid ++ more)).rdropWhile (· == '\r')) := by
      rw [← hpart, ← List.append_assoc]
      exact Span.overlap_le_of_prefix (prefix_rdropWhile more hend)
    rw [Nat.le_antisymm hle hge]

/-- Of a span that ends on a later line, a caret stands under all that is shown behind the start. -/
theorem overlap_shown_of_mem (h : span.Touches source front mid back) (hfeed : '\n' ∈ mid) {n : Nat}
    (hleft : n + (encodeChars left).length = span.start) {shown : List Char}
    (hshown : shown <+: left ++ (mid ++ back).takeWhile (· != '\n')) :
    span.overlap n shown = shown.length - left.length := by
  obtain ⟨right, rest, hmid, hright⟩ := List.eq_append_cons_of_mem hfeed
  have hline : (mid ++ back).takeWhile (· != '\n') = right := by
    rw [hmid, List.append_assoc, takeWhile_append_of_not_mem hright, List.cons_append,
      List.takeWhile_cons_of_neg (by decide), List.append_nil]
  rw [hline] at hshown
  rcases prefix_append_cases hshown with hinside | ⟨part, ⟨dropped, rfl⟩, rfl⟩
  · -- carriage returns in front of the start are dropped, too
    rw [Nat.sub_eq_zero_of_le hinside.length_le]
    obtain ⟨dropped, rfl⟩ := hinside
    rw [encodeChars_append, List.length_append] at hleft
    exact Span.overlap_before (by omega)
  · have hend : span.start + (encodeChars part).length ≤ span.stop := by
      have hstart := h.start_eq
      rcases h.stop_eq with hstop | ⟨c, hsingle, hsize, -⟩
      · rw [hmid, encodeChars_append, encodeChars_append, encodeChars_append, List.length_append,
          List.length_append, List.length_append] at hstop
        omega
      · rw [hsingle, List.mem_singleton] at hfeed
        exact absurd hfeed.symm (ne_lineFeed_of_size hsize)
    rw [Span.overlap_append, Span.overlap_before hleft.le, hleft,
      Span.overlap_within (Nat.le_refl _) hend, Nat.zero_add, List.length_append,
      Nat.add_sub_cancel_left]

/-- There is a caret for each character of the shown line that the span has bytes of, and one at
least. -/
theorem underlined_eq_overlap (h : span.Touches source front mid back)
    (hlast : mid.length ≤ 1 ∨ mid.getLast? ≠ some '\r')
    (hline : span.StartsOn source before (lastLine front) ((mid ++ back).takeWhile (· != '\n')) after) :
    Report.underlined source span
      = max 1 (span.overlap (encodeChars before).length (Report.shownLine source span.start)) := by
  have hleft : (encodeChars before).length + (encodeChars (lastLine front)).length = span.start := by
    rw [← hline.start_eq, encodeChars_append, List.length_append]
  rw [underlined_eq h, shownLine_eq hline]
  by_cases hfeed : '\n' ∈ mid
  · rw [if_pos hfeed, overlap_shown_of_mem h hfeed hleft (List.rdropWhile_prefix _ _)]
  · rw [if_neg hfeed, takeWhile_append_of_not_mem hfeed,
      overlap_shown h hlast hleft (List.takeWhile_prefix _)]

end Underlined

/-! ## The text of a report -/

namespace Report

/-- What a report says. Lines and columns count from 1 on. -/
structure View where
  message : String
  fileName : String
  line : Nat
  column : Nat
  /-- The line of the source, as far as it is shown. -/
  shown : List Char
  /-- The number of spaces in front of the carets. -/
  indent : Nat
  carets : Nat

/-- The room to the left of the bars, which is as wide as the number of the line and one more. -/
def View.gutter (view : View) : String :=
  times ((toString view.line).length + 1) ' '

/-- The message and the place of the fault, then the three lines with a bar. -/
def View.lines (view : View) : List String :=
  ["error: " ++ view.message,
   view.gutter ++ "--> " ++ view.fileName ++ ":" ++ toString view.line ++ ":" ++ toString view.column,
   view.gutter ++ "|",
   toString view.line ++ " | " ++ String.ofList view.shown,
   view.gutter ++ "| " ++ times view.indent ' ' ++ times view.carets '^']

def View.text (view : View) : String :=
  "\n".intercalate view.lines

/-- What the report on a fault says: every field is read off the source at the two ends of its span. -/
def View.ofFault (fileName : String) (source : Bytes) (fault : Fault) : View :=
  let place := Position.ofOffset source fault.span.start
  { message := fault.cause.message
    fileName
    line := place.line
    column := place.column
    shown := shownLine source fault.span.start
    indent := place.column - 1
    carets := underlined source fault.span }

/-- The text that is put together piece by piece is that of the lines, with line feeds in between. -/
theorem format_eq_text (fileName : String) (source : Bytes) (fault : Fault) :
    format fileName source fault = (View.ofFault fileName source fault).text := by
  have hbar : "|\n" = "|" ++ "\n" := by decide
  delta format
  simp only [hbar, View.text, View.lines, View.ofFault, View.gutter,
    String.intercalate_cons_cons, String.intercalate_singleton, String.append_assoc]

theorem toList_times (n : Nat) (c : Char) : (times n c).toList = List.replicate n c :=
  String.toList_ofList

/-- A number is written in digits only, so that no other character is in its text. -/
theorem not_mem_toString {c : Char} (hc : c.isDigit = false) (n : Nat) : c ∉ (toString n).toList := by
  rw [Nat.toString_eq_ofList_toDigits, String.toList_ofList]
  intro h
  rw [Nat.isDigit_of_mem_toDigits (by decide) (by decide) h] at hc
  cases hc

/-- The bars of a report are all in one column. -/
theorem View.idxOf_bar (view : View) {line : String} (h : line ∈ view.lines.drop 2) :
    line.toList.idxOf '|' = (toString view.line).length + 1 := by
  have hindex (room rest : List Char) (hroom : '|' ∉ room) :
      (room ++ '|' :: rest).idxOf '|' = room.length := by
    rw [List.idxOf_append_of_notMem hroom, List.idxOf_cons_self, Nat.add_zero]
  have hgutter (rest : String) :
      (view.gutter ++ rest).toList
        = List.replicate ((toString view.line).length + 1) ' ' ++ rest.toList := by
    rw [String.toList_append, View.gutter, toList_times]
  have hspaces : '|' ∉ List.replicate ((toString view.line).length + 1) ' ' := by simp
  simp only [View.lines, List.drop_succ_cons, List.drop_zero, List.mem_cons, List.not_mem_nil,
    or_false] at h
  rcases h with rfl | rfl | rfl
  · rw [hgutter]
    exact (hindex _ _ hspaces).trans List.length_replicate
  · have hnumber : '|' ∉ (toString view.line).toList ++ [' '] := by
      simpa using not_mem_toString rfl view.line
    have hsplit : (toString view.line ++ " | " ++ String.ofList view.shown).toList
        = ((toString view.line).toList ++ [' ']) ++ '|' :: ' ' :: view.shown := by
      simp
    rw [hsplit, hindex _ _ hnumber, List.length_append, String.length_toList]
    rfl
  · rw [String.append_assoc, String.append_assoc, hgutter, String.toList_append]
    exact (hindex _ _ hspaces).trans List.length_replicate

/-- If a source in UTF-8 does not compile, the report underlines the characters at fault, on the line
where they start. -/
theorem format_underlines {source : Bytes} {failure : Failure} (hvalid : IsValid source)
    (h : compile source = .error failure) (fileName : String) :
    ∃ fault before left right after view,
      failure = .fault fault
        ∧ fault.span.StartsOn source before left right after
        ∧ format fileName source fault = View.text view
        ∧ view.message = fault.cause.message
        ∧ view.fileName = fileName
        ∧ view.line = (source.take fault.span.start).count lineFeed + 1
        ∧ view.column = left.length + 1
        ∧ view.shown = (left ++ right).rdropWhile (· == '\r')
        ∧ view.indent = left.length
        ∧ view.carets = max 1 (fault.span.overlap (encodeChars before).length view.shown)
        ∧ ∀ line ∈ view.lines.drop 2, line.toList.idxOf '|' = (toString view.line).length + 1 := by
  obtain ⟨fault, front, mid, back, rfl, htouches, hlast⟩ := exists_touches hvalid h
  obtain ⟨before, after, hline⟩ := htouches.exists_startsOn
  have hcolumn : (Position.ofOffset source fault.span.start).column = (lastLine front).length + 1 := by
    rw [Position.ofOffset, htouches.line_start]
  refine ⟨fault, before, _, _, after, View.ofFault fileName source fault, rfl, hline,
    format_eq_text fileName source fault, rfl, rfl, rfl, hcolumn, shownLine_eq hline, ?_,
    underlined_eq_overlap htouches hlast hline, fun _ => View.idxOf_bar _⟩
  rw [View.ofFault, hcolumn, Nat.add_sub_cancel]

/-- Behind `~i` on the second line stands `ö`, which is no argument. The fault is its first byte. -/
theorem format_underlines_sample :
    let source : Bytes := [0xc3, 0xa9, lineFeed, tilde, 0x69, 0xc3, 0xb6]
    let fault : Fault := ⟨.expectedArguments [0xc3], ⟨5, 6⟩⟩
    IsValid source ∧ compile source = .error (.fault fault)
      ∧ ∃ before left right after view, Span.StartsOn source ⟨5, 6⟩ before left right after
        ∧ format "a.rev" source fault = View.text view ∧ view.line = 2
        ∧ view.indent = left.length
        ∧ view.carets = max 1 (Span.overlap ⟨5, 6⟩ (encodeChars before).length view.shown) := by
  intro source fault
  have hvalid : IsValid source := ⟨['é', '\n', '~', 'i', 'ö'], by decide⟩
  have hcompile : compile source = .error (.fault fault) := rfl
  obtain ⟨_, before, left, right, after, view, ⟨⟩, hline, htext, -, -, hnumber, -, -, hindent, hcarets,
    -⟩ := format_underlines hvalid hcompile "a.rev"
  exact ⟨hvalid, hcompile, before, left, right, after, view, hline, htext, hnumber, hindent, hcarets⟩

end Report

end TildeMarkup
