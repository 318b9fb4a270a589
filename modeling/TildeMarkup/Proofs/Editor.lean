import TildeMarkup.Editor
import TildeMarkup.Proofs.Report

/-!
# What an editor is told

Every notification is answered by what compiling its text gives, whatever came before it, and the
place is that of the report in other units (`serve_agrees`). The marked range starts in front of the
first character at fault. It ends behind the last, or in the middle of the two UTF-16 units of a
character that the fault has only the first byte of (`diagnose_range`).
-/

namespace TildeMarkup.Editor

open Utf8

/-! ## Places -/

/-- The place behind some characters from the start of a document on: as many lines down as there are line
feeds, and the units of the last line to the right. -/
def Place.after (front : List Char) : Place :=
  ⟨front.count '\n', units16 (lastLine front)⟩

instance : LE Place :=
  ⟨fun a b => a.line < b.line ∨ a.line = b.line ∧ a.character ≤ b.character⟩

/-- A place is real if its line is one of the document, and whole characters of the line are in front of
it. -/
def Place.IsReal (text : String) (place : Place) : Prop :=
  ∃ line front, (text.toList.splitOn '\n')[place.line]? = some line ∧ front <+: line
    ∧ place.character = units16 front

section Places

variable {text : String} {front mid back cs ds : List Char} {c : Char}

/-- Units of characters are counted one after the other. -/
theorem units16_append (cs ds : List Char) : units16 (cs ++ ds) = units16 cs + units16 ds := by
  simp only [units16, List.length_append, List.countP_append]
  omega

theorem units16_le_of_prefix (h : cs <+: ds) : units16 cs ≤ units16 ds := by
  obtain ⟨rest, rfl⟩ := h
  rw [units16_append]
  exact Nat.le_add_right _ _

theorem units16_singleton (c : Char) : units16 [c] = if 0x10000 ≤ c.toNat then 2 else 1 := by
  rw [units16, List.countP_singleton]
  by_cases h : 0x10000 ≤ c.toNat
  · simp [h]
  · simp [h]

/-- More characters lie further down, or further to the right on the same line. -/
theorem Place.after_le (front mid : List Char) : Place.after front ≤ Place.after (front ++ mid) := by
  by_cases hfeed : '\n' ∈ mid
  · refine .inl ?_
    have hcount : 0 < mid.count '\n' := List.count_pos_iff.2 hfeed
    simp only [after, List.count_append]
    omega
  · refine .inr ⟨?_, ?_⟩
    · simp only [after, List.count_append, List.count_eq_zero.2 hfeed, Nat.add_zero]
    · simp only [after, lastLine_append hfeed]
      exact units16_le_of_prefix (List.prefix_append _ _)

/-- Behind whole characters of the document there is a real place. -/
theorem Place.isReal_after (h : text.toList = front ++ back) : (Place.after front).IsReal text := by
  have hline := getElem?_splitOn front back
  rw [← h] at hline
  exact ⟨_, lastLine front, hline, List.prefix_append _ _, rfl⟩

/-- Between the two units of a character is no real place. -/
theorem Place.not_isReal (h : text.toList = front ++ c :: back) (hc : 0x10000 ≤ c.toNat) :
    ¬ Place.IsReal text ⟨front.count '\n', units16 (lastLine front) + 1⟩ := by
  rintro ⟨line, cs, hline, hprefix, hunits⟩
  have hne : c ≠ '\n' := by
    rintro rfl
    exact absurd hc (by decide)
  have hthis : line = lastLine front ++ c :: back.takeWhile (· != '\n') := by
    rw [h, getElem?_splitOn, List.takeWhile_cons_of_pos (by simpa using hne)] at hline
    exact (Option.some.inj hline).symm
  rw [hthis] at hprefix
  dsimp only at hunits
  -- Whole characters of the line either end in front of this one or take in both of its units.
  rcases prefix_append_cases hprefix with hinside | ⟨part, hpart, rfl⟩
  · have hle := units16_le_of_prefix hinside
    omega
  · rw [units16_append] at hunits
    cases part with
    | nil => exact absurd hunits (by simp [units16])
    | cons d more =>
      obtain ⟨rfl, -⟩ := List.cons_prefix_cons.1 hpart
      have hsplit : units16 (d :: more) = units16 [d] + units16 more := units16_append [d] more
      rw [hsplit, units16_singleton, if_pos hc] at hunits
      omega

end Places

/-! ## The range of a fault -/

/-- A span that is the first byte of one character, which has two UTF-16 units. -/
def Halves (span : Span) (mid : List Char) : Prop :=
  ∃ c, mid = [c] ∧ 0x10000 ≤ c.toNat ∧ span.stop = span.start + 1

section Range

variable {source : Bytes} {span : Span} {front mid back : List Char}

/-- The start of a span is in front of its first character. -/
theorem ofOffset_start (h : span.Touches source front mid back) :
    Place.ofOffset source span.start = .after front := by
  rw [Place.ofOffset, h.count_start, h.line_start, Place.after]

/-- The end of a span is behind the last character of it, or in the middle of one. -/
theorem ofOffset_stop (h : span.Touches source front mid back) :
    ¬ Halves span mid ∧ Place.ofOffset source span.stop = .after (front ++ mid)
      ∨ Halves span mid
        ∧ Place.ofOffset source span.stop = ⟨front.count '\n', units16 (lastLine front) + 1⟩ := by
  rw [Place.ofOffset, h.count_stop]
  rcases h.line_stop with ⟨hstop, hwhole⟩ | ⟨c, rfl, hsize, hstop, hline, hcut⟩
  · refine .inl ⟨?_, by rw [hwhole, Place.after]⟩
    rintro ⟨c, rfl, hc, hfirst⟩
    -- A span of one byte that is a whole character is an ASCII one, which has a single unit.
    have hsize : c.utf8Size = 1 := by
      have hstart := h.start_eq
      rw [encodeChars_append, List.length_append, length_encodeChars_cons, encodeChars,
        encodeChars, List.flatMap_nil, List.length_nil] at hstop
      rw [encodeChars] at hstart
      omega
    have hsmall := (utf8EncodeChar_of_le hsize.le.not_gt).2
    omega
  · have hunits : units16 (lastLine front ++ [replacement]) = units16 (lastLine front) + 1 :=
      units16_append _ _
    rw [hcut, hunits]
    -- The cut character is decoded to a replacement of one unit, so what counts is how many it has itself.
    by_cases hc : 0x10000 ≤ c.toNat
    · refine .inr ⟨⟨c, rfl, hc, hstop⟩, ?_⟩
      rw [List.count_append, List.count_singleton,
        if_neg (by simpa using ne_lineFeed_of_size hsize), Nat.add_zero]
    · refine .inl ⟨?_, ?_⟩
      · rintro ⟨d, hd, hlarge, -⟩
        exact hc (List.singleton_inj.1 hd ▸ hlarge)
      · rw [Place.after, hline, units16_append, units16_singleton, if_neg hc]

/-- A text that does not compile has one diagnostic, for its fault, which touches certain characters. -/
theorem exists_diagnostic {text : String} {failure : Failure}
    (h : compile (encode text) = .error failure) :
    ∃ fault front mid back, failure = .fault fault
      ∧ diagnose text = [.ofFault (encode text) fault]
      ∧ fault.span.Touches (encode text) front mid back := by
  obtain ⟨fault, front, mid, back, rfl, htouches, -⟩ := exists_touches (IsValid.encode text) h
  exact ⟨fault, front, mid, back, rfl, by rw [diagnose, h], htouches⟩

/-- The characters that a span touches, in front of it and behind it, are those of the text. -/
theorem toList_of_touches {text : String} (h : span.Touches (encode text) front mid back) :
    text.toList = front ++ (mid ++ back) :=
  (encodeChars_injective h.source_eq).symm

/-- The range starts at a real place, in front of the first character at fault. If it ends at a real
place, that is behind the last character at fault. It does, unless the fault is the first byte of a
character of two units. -/
theorem diagnose_range {text : String} {failure : Failure}
    (h : compile (encode text) = .error failure) :
    ∃ fault diagnostic front mid back, failure = .fault fault ∧ diagnose text = [diagnostic]
      ∧ fault.span.Touches (encode text) front mid back
      ∧ diagnostic.start = .after front ∧ diagnostic.start.IsReal text
      ∧ (diagnostic.stop.IsReal text ↔ ¬ Halves fault.span mid)
      ∧ (diagnostic.stop.IsReal text → diagnostic.stop = .after (front ++ mid)) := by
  obtain ⟨fault, front, mid, back, hfailure, hdiagnose, htouches⟩ := exists_diagnostic h
  have htext := toList_of_touches htouches
  have hstart : (Diagnostic.ofFault (encode text) fault).start = .after front :=
    ofOffset_start htouches
  refine ⟨fault, _, front, mid, back, hfailure, hdiagnose, htouches, hstart, ?_, ?_⟩
  · rw [hstart]
    exact Place.isReal_after htext
  · rw [Diagnostic.ofFault]
    rcases ofOffset_stop htouches with ⟨hwhole, hstop⟩ | ⟨hhalf, hstop⟩
    · have hreal : (Place.after (front ++ mid)).IsReal text :=
        Place.isReal_after (by rw [htext, List.append_assoc])
      rw [hstop]
      exact ⟨⟨fun _ => hwhole, fun _ => hreal⟩, fun _ => rfl⟩
    · obtain ⟨c, rfl, hc, hfirst⟩ := hhalf
      have hunreal : ¬ Place.IsReal text ⟨front.count '\n', units16 (lastLine front) + 1⟩ :=
        Place.not_isReal htext hc
      rw [hstop]
      exact ⟨⟨fun hreal => absurd hreal hunreal, fun hnot => absurd ⟨c, rfl, hc, hfirst⟩ hnot⟩,
        fun hreal => absurd hreal hunreal⟩

theorem encode_halved : encode "~i😀" = [tilde, 0x69, 0xf0, 0x9f, 0x98, 0x80] := by
  decide

theorem compile_halved :
    compile (encode "~i😀") = .error (.fault ⟨.expectedArguments [0xf0], ⟨2, 3⟩⟩) := by
  rw [encode_halved]
  rfl

theorem diagnose_range_sample :
    compile (encode "~i😀") = .error (.fault ⟨.expectedArguments [0xf0], ⟨2, 3⟩⟩)
      ∧ ∃ diagnostic front mid back, diagnose "~i😀" = [diagnostic]
        ∧ Span.Touches (encode "~i😀") ⟨2, 3⟩ front mid back
        ∧ diagnostic.start = .after front ∧ diagnostic.start.IsReal "~i😀"
        ∧ (diagnostic.stop.IsReal "~i😀" ↔ ¬ Halves ⟨2, 3⟩ mid) := by
  refine ⟨compile_halved, ?_⟩
  obtain ⟨fault, diagnostic, front, mid, back, hfault, hdiagnose, htouches, hstart, hreal, hstop, -⟩ :=
    diagnose_range compile_halved
  cases hfault
  exact ⟨diagnostic, front, mid, back, hdiagnose, htouches, hstart, hreal, hstop⟩

/-- Behind `~i` the fault is the first byte of `😀`, and the range ends between the units of it. -/
theorem exists_stop_not_real :
    ∃ diagnostic, diagnose "~i😀" = [diagnostic] ∧ diagnostic.stop = ⟨0, 3⟩
      ∧ ¬ diagnostic.stop.IsReal "~i😀" := by
  refine ⟨_, by rw [diagnose, compile_halved], ?_⟩
  have hstop : Place.ofOffset (encode "~i😀") 3 = ⟨0, 3⟩ := by
    rw [encode_halved]
    rfl
  refine ⟨hstop, ?_⟩
  rw [Diagnostic.ofFault, hstop]
  have htext : "~i😀".toList = ['~', 'i'] ++ '😀' :: [] := by decide
  exact Place.not_isReal htext (by decide)

end Range

/-! ## What is published -/

/-- What a diagnostic says is what the report on a fault says, under any file name. Its column counts
units, of which a character above U+FFFF has one more. -/
structure Diagnostic.Reports (diagnostic : Diagnostic) (text : String) (fault : Fault) : Prop where
  message : diagnostic.message = fault.cause.message
  le : diagnostic.start ≤ diagnostic.stop
  place : ∃ before left right after, fault.span.StartsOn (encode text) before left right after
    ∧ ∀ fileName, ∃ view : Report.View, Report.format fileName (encode text) fault = view.text
      ∧ view.message = diagnostic.message ∧ view.fileName = fileName
      ∧ diagnostic.start.line = view.line - 1
      ∧ diagnostic.start.character
        = view.column - 1 + left.countP fun c => 0x10000 ≤ c.toNat

/-- The diagnostic of a fault says what the report on it says. -/
theorem reports_ofFault {text : String} {fault : Fault} {front mid back : List Char}
    (h : fault.span.Touches (encode text) front mid back) :
    (Diagnostic.ofFault (encode text) fault).Reports text fault := by
  obtain ⟨before, after, hline⟩ := h.exists_startsOn
  refine ⟨rfl, ?_, before, _, _, after, hline, fun fileName =>
    ⟨.ofFault fileName (encode text) fault, Report.format_eq_text fileName _ fault, rfl, rfl, rfl, ?_⟩⟩
  · rcases ofOffset_stop h with ⟨-, hstop⟩ | ⟨-, hstop⟩
    · rw [Diagnostic.ofFault, ofOffset_start h, hstop]
      exact Place.after_le front mid
    · rw [Diagnostic.ofFault, ofOffset_start h, hstop]
      exact .inr ⟨rfl, Nat.le_succ _⟩
  · rw [Report.View.ofFault, Position.ofOffset, Diagnostic.ofFault, Place.ofOffset, h.line_start,
      Nat.add_sub_cancel]
    rfl

section Server

variable {W : Type} {workspace : Workspace W}

/-- The text that is looked up is the last that was stored. -/
def Workspace.Stores (workspace : Workspace W) : Prop :=
  ∀ documents document text,
    workspace.text (workspace.put documents document text) document = text

/-- A table that is looked up from its front stores texts, since it is put to from there. -/
theorem table_stores : table.Stores := by
  intro documents document text
  simp [table]

/-- Each notification is answered by its own text. -/
theorem serve_eq_map (h : workspace.Stores) (documents : W) (notes : List Notification) :
    serve workspace documents notes
      = notes.map fun note => ⟨note.document, diagnose note.text⟩ := by
  -- The texts that are stored by others are looked up by nobody, so by induction over any documents.
  induction notes generalizing documents with
  | nil => rfl
  | cons note rest ih =>
    rw [List.map_cons, ← ih (workspace.put documents note.document note.text), serve, receive, validate,
      h]

/-- Every notification is answered, for its document and by its text alone: by nothing if the text
compiles, else by one diagnostic, which says what the report on the fault says. -/
theorem serve_agrees (h : workspace.Stores) (documents : W) (notes : List Notification) :
    (serve workspace documents notes).length = notes.length
      ∧ ∀ (k : Nat) (note : Notification), notes[k]? = some note → ∃ diagnostics,
        (serve workspace documents notes)[k]? = some ⟨note.document, diagnostics⟩
        ∧ diagnostics = diagnose note.text
        ∧ (diagnostics = [] ↔ ∃ html, compile (encode note.text) = .ok html)
        ∧ ∀ failure, compile (encode note.text) = .error failure →
          ∃ fault diagnostic, failure = .fault fault ∧ diagnostics = [diagnostic]
            ∧ diagnostic.Reports note.text fault := by
  rw [serve_eq_map h]
  refine ⟨List.length_map _, fun k note hnote => ⟨diagnose note.text, ?_, rfl, ?_, ?_⟩⟩
  · rw [List.getElem?_map, hnote, Option.map_some]
  · cases hcompile : compile (encode note.text) with
    | ok html => exact ⟨fun _ => ⟨html, rfl⟩, fun _ => by rw [diagnose, hcompile]⟩
    | error failure =>
      obtain ⟨fault, front, mid, back, -, hdiagnose, -⟩ := exists_diagnostic hcompile
      rw [hdiagnose]
      constructor
      · intro hnone
        cases hnone
      · rintro ⟨html, hok⟩
        cases hok
  · intro failure hcompile
    obtain ⟨fault, front, mid, back, hfault, hdiagnose, htouches⟩ := exists_diagnostic hcompile
    exact ⟨fault, _, hfault, hdiagnose, reports_ofFault htouches⟩

/-- Between two changes of one document, another is opened, in which a character of two units stands in
front of the fault. -/
theorem serve_agrees_sample :
    table.Stores
      ∧ compile (encode "😀~i!") = .error (.fault ⟨.expectedArguments [0x21], ⟨6, 7⟩⟩)
      ∧ ∃ diagnostic : Diagnostic,
        (publish [⟨"a", "x"⟩, ⟨"b", "😀~i!"⟩, ⟨"a", "~"⟩])[1]? = some ⟨"b", [diagnostic]⟩
        ∧ diagnostic.Reports "😀~i!" ⟨.expectedArguments [0x21], ⟨6, 7⟩⟩ := by
  have hbytes : encode "😀~i!" = [0xf0, 0x9f, 0x98, 0x80, tilde, 0x69, 0x21] := by decide
  have hcompile : compile (encode "😀~i!") = .error (.fault ⟨.expectedArguments [0x21], ⟨6, 7⟩⟩) := by
    rw [hbytes]
    rfl
  obtain ⟨-, hall⟩ := serve_agrees table_stores [] [⟨"a", "x"⟩, ⟨"b", "😀~i!"⟩, ⟨"a", "~"⟩]
  obtain ⟨diagnostics, hpublished, -, -, hreports⟩ := hall 1 ⟨"b", "😀~i!"⟩ rfl
  obtain ⟨fault, diagnostic, hfault, rfl, hsame⟩ := hreports _ hcompile
  cases hfault
  exact ⟨table_stores, hcompile, diagnostic, hpublished, hsame⟩

end Server

end TildeMarkup.Editor
