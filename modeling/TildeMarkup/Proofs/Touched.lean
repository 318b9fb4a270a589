import TildeMarkup.Proofs.Position
import TildeMarkup.Proofs.Reader.High

/-!
# The characters of a fault

A fault has a span of bytes, and is shown to a reader as characters. `Span.Touches` says which
characters a span has bytes of. A fault always starts with the first of its characters
(`exists_touches`). It ends with the last of them, unless it is that of a single byte: then it may end
inside of the one character that it has.
-/

namespace TildeMarkup

open Reader Spelling Utf8

/-- The source is `front`, `mid` and `back`, and the span has bytes of all characters of `mid`, and of no
others. It starts with the first of them. It ends with the last, or is the first byte of a single
one. -/
structure Span.Touches (source : Bytes) (span : Span) (front mid back : List Char) : Prop where
  source_eq : encodeChars (front ++ (mid ++ back)) = source
  start_eq : (encodeChars front).length = span.start
  stop_eq : span.stop = (encodeChars (front ++ mid)).length
    ∨ ∃ c, mid = [c] ∧ 1 < c.utf8Size ∧ span.stop = span.start + 1

/-! ## Counting characters -/

/-- Two spans have a byte in common; a span without bytes meets none. -/
def Span.Meets (a b : Span) : Prop :=
  ∃ n, (a.start ≤ n ∧ n < a.stop) ∧ b.start ≤ n ∧ n < b.stop

theorem Span.meets_iff {a b : Span} : a.Meets b ↔ max a.start b.start < min a.stop b.stop := by
  constructor
  · rintro ⟨n, ha, hb⟩
    omega
  · intro h
    exact ⟨max a.start b.start, by omega⟩

instance (a b : Span) : Decidable (a.Meets b) :=
  decidable_of_iff _ Span.meets_iff.symm

/-- The spans of some characters, of which the first starts at an offset. -/
def charSpans : Nat → List Char → List Span
  | _, [] => []
  | n, c :: rest => ⟨n, n + c.utf8Size⟩ :: charSpans (n + c.utf8Size) rest

/-- How many of some characters a span has bytes of. The first of them starts at an offset. -/
def Span.overlap (span : Span) (n : Nat) (cs : List Char) : Nat :=
  (charSpans n cs).countP (·.Meets span)

section Overlap

variable {span : Span} {n : Nat} {cs : List Char}

/-- The spans of characters one after the other, where the second ones start behind the bytes of the
first. -/
theorem charSpans_append (n : Nat) (cs ds : List Char) :
    charSpans n (cs ++ ds) = charSpans n cs ++ charSpans (n + (encodeChars cs).length) ds := by
  induction cs generalizing n with
  | nil => rfl
  | cons c rest ih =>
    rw [List.cons_append, charSpans, charSpans, ih, length_encodeChars_cons, Nat.add_assoc]
    rfl

theorem Span.overlap_append (span : Span) (n : Nat) (cs ds : List Char) :
    span.overlap n (cs ++ ds)
      = span.overlap n cs + span.overlap (n + (encodeChars cs).length) ds := by
  rw [overlap, charSpans_append, List.countP_append]
  rfl

/-- Of the first character a span has a byte or not, and the others are counted from behind it. -/
theorem Span.overlap_cons (span : Span) (n : Nat) (c : Char) (rest : List Char) :
    span.overlap n (c :: rest)
      = span.overlap (n + c.utf8Size) rest
        + if max n span.start < min (n + c.utf8Size) span.stop then 1 else 0 := by
  simp only [overlap, charSpans, List.countP_cons, decide_eq_true_eq, meets_iff]

/-- A span has no bytes of characters that end in front of it. -/
theorem Span.overlap_before (h : n + (encodeChars cs).length ≤ span.start) :
    span.overlap n cs = 0 := by
  induction cs generalizing n with
  | nil => rfl
  | cons c rest ih =>
    rw [length_encodeChars_cons] at h
    rw [overlap_cons, ih (by omega), if_neg (by omega)]

/-- A span has no bytes of characters that start where it ends, or later. -/
theorem Span.overlap_behind (h : span.stop ≤ n) : span.overlap n cs = 0 := by
  induction cs generalizing n with
  | nil => rfl
  | cons c rest ih =>
    rw [overlap_cons, ih (by omega), if_neg (by omega)]

/-- A span has bytes of all characters that stand between its ends. -/
theorem Span.overlap_within (hstart : span.start ≤ n)
    (hstop : n + (encodeChars cs).length ≤ span.stop) : span.overlap n cs = cs.length := by
  induction cs generalizing n with
  | nil => rfl
  | cons c rest ih =>
    have hsize := c.utf8Size_pos
    rw [length_encodeChars_cons] at hstop
    rw [overlap_cons, ih (by omega) (by omega), if_pos (by omega), List.length_cons]

theorem Span.overlap_le_of_prefix {ds : List Char} (h : cs <+: ds) :
    span.overlap n cs ≤ span.overlap n ds := by
  obtain ⟨more, rfl⟩ := h
  rw [overlap_append]
  exact Nat.le_add_right _ _

end Overlap

namespace Span.Touches

variable {source : Bytes} {span : Span} {front mid back : List Char}

/-- The characters that a span touches are those that it has bytes of, a cut one among them. -/
theorem overlap_mid (h : span.Touches source front mid back) :
    span.overlap span.start mid = mid.length := by
  have hstart := h.start_eq
  rcases h.stop_eq with hstop | ⟨c, rfl, hsize, hstop⟩
  · rw [encodeChars_append, List.length_append, hstart] at hstop
    exact overlap_within (Nat.le_refl _) hstop.ge
  · rw [overlap_cons, if_pos (by omega)]
    rfl

theorem overlap_back (h : span.Touches source front mid back) :
    span.overlap (span.start + (encodeChars mid).length) back = 0 := by
  have hstart := h.start_eq
  apply overlap_behind
  rcases h.stop_eq with hstop | ⟨c, rfl, hsize, hstop⟩
  · rw [hstop, encodeChars_append, List.length_append, hstart]
  · rw [length_encodeChars_cons]
    omega

/-! The lines on which a span starts and ends are those of its characters. -/

theorem take_start (h : span.Touches source front mid back) :
    source.take span.start = encodeChars front ++ [] := by
  rw [← h.source_eq, encodeChars_append, ← h.start_eq, List.take_left, List.append_nil]

theorem count_start (h : span.Touches source front mid back) :
    (source.take span.start).count lineFeed = front.count '\n' :=
  count_take h.take_start List.not_mem_nil

theorem line_start (h : span.Touches source front mid back) :
    decodeChars (Position.linePrefix source span.start) = lastLine front := by
  rw [decodeChars_linePrefix h.take_start List.not_mem_nil]
  exact List.append_nil _

/-- In front of the end are whole characters, or those in front of a character that is cut and a byte
that is no character. -/
theorem take_stop (h : span.Touches source front mid back) :
    (span.stop = (encodeChars (front ++ mid)).length
        ∧ source.take span.stop = encodeChars (front ++ mid) ++ [])
      ∨ ∃ c cut, mid = [c] ∧ 1 < c.utf8Size ∧ lineFeed ∉ cut ∧ decodeChars cut = [replacement]
        ∧ span.stop = span.start + 1 ∧ source.take span.stop = encodeChars front ++ cut := by
  -- The span ends with a character, or behind the first byte of the one that it has.
  rcases h.stop_eq with hstop | ⟨c, rfl, hsize, hstop⟩
  · refine .inl ⟨hstop, ?_⟩
    rw [← h.source_eq, ← List.append_assoc, encodeChars_append, hstop, List.take_left,
      List.append_nil]
  · obtain ⟨b, rest, hbytes, -, -⟩ := exists_completes hsize
    have hlength : 1 < (b :: rest).length := by rwa [← hbytes, String.length_utf8EncodeChar]
    refine .inr ⟨c, [b], rfl, hsize, ?_, ?_, hstop, ?_⟩
    · intro hfeed
      have hsingle := utf8EncodeChar_eq_singleton_of_mem (c := c) (b := lineFeed) (by decide)
        (by rw [hbytes, List.mem_singleton.1 hfeed]; exact List.mem_cons_self)
      rw [← hbytes, hsingle] at hlength
      exact absurd hlength (by decide)
    · have hrest : rest ≠ [] := List.ne_nil_of_length_pos (Nat.lt_of_succ_lt_succ hlength)
      have hsplit : String.utf8EncodeChar c = [b] ++ rest := hbytes
      exact decodeFrom_cut hsplit (List.cons_ne_nil b []) hrest
    · rw [← h.source_eq, hstop, ← h.start_eq, encodeChars_append, List.take_length_add_append,
        encodeChars_append [c], encodeChars, encodeChars, List.flatMap_singleton, hbytes]
      rfl

/-- A character that is cut is no line feed, so the line of the end is that of the whole characters. -/
theorem count_stop (h : span.Touches source front mid back) :
    (source.take span.stop).count lineFeed = (front ++ mid).count '\n' := by
  rcases h.take_stop with ⟨-, hwhole⟩ | ⟨c, cut, rfl, hsize, hfeed, -, -, hcut⟩
  · exact count_take hwhole List.not_mem_nil
  · rw [count_take hcut hfeed, List.count_append, List.count_singleton,
      if_neg (by simpa using ne_lineFeed_of_size hsize), Nat.add_zero]

/-- The line up to the end is that of the characters. A character that is cut is read as one, which need
not be itself. -/
theorem line_stop (h : span.Touches source front mid back) :
    (span.stop = (encodeChars (front ++ mid)).length
        ∧ decodeChars (Position.linePrefix source span.stop) = lastLine (front ++ mid))
      ∨ ∃ c, mid = [c] ∧ 1 < c.utf8Size ∧ span.stop = span.start + 1
        ∧ lastLine (front ++ mid) = lastLine front ++ [c]
        ∧ decodeChars (Position.linePrefix source span.stop) = lastLine front ++ [replacement] := by
  rcases h.take_stop with ⟨hstop, hwhole⟩ | ⟨c, cut, rfl, hsize, hfeed, hread, hstop, hcut⟩
  · refine .inl ⟨hstop, ?_⟩
    rw [decodeChars_linePrefix hwhole List.not_mem_nil]
    exact List.append_nil _
  · refine .inr ⟨c, rfl, hsize, hstop, lastLine_snoc (ne_lineFeed_of_size hsize), ?_⟩
    rw [decodeChars_linePrefix hcut hfeed, hread]

theorem length_line_stop (h : span.Touches source front mid back) :
    (decodeChars (Position.linePrefix source span.stop)).length = (lastLine (front ++ mid)).length := by
  rcases h.line_stop with ⟨-, hwhole⟩ | ⟨c, -, -, -, hline, hcut⟩
  · rw [hwhole]
  · rw [hcut, hline, List.length_append, List.length_append]
    rfl

end Span.Touches

/-! ## Spans between boundaries -/

theorem Utf8.IsBoundary.exists_chars {source : Bytes} {n : Nat} (h : IsBoundary source n) :
    ∃ front back, encodeChars (front ++ back) = source ∧ (encodeChars front).length = n := by
  obtain ⟨before, after, rfl, rfl, ⟨front, rfl⟩, ⟨back, rfl⟩⟩ := h
  exact ⟨front, back, encodeChars_append front back, rfl⟩

/-- A span between two boundaries has the bytes of whole characters, and touches just these. -/
theorem Span.OnBoundaries.exists_touches {source : Bytes} {span : Span}
    (h : span.OnBoundaries source) (hle : span.start ≤ span.stop) :
    ∃ front mid back, span.Touches source front mid back ∧ encodeChars mid = span.slice source := by
  obtain ⟨front, rest, hsource, hfront⟩ := h.start.exists_chars
  obtain ⟨longer, back, hsame, hlonger⟩ := h.stop.exists_chars
  obtain ⟨mid, hmid⟩ := h.start.isValid_slice h.stop
  have hslice : encodeChars mid = span.slice source := hmid
  -- the characters in front of the end are those in front of the start, and those of the span
  have htake : encodeChars longer = encodeChars (front ++ mid) := by
    have hfirst : source.take span.start = encodeChars front := by
      rw [← hsource, encodeChars_append, ← hfront, List.take_left]
    have hlast : source.take span.stop = encodeChars longer := by
      rw [← hsame, encodeChars_append, ← hlonger, List.take_left]
    rw [← hlast, encodeChars_append, hslice, Span.slice, ← hfirst, ← List.take_add,
      Nat.add_sub_cancel' hle]
  have hchars := encodeChars_injective htake
  subst hchars
  refine ⟨front, mid, back, ⟨?_, hfront, .inl hlonger.symm⟩, hslice⟩
  rw [← List.append_assoc, hsame]

/-! ## Faults of reading -/

/-- The byte at which a source is refused is that of a character by itself, or the first of several. -/
theorem exists_touches_of_parse {source : Bytes} {fault : Fault} (hvalid : IsValid source)
    (h : parse source = .error fault) :
    ∃ front mid back, fault.span.Touches source front mid back ∧ mid.length ≤ 1 := by
  obtain ⟨front, rest, hsource, hfront⟩ := (isBoundary_of_parse hvalid h).exists_chars
  -- The fault is at a byte, which some character starts with, or at the end with no byte at all.
  rcases (ofReading_of_parse h).place with ⟨_, hstop, hle⟩ | ⟨_, hspan⟩
  · cases rest with
    | nil =>
      rw [List.append_nil] at hsource
      rw [← hsource, hfront] at hle
      omega
    | cons c back =>
      refine ⟨front, [c], back, ⟨hsource, hfront, ?_⟩, Nat.le_refl 1⟩
      by_cases hsize : 1 < c.utf8Size
      · exact .inr ⟨c, rfl, hsize, hstop⟩
      · refine .inl ?_
        rw [encodeChars_append, List.length_append, hfront, hstop, encodeChars,
          List.flatMap_singleton, (utf8EncodeChar_of_le hsize).1]
        rfl
  · have hlength : fault.span.start = source.length := by rw [hspan]
    refine ⟨front, [], rest, ⟨hsource, hfront, .inl ?_⟩, Nat.zero_le 1⟩
    rw [List.append_nil, hfront, hlength, hspan]

/-! ## Faults of rendering -/

section Rendering

variable {parts : List Part} {opened : List Bracket} {source : Bytes} {arena : Arena} {name : Span}
  {args : List (Argument Nat)}

/-- The last byte of an argument is a letter, a quote or a closer, so it is no carriage return. -/
theorem Spelling.Arg.getLast?_bytes {arg : Arg} {blocks : Bool} (hfits : arg.Fits blocks)
    (harg : arg.isSeparator = false) : arg.bytes.getLast? ≠ some carriageReturn := by
  -- A letter is no return; every other argument ends in its own delimiter.
  cases arg with
  | blank => cases harg
  | comma => cases harg
  | ident letters =>
    intro hlast
    have hletter := List.all_eq_true.1 hfits.2 _ (List.mem_of_getLast? hlast)
    exact absurd hletter (by decide)
  | string raw =>
    rw [Arg.bytes, ← List.cons_append, List.getLast?_concat]
    decide
  | inline part =>
    rw [Arg.bytes, ← List.cons_append, List.getLast?_concat]
    decide
  | block parts =>
    rw [Arg.bytes, ← List.cons_append, List.getLast?_concat]
    decide

/-- What is read of an argument has the span of its bytes. -/
theorem Spelling.Arg.slice_of_mem_arguments {arg : Arg} {blocks : Bool} {n : Nat} {a : Argument Tree}
    (hfits : arg.Fits blocks) (hat : At source n arg.bytes) (ha : a ∈ arg.arguments n) :
    arg.isSeparator = false ∧ a.span.slice source = arg.bytes := by
  have harg : arg.isSeparator = false := by
    cases arg with
    | blank => cases ha
    | comma => cases ha
    | _ => rfl
  obtain ⟨found, hfound, hspan, _⟩ := Arg.arguments_eq_singleton hfits harg n
  rw [hfound] at ha
  rw [List.mem_singleton.1 ha, hspan]
  exact ⟨harg, hat.slice⟩

/-- No span of a command ends with a carriage return, neither that of its name nor that of an argument. -/
theorem Spelling.getLast?_of_has (hparts : IsDocument parts opened) {name : Span}
    {args : List (Argument Tree)} (h : (documentTree parts).Has (.command name args)) {span : Span}
    (hspan : span ∈ (Node.command name args).spans) :
    (span.slice (Part.bytesAll parts)).getLast? ≠ some carriageReturn := by
  obtain ⟨m, letters, gap, listed, spelled, hholds, rfl, rfl⟩ := holds_command h
  obtain ⟨hname, _, _, blocks, hargs⟩ := hholds.fits_call hparts
  -- The name is of letters, and every other span is that of an argument.
  rcases List.mem_cons.1 hspan with rfl | hspan
  · have hat := hholds.located
    rw [Part.bytes] at hat
    rw [hat.tail.left.slice]
    intro hlast
    have hletter := List.all_eq_true.1 hname _ (List.mem_of_getLast? hlast)
    exact absurd hletter (by decide)
  · obtain ⟨a, ha, rfl⟩ := List.mem_map.1 hspan
    obtain ⟨front, arg, back, rfl, hmem⟩ := Arg.exists_of_mem_argumentsAll ha
    have hfits := (Arg.fitsAll_append.1 hargs).2.1
    obtain ⟨harg, hslice⟩ := Arg.slice_of_mem_arguments hfits (at_arg hholds.located) hmem
    rw [hslice]
    exact Arg.getLast?_bytes hfits harg

/-- A command of an arena is one of the tree, with the same spans. -/
theorem exists_command_of_get? (h : parse source = .ok arena) {id : Nat}
    (hid : arena.get? id = some (.command name args)) :
    ∃ parts opened more, IsDocument parts opened ∧ source = Part.bytesAll parts
      ∧ (documentTree parts).Has (.command name more)
      ∧ more.map Argument.span = args.map Argument.span := by
  obtain ⟨parts, opened, hparts, rfl, rfl⟩ := spelled_of_parse h
  obtain ⟨layer, hhas, hshape⟩ := Tree.mem_preorder.1 (Arena.exists_get?_iff.1 ⟨id, _, hid, rfl⟩)
  obtain ⟨more, rfl, hmore⟩ := Node.shape_eq_command hshape
  refine ⟨parts, opened, more, hparts, rfl, hhas, ?_⟩
  have hspans := congrArg (List.map Argument.span) hmore
  simpa [Function.comp_def] using hspans

/-- What a fault of rendering is shown at is one of the spans of the command. -/
theorem Cause.ShownAt.mem_spans {span : Span} {cause : Cause} (h : cause.ShownAt name args span) :
    span ∈ (Node.command name args).spans := by
  cases cause with
  | unknownCommand => exact List.mem_cons.2 (.inl h)
  | argumentCount => exact List.mem_cons.2 (.inl h)
  | argumentKind =>
    obtain ⟨arg, harg, rfl⟩ := h
    exact List.mem_cons_of_mem name (List.mem_map_of_mem harg)
  | unknownLanguage =>
    obtain ⟨arg, harg, rfl⟩ := h
    exact List.mem_cons_of_mem name (List.mem_map_of_mem (List.mem_of_head? harg))
  | _ => exact h.elim

/-- What a fault of rendering is shown at has whole characters, and the last is no carriage return. -/
theorem exists_touches_of_shownAt (hvalid : IsValid source) (h : parse source = .ok arena) {id : Nat}
    (hid : arena.get? id = some (.command name args)) {span : Span} {cause : Cause}
    (hshown : cause.ShownAt name args span) :
    ∃ front mid back, span.Touches source front mid back ∧ mid.getLast? ≠ some '\r' := by
  obtain ⟨hname, hargs⟩ := inside_of_get? h hid
  have hinside := inside_of_shownAt hshown hname hargs
  obtain ⟨parts, opened, more, hparts, rfl, hhas, hspans⟩ := exists_command_of_get? h hid
  have hmem : span ∈ (Node.command name more).spans := by
    have hshownAt := hshown.mem_spans
    rw [Node.spans, ← hspans] at hshownAt
    exact hshownAt
  have hends := (onBoundaries_of_has hparts hvalid hhas).1 _ hmem
  obtain ⟨front, mid, back, htouches, hslice⟩ := hends.exists_touches hinside.1
  refine ⟨front, mid, back, htouches, fun hlast => ?_⟩
  obtain ⟨init, rfl⟩ := List.getLast?_eq_some_iff.1 hlast
  apply getLast?_of_has hparts hhas hmem
  rw [← hslice, encodeChars_append]
  exact List.getLast?_concat

end Rendering

/-! ## All faults -/

/-- If a source in UTF-8 does not compile, its fault has bytes of certain characters, and starts with the
first of them. If there are several, the last is no carriage return. -/
theorem exists_touches {source : Bytes} {failure : Failure} (hvalid : IsValid source)
    (h : compile source = .error failure) :
    ∃ fault front mid back, failure = .fault fault ∧ fault.span.Touches source front mid back
      ∧ (mid.length ≤ 1 ∨ mid.getLast? ≠ some '\r') := by
  -- A fault of reading has one character at most; one of rendering has a span of its command.
  cases hparse : parse source with
  | error fault =>
    rw [compile_of_error hparse] at h
    cases h
    obtain ⟨front, mid, back, htouches, hlength⟩ := exists_touches_of_parse hvalid hparse
    exact ⟨fault, front, mid, back, rfl, htouches, .inl hlength⟩
  | ok arena =>
    rw [compile_of_ok hparse] at h
    obtain ⟨id, name, args, fault, hfirst, hfault, rfl⟩ := firstInvalid_of_render hparse h
    obtain ⟨front, mid, back, htouches, hlast⟩ :=
      exists_touches_of_shownAt hvalid hparse hfirst.get (shownAt_of_firstFault hfault)
    exact ⟨fault, front, mid, back, rfl, htouches, .inr hlast⟩

end TildeMarkup
