import TildeMarkup.Proofs.Descent.Outcome
import TildeMarkup.Proofs.Document.Strings
import TildeMarkup.Proofs.Source

/-!
# The stack from one cursor to another

Between two cursors the stack changes as in a plain scan of the bytes in between, without the strings that
are found there. `Takes` says so of the part of the stack above a base: the scan goes through without the
base, so every closer on the way closes something above it. Such moves are put together (`Takes.trans`,
`Takes.enclose`).

`Spares` is the case in which the base is all that is open at first. What has been opened since then is
closed at the end, unless a line starts with the closer of square brackets on the way.
-/

namespace TildeMarkup

namespace Descent

open Reader

/-! ## The bytes in between -/

section Taken

variable {source : Bytes} {front back : List Span} {start middle stop : Nat}

/-- The bytes from one offset to another that are in none of some strings. -/
def taken (source : Bytes) (strings : List Span) (start stop : Nat) : Bytes :=
  dropSpans strings start (Span.slice ⟨start, stop⟩ source)

/-- What is taken on two ways in a row, if the strings of the first lie in front of where they meet, and
those of the second behind it. -/
theorem taken_append (hstart : start ≤ middle) (hstop : middle ≤ stop)
    (hfront : ∀ span ∈ front, span.stop ≤ middle) (hback : ∀ span ∈ back, middle ≤ span.start) :
    taken source (front ++ back) start stop
      = taken source front start middle ++ taken source back middle stop := by
  have hlength : (Span.slice ⟨start, middle⟩ source).length = min (middle - start) (source.length - start) := by
    rw [Span.slice, List.length_take, List.length_drop]
  rw [taken, Span.slice_append hstart hstop, dropSpans_append]
  congr 1
  · refine dropSpans_congr fun i hlo hhi => ?_
    -- A string of the second way starts behind every offset of the first, so it deletes nothing there.
    rw [covers_append, Bool.or_eq_left_iff_imp]
    intro hi
    obtain ⟨span, hspan, hbounds⟩ := covers_iff.1 hi
    have hbehind := hback span hspan
    omega
  · -- behind the end of the source there is nothing to drop
    rcases Nat.le_total middle source.length with hin | hout
    · rw [hlength, show start + min (middle - start) (source.length - start) = middle from by omega]
      refine dropSpans_congr fun i hlo _ => ?_
      rw [covers_append, Bool.or_eq_right_iff_imp]
      intro hi
      obtain ⟨span, hspan, hbounds⟩ := covers_iff.1 hi
      have hbefore := hfront span hspan
      omega
    · have hnone : Span.slice ⟨middle, stop⟩ source = [] := by
        rw [Span.slice, List.drop_eq_nil_of_le hout, List.take_nil]
      rw [taken, hnone]
      rfl

theorem taken_self (n : Nat) : taken source [] n n = [] := by
  rw [taken, Span.slice, Nat.sub_self, List.take_zero]
  rfl

theorem taken_byte {n : Nat} {b : UInt8} (h : source[n]? = some b) : taken source [] n (n + 1) = [b] := by
  rw [taken, dropSpans_none, Span.slice, Nat.add_sub_cancel_left, drop_of_getElem? h]
  rfl

/-- The bytes that are moved over because they are all of one kind are taken as they stand. -/
theorem taken_takeWhile (kind : UInt8 → Bool) (n : Nat) :
    taken source [] n (n + ((source.drop n).takeWhile kind).length) = (source.drop n).takeWhile kind := by
  rw [taken, dropSpans_none, Span.slice, Nat.add_sub_cancel_left]
  exact (List.prefix_iff_eq_take.1 (List.takeWhile_prefix kind)).symm

/-- A string deletes itself. -/
theorem taken_string (start stop : Nat) : taken source [⟨start, stop⟩] start stop = [] := by
  refine dropSpans_whole fun i hlo hhi => covers_iff.2 ⟨_, List.mem_singleton_self _, hlo, ?_⟩
  have hlength : (Span.slice ⟨start, stop⟩ source).length ≤ stop - start := List.length_take_le _ _
  show i < stop
  omega

end Taken

/-! ## Over a part of the stack -/

/-- The height at which the argument around the cursor was opened. -/
def Cursor.frame (c : Cursor) : Nat := c.frames.headD 0

/-- The cursor behind the opening bracket of an argument. -/
def Cursor.inside (c : Cursor) (kind : Bracket) : Cursor :=
  ⟨c.offset + 1, kind :: c.opened, (c.opened.length + 1) :: c.frames⟩

/-- From one cursor to another the stack changes above `base` as in a plain scan of the bytes in between,
without the strings that are found there. -/
structure Takes (source : Bytes) (base : List Bracket) (c : Cursor) (found : List Span) (next : Cursor) :
    Prop where
  moved : c.offset ≤ next.offset
  frames : next.frames = c.frames
  bounds : ∀ span ∈ found, c.offset ≤ span.start ∧ span.stop ≤ next.offset
  scan : ∃ before after, c.opened = before ++ base ∧ next.opened = after ++ base
    ∧ Bracket.scan before (taken source found c.offset next.offset) = some after

section Takes

variable {source : Bytes} {base : List Bracket} {c middle next : Cursor} {found front back : List Span}
  {kind : Bracket} {b : UInt8}

/-- Where the cursor stays, nothing is taken. -/
theorem Takes.refl (h : base <:+ c.opened) : Takes source base c [] c := by
  obtain ⟨before, hbefore⟩ := h
  refine ⟨Nat.le_refl _, rfl, fun _ hspan => absurd hspan List.not_mem_nil,
    before, before, hbefore.symm, hbefore.symm, ?_⟩
  rw [taken_self, Bracket.scan_nil]

/-- Two moves in a row. Above the base the second scan goes on from where the first one has come to. -/
theorem Takes.trans (h : Takes source base c front middle) (hnext : Takes source base middle back next) :
    Takes source base c (front ++ back) next where
  moved := Nat.le_trans h.moved hnext.moved
  frames := hnext.frames.trans h.frames
  bounds span hspan := by
    have hfront := h.moved
    have hback := hnext.moved
    rcases List.mem_append.1 hspan with hspan | hspan
    · have hbounds := h.bounds span hspan
      omega
    · have hbounds := hnext.bounds span hspan
      omega
  scan := by
    obtain ⟨before, between, hc, hmiddle, hscan⟩ := h.scan
    obtain ⟨_, after, hmiddle', hafter, hscan'⟩ := hnext.scan
    -- Both describe the stack where the moves meet, over one base, and so by the same part above it.
    obtain rfl := List.append_cancel_right (hmiddle.symm.trans hmiddle')
    refine ⟨before, after, hc, hafter, ?_⟩
    rw [taken_append h.moved hnext.moved (fun span hspan => (h.bounds span hspan).2)
      fun span hspan => (hnext.bounds span hspan).1]
    rw [Bracket.scan_append, hscan, Option.bind_some, hscan']

/-- A part of what is not looked at may be put to what is looked at: the scan goes through with it
underneath. -/
theorem Takes.lower {upper : List Bracket} (h : Takes source upper c found next) (hbase : base <:+ upper) :
    Takes source base c found next where
  moved := h.moved
  frames := h.frames
  bounds := h.bounds
  scan := by
    obtain ⟨more, rfl⟩ := hbase
    obtain ⟨before, after, hc, hnext, hscan⟩ := h.scan
    refine ⟨before ++ more, after ++ more, ?_, ?_, Bracket.scan_lift hscan more⟩
    · rw [hc, List.append_assoc]
    · rw [hnext, List.append_assoc]

/-- The base is still there at the end, since nothing in it is looked at. -/
theorem Takes.suffix (h : Takes source base c found next) : base <:+ next.opened := by
  obtain ⟨_, after, _, hnext, _⟩ := h.scan
  exact ⟨after, hnext.symm⟩

/-- At the height of the frame there is nothing above a base of that height. -/
theorem Takes.opened_eq_base (h : Takes source base c found next) (hframe : base.length = c.frame)
    (hheight : next.opened.length = next.frame) : next.opened = base := by
  refine (h.suffix.eq_of_length ?_).symm
  rw [hframe, hheight, Cursor.frame, Cursor.frame, h.frames]

/-- The frames take no part in a scan. -/
theorem Takes.reframe (h : Takes source base c found next) (frames : List Nat) :
    Takes source base { c with frames } found { next with frames } :=
  ⟨h.moved, rfl, h.bounds, h.scan⟩

/-- A byte is crossed. -/
structure Crosses (source : Bytes) (c : Cursor) (b : UInt8) (next : Cursor) : Prop where
  byte : source[c.offset]? = some b
  offset : next.offset = c.offset + 1
  frames : next.frames = c.frames
  pass : Bracket.pass c.opened b = some next.opened

/-- A byte is crossed above a base. Only a closer could get to the base, and then there would have to be
nothing above it. -/
theorem Crosses.takes (h : Crosses source c b next) (hbase : base <:+ c.opened)
    (hfree : (Bracket.ofCloser? b).isSome = true → base ≠ c.opened) : Takes source base c [] next := by
  obtain ⟨before, hbefore⟩ := hbase
  have hpass := h.pass
  rw [← hbefore] at hpass
  obtain ⟨after, hafter, hnext⟩ := Bracket.pass_upper hpass fun hcloser hnil => by
    rw [hnil] at hbefore
    exact hfree hcloser hbefore
  refine ⟨h.offset ▸ Nat.le_succ _, h.frames, fun _ hspan => absurd hspan List.not_mem_nil,
    before, after, hbefore.symm, hnext, ?_⟩
  rw [h.offset, taken_byte h.byte, Bracket.scan_singleton, hafter]

/-- A byte that is no bracket is crossed without any change. -/
theorem Crosses.opened_eq (h : Crosses source c b next)
    (hplain : Bracket.ofOpener? b = none ∧ Bracket.ofCloser? b = none) : next.opened = c.opened := by
  have hpass := h.pass
  rw [Bracket.pass_plain hplain] at hpass
  exact (Option.some.inj hpass).symm

end Takes

/-! ## Above all that is open -/

/-- Somewhere from one offset to another a line starts with the closer of square brackets. -/
def LeadingCloser (source : Bytes) (start stop : Nat) : Prop :=
  ∃ i, start ≤ i ∧ i + 1 < stop ∧ source[i]? = some lineFeed ∧ source[i + 1]? = some Bracket.square.closer

/-- A line that starts so between two offsets does so between offsets further apart. -/
theorem LeadingCloser.mono {source : Bytes} {start stop low high : Nat} (h : LeadingCloser source start stop)
    (hlow : low ≤ start) (hhigh : stop ≤ high) : LeadingCloser source low high := by
  obtain ⟨i, hstart, hstop, hline, hcloser⟩ := h
  exact ⟨i, Nat.le_trans hlow hstart, Nat.lt_of_lt_of_le hstop hhigh, hline, hcloser⟩

/-- From one cursor to another nothing is closed that was open at first, and all that is opened is closed,
unless a line starts with the closer of square brackets. -/
structure Spares (source : Bytes) (c : Cursor) (found : List Span) (next : Cursor) : Prop
    extends Takes source c.opened c found next where
  late : next.opened ≠ c.opened → LeadingCloser source c.offset next.offset

section Spares

variable {source : Bytes} {base : List Bracket} {c middle next : Cursor} {found front back : List Span}
  {kind : Bracket} {b : UInt8}

theorem Takes.spares (h : Takes source c.opened c found next) (hsame : next.opened = c.opened) :
    Spares source c found next :=
  ⟨h, fun hne => absurd hsame hne⟩

theorem Spares.refl (source : Bytes) (c : Cursor) : Spares source c [] c :=
  (Takes.refl List.suffix_rfl).spares rfl

/-- Two moves in a row. If something is left open in the end, then by the first of them or by the
second. -/
theorem Spares.trans (h : Spares source c front middle) (hnext : Spares source middle back next) :
    Spares source c (front ++ back) next where
  toTakes := h.toTakes.trans (hnext.toTakes.lower h.suffix)
  late hne := by
    by_cases hsame : middle.opened = c.opened
    · have hlate := hnext.late fun hnext => hne (hnext.trans hsame)
      exact hlate.mono h.moved (Nat.le_refl _)
    · exact (h.late hsame).mono (Nat.le_refl _) hnext.moved

/-- A pair of brackets, and what is in between. That closes nothing below the opener, so the closer takes
something above the old stack. -/
theorem Takes.enclose (hopen : source[c.offset]? = some kind.opener)
    (h : Takes source (kind :: c.opened) { c with offset := c.offset + 1, opened := kind :: c.opened } found
      middle)
    (hclose : Crosses source middle kind.closer next) : Takes source c.opened c found next := by
  have hfirst : Crosses source c kind.opener { c with offset := c.offset + 1, opened := kind :: c.opened } :=
    ⟨hopen, rfl, rfl, Bracket.pass_opener _ _⟩
  have hinner : Takes source c.opened _ found middle := h.lower (List.suffix_cons kind c.opened)
  -- In front of the closer at least the opener stands on the old stack.
  have habove : c.opened ≠ middle.opened := by
    obtain ⟨more, hmore⟩ := h.suffix
    intro heq
    have hlength := congrArg List.length (hmore.trans heq.symm)
    simp only [List.length_append, List.length_cons] at hlength
    omega
  have hbefore := hfirst.takes List.suffix_rfl fun hcloser => by
    rw [Bracket.ofCloser?_opener] at hcloser
    cases hcloser
  have hafter := hclose.takes hinner.suffix fun _ => habove
  have htakes := (hbefore.trans hinner).trans hafter
  rw [List.nil_append, List.append_nil] at htakes
  exact htakes

/-- What is closed is what has been opened, if nothing else is open in between. -/
theorem Crosses.opened_of_enclose (h : Crosses source middle kind.closer next)
    (hmiddle : middle.opened = kind :: c.opened) : next.opened = c.opened := by
  have hpass := h.pass
  rw [Bracket.pass_closer, Bracket.pop_eq_some, hmiddle] at hpass
  exact (List.cons.inj hpass).2.symm

end Spares

end Descent

end TildeMarkup
