import TildeMarkup.Proofs.Encoding

/-!
# Characters of several bytes

The bytes of a character above U+007F are all 0x80 or above. Such a byte is taken in a text and in a
string only, and the reader is in one of these after it (`verbatim_take`), where it takes any other such
byte (`exists_take_of_verbatim`). So if one is refused, the byte in front of it is below 0x80, and the
fault is where a character starts (`isBoundary_of_parse`).
-/

namespace TildeMarkup

open Spelling Utf8

namespace Reader

/-- In a text or in a string, where any character may stand. -/
def Mode.Verbatim : Mode → Prop
  | .text .. => True
  | .string .. => True
  | _ => False

section High

variable {r next : Reader} {b : UInt8}

theorem beq_eq_false_of_high (hb : 0x80 ≤ b) {c : UInt8} (hc : c < 0x80) : (b == c) = false :=
  beq_eq_false_iff_ne.2 fun h => absurd hc (UInt8.not_lt.2 (h ▸ hb))

theorem isBlank_eq_false_of_high (hb : 0x80 ≤ b) : isBlank b = false :=
  Bool.eq_false_iff.2 fun h => absurd (lt_of_isBlank h) (UInt8.not_lt.2 hb)

theorem isLetter_eq_false_of_high (hb : 0x80 ≤ b) : isLetter b = false :=
  Bool.eq_false_iff.2 fun h => absurd (lt_of_isLetter h) (UInt8.not_lt.2 hb)

theorem plain_of_high (hb : 0x80 ≤ b) : Bracket.ofOpener? b = none ∧ Bracket.ofCloser? b = none :=
  Bracket.plain_of_class (p := fun b => 0x80 ≤ b) (by simpa using hb)
    (fun k => by cases k <;> decide) (fun k => by cases k <;> decide)

theorem endsScope_of_high (hb : 0x80 ≤ b) : r.endsScope b = false := by
  rw [endsScope, (plain_of_high hb).2]
  rfl

/-- In a text such a byte is a byte of the text. -/
theorem inText_of_high (hb : 0x80 ≤ b) (pieces : List Tree) (start : Nat) (afterReturn : Bool) :
    r.inText pieces start afterReturn b = .ok { r with mode := .text pieces start false } := by
  have hcross := cross_eq_ok.2 (Bracket.pass_plain (plain_of_high hb) r.opened)
  simp only [inText, beq_eq_false_of_high hb (c := tilde) (by decide),
    beq_eq_false_of_high hb (c := lineFeed) (by decide),
    beq_eq_false_of_high hb (c := carriageReturn) (by decide), endsScope_of_high hb, hcross,
    Bool.false_eq_true, if_false]
  rfl

/-- In a text and in a string the byte is taken. -/
theorem exists_take_of_verbatim (hb : 0x80 ≤ b) (h : r.mode.Verbatim) :
    ∃ next, r.take b = .ok next := by
  unfold take
  -- Of all modes only texts and strings take a byte whatever it is.
  cases hmode : r.mode with
  | text pieces start afterReturn => exact ⟨_, inText_of_high hb _ _ _⟩
  | string call start escaped =>
    simp only [beq_eq_false_of_high hb (c := quote) (by decide), Bool.false_and]
    exact ⟨_, rfl⟩
  | _ =>
    rw [hmode] at h
    exact h.elim

/-! ### What it may follow -/

/-- It closes no argument. -/
theorem closeScope_of_high (hb : 0x80 ≤ b) : r.closeScope b ≠ .ok next := by
  unfold closeScope
  split
  · intro hnext
    cases hnext
  · rw [if_neg (by rw [beq_eq_false_of_high hb (by decide)]; decide)]
    intro hnext
    cases hnext
  · rw [if_neg (by rw [beq_eq_false_of_high hb (by decide)]; decide)]
    intro hnext
    cases hnext

/-- A text that takes it goes on. -/
theorem verbatim_inText (hb : 0x80 ≤ b) {pieces : List Tree} {start : Nat} {afterReturn : Bool}
    (h : r.inText pieces start afterReturn b = .ok next) : next.mode.Verbatim := by
  rw [inText_of_high hb] at h
  cases h
  trivial

/-- Between parts it starts a text. -/
theorem verbatim_inReady (hb : 0x80 ≤ b) (h : r.inReady b = .ok next) : next.mode.Verbatim := by
  have htilde := beq_eq_false_of_high hb (c := tilde) (by decide)
  unfold inReady at h
  split at h
  · exact absurd h (closeScope_of_high hb)
  · simp only [htilde, Bool.false_eq_true, if_false] at h
    exact verbatim_inText hb h
  · simp only [isBlank_eq_false_of_high hb, htilde, endsScope_of_high hb, Bool.false_eq_true,
      if_false] at h
    exact verbatim_inText hb h

/-- Behind a name it is not taken. -/
theorem inHead_of_high (hb : 0x80 ≤ b) (place : Place) (name : Span) :
    r.inHead place name b ≠ .ok next := by
  simp only [inHead, isBlank_eq_false_of_high hb,
    beq_eq_false_of_high hb (c := Bracket.round.opener) (by decide),
    beq_eq_false_of_high hb (c := Bracket.square.opener) (by decide),
    beq_eq_false_of_high hb (c := Bracket.curly.opener) (by decide), Bool.false_and,
    Bool.false_eq_true, if_false]
  intro hnext
  cases hnext

theorem inList_of_high (hb : 0x80 ≤ b) (call : Call) : r.inList call b ≠ .ok next := by
  simp only [inList, isBlank_eq_false_of_high hb, isLetter_eq_false_of_high hb,
    beq_eq_false_of_high hb (c := Bracket.round.closer) (by decide),
    beq_eq_false_of_high hb (c := Bracket.square.opener) (by decide),
    beq_eq_false_of_high hb (c := Bracket.curly.opener) (by decide),
    beq_eq_false_of_high hb (c := quote) (by decide), Bool.false_and, Bool.false_eq_true, if_false]
  intro hnext
  cases hnext

theorem inNext_of_high (hb : 0x80 ≤ b) (call : Call) : r.inNext call b ≠ .ok next := by
  simp only [inNext, isBlank_eq_false_of_high hb,
    beq_eq_false_of_high hb (c := Bracket.round.closer) (by decide),
    beq_eq_false_of_high hb (c := comma) (by decide), Bool.false_eq_true, if_false]
  intro hnext
  cases hnext

/-- After the byte the reader is in a text or in a string. -/
theorem verbatim_take (hb : 0x80 ≤ b) (h : r.take b = .ok next) : next.mode.Verbatim := by
  have hletter := isLetter_eq_false_of_high hb
  unfold take at h
  -- Each mode but the two looks for bytes below 0x80 only, and refuses all others.
  split at h
  · exact verbatim_inReady hb h
  · exact verbatim_inText hb h
  · simp only [hletter, Bool.false_eq_true, if_false] at h
    exact absurd h (inHead_of_high hb _ _)
  · exact absurd h (inHead_of_high hb _ _)
  · exact absurd h (inList_of_high hb _)
  · simp only [hletter, Bool.false_eq_true, if_false] at h
    exact absurd h (inNext_of_high hb _)
  · next call start escaped _ =>
    simp only [beq_eq_false_of_high hb (c := quote) (by decide), Bool.false_and, Bool.false_eq_true,
      if_false] at h
    cases h
    trivial
  · exact absurd h (inNext_of_high hb _)

/-- The same of a step, which is the byte and the offset behind it. -/
theorem verbatim_step (hb : 0x80 ≤ b) (h : r.step b = .ok next) : next.mode.Verbatim := by
  unfold step at h
  cases htake : r.take b with
  | ok taken =>
    rw [htake] at h
    cases h
    show taken.mode.Verbatim
    exact verbatim_take hb htake
  | error cause =>
    rw [htake] at h
    cases h

theorem step_ne_error_of_verbatim {fault : Fault} (hb : 0x80 ≤ b) (h : r.mode.Verbatim) :
    r.step b ≠ .error fault := by
  obtain ⟨next, htake⟩ := exists_take_of_verbatim hb h
  rw [step, htake]
  intro hnext
  cases hnext

end High

/-- The last byte is taken by the reader that has taken those in front of it. -/
theorem exists_of_run_snoc {r last : Reader} {bytes : Bytes} {b : UInt8}
    (h : r.run (bytes ++ [b]) = .ok last) :
    ∃ reached, r.run bytes = .ok reached ∧ reached.step b = .ok last := by
  rw [run_append] at h
  cases hrun : r.run bytes with
  | error fault =>
    rw [hrun] at h
    cases h
  | ok reached =>
    rw [hrun] at h
    refine ⟨reached, rfl, ?_⟩
    cases hstep : reached.step b with
    | error fault =>
      simp only [Except.bind, run_cons, hstep] at h
      cases h
    | ok next =>
      simp only [Except.bind, run_cons, hstep, run_nil] at h
      exact h

end Reader

/-- The byte at which a source in UTF-8 is refused is the first of its character. -/
theorem isBoundary_of_parse {source : Bytes} {fault : Fault} (hvalid : IsValid source)
    (h : parse source = .error fault) : IsBoundary source fault.span.start := by
  rcases refused_cases h with ⟨before, b, after, r, rfl, hrun, hstep⟩ | ⟨r, hrun, hfinish⟩
  · have hstart : fault.span.start = before.length := by
      rw [Reader.span_of_step hstep, Reader.offset_of_initial hrun]
    rw [hstart]
    by_cases hb : b < 0x80
    · have hat : At (before ++ b :: after) before.length [b] := ⟨before, after, rfl, rfl⟩
      exact .before hvalid hat hb
    · rcases List.eq_nil_or_concat before with rfl | ⟨init, last, rfl⟩
      · exact .start hvalid
      · rw [List.concat_eq_append] at *
        by_cases hlast : last < 0x80
        · have hat : At (init ++ [last] ++ b :: after) 0 (init ++ [last]) :=
            ⟨[], b :: after, rfl, rfl⟩
          have hbehind := IsBoundary.behind hvalid hat hlast
          rwa [Nat.zero_add] at hbehind
        · -- the reader has just taken another such byte, so it takes this one
          obtain ⟨reached, _, htaken⟩ := Reader.exists_of_run_snoc hrun
          have hverbatim := Reader.verbatim_step (UInt8.not_lt.1 hlast) htaken
          exact absurd hstep (Reader.step_ne_error_of_verbatim (UInt8.not_lt.1 hb) hverbatim)
  · have hstart : fault.span.start = source.length := by
      rw [Reader.span_of_finish hfinish, Reader.offset_of_initial hrun]
    rw [hstart]
    exact .stop hvalid

end TildeMarkup
