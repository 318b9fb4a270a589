import TildeMarkup.Proofs.Spelling.Unquoted

/-!
# The brackets of a spelling

`Part.cross` and `Arg.cross` read brackets scope by scope. A plain scan reads the same brackets byte by
byte, without the strings, and comes to the same stack (`Part.scan_unquoted`).

An argument takes nothing that was open in front of it, but it may leave more open than it found
(`Part.cross_list`). Only square brackets that close after a line end can do so: where each of them is
a word by itself, every command leaves the stack as it was (`Part.cross_call_eq`).
-/

namespace TildeMarkup

namespace Bracket

/-- Letters change no stack, so a name or an identifier is passed over. -/
theorem scan_letters {letters : Bytes} (h : letters.all isLetter = true) (stack : List Bracket) :
    scan stack letters = some stack :=
  scan_plain (fun b hb => plain_of_isLetter (List.all_eq_true.1 h b hb)) stack

theorem scan_blanks {gap : Bytes} (h : gap.all isBlank = true) (stack : List Bracket) :
    scan stack gap = some stack :=
  scan_plain (fun b hb => plain_of_isBlank (List.all_eq_true.1 h b hb)) stack

/-- The closer of a scope meets what is open inside of it, above the opener of the scope. -/
theorem scan_enclosed {bytes : Bytes} {inner : List Bracket} (h : scan [] bytes = some inner)
    (kind : Bracket) (stack : List Bracket) :
    scan stack (kind.opener :: (bytes ++ [kind.closer])) = pop kind (inner ++ kind :: stack) := by
  have hlift := scan_lift h (kind :: stack)
  rw [List.nil_append] at hlift
  rw [scan_cons, pass_opener, Option.bind_some, scan_append, hlift, Option.bind_some,
    scan_singleton, pass_closer]

/-- A scope is a word by itself exactly if nothing is open in front of its closer. -/
theorem pop_balanced {kind : Bracket} {inner : List Bracket} :
    pop kind (inner ++ [kind]) = some [] ↔ inner = [] := by
  rw [pop_eq_some]
  constructor
  · intro h
    have hlength := congrArg List.length h
    rw [List.length_append] at hlength
    exact List.length_eq_zero_iff.1 (Nat.succ.inj hlength)
  · rintro rfl
    rfl

end Bracket

namespace Spelling

open TildeMarkup.Bracket (scan pop)

/-! ## The same stack -/

/-- The end of a line has no bracket in it. -/
theorem Ending.scan_bytes (ending : Ending) (stack : List Bracket) :
    scan stack ending.bytes = some stack := by
  refine Bracket.scan_blanks ?_ stack
  cases ending <;> decide

/-- The head of a command opens a parenthesis if the arguments are a list, and nothing otherwise. -/
theorem scan_callHead {name gap : Bytes} (hname : name.all isLetter = true)
    (hgap : gap.all isBlank = true) (listed : Bool) (stack : List Bracket) :
    scan stack (callHead name gap listed) = some (if listed then .round :: stack else stack) := by
  have htilde : Bracket.pass stack tilde = some stack := Bracket.pass_plain (by decide) stack
  rw [callHead, Bracket.scan_cons, htilde, Option.bind_some, Bracket.scan_append,
    Bracket.scan_letters hname, Option.bind_some, Bracket.scan_append, Bracket.scan_blanks hgap,
    Option.bind_some]
  cases listed with
  | true => exact (Bracket.scan_singleton _ _).trans (Bracket.pass_opener _ _)
  | false => rfl

mutual

/-- A scan of the bytes of a part, without its strings, comes to the stack that its scopes come to. -/
theorem Part.scan_unquoted : ∀ (part : Part) {blocks : Bool} {σ τ : List Bracket},
    part.Fits blocks → part.cross σ = some τ → scan σ part.unquoted = some τ
  | .blank b, blocks, σ, τ, hfits, h => by
    rw [Part.unquoted, Bracket.scan_singleton, Bracket.pass_plain (Bracket.plain_of_isBlank hfits)]
    exact h
  | .text bytes, blocks, σ, τ, _, h => h
  | .run _ pieces ending, blocks, σ, τ, ⟨_, _, _, hpieces⟩, h => by
    rw [Part.unquoted, Bracket.scan_append, Part.scan_unquotedAll pieces hpieces h]
    exact ending.scan_bytes τ
  | .call name gap true args, blocks, σ, τ, ⟨hname, hgap, _, hargs⟩, h => by
    simp only [Part.cross, if_true] at h
    obtain ⟨inner, hcross, hpop⟩ := Option.bind_eq_some_iff.1 h
    have hscan := Arg.scan_unquotedAll args hargs hcross
    rw [Part.unquoted, Bracket.scan_append, scan_callHead hname hgap, if_pos rfl, Option.bind_some,
      Bracket.scan_append, hscan, Option.bind_some, callTail, if_pos rfl, Bracket.scan_singleton,
      Bracket.pass_closer]
    exact hpop
  | .call name gap false args, blocks, σ, τ, ⟨hname, hgap, _, hargs⟩, h => by
    simp only [Part.cross, Bool.false_eq_true, if_false] at h
    have hscan := Arg.scan_unquotedAll args hargs h
    rw [Part.unquoted, Bracket.scan_append, scan_callHead hname hgap, if_neg Bool.false_ne_true,
      Option.bind_some, Bracket.scan_append, hscan]
    rfl

theorem Part.scan_unquotedAll : ∀ (parts : List Part) {blocks : Bool} {σ τ : List Bracket},
    Part.FitsAll blocks parts → Part.crossAll σ parts = some τ →
      scan σ (Part.unquotedAll parts) = some τ
  | [], blocks, σ, τ, _, h => h
  | part :: rest, blocks, σ, τ, ⟨hfits, hrest⟩, h => by
    rw [Part.crossAll] at h
    obtain ⟨middle, hpart, hcross⟩ := Option.bind_eq_some_iff.1 h
    rw [Part.unquotedAll, Bracket.scan_append, Part.scan_unquoted part hfits hpart]
    exact Part.scan_unquotedAll rest hrest hcross

theorem Arg.scan_unquoted : ∀ (arg : Arg) {blocks : Bool} {σ τ : List Bracket},
    arg.Fits blocks → arg.cross σ = some τ → scan σ arg.unquoted = some τ
  | .blank b, blocks, σ, τ, hfits, h => by
    rw [Arg.unquoted, Bracket.scan_singleton, Bracket.pass_plain (Bracket.plain_of_isBlank hfits)]
    exact h
  | .comma, blocks, σ, τ, _, h => by
    rw [Arg.unquoted, Bracket.scan_singleton, Bracket.pass_plain (by decide)]
    exact h
  | .ident letters, blocks, σ, τ, ⟨_, hletters⟩, h =>
    (Bracket.scan_letters hletters σ).trans h
  | .string raw, blocks, σ, τ, _, h => h
  | .inline part, blocks, σ, τ, ⟨_, hpart⟩, h => by
    rw [Arg.cross] at h
    obtain ⟨inner, hcross, hclose⟩ := Option.bind_eq_some_iff.1 h
    rw [Arg.unquoted, Bracket.scan_enclosed (Part.scan_unquoted part hpart hcross)]
    exact closeInline_eq_pop hclose
  | .block parts, blocks, σ, τ, ⟨_, _, hparts⟩, h => by
    rw [Arg.cross] at h
    obtain ⟨inner, hcross, hclose⟩ := Option.bind_eq_some_iff.1 h
    rw [Arg.unquoted, Bracket.scan_enclosed (Part.scan_unquotedAll parts hparts hcross)]
    -- Only a block in which everything is closed again comes to its closer.
    split at hclose
    · next hinner =>
      cases hclose
      rw [hinner, List.nil_append, Bracket.pop_eq_some]
    · cases hclose

theorem Arg.scan_unquotedAll : ∀ (args : List Arg) {blocks : Bool} {σ τ : List Bracket},
    Arg.FitsAll blocks args → Arg.crossAll σ args = some τ →
      scan σ (Arg.unquotedAll args) = some τ
  | [], blocks, σ, τ, _, h => h
  | arg :: rest, blocks, σ, τ, ⟨hfits, hrest⟩, h => by
    rw [Arg.crossAll] at h
    obtain ⟨middle, harg, hcross⟩ := Option.bind_eq_some_iff.1 h
    rw [Arg.unquotedAll, Bracket.scan_append, Arg.scan_unquoted arg hfits harg]
    exact Arg.scan_unquotedAll rest hrest hcross

end

/-! ## A list by itself -/

/-- A list can be read with nothing open in front of it, whatever was open where it stands. -/
theorem Part.cross_list {name gap : Bytes} {args : List Arg} {σ τ : List Bracket}
    (h : (Part.call name gap true args).cross σ = some τ) :
    ∃ inner after, Arg.crossAll [] args = some inner ∧ pop .round (inner ++ [.round]) = some after := by
  simp only [Part.cross, if_true] at h
  obtain ⟨above, hargs, hpop⟩ := Option.bind_eq_some_iff.1 h
  obtain ⟨inner, hinner⟩ := Arg.crossAll_extra hargs
  have habove : above = inner ++ .round :: σ := Option.some.inj (hargs.symm.trans (hinner _))
  -- What the closer of the list takes lies inside of the list: nothing below its opener is in reach.
  rw [habove] at hpop
  obtain ⟨after, hafter⟩ := Bracket.pop_extra hpop
  refine ⟨inner, after ++ [], ?_, hafter []⟩
  rw [hinner, List.append_nil]

/-! ## Commands that leave the brackets as they were -/

/-- The part is a run that ends with its line, with or without a carriage return. -/
def Part.endsLine : Part → Bool
  | .run _ _ ending => ending != .none
  | _ => false

theorem Part.bytes_of_endsLine {part : Part} (h : part.endsLine = true) :
    ∃ front, part.bytes = front ++ [lineFeed] := by
  cases part with
  | run bracketed pieces ending =>
    cases ending with
    | none => cases h
    | lineFeed => exact ⟨Part.bytesAll pieces, rfl⟩
    | returnLineFeed =>
      refine ⟨Part.bytesAll pieces ++ [carriageReturn], ?_⟩
      rw [List.append_assoc]
      rfl
  | _ => cases h

/-- In square brackets stands a command, a run that goes on to the closer, or a run that ends its line. -/
theorem Part.inline_cases {part : Part} (h : part.isInline = true) :
    part.isCall = true ∨ part.isOpen = true ∨ part.endsLine = true := by
  cases part with
  | run bracketed pieces ending =>
    cases ending with
    | none => exact .inr (.inl rfl)
    | _ => exact .inr (.inr rfl)
  | call => exact .inl rfl
  | _ => cases h

/-- A command leaves the brackets as they were if its arguments do: it closes its own parenthesis. -/
theorem Part.cross_call_of_args {name gap : Bytes} {listed : Bool} {args : List Arg}
    {σ τ : List Bracket} (hargs : ∀ {σ τ}, Arg.crossAll σ args = some τ → τ = σ)
    (h : (Part.call name gap listed args).cross σ = some τ) : τ = σ := by
  cases listed with
  | true =>
    simp only [Part.cross, if_true] at h
    obtain ⟨inner, hinner, hpop⟩ := Option.bind_eq_some_iff.1 h
    rw [hargs hinner, Bracket.pop_eq_some] at hpop
    exact (List.cons.inj hpop).2.symm
  | false =>
    simp only [Part.cross, Bool.false_eq_true, if_false] at h
    exact hargs h

/-- Square brackets that close after a line end close all that was opened inside of them. -/
def LinesClose (parts : List Part) : Prop :=
  ∀ {n : Nat} {name gap : Bytes} {listed : Bool} {front back : List Arg} {part : Part}
    {inner : List Bracket},
    Holds parts n (.call name gap listed (front ++ .inline part :: back)) →
      part.endsLine = true → part.cross [] = some inner → inner = []

section Neutral

variable {parts : List Part} {opened : List Bracket}

mutual

/-- Where every pair of square brackets is a word by itself, a command leaves the stack as it was. -/
theorem Part.cross_call_eq (hparts : IsDocument parts opened) (hlines : LinesClose parts) :
    ∀ (part : Part) {n : Nat} {σ τ : List Bracket},
      part.isCall = true → Holds parts n part → part.cross σ = some τ → τ = σ
  | .call _ _ _ args, _, _, _, _, h, hcross =>
    Part.cross_call_of_args (fun hargs => Arg.crossAll_eq hparts hlines args [] h hargs) hcross
termination_by structural part => part

theorem Arg.cross_eq (hparts : IsDocument parts opened) (hlines : LinesClose parts) :
    ∀ (arg : Arg) {n : Nat} {name gap : Bytes} {listed : Bool} {front back : List Arg}
      {σ τ : List Bracket}, Holds parts n (.call name gap listed (front ++ arg :: back)) →
        arg.cross σ = some τ → τ = σ
  | .inline part, n, name, gap, listed, front, back, σ, τ, h, hcross => by
    obtain ⟨_, _, _, _, hargs⟩ := h.fits hparts
    obtain ⟨hinline, _⟩ := (Arg.fitsAll_append.1 hargs).2.1
    rw [Arg.cross] at hcross
    obtain ⟨inner, hpart, hclose⟩ := Option.bind_eq_some_iff.1 hcross
    obtain ⟨hopen, hnext⟩ := closeInline_eq_some.1 hclose
    have hinner : inner = [] := by
      -- A command is neutral by the induction and a run without a line end closes only with nothing
      -- open; a run that ends with its line is what `hlines` speaks about.
      rcases Part.inline_cases hinline with hcall | hrun | hline
      · exact Part.cross_call_eq hparts hlines part hcall
          (h.trans (.inline front back (.self _ part))) hpart
      · exact hopen hrun
      · exact hlines h hline hpart
    rw [hinner] at hnext
    exact (List.cons.inj hnext).2.symm
  | .block parts, n, name, gap, listed, front, back, σ, τ, h, hcross =>
    Option.some.inj (hcross.symm.trans (Arg.cross_block hcross σ))
  | .blank b, n, name, gap, listed, front, back, σ, τ, h, hcross => (Option.some.inj hcross).symm
  | .comma, n, name, gap, listed, front, back, σ, τ, h, hcross => (Option.some.inj hcross).symm
  | .ident letters, n, name, gap, listed, front, back, σ, τ, h, hcross =>
    (Option.some.inj hcross).symm
  | .string raw, n, name, gap, listed, front, back, σ, τ, h, hcross =>
    (Option.some.inj hcross).symm
termination_by structural arg => arg

theorem Arg.crossAll_eq (hparts : IsDocument parts opened) (hlines : LinesClose parts) :
    ∀ (args front : List Arg) {n : Nat} {name gap : Bytes} {listed : Bool} {σ τ : List Bracket},
      Holds parts n (.call name gap listed (front ++ args)) →
        Arg.crossAll σ args = some τ → τ = σ
  | [], front, n, name, gap, listed, σ, τ, h, hcross => (Option.some.inj hcross).symm
  | arg :: rest, front, n, name, gap, listed, σ, τ, h, hcross => by
    rw [Arg.crossAll] at hcross
    obtain ⟨middle, harg, hrest⟩ := Option.bind_eq_some_iff.1 hcross
    have hmiddle := Arg.cross_eq hparts hlines arg h harg
    -- The induction goes over what is still to come, so the read argument moves to those in front.
    rw [← List.singleton_append, ← List.append_assoc] at h
    rw [Arg.crossAll_eq hparts hlines rest (front ++ [arg]) h hrest, hmiddle]
termination_by structural args => args

end

end Neutral

end Spelling

end TildeMarkup
