import TildeMarkup.Proofs.Balance
import TildeMarkup.Proofs.Document.Strings
import TildeMarkup.Proofs.Reader.Moves

/-!
# The strings and the brackets of a reader

A reader keeps its stack of open brackets as a plain scan would over the bytes that it has taken
outside of string arguments. `Reader.strings` are the string arguments read so far, the one that the
reader stands in among them; they are those of the tree in the end (`strings_of_finish`).

`Consumed r w` is the invariant: it holds at every point of every run (`consumed_run`), so also where a
run comes to a fault. A closer is refused as unbalanced only where it does not match the innermost
open bracket (`Cause.Mismatches`). What one byte does is told by `Reads`, with a lemma for each
function that a step is made of.
-/

namespace TildeMarkup

/-- A cause that names a mismatch: the byte is a closer, the innermost open bracket is of another kind
or none is open, and the cause names the closer of that one. -/
def Cause.Mismatches (opened : List Bracket) (b : UInt8) : Cause → Prop
  | .unbalanced wanted found =>
    found = [b] ∧ wanted = opened.head?.map (fun top => [top.closer])
      ∧ ∃ kind : Bracket, b = kind.closer ∧ opened.head? ≠ some kind
  | _ => True

namespace Reader

/-! ## String arguments of a state -/

/-- The string arguments in front of a command: those of the text pieces that its run begins with. -/
def Place.strings : Place → List Span
  | .alone => []
  | .within pieces => pieces.reverse.flatMap Tree.strings

/-- The string arguments of an unfinished command: those in front of it and those of its arguments so
far. -/
def Call.strings (call : Call) : List Span :=
  call.place.strings ++ call.args.reverse.flatMap Argument.strings

/-- The string arguments of a scope and of all that it stands in, from the outermost to the innermost. -/
def Scope.strings : Scope → List Span
  | .document blocks => blocks.reverse.flatMap Tree.strings
  | .braces outer call _ _ blocks =>
    outer.strings ++ call.strings ++ blocks.reverse.flatMap Tree.strings
  | .brackets outer call _ _ content =>
    outer.strings ++ call.strings ++ content.toList.flatMap Tree.strings

def Mode.strings : Mode → List Span
  | .ready => []
  | .text pieces _ _ => (Place.within pieces).strings
  | .name place _ => place.strings
  | .head place _ => place.strings
  | .list call _ => call.strings
  | .ident call _ => call.strings
  | .string call _ _ => call.strings
  | .next call => call.strings

/-- The string arguments that have been read to their end, those of the scope and those of the mode. -/
def complete (r : Reader) : List Span :=
  r.scope.strings ++ r.mode.strings

/-- The string argument that the reader stands in, up to there. -/
def current (r : Reader) : List Span :=
  match r.mode with
  | .string _ start _ => [⟨start, r.offset⟩]
  | _ => []

/-- The string arguments that a reader has read. -/
def strings (r : Reader) : List Span :=
  r.complete ++ r.current

def Mode.isString : Mode → Bool
  | .string .. => true
  | _ => false

/-- Outside of a string it makes no difference to the strings where the reader stands. -/
theorem strings_moved {r : Reader} (h : r.mode.isString = false) (n : Nat) :
    ({ r with offset := n } : Reader).strings = r.complete := by
  obtain ⟨_, σ, S, m⟩ := r
  cases m with
  | string => cases h
  | _ => exact List.append_nil _

/-! ## Room for what is being read -/

/-- Every argument that encloses the place stands in a scope that still has room for its command. -/
def Scope.Nested : Scope → Prop
  | .document _ => True
  | .braces outer _ _ _ _ => outer.Vacant ∧ outer.Nested
  | .brackets outer _ _ _ _ => outer.Vacant ∧ outer.Nested

theorem Scope.nested_add {S : Scope} (h : S.Nested) (part : Tree) : (S.add part).Nested := by
  cases S <;> exact h

theorem Scope.nested_addRun {S : Scope} (h : S.Nested) (pieces : List Tree) :
    (S.addRun pieces).Nested := by
  cases S <;> exact h

theorem Scope.strings_add {S : Scope} (h : S.Vacant) (part : Tree) :
    (S.add part).strings = S.strings ++ part.strings := by
  cases S with
  | document blocks => simp [add, strings]
  | braces outer call start depth blocks => simp [add, strings]
  | brackets outer call start depth content =>
    cases content with
    | none => simp [add, strings]
    | some => exact h.elim

theorem Scope.strings_addRun {S : Scope} (h : S.Vacant) (pieces : List Tree) :
    (S.addRun pieces).strings = S.strings ++ (Place.within pieces).strings := by
  cases S with
  | brackets => exact (Scope.strings_add h _).trans (congrArg _ (Tree.strings_group _))
  | _ => exact (Scope.strings_add h _).trans (congrArg _ (Tree.strings_paragraph _))

/-- A text holds no string, so the pieces of a run have the same strings with it and without it. -/
theorem strings_addText (pieces : List Tree) (start stop : Nat) :
    (Place.within (addText pieces start stop)).strings = (Place.within pieces).strings := by
  unfold addText
  split
  · simp [Place.strings]
  · rfl

/-! ## One byte -/

/-- The stack refuses a byte only for a mismatch, and the cause says which closer it wanted. -/
theorem mismatches_of_cross {opened : List Bracket} {b : UInt8} {cause : Cause}
    (h : cross opened b = .error cause) : cause.Mismatches opened b := by
  unfold cross at h
  split at h
  · cases h
  · cases h
  · next kind _ hcloser =>
    -- Only a closer is refused: with nothing open, or with another kind on top.
    have hb := Bracket.eq_closer_of_ofCloser? hcloser
    split at h
    · cases h
      exact ⟨rfl, rfl, kind, hb, by simp⟩
    · next top rest =>
      split at h
      · cases h
      · next hne =>
        cases h
        exact ⟨rfl, rfl, kind, hb, by simpa using hne⟩

/-- The reader has these brackets open and has read these strings, and stands outside of a string. -/
structure Carries (r : Reader) (opened : List Bracket) (strings : List Span) : Prop where
  opened : r.opened = opened
  strings : r.complete = strings
  nested : r.scope.Nested
  vacant : r.mode ≠ .ready → r.scope.Vacant
  outside : r.mode.isString = false

/-- What comes of a byte outside of strings: a stack as after a scan, or a fault. No string is read to
its end, and a closer is refused as unbalanced only if it is. -/
def Reads (opened : List Bracket) (strings : List Span) (b : UInt8) : Except Cause Reader → Prop
  | .ok next => ∃ after, Bracket.pass opened b = some after ∧ next.Carries after strings
  | .error cause => cause.Mismatches opened b

section Byte

variable {opened : List Bracket} {strings : List Span} {b : UInt8}

theorem reads_plain (hb : Bracket.ofOpener? b = none ∧ Bracket.ofCloser? b = none) {next : Reader}
    (h : next.Carries opened strings) : Reads opened strings b (.ok next) :=
  ⟨opened, Bracket.pass_plain hb opened, h⟩

theorem reads_cross {next : List Bracket → Reader}
    (h : ∀ after, (next after).Carries after strings) :
    Reads opened strings b (do let after ← cross opened b; return next after) := by
  cases hcross : cross opened b with
  | error cause => exact mismatches_of_cross hcross
  | ok after => exact ⟨after, cross_eq_ok.1 hcross, h after⟩

/-- Each function of a step is a chain of tests, which is followed test by test. -/
theorem reads_ite {p : Prop} [Decidable p] {x y : Except Cause Reader}
    (hx : p → Reads opened strings b x) (hy : ¬ p → Reads opened strings b y) :
    Reads opened strings b (if p then x else y) := by
  by_cases h : p
  · rw [if_pos h]
    exact hx h
  · rw [if_neg h]
    exact hy h

end Byte

/-! ## Each function of a step -/

section Step

variable {r : Reader} {b : UInt8}

/-- A finished command goes into its scope or into the run around it, with all of its strings. -/
theorem carries_finishCall (hnested : r.scope.Nested) (hvacant : r.scope.Vacant) (call : Call) :
    (r.finishCall call).Carries r.opened (r.scope.strings ++ call.strings) := by
  obtain ⟨place, name, listed, args⟩ := call
  cases place with
  | alone =>
    refine ⟨rfl, ?_, Scope.nested_add hnested _, fun hmode => absurd rfl hmode, rfl⟩
    have hstrings := Scope.strings_add hvacant (.node (.command name args.reverse))
    rw [Tree.strings_command] at hstrings
    exact (List.append_nil _).trans hstrings
  | within pieces =>
    refine ⟨rfl, ?_, hnested, fun _ => hvacant, rfl⟩
    simp [finishCall, complete, Mode.strings, Call.strings, Place.strings]

theorem carries_finishArgument (hnested : r.scope.Nested) (hvacant : r.scope.Vacant) (call : Call)
    (arg : Argument Tree) :
    (r.finishArgument call arg).Carries r.opened
      (r.scope.strings ++ call.strings ++ arg.strings) := by
  obtain ⟨place, name, listed, args⟩ := call
  have hcall : (Call.mk place name listed (arg :: args)).strings
      = (Call.mk place name listed args).strings ++ arg.strings := by
    simp [Call.strings]
  rw [List.append_assoc, ← hcall]
  cases listed with
  | true => exact ⟨rfl, rfl, hnested, fun _ => hvacant, rfl⟩
  | false => exact carries_finishCall hnested hvacant _

theorem carries_openBrackets (hnested : r.scope.Nested) (hvacant : r.scope.Vacant) (call : Call) :
    (r.openBrackets call).Carries (.square :: r.opened) (r.scope.strings ++ call.strings) := by
  refine ⟨rfl, ?_, ⟨hvacant, hnested⟩, fun hmode => absurd rfl hmode, rfl⟩
  simp [openBrackets, complete, Scope.strings, Mode.strings]

theorem carries_openBraces (hnested : r.scope.Nested) (hvacant : r.scope.Vacant) (call : Call) :
    (r.openBraces call).Carries (.curly :: r.opened) (r.scope.strings ++ call.strings) := by
  refine ⟨rfl, ?_, ⟨hvacant, hnested⟩, fun hmode => absurd rfl hmode, rfl⟩
  simp [openBraces, complete, Scope.strings, Mode.strings]

theorem reads_closeList (hnested : r.scope.Nested) (hvacant : r.scope.Vacant) (call : Call) :
    Reads r.opened (r.scope.strings ++ call.strings) b (r.closeList call b) :=
  reads_cross fun after => carries_finishCall (r := { r with opened := after }) hnested hvacant call

/-- A closer for the scope. In a document it is refused, with nothing open that it could match. -/
theorem reads_closeScope (hnested : r.scope.Nested)
    (hdocument : ∀ blocks, r.scope = .document blocks →
      r.opened = [] ∧ ∃ kind : Bracket, b = kind.closer) :
    Reads r.opened r.scope.strings b (r.closeScope b) := by
  obtain ⟨n, σ, S, m⟩ := r
  cases S with
  | document blocks =>
    obtain ⟨hσ, kind, hb⟩ := hdocument blocks rfl
    have hσ : σ = [] := hσ
    rw [hσ]
    exact ⟨rfl, rfl, kind, hb, by simp⟩
  | braces outer call start depth blocks =>
    -- A byte that is not the closer of the scope is refused with a cause of its own.
    refine reads_ite (fun _ => reads_cross fun after => ?_) fun _ => trivial
    have hcarries := carries_finishArgument (r := ⟨n, after, outer, m⟩) hnested.2 hnested.1 call
      (.block blocks.reverse ⟨start, n + 1⟩)
    rw [Argument.strings_block] at hcarries
    exact hcarries
  | brackets outer call start depth content =>
    refine reads_ite (fun _ => reads_cross fun after => ?_) fun _ => trivial
    have hcarries := carries_finishArgument (r := ⟨n, after, outer, m⟩) hnested.2 hnested.1 call
      (.inline (content.getD (.node (.group []))) ⟨start, n + 1⟩)
    have hcontent : (content.getD (.node (.group []))).strings
        = content.toList.flatMap Tree.strings := by
      cases content <;> simp
    rw [Argument.strings_inline, hcontent] at hcarries
    exact hcarries

/-- A byte that ends the scope is a closer, and in a document nothing is open that it could close. -/
theorem document_of_endsScope (h : r.endsScope b = true) (blocks : List Tree)
    (hscope : r.scope = .document blocks) : r.opened = [] ∧ ∃ kind : Bracket, b = kind.closer := by
  rw [endsScope, Bool.and_eq_true, beq_iff_eq, hscope] at h
  obtain ⟨hcloser, hlength⟩ := h
  obtain ⟨kind, hkind⟩ := Option.isSome_iff_exists.1 hcloser
  exact ⟨List.length_eq_zero_iff.1 hlength, kind, Bracket.eq_closer_of_ofCloser? hkind⟩

theorem carries_endRun (hnested : r.scope.Nested) (hvacant : r.scope.Vacant) (pieces : List Tree) :
    (r.endRun pieces).Carries r.opened (r.scope.strings ++ (Place.within pieces).strings) := by
  refine ⟨rfl, ?_, Scope.nested_addRun hnested pieces, fun hmode => absurd rfl hmode, rfl⟩
  exact (List.append_nil _).trans (Scope.strings_addRun hvacant pieces)

theorem endsScope_endRun (pieces : List Tree) :
    (r.endRun pieces).endsScope b = r.endsScope b := by
  obtain ⟨n, σ, S, m⟩ := r
  cases S <;> rfl

/-- In a text no string is read, and each byte is pushed, popped or refused as in a scan. -/
theorem reads_inText (hnested : r.scope.Nested) (hvacant : r.scope.Vacant) (pieces : List Tree)
    (start : Nat) (afterReturn : Bool) :
    Reads r.opened (r.scope.strings ++ (Place.within pieces).strings) b
      (r.inText pieces start afterReturn b) := by
  refine reads_ite (fun htilde => ?_) fun _ => ?_
  · refine reads_plain (Bracket.plain_of_beq htilde (by decide)) ?_
    refine ⟨rfl, ?_, hnested, fun _ => hvacant, rfl⟩
    rw [← strings_addText pieces start r.offset]
    rfl
  refine reads_ite (fun hline => ?_) fun _ => ?_
  · refine reads_plain (Bracket.plain_of_beq hline (by decide)) ?_
    rw [← strings_addText pieces start (if afterReturn then r.offset - 1 else r.offset)]
    exact carries_endRun hnested hvacant _
  refine reads_ite (fun hends => ?_) fun _ => ?_
  · -- the run ends first, so it is the scope with the run in it that is closed
    rw [← endsScope_endRun (addText pieces start r.offset)] at hends
    rw [← strings_addText pieces start r.offset, ← Scope.strings_addRun hvacant]
    exact reads_closeScope (Scope.nested_addRun hnested _) (document_of_endsScope hends)
  · exact reads_cross fun after => ⟨rfl, rfl, hnested, fun _ => hvacant, rfl⟩

theorem carries_tilde (hnested : r.scope.Nested) (hvacant : r.scope.Vacant) :
    ({ r with mode := .name .alone (r.offset + 1) } : Reader).Carries r.opened r.scope.strings :=
  ⟨rfl, List.append_nil _, hnested, fun _ => hvacant, rfl⟩

theorem reads_inText_nil (hnested : r.scope.Nested) (hvacant : r.scope.Vacant) :
    Reads r.opened r.scope.strings b (r.inText [] r.offset false b) := by
  have htext := reads_inText (b := b) hnested hvacant [] r.offset false
  have hnil : (Place.within []).strings = [] := rfl
  rw [hnil, List.append_nil] at htext
  exact htext

theorem reads_inReady (hnested : r.scope.Nested) (hmode : r.mode = .ready) :
    Reads r.opened r.scope.strings b (r.inReady b) := by
  -- Blocks wait for a byte as the document does; square brackets take a run at once, and with one in
  -- them they only close.
  cases hblocks : r.scope.allowsBlocks with
  | true =>
    have hvacant := Scope.vacant_of_allowsBlocks hblocks
    rw [inReady_of_allowsBlocks hblocks]
    refine reads_ite (fun hblank => ?_) fun _ => ?_
    · refine reads_plain (Bracket.plain_of_isBlank hblank) ?_
      refine ⟨rfl, ?_, hnested, fun hready => absurd hmode hready, by rw [hmode]; rfl⟩
      rw [complete, hmode]
      exact List.append_nil _
    refine reads_ite (fun htilde => ?_) fun _ => ?_
    · refine reads_plain (Bracket.plain_of_beq htilde (by decide)) ?_
      exact carries_tilde hnested hvacant
    refine reads_ite (fun hends => ?_) fun _ => ?_
    · exact reads_closeScope hnested (document_of_endsScope hends)
    · exact reads_inText_nil hnested hvacant
  | false =>
    obtain ⟨n, σ, S, m⟩ := r
    cases S with
    | brackets outer call start depth content =>
      cases content with
      | some => exact reads_closeScope hnested fun _ hscope => by cases hscope
      | none =>
        refine reads_ite (fun htilde => ?_) fun _ => ?_
        · refine reads_plain (Bracket.plain_of_beq htilde (by decide)) ?_
          exact carries_tilde hnested trivial
        · exact reads_inText_nil hnested trivial
    | _ => cases hblocks

theorem reads_inHead (hnested : r.scope.Nested) (hvacant : r.scope.Vacant) (place : Place)
    (name : Span) : Reads r.opened (r.scope.strings ++ place.strings) b (r.inHead place name b) := by
  have hcall (listed : Bool) : (Call.mk place name listed []).strings = place.strings :=
    List.append_nil _
  refine reads_ite (fun hblank => ?_) fun _ => ?_
  · exact reads_plain (Bracket.plain_of_isBlank hblank) ⟨rfl, rfl, hnested, fun _ => hvacant, rfl⟩
  refine reads_ite (fun hround => ?_) fun _ => ?_
  · rw [beq_iff_eq] at hround
    rw [hround, ← hcall true]
    exact ⟨_, Bracket.pass_opener _ _, rfl, rfl, hnested, fun _ => hvacant, rfl⟩
  refine reads_ite (fun hsquare => ?_) fun _ => ?_
  · rw [beq_iff_eq] at hsquare
    rw [hsquare, ← hcall false]
    exact ⟨_, Bracket.pass_opener _ _, carries_openBrackets hnested hvacant _⟩
  refine reads_ite (fun hcurly => ?_) fun _ => trivial
  rw [Bool.and_eq_true, beq_iff_eq] at hcurly
  rw [hcurly.1, ← hcall false]
  exact ⟨_, Bracket.pass_opener _ _, carries_openBraces hnested hvacant _⟩

theorem reads_inList (hnested : r.scope.Nested) (hvacant : r.scope.Vacant) (call : Call)
    (hb : b ≠ quote) : Reads r.opened (r.scope.strings ++ call.strings) b (r.inList call b) := by
  refine reads_ite (fun hblank => ?_) fun _ => ?_
  · exact reads_plain (Bracket.plain_of_isBlank hblank) ⟨rfl, rfl, hnested, fun _ => hvacant, rfl⟩
  refine reads_ite (fun _ => reads_closeList hnested hvacant call) fun _ => ?_
  refine reads_ite (fun hsquare => ?_) fun _ => ?_
  · rw [beq_iff_eq] at hsquare
    rw [hsquare]
    exact ⟨_, Bracket.pass_opener _ _, carries_openBrackets hnested hvacant call⟩
  refine reads_ite (fun hcurly => ?_) fun _ => ?_
  · rw [Bool.and_eq_true, beq_iff_eq] at hcurly
    rw [hcurly.1]
    exact ⟨_, Bracket.pass_opener _ _, carries_openBraces hnested hvacant call⟩
  -- Quotes open a string, which `take_of_quotes` is about.
  refine reads_ite (fun hquote => absurd (beq_iff_eq.1 hquote) hb) fun _ => ?_
  refine reads_ite (fun hletter => ?_) fun _ => trivial
  exact reads_plain (Bracket.plain_of_isLetter hletter) ⟨rfl, rfl, hnested, fun _ => hvacant, rfl⟩

theorem reads_inNext (hnested : r.scope.Nested) (hvacant : r.scope.Vacant) (call : Call) :
    Reads r.opened (r.scope.strings ++ call.strings) b (r.inNext call b) := by
  refine reads_ite (fun hblank => ?_) fun _ => ?_
  · exact reads_plain (Bracket.plain_of_isBlank hblank) ⟨rfl, rfl, hnested, fun _ => hvacant, rfl⟩
  refine reads_ite (fun _ => reads_closeList hnested hvacant call) fun _ => ?_
  refine reads_ite (fun hcomma => ?_) fun _ => trivial
  refine reads_plain (Bracket.plain_of_beq hcomma (by decide)) ?_
  exact ⟨rfl, rfl, hnested, fun _ => hvacant, rfl⟩

/-- The byte is one of a string: the reader stands in one, or the byte opens one. -/
def quotes (r : Reader) (b : UInt8) : Bool :=
  match r.mode with
  | .string .. => true
  | .list .. => b == quote
  | _ => false

/-- Outside of strings the byte is read as in a scan, in whichever mode the reader is. -/
theorem reads_take (hnested : r.scope.Nested) (hvacant : r.mode ≠ .ready → r.scope.Vacant)
    (h : r.quotes b = false) : Reads r.opened r.complete b (r.take b) := by
  obtain ⟨n, σ, S, m⟩ := r
  -- One case for each mode; the list and the string leave their quotes to the other lemma.
  cases m with
  | ready =>
    have hready := reads_inReady (r := ⟨n, σ, S, .ready⟩) (b := b) hnested rfl
    rw [complete]
    show Reads σ (S.strings ++ []) b _
    rw [List.append_nil]
    exact hready
  | text pieces start afterReturn =>
    exact reads_inText hnested (hvacant nofun) pieces start afterReturn
  | name place start =>
    refine reads_ite (fun hletter => ?_) fun _ => ?_
    · exact reads_plain (Bracket.plain_of_isLetter hletter)
        ⟨rfl, rfl, hnested, fun _ => hvacant nofun, rfl⟩
    · exact reads_inHead hnested (hvacant nofun) place _
  | head place name => exact reads_inHead hnested (hvacant nofun) place name
  | list call fresh =>
    refine reads_inList hnested (hvacant nofun) call fun hb => ?_
    have hquote : (b == quote) = false := h
    rw [hb, beq_self_eq_true] at hquote
    cases hquote
  | ident call start =>
    refine reads_ite (fun hletter => ?_) fun _ => ?_
    · exact reads_plain (Bracket.plain_of_isLetter hletter)
        ⟨rfl, rfl, hnested, fun _ => hvacant nofun, rfl⟩
    · have hnext := reads_inNext (r := ⟨n, σ, S, .ident call start⟩) (b := b) hnested
        (hvacant nofun) { call with args := .ident ⟨start, n⟩ :: call.args }
      have hcall : ({ call with args := .ident ⟨start, n⟩ :: call.args } : Call).strings
          = call.strings := by
        simp [Call.strings]
      rw [hcall] at hnext
      exact hnext
  | string => cases h
  | next call => exact reads_inNext hnested (hvacant nofun) call

/-- A byte of a string is taken whatever it is, and the string is longer by it. -/
theorem take_of_quotes (hnested : r.scope.Nested) (hvacant : r.mode ≠ .ready → r.scope.Vacant)
    (h : r.quotes b = true) :
    ∃ next start, r.take b = .ok next ∧ next.opened = r.opened ∧ next.scope.Nested
      ∧ (next.mode ≠ .ready → next.scope.Vacant)
      ∧ (r.current = [⟨start, r.offset⟩] ∨ r.current = [] ∧ start = r.offset)
      ∧ ({ next with offset := r.offset + 1 } : Reader).strings
        = r.complete ++ [⟨start, r.offset + 1⟩] := by
  obtain ⟨n, σ, S, m⟩ := r
  cases m with
  | list call fresh =>
    have hb : b = quote := beq_iff_eq.1 h
    refine ⟨⟨n, σ, S, .string call n false⟩, n, ?_, rfl, hnested, fun _ => hvacant nofun,
      .inr ⟨rfl, rfl⟩, rfl⟩
    rw [hb]
    rfl
  | string call start escaped =>
    -- The closing quote ends the argument; any other byte leaves the reader in the string.
    cases hends : b == quote && !escaped with
    | true =>
      have hcarries := carries_finishArgument (r := ⟨n, σ, S, .string call start escaped⟩) hnested
        (hvacant nofun) call (.string ⟨start, n + 1⟩)
      refine ⟨_, start, ?_, hcarries.opened, hcarries.nested, hcarries.vacant, .inl rfl, ?_⟩
      · simp only [take, hends, if_true]
      · exact (strings_moved hcarries.outside (n + 1)).trans hcarries.strings
    | false =>
      refine ⟨⟨n, σ, S, .string call start (b == backslash)⟩, start, ?_, rfl, hnested,
        fun _ => hvacant nofun, .inl rfl, rfl⟩
      simp only [take, hends, Bool.false_eq_true, if_false]
  | _ => cases h

end Step

/-! ## A whole run -/

/-- The bytes that the reader has taken, without its strings, are a word that leaves open what the
reader has open. -/
structure Consumed (r : Reader) (w : Bytes) : Prop where
  offset : r.offset = w.length
  nested : r.scope.Nested
  vacant : r.mode ≠ .ready → r.scope.Vacant
  bounds : ∀ span ∈ r.strings, span.start ≤ r.offset ∧ span.stop ≤ r.offset
  scan : Bracket.scan [] (dropSpans r.strings 0 w) = some r.opened

/-- The initial reader has taken no bytes, so it has read no string and has nothing open. -/
theorem consumed_initial : initial.Consumed [] where
  offset := rfl
  nested := trivial
  vacant hmode := absurd rfl hmode
  bounds _ hspan := absurd hspan List.not_mem_nil
  scan := rfl

section Run

variable {r next : Reader} {w : Bytes} {b : UInt8}

/-- A byte of a string makes the last of the strings longer, and the rest is as it was. -/
theorem Consumed.take_quotes (hr : r.Consumed w) (h : r.take b = .ok next)
    (hquotes : r.quotes b = true) :
    ({ next with offset := r.offset + 1 } : Reader).Consumed (w ++ [b]) := by
  obtain ⟨found, start, hfound, hopened, hnested, hvacant, hcurrent, hstrings⟩ :=
    take_of_quotes hr.nested hr.vacant hquotes
  rw [h] at hfound
  cases hfound
  have hoffset := hr.offset
  have hstart : start ≤ r.offset := by
    rcases hcurrent with hcurrent | ⟨_, rfl⟩
    · refine (hr.bounds ⟨start, r.offset⟩ ?_).1
      rw [strings, hcurrent]
      exact List.mem_append_right _ (List.mem_singleton_self _)
    · exact Nat.le_refl _
  -- where the string has just been opened, there is none of it in front of the byte
  have hbefore : dropSpans (r.complete ++ [⟨start, r.offset⟩]) 0 w = dropSpans r.strings 0 w := by
    rw [strings]
    rcases hcurrent with hcurrent | ⟨hcurrent, rfl⟩
    · rw [hcurrent]
    · rw [hcurrent, dropSpans_empty, List.append_nil]
  constructor
  case offset =>
    rw [List.length_append, ← hoffset]
    rfl
  case nested => exact hnested
  case vacant => exact hvacant
  case bounds =>
    intro span hspan
    show span.start ≤ r.offset + 1 ∧ span.stop ≤ r.offset + 1
    rw [hstrings] at hspan
    rcases List.mem_append.1 hspan with hspan | hspan
    · obtain ⟨hlo, hhi⟩ := hr.bounds span (List.mem_append_left _ hspan)
      omega
    · rw [List.mem_singleton.1 hspan]
      exact ⟨Nat.le_succ_of_le hstart, Nat.le_refl _⟩
  case scan =>
    rw [hstrings]
    rw [hoffset] at hstart hbefore ⊢
    rw [dropSpans_grow hstart, hbefore]
    exact hr.scan.trans (congrArg some hopened.symm)

/-- Any other byte is scanned, and the strings that have been read stay as they are. -/
theorem Consumed.take_reads (hr : r.Consumed w) (h : r.take b = .ok next)
    (hquotes : r.quotes b = false) :
    ({ next with offset := r.offset + 1 } : Reader).Consumed (w ++ [b]) := by
  have hreads := reads_take hr.nested hr.vacant hquotes
  rw [h] at hreads
  obtain ⟨opened, hpass, hcarries⟩ := hreads
  have hoffset := hr.offset
  have houtside : r.mode.isString = false := by
    cases hmode : r.mode with
    | string =>
      rw [quotes, hmode] at hquotes
      cases hquotes
    | _ => rfl
  have hstrings : ({ next with offset := r.offset + 1 } : Reader).strings = r.strings := by
    rw [strings_moved hcarries.outside, hcarries.strings]
    exact (strings_moved houtside r.offset).symm
  -- All strings end in front of the byte, so it is kept.
  have hafter : dropSpans r.strings (0 + w.length) [b] = [b] := by
    refine dropSpans_after fun span hspan => ?_
    rw [Nat.zero_add, ← hoffset]
    exact (hr.bounds span hspan).2
  constructor
  case offset =>
    rw [List.length_append, ← hoffset]
    rfl
  case nested => exact hcarries.nested
  case vacant => exact hcarries.vacant
  case bounds =>
    intro span hspan
    rw [hstrings] at hspan
    obtain ⟨hlo, hhi⟩ := hr.bounds span hspan
    exact ⟨Nat.le_succ_of_le hlo, Nat.le_succ_of_le hhi⟩
  case scan =>
    rw [hstrings, dropSpans_append, hafter, Bracket.scan_append, hr.scan, Option.bind_some,
      Bracket.scan_singleton, hpass]
    exact congrArg some hcarries.opened.symm

/-- One byte keeps the invariant, whether it is one of a string or one that is scanned. -/
theorem Consumed.step (hr : r.Consumed w) (h : r.step b = .ok next) : next.Consumed (w ++ [b]) := by
  rw [Reader.step] at h
  cases htake : r.take b with
  | error cause =>
    rw [htake] at h
    cases h
  | ok after =>
    rw [htake] at h
    cases h
    cases hquotes : r.quotes b with
    | true => exact hr.take_quotes htake hquotes
    | false => exact hr.take_reads htake hquotes

/-- A byte that is refused as unbalanced does not match what the reader has open. -/
theorem Consumed.mismatches (hr : r.Consumed w) {fault : Fault} (h : r.step b = .error fault) :
    fault.cause.Mismatches r.opened b := by
  rw [Reader.step] at h
  cases htake : r.take b with
  | ok after =>
    rw [htake] at h
    cases h
  | error cause =>
    rw [htake] at h
    cases h
    -- In a string no byte is refused.
    cases hquotes : r.quotes b with
    | true =>
      obtain ⟨_, _, hfound, _⟩ := take_of_quotes hr.nested hr.vacant hquotes
      rw [htake] at hfound
      cases hfound
    | false =>
      have hreads := reads_take hr.nested hr.vacant hquotes
      rw [htake] at hreads
      exact hreads

/-- By induction on the bytes, a run that comes to no fault keeps the invariant. -/
theorem Consumed.run {last : Reader} {bytes : Bytes} (hr : r.Consumed w)
    (h : r.run bytes = .ok last) : last.Consumed (w ++ bytes) := by
  induction bytes generalizing r w with
  | nil =>
    cases h
    rw [List.append_nil]
    exact hr
  | cons b rest ih =>
    rw [run_cons] at h
    cases hstep : r.step b with
    | error fault =>
      rw [hstep] at h
      cases h
    | ok middle =>
      rw [hstep] at h
      have hrest := ih (hr.step hstep) h
      rw [List.append_assoc] at hrest
      exact hrest

/-- The strings of a document are those that have been read when it ends. -/
theorem strings_of_finish {tree : Tree} (hr : r.Consumed w) (h : r.finish = .ok tree) :
    tree.strings = r.strings := by
  have hscope {S : Scope} (h : finishScope S = .ok tree) : tree.strings = S.strings := by
    obtain ⟨blocks, rfl, rfl⟩ := finishScope_eq_ok h
    exact Tree.strings_group _
  obtain ⟨n, σ, S, m⟩ := r
  have hcomplete (houtside : m.isString = false) :
      (Reader.mk n σ S m).strings = S.strings ++ m.strings :=
    strings_moved (r := ⟨n, σ, S, m⟩) houtside n
  cases m with
  | ready =>
    rw [hcomplete rfl, hscope (ok_of_mapError h)]
    exact (List.append_nil _).symm
  | text pieces start afterReturn =>
    -- The end of the source ends the paragraph.
    have hvacant : S.Vacant := hr.vacant nofun
    rw [hcomplete rfl, hscope (ok_of_mapError h), Scope.strings_addRun hvacant, strings_addText]
    rfl
  | _ => cases h

/-- At the end of a source there is no closer to refuse. -/
theorem finish_ne_unbalanced (r : Reader) (wanted : Option Bytes) (found : Bytes) (span : Span) :
    r.finish ≠ .error ⟨.unbalanced wanted found, span⟩ := by
  have hscope (S : Scope) : finishScope S ≠ .error (.unbalanced wanted found) := by
    cases S <;> exact nofun
  intro h
  obtain ⟨n, σ, S, m⟩ := r
  obtain ⟨cause, hcause, hfault⟩ := error_of_mapError h
  obtain ⟨rfl, _⟩ := Fault.mk.inj hfault
  cases m with
  | ready => exact hscope S hcause
  | text pieces start afterReturn => exact hscope _ hcause
  | list call fresh => cases fresh <;> cases hcause
  | _ => cases hcause

/-- The reader at the first byte that is refused, or after all bytes. -/
def furthest (r : Reader) : Bytes → Reader
  | [] => r
  | b :: rest =>
    match r.step b with
    | .ok next => next.furthest rest
    | .error _ => r

/-- Bytes that are taken are passed over, and the search goes on behind them. -/
theorem furthest_append {last : Reader} {bytes : Bytes} (h : r.run bytes = .ok last) (rest : Bytes) :
    r.furthest (bytes ++ rest) = last.furthest rest := by
  induction bytes generalizing r with
  | nil =>
    cases h
    rfl
  | cons b more ih =>
    rw [run_cons] at h
    rw [List.cons_append, furthest]
    cases hstep : r.step b with
    | error fault =>
      rw [hstep] at h
      cases h
    | ok next =>
      rw [hstep] at h
      exact ih h

theorem furthest_of_step {fault : Fault} {rest : Bytes} (h : r.step b = .error fault) :
    r.furthest (b :: rest) = r := by
  rw [furthest, h]

end Run

end Reader

end TildeMarkup
