import TildeMarkup.Proofs.Descent.Agreement
import TildeMarkup.Proofs.Descent.Stack
import TildeMarkup.Proofs.Reader.Strings

/-!
# Brackets of rules

What each rule does to the stack, if it returns. A run of text, and a loop over blocks, may close what is
open above the frame of the argument around the cursor, and nothing else (`Takes`). A command, a list and an
argument close nothing that was open in front of them (`Spares`).

In braces all is closed again, since their loop is only left at their frame. Square brackets are not looked
at before their closer is crossed: after a line of text that has left a bracket open, the closer takes that
one (`bracketed_returns`). All that is left open by a list or by a command comes from there.
-/

namespace TildeMarkup

namespace Descent

open Reader

/-! ## Small rules -/

section Returns

variable {α β : Type} {source : Bytes} {c : Cursor} {b : UInt8}

/-- Where the rule has a result, it and the cursor are of one kind. -/
abbrev Returns (rule : Rule α) (c : Cursor) (goes : α → Cursor → Prop) : Prop :=
  Meets rule c goes fun _ => True

theorem Returns.andThen {rule : Rule α} {f : α → Rule β} {goes : α → Cursor → Prop}
    {more : β → Cursor → Prop} (h : Returns rule c goes)
    (hf : ∀ result next, goes result next → Returns (f result) next more) : Returns (rule >>= f) c more :=
  meets_bind.2 (h.mono hf fun _ => id)

theorem Returns.imp {rule : Rule α} {goes more : α → Cursor → Prop} (h : Returns rule c goes)
    (himp : ∀ result next, goes result next → more result next) : Returns rule c more :=
  h.mono himp fun _ => id

theorem returns_refuse {cause : Cause} {goes : α → Cursor → Prop} : Returns (refuse source cause) c goes :=
  trivial

/-- A byte that is read is crossed. If it is a bracket, the stack knows of it afterwards. -/
theorem bump_returns (hb : source[c.offset]? = some b) :
    Returns (bump source) c fun _ next => Crosses source c b next := by
  rw [Returns, Meets, bump, hb]
  simp only
  cases hcross : cross c.opened b with
  | ok opened => exact ⟨hb, rfl, rfl, cross_eq_ok.1 hcross⟩
  | error cause => trivial

/-- No other byte than the wanted one is crossed. -/
theorem expect_returns (wanted : UInt8) :
    Returns (expect source wanted) c fun _ next => Crosses source c wanted next := by
  refine meets_peek.2 ?_
  cases hpeek : source[c.offset]? with
  | none => exact returns_refuse
  | some b =>
    dsimp only
    split
    · next hb => exact hb ▸ bump_returns hpeek
    · exact returns_refuse

/-- A byte that is no bracket is crossed. -/
theorem Crosses.spares {next : Cursor} (h : Crosses source c b next)
    (hplain : Bracket.ofOpener? b = none ∧ Bracket.ofCloser? b = none) : Spares source c [] next :=
  (h.takes List.suffix_rfl fun hcloser => by rw [hplain.2] at hcloser; cases hcloser).spares
    (h.opened_eq hplain)

/-- Moving on over bytes of one kind leaves the stack alone, if no byte of that kind is a bracket. -/
theorem pass_returns {kind : UInt8 → Bool}
    (hplain : ∀ b, kind b = true → Bracket.ofOpener? b = none ∧ Bracket.ofCloser? b = none) :
    Returns (pass source kind) c fun _ next => Spares source c [] next ∧ next.opened = c.opened := by
  have hkind : ∀ b ∈ (source.drop c.offset).takeWhile kind, kind b = true :=
    List.all_eq_true.1 List.all_takeWhile
  refine ⟨Takes.spares ?_ rfl, rfl⟩
  refine ⟨Nat.le_add_right _ _, rfl, fun _ hspan => absurd hspan List.not_mem_nil, [], [], rfl, rfl, ?_⟩
  show Bracket.scan [] (taken source [] c.offset (c.offset + _)) = some []
  rw [taken_takeWhile]
  exact Bracket.scan_plain (fun b hb => hplain b (hkind b hb)) []

theorem ident_returns : Returns (ident source) c fun arg next =>
    Spares source c arg.strings next ∧ next.opened = c.opened := by
  refine meets_here.2 ((pass_returns fun _ => Bracket.plain_of_isLetter).andThen fun _ next hnext => ?_)
  exact meets_here.2 (meets_pure.2 hnext)

/-- What stands in a string is not looked at as brackets: the string itself is told of, as one whose bytes
are not taken. -/
theorem string_returns : Returns (string source) c fun arg next =>
    Spares source c arg.strings next ∧ next.opened = c.opened := by
  refine meets_here.2 (meets_skip.2 (meets_passString.2 (meets_peek.2 ?_)))
  split
  · exact returns_refuse
  · refine meets_skip.2 (meets_here.2 (meets_pure.2 ⟨Takes.spares ?_ rfl, rfl⟩))
    -- The string is the only thing found, and without it nothing of the way is left to scan.
    rw [Argument.strings_string]
    refine ⟨?_, rfl, fun span hspan => ?_, [], [], rfl, rfl, ?_⟩
    · show c.offset ≤ c.offset + 1 + _ + 1
      omega
    · rw [List.mem_singleton.1 hspan]
      exact ⟨Nat.le_refl _, Nat.le_refl _⟩
    · rw [taken_string]
      rfl

/-- What stands behind an argument of a list. -/
theorem separator_returns : Returns (separator source) c fun _ next => Spares source c [] next := by
  refine meets_peek.2 ?_
  split
  · exact meets_pure.2 (Spares.refl source c)
  · exact (expect_returns comma).imp fun _ next hnext => hnext.spares (by decide)

end Returns

/-! ## All rules -/

/-- The strings of results that are kept with the last of them first. -/
def stringsOf {α : Type} (strings : α → List Span) (results : List α) : List Span :=
  results.reverse.flatMap strings

@[simp] theorem stringsOf_nil {α : Type} (strings : α → List Span) : stringsOf strings [] = [] := rfl

@[simp] theorem stringsOf_cons {α : Type} (strings : α → List Span) (result : α) (results : List α) :
    stringsOf strings (result :: results) = stringsOf strings results ++ strings result := by
  rw [stringsOf, stringsOf, List.reverse_cons, List.flatMap_append, List.flatMap_singleton]

/-- The strings found on the way from one cursor to another come behind those found before. -/
def Adds (moves : Cursor → List Span → Cursor → Prop) (strings : List Span) (c : Cursor)
    (found : List Span) (next : Cursor) : Prop :=
  ∃ more, found = strings ++ more ∧ moves c more next

/-- No strings are found on the way. -/
theorem Adds.none {moves : Cursor → List Span → Cursor → Prop} {strings : List Span} {c next : Cursor}
    (h : moves c [] next) : Adds moves strings c strings next :=
  ⟨[], (List.append_nil _).symm, h⟩

theorem Adds.trans {moves : Cursor → List Span → Cursor → Prop} {strings front back : List Span}
    {c middle next : Cursor}
    (htrans : ∀ {front back}, moves c front middle → moves middle back next → moves c (front ++ back) next)
    (h : Adds moves strings c front middle) (hnext : Adds moves front middle back next) :
    Adds moves strings c back next := by
  obtain ⟨first, rfl, hfirst⟩ := h
  obtain ⟨second, rfl, hsecond⟩ := hnext
  exact ⟨first ++ second, List.append_assoc _ _ _, htrans hfirst hsecond⟩

/-- A run of text is over: nothing is open above the frame, or its line is at an end, or the source is. -/
def EndsText (source : Bytes) (c : Cursor) : Prop :=
  ∀ b, source[c.offset]? = some b →
    c.opened.length = c.frame ∨ ∃ i, c.offset = i + 1 ∧ source[i]? = some lineFeed

/-- How rules change the stack. For text and blocks, `base` is the part of it up to the frame, which no
rule of these gets to; for a command and a list it is the whole stack. -/
structure Rules.Take (source : Bytes) (rules : Rules) : Prop where
  text : ∀ run base c, base <:+ c.opened → base.length = c.frame →
    Returns (rules.text run) c fun pieces next =>
      Adds (Takes source base) (stringsOf Tree.strings run.1) c (stringsOf Tree.strings pieces) next
        ∧ EndsText source next
  command : ∀ blocks c, source[c.offset]? = some tilde →
    Returns (rules.command blocks) c fun tree next => Spares source c tree.strings next
  list : ∀ blocks args c, Returns (rules.list blocks args) c fun more next =>
    Adds (Spares source) (stringsOf Argument.strings args) c (stringsOf Argument.strings more) next
  braces : ∀ parts base c, base <:+ c.opened → base.length = c.frame →
    Returns (rules.braces parts) c fun more next =>
      Adds (Takes source base) (stringsOf Tree.strings parts) c (stringsOf Tree.strings more) next
        ∧ ∀ b, source[next.offset]? = some b → next.opened.length = next.frame
  document : ∀ parts base c, base <:+ c.opened → base.length = c.frame →
    Returns (rules.document parts) c fun more next =>
      Adds (Takes source base) (stringsOf Tree.strings parts) c (stringsOf Tree.strings more) next

section Rules

variable {source : Bytes} {rules : Rules} {base : List Bracket} {c : Cursor} {blocks : Bool}

/-- A loop keeps what its turns keep, if the turn and the rest of the loop do. -/
theorem loop_returns {σ α : Type} {turn : σ → Rule (Turn σ α)} {rest : σ → Rule α} {state : σ}
    {again : σ → Cursor → Prop} {exit : α → Cursor → Prop}
    (hturn : Returns (turn state) c (Turn.Goes again exit))
    (hrest : ∀ state next, again state next → Returns (rest state) next exit) :
    Returns (loop turn rest state) c exit := by
  refine hturn.andThen ?_
  rintro (state | result) next hgoes
  · exact hrest state next hgoes
  · exact meets_pure.2 hgoes

/-! ### Blocks and arguments -/

/-- What is in square brackets, or a block. If it leaves the stack changed, it is a command that has, or
it is text and ends as text does. -/
theorem part_returns (h : rules.Take source) (hbase : base <:+ c.opened) (hframe : base.length = c.frame) :
    Returns (part source rules blocks) c fun tree next => Takes source base c tree.strings next
      ∧ ((next.opened ≠ c.opened → LeadingCloser source c.offset next.offset) ∨ EndsText source next) := by
  refine meets_peek.2 ?_
  split
  · next htilde =>
    exact (h.command blocks c htilde).imp fun tree next hnext =>
      ⟨hnext.toTakes.lower hbase, .inl hnext.late⟩
  · refine meets_here.2 ((h.text _ base c hbase hframe).andThen fun pieces next hnext => meets_pure.2 ?_)
    obtain ⟨⟨more, hmore, htakes⟩, hends⟩ := hnext
    rw [stringsOf_nil, List.nil_append] at hmore
    subst hmore
    refine ⟨?_, .inr hends⟩
    cases blocks with
    | true => exact (Tree.strings_paragraph pieces.reverse).symm ▸ htakes
    | false => exact (Tree.strings_group pieces.reverse).symm ▸ htakes

/-- An argument in brackets, from its opener to its closer. What holds of its content where the rule ends
is all there is to know in front of the closer. -/
theorem enclosed_returns {α : Type} {kind : Bracket} {rule : Rule α} {form : α → Span → Argument Tree}
    {goes : α → Cursor → Prop} (hb : source[c.offset]? = some kind.opener)
    (hrule : Returns rule (c.inside kind) goes) :
    Returns (enclosed source kind.closer rule form) c fun arg next => ∃ content span after,
      arg = form content span ∧ goes content after
        ∧ Crosses source { after with frames := after.frames.tail } kind.closer next := by
  refine meets_here.2 ((bump_returns hb).andThen fun _ inside hinside => ?_)
  have hopened : inside.opened = kind :: c.opened := by
    have hpass := hinside.pass
    rw [Bracket.pass_opener] at hpass
    exact (Option.some.inj hpass).symm
  -- The opener is on top of the stack, and the height with it is the new frame.
  have hstart : { inside with frames := inside.opened.length :: inside.frames } = c.inside kind := by
    rw [hinside.offset, hinside.frames, hopened]
    rfl
  have hframed : Returns (framed rule) inside fun content after => ∃ last,
      goes content last ∧ after = { last with frames := last.frames.tail } := by
    refine meets_bind.2 ?_
    show Meets _ { inside with frames := inside.opened.length :: inside.frames } _ _
    rw [hstart]
    exact hrule.andThen fun content last hlast => ⟨last, hlast, rfl⟩
  refine hframed.andThen fun content after hafter => ?_
  obtain ⟨last, hlast, rfl⟩ := hafter
  refine (expect_returns kind.closer).andThen fun _ next hnext => meets_here.2 (meets_pure.2 ?_)
  exact ⟨content, _, last, rfl, hlast, hnext⟩

/-- What is behind an argument in brackets, from what is at the end of what it holds. -/
theorem Takes.enclose_inside {kind : Bracket} {found : List Span} {after next : Cursor}
    (hb : source[c.offset]? = some kind.opener)
    (h : Takes source (c.inside kind).opened (c.inside kind) found after)
    (hclose : Crosses source { after with frames := after.frames.tail } kind.closer next) :
    Takes source c.opened c found next := by
  refine Takes.enclose hb (h.reframe c.frames) ?_
  have hframes : after.frames.tail = c.frames := by rw [h.frames]; rfl
  rw [← hframes]
  exact hclose

/-- The closer of square brackets that are left with more open than at their start comes behind a line feed,
unless what they hold is a command that has left it open. -/
theorem bracketed_returns (h : rules.Take source) (hb : source[c.offset]? = some Bracket.square.opener) :
    Returns (bracketed source rules) c fun arg next => Spares source c arg.strings next := by
  have hframe : (c.inside .square).opened.length = (c.inside .square).frame := rfl
  refine (enclosed_returns hb (part_returns h List.suffix_rfl hframe)).imp fun arg next hnext => ?_
  obtain ⟨tree, span, after, rfl, ⟨htakes, hends⟩, hclose⟩ := hnext
  have hmoved : c.offset + 1 ≤ after.offset := htakes.moved
  have hstop : next.offset = after.offset + 1 := hclose.offset
  refine ⟨htakes.enclose_inside hb hclose, fun hne => ?_⟩
  have hopen : after.opened ≠ (c.inside .square).opened := fun hsame => hne (hclose.opened_of_enclose hsame)
  -- a command that has left something open, or text: its run is not over in front of the frame's closer
  rcases hends with hlate | hline
  · exact (hlate hopen).mono (Nat.le_succ _) (by omega)
  · rcases hline _ hclose.byte with hheight | ⟨i, hi, hfeed⟩
    · exact absurd (htakes.opened_eq_base hframe hheight) hopen
    · exact ⟨i, by omega, by omega, hfeed, hi ▸ hclose.byte⟩

/-- Braces are only left at the height at which they were opened. -/
theorem braced_returns (h : rules.Take source) (hb : source[c.offset]? = some Bracket.curly.opener) :
    Returns (braced source rules) c fun arg next => Spares source c arg.strings next
      ∧ next.opened = c.opened := by
  have hinside := h.braces [] _ (c.inside .curly) List.suffix_rfl rfl
  refine (enclosed_returns hb hinside).imp fun arg next hnext => ?_
  obtain ⟨parts, span, after, rfl, ⟨⟨more, hmore, htakes⟩, hends⟩, hclose⟩ := hnext
  rw [stringsOf_nil, List.nil_append] at hmore
  subst hmore
  have hheight : after.opened.length = after.frame := hends _ hclose.byte
  have hsame : after.opened = (c.inside .curly).opened := htakes.opened_eq_base rfl hheight
  have hopened := hclose.opened_of_enclose hsame
  refine ⟨Takes.spares ?_ hopened, hopened⟩
  rw [Argument.strings_block]
  exact htakes.enclose_inside hb hclose

/-- Every form of argument closes nothing in front of it. In a list they stand behind each other, so none
of them needs more. -/
theorem argument_returns (h : rules.Take source) :
    Returns (argument source rules blocks) c fun arg next => Spares source c arg.strings next := by
  refine meets_peek.2 ?_
  cases hpeek : source[c.offset]? with
  | none => exact returns_refuse
  | some b =>
    dsimp only
    split
    · next hb => exact bracketed_returns h (hb ▸ hpeek)
    · split
      · next hb => exact (braced_returns h (hb.1 ▸ hpeek)).imp fun _ _ hnext => hnext.1
      · split
        · exact string_returns.imp fun _ _ hnext => hnext.1
        · split
          · exact ident_returns.imp fun _ _ hnext => hnext.1
          · exact returns_refuse

/-! ### Commands -/

/-- The list of a command, from its bracket on. -/
def listed (source : Bytes) (rules : Rules) (blocks : Bool) : Rule (List (Argument Tree)) := do
  bump source
  let args ← rules.list blocks []
  expect source Bracket.round.closer
  return args.reverse

theorem listed_returns (h : rules.Take source) (hb : source[c.offset]? = some Bracket.round.opener) :
    Returns (listed source rules blocks) c fun args next =>
      Spares source c (args.flatMap Argument.strings) next := by
  refine (bump_returns hb).andThen fun _ inside hinside => ?_
  have hpass := hinside.pass
  rw [Bracket.pass_opener] at hpass
  -- a list has no frame of its own, unlike the arguments in it
  have hstart : inside = { c with offset := c.offset + 1, opened := .round :: c.opened } := by
    rw [← hinside.offset, ← hinside.frames, Option.some.inj hpass]
  subst hstart
  refine (h.list blocks [] _).andThen fun args after hafter => ?_
  obtain ⟨more, hmore, hspares⟩ := hafter
  rw [stringsOf_nil, List.nil_append] at hmore
  subst hmore
  refine (expect_returns Bracket.round.closer).andThen fun _ next hclose => meets_pure.2 ?_
  refine ⟨hspares.toTakes.enclose hb hclose, fun hne => ?_⟩
  have hlate := hspares.late fun hsame => hne (hclose.opened_of_enclose hsame)
  exact hlate.mono (Nat.le_succ _) (hclose.offset ▸ Nat.le_succ _)

/-- The arguments of a command, in each of the three forms they may have. -/
theorem arguments_returns (h : rules.Take source) :
    Returns (arguments source rules blocks) c fun args next =>
      Spares source c (args.flatMap Argument.strings) next := by
  have hsingle {arg : Argument Tree} {next : Cursor} (hnext : Spares source c arg.strings next) :
      Spares source c ([arg].flatMap Argument.strings) next := by
    rw [List.flatMap_singleton]
    exact hnext
  refine meets_peek.2 ?_
  cases hpeek : source[c.offset]? with
  | none => exact returns_refuse
  | some b =>
    dsimp only
    split
    · next hb => exact listed_returns h (hb ▸ hpeek)
    · split
      · next hb =>
        exact (bracketed_returns h (hb ▸ hpeek)).andThen fun _ _ hnext => meets_pure.2 (hsingle hnext)
      · split
        · next hb =>
          exact (braced_returns h (hb.1 ▸ hpeek)).andThen fun _ _ hnext => meets_pure.2 (hsingle hnext.1)
        · exact returns_refuse

/-- A name and blanks hold no brackets, so whatever a command leaves open is left open by its
arguments. -/
theorem command_returns (h : rules.Take source) (hb : source[c.offset]? = some tilde) :
    Returns (command source rules blocks) c fun tree next => Spares source c tree.strings next := by
  refine (bump_returns hb).andThen fun _ name hname => meets_here.2 ?_
  have hname := hname.spares (by decide)
  refine (pass_returns fun _ => Bracket.plain_of_isLetter).andThen fun _ head hhead => meets_here.2 ?_
  refine (pass_returns fun _ => Bracket.plain_of_isBlank).andThen fun _ args hargs => ?_
  have hargs := (hname.trans hhead.1).trans hargs.1
  refine (arguments_returns h).andThen fun found next hnext => meets_pure.2 ?_
  rw [Tree.strings_command]
  exact hargs.trans hnext

/-! ### Turns -/

/-- A command of the text closes nothing that was open in front of it, and any other byte of the text closes
nothing up to the frame: there the run is over in front of a closer. -/
theorem textTurn_returns (h : rules.Take source) (hbase : base <:+ c.opened) (hframe : base.length = c.frame)
    (run : List Tree × Nat) :
    Returns (textTurn source rules run) c (Turn.Goes
      (fun run' next => Adds (Takes source base) (stringsOf Tree.strings run.1) c
        (stringsOf Tree.strings run'.1) next)
      fun pieces next => Adds (Takes source base) (stringsOf Tree.strings run.1) c
        (stringsOf Tree.strings pieces) next ∧ EndsText source next) := by
  have htext (start stop : Nat) : stringsOf Tree.strings (addText run.1 start stop)
      = stringsOf Tree.strings run.1 := strings_addText run.1 start stop
  have hadds {start stop : Nat} {next : Cursor} (hnext : Takes source base c [] next) :
      Adds (Takes source base) (stringsOf Tree.strings run.1) c
        (stringsOf Tree.strings (addText run.1 start stop)) next :=
    (htext start stop).symm ▸ Adds.none hnext
  refine meets_here.2 (meets_peek.2 ?_)
  cases hpeek : source[c.offset]? with
  -- At the end of the source there is nothing to close.
  | none =>
    refine meets_endText.2 (meets_pure.2 ⟨hadds (Takes.refl hbase), fun b hb => ?_⟩)
    cases hpeek.symm.trans hb
  | some b =>
    dsimp only
    split
    · next htilde =>
      refine meets_endText.2 ?_
      refine (h.command false c (htilde ▸ hpeek)).andThen fun tree next hnext => ?_
      refine meets_here.2 (meets_pure.2 ⟨tree.strings, ?_, hnext.toTakes.lower hbase⟩)
      rw [stringsOf_cons, htext]
    · split
      · next hline =>
        -- A line feed is crossed as text, and is what the run is over for.
        subst hline
        refine meets_endText.2 ?_
        refine (bump_returns hpeek).andThen fun _ next hnext => meets_pure.2 ⟨hadds ?_, fun _ _ => ?_⟩
        · refine hnext.takes hbase fun hcloser => ?_
          cases hcloser
        · exact .inr ⟨c.offset, hnext.offset, hpeek⟩
      -- The one closer that is not crossed is that of the argument around the run.
      · refine meets_closesFrame.2 ?_
        cases hcloses : c.closes b with
        | true =>
          rw [if_pos rfl]
          refine meets_endText.2 (meets_pure.2 ⟨hadds (Takes.refl hbase), fun _ _ => .inl ?_⟩)
          exact beq_iff_eq.1 (Bool.and_eq_true_iff.1 hcloses).2
        | false =>
          rw [if_neg Bool.false_ne_true]
          refine (bump_returns hpeek).andThen fun _ next hnext => meets_pure.2 ?_
          refine Adds.none (hnext.takes hbase fun hcloser hsame => ?_)
          -- A closer that is crossed belongs to something above the frame, so the base is not touched.
          rw [Cursor.closes, hcloser, Bool.true_and, beq_eq_false_iff_ne] at hcloses
          exact hcloses (hsame ▸ hframe)

/-- A block, behind blanks. -/
theorem block_returns (h : rules.Take source) {start : Cursor} (hframe : base.length = c.frame)
    (hstart : Takes source base c [] start) (parts : List Tree) {exit : List Tree → Cursor → Prop} :
    Returns (do
        let block ← part source rules true
        return Turn.again (block :: parts)) start (Turn.Goes
      (fun more next => Adds (Takes source base) (stringsOf Tree.strings parts) c
        (stringsOf Tree.strings more) next) exit) := by
  have hheight : base.length = start.frame := by rw [hframe, Cursor.frame, Cursor.frame, hstart.frames]
  refine (part_returns h hstart.suffix hheight).andThen fun block next hnext => meets_pure.2 ?_
  exact ⟨block.strings, stringsOf_cons .., hstart.trans hnext.1⟩

/-- A turn in braces leaves them only at the height of their frame, or where the source ends. -/
theorem bracesTurn_returns (h : rules.Take source) (hbase : base <:+ c.opened)
    (hframe : base.length = c.frame) (parts : List Tree) :
    Returns (bracesTurn source rules parts) c (Turn.Goes
      (fun more next => Adds (Takes source base) (stringsOf Tree.strings parts) c
        (stringsOf Tree.strings more) next)
      fun more next => Adds (Takes source base) (stringsOf Tree.strings parts) c
        (stringsOf Tree.strings more) next
        ∧ ∀ b, source[next.offset]? = some b → next.opened.length = next.frame) := by
  refine (pass_returns fun _ => Bracket.plain_of_isBlank).andThen fun _ start hstart => meets_peek.2 ?_
  have hstart := hstart.1.toTakes.lower hbase
  have hstay : Adds (Takes source base) (stringsOf Tree.strings parts) c (stringsOf Tree.strings parts) start :=
    Adds.none hstart
  cases hpeek : source[start.offset]? with
  | none =>
    refine meets_pure.2 ⟨hstay, fun b hb => ?_⟩
    cases hpeek.symm.trans hb
  | some b =>
    refine meets_closesFrame.2 ?_
    split
    · next hcloses =>
      exact meets_pure.2 ⟨hstay, fun _ _ => beq_iff_eq.1 (Bool.and_eq_true_iff.1 hcloses).2⟩
    · exact block_returns h hframe hstart parts

/-- A turn in a document, whose frame is the empty stack. -/
theorem documentTurn_returns (h : rules.Take source) (hbase : base <:+ c.opened)
    (hframe : base.length = c.frame) (parts : List Tree) :
    Returns (documentTurn source rules parts) c (Turn.Goes
      (fun more next => Adds (Takes source base) (stringsOf Tree.strings parts) c
        (stringsOf Tree.strings more) next)
      fun more next => Adds (Takes source base) (stringsOf Tree.strings parts) c
        (stringsOf Tree.strings more) next) := by
  refine (pass_returns fun _ => Bracket.plain_of_isBlank).andThen fun _ start hstart => meets_peek.2 ?_
  have hstart := hstart.1.toTakes.lower hbase
  cases hpeek : source[start.offset]? with
  | none => exact meets_pure.2 (Adds.none hstart)
  | some b =>
    refine meets_bind.2 ?_
    show Meets (if (Bracket.ofCloser? b).isSome ∧ start.opened = [] then _ else _) start _ _
    split
    · exact returns_refuse
    · exact block_returns h hframe hstart parts

/-- A turn in a list: what it takes in addition closes nothing, like the arguments before it. -/
theorem listTurn_returns (h : rules.Take source) (args : List (Argument Tree)) :
    Returns (listTurn source rules blocks args) c (Turn.Goes
      (fun more next => Adds (Spares source) (stringsOf Argument.strings args) c
        (stringsOf Argument.strings more) next)
      fun more next => Adds (Spares source) (stringsOf Argument.strings args) c
        (stringsOf Argument.strings more) next) := by
  refine meets_peek.2 ?_
  split
  · exact meets_pure.2 (Adds.none (Spares.refl source c))
  · refine (pass_returns fun _ => Bracket.plain_of_isBlank).andThen fun _ start hstart => meets_peek.2 ?_
    split
    · exact meets_pure.2 (Adds.none hstart.1)
    · refine (argument_returns h).andThen fun arg after hafter => ?_
      refine (pass_returns fun _ => Bracket.plain_of_isBlank).andThen fun _ behind hbehind => ?_
      refine separator_returns.andThen fun _ next hnext => meets_pure.2 ?_
      refine ⟨arg.strings, stringsOf_cons .., ?_⟩
      have hspares := ((hstart.1.trans hafter).trans hbehind.1).trans hnext
      rwa [List.nil_append, List.append_nil, List.append_nil] at hspares

/-! ### All of them -/

/-- The lower part of the stack is still there, so the next turn may start from it. -/
theorem Adds.suffix {strings found : List Span} {next : Cursor}
    (h : Adds (Takes source base) strings c found next) : base <:+ next.opened := by
  obtain ⟨_, _, htakes⟩ := h
  exact htakes.suffix

theorem Adds.frame_eq {strings found : List Span} {next : Cursor}
    (h : Adds (Takes source base) strings c found next) : next.frame = c.frame := by
  obtain ⟨_, _, htakes⟩ := h
  rw [Cursor.frame, Cursor.frame, htakes.frames]

/-- If rules change the stack so, then so do the rules that call them: each loop by its turn, and by the
loop from there on. -/
theorem take_next (h : rules.Take source) : Rules.Take source (rules.next source) where
  text run base _ hbase hframe :=
    loop_returns (textTurn_returns h hbase hframe run) fun run' middle hmiddle =>
      (h.text run' base middle hmiddle.suffix (hframe.trans hmiddle.frame_eq.symm)).imp
        fun _ _ hnext => ⟨hmiddle.trans Takes.trans hnext.1, hnext.2⟩
  command _ _ hb := command_returns h hb
  list blocks args _ :=
    loop_returns (listTurn_returns h args) fun more middle hmiddle =>
      (h.list blocks more middle).imp fun _ _ hnext => hmiddle.trans Spares.trans hnext
  braces parts base _ hbase hframe :=
    loop_returns (bracesTurn_returns h hbase hframe parts) fun more middle hmiddle =>
      (h.braces more base middle hmiddle.suffix (hframe.trans hmiddle.frame_eq.symm)).imp
        fun _ _ hnext => ⟨hmiddle.trans Takes.trans hnext.1, hnext.2⟩
  document parts base _ hbase hframe :=
    loop_returns (documentTurn_returns h hbase hframe parts) fun more middle hmiddle =>
      (h.document more base middle hmiddle.suffix (hframe.trans hmiddle.frame_eq.symm)).imp
        fun _ _ hnext => hmiddle.trans Takes.trans hnext

end Rules

/-- The rules change the stack so, however deep their calls are nested. Without any calls left they have
no result. -/
theorem take_rules (source : Bytes) (depth : Nat) : (rules source depth).Take source := by
  induction depth with
  | succ depth ih => exact take_next ih
  | zero =>
    exact {
      text := fun _ _ _ _ _ => trivial
      command := fun _ _ _ => trivial
      list := fun _ _ _ => trivial
      braces := fun _ _ _ _ _ => trivial
      document := fun _ _ _ _ _ => trivial }

end Descent

end TildeMarkup
