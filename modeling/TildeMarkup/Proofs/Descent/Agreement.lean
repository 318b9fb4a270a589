import TildeMarkup.Proofs.Descent.Outcome

/-!
# Descent and the reader

The rules and the reader are two readings of one language. The reader keeps in its mode and its scope what
the rules keep in their calls. So for each rule there is a state of the reader where the rule starts, and
another, made from the result of the rule, where the rule ends. What comes of the source is the same from
both, and a fault of the rule is what comes of the source (`Rules.Agree`). Where a rule leaves a byte to its
caller, the reader may still be inside the construct: it ends the construct and takes the byte in one step,
so the two states are told apart, but not by anything that the reader does.

From the start of a source on, the rules give the tree that the reader gives, or the fault it finds, as soon
as their calls may nest deep enough (`parse_eq`).
-/

namespace TildeMarkup

namespace Descent

open Reader

/-! ## All rules -/

section Rules

variable {source : Bytes} {rules : Rules} {c : Cursor} {o : Except Fault Tree} {scope : Scope} {mode : Mode}
  {blocks : Bool}

/-- The rules are in a run of text, and the reader is. Whether the last byte was a carriage return does not
matter as long as the text piece is empty. -/
def InText (source : Bytes) (o : Except Fault Tree) (scope : Scope) (run : List Tree × Nat) (c : Cursor) :
    Prop :=
  ∃ afterReturn,
    (run.2 < c.offset → afterReturn = decide ((source.take c.offset).getLast? = some carriageReturn))
    ∧ o = (c.reader scope (.text run.1 run.2 afterReturn)).outcome source

/-- What comes of the source is the same from where a rule starts and from where it ends. For each rule,
the state of the reader at its start is given, and the one at its end is told from its result. -/
structure Rules.Agree (source : Bytes) (rules : Rules) : Prop where
  text : ∀ run scope c o, c.offset ≤ source.length → scope.depth = c.frames.headD 0 →
    InText source o scope run c →
    Agrees (rules.text run) c o fun pieces next =>
      o = (next.reader (scope.addRun pieces) .ready).outcome source
  command : ∀ place scope c o, source[c.offset]? = some tilde → scope.depth = c.frames.headD 0 →
    o = (Reader.mk (c.offset + 1) c.opened scope (.name place (c.offset + 1))).outcome source →
    Agrees (rules.command ((c.reader scope .ready).allowsBraces place)) c o fun tree next =>
      o = (afterCall next.offset next.opened scope place tree).outcome source
  list : ∀ place name args scope c o, c.offset ≤ source.length → scope.depth = c.frames.headD 0 →
    o = (c.reader scope (.list ⟨place, name, true, args⟩ true)).outcome source →
    Agrees (rules.list ((c.reader scope .ready).allowsBraces place) args) c o fun args next =>
      (∀ b, source[next.offset]? = some b → b = Bracket.round.closer)
        ∧ o = (next.reader scope (.list ⟨place, name, true, args⟩ true)).outcome source
  braces : ∀ outer call start depth parts c o, c.offset ≤ source.length → depth = c.frames.headD 0 →
    o = (c.reader (.braces outer call start depth parts) .ready).outcome source →
    Agrees (rules.braces parts) c o fun parts next =>
      (∀ b, source[next.offset]? = some b → next.closes b = true)
        ∧ o = (next.reader (.braces outer call start depth parts) .ready).outcome source
  document : ∀ parts c o, c.offset ≤ source.length → c.frames.headD 0 = 0 →
    o = (c.reader (.document parts) .ready).outcome source →
    Agrees (rules.document parts) c o fun parts _ => o = .ok (.node (.group parts.reverse))

/-- The cursor and the reader that stands there know the same of a closer, as long as their heights are
one. -/
theorem endsScope_reader (mode : Mode) (hdepth : scope.depth = c.frames.headD 0) (b : UInt8) :
    (c.reader scope mode).endsScope b = c.closes b := by
  rw [endsScope, Cursor.closes, ← hdepth]
  rfl

/-! ### Loops -/

/-- Where a turn leads to: to where the loop goes on, or to where it is left. -/
def Turn.Goes {σ α : Type} (again : σ → Cursor → Prop) (exit : α → Cursor → Prop) : Turn σ α → Cursor → Prop
  | .again state => again state
  | .exit result => exit result

/-- A loop goes along if its turn does, and if the loop does from wherever the turn leads to. -/
theorem loop_agrees {σ α : Type} {turn : σ → Rule (Turn σ α)} {rest : σ → Rule α} {state : σ}
    {again : σ → Cursor → Prop} {exit : α → Cursor → Prop} {short : Prop}
    (hturn : Agrees (turn state) c o (Turn.Goes again exit)) (hadv : TurnAdvances source (turn state) c short)
    (hrest : ∀ state next, again state next → next.offset ≤ source.length → next.frames = c.frames →
      Agrees (rest state) next o exit) : Agrees (loop turn rest state) c o exit := by
  refine meets_bind.2 ((Meets.and hturn hadv).mono ?_ fun _ hstop => hstop.1)
  rintro (state | result) next ⟨hgoes, hnext⟩
  · exact hrest state next hgoes hnext.within hnext.frames
  · exact meets_pure.2 hgoes

/-! ### Text -/

/-- A finished run of text does not change where the scope around it was opened. -/
@[simp] theorem depth_addRun (S : Scope) (pieces : List Tree) : (S.addRun pieces).depth = S.depth := by
  cases S <;> rfl

/-- The byte that ends a run of text closes the scope that has the run. -/
theorem take_endRun (r : Reader) (pieces : List Tree) {b : UInt8} (hends : r.endsScope b = true) :
    (r.endRun pieces).take b = (r.endRun pieces).closeScope b := by
  have hends' : (r.endRun pieces).endsScope b = true := by rw [endsScope, endRun, depth_addRun]; exact hends
  have hcloser : (Bracket.ofCloser? b).isSome = true := (Bool.and_eq_true_iff.1 hends).1
  cases hscope : r.scope with
  -- In square brackets a run is all there may be, so nothing but the closer is looked for.
  | brackets => simp only [endRun, hscope, Scope.addRun, Scope.add, take, inReady]
  | _ =>
    refine (Rests.ready rfl).take_closer ?_ hcloser hends'
    rw [endRun, hscope]
    rfl

/-- A carriage return in front of a line feed is left out of the text piece before it, however it is
known. -/
theorem addText_beforeReturn {pieces : List Tree} {start offset : Nat} {afterReturn known : Bool}
    (h : start < offset → afterReturn = known) :
    addText pieces start (if afterReturn then offset - 1 else offset)
      = addText pieces start (if known then offset - 1 else offset) := by
  -- If the piece has bytes, both know the last of them. If not, neither way gives a piece.
  by_cases hlt : start < offset
  · rw [h hlt]
  · have hshort : ∀ returned : Bool, ¬ start < (if returned then offset - 1 else offset) := by
      intro returned
      split <;> omega
    rw [addText, addText, if_neg (hshort _), if_neg (hshort _)]

/-- A run of text is over in front of the closer of its scope. -/
theorem outcome_of_endText {pieces : List Tree} {start : Nat} {afterReturn : Bool} {b : UInt8}
    (hb : source[c.offset]? = some b) (htilde : b ≠ tilde) (hline : b ≠ lineFeed)
    (hends : (c.reader scope (.text pieces start afterReturn)).endsScope b = true) :
    (c.reader scope (.text pieces start afterReturn)).outcome source
      = (c.reader (scope.addRun (addText pieces start c.offset)) .ready).outcome source := by
  refine outcome_congr rfl (fun found rest hfound => ?_) fun hend => ?_
  -- The byte is there, so it is the byte that is read on from; the reader ends the run and takes it in one
  -- step.
  · obtain rfl : b = found := Option.some.inj (hb.symm.trans hfound)
    have hend := take_endRun (c.reader scope .ready) (addText pieces start c.offset) hends
    refine run_cons_congr (Eq.trans ?_ hend.symm) rest
    rw [take]
    simp only [Cursor.reader, inText, beq_eq_false_iff_ne.2 htilde, beq_eq_false_iff_ne.2 hline,
      Bool.false_eq_true, if_false]
    exact if_pos hends
  · cases hb.symm.trans hend

/-- Any other byte is of the run. -/
theorem take_text_inside {pieces : List Tree} {start : Nat} {afterReturn : Bool} {b : UInt8}
    (htilde : b ≠ tilde) (hline : b ≠ lineFeed)
    (hinside : ¬ (c.reader scope (.text pieces start afterReturn)).endsScope b = true) :
    (c.reader scope (.text pieces start afterReturn)).take b = do
      let opened ← cross c.opened b
      return Reader.mk c.offset opened scope (.text pieces start (b == carriageReturn)) := by
  rw [take]
  simp only [Cursor.reader, inText, beq_eq_false_iff_ne.2 htilde, beq_eq_false_iff_ne.2 hline,
    Bool.false_eq_true, if_false]
  exact if_neg hinside

/-- A turn in a run of text keeps the reader in the run, or leads to where the run is a part of its
scope. -/
theorem textTurn_agrees (h : rules.Agree source) {depth : Nat} (hadv : rules.Advance source depth)
    (hdepth : scope.depth = c.frames.headD 0) (run : List Tree × Nat)
    (hin : InText source o scope run c) :
    Agrees (textTurn source rules run) c o (Turn.Goes (InText source o scope) fun pieces next =>
      o = (next.reader (scope.addRun pieces) .ready).outcome source) := by
  obtain ⟨pieces, start⟩ := run
  obtain ⟨afterReturn, hreturn, ho⟩ := hin
  refine meets_here.2 (meets_peek.2 ?_)
  cases hpeek : source[c.offset]? with
  -- The run ends with the source, which only the reader at its end has to say something about.
  | none =>
    refine meets_endText.2 (meets_pure.2 (ho.trans ?_))
    rw [outcome_of_end hpeek, outcome_of_end hpeek]
    rfl
  | some b =>
    dsimp only
    split
    · next hb =>
      subst hb
      -- The text in front of the tilde is a piece for both, and the command starts behind it.
      have hname := ho.trans (outcome_of_run (r := c.reader scope _) _ hpeek run_text_tilde rfl)
      refine meets_endText.2 ?_
      refine (h.command (.within (addText pieces start c.offset)) scope c o hpeek hdepth hname).andThen
        (hadv.command false c hpeek) fun tree next htree hnext => ?_
      exact meets_here.2 (meets_pure.2 ⟨false, fun hlt => absurd hlt (Nat.lt_irrefl _), htree⟩)
    · next htilde =>
      split
      · next hb =>
        subst hb
        refine meets_endText.2 ?_
        refine (bump_agrees (fun opened => { (c.reader scope .ready).endRun (addText pieces start
            (if afterReturn then c.offset - 1 else c.offset)) with opened }) ho hpeek rfl).andThen
          (bump_advances hpeek) fun _ next hgoes hnext => meets_pure.2 ?_
        -- The rules look back for the carriage return, while the reader has kept it in mind.
        rw [addText_beforeReturn hreturn] at hgoes
        simp only [decide_eq_true_eq] at hgoes
        exact hgoes.2
      · next hline =>
        refine meets_closesFrame.2 ?_
        rw [← endsScope_reader (.text pieces start afterReturn) hdepth]
        split
        · next hends =>
          exact meets_endText.2 (meets_pure.2 (ho.trans (outcome_of_endText hpeek htilde hline hends)))
        · next hinside =>
          refine (bump_agrees (fun opened => Reader.mk c.offset opened scope
              (.text pieces start (b == carriageReturn))) ho hpeek
              (take_text_inside htilde hline hinside)).andThen (bump_advances hpeek)
            fun _ next hgoes hnext => meets_pure.2 ?_
          -- The byte is crossed alike, and is the one to look back at now.
          refine ⟨b == carriageReturn, fun _ => ?_, hgoes.2⟩
          rw [hgoes.1, List.take_add_one, hpeek, Option.toList_some, List.getLast?_concat]
          exact (decide_eq_decide.2 (by rw [Option.some.injEq])).symm

/-- A part that a scope may have at the cursor: what is in square brackets, or a block, which starts neither
at a blank nor at the closer of its scope. -/
def Starts (source : Bytes) (scope : Scope) (c : Cursor) : Prop :=
  scope.Vacant ∧ scope.depth = c.frames.headD 0 ∧
    (scope.allowsBlocks = true → ∃ b, source[c.offset]? = some b ∧ isBlank b = false ∧ c.closes b = false)

/-- A part, be it a command or a run of text, is added to the scope by the reader where the rule ends. -/
theorem part_agrees (h : rules.Agree source) {depth : Nat} (hadv : rules.Advance source depth)
    (hc : c.offset ≤ source.length) (hstarts : Starts source scope c)
    (ho : o = (c.reader scope .ready).outcome source) :
    Agrees (part source rules scope.allowsBlocks) c o fun tree next =>
      o = (next.reader (scope.add tree) .ready).outcome source := by
  obtain ⟨hvacant, hdepth, hblock⟩ := hstarts
  refine meets_peek.2 ?_
  split
  · next hpeek =>
    have hname := ho.trans (outcome_of_run (r := c.reader scope _) _ hpeek (run_ready_tilde hvacant) rfl)
    exact h.command .alone scope c o hpeek hdepth hname
  · next hpeek =>
    -- Between two parts the reader does not know yet that a run starts. It acts from the first byte on as
    -- one in a run.
    have htext : o = (c.reader scope (.text [] c.offset false)).outcome source := by
      refine ho.trans (outcome_congr rfl (fun b rest hb => ?_) fun hend => ?_)
      · have hinside (hallows : scope.allowsBlocks = true) :
            isBlank b = false ∧ (c.reader scope .ready).endsScope b = false := by
          obtain ⟨b', hb', hblank, hcloses⟩ := hblock hallows
          cases hb.symm.trans hb'
          exact ⟨hblank, by rw [endsScope_reader _ hdepth, hcloses]⟩
        exact run_ready_text hvacant (fun htilde => hpeek (htilde ▸ hb)) (fun hallows => (hinside hallows).1)
          fun hallows => (hinside hallows).2
      · cases hscope : scope with
        | brackets => rfl
        | _ =>
          rw [hscope] at hblock
          obtain ⟨b, hb, -⟩ := hblock rfl
          -- A block has a byte to start with, so the source does not end here.
          cases hend.symm.trans hb
    refine meets_here.2 ((h.text _ scope c o hc hdepth
      ⟨false, fun hlt => absurd hlt (Nat.lt_irrefl _), htext⟩).andThen (hadv.text _ c hc)
      fun pieces next hgoes hnext => meets_pure.2 ?_)
    rw [hgoes]
    cases scope <;> rfl

/-! ### Arguments in brackets -/

/-- What is in a bracket is complete at the cursor: the closer gives the argument, and nothing else may
come. -/
def Fills (source : Bytes) (o : Except Fault Tree) (filled : Scope) (kind : Bracket) (outer : Scope)
    (call : Call) (arg : Nat → Argument Tree) (after : Cursor) : Prop :=
  o = (after.reader filled .ready).outcome source
    ∧ Awaits source (after.reader filled .ready) kind.closer fun opened =>
        (Reader.mk after.offset opened outer .ready).finishArgument call (arg (after.offset + 1))

/-- The height that is put on the frames for a rule is taken off again, and the reader keeps it in its
scope meanwhile. -/
theorem framed_agrees {α : Type} {rule : Rule α} {goes : α → Cursor → Prop}
    (h : Agrees rule { c with frames := c.opened.length :: c.frames } o goes)
    (hgoes : ∀ result (next : Cursor) frames, goes result next → goes result { next with frames }) :
    Agrees (framed rule) c o goes :=
  meets_bind.2 (meets_bind.2 (h.mono (fun result next hnext => hgoes result next _ hnext) fun _ => id))

/-- An argument in brackets, told from what is in it. `filled` is the scope that the reader has when all
of that is read, and from which the closer gives the argument. -/
theorem enclosed_agrees {α : Type} (filled : α → Scope) {kind : Bracket} {rule : Rule α}
    {form : α → Span → Argument Tree} {inside : Scope} {call : Call}
    (hb : source[c.offset]? = some kind.opener)
    (hinside : o = (Reader.mk (c.offset + 1) (kind :: c.opened) inside .ready).outcome source)
    (hdepth : inside.depth = c.opened.length + 1)
    (hadv : ∀ next : Cursor, next.offset ≤ source.length → Advances source rule next 0 True)
    (hrule : ∀ next : Cursor, next.offset ≤ source.length → inside.depth = next.frames.headD 0 →
      o = (next.reader inside .ready).outcome source → Agrees rule next o fun content =>
        Fills source o (filled content) kind scope call fun stop => form content ⟨c.offset, stop⟩) :
    Agrees (enclosed source kind.closer rule form) c o fun arg next =>
      o = (afterArgument next.offset next.opened scope call arg).outcome source := by
  have hc := Nat.le_of_lt (offset_lt hb)
  have hcross : cross c.opened kind.opener = .ok (kind :: c.opened) := by rw [cross, Bracket.ofOpener?_opener]
  refine meets_here.2 ((bump_of_cross hb hcross).andThen (bump_advances hb) fun _ next hnext hforward => ?_)
  subst hnext
  -- Inside, the new height is on the frames and in the scope.
  have hcontent := hrule ⟨c.offset + 1, kind :: c.opened, (c.opened.length + 1) :: c.frames⟩ hforward.within
    hdepth hinside
  refine (framed_agrees hcontent fun _ _ _ hfills => hfills).andThen
    (framed_advances fun frames => hadv _ hforward.within) fun content after hfills hafter => ?_
  refine (expect_agrees hfills.1 hafter.within hfills.2).andThen (expect_advances _ hafter.within)
    fun _ last hlast _ => meets_here.2 (meets_pure.2 ?_)
  obtain ⟨hoffset, hlast⟩ := hlast
  rw [hoffset, finishArgument_eq] at hlast
  rw [hoffset]
  exact hlast

/-- Square brackets, with the one part that they hold. -/
theorem bracketed_agrees (h : rules.Agree source) {depth : Nat} (hadv : rules.Advance source depth)
    {call : Call} (hawaits : AwaitsScope call mode) (hb : source[c.offset]? = some Bracket.square.opener)
    (ho : o = (c.reader scope mode).outcome source) :
    Agrees (bracketed source rules) c o fun arg next =>
      o = (afterArgument next.offset next.opened scope call arg).outcome source := by
  have hinside := ho.trans (outcome_of_run (r := c.reader scope mode) _ hb (run_square hawaits) rfl)
  refine enclosed_agrees
    (fun content => .brackets scope call c.offset (c.opened.length + 1) (some content)) hb hinside rfl
    (fun next hnext => (part_advances hadv hnext).weaken (Nat.le_refl _) fun _ => trivial)
    fun next hnext hdepth ho => ?_
  have hstarts : Starts source (.brackets scope call c.offset (c.opened.length + 1) none) next :=
    ⟨trivial, hdepth, fun hblocks => nomatch hblocks⟩
  refine (part_agrees h hadv hnext hstarts ho).mono (fun content after hafter => ?_) fun _ => id
  -- With the part there, every byte but the closer is refused, and so is the end of the source.
  refine ⟨hafter, fun _ => rfl, fun b _ hb => ?_, fun _ => rfl⟩
  have hne : (b == Bracket.square.closer) = false := beq_eq_false_iff_ne.2 hb
  simp only [Cursor.reader, take, inReady, closeScope, hne, Bool.false_eq_true, if_false]

/-- Braces, with all blocks that they hold. They are only asked for where the reader allows them. -/
theorem braced_agrees (h : rules.Agree source) {depth : Nat} (hadv : rules.Advance source depth)
    {call : Call} (hawaits : AwaitsScope call mode)
    (hallowed : (c.reader scope mode).allowsBraces call.place = true)
    (hb : source[c.offset]? = some Bracket.curly.opener) (ho : o = (c.reader scope mode).outcome source) :
    Agrees (braced source rules) c o fun arg next =>
      o = (afterArgument next.offset next.opened scope call arg).outcome source := by
  have hinside := ho.trans (outcome_of_run (r := c.reader scope mode) _ hb (run_curly hawaits hallowed) rfl)
  refine enclosed_agrees
    (fun blocks => .braces scope call c.offset (c.opened.length + 1) blocks) hb hinside rfl
    (fun next hnext => (hadv.braces [] next hnext).weaken (Nat.le_refl _) fun _ => trivial)
    fun next hnext hdepth ho => ?_
  have hparts := h.braces scope call c.offset _ [] next o hnext hdepth ho
  refine (Meets.and hparts (hadv.braces [] next hnext)).mono ?_ fun _ hstop => hstop.1
  rintro blocks after ⟨⟨hcloses, hafter⟩, hforward⟩
  have hframe : (Scope.braces scope call c.offset (c.opened.length + 1) blocks).depth
      = after.frames.headD 0 := hforward.frames ▸ hdepth
  -- The rules leave the braces at a closer with nothing of the text open. To the reader that is the end of
  -- the scope.
  have hclose (b : UInt8) (hb : source[after.offset]? = some b) :
      (after.reader (.braces scope call c.offset (c.opened.length + 1) blocks) .ready).take b
        = (after.reader (.braces scope call c.offset (c.opened.length + 1) blocks) .ready).closeScope b := by
    have hends := (endsScope_reader .ready hframe b).trans (hcloses b hb)
    exact (Rests.ready rfl).take_closer rfl (Bool.and_eq_true_iff.1 hends).1 hends
  refine ⟨hafter, fun _ => rfl, fun b hb hne => ?_, fun hb => hclose _ hb⟩
  have hother : (b == Bracket.curly.closer) = false := beq_eq_false_iff_ne.2 hne
  rw [hclose b hb]
  simp only [Cursor.reader, closeScope, hother, Bool.false_eq_true, if_false]

/-! ### Arguments of a list -/

/-- Letters are one argument for both, up to the first byte that is no letter. -/
theorem ident_agrees (call : Call) {fresh : Bool} {b : UInt8} (hb : source[c.offset]? = some b)
    (hletter : isLetter b = true) (hc : c.offset ≤ source.length)
    (ho : o = (c.reader scope (.list call fresh)).outcome source) :
    Agrees (ident source) c o fun arg next =>
      o = (next.reader scope (.next { call with args := arg :: call.args })).outcome source := by
  have hstart : o = (c.reader scope (.ident call c.offset)).outcome source := by
    rw [ho, outcome_of_run (r := c.reader scope _) _ hb (run_list_letter hletter) rfl]
    exact (outcome_of_take (r := c.reader scope (.ident call c.offset)) _ hb (if_pos hletter)).symm
  refine meets_here.2 ((pass_agrees hstart fun _ _ hkind => if_pos hkind).andThen (pass_advances isLetter hc)
    fun _ next hgoes _ => meets_here.2 (meets_pure.2 (hgoes.2.trans ?_)))
  exact outcome_congr rfl (fun b rest hb => run_ident_end (hgoes.1 b hb)) fun _ => rfl

/-- How the reader goes through a string. It keeps in mind whether the last byte was a backslash, and the
rules look at that byte. -/
theorem outcome_of_stringLength (source : Bytes) (opened : List Bracket) (scope : Scope) (call : Call)
    (start n : Nat) (previous : UInt8) : ∃ escaped,
    (Reader.mk n opened scope (.string call start (previous == backslash))).outcome source
      = (Reader.mk (n + stringLength previous (source.drop n)) opened scope
          (.string call start escaped)).outcome source
    ∧ ∀ b, source[n + stringLength previous (source.drop n)]? = some b → b = quote ∧ escaped = false := by
  -- By induction on what is left of the source; the byte before is carried along.
  generalize hrest : source.drop n = rest
  induction rest generalizing n previous with
  | nil =>
    -- At the end of the source there is no byte left.
    refine ⟨_, rfl, fun b hb => ?_⟩
    have hlt : n < source.length := (List.getElem?_eq_some_iff.1 hb).1
    have hle : source.length ≤ n := List.drop_eq_nil_iff.1 hrest
    omega
  | cons b rest ih =>
    obtain ⟨hb, hdrop⟩ := getElem?_of_drop hrest
    rw [stringLength]
    split
    · next hquote =>
      refine ⟨_, rfl, fun b' hb' => ?_⟩
      cases hb.symm.trans hb'
      exact ⟨hquote.1, beq_eq_false_iff_ne.2 hquote.2⟩
    · next hinside =>
      obtain ⟨escaped, hsame, hlast⟩ := ih (n + 1) b hdrop
      have hgoes : (b != quote || previous == backslash) = true := by
        by_cases hq : b = quote
        · rw [not_and] at hinside
          simp [Decidable.not_not.1 (hinside hq)]
        · simp [hq]
      rw [Nat.add_assoc, Nat.add_comm 1] at hsame hlast
      exact ⟨escaped, (outcome_of_run _ hb (run_string_byte hgoes) rfl).trans hsame, hlast⟩

@[simp] theorem offset_afterCall (n : Nat) (σ : List Bracket) (S : Scope) (place : Place) (command : Tree) :
    (afterCall n σ S place command).offset = n := by
  cases place <;> rfl

@[simp] theorem offset_afterArgument (n : Nat) (σ : List Bracket) (S : Scope) (call : Call)
    (arg : Argument Tree) : (afterArgument n σ S call arg).offset = n := by
  rw [afterArgument]
  split
  · rfl
  · exact offset_afterCall ..

theorem string_agrees (call : Call) {fresh : Bool} (hb : source[c.offset]? = some quote)
    (ho : o = (c.reader scope (.list call fresh)).outcome source) :
    Agrees (string source) c o fun arg next =>
      o = (afterArgument next.offset next.opened scope call arg).outcome source := by
  have hlt := offset_lt hb
  obtain ⟨escaped, hsame, hlast⟩ :=
    outcome_of_stringLength source c.opened scope call c.offset (c.offset + 1) quote
  have hstart : o = (Reader.mk (c.offset + 1) c.opened scope (.string call c.offset (quote == backslash))).outcome
      source := ho.trans (outcome_of_run (r := c.reader scope _) _ hb run_list_quote rfl)
  have hinside := (passString_advances (c := ⟨c.offset + 1, c.opened, c.frames⟩) hlt).within
  refine meets_here.2 (meets_skip.2 (meets_passString.2 (meets_peek.2 ?_)))
  split
  · next hend => exact agrees_refuse_end (hstart.trans hsame) hinside hend rfl
  · next b hpeek =>
    obtain ⟨rfl, rfl⟩ := hlast b hpeek
    refine meets_skip.2 (meets_here.2 (meets_pure.2 ?_))
    exact (hstart.trans hsame).trans (outcome_of_run _ hpeek run_string_quote (offset_afterArgument ..))

/-- An argument of a list, where the list does not end. -/
theorem argument_agrees (h : rules.Agree source) {depth : Nat} (hadv : rules.Advance source depth)
    {place : Place} {name : Span} {args : List (Argument Tree)} {fresh : Bool}
    (hc : c.offset ≤ source.length) (hend : source[c.offset]? = none → fresh = false)
    (hbyte : ∀ b, source[c.offset]? = some b → isBlank b = false ∧ b ≠ Bracket.round.closer)
    (ho : o = (c.reader scope (.list ⟨place, name, true, args⟩ fresh)).outcome source) :
    Agrees (argument source rules ((c.reader scope .ready).allowsBraces place)) c o fun arg next =>
      o = (next.reader scope (.next ⟨place, name, true, arg :: args⟩)).outcome source := by
  have hawaits : AwaitsScope ⟨place, name, true, args⟩ (.list ⟨place, name, true, args⟩ fresh) :=
    .inr ⟨rfl, fresh, rfl⟩
  refine meets_peek.2 ?_
  cases hpeek : source[c.offset]? with
  | none => exact agrees_refuse_end ho hc hpeek (by rw [hend hpeek]; rfl)
  | some b =>
    dsimp only
    split
    · next hb => exact bracketed_agrees h hadv hawaits (hb ▸ hpeek) ho
    · next hsquare =>
      split
      · next hb => exact braced_agrees h hadv hawaits hb.2 (hb.1 ▸ hpeek) ho
      · next hcurly =>
        split
        · next hb => exact string_agrees ⟨place, name, true, args⟩ (hb ▸ hpeek) ho
        · next hquote =>
          split
          · next hletter => exact ident_agrees ⟨place, name, true, args⟩ hpeek hletter hc ho
          · next hletter =>
            obtain ⟨hblank, hcloser⟩ := hbyte b hpeek
            have hbraces : ¬ (b = Bracket.curly.opener ∧ (c.reader scope
                (.list ⟨place, name, true, args⟩ fresh)).allowsBraces place = true) := hcurly
            refine agrees_refuse ho hpeek ?_
            show inList _ _ b = _
            rw [inList, if_neg (by simpa using hblank), if_neg (by simpa using hcloser),
              if_neg (by simpa using hsquare), if_neg (by simpa using hbraces),
              if_neg (by simpa using hquote), if_neg (by simpa using hletter)]

theorem separator_agrees {call : Call} (hc : c.offset ≤ source.length)
    (hblank : ∀ b, source[c.offset]? = some b → isBlank b = false)
    (ho : o = (c.reader scope (.next call)).outcome source) :
    Agrees (separator source) c o fun _ next => o = (next.reader scope (.list call true)).outcome source := by
  refine meets_peek.2 ?_
  split
  · next hpeek =>
    refine meets_pure.2 (ho.trans (outcome_congr rfl (fun b rest hb => ?_) fun hend => ?_))
    · cases hpeek.symm.trans hb
      exact run_cons_congr rfl rest
    · cases hpeek.symm.trans hend
  · next hpeek =>
    have hawaits : Awaits source (c.reader scope (.next call)) comma fun opened =>
        Reader.mk c.offset opened scope (.list call true) := by
      refine ⟨fun _ => rfl, fun b hb hne => ?_, fun _ => rfl⟩
      have hcloser : b ≠ Bracket.round.closer := fun h => hpeek (hb.trans (congrArg some h))
      show inNext _ _ b = _
      rw [inNext, if_neg (by simpa using hblank b hb), if_neg (by simpa using hcloser),
        if_neg (by simpa using hne)]
    exact (expect_agrees ho hc hawaits).mono (fun _ _ hnext => hnext.2) fun _ => id

/-- The blanks in front of an argument. -/
theorem pass_list_agrees {call : Call} {b : UInt8} (hb : source[c.offset]? = some b)
    (ho : o = (c.reader scope (.list call true)).outcome source) :
    Agrees (pass source isBlank) c o fun _ next => ∃ fresh,
      (source[next.offset]? = none → fresh = false)
      ∧ (∀ b, source[next.offset]? = some b → isBlank b = false)
      ∧ o = (next.reader scope (.list call fresh)).outcome source := by
  by_cases hblank : isBlank b = true
  · have hstale : o = (c.reader scope (.list call false)).outcome source := by
      rw [ho, outcome_of_run (r := c.reader scope _) _ hb (run_list_blank hblank) rfl]
      exact (outcome_of_run (r := c.reader scope (.list call false)) _ hb (run_list_blank hblank) rfl).symm
    refine (pass_agrees hstale fun n b hkind => ?_).mono
      (fun _ next hnext => ⟨false, fun _ => rfl, hnext.1, hnext.2⟩) fun _ => id
    exact if_pos hkind
  · have hnone : ((source.drop c.offset).takeWhile isBlank).length = 0 := by
      rw [drop_of_getElem? hb, List.takeWhile_cons_of_neg hblank, List.length_nil]
    have hstay : pass source isBlank c = .ok ((), c) := by rw [pass, hnone]; rfl
    rw [Agrees, Meets, hstay]
    refine ⟨true, fun hend => ?_, fun b' hb' => ?_, ho⟩
    · cases hb.symm.trans hend
    · cases hb.symm.trans hb'
      simpa using hblank

/-- A turn in a list keeps the reader where an argument may start, or leads to the closer of the list,
which it leaves there. -/
theorem listTurn_agrees (h : rules.Agree source) {depth : Nat} (hadv : rules.Advance source depth)
    {place : Place} {name : Span} {args : List (Argument Tree)} (hc : c.offset ≤ source.length)
    (ho : o = (c.reader scope (.list ⟨place, name, true, args⟩ true)).outcome source) :
    Agrees (listTurn source rules ((c.reader scope .ready).allowsBraces place) args) c o (Turn.Goes
      (fun args next => o = (next.reader scope (.list ⟨place, name, true, args⟩ true)).outcome source)
      fun args next => (∀ b, source[next.offset]? = some b → b = Bracket.round.closer)
        ∧ o = (next.reader scope (.list ⟨place, name, true, args⟩ true)).outcome source) := by
  refine meets_peek.2 ?_
  split
  · next hend =>
    refine meets_pure.2 ⟨fun b hb => ?_, ho⟩
    cases hend.symm.trans hb
  · next hbyte =>
    -- There is a byte, so the list does not end the source here, whatever it turns out to be.
    obtain ⟨b, hb⟩ := Option.ne_none_iff_exists'.1 hbyte
    refine (pass_list_agrees hb ho).andThen (pass_advances isBlank hc) fun _ start hstart hforward =>
      meets_peek.2 ?_
    obtain ⟨fresh, hend, hblank, ho⟩ := hstart
    split
    · next hcloser =>
      refine meets_pure.2 ⟨fun b hb => Option.some.inj (hb.symm.trans hcloser), ho.trans ?_⟩
      refine outcome_congr rfl (fun b rest hb => run_cons_congr rfl rest) fun hend => ?_
      cases hcloser.symm.trans hend
    · next hopen =>
      have hbyte (b : UInt8) (hb : source[start.offset]? = some b) :
          isBlank b = false ∧ b ≠ Bracket.round.closer :=
        ⟨hblank b hb, fun hcloser => hopen (hb.trans (congrArg some hcloser))⟩
      refine (argument_agrees h hadv hforward.within hend hbyte ho).andThen
        (argument_advances hadv hforward.within) fun arg after ho hafter => ?_
      refine (pass_agrees ho fun _ _ hkind => if_pos hkind).andThen (pass_advances isBlank hafter.within)
        fun _ next hnext hforward => ?_
      refine (separator_agrees hforward.within hnext.1 hnext.2).andThen (separator_advances hforward.within)
        fun _ last ho _ => meets_pure.2 ho

/-! ### Commands -/

/-- A list, from its bracket on. -/
theorem listed_agrees (h : rules.Agree source) {depth : Nat} (hadv : rules.Advance source depth)
    {place : Place} {name : Span} (hdepth : scope.depth = c.frames.headD 0)
    (hb : source[c.offset]? = some Bracket.round.opener)
    (ho : o = (c.reader scope (.head place name)).outcome source) :
    Agrees (do
        bump source
        let args ← rules.list ((c.reader scope .ready).allowsBraces place) []
        expect source Bracket.round.closer
        return args.reverse) c o fun args next =>
      o = (afterCall next.offset next.opened scope place (.node (.command name args))).outcome source := by
  have hcross : cross c.opened Bracket.round.opener = .ok (.round :: c.opened) := rfl
  have hinside := ho.trans (outcome_of_run (r := c.reader scope _) _ hb run_head_round rfl)
  refine (bump_of_cross hb hcross).andThen (bump_advances hb) fun _ inside hnext hforward => ?_
  subst hnext
  refine (h.list place name [] scope _ o hforward.within hdepth hinside).andThen
    (hadv.list _ [] _ hforward.within) fun args after hgoes hafter => ?_
  -- The list was left at its closer or at the end, so no other byte can stand here.
  have hcloser : Awaits source (after.reader scope (.list ⟨place, name, true, args⟩ true))
      Bracket.round.closer fun opened =>
        (Reader.mk after.offset opened scope (.list ⟨place, name, true, args⟩ true)).finishCall
          ⟨place, name, true, args⟩ :=
    ⟨fun _ => rfl, fun b hb hne => absurd (hgoes.1 b hb) hne, fun _ => rfl⟩
  refine (expect_agrees hgoes.2 hafter.within hcloser).andThen (expect_advances _ hafter.within)
    fun _ last hlast _ => meets_pure.2 ?_
  obtain ⟨hoffset, hlast⟩ := hlast
  rw [hoffset, finishCall_eq] at hlast
  rw [hoffset]
  exact hlast

/-- Behind a name, both tell from one byte what kind of arguments the command has. -/
theorem arguments_agrees (h : rules.Agree source) {depth : Nat} (hadv : rules.Advance source depth)
    {place : Place} {name : Span} (hc : c.offset ≤ source.length) (hdepth : scope.depth = c.frames.headD 0)
    (hblank : ∀ b, source[c.offset]? = some b → isBlank b = false)
    (ho : o = (c.reader scope (.head place name)).outcome source) :
    Agrees (arguments source rules ((c.reader scope .ready).allowsBraces place)) c o fun args next =>
      o = (afterCall next.offset next.opened scope place (.node (.command name args))).outcome source := by
  have hawaits : AwaitsScope ⟨place, name, false, []⟩ (.head place name) := .inl ⟨rfl, rfl, rfl⟩
  refine meets_peek.2 ?_
  cases hpeek : source[c.offset]? with
  | none => exact agrees_refuse_end ho hc hpeek rfl
  | some b =>
    dsimp only
    split
    · next hb => exact listed_agrees h hadv hdepth (hb ▸ hpeek) ho
    · next hround =>
      split
      · next hb =>
        have hagrees := bracketed_agrees h hadv hawaits (hb ▸ hpeek) ho
        refine hagrees.andThen (bracketed_advances hadv (hb ▸ hpeek)) fun arg next ho _ => meets_pure.2 ho
      · next hsquare =>
        split
        · next hb =>
          refine (braced_agrees h hadv hawaits hb.2 (hb.1 ▸ hpeek) ho).andThen
            (braced_advances hadv (hb.1 ▸ hpeek)) fun arg next ho _ => meets_pure.2 ho
        · next hcurly =>
          have hbraces : ¬ (b = Bracket.curly.opener
            ∧ (c.reader scope (.head place name)).allowsBraces place = true) := hcurly
          refine agrees_refuse ho hpeek ?_
          -- None of the three brackets, and no blank: the reader has no use for the byte either.
          show inHead _ _ _ b = _
          rw [inHead, if_neg (by simpa using hblank b hpeek), if_neg (by simpa using hround),
            if_neg (by simpa using hsquare), if_neg (by simpa using hbraces)]

/-- A command from its tilde on, which the reader has taken already. -/
theorem command_agrees (h : rules.Agree source) {depth : Nat} (hadv : rules.Advance source depth)
    {place : Place} (hb : source[c.offset]? = some tilde) (hdepth : scope.depth = c.frames.headD 0)
    (ho : o = (Reader.mk (c.offset + 1) c.opened scope (.name place (c.offset + 1))).outcome source) :
    Agrees (command source rules ((c.reader scope .ready).allowsBraces place)) c o fun tree next =>
      o = (afterCall next.offset next.opened scope place tree).outcome source := by
  refine (bump_of_cross hb rfl).andThen (bump_advances hb) fun _ name hnext hforward => meets_here.2 ?_
  subst hnext
  have hname : o = (Cursor.reader ⟨c.offset + 1, c.opened, c.frames⟩ scope
      (.name place (c.offset + 1))).outcome source := ho
  refine (pass_agrees hname fun _ _ hkind => if_pos hkind).andThen (pass_advances isLetter hforward.within)
    fun _ head hgoes hhead => meets_here.2 ?_
  -- The byte that ends the name is read in the same way as one behind a blank.
  have ho : o = (head.reader scope (.head place ⟨c.offset + 1, head.offset⟩)).outcome source := by
    refine hgoes.2.trans (outcome_congr rfl (fun b rest hb => ?_) fun _ => rfl)
    exact run_name_end (hgoes.1 b hb)
  refine (pass_agrees ho fun _ _ hkind => if_pos hkind).andThen (pass_advances isBlank hhead.within)
    fun _ start hgoes hstart => ?_
  have hdepth : scope.depth = start.frames.headD 0 := by rw [hstart.frames, hhead.frames]; exact hdepth
  refine (arguments_agrees h hadv hstart.within hdepth hgoes.1 hgoes.2).andThen
    (arguments_advances hadv hstart.within) fun args next ho _ => meets_pure.2 ho

/-! ### Blocks -/

/-- The blanks between blocks. -/
theorem pass_blocks_agrees (hblocks : scope.allowsBlocks = true)
    (ho : o = (c.reader scope .ready).outcome source) :
    Agrees (pass source isBlank) c o fun _ next =>
      (∀ b, source[next.offset]? = some b → isBlank b = false)
        ∧ o = (next.reader scope .ready).outcome source :=
  pass_agrees ho fun _ _ hkind => (inReady_of_allowsBlocks hblocks _).trans (if_pos hkind)

/-- A turn in braces adds a block for both, or stops at the closer that the rules have to leave there. -/
theorem bracesTurn_agrees (h : rules.Agree source) {depth : Nat} (hadv : rules.Advance source depth)
    {outer : Scope} {call : Call} {start height : Nat} {parts : List Tree} (hc : c.offset ≤ source.length)
    (hdepth : height = c.frames.headD 0)
    (ho : o = (c.reader (.braces outer call start height parts) .ready).outcome source) :
    Agrees (bracesTurn source rules parts) c o (Turn.Goes
      (fun parts next => o = (next.reader (.braces outer call start height parts) .ready).outcome source)
      fun parts next => (∀ b, source[next.offset]? = some b → next.closes b = true)
        ∧ o = (next.reader (.braces outer call start height parts) .ready).outcome source) := by
  refine (pass_blocks_agrees rfl ho).andThen (pass_advances isBlank hc) fun _ first hfirst hforward =>
    meets_peek.2 ?_
  obtain ⟨hblank, ho⟩ := hfirst
  cases hpeek : source[first.offset]? with
  | none =>
    refine meets_pure.2 ⟨fun b hb => ?_, ho⟩
    cases hpeek.symm.trans hb
  | some b =>
    refine meets_closesFrame.2 ?_
    split
    · next hcloses =>
      refine meets_pure.2 ⟨fun b' hb' => ?_, ho⟩
      cases hpeek.symm.trans hb'
      exact hcloses
    · next hopen =>
      have hstarts : Starts source (.braces outer call start height parts) first :=
        ⟨trivial, by rw [hforward.frames]; exact hdepth,
          fun _ => ⟨b, hpeek, hblank b hpeek, by simpa using hopen⟩⟩
      refine (part_agrees h hadv hforward.within hstarts ho).andThen (part_advances hadv hforward.within)
        fun tree next ho _ => meets_pure.2 ho

/-- A turn in a document adds a block for both. Where it leads out of the loop the source is at its end,
and the tree is complete. -/
theorem documentTurn_agrees (h : rules.Agree source) {depth : Nat} (hadv : rules.Advance source depth)
    {parts : List Tree} (hc : c.offset ≤ source.length) (hframe : c.frames.headD 0 = 0)
    (ho : o = (c.reader (.document parts) .ready).outcome source) :
    Agrees (documentTurn source rules parts) c o (Turn.Goes
      (fun parts next => o = (next.reader (.document parts) .ready).outcome source)
      fun parts _ => o = .ok (.node (.group parts.reverse))) := by
  refine (pass_blocks_agrees rfl ho).andThen (pass_advances isBlank hc) fun _ first hfirst hforward =>
    meets_peek.2 ?_
  obtain ⟨hblank, ho⟩ := hfirst
  have hdepth : (Scope.document parts).depth = first.frames.headD 0 := by rw [hforward.frames, hframe]; rfl
  cases hpeek : source[first.offset]? with
  | none => exact meets_pure.2 (ho.trans (outcome_of_end hpeek))
  | some b =>
    -- No argument is around a document, so a closer belongs to it where nothing at all is open.
    have hcloses : first.closes b = true ↔ (Bracket.ofCloser? b).isSome = true ∧ first.opened = [] := by
      rw [Cursor.closes, ← hdepth, Bool.and_eq_true, beq_iff_eq]
      exact and_congr_right fun _ => List.length_eq_zero_iff
    refine meets_bind.2 ?_
    show Meets (if (Bracket.ofCloser? b).isSome ∧ first.opened = [] then _ else _) first _ _
    split
    · next hfree =>
      have hends := (endsScope_reader .ready hdepth b).trans (hcloses.2 hfree)
      exact agrees_refuse ho hpeek ((Rests.ready rfl).take_closer rfl hfree.1 hends)
    · next hopen =>
      have hstarts : Starts source (.document parts) first :=
        ⟨trivial, hdepth, fun _ => ⟨b, hpeek, hblank b hpeek, by simpa using mt hcloses.1 hopen⟩⟩
      refine (part_agrees h hadv hforward.within hstarts ho).andThen (part_advances hadv hforward.within)
        fun tree next ho _ => meets_pure.2 ho

/-! ### All of them -/

/-- If rules agree with the reader, so do the rules that call them. -/
theorem agree_next (h : rules.Agree source) {depth : Nat} (hadv : rules.Advance source depth) :
    Rules.Agree source (rules.next source) where
  text run scope _ o hc hdepth hin :=
    loop_agrees (textTurn_agrees h hadv hdepth run hin) (textTurn_advances hadv hc run)
      fun run next hin hnext hframes => h.text run scope next o hnext (hframes ▸ hdepth) hin
  command _ _ _ _ hb hdepth ho := command_agrees h hadv hb hdepth ho
  list place name args scope _ o hc hdepth ho :=
    loop_agrees (listTurn_agrees h hadv hc ho) (listTurn_advances hadv hc args)
      fun args next ho hnext hframes => h.list place name args scope next o hnext (hframes ▸ hdepth) ho
  braces outer call start height parts _ o hc hdepth ho :=
    loop_agrees (bracesTurn_agrees h hadv hc hdepth ho) (bracesTurn_advances hadv hc parts)
      fun parts next ho hnext hframes =>
        h.braces outer call start height parts next o hnext (hframes ▸ hdepth) ho
  document parts _ o hc hframe ho :=
    loop_agrees (documentTurn_agrees h hadv hc hframe ho) (documentTurn_advances hadv hc hframe parts)
      fun parts next ho hnext hframes => h.document parts next o hnext (hframes ▸ hframe) ho

end Rules

/-- The rules agree with the reader, however deep their calls are nested. -/
theorem agree_rules (source : Bytes) (depth : Nat) : (rules source depth).Agree source := by
  induction depth with
  | succ depth ih => exact agree_next ih (advance_rules source depth)
  | zero =>
    exact {
      text := fun _ _ _ _ _ _ _ => trivial
      command := fun _ _ _ _ _ _ _ => trivial
      list := fun _ _ _ _ _ _ _ _ _ => trivial
      braces := fun _ _ _ _ _ _ _ _ _ _ => trivial
      document := fun _ _ _ _ _ _ => trivial }

/-- The rules give what the reader gives, as soon as their calls may nest twice as deep as the source is
long, and two deeper. -/
theorem parse_eq (source : Bytes) (depth : Nat) (h : 2 * source.length + 2 ≤ depth) :
    parse source depth = (Tree.parse source).mapError Stop.fault := by
  have hagrees := (agree_rules source depth).document [] Cursor.initial (Tree.parse source) (Nat.zero_le _) rfl
    rfl
  have hadvances := (advance_rules source depth).document [] Cursor.initial (Nat.zero_le _) rfl
  -- What the rules come to, and that they are not exhausted, are put together for the one call of the
  -- document.
  have hwhole : Meets (rules source depth).whole Cursor.initial (fun tree _ => Tree.parse source = .ok tree)
      fun stop => stop.Tells (Tree.parse source)
        ∧ stop.Bounded source Cursor.initial (depth < 2 * Cursor.initial.left source + 2) :=
    meets_bind.2 ((Meets.and hagrees hadvances).mono (fun _ _ hparts => meets_pure.2 hparts.1) fun _ => id)
  rw [parse]
  unfold Meets at hwhole
  split at hwhole
  · next tree next hparse => rw [hparse, hwhole]; rfl
  · next stop hparse =>
    obtain ⟨htells, hbounded⟩ := hwhole
    cases stop with
    | fault found => rw [hparse, htells]; rfl
    | exhausted =>
      -- calls are only exhausted where they nest less deep than was asked for
      have hshort : depth < 2 * (source.length - 0) + 2 := hbounded
      omega

end Descent
end TildeMarkup
