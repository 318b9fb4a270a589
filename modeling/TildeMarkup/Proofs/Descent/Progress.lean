import TildeMarkup.Proofs.Descent.Rules

/-!
# The rules move on

No rule moves the cursor back, or past the end of the source, and every rule leaves the frames as it finds
them (`Rules.Advance`). A turn after which a loop goes on has moved the cursor (`textTurn_advances`,
`listTurn_advances`, `bracesTurn_advances`, `documentTurn_advances`). In braces and in a document that is
so because the loop is left at every closer at which a run of text would end with nothing in it: what is
left for another rule is never met again.

So calls that nest twice as deep as the source is long, and two more, are enough for every rule.
-/

namespace TildeMarkup.Descent

open Reader

/-! ## What a rule does from a cursor on -/

section Meets

variable {α β : Type} {c : Cursor} {goes : α → Cursor → Prop} {stops : Stop → Prop}

/-- From the cursor on, the result of the rule and where it leaves the cursor are of one kind, and the
reasons for which it stops are of another. -/
def Meets (rule : Rule α) (c : Cursor) (goes : α → Cursor → Prop) (stops : Stop → Prop) : Prop :=
  match rule c with
  | .ok (result, next) => goes result next
  | .error stop => stops stop

theorem Meets.mono {rule : Rule α} {more : α → Cursor → Prop} {others : Stop → Prop}
    (h : Meets rule c goes stops) (hgoes : ∀ result next, goes result next → more result next)
    (hstops : ∀ stop, stops stop → others stop) : Meets rule c more others := by
  unfold Meets at h ⊢
  split
  · next hrule => rw [hrule] at h; exact hgoes _ _ h
  · next hrule => rw [hrule] at h; exact hstops _ h

theorem Meets.and {rule : Rule α} {more : α → Cursor → Prop} {others : Stop → Prop}
    (h : Meets rule c goes stops) (hmore : Meets rule c more others) :
    Meets rule c (fun result next => goes result next ∧ more result next)
      (fun stop => stops stop ∧ others stop) := by
  unfold Meets at h hmore ⊢
  split
  · next hrule => rw [hrule] at h hmore; exact ⟨h, hmore⟩
  · next hrule => rw [hrule] at h hmore; exact ⟨h, hmore⟩

theorem meets_bind {rule : Rule α} {f : α → Rule β} {goes : β → Cursor → Prop} :
    Meets (rule >>= f) c goes stops
      ↔ Meets rule c (fun result next => Meets (f result) next goes stops) stops := by
  have hbind : (rule >>= f) c = (rule c >>= fun (result, next) => f result next) := rfl
  rw [Meets, Meets, hbind]
  cases rule c <;> rfl

theorem meets_pure {result : α} : Meets (pure result) c goes stops ↔ goes result c := Iff.rfl

theorem meets_here {f : Nat → Rule α} :
    Meets (here >>= f) c goes stops ↔ Meets (f c.offset) c goes stops := Iff.rfl

theorem meets_peek {source : Bytes} {f : Option UInt8 → Rule α} :
    Meets (peek source >>= f) c goes stops ↔ Meets (f source[c.offset]?) c goes stops := Iff.rfl

theorem meets_closesFrame {b : UInt8} {f : Bool → Rule α} :
    Meets (closesFrame b >>= f) c goes stops ↔ Meets (f (c.closes b)) c goes stops := Iff.rfl

/-- A rule of trees ends a text piece as the reader does, and the cursor stays where it is. -/
theorem meets_endText {pieces : List Tree} {start stop : Nat} {f : List Tree → Rule α} :
    Meets (endText pieces start stop >>= f) c goes stops
      ↔ Meets (f (addText pieces start stop)) c goes stops := by
  rw [endText, addText]
  split <;> rfl

theorem meets_refuse {source : Bytes} {cause : Cause} : Meets (refuse source cause) c goes stops
    ↔ stops (.fault ⟨cause, ⟨c.offset, min (c.offset + 1) source.length⟩⟩) := Iff.rfl

end Meets

/-! ## Moving forward -/

section Forward

variable {α β : Type} {source : Bytes} {start c : Cursor} {least moved : Nat} {short : Prop}

/-- The cursor has moved by `least` bytes or more, within the source, and is in the same arguments. -/
structure Forward (source : Bytes) (c : Cursor) (least : Nat) (next : Cursor) : Prop where
  moved : c.offset + least ≤ next.offset
  within : next.offset ≤ source.length
  frames : next.frames = c.frames

theorem Forward.refl (h : c.offset ≤ source.length) : Forward source c 0 c :=
  ⟨Nat.le_refl _, h, rfl⟩

theorem Forward.trans {next : Cursor} (h : Forward source start moved c)
    (hnext : Forward source c least next) : Forward source start (moved + least) next :=
  ⟨by have := h.moved; have := hnext.moved; omega, hnext.within, hnext.frames.trans h.frames⟩

theorem Forward.weaken {next : Cursor} (h : Forward source c moved next) (hle : least ≤ moved) :
    Forward source c least next :=
  ⟨by have := h.moved; omega, h.within, h.frames⟩

/-- A fault is found at the cursor or behind it, and within the source. Calls are only exhausted if that
was to be expected. -/
def Stop.Bounded (source : Bytes) (c : Cursor) (short : Prop) : Stop → Prop
  | .fault found => c.offset ≤ found.span.start ∧ found.span.start ≤ source.length
  | .exhausted => short

theorem Stop.Bounded.mono {less : Prop} {stop : Stop} (h : stop.Bounded source c less)
    (hlow : start.offset ≤ c.offset) (hshort : less → short) : stop.Bounded source start short := by
  cases stop with
  | fault found => exact ⟨Nat.le_trans hlow h.1, h.2⟩
  | exhausted => exact hshort h

/-- From the cursor on, the rule moves forward by `least` bytes or more, and it is only exhausted if that
was to be expected. -/
abbrev Advances (source : Bytes) (rule : Rule α) (c : Cursor) (least : Nat) (short : Prop) : Prop :=
  Meets rule c (fun _ next => Forward source c least next) (Stop.Bounded source c short)

/-- A rule that advances, in front of another. -/
theorem Advances.andThen {rule : Rule α} {f : α → Rule β} {goes : β → Cursor → Prop} {less : Prop}
    (h : Advances source rule c least less) (hc : Forward source start moved c) (hshort : less → short)
    (hf : ∀ result next, Forward source start (moved + least) next →
      Meets (f result) next goes (Stop.Bounded source start short)) :
    Meets (rule >>= f) c goes (Stop.Bounded source start short) := by
  refine meets_bind.2 (h.mono (fun result next hnext => hf result next (hc.trans hnext)) fun stop hstop => ?_)
  have hmoved := hc.moved
  exact hstop.mono (by omega) hshort

theorem Advances.weaken {rule : Rule α} {less : Prop} (h : Advances source rule c moved less)
    (hle : least ≤ moved) (hshort : less → short) : Advances source rule c least short :=
  h.mono (fun _ _ hnext => hnext.weaken hle) fun _ hstop => hstop.mono (Nat.le_refl _) hshort

theorem offset_lt {b : UInt8} (h : source[c.offset]? = some b) : c.offset < source.length :=
  (List.getElem?_eq_some_iff.1 h).1

theorem bounded_refuse {cause : Cause} (h : c.offset ≤ source.length)
    (hlow : start.offset ≤ c.offset) : Stop.Bounded source start short
      (.fault ⟨cause, ⟨c.offset, min (c.offset + 1) source.length⟩⟩) :=
  ⟨hlow, h⟩

theorem skip_advances (h : c.offset < source.length) : Advances source skip c 1 False :=
  ⟨Nat.le_refl _, h, rfl⟩

theorem bump_advances {b : UInt8} (h : source[c.offset]? = some b) :
    Advances source (bump source) c 1 False := by
  have hlt := offset_lt h
  rw [Advances, Meets, bump, h]
  simp only
  cases cross c.opened b with
  | ok opened => exact ⟨Nat.le_refl _, hlt, rfl⟩
  | error cause => exact bounded_refuse (Nat.le_of_lt hlt) (Nat.le_refl _)

theorem pass_advances (kind : UInt8 → Bool) (h : c.offset ≤ source.length) :
    Advances source (pass source kind) c 0 False := by
  have hlength := (List.takeWhile_prefix (l := source.drop c.offset) kind).length_le
  rw [List.length_drop] at hlength
  exact ⟨Nat.le_add_right _ _, by show c.offset + _ ≤ _; omega, rfl⟩

theorem expect_advances (wanted : UInt8) (h : c.offset ≤ source.length) :
    Advances source (expect source wanted) c 1 False := by
  rw [expect]
  refine meets_peek.2 ?_
  cases hpeek : source[c.offset]? with
  | none => exact meets_refuse.2 (bounded_refuse h (Nat.le_refl _))
  | some b =>
    dsimp only
    split
    · exact bump_advances hpeek
    · exact meets_refuse.2 (bounded_refuse h (Nat.le_refl _))

theorem framed_advances {rule : Rule α}
    (h : ∀ frames, Advances source rule { c with frames } least short) :
    Advances source (framed rule) c least short := by
  refine meets_bind.2 (meets_bind.2 ((h (c.opened.length :: c.frames)).mono ?_ fun _ => id))
  rintro result next ⟨hmoved, hwithin, hframes⟩
  refine ⟨hmoved, hwithin, ?_⟩
  show next.frames.tail = c.frames
  rw [hframes, List.tail_cons]

end Forward

/-! ## Loops -/

section Loops

variable {σ α : Type} {source : Bytes} {c : Cursor} {depth extra : Nat}

/-- The number of bytes that are left. -/
def Cursor.left (source : Bytes) (c : Cursor) : Nat := source.length - c.offset

theorem Forward.left_lt {next : Cursor} (h : Forward source c 1 next) :
    next.left source < c.left source := by
  have hmoved := h.moved
  have hwithin := h.within
  unfold Cursor.left
  omega

theorem Forward.left_le {next : Cursor} {least : Nat} (h : Forward source c least next) :
    next.left source ≤ c.left source := by
  have hmoved := h.moved
  unfold Cursor.left
  omega

/-- How far a turn has to move the cursor: by a byte, if the loop goes on after it. -/
def Turn.least : Turn σ α → Nat
  | .again _ => 1
  | .exit _ => 0

/-- The turn moves forward, and by a byte or more if the loop goes on after it. -/
abbrev TurnAdvances (source : Bytes) (turn : Rule (Turn σ α)) (c : Cursor) (short : Prop) : Prop :=
  Meets turn c (fun result next => Forward source c result.least next) (Stop.Bounded source c short)

/-- A loop is left: every turn takes from what its calls may need. -/
theorem loop_advances (extra : Nat) {turn : σ → Rule (Turn σ α)} {rest : σ → Rule α} {state : σ}
    (hturn : TurnAdvances source (turn state) c (depth < 2 * c.left source + extra))
    (hrest : ∀ state next, Forward source c 1 next →
      Advances source (rest state) next 0 (depth < 2 * next.left source + extra + 1)) :
    Advances source (loop turn rest state) c 0 (depth + 1 < 2 * c.left source + extra + 1) := by
  refine meets_bind.2 (hturn.mono (fun result next hnext => ?_) fun stop hstop =>
    hstop.mono (Nat.le_refl _) (by omega))
  cases result with
  | exit result => exact meets_pure.2 hnext
  | again state =>
    have hforward : Forward source c 1 next := hnext
    have hless := hforward.left_lt
    refine (hrest state next hforward).mono (fun _ _ hlast => (hforward.trans hlast).weaken ?_)
      fun stop hstop => hstop.mono ?_ (by omega)
    · exact Nat.zero_le _
    · exact Nat.le_trans (Nat.le_add_right _ 1) hforward.moved

/-- The rule moves the cursor if it has a result. -/
abbrev Moves (rule : Rule α) (c : Cursor) : Prop :=
  Meets rule c (fun _ next => c.offset < next.offset) fun _ => True

theorem Advances.moves {rule : Rule α} {least : Nat} {short : Prop}
    (h : Advances source rule c least short) (hleast : 0 < least) : Moves rule c :=
  h.mono (fun _ _ hnext => by have := hnext.moved; omega) fun _ _ => trivial

/-- If the turn moves, the loop does. -/
theorem loop_moves (short : Cursor → Prop) {turn : σ → Rule (Turn σ α)} {rest : σ → Rule α} {state : σ}
    (hturn : TurnAdvances source (turn state) c (short c)) (hmoves : Moves (turn state) c)
    (hrest : ∀ state next, Forward source c 1 next →
      Advances source (rest state) next 0 (short next)) : Moves (loop turn rest state) c := by
  refine meets_bind.2 ((hturn.and hmoves).mono (fun result next hnext => ?_) fun _ _ => trivial)
  cases result with
  | exit result => exact meets_pure.2 hnext.2
  | again state =>
    refine (hrest state next hnext.1).mono (fun _ _ hlast => ?_) fun _ _ => trivial
    exact Nat.lt_of_lt_of_le hnext.2 (Nat.le_trans (Nat.le_add_right _ 0) hlast.moved)

end Loops

/-! ## All rules -/

section Rules

variable {ι : Type} {source : Bytes} {rules : Rules} {depth : Nat} {c : Cursor} {blocks : Bool}

/-- A rule of these moves forward, a command by a byte or more, and calls nested to the depth are enough
for them where the depth is twice the number of bytes left, and two more at most. -/
structure Rules.Advance (source : Bytes) (rules : Rules) (depth : Nat) : Prop where
  text : ∀ run c, c.offset ≤ source.length →
    Advances source (rules.text run) c 0 (depth < 2 * c.left source + 1)
  line : ∀ run c b, source[c.offset]? = some b → c.closes b = false → Moves (rules.text run) c
  command : ∀ blocks c, source[c.offset]? = some tilde →
    Advances source (rules.command blocks) c 1 (depth < 2 * c.left source)
  list : ∀ blocks args c, c.offset ≤ source.length →
    Advances source (rules.list blocks args) c 0 (depth < 2 * c.left source + 2)
  braces : ∀ blocks c, c.offset ≤ source.length →
    Advances source (rules.braces blocks) c 0 (depth < 2 * c.left source + 2)
  document : ∀ blocks c, c.offset ≤ source.length → c.frames.headD 0 = 0 →
    Advances source (rules.document blocks) c 0 (depth < 2 * c.left source + 2)

theorem part_advances (h : rules.Advance source depth) (hc : c.offset ≤ source.length) :
    Advances source (part source rules blocks) c 0 (depth < 2 * c.left source + 1) := by
  rw [part]
  refine meets_peek.2 ?_
  split
  · next htilde => exact (h.command blocks c htilde).weaken (Nat.zero_le _) (by omega)
  · refine meets_here.2 ((h.text _ c hc).andThen (Forward.refl hc) id fun pieces next hnext => ?_)
    exact meets_pure.2 hnext

/-- A rule between two brackets moves by the opener at least. The rule inside has less of the source left,
so it may be called one level deeper. -/
theorem enclosed_advances {α : Type} {b closer : UInt8} {rule : Rule α}
    {form : α → Span → Argument Tree} (hb : source[c.offset]? = some b)
    (hrule : ∀ next : Cursor, next.offset ≤ source.length →
      Advances source rule next 0 (depth < 2 * next.left source + 2)) :
    Advances source (enclosed source closer rule form) c 1 (depth < 2 * c.left source) := by
  have hc : c.offset ≤ source.length := Nat.le_of_lt (offset_lt hb)
  refine meets_here.2 ((bump_advances hb).andThen (Forward.refl hc) False.elim fun _ inside hinside => ?_)
  -- The opener has been taken, which pays for the call that is nested here.
  have hless : inside.left source < c.left source := hinside.left_lt
  have hframed : Advances source (framed rule) inside 0 (depth < 2 * inside.left source + 2) :=
    framed_advances fun frames => hrule { inside with frames } hinside.within
  refine hframed.andThen hinside (by omega) fun content after hafter => ?_
  refine (expect_advances closer hafter.within).andThen hafter False.elim fun _ last hlast => ?_
  exact meets_here.2 (meets_pure.2 (hlast.weaken (by omega)))

theorem bracketed_advances (h : rules.Advance source depth)
    (hb : source[c.offset]? = some Bracket.square.opener) :
    Advances source (bracketed source rules) c 1 (depth < 2 * c.left source) :=
  enclosed_advances hb fun _ hnext => (part_advances h hnext).weaken (Nat.le_refl _) (by omega)

theorem braced_advances (h : rules.Advance source depth)
    (hb : source[c.offset]? = some Bracket.curly.opener) :
    Advances source (braced source rules) c 1 (depth < 2 * c.left source) :=
  enclosed_advances hb fun next hnext => h.braces [] next hnext

/-- Letters that start at the cursor are passed, the one at the cursor among them. -/
theorem ident_advances {b : UInt8} (hb : source[c.offset]? = some b) (hletter : isLetter b) :
    Advances source (ident source : Rule (Argument ι)) c 1 False := by
  have hc : c.offset ≤ source.length := Nat.le_of_lt (offset_lt hb)
  have hlength : 1 ≤ ((source.drop c.offset).takeWhile isLetter).length := by
    rw [List.drop_eq_getElem?_toList_append, hb]
    simp [hletter]
  have hpass : Advances source (pass source isLetter) c 1 False :=
    ⟨Nat.add_le_add_left hlength _, (pass_advances isLetter hc).within, rfl⟩
  refine meets_here.2 (hpass.andThen (Forward.refl hc) id fun _ next hnext => ?_)
  exact meets_here.2 (meets_pure.2 (hnext.weaken (by omega)))

theorem stringLength_le (previous : UInt8) (bytes : Bytes) : stringLength previous bytes ≤ bytes.length := by
  induction bytes generalizing previous with
  | nil => exact Nat.le_refl _
  | cons b rest ih =>
    rw [stringLength]
    split
    · exact Nat.zero_le _
    · exact Nat.succ_le_succ (ih b)

theorem passString_advances (h : c.offset ≤ source.length) :
    Advances source (passString source) c 0 False := by
  have hlength := stringLength_le quote (source.drop c.offset)
  rw [List.length_drop] at hlength
  exact ⟨Nat.le_add_right _ _, by show c.offset + _ ≤ _; omega, rfl⟩

theorem string_advances (hlt : c.offset < source.length) :
    Advances source (string source : Rule (Argument ι)) c 1 False := by
  have hc := Forward.refl (Nat.le_of_lt hlt)
  refine meets_here.2 ((skip_advances hlt).andThen hc id fun _ inside hinside => ?_)
  refine (passString_advances hinside.within).andThen hinside id fun _ last hlast => ?_
  refine meets_peek.2 ?_
  have hmoved := hlast.moved
  cases hpeek : source[last.offset]? with
  | none => exact meets_refuse.2 (bounded_refuse hlast.within (by omega))
  | some b =>
    refine (skip_advances (offset_lt hpeek)).andThen hlast id fun _ stop hstop => ?_
    exact meets_here.2 (meets_pure.2 (hstop.weaken (by omega)))

/-- Whatever starts at the cursor, an argument takes a byte of it or is refused. -/
theorem argument_advances (h : rules.Advance source depth) (hc : c.offset ≤ source.length) :
    Advances source (argument source rules blocks) c 1 (depth < 2 * c.left source) := by
  refine meets_peek.2 ?_
  cases hpeek : source[c.offset]? with
  | none => exact meets_refuse.2 (bounded_refuse hc (Nat.le_refl _))
  | some b =>
    dsimp only
    split
    · next hb => exact bracketed_advances h (hb ▸ hpeek)
    · split
      · next hb => exact braced_advances h (hb.1 ▸ hpeek)
      · split
        · exact (string_advances (offset_lt hpeek)).weaken (Nat.le_refl _) False.elim
        · split
          · next hletter => exact (ident_advances hpeek hletter).weaken (Nat.le_refl _) False.elim
          · exact meets_refuse.2 (bounded_refuse hc (Nat.le_refl _))

theorem separator_advances (hc : c.offset ≤ source.length) :
    Advances source (separator source) c 0 False := by
  refine meets_peek.2 ?_
  split
  · exact meets_pure.2 (Forward.refl hc)
  · exact (expect_advances comma hc).weaken (Nat.zero_le _) id

theorem arguments_advances (h : rules.Advance source depth) (hc : c.offset ≤ source.length) :
    Advances source (arguments source rules blocks) c 1 (depth < 2 * c.left source) := by
  refine meets_peek.2 ?_
  cases hpeek : source[c.offset]? with
  | none => exact meets_refuse.2 (bounded_refuse hc (Nat.le_refl _))
  | some b =>
    dsimp only
    split
    · refine (bump_advances hpeek).andThen (Forward.refl hc) False.elim fun _ inside hinside => ?_
      have hless : inside.left source < c.left source := hinside.left_lt
      refine (h.list blocks [] inside hinside.within).andThen hinside (by omega)
        fun args after hafter => ?_
      refine (expect_advances _ hafter.within).andThen hafter False.elim fun _ last hlast => ?_
      exact meets_pure.2 (hlast.weaken (by omega))
    · split
      · next hb =>
        refine (bracketed_advances h (hb ▸ hpeek)).andThen (Forward.refl hc) id fun arg last hlast => ?_
        exact meets_pure.2 (hlast.weaken (by omega))
      · split
        · next hb =>
          refine (braced_advances h (hb.1 ▸ hpeek)).andThen (Forward.refl hc) id fun arg last hlast => ?_
          exact meets_pure.2 (hlast.weaken (by omega))
        · exact meets_refuse.2 (bounded_refuse hc (Nat.le_refl _))

theorem command_advances (h : rules.Advance source depth) (hb : source[c.offset]? = some tilde) :
    Advances source (command source rules blocks) c 1 (depth + 1 < 2 * c.left source) := by
  have hc := Forward.refl (Nat.le_of_lt (offset_lt hb))
  refine (bump_advances hb).andThen hc False.elim fun _ name hname => meets_here.2 ?_
  refine (pass_advances isLetter hname.within).andThen hname False.elim fun _ head hhead => ?_
  refine meets_here.2 ?_
  refine (pass_advances isBlank hhead.within).andThen hhead False.elim fun _ args hargs => ?_
  -- The tilde has been taken, so the arguments are one nested call deeper for a byte less.
  have hless : args.left source < c.left source := (hargs.weaken (by omega)).left_lt
  refine (arguments_advances h hargs.within).andThen hargs (by omega) fun found last hlast => ?_
  exact meets_pure.2 (hlast.weaken (by omega))

/-! ## Turns -/

/-- A turn after which a run of text goes on takes a byte, or a command. -/
theorem textTurn_advances (h : rules.Advance source depth) (hc : c.offset ≤ source.length)
    (run : List Tree × Nat) :
    TurnAdvances source (textTurn source rules run) c (depth < 2 * c.left source) := by
  refine meets_here.2 (meets_peek.2 ?_)
  have hstay := Forward.refl hc
  cases hpeek : source[c.offset]? with
  | none => exact meets_endText.2 (meets_pure.2 hstay)
  | some b =>
    dsimp only
    split
    · next htilde =>
      refine meets_endText.2 ?_
      refine (h.command false c (htilde ▸ hpeek)).andThen hstay id fun tree next hnext => ?_
      exact meets_here.2 (meets_pure.2 hnext)
    · split
      · refine meets_endText.2 ?_
        refine (bump_advances hpeek).andThen hstay False.elim fun _ next hnext => ?_
        exact meets_pure.2 (hnext.weaken (Nat.zero_le _))
      · refine meets_closesFrame.2 ?_
        split
        -- The closer is left where it is: only this turn ends without a byte, and the loop ends with it.
        · exact meets_endText.2 (meets_pure.2 hstay)
        · refine (bump_advances hpeek).andThen hstay False.elim fun _ next hnext => ?_
          exact meets_pure.2 hnext

/-- A turn after which a list goes on takes an argument. -/
theorem listTurn_advances (h : rules.Advance source depth) (hc : c.offset ≤ source.length)
    (args : List (Argument Tree)) :
    TurnAdvances source (listTurn source rules blocks args) c (depth < 2 * c.left source + 1) := by
  have hstay := Forward.refl hc
  refine meets_peek.2 ?_
  split
  · exact meets_pure.2 hstay
  · refine (pass_advances isBlank hc).andThen hstay False.elim fun _ start hstart => meets_peek.2 ?_
    split
    · exact meets_pure.2 hstart
    · have hleft : start.left source ≤ c.left source := hstart.left_le
      refine (argument_advances h hstart.within).andThen hstart (by omega) fun arg after hafter => ?_
      refine (pass_advances isBlank hafter.within).andThen hafter False.elim fun _ next hnext => ?_
      refine (separator_advances hnext.within).andThen hnext False.elim fun _ last hlast => ?_
      exact meets_pure.2 (hlast.weaken (by simp [Turn.least]))

theorem textTurn_moves {b : UInt8} (h : rules.Advance source depth) (hb : source[c.offset]? = some b)
    (hopen : c.closes b = false) (run : List Tree × Nat) : Moves (textTurn source rules run) c := by
  refine meets_here.2 (meets_peek.2 ?_)
  rw [hb]
  dsimp only
  split
  · next htilde =>
    refine meets_endText.2 ?_
    exact meets_bind.2 ((h.command false c (htilde ▸ hb)).moves Nat.one_pos)
  · split
    · exact meets_endText.2 (meets_bind.2 ((bump_advances hb).moves Nat.one_pos))
    · refine meets_closesFrame.2 ?_
      rw [hopen]
      exact meets_bind.2 ((bump_advances hb).moves Nat.one_pos)

/-- A block takes a byte, unless it starts at a closer that ends it at once. -/
theorem part_moves {b : UInt8} (h : rules.Advance source depth) (hb : source[c.offset]? = some b)
    (hopen : c.closes b = false) : Moves (part source rules blocks) c := by
  refine meets_peek.2 ?_
  split
  · next htilde => exact (h.command blocks c htilde).moves Nat.one_pos
  · exact meets_here.2 (meets_bind.2 (h.line _ c b hb hopen))

/-- A turn after which braces go on takes a block, also where it starts at a closer: that one closes a
bracket of the text. -/
theorem bracesTurn_advances (h : rules.Advance source depth) (hc : c.offset ≤ source.length)
    (parts : List Tree) :
    TurnAdvances source (bracesTurn source rules parts) c (depth < 2 * c.left source + 1) := by
  refine (pass_advances isBlank hc).andThen (Forward.refl hc) False.elim fun _ start hstart =>
    meets_peek.2 ?_
  cases hpeek : source[start.offset]? with
  | none => exact meets_pure.2 hstart
  | some b =>
    refine meets_closesFrame.2 ?_
    cases hopen : start.closes b with
    | true => exact meets_pure.2 hstart
    | false =>
      -- The block moves at all by `part_moves`, and as far as it goes it stays within the source.
      have hpart : Advances source (part source rules true) start 1 (depth < 2 * start.left source + 1) :=
        ((part_advances h hstart.within).and (part_moves h hpeek hopen)).mono
          (fun _ _ hnext => ⟨hnext.2, hnext.1.within, hnext.1.frames⟩) fun _ hstop => hstop.1
      have hleft : start.left source ≤ c.left source := hstart.left_le
      refine hpart.andThen hstart (by omega) fun part next hnext => ?_
      exact meets_pure.2 (hnext.weaken (by simp [Turn.least]))

/-- A turn after which a document goes on takes a block. At a closer it does not: if nothing is open, the
source is refused there. -/
theorem documentTurn_advances (h : rules.Advance source depth) (hc : c.offset ≤ source.length)
    (hframe : c.frames.headD 0 = 0) (parts : List Tree) :
    TurnAdvances source (documentTurn source rules parts) c (depth < 2 * c.left source + 1) := by
  refine (pass_advances isBlank hc).andThen (Forward.refl hc) False.elim fun _ start hstart =>
    meets_peek.2 ?_
  have hlow : c.offset ≤ start.offset := Nat.le_trans (Nat.le_add_right _ _) hstart.moved
  cases hpeek : source[start.offset]? with
  | none => exact meets_pure.2 hstart
  | some b =>
    refine meets_bind.2 ?_
    show Meets (if (Bracket.ofCloser? b).isSome ∧ start.opened = [] then _ else _) start _ _
    split
    · exact meets_refuse.2 (bounded_refuse hstart.within hlow)
    · next hfree =>
      -- A document encloses nothing, so a closer with something open is one of the text.
      have hopen : start.closes b = false := by
        rw [Cursor.closes, hstart.frames, hframe]
        simpa [← List.length_eq_zero_iff] using hfree
      have hpart : Advances source (part source rules true) start 1 (depth < 2 * start.left source + 1) :=
        ((part_advances h hstart.within).and (part_moves h hpeek hopen)).mono
          (fun _ _ hnext => ⟨hnext.2, hnext.1.within, hnext.1.frames⟩) fun _ hstop => hstop.1
      have hleft : start.left source ≤ c.left source := hstart.left_le
      refine hpart.andThen hstart (by omega) fun part next hnext => ?_
      exact meets_pure.2 (hnext.weaken (by simp [Turn.least]))

/-! ## All of them -/

theorem advance_next (h : rules.Advance source depth) :
    Rules.Advance source (rules.next source) (depth + 1) where
  text run c hc :=
    loop_advances 0 (textTurn_advances h hc run) fun run next hnext => h.text run next hnext.within
  line run c b hb hopen :=
    loop_moves (fun c => depth < 2 * c.left source + 1)
      ((textTurn_advances h (Nat.le_of_lt (offset_lt hb)) run).mono (fun _ _ => id) fun _ hstop =>
        hstop.mono (Nat.le_refl _) (by omega))
      (textTurn_moves h hb hopen run)
      fun run next hnext => h.text run next hnext.within
  command blocks c hb := command_advances h hb
  list blocks args c hc :=
    loop_advances _ (listTurn_advances h hc args) fun args next hnext => h.list blocks args next hnext.within
  braces parts c hc :=
    loop_advances _ (bracesTurn_advances h hc parts) fun parts next hnext => h.braces parts next hnext.within
  document parts c hc hframe :=
    loop_advances _ (documentTurn_advances h hc hframe parts) fun parts next hnext =>
      h.document parts next hnext.within (hnext.frames ▸ hframe)

end Rules

/-- The rules move on, however deep their calls are nested. -/
theorem advance_rules (source : Bytes) (depth : Nat) : (rules source depth).Advance source depth := by
  induction depth with
  | succ depth ih => exact advance_next ih
  -- Without calls every rule is exhausted, and each bound allows that with no depth at all.
  | zero =>
    exact {
      text := fun _ _ _ => Nat.succ_pos _
      line := fun _ _ _ _ _ => trivial
      command := fun _ c hb => Nat.mul_pos Nat.two_pos (Nat.sub_pos_of_lt (offset_lt hb))
      list := fun _ _ _ _ => Nat.succ_pos _
      braces := fun _ _ _ => Nat.succ_pos _
      document := fun _ _ _ _ => Nat.succ_pos _ }

end TildeMarkup.Descent
