import TildeMarkup.Proofs.Descent.Brackets

/-!
# Arguments are isolated

A cursor is sound if its frames are the heights at which arguments were opened (`Cursor.Sound`). All rules
keep it so. What they do to the stack is told by `Confined` for text and blocks, and by `SelfContained` for
commands and arguments.

Main statement: `rules_isolated`. A command need not leave the stack as it was
(`exists_command_leaves_open`); it does so exactly if the bytes that it takes are a bracket word without
their strings, and so at least where no line in it starts with the closer of square brackets.
-/

namespace TildeMarkup

namespace Descent

open TildeMarkup.Bracket (scan)

namespace Cursor

/-- The part of the stack that is not above the frame. -/
def below (c : Cursor) : List Bracket :=
  c.opened.drop (c.opened.length - c.frame)

/-- The frames are heights of the stack, that of the document and then, further and further up, those of
arguments: what is right below one of these is the bracket that an argument was opened with. -/
structure Sound (c : Cursor) : Prop where
  document : c.frames.getLast? = some 0
  ordered : c.frames.Pairwise (· > ·)
  within : c.frame ≤ c.opened.length
  owned : ∀ height ∈ c.frames, height ≠ 0 →
    ∃ kind ∈ [Bracket.square, Bracket.curly], c.opened.reverse[height - 1]? = some kind

variable {c next : Cursor} {base : List Bracket}

theorem below_suffix (c : Cursor) : c.below <:+ c.opened :=
  List.drop_suffix _ _

theorem length_below (h : c.frame ≤ c.opened.length) : c.below.length = c.frame := by
  rw [below, List.length_drop]
  omega

/-- A lower part of the stack that is as high as the frame is the one below the frame. -/
theorem below_eq (h : base <:+ c.opened) (hframe : base.length = c.frame) : c.below = base := by
  obtain ⟨above, habove⟩ := h
  rw [below, ← habove, List.length_append, hframe, Nat.add_sub_cancel, List.drop_left]

/-- The frame is the highest of the heights, since each argument is opened above the one around it. -/
theorem le_frame (h : c.frames.Pairwise (· > ·)) {height : Nat} (hheight : height ∈ c.frames) :
    height ≤ c.frame := by
  obtain ⟨offset, opened, frames⟩ := c
  cases frames with
  | nil => cases hheight
  | cons top rest =>
    rcases List.mem_cons.1 hheight with rfl | hrest
    · exact Nat.le_refl _
    · exact Nat.le_of_lt ((List.pairwise_cons.1 h).1 height hrest)

/-- Counted from the bottom, what is in a lower part of the stack stays in its place. -/
theorem getElem?_reverse {stack : List Bracket} (h : base <:+ stack) {i : Nat} (hi : i < base.length) :
    stack.reverse[i]? = base.reverse[i]? := by
  obtain ⟨above, rfl⟩ := h
  rw [List.reverse_append, List.getElem?_append_left (by rwa [List.length_reverse])]

theorem sound_initial : initial.Sound where
  document := rfl
  ordered := List.pairwise_singleton _ _
  within := Nat.le_refl _
  owned _ hheight hne := absurd (List.mem_singleton.1 hheight) hne

/-- Soundness looks at nothing above the frame, so it is kept where the part below the frame and the
frames are. -/
theorem Sound.of_below (h : c.Sound) (hframes : next.frames = c.frames) (hbelow : c.below <:+ next.opened) :
    next.Sound where
  document := hframes ▸ h.document
  ordered := hframes ▸ h.ordered
  within := by
    have hlength := hbelow.length_le
    rw [length_below h.within] at hlength
    rw [frame, hframes]
    exact hlength
  owned height hheight hne := by
    rw [hframes] at hheight
    have hle := le_frame h.ordered hheight
    -- The bracket of a height lies under it, and so in the part that is kept.
    have hlt : height - 1 < c.below.length := by
      rw [length_below h.within]
      omega
    rw [getElem?_reverse hbelow hlt, ← getElem?_reverse c.below_suffix hlt]
    exact h.owned height hheight hne

/-- What an argument holds starts at a sound cursor. -/
theorem Sound.inside (h : c.Sound) {kind : Bracket} (hkind : kind ∈ [Bracket.square, Bracket.curly]) :
    (c.inside kind).Sound where
  document := by
    show (_ :: c.frames).getLast? = some 0
    rw [List.getLast?_cons, h.document]
    rfl
  ordered := by
    refine List.pairwise_cons.2 ⟨fun height hheight => ?_, h.ordered⟩
    exact Nat.lt_succ_of_le (Nat.le_trans (le_frame h.ordered hheight) h.within)
  within := Nat.le_refl _
  owned height hheight hne := by
    rcases List.mem_cons.1 hheight with rfl | hrest
    · refine ⟨kind, hkind, ?_⟩
      show (kind :: c.opened).reverse[c.opened.length + 1 - 1]? = some kind
      rw [List.reverse_cons, Nat.add_sub_cancel, ← List.length_reverse, List.getElem?_concat_length]
    · -- the frames further down are not above the old stack, so their brackets stay where they are
      have hle := Nat.le_trans (le_frame h.ordered hrest) h.within
      have hsuffix : c.opened <:+ (c.inside kind).opened := List.suffix_cons _ _
      rw [getElem?_reverse hsuffix (by omega)]
      exact h.owned height hrest hne

end Cursor

/-! ## What rules keep -/

/-- What is taken closes nothing up to the frame. -/
structure Confined (source : Bytes) (c : Cursor) (found : List Span) (next : Cursor) : Prop
    extends Takes source c.below c found next where
  sound : next.Sound
  below : next.below = c.below

/-- What is taken closes nothing that was open at first, and leaves the stack as it was exactly if it is a
bracket word. -/
structure SelfContained (source : Bytes) (c : Cursor) (found : List Span) (next : Cursor) : Prop
    extends Spares source c found next where
  sound : next.Sound
  balanced : next.opened = c.opened ↔ Bracket.Balanced (taken source found c.offset next.offset)

section Kept

variable {source : Bytes} {c next : Cursor} {base : List Bracket} {strings found : List Span}

/-- What is taken from the part below the frame on keeps that part, and thus a sound cursor. -/
theorem Takes.confined (h : Takes source c.below c found next) (hsound : c.Sound) :
    Confined source c found next where
  toTakes := h
  sound := hsound.of_below h.frames h.suffix
  below := Cursor.below_eq h.suffix (by
    rw [Cursor.length_below hsound.within, Cursor.frame, Cursor.frame, h.frames])

/-- A stack that loses nothing is the old one with something on it. It is the old one just if nothing is
on it, and that says that the scan of the bytes comes to nothing. -/
theorem Spares.selfContained (h : Spares source c found next) (hsound : c.Sound) :
    SelfContained source c found next where
  toSpares := h
  sound := hsound.of_below h.frames (c.below_suffix.trans h.suffix)
  balanced := by
    -- Nothing of the old stack is popped, so the bytes can be scanned from the empty one.
    obtain ⟨before, after, hbefore, hafter, hscan⟩ := h.scan
    obtain rfl := List.self_eq_append_left.1 hbefore
    rw [Bracket.Balanced, hscan, Option.some.injEq, hafter]
    exact List.append_left_eq_self

theorem Adds.confined (h : Adds (Takes source c.below) strings c found next) (hsound : c.Sound) :
    Adds (Confined source) strings c found next := by
  obtain ⟨more, hmore, htakes⟩ := h
  exact ⟨more, hmore, htakes.confined hsound⟩

theorem Adds.selfContained (h : Adds (Spares source) strings c found next) (hsound : c.Sound) :
    Adds (SelfContained source) strings c found next := by
  obtain ⟨more, hmore, hspares⟩ := h
  exact ⟨more, hmore, hspares.selfContained hsound⟩

end Kept

/-- What the rules do from a cursor on, each where it may start and if it returns. -/
structure Isolated (source : Bytes) (rules : Rules) (c : Cursor) : Prop where
  document : ∀ parts, Returns (rules.document parts) c fun more next =>
    Adds (Confined source) (stringsOf Tree.strings parts) c (stringsOf Tree.strings more) next
  braces : ∀ parts, Returns (rules.braces parts) c fun more next =>
    Adds (Confined source) (stringsOf Tree.strings parts) c (stringsOf Tree.strings more) next
  part : ∀ blocks, Returns (part source rules blocks) c fun tree next =>
    Confined source c tree.strings next
  text : ∀ run, Returns (rules.text run) c fun pieces next =>
    Adds (Confined source) (stringsOf Tree.strings run.1) c (stringsOf Tree.strings pieces) next
  /-- A run of text is over in front of the closer of the argument around it. -/
  owned : ∀ run b, source[c.offset]? = some b → c.closes b = true →
    Meets (textTurn source rules run) c (fun turn next => (∃ pieces, turn = .exit pieces) ∧ next = c)
      fun _ => False
  /-- A bracket of the prose is closed in a run of text, on whatever line it was opened. -/
  prose : ∀ run kind rest, c.opened = kind :: rest → c.frame ≤ rest.length →
    source[c.offset]? = some kind.closer → Meets (textTurn source rules run) c
      (fun turn next => turn = .again run ∧ next = { c with offset := c.offset + 1, opened := rest })
      fun _ => False
  command : source[c.offset]? = some tilde → ∀ blocks,
    Returns (rules.command blocks) c fun tree next => SelfContained source c tree.strings next
  list : ∀ blocks args, Returns (rules.list blocks args) c fun more next =>
    Adds (SelfContained source) (stringsOf Argument.strings args) c (stringsOf Argument.strings more) next
  listed : source[c.offset]? = some Bracket.round.opener → ∀ blocks,
    Returns (listed source rules blocks) c fun args next =>
      SelfContained source c (args.flatMap Argument.strings) next
  bracketed : source[c.offset]? = some Bracket.square.opener →
    Returns (bracketed source rules) c fun arg next => SelfContained source c arg.strings next
  braced : source[c.offset]? = some Bracket.curly.opener →
    Returns (braced source rules) c fun arg next =>
      SelfContained source c arg.strings next ∧ next.opened = c.opened
  ident : Returns (ident source) c fun arg next =>
    SelfContained source c arg.strings next ∧ next.opened = c.opened
  string : Returns (string source) c fun arg next =>
    SelfContained source c arg.strings next ∧ next.opened = c.opened

section Rules

variable {source : Bytes} {rules : Rules} {c : Cursor} {b : UInt8}

/-- At a closer with only the argument around it open, a turn is the last one and leaves the closer
there. -/
theorem textTurn_of_closes (run : List Tree × Nat) (hb : source[c.offset]? = some b)
    (hcloses : c.closes b = true) : Meets (textTurn source rules run) c
      (fun turn next => (∃ pieces, turn = .exit pieces) ∧ next = c) fun _ => False := by
  have hcloser : (Bracket.ofCloser? b).isSome = true := (Bool.and_eq_true_iff.1 hcloses).1
  have htilde : b ≠ tilde := by
    rintro rfl
    cases hcloser
  have hline : b ≠ lineFeed := by
    rintro rfl
    cases hcloser
  -- A closer is neither a tilde nor a line feed, so the turn comes to ask whose closer it is.
  refine meets_here.2 (meets_peek.2 ?_)
  rw [hb]
  dsimp only
  rw [if_neg htilde, if_neg hline]
  refine meets_closesFrame.2 ?_
  rw [hcloses, if_pos rfl]
  exact meets_endText.2 (meets_pure.2 ⟨⟨_, rfl⟩, rfl⟩)

/-- Where a bracket of the prose is the innermost one, its closer is a byte of the text. The turn crosses
it and goes on with what it has. -/
theorem textTurn_of_prose (run : List Tree × Nat) {kind : Bracket} {rest : List Bracket}
    (hopened : c.opened = kind :: rest) (hframe : c.frame ≤ rest.length)
    (hb : source[c.offset]? = some kind.closer) : Meets (textTurn source rules run) c
      (fun turn next => turn = .again run ∧ next = { c with offset := c.offset + 1, opened := rest })
      fun _ => False := by
  have htilde : kind.closer ≠ tilde := by cases kind <;> decide
  have hline : kind.closer ≠ lineFeed := by cases kind <;> decide
  have hcloses : c.closes kind.closer = false := by
    have hheight : c.opened.length ≠ c.frame := by
      rw [hopened, List.length_cons]
      omega
    exact Bool.and_eq_false_iff.2 (.inr (beq_eq_false_iff_ne.2 hheight))
  have hcross : Reader.cross c.opened kind.closer = .ok rest := by
    rw [Reader.cross_eq_ok, hopened, Bracket.pass_closer, Bracket.pop_eq_some]
  refine meets_here.2 (meets_peek.2 ?_)
  rw [hb]
  dsimp only
  rw [if_neg htilde, if_neg hline]
  refine meets_closesFrame.2 ?_
  rw [hcloses, if_neg Bool.false_ne_true]
  refine meets_bind.2 ?_
  show Meets (bump source) c _ _
  rw [Meets, bump, hb]
  simp only [hcross]
  exact meets_pure.2 ⟨rfl, rfl⟩

/-- What is known of each rule for any lower part of the stack is used for the part below the frame. -/
theorem Rules.Take.isolated (h : rules.Take source) (hsound : c.Sound) : Isolated source rules c := by
  have hheight : c.below.length = c.frame := Cursor.length_below hsound.within
  constructor
  case document =>
    exact fun parts => (h.document parts _ c c.below_suffix hheight).imp fun _ _ hnext =>
      hnext.confined hsound
  case braces =>
    exact fun parts => (h.braces parts _ c c.below_suffix hheight).imp fun _ _ hnext =>
      hnext.1.confined hsound
  case part =>
    exact fun blocks => (part_returns h c.below_suffix hheight).imp fun _ _ hnext =>
      hnext.1.confined hsound
  case text =>
    exact fun run => (h.text run _ c c.below_suffix hheight).imp fun _ _ hnext =>
      hnext.1.confined hsound
  case owned => exact fun run b => textTurn_of_closes run
  case prose => exact fun run kind rest => textTurn_of_prose run
  case command =>
    exact fun hb blocks => (h.command blocks c hb).imp fun _ _ hnext => hnext.selfContained hsound
  case list =>
    exact fun blocks args => (h.list blocks args c).imp fun _ _ hnext => hnext.selfContained hsound
  case listed =>
    exact fun hb blocks => (listed_returns h hb).imp fun _ _ hnext => hnext.selfContained hsound
  case bracketed =>
    exact fun hb => (bracketed_returns h hb).imp fun _ _ hnext => hnext.selfContained hsound
  case braced =>
    exact fun hb => (braced_returns h hb).imp fun _ _ hnext => ⟨hnext.1.selfContained hsound, hnext.2⟩
  case ident => exact ident_returns.imp fun _ _ hnext => ⟨hnext.1.selfContained hsound, hnext.2⟩
  case string => exact string_returns.imp fun _ _ hnext => ⟨hnext.1.selfContained hsound, hnext.2⟩

end Rules

/-- The rules read what the reader reads, and come to an end where their calls may nest deep enough. From every
sound cursor on, each of them leaves a sound cursor with the same frames, if it returns. Text and blocks close
nothing up to the frame. Commands and arguments close nothing that was open, and leave the stack as it was
exactly if they are bracket words without their strings: arguments in braces always, and the others at least
if no line in them starts with the closer of square brackets. -/
theorem rules_isolated (source : Bytes) (depth : Nat) :
    (rules source depth).Agree source ∧ (rules source depth).Advance source depth
    ∧ Cursor.initial.Sound
    ∧ ∀ c : Cursor, c.Sound →
      (∀ kind ∈ [Bracket.square, Bracket.curly], (c.inside kind).Sound)
      ∧ Isolated source (rules source depth) c :=
  ⟨agree_rules source depth, advance_rules source depth, Cursor.sound_initial, fun _ hsound =>
    ⟨fun _ hkind => hsound.inside hkind, (take_rules source depth).isolated hsound⟩⟩

/-- Braces with the lines `(` and `)~i[y]` in them, `~a{(`, a line feed and `)~i[y]}`. -/
def isolatedSample : Bytes :=
  [tilde, 0x61, 0x7b, 0x28, lineFeed, 0x29, tilde, 0x69, 0x5b, 0x79, 0x5d, 0x7d]

/-- The start of the second line, where the bracket of the first line and that of the argument are open. -/
def isolatedCursor : Cursor := ⟨5, [.round, .curly], [1, 0]⟩

/-- The second line closes the bracket of the first, and leaves that of the argument alone. -/
theorem rules_isolated_sample :
    isolatedCursor.Sound ∧ Isolated isolatedSample (rules isolatedSample 12) isolatedCursor
    ∧ ∃ pieces next, (rules isolatedSample 12).text ([], 5) isolatedCursor = .ok (pieces, next)
      ∧ next.opened = [.curly]
      ∧ Adds (Confined isolatedSample) [] isolatedCursor (stringsOf Tree.strings pieces) next := by
  have hsound : isolatedCursor.Sound :=
    ⟨rfl, by decide, by decide, by decide⟩
  have hisolated := ((rules_isolated isolatedSample 12).2.2.2 isolatedCursor hsound).2
  refine ⟨hsound, hisolated, _, _, rfl, rfl, ?_⟩
  exact hisolated.text ([], 5)

/-- The command `~i[[`, a line feed and `]`, and a closer behind it. -/
def leftOpenSample : Bytes :=
  [tilde, 0x69, 0x5b, 0x5b, lineFeed, 0x5d, 0x29]

/-- Square brackets, and a command, that leave open what was not open in front of them: their closer takes
the bracket that the line before has left open. -/
theorem exists_command_leaves_open :
    Cursor.initial.Sound ∧ leftOpenSample[0]? = some tilde ∧ Cursor.initial.opened = []
    ∧ (∃ tree next, (rules leftOpenSample 14).command true Cursor.initial = .ok (tree, next)
      ∧ next.opened = [.square])
    ∧ leftOpenSample[2]? = some Bracket.square.opener
    ∧ ∃ arg next, bracketed leftOpenSample (rules leftOpenSample 14) ⟨2, [], [0]⟩ = .ok (arg, next)
      ∧ next.opened = [.square] :=
  ⟨Cursor.sound_initial, rfl, rfl, ⟨_, _, rfl, rfl⟩, rfl, _, _, rfl, rfl⟩

end Descent

end TildeMarkup
