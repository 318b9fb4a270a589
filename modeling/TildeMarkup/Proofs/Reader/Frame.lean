import TildeMarkup.Proofs.Document.Respan
import TildeMarkup.Proofs.Reader.Moves

/-!
# Readers in a frame

A reader may stand in another source than its own: its offsets are moved to where they are there, and
it may have brackets below its own, and blocks in front of its own (`Frame`). Every step that it takes
by itself it takes in the frame (`step_into`), where the offsets around it stay side by side
(`Frame.Admits`).

A fault is the same only where the frame leaves no bracket open: what is innermost below the
reader's own brackets is named in some faults, and turns others into a step. `Mirrors` puts both
sides together.
-/

namespace TildeMarkup

/-- An outcome goes over into another: results always, errors where they are `certain`. -/
def Mirrors {ε ε' α β : Type} (certain : Prop) (f : α → β) (g : ε → ε') :
    Except ε α → Except ε' β → Prop
  | .ok a, outcome => outcome = .ok (f a)
  | .error e, outcome => certain → outcome = .error (g e)

namespace Mirrors

variable {ε ε' α α' β β' : Type} {certain : Prop} {f : α → β} {f' : α' → β'} {g : ε → ε'}

/-- Two computations, each in two steps. -/
theorem bind {x : Except ε α} {y : Except ε' β} {k : α → Except ε α'} {k' : β → Except ε' β'}
    (h : Mirrors certain f g x y) (hk : ∀ a, Mirrors certain f' g (k a) (k' (f a))) :
    Mirrors certain f' g (x.bind k) (y.bind k') := by
  cases x with
  | error e =>
    intro hcertain
    have hy : y = .error (g e) := h hcertain
    rw [hy]
    rfl
  | ok a =>
    have hy : y = .ok (f a) := h
    rw [hy]
    exact hk a

/-- A choice on both sides, by tests that come to the same. -/
theorem ite {p q : Prop} [Decidable p] [Decidable q] {x x' : Except ε α} {y y' : Except ε' β}
    (hiff : p ↔ q) (h : Mirrors certain f g x y) (h' : Mirrors certain f g x' y') :
    Mirrors certain f g (if p then x else x') (if q then y else y') := by
  by_cases hp : p
  · rw [if_pos hp, if_pos (hiff.1 hp)]
    exact h
  · rw [if_neg hp, if_neg fun hq => hp (hiff.2 hq)]
    exact h'

theorem ok {a : α} {b : β} (h : f a = b) :
    Mirrors certain f g (.ok a : Except ε α) (.ok b : Except ε' β) :=
  congrArg Except.ok h.symm

theorem error (e : ε) : Mirrors certain f g (.error e) (.error (g e)) :=
  fun _ => rfl

/-- Errors may be put in other words, if that is done alike on both sides. -/
theorem mapError {δ δ' : Type} {x : Except ε α} {y : Except ε' β} {k : ε → δ} {k' : ε' → δ'}
    {g' : δ → δ'} (h : Mirrors certain f g x y) (hk : ∀ e, k' (g e) = g' (k e)) :
    Mirrors certain f g' (x.mapError k) (y.mapError k') := by
  cases x with
  | error e =>
    intro hcertain
    have hy : y = .error (g e) := h hcertain
    rw [hy]
    exact congrArg Except.error (hk e)
  | ok a =>
    have hy : y = .ok (f a) := h
    rw [hy]
    rfl

/-- What gives no result has to be followed only where errors are certain. -/
theorem of_error {x : Except ε α} {y : Except ε' β} {e : ε} (hx : x = .error e)
    (h : certain → Mirrors certain f g x y) : Mirrors certain f g x y := by
  subst hx
  exact fun hcertain => h hcertain hcertain

end Mirrors

/-- The span between where its two ends go. -/
def Span.map (f : Nat → Nat) (span : Span) : Span :=
  ⟨f span.start, f span.stop⟩

namespace Reader

/-- What a reader stands in: where its offsets are, the brackets that are open below its own, and the
blocks in front of its own, the newest first. -/
structure Frame where
  move : Nat → Nat
  opened : List Bracket
  blocks : List Tree

/-! ## A reader in a frame -/

/-- The place in front of a command, with what has been read there moved. -/
def Place.map (f : Nat → Nat) : Place → Place
  | .alone => .alone
  | .within pieces => .within (pieces.map (Tree.respan (Span.map f)))

/-- A call with its name, its arguments and all in front of it moved. -/
def Call.map (f : Nat → Nat) (call : Call) : Call :=
  ⟨call.place.map f, call.name.map f, call.listed, call.args.map (Argument.respanTree (Span.map f))⟩

/-- What a reader is at, with all offsets that it keeps in mind moved. -/
def Mode.map (f : Nat → Nat) : Mode → Mode
  | .ready => .ready
  | .text pieces start afterReturn =>
    .text (pieces.map (Tree.respan (Span.map f))) (f start) afterReturn
  | .name place start => .name (place.map f) (f start)
  | .head place span => .head (place.map f) (span.map f)
  | .list call fresh => .list (call.map f) fresh
  | .ident call start => .ident (call.map f) (f start)
  | .string call start escaped => .string (call.map f) (f start) escaped
  | .next call => .next (call.map f)

/-- A scope in a frame. Heights are counted from below the brackets of the frame, so they grow by
these. -/
def Scope.into (frame : Frame) : Scope → Scope
  | .document blocks =>
    .document (blocks.map (Tree.respan (Span.map frame.move)) ++ frame.blocks)
  | .braces outer call start depth blocks =>
    .braces (outer.into frame) (call.map frame.move) (frame.move start)
      (depth + frame.opened.length) (blocks.map (Tree.respan (Span.map frame.move)))
  | .brackets outer call start depth content =>
    .brackets (outer.into frame) (call.map frame.move) (frame.move start)
      (depth + frame.opened.length) (content.map (Tree.respan (Span.map frame.move)))

end Reader

/-- The reader in a frame, at the offset that its own is moved to and with the brackets of the frame below
its own. -/
def Reader.into (frame : Reader.Frame) (r : Reader) : Reader :=
  ⟨frame.move r.offset, r.opened ++ frame.opened, r.scope.into frame, r.mode.map frame.move⟩

namespace Reader

/-- The offsets around the reader stay side by side in the frame. -/
structure Frame.Admits (frame : Frame) (r : Reader) : Prop where
  rises : ∀ a b, frame.move a < frame.move b ↔ a < b
  next : frame.move (r.offset + 1) = frame.move r.offset + 1
  back : ∀ pieces start, r.mode = .text pieces start true →
    frame.move (r.offset - 1) = frame.move r.offset - 1

variable (frame : Frame)

/-- What a reader does, it does in the frame; a fault is the same where no bracket of the frame is
open. -/
abbrev Frame.Follows (frame : Frame) : Except Cause Reader → Except Cause Reader → Prop :=
  Mirrors (frame.opened = []) (Reader.into frame) id

/-- A run of text has bytes in the frame if it has bytes. -/
theorem addText_map {f : Nat → Nat} (hf : ∀ a b, f a < f b ↔ a < b) (pieces : List Tree)
    (start stop : Nat) :
    (addText pieces start stop).map (Tree.respan (Span.map f))
      = addText (pieces.map (Tree.respan (Span.map f))) (f start) (f stop) := by
  unfold addText
  by_cases h : start < stop
  · rw [if_pos h, if_pos ((hf start stop).2 h), List.map_cons, Tree.respan_node]
    rfl
  · rw [if_neg h, if_neg fun hlt => h ((hf start stop).1 hlt)]

/-- A part may be added in the frame or before. -/
theorem Scope.add_into (S : Scope) (part : Tree) :
    (S.add part).into frame = (S.into frame).add (part.respan (Span.map frame.move)) := by
  cases S <;> rfl

/-- So may a run, which is a paragraph or a group on both sides. -/
theorem Scope.addRun_into (S : Scope) (pieces : List Tree) :
    (S.addRun pieces).into frame
      = (S.into frame).addRun (pieces.map (Tree.respan (Span.map frame.move))) := by
  have hgroup : (Tree.node (.group pieces.reverse)).respan (Span.map frame.move)
      = .node (.group (pieces.map (Tree.respan (Span.map frame.move))).reverse) := by
    rw [Tree.respan_node, Node.map, List.map_reverse]
    rfl
  have hparagraph : (Tree.node (.paragraph pieces.reverse)).respan (Span.map frame.move)
      = .node (.paragraph (pieces.map (Tree.respan (Span.map frame.move))).reverse) := by
    rw [Tree.respan_node, Node.map, List.map_reverse]
    rfl
  -- Blocks take a run as a paragraph; square brackets take it as a group.
  have hcases : (S.allowsBlocks = true ∧ (S.into frame).allowsBlocks = true)
      ∨ ∃ outer call start depth content, S = .brackets outer call start depth content := by
    cases S with
    | brackets outer call start depth content => exact .inr ⟨_, _, _, _, _, rfl⟩
    | _ => exact .inl ⟨rfl, rfl⟩
  rcases hcases with ⟨hS, hinto⟩ | ⟨outer, call, start, depth, content, rfl⟩
  · rw [addRun_of_allowsBlocks hS, addRun_of_allowsBlocks hinto, ← hparagraph]
    exact add_into frame S _
  · show ((brackets outer call start depth content).add (.node (.group pieces.reverse))).into frame
      = _
    rw [add_into, hgroup]
    rfl

/-- Whether braces may follow does not depend on the frame. -/
theorem allowsBraces_into (r : Reader) (place : Place) :
    (r.into frame).allowsBraces (place.map frame.move) = r.allowsBraces place := by
  cases place with
  | within => rfl
  | alone =>
    show (r.scope.into frame).allowsBlocks = r.scope.allowsBlocks
    cases r.scope <;> rfl

theorem openBrackets_into (r : Reader) (call : Call) :
    (r.openBrackets call).into frame = (r.into frame).openBrackets (call.map frame.move) := by
  have hdepth : r.opened.length + 1 + frame.opened.length
      = (r.opened ++ frame.opened).length + 1 := by
    rw [List.length_append]
    omega
  show Reader.mk _ _ (.brackets _ _ _ (r.opened.length + 1 + frame.opened.length) none) _ = _
  rw [hdepth]
  rfl

theorem openBraces_into (r : Reader) (call : Call) :
    (r.openBraces call).into frame = (r.into frame).openBraces (call.map frame.move) := by
  have hdepth : r.opened.length + 1 + frame.opened.length
      = (r.opened ++ frame.opened).length + 1 := by
    rw [List.length_append]
    omega
  show Reader.mk _ _ (.braces _ _ _ (r.opened.length + 1 + frame.opened.length) _) _ = _
  rw [hdepth]
  rfl

section Next

variable {frame} {r : Reader} (hnext : frame.move (r.offset + 1) = frame.move r.offset + 1)

include hnext

/-- A command that is finished in the frame is the one that is finished outside, moved. -/
theorem finishCall_into (call : Call) :
    (r.finishCall call).into frame = (r.into frame).finishCall (call.map frame.move) := by
  obtain ⟨n, σ, S, m⟩ := r
  obtain ⟨place, name, listed, args⟩ := call
  have hcommand : (Tree.node (.command name args.reverse)).respan (Span.map frame.move)
      = .node (.command (name.map frame.move)
        (args.map (Argument.respanTree (Span.map frame.move))).reverse) := by
    rw [Tree.respan_command, List.map_reverse]
  cases place with
  | alone =>
    show Reader.mk _ _ ((S.add _).into frame) _ = Reader.mk _ _ ((S.into frame).add _) _
    rw [Scope.add_into, hcommand]
    rfl
  | within pieces =>
    show Reader.mk _ _ _ (.text (List.map _ (_ :: pieces)) (frame.move (n + 1)) false)
      = Reader.mk _ _ _ (.text (_ :: _) (frame.move n + 1) false)
    rw [List.map_cons, hcommand, ← hnext]
    rfl

theorem finishArgument_into (call : Call) (arg : Argument Tree) :
    (r.finishArgument call arg).into frame
      = (r.into frame).finishArgument (call.map frame.move)
        (arg.respanTree (Span.map frame.move)) := by
  obtain ⟨place, name, listed, args⟩ := call
  cases listed with
  | true => rfl
  | false => exact finishCall_into hnext ⟨place, name, false, arg :: args⟩

end Next

/-! ## Steps in a frame -/

/-- A byte that passes the reader's own brackets passes those in a frame. -/
theorem cross_into (σ base : List Bracket) (b : UInt8) :
    Mirrors (base = []) (· ++ base) id (cross σ b) (cross (σ ++ base) b) := by
  cases hcross : cross σ b with
  | ok next => exact cross_eq_ok.2 (Bracket.pass_lift (cross_eq_ok.1 hcross) base)
  | error cause =>
    intro hbase
    rw [hbase, List.append_nil, hcross]
    rfl

/-- The scope is the document. -/
def Scope.IsDocument (S : Scope) : Prop :=
  ∃ blocks, S = .document blocks

theorem endsScope_into {r : Reader} (b : UInt8) (h : ¬ r.scope.IsDocument ∨ frame.opened = []) :
    (r.into frame).endsScope b = r.endsScope b := by
  have hdepth : ((r.opened ++ frame.opened).length == (r.scope.into frame).depth)
      = (r.opened.length == r.scope.depth) := by
    rw [List.length_append, Bool.eq_iff_iff, beq_iff_eq, beq_iff_eq]
    -- Scopes other than the document count the frame in their depth as well.
    cases hS : r.scope with
    | document blocks =>
      have hopened : frame.opened = [] := h.resolve_left fun hnot => hnot ⟨blocks, hS⟩
      rw [hopened]
      exact Iff.rfl
    | braces outer call start depth blocks => exact Nat.add_right_cancel_iff
    | brackets outer call start depth content => exact Nat.add_right_cancel_iff
  show ((Bracket.ofCloser? b).isSome
    && ((r.opened ++ frame.opened).length == (r.scope.into frame).depth)) = _
  rw [hdepth]
  rfl

theorem endsScope_into_eq_false {r : Reader} {b : UInt8} (h : r.endsScope b = false) :
    (r.into frame).endsScope b = false := by
  -- The document has depth zero, which more brackets below cannot reach.
  by_cases hS : r.scope.IsDocument
  · obtain ⟨blocks, hS⟩ := hS
    rw [endsScope, hS, Bool.and_eq_false_iff] at h
    rw [endsScope, Bool.and_eq_false_iff]
    refine h.imp_right fun hopened => ?_
    show ((r.opened ++ frame.opened).length == (r.scope.into frame).depth) = false
    rw [hS]
    rw [beq_eq_false_iff_ne] at hopened ⊢
    intro heq
    rw [List.length_append] at heq
    exact hopened (Nat.eq_zero_of_add_eq_zero_right heq)
  · rw [endsScope_into frame b (.inl hS)]
    exact h

theorem endRun_into (r : Reader) (pieces : List Tree) :
    (r.endRun pieces).into frame
      = (r.into frame).endRun (pieces.map (Tree.respan (Span.map frame.move))) := by
  show Reader.mk _ _ ((r.scope.addRun pieces).into frame) _ = _
  rw [Scope.addRun_into]
  rfl

theorem isDocument_endRun {r : Reader} {pieces : List Tree} (h : r.scope.IsDocument) :
    (r.endRun pieces).scope.IsDocument := by
  obtain ⟨blocks, hS⟩ := h
  refine ⟨.node (.paragraph pieces.reverse) :: blocks, ?_⟩
  show r.scope.addRun pieces = _
  rw [hS]
  rfl

section Next

variable {frame} {r : Reader} (hnext : frame.move (r.offset + 1) = frame.move r.offset + 1)

include hnext

theorem closeList_into (call : Call) (b : UInt8) :
    frame.Follows (r.closeList call b) ((r.into frame).closeList (call.map frame.move) b) := by
  refine (cross_into r.opened frame.opened b).bind fun opened => ?_
  exact .ok (finishCall_into (r := { r with opened }) hnext call)

theorem closeScope_into (b : UInt8) :
    frame.Follows (r.closeScope b) ((r.into frame).closeScope b) := by
  obtain ⟨n, σ, S, m⟩ := r
  have hstop (start : Nat) : Span.map frame.move ⟨start, n + 1⟩
      = ⟨frame.move start, frame.move n + 1⟩ := by
    rw [Span.map, ← hnext]
  cases S with
  | document blocks => exact .error _
  | braces outer call start depth blocks =>
    refine .ite Iff.rfl ((cross_into σ frame.opened b).bind fun opened => ?_) (.error _)
    have hfinish := finishArgument_into (r := ⟨n, opened, outer, m⟩) hnext call
      (.block blocks.reverse ⟨start, n + 1⟩)
    rw [Argument.respanTree, Argument.map, List.map_reverse, Argument.respan, hstop] at hfinish
    exact .ok hfinish
  | brackets outer call start depth content =>
    refine .ite Iff.rfl ((cross_into σ frame.opened b).bind fun opened => ?_) (.error _)
    have hcontent : (content.getD (.node (.group []))).respan (Span.map frame.move)
        = (content.map (Tree.respan (Span.map frame.move))).getD (.node (.group [])) := by
      cases content with
      | none => exact Tree.respan_node _ _
      | some part => rfl
    have hfinish := finishArgument_into (r := ⟨n, opened, outer, m⟩) hnext call
      (.inline (content.getD (.node (.group []))) ⟨start, n + 1⟩)
    rw [Argument.respanTree, Argument.map, hcontent, Argument.respan, hstop] at hfinish
    exact .ok hfinish

/-- A closer of the scope is one in a frame; the document has none, with or without a frame. -/
theorem ite_endsScope_into {other : Reader} {b : UInt8} {x y : Except Cause Reader}
    (hother : other.offset = r.offset) (hscope : r.scope.IsDocument → other.scope.IsDocument)
    (h : frame.Follows x y) :
    frame.Follows (if r.endsScope b then other.closeScope b else x)
      (if (r.into frame).endsScope b then (other.into frame).closeScope b else y) := by
  rw [← hother] at hnext
  cases hends : r.endsScope b with
  | false =>
    rw [endsScope_into_eq_false frame hends]
    exact h
  | true =>
    have hclose : r.scope.IsDocument ∨ ¬ r.scope.IsDocument := Classical.em _
    rcases hclose with hS | hS
    · obtain ⟨blocks, hblocks⟩ := hscope hS
      have herror : other.closeScope b = .error (.unbalanced none [b]) := by
        rw [closeScope, hblocks]
      -- By itself the closer is refused. Over brackets of the frame it would be read on, but then
      -- nothing is said of errors.
      refine .of_error herror fun hopened => ?_
      rw [endsScope_into frame b (.inr hopened), hends]
      exact closeScope_into hnext b
    · rw [endsScope_into frame b (.inl hS), hends]
      exact closeScope_into hnext b

/-- A byte of a run. The text may stop one byte further to the front, so that offset has to be beside this
one too. -/
theorem inText_into (hrises : ∀ a b, frame.move a < frame.move b ↔ a < b) (pieces : List Tree)
    (start : Nat) {afterReturn : Bool} (b : UInt8)
    (hback : afterReturn = true → frame.move (r.offset - 1) = frame.move r.offset - 1) :
    frame.Follows (r.inText pieces start afterReturn b)
      ((r.into frame).inText (pieces.map (Tree.respan (Span.map frame.move))) (frame.move start)
        afterReturn b) := by
  have htext (stop : Nat) := addText_map hrises pieces start stop
  have hstop : (if afterReturn then frame.move r.offset - 1 else frame.move r.offset)
      = frame.move (if afterReturn then r.offset - 1 else r.offset) := by
    cases afterReturn with
    | false => rfl
    | true => exact (hback rfl).symm
  refine .ite Iff.rfl ?tilde (.ite Iff.rfl ?lineFeed ?rest)
  case tilde =>
    refine .ok (Eq.symm ?_)
    show Reader.mk _ _ _ (.name (.within (addText _ _ (frame.move r.offset)))
        (frame.move r.offset + 1))
      = Reader.mk _ _ _ (.name (.within (List.map _ (addText pieces start r.offset)))
        (frame.move (r.offset + 1)))
    rw [htext, hnext]
    rfl
  case lineFeed =>
    refine .ok (Eq.symm ?_)
    rw [endRun_into, htext, ← hstop]
    rfl
  case rest =>
    have hend : (r.endRun (addText pieces start r.offset)).into frame
        = (r.into frame).endRun (addText (pieces.map (Tree.respan (Span.map frame.move)))
          (frame.move start) (r.into frame).offset) := by
      rw [endRun_into, htext]
      rfl
    rw [← hend]
    refine ite_endsScope_into hnext rfl isDocument_endRun ?_
    exact (cross_into r.opened frame.opened b).bind fun opened => rfl

/-- A byte between parts. What starts here starts at the offset of the reader on both sides. -/
theorem inReady_into (hrises : ∀ a b, frame.move a < frame.move b ↔ a < b) (b : UInt8) :
    frame.Follows (r.inReady b) ((r.into frame).inReady b) := by
  have htilde : frame.Follows (.ok { r with mode := .name .alone (r.offset + 1) })
      (.ok { r.into frame with mode := .name .alone ((r.into frame).offset + 1) }) := by
    refine .ok ?_
    show Reader.mk _ _ _ (.name _ (frame.move (r.offset + 1))) = _
    rw [hnext]
    rfl
  have hfalse : false = true → frame.move (r.offset - 1) = frame.move r.offset - 1 :=
    fun h => by cases h
  have htext := inText_into hnext hrises [] r.offset b hfalse
  have hclose := closeScope_into hnext b
  obtain ⟨n, σ, S, m⟩ := r
  cases S with
  | document blocks =>
    exact .ite Iff.rfl rfl (.ite Iff.rfl htilde (ite_endsScope_into hnext rfl id htext))
  | braces outer call start depth blocks =>
    exact .ite Iff.rfl rfl (.ite Iff.rfl htilde (ite_endsScope_into hnext rfl id htext))
  | brackets outer call start depth content =>
    cases content with
    | some part => exact hclose
    | none => exact .ite Iff.rfl htilde htext

theorem inList_into (call : Call) (b : UInt8) :
    frame.Follows (r.inList call b) ((r.into frame).inList (call.map frame.move) b) := by
  have hallows := allowsBraces_into frame r call.place
  refine .ite Iff.rfl rfl (.ite Iff.rfl (closeList_into hnext call b) (.ite Iff.rfl ?_ (.ite ?_ ?_
    (.ite Iff.rfl rfl (.ite Iff.rfl rfl (.error _))))))
  · exact .ok (openBrackets_into frame r call)
  · show _ ↔ (_ && (r.into frame).allowsBraces (call.place.map frame.move)) = true
    rw [hallows]
  · exact .ok (openBraces_into frame r call)

theorem inNext_into (call : Call) (b : UInt8) :
    frame.Follows (r.inNext call b) ((r.into frame).inNext (call.map frame.move) b) :=
  .ite Iff.rfl rfl (.ite Iff.rfl (closeList_into hnext call b) (.ite Iff.rfl rfl (.error _)))

end Next

theorem inHead_into (r : Reader) (place : Place) (name : Span) (b : UInt8) :
    frame.Follows (r.inHead place name b)
      ((r.into frame).inHead (place.map frame.move) (name.map frame.move) b) := by
  have hallows := allowsBraces_into frame r place
  refine .ite Iff.rfl rfl (.ite Iff.rfl rfl (.ite Iff.rfl ?_ (.ite ?_ ?_ (.error _))))
  · exact .ok (openBrackets_into frame r ⟨place, name, false, []⟩)
  · rw [hallows]
  · exact .ok (openBraces_into frame r ⟨place, name, false, []⟩)

variable {frame}

/-- Each thing that a reader may be at, with the byte it takes. -/
theorem take_into {r : Reader} (hr : frame.Admits r) (b : UInt8) :
    frame.Follows (r.take b) ((r.into frame).take b) := by
  obtain ⟨hrises, hnext, hback⟩ := hr
  obtain ⟨n, σ, S, m⟩ := r
  cases m with
  | ready => exact inReady_into hnext hrises b
  | text pieces start afterReturn =>
    refine inText_into hnext hrises pieces start b fun h => hback pieces start ?_
    rw [h]
  | name place start =>
    exact .ite Iff.rfl rfl (inHead_into frame ⟨n, σ, S, .name place start⟩ place ⟨start, n⟩ b)
  | head place name => exact inHead_into frame ⟨n, σ, S, .head place name⟩ place name b
  | list call fresh => exact inList_into hnext call b
  | ident call start =>
    exact .ite Iff.rfl rfl (inNext_into hnext { call with args := .ident ⟨start, n⟩ :: call.args } b)
  | string call start escaped =>
    refine .ite Iff.rfl (.ok ?_) rfl
    rw [finishArgument_into hnext]
    show Reader.finishArgument _ _ (.string ⟨frame.move start, frame.move (n + 1)⟩) = _
    rw [show frame.move (n + 1) = frame.move n + 1 from hnext]
    rfl
  | next call => exact inNext_into hnext call b

/-- What a reader does with a byte, it does in a frame. -/
theorem step_into {r : Reader} (hr : frame.Admits r) (b : UInt8) :
    Mirrors (frame.opened = []) (Reader.into frame) (Fault.respan (Span.map frame.move))
      (r.step b) ((r.into frame).step b) := by
  have htake := take_into hr b
  unfold step
  -- A byte that is taken is taken in the frame. One that is refused is so for the same cause, if the frame
  -- leaves nothing open.
  cases h : r.take b with
  | ok next =>
    rw [h] at htake
    have hinto : (r.into frame).take b = .ok (next.into frame) := htake
    rw [hinto]
    refine .ok ?_
    show Reader.mk (frame.move (r.offset + 1)) _ _ _ = _
    rw [hr.next]
    rfl
  | error cause =>
    rw [h] at htake
    intro hopened
    have hinto : (r.into frame).take b = .error cause := htake hopened
    rw [hinto]
    show Except.error (Fault.mk _ ⟨_, frame.move r.offset + 1⟩)
      = Except.error (Fault.mk _ ⟨_, frame.move (r.offset + 1)⟩)
    rw [hr.next]
    rfl

/-! ## The end of the source -/

/-- The document with the blocks of a frame in front. -/
def Frame.extend (frame : Frame) (tree : Tree) : Tree :=
  match tree with
  | .node layer =>
    .node (.group (frame.blocks.reverse
      ++ layer.children.map (Tree.respan (Span.map frame.move))))

theorem finishScope_into (S : Scope) :
    Mirrors (frame.opened = []) frame.extend id (finishScope S)
      (finishScope (S.into frame)) := by
  cases S with
  | document blocks =>
    refine .ok ?_
    show Tree.node (.group (frame.blocks.reverse ++ blocks.reverse.map _)) = .node (.group _)
    rw [List.reverse_append, List.map_reverse]
  | braces => exact .error _
  | brackets => exact .error _

/-- The end of the source is the end in the frame. -/
theorem finish_into (hrises : ∀ a b, frame.move a < frame.move b ↔ a < b) (r : Reader) :
    Mirrors (frame.opened = []) frame.extend (Fault.respan (Span.map frame.move)) r.finish
      (r.into frame).finish := by
  obtain ⟨n, σ, S, m⟩ := r
  cases m with
  | ready => exact (finishScope_into S).mapError fun _ => rfl
  | text pieces start afterReturn =>
    have hscope : Mirrors _ frame.extend _ _ _ := finishScope_into (S.addRun (addText pieces start n))
    rw [Scope.addRun_into, addText_map hrises] at hscope
    exact hscope.mapError fun _ => rfl
  | _ => exact fun _ => rfl

end Reader

end TildeMarkup
