import TildeMarkup.Proofs.Composition
import TildeMarkup.Proofs.LineEnds.Basic

/-!
# Reading with carriage returns

A source without carriage returns, and the same source with one in front of every line feed. Both are
read in lockstep: after the same lines a reader of the second is a reader of the first with its offsets
moved (`run_crlf`). So both parse, to the same nodes, or neither does (`parse_crlf`).
-/

namespace TildeMarkup

section Outcome

variable {ε ε' α α' β β' : Type} {f : α → β} {f' : α' → β'}

/-- One computation mirrors another: without the faults, their results are the same. -/
theorem Mirrors.toOption_eq {certain : Prop} {g : ε → ε'} {x : Except ε α} {y : Except ε' β}
    (h : Mirrors certain f g x y) (hcertain : certain) : y.toOption = x.toOption.map f := by
  cases x with
  | ok a => rw [show y = .ok (f a) from h]; rfl
  | error e => rw [show y = .error (g e) from h hcertain]; rfl

/-- Two steps after each other, if the results of each belong together. -/
theorem toOption_bind {x : Except ε α} {y : Except ε' β} {k : α → Except ε α'}
    {k' : β → Except ε' β'} (h : y.toOption = x.toOption.map f)
    (hk : ∀ a, x = .ok a → (k' (f a)).toOption = (k a).toOption.map f') :
    (y.bind k').toOption = (x.bind k).toOption.map f' := by
  cases x with
  | ok a =>
    cases y with
    | ok b => cases h; exact hk a rfl
    | error e => cases h
  | error e =>
    cases y with
    | ok b => cases h
    | error e' => rfl

end Outcome

namespace Reader

variable {frame : Frame}

theorem run_byte (r : Reader) (b : UInt8) : r.run [b] = r.step b := by
  rw [run_cons]
  cases r.step b <;> rfl

/-- A line feed, or a carriage return and a line feed, if the frame has one more offset there. -/
theorem run_lineEnd (hrises : ∀ a b, frame.move a < frame.move b ↔ a < b) {r : Reader}
    (hnext : frame.move (r.offset + 1) = frame.move r.offset + 2)
    (hmode : ∀ pieces start, r.mode ≠ .text pieces start true) :
    ((r.into frame).run [carriageReturn, lineFeed]).toOption
      = (r.step lineFeed).toOption.map (Reader.into frame) := by
  obtain ⟨n, σ, S, m⟩ := r
  -- the reader has gone on by two offsets instead of one
  have hclose {T : Scope} {other : Mode}
      (hstep : (Reader.mk n σ S m).step lineFeed = .ok ⟨n + 1, σ, T, other⟩)
      (hrun : ((Reader.mk n σ S m).into frame).run [carriageReturn, lineFeed]
        = .ok ⟨frame.move n + 2, σ ++ frame.opened, T.into frame, other.map frame.move⟩) :
      (((Reader.mk n σ S m).into frame).run [carriageReturn, lineFeed]).toOption
        = ((Reader.mk n σ S m).step lineFeed).toOption.map (Reader.into frame) := by
    rw [hstep, hrun, ← show frame.move (n + 1) = frame.move n + 2 from hnext]
    rfl
  -- a run of text ends before the carriage return
  have hend (pieces : List Tree) (start : Nat) :
      (S.into frame).addRun (addText (pieces.map (Tree.respan (Span.map frame.move)))
          (frame.move start) (frame.move n + 1 - 1))
        = (S.addRun (addText pieces start n)).into frame := by
    rw [Nat.add_sub_cancel, Scope.addRun_into, addText_map hrises]
  -- Only in a run of text, or where one would start, does a line end do anything.
  cases m with
  | ready =>
    cases S with
    | document blocks => exact hclose rfl rfl
    | braces outer call start depth blocks => exact hclose rfl rfl
    | brackets outer call start depth content =>
      cases content with
      | some part => rfl
      | none => exact hclose rfl (congrArg (fun T => Except.ok (Reader.mk _ _ T .ready)) (hend [] n))
  | text pieces start afterReturn =>
    cases afterReturn with
    | true => exact absurd rfl (hmode pieces start)
    | false =>
      exact hclose rfl (congrArg (fun T => Except.ok (Reader.mk _ _ T .ready)) (hend pieces start))
  | _ => exact hclose rfl rfl

/-- Where a source with carriage returns stands for a reader of the source without. -/
def crlfFrame (source : Bytes) : Frame :=
  ⟨crlfOffset source, [], []⟩

/-- Both sources are read in lockstep, from any offset on. -/
theorem run_crlf {source : Bytes} (hreturn : carriageReturn ∉ source) {done rest : Bytes} {r : Reader}
    (hsource : source = done ++ rest) (hrun : initial.run done = .ok r) :
    ((r.into (crlfFrame source)).run (crlf rest)).toOption
      = (r.run rest).toOption.map (Reader.into (crlfFrame source)) := by
  induction rest generalizing done r with
  | nil => rfl
  | cons b rest ih =>
    -- By induction on what is left; `done` is kept to know where the reader stands.
    have hoffset := offset_of_initial hrun
    have hb : source[r.offset]? = some b := by
      rw [hsource, hoffset, List.getElem?_append_right (Nat.le_refl _), Nat.sub_self]
      rfl
    have hnext := crlfOffset_succ hb
    have hmode (pieces : List Tree) (start : Nat) : r.mode ≠ .text pieces start true := by
      intro hmode
      have hlast := getLast?_of_afterReturn hrun hmode
      exact hreturn (hsource ▸ List.mem_append_left _ (List.mem_of_getLast? hlast))
    -- the byte at hand, with a carriage return in front if it is a line feed
    have hstep : ((r.into (crlfFrame source)).run (crlf [b])).toOption
        = (r.step b).toOption.map (Reader.into (crlfFrame source)) := by
      by_cases hfeed : b = lineFeed
      · rw [if_pos hfeed] at hnext
        rw [hfeed]
        exact run_lineEnd (crlfOffset_lt_iff source) hnext hmode
      · rw [if_neg hfeed] at hnext
        have hadmits : (crlfFrame source).Admits r :=
          ⟨crlfOffset_lt_iff source, hnext, fun pieces start h => absurd h (hmode pieces start)⟩
        have hsingle : crlf [b] = [b] := withReturns_cons hfeed []
        rw [hsingle, run_byte]
        exact (step_into hadmits b).toOption_eq rfl
    have hsplit : crlf (b :: rest) = crlf [b] ++ crlf rest := withReturns_append [b] rest
    rw [hsplit, run_append, run_cons]
    have hdone : source = (done ++ [b]) ++ rest :=
      hsource.trans (List.append_assoc done [b] rest).symm
    refine toOption_bind hstep fun next hr => ih hdone ?_
    rw [run_append, hrun]
    exact (run_byte r b).trans hr

end Reader

open Reader

/-- Line ends with and without a carriage return: both sources parse to the same nodes, or neither
parses. -/
theorem parse_crlf {source : Bytes} (hreturn : carriageReturn ∉ source) :
    (Tree.parse (crlf source)).toOption
      = (Tree.parse source).toOption.map (Tree.respan (Span.map (crlfOffset source))) := by
  have hrun : (initial.run (crlf source)).toOption
      = (initial.run source).toOption.map (Reader.into (crlfFrame source)) :=
    run_crlf hreturn (List.nil_append source).symm rfl
  refine toOption_bind hrun fun last hlast => ?_
  have hfinish : Mirrors _ (crlfFrame source).extend _ _ _ := finish_into (crlfOffset_lt_iff source) last
  rw [hfinish.toOption_eq rfl]
  cases htree : last.finish with
  | error fault => rfl
  | ok tree =>
    have hparse : Tree.parse source = .ok tree := by
      show (initial.run source).bind finish = _
      rw [hlast]
      exact htree
    obtain ⟨children, rfl⟩ := exists_group_of_parse hparse
    show some _ = some ((Tree.node (.group children)).respan _)
    rw [Tree.respan_node]
    rfl

end TildeMarkup
