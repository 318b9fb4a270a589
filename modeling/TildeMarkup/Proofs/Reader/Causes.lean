import TildeMarkup.Proofs.Balance
import TildeMarkup.Proofs.Reader.Moves

/-!
# What a reader says of a byte

A byte that is refused is named in the cause: as what was found, and never as what was wanted
(`Cause.Names`). There is a lemma for each function that a step is made of (`refuses_take` puts them
together). At the end of a source nothing is found (`names_of_finish`).

So a source that is refused is refused at one byte of it, behind bytes that the reader takes, or at its
end (`refused_cases`).
-/

namespace TildeMarkup

namespace Cause

/-- What a cause of reading says was found. A fault of rendering finds nothing. -/
def found? : Cause → Option Bytes
  | expected _ found => some found
  | expectedArguments found => some found
  | unbalanced _ found => some found
  | _ => none

/-- What a cause says was wanted instead, if it was a single thing. -/
def wanted? : Cause → Option Bytes
  | expected wanted _ => some wanted
  | unbalanced wanted _ => wanted
  | _ => none

/-- The cause is one of reading: it says that these bytes were found, and wants another single one. -/
structure Names (cause : Cause) (bytes : Bytes) : Prop where
  stage : cause.stage = .reading
  found : cause.found? = some bytes
  wanted : ∀ other, cause.wanted? = some other → other ≠ bytes
  single : ∀ other, cause.wanted? = some other → ∃ e, other = [e]

theorem names_expected {e : UInt8} {found : Bytes} (h : [e] ≠ found) :
    (expected [e] found).Names found where
  stage := rfl
  found := rfl
  wanted other hother := by
    cases hother
    exact h
  single other hother := ⟨e, (Option.some.inj hother).symm⟩

theorem names_expectedArguments (found : Bytes) : (expectedArguments found).Names found where
  stage := rfl
  found := rfl
  wanted _ hother := nomatch hother
  single _ hother := nomatch hother

/-- An unbalanced closer is named, and another one may be wanted. -/
theorem names_unbalanced {wanted : Option Bytes} {found : Bytes} (h : wanted ≠ some found)
    (hsingle : ∀ other, wanted = some other → ∃ e, other = [e]) :
    (unbalanced wanted found).Names found where
  stage := rfl
  found := rfl
  wanted other hother := by
    have hsome : wanted = some other := hother
    rintro rfl
    exact h hsome
  single := hsingle

end Cause

namespace Reader

/-! ## Each function of a step -/

/-- If the byte is refused, the cause names it. -/
def Refuses (b : UInt8) : Except Cause Reader → Prop
  | .ok _ => True
  | .error cause => cause.Names [b]

section Byte

variable {b : UInt8}

/-- A test on the byte: each outcome is known with what the test has said. -/
theorem refuses_ite {p : Prop} [Decidable p] {x y : Except Cause Reader}
    (hx : p → Refuses b x) (hy : ¬ p → Refuses b y) : Refuses b (if p then x else y) := by
  by_cases h : p
  · rw [if_pos h]
    exact hx h
  · rw [if_neg h]
    exact hy h

/-- Another byte is wanted than the one that is tested. -/
theorem refuses_expected {wanted : UInt8} (h : ¬ (b == wanted) = true) :
    Refuses b (.error (.expected [wanted] [b])) := by
  apply Cause.names_expected
  intro heq
  injection heq with hsame _
  rw [hsame, beq_self_eq_true] at h
  exact h rfl

/-- A byte that does not go through is refused for the closer of what is innermost. -/
theorem eq_unbalanced_of_cross {opened : List Bracket} {cause : Cause}
    (h : cross opened b = .error cause) :
    cause = .unbalanced (opened.head?.map fun top => [top.closer]) [b] := by
  unfold cross at h
  split at h
  · cases h
  · cases h
  · split at h
    · cases h
      rfl
    · split at h
      · cases h
      · cases h
        rfl

/-- The closer that is wanted in place of another is that of another kind. -/
theorem refuses_cross (opened : List Bracket) (next : List Bracket → Reader) :
    Refuses b (do let after ← cross opened b; return next after) := by
  -- Only a closer is not crossed, and then either nothing is open or something of another kind.
  cases hcross : cross opened b with
  | ok after => trivial
  | error cause =>
    show cause.Names [b]
    unfold cross at hcross
    split at hcross
    · cases hcross
    · cases hcross
    · next kind _ hcloser =>
      have hb := Bracket.eq_closer_of_ofCloser? hcloser
      split at hcross
      · cases hcross
        exact Cause.names_unbalanced nofun nofun
      · next top rest =>
        split at hcross
        · cases hcross
        · next hne =>
          cases hcross
          refine Cause.names_unbalanced ?_ fun _ hother => ⟨_, (Option.some.inj hother).symm⟩
          intro heq
          injection heq with hclosers
          injection hclosers with hsame _
          rw [hb] at hsame
          exact hne (Bracket.closer_injective hsame)

end Byte

section Step

variable {r : Reader} {b : UInt8}

theorem refuses_closeList (call : Call) : Refuses b (r.closeList call b) :=
  refuses_cross r.opened fun after => ({ r with opened := after } : Reader).finishCall call

theorem refuses_closeScope : Refuses b (r.closeScope b) := by
  unfold closeScope
  split
  · exact Cause.names_unbalanced nofun nofun
  · next outer call start depth blocks _ =>
    exact refuses_ite (fun _ => refuses_cross _ _) refuses_expected
  · next outer call start depth content _ =>
    exact refuses_ite (fun _ => refuses_cross _ _) refuses_expected

theorem refuses_inText (pieces : List Tree) (start : Nat) (afterReturn : Bool) :
    Refuses b (r.inText pieces start afterReturn b) := by
  refine refuses_ite (fun _ => trivial) fun _ => ?_
  refine refuses_ite (fun _ => trivial) fun _ => ?_
  refine refuses_ite (fun _ => refuses_closeScope) fun _ => ?_
  exact refuses_cross _ _

theorem refuses_inReady : Refuses b (r.inReady b) := by
  unfold inReady
  split
  · exact refuses_closeScope
  · exact refuses_ite (fun _ => trivial) fun _ => refuses_inText [] r.offset false
  · refine refuses_ite (fun _ => trivial) fun _ => ?_
    refine refuses_ite (fun _ => trivial) fun _ => ?_
    exact refuses_ite (fun _ => refuses_closeScope) fun _ => refuses_inText [] r.offset false

theorem refuses_inHead (place : Place) (name : Span) : Refuses b (r.inHead place name b) := by
  refine refuses_ite (fun _ => trivial) fun _ => ?_
  refine refuses_ite (fun _ => trivial) fun _ => ?_
  refine refuses_ite (fun _ => trivial) fun _ => ?_
  exact refuses_ite (fun _ => trivial) fun _ => Cause.names_expectedArguments [b]

theorem refuses_inList (call : Call) : Refuses b (r.inList call b) := by
  refine refuses_ite (fun _ => trivial) fun _ => ?_
  refine refuses_ite (fun _ => refuses_closeList call) fun _ => ?_
  refine refuses_ite (fun _ => trivial) fun _ => ?_
  refine refuses_ite (fun _ => trivial) fun _ => ?_
  refine refuses_ite (fun _ => trivial) fun _ => ?_
  exact refuses_ite (fun _ => trivial) fun _ => Cause.names_expectedArguments [b]

/-- A comma is wanted only where there is none. -/
theorem refuses_inNext (call : Call) : Refuses b (r.inNext call b) := by
  refine refuses_ite (fun _ => trivial) fun _ => ?_
  refine refuses_ite (fun _ => refuses_closeList call) fun _ => ?_
  exact refuses_ite (fun _ => trivial) refuses_expected

/-- Whatever the reader is at, a byte that it refuses is named. -/
theorem refuses_take : Refuses b (r.take b) := by
  unfold take
  -- One case for each mode. Those that take every byte refuse none.
  split
  · exact refuses_inReady
  · exact refuses_inText _ _ _
  · exact refuses_ite (fun _ => trivial) fun _ => refuses_inHead _ _
  · exact refuses_inHead _ _
  · exact refuses_inList _
  · exact refuses_ite (fun _ => trivial) fun _ => refuses_inNext _
  · exact refuses_ite (fun _ => trivial) fun _ => trivial
  · exact refuses_inNext _

end Step

/-! ## A source that is refused -/

/-- So is the byte of a step that fails. -/
theorem names_of_step {r : Reader} {b : UInt8} {fault : Fault} (h : r.step b = .error fault) :
    fault.cause.Names [b] := by
  have hrefuses : Refuses b (r.take b) := refuses_take
  unfold step at h
  cases htake : r.take b with
  | ok next =>
    rw [htake] at h
    cases h
  | error cause =>
    rw [htake] at h hrefuses
    cases h
    exact hrefuses

/-- At the end of a source nothing is found, and a byte is wanted. -/
theorem names_finishScope {scope : Scope} {cause : Cause} (h : finishScope scope = .error cause) :
    cause.Names [] := by
  cases scope with
  | document => cases h
  | braces => cases h; exact Cause.names_expected nofun
  | brackets => cases h; exact Cause.names_expected nofun

/-- Nothing is found at the end, and what is wanted depends on where the reader stands. -/
theorem names_of_finish {r : Reader} {fault : Fault} (h : r.finish = .error fault) :
    fault.cause.Names [] := by
  obtain ⟨cause, hcause, rfl⟩ := error_of_mapError h
  show cause.Names []
  -- At the end of a source each mode names what it still waits for, and that nothing was found.
  split at hcause
  · exact names_finishScope hcause
  · exact names_finishScope hcause
  · cases hcause; exact Cause.names_expectedArguments []
  · cases hcause; exact Cause.names_expectedArguments []
  · next fresh _ =>
    cases hcause
    cases fresh with
    | true => exact Cause.names_expected nofun
    | false => exact Cause.names_expectedArguments []
  · cases hcause; exact Cause.names_expected nofun
  · cases hcause; exact Cause.names_expected nofun
  · cases hcause; exact Cause.names_expected nofun

end Reader

/-- A source is refused at a byte, behind bytes that the reader takes, or at its end. -/
theorem refused_cases {source : Bytes} {fault : Fault} (h : parse source = .error fault) :
    (∃ before b after r, source = before ++ b :: after ∧ Reader.initial.run before = .ok r
      ∧ r.step b = .error fault)
    ∨ ∃ r, Reader.initial.run source = .ok r ∧ r.finish = .error fault := by
  -- The reader stops within the source, or it comes to the end and may not stop there.
  cases hrun : Reader.initial.run source with
  | error found =>
    rw [parse, Tree.parse, hrun] at h
    cases h
    exact .inl (Reader.refused_of_run hrun)
  | ok r =>
    refine .inr ⟨r, rfl, ?_⟩
    rw [parse, Tree.parse, hrun] at h
    cases hfinish : r.finish with
    | ok tree =>
      simp only [bind, Except.bind, hfinish] at h
      cases h
    | error found =>
      simp only [bind, Except.bind, hfinish] at h
      cases h
      rfl

end TildeMarkup
