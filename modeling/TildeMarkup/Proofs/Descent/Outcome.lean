import TildeMarkup.Proofs.Descent.Progress
import TildeMarkup.Proofs.Reader.Moves

/-!
# Rules beside the reader

What comes of a reader is what the reading of the rest of the source ends in (`Reader.outcome`). A rule goes
along with the reader if its result and its cursor are told from there, and if it stops for a fault only
where that is the outcome (`Agrees`). The smallest rules do: a byte that is refused, crossed, expected or
passed.
-/

namespace TildeMarkup

namespace Reader

variable {source : Bytes} {r other : Reader} {b : UInt8}

/-- What comes of a reader of the source, which has taken the bytes in front of its offset. -/
def outcome (source : Bytes) (r : Reader) : Except Fault Tree :=
  (r.run (source.drop r.offset)).bind finish

theorem outcome_of_end (h : source[r.offset]? = none) : r.outcome source = r.finish := by
  rw [outcome, List.drop_eq_nil_of_le (List.getElem?_eq_none_iff.1 h)]
  rfl

theorem drop_of_getElem? {n : Nat} (h : source[n]? = some b) : source.drop n = b :: source.drop (n + 1) := by
  obtain ⟨hlt, rfl⟩ := List.getElem?_eq_some_iff.1 h
  exact List.drop_eq_getElem_cons hlt

theorem getElem?_of_drop {n : Nat} {rest : Bytes} (h : source.drop n = b :: rest) :
    source[n]? = some b ∧ source.drop (n + 1) = rest := by
  refine ⟨?_, ?_⟩
  · rw [← List.head?_drop, h, List.head?_cons]
  · rw [← List.tail_drop, h, List.tail_cons]

/-- A byte that is taken has no part in what comes of the reader after it. -/
theorem outcome_of_take (next : Reader) (h : source[r.offset]? = some b) (htake : r.take b = .ok next) :
    r.outcome source = ({ next with offset := r.offset + 1 } : Reader).outcome source := by
  rw [outcome, drop_of_getElem? h, run_cons_of_take next htake]
  rfl

/-- A byte that the reader goes past, so that another reader stands behind it. -/
theorem outcome_of_run (next : Reader) (h : source[r.offset]? = some b)
    (hrun : r.run (b :: source.drop (r.offset + 1)) = next.run (source.drop (r.offset + 1)))
    (hnext : next.offset = r.offset + 1) : r.outcome source = next.outcome source := by
  rw [outcome, outcome, drop_of_getElem? h, hrun, hnext]

/-- A byte that is refused is what the source is refused for. -/
theorem outcome_of_refused {cause : Cause} (h : source[r.offset]? = some b)
    (htake : r.take b = .error cause) :
    r.outcome source = .error ⟨cause, ⟨r.offset, min (r.offset + 1) source.length⟩⟩ := by
  have hlt : r.offset < source.length := (List.getElem?_eq_some_iff.1 h).1
  rw [outcome, drop_of_getElem? h, run_cons, step, htake, Nat.min_eq_left hlt]
  rfl

/-- Two readers are not told apart if they read on alike from the byte at hand, and end alike. -/
theorem outcome_congr (hoffset : r.offset = other.offset)
    (hbyte : ∀ b rest, source[r.offset]? = some b → r.run (b :: rest) = other.run (b :: rest))
    (hend : source[r.offset]? = none → r.finish = other.finish) :
    r.outcome source = other.outcome source := by
  cases h : source[r.offset]? with
  | none => rw [outcome_of_end h, outcome_of_end (hoffset ▸ h), hend h]
  | some b => rw [outcome, outcome, ← hoffset, drop_of_getElem? h, hbyte b _ h]

/-- Bytes that change nothing are passed, as many as there are of one kind in a row. -/
theorem outcome_of_pass {kind : UInt8 → Bool} {opened : List Bracket} {scope : Scope} {mode : Mode}
    (hkind : ∀ n b, kind b = true → (Reader.mk n opened scope mode).take b = .ok ⟨n, opened, scope, mode⟩)
    (n : Nat) : (Reader.mk n opened scope mode).outcome source
      = (Reader.mk (n + ((source.drop n).takeWhile kind).length) opened scope mode).outcome source := by
  -- By induction on what is left of the source, which only the offset tells.
  generalize hrest : source.drop n = rest
  induction rest generalizing n with
  | nil => rfl
  | cons b rest ih =>
    obtain ⟨hb, hdrop⟩ := getElem?_of_drop hrest
    rw [List.takeWhile_cons]
    split
    · next hpass =>
      rw [outcome_of_take (r := Reader.mk n opened scope mode) _ hb (hkind n b hpass), ih (n + 1) hdrop,
        List.length_cons, Nat.add_assoc, Nat.add_comm 1]
    · rfl

end Reader

namespace Descent

open Reader

/-- The reader that stands at the cursor. -/
def Cursor.reader (c : Cursor) (scope : Scope) (mode : Mode) : Reader :=
  ⟨c.offset, c.opened, scope, mode⟩

/-! ## One rule -/

section Agrees

variable {α β : Type} {source : Bytes} {c : Cursor} {o : Except Fault Tree} {scope : Scope} {mode : Mode}

/-- A fault is the outcome. Calls that are exhausted tell nothing of what reading comes to. -/
def Stop.Tells (o : Except Fault Tree) : Stop → Prop
  | .fault found => o = .error found
  | .exhausted => True

/-- From the cursor on, the result of the rule and where it leaves the cursor are of one kind, and the rule
stops for a fault only if that is the outcome. -/
abbrev Agrees (rule : Rule α) (c : Cursor) (o : Except Fault Tree) (goes : α → Cursor → Prop) : Prop :=
  Meets rule c goes (Stop.Tells o)

theorem Agrees.andThen {rule : Rule α} {f : α → Rule β} {goes : α → Cursor → Prop}
    {more : β → Cursor → Prop} {least : Nat} {short : Prop} (h : Agrees rule c o goes)
    (hadv : Advances source rule c least short)
    (hf : ∀ result next, goes result next → Forward source c least next → Agrees (f result) next o more) :
    Agrees (rule >>= f) c o more :=
  meets_bind.2 ((h.and hadv).mono (fun result next hnext => hf result next hnext.1 hnext.2)
    fun _ hstop => hstop.1)

/-- The source ends at the cursor, and may not. -/
theorem agrees_refuse_end {cause : Cause} {goes : α → Cursor → Prop}
    (ho : o = (c.reader scope mode).outcome source) (hc : c.offset ≤ source.length)
    (hend : source[c.offset]? = none)
    (hfinish : (c.reader scope mode).finish = .error ⟨cause, ⟨c.offset, c.offset⟩⟩) :
    Agrees (refuse source cause) c o goes := by
  have hle : source.length ≤ c.offset := List.getElem?_eq_none_iff.1 hend
  refine meets_refuse.2 ?_
  show o = _
  rw [ho, outcome_of_end hend, hfinish, Nat.min_eq_right (by omega), Nat.le_antisymm hc hle]

/-- The byte at the cursor is refused. -/
theorem agrees_refuse {cause : Cause} {goes : α → Cursor → Prop} {b : UInt8}
    (ho : o = (c.reader scope mode).outcome source) (hb : source[c.offset]? = some b)
    (htake : (c.reader scope mode).take b = .error cause) : Agrees (refuse source cause) c o goes :=
  meets_refuse.2 (ho.trans (outcome_of_refused hb htake))

/-- A byte that the rules cross, and that the reader takes for what it crosses. -/
theorem bump_agrees {b : UInt8} (result : List Bracket → Reader)
    (ho : o = (c.reader scope mode).outcome source) (hb : source[c.offset]? = some b)
    (htake : (c.reader scope mode).take b = do let opened ← cross c.opened b; return result opened) :
    Agrees (bump source) c o fun _ after => after.offset = c.offset + 1
      ∧ o = ({ result after.opened with offset := after.offset } : Reader).outcome source := by
  rw [Agrees, Meets, bump, hb]
  simp only
  cases hcross : cross c.opened b with
  | ok opened =>
    rw [hcross] at htake
    exact ⟨rfl, ho.trans (outcome_of_take (result opened) hb htake)⟩
  | error cause =>
    rw [hcross] at htake
    exact ho.trans (outcome_of_refused hb htake)

theorem meets_skip {f : Unit → Rule α} {goes : α → Cursor → Prop} {stops : Stop → Prop} :
    Meets (skip >>= f) c goes stops ↔ Meets (f ()) { c with offset := c.offset + 1 } goes stops := Iff.rfl

theorem meets_passString {f : Unit → Rule α} {goes : α → Cursor → Prop} {stops : Stop → Prop} :
    Meets (passString source >>= f) c goes stops
      ↔ Meets (f ()) { c with offset := c.offset + stringLength quote (source.drop c.offset) } goes stops :=
  Iff.rfl

theorem bump_of_cross {b : UInt8} {opened : List Bracket} (hb : source[c.offset]? = some b)
    (hcross : cross c.opened b = .ok opened) :
    Agrees (bump source) c o fun _ next => next = { c with offset := c.offset + 1, opened } := by
  rw [Agrees, Meets, bump, hb]
  simp only [hcross]

/-- One particular byte has to come next, and the reader takes it for what it crosses. -/
structure Awaits (source : Bytes) (r : Reader) (wanted : UInt8) (result : List Bracket → Reader) : Prop where
  finish : source[r.offset]? = none → r.finish = .error ⟨.expected [wanted] [], ⟨r.offset, r.offset⟩⟩
  other : ∀ b, source[r.offset]? = some b → b ≠ wanted → r.take b = .error (.expected [wanted] [b])
  take : source[r.offset]? = some wanted →
    r.take wanted = do let opened ← cross r.opened wanted; return result opened

/-- Where the reader awaits one particular byte, so does the rule, and both refuse everything else
alike. -/
theorem expect_agrees {wanted : UInt8} {result : List Bracket → Reader}
    (ho : o = (c.reader scope mode).outcome source) (hc : c.offset ≤ source.length)
    (hawaits : Awaits source (c.reader scope mode) wanted result) :
    Agrees (expect source wanted) c o fun _ after => after.offset = c.offset + 1
      ∧ o = ({ result after.opened with offset := after.offset } : Reader).outcome source := by
  refine meets_peek.2 ?_
  cases hpeek : source[c.offset]? with
  -- At the end, at another byte, or at the byte that is awaited: the reader has an answer to each.
  | none => exact agrees_refuse_end ho hc hpeek (hawaits.finish hpeek)
  | some b =>
    dsimp only
    split
    · next hb =>
      subst hb
      exact bump_agrees result ho hpeek (hawaits.take hpeek)
    · next hb => exact agrees_refuse ho hpeek (hawaits.other b hpeek hb)

/-- Bytes that change nothing for the reader are passed, up to one of another kind. -/
theorem pass_agrees {kind : UInt8 → Bool} (ho : o = (c.reader scope mode).outcome source)
    (hkind : ∀ n b, kind b = true →
      (Reader.mk n c.opened scope mode).take b = .ok ⟨n, c.opened, scope, mode⟩) :
    Agrees (pass source kind) c o fun _ next =>
      (∀ b, source[next.offset]? = some b → kind b = false)
        ∧ o = (next.reader scope mode).outcome source := by
  refine ⟨fun b hb => ?_, ho.trans (outcome_of_pass hkind c.offset)⟩
  have hdrop : source.drop (c.offset + ((source.drop c.offset).takeWhile kind).length)
      = (source.drop c.offset).dropWhile kind := by
    have hleft := @List.drop_left _ ((source.drop c.offset).takeWhile kind)
      ((source.drop c.offset).dropWhile kind)
    rw [List.takeWhile_append_dropWhile] at hleft
    rw [← List.drop_drop, hleft]
  -- Passing stops at the first byte of another kind.
  have hnot := List.head?_dropWhile_not kind (source.drop c.offset)
  rw [← hdrop, List.head?_drop] at hnot
  have hnext : source[c.offset + ((source.drop c.offset).takeWhile kind).length]? = some b := hb
  rwa [hnext] at hnot

end Agrees

end Descent

end TildeMarkup
