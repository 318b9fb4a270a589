import TildeMarkup.Reader.Step

/-!
# Bracket words

The plain reading of brackets that the rules of the language are measured against: a stack of open
brackets, the innermost first, that an opener is put on and that a closer has to match.

* `Bracket.scan`: what a stack becomes over a run of bytes, or `none` where a closer does not match.
* `Bracket.scan_lift`: what is open further down has no part in a scan that never reaches it. This
  is why a scope of the reader can be looked at by itself.
* `Bracket.Balanced`: a word that closes all that it opens, and nothing else.
* `Reader.cross_eq_ok`: the reader moves its stack over a byte just as a scan does.
-/

namespace TildeMarkup

namespace Bracket

/-- Takes a bracket of some kind off a stack, if it is on top. On an empty stack there is none to take. -/
def pop (kind : Bracket) : List Bracket → Option (List Bracket)
  | [] => none
  | top :: rest => if top = kind then some rest else none

/-- The stack after a byte: an opener goes on top, a closer has to match the top. -/
def pass (stack : List Bracket) (b : UInt8) : Option (List Bracket) :=
  match ofOpener? b, ofCloser? b with
  | some kind, _ => some (kind :: stack)
  | none, none => some stack
  | none, some kind => pop kind stack

/-- The stack after a run of bytes, one after the other. There is none as soon as one byte does not go
through. -/
def scan (stack : List Bracket) (bytes : Bytes) : Option (List Bracket) :=
  bytes.foldlM pass stack

/-- A word that opens and closes its brackets by itself. -/
def Balanced (bytes : Bytes) : Prop :=
  scan [] bytes = some []

instance (bytes : Bytes) : Decidable (Balanced bytes) :=
  inferInstanceAs (Decidable (scan [] bytes = some []))

/-! ## Bytes that are no brackets -/

theorem eq_opener_of_ofOpener? {b : UInt8} {k : Bracket} (h : ofOpener? b = some k) :
    b = k.opener := by
  unfold ofOpener? at h
  split at h
  · cases h; simp_all
  · split at h
    · cases h; simp_all
    · split at h
      · cases h; simp_all
      · cases h

/-- Each kind of bracket has a closer of its own, so the byte tells the kind. -/
theorem closer_injective {k k' : Bracket} (h : k.closer = k'.closer) : k = k' := by
  have hkind := ofCloser?_closer k
  rw [h, ofCloser?_closer] at hkind
  exact (Option.some.inj hkind).symm

/-- A class of bytes that no bracket is in consists of plain bytes. -/
theorem plain_of_class {p : UInt8 → Bool} {b : UInt8} (hb : p b = true)
    (hopener : ∀ k : Bracket, p k.opener = false) (hcloser : ∀ k : Bracket, p k.closer = false) :
    ofOpener? b = none ∧ ofCloser? b = none := by
  constructor
  · cases hk : ofOpener? b with
    | none => rfl
    | some k =>
      rw [eq_opener_of_ofOpener? hk, hopener k] at hb
      exact absurd hb (by decide)
  · cases hk : ofCloser? b with
    | none => rfl
    | some k =>
      rw [eq_closer_of_ofCloser? hk, hcloser k] at hb
      exact absurd hb (by decide)

theorem plain_of_beq {b c : UInt8} (hb : (b == c) = true)
    (hc : ofOpener? c = none ∧ ofCloser? c = none) : ofOpener? b = none ∧ ofCloser? b = none := by
  rw [beq_iff_eq.1 hb]
  exact hc

theorem plain_of_isBlank {b : UInt8} (h : isBlank b = true) :
    ofOpener? b = none ∧ ofCloser? b = none :=
  plain_of_class h (fun k => by cases k <;> decide) (fun k => by cases k <;> decide)

theorem plain_of_isLetter {b : UInt8} (h : isLetter b = true) :
    ofOpener? b = none ∧ ofCloser? b = none :=
  plain_of_class h (fun k => by cases k <;> decide) (fun k => by cases k <;> decide)

/-! ## One byte -/

/-- Bytes that are no brackets go through on every stack and leave it alone. -/
theorem pass_plain {b : UInt8} (h : ofOpener? b = none ∧ ofCloser? b = none)
    (stack : List Bracket) : pass stack b = some stack := by
  rw [pass, h.1, h.2]

@[simp] theorem pass_opener (stack : List Bracket) (k : Bracket) :
    pass stack k.opener = some (k :: stack) := by
  rw [pass, ofOpener?_opener]

@[simp] theorem pass_closer (stack : List Bracket) (k : Bracket) :
    pass stack k.closer = pop k stack := by
  rw [pass, ofOpener?_closer, ofCloser?_closer]

theorem pop_eq_some {k : Bracket} {stack rest : List Bracket} :
    pop k stack = some rest ↔ stack = k :: rest := by
  cases stack with
  | nil => simp [pop]
  | cons top below =>
    rw [pop]
    split
    · next htop => simp [htop]
    · next htop => simp [htop]

theorem pop_eq_none {k : Bracket} {stack : List Bracket} :
    pop k stack = none ↔ stack.head? ≠ some k := by
  cases stack with
  | nil => simp [pop]
  | cons top below =>
    rw [pop]
    split
    · next htop => simp [htop]
    · next htop => simp [htop]

theorem pop_lift {k : Bracket} {stack rest : List Bracket} (h : pop k stack = some rest)
    (base : List Bracket) : pop k (stack ++ base) = some (rest ++ base) := by
  rw [pop_eq_some] at h ⊢
  rw [h, List.cons_append]

theorem pass_lift {stack next : List Bracket} {b : UInt8} (h : pass stack b = some next)
    (base : List Bracket) : pass (stack ++ base) b = some (next ++ base) := by
  unfold pass at h ⊢
  split at h
  · cases h; rfl
  · cases h; rfl
  -- Only a closer looks at the stack, and it found its opener in the part above.
  · exact pop_lift h base

/-- A byte that goes through takes nothing from a lower part of the stack, unless it is a closer and there is
nothing above that part. -/
theorem pass_upper {stack base next : List Bracket} {b : UInt8} (h : pass (stack ++ base) b = some next)
    (hstack : (ofCloser? b).isSome = true → stack ≠ []) :
    ∃ upper, pass stack b = some upper ∧ next = upper ++ base := by
  unfold pass at h ⊢
  split at h
  · cases h
    exact ⟨_, rfl, rfl⟩
  · cases h
    exact ⟨_, rfl, rfl⟩
  · next kind _ hcloser =>
    cases stack with
    | nil => exact absurd rfl (hstack (by rw [hcloser]; rfl))
    | cons top rest =>
      rw [pop_eq_some, List.cons_append, List.cons.injEq] at h
      exact ⟨rest, pop_eq_some.2 (congrArg (· :: rest) h.1), h.2.symm⟩

/-- A closer that goes through takes nothing from below the opener. -/
theorem pop_extra {kind : Bracket} {inner stack next : List Bracket}
    (h : pop kind (inner ++ kind :: stack) = some next) :
    ∃ extra, ∀ base, pop kind (inner ++ kind :: base) = some (extra ++ base) := by
  cases inner with
  | nil => exact ⟨[], fun base => pop_eq_some.2 rfl⟩
  | cons top rest =>
    rw [pop_eq_some, List.cons_append] at h
    have htop : top = kind := (List.cons.inj h).1
    -- The closer took the top of the part above, so the opener is still there.
    refine ⟨rest ++ [kind], fun base => ?_⟩
    rw [pop_eq_some, htop, List.cons_append, List.append_assoc]
    rfl

/-! ## A run of bytes -/

@[simp] theorem scan_nil (stack : List Bracket) : scan stack [] = some stack := rfl

theorem scan_cons (stack : List Bracket) (b : UInt8) (rest : Bytes) :
    scan stack (b :: rest) = (pass stack b).bind fun next => scan next rest := rfl

theorem scan_singleton (stack : List Bracket) (b : UInt8) : scan stack [b] = pass stack b := by
  rw [scan_cons]
  cases pass stack b <;> rfl

/-- A scan may be made in two goes, with the stack between them as all that the second knows of the
first. -/
theorem scan_append (stack : List Bracket) (front back : Bytes) :
    scan stack (front ++ back) = (scan stack front).bind fun next => scan next back := by
  rw [scan, List.foldlM_append]
  rfl

/-- Bytes without brackets leave the stack as it is. -/
theorem scan_plain {bytes : Bytes} (h : ∀ b ∈ bytes, ofOpener? b = none ∧ ofCloser? b = none)
    (stack : List Bracket) : scan stack bytes = some stack := by
  induction bytes with
  | nil => rfl
  | cons b rest ih =>
    rw [scan_cons, pass_plain (h b (List.mem_cons_self ..))]
    exact ih fun c hc => h c (List.mem_cons_of_mem _ hc)

/-- A scan that goes through on the upper part of a stack leaves the rest below it alone. -/
theorem scan_lift {stack next : List Bracket} {bytes : Bytes} (h : scan stack bytes = some next)
    (base : List Bracket) : scan (stack ++ base) bytes = some (next ++ base) := by
  induction bytes generalizing stack with
  | nil =>
    cases h
    rfl
  | cons b rest ih =>
    rw [scan_cons] at h ⊢
    obtain ⟨middle, hpass, hrest⟩ := Option.bind_eq_some_iff.1 h
    rw [pass_lift hpass base]
    exact ih hrest

/-- A balanced word goes through on every stack, as it never looks below where it began. -/
theorem Balanced.scan {bytes : Bytes} (h : Balanced bytes) (stack : List Bracket) :
    Bracket.scan stack bytes = some stack :=
  scan_lift h stack

end Bracket

namespace Reader

/-- The reader moves its stack over a byte as a scan does. -/
theorem cross_eq_ok {opened next : List Bracket} {b : UInt8} :
    cross opened b = .ok next ↔ Bracket.pass opened b = some next := by
  unfold cross Bracket.pass
  cases Bracket.ofOpener? b with
  | some kind => simp
  | none =>
    cases Bracket.ofCloser? b with
    | none => simp
    | some kind =>
      cases opened with
      | nil => simp [Bracket.pop]
      | cons top rest =>
        simp only [Bracket.pop]
        split <;> simp

end Reader

end TildeMarkup
