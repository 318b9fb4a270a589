import TildeMarkup.Proofs.Prefix
import TildeMarkup.Proofs.Reader.Strings
import TildeMarkup.Proofs.Spelling.Brackets

/-!
# What a fault wants

A fault that names a byte wants one that the reader takes, as long as the bracket that its rule
waits for is the innermost open one (`Reader.Level`).

* In front of another byte it wants the closer of the innermost open bracket, or a comma, and the
  reader takes either (`Reader.asks_take`).
* At the end of a source an argument wants its own closer. Its prose may have a bracket open then,
  and the closer of that one has to come first (`Reader.answers_of_finish`).

Only square brackets that close after a line end can be out of level, and so can the list around
them: what is read of a single line is level (`Reader.level_of_spells`).
-/

namespace TildeMarkup

open Spelling

theorem Bracket.closer_ne {kind : Bracket} {b : UInt8} (h : Bracket.ofCloser? b = none) :
    (kind.closer == b) = false := by
  rw [beq_eq_false_iff_ne]
  rintro rfl
  rw [Bracket.ofCloser?_closer] at h
  cases h

namespace Reader

/-- The kind of bracket that a scope is enclosed in; the document is in none. -/
def Scope.bracket? : Scope → Option Bracket
  | document _ => none
  | braces .. => some .curly
  | brackets .. => some .square

/-- The bracket that the reader waits to be closed: that of a list, or of an argument in square
brackets that has its content. Elsewhere there may be prose, which may open brackets of its own. -/
def awaited? (r : Reader) : Option Bracket :=
  match r.mode, r.scope with
  | .list .., _ => some .round
  | .ident .., _ => some .round
  | .string .., _ => some .round
  | .next _, _ => some .round
  | .ready, .brackets _ _ _ _ (some _) => some .square
  | _, _ => none

/-- The bracket that the reader waits to be closed is the innermost open one. -/
def Level (r : Reader) : Prop :=
  ∀ kind, r.awaited? = some kind → r.opened.head? = some kind

/-- The reader takes the byte, whatever it is then in the middle of. -/
def Takes (r : Reader) (b : UInt8) : Prop :=
  ∃ next, r.take b = .ok next

/-! ## The bracket of a scope -/

/-- The bracket of the scope is open, at the height that the scope remembers. -/
def Grounded (r : Reader) : Prop :=
  ∀ kind, r.scope.bracket? = some kind →
    ∃ above below, r.opened = above ++ kind :: below ∧ below.length + 1 = r.scope.depth

theorem Place.Spells.scope {S : Scope} {place : Place} {τ β : List Bracket} {w : Bytes}
    (h : Place.Spells S place τ β w) : ∃ τ₀ w₀, Scope.Spells S true τ₀ β w₀ := by
  cases h with
  | alone _ hscope => exact ⟨_, _, hscope⟩
  | within _ _ hscope => exact ⟨_, _, hscope⟩

theorem Call.Spells.scope {S : Scope} {call : Call} {argFits : Bool} {τ β : List Bracket}
    {w : Bytes} (h : Call.Spells S call argFits τ β w) : ∃ τ₀ w₀, Scope.Spells S true τ₀ β w₀ := by
  cases h with
  | single _ _ hplace => exact hplace.scope
  | listed _ _ _ hplace => exact hplace.scope

theorem Mode.Spells.scope {σ : List Bracket} {S : Scope} {m : Mode} {w : Bytes}
    (h : Mode.Spells σ S m w) : ∃ τ τ₀ β w₀, σ = τ ++ β ∧ Scope.Spells S true τ₀ β w₀ := by
  have hsplit {τ β : List Bracket} (h : ∃ τ₀ w₀, Scope.Spells S true τ₀ β w₀) :
      ∃ τ' τ₀ β' w₀, τ ++ β = τ' ++ β' ∧ Scope.Spells S true τ₀ β' w₀ := by
    obtain ⟨τ₀, w₀, hscope⟩ := h
    exact ⟨τ, τ₀, β, w₀, rfl, hscope⟩
  cases h with
  | ready hscope => exact hsplit ⟨_, _, hscope⟩
  | text _ _ _ hscope => exact hsplit ⟨_, _, hscope⟩
  | name _ hplace => exact hsplit hplace.scope
  | head hcall => exact hsplit hcall.scope
  | list hcall => exact hsplit hcall.scope
  | ident _ hcall => exact hsplit hcall.scope
  | string _ hcall => exact hsplit hcall.scope
  | next hcall => exact hsplit hcall.scope

variable {r : Reader} {b : UInt8} {kind : Bracket} {w : Bytes}

/-- A reader that has read some source is grounded: the bracket of its scope lies below what the scope
left open. -/
theorem grounded_of_spells (hr : r.Spells w) : r.Grounded := by
  obtain ⟨τ, τ₀, β, w₀, hopened, hscope⟩ := Mode.Spells.scope hr
  intro kind hkind
  rw [hopened]
  generalize r.scope = S at hkind hscope
  cases hscope with
  | document => cases hkind
  | braces => cases hkind; exact ⟨τ, _, rfl, rfl⟩
  | vacant => cases hkind; exact ⟨τ, _, rfl, rfl⟩
  | filled => cases hkind; exact ⟨τ, _, rfl, rfl⟩

/-- A closer that ends a scope finds the bracket of the scope innermost. -/
theorem Grounded.head_of_endsScope (hr : r.Grounded) (hends : r.endsScope b = true)
    (hkind : r.scope.bracket? = some kind) : r.opened.head? = some kind := by
  obtain ⟨above, below, hopened, hdepth⟩ := hr kind hkind
  rw [endsScope, Bool.and_eq_true, beq_iff_eq, hopened, List.length_append,
    List.length_cons] at hends
  have hheight : above.length + (below.length + 1) = r.scope.depth := hends.2
  have habove : above = [] := List.length_eq_zero_iff.1 (by omega)
  rw [hopened, habove]
  rfl

/-- Where something is open and the closer of it ends the scope, the scope is one of that kind. -/
theorem Grounded.bracket_of_endsScope (hr : r.Grounded) (hends : r.endsScope b = true)
    (hhead : r.opened.head? = some kind) : r.scope.bracket? = some kind := by
  cases hscope : r.scope.bracket? with
  | some other =>
    have hother := hr.head_of_endsScope hends hscope
    rw [hhead] at hother
    exact hother.symm
  | none =>
    obtain ⟨n, σ, S, m⟩ := r
    cases S with
    | document blocks =>
      obtain ⟨hnil, _⟩ := document_of_endsScope hends blocks rfl
      rw [hnil] at hhead
      cases hhead
    | braces => cases hscope
    | brackets => cases hscope

/-! ## Closers that are taken -/

theorem cross_closer (kind : Bracket) (rest : List Bracket) :
    cross (kind :: rest) kind.closer = .ok rest := by
  rw [cross_eq_ok, Bracket.pass_closer, Bracket.pop_eq_some]

/-- What goes on behind a closer that matches the innermost open bracket is reached. -/
theorem exists_of_closer {opened : List Bracket} (hhead : opened.head? = some kind)
    (after : List Bracket → Reader) :
    ∃ next, (do let rest ← cross opened kind.closer; return after rest) = .ok next := by
  obtain ⟨rest, rfl⟩ := List.head?_eq_some_iff.1 hhead
  rw [cross_closer]
  exact ⟨after rest, rfl⟩

/-- A closer of another kind than the innermost open bracket is refused, and the closer of that one is
wanted. -/
theorem cross_mismatch {opened : List Bracket} {top : Bracket} (hhead : opened.head? = some top)
    (hne : top ≠ kind) :
    cross opened kind.closer = .error (.unbalanced (some [top.closer]) [kind.closer]) := by
  obtain ⟨rest, rfl⟩ := List.head?_eq_some_iff.1 hhead
  simp only [cross, Bracket.ofOpener?_closer, Bracket.ofCloser?_closer, if_neg hne]

theorem closeList_takes (call : Call) (hhead : r.opened.head? = some .round) :
    ∃ next, r.closeList call Bracket.round.closer = .ok next :=
  exists_of_closer hhead fun opened => ({ r with opened } : Reader).finishCall call

theorem closeScope_takes (hkind : r.scope.bracket? = some kind)
    (hhead : r.opened.head? = some kind) : ∃ next, r.closeScope kind.closer = .ok next := by
  obtain ⟨n, σ, S, m⟩ := r
  cases S with
  | document => cases hkind
  | braces =>
    cases hkind
    simp only [closeScope, beq_self_eq_true, if_true]
    exact exists_of_closer hhead _
  | brackets =>
    cases hkind
    simp only [closeScope, beq_self_eq_true, if_true]
    exact exists_of_closer hhead _

theorem bracket?_addRun (S : Scope) (pieces : List Tree) :
    (S.addRun pieces).bracket? = S.bracket? := by
  cases S <;> rfl

/-- A run takes the closer of what is innermost: it is one of the run, or ends the scope. -/
theorem inText_takes (hr : r.Grounded) (hhead : r.opened.head? = some kind) (pieces : List Tree)
    (start : Nat) (afterReturn : Bool) :
    ∃ next, r.inText pieces start afterReturn kind.closer = .ok next := by
  have htilde : (kind.closer == tilde) = false := Bracket.closer_ne (by decide)
  have hline : (kind.closer == lineFeed) = false := Bracket.closer_ne (by decide)
  cases hends : r.endsScope kind.closer with
  | true =>
    have hkind := hr.bracket_of_endsScope hends hhead
    rw [← bracket?_addRun] at hkind
    obtain ⟨next, hnext⟩ := closeScope_takes
      (r := r.endRun (addText pieces start r.offset)) hkind hhead
    refine ⟨next, ?_⟩
    simp only [inText, htilde, hline, hends, Bool.false_eq_true, if_false, if_true]
    exact hnext
  | false =>
    simp only [inText, htilde, hline, hends, Bool.false_eq_true, if_false]
    exact exists_of_closer hhead _

/-- A run refuses a closer of another kind than the innermost open bracket. -/
theorem inText_mismatch {top : Bracket} (hends : r.endsScope kind.closer = false)
    (hhead : r.opened.head? = some top) (hne : top ≠ kind) (pieces : List Tree) (start : Nat)
    (afterReturn : Bool) :
    r.inText pieces start afterReturn kind.closer
      = .error (.unbalanced (some [top.closer]) [kind.closer]) := by
  have htilde : (kind.closer == tilde) = false := Bracket.closer_ne (by decide)
  have hline : (kind.closer == lineFeed) = false := Bracket.closer_ne (by decide)
  simp only [inText, htilde, hline, hends, cross_mismatch hhead hne, Bool.false_eq_true, if_false]
  rfl

/-- Between parts a closer is read as one of a run, unless it is to be the closer of the scope. -/
theorem inReady_closer (kind : Bracket) :
    r.inReady kind.closer = r.inText [] r.offset false kind.closer
      ∨ r.inReady kind.closer = r.closeScope kind.closer
        ∧ (r.endsScope kind.closer = true ∨ ∃ outer call start depth content,
          r.scope = .brackets outer call start depth (some content)) := by
  have htilde : (kind.closer == tilde) = false := Bracket.closer_ne (by decide)
  obtain ⟨n, σ, S, m⟩ := r
  cases S with
  | brackets outer call start depth content =>
    cases content with
    | some content => exact .inr ⟨rfl, .inr ⟨outer, call, start, depth, content, rfl⟩⟩
    | none =>
      left
      simp only [inReady, htilde, Bool.false_eq_true, if_false]
  | _ =>
    simp only [inReady, isBlank_closer, htilde, Bool.false_eq_true, if_false]
    split
    · next hends => exact .inr ⟨rfl, .inl hends⟩
    · exact .inl rfl

theorem inReady_takes (hr : r.Grounded) (hlevel : r.Level) (hmode : r.mode = .ready)
    (hhead : r.opened.head? = some kind) : ∃ next, r.inReady kind.closer = .ok next := by
  rcases inReady_closer (r := r) kind with htext | ⟨hclose, hends | hfilled⟩
  · rw [htext]
    exact inText_takes hr hhead [] r.offset false
  · rw [hclose]
    exact closeScope_takes (hr.bracket_of_endsScope hends hhead) hhead
  · obtain ⟨outer, call, start, depth, content, hscope⟩ := hfilled
    -- square brackets that have their content are closed by a bracket of their own kind only
    have hsquare : r.opened.head? = some .square := hlevel .square (by rw [awaited?, hmode, hscope])
    rw [hhead] at hsquare
    cases hsquare
    rw [hclose]
    exact closeScope_takes (by rw [hscope]; rfl) hhead

/-! ## What is wanted in place of a byte -/

/-- If the byte is refused and another is wanted, that one has the property. -/
def Asks (P : UInt8 → Prop) : Except Cause Reader → Prop
  | .ok _ => True
  | .error cause => ∀ wanted, cause.wanted? = some wanted → ∃ e, wanted = [e] ∧ P e

section Asks

variable {P : UInt8 → Prop}

theorem asks_ite {p : Prop} [Decidable p] {x y : Except Cause Reader}
    (hx : p → Asks P x) (hy : ¬ p → Asks P y) : Asks P (if p then x else y) :=
  iteInduction (motive := Asks P) hx hy

theorem asks_expected {e : UInt8} {found : Bytes} (h : P e) :
    Asks P (.error (.expected [e] found)) := by
  intro wanted hwanted
  cases hwanted
  exact ⟨e, rfl, h⟩

variable (hclose : ∀ kind, r.opened.head? = some kind → P kind.closer)

include hclose

/-- The stack asks for the closer of its innermost bracket, which is taken by assumption. -/
theorem asks_cross (next : List Bracket → Reader) :
    Asks P (do let after ← cross r.opened b; return next after) := by
  cases hcross : cross r.opened b with
  | ok after => trivial
  | error cause =>
    intro wanted hwanted
    rw [eq_unbalanced_of_cross hcross] at hwanted
    obtain ⟨top, hhead, rfl⟩ := Option.map_eq_some_iff.1 hwanted
    exact ⟨top.closer, rfl, hclose top hhead⟩

/-- A scope wants its own closer, so that has to be the one of what is innermost. -/
theorem asks_closeScope
    (hown : ∀ kind, r.scope.bracket? = some kind → r.opened.head? = some kind) :
    Asks P (r.closeScope b) := by
  obtain ⟨n, σ, S, m⟩ := r
  cases S with
  | document =>
    intro wanted hwanted
    cases hwanted
  | braces =>
    refine asks_ite (fun _ => ?_) fun _ => asks_expected (hclose .curly (hown .curly rfl))
    exact asks_cross (r := ⟨n, σ, .document [], m⟩) hclose _
  | brackets =>
    refine asks_ite (fun _ => ?_) fun _ => asks_expected (hclose .square (hown .square rfl))
    exact asks_cross (r := ⟨n, σ, .document [], m⟩) hclose _

/-- A run asks for a closer only where it crosses the stack, or where its scope ends. -/
theorem asks_inText (hr : r.Grounded) (pieces : List Tree) (start : Nat) (afterReturn : Bool) :
    Asks P (r.inText pieces start afterReturn b) := by
  refine asks_ite (fun _ => trivial) fun _ => ?_
  refine asks_ite (fun _ => trivial) fun _ => ?_
  refine asks_ite (fun hends => ?_) fun _ => asks_cross hclose _
  refine asks_closeScope (r := r.endRun _) hclose fun kind hkind => ?_
  exact hr.head_of_endsScope hends ((bracket?_addRun r.scope _).symm.trans hkind)

theorem asks_inReady (hr : r.Grounded) (hlevel : r.Level) (hmode : r.mode = .ready) :
    Asks P (r.inReady b) := by
  have htext := asks_inText (b := b) hclose hr [] r.offset false
  have hends (hends : r.endsScope b = true) : Asks P (r.closeScope b) :=
    asks_closeScope hclose fun kind hkind => hr.head_of_endsScope hends hkind
  obtain ⟨n, σ, S, m⟩ := r
  cases hmode
  cases S with
  | brackets outer call start depth content =>
    cases content with
    | some content =>
      refine asks_closeScope hclose fun kind hkind => ?_
      cases hkind
      exact hlevel .square rfl
    | none => exact asks_ite (fun _ => trivial) fun _ => htext
  | _ =>
    refine asks_ite (fun _ => trivial) fun _ => ?_
    refine asks_ite (fun _ => trivial) fun _ => ?_
    exact asks_ite hends fun _ => htext

end Asks

/-! A list takes its closer and the comma. -/

theorem inList_takes (call : Call) (hhead : r.opened.head? = some .round) :
    ∃ next, r.inList call Bracket.round.closer = .ok next := by
  simp only [inList, isBlank_closer, beq_self_eq_true, Bool.false_eq_true, if_false, if_true]
  exact closeList_takes call hhead

/-- A list asks for no byte but its own closer, which it takes. -/
theorem asks_inList (call : Call) (hhead : r.opened.head? = some .round) {P : UInt8 → Prop} :
    Asks P (r.inList call b) := by
  refine asks_ite (fun _ => trivial) fun _ => ?_
  refine asks_ite (fun hb => ?_) fun _ => ?_
  · rw [beq_iff_eq.1 hb]
    obtain ⟨next, hnext⟩ := closeList_takes call hhead
    rw [hnext]
    trivial
  refine asks_ite (fun _ => trivial) fun _ => ?_
  refine asks_ite (fun _ => trivial) fun _ => ?_
  refine asks_ite (fun _ => trivial) fun _ => ?_
  exact asks_ite (fun _ => trivial) fun _ _ hwanted => nomatch hwanted

/-- Behind an argument a list asks for a comma or for its closer, and takes either. -/
theorem asks_inNext (call : Call) (hhead : r.opened.head? = some .round) {P : UInt8 → Prop}
    (hcomma : P comma) : Asks P (r.inNext call b) := by
  refine asks_ite (fun _ => trivial) fun _ => ?_
  refine asks_ite (fun hb => ?_) fun _ => ?_
  · rw [beq_iff_eq.1 hb]
    obtain ⟨next, hnext⟩ := closeList_takes call hhead
    rw [hnext]
    trivial
  exact asks_ite (fun _ => trivial) fun _ => asks_expected hcomma

theorem asks_inHead (place : Place) (name : Span) {P : UInt8 → Prop} :
    Asks P (r.inHead place name b) := by
  refine asks_ite (fun _ => trivial) fun _ => ?_
  refine asks_ite (fun _ => trivial) fun _ => ?_
  refine asks_ite (fun _ => trivial) fun _ => ?_
  exact asks_ite (fun _ => trivial) fun _ _ hwanted => nomatch hwanted

theorem inNext_comma (call : Call) :
    r.inNext call comma = .ok { r with mode := .list call true } := by
  have hround : (comma == Bracket.round.closer) = false := by decide
  simp only [inNext, isBlank_comma, hround, beq_self_eq_true, Bool.false_eq_true, if_false, if_true]

theorem ident_takes_comma (call : Call) (start : Nat) {n : Nat} {σ : List Bracket} {S : Scope} :
    (Reader.mk n σ S (.ident call start)).Takes comma := by
  have hletter : isLetter comma = false := by decide
  simp only [Takes, take, hletter, Bool.false_eq_true, if_false]
  exact ⟨_, inNext_comma _⟩

theorem string_takes (call : Call) (start : Nat) (escaped : Bool) (b : UInt8) {n : Nat}
    {σ : List Bracket} {S : Scope} : (Reader.mk n σ S (.string call start escaped)).Takes b := by
  by_cases h : (b == quote && !escaped) = true
  · exact ⟨_, if_pos h⟩
  · exact ⟨_, if_neg h⟩

/-- What a refused byte is refused for would be taken in its place. -/
theorem asks_take (hr : r.Grounded) (hlevel : r.Level) : Asks r.Takes (r.take b) := by
  obtain ⟨n, σ, S, m⟩ := r
  -- One case for each mode of the reader.
  cases m with
  | ready => exact asks_inReady (fun kind => inReady_takes hr hlevel rfl) hr hlevel rfl
  | text pieces start afterReturn =>
    exact asks_inText (fun kind hhead => inText_takes hr hhead _ _ _) hr pieces start afterReturn
  | name place start => exact asks_ite (fun _ => trivial) fun _ => asks_inHead place _
  | head place name => exact asks_inHead place name
  | list call fresh => exact asks_inList call (hlevel .round rfl)
  | ident call start =>
    exact asks_ite (fun _ => trivial) fun _ =>
      asks_inNext _ (hlevel .round rfl) (ident_takes_comma call start)
  | string call start escaped => exact asks_ite (fun _ => trivial) fun _ => trivial
  | next call => exact asks_inNext call (hlevel .round rfl) ⟨_, inNext_comma call⟩

/-! ## What is wanted at the end -/

/-- What the reader makes of a byte that is wanted at the end. It takes it; or the byte closes
another bracket than the innermost open one, and is refused for the closer of that. -/
inductive Answers (r : Reader) (e : UInt8) : Prop where
  | taken (h : r.Takes e) (hinner : ∀ kind, e = kind.closer → r.opened.head? = some kind)
  | refused {kind top : Bracket} (hkind : e = kind.closer) (hhead : r.opened.head? = some top)
      (hne : top ≠ kind) (h : r.take e = .error (.unbalanced (some [top.closer]) [e]))

theorem Answers.of_head (h : r.Takes kind.closer) (hhead : r.opened.head? = some kind) :
    r.Answers kind.closer := by
  refine .taken h fun other hother => ?_
  rw [← Bracket.closer_injective hother]
  exact hhead

theorem Answers.of_takes {e : UInt8} (h : r.Takes e) (he : Bracket.ofCloser? e = none) :
    r.Answers e := by
  refine .taken h fun kind hkind => ?_
  rw [hkind, Bracket.ofCloser?_closer] at he
  cases he

/-- The closer of the scope, in a run or where one may start, is taken or refused for the innermost
one. -/
theorem answers_closer (hr : r.Grounded) (hlevel : r.Level) (hkind : r.scope.bracket? = some kind)
    (hmode : r.mode = .ready
      ∨ ∃ pieces start afterReturn, r.mode = .text pieces start afterReturn) :
    r.Answers kind.closer := by
  by_cases hhead : r.opened.head? = some kind
  · refine .of_head ?_ hhead
    rcases hmode with hmode | ⟨pieces, start, afterReturn, hmode⟩
    · obtain ⟨next, hnext⟩ := inReady_takes hr hlevel hmode hhead
      exact ⟨next, by rw [take, hmode]; exact hnext⟩
    · obtain ⟨next, hnext⟩ := inText_takes hr hhead pieces start afterReturn
      exact ⟨next, by rw [take, hmode]; exact hnext⟩
  · obtain ⟨top, htop⟩ : ∃ top, r.opened.head? = some top := by
      obtain ⟨above, below, hopened, _⟩ := hr kind hkind
      rw [hopened, List.head?_append]
      cases above with
      | nil => exact ⟨kind, rfl⟩
      | cons top rest => exact ⟨top, rfl⟩
    have hne : top ≠ kind := fun heq => hhead (heq ▸ htop)
    have hends : r.endsScope kind.closer = false := by
      rw [Bool.eq_false_iff]
      exact fun hends => hhead (hr.head_of_endsScope hends hkind)
    refine .refused rfl htop hne ?_
    rcases hmode with hmode | ⟨pieces, start, afterReturn, hmode⟩
    · rcases inReady_closer (r := r) kind with htext | ⟨_, hscope | hfilled⟩
      · rw [take, hmode]
        exact htext.trans (inText_mismatch hends htop hne [] r.offset false)
      · rw [hends] at hscope
        cases hscope
      · obtain ⟨outer, call, start, depth, content, hscope⟩ := hfilled
        rw [hscope] at hkind
        cases hkind
        exact absurd (hlevel .square (by rw [awaited?, hmode, hscope])) hhead
    · rw [take, hmode]
      exact inText_mismatch hends htop hne pieces start afterReturn

/-- A scope that is not the document wants its closer at the end of the source. -/
theorem eq_expected_of_finishScope {S : Scope} {cause : Cause} (h : finishScope S = .error cause) :
    ∃ kind, S.bracket? = some kind ∧ cause = .expected [kind.closer] [] := by
  cases S with
  | document => cases h
  | braces => cases h; exact ⟨.curly, rfl, rfl⟩
  | brackets => cases h; exact ⟨.square, rfl, rfl⟩

theorem answers_of_finish (hr : r.Grounded) (hlevel : r.Level) {fault : Fault} {wanted : Bytes}
    (h : r.finish = .error fault) (hwanted : fault.cause.wanted? = some wanted) :
    ∃ e, wanted = [e] ∧ r.Answers e := by
  obtain ⟨cause, hcause, rfl⟩ := error_of_mapError h
  obtain ⟨n, σ, S, m⟩ := r
  cases m with
  | ready =>
    obtain ⟨kind, hkind, rfl⟩ := eq_expected_of_finishScope hcause
    cases hwanted
    exact ⟨_, rfl, answers_closer hr hlevel hkind (.inl rfl)⟩
  | text pieces start afterReturn =>
    obtain ⟨kind, hkind, rfl⟩ := eq_expected_of_finishScope hcause
    cases hwanted
    rw [bracket?_addRun] at hkind
    exact ⟨_, rfl, answers_closer hr hlevel hkind (.inr ⟨pieces, start, afterReturn, rfl⟩)⟩
  | name => cases hcause; cases hwanted
  | head => cases hcause; cases hwanted
  | list call fresh =>
    cases fresh with
    | true =>
      cases hcause
      cases hwanted
      have hhead := hlevel .round rfl
      exact ⟨_, rfl, .of_head (inList_takes call hhead) hhead⟩
    | false => cases hcause; cases hwanted
  | ident call start =>
    cases hcause
    cases hwanted
    exact ⟨_, rfl, .of_takes (ident_takes_comma call start) (by decide)⟩
  | string call start escaped =>
    cases hcause
    cases hwanted
    exact ⟨_, rfl, .of_takes (string_takes call start escaped quote) (by decide)⟩
  | next call =>
    cases hcause
    cases hwanted
    exact ⟨_, rfl, .of_takes ⟨_, inNext_comma call⟩ (by decide)⟩

end Reader

/-! ## Single lines -/

namespace Spelling

/-- An argument without a line feed is over with all that it opens. -/
theorem Arg.cross_eq_of_line {arg : Arg} {blocks : Bool} {σ τ : List Bracket}
    (hfits : arg.Fits blocks) (hline : lineFeed ∉ arg.bytes) (h : arg.cross σ = some τ) : τ = σ := by
  cases arg with
  | inline part =>
    -- as the only argument of a command it is a document by itself, with no line to end
    obtain ⟨extra, hextra⟩ := Arg.cross_extra h
    have hinline : (Arg.inline part).Fits true := hfits
    have hparts := isDocument_call List.all_nil rfl hinline (hextra [])
    have hsource : lineFeed ∉ Part.bytesAll [.call [] [] false [.inline part]] := by
      rw [bytesAll_call, List.nil_append, List.mem_cons, not_or]
      exact ⟨by decide, hline⟩
    have hlines : LinesClose [.call [] [] false [.inline part]] := by
      intro n name gap listed front back found inner hholds hends _
      obtain ⟨before, hbefore⟩ := Part.bytes_of_endsLine hends
      have hat := at_arg hholds.located
      rw [Arg.bytes, hbefore] at hat
      have hbyte := hat.tail.left.right.head
      exact absurd (List.mem_of_getElem? hbyte) hsource
    have hself : Holds [.call [] [] false [.inline part]] 0
        (.call [] [] false ([] ++ .inline part :: [])) := ⟨[], _, [], rfl, .self 0 _⟩
    exact Arg.cross_eq hparts hlines (.inline part) hself h
  | block parts => exact Option.some.inj (h.symm.trans (Arg.cross_block h σ))
  | _ => exact (Option.some.inj h).symm

theorem Arg.crossAll_eq_of_line {args : List Arg} {blocks : Bool} {σ τ : List Bracket}
    (hfits : Arg.FitsAll blocks args) (hline : lineFeed ∉ Arg.bytesAll args)
    (h : Arg.crossAll σ args = some τ) : τ = σ := by
  induction args generalizing σ with
  | nil => exact (Option.some.inj h).symm
  | cons arg rest ih =>
    rw [Arg.bytesAll, List.mem_append, not_or] at hline
    rw [Arg.crossAll] at h
    obtain ⟨middle, harg, hrest⟩ := Option.bind_eq_some_iff.1 h
    rw [ih hfits.2 hline.2 hrest]
    exact Arg.cross_eq_of_line hfits.1 hline.1 harg

/-- A command without a line feed is over with all that it opens, too. -/
theorem Part.cross_call_eq_of_line {name gap : Bytes} {listed : Bool} {args : List Arg}
    {blocks : Bool} {σ τ : List Bracket} (hfits : (Part.call name gap listed args).Fits blocks)
    (hline : lineFeed ∉ (Part.call name gap listed args).bytes)
    (h : (Part.call name gap listed args).cross σ = some τ) : τ = σ := by
  rw [Part.bytes_call_eq, List.mem_append, List.mem_append, not_or, not_or] at hline
  exact Part.cross_call_of_args (Arg.crossAll_eq_of_line hfits.2.2.2 hline.2.1) h

end Spelling

namespace Reader

theorem Call.Spells.head_of_line {S : Scope} {call : Call} {argFits : Bool} {τ β : List Bracket}
    {w : Bytes} (h : Call.Spells S call argFits τ β w) (hlisted : call.listed = true)
    (hline : lineFeed ∉ w) : (τ ++ β).head? = some .round := by
  cases h with
  | single => cases hlisted
  | listed name gap args _ _ _ _ hfits hcross =>
    have hargs : lineFeed ∉ Arg.bytesAll args := fun hmem => hline (by simp [hmem])
    rw [Arg.crossAll_eq_of_line hfits hargs hcross]
    rfl

/-- What is read of a single line is level, since only a line end can leave the reader out of level. -/
theorem level_of_spells {r : Reader} {w : Bytes} (hr : r.Spells w) (hline : lineFeed ∉ w) :
    r.Level := by
  obtain ⟨n, σ, S, m⟩ := r
  intro kind hkind
  have hfront {v : Bytes} {more : Bytes} (h : lineFeed ∉ v ++ more) : lineFeed ∉ v :=
    fun hmem => h (List.mem_append_left more hmem)
  cases hr with
  | ready hscope =>
    cases hscope with
    | @filled outer call σ β τ w part tree _ hcall hinline hgoes hfits hcross htree =>
      cases hkind
      -- The content is complete before its closer if it is a command, or a run with a line end.
      have hpart : lineFeed ∉ part.bytes := fun hmem => hline (by simp [hmem])
      rcases Part.inline_cases hinline with hcall | hopen | hends
      · cases part with
        | call =>
          rw [Part.cross_call_eq_of_line hfits hpart hcross]
          rfl
        | _ => cases hcall
      · rw [hopen] at hgoes
        cases hgoes
      · obtain ⟨front, hends⟩ := Part.bytes_of_endsLine hends
        exact absurd (by rw [hends]; simp) hpart
    | _ => cases hkind
  | list hcall hlisted => cases hkind; exact hcall.head_of_line hlisted hline
  | ident _ hcall hlisted => cases hkind; exact hcall.head_of_line hlisted (hfront hline)
  | string _ hcall hlisted => cases hkind; exact hcall.head_of_line hlisted (hfront hline)
  | next hcall hlisted => cases hkind; exact hcall.head_of_line hlisted hline
  | _ => cases hkind

end Reader

/-! ## Sources that are refused -/

/-- Behind bytes that are read, a byte that is taken can only leave the source without its end. -/
theorem span_of_takes {before : Bytes} {e : UInt8} {r : Reader} {fault : Fault}
    (hrun : Reader.initial.run before = .ok r) (htakes : r.Takes e)
    (h : parse (before ++ [e]) = .error fault) :
    fault.span = ⟨before.length + 1, before.length + 1⟩ := by
  obtain ⟨next, hnext⟩ := htakes
  have hall : Reader.initial.run (before ++ [e]) = .ok { next with offset := r.offset + 1 } := by
    rw [Reader.run_append, hrun]
    exact Reader.run_cons_of_take next hnext []
  have hoffset : r.offset = before.length := Reader.offset_of_initial hrun
  rw [parse, Tree.parse, hall] at h
  cases hfinish : ({ next with offset := r.offset + 1 } : Reader).finish with
  | ok tree =>
    simp only [bind, Except.bind, hfinish] at h
    cases h
  | error found =>
    simp only [bind, Except.bind, hfinish] at h
    cases h
    rw [Reader.span_of_finish hfinish, hoffset]

/-- What a reader that is level would make of the byte that is wanted. -/
theorem exists_wanted {source : Bytes} {fault : Fault} {wanted : Bytes} {r : Reader}
    (hrun : Reader.initial.run (source.take fault.span.start) = .ok r)
    (hoffset : r.offset = fault.span.start) (hlevel : r.Level)
    (hrefused : (∃ b after, source = source.take fault.span.start ++ b :: after
        ∧ r.step b = .error fault)
      ∨ (source.length = fault.span.start ∧ r.finish = .error fault))
    (hwanted : fault.cause.wanted? = some wanted) :
    ∃ e, wanted = [e] ∧ ((fault.span.start < source.length ∧ r.Takes e)
      ∨ (fault.span.start = source.length ∧ r.Answers e)) := by
  have hground := Reader.grounded_of_spells (Reader.spells_run Reader.spells_initial rfl hrun)
  rcases hrefused with ⟨b, after, hsource, hstep⟩ | ⟨hend, hfinish⟩
  · have hlength := congrArg List.length hsource
    have hinside : fault.span.start < source.length := by
      rw [List.length_append, List.length_cons, ← Reader.offset_of_initial hrun] at hlength
      omega
    have hasks := Reader.asks_take (b := b) hground hlevel
    rw [Reader.step] at hstep
    cases htake : r.take b with
    | ok next =>
      rw [htake] at hstep
      cases hstep
    | error cause =>
      rw [htake] at hstep hasks
      cases hstep
      obtain ⟨e, he, htakes⟩ := hasks wanted hwanted
      exact ⟨e, he, .inl ⟨hinside, htakes⟩⟩
  · obtain ⟨e, he, hanswers⟩ := Reader.answers_of_finish hground hlevel hfinish hwanted
    exact ⟨e, he, .inr ⟨hend.symm, hanswers⟩⟩

/-- A byte that a fault wants is taken where the fault is, so with it the source is refused at its
end only, if at all. What a fault at the end wants may close another bracket than the innermost open
one; then it is refused for the closer of that. -/
theorem parse_wanted {source : Bytes} {fault : Fault} {wanted : Bytes}
    (h : parse source = .error fault) (hwanted : fault.cause.wanted? = some wanted) :
    ∃ r, Reader.initial.run (source.take fault.span.start) = .ok r
      ∧ (lineFeed ∉ source.take fault.span.start → r.Level)
      ∧ (r.Level → ∃ e, wanted = [e]
        ∧ (fault.span.start < source.length
            ∨ (∀ kind, e = kind.closer → r.opened.head? = some kind) →
          ∀ refused, parse (source.take fault.span.start ++ [e]) = .error refused →
            refused.span = ⟨fault.span.start + 1, fault.span.start + 1⟩)
        ∧ ∀ kind top, fault.span.start = source.length → e = kind.closer →
          r.opened.head? = some top → top ≠ kind →
            parse (source.take fault.span.start ++ [e])
              = .error ⟨.unbalanced (some [top.closer]) [e],
                  ⟨fault.span.start, fault.span.start + 1⟩⟩) := by
  obtain ⟨r, hrun, hoffset, hrefused⟩ := run_take_of_refused h
  have hspells : r.Spells (source.take fault.span.start) :=
    Reader.spells_run Reader.spells_initial rfl hrun
  refine ⟨r, hrun, Reader.level_of_spells hspells, fun hlevel => ?_⟩
  obtain ⟨e, he, hanswer⟩ := exists_wanted hrun hoffset hlevel hrefused hwanted
  refine ⟨e, he, fun haccepted refused hparse => ?_, fun kind top hend hkind hhead hne => ?_⟩
  · have htakes : r.Takes e := by
      rcases hanswer with ⟨_, htakes⟩ | ⟨hend, ⟨htakes, _⟩ | ⟨hkind, hhead, hne, _⟩⟩
      · exact htakes
      · exact htakes
      · rcases haccepted with hinside | hinner
        · omega
        · exact absurd (Option.some.inj (hhead.symm.trans (hinner _ hkind))) hne
    rw [span_of_takes hrun htakes hparse, ← Reader.offset_of_initial hrun, hoffset]
  · rcases hanswer with ⟨hinside, _⟩ | ⟨_, ⟨_, hinner⟩ | ⟨hkind', hhead', _, htake⟩⟩
    · omega
    · exact absurd (Option.some.inj (hhead.symm.trans (hinner kind hkind))) hne
    · rw [hhead] at hhead'
      cases hhead'
      refine parse_of_step hrun ?_ []
      rw [Reader.step, htake, hoffset]

/-- The command `~i[ab)` wants a square bracket in place of the parenthesis, and is read with it. -/
theorem parse_wanted_sample :
    parse [tilde, 0x69, 0x5b, 0x61, 0x62, 0x29] = .error ⟨.expected [0x5d] [0x29], ⟨5, 6⟩⟩
      ∧ ∃ r, Reader.initial.run [tilde, 0x69, 0x5b, 0x61, 0x62] = .ok r ∧ r.Level
        ∧ ∀ refused, parse [tilde, 0x69, 0x5b, 0x61, 0x62, 0x5d] = .error refused →
          refused.span = ⟨6, 6⟩ := by
  have h : parse [tilde, 0x69, 0x5b, 0x61, 0x62, 0x29] = .error ⟨.expected [0x5d] [0x29], ⟨5, 6⟩⟩ :=
    rfl
  obtain ⟨r, hrun, hlevel, hwanted⟩ := parse_wanted h rfl
  have hlevel : r.Level := hlevel (by decide)
  obtain ⟨e, he, haccepted, _⟩ := hwanted hlevel
  cases he
  exact ⟨h, r, hrun, hlevel, haccepted (.inl (by decide))⟩

/-- The command `~b[(x`, in which a parenthesis is open when the source ends. -/
def unclosedSample : Bytes :=
  [tilde, 0x62, 0x5b, 0x28, 0x78]

/-- At its end the argument wants its own closer, and the parenthesis comes before that. -/
theorem exists_wanted_refused :
    ∃ fault e refused, parse unclosedSample = .error fault ∧ fault.cause.wanted? = some [e]
      ∧ parse (unclosedSample.take fault.span.start ++ [e]) = .error refused
      ∧ refused.span.start = fault.span.start :=
  ⟨⟨.expected [0x5d] [], ⟨5, 5⟩⟩, 0x5d, ⟨.unbalanced (some [0x29]) [0x5d], ⟨5, 6⟩⟩,
    rfl, rfl, rfl, rfl⟩

end TildeMarkup
