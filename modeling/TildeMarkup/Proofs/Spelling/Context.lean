import TildeMarkup.Proofs.Spelling.Holds
import TildeMarkup.Proofs.Spelling.Respan

/-!
# One part in exchange for another

A document with one part of it left out is a `Context`. What stands in the hole may be exchanged for
another part of the same form (`Exchange`): the document around it still fits the grammar, its
brackets go through, and its nodes stay, with their spans in front of the hole, around it and behind
it adjusted (`Regrows`). So a change inside of one command, however deep it stands, is a matter of
that command alone (`Holds.exchange`).
-/

namespace TildeMarkup.Spelling

/-! ## The form of a part -/

/-- What a part is seen to be by the sequence that it stands in. -/
def Part.form : Part → Part
  | .blank b => .blank b
  | .text bytes => .text bytes
  | .run bracketed _ ending => .run bracketed [] ending
  | .call .. => .call [] [] false []

/-- What an argument is seen to be by the list that it stands in. -/
def Arg.form : Arg → Arg
  | .string _ => .string []
  | .inline _ => .inline (.text [])
  | .block _ => .block []
  | other => other

section Form

variable {p q : Part}

/-- Along a run a part is judged by its form alone, and likewise among blocks and in brackets. -/
theorem Part.inRun_form (textFits : Bool) (p : Part) : inRun textFits p = inRun textFits p.form := by
  cases p <;> rfl

theorem Part.inBlocks_form (goesOn : Bool) (p : Part) : inBlocks goesOn p = inBlocks goesOn p.form := by
  cases p with
  | run bracketed => cases bracketed <;> rfl
  | _ => rfl

theorem Part.isInline_form (p : Part) : p.isInline = p.form.isInline := by
  cases p with
  | run bracketed => cases bracketed <;> rfl
  | _ => rfl

theorem Part.isOpen_form (p : Part) : p.isOpen = p.form.isOpen := by
  cases p with
  | run _ _ ending => cases ending <;> rfl
  | _ => rfl

theorem Part.runEndsInReturn_form (before : Bool) (parts : List Part) :
    runEndsInReturn before parts = runEndsInReturn before (parts.map form) := by
  induction parts generalizing before with
  | nil => rfl
  | cons p rest ih => cases p <;> simp only [List.map_cons, form, runEndsInReturn, ih]

theorem Part.startsRun_form (bracketed : Bool) (parts : List Part) :
    startsRun bracketed parts = startsRun bracketed (parts.map form) := by
  cases parts with
  | nil => rfl
  | cons p rest =>
    cases p with
    | text bytes => cases bytes <;> rfl
    | _ => rfl

/-- A sequence with one part exchanged for another of the same form has the same forms. -/
theorem map_form_exchange (h : p.form = q.form) (front back : List Part) :
    (front ++ p :: back).map Part.form = (front ++ q :: back).map Part.form := by
  simp only [List.map_append, List.map_cons, h]

/-- Whether a sequence may stand as it does is told by the forms of its parts. -/
theorem foldlM_form {step : Bool → Part → Option Bool} (hstep : ∀ s p, step s p = step s p.form)
    (s : Bool) (parts : List Part) : parts.foldlM step s = (parts.map Part.form).foldlM step s := by
  rw [List.foldlM_map]
  exact congrArg (fun step => List.foldlM step s parts) (funext fun s => funext fun p => hstep s p)

/-- Whether arguments may stand in a command is told by the form of each. -/
theorem Arg.fitsCall_form (listed : Bool) (args : List Arg) :
    fitsCall listed args = fitsCall listed (args.map form) := by
  cases listed with
  | true =>
    have hstep (s : Bool) (arg : Arg) : inList s arg = inList s arg.form := by cases arg <;> rfl
    simp only [fitsCall, if_true, List.foldlM_map, ← hstep]
  | false => rcases args with _ | ⟨a, _ | ⟨b, more⟩⟩ <;> (try cases a) <;> rfl

theorem Arg.fitsCall_exchange {a b : Arg} {listed : Bool} {front back : List Arg}
    (hcall : fitsCall listed (front ++ a :: back) = true) (h : a.form = b.form) :
    fitsCall listed (front ++ b :: back) = true := by
  rw [fitsCall_form, List.map_append, List.map_cons] at hcall ⊢
  rwa [← h]

end Form

/-- The one part may stand wherever the other one does: it looks the same, it fits, and its brackets go
through where those of the other do. -/
structure Exchange (old new : Part) : Prop where
  form : old.form = new.form
  fits : ∀ blocks, old.Fits blocks → new.Fits blocks
  cross : ∀ σ τ, old.cross σ = some τ → new.cross σ = some τ

/-! ## Contexts -/

/-- A part with one part inside of it left out, given by the way from the outside to the hole. -/
inductive Context where
  | hole
  | run (bracketed : Bool) (front : List Part) (inner : Context) (back : List Part) (ending : Ending)
  | inline (name gap : Bytes) (listed : Bool) (front : List Arg) (inner : Context) (back : List Arg)
  | block (name gap : Bytes) (listed : Bool) (front : List Arg) (before : List Part)
      (inner : Context) (after : List Part) (back : List Arg)

namespace Context

/-- The part that the context is when its hole is filled. -/
def plug : Context → Part → Part
  | hole, p => p
  | run bracketed front inner back ending, p =>
    .run bracketed (front ++ inner.plug p :: back) ending
  | inline name gap listed front inner back, p =>
    .call name gap listed (front ++ .inline (inner.plug p) :: back)
  | block name gap listed front before inner after back, p =>
    .call name gap listed (front ++ .block (before ++ inner.plug p :: after) :: back)

/-- The bytes in front of the hole, with the openers of all that encloses it. -/
def before : Context → Bytes
  | hole => []
  | run _ front inner _ _ => Part.bytesAll front ++ inner.before
  | inline name gap listed front inner _ =>
    callHead name gap listed ++ (Arg.bytesAll front ++ Bracket.square.opener :: inner.before)
  | block name gap listed front before inner _ _ =>
    callHead name gap listed ++ (Arg.bytesAll front
      ++ Bracket.curly.opener :: (Part.bytesAll before ++ inner.before))

/-- The bytes behind the hole, with the closers of all that encloses it. -/
def after : Context → Bytes
  | hole => []
  | run _ _ inner back ending => inner.after ++ (Part.bytesAll back ++ ending.bytes)
  | inline _ _ listed _ inner back =>
    inner.after ++ Bracket.square.closer :: (Arg.bytesAll back ++ callTail listed)
  | block _ _ listed _ _ inner after back =>
    inner.after ++ (Part.bytesAll after
      ++ Bracket.curly.closer :: (Arg.bytesAll back ++ callTail listed))

/-- The bytes of a filled context are those around the hole and those of what is in it. -/
theorem bytes_plug (ctx : Context) (p : Part) :
    (ctx.plug p).bytes = ctx.before ++ (p.bytes ++ ctx.after) := by
  induction ctx with
  | hole => simp [plug, before, after]
  | run _ front inner back ending ih =>
    simp [plug, before, after, Part.bytes, Part.bytesAll_append, Part.bytesAll, ih]
  | inline name gap listed front inner back ih =>
    simp [plug, before, after, Part.bytes_call_eq, Arg.bytesAll_append, Arg.bytesAll, Arg.bytes, ih]
  | block name gap listed front parts inner others back ih =>
    simp [plug, before, after, Part.bytes_call_eq, Arg.bytesAll_append, Arg.bytesAll, Arg.bytes,
      Part.bytesAll_append, Part.bytesAll, ih]

/-- Where a part holds another, it is that one in its context. -/
theorem exists_of_holds {n m : Nat} {part found : Part} (h : Part.Holds n part m found) :
    ∃ ctx : Context, part = ctx.plug found ∧ m = n + ctx.before.length := by
  induction h with
  | self => exact ⟨hole, rfl, rfl⟩
  | run front back _ ih =>
    obtain ⟨ctx, rfl, rfl⟩ := ih
    refine ⟨run _ front ctx back _, rfl, ?_⟩
    simp only [before, List.length_append]
    omega
  | @inline _ _ name gap listed _ _ front back _ ih =>
    obtain ⟨ctx, rfl, rfl⟩ := ih
    refine ⟨inline name gap listed front ctx back, rfl, ?_⟩
    simp only [before, argsStart_eq, List.length_append, List.length_cons]
    omega
  | @block _ _ name gap listed _ _ front back parts others _ ih =>
    obtain ⟨ctx, rfl, rfl⟩ := ih
    refine ⟨block name gap listed front parts ctx others back, rfl, ?_⟩
    simp only [before, argsStart_eq, List.length_append, List.length_cons]
    omega

section Exchange

variable {old new : Part}

theorem form_plug (h : Exchange old new) (ctx : Context) :
    (ctx.plug old).form = (ctx.plug new).form := by
  cases ctx with
  | hole => exact h.form
  | _ => rfl

/-- What fits the grammar around the one part fits it around the other, by induction on the context. -/
theorem fits_plug (h : Exchange old new) (ctx : Context) :
    ∀ blocks, (ctx.plug old).Fits blocks → (ctx.plug new).Fits blocks := by
  induction ctx with
  | hole => exact h.fits
  | run bracketed front inner back ending ih =>
    rintro blocks ⟨hstarts, hruns, hreturn, hpieces⟩
    obtain ⟨hfront, hinner, hback⟩ := Part.fitsAll_append.1 hpieces
    have hform := map_form_exchange (form_plug h inner) front back
    refine ⟨?_, ?_, fun hline => ?_, Part.fitsAll_append.2 ⟨hfront, ih _ hinner, hback⟩⟩
    · rwa [Part.startsRun_form, ← hform, ← Part.startsRun_form]
    · rwa [foldlM_form Part.inRun_form, ← hform, ← foldlM_form Part.inRun_form]
    · rw [Part.runEndsInReturn_form, ← hform, ← Part.runEndsInReturn_form]
      exact hreturn hline
  | inline name gap listed front inner back ih =>
    rintro blocks ⟨hname, hgap, hcall, hargs⟩
    obtain ⟨hfront, ⟨hinline, hinner⟩, hback⟩ := Arg.fitsAll_append.1 hargs
    refine ⟨hname, hgap, Arg.fitsCall_exchange hcall rfl,
      Arg.fitsAll_append.2 ⟨hfront, ⟨?_, ih _ hinner⟩, hback⟩⟩
    rwa [Part.isInline_form, ← form_plug h inner, ← Part.isInline_form]
  | block name gap listed front parts inner others back ih =>
    rintro blocks ⟨hname, hgap, hcall, hargs⟩
    obtain ⟨hfront, ⟨hallowed, hsequence, hparts⟩, hback⟩ := Arg.fitsAll_append.1 hargs
    obtain ⟨hbefore, hinner, hafter⟩ := Part.fitsAll_append.1 hparts
    have hform := map_form_exchange (form_plug h inner) parts others
    refine ⟨hname, hgap, Arg.fitsCall_exchange hcall rfl,
      Arg.fitsAll_append.2 ⟨hfront, ⟨hallowed, ?_, ?_⟩, hback⟩⟩
    · rwa [foldlM_form Part.inBlocks_form, ← hform, ← foldlM_form Part.inBlocks_form]
    · exact Part.fitsAll_append.2 ⟨hbefore, ih _ hinner, hafter⟩

end Exchange

end Context

theorem Part.crossAll_exchange {p q : Part} (h : ∀ σ τ, p.cross σ = some τ → q.cross σ = some τ)
    {front back : List Part} {σ τ : List Bracket}
    (hcross : Part.crossAll σ (front ++ p :: back) = some τ) :
    Part.crossAll σ (front ++ q :: back) = some τ := by
  rw [Part.crossAll_append] at hcross ⊢
  obtain ⟨middle, hfront, hrest⟩ := Option.bind_eq_some_iff.1 hcross
  rw [Part.crossAll] at hrest
  obtain ⟨next, hpart, hback⟩ := Option.bind_eq_some_iff.1 hrest
  rw [hfront, Option.bind_some, Part.crossAll, h middle next hpart]
  exact hback

theorem Arg.crossAll_exchange {a b : Arg} (h : ∀ σ τ, a.cross σ = some τ → b.cross σ = some τ)
    {front back : List Arg} {σ τ : List Bracket}
    (hcross : Arg.crossAll σ (front ++ a :: back) = some τ) :
    Arg.crossAll σ (front ++ b :: back) = some τ := by
  rw [Arg.crossAll_append] at hcross ⊢
  obtain ⟨middle, hfront, hrest⟩ := Option.bind_eq_some_iff.1 hcross
  rw [Arg.crossAll] at hrest
  obtain ⟨next, harg, hback⟩ := Option.bind_eq_some_iff.1 hrest
  rw [hfront, Option.bind_some, Arg.crossAll, h middle next harg]
  exact hback

/-- The brackets of a command go through where those of its arguments do. -/
theorem Part.cross_call_of_crossAll {name gap name' gap' : Bytes} {listed : Bool}
    {args others : List Arg} (h : ∀ σ τ, Arg.crossAll σ args = some τ → Arg.crossAll σ others = some τ)
    {σ τ : List Bracket} (hcross : (Part.call name gap listed args).cross σ = some τ) :
    (Part.call name' gap' listed others).cross σ = some τ := by
  -- A list pops its own parenthesis behind the arguments, and that is the same on both sides.
  cases listed with
  | true =>
    simp only [Part.cross, if_true] at hcross ⊢
    obtain ⟨inner, hargs, hpop⟩ := Option.bind_eq_some_iff.1 hcross
    rw [h _ _ hargs]
    exact hpop
  | false =>
    simp only [Part.cross, Bool.false_eq_true, if_false] at hcross ⊢
    exact h _ _ hcross

/-- What goes through around the one part goes through around the other, to the same stack. -/
theorem Context.cross_plug {old new : Part} (h : Exchange old new) (ctx : Context) :
    ∀ σ τ, (ctx.plug old).cross σ = some τ → (ctx.plug new).cross σ = some τ := by
  -- From the hole outwards. Whether a closer may come is told by the form, which the exchange keeps.
  induction ctx with
  | hole => exact h.cross
  | run bracketed front inner back ending ih =>
    intro σ τ hcross
    exact Part.crossAll_exchange ih hcross
  | inline name gap listed front inner back ih =>
    intro σ τ
    refine Part.cross_call_of_crossAll fun σ τ => Arg.crossAll_exchange fun σ τ harg => ?_
    rw [Arg.cross] at harg ⊢
    obtain ⟨opened, hinner, hclose⟩ := Option.bind_eq_some_iff.1 harg
    rw [ih _ _ hinner, Part.isOpen_form, ← Context.form_plug h inner, ← Part.isOpen_form]
    exact hclose
  | block name gap listed front parts inner others back ih =>
    intro σ τ
    refine Part.cross_call_of_crossAll fun σ τ => Arg.crossAll_exchange fun σ τ harg => ?_
    rw [Arg.cross] at harg ⊢
    obtain ⟨opened, hparts, hclose⟩ := Option.bind_eq_some_iff.1 harg
    rw [Part.crossAll_exchange ih hparts]
    exact hclose

/-! ## The nodes around the hole -/

/-- What becomes of the spans of a source when the `len` bytes from `m` on are replaced by others, of
which there are `len'`. -/
structure Regrows (f : Span → Span) (m len len' : Nat) : Prop where
  before : ∀ n len, n + len ≤ m → Moves f n n len
  around : ∀ a b, a < m → 0 < b → f ⟨a, m + len + b⟩ = ⟨a, m + len' + b⟩
  behind : ∀ n, Moves f (m + len) (m + len') n

namespace Regrows

variable {f : Span → Span} {m len len' : Nat}

/-- A span around the hole that goes on for `k` bytes behind it keeps its start and has a new end. -/
theorem enclosing (h : Regrows f m len len') {a b b' : Nat} (k : Nat) (ha : a < m) (hk : 0 < k)
    (hb : b = m + len + k) (hb' : b' = m + len' + k) : f ⟨a, b⟩ = ⟨a, b'⟩ := by
  rw [hb, hb']
  exact h.around a k ha hk

/-- The spans from `k` bytes behind the hole on are moved by the difference. -/
theorem later (h : Regrows f m len len') {n n' : Nat} (k : Nat) (hn : n = m + len + k)
    (hn' : n' = m + len' + k) (more : Nat) : Moves f n n' more := by
  rw [hn, hn']
  exact (h.behind (k + more)).sub k (Nat.le_refl _)

/-- Two replacements at the same offset, one after the other, are a replacement there. -/
theorem comp {g : Span → Span} {len'' : Nat} (h : Regrows f m len len') (hg : Regrows g m len' len'') :
    Regrows (g ∘ f) m len len'' where
  before n more hmore := (h.before n more hmore).comp (hg.before n more hmore)
  around a b ha hb := by rw [Function.comp, h.around a b ha hb, hg.around a b ha hb]
  behind n := (h.behind n).comp (hg.behind n)

end Regrows

section Regrows

variable {f : Span → Span} {blocks : Bool} {n m : Nat} {old new : Part}

theorem Arg.argumentsAll_exchange {a b : Arg} {front back : List Arg}
    (hfront : Arg.FitsAll blocks front) (hback : Arg.FitsAll blocks back)
    (hkept : Moves f n n (Arg.bytesAll front).length)
    (harg : b.arguments (n + (Arg.bytesAll front).length)
      = (a.arguments (n + (Arg.bytesAll front).length)).map (Argument.respanTree f))
    (hmoved : Moves f (n + (Arg.bytesAll front).length + a.bytes.length)
      (n + (Arg.bytesAll front).length + b.bytes.length) (Arg.bytesAll back).length) :
    Arg.argumentsAll n (front ++ b :: back)
      = (Arg.argumentsAll n (front ++ a :: back)).map (Argument.respanTree f) := by
  rw [Arg.argumentsAll_append, Arg.argumentsAll_append, Arg.argumentsAll, Arg.argumentsAll,
    List.map_append, List.map_append, ← Arg.argumentsAll_respan front hfront hkept, harg,
    ← Arg.argumentsAll_respan back hback hmoved]

theorem Arg.arguments_inline_exchange {p q : Part}
    (hspan : f ⟨n, n + p.bytes.length + 2⟩ = ⟨n, n + q.bytes.length + 2⟩)
    (hpart : q.trees (n + 1) = (p.trees (n + 1)).map (Tree.respan f)) :
    (Arg.inline q).arguments n = ((Arg.inline p).arguments n).map (Argument.respanTree f) := by
  simp only [Arg.arguments, hpart, List.map_map, Function.comp_def, Argument.respanTree,
    Argument.map, Argument.respan, hspan]

theorem Arg.arguments_block_exchange {parts others : List Part}
    (hspan : f ⟨n, n + (Part.bytesAll parts).length + 2⟩
      = ⟨n, n + (Part.bytesAll others).length + 2⟩)
    (hparts : Part.treesAll (n + 1) others = (Part.treesAll (n + 1) parts).map (Tree.respan f)) :
    (Arg.block others).arguments n
      = ((Arg.block parts).arguments n).map (Argument.respanTree f) := by
  simp only [Arg.arguments, hparts, List.map_singleton, Argument.respanTree, Argument.map,
    Argument.respan, hspan]

/-- A command keeps its name when one of its arguments is replaced. -/
theorem Part.trees_call_exchange {name gap : Bytes} {listed : Bool} {a b : Arg}
    {front back : List Arg} (hargs : Arg.FitsAll blocks (front ++ a :: back))
    (hkept : Moves f n n ((callHead name gap listed).length + (Arg.bytesAll front).length))
    (harg : b.arguments (argsStart n name gap listed + (Arg.bytesAll front).length)
      = (a.arguments (argsStart n name gap listed + (Arg.bytesAll front).length)).map
        (Argument.respanTree f))
    (hmoved : Moves f (argsStart n name gap listed + (Arg.bytesAll front).length + a.bytes.length)
      (argsStart n name gap listed + (Arg.bytesAll front).length + b.bytes.length)
      (Arg.bytesAll back).length) :
    (Part.call name gap listed (front ++ b :: back)).trees n
      = ((Part.call name gap listed (front ++ a :: back)).trees n).map (Tree.respan f) := by
  obtain ⟨hfront, _, hback⟩ := Arg.fitsAll_append.1 hargs
  have hname : f ⟨n + 1, n + 1 + name.length⟩ = ⟨n + 1, n + 1 + name.length⟩ :=
    hkept.span rfl rfl (by omega) (by simp only [callHead, List.length_cons, List.length_append]; omega)
  have hlead := hkept.sub (callHead name gap listed).length (Nat.le_refl _)
  rw [← argsStart_eq n name gap listed] at hlead
  exact Part.trees_call_respan hname (Arg.argumentsAll_exchange hfront hback hlead harg hmoved)

/-- The nodes of a sequence with the hole in one of its parts. -/
theorem Context.treesAll_plug (ctx : Context) {front back : List Part}
    (hf : Regrows f m old.bytes.length new.bytes.length)
    (hfits : Part.FitsAll blocks (front ++ ctx.plug old :: back))
    (hn : n + (Part.bytesAll front).length + ctx.before.length = m)
    (hpart : (ctx.plug new).trees (n + (Part.bytesAll front).length)
      = ((ctx.plug old).trees (n + (Part.bytesAll front).length)).map (Tree.respan f)) :
    Part.treesAll n (front ++ ctx.plug new :: back)
      = (Part.treesAll n (front ++ ctx.plug old :: back)).map (Tree.respan f) := by
  obtain ⟨hfront, _, hback⟩ := Part.fitsAll_append.1 hfits
  have hold := congrArg List.length (ctx.bytes_plug old)
  have hnew := congrArg List.length (ctx.bytes_plug new)
  simp only [List.length_append] at hold hnew
  -- In front of the hole nothing moves, and behind it everything moves by the difference.
  have hkept := hf.before n (Part.bytesAll front).length (by omega)
  have hmoved : Moves f (n + (Part.bytesAll front).length + (ctx.plug old).bytes.length)
      (n + (Part.bytesAll front).length + (ctx.plug new).bytes.length)
      (Part.bytesAll back).length :=
    hf.later ctx.after.length (by omega) (by omega) _
  rw [Part.treesAll_append, Part.treesAll_append, Part.treesAll, Part.treesAll, List.map_append,
    List.map_append, ← Part.treesAll_respan front hfront hkept, hpart,
    ← Part.treesAll_respan back hback hmoved]

/-- The nodes of a context change as the nodes in the hole do, by induction on the context. -/
theorem Context.trees_plug (hf : Regrows f m old.bytes.length new.bytes.length)
    (htrees : new.trees m = (old.trees m).map (Tree.respan f)) (ctx : Context) :
    ∀ {blocks n}, (ctx.plug old).Fits blocks → n + ctx.before.length = m →
      (ctx.plug new).trees n = ((ctx.plug old).trees n).map (Tree.respan f) := by
  induction ctx with
  | hole =>
    intro _ n _ hn
    have hm : n = m := hn
    rw [hm]
    exact htrees
  | run bracketed front inner back ending ih =>
    rintro blocks n ⟨_, _, _, hpieces⟩ hn
    simp only [before, List.length_append] at hn
    have hinner := ih (Part.fitsAll_append.1 hpieces).2.1 (n := n + (Part.bytesAll front).length)
      (by omega)
    have hall := inner.treesAll_plug hf hpieces (by omega) hinner
    cases bracketed <;>
      simp only [plug, Part.trees, List.map_singleton, Tree.respan_node, Node.map, Node.respan, hall]
  | inline name gap listed front inner back ih =>
    rintro blocks n ⟨_, _, _, hargs⟩ hn
    simp only [before, List.length_append, List.length_cons] at hn
    have hstart := argsStart_eq n name gap listed
    have hlength (p : Part) : (inner.plug p).bytes.length
        = inner.before.length + p.bytes.length + inner.after.length := by
      simp only [inner.bytes_plug, List.length_append]
      omega
    have hold := hlength old
    have hnew := hlength new
    have hinner := ih (Arg.fitsAll_append.1 hargs).2.1.2
      (n := argsStart n name gap listed + (Arg.bytesAll front).length + 1) (by omega)
    -- the brackets go around the hole, the other arguments stand in front of it or behind it
    refine Part.trees_call_exchange hargs (hf.before n _ (by omega))
      (Arg.arguments_inline_exchange ?_ hinner) ?_
    · exact hf.enclosing (inner.after.length + 1) (by omega) (by omega) (by omega) (by omega)
    · rw [Arg.length_bytes_inline, Arg.length_bytes_inline]
      exact hf.later (inner.after.length + 1) (by omega) (by omega) _
  | block name gap listed front parts inner others back ih =>
    rintro blocks n ⟨_, _, _, hargs⟩ hn
    simp only [before, List.length_append, List.length_cons] at hn
    have hparts := (Arg.fitsAll_append.1 hargs).2.1.2.2
    have hstart := argsStart_eq n name gap listed
    have hlength (p : Part) : (Part.bytesAll (parts ++ inner.plug p :: others)).length
        = (Part.bytesAll parts).length + inner.before.length + p.bytes.length
          + (inner.after.length + (Part.bytesAll others).length) := by
      simp only [Part.bytesAll_append, Part.bytesAll, inner.bytes_plug, List.length_append]
      omega
    have hold := hlength old
    have hnew := hlength new
    have hinner := ih (Part.fitsAll_append.1 hparts).2.1
      (n := argsStart n name gap listed + (Arg.bytesAll front).length + 1
        + (Part.bytesAll parts).length) (by omega)
    have hall := inner.treesAll_plug hf hparts (by omega) hinner
    let behind := inner.after.length + (Part.bytesAll others).length
    refine Part.trees_call_exchange hargs (hf.before n _ (by omega))
      (Arg.arguments_block_exchange ?_ hall) ?_
    · exact hf.enclosing (behind + 1) (by omega) (by omega) (by omega) (by omega)
    · rw [Arg.length_bytes_block, Arg.length_bytes_block]
      exact hf.later (behind + 1) (by omega) (by omega) _

end Regrows

/-! ## Exchanging a part of a document -/

/-- A part of a document is exchanged for another: what the document is then, and its nodes. -/
theorem Holds.exchange {parts : List Part} {opened : List Bracket} {m : Nat} {old new : Part}
    {f : Span → Span} (hparts : IsDocument parts opened) (h : Holds parts m old)
    (hexchange : Exchange old new) (hf : Regrows f m old.bytes.length new.bytes.length)
    (htrees : new.trees m = (old.trees m).map (Tree.respan f)) :
    ∃ others before after, IsDocument others opened
      ∧ Part.bytesAll parts = before ++ (old.bytes ++ after) ∧ before.length = m
      ∧ Part.bytesAll others = before ++ (new.bytes ++ after)
      ∧ documentTree others = (documentTree parts).respan f := by
  obtain ⟨front, part, back, rfl, hholds⟩ := h
  obtain ⟨ctx, rfl, hm⟩ := Context.exists_of_holds hholds
  obtain ⟨hsequence, hfits, hbrackets⟩ := hparts
  obtain ⟨hfront, hpart, hback⟩ := Part.fitsAll_append.1 hfits
  have hform := map_form_exchange (Context.form_plug hexchange ctx) front back
  have hbytes (p : Part) : Part.bytesAll (front ++ ctx.plug p :: back)
      = Part.bytesAll front ++ ctx.before ++ (p.bytes ++ (ctx.after ++ Part.bytesAll back)) := by
    simp only [Part.bytesAll_append, Part.bytesAll, ctx.bytes_plug, List.append_assoc]
  -- The new document is the old one with the hole filled anew; the rest are its three conditions, its
  -- bytes and its nodes.
  refine ⟨front ++ ctx.plug new :: back, Part.bytesAll front ++ ctx.before, _, ⟨?_, ?_, ?_⟩,
    hbytes old, ?_, hbytes new, ?_⟩
  · rwa [foldlM_form Part.inBlocks_form, ← hform, ← foldlM_form Part.inBlocks_form]
  · exact Part.fitsAll_append.2 ⟨hfront, ctx.fits_plug hexchange _ hpart, hback⟩
  · exact Part.crossAll_exchange (ctx.cross_plug hexchange) hbrackets
  · rw [List.length_append]
    exact hm.symm
  · have hall := ctx.treesAll_plug (n := 0) hf hfits (by omega)
      (ctx.trees_plug hf htrees hpart (by omega))
    rw [documentTree, documentTree, Tree.respan_node, hall]
    rfl

end TildeMarkup.Spelling
