import TildeMarkup.Proofs.Spelling.Accepted
import TildeMarkup.Proofs.Spelling.Growth

/-!
# What is read is spelled

The converse of `Spelling/Accepted`: a source that is read without a fault has a spelling, and the
tree is the one that the spelling stands for.

The bytes that a reader has taken spell a document up to the place where it stands. `Scope.Spells`,
`Place.Spells` and `Call.Spells` say so for what encloses that place, from the outside in, and
`Mode.Spells` for what the reader is in the middle of. One step keeps it (`spells_step`), with a
lemma for each function that a step is made of, so a whole run does (`spells_run`).

A scope of blocks that the end of the source or a closer may end has parts that need not go on;
`goesOn` tells the two apart. As in the grammar, `τ` is open in the scope and `β` below it.
-/

namespace TildeMarkup

open Spelling

namespace Reader

/-- A command at the place may have an argument in braces: it stands alone, among blocks. -/
def Scope.allowsBraces (S : Scope) : Place → Bool
  | .alone => S.allowsBlocks
  | .within _ => false

theorem allowsBraces_eq (r : Reader) (place : Place) :
    r.allowsBraces place = r.scope.allowsBraces place := by
  cases place <;> rfl

/-! ## The invariant -/

mutual

/-- The bytes spell the scope and what it holds, up to where the reader stands in it. -/
inductive Scope.Spells : Scope → (goesOn : Bool) → (τ β : List Bracket) → Bytes → Prop where
  | document (parts : List Part) {goesOn : Bool} {τ : List Bracket}
      (hparts : Blocks parts goesOn τ) :
      Scope.Spells (.document (Part.treesAll 0 parts).reverse) goesOn τ [] (Part.bytesAll parts)
  | braces {outer : Scope} {call : Call} {σ β τ : List Bracket} {w : Bytes} (parts : List Part)
      {goesOn : Bool} (hcall : Call.Spells outer call true σ β w)
      (hallowed : outer.allowsBraces call.place = true) (hparts : Blocks parts goesOn τ) :
      Scope.Spells
        (.braces outer call w.length ((σ ++ β).length + 1)
          (Part.treesAll (w.length + 1) parts).reverse)
        goesOn τ (.curly :: (σ ++ β)) (w ++ Bracket.curly.opener :: Part.bytesAll parts)
  | vacant {outer : Scope} {call : Call} {σ β : List Bracket} {w : Bytes}
      (hcall : Call.Spells outer call true σ β w) :
      Scope.Spells (.brackets outer call w.length ((σ ++ β).length + 1) none)
        true [] (.square :: (σ ++ β)) (w ++ [Bracket.square.opener])
  | filled {outer : Scope} {call : Call} {σ β τ : List Bracket} {w : Bytes} (part : Part)
      {tree : Tree} {goesOn : Bool} (hcall : Call.Spells outer call true σ β w)
      (hinline : part.isInline = true) (hgoes : goesOn = !part.isOpen) (hfits : part.Fits false)
      (hcross : part.cross [] = some τ) (htree : part.trees (w.length + 1) = [tree]) :
      Scope.Spells (.brackets outer call w.length ((σ ++ β).length + 1) (some tree))
        goesOn τ (.square :: (σ ++ β)) (w ++ Bracket.square.opener :: part.bytes)

/-- The bytes spell the scope, and the pieces in front of a command at the place, if it is in a run. -/
inductive Place.Spells : Scope → Place → (τ β : List Bracket) → Bytes → Prop where
  | alone {S : Scope} {τ β : List Bracket} {w : Bytes} (hvacant : S.Vacant)
      (hscope : Scope.Spells S true τ β w) : Place.Spells S .alone τ β w
  | within {S : Scope} {τ₀ τ β : List Bracket} {w : Bytes} (pieces : List Part)
      (hvacant : S.Vacant) (hscope : Scope.Spells S true τ₀ β w)
      (hpieces : Pieces τ₀ pieces τ) (hstarted : Started S pieces) :
      Place.Spells S (.within (Part.treesAll w.length pieces).reverse) τ β
        (w ++ Part.bytesAll pieces)

/-- The bytes spell the scope, and the command in it as far as it goes. `argFits` tells whether an
argument may be next. -/
inductive Call.Spells : Scope → Call → (argFits : Bool) → (τ β : List Bracket) → Bytes → Prop where
  | single {S : Scope} {place : Place} {τ β : List Bracket} {w : Bytes} (name gap : Bytes)
      (hplace : Place.Spells S place τ β w) (hname : name.all isLetter = true)
      (hgap : gap.all isBlank = true) :
      Call.Spells S ⟨place, ⟨w.length + 1, w.length + 1 + name.length⟩, false, []⟩ true τ β
        (w ++ tilde :: (name ++ gap))
  | listed {S : Scope} {place : Place} {τ₀ τ β : List Bracket} {w : Bytes} (name gap : Bytes)
      (args : List Arg) {argFits : Bool}
      (hplace : Place.Spells S place τ₀ β w) (hname : name.all isLetter = true)
      (hgap : gap.all isBlank = true) (hsequence : args.foldlM Arg.inList true = some argFits)
      (hfits : Arg.FitsAll (S.allowsBraces place) args)
      (hcross : Arg.crossAll (.round :: τ₀) args = some τ) :
      Call.Spells S ⟨place, ⟨w.length + 1, w.length + 1 + name.length⟩, true,
          (Arg.argumentsAll (argsStart w.length name gap true) args).reverse⟩ argFits τ β
        (w ++ tilde :: (name ++ (gap ++ Bracket.round.opener :: Arg.bytesAll args)))

end

/-- The bytes spell the scope, and what the reader is in the middle of, up to its last byte. -/
inductive Mode.Spells : List Bracket → Scope → Mode → Bytes → Prop where
  | ready {S : Scope} {τ β : List Bracket} {w : Bytes} (hscope : Scope.Spells S true τ β w) :
      Mode.Spells (τ ++ β) S .ready w
  | text {S : Scope} {τ₀ τ β : List Bracket} {w : Bytes} (pieces : List Part) (bytes : Bytes)
      (hvacant : S.Vacant) (hscope : Scope.Spells S true τ₀ β w)
      (hpieces : Pieces τ₀ (pieces ++ pending bytes) τ)
      (htext : pieces.foldlM Part.inRun true = some true)
      (hstarted : Started S (pieces ++ pending bytes)) :
      Mode.Spells (τ ++ β) S
        (.text (Part.treesAll w.length pieces).reverse (w.length + (Part.bytesAll pieces).length)
          (endsInReturn false bytes))
        (w ++ Part.bytesAll (pieces ++ pending bytes))
  | name {S : Scope} {place : Place} {τ β : List Bracket} {w : Bytes} (letters : Bytes)
      (hplace : Place.Spells S place τ β w) (hletters : letters.all isLetter = true) :
      Mode.Spells (τ ++ β) S (.name place (w.length + 1)) (w ++ tilde :: letters)
  | head {S : Scope} {place : Place} {name : Span} {τ β : List Bracket} {w : Bytes}
      (hcall : Call.Spells S ⟨place, name, false, []⟩ true τ β w) :
      Mode.Spells (τ ++ β) S (.head place name) w
  | list {S : Scope} {call : Call} {fresh : Bool} {τ β : List Bracket} {w : Bytes}
      (hcall : Call.Spells S call true τ β w) (hlisted : call.listed = true) :
      Mode.Spells (τ ++ β) S (.list call fresh) w
  | ident {S : Scope} {call : Call} {τ β : List Bracket} {w : Bytes} (letters : Bytes)
      (hcall : Call.Spells S call true τ β w) (hlisted : call.listed = true)
      (hne : letters ≠ []) (hletters : letters.all isLetter = true) :
      Mode.Spells (τ ++ β) S (.ident call w.length) (w ++ letters)
  | string {S : Scope} {call : Call} {escaped : Bool} {τ β : List Bracket} {w : Bytes} (raw : Bytes)
      (hcall : Call.Spells S call true τ β w) (hlisted : call.listed = true)
      (hraw : ∀ rest, quotable false (raw ++ rest) = quotable escaped rest) :
      Mode.Spells (τ ++ β) S (.string call w.length escaped) (w ++ quote :: raw)
  | next {S : Scope} {call : Call} {τ β : List Bracket} {w : Bytes}
      (hcall : Call.Spells S call false τ β w) (hlisted : call.listed = true) :
      Mode.Spells (τ ++ β) S (.next call) w

/-- The bytes that the reader has taken spell a document up to the place where it stands. -/
def Spells (r : Reader) (w : Bytes) : Prop :=
  Mode.Spells r.opened r.scope r.mode w

/-- The base of a scope is as high as the depth that the scope has remembered. -/
theorem Scope.Spells.length_base {S : Scope} {goesOn : Bool} {τ β : List Bracket} {w : Bytes}
    (h : Scope.Spells S goesOn τ β w) : β.length = S.depth := by
  cases h <;> rfl

/-! ## Adding a part -/

/-- A part is added to a scope that has room for it, with its bytes behind those of the scope. -/
theorem Scope.Spells.add {S : Scope} {τ₀ τ β : List Bracket} {w : Bytes} {tree : Tree}
    {goesOn : Bool} (h : Scope.Spells S true τ₀ β w) (part : Part) (hvacant : S.Vacant)
    (hblock : S.allowsBlocks = true → Part.inBlocks true part = some goesOn)
    (hinline : S.allowsBlocks = false → part.isInline = true ∧ goesOn = !part.isOpen)
    (hfits : part.Fits S.allowsBlocks) (hcross : part.cross τ₀ = some τ)
    (htree : part.trees w.length = [tree]) :
    Scope.Spells (S.add tree) goesOn τ β (w ++ part.bytes) := by
  cases h with
  -- the part goes behind those that the scope has already
  | @document parts _ _ hparts =>
    have h := Scope.Spells.document _ (hparts.add part (hblock rfl) hfits hcross)
    rw [Part.treesAll_append, Nat.zero_add, Part.treesAll_singleton, htree, List.reverse_append,
      Part.bytesAll_append, Part.bytesAll_singleton] at h
    exact h
  | @braces outer call σ β _ w parts _ hcall hallowed hparts =>
    have h := Scope.Spells.braces _ hcall hallowed (hparts.add part (hblock rfl) hfits hcross)
    have hstart : w.length + 1 + (Part.bytesAll parts).length
        = (w ++ Bracket.curly.opener :: Part.bytesAll parts).length := by
      rw [List.length_append, List.length_cons]
      omega
    rw [Part.treesAll_append, Part.treesAll_singleton, hstart, htree, List.reverse_append,
      Part.bytesAll_append, Part.bytesAll_singleton] at h
    rw [List.append_assoc]
    exact h
  -- square brackets hold a single part, so this one fills them
  | vacant hcall =>
    obtain ⟨hinline, hgoes⟩ := hinline rfl
    rw [List.length_append, List.length_singleton] at htree
    rw [List.append_assoc]
    exact .filled part hcall hinline hgoes hfits hcross htree
  | filled => exact hvacant.elim

/-! ## Finishing a command or an argument -/

variable {r next : Reader} {w : Bytes} {τ₀ τ β : List Bracket} {b : UInt8}

/-- A finished command is a part of the scope, or a piece of the run around it. -/
theorem spells_finishCall (r : Reader) (call : Call) (part : Part)
    (hplace : Place.Spells r.scope call.place τ₀ β w) (hcall : part.isCall = true)
    (hfits : part.Fits (r.scope.allowsBraces call.place)) (hcross : part.cross τ₀ = some τ)
    (htree : part.trees w.length = [.node (.command call.name call.args.reverse)])
    (hopened : r.opened = τ ++ β) (hoffset : r.offset + 1 = w.length + part.bytes.length) :
    (r.finishCall call).Spells (w ++ part.bytes) := by
  obtain ⟨place, name, listed, args⟩ := call
  obtain ⟨n, σ, S, m⟩ := r
  cases hopened
  cases hplace with
  | alone hvacant hscope =>
    have hinline : part.isInline = true ∧ true = !part.isOpen := by
      cases part with
      | call => exact ⟨rfl, rfl⟩
      | _ => cases hcall
    have hblock : Part.inBlocks true part = some true := by
      cases part with
      | call => rfl
      | _ => cases hcall
    exact .ready (hscope.add part hvacant (fun _ => hblock) (fun _ => hinline) hfits hcross htree)
  -- inside a run the command is a piece, and a text without bytes is pending after it
  | @within _ τ₁ _ _ w pieces hvacant hscope hpieces hstarted =>
    have hstart : w.length + (Part.bytesAll (pieces ++ [part])).length = n + 1 := by
      rw [Part.bytesAll_append, Part.bytesAll_singleton, hoffset, List.length_append,
        List.length_append, Nat.add_assoc]
    have hpieces' : Pieces τ₁ (pieces ++ [part] ++ pending []) τ := by
      rw [pending_nil, List.append_nil]
      exact hpieces.add hcall hfits hcross
    have h := Mode.Spells.text _ [] hvacant hscope hpieces' (hpieces.sequence_call hcall)
      ((hstarted.append [part]).append (pending []))
    rw [hstart, Part.treesAll_append, ← List.length_append, Part.treesAll_singleton, htree,
      List.reverse_append, bytesAll_pending, List.append_nil, Part.bytesAll_append,
      Part.bytesAll_singleton, ← List.append_assoc] at h
    exact h

/-- An argument of a list, or what stands between two of them, goes behind what the list holds. -/
theorem Call.Spells.push {S : Scope} {call : Call} {argFits nextFits : Bool}
    (hcall : Call.Spells S call argFits τ₀ β w) (arg : Arg) (hlisted : call.listed = true)
    (hfits : arg.Fits (S.allowsBraces call.place)) (hcross : arg.cross τ₀ = some τ)
    (hlist : Arg.inList argFits arg = some nextFits) :
    Call.Spells S { call with args := (arg.arguments w.length).reverse ++ call.args } nextFits τ β
      (w ++ arg.bytes) := by
  cases hcall with
  | single => cases hlisted
  | @listed _ place τ₁ _ _ w name gap args _ hplace hname hgap hsequence hall hinner =>
    -- the new argument starts where the bytes taken so far end
    have hstart : argsStart w.length name gap true + (Arg.bytesAll args).length
        = (w ++ tilde :: (name ++ (gap ++ Bracket.round.opener :: Arg.bytesAll args))).length := by
      simp only [argsStart, List.length_append, List.length_cons, if_true]
      omega
    have hseq : (args ++ [arg]).foldlM Arg.inList true = some nextFits := by
      rw [List.foldlM_append, hsequence]
      show (Arg.inList argFits arg).bind _ = _
      rw [hlist]
      rfl
    have hcrosses : Arg.crossAll (.round :: τ₁) (args ++ [arg]) = some τ := by
      rw [Arg.crossAll_append, hinner]
      exact (Arg.crossAll_singleton τ₀ arg).trans hcross
    have h := Call.Spells.listed name gap _ hplace hname hgap hseq (Arg.fitsAll_append.2 ⟨hall, hfits, trivial⟩)
      hcrosses
    rw [Arg.argumentsAll_append, hstart, Arg.argumentsAll_singleton, List.reverse_append,
      Arg.bytesAll_append, Arg.bytesAll_singleton] at h
    simp only [List.append_assoc, List.cons_append]
    exact h

theorem spells_finishArgument (r : Reader) {call : Call} (arg : Arg) {a : Argument Tree}
    (hcall : Call.Spells r.scope call true τ₀ β w) (hfits : arg.Fits (r.scope.allowsBraces call.place))
    (hcross : arg.cross τ₀ = some τ) (hnode : arg.arguments w.length = [a])
    (hlist : Arg.inList true arg = some false)
    (halone : call.listed = false → Arg.fitsCall false [arg] = true)
    (hopened : r.opened = τ ++ β) (hoffset : r.offset + 1 = w.length + arg.bytes.length) :
    (r.finishArgument call a).Spells (w ++ arg.bytes) := by
  obtain ⟨n, σ, S, m⟩ := r
  cases hopened
  cases hcall with
  | @single _ place _ _ w name gap hplace hname hgap =>
    -- outside a list the argument is the only one, and its last byte ends the command as well
    let part : Part := .call name gap false [arg]
    have hstart : argsStart w.length name gap false = (w ++ tilde :: (name ++ gap)).length := by
      simp only [argsStart, List.length_append, List.length_cons, Bool.false_eq_true, if_false]
      omega
    have hbytes : part.bytes = tilde :: (name ++ gap) ++ arg.bytes := by
      show Part.bytes (.call name gap false [arg]) = _
      rw [Part.bytes, if_neg Bool.false_ne_true, Arg.bytesAll_singleton, List.cons_append,
        List.append_assoc]
    have h := spells_finishCall ⟨n, τ ++ β, S, m⟩
      ⟨place, ⟨w.length + 1, w.length + 1 + name.length⟩, false, [a]⟩ part
      hplace rfl ⟨hname, hgap, halone rfl, hfits, trivial⟩
      ((Arg.crossAll_singleton τ₀ arg).trans hcross)
      (by
        show Part.trees w.length (.call name gap false [arg]) = _
        rw [Part.trees, Arg.argumentsAll_singleton, hstart, hnode]
        rfl)
      rfl (by rw [hbytes, hoffset, List.length_append, List.length_append, Nat.add_assoc])
    rw [hbytes, ← List.append_assoc] at h
    exact h
  | listed name gap args hplace hname hgap hsequence hall hinner =>
    have hcall := Call.Spells.listed _ _ _ hplace hname hgap hsequence hall hinner
    have h := hcall.push arg rfl hfits hcross hlist
    rw [hnode] at h
    exact .next h rfl

/-! ## Closers -/

/-- A closer that matches what is open in a scope leaves the rest of the stack alone. -/
theorem pop_inside {k : Bracket} {τ β opened : List Bracket}
    (h : Bracket.pop k (τ ++ β) = some opened) (hne : τ ≠ []) :
    ∃ τ', Bracket.pop k τ = some τ' ∧ opened = τ' ++ β := by
  cases τ with
  | nil => exact absurd rfl hne
  | cons top below =>
    rw [Bracket.pop_eq_some, List.cons_append] at h
    cases h
    exact ⟨below, Bracket.pop_eq_some.2 rfl, rfl⟩

/-- Arguments leave what was open in front of them where it is. -/
theorem crossAll_ne_nil {args : List Arg} {σ τ : List Bracket}
    (h : Arg.crossAll σ args = some τ) (hσ : σ ≠ []) : τ ≠ [] := by
  obtain ⟨extra, hextra⟩ := Arg.crossAll_extra h
  have hτ : τ = extra ++ σ := Option.some.inj (h.symm.trans (hextra σ))
  rw [hτ]
  exact List.append_ne_nil_of_right_ne_nil _ hσ

/-- The parenthesis of a list closes what its arguments left open above it, and the command is
complete. -/
theorem spells_closeList {call : Call} {argFits : Bool}
    (hcall : Call.Spells r.scope call argFits τ β w) (hlisted : call.listed = true)
    (hopened : r.opened = τ ++ β) (hoffset : r.offset = w.length)
    (h : r.closeList call Bracket.round.closer = .ok next) :
    next.Spells (w ++ [Bracket.round.closer]) := by
  rw [closeList] at h
  cases hcross : cross r.opened Bracket.round.closer with
  | error cause =>
    rw [hcross] at h
    cases h
  | ok opened =>
    rw [hcross] at h
    cases h
    -- the parenthesis matches something in the scope, since that of the list is still open there
    rw [cross_eq_ok, hopened, Bracket.pass_closer] at hcross
    cases hcall with
    | single => cases hlisted
    | @listed _ place τ₁ _ _ w name gap args _ hplace hname hgap hsequence hall hinner =>
      obtain ⟨τ', hpop, rfl⟩ := pop_inside hcross (crossAll_ne_nil hinner (List.cons_ne_nil _ _))
      let part : Part := .call name gap true args
      have hbytes : w ++ part.bytes
          = w ++ tilde :: (name ++ (gap ++ Bracket.round.opener :: Arg.bytesAll args))
            ++ [Bracket.round.closer] := by
        show w ++ Part.bytes (.call name gap true args) = _
        rw [Part.bytes, if_pos rfl]
        simp only [List.append_assoc, List.cons_append]
      rw [← hbytes]
      have hsplit : ({ r with opened := τ' ++ β } : Reader).opened = τ' ++ β := rfl
      refine spells_finishCall _ _ part hplace rfl ⟨hname, hgap, ?_, hall⟩ ?_ ?_ hsplit ?_
      · show (args.foldlM Arg.inList true).isSome = true
        rw [hsequence]
        rfl
      · show ((Arg.crossAll (.round :: τ₁) args).bind (Bracket.pop .round)) = _
        rw [hinner]
        exact hpop
      · show Part.trees w.length (.call name gap true args) = _
        rw [Part.trees, List.reverse_reverse]
      · show r.offset + 1 = _
        rw [hoffset, ← List.length_append, hbytes]
        simp only [List.length_append, List.length_singleton]

/-- A closer that is taken where one of its kind is wanted. -/
theorem ok_of_closer {kind : Bracket} {σ : List Bracket} {after : List Bracket → Reader}
    {cause : Cause}
    (h : (if b == kind.closer then do
        let opened ← cross σ b
        return after opened
      else .error cause) = .ok next) :
    b = kind.closer ∧ ∃ rest, σ = kind :: rest ∧ next = after rest := by
  split at h
  · next hb =>
    cases beq_iff_eq.1 hb
    cases hcross : cross σ kind.closer with
    | error cause =>
      rw [hcross] at h
      cases h
    | ok rest =>
      rw [hcross] at h
      cases h
      rw [cross_eq_ok, Bracket.pass_closer, Bracket.pop_eq_some] at hcross
      exact ⟨rfl, rest, hcross, rfl⟩
  · cases h

/-- The closer of an argument in braces takes a brace off the stack. -/
theorem closeScope_braces {n start depth : Nat} {σ : List Bracket} {m : Mode} {outer : Scope}
    {call : Call} {blocks : List Tree}
    (h : (Reader.mk n σ (.braces outer call start depth blocks) m).closeScope b = .ok next) :
    b = Bracket.curly.closer ∧ ∃ rest, σ = .curly :: rest ∧
      next = (Reader.mk n rest outer m).finishArgument call (.block blocks.reverse ⟨start, n + 1⟩) :=
  ok_of_closer h

/-- The closer of an argument in square brackets takes one of them off the stack. -/
theorem closeScope_brackets {n start depth : Nat} {σ : List Bracket} {m : Mode} {outer : Scope}
    {call : Call} {content : Tree}
    (h : (Reader.mk n σ (.brackets outer call start depth (some content)) m).closeScope b
      = .ok next) :
    b = Bracket.square.closer ∧ ∃ rest, σ = .square :: rest ∧
      next = (Reader.mk n rest outer m).finishArgument call (.inline content ⟨start, n + 1⟩) :=
  ok_of_closer h

/-- The closer of a scope that is complete. -/
theorem spells_closeScope {goesOn : Bool} (hscope : Scope.Spells r.scope goesOn τ β w)
    (hopened : r.opened = τ ++ β) (hoffset : r.offset = w.length)
    (hτ : r.scope.allowsBlocks = true ∨ goesOn = false → τ = [])
    (hcomplete : r.scope.Vacant → r.scope.allowsBlocks = true)
    (h : r.closeScope b = .ok next) : next.Spells (w ++ [b]) := by
  obtain ⟨n, σ, S, m⟩ := r
  cases hopened
  cases hscope with
  | document => cases h
  | @braces outer call σ β _ w parts _ hcall hallowed hparts =>
    cases hτ (.inl rfl)
    obtain ⟨rfl, rest, hrest, rfl⟩ := closeScope_braces h
    cases hrest
    -- the bytes of the scope are now those of one argument of the command outside
    have hbytes : w ++ Bracket.curly.opener :: Part.bytesAll parts ++ [Bracket.curly.closer]
        = w ++ (Arg.block parts).bytes := by
      rw [Arg.bytes, List.append_assoc, List.cons_append]
    have hstop : n + 1 = w.length + (Arg.block parts).bytes.length := by
      rw [← List.length_append, ← hbytes, List.length_append, ← hoffset]
      rfl
    have hblocks : outer.allowsBraces call.place = true → Arg.Fits true (.block parts) := by
      intro _
      exact ⟨rfl, by rw [hparts.sequence]; rfl, hparts.fits⟩
    rw [hbytes]
    refine spells_finishArgument ⟨n, σ ++ β, outer, m⟩ (.block parts) hcall
      (by rw [hallowed]; exact hblocks hallowed) ?_ ?_ rfl (fun _ => rfl) rfl hstop
    · rw [Arg.cross, hparts.cross]
      rfl
    · rw [Arg.arguments, List.reverse_reverse, ← Arg.length_bytes_block, ← hstop]
  | vacant => cases hcomplete trivial
  | @filled outer call σ β _ w part tree _ hcall hinline hgoes hfits hcross htree =>
    obtain ⟨rfl, rest, hrest, rfl⟩ := closeScope_brackets h
    -- the closer takes the bracket of the argument, or one that its content has left open
    obtain ⟨opened, hclose, rfl⟩ : ∃ opened,
        closeInline part.isOpen τ σ = some opened ∧ rest = opened ++ β := by
      have hopen : part.isOpen = true → τ = [] := fun hopen => hτ (.inr (by rw [hgoes, hopen]; rfl))
      cases τ with
      | nil =>
        cases hrest
        exact ⟨σ, closeInline_eq_some.2 ⟨fun _ => rfl, rfl⟩, rfl⟩
      | cons top below =>
        cases hrest
        exact ⟨below ++ .square :: σ, closeInline_eq_some.2 ⟨hopen, rfl⟩,
          (List.append_assoc below (.square :: σ) β).symm⟩
    have hbytes : w ++ Bracket.square.opener :: part.bytes ++ [Bracket.square.closer]
        = w ++ (Arg.inline part).bytes := by
      rw [Arg.bytes, List.append_assoc, List.cons_append]
    have hstop : n + 1 = w.length + (Arg.inline part).bytes.length := by
      rw [← List.length_append, ← hbytes, List.length_append, ← hoffset]
      rfl
    rw [hbytes]
    refine spells_finishArgument ⟨n, opened ++ β, outer, m⟩ (.inline part) hcall ⟨hinline, hfits⟩
      ?_ ?_ rfl (fun _ => rfl) rfl hstop
    · rw [Arg.cross, hcross]
      exact hclose
    · rw [Arg.arguments, htree, ← Arg.length_bytes_inline, ← hstop]
      rfl

/-! ## Runs of text -/

/-- A run that ends, with or without its line, is a part of its scope from then on. -/
theorem spells_addRun {S : Scope} {pieces : List Part} (ending : Ending) (hvacant : S.Vacant)
    (hscope : Scope.Spells S true τ₀ β w) (hpieces : Pieces τ₀ pieces τ)
    (hstarts : Part.startsRun (!S.allowsBlocks) pieces = true)
    (hreturn : ending = .lineFeed → Part.runEndsInReturn false pieces = false) :
    Scope.Spells (S.addRun (Part.treesAll w.length pieces).reverse) (ending != .none) τ β
      (w ++ (Part.bytesAll pieces ++ ending.bytes)) := by
  -- a run in square brackets is a group, elsewhere it is a paragraph
  have hadd : S.addRun (Part.treesAll w.length pieces).reverse
      = S.add (.node (if S.allowsBlocks then .paragraph (Part.treesAll w.length pieces)
          else .group (Part.treesAll w.length pieces))) := by
    cases S <;> simp [Scope.addRun, Scope.allowsBlocks]
  rw [hadd]
  refine hscope.add (.run (!S.allowsBlocks) pieces ending) hvacant ?_ ?_
    ⟨hstarts, hpieces.sequence, hreturn, hpieces.fits⟩ hpieces.cross ?_
  · intro hblocks
    rw [hblocks]
    rfl
  · intro hblocks
    rw [hblocks]
    cases ending <;> exact ⟨rfl, rfl⟩
  · cases S.allowsBlocks <;> rfl

/-- A byte inside a scope that does not end it moves what is open in the scope. -/
theorem pass_inside {S : Scope} {m : Mode} {n : Nat} {opened : List Bracket}
    (hβ : β.length = S.depth) (hends : (Reader.mk n (τ ++ β) S m).endsScope b = false)
    (h : cross (τ ++ β) b = .ok opened) :
    ∃ τ', Bracket.pass τ b = some τ' ∧ opened = τ' ++ β := by
  rw [cross_eq_ok] at h
  cases hopener : Bracket.ofOpener? b with
  | some k =>
    cases Bracket.eq_opener_of_ofOpener? hopener
    rw [Bracket.pass_opener] at h
    cases h
    exact ⟨k :: τ, Bracket.pass_opener τ k, rfl⟩
  | none =>
    cases hcloser : Bracket.ofCloser? b with
    | none =>
      rw [Bracket.pass_plain ⟨hopener, hcloser⟩] at h
      cases h
      exact ⟨τ, Bracket.pass_plain ⟨hopener, hcloser⟩ τ, rfl⟩
    -- a closer that does not end the scope finds something of the scope to close
    | some k =>
      cases Bracket.eq_closer_of_ofCloser? hcloser
      rw [Bracket.pass_closer] at h ⊢
      refine pop_inside h ?_
      rintro rfl
      rw [endsScope, hcloser, List.nil_append, hβ] at hends
      simp at hends

/-- The closer of a scope comes when nothing is open in it, as it is taken at the depth of the scope. -/
theorem eq_nil_of_endsScope {S : Scope} {m : Mode} {n : Nat} (hβ : β.length = S.depth)
    (hends : (Reader.mk n (τ ++ β) S m).endsScope b = true) : τ = [] := by
  rw [endsScope, Bool.and_eq_true, beq_iff_eq, List.length_append] at hends
  have hlength : τ.length + β.length = S.depth := hends.2
  exact List.length_eq_zero_iff.1 (by omega)

variable {n : Nat} {S : Scope} {m : Mode}

/-- A run ends with its line, and a return in front of the line feed belongs to the line end. -/
theorem spells_lineFeed {pieces : List Part} {bytes : Bytes} (hvacant : S.Vacant)
    (hscope : Scope.Spells S true τ₀ β w) (hpieces : Pieces τ₀ (pieces ++ pending bytes) τ)
    (htext : pieces.foldlM Part.inRun true = some true)
    (hstarts : Part.startsRun (!S.allowsBlocks) (pieces ++ pending bytes) = true)
    (hn : n = w.length + (Part.bytesAll pieces).length + bytes.length) :
    Scope.Spells
      (S.addRun (addText (Part.treesAll w.length pieces).reverse
        (w.length + (Part.bytesAll pieces).length)
        (if endsInReturn false bytes then n - 1 else n)))
      true τ β (w ++ Part.bytesAll (pieces ++ pending bytes) ++ [lineFeed]) := by
  cases hreturn : endsInReturn false bytes with
  | false =>
    have hadd := spells_addRun .lineFeed hvacant hscope hpieces hstarts
      (fun _ => by rw [runEndsInReturn_pending htext, hreturn])
    rw [if_neg Bool.false_ne_true, hn, addText_pending, List.append_assoc]
    exact hadd
  | true =>
    -- the carriage return moves from the text to the line end
    obtain ⟨front, rfl⟩ := endsInReturn_eq_true hreturn
    have hadd := spells_addRun .returnLineFeed hvacant hscope
      (hpieces.dropReturn htext) (startsRun_dropReturn hstarts) (fun hfalse => by cases hfalse)
    have hbefore : n - 1 = w.length + (Part.bytesAll pieces).length + front.length := by
      rw [hn, List.length_append, List.length_singleton]
      omega
    rw [if_pos rfl, hbefore, addText_pending, bytesAll_pending]
    rw [bytesAll_pending] at hadd
    simp only [List.append_assoc] at hadd ⊢
    exact hadd

/-- A byte of a text, or the first byte of one when it is none of those that are looked for in front
of a text. -/
theorem spells_inText (pieces : List Part) (bytes : Bytes) (hvacant : S.Vacant)
    (hscope : Scope.Spells S true τ₀ β w) (hpieces : Pieces τ₀ (pieces ++ pending bytes) τ)
    (htext : pieces.foldlM Part.inRun true = some true)
    (hstarted : Started S (pieces ++ pending bytes) ∨ (pieces ++ pending bytes = [] ∧ b ≠ tilde
      ∧ (S.allowsBlocks = true →
          isBlank b = false ∧ (Reader.mk n (τ ++ β) S m).endsScope b = false)))
    (hn : n = w.length + (Part.bytesAll pieces).length + bytes.length)
    (h : (Reader.mk n (τ ++ β) S m).inText (Part.treesAll w.length pieces).reverse
      (w.length + (Part.bytesAll pieces).length) (endsInReturn false bytes) b = .ok next) :
    next.Spells (w ++ Part.bytesAll (pieces ++ pending bytes) ++ [b]) := by
  have hβ := hscope.length_base
  have hlength : n = (w ++ Part.bytesAll (pieces ++ pending bytes)).length := by
    rw [hn, bytesAll_pending, List.length_append, List.length_append, Nat.add_assoc]
  -- a run that ends has started, or is an empty one in square brackets
  have hstarts (hfirst : S.allowsBlocks = true → isBlank b = false →
      (Reader.mk n (τ ++ β) S m).endsScope b = false → False) :
      Part.startsRun (!S.allowsBlocks) (pieces ++ pending bytes) = true := by
    rcases hstarted with hstarted | ⟨hnil, _, hblocks⟩
    · exact hstarted.2
    · cases hallows : S.allowsBlocks with
      | true => exact (hfirst hallows (hblocks hallows).1 (hblocks hallows).2).elim
      | false =>
        rw [hnil]
        rfl
  rw [inText] at h
  split at h
  · next hb =>
    cases beq_iff_eq.1 hb
    cases h
    -- a command inside of the run: the text so far becomes a piece
    have hplace := Place.Spells.within _ hvacant hscope hpieces
      (hstarted.resolve_right fun hfirst => hfirst.2.1 rfl)
    show Mode.Spells (τ ++ β) S (.name (.within (addText _ _ n)) (n + 1)) _
    rw [hn, addText_pending, ← hn, hlength]
    exact .name [] hplace rfl
  split at h
  · next hb =>
    cases beq_iff_eq.1 hb
    cases h
    -- a line feed is a blank, so it is not the first byte of a paragraph
    exact .ready (spells_lineFeed hvacant hscope hpieces htext
      (hstarts fun _ hblank _ => absurd hblank (by decide)) hn)
  split at h
  · next hends =>
    -- the run ends without a line end, and the byte closes the scope around it
    cases eq_nil_of_endsScope hβ hends
    have hadd := spells_addRun .none hvacant hscope hpieces
      (hstarts fun _ _ hnot => by rw [hends] at hnot; cases hnot) (fun hfalse => by cases hfalse)
    rw [endRun, hn, addText_pending] at h
    rw [Ending.bytes, List.append_nil] at hadd
    refine spells_closeScope hadd rfl (hn.symm.trans hlength) (fun _ => rfl) ?_ h
    show (S.addRun _).Vacant → (S.addRun _).allowsBlocks = true
    cases S with
    | brackets => exact False.elim
    | _ => exact fun _ => rfl
  · next htilde hline hends =>
    cases hcross : cross (τ ++ β) b with
    | error cause => rw [hcross] at h; cases h
    | ok opened =>
      rw [hcross] at h
      cases h
      obtain ⟨τ', hpass, rfl⟩ := pass_inside hβ (Bool.eq_false_iff.2 hends) hcross
      have hb : b ≠ tilde := fun heq => htilde (beq_iff_eq.2 heq)
      have hb' : b ≠ lineFeed := fun heq => hline (beq_iff_eq.2 heq)
      -- the text goes on by one byte
      have hgrown : Started S (pieces ++ pending (bytes ++ [b])) := by
        rcases hstarted with hstarted | ⟨hnil, _, hblocks⟩
        · exact hstarted.push b
        · obtain ⟨rfl, hbytes⟩ := List.append_eq_nil_iff.1 hnil
          cases bytes with
          | cons c more => rw [pending_cons] at hbytes; cases hbytes
          | nil =>
            refine ⟨List.cons_ne_nil _ _, ?_⟩
            show (!S.allowsBlocks || !isBlank b) = true
            cases hallows : S.allowsBlocks with
            | true =>
              rw [(hblocks hallows).1]
              rfl
            | false => rfl
      have htextual := Mode.Spells.text _ _ hvacant hscope (hpieces.push htext hb hb' hpass) htext
        hgrown
      rw [endsInReturn, List.foldl_append, bytesAll_pending, ← List.append_assoc] at htextual
      rw [bytesAll_pending]
      simp only [List.append_assoc] at htextual ⊢
      exact htextual

/-! ## One byte -/

/-- A blank between blocks is a part by itself, so that no byte of the source is lost. -/
theorem Scope.Spells.addBlank (h : Scope.Spells S true τ β w) (hS : S.allowsBlocks = true)
    (hb : isBlank b = true) : Scope.Spells S true τ β (w ++ [b]) := by
  cases h with
  | @document parts _ _ hparts =>
    have hadd := Scope.Spells.document _ (hparts.add (.blank b) rfl hb rfl)
    rw [Part.treesAll_append, Part.treesAll_singleton, Part.trees, List.append_nil,
      Part.bytesAll_append, Part.bytesAll_singleton] at hadd
    exact hadd
  | @braces outer call σ β _ w parts _ hcall hallowed hparts =>
    have hadd := Scope.Spells.braces _ hcall hallowed (hparts.add (.blank b) rfl hb rfl)
    rw [Part.treesAll_append, Part.treesAll_singleton, Part.trees, List.append_nil,
      Part.bytesAll_append, Part.bytesAll_singleton] at hadd
    rw [List.append_assoc]
    exact hadd
  | vacant => cases hS
  | filled => cases hS

/-- Where a run may start, its first byte is one of a text with nothing in front of it. -/
theorem spells_inText_nil (hvacant : S.Vacant) (hscope : Scope.Spells S true τ β w)
    (hn : n = w.length) (hb : b ≠ tilde)
    (hblocks : S.allowsBlocks = true →
      isBlank b = false ∧ (Reader.mk n (τ ++ β) S m).endsScope b = false)
    (h : (Reader.mk n (τ ++ β) S m).inText [] n false b = .ok next) : next.Spells (w ++ [b]) := by
  have htext := spells_inText [] [] hvacant hscope ⟨rfl, trivial, rfl⟩ rfl
    (.inr ⟨rfl, hb, hblocks⟩) hn (by rw [hn] at h ⊢; exact h)
  rw [bytesAll_pending, List.append_nil, Part.bytesAll, List.append_nil] at htext
  exact htext

theorem spells_inReady (hscope : Scope.Spells S true τ β w) (hn : n = w.length)
    (h : (Reader.mk n (τ ++ β) S .ready).inReady b = .ok next) : next.Spells (w ++ [b]) := by
  by_cases hallows : S.allowsBlocks = true
  · have hvacant := Scope.vacant_of_allowsBlocks hallows
    rw [inReady_of_allowsBlocks hallows] at h
    split at h
    · next hb =>
      cases h
      exact .ready (hscope.addBlank hallows hb)
    split at h
    · next hb =>
      cases beq_iff_eq.1 hb
      cases h
      show Mode.Spells (τ ++ β) S (.name .alone (n + 1)) _
      rw [hn]
      exact .name [] (.alone hvacant hscope) rfl
    split at h
    · next hends =>
      cases eq_nil_of_endsScope hscope.length_base hends
      exact spells_closeScope hscope rfl hn (fun _ => rfl) (fun _ => hallows) h
    · next hblank htilde hends =>
      exact spells_inText_nil hvacant hscope hn (fun heq => htilde (beq_iff_eq.2 heq))
        (fun _ => ⟨Bool.eq_false_iff.2 hblank, Bool.eq_false_iff.2 hends⟩) h
  · cases S with
    | document => exact absurd rfl hallows
    | braces => exact absurd rfl hallows
    | brackets outer call start depth content =>
      cases content with
      | some tree =>
        have hclose : (Reader.mk n (τ ++ β) (.brackets outer call start depth (some tree))
            .ready).closeScope b = .ok next := h
        refine spells_closeScope hscope rfl hn ?_ ?_ hclose
        · rintro (hfalse | hfalse) <;> cases hfalse
        · exact fun hvacant => False.elim hvacant
      | none =>
        simp only [inReady] at h
        split at h
        · next hb =>
          cases beq_iff_eq.1 hb
          cases h
          show Mode.Spells (τ ++ β) _ (.name .alone (n + 1)) _
          rw [hn]
          exact .name [] (.alone trivial hscope) rfl
        · next htilde =>
          exact spells_inText_nil (S := .brackets outer call start depth none) trivial hscope hn
            (fun heq => htilde (beq_iff_eq.2 heq)) (fun hfalse => by cases hfalse) h

/-- An argument in brackets opens, with nothing in it yet, over a stack of its own. -/
theorem spells_openBrackets {call : Call} (hcall : Call.Spells S call true τ β w)
    (hn : n = w.length) :
    ((Reader.mk n (τ ++ β) S m).openBrackets call).Spells (w ++ [Bracket.square.opener]) := by
  have h := Mode.Spells.ready (.vacant hcall)
  rw [hn]
  exact h

theorem spells_openBraces {call : Call} (hcall : Call.Spells S call true τ β w)
    (hallowed : S.allowsBraces call.place = true) (hn : n = w.length) :
    ((Reader.mk n (τ ++ β) S m).openBraces call).Spells (w ++ [Bracket.curly.opener]) := by
  have h := Mode.Spells.ready (.braces [] hcall hallowed ⟨rfl, trivial, rfl⟩)
  rw [hn]
  exact h

theorem spells_inHead (place : Place) (name : Span)
    (hcall : Call.Spells S ⟨place, name, false, []⟩ true τ β w) (hn : n = w.length)
    (h : (Reader.mk n (τ ++ β) S m).inHead place name b = .ok next) : next.Spells (w ++ [b]) := by
  rw [inHead] at h
  split at h
  · next hb =>
    cases h
    cases hcall with
    | @single _ _ _ _ w letters gap hplace hname hgap =>
      have hlonger := Call.Spells.single letters (gap ++ [b]) hplace hname (by
        rw [List.all_append, hgap, List.all_cons, hb]
        rfl)
      simp only [List.append_assoc, List.cons_append]
      exact .head hlonger
  split at h
  · next hb =>
    cases beq_iff_eq.1 hb
    cases h
    cases hcall with
    | @single _ _ _ _ w letters gap hplace hname hgap =>
      have hlist := Call.Spells.listed letters gap [] hplace hname hgap rfl trivial rfl
      simp only [List.append_assoc, List.cons_append]
      exact .list hlist rfl
  split at h
  · next hb =>
    cases beq_iff_eq.1 hb
    cases h
    exact spells_openBrackets hcall hn
  split at h
  · next hb =>
    rw [Bool.and_eq_true, allowsBraces_eq] at hb
    cases beq_iff_eq.1 hb.1
    cases h
    exact spells_openBraces hcall hb.2 hn
  · cases h

theorem spells_inList {call : Call} (hcall : Call.Spells S call true τ β w)
    (hlisted : call.listed = true) (hn : n = w.length)
    (h : (Reader.mk n (τ ++ β) S m).inList call b = .ok next) : next.Spells (w ++ [b]) := by
  rw [inList] at h
  split at h
  · next hb =>
    cases h
    exact .list (hcall.push (.blank b) hlisted hb rfl rfl) hlisted
  split at h
  · next hb =>
    cases beq_iff_eq.1 hb
    exact spells_closeList hcall hlisted rfl hn h
  split at h
  · next hb =>
    cases beq_iff_eq.1 hb
    cases h
    exact spells_openBrackets hcall hn
  split at h
  · next hb =>
    rw [Bool.and_eq_true, allowsBraces_eq] at hb
    cases beq_iff_eq.1 hb.1
    cases h
    exact spells_openBraces hcall hb.2 hn
  split at h
  · next hb =>
    cases beq_iff_eq.1 hb
    cases h
    rw [hn]
    exact .string [] hcall hlisted fun _ => rfl
  split at h
  · next hb =>
    cases h
    rw [hn]
    exact .ident [b] hcall hlisted (List.cons_ne_nil b []) (by rw [List.all_cons, hb]; rfl)
  · cases h

theorem spells_inNext (call : Call) (hcall : Call.Spells S call false τ β w)
    (hlisted : call.listed = true) (hn : n = w.length)
    (h : (Reader.mk n (τ ++ β) S m).inNext call b = .ok next) : next.Spells (w ++ [b]) := by
  rw [inNext] at h
  split at h
  · next hb =>
    cases h
    exact .next (hcall.push (.blank b) hlisted hb rfl rfl) hlisted
  split at h
  · next hb =>
    cases beq_iff_eq.1 hb
    exact spells_closeList hcall hlisted rfl hn h
  split at h
  · next hb =>
    cases beq_iff_eq.1 hb
    cases h
    exact .list (hcall.push .comma hlisted trivial rfl rfl) hlisted
  · cases h

/-- One byte more is one byte more of a spelling, in every mode of the reader. -/
theorem spells_take (hr : r.Spells w) (hoffset : r.offset = w.length)
    (h : r.take b = .ok next) : next.Spells (w ++ [b]) := by
  obtain ⟨n, σ, S, m⟩ := r
  cases hr with
  | ready hscope => exact spells_inReady hscope hoffset h
  | @text _ _ _ _ w pieces bytes hvacant hscope hpieces htext hstarted =>
    refine spells_inText pieces bytes hvacant hscope hpieces htext (.inl hstarted) ?_ h
    rw [Nat.add_assoc, ← List.length_append, ← bytesAll_pending, ← List.length_append]
    exact hoffset
  -- the name goes on with a letter, and any other byte ends it without being part of it
  | @name _ place _ _ w letters hplace hletters =>
    simp only [take] at h
    split at h
    · next hb =>
      cases h
      have hlonger := Mode.Spells.name (letters ++ [b]) hplace (by
        rw [List.all_append, hletters, List.all_cons, hb]
        rfl)
      rw [List.append_assoc]
      exact hlonger
    · next hb =>
      have hcall := Call.Spells.single letters [] hplace hletters rfl
      rw [List.append_nil] at hcall
      refine spells_inHead place ⟨w.length + 1, n⟩ ?_ hoffset h
      have hstop : n = w.length + 1 + letters.length := by
        rw [show n = (w ++ tilde :: letters).length from hoffset, List.length_append,
          List.length_cons]
        omega
      rw [hstop]
      exact hcall
  | head hcall => exact spells_inHead _ _ hcall hoffset h
  | list hcall hlisted => exact spells_inList hcall hlisted hoffset h
  -- as for a name: the byte that ends an identifier is read as what follows an argument
  | @ident _ call _ _ w letters hcall hlisted hne hletters =>
    simp only [take] at h
    split at h
    · next hb =>
      cases h
      rw [List.append_assoc]
      refine .ident _ hcall hlisted (List.append_ne_nil_of_left_ne_nil hne _) ?_
      rw [List.all_append, hletters, List.all_cons, hb]
      rfl
    · next hb =>
      have hlonger := hcall.push (.ident letters) hlisted ⟨hne, hletters⟩ rfl rfl
      have hstop : n = w.length + letters.length := by
        rw [show n = (w ++ letters).length from hoffset, List.length_append]
      refine spells_inNext { call with args := .ident ⟨w.length, n⟩ :: call.args }
        ?_ hlisted hoffset h
      rw [hstop]
      exact hlonger
  | @string _ call escaped _ _ w raw hcall hlisted hraw =>
    simp only [take] at h
    split at h
    · next hb =>
      rw [Bool.and_eq_true, beq_iff_eq] at hb
      cases hb.1
      cases h
      -- no quote before this one could end the string
      have hfits : quotable false raw = true := by
        have hend := hraw []
        rw [List.append_nil] at hend
        rw [hend, quotable, hb.2]
      have hbytes : w ++ quote :: raw ++ [quote] = w ++ (Arg.string raw).bytes := by
        rw [Arg.bytes, List.append_assoc, List.cons_append]
      have hstop : n + 1 = w.length + (Arg.string raw).bytes.length := by
        rw [← List.length_append, ← hbytes, List.length_append,
          show n = (w ++ quote :: raw).length from hoffset]
        rfl
      rw [hbytes]
      refine spells_finishArgument _ (.string raw) hcall hfits rfl ?_ rfl ?_ rfl hstop
      · rw [Arg.arguments, ← Arg.length_bytes_string, ← hstop]
      · intro hfalse
        rw [hlisted] at hfalse
        cases hfalse
    · next hb =>
      cases h
      rw [List.append_assoc]
      refine .string _ hcall hlisted fun rest => ?_
      -- the byte is no quote, or a backslash stands before it
      have hgoes : (b != quote || escaped) = true := by
        cases escaped <;> simp_all
      show quotable false (raw ++ [b] ++ rest) = _
      rw [List.append_assoc, hraw, List.singleton_append, quotable, hgoes, Bool.true_and]
  | next hcall hlisted => exact spells_inNext _ hcall hlisted hoffset h

/-! ## A run -/

/-- Before the first byte the spelling is the empty document. -/
theorem spells_initial : initial.Spells [] :=
  Mode.Spells.ready (.document [] ⟨rfl, trivial, rfl⟩)

theorem spells_step (hr : r.Spells w) (hoffset : r.offset = w.length)
    (h : r.step b = .ok next) : next.Spells (w ++ [b]) := by
  rw [step] at h
  cases htake : r.take b with
  | error cause => rw [htake] at h; cases h
  | ok taken =>
    rw [htake] at h
    cases h
    have htaken := spells_take hr hoffset htake
    exact htaken

/-- What a reader has taken spells a document up to where it stands. -/
theorem spells_run {bytes : Bytes} (hr : r.Spells w) (hoffset : r.offset = w.length)
    (h : r.run bytes = .ok next) : next.Spells (w ++ bytes) := by
  induction bytes generalizing r w with
  | nil =>
    cases h
    rw [List.append_nil]
    exact hr
  | cons b rest ih =>
    rw [run_cons] at h
    cases hstep : r.step b with
    | error fault => rw [hstep] at h; cases h
    | ok middle =>
      rw [hstep] at h
      have hmiddle : middle.offset = (w ++ [b]).length := by
        rw [offset_of_step hstep, hoffset, List.length_append, List.length_singleton]
      have hrest := ih (spells_step hr hoffset hstep) hmiddle h
      rw [List.append_assoc] at hrest
      exact hrest

theorem isDocument_of_finishScope {goesOn : Bool} {tree : Tree}
    (hscope : Scope.Spells S goesOn τ β w) (h : finishScope S = .ok tree) :
    ∃ parts, IsDocument parts (τ ++ β) ∧ Part.bytesAll parts = w ∧ documentTree parts = tree := by
  cases hscope with
  | @document parts _ _ hparts =>
    refine ⟨parts, ⟨by rw [hparts.sequence]; rfl, hparts.fits, ?_⟩, rfl, ?_⟩
    · rw [List.append_nil]
      exact hparts.cross
    · rw [finishScope, List.reverse_reverse] at h
      cases h
      rfl
  | braces => cases h
  | vacant => cases h
  | filled => cases h

/-- A reader that may stop has read a whole document, whose tree is the one that it gives. -/
theorem isDocument_of_finish {tree : Tree} (hr : r.Spells w) (hoffset : r.offset = w.length)
    (h : r.finish = .ok tree) :
    ∃ parts, IsDocument parts r.opened ∧ Part.bytesAll parts = w ∧ documentTree parts = tree := by
  obtain ⟨n, σ, S, m⟩ := r
  cases hr with
  | ready hscope => exact isDocument_of_finishScope hscope (ok_of_mapError h)
  | @text _ _ τ β w pieces bytes hvacant hscope hpieces htext hstarted =>
    have hn : n = w.length + (Part.bytesAll pieces).length + bytes.length := by
      rw [Nat.add_assoc, ← List.length_append, ← bytesAll_pending, ← List.length_append]
      exact hoffset
    have hadd := spells_addRun .none hvacant hscope hpieces hstarted.2
      (fun hfalse => by cases hfalse)
    rw [Ending.bytes, List.append_nil, ← addText_pending, ← hn] at hadd
    exact isDocument_of_finishScope hadd (ok_of_mapError h)
  | _ => cases h

/-- So is a source that is read from its start, with the brackets that are open at its end. -/
theorem isDocument_of_run {source : Bytes} {tree : Tree} (hrun : initial.run source = .ok r)
    (h : r.finish = .ok tree) :
    ∃ parts, IsDocument parts r.opened ∧ Part.bytesAll parts = source ∧ documentTree parts = tree :=
  isDocument_of_finish (spells_run spells_initial rfl hrun) (offset_of_initial hrun) h

end Reader

namespace Spelling

/-- The sources that can be read are those that have a spelling, and are read as its tree. -/
theorem parse_eq_ok_iff {source : Bytes} {tree : Tree} :
    Tree.parse source = .ok tree ↔ ∃ parts opened, IsDocument parts opened
      ∧ Part.bytesAll parts = source ∧ documentTree parts = tree := by
  constructor
  · intro h
    rw [Tree.parse] at h
    cases hrun : Reader.initial.run source with
    | error fault => rw [hrun] at h; cases h
    | ok r =>
      rw [hrun] at h
      obtain ⟨parts, hparts⟩ := Reader.isDocument_of_run hrun h
      exact ⟨parts, r.opened, hparts⟩
  · rintro ⟨parts, opened, hparts, rfl, rfl⟩
    exact parse_of_isDocument hparts

/-- A source that parses has a spelling, and its arena is that of the tree of the spelling. -/
theorem spelled_of_parse {source : Bytes} {arena : Arena} (h : parse source = .ok arena) :
    ∃ parts opened, IsDocument parts opened ∧ Part.bytesAll parts = source
      ∧ (documentTree parts).toArena = arena := by
  cases htree : Tree.parse source with
  | error fault =>
    rw [parse, htree] at h
    cases h
  | ok tree =>
    rw [parse, htree] at h
    cases h
    obtain ⟨parts, opened, hparts, hsource, rfl⟩ := parse_eq_ok_iff.1 htree
    exact ⟨parts, opened, hparts, hsource, rfl⟩

end Spelling

end TildeMarkup
