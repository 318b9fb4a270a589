import TildeMarkup.Proofs.Spelling.Basic

/-!
# The grammar of spellings

Which spellings are those of sources that can be read. There are two sides to it.

* `Part.Fits`, `Arg.Fits`: every byte is of the class that its place asks for, and what stands one
  after the other may do so. The order in a sequence is that of a small automaton (`Part.inRun`,
  `Part.inBlocks`, `Arg.inList`), which has the steps of the reader in it.
* `Part.cross`, `Arg.cross`: the brackets. An argument is read over an empty stack of its own, so
  its text never closes what was open before it. A closing square bracket takes what is then
  innermost. After a line end that can be a bracket of the prose in front of it, and the bracket of
  the argument is then left open.

`IsDocument` puts both together for a whole source.
-/

namespace TildeMarkup.Spelling

/-- The quote after these bytes is the first that ends a string; `escaped` when a backslash stands
before them. -/
def quotable (escaped : Bool) : Bytes → Bool
  | [] => !escaped
  | b :: rest => (b != quote || escaped) && quotable (b == backslash) rest

/-! ## Sequences -/

/-- A step along a run: two texts never stand side by side. The state says whether a text may be
next. -/
def Part.inRun (textFits : Bool) : Part → Option Bool
  | .text _ => if textFits then some false else none
  | .call .. => some true
  | _ => none

/-- A step along blocks: nothing follows a run without a line end. The state says whether anything
may be next. -/
def Part.inBlocks (goesOn : Bool) : Part → Option Bool
  | .blank _ => if goesOn then some true else none
  | .run false _ ending => if goesOn then some (ending != .none) else none
  | .call .. => if goesOn then some true else none
  | _ => none

/-- Nothing follows a run without a line end, so the parts behind it are none. -/
theorem Part.eq_nil_of_inBlocks {parts : List Part} {goesOn : Bool}
    (h : parts.foldlM Part.inBlocks false = some goesOn) : parts = [] ∧ goesOn = false := by
  -- The one step that the automaton has from there is none.
  cases parts with
  | nil =>
    cases h
    exact ⟨rfl, rfl⟩
  | cons part rest =>
    have hnone : Part.inBlocks false part = none := by
      cases part with
      | run bracketed => cases bracketed <;> rfl
      | _ => rfl
    rw [List.foldlM_cons, hnone] at h
    cases h

/-- A step along a list: a comma stands between two arguments, and may stand after the last. The
state says whether an argument may be next. -/
def Arg.inList (argFits : Bool) : Arg → Option Bool
  | .blank _ => some argFits
  | .comma => if argFits then none else some true
  | _ => if argFits then some false else none

/-- A run starts with a text. In square brackets it may be empty; elsewhere it is a paragraph, in
front of which all blanks are skipped. -/
def Part.startsRun (bracketed : Bool) : List Part → Bool
  | [] => bracketed
  | .text (b :: _) :: _ => bracketed || !isBlank b
  | _ => false

/-- The last byte of some bytes is a carriage return; `before` tells it of what is in front of
them. -/
def endsInReturn (before : Bool) (bytes : Bytes) : Bool :=
  bytes.foldl (fun _ b => b == carriageReturn) before

/-- The last piece of a run is a text whose last byte is a carriage return; `before` tells it of
what is in front of the run. -/
def Part.runEndsInReturn (before : Bool) : List Part → Bool
  | [] => before
  | .text bytes :: rest => Part.runEndsInReturn (endsInReturn before bytes) rest
  | _ :: rest => Part.runEndsInReturn false rest

/-- The part is a command, which may stand between blocks, in a run or in brackets. -/
def Part.isCall : Part → Bool
  | .call .. => true
  | _ => false

/-- In square brackets stands a command by itself, or a run. -/
def Part.isInline : Part → Bool
  | .run true _ _ => true
  | .call .. => true
  | _ => false

/-- The part is a run that ends without a line end. -/
def Part.isOpen : Part → Bool
  | .run _ _ .none => true
  | _ => false

/-- The arguments of a command are a list, or one argument in brackets. -/
def Arg.fitsCall (listed : Bool) (args : List Arg) : Bool :=
  if listed then (args.foldlM Arg.inList true).isSome
  else
    match args with
    | [.inline _] => true
    | [.block _] => true
    | _ => false

/-! ## Bytes in their places -/

mutual

/-- The bytes of a part are those that its place asks for. `blocks` tells whether arguments in
braces are allowed. -/
def Part.Fits (blocks : Bool) : Part → Prop
  | .blank b => isBlank b = true
  | .text bytes => bytes ≠ [] ∧ tilde ∉ bytes ∧ lineFeed ∉ bytes
  | .run bracketed pieces ending =>
    Part.startsRun bracketed pieces = true ∧ (pieces.foldlM Part.inRun true).isSome = true
      ∧ (ending = .lineFeed → Part.runEndsInReturn false pieces = false) ∧ Part.FitsAll false pieces
  | .call name gap listed args =>
    name.all isLetter = true ∧ gap.all isBlank = true ∧ Arg.fitsCall listed args = true
      ∧ Arg.FitsAll blocks args

/-- All parts of a sequence fit, whatever their order is. -/
def Part.FitsAll (blocks : Bool) : List Part → Prop
  | [] => True
  | part :: rest => part.Fits blocks ∧ Part.FitsAll blocks rest

/-- The bytes of an argument are those that its place asks for: letters, the contents of a string, or
parts in brackets. -/
def Arg.Fits (blocks : Bool) : Arg → Prop
  | .blank b => isBlank b = true
  | .comma => True
  | .ident letters => letters ≠ [] ∧ letters.all isLetter = true
  | .string raw => quotable false raw = true
  | .inline part => part.isInline = true ∧ part.Fits false
  | .block parts =>
    blocks = true ∧ (parts.foldlM Part.inBlocks true).isSome = true ∧ Part.FitsAll true parts

/-- All arguments fit. -/
def Arg.FitsAll (blocks : Bool) : List Arg → Prop
  | [] => True
  | arg :: rest => arg.Fits blocks ∧ Arg.FitsAll blocks rest

end

theorem Part.fitsAll_append {blocks : Bool} {front back : List Part} :
    Part.FitsAll blocks (front ++ back) ↔ Part.FitsAll blocks front ∧ Part.FitsAll blocks back := by
  induction front with
  | nil => simp [FitsAll]
  | cons part rest ih => rw [List.cons_append, FitsAll, FitsAll, ih, and_assoc]

theorem Arg.fitsAll_append {blocks : Bool} {front back : List Arg} :
    Arg.FitsAll blocks (front ++ back) ↔ Arg.FitsAll blocks front ∧ Arg.FitsAll blocks back := by
  induction front with
  | nil => simp [FitsAll]
  | cons arg rest ih => rw [List.cons_append, FitsAll, FitsAll, ih, and_assoc]

/-! ## Brackets -/

/-- Takes the closer of square brackets: what is open inside of them lies over their own opener. It
closes whatever is innermost, but a run without a line end goes up to the closer of its scope. -/
def closeInline (isOpen : Bool) (inner stack : List Bracket) : Option (List Bracket) :=
  if isOpen = true ∧ inner ≠ [] then none
  else Bracket.pop .square (inner ++ Bracket.square :: stack)

mutual

/-- The open brackets after a part, above those of its scope. -/
def Part.cross (stack : List Bracket) : Part → Option (List Bracket)
  | .blank _ => some stack
  | .text bytes => Bracket.scan stack bytes
  | .run _ pieces _ => Part.crossAll stack pieces
  | .call _ _ listed args =>
    if listed then (Arg.crossAll (.round :: stack) args).bind (Bracket.pop .round)
    else Arg.crossAll stack args

/-- The open brackets after parts one after the other, each of which finds what the others left. -/
def Part.crossAll (stack : List Bracket) : List Part → Option (List Bracket)
  | [] => some stack
  | part :: rest => (part.cross stack).bind fun next => Part.crossAll next rest

/-- The open brackets after an argument. What stands in its own brackets is read over an empty stack. -/
def Arg.cross (stack : List Bracket) : Arg → Option (List Bracket)
  | .blank _ => some stack
  | .comma => some stack
  | .ident _ => some stack
  | .string _ => some stack
  | .inline part => (part.cross []).bind fun inner => closeInline part.isOpen inner stack
  | .block parts =>
    (Part.crossAll [] parts).bind fun inner => if inner = [] then some stack else none

/-- The open brackets after arguments one after the other. -/
def Arg.crossAll (stack : List Bracket) : List Arg → Option (List Bracket)
  | [] => some stack
  | arg :: rest => (arg.cross stack).bind fun next => Arg.crossAll next rest

end

theorem Part.crossAll_append (stack : List Bracket) (front back : List Part) :
    Part.crossAll stack (front ++ back)
      = (Part.crossAll stack front).bind fun next => Part.crossAll next back := by
  induction front generalizing stack with
  | nil => rfl
  | cons part rest ih =>
    rw [List.cons_append, crossAll, crossAll]
    cases part.cross stack with
    | none => rfl
    | some next => exact ih next

theorem Arg.crossAll_append (stack : List Bracket) (front back : List Arg) :
    Arg.crossAll stack (front ++ back)
      = (Arg.crossAll stack front).bind fun next => Arg.crossAll next back := by
  induction front generalizing stack with
  | nil => rfl
  | cons arg rest ih =>
    rw [List.cons_append, crossAll, crossAll]
    cases arg.cross stack with
    | none => rfl
    | some next => exact ih next

theorem Part.crossAll_singleton (stack : List Bracket) (part : Part) :
    Part.crossAll stack [part] = part.cross stack := by
  rw [crossAll]
  cases part.cross stack <;> rfl

theorem Arg.crossAll_singleton (stack : List Bracket) (arg : Arg) :
    Arg.crossAll stack [arg] = arg.cross stack := by
  rw [crossAll]
  cases arg.cross stack <;> rfl

/-- A closer of square brackets that goes through, and what it takes off the stack. -/
theorem closeInline_eq_some {isOpen : Bool} {inner stack next : List Bracket} :
    closeInline isOpen inner stack = some next
      ↔ (isOpen = true → inner = []) ∧ inner ++ Bracket.square :: stack = .square :: next := by
  rw [closeInline, ← Bracket.pop_eq_some]
  split
  · next h => simp [h]
  · next h =>
    constructor
    · intro hpop
      exact ⟨fun hopen => Classical.byContradiction fun hne => h ⟨hopen, hne⟩, hpop⟩
    · exact And.right

theorem closeInline_lift {isOpen : Bool} {inner stack next : List Bracket}
    (h : closeInline isOpen inner stack = some next) (base : List Bracket) :
    closeInline isOpen inner (stack ++ base) = some (next ++ base) := by
  rw [closeInline_eq_some] at h ⊢
  refine ⟨h.1, ?_⟩
  rw [← List.cons_append, ← List.append_assoc, h.2, List.cons_append]

/-! What is open further down has no part in it, as for a plain scan. -/

mutual

/-- What a part does to a stack it does above any base, by induction on the spelling. -/
theorem Part.cross_lift (base : List Bracket) : ∀ (part : Part) {stack next : List Bracket},
    part.cross stack = some next → part.cross (stack ++ base) = some (next ++ base)
  | .blank _, stack, next, h => by
    rw [Part.cross] at h ⊢
    cases h
    rfl
  | .text bytes, stack, next, h => by
    rw [Part.cross] at h ⊢
    exact Bracket.scan_lift h base
  | .run _ pieces _, stack, next, h => by
    rw [Part.cross] at h ⊢
    exact Part.crossAll_lift base pieces h
  | .call _ _ true args, stack, next, h => by
    simp only [Part.cross, if_true] at h ⊢
    obtain ⟨inner, hargs, hpop⟩ := Option.bind_eq_some_iff.1 h
    have hlift := Arg.crossAll_lift base args hargs
    rw [List.cons_append] at hlift
    rw [hlift]
    exact Bracket.pop_lift hpop base
  | .call _ _ false args, stack, next, h => by
    simp only [Part.cross, Bool.false_eq_true, if_false] at h ⊢
    exact Arg.crossAll_lift base args h

theorem Part.crossAll_lift (base : List Bracket) :
    ∀ (parts : List Part) {stack next : List Bracket},
      Part.crossAll stack parts = some next →
        Part.crossAll (stack ++ base) parts = some (next ++ base)
  | [], stack, next, h => by
    rw [Part.crossAll] at h ⊢
    cases h
    rfl
  | part :: rest, stack, next, h => by
    rw [Part.crossAll] at h ⊢
    obtain ⟨middle, hpart, hrest⟩ := Option.bind_eq_some_iff.1 h
    rw [Part.cross_lift base part hpart]
    exact Part.crossAll_lift base rest hrest

theorem Arg.cross_lift (base : List Bracket) : ∀ (arg : Arg) {stack next : List Bracket},
    arg.cross stack = some next → arg.cross (stack ++ base) = some (next ++ base)
  | .inline part, stack, next, h => by
    rw [Arg.cross] at h ⊢
    obtain ⟨inner, hpart, hclose⟩ := Option.bind_eq_some_iff.1 h
    rw [hpart]
    exact closeInline_lift hclose base
  | .block parts, stack, next, h => by
    rw [Arg.cross] at h ⊢
    obtain ⟨inner, hparts, hclose⟩ := Option.bind_eq_some_iff.1 h
    rw [hparts]
    simp only [Option.bind_some] at hclose ⊢
    -- Braces are closed over an empty stack of their own, so what was below has no part in it.
    split at hclose
    · next hinner =>
      cases hclose
      rw [if_pos hinner]
    · cases hclose
  | .blank _, stack, next, h => by
    rw [Arg.cross] at h ⊢
    cases h
    rfl
  | .comma, stack, next, h => by
    rw [Arg.cross] at h ⊢
    cases h
    rfl
  | .ident _, stack, next, h => by
    rw [Arg.cross] at h ⊢
    cases h
    rfl
  | .string _, stack, next, h => by
    rw [Arg.cross] at h ⊢
    cases h
    rfl

theorem Arg.crossAll_lift (base : List Bracket) :
    ∀ (args : List Arg) {stack next : List Bracket},
      Arg.crossAll stack args = some next →
        Arg.crossAll (stack ++ base) args = some (next ++ base)
  | [], stack, next, h => by
    rw [Arg.crossAll] at h ⊢
    cases h
    rfl
  | arg :: rest, stack, next, h => by
    rw [Arg.crossAll] at h ⊢
    obtain ⟨middle, harg, hrest⟩ := Option.bind_eq_some_iff.1 h
    rw [Arg.cross_lift base arg harg]
    exact Arg.crossAll_lift base rest hrest

end

theorem closeInline_eq_pop {isOpen : Bool} {inner stack next : List Bracket}
    (h : closeInline isOpen inner stack = some next) :
    Bracket.pop .square (inner ++ .square :: stack) = some next :=
  Bracket.pop_eq_some.2 (closeInline_eq_some.1 h).2

/-! What an argument leaves open lies over all that was open in front of it. -/

/-- An argument in braces leaves the stack as it was, whatever that is. -/
theorem Arg.cross_block {parts : List Part} {σ τ : List Bracket}
    (h : (Arg.block parts).cross σ = some τ) (base : List Bracket) :
    (Arg.block parts).cross base = some base := by
  rw [Arg.cross] at h ⊢
  obtain ⟨inner, hcross, hclose⟩ := Option.bind_eq_some_iff.1 h
  rw [hcross, Option.bind_some]
  split at hclose
  · next hinner => exact if_pos hinner
  · cases hclose

/-- What an argument leaves open does not depend on what was open in front of it. -/
theorem Arg.cross_extra {arg : Arg} {σ τ : List Bracket} (h : arg.cross σ = some τ) :
    ∃ extra, ∀ base, arg.cross base = some (extra ++ base) := by
  cases arg with
  | inline part =>
    rw [Arg.cross] at h
    obtain ⟨inner, hcross, hclose⟩ := Option.bind_eq_some_iff.1 h
    obtain ⟨extra, hextra⟩ := Bracket.pop_extra (closeInline_eq_pop hclose)
    refine ⟨extra, fun base => ?_⟩
    rw [Arg.cross, hcross, Option.bind_some, closeInline_eq_some]
    exact ⟨(closeInline_eq_some.1 hclose).1, Bracket.pop_eq_some.1 (hextra base)⟩
  | block parts => exact ⟨[], Arg.cross_block h⟩
  | _ => exact ⟨[], fun base => rfl⟩

theorem Arg.crossAll_extra {args : List Arg} {σ τ : List Bracket}
    (h : Arg.crossAll σ args = some τ) :
    ∃ extra, ∀ base, Arg.crossAll base args = some (extra ++ base) := by
  induction args generalizing σ with
  | nil => exact ⟨[], fun base => rfl⟩
  | cons arg rest ih =>
    rw [Arg.crossAll] at h
    obtain ⟨middle, harg, hrest⟩ := Option.bind_eq_some_iff.1 h
    obtain ⟨first, hfirst⟩ := Arg.cross_extra harg
    obtain ⟨extra, hextra⟩ := ih hrest
    refine ⟨extra ++ first, fun base => ?_⟩
    rw [Arg.crossAll, hfirst, Option.bind_some, hextra, List.append_assoc]

/-! ## Documents -/

/-- The parts spell a whole document, at the end of which some brackets of prose may be open. -/
structure IsDocument (parts : List Part) (opened : List Bracket) : Prop where
  sequence : (parts.foldlM Part.inBlocks true).isSome = true
  fits : Part.FitsAll true parts
  brackets : Part.crossAll [] parts = some opened

/-- A command around one argument is a document by itself, with what the argument leaves open. -/
theorem isDocument_call {name : Bytes} {arg : Arg} {τ : List Bracket}
    (hname : name.all isLetter = true) (hcall : Arg.fitsCall false [arg] = true)
    (hfits : arg.Fits true) (hcross : arg.cross [] = some τ) :
    IsDocument [.call name [] false [arg]] τ := by
  refine ⟨rfl, ⟨⟨hname, rfl, hcall, hfits, trivial⟩, trivial⟩, ?_⟩
  rw [Part.crossAll_singleton, ← hcross]
  exact Arg.crossAll_singleton [] arg

theorem bytesAll_call (name : Bytes) (arg : Arg) :
    Part.bytesAll [.call name [] false [arg]] = tilde :: (name ++ arg.bytes) := by
  rw [Part.bytesAll_singleton, Part.bytes, if_neg Bool.false_ne_true, Arg.bytesAll_singleton,
    List.nil_append]

/-- The tree of a document: a group of the nodes of its parts. -/
def documentTree (parts : List Part) : Tree :=
  .node (.group (Part.treesAll 0 parts))

end TildeMarkup.Spelling
