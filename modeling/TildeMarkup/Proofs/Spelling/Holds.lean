import TildeMarkup.Proofs.Document.Marks
import TildeMarkup.Proofs.Source
import TildeMarkup.Proofs.Spelling.Recovered

/-!
# The parts of a spelling

`Part.Holds n part m found`: inside the part that starts at offset `n`, the part `found` starts at
offset `m`. A fact about one command or one text of a parsed tree is proved of the part that it is
spelled by, and that part is found here:

* its bytes stand in the source at its offset (`Part.Holds.located`);
* it fits the grammar, and its brackets go through (`Part.Holds.fits`, `Part.Holds.cross`);
* its node is one of the tree (`Part.Holds.has`), and every layer of the tree has such a part
  (`Part.holds_of_has`).
-/

namespace TildeMarkup

namespace Spelling

/-- What a command starts with: all in front of its arguments, the parenthesis of a list included. -/
def callHead (name gap : Bytes) (listed : Bool) : Bytes :=
  tilde :: (name ++ (gap ++ if listed then [Bracket.round.opener] else []))

/-- What a command ends with behind its arguments: the parenthesis of a list, or nothing. -/
def callTail (listed : Bool) : Bytes :=
  if listed then [Bracket.round.closer] else []

theorem Part.bytes_call_eq (name gap : Bytes) (listed : Bool) (args : List Arg) :
    (Part.call name gap listed args).bytes
      = callHead name gap listed ++ (Arg.bytesAll args ++ callTail listed) := by
  cases listed <;> simp [Part.bytes, callHead, callTail]

theorem argsStart_eq (n : Nat) (name gap : Bytes) (listed : Bool) :
    argsStart n name gap listed = n + (callHead name gap listed).length := by
  cases listed <;>
    simp only [argsStart, callHead, List.length_cons, List.length_append, List.length_nil, if_true,
      if_false, Bool.false_eq_true] <;>
    omega

/-- An argument of a command stands behind the head of the command and the arguments in front of it. -/
theorem at_arg {source name gap : Bytes} {listed : Bool} {n : Nat} {front back : List Arg}
    {arg : Arg} (h : At source n (Part.call name gap listed (front ++ arg :: back)).bytes) :
    At source (argsStart n name gap listed + (Arg.bytesAll front).length) arg.bytes := by
  rw [Part.bytes_call_eq, Arg.bytesAll_append, Arg.bytesAll, List.append_assoc] at h
  rw [argsStart_eq]
  exact h.right.right.left.left

/-- A part stands among others behind all the parts in front of it. -/
theorem at_part {source : Bytes} {n : Nat} {front back : List Part} {part : Part}
    (h : At source n (Part.bytesAll (front ++ part :: back))) :
    At source (n + (Part.bytesAll front).length) part.bytes := by
  rw [Part.bytesAll_append, Part.bytesAll] at h
  exact h.right.left

/-- Where parts go through one after the other, each of them goes through from some stack. -/
theorem Part.cross_of_crossAll {front back : List Part} {part : Part} {σ τ : List Bracket}
    (h : Part.crossAll σ (front ++ part :: back) = some τ) : ∃ σ τ, part.cross σ = some τ := by
  rw [Part.crossAll_append] at h
  obtain ⟨middle, _, hrest⟩ := Option.bind_eq_some_iff.1 h
  rw [Part.crossAll] at hrest
  obtain ⟨next, hpart, _⟩ := Option.bind_eq_some_iff.1 hrest
  exact ⟨middle, next, hpart⟩

theorem Arg.cross_of_crossAll {front back : List Arg} {arg : Arg} {σ τ : List Bracket}
    (h : Arg.crossAll σ (front ++ arg :: back) = some τ) : ∃ σ τ, arg.cross σ = some τ := by
  rw [Arg.crossAll_append] at h
  obtain ⟨middle, _, hrest⟩ := Option.bind_eq_some_iff.1 h
  rw [Arg.crossAll] at hrest
  obtain ⟨next, harg, _⟩ := Option.bind_eq_some_iff.1 hrest
  exact ⟨middle, next, harg⟩

theorem Part.crossAll_of_cross_call {name gap : Bytes} {listed : Bool} {args : List Arg}
    {σ τ : List Bracket} (h : (Part.call name gap listed args).cross σ = some τ) :
    ∃ σ τ, Arg.crossAll σ args = some τ := by
  cases listed with
  | true =>
    simp only [Part.cross, if_true] at h
    obtain ⟨inner, hargs, _⟩ := Option.bind_eq_some_iff.1 h
    exact ⟨_, inner, hargs⟩
  | false =>
    simp only [Part.cross, Bool.false_eq_true, if_false] at h
    exact ⟨σ, τ, h⟩

/-! ## Nodes among those of a sequence -/

theorem Part.mem_treesAll_append {n : Nat} {part : Part} {tree : Tree} (front back : List Part)
    (h : tree ∈ part.trees (n + (Part.bytesAll front).length)) :
    tree ∈ Part.treesAll n (front ++ part :: back) := by
  rw [Part.treesAll_append, Part.treesAll]
  exact List.mem_append_right _ (List.mem_append_left _ h)

theorem Arg.mem_argumentsAll_append {n : Nat} {arg : Arg} {a : Argument Tree} (front back : List Arg)
    (h : a ∈ arg.arguments (n + (Arg.bytesAll front).length)) :
    a ∈ Arg.argumentsAll n (front ++ arg :: back) := by
  rw [Arg.argumentsAll_append, Arg.argumentsAll]
  exact List.mem_append_right _ (List.mem_append_left _ h)

/-- A node of a sequence is one of the nodes of a part in it, at the offset of that part. -/
theorem Part.exists_of_mem_treesAll {n : Nat} {parts : List Part} {tree : Tree}
    (h : tree ∈ Part.treesAll n parts) :
    ∃ front part back, parts = front ++ part :: back
      ∧ tree ∈ part.trees (n + (Part.bytesAll front).length) := by
  induction parts generalizing n with
  | nil => cases h
  | cons part rest ih =>
    rw [Part.treesAll] at h
    rcases List.mem_append.1 h with h | h
    · exact ⟨[], part, rest, rfl, h⟩
    · obtain ⟨front, found, back, rfl, hfound⟩ := ih h
      refine ⟨part :: front, found, back, rfl, ?_⟩
      rw [Part.bytesAll, List.length_append, ← Nat.add_assoc]
      exact hfound

theorem Arg.exists_of_mem_argumentsAll {n : Nat} {args : List Arg} {a : Argument Tree}
    (h : a ∈ Arg.argumentsAll n args) :
    ∃ front arg back, args = front ++ arg :: back
      ∧ a ∈ arg.arguments (n + (Arg.bytesAll front).length) := by
  induction args generalizing n with
  | nil => cases h
  | cons arg rest ih =>
    rw [Arg.argumentsAll] at h
    rcases List.mem_append.1 h with h | h
    · exact ⟨[], arg, rest, rfl, h⟩
    · obtain ⟨front, found, back, rfl, hfound⟩ := ih h
      refine ⟨arg :: front, found, back, rfl, ?_⟩
      rw [Arg.bytesAll, List.length_append, ← Nat.add_assoc]
      exact hfound

/-- A part has at most one node, so a node of it is the only one. -/
theorem Part.trees_eq_singleton {n : Nat} {part : Part} {tree : Tree} (h : tree ∈ part.trees n) :
    part.trees n = [tree] := by
  cases part with
  | blank => cases h
  | text => exact congrArg (fun t => [t]) (List.mem_singleton.1 h).symm
  | run bracketed =>
    cases bracketed with
    | true => exact congrArg (fun t => [t]) (List.mem_singleton.1 h).symm
    | false => exact congrArg (fun t => [t]) (List.mem_singleton.1 h).symm
  | call => exact congrArg (fun t => [t]) (List.mem_singleton.1 h).symm

theorem Arg.inline_mem_arguments {n : Nat} {part : Part} {tree : Tree}
    (h : tree ∈ part.trees (n + 1)) :
    .inline tree ⟨n, n + part.bytes.length + 2⟩ ∈ (Arg.inline part).arguments n :=
  List.mem_map_of_mem h

/-! ## Parts inside of parts -/

/-- Inside the part that starts at `n`, the part `found` starts at `m`. -/
inductive Part.Holds : (n : Nat) → (part : Part) → (m : Nat) → (found : Part) → Prop where
  | self (n : Nat) (part : Part) : Part.Holds n part n part
  | run {n m : Nat} {bracketed : Bool} {ending : Ending} {part found : Part}
      (front back : List Part) (h : Part.Holds (n + (Part.bytesAll front).length) part m found) :
      Part.Holds n (.run bracketed (front ++ part :: back) ending) m found
  | inline {n m : Nat} {name gap : Bytes} {listed : Bool} {part found : Part}
      (front back : List Arg)
      (h : Part.Holds (argsStart n name gap listed + (Arg.bytesAll front).length + 1) part m found) :
      Part.Holds n (.call name gap listed (front ++ .inline part :: back)) m found
  | block {n m : Nat} {name gap : Bytes} {listed : Bool} {part found : Part}
      (front back : List Arg) (before after : List Part)
      (h : Part.Holds (argsStart n name gap listed + (Arg.bytesAll front).length + 1
        + (Part.bytesAll before).length) part m found) :
      Part.Holds n (.call name gap listed (front ++ .block (before ++ part :: after) :: back))
        m found

/-- Among the parts of a source, `found` starts at offset `m`: it is one of them, or stands inside of
one. -/
def Holds (parts : List Part) (m : Nat) (found : Part) : Prop :=
  ∃ front part back, parts = front ++ part :: back
    ∧ Part.Holds (Part.bytesAll front).length part m found

namespace Part.Holds

variable {n m : Nat} {part found : Part}

theorem trans {k : Nat} {inner : Part} (h : Part.Holds n part m found)
    (hinner : Part.Holds m found k inner) : Part.Holds n part k inner := by
  induction h with
  | self => exact hinner
  | run front back _ ih => exact .run front back (ih hinner)
  | inline front back _ ih => exact .inline front back (ih hinner)
  | block front back before after _ ih => exact .block front back before after (ih hinner)

theorem located {source : Bytes} (h : Part.Holds n part m found) (hpart : At source n part.bytes) :
    At source m found.bytes := by
  induction h with
  | self => exact hpart
  | run front back _ ih =>
    rw [Part.bytes] at hpart
    exact ih (at_part hpart.left)
  | inline front back _ ih =>
    have harg := at_arg hpart
    rw [Arg.bytes] at harg
    exact ih harg.tail.left
  | block front back before after _ ih =>
    have harg := at_arg hpart
    rw [Arg.bytes] at harg
    exact ih (at_part harg.tail.left)

theorem fits {blocks : Bool} (h : Part.Holds n part m found) (hpart : part.Fits blocks) :
    ∃ blocks, found.Fits blocks := by
  induction h generalizing blocks with
  | self => exact ⟨blocks, hpart⟩
  | run front back _ ih =>
    obtain ⟨_, _, _, hpieces⟩ := hpart
    exact ih (Part.fitsAll_append.1 hpieces).2.1
  | inline front back _ ih =>
    obtain ⟨_, _, _, hargs⟩ := hpart
    exact ih (Arg.fitsAll_append.1 hargs).2.1.2
  | block front back before after _ ih =>
    obtain ⟨_, _, _, hargs⟩ := hpart
    obtain ⟨_, _, hparts⟩ := (Arg.fitsAll_append.1 hargs).2.1
    exact ih (Part.fitsAll_append.1 hparts).2.1

theorem cross {σ τ : List Bracket} (h : Part.Holds n part m found)
    (hpart : part.cross σ = some τ) : ∃ σ τ, found.cross σ = some τ := by
  induction h generalizing σ τ with
  | self => exact ⟨σ, τ, hpart⟩
  | run front back _ ih =>
    rw [Part.cross] at hpart
    obtain ⟨_, _, hinner⟩ := Part.cross_of_crossAll hpart
    exact ih hinner
  | @inline _ _ _ _ listed _ _ front back _ ih =>
    obtain ⟨σ', τ', hargs⟩ := Part.crossAll_of_cross_call hpart
    obtain ⟨_, _, harg⟩ := Arg.cross_of_crossAll hargs
    rw [Arg.cross] at harg
    obtain ⟨_, hinner, _⟩ := Option.bind_eq_some_iff.1 harg
    exact ih hinner
  | @block _ _ _ _ listed _ _ front back before after _ ih =>
    obtain ⟨σ', τ', hargs⟩ := Part.crossAll_of_cross_call hpart
    obtain ⟨_, _, harg⟩ := Arg.cross_of_crossAll hargs
    rw [Arg.cross] at harg
    obtain ⟨_, hparts, _⟩ := Option.bind_eq_some_iff.1 harg
    obtain ⟨_, _, hinner⟩ := Part.cross_of_crossAll hparts
    exact ih hinner

/-- The node of a part inside is a layer of the tree of the part around it. -/
theorem has {layer : Node Tree} (h : Part.Holds n part m found)
    (hfound : found.trees m = [.node layer]) : ∃ tree ∈ part.trees n, tree.Has layer := by
  induction h with
  | self => exact ⟨.node layer, by rw [hfound]; exact List.mem_singleton_self _, .here layer⟩
  | @run n _ bracketed ending _ _ front back _ ih =>
    obtain ⟨child, hchild, hhas⟩ := ih hfound
    have hmem := Part.mem_treesAll_append (n := n) front back hchild
    cases bracketed with
    | true => exact ⟨_, List.mem_singleton_self _, .child hmem hhas⟩
    | false => exact ⟨_, List.mem_singleton_self _, .child hmem hhas⟩
  | @inline n _ name gap listed part _ front back _ ih =>
    obtain ⟨child, hchild, hhas⟩ := ih hfound
    have harg := Arg.mem_argumentsAll_append front back (Arg.inline_mem_arguments hchild)
    exact ⟨_, List.mem_singleton_self _, .child (List.mem_flatMap_of_mem harg
      (List.mem_singleton_self child)) hhas⟩
  | @block n _ name gap listed part _ front back before after _ ih =>
    obtain ⟨child, hchild, hhas⟩ := ih hfound
    have harg := @Arg.mem_argumentsAll_append (argsStart n name gap listed)
      (.block (before ++ part :: after)) _ front back (List.mem_singleton_self _)
    exact ⟨_, List.mem_singleton_self _, .child (List.mem_flatMap_of_mem harg
      (Part.mem_treesAll_append before after hchild)) hhas⟩

end Part.Holds

/-- Every layer of the tree of a part is the node of a part inside. -/
theorem Part.holds_of_has {tree : Tree} {layer : Node Tree} (h : tree.Has layer) :
    ∀ {n : Nat} {part : Part}, tree ∈ part.trees n →
      ∃ m found, Part.Holds n part m found ∧ found.trees m = [.node layer] := by
  induction h with
  | here layer =>
    intro n part hpart
    exact ⟨n, part, .self n part, Part.trees_eq_singleton hpart⟩
  | @child layer found child hchild _ ih =>
    intro n part hpart
    cases part with
    | blank => cases hpart
    | text =>
      cases List.mem_singleton.1 hpart
      cases hchild
    | run bracketed pieces ending =>
      -- A run is a group or a paragraph, over the same pieces.
      have hpieces : child ∈ Part.treesAll n pieces := by
        cases bracketed with
        | true => cases List.mem_singleton.1 hpart; exact hchild
        | false => cases List.mem_singleton.1 hpart; exact hchild
      obtain ⟨front, inner, back, rfl, hinner⟩ := Part.exists_of_mem_treesAll hpieces
      obtain ⟨m, deep, hholds, hdeep⟩ := ih hinner
      exact ⟨m, deep, .run front back hholds, hdeep⟩
    | call name gap listed args =>
      cases List.mem_singleton.1 hpart
      obtain ⟨a, ha, hchild⟩ := List.mem_flatMap.1 hchild
      obtain ⟨front, arg, back, rfl, harg⟩ := Arg.exists_of_mem_argumentsAll ha
      -- A child of the command is that of one argument, which has to be one in brackets.
      cases arg with
      | inline inner =>
        obtain ⟨tree, htree, rfl⟩ := List.mem_map.1 harg
        cases List.mem_singleton.1 hchild
        obtain ⟨m, deep, hholds, hdeep⟩ := ih htree
        exact ⟨m, deep, .inline front back hholds, hdeep⟩
      | block parts =>
        cases List.mem_singleton.1 harg
        obtain ⟨before, inner, after, rfl, hinner⟩ := Part.exists_of_mem_treesAll hchild
        obtain ⟨m, deep, hholds, hdeep⟩ := ih hinner
        exact ⟨m, deep, .block front back before after hholds, hdeep⟩
      | ident => cases List.mem_singleton.1 harg; cases hchild
      | string => cases List.mem_singleton.1 harg; cases hchild
      | _ => cases harg

/-! ## Parts of a document -/

namespace Holds

variable {parts : List Part} {opened : List Bracket} {m : Nat} {found : Part}

theorem trans {k : Nat} {inner : Part} (h : Holds parts m found)
    (hinner : Part.Holds m found k inner) : Holds parts k inner := by
  obtain ⟨front, part, back, hparts, hholds⟩ := h
  exact ⟨front, part, back, hparts, hholds.trans hinner⟩

theorem located (h : Holds parts m found) : At (Part.bytesAll parts) m found.bytes := by
  obtain ⟨front, part, back, rfl, hholds⟩ := h
  refine hholds.located ?_
  have hpart := at_part (n := 0) (At.self (Part.bytesAll (front ++ part :: back)))
  rw [Nat.zero_add] at hpart
  exact hpart

/-- A part of a document fits the grammar, as a block or as a piece. -/
theorem fits (h : Holds parts m found) (hparts : IsDocument parts opened) :
    ∃ blocks, found.Fits blocks := by
  obtain ⟨front, part, back, rfl, hholds⟩ := h
  exact hholds.fits (Part.fitsAll_append.1 hparts.fits).2.1

theorem cross (h : Holds parts m found) (hparts : IsDocument parts opened) :
    ∃ σ τ, found.cross σ = some τ := by
  obtain ⟨front, part, back, rfl, hholds⟩ := h
  obtain ⟨_, _, hpart⟩ := Part.cross_of_crossAll hparts.brackets
  exact hholds.cross hpart

theorem has {layer : Node Tree} (h : Holds parts m found) (hfound : found.trees m = [.node layer]) :
    (documentTree parts).Has layer := by
  obtain ⟨front, part, back, rfl, hholds⟩ := h
  obtain ⟨tree, htree, hhas⟩ := hholds.has hfound
  rw [← Nat.zero_add (Part.bytesAll front).length] at htree
  exact .child (Part.mem_treesAll_append front back htree) hhas

end Holds

/-- Below the root, every layer of a parsed tree is the node of a part. -/
theorem holds_layer {parts : List Part} {layer : Node Tree} (h : (documentTree parts).Has layer) :
    (∃ children, layer = .group children)
      ∨ ∃ m found, Holds parts m found ∧ found.trees m = [.node layer] := by
  cases h with
  | here => exact .inl ⟨_, rfl⟩
  | child hchild h =>
    obtain ⟨front, part, back, rfl, hpart⟩ := Part.exists_of_mem_treesAll hchild
    obtain ⟨m, found, hholds, hfound⟩ := Part.holds_of_has h hpart
    rw [Nat.zero_add] at hholds
    exact .inr ⟨m, found, ⟨front, part, back, rfl, hholds⟩, hfound⟩

/-- A text of a parsed source is spelled by a part of it, and its span is that of the part. -/
theorem holds_text {parts : List Part} {span : Span} (h : (documentTree parts).Has (.text span)) :
    ∃ m bytes, Holds parts m (.text bytes) ∧ span = ⟨m, m + bytes.length⟩ := by
  rcases holds_layer h with ⟨_, hroot⟩ | ⟨m, found, hholds, hfound⟩
  · cases hroot
  · cases found with
    | text bytes =>
      cases hfound
      exact ⟨m, bytes, hholds, rfl⟩
    | run bracketed => cases bracketed <;> cases hfound
    | _ => cases hfound

/-- A command of a parsed source is spelled by a part of it, which has its name and its arguments. -/
theorem holds_command {parts : List Part} {name : Span} {args : List (Argument Tree)}
    (h : (documentTree parts).Has (.command name args)) :
    ∃ m letters gap listed spelled, Holds parts m (.call letters gap listed spelled)
      ∧ name = ⟨m + 1, m + 1 + letters.length⟩
      ∧ args = Arg.argumentsAll (argsStart m letters gap listed) spelled := by
  rcases holds_layer h with ⟨_, hroot⟩ | ⟨m, found, hholds, hfound⟩
  · cases hroot
  · cases found with
    | call letters gap listed spelled =>
      cases hfound
      exact ⟨m, letters, gap, listed, spelled, hholds, rfl, rfl⟩
    | run bracketed => cases bracketed <;> cases hfound
    | _ => cases hfound

end Spelling

end TildeMarkup
