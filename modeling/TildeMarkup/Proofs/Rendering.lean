import TildeMarkup.Proofs.Coverage
import TildeMarkup.Proofs.Html.Calls
import TildeMarkup.Proofs.Spelling.NameOrder

/-!
# Rendering a parsed source

A parsed source can be rendered exactly if all of its commands are valid; otherwise the one whose name
starts first is shown, with the first thing that is wrong about it (`render_parsed`).

A walk checks a command before anything below it, and stops at the first that does not pass. That it
is the first in the source as well comes from the order of names (`Spelling.pairwise_nameStarts`).
-/

namespace TildeMarkup

/-- Of the commands of an arena that are not valid, the one whose name starts first. -/
structure Arena.FirstInvalid (arena : Arena) (source : Bytes) (id : Nat) (name : Span)
    (args : List (Argument Nat)) : Prop where
  get : arena.get? id = some (.command name args)
  invalid : ¬ Html.ValidCall source name args
  first : ∀ other otherName otherArgs, arena.get? other = some (.command otherName otherArgs) →
    ¬ Html.ValidCall source otherName otherArgs → other ≠ id → name.start < otherName.start

/-- All commands of an arena are valid, those that its root does not reach among them. -/
def Arena.AllValid (arena : Arena) (source : Bytes) : Prop :=
  ∀ id name args, arena.get? id = some (.command name args) → Html.ValidCall source name args

/-- A layer that looks like a command when its children are left out is a command. -/
theorem Node.shape_eq_command {α : Type} {layer : Node α} {name : Span}
    {args : List (Argument Unit)} (h : layer.shape = .command name args) :
    ∃ more, layer = .command name more ∧ more.map (Argument.map fun _ => ()) = args := by
  cases layer with
  | command other more =>
    cases h
    exact ⟨more, rfl, rfl⟩
  | _ => cases h

/-- The letters of a name are in ASCII, so they are characters by themselves. -/
theorem lt_of_isLetter {b : UInt8} (h : isLetter b = true) : b < 0x80 := by
  simp only [isLetter, Bool.or_eq_true, Bool.and_eq_true, decide_eq_true_eq,
    UInt8.le_iff_toNat_le] at h
  rw [UInt8.lt_iff_toNat_lt]
  simp only [UInt8.reduceToNat] at h ⊢
  omega

namespace Spelling

variable {parts : List Part} {opened : List Bracket}

/-! ## Checks of a parsed source -/

/-- The name of a command in the tree of a parsed source is made of letters only. -/
theorem all_isLetter_of_has (hparts : IsDocument parts opened) {name : Span}
    {args : List (Argument Tree)} (h : (documentTree parts).Has (.command name args)) :
    (name.slice (Part.bytesAll parts)).all isLetter = true := by
  -- The spelling of the command says what stands where the name is.
  obtain ⟨m, letters, gap, listed, spelled, hholds, rfl, rfl⟩ := holds_command h
  obtain ⟨hletters, _⟩ := hholds.fits_call hparts
  have hname := hholds.located
  rw [Part.bytes] at hname
  rw [hname.tail.left.slice]
  exact hletters

/-- The check of a name that does not read as text never fails for a parsed source. -/
theorem checkName_eq_ok (hparts : IsDocument parts opened) {name : Span}
    {args : List (Argument Tree)} (h : (documentTree parts).Has (.command name args)) :
    checkName (Part.bytesAll parts) name = .ok () := by
  rw [checkName, if_pos]
  rw [List.all_eq_true]
  intro b hb
  exact decide_eq_true (lt_of_isLetter (List.all_eq_true.1 (all_isLetter_of_has hparts h) b hb))

/-- A layer that does not pass is a command that is not valid, and what fails is its first fault. -/
theorem checkNode_eq_error (hparts : IsDocument parts opened) {shape : Node Unit}
    (h : shape ∈ (documentTree parts).preorder) {failure : Failure} :
    Html.checkNode (Part.bytesAll parts) shape = .error failure
      ↔ ∃ name args fault, shape = .command name args
        ∧ Html.checkCommand (Part.bytesAll parts) name args = .error fault
        ∧ failure = .fault fault := by
  -- Only commands are checked. Of the two checks the one of the name has passed, which leaves the call.
  cases shape with
  | command name args =>
    obtain ⟨layer, hhas, hshape⟩ := Tree.mem_preorder.1 h
    obtain ⟨more, rfl, _⟩ := Node.shape_eq_command hshape
    have hname := checkName_eq_ok hparts hhas
    simp only [Html.checkNode, hname]
    cases hcommand : Html.checkCommand (Part.bytesAll parts) name args with
    | ok _ =>
      constructor
      · intro hfailure
        cases hfailure
      · rintro ⟨_, _, fault, hshape, hfault, _⟩
        cases hshape
        rw [hcommand] at hfault
        cases hfault
    | error found =>
      constructor
      · intro hfailure
        cases hfailure
        exact ⟨name, args, found, rfl, hcommand, rfl⟩
      · rintro ⟨_, _, fault, hshape, hfault, rfl⟩
        cases hshape
        rw [hcommand] at hfault
        cases hfault
        rfl
  | _ =>
    constructor
    · intro hfailure
      cases hfailure
    · rintro ⟨_, _, _, hshape, _⟩
      cases hshape

/-- In the arena, the check of a node is that of the call, for which its children do not matter. -/
theorem checkNode_of_get? (hparts : IsDocument parts opened) {id : Nat} {name : Span}
    {args : List (Argument Nat)} (h : (documentTree parts).toArena.get? id = some (.command name args)) :
    Html.checkNode (Part.bytesAll parts) (Node.command name args).shape = .ok ()
      ↔ Html.ValidCall (Part.bytesAll parts) name args := by
  have hmem := Arena.exists_get?_iff.1 ⟨id, _, h, rfl⟩
  rw [← Html.checkCommand_eq_ok, ← Html.checkCommand_map fun _ => ()]
  cases hcommand : Html.checkCommand (Part.bytesAll parts) name
      (args.map (Argument.map fun _ => ())) with
  | error fault =>
    have hfailed := (checkNode_eq_error hparts hmem).2 ⟨name, _, fault, rfl, hcommand, rfl⟩
    rw [hfailed]
    exact iff_of_false (fun h => by cases h) fun h => by cases h
  | ok _ =>
    refine iff_of_true ?_ rfl
    cases hnode : Html.checkNode (Part.bytesAll parts) (Node.command name args).shape with
    | ok _ => rfl
    | error failure =>
      obtain ⟨_, _, fault, hshape, hfault, _⟩ := (checkNode_eq_error hparts hmem).1 hnode
      cases hshape
      rw [hcommand] at hfault
      cases hfault

end Spelling

/-- The name of a command in the arena of a parsed source is of letters. -/
theorem all_isLetter_of_get? {source : Bytes} {arena : Arena} (h : parse source = .ok arena) {id : Nat}
    {name : Span} {args : List (Argument Nat)} (hid : arena.get? id = some (.command name args)) :
    (name.slice source).all isLetter = true := by
  obtain ⟨parts, opened, hparts, rfl, rfl⟩ := Spelling.spelled_of_parse h
  obtain ⟨layer, hhas, hshape⟩ := Tree.mem_preorder.1 (Arena.exists_get?_iff.1 ⟨id, _, hid, rfl⟩)
  obtain ⟨more, rfl, _⟩ := Node.shape_eq_command hshape
  exact Spelling.all_isLetter_of_has hparts hhas

/-! ## The first command that is not valid -/

open Spelling

section Parsed

variable {source : Bytes} {arena : Arena}

/-- The walk of the tree ends well exactly if every command on its way does, and it meets them all. -/
theorem exists_render_iff (h : parse source = .ok arena) :
    (∃ html, Html.render source arena = .ok html) ↔ arena.AllValid source := by
  obtain ⟨parts, opened, hparts, rfl, rfl⟩ := spelled_of_parse h
  rw [Html.render, Arena.walk_toArena, Tree.exists_walk_eq_ok]
  constructor
  · intro hall id name args hid
    exact (checkNode_of_get? hparts hid).1 (hall _ (Arena.exists_get?_iff.1 ⟨id, _, hid, rfl⟩))
  · intro hvalid shape hshape
    obtain ⟨id, layer, hid, rfl⟩ := Arena.exists_get?_iff.2 hshape
    -- only a command can fail
    cases layer with
    | command name args => exact (checkNode_of_get? hparts hid).2 (hvalid id name args hid)
    | _ => rfl

/-- Rendering fails at the first command that is not valid, with the first thing that is wrong about
it. -/
theorem firstInvalid_of_render (h : parse source = .ok arena) {failure : Failure}
    (hrender : Html.render source arena = .error failure) :
    ∃ id name args fault, arena.FirstInvalid source id name args
      ∧ Html.FirstFault source name args fault ∧ failure = .fault fault := by
  obtain ⟨parts, opened, hparts, rfl, rfl⟩ := spelled_of_parse h
  rw [Html.render, Arena.walk_toArena, Tree.walk_eq_error] at hrender
  obtain ⟨front, shape, back, hpreorder, hfront, hshape⟩ := hrender
  have hmem : shape ∈ (documentTree parts).preorder := by
    rw [hpreorder]
    exact List.mem_append_right _ (List.mem_cons_self ..)
  obtain ⟨name, shapes, fault, rfl, hfault, rfl⟩ := (checkNode_eq_error hparts hmem).1 hshape
  obtain ⟨id, layer, hid, hlayer⟩ := Arena.exists_get?_iff.2 hmem
  obtain ⟨args, rfl, rfl⟩ := Node.shape_eq_command hlayer
  rw [Html.checkCommand_map] at hfault
  refine ⟨id, name, args, fault, ⟨hid, ?_, ?_⟩, Html.checkCommand_eq_error.1 hfault, rfl⟩
  · intro hvalid
    rw [Html.checkCommand_eq_ok.2 hvalid] at hfault
    cases hfault
  · intro other otherName otherArgs hother hinvalid hne
    have hrising := pairwise_nameStarts parts
    -- the other command does not pass either, so the walk meets it later
    have hlater : (Node.command otherName otherArgs).shape ∈ back := by
      have hamong := Arena.exists_get?_iff.1 ⟨other, _, hother, rfl⟩
      rw [hpreorder] at hamong
      rcases List.mem_append.1 hamong with hpassed | hrest
      · exact absurd ((checkNode_of_get? hparts hother).1 (hfront _ hpassed)) hinvalid
      · apply (List.mem_cons.1 hrest).resolve_left
        intro hsame
        injection hsame with hname _
        exact absurd (congrArg Span.start hname) (Arena.nameStart_ne hrising hne hother hid)
    exact Tree.nameStart_lt hrising hpreorder hlater rfl rfl

end Parsed

/-- What is valid in the arena of a tree is so in the tree, where arguments are subtrees and not
numbers. -/
theorem Arena.AllValid.validCall {source : Bytes} {tree : Tree} (h : tree.toArena.AllValid source)
    {name : Span} {args : List (Argument Tree)} (hhas : tree.Has (.command name args)) :
    Html.ValidCall source name args := by
  obtain ⟨id, layer, hid, hshape⟩ := Arena.exists_get?_iff.2 (Tree.mem_preorder.2 ⟨_, hhas, rfl⟩)
  obtain ⟨more, rfl, hmore⟩ := Node.shape_eq_command hshape
  have hvalid := Html.checkCommand_eq_ok.2 (h id name more hid)
  rw [← Html.checkCommand_map fun _ => (), hmore, Html.checkCommand_map] at hvalid
  exact Html.checkCommand_eq_ok.1 hvalid

/-- A parsed source is rendered exactly if all of its commands are valid. Otherwise the command that
is shown is the one of those that are not valid whose name starts first, and what is shown of it is
the first check that fails: its name, the number of its arguments, the leftmost one of a wrong kind,
the language of a listing. -/
theorem render_parsed {source : Bytes} {arena : Arena} (h : parse source = .ok arena) :
    ((∃ html, Html.render source arena = .ok html) ↔ arena.AllValid source)
      ∧ (¬ arena.AllValid source → ∃ id name args fault, arena.FirstInvalid source id name args
        ∧ Html.FirstFault source name args fault
        ∧ Html.render source arena = .error (.fault fault)) := by
  refine ⟨exists_render_iff h, fun hinvalid => ?_⟩
  cases hrender : Html.render source arena with
  | ok html => exact absurd ((exists_render_iff h).1 ⟨html, hrender⟩) hinvalid
  | error failure =>
    obtain ⟨id, name, args, fault, hfirst, hfault, rfl⟩ := firstInvalid_of_render h hrender
    exact ⟨id, name, args, fault, hfirst, hfault, rfl⟩

/-- The command `~aside[~x[y]]`: its argument is of the wrong kind, and holds a command that does not
exist. -/
def renderingSample : Bytes :=
  [tilde, 0x61, 0x73, 0x69, 0x64, 0x65, 0x5b, tilde, 0x78, 0x5b, 0x79, 0x5d, 0x5d]

/-- Its arena, in which the command inside has the smaller number. -/
def renderingSampleArena : Arena where
  nodes := #[.text ⟨10, 11⟩, .group [0], .command ⟨8, 9⟩ [.inline 1 ⟨9, 12⟩],
    .command ⟨1, 6⟩ [.inline 2 ⟨6, 13⟩], .group [3]]
  root := 4

theorem render_parsed_sample :
    parse renderingSample = .ok renderingSampleArena
      ∧ ¬ renderingSampleArena.AllValid renderingSample
      ∧ Html.render renderingSample renderingSampleArena
        = .error (.fault ⟨.argumentKind .block, ⟨6, 13⟩⟩)
      ∧ ∃ id name args fault, renderingSampleArena.FirstInvalid renderingSample id name args
        ∧ Html.FirstFault renderingSample name args fault
        ∧ Html.render renderingSample renderingSampleArena = .error (.fault fault) := by
  let inside : Node Tree := .command ⟨8, 9⟩ [.inline (.node (.group [.node (.text ⟨10, 11⟩)])) ⟨9, 12⟩]
  let around : Node Tree := .command ⟨1, 6⟩ [.inline (.node inside) ⟨6, 13⟩]
  have htree : Tree.parse renderingSample = .ok (.node (.group [.node around])) := rfl
  have hparse : parse renderingSample = .ok renderingSampleArena := by
    rw [parse, htree]
    rfl
  have hrender : Html.render renderingSample renderingSampleArena
      = .error (.fault ⟨.argumentKind .block, ⟨6, 13⟩⟩) := rfl
  have hinvalid : ¬ renderingSampleArena.AllValid renderingSample := by
    intro hvalid
    have hunknown : Html.checkCommand renderingSample ⟨8, 9⟩ [Argument.inline 1 ⟨9, 12⟩]
        = .error ⟨.unknownCommand "x", ⟨8, 9⟩⟩ := rfl
    rw [Html.checkCommand_eq_ok.2 (hvalid 2 _ _ rfl)] at hunknown
    cases hunknown
  exact ⟨hparse, hinvalid, hrender, (render_parsed hparse).2 hinvalid⟩

end TildeMarkup
