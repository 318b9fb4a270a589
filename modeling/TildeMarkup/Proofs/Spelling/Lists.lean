import Mathlib.Data.List.Induction
import TildeMarkup.Proofs.Spelling.Holds

/-!
# What stands between arguments

A list ends with an argument and blanks, or with a comma and blanks after an argument; without
arguments it holds blanks only (`Arg.ListEnd`). From this follow the bytes at both sides of an
identifier, and the place of a comma: the first byte after its argument that is no blank.
-/

namespace TildeMarkup.Spelling

/-- Blanks in a list, as they are written: one element for each byte. -/
def Arg.blanks (gap : Bytes) : List Arg :=
  gap.map .blank

theorem Arg.bytesAll_blanks (gap : Bytes) : Arg.bytesAll (blanks gap) = gap := by
  induction gap with
  | nil => rfl
  | cons b rest ih => exact congrArg (b :: ·) ih

theorem Arg.argumentsAll_blanks (n : Nat) (gap : Bytes) :
    Arg.argumentsAll n (blanks gap) = [] := by
  induction gap generalizing n with
  | nil => rfl
  | cons b rest ih => exact ih (n + 1)

theorem Arg.blanks_of_fitsAll {blocks : Bool} {gap : Bytes} (h : Arg.FitsAll blocks (blanks gap)) :
    gap.all isBlank = true := by
  induction gap with
  | nil => rfl
  | cons b rest ih =>
    rw [List.all_cons, Bool.and_eq_true]
    exact ⟨h.1, ih h.2⟩

/-- Blanks and commas stand for no argument, they only separate arguments. -/
def Arg.isSeparator : Arg → Bool
  | .blank _ => true
  | .comma => true
  | _ => false

/-- How a list ends as far as it is read, and whether an argument may be next. -/
inductive Arg.ListEnd : (args : List Arg) → (argFits : Bool) → Prop where
  | blanks (gap : Bytes) : Arg.ListEnd (Arg.blanks gap) true
  | argument {arg : Arg} (front : List Arg) (harg : arg.isSeparator = false) (gap : Bytes) :
      Arg.ListEnd (front ++ arg :: Arg.blanks gap) false
  | comma {arg : Arg} (front : List Arg) (harg : arg.isSeparator = false) (gap after : Bytes) :
      Arg.ListEnd (front ++ arg :: (Arg.blanks gap ++ .comma :: Arg.blanks after)) true

theorem Arg.blanks_snoc (gap : Bytes) (b : UInt8) :
    Arg.blanks gap ++ [.blank b] = Arg.blanks (gap ++ [b]) := by
  rw [blanks, blanks, List.map_append]
  rfl

namespace Arg.ListEnd

variable {args : List Arg} {argFits : Bool}

/-- Another blank goes to the blanks that the list ends with. -/
theorem snoc_blank (h : ListEnd args argFits) (b : UInt8) : ListEnd (args ++ [.blank b]) argFits := by
  cases h with
  | blanks gap =>
    rw [blanks_snoc]
    exact .blanks _
  | argument front harg gap =>
    rw [List.append_assoc, List.cons_append, blanks_snoc]
    exact .argument front harg _
  | comma front harg gap after =>
    rw [List.append_assoc, List.cons_append, List.append_assoc, List.cons_append, blanks_snoc]
    exact .comma front harg gap _

/-- A comma may follow where an argument may not, that is after an argument and blanks. -/
theorem snoc_comma (h : ListEnd args false) : ListEnd (args ++ [.comma]) true := by
  cases h with
  | argument front harg gap =>
    rw [List.append_assoc, List.cons_append]
    exact .comma front harg gap []

/-- A list that the automaton takes ends in one of the three ways, by induction from its end. -/
theorem of_inList (h : args.foldlM Arg.inList true = some argFits) : ListEnd args argFits := by
  induction args using List.reverseRecOn generalizing argFits with
  | nil =>
    cases h
    exact .blanks []
  | append_singleton front last ih =>
    rw [List.foldlM_append] at h
    obtain ⟨before, hfront, hlast⟩ := Option.bind_eq_some_iff.1 h
    have hend := ih hfront
    cases last with
    | blank b =>
      cases hlast
      exact hend.snoc_blank b
    | comma =>
      cases before with
      | true => cases hlast
      | false =>
        cases hlast
        exact hend.snoc_comma
    | _ =>
      cases before with
      | true =>
        cases hlast
        exact .argument front rfl []
      | false => cases hlast

end Arg.ListEnd

/-- The bracket that an argument stands in, if it stands in one. -/
def Arg.bracket? : Arg → Option Bracket
  | .inline _ => some .square
  | .block _ => some .curly
  | _ => none

/-- An argument that is no blank and no comma is one argument of the tree, with all its bytes as its
span. -/
theorem Arg.arguments_eq_singleton {arg : Arg} {blocks : Bool} (hfits : arg.Fits blocks)
    (harg : arg.isSeparator = false) (n : Nat) :
    ∃ a, arg.arguments n = [a] ∧ a.span = ⟨n, n + arg.bytes.length⟩
      ∧ a.bracket? = arg.bracket? := by
  cases arg with
  | blank => cases harg
  | comma => cases harg
  | ident letters => exact ⟨_, rfl, rfl, rfl⟩
  | string raw =>
    refine ⟨_, rfl, ?_, rfl⟩
    rw [Arg.length_bytes_string]
    rfl
  | block parts =>
    refine ⟨_, rfl, ?_, rfl⟩
    rw [Arg.length_bytes_block]
    rfl
  | inline part =>
    obtain ⟨hinline, _⟩ := hfits
    -- what stands in square brackets is no blank, so there is a node of it
    have htree : ∃ tree, part.trees (n + 1) = [tree] := by
      cases part with
      | run bracketed => cases bracketed <;> exact ⟨_, rfl⟩
      | call => exact ⟨_, rfl⟩
      | _ => cases hinline
    obtain ⟨tree, htree⟩ := htree
    refine ⟨.inline tree ⟨n, n + part.bytes.length + 2⟩, ?_, ?_, rfl⟩
    · rw [Arg.arguments, htree, List.map_singleton]
    · rw [Arg.length_bytes_inline]
      rfl

end TildeMarkup.Spelling
