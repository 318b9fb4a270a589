import TildeMarkup.Proofs.Document.Respan
import TildeMarkup.Proofs.Spelling.Grammar

/-!
# Spellings in another place

A part that stands elsewhere stands for the same nodes, with other spans. All that is asked of the
new spans is that those inside of the part move as one (`Moves`, `Part.trees_respan`): what becomes
of spans around it or beside it does not matter. An empty span in front of the part is beside it; the
nodes of a part that fits the grammar have none there.
-/

namespace TildeMarkup.Spelling

/-- The spans inside of the stretch of `len` bytes from `n` on move to the stretch from `n'` on. -/
def Moves (f : Span → Span) (n n' len : Nat) : Prop :=
  ∀ a b, a ≤ b → 0 < b → b ≤ len → f ⟨n + a, n + b⟩ = ⟨n' + a, n' + b⟩

namespace Moves

variable {f : Span → Span} {n n' len : Nat}

theorem mono (h : Moves f n n' len) {len' : Nat} (hle : len' ≤ len) : Moves f n n' len' :=
  fun a b hab hpos hb => h a b hab hpos (Nat.le_trans hb hle)

/-- What moves as one does so from any place in it on. -/
theorem sub (h : Moves f n n' len) (skip : Nat) {len' : Nat} (hle : skip + len' ≤ len) :
    Moves f (n + skip) (n' + skip) len' := by
  intro a b hab hpos hb
  have hmove := h (skip + a) (skip + b) (by omega) (by omega) (by omega)
  simpa [Nat.add_assoc] using hmove

theorem span (h : Moves f n n' len) {start start' a b : Nat} (hstart : start = n + a)
    (hstart' : start' = n' + a) (hpos : 0 < a + b) (hb : a + b ≤ len) :
    f ⟨start, start + b⟩ = ⟨start', start' + b⟩ := by
  have hmove := h a (a + b) (by omega) hpos hb
  rw [hstart, hstart']
  simpa [Nat.add_assoc] using hmove

/-- Two moves one after the other are a move. -/
theorem comp {g : Span → Span} {n'' : Nat} (h : Moves f n n' len) (hg : Moves g n' n'' len) :
    Moves (g ∘ f) n n'' len := by
  intro a b hab hpos hb
  rw [Function.comp, h a b hab hpos hb, hg a b hab hpos hb]

end Moves

theorem argsStart_shift (n k : Nat) (name gap : Bytes) (listed : Bool) :
    argsStart (n + k) name gap listed = argsStart n name gap listed + k := by
  simp only [argsStart]
  omega

/-- The arguments of a command that moves are moved by as much, and lie inside of it. -/
theorem Moves.args {f : Span → Span} {n n' : Nat} {name gap : Bytes} {listed : Bool}
    {args : List Arg} (h : Moves f n n' (Part.call name gap listed args).bytes.length) :
    Moves f (argsStart n name gap listed) (argsStart n' name gap listed)
      (Arg.bytesAll args).length := by
  have hlength := Part.length_bytes_call 0 name gap listed args
  have hsub : Moves f (n + argsStart 0 name gap listed) (n' + argsStart 0 name gap listed)
      (Arg.bytesAll args).length := h.sub _ (by omega)
  have hstart := argsStart_shift 0 n name gap listed
  have hstart' := argsStart_shift 0 n' name gap listed
  rw [Nat.zero_add, Nat.add_comm] at hstart hstart'
  rwa [hstart, hstart']

/-- The command read from a call goes over to that of another, if its name and its arguments do. -/
theorem Part.trees_call_respan {f : Span → Span} {name gap letters gap' : Bytes} {listed listed' : Bool}
    {args args' : List Arg} {n n' : Nat}
    (hname : f ⟨n + 1, n + 1 + name.length⟩ = ⟨n' + 1, n' + 1 + letters.length⟩)
    (hargs : Arg.argumentsAll (argsStart n' letters gap' listed') args'
      = (Arg.argumentsAll (argsStart n name gap listed) args).map (Argument.respanTree f)) :
    (Part.call letters gap' listed' args').trees n'
      = ((Part.call name gap listed args).trees n).map (Tree.respan f) := by
  simp only [Part.trees, List.map_singleton, Tree.respan_command, hname, hargs]

mutual

/-- The nodes of a part that moves are its nodes with moved spans, by induction on the spelling. -/
theorem Part.trees_respan {f : Span → Span} {blocks : Bool} : ∀ (part : Part) {n n' : Nat},
    part.Fits blocks → Moves f n n' part.bytes.length →
      part.trees n' = (part.trees n).map (Tree.respan f)
  | .blank _, n, n', _, _ => rfl
  | .text bytes, n, n', hfits, h => by
    have hpos := List.length_pos_iff.2 hfits.1
    have hspan : f ⟨n, n + bytes.length⟩ = ⟨n', n' + bytes.length⟩ :=
      h.span (a := 0) rfl rfl (by omega) (Nat.le_of_eq (Nat.zero_add _))
    simp only [Part.trees, List.map_singleton, Tree.respan_node, Node.map, Node.respan, hspan]
  | .run bracketed pieces ending, n, n', hfits, h => by
    obtain ⟨_, _, _, hpieces⟩ := hfits
    have htrees := Part.treesAll_respan pieces hpieces
      (h.mono (by rw [Part.bytes, List.length_append]; omega))
    cases bracketed <;>
      simp only [Part.trees, List.map_singleton, Tree.respan_node, Node.map, Node.respan, htrees]
  | .call name gap listed args, n, n', hfits, h => by
    obtain ⟨_, _, _, hargs⟩ := hfits
    have hlength := Part.length_bytes_call 0 name gap listed args
    have hname : f ⟨n + 1, n + 1 + name.length⟩ = ⟨n' + 1, n' + 1 + name.length⟩ :=
      h.span rfl rfl (by omega) (by rw [argsStart] at hlength; omega)
    exact Part.trees_call_respan hname (Arg.argumentsAll_respan args hargs h.args)

theorem Part.treesAll_respan {f : Span → Span} {blocks : Bool} : ∀ (parts : List Part) {n n' : Nat},
    Part.FitsAll blocks parts → Moves f n n' (Part.bytesAll parts).length →
      Part.treesAll n' parts = (Part.treesAll n parts).map (Tree.respan f)
  | [], n, n', _, _ => rfl
  | part :: rest, n, n', hfits, h => by
    rw [Part.bytesAll, List.length_append] at h
    have hpart := Part.trees_respan part hfits.1 (h.mono (by omega))
    have hrest := Part.treesAll_respan rest hfits.2 (h.sub part.bytes.length (Nat.le_refl _))
    rw [Part.treesAll, Part.treesAll, List.map_append, hpart, hrest]

theorem Arg.arguments_respan {f : Span → Span} {blocks : Bool} : ∀ (arg : Arg) {n n' : Nat},
    arg.Fits blocks → Moves f n n' arg.bytes.length →
      arg.arguments n' = (arg.arguments n).map (Argument.respanTree f)
  | .blank _, n, n', _, _ => rfl
  | .comma, n, n', _, _ => rfl
  | .ident letters, n, n', hfits, h => by
    have hpos := List.length_pos_iff.2 hfits.1
    have hspan := h.span (a := 0) rfl rfl (by omega) (Nat.le_of_eq (Nat.zero_add letters.length))
    exact congrArg (fun span => [Argument.ident span]) hspan.symm
  | .string raw, n, n', _, h => by
    have hlength := Arg.length_bytes_string 0 raw
    have hspan := h.span (a := 0) (b := raw.length + 2) rfl rfl (by omega) (by omega)
    exact congrArg (fun span => [Argument.string span]) hspan.symm
  | .inline part, n, n', hfits, h => by
    have hlength := Arg.length_bytes_inline 0 part
    have hspan : f ⟨n, n + part.bytes.length + 2⟩ = ⟨n', n' + part.bytes.length + 2⟩ :=
      h.span (a := 0) (b := part.bytes.length + 2) rfl rfl (by omega) (by omega)
    have hpart := Part.trees_respan part hfits.2 (h.sub 1 (by omega))
    simp only [Arg.arguments, hpart, List.map_map, Function.comp_def, Argument.respanTree,
      Argument.map, Argument.respan, hspan]
  | .block parts, n, n', hfits, h => by
    have hlength := Arg.length_bytes_block 0 parts
    have hspan : f ⟨n, n + (Part.bytesAll parts).length + 2⟩
        = ⟨n', n' + (Part.bytesAll parts).length + 2⟩ :=
      h.span (a := 0) (b := (Part.bytesAll parts).length + 2) rfl rfl (by omega) (by omega)
    have hparts := Part.treesAll_respan parts hfits.2.2 (h.sub 1 (by omega))
    simp only [Arg.arguments, hparts, List.map_singleton, Argument.respanTree, Argument.map,
      Argument.respan, hspan]

theorem Arg.argumentsAll_respan {f : Span → Span} {blocks : Bool} : ∀ (args : List Arg) {n n' : Nat},
    Arg.FitsAll blocks args → Moves f n n' (Arg.bytesAll args).length →
      Arg.argumentsAll n' args = (Arg.argumentsAll n args).map (Argument.respanTree f)
  | [], n, n', _, _ => rfl
  | arg :: rest, n, n', hfits, h => by
    rw [Arg.bytesAll, List.length_append] at h
    have harg := Arg.arguments_respan arg hfits.1 (h.mono (by omega))
    have hrest := Arg.argumentsAll_respan rest hfits.2 (h.sub arg.bytes.length (Nat.le_refl _))
    rw [Arg.argumentsAll, Arg.argumentsAll, List.map_append, harg, hrest]

end

end TildeMarkup.Spelling
