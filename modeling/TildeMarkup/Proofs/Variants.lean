import TildeMarkup.Proofs.Composition
import TildeMarkup.Proofs.Delimiters
import TildeMarkup.Proofs.Insertion

/-!
# Ways to write a call

A call may be written in several ways: blanks may stand after its name and anywhere in its list, the
list may end with a comma, and a single argument in brackets needs no list. In every document, at any
depth, these give the same nodes and the same HTML, or the same failure (`parse_variant`).

A single argument may be put in a list if its brackets are a word. After a line end the closing square
bracket of an argument can take a bracket of the prose in front of it; the bracket of the argument is
then still open where the list closes, and the list is refused (`exists_listed_refused`).
-/

namespace TildeMarkup

open Spelling

/-- Another way to write one command of a source, and what becomes of the spans. -/
inductive Variant (source : Bytes) (tree : Tree) : (edited : Bytes) → (move : Span → Span) → Prop where
  /-- A single argument without a list is put in one. -/
  | listed {name : Span} {arg : Argument Tree} (h : tree.Has (.command name [arg]))
      (hbare : skipBlanks source name.stop = arg.span.start)
      (hbalanced : arg.kind = .inline → Bracket.Balanced (tree.unquoted source arg.span)) :
      Variant source tree
        (splice (splice source arg.span.start arg.span.start [Bracket.round.opener])
          (arg.span.stop + 1) (arg.span.stop + 1) [Bracket.round.closer])
        (Span.insert (arg.span.stop + 1) 1 ∘ Span.insert arg.span.start 1)
  /-- Blanks between the name and what opens the arguments. -/
  | gap {name : Span} {args : List (Argument Tree)} {q : Nat} {blanks : Bytes}
      (h : tree.Has (.command name args)) (hlo : name.stop ≤ q)
      (hhi : q ≤ skipBlanks source name.stop) (hblanks : blanks.all isBlank = true) :
      Variant source tree (splice source q q blanks) (Span.insert q blanks.length)
  /-- Blanks in a list, outside of its arguments. -/
  | blanks {name : Span} {args : List (Argument Tree)} {q : Nat} {blanks : Bytes}
      (h : tree.Has (.command name args)) (hlisted : IsListed source name)
      (hlo : skipBlanks source name.stop < q) (hhi : q ≤ listStop source name args)
      (hargs : ∀ arg ∈ args, q ≤ arg.span.start ∨ arg.span.stop ≤ q)
      (hblanks : blanks.all isBlank = true) :
      Variant source tree (splice source q q blanks) (Span.insert q blanks.length)
  /-- A comma after the last argument of a list that has none there. -/
  | comma {name : Span} {args : List (Argument Tree)} {arg : Argument Tree} {q : Nat}
      (h : tree.Has (.command name args)) (hlisted : IsListed source name)
      (hlast : args.getLast? = some arg)
      (hnone : source[skipBlanks source arg.span.stop]? ≠ some TildeMarkup.comma)
      (hlo : arg.span.stop ≤ q) (hhi : q ≤ skipBlanks source arg.span.stop) :
      Variant source tree (splice source q q [TildeMarkup.comma]) (Span.insert q 1)

namespace Spelling

variable {parts : List Part} {opened : List Bracket} {m : Nat} {name gap : Bytes} {listed : Bool}
  {args front back : List Arg}

/-! ## Leaves around an insertion -/

/-- An offset inside of a command that no leaf of the command goes across splits the whole document. -/
theorem Holds.splits {part : Part} (h : Holds parts m part) {q : Nat} (hlo : m ≤ q)
    (hhi : q ≤ m + part.bytes.length)
    (hmarks : ∀ mark ∈ part.marks m, mark.span.stop ≤ q ∨ q ≤ mark.span.start) :
    (documentTree parts).Splits q := by
  obtain ⟨before, after, heq, hapart⟩ := h.surrounds
  intro span hspan
  obtain ⟨mark, hmark, rfl⟩ := List.mem_map.1 hspan
  obtain ⟨hmark, hleaf⟩ := List.mem_filter.1 hmark
  rw [heq] at hmark
  simp only [List.mem_append] at hmark hapart
  -- a leaf beside the command lies apart from it, and a leaf goes around nothing
  have hbeside (hmark : mark ∈ before ∨ mark ∈ after) :
      mark.span.stop ≤ q ∨ q ≤ mark.span.start := by
    rcases hapart mark hmark with h | h | ⟨hscope, _⟩
    · exact .inl (by omega)
    · exact .inr (by omega)
    · rw [hscope] at hleaf
      cases hleaf
  rcases hmark with (hmark | hmark) | hmark
  · exact hbeside (.inl hmark)
  · exact hmarks mark hmark
  · exact hbeside (.inr hmark)

theorem Holds.splits_gap (h : Holds parts m (.call name gap listed args)) {q : Nat}
    (hlo : m + 1 + name.length ≤ q) (hhi : q ≤ argsStart m name gap listed) :
    (documentTree parts).Splits q := by
  have hlength := Part.length_bytes_call m name gap listed args
  refine h.splits (by omega) (by omega) fun mark hmark => ?_
  rw [Part.marks_call] at hmark
  rcases List.mem_cons.1 hmark with rfl | hmark
  · exact .inl hlo
  · exact .inr (Nat.le_trans hhi ((Arg.placedAll args _).bounds mark hmark).1)

theorem Holds.splits_args (h : Holds parts m (.call name gap listed (front ++ back))) :
    (documentTree parts).Splits (argsStart m name gap listed + (Arg.bytesAll front).length) := by
  have hlength := Part.length_bytes_call m name gap listed (front ++ back)
  rw [Arg.bytesAll_append, List.length_append] at hlength
  have hname : m + 1 + name.length ≤ argsStart m name gap listed := by
    rw [argsStart]
    omega
  refine h.splits (by omega) (by omega) fun mark hmark => ?_
  rw [Part.marks_call, Arg.marksAll_append] at hmark
  rcases List.mem_cons.1 hmark with rfl | hmark
  · exact .inl (Nat.le_trans hname (Nat.le_add_right _ _))
  · rcases List.mem_append.1 hmark with hmark | hmark
    · exact .inl ((Arg.placedAll front _).bounds mark hmark).2.2
    · exact .inr ((Arg.placedAll back _).bounds mark hmark).1

/-! ## Insertions into a command -/

/-- Where the blanks behind a name end: at the first byte of the arguments. -/
theorem Holds.skipBlanks_gap (hparts : IsDocument parts opened)
    (h : Holds parts m (.call name gap listed args)) :
    skipBlanks (Part.bytesAll parts) (m + 1 + name.length) = m + 1 + name.length + gap.length := by
  obtain ⟨_, hgap, hcall, _⟩ := h.fits_call hparts
  have hopens : ∃ (kind : Bracket) (rest : Bytes), (Part.call name gap listed args).bytes
      = tilde :: (name ++ (gap ++ kind.opener :: rest)) := by
    match listed, args, hcall with
    | true, _, _ => exact ⟨.round, _, rfl⟩
    | false, [.inline part], _ => exact ⟨.square, _, rfl⟩
    | false, [.block inner], _ => exact ⟨.curly, _, rfl⟩
  obtain ⟨kind, rest, hbytes⟩ := hopens
  have hat := h.located
  rw [hbytes] at hat
  exact skipBlanks_eq hat.tail.right hgap (Reader.isBlank_opener kind)

/-- Blanks more behind the name of a command leave everything as it was, with later spans moved. -/
theorem Holds.parse_gap {before after blanks : Bytes} (hparts : IsDocument parts opened)
    (h : Holds parts m (.call name (before ++ after) listed args))
    (hblanks : blanks.all isBlank = true) {q : Nat} (hq : q = m + 1 + name.length + before.length) :
    parse (splice (Part.bytesAll parts) q q blanks)
      = .ok ((documentTree parts).toArena.respan (Span.insert q blanks.length)) := by
  obtain ⟨_, hgap, hcall, blocks, hargs⟩ := h.fits_call hparts
  have hinside := Part.lt_length_call hcall m name (before ++ after)
  have hlength := Part.length_bytes_call m name (before ++ after) listed args
  have hlength' := Part.length_bytes_call m name (before ++ (blanks ++ after)) listed args
  simp only [List.length_append] at hinside
  have hstart : argsStart m name (before ++ (blanks ++ after)) listed
      = argsStart m name (before ++ after) listed + blanks.length := by
    simp only [argsStart, List.length_append]
    omega
  have hbehind : q ≤ argsStart m name (before ++ after) listed := by
    simp only [argsStart, List.length_append]
    omega
  have hnew : (Part.call name (before ++ (blanks ++ after)) listed args).bytes.length
      = (Part.call name (before ++ after) listed args).bytes.length + blanks.length := by
    omega
  -- The name stands in front of the blanks and keeps its span; the arguments are behind them and move.
  have hname : Span.insert q blanks.length ⟨m + 1, m + 1 + name.length⟩
      = ⟨m + 1, m + 1 + name.length⟩ :=
    Span.insert_of_le (show m + 1 + name.length ≤ q by omega)
  have hmoved := moves_insert_behind hbehind blanks.length (Arg.bytesAll args).length
  rw [← hstart] at hmoved
  have hbytes (blanks : Bytes) : (Part.call name (before ++ (blanks ++ after)) listed args).bytes
      = (tilde :: (name ++ before)) ++ (blanks ++ (after ++ if listed then
        Bracket.round.opener :: (Arg.bytesAll args ++ [Bracket.round.closer])
        else Arg.bytesAll args)) := by
    simp only [Part.bytes, List.append_assoc, List.cons_append]
  have hplace : q = m + (tilde :: (name ++ before)).length := by
    simp only [List.length_cons, List.length_append]
    omega
  refine h.parse_splice hparts (.call name (before ++ (blanks ++ after)) listed args)
    ⟨rfl, fun blocks hfits => ⟨hfits.1, ?_, hfits.2.2⟩, fun _ _ => id⟩
    (regrows_insert (by omega) (by omega) hnew) ?_ (hbytes []) (hbytes blanks) hplace rfl
  · simp only [List.all_append, Bool.and_eq_true] at hgap ⊢
    exact ⟨hgap.1, hblanks, hgap.2⟩
  · exact Part.trees_call_respan hname (Arg.argumentsAll_respan args hargs hmoved)

/-- Separators more in a list do so as well, wherever the order of the list allows them. -/
theorem Holds.parse_args {added : List Arg} (hparts : IsDocument parts opened)
    (h : Holds parts m (.call name gap true (front ++ back)))
    (hcall : Arg.fitsCall true (front ++ (added ++ back)) = true)
    (hadded : ∀ blocks, Arg.FitsAll blocks added)
    (hcross : ∀ σ, Arg.crossAll σ added = some σ) (hnone : ∀ n, Arg.argumentsAll n added = [])
    {q : Nat} (hq : q = argsStart m name gap true + (Arg.bytesAll front).length) :
    parse (splice (Part.bytesAll parts) q q (Arg.bytesAll added))
      = .ok ((documentTree parts).toArena.respan
        (Span.insert q (Arg.bytesAll added).length)) := by
  subst hq
  obtain ⟨_, _, _, blocks, hargs⟩ := h.fits_call hparts
  obtain ⟨hfront, hback⟩ := Arg.fitsAll_append.1 hargs
  have hstart := argsStart_eq m name gap true
  have hbytes (added : List Arg) : (Part.call name gap true (front ++ (added ++ back))).bytes
      = (callHead name gap true ++ Arg.bytesAll front)
        ++ (Arg.bytesAll added ++ (Arg.bytesAll back ++ callTail true)) := by
    simp only [Part.bytes_call_eq, Arg.bytesAll_append, List.append_assoc]
  have hlength (added : List Arg) := congrArg List.length (hbytes added)
  simp only [List.length_append, show (callTail true).length = 1 from rfl] at hlength
  have hold := hlength []
  have hnew := hlength added
  simp only [List.nil_append, Arg.bytesAll, List.length_nil] at hold
  have hlo : m + 1 + name.length ≤ argsStart m name gap true := by
    rw [argsStart]
    omega
  have hname : Span.insert (argsStart m name gap true + (Arg.bytesAll front).length)
      (Arg.bytesAll added).length ⟨m + 1, m + 1 + name.length⟩ = ⟨m + 1, m + 1 + name.length⟩ :=
    Span.insert_of_le (Nat.le_trans hlo (Nat.le_add_right _ _))
  -- The arguments in front of the place keep their spans, and those behind it move.
  have hkept := moves_insert_before (Nat.le_refl (argsStart m name gap true
    + (Arg.bytesAll front).length)) (Arg.bytesAll added).length
  have hmoved := moves_insert_behind (Nat.le_refl (argsStart m name gap true
    + (Arg.bytesAll front).length)) (Arg.bytesAll added).length (Arg.bytesAll back).length
  have hplace : argsStart m name gap true + (Arg.bytesAll front).length
      = m + (callHead name gap true ++ Arg.bytesAll front).length := by
    rw [List.length_append]
    omega
  -- What is left: the order of the list, the brackets, and the nodes.
  refine h.parse_splice hparts (.call name gap true (front ++ (added ++ back)))
    ⟨rfl, fun blocks hfits => ?_, fun σ τ h => ?_⟩ (regrows_insert (by omega) (by omega) (by omega))
    ?_ (hbytes []) (hbytes added) hplace rfl
  · obtain ⟨hfront, hback⟩ := Arg.fitsAll_append.1 hfits.2.2.2
    exact ⟨hfits.1, hfits.2.1, hcall, Arg.fitsAll_append.2
      ⟨hfront, Arg.fitsAll_append.2 ⟨hadded blocks, hback⟩⟩⟩
  · refine Part.cross_call_of_crossAll (fun σ τ hall => ?_) h
    rw [Arg.crossAll_append] at hall ⊢
    obtain ⟨middle, hfirst, hrest⟩ := Option.bind_eq_some_iff.1 hall
    rw [hfirst, Option.bind_some, Arg.crossAll_append, hcross]
    exact hrest
  · refine Part.trees_call_respan hname ?_
    rw [Arg.argumentsAll_append, Arg.argumentsAll_append, Arg.argumentsAll_append, hnone,
      List.nil_append, List.map_append, ← Arg.argumentsAll_respan front hfront hkept,
      ← Arg.argumentsAll_respan back hback hmoved]

section Listed

variable {arg : Arg}

theorem Part.bytes_call_bare (name gap : Bytes) (arg : Arg) :
    (Part.call name gap false [arg]).bytes = callHead name gap false ++ arg.bytes := by
  simp [Part.bytes_call_eq, callTail]

theorem Part.bytes_call_list (name gap : Bytes) (arg : Arg) :
    (Part.call name gap true [arg]).bytes = callHead name gap false
      ++ (Bracket.round.opener :: (arg.bytes ++ [Bracket.round.closer])) := by
  simp [Part.bytes_call_eq, callTail, callHead]

/-- A single argument may stand in a list, if it leaves no bracket open behind it. -/
theorem exchange_listed (hcall : Arg.fitsCall false [arg] = true)
    (hcross : ∀ σ, arg.cross σ = some σ) :
    Exchange (.call name gap false [arg]) (.call name gap true [arg]) where
  form := rfl
  fits blocks hfits := by
    refine ⟨hfits.1, hfits.2.1, ?_, hfits.2.2.2⟩
    cases arg with
    | inline => rfl
    | block => rfl
    | _ => cases hcall
  cross σ τ h := by
    have hτ : arg.cross σ = some τ := (Arg.crossAll_singleton σ arg).symm.trans h
    rw [hcross] at hτ
    cases hτ
    simp only [Part.cross, if_true, Arg.crossAll_singleton, hcross, Option.bind_some]
    exact Bracket.pop_eq_some.2 rfl

variable {p q : Nat}

/-- Two bytes more, the parentheses of the list, move what is around the argument and what is behind. -/
theorem regrows_listed (hlo : m < p) (hp : p = argsStart m name gap false)
    (hq : q = p + arg.bytes.length + 1) :
    Regrows (Span.insert q 1 ∘ Span.insert p 1) m
      (Part.call name gap false [arg]).bytes.length
      (Part.call name gap true [arg]).bytes.length := by
  have hstart := argsStart_eq m name gap false
  rw [Part.bytes_call_bare, Part.bytes_call_list]
  simp only [List.length_append, List.length_cons, List.length_nil]
  let len := (callHead name gap false).length + arg.bytes.length
  have hopens : Regrows (Span.insert p 1) m len (len + 1) :=
    regrows_insert hlo (by omega) rfl
  have hcloses : Regrows (Span.insert q 1) m (len + 1) (len + 2) :=
    regrows_insert (by omega) (by omega) rfl
  exact hopens.comp hcloses

/-- A command with its argument in a list has the same node, with its spans moved. -/
theorem Part.trees_listed {blocks : Bool} (hfits : arg.Fits blocks)
    (hp : p = argsStart m name gap false) (hq : q = p + arg.bytes.length + 1) :
    (Part.call name gap true [arg]).trees m
      = ((Part.call name gap false [arg]).trees m).map
        (Tree.respan (Span.insert q 1 ∘ Span.insert p 1)) := by
  have hlo : m + 1 + name.length ≤ p := by
    rw [hp, argsStart]
    omega
  have hname : (Span.insert q 1 ∘ Span.insert p 1) ⟨m + 1, m + 1 + name.length⟩
      = ⟨m + 1, m + 1 + name.length⟩ := by
    have hkept : Span.insert p 1 ⟨m + 1, m + 1 + name.length⟩ = ⟨m + 1, m + 1 + name.length⟩ :=
      Span.insert_of_le hlo
    rw [Function.comp, hkept]
    exact Span.insert_of_le (show m + 1 + name.length ≤ q by omega)
  have hmoved : Moves (Span.insert q 1 ∘ Span.insert p 1) p (p + 1) arg.bytes.length :=
    (moves_insert_behind (Nat.le_refl p) 1 _).comp (moves_insert_before (by omega) 1)
  have hlisted : argsStart m name gap true = p + 1 := by
    rw [hp]
    rfl
  refine Part.trees_call_respan hname ?_
  rw [Arg.argumentsAll_singleton, Arg.argumentsAll_singleton, hlisted, ← hp]
  exact Arg.arguments_respan arg hfits hmoved

/-- A single argument is put in a list, in any document, if its brackets are a word. -/
theorem Holds.parse_listed (hparts : IsDocument parts opened)
    (h : Holds parts m (.call name gap false [arg])) (hcross : ∀ σ, arg.cross σ = some σ)
    (hp : p = argsStart m name gap false) (hq : q = p + arg.bytes.length + 1) :
    parse (splice (splice (Part.bytesAll parts) p p [Bracket.round.opener]) q q
        [Bracket.round.closer])
      = .ok ((documentTree parts).toArena.respan (Span.insert q 1 ∘ Span.insert p 1)) := by
  obtain ⟨_, _, hcall, blocks, hargs⟩ := h.fits_call hparts
  have hstart := argsStart_eq m name gap false
  have hlo : m < p := by
    rw [hp, argsStart]
    omega
  obtain ⟨others, before, after, hothers, hsource, hm, hbytes, htree⟩ :=
    h.exchange hparts (exchange_listed hcall hcross) (regrows_listed hlo hp hq)
      (Part.trees_listed hargs.1 hp hq)
  -- Both insertions, written as the bytes around them.
  have hopens := splice_insert (before ++ callHead name gap false) (arg.bytes ++ after)
    [Bracket.round.opener]
  have hcloses := splice_insert
    (before ++ (callHead name gap false ++ (Bracket.round.opener :: arg.bytes))) after
    [Bracket.round.closer]
  rw [show (before ++ callHead name gap false).length = p by simp; omega] at hopens
  rw [show (before ++ (callHead name gap false ++ (Bracket.round.opener :: arg.bytes))).length = q
    by simp; omega] at hcloses
  rw [← parse_of_exchange hothers htree, hsource, hbytes, Part.bytes_call_bare,
    Part.bytes_call_list]
  simp only [List.append_assoc, List.cons_append, List.nil_append] at hopens hcloses ⊢
  rw [hopens, hcloses]

end Listed

/-! ## Where the parts of a list are -/

/-- An offset in a list that lies in no argument stands between two parts of it. -/
theorem Arg.exists_split {blocks : Bool} (hfits : Arg.FitsAll blocks args) {n q : Nat} (hlo : n ≤ q)
    (hhi : q ≤ n + (Arg.bytesAll args).length)
    (hargs : ∀ a ∈ Arg.argumentsAll n args, q ≤ a.span.start ∨ a.span.stop ≤ q) :
    ∃ front back, args = front ++ back ∧ q = n + (Arg.bytesAll front).length := by
  -- By induction on the list: the offset is in front of its first part, or in the rest.
  induction args generalizing n with
  | nil => exact ⟨[], [], rfl, Nat.le_antisymm hhi hlo⟩
  | cons arg rest ih =>
    rw [Arg.bytesAll, List.length_append] at hhi
    rw [Arg.argumentsAll] at hargs
    rcases Nat.lt_or_ge q (n + arg.bytes.length) with hlt | hge
    · -- inside of the first part there is no place: a separator is one byte long
      refine ⟨[], arg :: rest, rfl, ?_⟩
      cases hsep : arg.isSeparator with
      | true =>
        have hone : arg.bytes.length = 1 := by
          cases arg with
          | blank => rfl
          | comma => rfl
          | _ => cases hsep
        rw [hone] at hlt
        exact Nat.le_antisymm (Nat.le_of_lt_succ hlt) hlo
      | false =>
        obtain ⟨a, ha, hspan, _⟩ := Arg.arguments_eq_singleton hfits.1 hsep n
        have hside := hargs a (List.mem_append_left _ (by rw [ha]; exact List.mem_singleton_self a))
        rw [hspan] at hside
        have hstart : q ≤ n := hside.resolve_right (Nat.not_le.2 hlt)
        exact Nat.le_antisymm hstart hlo
    · obtain ⟨front, back, rfl, hq⟩ := ih hfits.2 hge (by omega)
        fun a ha => hargs a (List.mem_append_right _ ha)
      refine ⟨arg :: front, back, rfl, ?_⟩
      rw [hq, Arg.bytesAll, List.length_append]
      omega

theorem Arg.foldlM_blanks (argFits : Bool) (blanks : Bytes) :
    (Arg.blanks blanks).foldlM Arg.inList argFits = some argFits := by
  induction blanks with
  | nil => rfl
  | cons b rest ih => exact ih

theorem Arg.crossAll_blanks (σ : List Bracket) (blanks : Bytes) :
    Arg.crossAll σ (Arg.blanks blanks) = some σ := by
  induction blanks with
  | nil => rfl
  | cons b rest ih => exact ih

theorem Arg.fitsAll_blanks {blanks : Bytes} (h : blanks.all isBlank = true) (blocks : Bool) :
    Arg.FitsAll blocks (Arg.blanks blanks) := by
  induction blanks with
  | nil => trivial
  | cons b rest ih =>
    rw [List.all_cons, Bool.and_eq_true] at h
    exact ⟨h.1, ih h.2⟩

/-- Blanks make no difference to the order of a list, wherever they stand. -/
theorem Arg.fitsCall_blanks (front back : List Arg) (blanks : Bytes) :
    Arg.fitsCall true (front ++ (Arg.blanks blanks ++ back)) = Arg.fitsCall true (front ++ back) := by
  simp only [fitsCall, if_true, List.foldlM_append, foldlM_blanks]
  congr 2

/-- Behind the last argument of a list a comma may be next, anywhere among the blanks there. -/
theorem Arg.fitsCall_comma {arg : Arg} {before after : Bytes} (harg : arg.isSeparator = false)
    (h : Arg.fitsCall true (front ++ arg :: Arg.blanks (before ++ after)) = true) :
    Arg.fitsCall true ((front ++ arg :: Arg.blanks before) ++ ([.comma] ++ Arg.blanks after))
      = true := by
  simp only [fitsCall, if_true, List.foldlM_append, List.foldlM_cons, Option.isSome_iff_exists,
    Option.bind_eq_bind, Option.bind_eq_some_iff] at h ⊢
  obtain ⟨_, argFits, hfront, next, hnext, _⟩ := h
  -- Behind an argument none may follow, and that is where a comma may.
  have hfalse : next = false := by
    cases arg with
    | blank => cases harg
    | comma => cases harg
    | _ =>
      cases argFits with
      | false => cases hnext
      | true => cases hnext; rfl
  rw [hfalse] at hnext
  exact ⟨true, false, ⟨argFits, hfront, false, hnext, foldlM_blanks _ before⟩, true,
    ⟨true, rfl, rfl⟩, foldlM_blanks _ after⟩

/-- Where a comma may be put in behind the last argument: between the blanks that stand there. -/
theorem Holds.exists_comma {a : Argument Tree} {q : Nat} (hparts : IsDocument parts opened)
    (h : Holds parts m (.call name gap true args))
    (hlast : (Arg.argumentsAll (argsStart m name gap true) args).getLast? = some a)
    (hnone : (Part.bytesAll parts)[skipBlanks (Part.bytesAll parts) a.span.stop]?
      ≠ some TildeMarkup.comma)
    (hlo : a.span.stop ≤ q) (hhi : q ≤ skipBlanks (Part.bytesAll parts) a.span.stop) :
    ∃ front back, args = front ++ back
      ∧ q = argsStart m name gap true + (Arg.bytesAll front).length
      ∧ Arg.fitsCall true (front ++ ([.comma] ++ back)) = true := by
  obtain ⟨_, _, hcall, blocks, hargs⟩ := h.fits_call hparts
  obtain ⟨argFits, hfold⟩ := Option.isSome_iff_exists.1 hcall
  -- The list has no argument, it ends behind one, or it has a comma there already.
  cases Arg.ListEnd.of_inList hfold with
  | blanks blanks =>
    rw [Arg.argumentsAll_blanks] at hlast
    cases hlast
  | @argument arg front harg blanks =>
    obtain ⟨found, hfound, _, hspan, _⟩ := h.exists_argument hparts harg
    rw [Arg.getLast?_argumentsAll hfound (Arg.argumentsAll_blanks · blanks)] at hlast
    cases hlast
    rw [← List.append_nil (Arg.blanks blanks)] at h
    obtain ⟨hplace, _⟩ := h.skipBlanks_arg hparts rfl (Reader.isBlank_closer .round)
    rw [hspan] at hlo hhi
    rw [hplace] at hhi
    have hbytes (blanks : Bytes) : (Arg.bytesAll (front ++ arg :: Arg.blanks blanks)).length
        = (Arg.bytesAll front).length + arg.bytes.length + blanks.length := by
      simp only [Arg.bytesAll_append, Arg.bytesAll, Arg.bytesAll_blanks, List.length_append]
      omega
    rw [hbytes] at hhi
    have hstop : argsStart m name gap true + (Arg.bytesAll front).length + arg.bytes.length ≤ q :=
      hlo
    obtain ⟨k, rfl⟩ := Nat.exists_eq_add_of_le hstop
    have hblanks : blanks = blanks.take k ++ blanks.drop k := (List.take_append_drop k _).symm
    refine ⟨front ++ arg :: Arg.blanks (blanks.take k), Arg.blanks (blanks.drop k), ?_, ?_, ?_⟩
    · conv => lhs; rw [hblanks]
      simp [Arg.blanks]
    · rw [hbytes, List.length_take_of_le (by omega)]
      omega
    · rw [hblanks] at hcall
      exact Arg.fitsCall_comma harg hcall
  | @comma arg front harg before after =>
    obtain ⟨found, hfound, _, hspan, _⟩ := h.exists_argument hparts harg
    obtain ⟨hplace, hbyte⟩ := h.skipBlanks_arg hparts rfl Reader.isBlank_comma
    have hbehind (n : Nat) : Arg.argumentsAll n (Arg.blanks before ++ .comma :: Arg.blanks after)
        = [] := by
      rw [Arg.argumentsAll_append, Arg.argumentsAll_blanks]
      exact Arg.argumentsAll_blanks _ after
    rw [Arg.getLast?_argumentsAll hfound hbehind] at hlast
    cases hlast
    rw [hspan] at hnone
    exact absurd (hplace ▸ hbyte) hnone

end Spelling

/-- What holds of one other way to write a source: it has the same arena, and its layers say the same. -/
structure Variant.Sound (source : Bytes) (tree : Tree) (edited : Bytes) (move : Span → Span) : Prop where
  parse : parse edited = .ok (tree.toArena.respan move)
  alike : ∀ layer, tree.Has layer → layer.Alike move source edited

/-- An insertion that no leaf goes across changes no text, so it is sound if it parses as it should. -/
theorem Variant.Sound.of_splits {source added : Bytes} {tree : Tree} {q : Nat}
    (htree : Tree.parse source = .ok tree) (hq : q ≤ source.length) (hsplits : tree.Splits q)
    (h : TildeMarkup.parse (splice source q q added)
      = .ok (tree.toArena.respan (Span.insert q added.length))) :
    Sound source tree (splice source q q added) (Span.insert q added.length) where
  parse := h
  alike layer hlayer :=
    (Node.beside_of_splits hsplits hlayer (within_of_parse htree layer hlayer)).alike hq added

namespace Spelling

section Sound

variable {parts : List Part} {opened : List Bracket} {m : Nat} {name gap : Bytes} {listed : Bool}
  {args : List Arg} {q : Nat}

theorem Holds.sound_gap {blanks : Bytes} (hparts : IsDocument parts opened)
    (h : Holds parts m (.call name gap listed args)) (hlo : m + 1 + name.length ≤ q)
    (hhi : q ≤ skipBlanks (Part.bytesAll parts) (m + 1 + name.length))
    (hblanks : blanks.all isBlank = true) :
    Variant.Sound (Part.bytesAll parts) (documentTree parts)
      (splice (Part.bytesAll parts) q q blanks) (Span.insert q blanks.length) := by
  obtain ⟨_, _, hcall, _⟩ := h.fits_call hparts
  have hinside := Part.lt_length_call hcall m name gap
  have hle := h.located.le
  rw [h.skipBlanks_gap hparts] at hhi
  have hsplits := h.splits_gap hlo (by rw [argsStart]; omega)
  obtain ⟨k, rfl⟩ := Nat.exists_eq_add_of_le hlo
  rw [← List.take_append_drop k gap] at h
  refine .of_splits (parse_of_isDocument hparts) (by omega) hsplits ?_
  exact h.parse_gap hparts hblanks (by rw [List.length_take_of_le (by omega)])

theorem Holds.sound_args {front back added : List Arg} (hparts : IsDocument parts opened)
    (h : Holds parts m (.call name gap true (front ++ back)))
    (hcall : Arg.fitsCall true (front ++ (added ++ back)) = true)
    (hadded : ∀ blocks, Arg.FitsAll blocks added)
    (hcross : ∀ σ, Arg.crossAll σ added = some σ) (hnone : ∀ n, Arg.argumentsAll n added = [])
    (hq : q = argsStart m name gap true + (Arg.bytesAll front).length) :
    Variant.Sound (Part.bytesAll parts) (documentTree parts)
      (splice (Part.bytesAll parts) q q (Arg.bytesAll added))
      (Span.insert q (Arg.bytesAll added).length) := by
  have hlength := Part.length_bytes_call m name gap true (front ++ back)
  rw [Arg.bytesAll_append, List.length_append] at hlength
  have hle := h.located.le
  exact .of_splits (parse_of_isDocument hparts) (by omega) (hq ▸ h.splits_args)
    (h.parse_args hparts hcall hadded hcross hnone hq)

theorem Holds.sound_listed {arg : Arg} {p : Nat} (hparts : IsDocument parts opened)
    (h : Holds parts m (.call name gap false [arg])) (hcross : ∀ σ, arg.cross σ = some σ)
    (hp : p = argsStart m name gap false) (hq : q = p + arg.bytes.length) :
    Variant.Sound (Part.bytesAll parts) (documentTree parts)
      (splice (splice (Part.bytesAll parts) p p [Bracket.round.opener]) (q + 1) (q + 1)
        [Bracket.round.closer])
      (Span.insert (q + 1) 1 ∘ Span.insert p 1) := by
  have hlength := Part.length_bytes_call m name gap false [arg]
  rw [Arg.bytesAll_singleton] at hlength
  have hle := h.located.le
  have hfront : (documentTree parts).Splits (argsStart m name gap false + (Arg.bytesAll []).length) :=
    h.splits_args
  have hback : (documentTree parts).Splits
      (argsStart m name gap false + (Arg.bytesAll [arg]).length) := h.splits_args
  rw [Arg.bytesAll_singleton, ← hp, ← hq] at hback
  rw [Arg.bytesAll, List.length_nil, Nat.add_zero, ← hp] at hfront
  refine ⟨h.parse_listed hparts hcross hp (by omega), fun layer hlayer => ?_⟩
  have hwithin := within_of_parse (parse_of_isDocument hparts) layer hlayer
  have hbefore := Node.beside_of_splits hfront hlayer hwithin
  have hbehind := Node.beside_of_splits hback hlayer hwithin
  refine (hbefore.alike (by omega) [Bracket.round.opener]).trans ?_
  refine (hbefore.insert hbehind (by omega)).alike ?_ [Bracket.round.closer]
  simp only [splice, List.length_append, List.length_take, List.length_drop, List.length_singleton]
  omega

/-- A command whose only argument is the first thing behind its name has no list. -/
theorem Holds.exists_bare {a : Argument Tree} (hparts : IsDocument parts opened)
    (h : Holds parts m (.call name gap listed args))
    (hargs : [a] = Arg.argumentsAll (argsStart m name gap listed) args)
    (hbare : skipBlanks (Part.bytesAll parts) (m + 1 + name.length) = a.span.start) :
    ∃ arg, args = [arg] ∧ listed = false ∧ arg.arguments (argsStart m name gap false) = [a] := by
  obtain ⟨_, _, hcall, _⟩ := h.fits_call hparts
  cases listed with
  | true =>
    have hmem : a ∈ Arg.argumentsAll (argsStart m name gap true) args := by
      rw [← hargs]
      exact List.mem_singleton_self a
    obtain ⟨front, arg, back, rfl, harg⟩ := Arg.exists_of_mem_argumentsAll hmem
    have hspan := (h.argument_eq hparts harg).2.1
    have hopener := (h.skipBlanks_name hparts).1
    rw [hbare, hspan] at hopener
    simp only at hopener
    omega
  | false =>
    have hone : ∃ arg, args = [arg] := by
      clear hargs h
      match args, hcall with
      | [.inline part], _ => exact ⟨_, rfl⟩
      | [.block inner], _ => exact ⟨_, rfl⟩
    obtain ⟨arg, rfl⟩ := hone
    exact ⟨arg, rfl, rfl, by rw [hargs, Arg.argumentsAll_singleton]⟩

/-- An argument whose brackets are a word leaves nothing open, whatever was open in front of it. -/
theorem Holds.cross_of_balanced {front back : List Arg} {arg : Arg} (hparts : IsDocument parts opened)
    (h : Holds parts m (.call name gap listed (front ++ arg :: back)))
    (hbalanced : Bracket.Balanced arg.unquoted) (σ : List Bracket) : arg.cross σ = some σ := by
  obtain ⟨extra, hextra⟩ := h.cross_arg hparts
  have hscan := h.scan_arg hparts (hextra [])
  rw [Bracket.Balanced, hscan, List.append_nil] at hbalanced
  cases hbalanced
  exact hextra σ

end Sound

end Spelling

/-- Each of the four ways is sound, for each of which the spelling of the command is found first. -/
theorem Variant.sound {parts : List Part} {opened : List Bracket} {edited : Bytes}
    {move : Span → Span} (hparts : IsDocument parts opened)
    (h : Variant (Part.bytesAll parts) (documentTree parts) edited move) :
    Variant.Sound (Part.bytesAll parts) (documentTree parts) edited move := by
  -- One case for each way to write a command.
  cases h with
  | @listed name arg h hbare hbalanced =>
    obtain ⟨m, letters, gap, listed, spelled, hholds, rfl, hargs⟩ := holds_command h
    obtain ⟨spelled, rfl, rfl, hone⟩ := hholds.exists_bare hparts hargs hbare
    have hmem : arg ∈ spelled.arguments (argsStart m letters gap false + (Arg.bytesAll []).length) := by
      rw [show (Arg.bytesAll []).length = 0 from rfl, Nat.add_zero, hone]
      exact List.mem_singleton_self arg
    have hsingle : Holds parts m (.call letters gap false ([] ++ spelled :: [])) := hholds
    have hspan := (hsingle.argument_eq hparts hmem).2.1
    have hunquoted := hsingle.dropSpans_arg
    rw [← hspan] at hunquoted
    rw [Arg.bytesAll, List.length_nil, Nat.add_zero] at hspan
    rw [hspan]
    refine hholds.sound_listed hparts (fun σ => ?_) rfl rfl
    cases spelled with
    | block inner =>
      obtain ⟨_, hcross⟩ := hsingle.cross_arg hparts
      exact Arg.cross_block (hcross []) σ
    | inline part =>
      obtain ⟨_, _, rfl⟩ := List.mem_map.1 hmem
      exact hsingle.cross_of_balanced hparts (hunquoted ▸ hbalanced rfl) σ
    | _ => rfl
  | gap h hlo hhi hblanks =>
    obtain ⟨m, letters, gap, listed, spelled, hholds, rfl, rfl⟩ := holds_command h
    exact hholds.sound_gap hparts hlo hhi hblanks
  | @blanks _ _ q blanks h hlisted hlo hhi hargs hblanks =>
    obtain ⟨m, letters, gap, listed, spelled, hholds, rfl, rfl⟩ := holds_command h
    obtain rfl := hholds.listed_of_isListed hparts hlisted
    obtain ⟨_, _, hcall, blocks, hfits⟩ := hholds.fits_call hparts
    have hstart := (hholds.skipBlanks_name hparts).1
    rw [hholds.listStop_eq hparts] at hhi
    have hlo' : argsStart m letters gap true ≤ q := hstart ▸ hlo
    obtain ⟨front, back, rfl, hq⟩ := Arg.exists_split hfits hlo' hhi hargs
    rw [← Arg.fitsCall_blanks front back blanks] at hcall
    have hsound := hholds.sound_args hparts hcall (Arg.fitsAll_blanks hblanks)
      (Arg.crossAll_blanks · blanks) (Arg.argumentsAll_blanks · blanks) hq
    rwa [Arg.bytesAll_blanks] at hsound
  | comma h hlisted hlast hnone hlo hhi =>
    obtain ⟨m, letters, gap, listed, spelled, hholds, rfl, rfl⟩ := holds_command h
    obtain rfl := hholds.listed_of_isListed hparts hlisted
    obtain ⟨front, back, rfl, hq, hcall⟩ := hholds.exists_comma hparts hlast hnone hlo hhi
    exact hholds.sound_args hparts hcall (fun _ => ⟨trivial, trivial⟩) (fun _ => rfl) (fun _ => rfl)
      hq

/-- However a command is written, a source gives the same nodes, and the same HTML or the same
failure. -/
theorem parse_variant {source : Bytes} {arena : Arena} (h : parse source = .ok arena) :
    ∃ tree, arena.tree = .ok tree ∧ ∀ edited move, Variant source tree edited move →
      parse edited = .ok (arena.respan move)
        ∧ Html.render edited (arena.respan move)
          = (Html.render source arena).mapError (Failure.respan move) := by
  obtain ⟨parts, opened, hparts, rfl, rfl⟩ := spelled_of_parse h
  refine ⟨_, Arena.tree_toArena _, fun edited move hvariant => ?_⟩
  have hsound := hvariant.sound hparts
  exact ⟨hsound.parse, render_respan hsound.alike⟩

/-- The command `~b[~code("x" )]`. -/
def variantSample : Bytes :=
  [tilde, 0x62, 0x5b, tilde, 0x63, 0x6f, 0x64, 0x65, 0x28, quote, 0x78, quote, 0x20, 0x29, 0x5d]

/-- The outer command with a list, the inner one with a line feed behind its name, with a tab in front
of the string, and with a comma behind it. -/
theorem parse_variant_sample :
    ∃ arena tree, parse variantSample = .ok arena ∧ arena.tree = .ok tree
      ∧ ∀ edit ∈ [(splice (splice variantSample 2 2 [Bracket.round.opener]) 16 16
            [Bracket.round.closer], Span.insert 16 1 ∘ Span.insert 2 1),
          (splice variantSample 8 8 [lineFeed], Span.insert 8 1),
          (splice variantSample 9 9 [0x09], Span.insert 9 1),
          (splice variantSample 12 12 [comma], Span.insert 12 1)],
        Variant variantSample tree edit.1 edit.2
          ∧ parse edit.1 = .ok (arena.respan edit.2)
          ∧ Html.render edit.1 (arena.respan edit.2)
            = (Html.render variantSample arena).mapError (Failure.respan edit.2) := by
  let inner : Node Tree := .command ⟨4, 8⟩ [.string ⟨9, 12⟩]
  let outer : Node Tree := .command ⟨1, 2⟩ [.inline (.node inner) ⟨2, 15⟩]
  have hparse : parse variantSample = .ok (Tree.node (.group [.node outer])).toArena := rfl
  obtain ⟨tree, htree, hvariants⟩ := parse_variant hparse
  cases (Arena.tree_toArena _).symm.trans htree
  have houter : (Tree.node (.group [.node outer])).Has outer :=
    .child (List.mem_singleton_self _) (.here _)
  have hinner : (Tree.node (.group [.node outer])).Has inner :=
    .child (List.mem_singleton_self _) (.child (List.mem_singleton_self _) (.here _))
  refine ⟨_, _, hparse, htree, fun edit hedit => ?_⟩
  suffices hvariant : Variant variantSample (.node (.group [.node outer])) edit.1 edit.2 from
    ⟨hvariant, hvariants _ _ hvariant⟩
  simp only [List.mem_cons, List.not_mem_nil, or_false] at hedit
  obtain rfl | rfl | rfl | rfl := hedit
  · exact .listed houter rfl fun _ => by decide +kernel
  · exact .gap hinner (by decide) (by decide) rfl
  · exact .blanks hinner rfl (by decide) (by decide +kernel) (by decide) rfl
  · exact .comma hinner rfl rfl (by decide) (by decide) (by decide)

/-- A single argument in brackets that are no word. In a list, the list is refused. -/
theorem exists_listed_refused :
    ∃ arena tree name arg span, parse strayCloserSample = .ok arena ∧ arena.tree = .ok tree
      ∧ tree.Has (.command name [arg])
      ∧ skipBlanks strayCloserSample name.stop = arg.span.start
      ∧ parse (splice (splice strayCloserSample arg.span.start arg.span.start [Bracket.round.opener])
          (arg.span.stop + 1) (arg.span.stop + 1) [Bracket.round.closer])
        = .error ⟨.unbalanced (some [0x5d]) [0x29], span⟩ := by
  let text : Tree := .node (.group [.node (.text ⟨3, 4⟩)])
  let command : Node Tree := .command ⟨1, 2⟩ [.inline text ⟨2, 6⟩]
  let tree : Tree := .node (.group [.node command])
  have hcommand : tree.Has command := .child (List.mem_singleton_self _) (.here command)
  exact ⟨tree.toArena, tree, ⟨1, 2⟩, .inline text ⟨2, 6⟩, ⟨7, 8⟩, rfl, Arena.tree_toArena tree,
    hcommand, rfl, rfl⟩

end TildeMarkup
