import TildeMarkup.Proofs.Content.RoundTrip
import TildeMarkup.Proofs.Coverage
import TildeMarkup.Proofs.Edit

/-!
# What the reader does not look at

The letters of a name and the contents of a string are taken as they are: with others in their place
a source parses to the same nodes (`parse_opaque`). Brackets, tildes, line ends and bytes that are no
text may stand in a string, as long as its quotes are kept from ending it.
-/

namespace TildeMarkup

open Spelling

/-- The stretch is a name, or lies between the quotes of a string argument, and the bytes may stand in
its place. -/
inductive Opaque (tree : Tree) : (lo hi : Nat) → (bytes : Bytes) → Prop where
  | name {name : Span} {args : List (Argument Tree)} {letters : Bytes}
      (h : tree.Has (.command name args)) (hletters : letters.all isLetter = true) :
      Opaque tree name.start name.stop letters
  | string {name span : Span} {args : List (Argument Tree)} {raw : Bytes}
      (h : tree.Has (.command name args)) (harg : .string span ∈ args) (hraw : Quoted raw) :
      Opaque tree (span.start + 1) (span.stop - 1) raw

/-- What becomes of a span when the bytes between two offsets are replaced by `len` others: behind
them it moves, and around them it grows. -/
def Span.resize (lo hi len : Nat) (span : Span) : Span :=
  if hi ≤ span.start ∧ lo < span.stop then ⟨span.start - hi + (lo + len), span.stop - hi + (lo + len)⟩
  else if span.start ≤ lo ∧ hi ≤ span.stop then ⟨span.start, span.stop - hi + (lo + len)⟩
  else span

namespace Spelling

section Resize

variable {lo hi len : Nat}

/-- A span around the stretch grows with what is put into it. -/
theorem resize_around {a b b' : Nat} (ha : a ≤ lo) (hb : hi ≤ b) (hempty : hi ≤ a → b ≤ lo)
    (hb' : b' + hi = b + lo + len) :
    Span.resize lo hi len ⟨a, b⟩ = ⟨a, b'⟩ := by
  simp only [Span.resize]
  rw [if_neg (by omega), if_pos ⟨ha, hb⟩, Span.mk.injEq]
  omega

/-- What lies in front of the stretch stays. -/
theorem moves_resize_before {n more : Nat} (hle : lo ≤ hi) (h : n + more < lo) :
    Moves (Span.resize lo hi len) n n more := by
  intro a b hab hpos hb
  simp only [Span.resize]
  rw [if_neg (by omega), if_neg (by omega)]

/-- What lies behind it moves by as much as the stretch has grown. -/
theorem moves_resize_behind {n n' : Nat} (h : hi ≤ n) (hle : lo ≤ hi) (hn : n' + hi = n + lo + len)
    (more : Nat) : Moves (Span.resize lo hi len) n n' more := by
  intro a b hab hpos hb
  simp only [Span.resize]
  rw [if_pos (by omega), Span.mk.injEq]
  omega

/-- A stretch inside of a part is replaced, so the part and all around it grow. -/
theorem regrows_resize {m old new : Nat} (hlo : m < lo) (hle : lo ≤ hi) (hhi : hi < m + old)
    (hnew : new + hi = old + lo + len) : Regrows (Span.resize lo hi len) m old new where
  before n more hmore := moves_resize_before hle (by omega)
  around a b ha hb := resize_around (by omega) (by omega) (by omega) (by omega)
  behind more := moves_resize_behind (by omega) hle (by omega) more

end Resize

variable {parts : List Part} {opened : List Bracket} {m : Nat} {name gap : Bytes} {listed : Bool}

/-- A command with another name: its arguments move, and stay what they are. -/
theorem Holds.parse_name {args : List Arg} (hparts : IsDocument parts opened)
    (h : Holds parts m (.call name gap listed args)) {letters : Bytes}
    (hletters : letters.all isLetter = true) :
    parse (splice (Part.bytesAll parts) (m + 1) (m + 1 + name.length) letters)
      = .ok ((documentTree parts).toArena.respan
        (Span.resize (m + 1) (m + 1 + name.length) letters.length)) := by
  obtain ⟨_, _, hcall, blocks, hargs⟩ := h.fits_call hparts
  have hinside := Part.lt_length_call hcall m name gap
  have hlength := Part.length_bytes_call m name gap listed args
  have hlength' := Part.length_bytes_call m letters gap listed args
  have hstart : argsStart m letters gap listed + name.length
      = argsStart m name gap listed + letters.length := by
    simp only [argsStart]
    omega
  have hspan : Span.resize (m + 1) (m + 1 + name.length) letters.length
      ⟨m + 1, m + 1 + name.length⟩ = ⟨m + 1, m + 1 + letters.length⟩ :=
    resize_around (by omega) (by omega) (by omega) (by omega)
  have hmoved : Moves (Span.resize (m + 1) (m + 1 + name.length) letters.length)
      (argsStart m name gap listed) (argsStart m letters gap listed) (Arg.bytesAll args).length :=
    moves_resize_behind (by rw [argsStart]; omega) (by omega) (by omega) _
  -- The letters, and what is in front of them and behind.
  have hbytes (letters : Bytes) : (Part.call letters gap listed args).bytes
      = [tilde] ++ (letters ++ (gap ++ if listed then Bracket.round.opener :: (Arg.bytesAll args
        ++ [Bracket.round.closer]) else Arg.bytesAll args)) := rfl
  refine h.parse_splice hparts (.call letters gap listed args)
    ⟨rfl, fun _ hfits => ⟨hletters, hfits.2⟩, fun _ _ => id⟩
    (regrows_resize (by omega) (by omega) (by omega) ?_) ?_ (hbytes name) (hbytes letters) rfl rfl
  · omega
  · exact Part.trees_call_respan hspan (Arg.argumentsAll_respan args hargs hmoved)

/-- A command with other contents in one of its strings. -/
theorem Holds.parse_string {front back : List Arg} {old raw : Bytes}
    (hparts : IsDocument parts opened)
    (h : Holds parts m (.call name gap listed (front ++ .string old :: back)))
    (hraw : quotable false raw = true) {n : Nat}
    (hn : n = argsStart m name gap listed + (Arg.bytesAll front).length) :
    parse (splice (Part.bytesAll parts) (n + 1) (n + 1 + old.length) raw)
      = .ok ((documentTree parts).toArena.respan (Span.resize (n + 1) (n + 1 + old.length)
        raw.length)) := by
  obtain ⟨_, _, _, blocks, hargs⟩ := h.fits_call hparts
  have hstart := argsStart_eq m name gap listed
  have hlength (raw : Bytes) : (Part.call name gap listed (front ++ .string raw :: back)).bytes.length
      = (callHead name gap listed).length + (Arg.bytesAll front).length + (raw.length + 2)
        + ((Arg.bytesAll back).length + (callTail listed).length) := by
    simp only [Part.bytes_call_eq, Arg.bytesAll_append, Arg.bytesAll, Arg.bytes, List.length_append,
      List.length_cons, List.length_nil]
    omega
  have hold := hlength old
  have hnew := hlength raw
  have hspan : Span.resize (n + 1) (n + 1 + old.length) raw.length ⟨n, n + old.length + 2⟩
      = ⟨n, n + raw.length + 2⟩ :=
    resize_around (by omega) (by omega) (by omega) (by omega)
  have hbytes (raw : Bytes) : (Part.call name gap listed (front ++ .string raw :: back)).bytes
      = (callHead name gap listed ++ (Arg.bytesAll front ++ [quote]))
        ++ (raw ++ (quote :: (Arg.bytesAll back ++ callTail listed))) := by
    simp only [Part.bytes_call_eq, Arg.bytesAll_append, Arg.bytesAll, Arg.bytes, List.append_assoc,
      List.cons_append, List.nil_append]
  have hplace : n + 1 = m + (callHead name gap listed ++ (Arg.bytesAll front ++ [quote])).length := by
    simp only [List.length_append, List.length_singleton]
    omega
  -- A string is put for a string, so the other arguments still fit and the brackets are the same.
  refine h.parse_splice hparts (.call name gap listed (front ++ .string raw :: back))
    ⟨rfl, fun blocks hfits => ?_, fun σ τ hcross => ?_⟩
    (regrows_resize (by omega) (by omega) (by omega) (by omega)) ?_ (hbytes old) (hbytes raw)
    hplace rfl
  · obtain ⟨hname, hgap, hcall, hargs⟩ := hfits
    obtain ⟨hfront, _, hback⟩ := Arg.fitsAll_append.1 hargs
    exact ⟨hname, hgap, Arg.fitsCall_exchange hcall rfl,
      Arg.fitsAll_append.2 ⟨hfront, hraw, hback⟩⟩
  · refine Part.cross_call_of_crossAll (fun σ τ hargs => ?_) hcross
    exact Arg.crossAll_exchange (a := .string old) (b := .string raw) (fun _ _ => id) hargs
  · refine Part.trees_call_exchange hargs (moves_resize_before (by omega) (by omega)) ?_
      (moves_resize_behind ?_ (by omega) ?_ _)
    · rw [← hn]
      exact congrArg (fun span => [Argument.string span]) hspan.symm
    · rw [Arg.length_bytes_string]
      omega
    · rw [Arg.length_bytes_string, Arg.length_bytes_string]
      omega

end Spelling

/-- Names and the contents of strings are opaque: with any others in their place a source parses to
the same nodes. -/
theorem parse_opaque {source : Bytes} {arena : Arena} (h : parse source = .ok arena) :
    ∃ tree, arena.tree = .ok tree ∧ ∀ lo hi bytes, Opaque tree lo hi bytes →
      parse (splice source lo hi bytes) = .ok (arena.respan (Span.resize lo hi bytes.length)) := by
  obtain ⟨parts, opened, hparts, rfl, rfl⟩ := spelled_of_parse h
  refine ⟨_, Arena.tree_toArena _, fun lo hi bytes hopaque => ?_⟩
  cases hopaque with
  | name h hletters =>
    obtain ⟨m, letters, gap, listed, spelled, hholds, rfl, rfl⟩ := holds_command h
    exact hholds.parse_name hparts hletters
  | string h harg hraw =>
    obtain ⟨m, letters, gap, listed, spelled, hholds, _, rfl⟩ := holds_command h
    obtain ⟨front, found, back, rfl, hfound⟩ := Arg.exists_of_mem_argumentsAll harg
    -- an argument of the tree that is a string is written as one
    cases found with
    | string raw =>
      cases List.mem_singleton.1 hfound
      have hparse := hholds.parse_string hparts (quotable_of_quoted hraw) rfl
      generalize argsStart m letters gap listed + (Arg.bytesAll front).length = n at *
      rwa [show n + 1 + raw.length = n + raw.length + 2 - 1 from by omega] at hparse
    | inline part =>
      obtain ⟨_, _, heq⟩ := List.mem_map.1 hfound
      cases heq
    | _ => cases hfound <;> rename_i hfound <;> cases hfound

/-- The command `~b[~code("x")]`, with a name to take away and a string to fill. -/
def opaqueSample : Bytes :=
  [tilde, 0x62, 0x5b, tilde, 0x63, 0x6f, 0x64, 0x65, 0x28, quote, 0x78, quote, 0x29, 0x5d]

/-- Without its name the command is `~[~code("x")]`, and with `]\"` in the string it is
`~b[~code("]\"")]`. -/
theorem parse_opaque_sample :
    ∃ arena tree, parse opaqueSample = .ok arena ∧ arena.tree = .ok tree
      ∧ Opaque tree 1 2 [] ∧ Opaque tree 10 11 [0x5d, backslash, quote]
      ∧ parse (splice opaqueSample 1 2 []) = .ok (arena.respan (Span.resize 1 2 0))
      ∧ parse (splice opaqueSample 10 11 [0x5d, backslash, quote])
        = .ok (arena.respan (Span.resize 10 11 3)) := by
  let inner : Node Tree := .command ⟨4, 8⟩ [.string ⟨9, 12⟩]
  let outer : Node Tree := .command ⟨1, 2⟩ [.inline (.node inner) ⟨2, 14⟩]
  have hparse : parse opaqueSample = .ok (Tree.node (.group [.node outer])).toArena := rfl
  obtain ⟨tree, htree, hopaque⟩ := parse_opaque hparse
  cases (Arena.tree_toArena _).symm.trans htree
  have houter : (Tree.node (.group [.node outer])).Has outer :=
    .child (List.mem_singleton_self _) (.here _)
  have hinner : (Tree.node (.group [.node outer])).Has inner :=
    .child (List.mem_singleton_self _) (.child (List.mem_singleton_self _) (.here _))
  have hquoted : Quoted [0x5d, backslash, quote] := by
    refine ⟨fun front back h => ?_, by decide⟩
    match front, h with
    | [], h => cases h
    | [_], h => cases h
    | [_, _], h => cases h; rfl
    | _ :: _ :: _ :: _, h => simp at h
  have hname : Opaque (.node (.group [.node outer])) 1 2 [] := .name houter rfl
  have hstring : Opaque (.node (.group [.node outer])) 10 11 [0x5d, backslash, quote] :=
    .string hinner (List.mem_singleton_self _) hquoted
  exact ⟨_, _, hparse, htree, hname, hstring, hopaque _ _ _ hname, hopaque _ _ _ hstring⟩

end TildeMarkup
