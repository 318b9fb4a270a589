import TildeMarkup.Proofs.Spelling.Context

/-!
# Edits of a source

`splice` replaces a stretch of a source. Where the stretch lies inside of a command, and the command
may be exchanged for the one that comes of it, the edited source parses to the same nodes
(`Holds.parse_splice`).
-/

namespace TildeMarkup

/-- The source with the bytes between two offsets replaced. What stands behind them may move. -/
def splice (source : Bytes) (lo hi : Nat) (bytes : Bytes) : Bytes :=
  source.take lo ++ (bytes ++ source.drop hi)

/-- The bytes that are replaced, from those on either side of them. -/
theorem splice_append (before cut after bytes : Bytes) :
    splice (before ++ (cut ++ after)) before.length (before.length + cut.length) bytes
      = before ++ (bytes ++ after) := by
  rw [splice, List.take_left, ← List.length_append, ← List.append_assoc before cut after,
    List.drop_left]

namespace Spelling

/-- After its name and the blanks behind it a command goes on. -/
theorem Part.lt_length_call {listed : Bool} {args : List Arg}
    (hcall : Arg.fitsCall listed args = true) (m : Nat) (name gap : Bytes) :
    m + 1 + name.length + gap.length < m + (Part.call name gap listed args).bytes.length := by
  rw [Part.length_bytes_call, argsStart]
  -- There is a parenthesis, or the one argument with its brackets.
  match listed, args, hcall with
  | true, _, _ => simp only [if_true]; omega
  | false, [.inline part], _ => simp [Arg.bytes]
  | false, [.block inner], _ => simp [Arg.bytes]

/-- What is written in another way, and has the tree with its spans replaced, parses to the arena with its
spans replaced. -/
theorem parse_of_exchange {parts others : List Part} {opened : List Bracket} {f : Span → Span}
    (h : IsDocument others opened) (htree : documentTree others = (documentTree parts).respan f) :
    parse (Part.bytesAll others) = .ok ((documentTree parts).toArena.respan f) := by
  rw [parse, parse_of_isDocument h, htree]
  exact congrArg Except.ok (Tree.toArena_respan f _)

/-- A stretch of a command is replaced, where the command that comes of it may stand in its place. -/
theorem Holds.parse_splice {parts : List Part} {opened : List Bracket} {m lo hi : Nat} {old : Part}
    {f : Span → Span} {head cut bytes tail : Bytes} (hparts : IsDocument parts opened)
    (h : Holds parts m old) (new : Part) (hexchange : Exchange old new)
    (hf : Regrows f m old.bytes.length new.bytes.length)
    (htrees : new.trees m = (old.trees m).map (Tree.respan f))
    (hold : old.bytes = head ++ (cut ++ tail)) (hnew : new.bytes = head ++ (bytes ++ tail))
    (hlo : lo = m + head.length) (hhi : hi = lo + cut.length) :
    parse (splice (Part.bytesAll parts) lo hi bytes)
      = .ok ((documentTree parts).toArena.respan f) := by
  obtain ⟨others, before, after, hothers, hsource, hm, hbytes, htree⟩ :=
    h.exchange hparts hexchange hf htrees
  have hsplice := splice_append (before ++ head) cut (tail ++ after) bytes
  rw [List.length_append, hm] at hsplice
  -- The document that has been exchanged is the edited source, byte by byte.
  rw [← parse_of_exchange hothers htree, hsource, hbytes, hold, hnew, hhi, hlo]
  simp only [List.append_assoc] at hsplice ⊢
  rw [hsplice]

end Spelling

end TildeMarkup
