import TildeMarkup.Proofs.Descent.Agreement
import TildeMarkup.Proofs.Size

/-!
# Reading comes to an end

A source is read in calls that nest no deeper than twice its length and two more, what comes of it is the
tree or the fault of the reader, and on the way no rule moves the cursor back or past the end, and no loop
goes on without having moved it (`parse_moves_on`). The nodes are no more than the bytes, but for two.
-/

namespace TildeMarkup.Descent

/-- A turn of a loop moves forward, and by a byte or more if the loop goes on after it. That is so at every
place of the source, whatever is open and whatever the arguments around it; a document has none around it. -/
structure Rules.TurnsAdvance (source : Bytes) (rules : Rules) (depth : Nat) : Prop where
  text : ∀ run c, c.offset ≤ source.length →
    TurnAdvances source (textTurn source rules run) c (depth < 2 * c.left source)
  list : ∀ blocks args c, c.offset ≤ source.length →
    TurnAdvances source (listTurn source rules blocks args) c (depth < 2 * c.left source + 1)
  braces : ∀ blocks c, c.offset ≤ source.length →
    TurnAdvances source (bracesTurn source rules blocks) c (depth < 2 * c.left source + 1)
  document : ∀ blocks c, c.offset ≤ source.length → c.frames.headD 0 = 0 →
    TurnAdvances source (documentTurn source rules blocks) c (depth < 2 * c.left source + 1)

/-- Turns of the rules at some depth move on as their calls do, which is known for every depth. -/
theorem turnsAdvance_rules (source : Bytes) (depth : Nat) :
    (rules source depth).TurnsAdvance source depth where
  text run _ hc := textTurn_advances (advance_rules source depth) hc run
  list _ args _ hc := listTurn_advances (advance_rules source depth) hc args
  braces blocks _ hc := bracesTurn_advances (advance_rules source depth) hc blocks
  document blocks _ hc hframe := documentTurn_advances (advance_rules source depth) hc hframe blocks

/-- Reading comes to an end: calls that nest deep enough are never exhausted. Every rule moves the cursor
forward within the source, and every turn that a loop goes on from moves it by a byte. The arena has two nodes
more than there are bytes at most, and there are longer and longer sources with so many. -/
theorem parse_moves_on (source : Bytes) :
    (∀ depth, 2 * source.length + 2 ≤ depth →
      parse source depth = (Tree.parse source).mapError Stop.fault)
    ∧ (∀ depth, (rules source depth).Advance source depth ∧ (rules source depth).TurnsAdvance source depth)
    ∧ (∀ arena, TildeMarkup.parse source = .ok arena → arena.nodes.size ≤ source.length + 2)
    ∧ ∀ count, ∃ short arena, short.length = 2 * count + 1 ∧ TildeMarkup.parse short = .ok arena
      ∧ arena.nodes.size = short.length + 2 := by
  -- Short lines take two nodes for two bytes each; the last paragraph and the document are the two more.
  refine ⟨fun depth hdepth => parse_eq source depth hdepth,
    fun depth => ⟨advance_rules source depth, turnsAdvance_rules source depth⟩,
    fun arena harena => size_le_of_parse harena, fun count => ?_⟩
  obtain ⟨arena, harena, hsize⟩ := parse_shortLines count
  exact ⟨shortLines count, arena, length_shortLines count, harena, hsize⟩

/-- A command with an argument in square brackets, `~a[x]`. -/
def sampleSource : Bytes := [0x7e, 0x61, 0x5b, 0x78, 0x5d]

theorem parse_moves_on_sample :
    (2 * sampleSource.length + 2 ≤ 12
      ∧ parse sampleSource 12 = (Tree.parse sampleSource).mapError Stop.fault)
    ∧ ∃ arena, TildeMarkup.parse sampleSource = .ok arena ∧ arena.nodes.size ≤ sampleSource.length + 2 :=
  ⟨⟨by decide, (parse_moves_on sampleSource).1 12 (by decide)⟩,
    _, rfl, (parse_moves_on sampleSource).2.2.1 _ rfl⟩

end TildeMarkup.Descent
