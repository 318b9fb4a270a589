import Mathlib.Data.List.Basic

/-!
# Figures

A figure is a tree of items, as an indented list shows it: each item in front of those below it
(`Figure.entries`). The items in that order, with how deep they stand, are enough to draw the figure again
(`Figure.entries_injective`): what is below an item are the entries behind it that stand deeper, up to the
first that does not.
-/

namespace TildeMarkup

/-- A tree of items. -/
inductive Figure (α : Type) where
  | node (item : α) (below : List (Figure α))

namespace Figure

variable {α β : Type}

mutual

/-- Replaces every item, from the lowest up, by what `f` makes of it and of what is below it. -/
def fold (f : α → List β → β) : Figure α → β
  | node item below => f item (foldList f below)

/-- Every figure of a list folded. -/
def foldList (f : α → List β → β) : List (Figure α) → List β
  | [] => []
  | figure :: rest => fold f figure :: foldList f rest

end

theorem foldList_eq_map (f : α → List β → β) (figures : List (Figure α)) :
    foldList f figures = figures.map (fold f) := by
  induction figures with
  | nil => rfl
  | cons figure rest ih => rw [foldList, ih, List.map_cons]

theorem fold_node (f : α → List β → β) (item : α) (below : List (Figure α)) :
    fold f (node item below) = f item (below.map (fold f)) := by
  rw [fold, foldList_eq_map]

/-- What holds of a figure whenever it holds of those one level down holds of every figure. -/
theorem induction {P : Figure α → Prop}
    (step : ∀ item below, (∀ figure ∈ below, P figure) → P (node item below)) : ∀ figure, P figure :=
  Figure.rec
    (motive_1 := P)
    (motive_2 := fun figures => ∀ figure ∈ figures, P figure)
    step
    (fun _ h => by cases h)
    (fun _ _ ih ihs => List.forall_mem_cons.2 ⟨ih, ihs⟩)

/-- The figure with other items in the same places. -/
def map (f : α → β) : Figure α → Figure β :=
  fold fun item below => node (f item) below

theorem map_node (f : α → β) (item : α) (below : List (Figure α)) :
    (node item below).map f = node (f item) (below.map (map f)) :=
  fold_node _ item below

/-- The items in pre-order, with how deep they stand, the first of them at a depth. -/
def entriesAt : Figure α → (depth : Nat) → List (Nat × α) :=
  fold fun item below depth => (depth, item) :: below.flatMap fun entries => entries (depth + 1)

/-- The items in pre-order, with how deep they stand. -/
def entries (figure : Figure α) : List (Nat × α) :=
  figure.entriesAt 0

/-- The items in pre-order, without their depths. -/
def items (figure : Figure α) : List α :=
  figure.entries.map Prod.snd

/-- An item stands in front of those below it, which are one level deeper. -/
theorem entriesAt_node (item : α) (below : List (Figure α)) (depth : Nat) :
    (node item below).entriesAt depth
      = (depth, item) :: below.flatMap fun figure => figure.entriesAt (depth + 1) := by
  rw [entriesAt, fold_node, List.flatMap_map]

/-- One level further down, the same items stand one level deeper. -/
theorem entriesAt_succ : ∀ (figure : Figure α) (depth : Nat),
    figure.entriesAt (depth + 1) = (figure.entriesAt depth).map (Prod.map (· + 1) id) := by
  refine Figure.induction fun item below ih depth => ?_
  rw [entriesAt_node, entriesAt_node, List.map_cons, List.map_flatMap]
  exact congrArg _ (List.flatMap_congr fun figure hfigure => ih figure hfigure (depth + 1))

/-- Other items stand as deep as the ones that they are for. -/
theorem entriesAt_map (f : α → β) : ∀ (figure : Figure α) (depth : Nat),
    (figure.map f).entriesAt depth = (figure.entriesAt depth).map (Prod.map id f) := by
  refine Figure.induction fun item below ih depth => ?_
  rw [map_node, entriesAt_node, entriesAt_node, List.map_cons, List.map_flatMap, List.flatMap_map]
  exact congrArg _ (List.flatMap_congr fun figure hfigure => ih figure hfigure (depth + 1))

/-- So the items of a figure are its own and then those below. -/
theorem items_node (item : α) (below : List (Figure α)) :
    (node item below).items = item :: below.flatMap items := by
  rw [items, entries, entriesAt_node, List.map_cons, List.map_flatMap]
  refine congrArg _ (List.flatMap_congr fun figure _ => ?_)
  rw [entriesAt_succ, List.map_map, items, entries]
  rfl

/-! ## Drawing a figure again -/

/-- None of the entries at the front stands deeper. -/
def StartsWithin (depth : Nat) (entries : List (Nat × α)) : Prop :=
  ∀ entry ∈ entries.head?, entry.1 ≤ depth

theorem StartsWithin.succ {depth : Nat} {entries : List (Nat × α)} (h : StartsWithin depth entries) :
    StartsWithin (depth + 1) entries :=
  fun entry hentry => Nat.le_succ_of_le (h entry hentry)

/-- A figure starts at its own depth, and not at a lesser one. -/
theorem not_startsWithin {depth : Nat} (figure : Figure α) (rest : List (Nat × α)) :
    ¬ StartsWithin depth (figure.entriesAt (depth + 1) ++ rest) := by
  obtain ⟨item, below⟩ := figure
  rw [entriesAt_node]
  exact fun h => Nat.not_succ_le_self depth (h _ rfl)

/-- If figures of some depth are put in front, none of the entries at the front stands deeper than
that. -/
theorem startsWithin_entries {depth : Nat} (figures : List (Figure α)) {rest : List (Nat × α)}
    (h : StartsWithin depth rest) :
    StartsWithin depth ((figures.flatMap fun figure => figure.entriesAt depth) ++ rest) := by
  cases figures with
  | nil => exact h
  | cons figure more =>
    obtain ⟨item, below⟩ := figure
    rw [List.flatMap_cons, entriesAt_node]
    rintro _ ⟨⟩
    exact Nat.le_refl _

/-- The entries of some figures tell the figures, and where they end: at an entry that stands less deep. -/
theorem flatMap_entriesAt_inj {depth : Nat} {figures others : List (Figure α)} {rest more : List (Nat × α)}
    (hfigure : ∀ figure ∈ figures, ∀ other rest more, StartsWithin (depth + 1) rest →
      StartsWithin (depth + 1) more →
      figure.entriesAt (depth + 1) ++ rest = other.entriesAt (depth + 1) ++ more →
      figure = other ∧ rest = more)
    (hrest : StartsWithin depth rest) (hmore : StartsWithin depth more)
    (h : (figures.flatMap fun figure => figure.entriesAt (depth + 1)) ++ rest
      = (others.flatMap fun figure => figure.entriesAt (depth + 1)) ++ more) :
    figures = others ∧ rest = more := by
  -- By induction on the figures. Each tells where it ends, so the next ones start at the same place.
  induction figures generalizing others with
  | nil =>
    cases others with
    | nil => exact ⟨rfl, h⟩
    | cons other others =>
      rw [List.flatMap_cons, List.append_assoc, List.flatMap_nil, List.nil_append] at h
      exact absurd (h ▸ hrest) (not_startsWithin other _)
  | cons figure figures ih =>
    cases others with
    | nil =>
      rw [List.flatMap_cons, List.append_assoc, List.flatMap_nil, List.nil_append] at h
      exact absurd (h ▸ hmore) (not_startsWithin figure _)
    | cons other others =>
      rw [List.flatMap_cons, List.flatMap_cons, List.append_assoc, List.append_assoc] at h
      obtain ⟨rfl, hbehind⟩ := hfigure figure (List.mem_cons_self ..) other _ _
        (startsWithin_entries figures hrest.succ) (startsWithin_entries others hmore.succ) h
      obtain ⟨rfl, rfl⟩ := ih (fun figure hmem => hfigure figure (List.mem_cons_of_mem _ hmem)) hbehind
      exact ⟨rfl, rfl⟩

/-- The entries of a figure tell the figure, and where it ends: at an entry that stands no deeper. -/
theorem entriesAt_append_inj : ∀ (figure : Figure α) {other : Figure α} {depth : Nat}
    {rest more : List (Nat × α)}, StartsWithin depth rest → StartsWithin depth more →
    figure.entriesAt depth ++ rest = other.entriesAt depth ++ more → figure = other ∧ rest = more := by
  refine Figure.induction fun item below ih => ?_
  rintro ⟨otherItem, otherBelow⟩ depth rest more hrest hmore h
  rw [entriesAt_node, entriesAt_node, List.cons_append, List.cons_append] at h
  obtain ⟨hhead, htail⟩ := List.cons.inj h
  obtain ⟨rfl, rfl⟩ := flatMap_entriesAt_inj
    (fun figure hfigure other rest more hrest hmore h => ih figure hfigure hrest hmore h) hrest hmore htail
  rw [(Prod.mk.inj hhead).2]
  exact ⟨rfl, rfl⟩

/-- The items in pre-order, with how deep they stand, tell the figure. -/
theorem entries_injective {figure other : Figure α} (h : figure.entries = other.entries) :
    figure = other := by
  have hnone : StartsWithin 0 ([] : List (Nat × α)) := nofun
  refine (entriesAt_append_inj figure hnone hnone ?_).1
  rw [List.append_nil, List.append_nil]
  exact h

end Figure

end TildeMarkup
