import TildeMarkup.Proofs.Document.Marks

/-!
# The order of a walk

What is done to the children of a layer is done to them from left to right (`Node.children_mapM`), so
a walk meets the layers of a tree in pre-order: each one before what is below it, and that in document
order (`Tree.preorder`).

A walk comes to a result exactly if every layer passes its check (`Tree.exists_walk_eq_ok`). Otherwise
it ends with the first check that fails (`Tree.walk_eq_error`).
-/

namespace TildeMarkup

/-! ## Children from left to right -/

section Children

variable {α β : Type} {m : Type → Type} [Monad m] [LawfulMonad m]

/-- An argument comes to an argument whose children are what comes of its own. -/
theorem Argument.children_mapM (f : α → m β) (arg : Argument α) :
    Argument.children <$> arg.mapM f = arg.children.mapM f := by
  cases arg <;> simp [mapM, children]

/-- The same for all children of some arguments, through the lists that they are in. -/
theorem Argument.flatMap_children_mapM (f : α → m β) (args : List (Argument α)) :
    (List.flatMap Argument.children) <$> args.mapM (Argument.mapM f)
      = (args.flatMap Argument.children).mapM f := by
  induction args with
  | nil => simp
  | cons arg rest ih =>
    rw [List.flatMap_cons, List.mapM_append, ← ih, ← children_mapM, List.mapM_cons]
    simp

/-- The children of what comes of a layer are what comes of its children, one after the other. -/
theorem Node.children_mapM (f : α → m β) (layer : Node α) :
    Node.children <$> layer.mapM f = layer.children.mapM f := by
  cases layer with
  | command name args =>
    rw [children, ← Argument.flatMap_children_mapM, mapM]
    simp [children]
  | _ => simp [mapM, children]

end Children

/-! ## A list of checks -/

section Checks

variable {α ε : Type}

/-- A list of checks passes if every one of them does. -/
theorem forM_eq_ok {check : α → Except ε Unit} {l : List α} :
    forM l check = .ok () ↔ ∀ a ∈ l, check a = .ok () := by
  induction l with
  | nil => exact ⟨fun _ _ ha => absurd ha List.not_mem_nil, fun _ => rfl⟩
  | cons a rest ih =>
    rw [List.forM_cons, List.forall_mem_cons, ← ih]
    cases check a with
    | error e => exact ⟨nofun, fun h => nomatch h.1⟩
    | ok _ => exact ⟨fun h => ⟨rfl, h⟩, fun h => h.2⟩

/-- A list of checks fails with the first one that does. -/
theorem forM_eq_error {check : α → Except ε Unit} {l : List α} {e : ε} :
    forM l check = .error e ↔ ∃ front a back, l = front ++ a :: back
      ∧ (∀ b ∈ front, check b = .ok ()) ∧ check a = .error e := by
  constructor
  · intro h
    induction l with
    | nil => cases h
    | cons a rest ih =>
      rw [List.forM_cons] at h
      cases ha : check a with
      | error found =>
        rw [ha] at h
        cases h
        -- Nothing stands in front of the first one.
        exact ⟨[], a, rest, rfl, fun _ hb => absurd hb List.not_mem_nil, ha⟩
      | ok _ =>
        rw [ha] at h
        obtain ⟨front, b, back, rfl, hfront, hb⟩ := ih h
        exact ⟨a :: front, b, back, rfl, List.forall_mem_cons.2 ⟨ha, hfront⟩, hb⟩
  · rintro ⟨front, a, back, rfl, hfront, ha⟩
    rw [List.forM_append, forM_eq_ok.2 hfront, List.forM_cons, ha]
    rfl

theorem forM_flatMap {β : Type} (f : α → List β) (check : β → Except ε Unit) (l : List α) :
    forM (l.flatMap f) check = forM l fun a => forM (f a) check := by
  induction l with
  | nil => rfl
  | cons a rest ih =>
    rw [List.flatMap_cons, List.forM_append, List.forM_cons, ih]

theorem forM_congr {check other : α → Except ε Unit} {l : List α} (h : ∀ a ∈ l, check a = other a) :
    forM l check = forM l other := by
  induction l with
  | nil => rfl
  | cons a rest ih =>
    rw [List.forM_cons, List.forM_cons, h a (List.mem_cons_self ..),
      ih fun b hb => h b (List.mem_cons_of_mem a hb)]

/-- Whether a list of actions succeeds, and how it fails, once what they make is forgotten. -/
theorem map_mapM {β : Type} (f : α → Except ε β) (l : List α) :
    (l.mapM f).map (fun _ => ()) = forM l fun a => (f a).map fun _ => () := by
  induction l with
  | nil => rfl
  | cons a rest ih =>
    rw [List.mapM_cons, List.forM_cons, ← ih]
    cases f a with
    | error e => rfl
    | ok b => cases rest.mapM f <;> rfl

/-- Where an action on a layer succeeds, it does so on the children, and the results take their places. -/
theorem Node.exists_of_mapM_eq_ok {β : Type} [Inhabited β] {f : α → Except ε β} {layer : Node α}
    {done : Node β} (h : layer.mapM f = .ok done) :
    ∃ g : α → β, (∀ a ∈ layer.children, f a = .ok (g a)) ∧ done = layer.map g := by
  have hchildren : layer.children.mapM f = .ok done.children := by
    rw [← children_mapM, h]
    rfl
  have hunits := map_mapM f layer.children
  rw [hchildren] at hunits
  -- A result that is not there is of no interest, as every child has one.
  let g (a : α) : β := (f a).toOption.getD default
  have hg (a : α) (ha : a ∈ layer.children) : f a = .ok (g a) := by
    have hunit := forM_eq_ok.1 hunits.symm a ha
    cases hresult : f a with
    | error e =>
      rw [hresult] at hunit
      cases hunit
    | ok b => rw [show g a = b from congrArg (fun result => result.toOption.getD default) hresult]
  exact ⟨g, hg, Except.ok.inj (h.symm.trans ((mapM_congr hg).trans (mapM_pure g layer)))⟩

end Checks

/-! ## The layers of a tree in pre-order -/

namespace Tree

variable {β : Type}

/-- The layers of a tree by themselves, each one in front of those below it. A walk checks them in this
order. -/
def preorder : Tree → List (Node Unit) :=
  fold fun layer => layer.shape :: layer.children.flatten

theorem preorder_node (layer : Node Tree) :
    (node layer).preorder = layer.shape :: layer.children.flatMap preorder := by
  rw [preorder, fold_node, Node.shape_map, Node.children_map]
  rfl

/-- The layers in pre-order are those that the tree has. -/
theorem mem_preorder {shape : Node Unit} :
    ∀ {tree : Tree}, shape ∈ tree.preorder ↔ ∃ layer, tree.Has layer ∧ layer.shape = shape := by
  refine @Tree.induction _ fun layer ih => ?_
  rw [preorder_node, List.mem_cons, List.mem_flatMap]
  constructor
  · rintro (rfl | ⟨child, hchild, hshape⟩)
    · exact ⟨layer, .here layer, rfl⟩
    · obtain ⟨found, hhas, hfound⟩ := (ih child hchild).1 hshape
      exact ⟨found, .child hchild hhas, hfound⟩
  · rintro ⟨found, hhas, rfl⟩
    cases hhas with
    | here => exact .inl rfl
    | child hchild hhas => exact .inr ⟨_, hchild, (ih _ hchild).2 ⟨found, hhas, rfl⟩⟩

/-- A walk succeeds or fails as the checks of the layers do, one after the other. What it joins has no say
in that. -/
theorem walk_eq_forM (visit : Visit β) :
    ∀ tree : Tree, (tree.walk visit).map (fun _ => ()) = forM tree.preorder visit.check := by
  refine Tree.induction fun layer ih => ?_
  -- Below the layer, the walks of the children run from left to right, and each is a list of checks by
  -- induction.
  have hbelow : (layer.mapM (walk visit)).map (fun _ => ())
      = forM (layer.children.flatMap preorder) visit.check := by
    have hchildren : (layer.mapM (walk visit)).map Node.children = layer.children.mapM (walk visit) :=
      Node.children_mapM (walk visit) layer
    have hunit : (layer.mapM (walk visit)).map (fun _ => ())
        = ((layer.mapM (walk visit)).map Node.children).map (fun _ => ()) := by
      cases layer.mapM (walk visit) <;> rfl
    rw [hunit, hchildren, map_mapM, forM_flatMap]
    exact forM_congr ih
  rw [walk_node, preorder_node, List.forM_cons, ← hbelow]
  cases visit.check layer.shape with
  | error failure => rfl
  | ok _ => cases layer.mapM (walk visit) <;> rfl

/-- A walk comes to a result exactly if every layer passes. -/
theorem exists_walk_eq_ok {visit : Visit β} {tree : Tree} :
    (∃ b, tree.walk visit = .ok b) ↔ ∀ layer ∈ tree.preorder, visit.check layer = .ok () := by
  rw [← forM_eq_ok, ← walk_eq_forM]
  cases tree.walk visit with
  | error failure => simp [Except.map]
  | ok b => simp [Except.map]

/-- A walk that fails does so at the first layer that does not pass. -/
theorem walk_eq_error {visit : Visit β} {tree : Tree} {failure : Failure} :
    tree.walk visit = .error failure ↔ ∃ front layer back, tree.preorder = front ++ layer :: back
      ∧ (∀ before ∈ front, visit.check before = .ok ()) ∧ visit.check layer = .error failure := by
  rw [← forM_eq_error, ← walk_eq_forM]
  cases tree.walk visit with
  | error found => simp [Except.map]
  | ok b => simp [Except.map]

end Tree

end TildeMarkup
