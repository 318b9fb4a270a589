import Mathlib.Data.Fintype.Card
import TildeMarkup.Document.Requests
import TildeMarkup.Proofs.Document.Traversal

/-!
# Arenas that grow

Nothing is ever taken out of an arena, so what a walk has found stays as it is when nodes are added. It
may come to more only where it met a handle that stood for no node yet, or where it had no end. That is so
for handles that count from the first node. An integer below zero counts from the last one, and stands for
another node as soon as one is added (`exists_walk_from_end_moves`). So it matters which handles a walk
looks up (`Arena.lookups`): what comes of a walk stays so if all of these stand for the same nodes.

A walk of an arena is stopped when it is deeper than the arena has nodes. That loses nothing: a walk that
comes to an end at all has done so by then (`Arena.walk_eq_walkAt`). For a walk that is one level deeper
than another meets a node of that other depth below it, and a node has but one depth.
-/

namespace TildeMarkup

/-! ## As far as the first failure -/

section Visited

variable {α β ε : Type} {f g : α → Except ε β} {l : List α}

/-- The first things of a list, up to the first one for which the outcome is a failure. That one is still
visited, and what stands behind it is not. -/
def visited (f : α → Except ε β) : List α → List α
  | [] => []
  | a :: rest =>
    match f a with
    | .ok _ => a :: visited f rest
    | .error _ => [a]

theorem visited_of_ok {a : α} {b : β} (h : f a = .ok b) (rest : List α) :
    visited f (a :: rest) = a :: visited f rest := by
  rw [visited, h]

theorem visited_of_error {a : α} {e : ε} (h : f a = .error e) (rest : List α) :
    visited f (a :: rest) = [a] := by
  rw [visited, h]

/-- What is not visited has no part in the outcome. -/
theorem mapM_congr_visited (h : ∀ a ∈ visited f l, g a = f a) : l.mapM g = l.mapM f := by
  induction l with
  | nil => rfl
  | cons a rest ih =>
    rw [List.mapM_cons, List.mapM_cons]
    cases hfa : f a with
    | error e =>
      rw [visited_of_error hfa] at h
      rw [h a (List.mem_singleton_self a), hfa]
      rfl
    | ok b =>
      rw [visited_of_ok hfa] at h
      obtain ⟨ha, hrest⟩ := List.forall_mem_cons.1 h
      rw [ha, hfa, ih hrest]

/-- A failure that is visited is the outcome. -/
theorem mapM_eq_error {a : α} {e : ε} (ha : a ∈ visited f l) (h : f a = .error e) :
    l.mapM f = .error e := by
  induction l with
  | nil => cases ha
  | cons b rest ih =>
    rw [List.mapM_cons]
    cases hfb : f b with
    | error found =>
      rw [visited_of_error hfb] at ha
      obtain rfl := List.mem_singleton.1 ha
      cases hfb.symm.trans h
      rfl
    | ok done =>
      rw [visited_of_ok hfb] at ha
      rcases List.mem_cons.1 ha with rfl | ha
      · cases hfb.symm.trans h
      · rw [ih ha]
        rfl

/-- Where nothing fails, everything is visited. -/
theorem visited_eq_self {done : List β} (h : l.mapM f = .ok done) : visited f l = l := by
  induction l generalizing done with
  | nil => rfl
  | cons a rest ih =>
    rw [List.mapM_cons] at h
    cases hfa : f a with
    | error e =>
      rw [hfa] at h
      cases h
    | ok b =>
      rw [hfa] at h
      cases hrest : rest.mapM f with
      | error e =>
        rw [hrest] at h
        cases h
      | ok more => rw [visited_of_ok hfa, ih hrest]

/-- An action on a layer fails as it does on the children. -/
theorem Node.mapM_eq_error_iff {layer : Node α} {e : ε} :
    layer.mapM f = .error e ↔ layer.children.mapM f = .error e := by
  rw [← Node.children_mapM]
  cases layer.mapM f with
  | error found => exact ⟨fun h => by cases h; rfl, fun h => by cases h; rfl⟩
  | ok done => exact ⟨nofun, nofun⟩

/-- If what comes of each child that is visited stays, so does what comes of the layer. -/
theorem Node.mapM_congr_visited {layer : Node α} (h : ∀ a ∈ visited f layer.children, g a = f a) :
    layer.mapM g = layer.mapM f := by
  have hchildren := TildeMarkup.mapM_congr_visited h
  cases hf : layer.children.mapM f with
  | error e =>
    rw [hf] at hchildren
    rw [Node.mapM_eq_error_iff.2 hf, Node.mapM_eq_error_iff.2 hchildren]
  | ok done =>
    -- no child fails, so all of them are visited
    rw [visited_eq_self hf] at h
    exact Node.mapM_congr h

end Visited

namespace Arena

variable {ι β : Type} [Handle ι] {arena : Arena ι} {visit : Visit β}

/-! ## What a walk looks up -/

/-- The handles that a walk looks up, each one before those below it. Where a layer fails its check, nothing
below it is looked up, and the walk is over at the first child that fails. -/
def lookups (arena : Arena ι) (visit : Visit β) : (steps : Nat) → (id : ι) → List ι
  | 0, _ => []
  | steps + 1, id => id ::
    match arena.get? id with
    | none => []
    | some layer =>
      match visit.check layer.shape with
      | .error _ => []
      | .ok _ => (visited (arena.walkAt visit steps) layer.children).flatMap (arena.lookups visit steps)

theorem mem_lookups_self (steps : Nat) (id : ι) : id ∈ arena.lookups visit (steps + 1) id :=
  List.mem_cons_self

/-- What is looked up for a child that is visited is looked up for the layer. -/
theorem lookups_child {steps : Nat} {id child : ι} {layer : Node ι} (hget : arena.get? id = some layer)
    (hcheck : visit.check layer.shape = .ok ())
    (hchild : child ∈ visited (arena.walkAt visit steps) layer.children) {found : ι}
    (hfound : found ∈ arena.lookups visit steps child) : found ∈ arena.lookups visit (steps + 1) id := by
  rw [lookups, hget]
  simp only [hcheck]
  exact List.mem_cons_of_mem _ (List.mem_flatMap_of_mem hchild hfound)

/-- What is looked up by a walk is its own handle, or what is looked up for one of the children that it
visits. -/
theorem cases_of_mem_lookups {steps : Nat} {id found : ι} (h : found ∈ arena.lookups visit (steps + 1) id) :
    found = id ∨ ∃ layer child, arena.get? id = some layer ∧ visit.check layer.shape = .ok ()
      ∧ child ∈ visited (arena.walkAt visit steps) layer.children
      ∧ found ∈ arena.lookups visit steps child := by
  rw [lookups] at h
  rcases List.mem_cons.1 h with rfl | h
  · exact .inl rfl
  · cases hget : arena.get? id with
    | none =>
      rw [hget] at h
      cases h
    | some layer =>
      -- A layer that fails its check has nothing looked up below it.
      cases hcheck : visit.check layer.shape with
      | error failure =>
        rw [hget] at h
        simp only [hcheck] at h
        cases h
      | ok checked =>
        rw [hget] at h
        simp only [hcheck] at h
        obtain ⟨child, hchild, hfound⟩ := List.mem_flatMap.1 h
        exact .inr ⟨layer, child, rfl, hcheck, hchild, hfound⟩

/-- A walk fails as a child does that it visits. -/
theorem walkAt_eq_error {steps : Nat} {id child : ι} {layer : Node ι} {failure : Failure}
    (hget : arena.get? id = some layer) (hcheck : visit.check layer.shape = .ok ())
    (hchild : child ∈ visited (arena.walkAt visit steps) layer.children)
    (h : arena.walkAt visit steps child = .error failure) :
    arena.walkAt visit (steps + 1) id = .error failure := by
  rw [walkAt_succ hget, hcheck, Node.mapM_eq_error_iff.2 (mapM_eq_error hchild h)]
  rfl

/-- A walk that looks up a handle of no node fails for it. -/
theorem walkAt_eq_missingNode {steps : Nat} {id found : ι} (hmem : found ∈ arena.lookups visit steps id)
    (hnone : arena.get? found = none) : arena.walkAt visit steps id = .error .missingNode := by
  induction steps generalizing id with
  | zero => cases hmem
  | succ steps ih =>
    rcases cases_of_mem_lookups hmem with rfl | ⟨layer, child, hget, hcheck, hchild, hfound⟩
    · rw [walkAt, hnone]
    · exact walkAt_eq_error hget hcheck hchild (ih hfound)

/-! ## More steps -/

/-- What comes of a walk with an end stays so in an arena where all that it looks up stands for the same
nodes, and with more steps. -/
theorem walkAt_eq_of_lookups {later : Arena ι} {steps more : Nat} {id : ι} (hle : steps ≤ more)
    (hsame : ∀ found ∈ arena.lookups visit steps id, later.get? found = arena.get? found)
    (hend : arena.walkAt visit steps id ≠ .error .endless) :
    later.walkAt visit more id = arena.walkAt visit steps id := by
  induction steps generalizing more id with
  | zero => exact absurd rfl hend
  | succ steps ih =>
    -- By induction on the steps of the shorter walk; the other has at least one more to take.
    obtain ⟨more, rfl⟩ : ∃ k, more = k + 1 := ⟨more - 1, by omega⟩
    have hid := hsame id (mem_lookups_self steps id)
    cases hget : arena.get? id with
    | none => rw [walkAt, walkAt, hid, hget]
    | some layer =>
      rw [walkAt_succ hget, walkAt_succ (hid.trans hget)]
      cases hcheck : visit.check layer.shape with
      | error failure => rfl
      | ok checked =>
        have hmore : ∀ child ∈ visited (arena.walkAt visit steps) layer.children,
            later.walkAt visit more child = arena.walkAt visit steps child := by
          intro child hchild
          refine ih (Nat.le_of_succ_le_succ hle) (fun found hfound => ?_) fun hendless => ?_
          · exact hsame found (lookups_child hget hcheck hchild hfound)
          · exact hend (walkAt_eq_error hget hcheck hchild hendless)
        rw [Node.mapM_congr_visited hmore]

/-- A walk with an end comes to the same if it may take more steps. -/
theorem walkAt_mono {steps more : Nat} {id : ι} (hle : steps ≤ more)
    (h : arena.walkAt visit steps id ≠ .error .endless) :
    arena.walkAt visit more id = arena.walkAt visit steps id :=
  walkAt_eq_of_lookups hle (fun _ _ => rfl) h

/-- All walks with an end come to the same, however many steps they were given. -/
theorem walkAt_unique {steps more : Nat} {id : ι} (h : arena.walkAt visit steps id ≠ .error .endless)
    (hmore : arena.walkAt visit more id ≠ .error .endless) :
    arena.walkAt visit steps id = arena.walkAt visit more id := by
  rcases Nat.le_total steps more with hle | hle
  · exact (walkAt_mono hle h).symm
  · exact walkAt_mono hle hmore

/-- Handles that stand for one node are not told apart by a walk. -/
theorem walkAt_congr {id other : ι} (h : arena.get? id = arena.get? other) (steps : Nat) :
    arena.walkAt visit steps id = arena.walkAt visit steps other := by
  cases steps with
  | zero => rfl
  | succ steps => rw [walkAt, walkAt, h]

/-! ## How deep a walk can be -/

/-- A walk from the handle goes as many levels below it, and not one more. -/
def Depth (arena : Arena ι) (visit : Visit β) (depth : Nat) (id : ι) : Prop :=
  arena.walkAt visit depth id = .error .endless ∧ arena.walkAt visit (depth + 1) id ≠ .error .endless

/-- A walk with an end has a depth: the last number of steps that is not enough for it. -/
theorem exists_depth {steps : Nat} {id : ι} (h : arena.walkAt visit steps id ≠ .error .endless) :
    ∃ depth, arena.Depth visit depth id := by
  induction steps with
  | zero => exact absurd rfl h
  | succ steps ih =>
    by_cases hless : arena.walkAt visit steps id = .error .endless
    · exact ⟨steps, hless, h⟩
    · exact ih hless

/-- A handle that stands for a node has the place of that node. -/
theorem exists_place {id : ι} {layer : Node ι} (h : arena.get? id = some layer) :
    ∃ place : Fin arena.nodes.size, Handle.place? arena.nodes.size id = some place.val := by
  unfold get? at h
  cases hplace : Handle.place? arena.nodes.size id with
  | none =>
    rw [hplace] at h
    cases h
  | some place =>
    rw [hplace] at h
    exact ⟨⟨place, (Array.getElem?_eq_some_iff.1 h).1⟩, rfl⟩

/-- Only the place of a handle says which node it stands for. -/
theorem get?_congr {id other : ι}
    (h : Handle.place? arena.nodes.size id = Handle.place? arena.nodes.size other) :
    arena.get? id = arena.get? other := by
  rw [get?, get?, h]

namespace Depth

variable {depth other : Nat} {id : ι}

/-- A depth is the least one: with more steps than another depth has, the walk would have come to its
end. -/
theorem le (h : arena.Depth visit depth id) (hother : arena.Depth visit other id) : depth ≤ other := by
  by_contra hlt
  refine hother.2 ?_
  rw [← walkAt_mono (by omega : other + 1 ≤ depth) hother.2]
  exact h.1

/-- A handle has but one depth. -/
theorem unique (h : arena.Depth visit depth id) (hother : arena.Depth visit other id) : depth = other :=
  Nat.le_antisymm (h.le hother) (hother.le h)

/-- The depth is that of the node, so another handle of the node has it too. -/
theorem congr {twin : ι} (h : arena.Depth visit depth id) (hget : arena.get? id = arena.get? twin) :
    arena.Depth visit depth twin := by
  unfold Depth at h ⊢
  rwa [← walkAt_congr hget, ← walkAt_congr hget]

/-- One level down, a walk is one level less deep somewhere. -/
theorem exists_child (h : arena.Depth visit (depth + 1) id) :
    ∃ layer child, arena.get? id = some layer ∧ arena.Depth visit depth child := by
  obtain ⟨hendless, hend⟩ := h
  cases hget : arena.get? id with
  | none =>
    rw [walkAt, hget] at hendless
    cases hendless
  | some layer =>
    by_contra hnone
    -- if no child came to an end with the last step, then neither would the layer
    have hsame : ∀ child ∈ layer.children,
        arena.walkAt visit (depth + 1) child = arena.walkAt visit depth child := by
      intro child _
      by_cases hchild : arena.walkAt visit depth child = .error .endless
      · rw [hchild]
        by_contra hmore
        exact hnone ⟨layer, child, rfl, hchild, hmore⟩
      · exact walkAt_mono (Nat.le_succ depth) hchild
    refine hend ?_
    rw [← hendless, walkAt_succ hget, walkAt_succ hget, Node.mapM_congr hsame]

/-- Every lesser depth but the least is that of a node. -/
theorem exists_of_lt (h : arena.Depth visit depth id) {less : Nat} (hless : less < depth) :
    ∃ (place : Fin arena.nodes.size) (found : ι),
      Handle.place? arena.nodes.size found = some place.val ∧ arena.Depth visit (less + 1) found := by
  induction depth generalizing id with
  | zero => exact absurd hless (Nat.not_lt_zero less)
  | succ depth ih =>
    obtain ⟨layer, child, hget, hchild⟩ := h.exists_child
    -- Down one child after the other, the depths come by one by one.
    by_cases heq : less = depth
    · obtain ⟨place, hplace⟩ := exists_place hget
      exact ⟨place, id, hplace, heq ▸ h⟩
    · exact ih hchild (by omega)

/-- A walk with an end is no deeper than the arena has nodes. -/
theorem le_size (h : arena.Depth visit depth id) : depth ≤ arena.nodes.size := by
  have hnodes : ∀ less : Fin depth, ∃ (place : Fin arena.nodes.size) (found : ι),
      Handle.place? arena.nodes.size found = some place.val ∧ arena.Depth visit (less + 1) found :=
    fun less => h.exists_of_lt less.isLt
  -- One place for each depth below, and no place for two of them.
  choose place found hplace hfound using hnodes
  have hinjective : Function.Injective place := fun less other hsame => by
    -- two handles of one place have one depth
    have hget : arena.get? (found less) = arena.get? (found other) :=
      get?_congr (by rw [hplace, hplace, hsame])
    have hdepth := ((hfound less).congr hget).unique (hfound other)
    exact Fin.ext (Nat.succ.inj hdepth)
  simpa using Fintype.card_le_of_injective place hinjective

end Depth

/-- What a walk from the root comes to, if it comes to an end. -/
theorem walk_eq_walkAt {steps : Nat} (h : arena.walkAt visit steps arena.root ≠ .error .endless) :
    arena.walk visit = arena.walkAt visit steps arena.root := by
  obtain ⟨depth, hdepth⟩ := exists_depth h
  rw [walk, walkAt_mono (Nat.succ_le_succ hdepth.le_size) hdepth.2]
  exact walkAt_unique hdepth.2 h

/-- A walk from the root has an end: with enough steps it comes to a result, or to a failure. -/
def Ends (arena : Arena ι) (visit : Visit β) : Prop :=
  ∃ steps, arena.walkAt visit steps arena.root ≠ .error .endless

/-- What a walk comes to stays so in every arena with the same root, where all that the walk looks up stands
for the same nodes. -/
theorem walk_eq_of_lookups {later : Arena ι} (hroot : later.root = arena.root) (hends : arena.Ends visit)
    (hsame : ∀ found ∈ arena.lookups visit (arena.nodes.size + 1) arena.root,
      later.get? found = arena.get? found) : later.walk visit = arena.walk visit := by
  obtain ⟨steps, hsteps⟩ := hends
  have hend : arena.walkAt visit (arena.nodes.size + 1) arena.root ≠ .error .endless := by
    rw [← walk_eq_walkAt hsteps] at hsteps
    exact hsteps
  have hlater := walkAt_eq_of_lookups (Nat.le_refl _) hsame hend
  rw [← hroot] at hlater
  rw [walk_eq_walkAt (by rw [hlater, hroot]; exact hend), hlater, hroot, walk]

/-! ## Requests -/

section Requests

variable {source : Bytes} {arena later : Arena Int}

/-- All that a request does to the arena: a node is pushed, or the root is set. -/
theorem answer_snd (source : Bytes) (arena : Arena Int) (request : Request) :
    (arena.answer source request).2 = match request with
      | .push node => (arena.push node).2
      | .setRoot id => { arena with root := id }
      | _ => arena := by
  cases request with
  | get id =>
    rw [answer]
    split <;> rfl
  | _ => rfl

/-- A request that fails changes nothing. -/
theorem answer_of_error {request : Request} {failure : Failure}
    (h : (arena.answer source request).1 = .error failure) :
    (arena.answer source request).2 = arena := by
  rw [answer_snd]
  cases request with
  | push node => cases h
  | setRoot id => cases h
  | _ => rfl

/-- No request takes a node away or changes one. -/
theorem extends_answer (source : Bytes) (arena : Arena Int) (request : Request) :
    Extends arena.nodes (arena.answer source request).2.nodes := by
  rw [answer_snd]
  cases request with
  | push node => exact Extends.push arena.nodes node
  | _ => exact Extends.refl _

/-- The root is only moved by the request for it. -/
theorem root_answer {request : Request} (h : ∀ id, request ≠ .setRoot id) :
    (arena.answer source request).2.root = arena.root := by
  rw [answer_snd]
  cases request with
  | setRoot id => exact absurd rfl (h id)
  | _ => rfl

/-- Requests only ever add nodes. -/
theorem extends_after (source : Bytes) (arena : Arena Int) (requests : List Request) :
    Extends arena.nodes (arena.after source requests).nodes := by
  induction requests generalizing arena with
  | nil => exact Extends.refl _
  | cons request rest ih => exact (extends_answer source arena request).trans (ih _)

/-- If it is not asked for, the root stays over a whole list of requests. -/
theorem root_after {requests : List Request} (h : ∀ id, Request.setRoot id ∉ requests) :
    (arena.after source requests).root = arena.root := by
  induction requests generalizing arena with
  | nil => rfl
  | cons request rest ih =>
    have hfirst : ∀ id, request ≠ .setRoot id := fun id heq => h id (heq ▸ List.mem_cons_self)
    have hrest : ∀ id, Request.setRoot id ∉ rest := fun id hmem => h id (List.mem_cons_of_mem _ hmem)
    exact (ih hrest).trans (root_answer hfirst)

/-- An integer that is not below zero is the place itself. -/
theorem get?_of_nonneg (arena : Arena Int) {id : Int} (h : 0 ≤ id) : arena.get? id = arena.nodes[id.toNat]? := by
  have hplace : Handle.place? arena.nodes.size id = some id.toNat := if_pos h
  rw [get?, hplace]

/-- A number that stands for a node stands for it in every larger arena. -/
theorem get?_of_extends (hext : Extends arena.nodes later.nodes) {id : Int} (h : 0 ≤ id) {layer : Node Int}
    (hget : arena.get? id = some layer) : later.get? id = some layer := by
  rw [get?_of_nonneg arena h] at hget
  rw [get?_of_nonneg later h]
  exact hext _ _ hget

/-- None of the handles that a walk from the root looks up counts from the end. -/
def FromStart {β : Type} (arena : Arena Int) (visit : Visit β) : Prop :=
  ∀ id ∈ arena.lookups visit (arena.nodes.size + 1) arena.root, 0 ≤ id

instance {β : Type} (arena : Arena Int) (visit : Visit β) : Decidable (arena.FromStart visit) :=
  inferInstanceAs (Decidable (∀ id ∈ _, 0 ≤ id))

/-- What a walk comes to stays so in every arena with the same root that has all nodes and more. -/
theorem walk_eq_of_extends {β : Type} {visit : Visit β} (hext : Extends arena.nodes later.nodes)
    (hroot : later.root = arena.root) (hends : arena.Ends visit) (hstart : arena.FromStart visit)
    (hfound : arena.walk visit ≠ .error .missingNode) : later.walk visit = arena.walk visit := by
  refine walk_eq_of_lookups hroot hends fun found hmem => ?_
  cases hget : arena.get? found with
  | none => exact absurd (walkAt_eq_missingNode hmem hget) hfound
  | some layer => exact get?_of_extends hext (hstart found hmem) hget

/-- Nodes may be added to an arena, and anything asked of it. As long as the root is not set, every number
that was given out keeps its node, and a walk with an end that looks up no handle below zero and misses no
node renders and outlines to the same, result or fault. A request that fails changes nothing. -/
theorem answers_stay {requests : List Request} (hroot : ∀ id, Request.setRoot id ∉ requests) :
    (∀ id : Int, 0 ≤ id → id < arena.nodes.size → (arena.after source requests).get? id = arena.get? id)
    ∧ (arena.Ends (Html.visit source) → arena.FromStart (Html.visit source) →
      Html.render source arena ≠ .error .missingNode →
      Html.render source (arena.after source requests) = Html.render source arena)
    ∧ (arena.Ends (Outline.visit source) → arena.FromStart (Outline.visit source) →
      TildeMarkup.outline source arena ≠ .error .missingNode →
      TildeMarkup.outline source (arena.after source requests) = TildeMarkup.outline source arena)
    ∧ ∀ request failure, (arena.answer source request).1 = .error failure →
      (arena.answer source request).2 = arena := by
  have hext := extends_after source arena requests
  refine ⟨fun id hlow hhigh => ?_, fun hends hstart hfound => ?_, fun hends hstart hfound => ?_,
    fun request failure => answer_of_error⟩
  · have hplace : id.toNat < arena.nodes.size := by omega
    obtain ⟨layer, hlayer⟩ : ∃ layer, arena.get? id = some layer :=
      ⟨_, (get?_of_nonneg arena hlow).trans (Array.getElem?_eq_getElem hplace)⟩
    exact (get?_of_extends hext hlow hlayer).trans hlayer.symm
  · exact walk_eq_of_extends hext (root_after hroot) hends hstart hfound
  -- The outline is printed from lines that a walk gives, so it is the walk that must not miss a node.
  · have hlines : Outline.ofArena source arena ≠ .error .missingNode := fun hlines => by
      refine hfound ?_
      rw [TildeMarkup.outline, hlines]
      rfl
    have hsame : Outline.ofArena source (arena.after source requests) = Outline.ofArena source arena :=
      walk_eq_of_extends hext (root_after hroot) hends hstart hlines
    rw [TildeMarkup.outline, TildeMarkup.outline, hsame]

end Requests

/-- An arena put together by hand: a paragraph that stands twice below the root, of a text that ends
behind the source and one that runs backwards, then a command that is not known; and by the side a group
with children that are not looked up, one of them counted from the end. -/
def growthSample : Arena Int where
  nodes := #[.text ⟨0, 9⟩, .text ⟨2, 1⟩, .paragraph [0, 1, 0], .group [9, -1], .command ⟨0, 2⟩ [],
    .group [2, 2, 4]]
  root := 5

/-- It can be outlined, but not rendered, and neither changes when nodes are added. -/
theorem answers_stay_sample :
    let source : Bytes := Utf8.encode "hi"
    let requests : List Request := [.push (.group [7]), .get 9, .render, .push (.text ⟨0, 1⟩)]
    let fault : Failure := .fault ⟨.unknownCommand "hi", ⟨0, 2⟩⟩
    (∀ id, Request.setRoot id ∉ requests)
      ∧ growthSample.Ends (Html.visit source) ∧ growthSample.Ends (Outline.visit source)
      ∧ growthSample.FromStart (Html.visit source) ∧ growthSample.FromStart (Outline.visit source)
      ∧ (growthSample.after source requests).get? 3 = some (.group [9, -1])
      ∧ Html.render source (growthSample.after source requests) = .error fault
      ∧ (∃ text, TildeMarkup.outline source growthSample = .ok text
        ∧ TildeMarkup.outline source (growthSample.after source requests) = .ok text)
      ∧ (growthSample.answer source .render).2 = growthSample := by
  intro source requests fault
  have hroot : ∀ id, Request.setRoot id ∉ requests := by simp [requests]
  have hrender : Html.render source growthSample = .error fault := rfl
  obtain ⟨text, htext⟩ : ∃ text, TildeMarkup.outline source growthSample = .ok text := ⟨_, rfl⟩
  have hends : growthSample.Ends (Html.visit source) := ⟨4, nofun⟩
  obtain ⟨below, hbelow⟩ : ∃ below,
      growthSample.walkAt (Outline.visit source) 4 growthSample.root = .ok below := ⟨_, rfl⟩
  have houtline : growthSample.Ends (Outline.visit source) := ⟨4, by rw [hbelow]; exact nofun⟩
  have hstart : growthSample.FromStart (Html.visit source) := by decide
  have hstart' : growthSample.FromStart (Outline.visit source) := by decide
  obtain ⟨hget, hhtml, hlines, hfailed⟩ := @answers_stay source growthSample requests hroot
  refine ⟨hroot, hends, houtline, hstart, hstart', hget 3 (by decide) (by decide), ?_, ⟨text, htext, ?_⟩,
    hfailed .render fault rfl⟩
  · have hfound : Html.render source growthSample ≠ .error .missingNode := by
      rw [hrender]
      simp [fault]
    rw [hhtml hends hstart hfound, hrender]
  · have hfound : TildeMarkup.outline source growthSample ≠ .error .missingNode := by
      rw [htext]
      exact nofun
    rw [hlines houtline hstart' hfound, htext]

/-- An arena whose root is the last node, whichever that is. -/
def fromEndSample : Arena Int where
  nodes := #[.text ⟨0, 1⟩]
  root := -1

/-- A walk with an end that misses no node need not stay if a handle below zero is looked up: the last node
is another one when a node has been added. -/
theorem exists_walk_from_end_moves :
    let source : Bytes := Utf8.encode "ab"
    let requests : List Request := [.push (.text ⟨1, 2⟩)]
    (∀ id, Request.setRoot id ∉ requests) ∧ fromEndSample.Ends (Html.visit source)
      ∧ Html.render source fromEndSample = .ok (Utf8.encode "a")
      ∧ Html.render source (fromEndSample.after source requests) = .ok (Utf8.encode "b") := by
  intro source requests
  exact ⟨by simp [requests], ⟨2, nofun⟩, rfl, rfl⟩

end Arena
end TildeMarkup
