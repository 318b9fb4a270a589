import TildeMarkup.Proofs.Descent.Agreement
import TildeMarkup.Proofs.Document.Postorder

/-!
# Rules that push

The rules push a node as soon as all that is in it has been taken, and what they keep of it is its number.
The numbers of children stand in the lists of the rules that are at work then, and nodes of other rules are
pushed in between. So it takes a comparison with the rules of trees to see which tree an arena holds.

Both sets of rules are one set over two builders, so they take the same turns from cursor to cursor. All
that is to be shown is that they stay together in what they make (`Beside`): if the rules of trees have made
some trees since the arena was as it was, then the numbers that the other rules have for them, and the arena
now, are what numbering these trees one after the other comes to (`Numbers`). From the empty arena on, the
rules that push thus end with the arena of the tree (`parseArena_eq`).

Main statement: `parse_postorder`. Whatever has been pushed when the rules return is one tree in post-order.
-/

namespace TildeMarkup

namespace Descent

/-! ## What has been numbered -/

section Numbers

variable {α β γ : Type} {number : α → StateM (Array (Node Nat)) β} {before : Array (Node Nat)}
  {done : List α} {named : List β} {arena : Arena}

/-- Numbered one after the other on top of some nodes, what is done comes to these names, and to the nodes
that are in the arena. The last is first in both lists, as the rules keep it while they are at work. -/
def Numbers (number : α → StateM (Array (Node Nat)) β) (before : Array (Node Nat)) (done : List α)
    (named : List β) (arena : Arena) : Prop :=
  done.reverse.mapM number before = (named.reverse, arena.nodes)

/-- Two actions that number, one after the other: the second goes on from the nodes of the first. -/
theorem bind_apply (action : StateM (Array (Node Nat)) β) (f : β → StateM (Array (Node Nat)) γ)
    (nodes : Array (Node Nat)) : (action >>= f) nodes = f (action nodes).1 (action nodes).2 := rfl

/-- In front of the first one, the nodes are the ones that are there already. -/
theorem Numbers.nil (number : α → StateM (Array (Node Nat)) β) (arena : Arena) :
    Numbers number arena.nodes [] [] arena := rfl

/-- One more is numbered, on top of those before it. -/
theorem Numbers.cons {a : α} {b : β} {after : Arena} (h : Numbers number before done named arena)
    (hnext : number a arena.nodes = (b, after.nodes)) :
    Numbers number before (a :: done) (b :: named) after := by
  unfold Numbers at h ⊢
  rw [List.reverse_cons, List.mapM_append, bind_apply, h, bind_apply, List.mapM_cons, List.mapM_nil,
    bind_apply, hnext, List.reverse_cons]
  rfl

/-- The numbers of its children stand in a layer in their order, whether it is a group or a paragraph. -/
theorem Numbers.layer {pieces : List Tree} {ids : List Nat} {form : List Tree → Node Tree}
    {form' : List Nat → Node Nat}
    (hform : ∀ children, (form children).mapM Tree.number = form' <$> children.mapM Tree.number)
    (h : Numbers Tree.number before pieces ids arena) :
    (form pieces.reverse).mapM Tree.number before = (form' ids.reverse, arena.nodes) := by
  unfold Numbers at h
  rw [hform]
  show (form' (pieces.reverse.mapM Tree.number before).1, (pieces.reverse.mapM Tree.number before).2) = _
  rw [h]

/-- A node that is pushed on top of its children is what numbering its tree comes to. -/
theorem number_push {layer : Node Tree} {node : Node Nat} {nodes : Array (Node Nat)}
    (h : layer.mapM Tree.number nodes = (node, arena.nodes)) :
    (Tree.node layer).number nodes = ((arena.push node).1, (arena.push node).2.nodes) := by
  rw [Arena.number_node, bind_apply, h]
  rfl

end Numbers

/-! ## Two rules beside each other -/

section Beside

variable {α β γ δ : Type} {c : Cursor} {arena : Arena} {R : α → β → Arena → Prop}
  {S : γ → δ → Arena → Prop}

/-- From the cursor on, a rule of trees and a rule that pushes stop alike, or both go on, and leave the
cursor at one place. What they have made then is related, and so is the arena. -/
def Beside (rule : Rule α) (pushing : Pushing β) (c : Cursor) (arena : Arena)
    (R : α → β → Arena → Prop) : Prop :=
  match rule c, pushing arena c with
  | .ok (result, next), .ok ((named, after), same) => same = next ∧ R result named after
  | .error stop, .error same => same = stop
  | _, _ => False

theorem beside_pure {result : α} {named : β} (h : R result named arena) :
    Beside (pure result) (pure named) c arena R :=
  ⟨rfl, h⟩

/-- One rule after the other, on both sides. Where the first rules stop, so do both sides; where they go
on, they have made things that are related, from which the next rules start. -/
theorem Beside.andThen {rule : Rule α} {pushing : Pushing β} {f : α → Rule γ} {g : β → Pushing δ}
    (h : Beside rule pushing c arena R)
    (hnext : ∀ result named next after, R result named after →
      Beside (f result) (g named) next after S) : Beside (rule >>= f) (pushing >>= g) c arena S := by
  have hrule : (rule >>= f) c = (rule c >>= fun (result, next) => f result next) := rfl
  have hpushing : (pushing >>= g) arena c
      = (pushing arena c >>= fun ((named, after), next) => g named after next) := rfl
  unfold Beside at h ⊢
  rw [hrule, hpushing]
  -- The two can only stop or go on together, so two of the four cases are out.
  cases hresult : rule c with
  | error stop =>
    cases hnamed : pushing arena c with
    | error same => rw [hresult, hnamed] at h; exact h
    | ok _ => rw [hresult, hnamed] at h; exact h.elim
  | ok found =>
    cases hnamed : pushing arena c with
    | error _ => rw [hresult, hnamed] at h; exact h.elim
    | ok made =>
      rw [hresult, hnamed] at h
      obtain ⟨result, next⟩ := found
      obtain ⟨⟨named, after⟩, same⟩ := made
      obtain ⟨rfl, hR⟩ := h
      exact hnext result named same after hR

/-- A rule that makes nothing is one rule for both: it leaves the arena alone. Most steps of a rule are of
this kind, namely all that look at bytes or move the cursor. -/
theorem beside_lift {rule : Rule α} {f : α → Rule γ} {g : α → Pushing δ}
    (hnext : ∀ result next, Beside (f result) (g result) next arena S) :
    Beside (liftM rule >>= f) (liftM rule >>= g) c arena S := by
  -- Lifted to rules that push, it carries the arena along and hands it back unchanged.
  have hlift : Beside (liftM rule) (liftM rule) c arena fun result same after =>
      same = result ∧ after = arena := by
    have hrule : (liftM rule : Rule α) c = rule c := rfl
    have hpushing : (liftM rule : Pushing α) arena c = (rule c >>= fun (result, next) =>
        .ok ((result, arena), next)) := rfl
    unfold Beside
    rw [hrule, hpushing]
    cases rule c with
    | error stop => rfl
    | ok found => exact ⟨rfl, rfl, rfl⟩
  refine hlift.andThen fun result named next after hsame => ?_
  rw [hsame.1, hsame.2]
  exact hnext result next

/-- Both sides ask the same question, since it is about the bytes and the cursor, which they share. -/
theorem beside_ite {p : Prop} [Decidable p] {rule other : Rule α} {pushing others : Pushing β}
    (hthen : p → Beside rule pushing c arena R) (helse : ¬ p → Beside other others c arena R) :
    Beside (if p then rule else other) (if p then pushing else others) c arena R := by
  split
  · next h => exact hthen h
  · next h => exact helse h

/-- A refusal stops both sides at one cursor, and so with one fault. -/
theorem beside_refuse {source : Bytes} {cause : Cause} :
    Beside (liftM (refuse source cause : Rule α)) (liftM (refuse source cause : Rule β)) c arena R :=
  rfl

/-- The node of one layer, whose children have been numbered last. -/
theorem beside_put {layer : Node Tree} {node : Node Nat} {nodes : Array (Node Nat)}
    (h : layer.mapM Tree.number nodes = (node, arena.nodes)) :
    Beside (put layer) (put node) c arena fun tree id after => tree.number nodes = (id, after.nodes) :=
  ⟨rfl, number_push h⟩

end Beside

/-! ## One rule after another -/

section Rules

variable {source : Bytes} {rules : Rules} {pushing : RulesOver Pushing Nat} {c : Cursor} {arena : Arena}
  {before : Array (Node Nat)} {pieces blocks : List Tree} {ids : List Nat} {allowed : Bool}

/-- Rules that push, beside rules of trees: what they have for the trees of a list are the numbers of these
trees, and what they add to the arena are the nodes below. -/
structure RulesOver.Follows (pushing : RulesOver Pushing Nat) (rules : Rules) : Prop where
  text : ∀ before pieces ids start c arena, Numbers Tree.number before pieces ids arena →
    Beside (rules.text (pieces, start)) (pushing.text (ids, start)) c arena
      (Numbers Tree.number before)
  command : ∀ allowed c arena, Beside (rules.command allowed) (pushing.command allowed) c arena
    fun tree id after => tree.number arena.nodes = (id, after.nodes)
  list : ∀ allowed before args named c arena,
    Numbers (Argument.mapM Tree.number) before args named arena →
    Beside (rules.list allowed args) (pushing.list allowed named) c arena
      (Numbers (Argument.mapM Tree.number) before)
  braces : ∀ before blocks ids c arena, Numbers Tree.number before blocks ids arena →
    Beside (rules.braces blocks) (pushing.braces ids) c arena (Numbers Tree.number before)
  document : ∀ before blocks ids c arena, Numbers Tree.number before blocks ids arena →
    Beside (rules.document blocks) (pushing.document ids) c arena (Numbers Tree.number before)

/-- Where two turns lead to: on, from related states, or out of the loop, with related results. -/
def Turn.Both {σ τ α β : Type} (again : σ → τ → Arena → Prop) (exit : α → β → Arena → Prop) :
    Turn σ α → Turn τ β → Arena → Prop
  | .again state, .again other => again state other
  | .exit result, .exit named => exit result named
  | _, _ => fun _ => False

/-- A loop keeps two sides together if its turn does, and if the loop does from there on. -/
theorem loop_beside {σ τ α β : Type} {turn : σ → Rule (Turn σ α)} {turn' : τ → Pushing (Turn τ β)}
    {rest : σ → Rule α} {rest' : τ → Pushing β} {state : σ} {state' : τ}
    {again : σ → τ → Arena → Prop} {exit : α → β → Arena → Prop}
    (hturn : Beside (turn state) (turn' state') c arena (Turn.Both again exit))
    (hrest : ∀ state state' next after, again state state' after →
      Beside (rest state) (rest' state') next after exit) :
    Beside (loop turn rest state) (loop turn' rest' state') c arena exit := by
  refine hturn.andThen fun result named next after hboth => ?_
  cases result with
  | again state =>
    cases named with
    | again other => exact hrest state other next after hboth
    | exit _ => exact hboth.elim
  | exit result =>
    cases named with
    | again _ => exact hboth.elim
    | exit _ => exact beside_pure hboth

/-! ### Text -/

/-- The run of text up to a stop is a leaf on both sides, or nothing where it has no bytes. -/
theorem endText_beside (h : Numbers Tree.number before pieces ids arena) (start stop : Nat) :
    Beside (endText pieces start stop) (endText ids start stop) c arena (Numbers Tree.number before) := by
  refine beside_ite (fun _ => ?_) fun _ => beside_pure h
  have hleaf : Node.mapM Tree.number (.text ⟨start, stop⟩) arena.nodes = (.text ⟨start, stop⟩, arena.nodes) := rfl
  refine (beside_put hleaf).andThen fun piece id next after hpiece => ?_
  exact beside_pure (h.cons hpiece)

/-- The text pieces of two runs are started at one place, and the pieces before are related. -/
def RunsAlike (before : Array (Node Nat)) (run : List Tree × Nat) (run' : List Nat × Nat) (arena : Arena) :
    Prop :=
  run'.2 = run.2 ∧ Numbers Tree.number before run.1 run'.1 arena

/-- A turn in a run of text. The leaves that it pushes come behind the pieces before them. -/
theorem textTurn_beside (h : pushing.Follows rules) {start : Nat}
    (hrun : Numbers Tree.number before pieces ids arena) :
    Beside (textTurn source rules (pieces, start)) (textTurn source pushing (ids, start)) c arena
      (Turn.Both (RunsAlike before) (Numbers Tree.number before)) := by
  refine beside_lift fun offset c => beside_lift fun byte c => ?_
  have hend (stop : Nat) (c : Cursor) := endText_beside (c := c) hrun start stop
  -- At the end of the source the rest of the text is pushed.
  cases byte with
  | none => exact (hend offset c).andThen fun _ _ _ _ hpieces => beside_pure hpieces
  | some b =>
    refine beside_ite (fun _ => ?_) fun _ => beside_ite (fun _ => ?_) fun _ => beside_lift fun closes c =>
      beside_ite (fun _ => ?_) fun _ => beside_lift fun _ c => beside_pure ⟨rfl, hrun⟩
    · -- the text in front of a command is pushed before the command, and so has the smaller number
      refine (hend offset c).andThen fun pieces ids next middle hpieces => ?_
      refine (h.command false next middle).andThen fun tree id next after htree => ?_
      exact beside_lift fun start c => beside_pure ⟨rfl, hpieces.cons htree⟩
    · refine (hend _ c).andThen fun _ _ _ _ hpieces => ?_
      exact beside_lift fun _ c => beside_pure hpieces
    · exact (hend offset c).andThen fun _ _ _ _ hpieces => beside_pure hpieces

/-- A command, or a run of text with the node around it, which is pushed when the run is over. -/
theorem part_beside (h : pushing.Follows rules) (blocks : Bool) :
    Beside (part source rules blocks) (part source pushing blocks) c arena
      fun tree id after => tree.number arena.nodes = (id, after.nodes) := by
  refine beside_lift fun byte c => beside_ite (fun _ => h.command blocks c arena) fun _ => ?_
  refine beside_lift fun start c => ?_
  refine (h.text arena.nodes [] [] start c arena (.nil _ _)).andThen fun pieces ids next after hpieces => ?_
  -- A run is a paragraph in braces and a group in square brackets, over the same children.
  cases blocks with
  | true => exact beside_put (hpieces.layer fun _ => rfl)
  | false => exact beside_put (hpieces.layer fun _ => rfl)

/-! ### Blocks -/

/-- A block, behind others. -/
theorem block_beside (h : pushing.Follows rules) (hblocks : Numbers Tree.number before blocks ids arena)
    {exit : List Tree → List Nat → Arena → Prop} :
    Beside (do
        let block ← part source rules true
        return Turn.again (block :: blocks))
      (do
        let block ← part source pushing true
        return Turn.again (block :: ids)) c arena (Turn.Both (Numbers Tree.number before) exit) :=
  (part_beside h true).andThen fun _ _ _ _ hblock => beside_pure (hblocks.cons hblock)

/-- Blocks are numbered as they come, in braces and in a document. -/
theorem bracesTurn_beside (h : pushing.Follows rules)
    (hblocks : Numbers Tree.number before blocks ids arena) :
    Beside (bracesTurn source rules blocks) (bracesTurn source pushing ids) c arena
      (Turn.Both (Numbers Tree.number before) (Numbers Tree.number before)) := by
  refine beside_lift fun _ c => beside_lift fun byte c => ?_
  cases byte with
  | none => exact beside_pure hblocks
  | some b =>
    refine beside_lift fun closes c => beside_ite (fun _ => beside_pure hblocks) fun _ => ?_
    exact block_beside h hblocks

theorem documentTurn_beside (h : pushing.Follows rules)
    (hblocks : Numbers Tree.number before blocks ids arena) :
    Beside (documentTurn source rules blocks) (documentTurn source pushing ids) c arena
      (Turn.Both (Numbers Tree.number before) (Numbers Tree.number before)) := by
  refine beside_lift fun _ c => beside_lift fun byte c => ?_
  cases byte with
  | none => exact beside_pure hblocks
  | some b =>
    refine beside_lift fun brackets c => beside_ite (fun _ => beside_refuse) fun _ => ?_
    exact block_beside h hblocks

/-! ### Arguments -/

/-- What is in the brackets of an argument is numbered, and so is the argument. -/
theorem enclosed_beside {α β : Type} {closer : UInt8} {rule : Rule α} {other : Pushing β}
    {form : α → Span → Argument Tree} {form' : β → Span → Argument Nat} {R : α → β → Arena → Prop}
    (hrule : ∀ c, Beside rule other c arena R)
    (hform : ∀ content named after span, R content named after →
      (form content span).mapM Tree.number arena.nodes = (form' named span, after.nodes)) :
    Beside (enclosed source closer rule form) (enclosed source closer other form') c arena
      fun arg named after => arg.mapM Tree.number arena.nodes = (named, after.nodes) := by
  refine beside_lift fun start c => beside_lift fun _ c => ?_
  have hframed : Beside (framed rule) (framed other) c arena R := by
    refine beside_lift fun _ c => (hrule c).andThen fun content named next after hcontent => ?_
    exact beside_lift fun _ c => beside_pure hcontent
  refine hframed.andThen fun content named next after hcontent => ?_
  refine beside_lift fun _ c => beside_lift fun stop c => beside_pure ?_
  exact hform content named after ⟨start, stop⟩ hcontent

theorem bracketed_beside (h : pushing.Follows rules) :
    Beside (bracketed source rules) (bracketed source pushing) c arena
      fun arg named after => arg.mapM Tree.number arena.nodes = (named, after.nodes) := by
  refine enclosed_beside (fun _ => part_beside h false) fun tree id after span htree => ?_
  rw [Argument.mapM, bind_apply, htree]
  rfl

theorem braced_beside (h : pushing.Follows rules) :
    Beside (braced source rules) (braced source pushing) c arena
      fun arg named after => arg.mapM Tree.number arena.nodes = (named, after.nodes) := by
  refine enclosed_beside (fun c => h.braces _ [] [] c arena (.nil _ _))
    fun blocks ids after span hblocks => ?_
  unfold Numbers at hblocks
  rw [Argument.mapM, bind_apply, hblocks]
  rfl

/-- Where nothing is in an argument, nothing is pushed for it. -/
theorem ident_beside : Beside (ident source : Rule (Argument Tree)) (ident source : Pushing (Argument Nat)) c
    arena fun arg named after => arg.mapM Tree.number arena.nodes = (named, after.nodes) :=
  beside_lift fun _ _ => beside_lift fun _ _ => beside_lift fun _ _ => beside_pure rfl

/-- A string is an argument by its place alone. It holds no nodes, so the arena stays as it is. -/
theorem string_beside : Beside (string source : Rule (Argument Tree))
    (string source : Pushing (Argument Nat)) c arena
    fun arg named after => arg.mapM Tree.number arena.nodes = (named, after.nodes) := by
  refine beside_lift fun start c => beside_lift fun _ c => beside_lift fun _ c => beside_lift fun byte c => ?_
  cases byte with
  | none => exact beside_refuse
  | some b => exact beside_lift fun _ c => beside_lift fun stop c => beside_pure rfl

/-- Both sides choose the form of an argument by the byte it starts with. -/
theorem argument_beside (h : pushing.Follows rules) (blocks : Bool) :
    Beside (argument source rules blocks) (argument source pushing blocks) c arena
      fun arg named after => arg.mapM Tree.number arena.nodes = (named, after.nodes) := by
  refine beside_lift fun byte c => ?_
  cases byte with
  | none => exact beside_refuse
  | some b =>
    refine beside_ite (fun _ => bracketed_beside h) fun _ => ?_
    refine beside_ite (fun _ => braced_beside h) fun _ => ?_
    refine beside_ite (fun _ => string_beside) fun _ => ?_
    exact beside_ite (fun _ => ident_beside) fun _ => beside_refuse

/-- A turn in a list adds one argument to both, whose nodes are pushed behind those of the arguments
before. -/
theorem listTurn_beside (h : pushing.Follows rules) (blocks : Bool) {args : List (Argument Tree)}
    {named : List (Argument Nat)} (hargs : Numbers (Argument.mapM Tree.number) before args named arena) :
    Beside (listTurn source rules blocks args) (listTurn source pushing blocks named) c arena
      (Turn.Both (Numbers (Argument.mapM Tree.number) before)
        (Numbers (Argument.mapM Tree.number) before)) := by
  refine beside_lift fun _ c => beside_ite (fun _ => beside_pure hargs) fun _ => ?_
  refine beside_lift fun _ c => beside_lift fun _ c => beside_ite (fun _ => beside_pure hargs) fun _ => ?_
  refine (argument_beside h blocks).andThen fun arg argNamed next after harg => ?_
  exact beside_lift fun _ c => beside_lift fun _ c => beside_pure (hargs.cons harg)

/-! ### Commands -/

/-- The arguments of a command, in their order. -/
theorem arguments_beside (h : pushing.Follows rules) (blocks : Bool) :
    Beside (arguments source rules blocks) (arguments source pushing blocks) c arena
      fun args named after => args.mapM (Argument.mapM Tree.number) arena.nodes = (named, after.nodes) := by
  have hsingle {arg : Argument Tree} {named : Argument Nat} {after : Arena}
      (harg : arg.mapM Tree.number arena.nodes = (named, after.nodes)) :
      [arg].mapM (Argument.mapM Tree.number) arena.nodes = ([named], after.nodes) :=
    (Numbers.nil (Argument.mapM Tree.number) arena).cons harg
  refine beside_lift fun byte c => ?_
  cases byte with
  | none => exact beside_refuse
  | some b =>
    refine beside_ite (fun _ => ?_) fun _ => beside_ite (fun _ => ?_) fun _ =>
      beside_ite (fun _ => ?_) fun _ => beside_refuse
    · refine beside_lift fun _ c => ?_
      refine (h.list blocks _ [] [] c arena (.nil _ _)).andThen fun args named next after hargs => ?_
      exact beside_lift fun _ c => beside_pure hargs
    · exact (bracketed_beside h).andThen fun _ _ _ _ harg => beside_pure (hsingle harg)
    · exact (braced_beside h).andThen fun _ _ _ _ harg => beside_pure (hsingle harg)

/-- A command is pushed when all its arguments have been, and so behind all nodes that are in them. -/
theorem command_beside (h : pushing.Follows rules) (blocks : Bool) :
    Beside (command source rules blocks) (command source pushing blocks) c arena
      fun tree id after => tree.number arena.nodes = (id, after.nodes) := by
  refine beside_lift fun _ c => beside_lift fun start c => beside_lift fun _ c => ?_
  refine beside_lift fun stop c => beside_lift fun _ c => ?_
  refine (arguments_beside h blocks).andThen fun args named next after hargs => beside_put ?_
  rw [Node.mapM, bind_apply, hargs]
  rfl

/-! ### All of them -/

/-- If rules that push follow rules of trees, the rules that call them do too. -/
theorem follows_next (h : pushing.Follows rules) :
    RulesOver.Follows (pushing.next source) (rules.next source) where
  text before pieces ids start c arena hpieces := by
    refine loop_beside (textTurn_beside h hpieces) fun run run' next after hrun => ?_
    obtain ⟨pieces, start⟩ := run
    obtain ⟨ids, same⟩ := run'
    obtain ⟨rfl, hpieces⟩ := hrun
    exact h.text before pieces ids same next after hpieces
  command blocks _ _ := command_beside h blocks
  list blocks before _ _ _ _ hargs :=
    loop_beside (listTurn_beside h blocks hargs) fun args named next after hargs =>
      h.list blocks before args named next after hargs
  braces before _ _ _ _ hblocks :=
    loop_beside (bracesTurn_beside h hblocks) fun blocks ids next after hblocks =>
      h.braces before blocks ids next after hblocks
  document before _ _ _ _ hblocks :=
    loop_beside (documentTurn_beside h hblocks) fun blocks ids next after hblocks =>
      h.document before blocks ids next after hblocks

end Rules

/-- The rules that push are beside the rules of trees, however deep calls are nested. -/
theorem follows_rules (source : Bytes) (depth : Nat) :
    RulesOver.Follows (rulesTo source depth) (rules source depth) := by
  induction depth with
  | succ depth ih => exact follows_next ih
  | zero =>
    exact {
      text := fun _ _ _ _ _ _ _ => rfl
      command := fun _ _ _ => rfl
      list := fun _ _ _ _ _ _ _ => rfl
      braces := fun _ _ _ _ _ _ => rfl
      document := fun _ _ _ _ _ _ => rfl }

/-! ## The arena of a source -/

/-- The document is pushed last, as the group of its blocks. -/
theorem whole_beside {rules : Rules} {pushing : RulesOver Pushing Nat} (h : pushing.Follows rules)
    (c : Cursor) (arena : Arena) : Beside rules.whole pushing.whole c arena
      fun tree id after => tree.number arena.nodes = (id, after.nodes) := by
  refine (h.document arena.nodes [] [] c arena (.nil _ _)).andThen fun blocks ids next after hblocks => ?_
  exact beside_put (hblocks.layer fun _ => rfl)

/-- The rules that push end with the arena of the tree that the others make, or stop where they do. -/
theorem parseArena_eq (source : Bytes) (depth : Nat) :
    parseArena source depth = Tree.toArena <$> parse source depth := by
  have hbeside := whole_beside (follows_rules source depth) Cursor.initial Arena.empty
  rw [parseArena, parse]
  unfold Beside at hbeside
  -- By what the two rules come to: both return, both stop, and there is no third case.
  split at hbeside
  · next tree next id after same hrule hpushing =>
    obtain ⟨rfl, hnumber⟩ := hbeside
    -- The arena of a tree is what numbering it from no nodes on gives, and no nodes is where the rules
    -- started.
    have harena : Arena.mk after.nodes id = tree.toArena := by
      rw [Tree.toArena]
      show _ = Arena.mk (tree.number #[]).2 (tree.number #[]).1
      rw [show tree.number #[] = (id, after.nodes) from hnumber]
    rw [hrule]
    show ((rulesTo source depth : RulesOver Pushing Nat).whole Arena.empty Cursor.initial >>= _) = _
    rw [hpushing]
    exact congrArg Except.ok harena
  · next stop same hrule hpushing =>
    rw [hrule]
    show ((rulesTo source depth : RulesOver Pushing Nat).whole Arena.empty Cursor.initial >>= _) = _
    rw [hpushing, hbeside]
    rfl
  · exact hbeside.elim

/-- Where calls may nest deep enough, the rules that push give the arena that reading gives. -/
theorem parseArena_eq_parse (source : Bytes) (depth : Nat) (h : 2 * source.length + 2 ≤ depth) :
    parseArena source depth = (TildeMarkup.parse source).mapError Stop.fault := by
  rw [parseArena_eq, parse_eq source depth h, TildeMarkup.parse]
  cases Tree.parse source <;> rfl

/-- The tree of a source is the group of its blocks. -/
theorem exists_group_of_parse {source : Bytes} {depth : Nat} {tree : Tree}
    (h : parse source depth = .ok tree) : ∃ blocks, tree = .node (.group blocks) := by
  have hwhole : Meets (rules source depth).whole Cursor.initial
      (fun tree _ => ∃ blocks, tree = .node (.group blocks)) fun _ => True := by
    refine meets_bind.2 ?_
    unfold Meets
    split
    · next blocks next _ => exact ⟨blocks.reverse, rfl⟩
    · trivial
  rw [parse] at h
  unfold Meets at hwhole
  split at hwhole
  · next found next hrule =>
    rw [hrule] at h
    cases h
    exact hwhole
  · next stop hrule =>
    rw [hrule] at h
    cases h

/-- An arena that rules have pushed is the listing of a tree, whose group of blocks is the root. -/
theorem isPostorder_of_parseArena {source : Bytes} {depth : Nat} {arena : Arena}
    (h : parseArena source depth = .ok arena) : arena.IsPostorder := by
  rw [parseArena_eq] at h
  cases hparse : parse source depth with
  | error stop =>
    rw [hparse] at h
    cases h
  | ok tree =>
    rw [hparse] at h
    cases h
    obtain ⟨blocks, rfl⟩ := exists_group_of_parse hparse
    exact Arena.isPostorder_of_listing (Arena.listing_toArena _).1 (Arena.exists_group_root blocks)

end Descent

open Descent (parseArena Stop)

/-- The arena of a source lists the nodes of one tree in post-order. That holds of all that has been pushed
when the rules return, however deep their calls may nest. Where they may nest deep enough, the rules return
the arena that reading gives, or stop for the fault that it finds. -/
theorem parse_postorder (source : Bytes) :
    (∀ depth arena, parseArena source depth = .ok arena → arena.IsPostorder)
    ∧ (∀ depth, 2 * source.length + 2 ≤ depth →
      parseArena source depth = (parse source).mapError Stop.fault)
    ∧ ∀ arena, parse source = .ok arena → arena.IsPostorder := by
  refine ⟨fun depth arena => Descent.isPostorder_of_parseArena,
    fun depth => Descent.parseArena_eq_parse source depth, fun arena harena => ?_⟩
  have hpushed : parseArena source (2 * source.length + 2) = .ok arena := by
    rw [Descent.parseArena_eq_parse source _ (Nat.le_refl _), harena]
    rfl
  exact Descent.isPostorder_of_parseArena hpushed

/-- The command `~aside{x ~i[y]}`, with a paragraph in braces and a run in square brackets. -/
def postorderSample : Bytes :=
  [tilde, 0x61, 0x73, 0x69, 0x64, 0x65, 0x7b, 0x78, 0x20, tilde, 0x69, 0x5b, 0x79, 0x5d, 0x7d]

/-- Its arena: the text `x `, the text `y` with its run and its command, then what is around them. -/
def postorderSampleArena : Arena where
  nodes := #[.text ⟨7, 9⟩, .text ⟨12, 13⟩, .group [1], .command ⟨10, 11⟩ [.inline 2 ⟨11, 14⟩],
    .paragraph [0, 3], .command ⟨1, 6⟩ [.block [4] ⟨6, 15⟩], .group [5]]
  root := 6

theorem parse_postorder_sample :
    parse postorderSample = .ok postorderSampleArena ∧ postorderSampleArena.IsPostorder
    ∧ 2 * postorderSample.length + 2 ≤ 32
    ∧ parseArena postorderSample 32 = .ok postorderSampleArena := by
  let inside : Node Tree :=
    .command ⟨10, 11⟩ [.inline (.node (.group [.node (.text ⟨12, 13⟩)])) ⟨11, 14⟩]
  let line : Node Tree := .paragraph [.node (.text ⟨7, 9⟩), .node inside]
  let around : Node Tree := .command ⟨1, 6⟩ [.block [.node line] ⟨6, 15⟩]
  have htree : Tree.parse postorderSample = .ok (.node (.group [.node around])) := rfl
  have h : parse postorderSample = .ok postorderSampleArena := by
    rw [parse, htree]
    rfl
  have hpushed : parseArena postorderSample 32 = .ok postorderSampleArena :=
    ((parse_postorder postorderSample).2.1 32 (by decide)).trans (congrArg (Except.mapError Stop.fault) h)
  exact ⟨h, (parse_postorder postorderSample).1 32 _ hpushed, by decide, hpushed⟩

end TildeMarkup
