import TildeMarkup.Proofs.Document.Postorder
import TildeMarkup.Proofs.Reader.Moves

/-!
# The size of a document

Every node is paid for by a byte of its own: a command by its tilde, the group in square brackets by the
bracket that opens it, a text by its first byte, and a paragraph by the line feed or the closer behind it.
So a reader has never more nodes than it has read bytes (`Reader.size_le_offset`). What is left to pay for
at the end of the source is the last paragraph and the document itself (`size_le_of_parse`), and short lines
leave both (`exists_parse_lines`).
-/

namespace TildeMarkup

/-! ## Trees -/

namespace Tree

/-- The number of nodes of some trees together. -/
def total : List Tree → Nat
  | [] => 0
  | tree :: rest => tree.size + total rest

@[simp] theorem total_nil : total [] = 0 := rfl

@[simp] theorem total_cons (tree : Tree) (rest : List Tree) : total (tree :: rest) = tree.size + total rest :=
  rfl

@[simp] theorem total_append (front back : List Tree) : total (front ++ back) = total front + total back := by
  induction front with
  | nil => exact (Nat.zero_add _).symm
  | cons tree rest ih => rw [List.cons_append, total_cons, total_cons, ih, Nat.add_assoc]

@[simp] theorem total_reverse (trees : List Tree) : total trees.reverse = total trees := by
  induction trees with
  | nil => rfl
  | cons tree rest ih =>
    rw [List.reverse_cons, total_append, ih, total_cons, total_cons, total_nil]
    omega

/-- A call keeps its arguments with the last one first, and its command has them the other way round. -/
theorem total_flatMap_reverse (args : List (Argument Tree)) :
    total (args.reverse.flatMap Argument.children) = total (args.flatMap Argument.children) := by
  induction args with
  | nil => rfl
  | cons arg rest ih =>
    rw [List.reverse_cons, List.flatMap_append, total_append, ih, List.flatMap_singleton, List.flatMap_cons,
      total_append, Nat.add_comm]

/-- A node counts one more than what is below it. -/
theorem size_node (layer : Node Tree) : (node layer).size = total layer.children + 1 := by
  rw [size, fold_node, Node.children_map, ← size]
  induction layer.children with
  | nil => rfl
  | cons tree rest ih => rw [List.map_cons, List.foldr_cons, ih, total_cons, Nat.add_assoc]

@[simp] theorem size_group (children : List Tree) : (node (.group children)).size = total children + 1 :=
  size_node _

@[simp] theorem size_paragraph (children : List Tree) :
    (node (.paragraph children)).size = total children + 1 :=
  size_node _

@[simp] theorem size_text (span : Span) : (node (.text span)).size = 1 :=
  size_node _

@[simp] theorem size_command (name : Span) (args : List (Argument Tree)) :
    (node (.command name args)).size = total (args.flatMap Argument.children) + 1 :=
  size_node _

/-- Post-order lists every node of a tree once. -/
theorem length_postorder : ∀ tree : Tree, tree.postorder.length = tree.size := by
  refine Tree.induction fun layer ih => ?_
  rw [postorder_node, List.length_append, List.length_singleton, size_node]
  generalize layer.children = children at ih ⊢
  induction children with
  | nil => rfl
  | cons tree rest ihrest =>
    obtain ⟨htree, hrest⟩ := List.forall_mem_cons.1 ih
    rw [List.flatMap_cons, List.length_append, htree, total_cons, Nat.add_assoc, ihrest hrest,
      Nat.add_assoc]

/-- An arena has as many nodes as its tree. -/
theorem size_toArena (tree : Tree) : tree.toArena.nodes.size = tree.size := by
  rw [← length_postorder, ← (Arena.listing_toArena tree).2, List.length_map, Array.length_toList]

end Tree

/-! ## What a reader has -/

namespace Reader

open TildeMarkup.Tree

/-- What has been read of a run in front of a command. A command by itself has nothing in front. -/
def Place.size : Place → Nat
  | .alone => 0
  | .within pieces => total pieces

/-- A call counts from its tilde on, so its node is paid for as soon as its name starts. -/
def Call.size (call : Call) : Nat :=
  call.place.size + total (call.args.flatMap Argument.children) + 1

/-- What is in square brackets counts from their opener on: its group is paid for by the bracket, whether
it turns out to be needed or not. -/
def Scope.size : Scope → Nat
  | .document blocks => total blocks
  | .braces outer call _ _ blocks => outer.size + call.size + total blocks
  | .brackets outer call _ _ content => outer.size + call.size + content.elim 1 Tree.size

/-- A text counts from its first byte on, a paragraph not before it ends. The two of them thus have
different bytes to be paid by. -/
def Mode.size (offset : Nat) : Mode → Nat
  | .ready => 0
  | .text pieces start _ => total pieces + if start < offset then 1 else 0
  | .name place _ => place.size + 1
  | .head place _ => place.size + 1
  | .list call _ => call.size
  | .ident call _ => call.size
  | .string call _ _ => call.size
  | .next call => call.size

/-- The number of nodes that a reader has, or has begun. -/
def size (r : Reader) : Nat :=
  r.scope.size + r.mode.size r.offset

/-- A text is a node only if it has bytes. -/
theorem total_addText (pieces : List Tree) (start stop : Nat) :
    total (addText pieces start stop) = total pieces + if start < stop then 1 else 0 := by
  rw [addText]
  split
  · rw [total_cons, size_text, Nat.add_comm]
  · rfl

/-- A part adds its own nodes to the scope. In brackets it takes the place of the group that was counted
with the opener, and so may add less. -/
theorem Scope.size_add_le (S : Scope) (part : Tree) : (S.add part).size ≤ S.size + part.size := by
  cases S with
  | document blocks => simp only [add, size, total_cons]; omega
  | braces => simp only [add, size, total_cons]; omega
  | brackets => simp only [add, size, Option.elim]; omega

/-- The node around a run is one more than its pieces. -/
theorem Scope.size_addRun_le (S : Scope) (pieces : List Tree) :
    (S.addRun pieces).size ≤ S.size + total pieces + 1 := by
  obtain ⟨run, hrun, hsize⟩ : ∃ run : Tree, S.addRun pieces = S.add run ∧ run.size = total pieces + 1 := by
    cases S with
    | brackets => exact ⟨_, rfl, by rw [size_group, total_reverse]⟩
    | _ => exact ⟨_, rfl, by rw [size_paragraph, total_reverse]⟩
  rw [hrun, Nat.add_assoc, ← hsize]
  exact S.size_add_le run

/-- Behind a command the reader has what it had in front of it, and the command. -/
theorem size_afterCall_le (n : Nat) (σ : List Bracket) (S : Scope) (place : Place) (command : Tree) :
    (afterCall n σ S place command).size ≤ S.size + place.size + command.size := by
  cases place with
  | alone => exact S.size_add_le command
  | within pieces =>
    simp only [afterCall, size, Mode.size, Place.size, total_cons, Nat.lt_irrefl, if_false]
    omega

/-- Behind an argument the call has its nodes too; the command of a call without a list is finished with
it. -/
theorem size_afterArgument_le (n : Nat) (σ : List Bracket) (S : Scope) (call : Call) (arg : Argument Tree) :
    (afterArgument n σ S call arg).size ≤ S.size + call.size + total arg.children := by
  rw [afterArgument]
  split
  · simp only [size, Mode.size, Call.size, List.flatMap_cons, total_append]
    omega
  · refine Nat.le_trans (size_afterCall_le ..) (Nat.le_of_eq ?_)
    rw [size_command, List.reverse_cons, List.flatMap_append, total_append, List.flatMap_singleton,
      total_flatMap_reverse, Call.size]
    omega

/-! ## One byte -/

/-- The reader has no more nodes than this, when it stands behind the byte. What a reader does with a byte
does not move its offset, so the offset is given. -/
def Fits (offset most : Nat) (taken : Except Cause Reader) : Prop :=
  ∀ next, taken = .ok next → ({ next with offset } : Reader).size ≤ most

section Fits

variable {offset most : Nat} {r : Reader} {b : UInt8}

theorem fits_ok {next : Reader} (h : ({ next with offset } : Reader).size ≤ most) :
    Fits offset most (.ok next) := by
  rintro _ ⟨⟩
  exact h

theorem fits_error (cause : Cause) : Fits offset most (.error cause) := by
  rintro _ ⟨⟩

/-- Brackets are not counted, so a crossing changes nothing. -/
theorem fits_cross {opened : List Bracket} {next : List Bracket → Reader}
    (h : ∀ opened, ({ next opened with offset } : Reader).size ≤ most) :
    Fits offset most (do let opened ← cross opened b; return next opened) := by
  cases cross opened b with
  | ok opened => exact fits_ok (h opened)
  | error cause => exact fits_error cause

theorem fits_ite {p : Prop} [Decidable p] {x y : Except Cause Reader} (hx : Fits offset most x)
    (hy : Fits offset most y) : Fits offset most (if p then x else y) := by
  split
  · exact hx
  · exact hy

/-- A call has been counted since its tilde, so finishing it costs nothing. -/
theorem fits_closeList (call : Call) :
    Fits (r.offset + 1) (r.scope.size + call.size) (r.closeList call b) := by
  refine fits_cross fun opened => ?_
  rw [finishCall_eq]
  refine Nat.le_trans (size_afterCall_le ..) ?_
  rw [size_command, total_flatMap_reverse, Call.size]
  omega

/-- A closer makes an argument of what has been counted already. -/
theorem fits_closeScope (r : Reader) : Fits (r.offset + 1) r.scope.size (r.closeScope b) := by
  rw [closeScope]
  split
  · exact fits_error _
  · next outer call start depth blocks hscope =>
    refine fits_ite (fits_cross fun opened => ?_) (fits_error _)
    rw [finishArgument_eq, hscope]
    refine Nat.le_trans (size_afterArgument_le ..) ?_
    simp only [Argument.children, total_reverse, Scope.size]
    omega
  · next outer call start depth content hscope =>
    refine fits_ite (fits_cross fun opened => ?_) (fits_error _)
    rw [finishArgument_eq, hscope]
    refine Nat.le_trans (size_afterArgument_le ..) ?_
    cases content with
    -- Without any content the group is the empty one, which the opener has paid for.
    | none => simp only [Argument.children, Option.getD_none, total_cons, total_nil, size_group, Scope.size,
        Option.elim]; omega
    | some tree => simp only [Argument.children, Option.getD_some, total_cons, total_nil, Scope.size,
        Option.elim]; omega

theorem Fits.mono {taken : Except Cause Reader} {more : Nat} (h : Fits offset most taken)
    (hle : most ≤ more) : Fits offset more taken :=
  fun next hnext => Nat.le_trans (h next hnext) hle

/-- A byte of a run. If the run ends, its paragraph is the node that this byte pays for; the text in it
was begun before, unless this is its first byte. -/
theorem fits_inText (pieces : List Tree) (start : Nat) (afterReturn : Bool) :
    Fits (r.offset + 1) (r.scope.size + total pieces + (if start < r.offset then 1 else 0) + 1)
      (r.inText pieces start afterReturn b) := by
  -- A run that ends costs the node around it, wherever its text stops.
  have hrun (stop : Nat) (hstop : stop ≤ r.offset) : (r.scope.addRun (addText pieces start stop)).size
      ≤ r.scope.size + total pieces + (if start < r.offset then 1 else 0) + 1 := by
    refine Nat.le_trans (r.scope.size_addRun_le _) ?_
    rw [total_addText]
    split <;> split <;> omega
  rw [inText]
  refine fits_ite (fits_ok ?_) (fits_ite (fits_ok ?_) (fits_ite ?_ (fits_cross fun opened => ?_)))
  -- A tilde: the node of the command, as the text in front of it is there already.
  · simp only [size, Mode.size, Place.size, total_addText]
    omega
  · exact hrun _ (by split <;> omega)
  · exact (fits_closeScope (r.endRun _)).mono (hrun r.offset (Nat.le_refl _))
  · simp only [size, Mode.size]
    split <;> split <;> omega

/-- Between parts a byte starts a command, or a text, or is a closer, or is skipped. -/
theorem fits_inReady (hmode : r.mode = .ready) : Fits (r.offset + 1) (r.scope.size + 1) (r.inReady b) := by
  have htext : Fits (r.offset + 1) (r.scope.size + 1) (r.inText [] r.offset false b) :=
    (fits_inText [] r.offset false).mono (by simp)
  have hname : Fits (r.offset + 1) (r.scope.size + 1)
      (.ok { r with mode := .name .alone (r.offset + 1) }) := fits_ok (Nat.le_refl _)
  have hclose : Fits (r.offset + 1) (r.scope.size + 1) (r.closeScope b) :=
    (fits_closeScope r).mono (Nat.le_succ _)
  rw [inReady]
  split
  · exact hclose
  · exact fits_ite hname htext
  · refine fits_ite (fits_ok ?_) (fits_ite hname (fits_ite hclose htext))
    rw [size, hmode]
    exact Nat.le_succ _

/-- The byte that starts the arguments pays for the group in square brackets. The other forms have nothing
to pay for yet. -/
theorem fits_inHead (place : Place) (name : Span) :
    Fits (r.offset + 1) (r.scope.size + place.size + 1 + 1) (r.inHead place name b) := by
  rw [inHead]
  refine fits_ite (fits_ok ?_) (fits_ite (fits_ok ?_) (fits_ite (fits_ok ?_) (fits_ite (fits_ok ?_)
    (fits_error _))))
  · simp only [size, Mode.size]
    omega
  · simp only [size, Mode.size, Call.size, List.flatMap_nil, total_nil]
    omega
  · simp only [size, openBrackets, Mode.size, Scope.size, Call.size, List.flatMap_nil, total_nil, Option.elim]
    omega
  · simp only [size, openBraces, Mode.size, Scope.size, Call.size, List.flatMap_nil, total_nil]
    omega

/-- In a list, a byte may open brackets and pay for their group. -/
theorem fits_inList (call : Call) :
    Fits (r.offset + 1) (r.scope.size + call.size + 1) (r.inList call b) := by
  rw [inList]
  refine fits_ite (fits_ok ?_) (fits_ite ((fits_closeList call).mono (Nat.le_succ _)) (fits_ite (fits_ok ?_)
    (fits_ite (fits_ok ?_) (fits_ite (fits_ok ?_) (fits_ite (fits_ok ?_) (fits_error _))))))
  · exact Nat.le_succ _
  · simp only [size, openBrackets, Mode.size, Scope.size, Option.elim]
    omega
  · simp only [size, openBraces, Mode.size, Scope.size, total_nil]
    omega
  · exact Nat.le_succ _
  · exact Nat.le_succ _

theorem fits_inNext (call : Call) :
    Fits (r.offset + 1) (r.scope.size + call.size + 1) (r.inNext call b) := by
  rw [inNext]
  refine fits_ite (fits_ok ?_) (fits_ite ((fits_closeList call).mono (Nat.le_succ _)) (fits_ite (fits_ok ?_)
    (fits_error _)))
  · exact Nat.le_succ _
  · exact Nat.le_succ _

/-- A byte pays for one node at most: by what the reader is at, a command, a group, a text or a
paragraph. -/
theorem fits_take (r : Reader) (b : UInt8) : Fits (r.offset + 1) (r.size + 1) (r.take b) := by
  obtain ⟨n, σ, S, m⟩ := r
  rw [take, size]
  cases m with
  | ready => exact fits_inReady rfl
  | text pieces start afterReturn =>
    exact (fits_inText pieces start afterReturn).mono (by simp only [Mode.size]; omega)
  | name place start =>
    exact fits_ite (fits_ok (Nat.le_succ _)) ((fits_inHead place _).mono (by simp only [Mode.size]; omega))
  | head place name => exact (fits_inHead place name).mono (by simp only [Mode.size]; omega)
  | list call fresh => exact fits_inList call
  | ident call start =>
    refine fits_ite (fits_ok (Nat.le_succ _)) ((fits_inNext _).mono (Nat.le_of_eq ?_))
    simp only [Mode.size, Call.size, List.flatMap_cons, Argument.children, List.nil_append]
  | string call start escaped =>
    refine fits_ite (fits_ok ?_) (fits_ok ?_)
    · rw [finishArgument_eq]
      exact Nat.le_trans (size_afterArgument_le ..) (Nat.le_succ _)
    · exact Nat.le_succ _
  | next call => exact fits_inNext call

end Fits

/-- A step takes one byte, so it adds one node at most. -/
theorem size_step_le {r next : Reader} {b : UInt8} (h : r.step b = .ok next) : next.size ≤ r.size + 1 := by
  rw [step] at h
  cases htake : r.take b with
  | ok taken =>
    rw [htake] at h
    cases h
    exact fits_take r b taken htake
  | error cause =>
    rw [htake] at h
    cases h

/-- A run has no more nodes than it has bytes, but for those that were there before. -/
theorem size_run_le {r last : Reader} {bytes : Bytes} (h : r.run bytes = .ok last) :
    last.size ≤ r.size + bytes.length := by
  induction bytes generalizing r with
  | nil =>
    cases h
    exact Nat.le_refl _
  | cons b rest ih =>
    rw [run_cons] at h
    cases hstep : r.step b with
    | error fault =>
      rw [hstep] at h
      cases h
    | ok next =>
      rw [hstep] at h
      have hnext := size_step_le hstep
      have hlast := ih h
      rw [List.length_cons]
      omega

/-- The end of the source makes two nodes that no byte pays for. -/
theorem size_finish_le {r : Reader} {tree : Tree} (h : r.finish = .ok tree) : tree.size ≤ r.size + 2 := by
  have hscope (S : Scope) (hS : finishScope S = .ok tree) : tree.size = S.size + 1 := by
    obtain ⟨blocks, rfl, rfl⟩ := finishScope_eq_ok hS
    rw [size_group, total_reverse, Scope.size]
  have h := ok_of_mapError h
  obtain ⟨n, σ, S, m⟩ := r
  cases m with
  -- Between blocks only the document is missing.
  | ready =>
    rw [hscope S h]
    exact Nat.le_succ _
  | text pieces start afterReturn =>
    -- In a run its paragraph is missing as well.
    have hrun := S.size_addRun_le (addText pieces start n)
    rw [total_addText] at hrun
    rw [hscope _ h]
    simp only [size, Mode.size]
    omega
  -- At any other place the source may not end.
  | _ => cases h

end Reader

/-- An arena has two nodes more than its source has bytes, at most. -/
theorem size_le_of_parse {source : Bytes} {arena : Arena} (h : parse source = .ok arena) :
    arena.nodes.size ≤ source.length + 2 := by
  cases htree : Tree.parse source with
  | error fault =>
    rw [parse, htree] at h
    cases h
  | ok tree =>
    rw [parse, htree] at h
    cases h
    rw [Tree.parse] at htree
    cases hrun : Reader.initial.run source with
    | error fault =>
      rw [hrun] at htree
      cases htree
    | ok last =>
      rw [hrun] at htree
      have hlast := Reader.size_run_le hrun
      have hfinish := Reader.size_finish_le (show last.finish = .ok tree from htree)
      have hinitial : Reader.initial.size = 0 := rfl
      rw [Tree.size_toArena]
      omega

/-! ## Short lines -/

/-- The byte of a short line. -/
def letterX : UInt8 := 0x78

namespace Reader

variable {n : Nat} {blocks : List Tree} {rest : Bytes}

/-- A letter between blocks starts a text. -/
theorem run_letterX : (Reader.mk n [] (.document blocks) .ready).run (letterX :: rest)
    = (Reader.mk (n + 1) [] (.document blocks) (.text [] n false)).run rest :=
  run_cons_of_take ⟨n, [], .document blocks, .text [] n false⟩ rfl rest

/-- A short line makes a paragraph with a text in it, which are two nodes for two bytes. -/
theorem run_shortLine : (Reader.mk n [] (.document blocks) .ready).run (letterX :: lineFeed :: rest)
    = (Reader.mk (n + 2) [] (.document (.node (.paragraph [.node (.text ⟨n, n + 1⟩)]) :: blocks))
        .ready).run rest := by
  rw [run_letterX, run_text_lineFeed, if_neg Bool.false_ne_true, addText, if_pos (Nat.lt_succ_self n)]
  rfl

end Reader

/-- As many short lines as wanted, and one more without an end. -/
def shortLines (count : Nat) : Bytes :=
  (List.replicate count [letterX, lineFeed]).flatten ++ [letterX]

theorem length_shortLines (count : Nat) : (shortLines count).length = 2 * count + 1 := by
  simp [shortLines, Nat.mul_comm]

theorem run_shortLines (count n : Nat) (blocks : List Tree) : ∃ last tree,
    (Reader.mk n [] (.document blocks) .ready).run (shortLines count) = .ok last
      ∧ last.finish = .ok tree ∧ tree.size = Tree.total blocks + (shortLines count).length + 2 := by
  -- By induction on the lines that are left, over whatever blocks there are so far.
  induction count generalizing n blocks with
  | zero =>
    refine ⟨_, _, Reader.run_letterX, rfl, ?_⟩
    simp only [Reader.addText, Nat.lt_succ_self, if_true, Tree.size_group, Tree.total_reverse,
      Tree.total_cons, Tree.size_paragraph, Tree.size_text, Tree.total_nil, length_shortLines]
    omega
  | succ count ih =>
    obtain ⟨last, tree, hrun, hfinish, hsize⟩ :=
      ih (n + 2) (.node (.paragraph [.node (.text ⟨n, n + 1⟩)]) :: blocks)
    refine ⟨last, tree, ?_, hfinish, ?_⟩
    · exact Reader.run_shortLine.trans hrun
    · rw [hsize, length_shortLines, length_shortLines]
      simp only [Tree.total_cons, Tree.size_paragraph, Tree.size_text, Tree.total_nil]
      omega

/-- The arena of short lines has two nodes more than there are bytes. -/
theorem parse_shortLines (count : Nat) :
    ∃ arena, parse (shortLines count) = .ok arena
      ∧ arena.nodes.size = (shortLines count).length + 2 := by
  obtain ⟨last, tree, hrun, hfinish, hsize⟩ := run_shortLines count 0 []
  have htree : Tree.parse (shortLines count) = .ok tree := by
    rw [Tree.parse, show Reader.initial.run (shortLines count) = .ok last from hrun]
    exact hfinish
  refine ⟨tree.toArena, by rw [parse, htree]; rfl, ?_⟩
  rw [Tree.size_toArena, hsize, Tree.total_nil, Nat.zero_add]

end TildeMarkup
