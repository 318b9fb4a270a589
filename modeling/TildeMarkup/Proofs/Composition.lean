import TildeMarkup.Compile
import TildeMarkup.Proofs.Html.Local
import TildeMarkup.Proofs.Reader.Ground
import TildeMarkup.Proofs.Spelling.Holds

/-!
# Documents one after another

Two documents with a line feed between them are compiled one after the other (`compile_append`). The
brackets that the prose of the first leaves open stay open below the second, and no rule looks at
them; only a fault of the second may name them.
-/

namespace TildeMarkup

open Reader Spelling

/-! ## The line feed between two documents -/

/-- A reader that remembers a carriage return has just taken it. -/
theorem getLast?_of_afterReturn {source : Bytes} {r : Reader} {pieces : List Tree} {start : Nat}
    (hrun : initial.run source = .ok r) (hmode : r.mode = .text pieces start true) :
    source.getLast? = some carriageReturn := by
  have hspells := spells_run spells_initial rfl hrun
  obtain ⟨n, σ, S, m⟩ := r
  -- Only text remembers a carriage return, and it spells that as its last byte.
  cases hspells with
  | @text _ _ _ _ w pieces bytes _ _ _ _ _ =>
    injection hmode with _ _ hreturn
    obtain ⟨front, rfl⟩ := endsInReturn_eq_true hreturn
    show (w ++ Part.bytesAll (pieces ++ pending (front ++ [carriageReturn]))).getLast? = _
    rw [bytesAll_pending, ← List.append_assoc, ← List.append_assoc, List.getLast?_concat]
  | _ => cases hmode

/-- After a document and a line feed a reader is where it started, over the ground of the document. A
carriage return at the end of the document would become a part of the line end. -/
theorem step_lineFeed {source : Bytes} {r : Reader} {tree : Tree}
    (hrun : initial.run source = .ok r) (hfinish : r.finish = .ok tree)
    (hreturn : source.getLast? ≠ some carriageReturn) :
    ∃ blocks, tree = .node (.group blocks.reverse)
      ∧ r.step lineFeed = .ok (initial.over ⟨source.length + 1, r.opened, blocks⟩) := by
  have hkept (pieces : List Tree) (start : Nat) : r.mode ≠ .text pieces start true :=
    fun hmode => hreturn (getLast?_of_afterReturn hrun hmode)
  obtain ⟨n, σ, S, m⟩ := r
  have hoffset : n = 0 + source.length := offset_of_run hrun
  have hn : n + 1 = 0 + (source.length + 1) := by omega
  -- the line feed is a blank between blocks, or it ends the paragraph
  have hready {blocks : List Tree} (htake : (Reader.mk n σ S m).take lineFeed
      = .ok ⟨n, σ, .document blocks, .ready⟩) :
      (Reader.mk n σ S m).step lineFeed
        = .ok (initial.over ⟨source.length + 1, σ, blocks⟩) := by
    rw [step, htake]
    show Except.ok (Reader.mk (n + 1) σ (.document blocks) .ready) = _
    rw [hn]
    rfl
  cases m with
  | ready =>
    obtain ⟨blocks, rfl, rfl⟩ := finishScope_eq_ok (ok_of_mapError hfinish)
    exact ⟨blocks, rfl, hready rfl⟩
  | text pieces start afterReturn =>
    have hafter : afterReturn = false := by
      cases afterReturn with
      | false => rfl
      | true => exact absurd rfl (hkept pieces start)
    obtain ⟨blocks, hscope, rfl⟩ := finishScope_eq_ok (ok_of_mapError hfinish)
    refine ⟨blocks, rfl, hready ?_⟩
    rw [hafter, ← hscope]
    rfl
  | _ => cases hfinish

/-! ## Two documents -/

/-- What the second of two documents is read over: the blocks of the first, and the brackets that its
prose has left open. -/
theorem parse_append {first : Bytes} {r : Reader} {tree : Tree}
    (hrun : initial.run first = .ok r) (hfinish : r.finish = .ok tree)
    (hreturn : first.getLast? ≠ some carriageReturn) (second : Bytes) :
    ∃ blocks, tree = .node (.group blocks.reverse)
      ∧ Mirrors (r.opened = []) (Ground.extend ⟨first.length + 1, r.opened, blocks⟩)
        (Fault.shift (first.length + 1)) (Tree.parse second)
        (Tree.parse (first ++ lineFeed :: second)) := by
  obtain ⟨blocks, htree, hstep⟩ := step_lineFeed hrun hfinish hreturn
  refine ⟨blocks, htree, ?_⟩
  -- The run goes through the first document and the line feed, up to the reader over the ground.
  have hparse : Tree.parse (first ++ lineFeed :: second)
      = ((initial.over ⟨first.length + 1, r.opened, blocks⟩).run second).bind Reader.finish := by
    show (initial.run (first ++ lineFeed :: second)).bind Reader.finish = _
    rw [run_append, hrun]
    show (r.run (lineFeed :: second)).bind Reader.finish = _
    rw [run_cons, hstep]
    rfl
  rw [hparse]
  exact parse_over _ second

/-- A source is compiled by rendering its tree. -/
theorem compile_eq (source : Bytes) :
    compile source
      = ((Tree.parse source).mapError Failure.fault).bind (Html.renderTree source) := by
  rw [compile, parse]
  cases Tree.parse source with
  | error fault => rfl
  | ok tree => exact Arena.walk_toArena (Html.visit source) tree

/-- The layers of a parsed tree read inside of the source. -/
theorem within_of_parse {source : Bytes} {tree : Tree} (h : Tree.parse source = .ok tree)
    (layer : Node Tree) (hlayer : tree.Has layer) : layer.Within source.length := by
  obtain ⟨parts, opened, hparts, rfl, rfl⟩ := parse_eq_ok_iff.1 h
  -- A layer of the tree is one that the spelling holds, so it lies where its bytes do.
  cases layer with
  | group => trivial
  | paragraph => trivial
  | text span =>
    obtain ⟨m, bytes, hholds, rfl⟩ := holds_text hlayer
    exact hholds.located.le
  | command name args =>
    obtain ⟨m, letters, gap, listed, spelled, hholds, rfl, rfl⟩ := holds_command hlayer
    have hcall := hholds.located
    rw [Part.bytes] at hcall
    refine ⟨hcall.tail.left.le, fun arg harg hkind => ?_⟩
    obtain ⟨front, found, back, rfl, hfound⟩ := Arg.exists_of_mem_argumentsAll harg
    have hle := (at_arg hholds.located).le
    cases found with
    | string raw =>
      cases List.mem_singleton.1 hfound
      rw [Arg.length_bytes_string] at hle
      exact ⟨Nat.succ_pos _, hle⟩
    | ident => cases List.mem_singleton.1 hfound; cases hkind
    | block => cases List.mem_singleton.1 hfound; cases hkind
    | inline =>
      obtain ⟨_, _, rfl⟩ := List.mem_map.1 hfound
      cases hkind
    | _ => cases hfound

/-- A parsed tree is a group of blocks. -/
theorem exists_group_of_parse {source : Bytes} {tree : Tree} (h : Tree.parse source = .ok tree) :
    ∃ children, tree = .node (.group children) := by
  obtain ⟨parts, opened, _, _, rfl⟩ := parse_eq_ok_iff.1 h
  exact ⟨_, rfl⟩

/-- The blocks of both documents are rendered one after another. -/
theorem renderTree_extend {first second html : Bytes} {blocks : List Tree} {tree : Tree}
    {opened : List Bracket} (hfirst : Tree.parse first = .ok (.node (.group blocks.reverse)))
    (hhtml : Html.renderTree first (.node (.group blocks.reverse)) = .ok html)
    (hsecond : Tree.parse second = .ok tree) :
    Html.renderTree (first ++ lineFeed :: second)
        (Ground.extend ⟨first.length + 1, opened, blocks⟩ tree)
      = ((Html.renderTree second tree).mapError (Failure.shift (first.length + 1))).map
        (html ++ ·) := by
  obtain ⟨children, rfl⟩ := exists_group_of_parse hsecond
  -- The first document is rendered with more behind it, the second with more in front: either is as
  -- by itself.
  have hfront : Html.renderTree (first ++ lineFeed :: second) (.node (.group blocks.reverse))
      = .ok html := by
    have hlocal := Html.renderTree_shift [] (lineFeed :: second) (within_of_parse hfirst)
    rw [hhtml] at hlocal
    rw [← Tree.shift_zero (.node (.group blocks.reverse))]
    exact hlocal
  have hback : Html.renderTree (first ++ lineFeed :: second)
        (.node (.group (children.map (Tree.shift (first.length + 1)))))
      = (Html.renderTree second (.node (.group children))).mapError
        (Failure.shift (first.length + 1)) := by
    have hlocal := Html.renderTree_shift (first ++ [lineFeed]) [] (within_of_parse hsecond)
    rw [List.append_nil, List.append_assoc, List.length_append, List.length_singleton,
      Tree.shift_node] at hlocal
    exact hlocal
  show Html.renderTree _ (.node (.group (blocks.reverse ++ children.map _))) = _
  rw [Html.renderTree_append, hfront, hback]
  cases Html.renderTree second (.node (.group children)) <;> rfl

/-- The steps of a compilation that gives HTML: the run of the reader, the tree at its end, and the
rendering of that. -/
theorem exists_of_compile {source html : Bytes} (h : compile source = .ok html) :
    ∃ r tree, initial.run source = .ok r ∧ r.finish = .ok tree ∧ Tree.parse source = .ok tree
      ∧ Html.renderTree source tree = .ok html := by
  rw [compile_eq] at h
  cases hparse : Tree.parse source with
  | error fault =>
    rw [hparse] at h
    cases h
  | ok tree =>
    rw [hparse] at h
    have hfinish : (initial.run source).bind Reader.finish = .ok tree := hparse
    cases hrun : initial.run source with
    | error fault =>
      rw [hrun] at hfinish
      cases hfinish
    | ok r =>
      rw [hrun] at hfinish
      exact ⟨r, tree, rfl, hfinish, rfl, h⟩

/-- Two documents, the first of which compiles and does not end in a carriage return, compile one
after the other. If the first leaves no bracket open, the failure of the second is that of both,
shifted to where the second stands. -/
theorem compile_append {first second html : Bytes} (hfirst : compile first = .ok html)
    (hreturn : first.getLast? ≠ some carriageReturn) :
    (∀ more, compile second = .ok more →
      compile (first ++ lineFeed :: second) = .ok (html ++ more))
    ∧ (∀ r failure, initial.run first = .ok r → r.opened = [] → compile second = .error failure →
      compile (first ++ lineFeed :: second) = .error (failure.shift (first.length + 1))) := by
  obtain ⟨r, tree, hrun, hfinish, hparse, hhtml⟩ := exists_of_compile hfirst
  obtain ⟨blocks, rfl, hsecond⟩ := parse_append hrun hfinish hreturn second
  constructor
  · intro more hmore
    obtain ⟨_, tree, _, _, htree, hrender⟩ := exists_of_compile hmore
    rw [htree] at hsecond
    have hwhole : Tree.parse (first ++ lineFeed :: second) = .ok (Ground.extend _ tree) := hsecond
    rw [compile_eq, hwhole]
    show Html.renderTree _ _ = _
    rw [renderTree_extend hparse hhtml htree, hrender]
    rfl
  · intro last failure hlast hopened hfailure
    have hr : r = last := Except.ok.inj (hrun.symm.trans hlast)
    rw [← hr] at hopened
    rw [compile_eq] at hfailure ⊢
    -- The second fails as it is read, which needs the ground closed, or only as it is rendered.
    cases htree : Tree.parse second with
    | error fault =>
      rw [htree] at hsecond hfailure
      have hwhole : Tree.parse (first ++ lineFeed :: second)
          = .error (fault.shift (first.length + 1)) := hsecond hopened
      cases hfailure
      rw [hwhole]
      rfl
    | ok tree =>
      rw [htree] at hsecond hfailure
      have hwhole : Tree.parse (first ++ lineFeed :: second) = .ok (Ground.extend _ tree) :=
        hsecond
      have hrender : Html.renderTree second tree = .error failure := hfailure
      rw [hwhole]
      show Html.renderTree _ _ = _
      rw [renderTree_extend hparse hhtml htree, hrender]
      rfl

/-- The prose `(a` leaves a bracket open, and `~b[c]` compiles after it; after `a`, which leaves none,
the closer `)` is refused as it is by itself. -/
theorem compile_append_sample :
    (∃ html more, compile [0x28, 0x61] = .ok html ∧ [0x28, 0x61].getLast? ≠ some carriageReturn
      ∧ compile [tilde, 0x62, 0x5b, 0x63, 0x5d] = .ok more
      ∧ compile [0x28, 0x61, lineFeed, tilde, 0x62, 0x5b, 0x63, 0x5d] = .ok (html ++ more))
    ∧ ∃ r failure, initial.run [0x61] = .ok r ∧ r.opened = [] ∧ compile [0x29] = .error failure
      ∧ compile [0x61, lineFeed, 0x29] = .error (failure.shift 2) := by
  obtain ⟨html, hprose⟩ : ∃ html, compile [0x28, 0x61] = .ok html := ⟨_, rfl⟩
  obtain ⟨more, hcommand⟩ : ∃ more, compile [tilde, 0x62, 0x5b, 0x63, 0x5d] = .ok more := ⟨_, rfl⟩
  obtain ⟨text, htext⟩ : ∃ text, compile [0x61] = .ok text := ⟨_, rfl⟩
  obtain ⟨r, hrun, hopened⟩ : ∃ r, initial.run [0x61] = .ok r ∧ r.opened = [] := ⟨_, rfl, rfl⟩
  obtain ⟨failure, hcloser⟩ : ∃ failure, compile [0x29] = .error failure := ⟨_, rfl⟩
  constructor
  · exact ⟨html, more, hprose, by decide, hcommand,
      (compile_append hprose (by decide)).1 more hcommand⟩
  · exact ⟨r, failure, hrun, hopened, hcloser,
      (compile_append htext (by decide)).2 r failure hrun hopened hcloser⟩

end TildeMarkup
