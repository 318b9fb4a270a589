import TildeMarkup.Html.Render
import TildeMarkup.Proofs.Document.Shift

/-!
# Rendering over another source

Rendering reads nothing of a source but the bytes under the spans of the tree. Over another source, in
which the same bytes stand under other spans, a document is rendered as it is over its own
(`renderTree_respan`). So it is inside of a longer source, once its spans are moved to where it stands
there (`renderTree_shift`), and one document after another is rendered one after another
(`renderTree_append`).
-/

namespace TildeMarkup

/-! ## Spans inside a source -/

namespace Span

/-- The span ends inside a source of `n` bytes. -/
theorem slice_shift (span : Span) {before source after : Bytes} (h : span.stop ≤ source.length) :
    (span.shift before.length).slice (before ++ (source ++ after)) = span.slice source := by
  rw [slice_shift_append, slice, slice]
  rcases Nat.lt_or_ge span.start span.stop with hlt | hge
  · rw [List.drop_append_of_le_length (by omega), List.take_append_of_le_length]
    rw [List.length_drop]
    omega
  · rw [Nat.sub_eq_zero_of_le hge, List.take_zero, List.take_zero]

/-- Between the quotes of a string the same bytes are read. -/
theorem contents_shift (span : Span) {before source after : Bytes} (hpos : 0 < span.stop)
    (h : span.stop ≤ source.length) :
    (span.shift before.length).contents (before ++ (source ++ after)) = span.contents source := by
  obtain ⟨start, stop⟩ := span
  simp only at hpos h
  have hinner : (⟨start + before.length + 1, stop + before.length - 1⟩ : Span)
      = (⟨start + 1, stop - 1⟩ : Span).shift before.length := by
    show _ = Span.mk (start + 1 + before.length) (stop - 1 + before.length)
    rw [Span.mk.injEq]
    omega
  show slice ⟨start + before.length + 1,
      if stop + before.length = 0 then _ else stop + before.length - 1⟩ _
    = slice ⟨start + 1, if stop = 0 then _ else stop - 1⟩ _
  -- The string has a last quote, so its end is not the start of the source.
  rw [if_neg (by omega), if_neg (by omega), hinner]
  exact slice_shift _ (Nat.le_trans (Nat.sub_le stop 1) h)

end Span

/-- The spans of the layer that are read stay inside a source of `n` bytes. A string has quotes
around it. -/
def Node.Within {α : Type} (n : Nat) : Node α → Prop
  | .text span => span.stop ≤ n
  | .command name args =>
    name.stop ≤ n ∧ ∀ arg ∈ args, arg.kind = .string → 0 < arg.span.stop ∧ arg.span.stop ≤ n
  | _ => True

/-- Under the spans of the layer one source has the bytes that the other has under the new spans. -/
def Node.Alike {α : Type} (f : Span → Span) (source other : Bytes) : Node α → Prop
  | .text span => (f span).slice other = span.slice source
  | .command name args =>
    (f name).slice other = name.slice source
      ∧ ∀ arg ∈ args, arg.kind = .string → (f arg.span).contents other = arg.span.contents source
  | _ => True

section Alike

variable {α : Type} {f : Span → Span} {source other : Bytes}

theorem Node.alike_shape {layer : Node α} :
    layer.shape.Alike f source other ↔ layer.Alike f source other := by
  cases layer with
  | command name args =>
    simp only [shape, map, Alike, List.mem_map, forall_exists_index, and_imp,
      forall_apply_eq_imp_iff₂, Argument.kind_map, Argument.span_map]
  | _ => exact Iff.rfl

/-- Inside a longer source the same bytes are read. -/
theorem Node.Within.alike {layer : Node α} (h : layer.Within source.length) (before after : Bytes) :
    layer.Alike (fun span => span.shift before.length) source (before ++ (source ++ after)) := by
  cases layer with
  | text span => exact span.slice_shift h
  | command name args =>
    refine ⟨name.slice_shift h.1, fun arg harg hkind => ?_⟩
    obtain ⟨hpos, hstop⟩ := h.2 arg harg hkind
    exact arg.span.contents_shift hpos hstop
  | _ => trivial

end Alike

namespace Html

variable {f : Span → Span} {source other : Bytes}

section Layer

variable {α : Type} {name : Span} {args : List (Argument α)}

/-- A name is read from the bytes under it. -/
theorem commandName_respan (h : (f name).slice other = name.slice source) :
    commandName other (f name) = commandName source name := by
  rw [commandName, commandName, h]

/-- A string is read from the bytes between its quotes. -/
theorem stringText_respan {span : Span} (h : (f span).contents other = span.contents source) :
    stringText other (f span) = stringText source span := by
  rw [stringText, stringText, h]

theorem checkName_respan (h : (f name).slice other = name.slice source) :
    checkName other (f name) = (checkName source name).mapError (Failure.respan f) := by
  rw [checkName, checkName, h]
  split <;> rfl

/-- Kinds are checked without reading anything. A fault is shown at the new span. -/
theorem checkKinds_respan (f : Span → Span) (params : List Parameter) (args : List (Argument α)) :
    checkKinds params (args.map (Argument.respan f))
      = (checkKinds params args).mapError (Fault.respan f) := by
  induction args generalizing params with
  | nil => cases params <;> rfl
  | cons arg rest ih =>
    cases params with
    | nil => rfl
    | cons param params =>
      rw [List.map_cons, checkKinds, checkKinds, Argument.kind_respan, ih]
      split
      · rfl
      · rw [Argument.span_respan]
        rfl

theorem checkArguments_respan (f : Span → Span) (builtin : Builtin) :
    checkArguments builtin (f name) (args.map (Argument.respan f))
      = (checkArguments builtin name args).mapError (Fault.respan f) := by
  rw [checkArguments, checkArguments, List.length_map, checkKinds_respan]
  split <;> rfl

/-- Only a listing that starts with a string has a file to check. -/
theorem checkLanguage_eq_ok {builtin : Builtin}
    (h : builtin.form = .listing → ∀ file rest, args ≠ .string file :: rest) :
    checkLanguage source builtin args = .ok () := by
  unfold checkLanguage
  split
  · next file rest hform => exact absurd rfl (h hform file rest)
  · rfl

/-- The language of a listing is that of its file, which is its first string. -/
theorem checkLanguage_string {builtin : Builtin} (hform : builtin.form = .listing) (file : Span)
    (rest : List (Argument α)) :
    checkLanguage source builtin (.string file :: rest)
      = if (Listing.language? (stringText source file)).isSome then .ok ()
        else .error ⟨.unknownLanguage
          ((Listing.extension? (stringText source file)).getD ""), file⟩ := by
  unfold checkLanguage
  rw [hform]

theorem checkLanguage_respan (builtin : Builtin)
    (h : ∀ file rest, args = .string file :: rest →
      (f file).contents other = file.contents source) :
    checkLanguage other builtin (args.map (Argument.respan f))
      = (checkLanguage source builtin args).mapError (Fault.respan f) := by
  -- A file is read only from a listing that starts with a string; otherwise both sides accept.
  by_cases hform : builtin.form = .listing ∧ ∃ file rest, args = .string file :: rest
  · obtain ⟨hlisting, file, rest, rfl⟩ := hform
    rw [List.map_cons, Argument.respan, checkLanguage_string hlisting,
      checkLanguage_string hlisting, stringText_respan (h file rest rfl)]
    split <;> rfl
  · rw [checkLanguage_eq_ok, checkLanguage_eq_ok]
    · rfl
    · rintro hlisting file rest rfl
      exact hform ⟨hlisting, file, rest, rfl⟩
    · rintro hlisting file rest hargs
      obtain ⟨arg, more, rfl, harg, _⟩ := List.map_eq_cons_iff.1 hargs
      cases arg with
      | string span => exact hform ⟨hlisting, span, more, rfl⟩
      | _ => cases harg

/-- A command is checked by its name, its kinds and its file, of which two are read. -/
theorem checkCommand_respan (hname : (f name).slice other = name.slice source)
    (h : ∀ file rest, args = .string file :: rest →
      (f file).contents other = file.contents source) :
    checkCommand other (f name) (args.map (Argument.respan f))
      = (checkCommand source name args).mapError (Fault.respan f) := by
  rw [checkCommand, checkCommand, commandName_respan hname]
  cases Builtin.find? (commandName source name) with
  | none => rfl
  | some builtin =>
    dsimp only
    rw [checkArguments_respan, checkLanguage_respan builtin h]
    cases checkArguments builtin name args <;> rfl

end Layer

/-! ## Layers and trees -/

/-- Of the strings only the file of a listing is checked. -/
theorem checkNode_command_respan {name : Span} {args : List (Argument Unit)}
    (hname : (f name).slice other = name.slice source)
    (h : ∀ file rest, args = .string file :: rest →
      (f file).contents other = file.contents source) :
    checkNode other ((Node.command name args).respan f)
      = (checkNode source (.command name args)).mapError (Failure.respan f) := by
  show (do checkName _ _; (checkCommand _ _ _).mapError Failure.fault) = _
  rw [checkName_respan hname, checkCommand_respan hname h, checkNode]
  cases checkName source name with
  | error failure => rfl
  | ok _ => cases checkCommand source name args <;> rfl

/-- Every layer that reads the same bytes passes the same check. -/
theorem checkNode_respan {layer : Node Unit} (h : layer.Alike f source other) :
    checkNode other (layer.respan f)
      = (checkNode source layer).mapError (Failure.respan f) := by
  cases layer with
  | command name args =>
    obtain ⟨hname, hargs⟩ := h
    refine checkNode_command_respan hname ?_
    rintro file rest rfl
    exact hargs (.string file) List.mem_cons_self rfl
  | _ => rfl

/-- A listing is the same where its file is, and the lines of its text are. -/
theorem renderCall_listing_respan {builtin : Builtin} (hform : builtin.form = .listing)
    {args : List (Argument Bytes)}
    (h : ∀ file text, args = [.string file, .string text] →
      (f file).contents other = file.contents source
        ∧ Text.lines (escape (stringText other (f text)))
          = Text.lines (escape (stringText source text))) :
    renderCall other builtin (args.map (Argument.respan f)) = renderCall source builtin args := by
  obtain ⟨name, tag, params, form⟩ := builtin
  cases hform
  rcases args with _ | ⟨a, _ | ⟨b, _ | ⟨c, more⟩⟩⟩
  · rfl
  · cases a <;> rfl
  · cases a with
    | string file =>
      cases b with
      | string text =>
        obtain ⟨hfile, htext⟩ := h file text rfl
        show listing tag ((Listing.language? (stringText _ (f file))).getD "")
          (stringText _ (f file)) (stringText _ (f text)) = _
        rw [stringText_respan hfile, listing, htext]
        rfl
      | _ => rfl
    | _ => rfl
  · cases a <;> cases b <;> rfl

/-- A call is rendered from its strings and from what its children have been rendered to. -/
theorem renderCall_respan (builtin : Builtin) {args : List (Argument Bytes)}
    (h : ∀ arg ∈ args, arg.kind = .string →
      (f arg.span).contents other = arg.span.contents source) :
    renderCall other builtin (args.map (Argument.respan f)) = renderCall source builtin args := by
  have hstring {span : Span} (hspan : .string span ∈ args) :
      (f span).contents other = span.contents source :=
    h (.string span) hspan rfl
  by_cases hlisting : builtin.form = .listing
  · refine renderCall_listing_respan hlisting ?_
    rintro file text rfl
    have htext := hstring (List.mem_cons_of_mem _ List.mem_cons_self)
    exact ⟨hstring List.mem_cons_self, by rw [stringText_respan htext]⟩
  obtain ⟨name, tag, params, form⟩ := builtin
  -- a form takes one argument or two; with any other number there is nothing to read
  rcases args with _ | ⟨a, _ | ⟨b, _ | ⟨c, more⟩⟩⟩
  · cases form <;> rfl
  · cases form with
    | enclosed =>
      show element tag (a.respan f).children.flatten = element tag a.children.flatten
      rw [Argument.children_respan]
    | code =>
      cases a with
      | string span =>
        show element tag (Utf8.encode (escape (stringText _ (f span)))) = _
        rw [stringText_respan (hstring (List.mem_cons_self ..))]
        rfl
      | _ => rfl
    | link => cases a <;> rfl
    | listing => exact absurd rfl hlisting
  · cases form with
    | link =>
      cases a with
      | inline content span =>
        cases b with
        | string href =>
          have hhref := hstring (List.mem_cons_of_mem _ (List.mem_cons_self ..))
          show _ ++ ((f href).contents _ ++ _) = _ ++ (href.contents source ++ _)
          rw [hhref]
        | _ => rfl
      | _ => rfl
    | listing => exact absurd rfl hlisting
    | _ => cases a <;> rfl
  · cases form <;> cases a <;> cases b <;> rfl

/-- So is a layer, and the bytes of a text are put out as they are. -/
theorem renderNode_respan {layer : Node Bytes} (h : layer.Alike f source other) :
    renderNode other (layer.respan f) = renderNode source layer := by
  cases layer with
  | text span => exact h
  | command name args =>
    obtain ⟨hname, hargs⟩ := h
    rw [Node.respan, renderNode, renderNode, commandName_respan hname]
    cases Builtin.find? (commandName source name) with
    | none => rfl
    | some builtin => exact renderCall_respan builtin hargs
  | _ => rfl

/-- A layer that reads the same bytes is visited alike. What is read are its spans, which are those of
its shape both before and after its children have been rendered. -/
theorem agrees_of_alike {layer : Node Tree} (h : layer.Alike f source other) :
    (visit source).Agrees (visit other) f layer where
  check := checkNode_respan (Node.alike_shape.2 h)
  join done hdone := by
    have halike := Node.alike_shape.2 h
    rw [← hdone] at halike
    exact renderNode_respan (Node.alike_shape.1 halike)

/-- A document is rendered over another source as over its own, if the same bytes are read there. -/
theorem renderTree_respan {tree : Tree} (h : ∀ layer, tree.Has layer → layer.Alike f source other) :
    renderTree other (tree.respan f)
      = (renderTree source tree).mapError (Failure.respan f) :=
  Tree.walk_respan tree fun layer hlayer => agrees_of_alike (h layer hlayer)

/-- A document inside a longer source is rendered as it is by itself. -/
theorem renderTree_shift (before after : Bytes) {tree : Tree}
    (h : ∀ layer, tree.Has layer → layer.Within source.length) :
    renderTree (before ++ (source ++ after)) (tree.shift before.length)
      = (renderTree source tree).mapError (Failure.shift before.length) := by
  rw [Tree.shift_eq_respan, Failure.shift_eq_respan]
  exact renderTree_respan fun layer hlayer => (h layer hlayer).alike before after

/-- A group is rendered as what it holds, one after the other. -/
theorem renderTree_group (source : Bytes) (children : List Tree) :
    renderTree source (.node (.group children))
      = (children.mapM (renderTree source)).map List.flatten := by
  have hwalk : renderTree source = Tree.walk (visit source) := rfl
  rw [hwalk, Tree.walk_node, Node.mapM]
  cases children.mapM (Tree.walk (visit source)) <;> rfl

theorem renderTree_singleton (source : Bytes) (tree : Tree) :
    renderTree source (.node (.group [tree])) = renderTree source tree := by
  rw [renderTree_group, List.mapM_cons, List.mapM_nil]
  cases renderTree source tree with
  | error failure => rfl
  | ok html => exact congrArg Except.ok (List.append_nil html)

/-- A paragraph is an element around a group. -/
theorem renderTree_paragraph (source : Bytes) (children : List Tree) :
    renderTree source (.node (.paragraph children))
      = (renderTree source (.node (.group children))).map (element "p") := by
  have hwalk : renderTree source = Tree.walk (visit source) := rfl
  rw [renderTree_group, hwalk, Tree.walk_node, Node.mapM]
  cases children.mapM (Tree.walk (visit source)) <;> rfl

theorem renderTree_text (source : Bytes) (span : Span) :
    renderTree source (.node (.text span)) = .ok (span.slice source) :=
  rfl

/-- One document after another is rendered one after another. -/
theorem renderTree_append (source : Bytes) (front back : List Tree) :
    renderTree source (.node (.group (front ++ back))) = do
      let html ← renderTree source (.node (.group front))
      let more ← renderTree source (.node (.group back))
      return html ++ more := by
  rw [renderTree_group, renderTree_group, renderTree_group, List.mapM_append]
  cases front.mapM (renderTree source) with
  | error failure => rfl
  | ok done =>
    cases back.mapM (renderTree source) with
    | error failure => rfl
    | ok more => exact congrArg Except.ok (List.flatten_append ..)

end Html

end TildeMarkup
