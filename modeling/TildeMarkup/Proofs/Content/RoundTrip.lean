import TildeMarkup.Proofs.Content.Basic
import TildeMarkup.Proofs.Document.Numbering
import TildeMarkup.Proofs.Source
import TildeMarkup.Proofs.Spelling.Accepted

/-!
# Parsing undoes printing

A printed document is read back as itself, whatever its layout: it is parsed without a fault, and the
content of its arena is the document (`parse_print`).

A content has a spelling (`Content.spell`), whose source is what is printed. `PartOf` and `ArgOf`
say that a spelling is that of a content: it fits the grammar, leaves no bracket open, and its
nodes read back as the content wherever it stands in a source. There is one lemma for each kind of
node, and the theorem along the structure of a content puts them together.
-/

namespace TildeMarkup

open Spelling

/-! ## Spellings of contents -/

/-- The line end of a block: only a paragraph has one, and it takes the first blank behind it. -/
def Layout.ending (layout : Layout) (depth : Nat) (block : Content) (rest : List Content) :
    Ending :=
  match block with
  | .paragraph _ => if layout.behind depth block rest = [] then .none else .lineFeed
  | _ => .none

/-- The blanks behind a block that are not its line end. -/
def Layout.blanks (layout : Layout) (depth : Nat) (block : Content) (rest : List Content) : Bytes :=
  (layout.behind depth block rest).drop (layout.ending depth block rest).bytes.length

mutual

/-- The part that spells a content as it is printed, with its line end when it is a paragraph. -/
def Content.spell (layout : Layout) (depth : Nat) (ending : Ending) : Content → Part
  | .group children => .run true (Content.spellAll layout depth children) .none
  | .paragraph children => .run false (Content.spellAll layout depth children) ending
  | .text bytes => .text bytes
  | .command name args => .call name [] true (ContentArg.spellFirst layout depth args)

def Content.spellAll (layout : Layout) (depth : Nat) : List Content → List Part
  | [] => []
  | child :: rest => child.spell layout depth .none :: Content.spellAll layout depth rest

def Content.spellBlocks (layout : Layout) (depth : Nat) : List Content → List Part
  | [] => []
  | child :: rest =>
    child.spell layout depth (layout.ending depth child rest)
      :: ((layout.blanks depth child rest).map Part.blank ++ Content.spellBlocks layout depth rest)

def ContentArg.spell (layout : Layout) (depth : Nat) : ContentArg → Arg
  | .block children =>
    .block ((layout.front (depth + 1)).map Part.blank
      ++ Content.spellBlocks layout (depth + 1) children)
  | .inline child => .inline (child.spell layout depth .none)
  | .ident letters => .ident letters
  | .string raw => .string raw

def ContentArg.spellFirst (layout : Layout) (depth : Nat) : List ContentArg → List Arg
  | [] => []
  | arg :: rest => arg.spell layout depth :: ContentArg.spellMore layout depth rest

def ContentArg.spellMore (layout : Layout) (depth : Nat) : List ContentArg → List Arg
  | [] => []
  | arg :: rest => .comma :: arg.spell layout depth :: ContentArg.spellMore layout depth rest

end

/-- The parts that spell a document. -/
def Layout.spell (layout : Layout) (blocks : List Content) : List Part :=
  (layout.front 0).map Part.blank ++ Content.spellBlocks layout 0 blocks

theorem Layout.ending_eq_none (layout : Layout) (depth : Nat) {block : Content}
    (rest : List Content) (h : block.isParagraph = false) :
    layout.ending depth block rest = .none := by
  cases block with
  | paragraph pieces => cases h
  | _ => rfl

/-- The line end of a block and the blanks after it are what stands behind it. -/
theorem Layout.ending_append_blanks (layout : Layout) (depth : Nat) (block : Content)
    (rest : List Content) :
    (layout.ending depth block rest).bytes ++ layout.blanks depth block rest
      = layout.behind depth block rest := by
  cases block with
  | paragraph pieces =>
    rw [blanks, ending]
    split
    · rfl
    · next hne =>
      obtain hhead | ⟨hnil, -⟩ := layout.ends_line depth pieces rest
      · obtain ⟨more, hmore⟩ := List.head?_eq_some_iff.1 hhead
        rw [hmore]
        rfl
      · exact absurd hnil hne
  | _ => rfl

theorem Layout.isBlank_blanks (layout : Layout) (depth : Nat) (block : Content)
    (rest : List Content) : (layout.blanks depth block rest).all isBlank = true := by
  have h := layout.isBlank_behind depth block rest
  rw [← layout.ending_append_blanks, List.all_append, Bool.and_eq_true] at h
  exact h.2

/-- A paragraph without a line end is the last block, with nothing behind it. -/
theorem Layout.eq_nil_of_ending_eq_none (layout : Layout) {depth : Nat} {pieces rest : List Content}
    (h : layout.ending depth (.paragraph pieces) rest = .none) :
    layout.blanks depth (.paragraph pieces) rest = [] ∧ rest = [] := by
  have hnil : layout.behind depth (.paragraph pieces) rest = [] := by
    by_contra hne
    rw [ending, if_neg hne] at h
    cases h
  refine ⟨by rw [blanks, hnil, List.drop_nil], ?_⟩
  obtain hhead | ⟨-, hrest⟩ := layout.ends_line depth pieces rest
  · rw [hnil] at hhead
    cases hhead
  · exact hrest

/-! ## Reading back -/

/-- What is read off an argument. -/
def ContentArg.read (source : Bytes) (arg : Argument Tree) : Except Failure ContentArg :=
  Content.ofArgument source <$> arg.mapM (Tree.walk (Content.visit source))

/-- The part spells the content: it prints as `bytes`, and reads back as the content wherever it
stands. -/
structure PartOf (blocks : Bool) (part : Part) (c : Content) (bytes : Bytes) : Prop where
  bytes_eq : part.bytes = bytes
  fits : part.Fits blocks
  cross : ∀ stack, part.cross stack = some stack
  walk : ∀ source before after, source = before ++ (bytes ++ after) →
    ∃ tree, part.trees before.length = [tree] ∧ tree.walk (Content.visit source) = .ok c

structure PartsOf (blocks : Bool) (parts : List Part) (cs : List Content) (bytes : Bytes) :
    Prop where
  bytes_eq : Part.bytesAll parts = bytes
  fits : Part.FitsAll blocks parts
  cross : ∀ stack, Part.crossAll stack parts = some stack
  walk : ∀ source before after, source = before ++ (bytes ++ after) →
    (Part.treesAll before.length parts).mapM (Tree.walk (Content.visit source)) = .ok cs

structure ArgOf (blocks : Bool) (arg : Arg) (a : ContentArg) (bytes : Bytes) : Prop where
  bytes_eq : arg.bytes = bytes
  fits : arg.Fits blocks
  cross : ∀ stack, arg.cross stack = some stack
  walk : ∀ source before after, source = before ++ (bytes ++ after) →
    ∃ node, arg.arguments before.length = [node] ∧ ContentArg.read source node = .ok a

structure ArgsOf (blocks : Bool) (args : List Arg) (as : List ContentArg) (bytes : Bytes) :
    Prop where
  bytes_eq : Arg.bytesAll args = bytes
  fits : Arg.FitsAll blocks args
  cross : ∀ stack, Arg.crossAll stack args = some stack
  walk : ∀ source before after, source = before ++ (bytes ++ after) →
    (Arg.argumentsAll before.length args).mapM (ContentArg.read source) = .ok as

variable {blocks : Bool} {bytes more : Bytes} {layout : Layout} {depth : Nat}

/-! ## One element in front of others -/

theorem PartsOf.nil (blocks : Bool) : PartsOf blocks [] [] [] :=
  ⟨rfl, trivial, fun _ => rfl, fun _ _ _ _ => rfl⟩

theorem PartsOf.cons {part : Part} {parts : List Part} {c : Content} {cs : List Content}
    (h : PartOf blocks part c bytes) (hs : PartsOf blocks parts cs more) :
    PartsOf blocks (part :: parts) (c :: cs) (bytes ++ more) where
  bytes_eq := by rw [Part.bytesAll, h.bytes_eq, hs.bytes_eq]
  fits := ⟨h.fits, hs.fits⟩
  cross stack := by
    rw [Part.crossAll, h.cross, Option.bind_some, hs.cross]
  walk source before after hsource := by
    rw [List.append_assoc] at hsource
    obtain ⟨tree, htree, hwalk⟩ := h.walk source before (more ++ after) hsource
    -- Each part is read where the parts in front of it end.
    have hrest := hs.walk source (before ++ bytes) after (by rw [hsource, List.append_assoc])
    rw [List.length_append] at hrest
    rw [Part.treesAll, htree, h.bytes_eq, List.singleton_append, List.mapM_cons, hwalk, hrest]
    rfl

/-- Blanks stand for nothing. -/
theorem PartsOf.blanks {parts : List Part} {cs : List Content} {blanks : Bytes}
    (h : PartsOf true parts cs bytes) (hblanks : blanks.all isBlank = true) :
    PartsOf true (blanks.map Part.blank ++ parts) cs (blanks ++ bytes) := by
  induction blanks with
  | nil => exact h
  | cons b more ih =>
    rw [List.all_cons, Bool.and_eq_true] at hblanks
    have hs := ih hblanks.2
    refine ⟨?_, ⟨hblanks.1, hs.fits⟩, fun stack => hs.cross stack,
      fun source before after hsource => ?_⟩
    · rw [List.map_cons, List.cons_append, Part.bytesAll, hs.bytes_eq]
      rfl
    -- A blank has no node, and only moves what is behind it by a byte.
    · have hrest := hs.walk source (before ++ [b]) after
        (by rw [hsource, List.append_assoc before]; rfl)
      rw [List.length_append] at hrest
      exact hrest

theorem ArgsOf.nil (blocks : Bool) : ArgsOf blocks [] [] [] :=
  ⟨rfl, trivial, fun _ => rfl, fun _ _ _ _ => rfl⟩

theorem ArgsOf.cons {arg : Arg} {args : List Arg} {a : ContentArg} {as : List ContentArg}
    (h : ArgOf blocks arg a bytes) (hs : ArgsOf blocks args as more) :
    ArgsOf blocks (arg :: args) (a :: as) (bytes ++ more) where
  bytes_eq := by rw [Arg.bytesAll, h.bytes_eq, hs.bytes_eq]
  fits := ⟨h.fits, hs.fits⟩
  cross stack := by
    rw [Arg.crossAll, h.cross, Option.bind_some, hs.cross]
  walk source before after hsource := by
    rw [List.append_assoc] at hsource
    obtain ⟨node, hnode, hread⟩ := h.walk source before (more ++ after) hsource
    have hrest := hs.walk source (before ++ bytes) after (by rw [hsource, List.append_assoc])
    rw [List.length_append] at hrest
    rw [Arg.argumentsAll, hnode, h.bytes_eq, List.singleton_append, List.mapM_cons, hread, hrest]
    rfl

/-- A comma stands for nothing. -/
theorem ArgsOf.comma {args : List Arg} {as : List ContentArg} (h : ArgsOf blocks args as bytes) :
    ArgsOf blocks (.comma :: args) as (TildeMarkup.comma :: bytes) := by
  refine ⟨?_, ⟨trivial, h.fits⟩, fun stack => h.cross stack, fun source before after hsource => ?_⟩
  · rw [Arg.bytesAll, h.bytes_eq]
    rfl
  · have hrest := h.walk source (before ++ [TildeMarkup.comma]) after
      (by rw [hsource, List.append_assoc]; rfl)
    rw [List.length_append] at hrest
    exact hrest

/-- Neither does a blank. -/
theorem ArgsOf.blank {args : List Arg} {as : List ContentArg} {b : UInt8}
    (h : ArgsOf blocks args as bytes) (hb : isBlank b = true) :
    ArgsOf blocks (.blank b :: args) as (b :: bytes) := by
  refine ⟨?_, ⟨hb, h.fits⟩, fun stack => h.cross stack, fun source before after hsource => ?_⟩
  · rw [Arg.bytesAll, h.bytes_eq]
    rfl
  · have hrest := h.walk source (before ++ [b]) after (by rw [hsource, List.append_assoc]; rfl)
    rw [List.length_append] at hrest
    exact hrest

/-! ## One node over its children -/

theorem Content.walk_node (source : Bytes) (layer : Node Tree) :
    (Tree.node layer).walk (Content.visit source)
      = Content.ofNode source <$> layer.mapM (Tree.walk (Content.visit source)) := by
  rw [Tree.walk_node]
  rfl

theorem PartOf.text (hne : bytes ≠ []) (htilde : tilde ∉ bytes) (hline : lineFeed ∉ bytes)
    (hbalanced : Bracket.Balanced bytes) : PartOf blocks (.text bytes) (.text bytes) bytes where
  bytes_eq := rfl
  fits := ⟨hne, htilde, hline⟩
  cross stack := hbalanced.scan stack
  walk source before after hsource := by
    refine ⟨_, rfl, ?_⟩
    rw [Content.walk_node, Node.mapM]
    show Except.ok (Content.text (Span.slice _ source)) = _
    rw [At.slice ⟨before, after, hsource, rfl⟩]

/-- A run, with its line end or without one. -/
theorem PartOf.run (blocks bracketed : Bool) (ending : Ending) {parts : List Part}
    {children : List Content} (h : PartsOf false parts children bytes)
    (hstarts : Part.startsRun bracketed parts = true)
    (hsequence : (parts.foldlM Part.inRun true).isSome = true)
    (hending : ending = .lineFeed → Part.runEndsInReturn false parts = false) :
    PartOf blocks (.run bracketed parts ending)
      (if bracketed then .group children else .paragraph children) (bytes ++ ending.bytes) where
  bytes_eq := by rw [Part.bytes, h.bytes_eq]
  fits := ⟨hstarts, hsequence, hending, h.fits⟩
  cross stack := by rw [Part.cross, h.cross]
  walk source before after hsource := by
    rw [List.append_assoc] at hsource
    have hchildren := h.walk source before (ending.bytes ++ after) hsource
    cases bracketed with
    | true =>
      refine ⟨_, rfl, ?_⟩
      rw [Content.walk_node, Node.mapM, hchildren]
      rfl
    | false =>
      refine ⟨_, rfl, ?_⟩
      rw [Content.walk_node, Node.mapM, hchildren]
      rfl

/-- What is read off the arguments of a command is what is read off each of them. -/
theorem mapM_read {source : Bytes} {args : List (Argument Tree)} {as : List ContentArg}
    (h : args.mapM (ContentArg.read source) = .ok as) :
    ∃ layers, args.mapM (Argument.mapM (Tree.walk (Content.visit source))) = .ok layers
      ∧ layers.map (Content.ofArgument source) = as := by
  induction args generalizing as with
  | nil =>
    cases h
    exact ⟨[], rfl, rfl⟩
  | cons arg rest ih =>
    rw [List.mapM_cons, ContentArg.read] at h
    -- An error in any of them would have been one of the whole.
    cases harg : arg.mapM (Tree.walk (Content.visit source)) with
    | error failure => rw [harg] at h; cases h
    | ok layer =>
      cases hrest : rest.mapM (ContentArg.read source) with
      | error failure => rw [harg, hrest] at h; cases h
      | ok others =>
        rw [harg, hrest] at h
        cases h
        obtain ⟨layers, hlayers, rfl⟩ := ih hrest
        refine ⟨layer :: layers, ?_, rfl⟩
        rw [List.mapM_cons, harg, hlayers]
        rfl

/-- A printed command is spelled by its name and by what spells its arguments, and reads back as
itself. -/
theorem PartOf.command {name : Bytes} {args : List Arg} {as : List ContentArg}
    (h : ArgsOf blocks args as bytes) (hname : name.all isLetter = true)
    (hsequence : (args.foldlM Arg.inList true).isSome = true) :
    PartOf blocks (.call name [] true args) (.command name as)
      (tilde :: (name ++ Bracket.round.opener :: (bytes ++ [Bracket.round.closer]))) where
  bytes_eq := by
    rw [Part.bytes, if_pos rfl, h.bytes_eq]
    rfl
  fits := ⟨hname, rfl, hsequence, h.fits⟩
  cross stack := by
    rw [Part.cross, if_pos rfl, h.cross, Option.bind_some]
    exact Bracket.pop_eq_some.2 rfl
  walk source before after hsource := by
    refine ⟨_, rfl, ?_⟩
    have hargs := h.walk source (before ++ tilde :: (name ++ [Bracket.round.opener]))
      (Bracket.round.closer :: after) (by
        rw [hsource]
        simp only [List.append_assoc, List.cons_append, List.nil_append])
    have hstart : (before ++ tilde :: (name ++ [Bracket.round.opener])).length
        = argsStart before.length name [] true := by
      simp only [argsStart, List.length_append, List.length_cons, List.length_nil, if_true]
      omega
    -- The name stands behind the tilde, in front of the parenthesis.
    have hcall : At source before.length
        (tilde :: (name ++ Bracket.round.opener :: (bytes ++ [Bracket.round.closer]))) :=
      ⟨before, after, hsource, rfl⟩
    have hslice := hcall.tail.left.slice
    rw [hstart] at hargs
    obtain ⟨layers, hlayers, rfl⟩ := mapM_read hargs
    rw [Content.walk_node, Node.mapM, hlayers]
    show Except.ok (Content.command (Span.slice _ source) _) = _
    rw [hslice]

theorem ArgOf.ident (hne : bytes ≠ []) (hletters : bytes.all isLetter = true) :
    ArgOf blocks (.ident bytes) (.ident bytes) bytes where
  bytes_eq := rfl
  fits := ⟨hne, hletters⟩
  cross _ := rfl
  walk source before after hsource := by
    refine ⟨_, rfl, ?_⟩
    show Except.ok (ContentArg.ident (Span.slice _ source)) = _
    rw [At.slice ⟨before, after, hsource, rfl⟩]

theorem ArgOf.string {raw : Bytes} (hraw : quotable false raw = true) :
    ArgOf blocks (.string raw) (.string raw) (quote :: (raw ++ [quote])) where
  bytes_eq := rfl
  fits := hraw
  cross _ := rfl
  walk source before after hsource := by
    refine ⟨_, rfl, ?_⟩
    show Except.ok (ContentArg.string (Span.contents _ source)) = _
    rw [At.contents ⟨before, after, hsource, rfl⟩]

theorem ArgOf.inline {part : Part} {c : Content} (h : PartOf false part c bytes)
    (hinline : part.isInline = true) :
    ArgOf blocks (.inline part) (.inline c)
      (Bracket.square.opener :: (bytes ++ [Bracket.square.closer])) where
  bytes_eq := by rw [Arg.bytes, h.bytes_eq]
  fits := ⟨hinline, h.fits⟩
  cross stack := by
    rw [Arg.cross, h.cross, Option.bind_some, closeInline_eq_some]
    exact ⟨fun _ => rfl, rfl⟩
  walk source before after hsource := by
    obtain ⟨tree, htree, hwalk⟩ := h.walk source (before ++ [Bracket.square.opener])
      (Bracket.square.closer :: after) (by
        rw [hsource]
        simp only [List.append_assoc, List.cons_append, List.nil_append])
    rw [List.length_append, List.length_singleton] at htree
    refine ⟨_, by rw [Arg.arguments, htree]; rfl, ?_⟩
    rw [ContentArg.read, Argument.mapM, hwalk]
    rfl

theorem ArgOf.block {parts : List Part} {children : List Content}
    (h : PartsOf true parts children bytes)
    (hsequence : (parts.foldlM Part.inBlocks true).isSome = true) :
    ArgOf true (.block parts) (.block children)
      (Bracket.curly.opener :: (bytes ++ [Bracket.curly.closer])) where
  bytes_eq := by rw [Arg.bytes, h.bytes_eq]
  fits := ⟨rfl, hsequence, h.fits⟩
  cross stack := by
    rw [Arg.cross, h.cross, Option.bind_some, if_pos rfl]
  walk source before after hsource := by
    have hchildren := h.walk source (before ++ [Bracket.curly.opener])
      (Bracket.curly.closer :: after) (by
        rw [hsource]
        simp only [List.append_assoc, List.cons_append, List.nil_append])
    rw [List.length_append, List.length_singleton] at hchildren
    refine ⟨_, rfl, ?_⟩
    rw [ContentArg.read, Argument.mapM, hchildren]
    rfl

/-! ## The order of parts -/

/-- Behind some bytes of a string, what is left of it is told by the last of them. -/
theorem quotable_of_quoted_append (front : Bytes) {raw : Bytes} (h : Quoted (front ++ raw)) :
    quotable (front.getLast? == some backslash) raw = true := by
  -- Bytes go over to the front one by one; the last of them says whether a quote is escaped.
  induction raw generalizing front with
  | nil =>
    have hlast := h.2
    rw [List.append_nil] at hlast
    rw [quotable, beq_eq_false_iff_ne.2 hlast]
    rfl
  | cons b rest ih =>
    have hrest := ih (front ++ [b]) (by rw [List.append_assoc]; exact h)
    rw [List.getLast?_concat] at hrest
    have hb : (b != quote || front.getLast? == some backslash) = true := by
      by_cases hquote : b = quote
      · rw [h.1 front rest (by rw [hquote])]
        simp
      · simp [hquote]
    rw [quotable, hb, Bool.true_and]
    exact hrest

theorem quotable_of_quoted {raw : Bytes} (h : Quoted raw) : quotable false raw = true :=
  quotable_of_quoted_append [] h

namespace Content

/-- Between pieces of which no two are texts, a text may come when the last one is not. -/
theorem inRun_spellAll {pieces : List Content} (h : IsRun pieces) {textFits : Bool}
    (hhead : ∀ piece, pieces.head? = some piece → piece.isText = true → textFits = true) :
    ((spellAll layout depth pieces).foldlM Part.inRun textFits).isSome = true := by
  induction pieces generalizing textFits with
  | nil => rfl
  | cons piece rest ih =>
    obtain ⟨hpieces, hchain⟩ := h
    rw [List.all_cons, Bool.and_eq_true] at hpieces
    rw [spellAll, List.foldlM_cons]
    have hrest : IsRun rest := ⟨hpieces.2, hchain.tail⟩
    cases piece with
    | text bytes =>
      cases hhead _ rfl rfl
      refine ih hrest fun next hnext htext => ?_
      cases rest with
      | nil => cases hnext
      | cons other more =>
        cases hnext
        -- Two texts would stand side by side.
        exact absurd ⟨rfl, htext⟩ (List.isChain_cons_cons.1 hchain).1
    | command name args => exact ih hrest fun _ _ _ => rfl
    | _ => exact absurd hpieces.1 Bool.false_ne_true

theorem startsRun_spellAll_group {pieces : List Content} (h : StartsInline pieces)
    (hfits : FitsAll false pieces) :
    Part.startsRun true (spellAll layout depth pieces) = true := by
  obtain rfl | ⟨bytes, rest, rfl⟩ := h
  · rfl
  · cases bytes with
    | nil => exact absurd rfl hfits.1.1
    | cons b more => rfl

theorem startsRun_spellAll_paragraph {pieces : List Content} (h : StartsParagraph pieces) :
    Part.startsRun false (spellAll layout depth pieces) = true := by
  obtain ⟨b, bytes, rest, rfl, hb⟩ := h
  show (false || !isBlank b) = true
  rw [hb]
  rfl

theorem runEndsInReturn_spellAll {pieces : List Content} (h : EndsParagraph pieces)
    (hfits : FitsAll false pieces) {before : Bool} (hbefore : pieces = [] → before = false) :
    Part.runEndsInReturn before (spellAll layout depth pieces) = false := by
  induction pieces generalizing before with
  | nil => exact hbefore rfl
  | cons piece rest ih =>
    have hrest : EndsParagraph rest := by
      intro bytes hlast
      cases rest with
      | nil => cases hlast
      | cons next more => exact h bytes (by rw [List.getLast?_cons_cons]; exact hlast)
    cases piece with
    | text bytes =>
      refine ih hrest hfits.2 fun hnil => ?_
      -- The last piece is a text: it is not empty, and its last byte is not a return.
      have hlast := h bytes (by rw [hnil]; rfl)
      rcases List.eq_nil_or_concat bytes with rfl | ⟨front, b, rfl⟩
      · exact absurd rfl hfits.1.1
      · rw [List.concat_eq_append] at hlast ⊢
        rw [List.getLast?_concat, Option.some_inj.ne] at hlast
        rw [endsInReturn, List.foldl_append]
        exact beq_eq_false_iff_ne.2 hlast
    | _ => exact ih hrest hfits.2 fun _ => rfl

theorem inBlocks_blanks (blanks : Bytes) (more : List Part) :
    (blanks.map Part.blank ++ more).foldlM Part.inBlocks true
      = more.foldlM Part.inBlocks true := by
  induction blanks with
  | nil => rfl
  | cons b rest ih => exact ih

theorem inBlocks_spellBlocks {children : List Content} (h : children.all isBlock = true) :
    ((spellBlocks layout depth children).foldlM Part.inBlocks true).isSome = true := by
  induction children with
  | nil => rfl
  | cons child rest ih =>
    rw [List.all_cons, Bool.and_eq_true] at h
    have hrest := ih h.2
    rw [← inBlocks_blanks (layout.blanks depth child rest)] at hrest
    rw [spellBlocks, List.foldlM_cons]
    cases child with
    | paragraph pieces =>
      by_cases hending : layout.ending depth (.paragraph pieces) rest = .none
      · -- Without a line end it is the last block, and nothing more is read.
        obtain ⟨hblanks, rfl⟩ := layout.eq_nil_of_ending_eq_none hending
        rw [hending, hblanks]
        rfl
      · rw [spell, Part.inBlocks, if_pos rfl, bne_iff_ne.2 hending]
        exact hrest
    | command name args => exact hrest
    | _ => exact absurd h.1 Bool.false_ne_true

end Content

theorem ContentArg.inList_spellMore (args : List ContentArg) :
    ((ContentArg.spellMore layout depth args).foldlM Arg.inList false).isSome = true := by
  induction args with
  | nil => rfl
  | cons arg rest ih => cases arg <;> exact ih

theorem ContentArg.inList_spellFirst (args : List ContentArg) :
    ((ContentArg.spellFirst layout depth args).foldlM Arg.inList true).isSome = true := by
  cases args with
  | nil => rfl
  | cons arg rest => cases arg <;> exact ContentArg.inList_spellMore rest

/-! ## Whole contents -/

mutual

theorem Content.partOf (layout : Layout) : ∀ (c : Content) (depth : Nat) {blocks : Bool}
    {ending : Ending}, c.Fits blocks → (c.isParagraph = false → ending = .none) →
      PartOf blocks (c.spell layout depth ending) c (c.print layout depth ++ ending.bytes)
  | .group children, depth, blocks, _, ⟨hstarts, hrun, hfits⟩, hending => by
    obtain rfl := hending rfl
    exact PartOf.run blocks true .none (Content.partsOf layout children depth hfits)
      (Content.startsRun_spellAll_group hstarts hfits)
      (Content.inRun_spellAll hrun fun _ _ _ => rfl) (fun hfalse => by cases hfalse)
  | .paragraph children, depth, blocks, ending, ⟨hstarts, hends, hrun, hfits⟩, _ =>
    PartOf.run blocks false ending (Content.partsOf layout children depth hfits)
      (Content.startsRun_spellAll_paragraph hstarts) (Content.inRun_spellAll hrun fun _ _ _ => rfl)
      (fun _ => Content.runEndsInReturn_spellAll hends hfits fun _ => rfl)
  | .text bytes, _, blocks, _, ⟨hne, htilde, hline, hbalanced⟩, hending => by
    obtain rfl := hending rfl
    rw [Ending.bytes, List.append_nil]
    exact PartOf.text hne htilde hline hbalanced
  | .command name args, depth, blocks, _, ⟨hname, hfits⟩, hending => by
    obtain rfl := hending rfl
    rw [Ending.bytes, List.append_nil]
    exact PartOf.command (ContentArg.argsOf_first layout args depth hfits) hname
      (ContentArg.inList_spellFirst args)
termination_by structural c => c

theorem Content.partsOf (layout : Layout) : ∀ (children : List Content) (depth : Nat)
    {blocks : Bool}, Content.FitsAll blocks children →
      PartsOf blocks (Content.spellAll layout depth children) children
        (Content.printAll layout depth children)
  | [], _, blocks, _ => PartsOf.nil blocks
  | child :: rest, depth, _, ⟨hfits, hrest⟩ => by
    have hchild := Content.partOf layout child depth hfits fun _ => rfl
    rw [Ending.bytes, List.append_nil] at hchild
    exact PartsOf.cons hchild (Content.partsOf layout rest depth hrest)
termination_by structural children => children

theorem Content.partsOf_blocks (layout : Layout) : ∀ (children : List Content) (depth : Nat),
    Content.FitsAll true children →
      PartsOf true (Content.spellBlocks layout depth children) children
        (Content.printBlocks layout depth children)
  | [], _, _ => PartsOf.nil true
  | child :: rest, depth, ⟨hfits, hrest⟩ => by
    have h := PartsOf.cons
      (Content.partOf layout child depth hfits (layout.ending_eq_none depth rest))
      ((Content.partsOf_blocks layout rest depth hrest).blanks
        (layout.isBlank_blanks depth child rest))
    rw [Content.printBlocks, ← layout.ending_append_blanks, List.append_assoc]
    rw [List.append_assoc] at h
    exact h
termination_by structural children => children

theorem ContentArg.argOf (layout : Layout) : ∀ (arg : ContentArg) (depth : Nat) {blocks : Bool},
    arg.Fits blocks → ArgOf blocks (arg.spell layout depth) arg (arg.print layout depth)
  | .block children, depth, _, ⟨rfl, hblocks, hfits⟩ =>
    ArgOf.block ((Content.partsOf_blocks layout children (depth + 1) hfits).blanks
        (layout.isBlank_front (depth + 1)))
      (by rw [Content.inBlocks_blanks]; exact Content.inBlocks_spellBlocks hblocks)
  | .inline child, depth, _, ⟨hinline, hfits⟩ => by
    have hchild := Content.partOf layout child depth hfits fun _ => rfl
    rw [Ending.bytes, List.append_nil] at hchild
    exact ArgOf.inline hchild (by cases child <;> first | rfl | cases hinline)
  | .ident letters, _, _, ⟨hne, hletters⟩ => ArgOf.ident hne hletters
  | .string raw, _, _, hraw => ArgOf.string (quotable_of_quoted hraw)
termination_by structural arg => arg

theorem ContentArg.argsOf_first (layout : Layout) : ∀ (args : List ContentArg) (depth : Nat)
    {blocks : Bool}, ContentArg.FitsAll blocks args →
      ArgsOf blocks (ContentArg.spellFirst layout depth args) args
        (ContentArg.printFirst layout depth args)
  | [], _, blocks, _ => ArgsOf.nil blocks
  | arg :: rest, depth, _, ⟨hfits, hrest⟩ =>
    ArgsOf.cons (ContentArg.argOf layout arg depth hfits)
      (ContentArg.argsOf_more layout rest depth hrest)
termination_by structural args => args

theorem ContentArg.argsOf_more (layout : Layout) : ∀ (args : List ContentArg) (depth : Nat)
    {blocks : Bool}, ContentArg.FitsAll blocks args →
      ArgsOf blocks (ContentArg.spellMore layout depth args) args
        (ContentArg.printMore layout depth args)
  | [], _, blocks, _ => ArgsOf.nil blocks
  | arg :: rest, depth, _, ⟨hfits, hrest⟩ =>
    (ArgsOf.cons (ContentArg.argOf layout arg depth hfits)
      (ContentArg.argsOf_more layout rest depth hrest)).comma
termination_by structural args => args

end

/-- **Parsing undoes printing.** In every layout, a printed document is parsed, and the content of
its arena is the document. -/
theorem parse_print (layout : Layout) (blocks : List Content) (h : IsContentDocument blocks) :
    ∃ arena, parse (layout.print blocks) = .ok arena
      ∧ arena.content (layout.print blocks) = .ok (.group blocks) := by
  have hparts : PartsOf true (layout.spell blocks) blocks (layout.print blocks) :=
    (Content.partsOf_blocks layout blocks 0 h.fits).blanks (layout.isBlank_front 0)
  have hsequence : ((layout.spell blocks).foldlM Part.inBlocks true).isSome = true := by
    rw [Layout.spell, Content.inBlocks_blanks]
    exact Content.inBlocks_spellBlocks h.isBlock
  have hparse := parse_of_isDocument ⟨hsequence, hparts.fits, hparts.cross []⟩
  rw [hparts.bytes_eq] at hparse
  refine ⟨(documentTree (layout.spell blocks)).toArena, ?_, ?_⟩
  · rw [parse, hparse]
    rfl
  · -- The whole source has nothing in front of it and nothing behind it.
    have hwalk := hparts.walk (layout.print blocks) [] []
      (by rw [List.nil_append, List.append_nil])
    rw [Arena.content, Arena.walk_toArena, documentTree, Content.walk_node, Node.mapM]
    rw [List.length_nil] at hwalk
    rw [hwalk]
    rfl

/-- A document with all kinds of argument: `~b([f(x)~i([~()])!],w,"\")",{in <line end>})` and the
paragraph `e~b()`. -/
def Content.sample : List Content :=
  [.command [0x62]
    [.inline (.group [.text [0x66, 0x28, 0x78, 0x29], .command [0x69] [.inline (.command [] [])],
      .text [0x21]]),
     .ident [0x77], .string [backslash, quote, 0x29], .block [.paragraph [.text [0x69, 0x6e, 0x20]]]],
   .paragraph [.text [0x65], .command [0x62] []]]

theorem parse_print_sample :
    IsContentDocument Content.sample
      ∧ ∃ arena, parse (Layout.lines.print Content.sample) = .ok arena
        ∧ arena.content (Layout.lines.print Content.sample) = .ok (.group Content.sample) := by
  have hquoted : Quoted [backslash, quote, 0x29] := by
    refine ⟨fun front back h => ?_, by decide⟩
    match front, h with
    | [], h => cases h
    | [_], h => cases h; rfl
    | [_, _], h => cases h
    | _ :: _ :: _ :: _, h => simp at h
  have hsample : IsContentDocument Content.sample := by
    refine ⟨rfl, ?_⟩
    simp only [Content.sample, Content.FitsAll, Content.Fits, ContentArg.FitsAll, ContentArg.Fits,
      Content.IsRun, Content.StartsInline, Content.StartsParagraph, Content.EndsParagraph, hquoted,
      and_true]
    simp [Content.isText, Content.isPiece, Content.isBlock, Content.isInline]
    decide
  exact ⟨hsample, parse_print Layout.lines Content.sample hsample⟩

end TildeMarkup
