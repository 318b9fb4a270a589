import TildeMarkup.Proofs.CommandLine.Attempt
import TildeMarkup.Proofs.Outline.Drawing
import TildeMarkup.Proofs.Utf8

/-!
# An outline is a picture of its document

The outline of a parsed source has one line for every node and every argument below the root, in pre-order
and each as far to the right as it stands deep, and nothing else breaks a line. So the outline tells the
drawing: where two sources have one outline, their documents have the same shape, and the same items in it
(`outline_pictures`).
-/

namespace TildeMarkup

namespace Arena

open Outline

variable {source : Bytes} {arena : Arena} {id : Nat} {figure : Drawing}

/-- The arena has the node, or it has a command with so many arguments and more. -/
def Contains (arena : Arena) : Origin → Prop
  | .node id => id < arena.nodes.size
  | .argument id index => ∃ name args, arena.get? id = some (.command name args) ∧ index < args.length

/-- The arena has the node or the argument, and there is a way down to it from the root. -/
def Reaches (arena : Arena) (origin : Origin) : Prop :=
  arena.Contains origin ∧ Relation.ReflTransGen arena.IsChild arena.root origin.holder

/-! ## Every node and every argument once -/

/-- Arguments are items of commands only. -/
theorem mem_argumentOrigins {α : Type} {origin : Origin} {layer : Node α} :
    origin ∈ argumentOrigins id layer ↔ ∃ name args index, layer = .command name args
      ∧ index < args.length ∧ origin = .argument id index := by
  cases layer with
  | command name args =>
    rw [argumentOrigins, List.mem_map]
    constructor
    · rintro ⟨index, hindex, rfl⟩
      exact ⟨name, args, index, rfl, List.mem_range.1 hindex, rfl⟩
    · rintro ⟨_, _, index, ⟨⟩, hindex, rfl⟩
      exact ⟨index, List.mem_range.2 hindex, rfl⟩
  | _ =>
    refine iff_of_false List.not_mem_nil ?_
    rintro ⟨name, args, index, hlayer, h⟩
    cases hlayer

/-- Each argument of a node is one item. -/
theorem nodup_argumentOrigins {α : Type} (layer : Node α) : (argumentOrigins id layer).Nodup := by
  cases layer with
  | command name args => exact List.nodup_range.map fun index other h => (Origin.argument.inj h).2
  | _ => exact .nil

/-- The items of a node are itself and its arguments. -/
theorem mem_originsOf {layer : Node Nat} (hget : arena.get? id = some layer) {origin : Origin} :
    origin ∈ arena.originsOf id ↔ origin.holder = id ∧ arena.Contains origin := by
  have hid : id < arena.nodes.size := (Array.getElem?_eq_some_iff.1 hget).1
  rw [originsOf_eq hget, List.mem_cons, mem_argumentOrigins]
  -- The origins of a node are itself and its arguments, which all have it for their holder.
  cases origin with
  | node other =>
    constructor
    · rintro (h | ⟨_, _, _, _, _, ⟨⟩⟩)
      cases h
      exact ⟨rfl, hid⟩
    · rintro ⟨rfl, _⟩
      exact .inl rfl
  | argument other index =>
    constructor
    · rintro (h | ⟨name, args, _, rfl, hindex, h⟩)
      · cases h
      · cases h
        exact ⟨rfl, name, args, hget, hindex⟩
    · rintro ⟨rfl, name, args, hcommand, hindex⟩
      obtain rfl := Option.some.inj (hget.symm.trans hcommand)
      exact .inr ⟨name, args, index, rfl, hindex, rfl⟩

/-- Each of them is there once. -/
theorem nodup_originsOf {layer : Node Nat} (hget : arena.get? id = some layer) :
    (arena.originsOf id).Nodup := by
  rw [originsOf_eq hget, List.nodup_cons, mem_argumentOrigins]
  exact ⟨fun ⟨_, _, _, _, _, h⟩ => (nomatch h), nodup_argumentOrigins layer⟩

/-- Numbers get smaller from parent to child, so all that is reached is in the arena. -/
theorem IsPostorder.lt_of_reached (h : arena.IsPostorder)
    (hreached : Relation.ReflTransGen arena.IsChild arena.root id) : id < arena.nodes.size := by
  induction hreached with
  | refl => exact h.root ▸ Nat.lt_succ_self _
  | tail _ hchild ih => exact Nat.lt_trans (h.below _ _ hchild) ih

/-- The drawing has every node and every argument below the root, each of them once. -/
theorem IsPostorder.drawn_once (h : arena.IsPostorder) (hdrawing : arena.drawing source = .ok figure) :
    (origins figure).Nodup ∧ ∀ origin, origin ∈ origins figure ↔ arena.Reaches origin := by
  have hperm := perm_origins hdrawing h.postorder
  have hget (id : Nat) (hid : id ∈ List.range arena.nodes.size) : ∃ layer, arena.get? id = some layer :=
    ⟨_, Array.getElem?_eq_getElem (List.mem_range.1 hid)⟩
  -- The items are those of the nodes in some order, and two nodes have none in common.
  rw [hperm.nodup_iff, List.nodup_flatMap]
  refine ⟨⟨fun id hid => ?_, List.nodup_range.imp_of_mem fun {id other} hid hother hne => ?_⟩,
    fun origin => ?_⟩
  · obtain ⟨layer, hlayer⟩ := hget id hid
    exact nodup_originsOf hlayer
  · obtain ⟨layer, hlayer⟩ := hget id hid
    obtain ⟨otherLayer, hotherLayer⟩ := hget other hother
    intro origin hmem hmem'
    exact hne (((mem_originsOf hlayer).1 hmem).1.symm.trans ((mem_originsOf hotherLayer).1 hmem').1)
  · rw [hperm.mem_iff, List.mem_flatMap]
    constructor
    · rintro ⟨id, hid, hmem⟩
      obtain ⟨layer, hlayer⟩ := hget id hid
      obtain ⟨rfl, hcontains⟩ := (mem_originsOf hlayer).1 hmem
      exact ⟨hcontains, h.reached _ (List.mem_range.1 hid)⟩
    · rintro ⟨hcontains, hreached⟩
      have hid := List.mem_range.2 (h.lt_of_reached hreached)
      obtain ⟨layer, hlayer⟩ := hget _ hid
      exact ⟨_, hid, (mem_originsOf hlayer).2 ⟨rfl, hcontains⟩⟩

end Arena

namespace Outline

/-! ## The lines of the text -/

/-- Lines put together, each with a line feed, are told apart again. -/
theorem splitOn_flatMap_lines {lines : List (List Char)} (h : ∀ line ∈ lines, '\n' ∉ line) :
    (lines.flatMap fun line => line ++ ['\n']).splitOn '\n' = lines ++ [[]] := by
  induction lines with
  | nil => rfl
  | cons line rest ih =>
    obtain ⟨hline, hrest⟩ := List.forall_mem_cons.1 h
    rw [List.flatMap_cons, List.append_assoc, List.singleton_append,
      List.splitOn_append_cons_self_of_not_mem hline, ih hrest, List.cons_append]

/-- The lines that list a drawing, as they are written. -/
def written (figure : Drawing) : List (List Char) :=
  figure.entries.map fun entry => indented entry.1 entry.2.2

theorem toList_toText_linesOf (figure : Drawing) :
    (toText (linesOf figure)).toList = (written figure).flatMap fun line => line ++ ['\n'] := by
  have hline (line : Line) : line.toText.toList
      = (List.replicate (2 * line.depth) ' ' ++ line.label.toList) ++ ['\n'] := by
    rw [Line.toText, String.toList_append, String.toList_append, String.toList_ofList]
    rfl
  rw [toText, String.join_eq, String.toList_ofList, List.map_map, linesOf, List.map_map, written,
    List.flatMap_map, List.flatMap_def]
  exact congrArg List.flatten (List.map_congr_left fun entry _ => hline _)

/-- The lines tell the items, and how deep they stand. -/
theorem map_snd_eq_of_written_eq {figure other : Drawing} (h : written figure = written other) :
    figure.map Prod.snd = other.map Prod.snd := by
  have hentries (figure : Drawing) : written figure
      = (figure.map Prod.snd).entries.map fun entry => indented entry.1 entry.2 := by
    rw [written, Figure.entries, Figure.entries, Figure.entriesAt_map, List.map_map]
    rfl
  have hinjective : Function.Injective fun entry : Nat × Item => indented entry.1 entry.2 :=
    fun entry other h => Prod.ext (indented_inj h).1 (indented_inj h).2
  rw [hentries, hentries] at h
  exact Figure.entries_injective (List.map_injective_iff.2 hinjective h)

variable {source : Bytes} {arena : Arena}

/-- The name of a command of a parsed source is of letters, which are printable. -/
theorem isPrintable_of_mem_commandName (h : parse source = .ok arena) {id : Nat} {name : Span}
    {args : List (Argument Nat)} (hid : arena.get? id = some (.command name args)) {c : Char}
    (hc : c ∈ (commandName source name).toList) : Printable.isPrintable c = true := by
  have hletters := List.all_eq_true.1 (all_isLetter_of_get? h hid)
  rw [commandName, Utf8.decode, String.toList_ofList,
    Utf8.decodeChars_of_lt fun b hb => lt_of_isLetter (hletters b hb)] at hc
  obtain ⟨b, hb, rfl⟩ := List.mem_map.1 hc
  have hletter := hletters b hb
  simp only [isLetter, Bool.or_eq_true, Bool.and_eq_true, decide_eq_true_eq, UInt8.le_iff_toNat_le,
    UInt8.reduceToNat] at hletter
  -- A letter is a character by its own number, and between the space and the tilde.
  have hvalid : b.toNat.isValidChar := .inl (by omega)
  have hchar : (Char.ofNat b.toNat).toNat = b.toNat := by
    rw [Char.ofNat, dif_pos hvalid]
    rfl
  exact Printable.isPrintable_of_ascii (by omega) (by omega)

/-- All characters in the lines of a parsed source are printable. -/
theorem isPrintable_of_mem_written {figure : Drawing} (h : parse source = .ok arena)
    (hdrawn : arena.drawing source = .ok figure) {line : List Char} (hline : line ∈ written figure)
    {c : Char} (hc : c ∈ line) : Printable.isPrintable c = true := by
  obtain ⟨⟨depth, origin, item⟩, hentry, rfl⟩ := List.mem_map.1 hline
  refine isPrintable_of_mem_indented ?_ hc
  rintro name rfl letter hletter
  have hitem : (origin, Item.command name) ∈ figure.items := List.mem_map_of_mem hentry
  have hshown := Arena.shows_of_figureAt hdrawn hitem
  -- Only a node has a name, and what it shows is read off the arena.
  cases origin with
  | node id =>
    obtain ⟨layer, hget, hlayer⟩ := hshown
    cases layer with
    | command span args =>
      cases hlayer
      exact isPrintable_of_mem_commandName h hget hletter
    | _ => cases hlayer
  | argument id index =>
    obtain ⟨_, _, arg, _, _, harg⟩ := hshown
    cases arg <;> cases harg

/-- The text has a line for every node and every argument that can be reached, and no other. -/
structure Pictures (source : Bytes) (arena : Arena) (text : String) (figure : Drawing) : Prop where
  drawn : arena.drawing source = .ok figure
  lines : text.toList.splitOn '\n' = written figure ++ [[]]
  unbroken : ∀ c ∈ text.toList, c ∈ Printable.lineBreaks → c = '\n'
  once : (origins figure).Nodup
  reached : ∀ origin, origin ∈ origins figure ↔ arena.Reaches origin
  shows : ∀ origin item, (origin, item) ∈ figure.items → arena.Shows source origin item

/-- A parsed source has the arena of one tree, the group of its blocks. -/
theorem isPostorder_of_parse (h : parse source = .ok arena) : arena.IsPostorder := by
  obtain ⟨parts, _, _, _, rfl⟩ := Spelling.spelled_of_parse h
  exact Arena.isPostorder_of_listing (Arena.listing_toArena _).1 (Arena.exists_group_root _)

/-- The outline of a parsed source pictures the document, whatever tree that is. -/
theorem exists_pictures (h : parse source = .ok arena) {text : String}
    (htext : outline source arena = .ok text) : ∃ figure, Pictures source arena text figure := by
  cases hlines : ofArena source arena with
  | error failure =>
    rw [outline, hlines] at htext
    cases htext
  | ok lines =>
    rw [outline, hlines] at htext
    obtain rfl := Except.ok.inj htext
    obtain ⟨figure, hdrawn, rfl⟩ := Arena.exists_figureAt hlines
    have hbreak (line : List Char) (hline : line ∈ written figure) (c : Char) (hc : c ∈ line) :
        c ∉ Printable.lineBreaks := fun hmem => by
      have hnot := Printable.not_isPrintable_of_lineBreak hmem
      rw [isPrintable_of_mem_written h hdrawn hline hc] at hnot
      cases hnot
    obtain ⟨honce, hreached⟩ := (isPostorder_of_parse h).drawn_once hdrawn
    refine ⟨figure, hdrawn, ?_, fun c hc hmem => ?_, honce, hreached,
      fun _ _ => Arena.shows_of_figureAt hdrawn⟩
    · rw [toList_toText_linesOf]
      exact splitOn_flatMap_lines fun line hline hmem =>
        hbreak line hline '\n' hmem (List.mem_cons_self ..)
    · rw [toList_toText_linesOf] at hc
      obtain ⟨line, hline, hc⟩ := List.mem_flatMap.1 hc
      rcases List.mem_append.1 hc with hc | hc
      · exact absurd hmem (hbreak line hline c hc)
      · exact List.mem_singleton.1 hc

/-- One text pictures one document: the same shape, with the same items. -/
theorem Pictures.map_snd_eq {other : Bytes} {otherArena : Arena} {text : String}
    {figure otherFigure : Drawing} (h : Pictures source arena text figure)
    (hother : Pictures other otherArena text otherFigure) :
    otherFigure.map Prod.snd = figure.map Prod.snd :=
  map_snd_eq_of_written_eq (List.append_cancel_right (hother.lines.symm.trans h.lines))

end Outline

open Outline

/-- A parsed source has an outline that pictures its document, and no source with another document has the
same. -/
theorem outline_pictures {source : Bytes} {arena : Arena} (h : parse source = .ok arena) :
    ∃ text figure, outline source arena = .ok text ∧ Pictures source arena text figure
      ∧ ∀ other otherArena, parse other = .ok otherArena → outline other otherArena = .ok text →
        ∃ otherFigure, Pictures other otherArena text otherFigure
          ∧ otherFigure.map Prod.snd = figure.map Prod.snd := by
  obtain ⟨text, htext, _⟩ := exists_outline_of_parse h
  obtain ⟨figure, hfigure⟩ := exists_pictures h htext
  refine ⟨text, figure, htext, hfigure, fun other otherArena hother hsame => ?_⟩
  obtain ⟨otherFigure, hotherFigure⟩ := exists_pictures hother hsame
  exact ⟨otherFigure, hotherFigure, hfigure.map_snd_eq hotherFigure⟩

/-- The command `~i[y"']`, with both kinds of quote in its text. -/
def pictureSample : Bytes := [tilde, 0x69, 0x5b, 0x79, 0x22, 0x27, 0x5d]

/-- Its arena: the text, its run, the command and the document. -/
def pictureSampleArena : Arena where
  nodes := #[.text ⟨3, 6⟩, .group [0], .command ⟨1, 2⟩ [.inline 1 ⟨2, 7⟩], .group [2]]
  root := 3

/-- The outline of the sample, whose excerpt is in single quotes and escapes one. -/
def pictureSampleText : String :=
  "Group\n  Command ~i\n    Inline @2..7\n      Group\n        Text('y\"\\'')\n"

theorem outline_pictures_sample : parse pictureSample = .ok pictureSampleArena
    ∧ ∃ figure, Pictures pictureSample pictureSampleArena pictureSampleText figure
      ∧ ∀ other otherArena, parse other = .ok otherArena →
        outline other otherArena = .ok pictureSampleText →
        ∃ otherFigure, Pictures other otherArena pictureSampleText otherFigure
          ∧ otherFigure.map Prod.snd = figure.map Prod.snd := by
  let inside : Node Tree :=
    .command ⟨1, 2⟩ [.inline (.node (.group [.node (.text ⟨3, 6⟩)])) ⟨2, 7⟩]
  have htree : Tree.parse pictureSample = .ok (.node (.group [.node inside])) := rfl
  have h : parse pictureSample = .ok pictureSampleArena := by
    rw [parse, htree]
    rfl
  have hline : outline pictureSample pictureSampleArena = .ok pictureSampleText := rfl
  obtain ⟨text, figure, htext, hpictures⟩ := outline_pictures h
  obtain rfl : pictureSampleText = text := Except.ok.inj (hline.symm.trans htext)
  exact ⟨h, figure, hpictures⟩

end TildeMarkup
