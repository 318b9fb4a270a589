import TildeMarkup.Proofs.Composition
import TildeMarkup.Proofs.Nesting
import TildeMarkup.Proofs.Utf8

/-!
# The tags of the output

A reader of tags (`Tags.run`), which is given bytes and knows nothing of how they came about. It skips
the quoted values of a tag, and it refuses a tag of any other element than those of the language, an
end tag that is not that of the innermost open element, and angle brackets that are not those of a tag.

The output of every source is well nested for it (`compile_wellNested`), if no text of the source has
angle brackets and no target of a link has a double quote: these two are put out as they are. What the
strings of listings hold does not matter.
-/

namespace TildeMarkup.Html

namespace Tags

/-- The `<` that starts a tag, and that may stand nowhere else but in a quoted value. -/
def opener : UInt8 := 0x3c

/-- The `>` that ends a tag, and that may stand nowhere else but in a quoted value. -/
def closer : UInt8 := 0x3e

/-- The `/` of an end tag, which is in front of the name. -/
def slash : UInt8 := 0x2f

/-- The blank behind the name of a tag, in front of an attribute. -/
def space : UInt8 := 0x20

/-- The elements of the output. A tag of any other element is refused. -/
def elements : List String :=
  ["p", "em", "strong", "sup", "h2", "h3", "a", "code", "aside", "blockquote", "pre", "div"]

/-- Where a reader of tags is, and what it has seen of the tag that it is in. -/
inductive Place where
  /-- Between tags. -/
  | outside
  /-- In a tag, of which these bytes were seen, without the quoted values. -/
  | inside (seen : Bytes)
  /-- In a quoted value of such a tag. -/
  | value (seen : Bytes)
  deriving DecidableEq

/-- A reader of tags: the names of the open elements, the innermost first, and where it is. -/
structure State where
  opened : List Bytes
  place : Place
  deriving DecidableEq

/-- The open elements after a tag: one more for a start tag, one less for the end tag of the innermost. -/
def endTag (opened : List Bytes) : Bytes → Option (List Bytes)
  | [] => none
  | b :: rest =>
    if b = slash then
      if opened.head? = some rest then some opened.tail else none
    else
      let name := (b :: rest).takeWhile (· != space)
      if name ∈ elements.map Utf8.encode then some (name :: opened) else none

/-- Reads one byte. Outside of tags and in quoted values, most bytes mean nothing. -/
def step : State → UInt8 → Option State
  | ⟨opened, .outside⟩, b =>
    if b = opener then some ⟨opened, .inside []⟩
    else if b = closer then none
    else some ⟨opened, .outside⟩
  | ⟨opened, .inside seen⟩, b =>
    if b = closer then (endTag opened seen).map fun next => ⟨next, .outside⟩
    else if b = opener then none
    else if b = quote then some ⟨opened, .value seen⟩
    else some ⟨opened, .inside (seen ++ [b])⟩
  | ⟨opened, .value seen⟩, b =>
    if b = quote then some ⟨opened, .inside seen⟩ else some ⟨opened, .value seen⟩

/-- Reads bytes, from any state on, until one of them is refused. -/
def run (state : State) (bytes : Bytes) : Option State :=
  bytes.foldlM step state

/-- Every element is closed by its own end tag, the innermost first, and there are no angle brackets
but those of the tags and in quoted values. -/
def WellNested (html : Bytes) : Prop :=
  run ⟨[], .outside⟩ html = some ⟨[], .outside⟩

instance (html : Bytes) : Decidable (WellNested html) :=
  inferInstanceAs (Decidable (_ = _))

example : WellNested (Utf8.encode "<p>1 <a href=\"<>\">2</a></p>")
    ∧ ¬ WellNested (Utf8.encode "<p><em></p></em>") ∧ ¬ WellNested (Utf8.encode "1 > 2") := by
  decide +kernel

/-! ## Reading stretches of bytes -/

section Run

variable {opened : List Bytes} {seen : Bytes}

theorem run_append (state : State) (front back : Bytes) :
    run state (front ++ back) = (run state front).bind fun next => run next back := by
  unfold run
  rw [List.foldlM_append]
  rfl

theorem run_cons (state : State) (b : UInt8) (rest : Bytes) :
    run state (b :: rest) = (step state b).bind fun next => run next rest := by
  unfold run
  rw [List.foldlM_cons]
  rfl

/-- Bytes without angle brackets leave a reader where it is between tags. -/
theorem run_outside {bytes : Bytes} (hopener : opener ∉ bytes) (hcloser : closer ∉ bytes) :
    run ⟨opened, .outside⟩ bytes = some ⟨opened, .outside⟩ := by
  induction bytes with
  | nil => rfl
  | cons b rest ih =>
    rw [List.mem_cons, not_or] at hopener hcloser
    rw [run_cons, step, if_neg (Ne.symm hopener.1), if_neg (Ne.symm hcloser.1), Option.bind_some,
      ih hopener.2 hcloser.2]

/-- Within a tag the bytes are collected, until a quote or the end of the tag. -/
theorem run_inside {bytes : Bytes} (h : ∀ b ∈ bytes, b ≠ opener ∧ b ≠ closer ∧ b ≠ quote) :
    run ⟨opened, .inside seen⟩ bytes = some ⟨opened, .inside (seen ++ bytes)⟩ := by
  induction bytes generalizing seen with
  | nil => rw [List.append_nil]; rfl
  | cons b rest ih =>
    obtain ⟨⟨hopener, hcloser, hquote⟩, hrest⟩ := List.forall_mem_cons.1 h
    rw [run_cons, step, if_neg hcloser, if_neg hopener, if_neg hquote, Option.bind_some, ih hrest,
      List.append_assoc]
    rfl

/-- Within a quoted value everything is skipped up to the quote, angle brackets too. -/
theorem run_value {bytes : Bytes} (h : quote ∉ bytes) :
    run ⟨opened, .value seen⟩ bytes = some ⟨opened, .value seen⟩ := by
  induction bytes with
  | nil => rfl
  | cons b rest ih =>
    rw [List.mem_cons, not_or] at h
    rw [run_cons, step, if_neg (Ne.symm h.1), Option.bind_some, ih h.2]

/-- The name of an element is a word in a tag. -/
theorem not_mem_encode {tag : String} (h : tag ∈ elements) : ∀ b ∈ Utf8.encode tag,
    (b ≠ opener ∧ b ≠ closer ∧ b ≠ quote) ∧ b ≠ space ∧ b ≠ slash := by
  revert tag
  decide +kernel

theorem encode_ne_nil {tag : String} (h : tag ∈ elements) : Utf8.encode tag ≠ [] := by
  revert tag
  decide +kernel

/-- A start tag opens its element, whether an attribute follows the name or not. -/
theorem endTag_name {tag : String} (h : tag ∈ elements) {more : Bytes}
    (hmore : more = [] ∨ more.head? = some space) (opened : List Bytes) :
    endTag opened (Utf8.encode tag ++ more) = some (Utf8.encode tag :: opened) := by
  have hword := not_mem_encode h
  have hmem : Utf8.encode tag ∈ elements.map Utf8.encode := List.mem_map_of_mem h
  -- The name ends where the blank in front of an attribute is, or with the tag.
  have hname : (Utf8.encode tag ++ more).takeWhile (· != space) = Utf8.encode tag := by
    rw [List.takeWhile_append_of_pos fun b hb => by simpa using (hword b hb).2.1]
    rcases hmore with rfl | hspace
    · exact List.append_nil _
    · obtain ⟨rest, rfl⟩ := List.head?_eq_some_iff.1 hspace
      exact List.append_nil _
  cases hbytes : Utf8.encode tag with
  | nil => exact absurd hbytes (encode_ne_nil h)
  | cons b rest =>
    have hslash := (hword b (hbytes ▸ List.mem_cons_self ..)).2.2
    rw [hbytes] at hname hmem
    rw [List.cons_append] at hname ⊢
    rw [endTag, if_neg hslash, hname]
    exact if_pos hmem

end Run

end Tags

open Tags

/-! ## Reading pieces -/

/-- A reader of tags takes the piece for what it is: text has no angle brackets, and an attribute has no
quote in its value. -/
def Piece.Readable : Piece → Prop
  | raw bytes => opener ∉ bytes ∧ closer ∉ bytes
  | closes tag => tag ∈ elements
  | opens tag attributes => tag ∈ elements ∧ (attributes = [] ∨ ∃ value, quote ∉ value
    ∧ ∃ name ∈ ["class", "href"],
      attributes = Utf8.encode (" " ++ name ++ "=\"") ++ (value ++ Utf8.encode "\""))

/-- An attribute is read within its tag, and its value is skipped. -/
theorem Tags.run_attributes {name : String} (hname : name ∈ ["class", "href"]) {value : Bytes}
    (hvalue : quote ∉ value) (opened : List Bytes) (seen : Bytes) :
    ∃ more, more.head? = some space ∧ run ⟨opened, .inside seen⟩
        (Utf8.encode (" " ++ name ++ "=\"") ++ (value ++ Utf8.encode "\""))
      = some ⟨opened, .inside (seen ++ more)⟩ := by
  -- Both attributes end in the quote that opens the value, and have no other mark in them.
  obtain ⟨more, hsplit, hhead, hplain⟩ : ∃ more, Utf8.encode (" " ++ name ++ "=\"") = more ++ [quote]
      ∧ more.head? = some space ∧ ∀ b ∈ more, b ≠ opener ∧ b ≠ closer ∧ b ≠ quote := by
    refine ⟨(Utf8.encode (" " ++ name ++ "=\"")).dropLast, ?_⟩
    revert name
    decide +kernel
  have hquote : Utf8.encode "\"" = [quote] := rfl
  refine ⟨more, hhead, ?_⟩
  rw [hsplit, hquote, List.append_assoc, run_append, run_inside hplain]
  show run ⟨opened, .value _⟩ (value ++ [quote]) = _
  rw [run_append, run_value hvalue]
  rfl

/-- A piece is read as it is meant: it changes the open elements as a step over pieces does. -/
theorem Piece.Readable.run_bytes {piece : Piece} (h : piece.Readable) {stack next : List String}
    (hstep : piece.step stack = some next) :
    run ⟨stack.map Utf8.encode, .outside⟩ piece.bytes = some ⟨next.map Utf8.encode, .outside⟩ := by
  -- One case for each kind of piece.
  cases piece with
  | raw bytes =>
    cases hstep
    exact run_outside h.1 h.2
  | closes tag =>
    obtain ⟨hhead, htail⟩ : stack.head? = some tag ∧ stack.tail = next := by
      simpa [Piece.step] using hstep
    obtain ⟨rest, rfl⟩ := List.head?_eq_some_iff.1 hhead
    cases htail
    have hbytes : (Piece.closes tag).bytes = opener :: slash :: (Utf8.encode tag ++ [closer]) := by
      rw [Piece.bytes, closeTag, encode_append, encode_append, List.append_assoc]
      rfl
    rw [hbytes]
    show run ⟨_, .inside [slash]⟩ (Utf8.encode tag ++ [closer]) = _
    rw [run_append, run_inside fun b hb => (not_mem_encode h b hb).1]
    show ((endTag (_ :: rest.map Utf8.encode) (slash :: Utf8.encode tag)).map _).bind _ = _
    rw [endTag, if_pos rfl, if_pos List.head?_cons]
    rfl
  | opens tag attributes =>
    obtain ⟨htag, hattributes⟩ := h
    cases hstep
    have hbytes : (Piece.opens tag attributes).bytes
        = opener :: (Utf8.encode tag ++ (attributes ++ [closer])) := by
      rw [Piece.bytes, encode_append, List.append_assoc]
      rfl
    obtain ⟨more, hmore, hrun⟩ : ∃ more, (more = [] ∨ more.head? = some space)
        ∧ run ⟨stack.map Utf8.encode, .inside (Utf8.encode tag)⟩ attributes
          = some ⟨stack.map Utf8.encode, .inside (Utf8.encode tag ++ more)⟩ := by
      rcases hattributes with rfl | ⟨value, hvalue, name, hname, rfl⟩
      · exact ⟨[], .inl rfl, by rw [List.append_nil]; rfl⟩
      · obtain ⟨more, hspace, hrun⟩ := run_attributes hname hvalue (stack.map Utf8.encode)
          (Utf8.encode tag)
        exact ⟨more, .inr hspace, hrun⟩
    rw [hbytes]
    show run ⟨_, .inside []⟩ (Utf8.encode tag ++ (attributes ++ [closer])) = _
    rw [run_append, run_inside fun b hb => (not_mem_encode htag b hb).1, List.nil_append,
      Option.bind_some, run_append, hrun]
    show ((endTag _ _).map _).bind _ = _
    rw [endTag_name htag hmore]
    rfl

/-- Pieces are read as they are meant, by induction on them. -/
theorem run_bytesAll {pieces : List Piece} (h : ∀ piece ∈ pieces, piece.Readable)
    {stack next : List String} (hopened : Piece.opened stack pieces = some next) :
    run ⟨stack.map Utf8.encode, .outside⟩ (Piece.bytesAll pieces)
      = some ⟨next.map Utf8.encode, .outside⟩ := by
  induction pieces generalizing stack with
  | nil =>
    cases hopened
    rfl
  | cons piece rest ih =>
    obtain ⟨hpiece, hrest⟩ := List.forall_mem_cons.1 h
    rw [Piece.opened_cons] at hopened
    obtain ⟨middle, hstep, hopened⟩ := Option.bind_eq_some_iff.1 hopened
    rw [Piece.bytesAll, List.flatMap_cons, ← Piece.bytesAll, run_append, hpiece.run_bytes hstep]
    exact ih hrest hopened

/-! ## The pieces of a tree -/

theorem readable_enclose {tag : String} {attributes : Bytes} {content : List Piece}
    (h : (Piece.opens tag attributes).Readable) (hcontent : ∀ piece ∈ content, piece.Readable) :
    ∀ piece ∈ enclose tag attributes content, piece.Readable := by
  simp only [enclose, List.forall_mem_cons, List.forall_mem_append]
  exact ⟨h, hcontent, h.1, fun _ hnone => absurd hnone List.not_mem_nil⟩

theorem readable_element {tag : String} {content : List Piece} (h : tag ∈ elements)
    (hcontent : ∀ piece ∈ content, piece.Readable) :
    ∀ piece ∈ enclose tag [] content, piece.Readable :=
  readable_enclose ⟨h, .inl rfl⟩ hcontent

/-- Text without angle brackets is a piece that a reader of tags skips. -/
theorem readable_text {cs : List Char} (hopener : '<' ∉ cs) (hcloser : '>' ∉ cs) :
    ∀ piece ∈ [Piece.raw (Utf8.encodeChars cs)], piece.Readable := by
  intro piece hpiece
  rw [List.mem_singleton.1 hpiece]
  exact ⟨fun h => hopener (Utf8.exists_of_mem_encodeChars (by decide) h),
    fun h => hcloser (Utf8.exists_of_mem_encodeChars (by decide) h)⟩

/-- Escaped text is such a piece, whatever the text was. -/
theorem readable_escape (text : String) :
    ∀ piece ∈ [Piece.raw (Utf8.encode (escape text))], piece.Readable := by
  obtain ⟨hopener, hcloser, _⟩ := not_mem_escapeChars text.toList
  rw [Utf8.encode, toList_escape]
  exact readable_text hopener hcloser

/-- The characters of a line are characters of the text that the line is of. -/
theorem mem_of_mem_splitLines {cs line : List Char} {c : Char} (h : line ∈ Text.splitLines cs)
    (hc : c ∈ line) : c ∈ cs := by
  -- By induction along the text: a character starts a line, or it goes on with one.
  induction cs generalizing line with
  | nil => cases h
  | cons d rest ih =>
    rw [Text.splitLines] at h
    split at h
    · rcases List.mem_cons.1 h with rfl | h
      · cases hc
      · exact List.mem_cons_of_mem d (ih h hc)
    · split at h
      · rw [List.mem_singleton.1 h] at hc
        exact List.mem_cons.2 ((List.mem_cons.1 hc).imp_right fun hnone => by cases hnone)
      · next first others hsplit =>
        rcases List.mem_cons.1 h with rfl | h
        · rcases List.mem_cons.1 hc with rfl | hc
          · exact List.mem_cons_self
          · exact List.mem_cons_of_mem d (ih (hsplit ▸ List.mem_cons_self) hc)
        · exact List.mem_cons_of_mem d (ih (hsplit ▸ List.mem_cons_of_mem first h) hc)

theorem mem_of_mem_lines {text line : String} {c : Char} (h : line ∈ Text.lines text)
    (hc : c ∈ line.toList) : c ∈ text.toList := by
  obtain ⟨dropped, hdropped, rfl⟩ := List.mem_map.1 h
  obtain ⟨whole, hwhole, rfl⟩ := List.mem_map.1 hdropped
  rw [String.toList_ofList, Text.dropReturn] at hc
  split at hc
  · exact mem_of_mem_splitLines hwhole (List.dropLast_subset _ hc)
  · exact mem_of_mem_splitLines hwhole hc

/-- The name of a language has no angle brackets, as the table of languages shows. -/
theorem not_mem_language (file : String) :
    '<' ∉ ((Listing.language? file).getD "").toList
      ∧ '>' ∉ ((Listing.language? file).getD "").toList := by
  -- The languages of the table, and the empty name where no language is known.
  have hnames : ∀ language ∈ "" :: Listing.languages.map Prod.snd,
      '<' ∉ language.toList ∧ '>' ∉ language.toList := by
    decide
  refine hnames _ ?_
  rw [Listing.language?]
  cases Listing.extension? file with
  | none => exact List.mem_cons_self
  | some extension =>
    rw [Option.bind_eq_bind, Option.bind_some]
    cases hlookup : Listing.languages.lookup extension with
    | none => exact List.mem_cons_self
    | some language =>
      obtain ⟨before, after, hsplit, _⟩ := List.lookup_eq_some_iff.1 hlookup
      rw [hsplit]
      simp

/-- A listing is readable whatever its strings hold, since all of them are escaped. -/
theorem readable_listing {tag : String} (h : tag ∈ elements) (name file text : String) :
    ∀ piece ∈ pieceListing tag ((Listing.language? name).getD "") file text, piece.Readable := by
  obtain ⟨hopener, hcloser⟩ := not_mem_language name
  obtain ⟨hopener', hcloser', _⟩ := not_mem_escapeChars file.toList
  refine readable_element h (List.forall_mem_append.2 ⟨?_, ?_⟩)
  · refine readable_enclose ⟨by decide, .inr ⟨Utf8.encode "language-tag", by decide, "class",
      by decide, rfl⟩⟩ ?_
    rw [Utf8.encode]
    refine readable_text ?_ ?_ <;> simp [toList_escape, *]
  · intro piece hpiece
    obtain ⟨content, hcontent, hpiece⟩ := List.mem_flatten.1 hpiece
    obtain ⟨line, hline, rfl⟩ := List.mem_map.1 hcontent
    obtain ⟨hopener, hcloser, _⟩ := not_mem_escapeChars text.toList
    rw [← toList_escape] at hopener hcloser
    exact readable_element (by decide) (readable_text (fun hc => hopener (mem_of_mem_lines hline hc))
      fun hc => hcloser (mem_of_mem_lines hline hc)) piece hpiece

/-- The element of every command is one of the output, as the table of commands shows. -/
theorem tag_mem_elements {builtin : Builtin} (h : builtin ∈ Builtin.all) :
    builtin.tag ∈ elements := by
  revert builtin
  decide

theorem form_eq_link_iff {builtin : Builtin} (h : builtin ∈ Builtin.all) :
    builtin.form = .link ↔ builtin.name = "link" := by
  revert builtin
  decide

/-- The pieces of a call are readable if its contents are, and no target of a link has a quote. -/
theorem readable_call {source : Bytes} {builtin : Builtin} {args : List (Argument (List Piece))}
    (h : builtin ∈ Builtin.all)
    (hargs : ∀ arg ∈ args, ∀ content ∈ arg.children, ∀ piece ∈ content, piece.Readable)
    (hlink : builtin.name = "link" → ∀ href, .string href ∈ args → quote ∉ href.contents source) :
    ∀ piece ∈ pieceCall source builtin args, piece.Readable := by
  have htag := tag_mem_elements h
  unfold pieceCall
  -- One case for each form of a command; the last one is for arguments that no form takes.
  split
  · next arg _ =>
    refine readable_element htag fun piece hpiece => ?_
    obtain ⟨content, hcontent, hpiece⟩ := List.mem_flatten.1 hpiece
    exact hargs arg (List.mem_singleton_self arg) content hcontent piece hpiece
  · exact readable_element htag (readable_escape _)
  · next content span href hform =>
    have hhref := hlink ((form_eq_link_iff h).1 hform) href
      (List.mem_cons_of_mem _ (List.mem_singleton_self _))
    refine readable_enclose ⟨htag, .inr ⟨_, hhref, "href", by decide, rfl⟩⟩ ?_
    exact hargs (.inline content span) List.mem_cons_self content (List.mem_singleton_self content)
  · exact readable_listing htag _ _ _
  · exact fun _ hnone => absurd hnone List.not_mem_nil

section Tree

variable {source : Bytes} {root : Tree}

/-- Every piece of a tree is readable, by induction on the tree. -/
theorem readable_pieces
    (htexts : ∀ span, root.Has (.text span) →
      opener ∉ span.slice source ∧ closer ∉ span.slice source)
    (hlinks : ∀ name args href, root.Has (.command name args) → commandName source name = "link" →
      .string href ∈ args → quote ∉ href.contents source) :
    ∀ tree : Tree, (∀ layer, tree.Has layer → root.Has layer) →
      ∀ piece ∈ pieces source tree, piece.Readable := by
  refine Tree.induction fun layer ih hbelow => ?_
  have hhas : root.Has layer := hbelow layer (.here layer)
  have hchildren (child : Tree) (hchild : child ∈ layer.children) :
      ∀ piece ∈ pieces source child, piece.Readable :=
    ih child hchild fun found hfound => hbelow found (.child hchild hfound)
  rw [pieces_node]
  have hflatten {children : List Tree} (h : ∀ child ∈ children, child ∈ layer.children) :
      ∀ piece ∈ (children.map (pieces source)).flatten, piece.Readable := by
    intro piece hpiece
    obtain ⟨_, hcontent, hpiece⟩ := List.mem_flatten.1 hpiece
    obtain ⟨child, hchild, rfl⟩ := List.mem_map.1 hcontent
    exact hchildren child (h child hchild) piece hpiece
  -- A text is put out as it stands in the source; only here its brackets matter.
  cases layer with
  | text span =>
    intro piece hpiece
    rw [List.mem_singleton.1 hpiece]
    exact htexts span hhas
  | group children => exact hflatten fun _ => id
  | paragraph children => exact readable_element (by decide) (hflatten fun _ => id)
  | command name args =>
    simp only [Node.map, pieceNode]
    cases hfind : Builtin.find? (commandName source name) with
    | none => exact fun _ hnone => absurd hnone List.not_mem_nil
    | some builtin =>
      refine readable_call (Builtin.mem_all_of_find? hfind) ?_ ?_
      · intro arg harg content hcontent
        obtain ⟨spelled, hspelled, rfl⟩ := List.mem_map.1 harg
        rw [Argument.children_map] at hcontent
        obtain ⟨child, hchild, rfl⟩ := List.mem_map.1 hcontent
        exact hchildren child (List.mem_flatMap_of_mem hspelled hchild)
      · intro hname href hhref
        have hsame : builtin.name = commandName source name := by
          simpa using List.find?_some hfind
        obtain ⟨spelled, hspelled, hstring⟩ := List.mem_map.1 hhref
        cases spelled with
        | string span =>
          cases hstring
          exact hlinks name args href hhas (hsame ▸ hname) hspelled
        | _ => cases hstring

end Tree

end Html

open Html

/-- The output is well nested, if no text has angle brackets and no target of a link has a double
quote. -/
theorem compile_wellNested {source html : Bytes} {tree : Tree} (htree : Tree.parse source = .ok tree)
    (htexts : ∀ span, tree.Has (.text span) →
      Tags.opener ∉ span.slice source ∧ Tags.closer ∉ span.slice source)
    (hlinks : ∀ name args href, tree.Has (.command name args) → commandName source name = "link" →
      .string href ∈ args → quote ∉ href.contents source)
    (hcompile : compile source = .ok html) : Tags.WellNested html := by
  have hparse : parse source = .ok tree.toArena := by
    rw [parse, htree]
    rfl
  have hrender : render source tree.toArena = .ok html := by
    rw [← hcompile, compile, hparse]
    rfl
  have hvalid := (exists_render_iff hparse).1 ⟨html, hrender⟩
  have hwell : WellTyped source tree := by
    obtain ⟨parts, opened, hparts, rfl, rfl⟩ := Spelling.parse_eq_ok_iff.1 htree
    exact Spelling.wellTyped_documentTree hparts
  obtain ⟨rfl, hnested⟩ := nested_of_render hwell (fun name args => hvalid.validCall) hrender
  exact run_bytesAll (readable_pieces htexts hlinks tree fun _ => id) hnested.closed

/-- A link to `a>` and a piece of code that spells an end tag. -/
def tagsSample : Bytes :=
  Utf8.encode "~link([x], \"a>\") ~code(\"</p>\")"

theorem compile_wellNested_sample :
    ∃ tree html, Tree.parse tagsSample = .ok tree
      ∧ (∀ span, tree.Has (.text span) →
        Tags.opener ∉ span.slice tagsSample ∧ Tags.closer ∉ span.slice tagsSample)
      ∧ (∀ name args href, tree.Has (.command name args) → commandName tagsSample name = "link" →
        .string href ∈ args → quote ∉ href.contents tagsSample)
      ∧ compile tagsSample = .ok html ∧ Tags.WellNested html := by
  let text : Tree := .node (.group [.node (.text ⟨7, 8⟩)])
  let link : Node Tree := .command ⟨1, 5⟩ [.inline text ⟨6, 9⟩, .string ⟨11, 15⟩]
  let code : Node Tree := .command ⟨18, 22⟩ [.string ⟨23, 29⟩]
  let tree : Tree := .node (.group [.node link, .node code])
  have htree : Tree.parse tagsSample = .ok tree := rfl
  -- The layers of the tree, listed. Each condition is checked on every one of them.
  have hlayers {layer : Node Tree} (h : tree.Has layer) : layer.shape ∈ [Node.group [(), ()],
      .command ⟨1, 5⟩ [.inline () ⟨6, 9⟩, .string ⟨11, 15⟩], .group [()], .text ⟨7, 8⟩,
      .command ⟨18, 22⟩ [.string ⟨23, 29⟩]] :=
    Tree.mem_preorder.2 ⟨layer, h, rfl⟩
  have hchecks : ∀ shape ∈ tree.preorder, checkNode tagsSample shape = .ok () := by
    intro shape hshape
    obtain ⟨layer, h, rfl⟩ := Tree.mem_preorder.1 hshape
    have hmem := hlayers h
    generalize layer.shape = shape at hmem
    simp only [List.mem_cons, List.not_mem_nil, or_false] at hmem
    rcases hmem with rfl | rfl | rfl | rfl | rfl <;> rfl
  have hcompile : compile tagsSample = .ok (Piece.bytesAll (pieces tagsSample tree)) := by
    rw [compile_eq, htree]
    exact renderTree_eq_pieces _ tree hchecks
  have htexts (span : Span) (h : tree.Has (.text span)) :
      Tags.opener ∉ span.slice tagsSample ∧ Tags.closer ∉ span.slice tagsSample := by
    have hmem := hlayers h
    simp only [Node.shape, Node.map, List.mem_cons, List.not_mem_nil, Node.text.injEq,
      reduceCtorEq, or_false, false_or] at hmem
    subst hmem
    decide +kernel
  have hlinks (name : Span) (args : List (Argument Tree)) (href : Span)
      (h : tree.Has (.command name args)) (_ : commandName tagsSample name = "link")
      (hhref : .string href ∈ args) : quote ∉ href.contents tagsSample := by
    have hstring : Argument.string href ∈ args.map (Argument.map fun _ => ()) :=
      List.mem_map_of_mem hhref
    have hmem := hlayers h
    simp only [Node.shape, Node.map, List.mem_cons, List.not_mem_nil, Node.command.injEq,
      reduceCtorEq, or_false, false_or] at hmem
    rcases hmem with ⟨_, hargs⟩ | ⟨_, hargs⟩ <;> rw [hargs] at hstring <;>
      simp only [List.mem_cons, List.not_mem_nil, Argument.string.injEq, reduceCtorEq, or_false,
        false_or] at hstring <;> subst hstring <;> decide +kernel
  exact ⟨tree, _, htree, htexts, hlinks, hcompile, compile_wellNested htree htexts hlinks hcompile⟩

end TildeMarkup
