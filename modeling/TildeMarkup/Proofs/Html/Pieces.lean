import TildeMarkup.Proofs.Document.Traversal
import TildeMarkup.Proofs.Document.Typing
import TildeMarkup.Proofs.Html.Calls

/-!
# The output in pieces

What is rendered, as tags and what stands between them (`pieces`). The bytes of the pieces are the
HTML (`renderTree_eq_pieces`), so what holds of the tags holds of the output. A tag that a text of the
source spells is no tag here: it is part of what stands between.
-/

namespace TildeMarkup.Html

/-- A stretch of the output: a tag, or what stands between tags. -/
inductive Piece where
  /-- A start tag: its name, and its attributes as they are written. -/
  | opens (tag : String) (attributes : Bytes)
  /-- An end tag. -/
  | closes (tag : String)
  /-- Anything else. -/
  | raw (bytes : Bytes)

namespace Piece

/-- The bytes of a piece. A start tag has its attributes in it as they are. -/
def bytes : Piece → Bytes
  | opens tag attributes => Utf8.encode ("<" ++ tag) ++ (attributes ++ Utf8.encode ">")
  | closes tag => closeTag tag
  | raw bytes => bytes

/-- The bytes of pieces one after the other. -/
def bytesAll (pieces : List Piece) : Bytes :=
  pieces.flatMap bytes

end Piece

/-! ## The pieces of a tree -/

/-- An element around some content: a start tag, the content and an end tag of the same name. -/
def enclose (tag : String) (attributes : Bytes) (content : List Piece) : List Piece :=
  .opens tag attributes :: (content ++ [.closes tag])

/-- The pieces of a listing: a caption, then an element for each line, all in one element. -/
def pieceListing (tag language file text : String) : List Piece :=
  let caption := enclose "div" (Utf8.encode " class=\"language-tag\"")
    [.raw (Utf8.encode (language ++ " &bull; " ++ escape file))]
  let lines := (Text.lines (escape text)).map fun line => enclose "code" [] [.raw (Utf8.encode line)]
  enclose tag [] (caption ++ lines.flatten)

/-- The pieces of a command, by its form. With other arguments than the form is for there are none. -/
def pieceCall (source : Bytes) (builtin : Builtin) (args : List (Argument (List Piece))) :
    List Piece :=
  match builtin.form, args with
  | .enclosed, [arg] => enclose builtin.tag [] arg.children.flatten
  | .code, [.string span] =>
    enclose builtin.tag [] [.raw (Utf8.encode (escape (stringText source span)))]
  | .link, [.inline content _, .string href] =>
    enclose builtin.tag (Utf8.encode " href=\"" ++ (href.contents source ++ Utf8.encode "\"")) content
  | .listing, [.string file, .string text] =>
    let fileName := stringText source file
    pieceListing builtin.tag ((Listing.language? fileName).getD "") fileName (stringText source text)
  | _, _ => []

/-- The pieces of one layer, from those of its children. -/
def pieceNode (source : Bytes) : Node (List Piece) → List Piece
  | .group children => children.flatten
  | .paragraph children => enclose "p" [] children.flatten
  | .text span => [.raw (span.slice source)]
  | .command name args =>
    match Builtin.find? (commandName source name) with
    | none => []
    | some builtin => pieceCall source builtin args

/-- The pieces of a tree. They are there even if a layer would not pass its check. -/
def pieces (source : Bytes) : Tree → List Piece :=
  Tree.fold (pieceNode source)

theorem pieces_node (source : Bytes) (layer : Node Tree) :
    pieces source (.node layer) = pieceNode source (layer.map (pieces source)) :=
  Tree.fold_node _ layer

/-! ## Their bytes -/

theorem encode_append (front back : String) :
    Utf8.encode (front ++ back) = Utf8.encode front ++ Utf8.encode back := by
  rw [Utf8.encode, String.toList_append, Utf8.encodeChars_append]
  rfl

theorem bytesAll_append (front back : List Piece) :
    Piece.bytesAll (front ++ back) = Piece.bytesAll front ++ Piece.bytesAll back :=
  List.flatMap_append

theorem bytesAll_flatten (contents : List (List Piece)) :
    Piece.bytesAll contents.flatten = (contents.map Piece.bytesAll).flatten := by
  induction contents with
  | nil => rfl
  | cons content rest ih => rw [List.flatten_cons, bytesAll_append, ih, List.map_cons, List.flatten_cons]

theorem bytesAll_raw (bytes : Bytes) : Piece.bytesAll [.raw bytes] = bytes :=
  List.append_nil bytes

/-- The bytes of an element, tag by tag. -/
theorem bytesAll_enclose (tag : String) (attributes : Bytes) (content : List Piece) :
    Piece.bytesAll (enclose tag attributes content)
      = Utf8.encode ("<" ++ tag) ++ (attributes ++ (Utf8.encode ">"
        ++ (Piece.bytesAll content ++ closeTag tag))) := by
  have hcloses : Piece.bytesAll [.closes tag] = closeTag tag := List.append_nil _
  unfold enclose
  rw [Piece.bytesAll, List.flatMap_cons, ← Piece.bytesAll, bytesAll_append, hcloses, Piece.bytes]
  simp only [List.append_assoc]

/-- Without attributes, an element is what is rendered for it. -/
theorem bytesAll_element (tag : String) (content : List Piece) :
    Piece.bytesAll (enclose tag [] content) = element tag (Piece.bytesAll content) := by
  rw [bytesAll_enclose, element, openTag, encode_append ("<" ++ tag), List.nil_append,
    List.append_assoc]

/-- The bytes of these pieces are those of a listing. -/
theorem bytesAll_listing (tag language file text : String) :
    Piece.bytesAll (pieceListing tag language file text) = listing tag language file text := by
  have hlines : Piece.bytesAll ((Text.lines (escape text)).map fun line =>
        enclose "code" [] [.raw (Utf8.encode line)]).flatten
      = (Text.lines (escape text)).flatMap fun line => element "code" (Utf8.encode line) := by
    rw [bytesAll_flatten, List.map_map, List.flatMap_def]
    refine congrArg List.flatten (List.map_congr_left fun line _ => ?_)
    show Piece.bytesAll (enclose "code" [] [.raw (Utf8.encode line)]) = _
    rw [bytesAll_element, bytesAll_raw]
  -- A caption has its class in the start tag, so it is compared with the text in one piece.
  have hcaption : Utf8.encode ("<div class=\"language-tag\">" ++ language ++ " &bull; "
        ++ escape file ++ "</div>")
      = Piece.bytesAll (enclose "div" (Utf8.encode " class=\"language-tag\"")
        [.raw (Utf8.encode (language ++ " &bull; " ++ escape file))]) := by
    have hstart : "<div class=\"language-tag\">" = "<" ++ "div" ++ (" class=\"language-tag\"" ++ ">") :=
      rfl
    have hstop : "</div>" = "</" ++ "div" ++ ">" := rfl
    rw [bytesAll_enclose, bytesAll_raw, closeTag, hstart, hstop]
    simp only [encode_append, List.append_assoc]
  rw [pieceListing, listing, bytesAll_element, bytesAll_append, hlines, ← hcaption]

/-- Rendering a command from bytes or from pieces comes to the same bytes. -/
theorem bytesAll_call (source : Bytes) (builtin : Builtin) (args : List (Argument (List Piece))) :
    Piece.bytesAll (pieceCall source builtin args)
      = renderCall source builtin (args.map (Argument.map Piece.bytesAll)) := by
  obtain ⟨name, tag, params, form⟩ := builtin
  -- a form takes one argument or two; with any other number there is nothing to render
  rcases args with _ | ⟨a, _ | ⟨b, _ | ⟨c, more⟩⟩⟩
  · cases form <;> rfl
  · cases form with
    | enclosed =>
      show _ = element tag (a.map Piece.bytesAll).children.flatten
      rw [Argument.children_map, ← bytesAll_flatten, ← bytesAll_element]
      rfl
    | code =>
      cases a with
      | string span =>
        show Piece.bytesAll (enclose tag [] [.raw _]) = _
        rw [bytesAll_element, bytesAll_raw]
        rfl
      | _ => rfl
    | link => cases a <;> rfl
    | listing => cases a <;> rfl
  · cases form with
    | link =>
      cases a with
      | inline content span =>
        cases b with
        | string href =>
          have hquote : "\">" = "\"" ++ ">" := rfl
          show Piece.bytesAll (enclose tag (_ ++ (href.contents source ++ _)) content)
            = _ ++ (href.contents source ++ (_ ++ (Piece.bytesAll content ++ _)))
          rw [bytesAll_enclose, hquote]
          simp only [encode_append, List.append_assoc]
        | _ => rfl
      | _ => rfl
    | listing =>
      cases a with
      | string file =>
        cases b with
        | string text => exact bytesAll_listing ..
        | _ => rfl
      | _ => rfl
    | _ => cases a <;> rfl
  · cases form <;> cases a <;> cases b <;> rfl

/-- The same for every layer. -/
theorem bytesAll_node (source : Bytes) (layer : Node (List Piece)) :
    Piece.bytesAll (pieceNode source layer) = renderNode source (layer.map Piece.bytesAll) := by
  cases layer with
  | group children => exact bytesAll_flatten children
  | paragraph children =>
    show Piece.bytesAll (enclose "p" [] children.flatten) = _
    rw [bytesAll_element, bytesAll_flatten]
    rfl
  | text span => exact bytesAll_raw _
  | command name args =>
    show Piece.bytesAll (match Builtin.find? (commandName source name) with
      | none => []
      | some builtin => pieceCall source builtin args) = _
    rw [Node.map, renderNode]
    cases Builtin.find? (commandName source name) with
    | none => rfl
    | some builtin => exact bytesAll_call source builtin args

/-- Where every layer passes, the HTML is that of the pieces. -/
theorem renderTree_eq_pieces (source : Bytes) : ∀ tree : Tree,
    (∀ shape ∈ tree.preorder, checkNode source shape = .ok ()) →
      renderTree source tree = .ok (Piece.bytesAll (pieces source tree)) := by
  refine Tree.induction fun layer ih hall => ?_
  rw [Tree.preorder_node, List.forall_mem_cons] at hall
  obtain ⟨hcheck, hbelow⟩ := hall
  have hchildren : ∀ child ∈ layer.children, child.walk (visit source)
      = .ok (Piece.bytesAll (pieces source child)) := fun child hchild =>
    ih child hchild fun shape hshape => hbelow shape (List.mem_flatMap_of_mem hchild hshape)
  have hlayer : layer.mapM (Tree.walk (visit source))
      = .ok (layer.map (Piece.bytesAll ∘ pieces source)) := by
    rw [Node.mapM_congr hchildren, ← Node.mapM_ok, Node.mapM_map]
    rfl
  have hpassed : (visit source).check layer.shape = .ok () := hcheck
  rw [renderTree, Tree.walk_node, hpassed, hlayer, pieces_node, bytesAll_node, Node.map_map]
  rfl

/-- Whatever is rendered of a tree is its pieces. -/
theorem eq_pieces_of_renderTree {source html : Bytes} {tree : Tree}
    (h : renderTree source tree = .ok html) : html = Piece.bytesAll (pieces source tree) := by
  have hpieces := renderTree_eq_pieces source tree (Tree.exists_walk_eq_ok.1 ⟨html, h⟩)
  exact Except.ok.inj (h.symm.trans hpieces)

end TildeMarkup.Html
