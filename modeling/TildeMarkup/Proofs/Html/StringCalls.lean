import TildeMarkup.Proofs.Content.RoundTrip
import TildeMarkup.Proofs.Enclosure
import TildeMarkup.Proofs.Html.Pieces
import TildeMarkup.Proofs.Text.Quotes

/-!
# Commands over strings

A source that is one command with a list of strings, each written for a text: it is rendered from these
texts (`compile_strings`). How the list is spelled is left to `ArgsOf`, so no offset is counted here.
Nothing is below such a command, and its HTML is told from its own arguments.
-/

namespace TildeMarkup

open Spelling Utf8

/-! ## Strings that are read -/

/-- Only a string is read as a string. -/
theorem ContentArg.read_eq_string {source : Bytes} {arg : Argument Tree} {raw : Bytes}
    (h : ContentArg.read source arg = .ok (.string raw)) :
    ∃ span, arg = .string span ∧ span.contents source = raw := by
  rw [ContentArg.read] at h
  cases hread : arg.mapM (Tree.walk (Content.visit source)) with
  | error failure =>
    rw [hread] at h
    cases h
  | ok layer =>
    rw [hread] at h
    -- Each kind of argument is read as its own, so the others do not come to a string.
    cases arg with
    | string span =>
      cases hread
      exact ⟨span, rfl, ContentArg.string.inj (Except.ok.inj h)⟩
    | ident span =>
      cases hread
      cases h
    | inline child span =>
      obtain ⟨content, -, rfl⟩ := exists_of_map_eq_ok hread
      cases h
    | block children span =>
      obtain ⟨contents, -, rfl⟩ := exists_of_map_eq_ok hread
      cases h

/-- Arguments that are read as strings are strings, and their contents are what was read. -/
theorem exists_strings_of_read {source : Bytes} {args : List (Argument Tree)} {raws : List Bytes}
    (h : args.mapM (ContentArg.read source) = .ok (raws.map ContentArg.string)) :
    ∃ spans : List Span, args = spans.map Argument.string
      ∧ spans.map (Span.contents · source) = raws := by
  induction args generalizing raws with
  | nil =>
    have hnil : raws.map ContentArg.string = [] := (Except.ok.inj h).symm
    exact ⟨[], rfl, (List.map_eq_nil_iff.1 hnil).symm⟩
  | cons arg rest ih =>
    rw [List.mapM_cons] at h
    cases harg : ContentArg.read source arg with
    | error failure =>
      rw [harg] at h
      cases h
    | ok first =>
      cases hrest : rest.mapM (ContentArg.read source) with
      | error failure =>
        rw [harg, hrest] at h
        cases h
      | ok others =>
        rw [harg, hrest] at h
        obtain ⟨raw, more, rfl, rfl, rfl⟩ := List.map_eq_cons_iff.1 (Except.ok.inj h).symm
        obtain ⟨span, rfl, hspan⟩ := ContentArg.read_eq_string harg
        obtain ⟨spans, rfl, hspans⟩ := ih hrest
        exact ⟨span :: spans, rfl, by rw [List.map_cons, hspan, hspans]⟩

/-! ## Rendering -/

namespace Html

theorem map_strings {α β : Type} (f : α → β) (spans : List Span) :
    (spans.map Argument.string).map (Argument.map f) = spans.map Argument.string := by
  rw [List.map_map]
  rfl

theorem children_strings {α : Type} (spans : List Span) :
    (spans.map Argument.string).flatMap (Argument.children (α := α)) = [] := by
  rw [List.flatMap_map, List.flatMap_eq_nil_iff]
  exact fun _ _ => rfl

/-- Over strings a command is valid by its parameters, and by its file if it is a listing. -/
theorem validCall_strings {source : Bytes} {name : Span} {builtin : Builtin} {spans : List Span}
    (hfind : Builtin.find? (commandName source name) = some builtin)
    (hkinds : spans.map (fun _ => Kind.string) = builtin.params.map Parameter.kind)
    (hlanguage : builtin.name = "codeblock" → ∀ file rest, spans = file :: rest →
      ∃ extension ∈ Listing.languages.map Prod.fst,
        Listing.HasExtension (stringText source file) extension) :
    ValidCall (α := Unit) source name (spans.map Argument.string) := by
  refine ⟨builtin, hfind, ?_, fun hlisting file rest hstrings => ?_⟩
  · rw [← hkinds, List.map_map]
    rfl
  · obtain ⟨first, more, hspans, hfirst, _⟩ := List.map_eq_cons_iff.1 hstrings
    rw [Argument.string.inj hfirst] at hspans
    exact hlanguage hlisting file more hspans

/-- A valid command over strings is rendered without anything below it. -/
theorem renderTree_strings {source : Bytes} {name : Span} {builtin : Builtin} {spans : List Span}
    (hname : checkName source name = .ok ())
    (hfind : Builtin.find? (commandName source name) = some builtin)
    (hvalid : ValidCall (α := Unit) source name (spans.map Argument.string)) :
    renderTree source (.node (.command name (spans.map Argument.string)))
      = .ok (renderCall source builtin (spans.map Argument.string)) := by
  have hpassed : checkNode source (.command name (spans.map Argument.string)) = .ok () := by
    simp only [checkNode, hname, checkCommand_eq_ok.2 hvalid]
    rfl
  refine (renderTree_eq_pieces source _ fun shape hshape => ?_).trans ?_
  · rw [Tree.preorder_node, Node.children, children_strings, List.flatMap_nil, Node.shape, Node.map,
      map_strings, List.mem_singleton] at hshape
    rw [hshape]
    exact hpassed
  · rw [pieces_node, bytesAll_node, Node.map, Node.map, map_strings, map_strings, renderNode, hfind]

/-- The text of a string that was written for it: escaping its quotes and reading it undo each other. -/
theorem stringText_of_contents {source : Bytes} {span : Span} {text : String}
    (h : span.contents source = encode (Text.escapeQuotes text)) : stringText source span = text := by
  rw [stringText, h, decode, encode, decodeChars_encodeChars, String.ofList_toList,
    Text.unescape_escapeQuotes]

theorem map_stringText {source : Bytes} {spans : List Span} {texts : List String}
    (h : spans.map (Span.contents · source) = texts.map fun text => encode (Text.escapeQuotes text)) :
    spans.map (stringText source) = texts := by
  induction spans generalizing texts with
  | nil => exact (List.map_eq_nil_iff.1 h.symm).symm
  | cons span rest ih =>
    obtain ⟨text, more, rfl, hspan, hrest⟩ := List.map_eq_cons_iff.1 h.symm
    rw [List.map_cons, stringText_of_contents hspan.symm, ih hrest.symm]

end Html

/-- A string that is written for a text. Without the condition its last backslash would escape the quote
behind it. -/
theorem ArgOf.text {blocks : Bool} {text : String} (h : text.toList.getLast? ≠ some '\\') :
    ArgOf blocks (.string (encode (Text.escapeQuotes text)))
      (.string (encode (Text.escapeQuotes text)))
      (quote :: (encode (Text.escapeQuotes text) ++ [quote])) :=
  ArgOf.string (quotable_of_quoted (quoted_escapeQuotes h))

/-- A source that is a command with a list of strings is rendered from their texts. -/
theorem compile_strings {builtin : Builtin} {args : List Arg} {bytes source : Bytes}
    (texts : List String) (hbuiltin : builtin ∈ Builtin.all)
    (hargs : ArgsOf true args (texts.map fun text => .string (encode (Text.escapeQuotes text))) bytes)
    (hsequence : (args.foldlM Arg.inList true).isSome = true)
    (hkinds : texts.map (fun _ => Kind.string) = builtin.params.map Parameter.kind)
    (hlanguage : builtin.name = "codeblock" → ∀ file rest, texts = file :: rest →
      ∃ extension ∈ Listing.languages.map Prod.fst, Listing.HasExtension file extension)
    (hsource : source = tilde :: (encode builtin.name ++ Bracket.round.opener
      :: (bytes ++ [Bracket.round.closer]))) :
    ∃ spans : List Span, spans.map (Html.stringText source) = texts
      ∧ compile source = .ok (Html.renderCall source builtin (spans.map Argument.string)) := by
  have hpart := PartOf.command hargs (Builtin.name_eq hbuiltin).1 hsequence
  have hbytes : Part.bytesAll [.call (encode builtin.name) [] true args] = source := by
    rw [Part.bytesAll_singleton, hpart.bytes_eq, hsource]
  have hparts : IsDocument [.call (encode builtin.name) [] true args] [] := by
    refine ⟨rfl, ⟨hpart.fits, trivial⟩, ?_⟩
    rw [Part.crossAll_singleton]
    exact hpart.cross []
  obtain ⟨name, hchecked, hfind, hcompile⟩ := compile_command hbuiltin hparts hbytes
  generalize encode builtin.name = letters at *
  -- the arguments of the command are strings, and they hold the texts
  have hread := hargs.walk source (tilde :: (letters ++ [Bracket.round.opener]))
    [Bracket.round.closer]
    (by rw [hsource]; simp only [List.cons_append, List.append_assoc, List.nil_append])
  have hstart : (tilde :: (letters ++ [Bracket.round.opener])).length = argsStart 0 letters [] true := by
    simp only [argsStart, List.length_cons, List.length_append, List.length_nil, if_true]
    omega
  have hraws : (texts.map fun text => ContentArg.string (encode (Text.escapeQuotes text)))
      = (texts.map fun text => encode (Text.escapeQuotes text)).map ContentArg.string := by
    rw [List.map_map]
    rfl
  rw [hstart, hraws] at hread
  -- Where the strings stand is not computed; that they are read back is enough.
  obtain ⟨spans, hspans, hcontents⟩ := exists_strings_of_read hread
  have htexts := Html.map_stringText hcontents
  rw [hspans] at hcompile
  refine ⟨spans, htexts, hcompile.trans (Html.renderTree_strings hchecked hfind ?_)⟩
  refine Html.validCall_strings hfind ?_ fun hlisting file rest hfile => ?_
  · rw [← hkinds, ← htexts, List.map_map]
    rfl
  · rw [hfile, List.map_cons] at htexts
    exact hlanguage hlisting _ _ htexts.symm

end TildeMarkup
