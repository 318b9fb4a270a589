import TildeMarkup.Proofs.Content.RoundTrip
import TildeMarkup.Proofs.Encoding
import TildeMarkup.Proofs.Html.Entities
import TildeMarkup.Proofs.Html.StringCalls
import TildeMarkup.Proofs.Links

/-!
# Code

A text is shown as code by writing it into a string, with a backslash in front of every quote. That
works for every text that does not end in a backslash, and the text can be read off the output; with a
backslash at its end the string is not closed (`compile_code`). The reader, which looks at the byte in
front of a quote, and the resolving of quotes, which goes from left to right over the text, agree on all
that is read as a string: every quote in it is escaped (`quoted_of_parse`).
-/

namespace TildeMarkup

open Reader Spelling Utf8

/-- The source that shows a text as code. -/
def codeSource (text : String) : Bytes :=
  encode ("~code(\"" ++ Text.escapeQuotes text ++ "\")")

/-! ## The contents of strings -/

namespace Spelling

theorem getLast?_of_quotable {escaped : Bool} {raw : Bytes} (h : quotable escaped raw = true) :
    raw.getLast? ≠ some backslash := by
  rintro hlast
  obtain ⟨init, rfl⟩ := List.getLast?_eq_some_iff.1 hlast
  induction init generalizing escaped with
  | nil => simp [quotable] at h
  | cons b rest ih =>
    rw [List.cons_append, quotable, Bool.and_eq_true] at h
    exact ih h.2 (List.getLast?_concat ..)

/-- What the reader takes for the contents of a string has its quotes escaped, and its end is not. -/
theorem quoted_of_quotable {raw : Bytes} (h : quotable false raw = true) : Quoted raw := by
  refine ⟨fun front back hraw => ?_, getLast?_of_quotable h⟩
  rw [hraw] at h
  -- Either nothing stands in front of the quote, and then it is escaped from before, or a backslash does.
  rcases Html.exists_of_quotable_append h with ⟨_, hescaped⟩ | ⟨init, rfl⟩
  · cases hescaped
  · exact List.getLast?_concat ..

end Spelling

theorem quoted_of_parse {source : Bytes} {arena : Arena} (h : parse source = .ok arena) {id : Nat}
    {layer : Node Nat} (hid : arena.get? id = some layer) {span : Span} (hspan : span ∈ layer.quoted) :
    Quoted (span.contents source) := by
  obtain ⟨parts, opened, hparts, rfl, rfl⟩ := spelled_of_parse h
  obtain ⟨other, hhas, hshape⟩ := Tree.mem_preorder.1 (Arena.exists_get?_iff.1 ⟨id, layer, hid, rfl⟩)
  rw [← Node.quoted_map (fun _ => ()), ← Node.shape, ← hshape, Node.shape, Node.quoted_map] at hspan
  cases other with
  | command name args =>
    have hraw := quotable_contents (parse_of_isDocument hparts) hhas (Node.mem_quoted.1 hspan)
    exact quoted_of_quotable hraw
  | _ => cases hspan

/-- The contents of a string are what its text is written as. -/
theorem Html.encode_stringText {source : Bytes} {span : Span} (h : Quoted (span.contents source))
    (hvalid : IsValid (span.contents source)) :
    encode (Text.escapeQuotes (stringText source span)) = span.contents source := by
  obtain ⟨cs, hcs⟩ := hvalid
  have hescaped : Escaped '\\' '"' cs := escaped_of_encodeChars (by rw [hcs]; exact h.1)
  rw [stringText, ← hcs, decode, decodeChars_encodeChars, Text.unescape, String.toList_ofList,
    Text.escapeQuotes, String.toList_ofList, Text.escapeQuoteChars_unescapeChars hescaped, encode,
    String.toList_ofList]

/-! ## A string that is not closed -/

/-- A reader in a string goes on while every quote is escaped, and knows whether the next one would be. -/
theorem Reader.run_escaped {raw : Bytes} (h : Escaped backslash quote raw) (n : Nat)
    (σ : List Bracket) (S : Scope) (call : Call) (start : Nat) :
    (Reader.mk n σ S (.string call start false)).run raw
      = .ok (Reader.mk (n + raw.length) σ S
          (.string call start (raw.getLast? == some backslash))) := by
  -- By induction from the end, since whether a quote is escaped shows in the byte in front of it.
  induction raw using List.reverseRecOn with
  | nil => rfl
  | append_singleton init b ih =>
    have hb : (b != quote || init.getLast? == some backslash) = true := by
      by_cases hquote : b = quote
      · rw [h init [] (by rw [hquote])]
        simp
      · simp [hquote]
    rw [run_append, ih h.left, List.length_append, List.length_singleton, List.getLast?_concat]
    exact (run_string_byte hb).trans (run_nil _)

/-- The source of a text as code, byte by byte. -/
theorem codeSource_eq (text : String) :
    codeSource text = tilde :: (encode "code" ++ Bracket.round.opener :: quote
      :: (encode (Text.escapeQuotes text) ++ [quote, Bracket.round.closer])) := by
  have hopen : encode "~code(\"" = tilde :: (encode "code" ++ [Bracket.round.opener, quote]) := rfl
  have hclose : encode "\")" = [quote, Bracket.round.closer] := rfl
  rw [codeSource, Html.encode_append, Html.encode_append, hopen, hclose]
  simp only [List.cons_append, List.append_assoc, List.nil_append]

/-- The string of a text that ends in a backslash goes on to the end of the source. -/
theorem compile_code_open {text : String} (h : text.toList.getLast? = some '\\') :
    compile (codeSource text) = .error (.fault ⟨.expected [quote] [],
      ⟨(codeSource text).length, (codeSource text).length⟩⟩) := by
  let call : Call := ⟨.alone, ⟨1, 5⟩, true, []⟩
  have hopen : initial.run (tilde :: (encode "code" ++ [Bracket.round.opener, quote]))
      = .ok (Reader.mk 7 [.round] (.document []) (.string call 6 false)) := rfl
  have hescaped := escaped_escapeQuotes text
  have hlast := getLast?_escapeQuotes.2 h
  have hsource := codeSource_eq text
  generalize encode (Text.escapeQuotes text) = raw at *
  -- The quote that should close the string is escaped by the last byte of the text, and so is text itself.
  have hclose (n : Nat) : (Reader.mk n [.round] (.document []) (.string call 6 true)).run
      [quote, Bracket.round.closer]
        = .ok (Reader.mk (n + 2) [.round] (.document []) (.string call 6 false)) := rfl
  have hrun : initial.run (codeSource text)
      = .ok (Reader.mk (7 + raw.length + 2) [.round] (.document []) (.string call 6 false)) := by
    have hsplit : codeSource text = (tilde :: (encode "code" ++ [Bracket.round.opener, quote]))
        ++ (raw ++ [quote, Bracket.round.closer]) := by
      rw [hsource]
      simp only [List.cons_append, List.append_assoc, List.nil_append]
    have hraw := run_escaped hescaped 7 [.round] (.document []) call 6
    rw [hlast, beq_self_eq_true] at hraw
    rw [hsplit, run_append, hopen, Except.bind, run_append, hraw, Except.bind, hclose]
  have hlength := offset_of_initial hrun
  rw [compile_eq, Tree.parse, hrun, ← hlength]
  rfl

/-! ## Code -/

theorem compile_code_closed {text : String} (h : text.toList.getLast? ≠ some '\\') :
    compile (codeSource text) = .ok (Html.element "code" (encode (Html.escape text))) := by
  let code : Builtin := ⟨"code", "code", [⟨"code", .string⟩], .code⟩
  have hcode : code ∈ Builtin.all := by decide
  have hargs := ArgsOf.cons (ArgOf.text h) (ArgsOf.nil true)
  have hsource : codeSource text = tilde :: (encode code.name ++ Bracket.round.opener
      :: ((quote :: (encode (Text.escapeQuotes text) ++ [quote]) ++ []) ++ [Bracket.round.closer])) := by
    rw [codeSource_eq]
    simp only [List.cons_append, List.append_assoc, List.nil_append, code]
  obtain ⟨spans, hspans, hcompile⟩ := compile_strings [text] hcode hargs rfl rfl
    (fun hlisting => absurd hlisting (by decide)) hsource
  obtain ⟨span, rfl, htext⟩ := List.map_eq_singleton_iff.1 hspans
  rw [hcompile]
  simp only [List.map_singleton, Html.renderCall, htext, code]

/-- A text is shown as code, and can be read off the output, if it does not end in a backslash. With a
backslash at its end, a closing quote is missing at the end of the source. In any source that is
parsed, every quote inside of a string is escaped and the string does not end in a backslash, so the
contents are what the text of the string is written as, if they are UTF-8. -/
theorem compile_code (text : String) :
    (text.toList.getLast? ≠ some '\\' →
      ∃ content, content = encode (Html.escape text)
        ∧ compile (codeSource text) = .ok (Html.element "code" content)
        ∧ Html.plainText (decode content) = text)
    ∧ (text.toList.getLast? = some '\\' →
      compile (codeSource text) = .error (.fault ⟨.expected [quote] [],
        ⟨(codeSource text).length, (codeSource text).length⟩⟩))
    ∧ ∀ source arena, parse source = .ok arena → ∀ id layer, arena.get? id = some layer →
      ∀ span ∈ layer.quoted, Quoted (span.contents source)
        ∧ (IsValid (span.contents source) →
          encode (Text.escapeQuotes (Html.stringText source span)) = span.contents source) := by
  refine ⟨fun h => ⟨_, rfl, compile_code_closed h, ?_⟩, compile_code_open, ?_⟩
  · rw [decode, encode, decodeChars_encodeChars, String.ofList_toList, Html.plainText_escape]
  · intro source arena hparse id layer hid span hspan
    have hquoted := quoted_of_parse hparse hid hspan
    exact ⟨hquoted, Html.encode_stringText hquoted⟩

/-- A backslash and a quote are read back; a backslash by itself leaves the string open; the one quote of
a third text is escaped in its source. -/
theorem compile_code_sample :
    (∃ content, content = encode (Html.escape "\\\"")
      ∧ compile (codeSource "\\\"") = .ok (Html.element "code" content)
      ∧ Html.plainText (decode content) = "\\\"")
    ∧ compile (codeSource "\\") = .error (.fault ⟨.expected [quote] [], ⟨10, 10⟩⟩)
    ∧ ∃ arena layer, parse (codeSource "\"") = .ok arena ∧ arena.get? 0 = some layer
      ∧ ⟨6, 10⟩ ∈ layer.quoted
      ∧ encode (Text.escapeQuotes (Html.stringText (codeSource "\"") ⟨6, 10⟩)) = [backslash, quote] := by
  have hlength : (codeSource "\\").length = 10 := by decide
  have hcontents : Span.contents ⟨6, 10⟩ (codeSource "\"") = [backslash, quote] := by decide
  have hvalid : IsValid (Span.contents ⟨6, 10⟩ (codeSource "\"")) :=
    ⟨['\\', '"'], by rw [hcontents]; rfl⟩
  let arena : Arena := ⟨#[.command ⟨1, 5⟩ [.string ⟨6, 10⟩], .group [0]], 1⟩
  have hparse : parse (codeSource "\"") = .ok arena := by
    have htree : Tree.parse (codeSource "\"")
        = .ok (.node (.group [.node (.command ⟨1, 5⟩ [.string ⟨6, 10⟩])])) := rfl
    rw [parse, htree]
    rfl
  have hspan : (⟨6, 10⟩ : Span) ∈ (Node.command (α := Nat) ⟨1, 5⟩ [.string ⟨6, 10⟩]).quoted :=
    Node.mem_quoted.2 (List.mem_singleton_self _)
  refine ⟨(compile_code "\\\"").1 (by decide), ?_, arena, _, hparse, rfl, hspan, ?_⟩
  · rw [← hlength]
    exact (compile_code "\\").2.1 (by decide)
  · rw [← hcontents]
    exact ((compile_code "").2.2 _ arena hparse 0 _ rfl _ hspan).2 hvalid

end TildeMarkup
