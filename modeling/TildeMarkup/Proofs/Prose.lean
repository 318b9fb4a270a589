import TildeMarkup.Proofs.Composition
import TildeMarkup.Proofs.Reader.Causes
import TildeMarkup.Proofs.Reader.Strings

/-!
# Prose

A source without commands is compiled line by line (`compile_prose`). Every line that is not blank
gives a paragraph with its bytes as they are, without the blanks in front of them and the carriage
return of the line end. Its brackets are those of a plain scan, which may go over line ends: the
source is refused exactly if the scan meets a closer that does not match, and at that closer.
-/

namespace TildeMarkup

open Reader Spelling

/-! ## What is said of prose -/

/-- The fault of the first closer that a plain scan of the brackets does not match, for a scan that
stands at offset `n`. -/
def Bracket.mismatch? (stack : List Bracket) (n : Nat) : Bytes → Option Fault
  | [] => none
  | b :: rest =>
    match Bracket.pass stack b with
    | none => some ⟨.unbalanced (stack.head?.map fun top => [top.closer]) [b], ⟨n, n + 1⟩⟩
    | some next => Bracket.mismatch? next (n + 1) rest

/-- The text of a line: without the blanks in front, and without the carriage return before a line
feed. -/
def lineText (ended : Bool) (line : Bytes) : Bytes :=
  let text := line.dropWhile isBlank
  if ended = true ∧ text.getLast? = some carriageReturn then text.dropLast else text

/-- The paragraph of a line, if it has a text. A blank line gives nothing. -/
def lineHtml (ended : Bool) (line : Bytes) : Bytes :=
  let text := lineText ended line
  if text = [] then [] else Html.element "p" text

/-- The paragraphs of lines, all but the last of which are ended by a line feed. -/
def linesHtml : List Bytes → Bytes
  | [] => []
  | [last] => lineHtml false last
  | line :: rest => lineHtml true line ++ linesHtml rest

/-- The paragraphs of a source without commands. -/
def proseHtml (source : Bytes) : Bytes :=
  linesHtml (source.splitOn lineFeed)

/-! ## Lines -/

section Lines

variable {line rest : Bytes} {b : UInt8} {ended : Bool}

/-- A source of one line has no line end. -/
theorem proseHtml_line (h : lineFeed ∉ line) : proseHtml line = lineHtml false line := by
  rw [proseHtml, List.splitOn_eq_singleton h]
  rfl

/-- A line that is ended by a line feed, in front of the others. -/
theorem proseHtml_append (h : lineFeed ∉ line) (rest : Bytes) :
    proseHtml (line ++ lineFeed :: rest) = lineHtml true line ++ proseHtml rest := by
  rw [proseHtml, List.splitOn_append_cons_self_of_not_mem h, proseHtml]
  cases hlines : rest.splitOn lineFeed with
  | nil => exact absurd hlines (List.splitOn_ne_nil _ _)
  | cons next more => rfl

/-- Blanks in front of a text are no part of it. -/
theorem lineHtml_blank (hb : isBlank b = true) :
    lineHtml ended (b :: line) = lineHtml ended line := by
  rw [lineHtml, lineHtml, lineText, lineText, List.dropWhile_cons_of_pos hb]

/-- A blank between paragraphs has no part in the HTML. -/
theorem proseHtml_blank (hb : isBlank b = true) : proseHtml (b :: rest) = proseHtml rest := by
  by_cases hline : b = lineFeed
  · rw [hline]
    exact proseHtml_append List.not_mem_nil rest
  · rw [proseHtml, proseHtml, List.splitOn_cons_eq_if_modifyHead, if_neg (by simpa using hline)]
    cases hlines : rest.splitOn lineFeed with
    | nil => exact absurd hlines (List.splitOn_ne_nil _ _)
    | cons line more =>
      cases more with
      | nil => exact lineHtml_blank hb
      | cons next more => exact congrArg (· ++ linesHtml (next :: more)) (lineHtml_blank hb)

/-- A text that starts with no blank and ends with no carriage return is its own. -/
theorem lineText_eq (hb : isBlank b = false)
    (hreturn : ended = true → (b :: line).getLast? ≠ some carriageReturn) :
    lineText ended (b :: line) = b :: line := by
  rw [lineText, List.dropWhile_cons_of_neg (by rw [hb]; exact Bool.false_ne_true), if_neg]
  exact fun h => hreturn h.1 h.2

theorem lineText_return (hb : isBlank b = false) :
    lineText true (b :: line ++ [carriageReturn]) = b :: line := by
  rw [List.cons_append, lineText,
    List.dropWhile_cons_of_neg (by rw [hb]; exact Bool.false_ne_true), ← List.cons_append, if_pos]
  · exact List.dropLast_concat
  · exact ⟨rfl, List.getLast?_concat⟩

theorem lineHtml_text {text : Bytes} (h : lineText ended line = text) (hne : text ≠ []) :
    lineHtml ended line = Html.element "p" text := by
  rw [lineHtml, h]
  exact if_neg hne

end Lines

/-! ## The brackets of prose -/

namespace Reader

/-- The reader stands in the document, outside of commands: between paragraphs or in one. -/
structure InProse (r : Reader) : Prop where
  scope : ∃ blocks, r.scope = .document blocks
  mode : r.mode = .ready ∨ ∃ pieces start afterReturn, r.mode = .text pieces start afterReturn

/-- The byte is passed as a scan passes it, or refused for the bracket that the scan has on top. -/
def Follows (opened : List Bracket) (b : UInt8) : Except Cause Reader → Prop
  | .ok next => Bracket.pass opened b = some next.opened ∧ next.InProse
  | .error cause => Bracket.pass opened b = none
    ∧ cause = .unbalanced (opened.head?.map fun top => [top.closer]) [b]

theorem inProse_initial : initial.InProse :=
  ⟨⟨[], rfl⟩, .inl rfl⟩

section Step

variable {n : Nat} {σ : List Bracket} {blocks : List Tree} {m : Mode} {b : UInt8}

/-- Where a closer would end the document nothing is open, so it is refused. -/
theorem follows_closeScope (hends : (Reader.mk n σ (.document blocks) m).endsScope b = true)
    (more : List Tree) (other : Mode) :
    Follows σ b ((Reader.mk n σ (.document more) other).closeScope b) := by
  obtain ⟨hnil, kind, rfl⟩ := document_of_endsScope hends blocks rfl
  cases hnil
  exact ⟨Bracket.pass_closer [] kind, rfl⟩

/-- Crossing a byte is what a scan does with it. -/
theorem follows_cross (pieces : List Tree) (start : Nat) (afterReturn : Bool) :
    Follows σ b (do
      let opened ← cross σ b
      return ⟨n, opened, .document blocks, .text pieces start afterReturn⟩) := by
  cases hcross : cross σ b with
  | ok opened => exact ⟨cross_eq_ok.1 hcross, ⟨blocks, rfl⟩, .inr ⟨pieces, start, afterReturn, rfl⟩⟩
  | error cause =>
    refine ⟨?_, eq_unbalanced_of_cross hcross⟩
    cases hpass : Bracket.pass σ b with
    | none => rfl
    | some next =>
      rw [cross_eq_ok.2 hpass] at hcross
      cases hcross

/-- In a text every byte is crossed, or ends the text and is looked at in the document. -/
theorem follows_inText (hb : b ≠ tilde) (pieces : List Tree) (start : Nat) (afterReturn : Bool) :
    Follows σ b ((Reader.mk n σ (.document blocks) m).inText pieces start afterReturn b) := by
  rw [inText, if_neg (by simpa using hb)]
  split
  · next hline =>
    cases beq_iff_eq.1 hline
    exact ⟨Bracket.pass_plain (by decide) σ, ⟨_, rfl⟩, .inl rfl⟩
  split
  · next hends => exact follows_closeScope hends _ _
  · exact follows_cross pieces start _

/-- A byte of prose is passed as a scan passes it, wherever the reader stands. -/
theorem follows_take {r : Reader} (hr : r.InProse) (hb : b ≠ tilde) :
    Follows r.opened b (r.take b) := by
  obtain ⟨n, σ, S, m⟩ := r
  obtain ⟨⟨blocks, rfl⟩, rfl | ⟨pieces, start, afterReturn, rfl⟩⟩ := hr
  · show Follows σ b ((Reader.mk n σ (.document blocks) .ready).inReady b)
    rw [inReady_of_allowsBlocks rfl]
    split
    · next hblank =>
      exact ⟨Bracket.pass_plain (Bracket.plain_of_isBlank hblank) σ, ⟨blocks, rfl⟩, .inl rfl⟩
    rw [if_neg (by simpa using hb)]
    split
    · next hends => exact follows_closeScope hends _ _
    · exact follows_inText hb [] n false
  · exact follows_inText hb pieces start afterReturn

end Step

/-- Prose is read through, or refused where a plain scan of it is. -/
theorem run_prose {r : Reader} {bytes : Bytes} (hr : r.InProse) (htilde : tilde ∉ bytes) :
    (∃ last, r.run bytes = .ok last ∧ last.InProse
      ∧ Bracket.mismatch? r.opened r.offset bytes = none)
    ∨ ∃ fault, r.run bytes = .error fault
      ∧ Bracket.mismatch? r.opened r.offset bytes = some fault := by
  induction bytes generalizing r with
  | nil => exact .inl ⟨r, rfl, hr, rfl⟩
  | cons b rest ih =>
    obtain ⟨hb, hrest⟩ := not_or.1 (fun h => htilde (List.mem_cons.2 h))
    -- By induction on the bytes: reader and scan stay at one stack until one byte stops both.
    have hfollows := follows_take hr (Ne.symm hb)
    rw [run_cons, step, Bracket.mismatch?]
    cases htake : r.take b with
    | error cause =>
      rw [htake] at hfollows
      obtain ⟨hpass, rfl⟩ := hfollows
      rw [hpass]
      exact .inr ⟨_, rfl, rfl⟩
    | ok next =>
      rw [htake] at hfollows
      obtain ⟨hpass, hscope, hmode⟩ := hfollows
      rw [hpass]
      exact ih (r := { next with offset := r.offset + 1 }) ⟨hscope, hmode⟩ hrest

/-- In prose the source may end, with whatever brackets open. -/
theorem InProse.finish {r : Reader} (hr : r.InProse) : ∃ tree, r.finish = .ok tree := by
  obtain ⟨n, σ, S, m⟩ := r
  obtain ⟨⟨blocks, rfl⟩, rfl | ⟨pieces, start, afterReturn, rfl⟩⟩ := hr
  · exact ⟨_, rfl⟩
  · exact ⟨_, rfl⟩

end Reader

/-! ## The HTML of prose -/

namespace Spelling

/-- Without commands a run is a single text. -/
theorem exists_text_of_run {pieces : List Part} (hstarts : Part.startsRun false pieces = true)
    (hruns : (pieces.foldlM Part.inRun true).isSome = true)
    (htilde : tilde ∉ Part.bytesAll pieces) : ∃ b text, pieces = [.text (b :: text)] ∧ isBlank b = false := by
  match pieces, hstarts with
  | [.text (b :: text)], hb => exact ⟨b, text, rfl, by simpa [Part.startsRun] using hb⟩
  | .text (b :: text) :: .call name gap listed args :: rest, _ =>
    rw [Part.bytesAll, Part.bytesAll, Part.bytes_call] at htilde
    simp at htilde
  | .text (_ :: _) :: .blank _ :: _, _ => cases hruns
  | .text (_ :: _) :: .text _ :: _, _ => cases hruns
  | .text (_ :: _) :: .run _ _ _ :: _, _ => cases hruns

/-- The paragraph of a run without commands has the bytes of its text. -/
theorem renderTree_run {source text : Bytes} {b : UInt8} {n : Nat} {ending : Ending}
    (hat : At source n (b :: text)) :
    Html.renderTree source (.node (.group
        (Part.trees n (.run false [.text (b :: text)] ending))))
      = .ok (Html.element "p" (b :: text)) := by
  rw [Part.trees, Part.treesAll_singleton, Part.trees, Html.renderTree_singleton,
    Html.renderTree_paragraph, Html.renderTree_singleton, Html.renderTree_text, hat.slice]
  rfl

/-- A line of text, with its line end and the lines behind it. -/
theorem proseHtml_run {b : UInt8} {text : Bytes} {ending : Ending} (rest : Bytes)
    (hb : isBlank b = false) (hline : lineFeed ∉ b :: text)
    (hreturn : ending = .lineFeed → Part.runEndsInReturn false [.text (b :: text)] = false)
    (hrest : ending = .none → rest = []) :
    proseHtml ((b :: text) ++ (ending.bytes ++ rest))
      = Html.element "p" (b :: text) ++ proseHtml rest := by
  have hne := List.cons_ne_nil b text
  cases ending with
  | none =>
    cases hrest rfl
    have htext : lineText false (b :: text) = b :: text :=
      lineText_eq hb fun hended => absurd hended Bool.false_ne_true
    show proseHtml (b :: text ++ []) = Html.element "p" (b :: text) ++ []
    rw [List.append_nil, List.append_nil, proseHtml_line hline, lineHtml_text htext hne]
  | lineFeed =>
    have hlast : (b :: text).getLast? ≠ some carriageReturn := fun hlast => by
      have hends : endsInReturn false (b :: text) = false := hreturn rfl
      rw [endsInReturn_of_getLast? hlast] at hends
      cases hends
    show proseHtml (b :: text ++ lineFeed :: rest) = _
    rw [proseHtml_append hline, lineHtml_text (lineText_eq hb fun _ => hlast) hne]
  -- The carriage return is part of the line as it is split, and then dropped from its text.
  | returnLineFeed =>
    have hsource : b :: text ++ (Ending.returnLineFeed.bytes ++ rest)
        = (b :: text ++ [carriageReturn]) ++ lineFeed :: rest :=
      (List.append_assoc (b :: text) [carriageReturn] (lineFeed :: rest)).symm
    have hall : lineFeed ∉ b :: text ++ [carriageReturn] := by
      rw [List.mem_append, not_or]
      exact ⟨hline, by decide⟩
    rw [hsource, proseHtml_append hall, lineHtml_text (lineText_return hb) hne]

/-- The blocks of a source without commands are rendered line by line. -/
theorem renderTree_prose {source : Bytes} {goesOn : Bool} {parts : List Part} {n : Nat}
    (hat : At source n (Part.bytesAll parts))
    (hsequence : parts.foldlM Part.inBlocks true = some goesOn) (hfits : Part.FitsAll true parts)
    (htilde : tilde ∉ Part.bytesAll parts) :
    Html.renderTree source (.node (.group (Part.treesAll n parts)))
      = .ok (proseHtml (Part.bytesAll parts)) := by
  induction parts generalizing n with
  | nil => rfl
  | cons part rest ih =>
    obtain ⟨hpart, hrest⟩ := hfits
    rw [Part.bytesAll] at hat htilde ⊢
    have htilde' := not_or.1 fun h => htilde (List.mem_append.2 h)
    rw [Part.treesAll, Html.renderTree_append]
    cases part with
    | blank b =>
      rw [ih hat.right hsequence hrest htilde'.2]
      exact congrArg Except.ok (proseHtml_blank hpart).symm
    | text => cases hsequence
    | call => exact absurd (List.mem_cons_self ..) htilde'.1
    | run bracketed pieces ending =>
      cases bracketed with
      | true => cases hsequence
      | false =>
        obtain ⟨hstarts, hruns, hreturn, hpieces⟩ := hpart
        have hplain : tilde ∉ Part.bytesAll pieces :=
          fun h => htilde'.1 (List.mem_append_left _ h)
        obtain ⟨b, text, rfl, hb⟩ := exists_text_of_run hstarts hruns hplain
        -- nothing follows a run without a line end, and blocks follow any other
        have hafter : ending = .none → rest = [] := by
          rintro rfl
          exact (Part.eq_nil_of_inBlocks hsequence).1
        have hmore : Html.renderTree source (.node (.group (Part.treesAll
            (n + (Part.run false [.text (b :: text)] ending).bytes.length) rest)))
            = .ok (proseHtml (Part.bytesAll rest)) := by
          by_cases hending : ending = .none
          · rw [hafter hending]
            rfl
          · rw [List.foldlM_cons, Part.inBlocks, if_pos rfl, bne_iff_ne.2 hending] at hsequence
            exact ih hat.right hsequence hrest htilde'.2
        have hbytes : (Part.run false [.text (b :: text)] ending).bytes
            = b :: text ++ ending.bytes := by
          rw [Part.bytes, Part.bytesAll_singleton, Part.bytes]
        rw [hbytes] at hat
        rw [renderTree_run hat.left.left, hmore, hbytes, List.append_assoc,
          proseHtml_run _ hb hpieces.1.2.2 hreturn fun hending => by rw [hafter hending]; rfl]
        rfl

end Spelling

/-- A source without commands is refused at the first closer that a plain scan of its brackets does
not match. If there is none, it is compiled to the paragraphs of its lines. -/
theorem compile_prose {source : Bytes} (htilde : tilde ∉ source) :
    compile source = match Bracket.mismatch? [] 0 source with
      | some fault => .error (.fault fault)
      | none => .ok (proseHtml source) := by
  rw [compile_eq]
  rcases run_prose inProse_initial htilde with ⟨last, hrun, hlast, hmatch⟩ | ⟨fault, hrun, hmatch⟩
  · have hmatch : Bracket.mismatch? [] 0 source = none := hmatch
    obtain ⟨tree, hfinish⟩ := hlast.finish
    obtain ⟨parts, hparts, hsource, rfl⟩ := isDocument_of_run hrun hfinish
    obtain ⟨goesOn, hsequence⟩ := Option.isSome_iff_exists.1 hparts.sequence
    have hparse : Tree.parse source = .ok (documentTree parts) := by
      rw [← hsource]
      exact parse_of_isDocument hparts
    rw [hparse, hmatch, ← hsource]
    exact renderTree_prose (At.self _) hsequence hparts.fits (hsource ▸ htilde)
  · have hmatch : Bracket.mismatch? [] 0 source = some fault := hmatch
    rw [Tree.parse, hrun, hmatch]
    rfl

/-- Two lines with a bracket that is closed on the second, and a closer that does not match it. -/
theorem compile_prose_sample :
    (tilde ∉ [0x20, 0x28, 0x61, carriageReturn, lineFeed, lineFeed, 0x62, 0x29]
      ∧ compile [0x20, 0x28, 0x61, carriageReturn, lineFeed, lineFeed, 0x62, 0x29]
        = .ok (Html.element "p" [0x28, 0x61] ++ Html.element "p" [0x62, 0x29]))
    ∧ (tilde ∉ [0x28, 0x61, lineFeed, 0x5d]
      ∧ compile [0x28, 0x61, lineFeed, 0x5d]
        = .error (.fault ⟨.unbalanced (some [0x29]) [0x5d], ⟨3, 4⟩⟩)) := by
  have hlines : tilde ∉ [0x20, 0x28, 0x61, carriageReturn, lineFeed, lineFeed, 0x62, 0x29] := by
    decide
  have hcloser : tilde ∉ [0x28, 0x61, lineFeed, 0x5d] := by decide
  exact ⟨⟨hlines, compile_prose hlines⟩, hcloser, compile_prose hcloser⟩

end TildeMarkup
