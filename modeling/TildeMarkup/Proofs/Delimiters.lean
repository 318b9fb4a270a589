import TildeMarkup.Proofs.Coverage
import TildeMarkup.Proofs.Reader.Strings
import TildeMarkup.Proofs.Spelling.Brackets

/-!
# Delimiter faults

A source is refused for its brackets only where a plain scan of it, without its string arguments, meets
a closer that does not match (`IsMismatch`), and a source that parses is one that the scan goes
through (`Delimited`).

Arguments in braces are bracket words by themselves. Square brackets and lists need not be: after a
line end the closing square bracket takes what is innermost, which may be one of the prose in front of
it, and the bracket of the argument stays open. All of them are words exactly if every argument in
square brackets that closes after a line end is one.
-/

namespace TildeMarkup

open TildeMarkup.Bracket (scan)

/-- The string arguments that have been read when the source is at its end, or is refused. -/
def consumedStrings (source : Bytes) : List Span :=
  (Reader.initial.furthest source).strings

/-- The source between the ends of a span, without the string arguments of the tree. -/
def Tree.unquoted (tree : Tree) (source : Bytes) (span : Span) : Bytes :=
  dropSpans tree.strings span.start (span.slice source)

/-- The span goes from an opener to a closer of this kind: that of an argument in brackets, or the list
of a command. -/
inductive Encloses (source : Bytes) (tree : Tree) : Bracket → Span → Prop where
  | argument {name : Span} {args : List (Argument Tree)} {arg : Argument Tree} {kind : Bracket}
      (h : tree.Has (.command name args)) (harg : arg ∈ args) (hkind : arg.bracket? = some kind) :
      Encloses source tree kind arg.span
  | list {name : Span} {args : List (Argument Tree)} (h : tree.Has (.command name args))
      (hlisted : IsListed source name) :
      Encloses source tree .round ⟨skipBlanks source name.stop, listStop source name args + 1⟩

/-- What a plain scan makes of a source that parses. -/
structure Delimited (source : Bytes) (tree : Tree) : Prop where
  strings : tree.strings = consumedStrings source
  whole : ∃ stack, scan [] (dropSpans tree.strings 0 source) = some stack
  scopes : ∀ kind span, Encloses source tree kind span →
    ∃ stack, scan [] (tree.unquoted source span) = some stack
  blocks : ∀ span, Encloses source tree .curly span → Bracket.Balanced (tree.unquoted source span)
  balanced : (∀ kind span, Encloses source tree kind span → Bracket.Balanced (tree.unquoted source span))
    ↔ ∀ span i, Encloses source tree .square span → span.stop = i + 2 →
      source[i]? = some lineFeed → Bracket.Balanced (tree.unquoted source span)

/-- What is found is a closer that a plain scan of all in front of it does not match, and what is wanted
is the closer of the bracket that the scan has on top, if there is any. -/
def IsMismatch (source : Bytes) (wanted : Option Bytes) (found : Bytes) (span : Span) : Prop :=
  ∃ stack kind,
    scan [] (dropSpans (consumedStrings source) 0 (source.take span.start)) = some stack
      ∧ span.stop = span.start + 1 ∧ source[span.start]? = some (Bracket.closer kind)
      ∧ found = [Bracket.closer kind] ∧ (wanted = none ↔ stack = [])
      ∧ ∀ top rest, stack = top :: rest → wanted = some [top.closer] ∧ [top.closer] ≠ found

namespace Spelling

section Call

variable {parts : List Part} {opened : List Bracket} {n : Nat} {name gap : Bytes} {listed : Bool}
  {front back : List Arg} {arg : Arg}

/-- Where an argument stands, what it leaves open does not depend on the place. -/
theorem Holds.cross_arg (hparts : IsDocument parts opened)
    (h : Holds parts n (.call name gap listed (front ++ arg :: back))) :
    ∃ extra, ∀ base, arg.cross base = some (extra ++ base) := by
  obtain ⟨_, _, hcall⟩ := h.cross hparts
  obtain ⟨_, _, hargs⟩ := Part.crossAll_of_cross_call hcall
  obtain ⟨_, _, harg⟩ := Arg.cross_of_crossAll hargs
  exact Arg.cross_extra harg

/-- A plain scan of an argument, without its strings, comes to what crossing it comes to. -/
theorem Holds.scan_arg (hparts : IsDocument parts opened)
    (h : Holds parts n (.call name gap listed (front ++ arg :: back))) {τ : List Bracket}
    (hcross : arg.cross [] = some τ) : scan [] arg.unquoted = some τ := by
  obtain ⟨_, _, _, _, hargs⟩ := h.fits_call hparts
  exact Arg.scan_unquoted arg (Arg.fitsAll_append.1 hargs).2.1 hcross

/-- A command with a single argument has another bracket than a list after its name. -/
theorem Holds.listed_of_isListed {args : List Arg} (hparts : IsDocument parts opened)
    (h : Holds parts n (.call name gap listed args))
    (hlisted : IsListed (Part.bytesAll parts) ⟨n + 1, n + 1 + name.length⟩) : listed = true := by
  cases listed with
  | true => rfl
  | false =>
    obtain ⟨_, hgap, hcall, _⟩ := h.fits_call hparts
    -- The first byte behind the name is an opener, and it is not a parenthesis.
    have hopens : ∃ kind rest, kind ≠ Bracket.round ∧ Arg.bytesAll args = kind.opener :: rest := by
      match args, hcall with
      | [.inline part], _ => exact ⟨.square, _, nofun, rfl⟩
      | [.block inner], _ => exact ⟨.curly, _, nofun, rfl⟩
    obtain ⟨kind, rest, hkind, hargs⟩ := hopens
    have hat := h.located
    rw [Part.bytes, if_neg Bool.false_ne_true, hargs] at hat
    have hrest := hat.tail.right
    have hskip := skipBlanks_eq hrest hgap (Reader.isBlank_opener kind)
    have hbyte : (Part.bytesAll parts)[skipBlanks (Part.bytesAll parts) (n + 1 + name.length)]?
        = some Bracket.round.opener := hlisted
    rw [hskip, hrest.right.head] at hbyte
    cases kind with
    | round => exact absurd rfl hkind
    | square => exact absurd hbyte (by decide)
    | curly => exact absurd hbyte (by decide)

/-- Where the list of a command stands, and what a scan of it reads. -/
theorem Holds.unquoted_list {args : List Arg} (hparts : IsDocument parts opened)
    (h : Holds parts n (.call name gap true args)) :
    (documentTree parts).unquoted (Part.bytesAll parts)
        ⟨skipBlanks (Part.bytesAll parts) (n + 1 + name.length),
          listStop (Part.bytesAll parts) ⟨n + 1, n + 1 + name.length⟩
            (Arg.argumentsAll (argsStart n name gap true) args) + 1⟩
      = Bracket.round.opener :: (Arg.unquotedAll args ++ [Bracket.round.closer]) := by
  have hstart : skipBlanks (Part.bytesAll parts) (n + 1 + name.length)
      = n + 1 + name.length + gap.length := Nat.succ.inj (h.skipBlanks_name hparts).1
  rw [hstart, h.listStop_eq hparts]
  exact h.dropSpans_list

end Call

/-- The spans in brackets, as they are written: an argument of a command, or its list. -/
theorem encloses_cases {parts : List Part} {opened : List Bracket} {kind : Bracket} {span : Span}
    (hparts : IsDocument parts opened)
    (h : Encloses (Part.bytesAll parts) (documentTree parts) kind span) :
    (∃ n name gap listed front arg back,
      Holds parts n (.call name gap listed (front ++ arg :: back)) ∧ arg.bracket? = some kind
        ∧ (documentTree parts).unquoted (Part.bytesAll parts) span = arg.unquoted)
    ∨ (kind = .round ∧ ∃ n name gap args, Holds parts n (.call name gap true args)
        ∧ (documentTree parts).unquoted (Part.bytesAll parts) span
          = Bracket.round.opener :: (Arg.unquotedAll args ++ [Bracket.round.closer])) := by
  cases h with
  | argument h harg hkind =>
    obtain ⟨n, name, gap, listed, spelled, hholds, _, rfl⟩ := holds_command h
    obtain ⟨front, arg, back, rfl, hfound⟩ := Arg.exists_of_mem_argumentsAll harg
    obtain ⟨_, hspan, hbracket⟩ := hholds.argument_eq hparts hfound
    refine .inl ⟨n, name, gap, listed, front, arg, back, hholds, hbracket.symm.trans hkind, ?_⟩
    rw [Tree.unquoted, hspan]
    exact hholds.dropSpans_arg
  | list h hlisted =>
    obtain ⟨n, name, gap, listed, spelled, hholds, rfl, rfl⟩ := holds_command h
    obtain rfl := hholds.listed_of_isListed hparts hlisted
    exact .inr ⟨rfl, n, name, gap, spelled, hholds, hholds.unquoted_list hparts⟩

section Document

variable {parts : List Part} {opened : List Bracket} {kind : Bracket} {span : Span}

/-- A scan of what is in brackets goes through, since the brackets of the argument have been crossed in
the same way. -/
theorem scan_of_encloses (hparts : IsDocument parts opened)
    (h : Encloses (Part.bytesAll parts) (documentTree parts) kind span) :
    ∃ stack, scan [] ((documentTree parts).unquoted (Part.bytesAll parts) span) = some stack := by
  rcases encloses_cases hparts h with ⟨_, _, _, _, _, _, _, hholds, _, hunquoted⟩
    | ⟨_, _, _, _, args, hholds, hunquoted⟩
  · obtain ⟨extra, hextra⟩ := hholds.cross_arg hparts
    exact ⟨_, hunquoted ▸ hholds.scan_arg hparts (hextra [])⟩
  · obtain ⟨_, _, _, _, hargs⟩ := hholds.fits_call hparts
    obtain ⟨_, _, hcall⟩ := hholds.cross hparts
    obtain ⟨inner, after, hinner, hpop⟩ := Part.cross_list hcall
    refine ⟨after, ?_⟩
    rw [hunquoted, Bracket.scan_enclosed (Arg.scan_unquotedAll args hargs hinner)]
    exact hpop

/-- Braces close all that is opened in them, so they are words. -/
theorem balanced_of_curly (hparts : IsDocument parts opened)
    (h : Encloses (Part.bytesAll parts) (documentTree parts) .curly span) :
    Bracket.Balanced ((documentTree parts).unquoted (Part.bytesAll parts) span) := by
  rcases encloses_cases hparts h with ⟨_, _, _, _, _, arg, _, hholds, hkind, hunquoted⟩ | ⟨hround, _⟩
  · rw [hunquoted]
    cases arg with
    | block inner =>
      obtain ⟨_, hcross⟩ := hholds.cross_arg hparts
      exact hholds.scan_arg hparts (Arg.cross_block (hcross []) [])
    | _ => cases hkind
  · cases hround

/-- If the square brackets that close after a line end are words, they close what they open. -/
theorem linesClose_of_balanced (hparts : IsDocument parts opened)
    (h : ∀ span i, Encloses (Part.bytesAll parts) (documentTree parts) .square span →
      span.stop = i + 2 → (Part.bytesAll parts)[i]? = some lineFeed →
        Bracket.Balanced ((documentTree parts).unquoted (Part.bytesAll parts) span)) :
    LinesClose parts := by
  intro n name gap listed front back part inner hholds hline hcross
  obtain ⟨a, _, hmem, hspan, hbracket⟩ := hholds.exists_argument hparts rfl
  obtain ⟨_, _, _, _, hargs⟩ := hholds.fits_call hparts
  obtain ⟨_, hfits⟩ := (Arg.fitsAll_append.1 hargs).2.1
  obtain ⟨lead, hlead⟩ := Part.bytes_of_endsLine hline
  have hat := at_arg hholds.located
  rw [Arg.bytes, hlead] at hat
  -- The line feed stands right in front of the closer, two bytes before the end of the argument.
  have hplace : a.span.stop = argsStart n name gap listed + (Arg.bytesAll front).length + 1
      + lead.length + 2 := by
    rw [hspan, Arg.length_bytes_inline, hlead, List.length_append]
    simp only [List.length_singleton]
    omega
  have hbalanced := h a.span _ (.argument hholds.has_command hmem hbracket) hplace
    hat.tail.left.right.head
  rw [Tree.unquoted, hspan, hholds.dropSpans_arg, Bracket.Balanced, Arg.unquoted,
    Bracket.scan_enclosed (Part.scan_unquoted part hfits hcross)] at hbalanced
  exact Bracket.pop_balanced.1 hbalanced

/-- Where square brackets close what they open on their lines, everything in brackets is a word. -/
theorem balanced_of_linesClose (hparts : IsDocument parts opened) (hlines : LinesClose parts)
    (h : Encloses (Part.bytesAll parts) (documentTree parts) kind span) :
    Bracket.Balanced ((documentTree parts).unquoted (Part.bytesAll parts) span) := by
  rcases encloses_cases hparts h with ⟨_, _, _, _, _, arg, _, hholds, _, hunquoted⟩
    | ⟨_, _, _, _, args, hholds, hunquoted⟩
  · obtain ⟨extra, hextra⟩ := hholds.cross_arg hparts
    have hnone := Arg.cross_eq hparts hlines arg hholds (hextra [])
    have hscan := hholds.scan_arg hparts (hextra [])
    rw [hnone] at hscan
    rw [hunquoted]
    exact hscan
  · obtain ⟨_, _, _, _, hargs⟩ := hholds.fits_call hparts
    obtain ⟨_, _, hcall⟩ := hholds.cross hparts
    obtain ⟨inner, _, hinner, _⟩ := Part.cross_list hcall
    have hnone := Arg.crossAll_eq hparts hlines args [] hholds hinner
    rw [hunquoted, Bracket.Balanced, Bracket.scan_enclosed (Arg.scan_unquotedAll args hargs hinner)]
    exact Bracket.pop_balanced.2 hnone

end Document

/-- A document as it is written, with the reader that has read it. -/
theorem delimited_of_isDocument {parts : List Part} {opened : List Bracket} {r : Reader}
    (hparts : IsDocument parts opened) (hrun : Reader.initial.run (Part.bytesAll parts) = .ok r)
    (hfinish : r.finish = .ok (documentTree parts)) :
    Delimited (Part.bytesAll parts) (documentTree parts) := by
  have hr : r.Consumed (Part.bytesAll parts) := Reader.consumed_initial.run hrun
  have hstrings := Reader.strings_of_finish hr hfinish
  -- What has been read to the end has been read as far as it goes.
  have hconsumed : consumedStrings (Part.bytesAll parts) = r.strings := by
    have hfurthest := Reader.furthest_append hrun []
    rw [List.append_nil] at hfurthest
    rw [consumedStrings, hfurthest]
    rfl
  constructor
  case strings => rw [hstrings, hconsumed]
  case whole => exact ⟨r.opened, hstrings ▸ hr.scan⟩
  case scopes => exact fun kind span => scan_of_encloses hparts
  case blocks => exact fun span => balanced_of_curly hparts
  case balanced =>
    constructor
    · exact fun h span i hencloses _ _ => h .square span hencloses
    · exact fun h kind span => balanced_of_linesClose hparts (linesClose_of_balanced hparts h)

end Spelling

open Spelling

/-! ## Sources that are refused -/

/-- Where a source is refused for its brackets, and what has been read in front of it. -/
theorem refused_of_parse {source : Bytes} {wanted : Option Bytes} {found : Bytes} {span : Span}
    (h : parse source = .error ⟨.unbalanced wanted found, span⟩) :
    ∃ before b after, ∃ r : Reader, source = before ++ b :: after ∧ r.Consumed before
      ∧ consumedStrings source = r.strings ∧ span = ⟨before.length, before.length + 1⟩
      ∧ (Cause.unbalanced wanted found).Mismatches r.opened b := by
  have hparse : Tree.parse source = .error ⟨.unbalanced wanted found, span⟩ := by
    cases htree : Tree.parse source with
    | ok tree =>
      rw [parse, htree] at h
      cases h
    | error fault =>
      rw [parse, htree] at h
      cases h
      rfl
  rw [Tree.parse] at hparse
  -- At the end of a source no closer is found, so the fault is at a byte.
  cases hrun : Reader.initial.run source with
  | ok r =>
    rw [hrun] at hparse
    exact absurd hparse (Reader.finish_ne_unbalanced r wanted found span)
  | error fault =>
    rw [hrun] at hparse
    cases hparse
    -- Every byte before the refused one has been consumed.
    obtain ⟨before, b, after, r, rfl, hbefore, hstep⟩ := Reader.refused_of_run hrun
    have hr : r.Consumed before := Reader.consumed_initial.run hbefore
    refine ⟨before, b, after, r, rfl, hr, ?_, ?_, hr.mismatches hstep⟩
    · rw [consumedStrings, Reader.furthest_append hbefore, Reader.furthest_of_step hstep]
    · rw [← hr.offset]
      exact Reader.span_of_step hstep

/-- The closer at which a source is refused does not match what the scan has on top. -/
theorem isMismatch_of_parse {source : Bytes} {wanted : Option Bytes} {found : Bytes} {span : Span}
    (h : parse source = .error ⟨.unbalanced wanted found, span⟩) :
    IsMismatch source wanted found span := by
  obtain ⟨before, b, after, r, rfl, hr, hstrings, rfl, hfound, hwanted, kind, hb, hhead⟩ :=
    refused_of_parse h
  -- The stack of the scan is the one that the reader has, by `Reader.Consumed`.
  refine ⟨r.opened, kind, ?_, rfl, ?_, ?_, ?_, ?_⟩
  · rw [hstrings, List.take_left]
    exact hr.scan
  · rw [List.getElem?_append_right (Nat.le_refl _), Nat.sub_self, hb]
    rfl
  · rw [hfound, hb]
  · rw [hwanted, Option.map_eq_none_iff, List.head?_eq_none_iff]
  · rintro top rest hopened
    rw [hopened] at hwanted hhead
    refine ⟨hwanted, fun heq => hhead ?_⟩
    rw [hfound, hb] at heq
    exact congrArg some (Bracket.closer_injective (List.cons.inj heq).1)

/-- A scan of the whole source stops where the source is refused. -/
theorem scan_eq_none_of_parse {source : Bytes} {wanted : Option Bytes} {found : Bytes} {span : Span}
    (h : parse source = .error ⟨.unbalanced wanted found, span⟩) :
    scan [] (dropSpans (consumedStrings source) 0 source) = none := by
  obtain ⟨before, b, after, r, rfl, hr, hstrings, _, _, _, kind, hb, hhead⟩ := refused_of_parse h
  -- The strings have all been read in front of the refused byte, so that is not deleted.
  have hafter : dropSpans r.strings (0 + before.length) (b :: after) = b :: after := by
    refine dropSpans_after fun span hspan => ?_
    rw [Nat.zero_add, ← hr.offset]
    exact (hr.bounds span hspan).2
  rw [hstrings, dropSpans_append, hafter, Bracket.scan_append, hr.scan, Option.bind_some,
    Bracket.scan_cons, hb, Bracket.pass_closer, Bracket.pop_eq_none.2 hhead]
  rfl

/-- Brackets outside of string arguments decide alone whether a source is refused as unbalanced. -/
theorem parse_delimiters (source : Bytes) :
    (∀ arena, parse source = .ok arena → ∃ tree, arena.tree = .ok tree ∧ Delimited source tree)
      ∧ (∀ wanted found span, parse source = .error ⟨.unbalanced wanted found, span⟩ →
        IsMismatch source wanted found span)
      ∧ (∀ stack, scan [] (dropSpans (consumedStrings source) 0 source) = some stack →
        ∀ wanted found span, parse source ≠ .error ⟨.unbalanced wanted found, span⟩) := by
  refine ⟨fun arena h => ?_, fun _ _ _ => isMismatch_of_parse, fun stack hscan _ _ _ h => ?_⟩
  · obtain ⟨parts, opened, hparts, rfl, rfl⟩ := spelled_of_parse h
    have htree := parse_eq_ok_iff.2 ⟨parts, opened, hparts, rfl, rfl⟩
    rw [Tree.parse] at htree
    cases hrun : Reader.initial.run (Part.bytesAll parts) with
    | error fault =>
      rw [hrun] at htree
      cases htree
    | ok r =>
      rw [hrun] at htree
      exact ⟨_, Arena.tree_toArena _, delimited_of_isDocument hparts hrun htree⟩
  · rw [scan_eq_none_of_parse h] at hscan
    cases hscan

/-- The command `~a("]", [(x)], {y})`: a bracket in a string, and words in brackets of all kinds. -/
def delimitedSample : Bytes :=
  [tilde, 0x61, 0x28, quote, 0x5d, quote, comma, 0x20, 0x5b, 0x28, 0x78, 0x29, 0x5d, comma, 0x20,
    0x7b, 0x79, 0x7d, 0x29]

/-- The command `~a("[")` and the text `(]`, whose closer does not match. -/
def mismatchSample : Bytes :=
  [tilde, 0x61, 0x28, quote, 0x5b, quote, 0x29, 0x28, 0x5d]

theorem parse_delimiters_sample :
    (∃ arena, parse delimitedSample = .ok arena
      ∧ ∃ tree, arena.tree = .ok tree ∧ Delimited delimitedSample tree)
    ∧ (parse mismatchSample = .error ⟨.unbalanced (some [0x29]) [0x5d], ⟨8, 9⟩⟩
      ∧ IsMismatch mismatchSample (some [0x29]) [0x5d] ⟨8, 9⟩)
    ∧ scan [] (dropSpans (consumedStrings delimitedSample) 0 delimitedSample) = some []
      ∧ ∀ wanted found span, parse delimitedSample ≠ .error ⟨.unbalanced wanted found, span⟩ := by
  obtain ⟨arena, harena⟩ : ∃ arena, parse delimitedSample = .ok arena := ⟨_, rfl⟩
  have hmismatch : parse mismatchSample = .error ⟨.unbalanced (some [0x29]) [0x5d], ⟨8, 9⟩⟩ := rfl
  have hscan : scan [] (dropSpans (consumedStrings delimitedSample) 0 delimitedSample) = some [] := by
    decide +kernel
  exact ⟨⟨arena, harena, (parse_delimiters delimitedSample).1 arena harena⟩,
    ⟨hmismatch, (parse_delimiters mismatchSample).2.1 _ _ _ hmismatch⟩,
    hscan, (parse_delimiters delimitedSample).2.2 _ hscan⟩

/-- The command `~i[[` with a line feed and `]` after it. The closer takes the bracket of the text. -/
def strayCloserSample : Bytes :=
  [tilde, 0x69, 0x5b, 0x5b, lineFeed, 0x5d]

/-- Square brackets of an argument that are no bracket word. -/
theorem exists_encloses_not_balanced :
    ∃ arena tree span, parse strayCloserSample = .ok arena ∧ arena.tree = .ok tree
      ∧ Encloses strayCloserSample tree .square span
      ∧ ¬ Bracket.Balanced (tree.unquoted strayCloserSample span) := by
  let text : Tree := .node (.group [.node (.text ⟨3, 4⟩)])
  let command : Node Tree := .command ⟨1, 2⟩ [.inline text ⟨2, 6⟩]
  let tree : Tree := .node (.group [.node command])
  refine ⟨tree.toArena, tree, ⟨2, 6⟩, rfl, Arena.tree_toArena tree, ?_, by decide +kernel⟩
  have hcommand : tree.Has command := .child (List.mem_singleton_self _) (.here command)
  have harg : Argument.inline text ⟨2, 6⟩ ∈ [Argument.inline text ⟨2, 6⟩] :=
    List.mem_singleton_self _
  exact .argument hcommand harg rfl

end TildeMarkup
