import TildeMarkup.Proofs.Report

/-!
# The lines of a report

A report has a line for the message, one for the place, and three with a bar. It has more only if the
message has line feeds itself. The bytes that a message names are shown one by one, with a word for the
line feed, and the name of a command is of letters. What is left is the extension of a listing, which is
shown as it is written: a line feed behind the last dot of the file name breaks the message
(`format_lines`).
-/

namespace TildeMarkup

open Utf8

/-! ## Text without line feeds -/

theorem lineFeed_not_mem_decodeChars {bytes : Bytes} (h : lineFeed ∉ bytes) :
    '\n' ∉ decodeChars bytes :=
  fun hmem => h (mem_of_mem_decodeFrom (show State.clear.Wide from trivial) hmem (by decide) (by decide))

/-- The bytes in front of an offset on its line are taken backwards up to a line feed, so none is in
them. -/
theorem lineFeed_not_mem_linePrefix (source : Bytes) (n : Nat) :
    lineFeed ∉ Position.linePrefix source n := by
  intro h
  have hpassed := List.all_eq_true.1 List.all_takeWhile _ (List.mem_reverse.1 h)
  simp at hpassed

/-- What is shown of a source is part of one line, whatever the offset is. -/
theorem lineFeed_not_mem_shownLine (source : Bytes) (n : Nat) : '\n' ∉ Report.shownLine source n := by
  refine lineFeed_not_mem_decodeChars fun h => ?_
  rw [dropReturns, List.mem_reverse] at h
  have hline := List.mem_reverse.1 ((List.dropWhile_suffix _).subset h)
  rcases List.mem_append.1 hline with hbefore | hbehind
  · exact lineFeed_not_mem_linePrefix source n hbefore
  · have hpassed := List.all_eq_true.1 List.all_takeWhile _ hbehind
    simp at hpassed

/-! ## Messages -/

/-- A single byte is named in one line, as the line feed has a word of its own. -/
theorem lineFeed_not_mem_describe {found : Bytes} (h : found.length ≤ 1) :
    '\n' ∉ (Cause.describe found).toList := by
  match found, h with
  | [], _ => decide
  | [b], _ =>
    by_cases hb : b = lineFeed
    · subst hb
      decide
    · have hdescribe : Cause.describe [b] = "`" ++ decode [b] ++ "`" := by
        rw [Cause.describe, if_neg (by simp), if_neg (by simpa using hb)]
      have hdecode : '\n' ∉ decodeChars [b] :=
        lineFeed_not_mem_decodeChars fun hmem => hb (List.mem_singleton.1 hmem).symm
      rw [hdescribe]
      simp [decode, hdecode]

/-- A cause of reading names single bytes, one that is found and one that is wanted. -/
theorem Cause.Names.lineFeed_not_mem_message {cause : Cause} {found : Bytes} (h : cause.Names found)
    (hfound : found.length ≤ 1) : '\n' ∉ cause.message.toList := by
  have hdescribe := lineFeed_not_mem_describe hfound
  have hwanted {other : Bytes} (hother : cause.wanted? = some other) :
      '\n' ∉ (describe other).toList := by
    obtain ⟨e, rfl⟩ := h.single other hother
    exact lineFeed_not_mem_describe (Nat.le_refl 1)
  -- One case for each message; what varies in it is the name of a byte.
  cases cause with
  | expected wanted other =>
    cases h.found
    show '\n' ∉ ("expected " ++ describe wanted ++ ", found " ++ describe found).toList
    simp [hdescribe, hwanted rfl]
  | expectedArguments other =>
    cases h.found
    show '\n' ∉ ("expected arguments, found " ++ describe found).toList
    simp [hdescribe]
  | unbalanced wanted other =>
    cases h.found
    cases wanted with
    | none =>
      show '\n' ∉ ("unmatched closing " ++ describe found).toList
      simp [hdescribe]
    | some wanted =>
      show '\n' ∉ ("mismatched closing " ++ describe found ++ ", expected " ++ describe wanted).toList
      simp [hdescribe, hwanted rfl]
  | _ => cases h.found

/-- What a source is refused for while it is read has a message of one line. -/
theorem lineFeed_not_mem_message_of_parse {source : Bytes} {fault : Fault}
    (h : parse source = .error fault) : '\n' ∉ fault.cause.message.toList := by
  -- The reader stops at a byte, or at the end of the source with nothing found.
  rcases refused_cases h with ⟨_, b, _, r, _, _, hstep⟩ | ⟨r, _, hfinish⟩
  · exact (Reader.names_of_step hstep).lineFeed_not_mem_message (Nat.le_refl 1)
  · exact (Reader.names_of_finish hfinish).lineFeed_not_mem_message (Nat.zero_le 1)

section Rendering

variable {source : Bytes} {arena : Arena} {id : Nat} {name : Span} {args : List (Argument Nat)}
  {fault : Fault}

/-- The name of a command is of letters, so that it is shown in one line as well. -/
theorem lineFeed_not_mem_commandName (h : parse source = .ok arena)
    (hid : arena.get? id = some (.command name args)) :
    '\n' ∉ (commandName source name).toList := by
  rw [commandName, decode, String.toList_ofList]
  refine lineFeed_not_mem_decodeChars fun hmem => ?_
  have hletter := List.all_eq_true.1 (all_isLetter_of_get? h hid) _ hmem
  exact absurd hletter (by decide)

/-- Of what can be wrong with a command, only an extension can break the message. -/
theorem lineFeed_mem_message_of_firstFault (h : Html.FirstFault source name args fault)
    (hname : '\n' ∉ (commandName source name).toList) :
    '\n' ∈ fault.cause.message.toList ↔ ∃ extension, fault.cause = .unknownLanguage extension
      ∧ Listing.HasExtension (Html.stringText source fault.span) extension
      ∧ '\n' ∈ extension.toList := by
  -- The numbers and kinds of the other messages are written without line feeds.
  cases h with
  | unknownCommand hfind =>
    refine iff_of_false ?_ fun ⟨_, hcause, _⟩ => by cases hcause
    show '\n' ∉ ("unknown command `~" ++ commandName source name ++ "`").toList
    simp [hname]
  | @argumentCount builtin hfind hcount =>
    refine iff_of_false ?_ fun ⟨_, hcause, _⟩ => by cases hcause
    have hnumber (n : Nat) : '\n' ∉ (toString (n : Int)).toList := Report.not_mem_toString rfl n
    have hnoun (n : Int) : '\n' ∉ (if n = 1 then " argument" else " arguments").toList := by
      split <;> decide
    show '\n' ∉ ("expected " ++ toString (builtin.params.length : Int)
      ++ (if (builtin.params.length : Int) = 1 then " argument" else " arguments")
      ++ ", found " ++ toString (args.length : Int)).toList
    simp only [String.toList_append, List.mem_append, not_or]
    exact ⟨⟨⟨⟨by decide, hnumber _⟩, hnoun _⟩, by decide⟩, hnumber _⟩
  | @argumentKind builtin arg param i hfind hcount harg hparam hkind hleft =>
    refine iff_of_false ?_ fun ⟨_, hcause, _⟩ => by cases hcause
    show '\n' ∉ (Cause.argumentKind param.kind).message.toList
    cases param.kind <;> decide
  | @unknownLanguage builtin file rest extension hfind hkinds hname hargs hunknown hextension =>
    have hmessage : '\n' ∈ (Cause.unknownLanguage extension).message.toList
        ↔ '\n' ∈ extension.toList := by
      show '\n' ∈ (if extension.isEmpty then "code block file name has no extension"
        else "unknown code block file extension `" ++ extension ++ "`").toList ↔ _
      split
      · next hempty =>
        rw [String.isEmpty_iff.1 hempty]
        decide
      · simp
    refine hmessage.trans ⟨fun hfeed => ?_, fun ⟨_, hcause, _, hfeed⟩ => by cases hcause; exact hfeed⟩
    refine ⟨extension, rfl, hextension.resolve_right fun ⟨_, hempty⟩ => ?_, hfeed⟩
    rw [hempty] at hfeed
    cases hfeed

end Rendering

/-! ## Lines -/

namespace Report

/-- Only the message and the name of the file can bring more lines into a report. -/
theorem View.splitOn_text (view : View) (hname : '\n' ∉ view.fileName.toList)
    (hshown : '\n' ∉ view.shown) :
    view.text.toList.splitOn '\n'
      = ("error: " ++ view.message).toList.splitOn '\n' ++ view.lines.tail.map String.toList := by
  have hgutter : '\n' ∉ view.gutter.toList := by
    rw [View.gutter, toList_times]
    simp
  have hnumber (n : Nat) : '\n' ∉ (toString n).toList := not_mem_toString rfl n
  -- The lines below the message are one each, so joining and splitting leaves them as they are.
  have htail : ∀ line ∈ view.lines.tail.map String.toList, '\n' ∉ line := by
    simp only [View.lines, List.tail_cons, List.map_cons, List.map_nil, List.forall_mem_cons,
      String.toList_append, List.mem_append, hgutter, hnumber, hname, hshown, String.toList_ofList,
      toList_times, List.mem_replicate, false_or, or_false]
    simp
  have hlines : view.lines = ("error: " ++ view.message) :: view.lines.tail := rfl
  have hne : view.lines.tail.map String.toList ≠ [] := by simp [View.lines]
  obtain ⟨second, rest, hrest⟩ := List.exists_cons_of_ne_nil hne
  have hfeed : "\n".toList = ['\n'] := rfl
  rw [View.text, hlines, String.toList_intercalate, List.map_cons, hfeed, List.tail_cons, hrest,
    List.intercalate_cons_cons, List.append_assoc, List.singleton_append,
    List.splitOn_append_cons_self, ← hrest, List.splitOn_intercalate _ htail hne]

/-- A report has five lines, and one more for each line feed of its message. The message has one exactly
if the fault is the extension of a listing, and the line feed is part of that. -/
theorem format_lines {source : Bytes} {failure : Failure} (h : compile source = .error failure)
    {fileName : String} (hname : '\n' ∉ fileName.toList) :
    ∃ fault view, failure = .fault fault
      ∧ view = View.ofFault fileName source fault
      ∧ ('\n' ∈ fault.cause.message.toList ↔ ∃ extension, fault.cause = .unknownLanguage extension
        ∧ Listing.HasExtension (Html.stringText source fault.span) extension
        ∧ '\n' ∈ extension.toList)
      ∧ (format fileName source fault).toList.splitOn '\n'
        = ("error: " ++ fault.cause.message).toList.splitOn '\n' ++ view.lines.tail.map String.toList
      ∧ ((format fileName source fault).toList.splitOn '\n').length
        = fault.cause.message.toList.count '\n' + 5
      ∧ ('\n' ∉ fault.cause.message.toList →
        (format fileName source fault).toList.splitOn '\n' = view.lines.map String.toList) := by
  obtain ⟨fault, rfl, -, hkind⟩ := fault_of_compile h
  let view := View.ofFault fileName source fault
  have hsplit : (format fileName source fault).toList.splitOn '\n'
      = ("error: " ++ fault.cause.message).toList.splitOn '\n' ++ view.lines.tail.map String.toList := by
    rw [format_eq_text]
    exact view.splitOn_text hname (lineFeed_not_mem_shownLine source fault.span.start)
  refine ⟨fault, view, rfl, rfl, ?_, hsplit, ?_, fun hmessage => ?_⟩
  -- A fault of reading names no extension; one of rendering may.
  · rcases hkind with hreading | hrendering
    · refine iff_of_false (lineFeed_not_mem_message_of_parse hreading.refused) ?_
      rintro ⟨_, hcause, _⟩
      have hstage := hreading.stage
      rw [hcause] at hstage
      cases hstage
    · obtain ⟨arena, id, name, args, hparse, hid, hfirst, _⟩ := hrendering.command
      exact lineFeed_mem_message_of_firstFault hfirst (lineFeed_not_mem_commandName hparse hid)
  · have hcount : "error: ".toList.count '\n' = 0 := by decide
    rw [hsplit, List.length_append, length_splitOn, String.toList_append, List.count_append, hcount,
      Nat.zero_add]
    rfl
  · have hfirst : '\n' ∉ ("error: " ++ fault.cause.message).toList := by simp [hmessage]
    rw [hsplit, List.splitOn_eq_singleton hfirst]
    rfl

/-- The source `~x[]` has a command that does not exist, and its report has five lines. -/
theorem format_lines_sample :
    let source : Bytes := [tilde, 0x78, 0x5b, 0x5d]
    let fault : Fault := ⟨.unknownCommand "x", ⟨1, 2⟩⟩
    compile source = .error (.fault fault) ∧ '\n' ∉ "a.rev".toList
      ∧ ((format "a.rev" source fault).toList.splitOn '\n').length = 5
      ∧ (format "a.rev" source fault).toList.splitOn '\n'
        = (View.ofFault "a.rev" source fault).lines.map String.toList := by
  intro source fault
  have hcompile : compile source = .error (.fault fault) := rfl
  have hname : '\n' ∉ "a.rev".toList := by decide
  obtain ⟨_, _, ⟨⟩, rfl, hmessage, -, hlength, hlines⟩ := format_lines hcompile hname
  have hline : '\n' ∉ fault.cause.message.toList := fun h => by
    obtain ⟨_, hcause, _⟩ := hmessage.1 h
    cases hcause
  rw [List.count_eq_zero.2 hline] at hlength
  exact ⟨hcompile, hname, hlength, hlines hline⟩

/-- The command `~codeblock("a.b<line feed>c", "x")`: its report has six lines. -/
theorem exists_message_of_two_lines :
    let source : Bytes := Utf8.encode "~codeblock(\"a.b\nc\", \"x\")"
    let fault : Fault := ⟨.unknownLanguage "b\nc", ⟨11, 18⟩⟩
    compile source = .error (.fault fault) ∧ '\n' ∈ fault.cause.message.toList
      ∧ ((format "a.rev" source fault).toList.splitOn '\n').length = 6 := by
  decide +kernel

end Report

end TildeMarkup
