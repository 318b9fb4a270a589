import TildeMarkup.Compile
import TildeMarkup.Proofs.Reader.Causes
import TildeMarkup.Proofs.Rendering
import TildeMarkup.Proofs.Spelling.Placement

/-!
# How compiling fails

Every source is compiled or has a fault of its own: no node is missing, no walk goes on without an end,
and every name is ASCII (`compile_outcome`). The fault is inside of the source.

* One of reading is at the byte that the reader stands in front of, or at the end of the source, and
  tells what is there (`Fault.OfReading`).
* One of rendering is at the name of a command, or at one of its arguments (`Fault.OfRendering`).
-/

namespace TildeMarkup

/-- The span runs forwards and ends in the source. -/
def Span.Inside (source : Bytes) (span : Span) : Prop :=
  span.start ≤ span.stop ∧ span.stop ≤ source.length

/-- The source is refused while it is read, at a byte that the reader stands in front of, or at its
end. -/
structure Fault.OfReading (source : Bytes) (fault : Fault) : Prop where
  stage : fault.cause.stage = .reading
  refused : parse source = .error fault
  /-- All bytes in front of the span are taken. What is there is refused, be it a byte or the end. -/
  cursor : ∃ r, Reader.initial.run (source.take fault.span.start) = .ok r
    ∧ ((∃ b, source[fault.span.start]? = some b ∧ r.step b = .error fault)
      ∨ (source.length = fault.span.start ∧ r.finish = .error fault))
  /-- The span is that of one byte, or empty at the end if nothing is found. -/
  place : (fault.cause.found? ≠ some [] ∧ fault.span.stop = fault.span.start + 1
      ∧ fault.span.stop ≤ source.length)
    ∨ (fault.cause.found? = some [] ∧ fault.span = ⟨source.length, source.length⟩)
  found : fault.cause.found? = some (fault.span.slice source)
  wanted : ∀ other, fault.cause.wanted? = some other → other ≠ fault.span.slice source

/-- What a fault of rendering is shown at, for a command: its name, or an argument. -/
def Cause.ShownAt {α : Type} (name : Span) (args : List (Argument α)) (span : Span) : Cause → Prop
  | unknownCommand _ => span = name
  | argumentCount _ _ => span = name
  | argumentKind _ => ∃ arg ∈ args, span = arg.span
  | unknownLanguage _ => ∃ arg, args.head? = some arg ∧ span = arg.span
  | _ => False

/-- The source is read, and one of its commands cannot be rendered. -/
structure Fault.OfRendering (source : Bytes) (fault : Fault) : Prop where
  stage : fault.cause.stage = .rendering
  command : ∃ arena id name args, parse source = .ok arena
    ∧ arena.get? id = some (.command name args) ∧ Html.FirstFault source name args fault
    ∧ fault.cause.ShownAt name args fault.span

/-- The arguments are as many, and of the kinds, as the command reads to be rendered. -/
def Builtin.Reads {α : Type} (builtin : Builtin) (args : List (Argument α)) : Prop :=
  match builtin.form with
  | .enclosed => ∃ arg, args = [arg] ∧ builtin.params.map Parameter.kind = [arg.kind]
      ∧ (arg.kind = .inline ∨ arg.kind = .block)
  | .code => ∃ text, args = [.string text]
  | .link => ∃ child span href, args = [.inline child span, .string href]
  | .listing => ∃ file text, args = [.string file, .string text]

/-! ## Faults of reading -/

/-- A fault of reading is at the byte that the reader refuses, or at the end. -/
theorem ofReading_of_parse {source : Bytes} {fault : Fault} (h : parse source = .error fault) :
    fault.OfReading source := by
  -- The two cases have the same parts, with the byte in one of them and with nothing in the other.
  rcases refused_cases h with ⟨before, b, after, r, rfl, hrun, hstep⟩ | ⟨r, hrun, hfinish⟩
  · have hnames := Reader.names_of_step hstep
    have hspan : fault.span = ⟨before.length, before.length + 1⟩ := by
      rw [Reader.span_of_step hstep, Reader.offset_of_run hrun]
      simp [Reader.initial]
    have hslice : fault.span.slice (before ++ b :: after) = [b] := by
      rw [hspan, Span.slice, List.drop_left, Nat.add_sub_cancel_left]
      rfl
    constructor
    · exact hnames.stage
    · exact h
    · refine ⟨r, ?_, .inl ⟨b, ?_, hstep⟩⟩
      · rw [hspan, List.take_left]
        exact hrun
      · rw [hspan, List.getElem?_append_right (Nat.le_refl _), Nat.sub_self]
        rfl
    · rw [hnames.found, hspan]
      exact .inl ⟨by simp, rfl, by simp⟩
    · rw [hslice]
      exact hnames.found
    · rw [hslice]
      exact hnames.wanted
  · have hnames := Reader.names_of_finish hfinish
    have hspan : fault.span = ⟨source.length, source.length⟩ := by
      rw [Reader.span_of_finish hfinish, Reader.offset_of_run hrun]
      simp [Reader.initial]
    have hslice : fault.span.slice source = [] := by
      rw [hspan, Span.slice, List.drop_length, List.take_nil]
    constructor
    · exact hnames.stage
    · exact h
    · refine ⟨r, ?_, .inr ⟨by rw [hspan], hfinish⟩⟩
      rw [hspan, List.take_length]
      exact hrun
    · exact .inr ⟨hnames.found, hspan⟩
    · rw [hslice]
      exact hnames.found
    · rw [hslice]
      exact hnames.wanted

/-- Its place is in the source, or right behind it. -/
theorem inside_of_ofReading {source : Bytes} {fault : Fault} (h : fault.OfReading source) :
    fault.span.Inside source := by
  unfold Span.Inside
  rcases h.place with ⟨_, hstop, hle⟩ | ⟨_, hspan⟩
  · omega
  · rw [hspan]
    exact ⟨Nat.le_refl _, Nat.le_refl _⟩

/-! ## Faults of rendering -/

section Rendering

variable {α : Type} {source : Bytes} {name : Span} {args : List (Argument α)} {fault : Fault}

/-- Whatever keeps a command from being rendered is a fault of rendering. -/
theorem stage_of_firstFault (h : Html.FirstFault source name args fault) :
    fault.cause.stage = .rendering := by
  cases h <;> rfl

theorem shownAt_of_firstFault (h : Html.FirstFault source name args fault) :
    fault.cause.ShownAt name args fault.span := by
  cases h with
  | unknownCommand => rfl
  | argumentCount => rfl
  | argumentKind i _ _ harg => exact ⟨_, List.mem_of_getElem? harg, rfl⟩
  | unknownLanguage _ _ _ hargs =>
    rw [hargs]
    exact ⟨_, rfl, rfl⟩

/-- The name and the arguments of a command of the arena are inside of the source. -/
theorem inside_of_get? {arena : Arena} {args : List (Argument Nat)} (h : parse source = .ok arena)
    {id : Nat} (hid : arena.get? id = some (.command name args)) :
    name.Inside source ∧ ∀ arg ∈ args, arg.span.Inside source := by
  obtain ⟨parts, opened, _, rfl, rfl⟩ := Spelling.spelled_of_parse h
  have hbounds := (Spelling.placed_documentTree parts).bounds
  obtain ⟨layer, hhas, hshape⟩ := Tree.mem_preorder.1 (Arena.exists_get?_iff.1 ⟨id, _, hid, rfl⟩)
  obtain ⟨more, rfl, hmore⟩ := Node.shape_eq_command hshape
  constructor
  · exact (hbounds _ hhas.marks_name).2
  · intro arg harg
    -- the argument of the arena stands where that of the tree does
    have hmem : arg.map (fun _ => ()) ∈ more.map (Argument.map fun _ => ()) := by
      rw [hmore]
      exact List.mem_map_of_mem harg
    obtain ⟨other, hother, hsame⟩ := List.mem_map.1 hmem
    have hspan := congrArg Argument.span hsame
    rw [Argument.span_map, Argument.span_map] at hspan
    rw [← hspan]
    exact (hbounds _ (hhas.marks_argument hother other.mem_marks)).2

/-- What a fault of rendering is shown at stands in the source, because names and arguments do. -/
theorem inside_of_shownAt {args : List (Argument Nat)} {span : Span} {cause : Cause}
    (h : cause.ShownAt name args span) (hname : name.Inside source)
    (hargs : ∀ arg ∈ args, arg.span.Inside source) : span.Inside source := by
  cases cause with
  | unknownCommand => rw [h]; exact hname
  | argumentCount => rw [h]; exact hname
  | argumentKind =>
    obtain ⟨arg, harg, rfl⟩ := h
    exact hargs arg harg
  | unknownLanguage =>
    obtain ⟨arg, harg, rfl⟩ := h
    exact hargs arg (List.mem_of_head? harg)
  | _ => exact h.elim

theorem exists_string_of_kind {arg : Argument α} (h : arg.kind = .string) :
    ∃ span, arg = .string span := by
  cases arg with
  | string span => exact ⟨span, rfl⟩
  | _ => cases h

theorem exists_inline_of_kind {arg : Argument α} (h : arg.kind = .inline) :
    ∃ child span, arg = .inline child span := by
  cases arg with
  | inline child span => exact ⟨child, span, rfl⟩
  | _ => cases h

/-- What the parameters of a command say of the form of its arguments. -/
theorem reads_of_kinds {builtin : Builtin} (hbuiltin : builtin ∈ Builtin.all)
    (h : args.map Argument.kind = builtin.params.map Parameter.kind) : builtin.Reads args := by
  -- Which kinds a form goes with is read off the commands.
  have hkinds : ∀ builtin ∈ Builtin.all, builtin.params.map Parameter.kind
      = match builtin.form with
        | .enclosed => if .block ∈ builtin.params.map Parameter.kind then [.block] else [.inline]
        | .code => [.string]
        | .link => [.inline, .string]
        | .listing => [.string, .string] := by decide
  have hform := h.trans (hkinds builtin hbuiltin)
  unfold Builtin.Reads
  cases hcase : builtin.form with
  | enclosed =>
    have hone : ∃ arg, args = [arg] ∧ (arg.kind = .inline ∨ arg.kind = .block) := by
      simp only [hcase] at hform
      split at hform
      · obtain ⟨arg, rfl, hkind⟩ := List.map_eq_singleton_iff.1 hform
        exact ⟨arg, rfl, .inr hkind⟩
      · obtain ⟨arg, rfl, hkind⟩ := List.map_eq_singleton_iff.1 hform
        exact ⟨arg, rfl, .inl hkind⟩
    obtain ⟨arg, rfl, hkind⟩ := hone
    exact ⟨arg, rfl, h.symm, hkind⟩
  | code =>
    simp only [hcase] at hform
    obtain ⟨arg, rfl, hkind⟩ := List.map_eq_singleton_iff.1 hform
    obtain ⟨text, rfl⟩ := exists_string_of_kind hkind
    exact ⟨text, rfl⟩
  | link =>
    simp only [hcase] at hform
    obtain ⟨first, rest, rfl, hfirst, hrest⟩ := List.map_eq_cons_iff.1 hform
    obtain ⟨second, rfl, hsecond⟩ := List.map_eq_singleton_iff.1 hrest
    obtain ⟨child, span, rfl⟩ := exists_inline_of_kind hfirst
    obtain ⟨href, rfl⟩ := exists_string_of_kind hsecond
    exact ⟨child, span, href, rfl⟩
  | listing =>
    simp only [hcase] at hform
    obtain ⟨first, rest, rfl, hfirst, hrest⟩ := List.map_eq_cons_iff.1 hform
    obtain ⟨second, rfl, hsecond⟩ := List.map_eq_singleton_iff.1 hrest
    obtain ⟨file, rfl⟩ := exists_string_of_kind hfirst
    obtain ⟨text, rfl⟩ := exists_string_of_kind hsecond
    exact ⟨file, text, rfl⟩

/-- A command that passes its check has the arguments that it reads. -/
theorem exists_reads_of_checkCommand (h : Html.checkCommand source name args = .ok ()) :
    ∃ builtin, Builtin.find? (commandName source name) = some builtin ∧ builtin.Reads args := by
  obtain ⟨builtin, hfind, hkinds, _⟩ := Html.checkCommand_eq_ok.1 h
  exact ⟨builtin, hfind, reads_of_kinds (Builtin.mem_all_of_find? hfind) hkinds⟩

end Rendering

/-! ## All sources -/

/-- A fault of reading is what the compilation fails for. -/
theorem compile_of_error {source : Bytes} {fault : Fault} (h : parse source = .error fault) :
    compile source = .error (.fault fault) := by
  rw [compile, h]
  rfl

/-- What is read is rendered. -/
theorem compile_of_ok {source : Bytes} {arena : Arena} (h : parse source = .ok arena) :
    compile source = Html.render source arena := by
  rw [compile, h]
  rfl

/-- What makes a compilation fail is a fault inside of the source, of reading or of rendering. -/
theorem fault_of_compile {source : Bytes} {failure : Failure} (h : compile source = .error failure) :
    ∃ fault, failure = .fault fault ∧ fault.span.Inside source
      ∧ (fault.OfReading source ∨ fault.OfRendering source) := by
  cases hparse : parse source with
  -- A source that is not read is not rendered, so its fault is the one of reading.
  | error fault =>
    rw [compile_of_error hparse] at h
    cases h
    have hreading := ofReading_of_parse hparse
    exact ⟨fault, rfl, inside_of_ofReading hreading, .inl hreading⟩
  | ok arena =>
    rw [compile_of_ok hparse] at h
    obtain ⟨id, name, args, fault, hfirst, hfault, rfl⟩ := firstInvalid_of_render hparse h
    have hshown := shownAt_of_firstFault hfault
    obtain ⟨hname, hargs⟩ := inside_of_get? hparse hfirst.get
    refine ⟨fault, rfl, inside_of_shownAt hshown hname hargs, .inr ?_⟩
    exact ⟨stage_of_firstFault hfault, arena, id, name, args, hparse, hfirst.get, hfault, hshown⟩

/-- Every source is compiled, or has a fault of reading or of rendering inside of it. No argument is
read that a command does not have. -/
theorem compile_outcome (source : Bytes) :
    ((∃ html, compile source = .ok html)
      ∨ ∃ fault, compile source = .error (.fault fault) ∧ fault.span.Inside source
        ∧ (fault.OfReading source ∨ fault.OfRendering source))
    ∧ ∀ arena id name args, parse source = .ok arena → arena.get? id = some (.command name args) →
      Html.checkCommand source name args = .ok () →
        ∃ builtin, Builtin.find? (commandName source name) = some builtin ∧ builtin.Reads args := by
  refine ⟨?_, fun _ _ _ _ _ _ => exists_reads_of_checkCommand⟩
  cases hcompile : compile source with
  | ok html => exact .inl ⟨html, rfl⟩
  | error failure =>
    obtain ⟨fault, rfl, hinside, hkind⟩ := fault_of_compile hcompile
    exact .inr ⟨fault, rfl, hinside, hkind⟩

/-- In a line of text the command `~i{` may have no braces. The command `~x[y]` is read, but there is
none of that name; `~i[y]` can be rendered. -/
theorem compile_outcome_sample :
    Fault.OfReading [0x78, tilde, 0x69, 0x7b] ⟨.expectedArguments [0x7b], ⟨3, 4⟩⟩
      ∧ Fault.OfRendering [tilde, 0x78, 0x5b, 0x79, 0x5d] ⟨.unknownCommand "x", ⟨1, 2⟩⟩
      ∧ ∃ builtin, Builtin.find? (commandName [tilde, 0x69, 0x5b, 0x79, 0x5d] ⟨1, 2⟩) = some builtin
        ∧ builtin.Reads [Argument.inline 1 ⟨2, 5⟩] := by
  refine ⟨?_, ?_, ?_⟩
  · have hcompile : compile [0x78, tilde, 0x69, 0x7b]
        = .error (.fault ⟨.expectedArguments [0x7b], ⟨3, 4⟩⟩) := rfl
    rcases (compile_outcome [0x78, tilde, 0x69, 0x7b]).1 with ⟨html, hhtml⟩ | ⟨fault, hfault, _, hkind⟩
    · rw [hcompile] at hhtml
      cases hhtml
    · rw [hcompile] at hfault
      cases hfault
      exact hkind.resolve_right fun hrendering => by cases hrendering.stage
  · have hcompile : compile [tilde, 0x78, 0x5b, 0x79, 0x5d]
        = .error (.fault ⟨.unknownCommand "x", ⟨1, 2⟩⟩) := rfl
    rcases (compile_outcome [tilde, 0x78, 0x5b, 0x79, 0x5d]).1 with ⟨html, hhtml⟩
      | ⟨fault, hfault, _, hkind⟩
    · rw [hcompile] at hhtml
      cases hhtml
    · rw [hcompile] at hfault
      cases hfault
      exact hkind.resolve_left fun hreading => by cases hreading.stage
  · let arena : Arena :=
      ⟨#[.text ⟨3, 4⟩, .group [0], .command ⟨1, 2⟩ [.inline 1 ⟨2, 5⟩], .group [2]], 3⟩
    have hparse : parse [tilde, 0x69, 0x5b, 0x79, 0x5d] = .ok arena := rfl
    have hcheck : Html.checkCommand [tilde, 0x69, 0x5b, 0x79, 0x5d] ⟨1, 2⟩ [Argument.inline 1 ⟨2, 5⟩]
        = .ok () := rfl
    exact (compile_outcome [tilde, 0x69, 0x5b, 0x79, 0x5d]).2 arena 2 _ _ hparse rfl hcheck

end TildeMarkup
