import TildeMarkup.Proofs.Reader.Moves
import TildeMarkup.Proofs.Spelling.Grammar

/-!
# Spellings are read

Every spelling of the grammar is read without a fault, and as the nodes that it stands for:
`Part.run_blocks` for parts between blocks, `Part.run_pieces` for the pieces of a run,
`Arg.run_list` for a list. They are proved together, along the structure of the spelling, since a
part holds arguments and an argument holds parts. `parse_of_isDocument` is the case of a whole
source.

The readers in the statements have an explicit state. Its stack is split where that matters: `τ` is
what is open in the scope at hand, `β` what was open when the scope began.
-/

namespace TildeMarkup.Spelling

open Reader

variable {n : Nat} {σ τ next β : List Bracket} {S : Scope} {blocks : Bool}

/-! ## Between two pieces of a run -/

/-- A line end after a run: its return is not part of the text in front of it. -/
theorem run_ending {ending : Ending} {pieces : List Tree} {start : Nat} {afterReturn : Bool}
    (hβ : β.length = S.depth) (hending : ending ≠ .none)
    (hreturn : ending = .lineFeed → afterReturn = false) :
    (Reader.mk n (τ ++ β) S (.text pieces start afterReturn)).run ending.bytes
      = .ok (Reader.mk (n + ending.bytes.length) (τ ++ β) (S.addRun (addText pieces start n))
          .ready) := by
  cases ending with
  | none => exact absurd rfl hending
  | lineFeed =>
    rw [Ending.bytes, run_text_lineFeed, hreturn rfl]
    rfl
  | returnLineFeed =>
    have hpass : Bracket.pass τ carriageReturn = some τ := Bracket.pass_plain (by decide) τ
    rw [Ending.bytes, run_text_byte hβ (by decide) (by decide) hpass, run_text_lineFeed]
    rfl

/-- The first byte of what stands in square brackets is no tilde, if that is a run. -/
theorem head_run_ne_tilde {pieces : List Part} {ending : Ending} {b : UInt8} {rest : Bytes}
    (hstarts : Part.startsRun true pieces = true) (hfits : Part.FitsAll false pieces)
    (h : Part.bytesAll pieces ++ ending.bytes ++ [Bracket.square.closer] = b :: rest) :
    b ≠ tilde := by
  match pieces, hstarts, hfits with
  | [], _, _ =>
    cases ending <;> cases h <;> decide
  | .text (c :: more) :: others, _, hfits =>
    have htext : c = b := by
      rw [Part.bytesAll, Part.bytes] at h
      exact (List.cons.inj h).1
    rw [Part.FitsAll, Part.Fits] at hfits
    rintro rfl
    exact hfits.1.2.1 (htext ▸ List.mem_cons_self ..)

/-- A paragraph starts with a byte that neither blanks, nor a command, nor the end of the scope
start with. -/
theorem head_paragraph {pieces : List Part} (hstarts : Part.startsRun false pieces = true)
    (hfits : Part.FitsAll false pieces) (hcross : Part.crossAll τ pieces = some next) :
    ∃ b rest middle, Part.bytesAll pieces = b :: rest ∧ b ≠ tilde ∧ isBlank b = false
      ∧ Bracket.pass τ b = some middle := by
  match pieces, hstarts, hfits, hcross with
  | .text (b :: more) :: others, hstarts, hfits, hcross =>
    rw [Part.crossAll, Part.cross, Bracket.scan_cons] at hcross
    obtain ⟨_, hscan, _⟩ := Option.bind_eq_some_iff.1 hcross
    obtain ⟨middle, hpass, _⟩ := Option.bind_eq_some_iff.1 hscan
    obtain ⟨⟨_, htilde, _⟩, _⟩ := hfits
    refine ⟨b, _, middle, rfl, ?_, ?_, hpass⟩
    · rintro rfl
      exact htilde (List.mem_cons_self ..)
    · simpa only [Part.startsRun, Bool.false_or, Bool.not_eq_true'] using hstarts

/-- After a name, the blanks that follow it, and a byte that opens the arguments. -/
theorem run_name_gap {place : Place} {name gap rest : Bytes} {b : UInt8}
    (hname : name.all isLetter = true) (hgap : gap.all isBlank = true)
    (hb : isLetter b = false) :
    (Reader.mk n σ S (.name place n)).run (name ++ (gap ++ b :: rest))
      = (Reader.mk (n + name.length + gap.length) σ S
          (.head place ⟨n, n + name.length⟩)).run (b :: rest) := by
  rw [run_name hname]
  cases gap with
  | nil => exact run_name_end hb
  | cons c more =>
    have hblank : isBlank c = true := by
      rw [List.all_cons, Bool.and_eq_true] at hgap
      exact hgap.1
    rw [List.cons_append, run_name_end (isLetter_eq_false_of_isBlank hblank), ← List.cons_append,
      run_head_gap hgap]

/-- The mode between the arguments of a list: in front of one, or after one. -/
def listMode (argFits fresh : Bool) (call : Call) : Mode :=
  if argFits then .list call fresh else .next call

/-- A blank between the arguments of a list changes nothing but that the list is no longer fresh. -/
theorem run_listMode_blank {argFits fresh : Bool} {call : Call} {b : UInt8} {rest : Bytes}
    (hb : isBlank b = true) :
    (Reader.mk n σ S (listMode argFits fresh call)).run (b :: rest)
      = (Reader.mk (n + 1) σ S (listMode argFits false call)).run rest := by
  cases argFits with
  | true => exact run_list_blank hb
  | false => exact run_next_blank hb

/-- What is left of a list after an identifier does not go on with a letter. -/
theorem head_list_not_letter {args : List Arg} (h : (args.foldlM Arg.inList false).isSome = true)
    (hfits : Arg.FitsAll blocks args) :
    ∃ b rest, Arg.bytesAll args ++ [Bracket.round.closer] = b :: rest ∧ isLetter b = false := by
  match args, h, hfits with
  | [], _, _ => exact ⟨_, _, rfl, by decide⟩
  | .blank b :: rest, _, hfits => exact ⟨b, _, rfl, isLetter_eq_false_of_isBlank hfits.1⟩
  | .comma :: rest, _, _ => exact ⟨_, _, rfl, by decide⟩

/-- The contents of a string and the quotes behind them, for contents that do not end the string early. -/
theorem run_string (n : Nat) (σ : List Bracket) (S : Scope) (call : Call) (start : Nat)
    {raw : Bytes} {escaped : Bool} (h : quotable escaped raw = true) :
    (Reader.mk n σ S (.string call start escaped)).run (raw ++ [quote])
      = .ok (afterArgument (n + raw.length + 1) σ S call (.string ⟨start, n + raw.length + 1⟩)) := by
  induction raw generalizing n escaped with
  | nil =>
    have hescaped : escaped = false := by simpa [quotable] using h
    rw [hescaped, List.nil_append, run_string_quote, run_nil]
    rfl
  | cons b more ih =>
    rw [quotable, Bool.and_eq_true] at h
    rw [List.cons_append, run_string_byte h.1, ih (n + 1) h.2, List.length_cons]
    rw [show n + 1 + more.length = n + (more.length + 1) from by omega]

/-! ## What one part adds

The runs of what is inside a part are given, so that these lemmas need no induction. -/

/-- A command with one argument, in brackets right after the name and the blanks that follow it. -/
theorem run_single {place : Place} {name gap rest : Bytes} {arg : Arg} {a : Argument Tree}
    {kind : Bracket} (hname : name.all isLetter = true) (hgap : gap.all isBlank = true)
    (hbytes : arg.bytes = kind.opener :: rest)
    (harg : arg.arguments (argsStart n name gap false) = [a])
    (hrun : (Reader.mk (argsStart n name gap false) σ S
        (.head place ⟨n + 1, n + 1 + name.length⟩)).run arg.bytes
      = .ok (afterArgument (argsStart n name gap false + arg.bytes.length) next S
          ⟨place, ⟨n + 1, n + 1 + name.length⟩, false, []⟩ a)) :
    ∃ tree, (Part.call name gap false [arg]).trees n = [tree]
      ∧ (Reader.mk (n + 1) σ S (.name place (n + 1))).run (Part.call name gap false [arg]).bytes.tail
        = .ok (afterCall (n + (Part.call name gap false [arg]).bytes.length) next S place tree) := by
  have hopens : isLetter kind.opener = false := by cases kind <;> decide
  refine ⟨_, rfl, ?_⟩
  rw [Part.length_bytes_call, Part.bytes, List.tail_cons, if_neg Bool.false_ne_true,
    if_neg Bool.false_ne_true, Arg.bytesAll_singleton, Arg.argumentsAll_singleton, harg, hbytes,
    run_name_gap hname hgap hopens, ← hbytes]
  exact hrun

/-- An argument of a list, and what is left of the list after it. -/
theorem run_list_cons {call : Call} {m : Mode} {arg : Arg} {a : Argument Tree} {rest : List Arg}
    (harg : arg.arguments n = [a])
    (hrun : (Reader.mk n σ S m).run (arg.bytes ++ (Arg.bytesAll rest ++ [Bracket.round.closer]))
      = (Reader.mk (n + arg.bytes.length) τ S (.next { call with args := a :: call.args })).run
          (Arg.bytesAll rest ++ [Bracket.round.closer]))
    (hrest : (Reader.mk (n + arg.bytes.length) τ S
        (listMode false false { call with args := a :: call.args })).run
          (Arg.bytesAll rest ++ [Bracket.round.closer])
      = .ok (afterCall (n + arg.bytes.length + (Arg.bytesAll rest).length + 1) next S call.place
          (.node (.command call.name
            ((a :: call.args).reverse ++ Arg.argumentsAll (n + arg.bytes.length) rest))))) :
    (Reader.mk n σ S m).run (Arg.bytesAll (arg :: rest) ++ [Bracket.round.closer])
      = .ok (afterCall (n + (Arg.bytesAll (arg :: rest)).length + 1) next S call.place
          (.node (.command call.name
            (call.args.reverse ++ Arg.argumentsAll n (arg :: rest))))) := by
  rw [Arg.bytesAll, List.append_assoc, Arg.argumentsAll, harg, List.length_append, ← Nat.add_assoc,
    hrun]
  refine hrest.trans ?_
  rw [List.reverse_cons, List.append_assoc]

/-- An argument that is read by itself is one of the list, where the reader waits for a comma. -/
theorem run_append_next {call : Call} {m : Mode} {bytes rest : Bytes} {k : Nat} {a : Argument Tree}
    (hlisted : call.listed = true)
    (hrun : (Reader.mk n σ S m).run bytes = .ok (afterArgument k τ S call a)) :
    (Reader.mk n σ S m).run (bytes ++ rest)
      = (Reader.mk k τ S (.next { call with args := a :: call.args })).run rest := by
  rw [afterArgument, if_pos hlisted] at hrun
  rw [run_append, hrun]
  rfl

/-- Square brackets around a run. The run may leave brackets open only in front of a line end. -/
theorem run_inline_run {call : Call} {m : Mode} {pieces : List Part} {ending : Ending}
    {acc : List Tree} {start : Nat} {inner : List Bracket} (hm : AwaitsScope call m)
    (hstarts : Part.startsRun true pieces = true) (hpieces : Part.FitsAll false pieces)
    (hreturn : ending = .lineFeed → Part.runEndsInReturn false pieces = false)
    (hclose : closeInline (Part.run true pieces ending).isOpen inner σ = some next)
    (hrun : (Reader.mk (n + 1) (.square :: σ) (.brackets S call n (σ.length + 1) none)
        (.text [] (n + 1) false)).run (Part.bytesAll pieces)
      = .ok (Reader.mk (n + 1 + (Part.bytesAll pieces).length) (inner ++ .square :: σ)
          (.brackets S call n (σ.length + 1) none)
          (.text acc start (Part.runEndsInReturn false pieces))))
    (hacc : addText acc start (n + 1 + (Part.bytesAll pieces).length)
      = (Part.treesAll (n + 1) pieces).reverse) :
    ∃ a, (Arg.inline (.run true pieces ending)).arguments n = [a]
      ∧ (Reader.mk n σ S m).run (Arg.inline (.run true pieces ending)).bytes
        = .ok (afterArgument (n + (Arg.inline (.run true pieces ending)).bytes.length) next S call a)
    := by
  obtain ⟨hopen, hpop⟩ := closeInline_eq_some.1 hclose
  let B : Scope := .brackets S call n (σ.length + 1) none
  -- the first byte of the content starts a text, also where it is the closer
  obtain ⟨b, rest, hbytes⟩ : ∃ b rest,
      Part.bytesAll pieces ++ ending.bytes ++ [Bracket.square.closer] = b :: rest :=
    List.exists_cons_of_ne_nil (by simp)
  have hfirst : (Reader.mk (n + 1) (.square :: σ) B .ready).run (b :: rest)
      = (Reader.mk (n + 1) (.square :: σ) B (.text [] (n + 1) false)).run (b :: rest) :=
    run_ready_text trivial (head_run_ne_tilde hstarts hpieces hbytes) (fun h => by cases h)
      (fun h => by cases h)
  have hstop : n + 1 + (Part.bytesAll pieces).length + ending.bytes.length + 1
      = n + (Part.run true pieces ending).bytes.length + 2 := by
    rw [Part.bytes, List.length_append]
    omega
  refine ⟨_, rfl, ?_⟩
  rw [Arg.length_bytes_inline, ← hstop, Arg.bytes, run_square hm, Part.bytes, hbytes, hfirst,
    ← hbytes, List.append_assoc, run_append, hrun]
  show (Reader.mk _ _ B _).run (ending.bytes ++ [Bracket.square.closer]) = _
  by_cases hending : ending = .none
  · -- nothing of the content is open, so that the closer is that of the scope
    subst hending
    rw [hopen rfl] at hpop ⊢
    cases hpop
    exact run_close_square_text.trans (by rw [hacc, List.reverse_reverse]; rfl)
  · -- the run has ended with its line, and the closer is taken whatever it closes
    rw [run_append, run_ending rfl hending hreturn, hpop, hacc]
    exact run_close_square.trans (by rw [List.reverse_reverse])

/-- Square brackets around a command, with nothing between them and the command. -/
theorem run_inline_call {call : Call} {m : Mode} {part : Part} {tree : Tree}
    (hm : AwaitsScope call m) (hbytes : part.bytes = tilde :: part.bytes.tail)
    (htree : part.trees (n + 1) = [tree])
    (hrun : (Reader.mk (n + 2) (.square :: σ) (.brackets S call n (σ.length + 1) none)
        (.name .alone (n + 2))).run part.bytes.tail
      = .ok (afterCall (n + 1 + part.bytes.length) (.square :: next)
          (.brackets S call n (σ.length + 1) none) .alone tree)) :
    ∃ a, (Arg.inline part).arguments n = [a]
      ∧ (Reader.mk n σ S m).run (Arg.inline part).bytes
        = .ok (afterArgument (n + (Arg.inline part).bytes.length) next S call a) := by
  have hvacant : (Scope.brackets S call n (σ.length + 1) none).Vacant := trivial
  have hstop : n + 1 + part.bytes.length + 1 = n + part.bytes.length + 2 := by omega
  refine ⟨.inline tree ⟨n, n + part.bytes.length + 2⟩, ?_, ?_⟩
  · rw [Arg.arguments, htree, List.map_singleton]
  · rw [Arg.length_bytes_inline, Arg.bytes, run_square hm, hbytes, List.cons_append,
      run_ready_tilde hvacant, run_append, hrun, ← hbytes, ← hstop]
    exact run_close_square

/-- A paragraph is read as a text from its first byte on, where the reader is still between blocks. -/
theorem run_paragraph {pieces : List Part} {r : Reader} (hβ : β.length = S.depth)
    (hS : S.allowsBlocks = true) (hstarts : Part.startsRun false pieces = true)
    (hpieces : Part.FitsAll false pieces) (hcross : Part.crossAll τ pieces = some next)
    (hrun : (Reader.mk n (τ ++ β) S (.text [] n false)).run (Part.bytesAll pieces) = .ok r)
    (after : Bytes) :
    (Reader.mk n (τ ++ β) S .ready).run (Part.bytesAll pieces ++ after) = r.run after := by
  obtain ⟨b, more, passed, hbytes, htilde, hblank, hpass⟩ := head_paragraph hstarts hpieces hcross
  rw [hbytes, List.cons_append, run_ready_text (Scope.vacant_of_allowsBlocks hS) htilde
    (fun _ => hblank) (fun _ => endsScope_eq_false hβ hpass), ← List.cons_append, ← hbytes,
    run_append, hrun]
  rfl

/-! ## Spellings along their structure

A command is read from the mode after its tilde, so that the same statement serves one that is a
block and one that is a piece of a run. -/

mutual

theorem Part.run_call (n : Nat) (S : Scope) (place : Place) :
    ∀ (part : Part) {blocks : Bool} {σ next : List Bracket},
      part.isCall = true → part.Fits blocks → part.cross σ = some next →
      (blocks = true → place = .alone ∧ S.allowsBlocks = true) →
      ∃ tree, part.trees n = [tree] ∧
        (Reader.mk (n + 1) σ S (.name place (n + 1))).run part.bytes.tail
          = .ok (afterCall (n + part.bytes.length) next S place tree)
  | .call name gap true args, blocks, σ, next, _, hfits, hcross, hblocks => by
    rw [Part.Fits] at hfits
    obtain ⟨hname, hgap, hcall, hargs⟩ := hfits
    simp only [Part.cross, if_true] at hcross
    obtain ⟨inner, hinner, hpop⟩ := Option.bind_eq_some_iff.1 hcross
    rw [Bracket.pop_eq_some] at hpop
    rw [hpop] at hinner
    have hlist := Arg.run_list (argsStart n name gap true) S
      ⟨place, ⟨n + 1, n + 1 + name.length⟩, true, []⟩ args true true
      (by simpa only [Arg.fitsCall, if_true] using hcall) hargs hinner rfl hblocks
    refine ⟨_, rfl, ?_⟩
    rw [Part.length_bytes_call, Part.bytes, List.tail_cons, if_pos rfl, if_pos rfl,
      run_name_gap hname hgap (by decide), run_head_round]
    exact hlist
  | .call name gap false [.inline part], blocks, σ, next, _, hfits, hcross, hblocks => by
    rw [Part.Fits] at hfits
    obtain ⟨hname, hgap, _, hargs⟩ := hfits
    simp only [Part.cross, Bool.false_eq_true, if_false, Arg.crossAll_singleton] at hcross
    obtain ⟨arg, harg, hrun⟩ := Arg.run_scoped (argsStart n name gap false) S
      ⟨place, ⟨n + 1, n + 1 + name.length⟩, false, []⟩ (.inline part)
      (.head place ⟨n + 1, n + 1 + name.length⟩) (.inl ⟨rfl, rfl, rfl⟩) rfl hargs.1 hcross hblocks
    exact run_single hname hgap rfl harg hrun
  | .call name gap false [.block parts], blocks, σ, next, _, hfits, hcross, hblocks => by
    rw [Part.Fits] at hfits
    obtain ⟨hname, hgap, _, hargs⟩ := hfits
    simp only [Part.cross, Bool.false_eq_true, if_false, Arg.crossAll_singleton] at hcross
    obtain ⟨arg, harg, hrun⟩ := Arg.run_scoped (argsStart n name gap false) S
      ⟨place, ⟨n + 1, n + 1 + name.length⟩, false, []⟩ (.block parts)
      (.head place ⟨n + 1, n + 1 + name.length⟩) (.inl ⟨rfl, rfl, rfl⟩) rfl hargs.1 hcross hblocks
    exact run_single hname hgap rfl harg hrun
termination_by structural part => part

theorem Arg.run_scoped (n : Nat) (S : Scope) (call : Call) :
    ∀ (arg : Arg) (m : Mode) {blocks : Bool} {σ next : List Bracket},
      AwaitsScope call m → Arg.fitsCall false [arg] = true → arg.Fits blocks →
      arg.cross σ = some next → (blocks = true → call.place = .alone ∧ S.allowsBlocks = true) →
      ∃ a, arg.arguments n = [a] ∧
        (Reader.mk n σ S m).run arg.bytes
          = .ok (afterArgument (n + arg.bytes.length) next S call a)
  | .inline (.run true pieces ending) => by
    intro m blocks σ next hm _ hfits hcross hblocks
    rw [Arg.Fits, Part.Fits] at hfits
    obtain ⟨_, hstarts, hsequence, hreturn, hpieces⟩ := hfits
    rw [Arg.cross, Part.cross] at hcross
    obtain ⟨inner, hinner, hclose⟩ := Option.bind_eq_some_iff.1 hcross
    obtain ⟨acc, start, hrun, hacc⟩ := Part.run_pieces (n + 1)
      (.brackets S call n (σ.length + 1) none) (β := .square :: σ) rfl pieces true [] (n + 1) false
      hsequence hpieces hinner (fun _ => rfl)
    rw [addText_same, List.append_nil] at hacc
    exact run_inline_run hm hstarts hpieces hreturn hclose hrun hacc
  | .inline (.call name gap listed args) => by
    intro m blocks σ next hm _ hfits hcross hblocks
    rw [Arg.Fits] at hfits
    rw [Arg.cross] at hcross
    obtain ⟨inner, hinner, hclose⟩ := Option.bind_eq_some_iff.1 hcross
    obtain ⟨_, hpop⟩ := closeInline_eq_some.1 hclose
    have hlift := Part.cross_lift (.square :: σ) (.call name gap listed args) hinner
    rw [List.nil_append, hpop] at hlift
    obtain ⟨tree, htree, hrun⟩ := Part.run_call (n + 1) (.brackets S call n (σ.length + 1) none)
      .alone (.call name gap listed args) rfl hfits.2 hlift (fun h => by cases h)
    exact run_inline_call hm (Part.bytes_call name gap listed args) htree hrun
  | .block parts => by
    intro m blocks σ next hm _ hfits hcross hblocks
    rw [Arg.Fits] at hfits
    obtain ⟨hallowed, hsequence, hparts⟩ := hfits
    obtain ⟨hplace, hS⟩ := hblocks hallowed
    rw [Arg.cross] at hcross
    obtain ⟨inner, hinner, hclose⟩ := Option.bind_eq_some_iff.1 hcross
    have hnil : inner = [] ∧ σ = next := by
      split at hclose
      · next hinner => exact ⟨hinner, Option.some.inj hclose⟩
      · cases hclose
    obtain ⟨rfl, rfl⟩ := hnil
    obtain ⟨goesOn, hgoes⟩ := Option.isSome_iff_exists.1 hsequence
    obtain ⟨r, hrun, hrests, _⟩ := Part.run_blocks (n + 1) (.braces S call n (σ.length + 1) [])
      (β := .curly :: σ) rfl rfl parts hgoes hparts hinner
    rw [Scope.addAll_braces, List.append_nil] at hrests
    have hbraces : (Reader.mk n σ S m).allowsBraces call.place = true := by
      rw [hplace]
      exact hS
    have hstop : n + 1 + (Part.bytesAll parts).length + 1
        = n + (Part.bytesAll parts).length + 2 := by omega
    refine ⟨_, rfl, ?_⟩
    rw [List.nil_append] at hrun
    rw [Arg.length_bytes_block, Arg.bytes, run_curly hm hbraces, run_append, hrun, ← hstop]
    exact (run_close_curly hrests rfl).trans (by rw [List.reverse_reverse])
  -- nothing else stands in brackets
  | .inline (.blank _) | .inline (.text _) | .inline (.run false _ _) => by
    intro m blocks σ next _ _ hfits
    cases hfits.1
  | .blank _ | .comma | .ident _ | .string _ => by
    intro m blocks σ next _ hscope
    cases hscope
termination_by structural arg => arg

theorem Arg.run_list (n : Nat) (S : Scope) (call : Call) :
    ∀ (args : List Arg) (argFits fresh : Bool) {blocks : Bool} {σ next : List Bracket},
      (args.foldlM Arg.inList argFits).isSome = true → Arg.FitsAll blocks args →
      Arg.crossAll σ args = some (.round :: next) → call.listed = true →
      (blocks = true → call.place = .alone ∧ S.allowsBlocks = true) →
      (Reader.mk n σ S (listMode argFits fresh call)).run
          (Arg.bytesAll args ++ [Bracket.round.closer])
        = .ok (afterCall (n + (Arg.bytesAll args).length + 1) next S call.place
            (.node (.command call.name (call.args.reverse ++ Arg.argumentsAll n args))))
  | [], argFits, fresh, blocks, σ, next, _, _, hcross, _, _ => by
    cases hcross
    rw [Arg.bytesAll, List.nil_append, Arg.argumentsAll, List.append_nil]
    refine (run_round ?_).trans (run_nil _)
    cases argFits with
    | true => exact .inr ⟨fresh, rfl⟩
    | false => exact .inl rfl
  | .blank b :: rest, argFits, fresh, blocks, σ, next, hsequence, hfits, hcross, hlisted, hblocks => by
    have hrest := Arg.run_list (n + 1) S call rest argFits false hsequence hfits.2 hcross hlisted
      hblocks
    rw [Arg.bytesAll, Arg.bytes, List.singleton_append, List.cons_append,
      run_listMode_blank hfits.1, hrest, List.length_cons, Arg.argumentsAll]
    rw [show n + 1 + (Arg.bytesAll rest).length = n + ((Arg.bytesAll rest).length + 1) from by omega]
    rfl
  | .comma :: rest, false, fresh, blocks, σ, next, hsequence, hfits, hcross, hlisted, hblocks => by
    have hrest := Arg.run_list (n + 1) S call rest true true hsequence hfits.2 hcross hlisted hblocks
    rw [Arg.bytesAll, Arg.bytes, List.singleton_append, List.cons_append, List.length_cons,
      Arg.argumentsAll]
    rw [show n + ((Arg.bytesAll rest).length + 1) = n + 1 + (Arg.bytesAll rest).length from by omega]
    exact run_next_comma.trans hrest
  | .ident (b :: more) :: rest, true, fresh, blocks, σ, next, hsequence, hfits, hcross, hlisted,
      hblocks => by
    let arg : Argument Tree := .ident ⟨n, n + (b :: more).length⟩
    have hrest := Arg.run_list (n + (b :: more).length) S { call with args := arg :: call.args } rest
      false false hsequence hfits.2 hcross hlisted hblocks
    obtain ⟨c, others, hbytes, hletter⟩ := head_list_not_letter hsequence hfits.2
    obtain ⟨_, hletters⟩ := hfits.1
    rw [List.all_cons, Bool.and_eq_true] at hletters
    -- the letters up to the last, then the byte after them, which closes the identifier
    have hident : (Reader.mk n σ S (.list call fresh)).run ((b :: more) ++ c :: others)
        = (Reader.mk (n + (b :: more).length) σ S (.next { call with args := arg :: call.args })).run
            (c :: others) := by
      rw [List.cons_append, run_list_letter hletters.1, run_ident hletters.2, run_ident_end hletter,
        show n + 1 + more.length = n + (b :: more).length from by rw [List.length_cons]; omega]
    have hnode : (Arg.ident (b :: more)).arguments n = [arg] := rfl
    refine run_list_cons hnode ?_ hrest
    rw [Arg.bytes, hbytes]
    exact hident
  | .string raw :: rest, true, fresh, blocks, σ, next, hsequence, hfits, hcross, hlisted,
      hblocks => by
    let arg : Argument Tree := .string ⟨n, n + raw.length + 2⟩
    have hrest := Arg.run_list (n + (Arg.string raw).bytes.length) S
      { call with args := arg :: call.args } rest false false hsequence hfits.2 hcross hlisted hblocks
    have hstring := run_string (n + 1) σ S call n hfits.1
    have hstop : n + 1 + raw.length + 1 = n + raw.length + 2 := by omega
    have hquote : (Reader.mk n σ S (listMode true fresh call)).run (Arg.string raw).bytes
        = .ok (afterArgument (n + (Arg.string raw).bytes.length) σ S call arg) := by
      rw [hstop] at hstring
      rw [Arg.length_bytes_string]
      exact run_list_quote.trans hstring
    exact run_list_cons rfl (run_append_next hlisted hquote) hrest
  | .inline part :: rest, true, fresh, blocks, σ, next, hsequence, hfits, hcross, hlisted,
      hblocks => by
    rw [Arg.crossAll] at hcross
    obtain ⟨middle, harg, hcross⟩ := Option.bind_eq_some_iff.1 hcross
    obtain ⟨arg, hnode, hrun⟩ := Arg.run_scoped n S call (.inline part) (.list call fresh)
      (.inr ⟨hlisted, fresh, rfl⟩) rfl hfits.1 harg hblocks
    have hrest := Arg.run_list (n + (Arg.inline part).bytes.length) S
      { call with args := arg :: call.args } rest false false hsequence hfits.2 hcross hlisted hblocks
    exact run_list_cons hnode (run_append_next hlisted hrun) hrest
  | .block parts :: rest, true, fresh, blocks, σ, next, hsequence, hfits, hcross, hlisted,
      hblocks => by
    rw [Arg.crossAll] at hcross
    obtain ⟨middle, harg, hcross⟩ := Option.bind_eq_some_iff.1 hcross
    obtain ⟨arg, hnode, hrun⟩ := Arg.run_scoped n S call (.block parts) (.list call fresh)
      (.inr ⟨hlisted, fresh, rfl⟩) rfl hfits.1 harg hblocks
    have hrest := Arg.run_list (n + (Arg.block parts).bytes.length) S
      { call with args := arg :: call.args } rest false false hsequence hfits.2 hcross hlisted hblocks
    exact run_list_cons hnode (run_append_next hlisted hrun) hrest
termination_by structural args => args

theorem Part.run_pieces (n : Nat) (S : Scope) {β : List Bracket} (hβ : β.length = S.depth) :
    ∀ (pieces : List Part) (textFits : Bool) (acc : List Tree) (start : Nat) (afterReturn : Bool)
      {τ next : List Bracket},
      (pieces.foldlM Part.inRun textFits).isSome = true → Part.FitsAll false pieces →
      Part.crossAll τ pieces = some next → (textFits = true → start = n) →
      ∃ acc' start',
        (Reader.mk n (τ ++ β) S (.text acc start afterReturn)).run (Part.bytesAll pieces)
          = .ok (Reader.mk (n + (Part.bytesAll pieces).length) (next ++ β) S
              (.text acc' start' (Part.runEndsInReturn afterReturn pieces)))
        ∧ addText acc' start' (n + (Part.bytesAll pieces).length)
          = (Part.treesAll n pieces).reverse ++ addText acc start n
  | [], textFits, acc, start, afterReturn, τ, next, _, _, hcross, _ => by
    cases hcross
    exact ⟨acc, start, rfl, rfl⟩
  | .text bytes :: rest, true, acc, start, afterReturn, τ, next, hsequence, hfits, hcross,
      hstart => by
    cases hstart rfl
    obtain ⟨⟨hne, htilde, hline⟩, hrest⟩ := hfits
    rw [Part.crossAll] at hcross
    obtain ⟨middle, htext, hcross⟩ := Option.bind_eq_some_iff.1 hcross
    obtain ⟨acc', start', hrun, hacc⟩ := Part.run_pieces (n + bytes.length) S hβ rest false acc n
      (endsInReturn afterReturn bytes) hsequence hrest hcross (fun h => by cases h)
    refine ⟨acc', start', ?_, ?_⟩
    · rw [Part.bytesAll, Part.bytes, List.length_append, ← Nat.add_assoc]
      exact (run_text hβ htilde hline htext).trans hrun
    · rw [Part.bytesAll, Part.bytes, List.length_append, ← Nat.add_assoc, hacc, Part.treesAll,
        List.reverse_append, List.append_assoc, addText_same, addText_bytes acc n hne]
      rfl
  | .call name gap listed args :: rest, textFits, acc, start, afterReturn, τ, next, hsequence,
      hfits, hcross, _ => by
    rw [Part.crossAll] at hcross
    obtain ⟨middle, hcall, hcross⟩ := Option.bind_eq_some_iff.1 hcross
    obtain ⟨tree, htree, hrun⟩ := Part.run_call n S (.within (addText acc start n))
      (.call name gap listed args) rfl hfits.1 (Part.cross_lift β _ hcall) (fun h => by cases h)
    obtain ⟨acc', start', hrest, hacc⟩ := Part.run_pieces
      (n + (Part.call name gap listed args).bytes.length) S hβ rest true _ _ false hsequence hfits.2
      hcross (fun _ => rfl)
    refine ⟨acc', start', ?_, ?_⟩
    · rw [Part.bytesAll, List.length_append, ← Nat.add_assoc, Part.bytes_call, List.cons_append,
        run_text_tilde, run_append, hrun, ← Part.bytes_call]
      exact hrest
    · rw [Part.bytesAll, List.length_append, ← Nat.add_assoc, hacc, addText_same, Part.treesAll,
        htree, List.reverse_append, List.append_assoc]
      rfl
termination_by structural pieces => pieces

theorem Part.run_blocks (n : Nat) (S : Scope) {β : List Bracket} (hβ : β.length = S.depth)
    (hS : S.allowsBlocks = true) :
    ∀ (parts : List Part) {goesOn : Bool} {τ next : List Bracket},
      parts.foldlM Part.inBlocks true = some goesOn → Part.FitsAll true parts →
      Part.crossAll τ parts = some next →
      ∃ r, (Reader.mk n (τ ++ β) S .ready).run (Part.bytesAll parts) = .ok r
        ∧ Rests r ⟨n + (Part.bytesAll parts).length, next ++ β, S.addAll (Part.treesAll n parts),
            .ready⟩
        ∧ (goesOn = true → r.mode = .ready)
  | [], goesOn, τ, next, _, _, hcross => by
    cases hcross
    exact ⟨_, rfl, .ready rfl, fun _ => rfl⟩
  | .blank b :: rest, goesOn, τ, next, hsequence, hfits, hcross => by
    obtain ⟨r, hrun, hrests, hmode⟩ := Part.run_blocks (n + 1) S hβ hS rest hsequence hfits.2 hcross
    refine ⟨r, ?_, ?_, hmode⟩
    · rw [Part.bytesAll, Part.bytes, List.singleton_append, run_ready_blank hS hfits.1, hrun]
    · rw [Part.bytesAll, Part.bytes, List.singleton_append, List.length_cons, Part.treesAll]
      rw [show n + ((Part.bytesAll rest).length + 1) = n + 1 + (Part.bytesAll rest).length
        from by omega]
      exact hrests
  | .call name gap listed args :: rest, goesOn, τ, next, hsequence, hfits, hcross => by
    rw [Part.crossAll] at hcross
    obtain ⟨middle, hcall, hcross⟩ := Option.bind_eq_some_iff.1 hcross
    obtain ⟨tree, htree, hrun⟩ := Part.run_call n S .alone (.call name gap listed args) rfl hfits.1
      (Part.cross_lift β _ hcall) (fun _ => ⟨rfl, hS⟩)
    obtain ⟨r, hrest, hrests, hmode⟩ := Part.run_blocks
      (n + (Part.call name gap listed args).bytes.length) (S.addAll [tree]) (by rw [Scope.depth_addAll, hβ])
      (by rw [Scope.allowsBlocks_addAll, hS]) rest hsequence hfits.2 hcross
    refine ⟨r, ?_, ?_, hmode⟩
    · rw [Part.bytesAll, Part.bytes_call, List.cons_append,
        run_ready_tilde (Scope.vacant_of_allowsBlocks hS), run_append, hrun]
      exact hrest
    · rw [Part.bytesAll, List.length_append, ← Nat.add_assoc, Part.treesAll, htree,
        Scope.addAll_append]
      exact hrests
  | .run false pieces ending :: rest, goesOn, τ, next, hsequence, hfits, hcross => by
    obtain ⟨⟨hstarts, hpiecesSeq, hreturn, hpieces⟩, hrest⟩ := hfits
    rw [Part.crossAll] at hcross
    obtain ⟨middle, hrunCross, hafter⟩ := Option.bind_eq_some_iff.1 hcross
    rw [Part.cross] at hrunCross
    obtain ⟨acc, start, hrun, hacc⟩ := Part.run_pieces n S hβ pieces true [] n false hpiecesSeq
      hpieces hrunCross (fun _ => rfl)
    rw [addText_same, List.append_nil] at hacc
    have hfirst := run_paragraph hβ hS hstarts hpieces hrunCross hrun
    by_cases hending : ending = .none
    · subst hending
      obtain ⟨rfl, rfl⟩ := Part.eq_nil_of_inBlocks hsequence
      rw [Part.crossAll] at hafter
      cases hafter
      have hsource : Part.bytesAll [Part.run false pieces .none] = Part.bytesAll pieces := by
        rw [Part.bytesAll_singleton, Part.bytes, Ending.bytes, List.append_nil]
      have hall := hfirst []
      rw [List.append_nil] at hall
      rw [hsource]
      refine ⟨_, hall, ?_, fun h => by cases h⟩
      have hrests := Rests.text (r := Reader.mk (n + (Part.bytesAll pieces).length) (next ++ β) S
        (.text acc start (Part.runEndsInReturn false pieces))) rfl
      rw [endRun, hacc, Scope.addRun_of_allowsBlocks hS, List.reverse_reverse] at hrests
      rw [Part.treesAll_singleton]
      exact hrests
    · have hgoes : rest.foldlM Part.inBlocks true = some goesOn := by
        rw [List.foldlM_cons, Part.inBlocks, if_pos rfl, bne_iff_ne.2 hending] at hsequence
        exact hsequence
      obtain ⟨r, hrestRun, hrests, hmode⟩ := Part.run_blocks
        (n + (Part.bytesAll pieces).length + ending.bytes.length)
        (S.addAll [.node (.paragraph (Part.treesAll n pieces))]) (by rw [Scope.depth_addAll, hβ])
        (by rw [Scope.allowsBlocks_addAll, hS]) rest hgoes hrest hafter
      refine ⟨r, ?_, ?_, hmode⟩
      · rw [Part.bytesAll, Part.bytes, List.append_assoc, hfirst, run_append,
          run_ending hβ hending hreturn, hacc, Scope.addRun_of_allowsBlocks hS,
          List.reverse_reverse]
        exact hrestRun
      · rw [Part.bytesAll, Part.bytes, List.length_append, List.length_append, ← Nat.add_assoc,
          ← Nat.add_assoc, Part.treesAll, Scope.addAll_append, Part.bytes, List.length_append,
          ← Nat.add_assoc]
        exact hrests
termination_by structural parts => parts

end

/-- A source may end where nothing but the end is missing. -/
theorem finish_of_rests {r settled : Reader} (h : Rests r settled) {blocks : List Tree}
    (hscope : settled.scope = .document blocks) :
    r.finish = .ok (.node (.group blocks.reverse)) := by
  cases h with
  | ready hmode =>
    rw [finish, hmode, hscope]
    rfl
  | @text pieces start _ hmode =>
    have hrun : r.scope.addRun (addText pieces start r.offset) = .document blocks := hscope
    rw [finish, hmode]
    simp only [hrun]
    rfl

/-- A spelling of a document is read as its tree. -/
theorem parse_of_isDocument {parts : List Part} {opened : List Bracket}
    (h : IsDocument parts opened) : Tree.parse (Part.bytesAll parts) = .ok (documentTree parts) := by
  obtain ⟨goesOn, hgoes⟩ := Option.isSome_iff_exists.1 h.sequence
  obtain ⟨r, hrun, hrests, _⟩ := Part.run_blocks 0 (.document []) (β := []) rfl rfl parts hgoes
    h.fits h.brackets
  have hinitial : initial.run (Part.bytesAll parts) = .ok r := hrun
  rw [Scope.addAll_document, List.append_nil, List.append_nil] at hrests
  rw [Tree.parse, hinitial]
  refine (finish_of_rests hrests rfl).trans ?_
  rw [List.reverse_reverse, documentTree]

end TildeMarkup.Spelling
