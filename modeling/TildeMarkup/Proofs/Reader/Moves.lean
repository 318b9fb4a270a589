import TildeMarkup.Proofs.Balance
import TildeMarkup.Reader

/-!
# Moves of a reader

What a reader makes of the bytes of one kind of place: the blanks between blocks, a text, a name, a
list, a string. `Reader.step` says it for one byte by cases on the mode; here it is said forwards,
for the bytes that go through, as equations of `Reader.run`. Nothing after this module opens the
step to find out where a byte leads.

A reader in the middle of a text and one that is ready again are told apart by `Reader.Rests`: the
text is as good as finished, and `settled` is the reader that has finished it.
-/

namespace TildeMarkup.Reader

/-! ## One byte -/

/-- A byte that is taken leads to the reader that took it, one byte further on, which reads the rest. -/
theorem run_cons_of_take {r : Reader} (next : Reader) {b : UInt8} (h : r.take b = .ok next)
    (rest : Bytes) :
    r.run (b :: rest) = ({ next with offset := r.offset + 1 } : Reader).run rest := by
  rw [run_cons, step, h]
  rfl

/-- Two readers at one offset that take a byte alike go on alike. -/
theorem run_cons_congr {n : Nat} {σ ρ : List Bracket} {S T : Scope} {m other : Mode} {b : UInt8}
    (h : (Reader.mk n σ S m).take b = (Reader.mk n ρ T other).take b) (rest : Bytes) :
    (Reader.mk n σ S m).run (b :: rest) = (Reader.mk n ρ T other).run (b :: rest) := by
  rw [run_cons, run_cons, step, step, h]

theorem isBlank_tilde : isBlank tilde = false := by decide

theorem isBlank_quote : isBlank quote = false := by decide

theorem isBlank_comma : isBlank comma = false := by decide

theorem isBlank_opener (k : Bracket) : isBlank k.opener = false := by
  cases k <;> decide

theorem isBlank_closer (k : Bracket) : isBlank k.closer = false := by
  cases k <;> decide

/-- The blanks and the letters of a name have no byte in common. There are five blanks, and none is a
letter. -/
theorem not_isBlank_of_isLetter {b : UInt8} (h : isLetter b = true) : isBlank b = false := by
  -- A letter that were blank would be one of the five, and each of them is none.
  have hnot : ∀ c, isBlank c = true → isLetter c = false := by
    intro c hc
    simp only [isBlank, Bool.or_eq_true, beq_iff_eq] at hc
    rcases hc with (((rfl | rfl) | rfl) | rfl) | rfl <;> decide
  cases hb : isBlank b with
  | false => rfl
  | true => rw [hnot b hb] at h; exact absurd h (by decide)

theorem isLetter_eq_false_of_isBlank {b : UInt8} (h : isBlank b = true) : isLetter b = false := by
  cases hletter : isLetter b with
  | false => rfl
  | true =>
    rw [not_isBlank_of_isLetter hletter] at h
    cases h

variable {n : Nat} {σ : List Bracket} {S : Scope} {rest : Bytes} {b : UInt8}

/-! ## Between the parts of a scope -/

/-- Square brackets that hold nothing yet, or a scope of blocks: another part may come. -/
def Scope.Vacant : Scope → Prop
  | .brackets _ _ _ _ (some _) => False
  | _ => True

theorem Scope.vacant_of_allowsBlocks (h : S.allowsBlocks = true) : S.Vacant := by
  cases S with
  | brackets => exact absurd h Bool.false_ne_true
  | _ => trivial

/-- A reader between blocks waits for a byte in the same way in the document and in braces. -/
theorem inReady_of_allowsBlocks {r : Reader} (hS : r.scope.allowsBlocks = true) (b : UInt8) :
    r.inReady b
      = if isBlank b then .ok r
        else if b == tilde then .ok { r with mode := .name .alone (r.offset + 1) }
        else if r.endsScope b then r.closeScope b
        else r.inText [] r.offset false b := by
  obtain ⟨n, σ, S, m⟩ := r
  -- Square brackets allow no blocks, so only the document and braces are left.
  cases S with
  | brackets => cases hS
  | _ => rfl

theorem run_ready_blank (hS : S.allowsBlocks = true) (hb : isBlank b = true) :
    (Reader.mk n σ S .ready).run (b :: rest) = (Reader.mk (n + 1) σ S .ready).run rest := by
  refine run_cons_of_take (Reader.mk n σ S .ready) ?_ rest
  cases S with
  | brackets => exact absurd hS Bool.false_ne_true
  | _ => simp only [take, inReady, hb, if_true]

/-- A tilde begins a command wherever another part may come, inside of square brackets too. -/
theorem run_ready_tilde (hS : S.Vacant) :
    (Reader.mk n σ S .ready).run (tilde :: rest)
      = (Reader.mk (n + 1) σ S (.name .alone (n + 1))).run rest := by
  refine run_cons_of_take (Reader.mk n σ S (.name .alone (n + 1))) ?_ rest
  cases S with
  | brackets _ _ _ _ content =>
    cases content with
    | none => simp only [take, inReady, beq_self_eq_true, if_true]
    | some _ => exact hS.elim
  | _ => simp only [take, inReady, isBlank_tilde, beq_self_eq_true, if_true, Bool.false_eq_true,
      if_false]

/-- The first byte of a run is read as one of a text that starts there. -/
theorem run_ready_text (hS : S.Vacant) (hb : b ≠ tilde)
    (hblocks : S.allowsBlocks = true → isBlank b = false)
    (hinside : S.allowsBlocks = true → (Reader.mk n σ S .ready).endsScope b = false) :
    (Reader.mk n σ S .ready).run (b :: rest) = (Reader.mk n σ S (.text [] n false)).run (b :: rest) := by
  refine run_cons_congr ?_ rest
  have htilde : (b == tilde) = false := by simpa using hb
  -- In square brackets a blank or a closer is text as well, so the two hypotheses are for blocks only.
  cases S with
  | brackets _ _ _ _ content =>
    cases content with
    | none => simp only [take, inReady, htilde, Bool.false_eq_true, if_false]; rfl
    | some _ => exact hS.elim
  | _ =>
    have hblank := hblocks rfl
    have hends := hinside rfl
    simp only [take, inReady, htilde, hblank, hends, Bool.false_eq_true, if_false]
    rfl

/-! ## In a text -/

theorem run_text_tilde {pieces : List Tree} {start : Nat} {afterReturn : Bool} :
    (Reader.mk n σ S (.text pieces start afterReturn)).run (tilde :: rest)
      = (Reader.mk (n + 1) σ S (.name (.within (addText pieces start n)) (n + 1))).run rest := by
  refine run_cons_of_take
    (Reader.mk n σ S (.name (.within (addText pieces start n)) (n + 1))) ?_ rest
  simp only [take, inText, beq_self_eq_true, if_true]

/-- A line feed ends the run of text, and a carriage return right in front of it is left out of the
run. -/
theorem run_text_lineFeed {pieces : List Tree} {start : Nat} {afterReturn : Bool} :
    (Reader.mk n σ S (.text pieces start afterReturn)).run (lineFeed :: rest)
      = (Reader.mk (n + 1) σ
          (S.addRun (addText pieces start (if afterReturn then n - 1 else n))) .ready).run rest := by
  have htilde : (lineFeed == tilde) = false := by decide
  refine run_cons_of_take (Reader.mk n σ
    (S.addRun (addText pieces start (if afterReturn then n - 1 else n))) .ready) ?_ rest
  simp only [take, inText, htilde, beq_self_eq_true, if_true, Bool.false_eq_true, if_false, endRun]

/-- A bracket that goes through over the base of a scope is not the closer of the scope. -/
theorem endsScope_eq_false {m : Mode} {τ next β : List Bracket} (hβ : β.length = S.depth)
    (hpass : Bracket.pass τ b = some next) :
    (Reader.mk n (τ ++ β) S m).endsScope b = false := by
  cases hcloser : Bracket.ofCloser? b with
  | none => simp [endsScope, hcloser]
  | some kind =>
    have hb := Bracket.eq_closer_of_ofCloser? hcloser
    rw [hb, Bracket.pass_closer, Bracket.pop_eq_some] at hpass
    -- The stack is longer than the base by the bracket that the byte closes.
    have hlength : (τ ++ β).length ≠ S.depth := by
      rw [hpass, List.length_append, List.length_cons]
      omega
    rw [endsScope, beq_eq_false_iff_ne.2 hlength, Bool.and_false]

/-- A byte within a line of text is added to the run, once it has gone through the open brackets. -/
theorem run_text_byte {τ next β : List Bracket} {pieces : List Tree} {start : Nat}
    {afterReturn : Bool} (hβ : β.length = S.depth) (hb : b ≠ tilde) (hline : b ≠ lineFeed)
    (hpass : Bracket.pass τ b = some next) :
    (Reader.mk n (τ ++ β) S (.text pieces start afterReturn)).run (b :: rest)
      = (Reader.mk (n + 1) (next ++ β) S (.text pieces start (b == carriageReturn))).run rest := by
  have htilde : (b == tilde) = false := by simpa using hb
  have hlf : (b == lineFeed) = false := by simpa using hline
  have hcross := cross_eq_ok.2 (Bracket.pass_lift hpass β)
  refine run_cons_of_take
    (Reader.mk n (next ++ β) S (.text pieces start (b == carriageReturn))) ?_ rest
  simp only [take, inText, htilde, hlf, endsScope_eq_false hβ hpass, hcross, Bool.false_eq_true,
    if_false]
  rfl

/-- A text is read to its end. What is open in its scope changes as in a plain scan. -/
theorem run_text {β : List Bracket} {pieces : List Tree} {start : Nat} (hβ : β.length = S.depth)
    {bytes : Bytes} (htilde : tilde ∉ bytes) (hline : lineFeed ∉ bytes) :
    ∀ {n : Nat} {τ next : List Bracket} {afterReturn : Bool},
      Bracket.scan τ bytes = some next →
        (Reader.mk n (τ ++ β) S (.text pieces start afterReturn)).run (bytes ++ rest)
          = (Reader.mk (n + bytes.length) (next ++ β) S (.text pieces start
              (bytes.foldl (fun _ b => b == carriageReturn) afterReturn))).run rest := by
  -- By induction on the bytes, for every part of the stack that is above the base.
  induction bytes with
  | nil =>
    intro n τ next afterReturn hscan
    cases hscan
    rfl
  | cons b more ih =>
    intro n τ next afterReturn hscan
    rw [Bracket.scan_cons] at hscan
    obtain ⟨middle, hpass, hmore⟩ := Option.bind_eq_some_iff.1 hscan
    rw [List.mem_cons, not_or] at htilde hline
    rw [List.cons_append, run_text_byte hβ (Ne.symm htilde.1) (Ne.symm hline.1) hpass,
      ih htilde.2 hline.2 hmore, List.length_cons, List.foldl_cons]
    rw [show n + 1 + more.length = n + (more.length + 1) from by omega]

/-! ## In a name, and after it -/

/-- The letters of a name are read to the last of them, and the reader is still in the name. -/
theorem run_name {place : Place} {start : Nat} {letters : Bytes}
    (h : letters.all isLetter = true) :
    (Reader.mk n σ S (.name place start)).run (letters ++ rest)
      = (Reader.mk (n + letters.length) σ S (.name place start)).run rest := by
  induction letters generalizing n with
  | nil => rfl
  | cons b more ih =>
    rw [List.all_cons, Bool.and_eq_true] at h
    rw [List.cons_append, run_cons_of_take (Reader.mk n σ S (.name place start))
      (by simp only [take, h.1, if_true]), ih h.2, List.length_cons]
    rw [show n + 1 + more.length = n + (more.length + 1) from by omega]

/-- A byte that is no letter is read as one after the name. -/
theorem run_name_end {place : Place} {start : Nat} (hb : isLetter b = false) :
    (Reader.mk n σ S (.name place start)).run (b :: rest)
      = (Reader.mk n σ S (.head place ⟨start, n⟩)).run (b :: rest) := by
  refine run_cons_congr ?_ rest
  simp only [take, hb, Bool.false_eq_true, if_false]
  rfl

/-- Blanks after a name are skipped, line ends among them, so an argument may open on a later line. -/
theorem run_head_gap {place : Place} {name : Span} {gap : Bytes} (h : gap.all isBlank = true) :
    (Reader.mk n σ S (.head place name)).run (gap ++ rest)
      = (Reader.mk (n + gap.length) σ S (.head place name)).run rest := by
  induction gap generalizing n with
  | nil => rfl
  | cons b more ih =>
    rw [List.all_cons, Bool.and_eq_true] at h
    rw [List.cons_append, run_cons_of_take (Reader.mk n σ S (.head place name))
      (by simp only [take, inHead, h.1, if_true]), ih h.2, List.length_cons]
    rw [show n + 1 + more.length = n + (more.length + 1) from by omega]

theorem run_head_round {place : Place} {name : Span} :
    (Reader.mk n σ S (.head place name)).run (Bracket.round.opener :: rest)
      = (Reader.mk (n + 1) (.round :: σ) S (.list ⟨place, name, true, []⟩ true)).run rest := by
  refine run_cons_of_take
    (Reader.mk n (.round :: σ) S (.list ⟨place, name, true, []⟩ true)) ?_ rest
  simp only [take, inHead, isBlank_opener, beq_self_eq_true, if_true, Bool.false_eq_true, if_false]

/-! ## Opening an argument -/

/-- A place of the reader where an argument in brackets may open, for a command that is being read:
after the name, when the argument is the only one, or in the list. -/
def AwaitsScope (call : Call) (m : Mode) : Prop :=
  (m = .head call.place call.name ∧ call.listed = false ∧ call.args = [])
    ∨ (call.listed = true ∧ ∃ fresh, m = .list call fresh)

/-- An opening square bracket is pushed, and the scope that it opens remembers how deep that is. -/
theorem run_square {call : Call} {m : Mode} (h : AwaitsScope call m) :
    (Reader.mk n σ S m).run (Bracket.square.opener :: rest)
      = (Reader.mk (n + 1) (.square :: σ) (.brackets S call n (σ.length + 1) none) .ready).run
          rest := by
  have hround : (Bracket.square.opener == Bracket.round.opener) = false := by decide
  have hcloser : (Bracket.square.opener == Bracket.round.closer) = false := by decide
  refine run_cons_of_take (Reader.mk n (.square :: σ)
    (.brackets S call n (σ.length + 1) none) .ready) ?_ rest
  obtain ⟨place, name, listed, args⟩ := call
  rcases h with ⟨rfl, hlisted, hargs⟩ | ⟨_, fresh, rfl⟩
  · cases hlisted
    cases hargs
    simp only [take, inHead, isBlank_opener, hround, beq_self_eq_true, if_true, Bool.false_eq_true,
      if_false]
    rfl
  · simp only [take, inList, isBlank_opener, hcloser, beq_self_eq_true, if_true,
      Bool.false_eq_true, if_false]
    rfl

/-- A brace is pushed in the same way, but only where a block argument is allowed for the command. -/
theorem run_curly {call : Call} {m : Mode} (h : AwaitsScope call m)
    (hallowed : (Reader.mk n σ S m).allowsBraces call.place = true) :
    (Reader.mk n σ S m).run (Bracket.curly.opener :: rest)
      = (Reader.mk (n + 1) (.curly :: σ) (.braces S call n (σ.length + 1) []) .ready).run
          rest := by
  have hround : (Bracket.curly.opener == Bracket.round.opener) = false := by decide
  have hsquare : (Bracket.curly.opener == Bracket.square.opener) = false := by decide
  have hcloser : (Bracket.curly.opener == Bracket.round.closer) = false := by decide
  refine run_cons_of_take (Reader.mk n (.curly :: σ)
    (.braces S call n (σ.length + 1) []) .ready) ?_ rest
  obtain ⟨place, name, listed, args⟩ := call
  -- After the name an empty call is made; in the list the call is there already.
  rcases h with ⟨rfl, hlisted, hargs⟩ | ⟨_, fresh, rfl⟩
  · cases hlisted
    cases hargs
    simp only [take, inHead, isBlank_opener, hround, hsquare, hallowed, beq_self_eq_true, if_true,
      Bool.false_eq_true, if_false, Bool.and_self]
    rfl
  · simp only [take, inList, isBlank_opener, hcloser, hsquare, hallowed, beq_self_eq_true, if_true,
      Bool.false_eq_true, if_false, Bool.and_self]
    rfl

/-! ## Adding to a scope -/

/-- Adds finished parts one after the other, as a scope receives them in the order of the source. -/
def Scope.addAll (S : Scope) (parts : List Tree) : Scope :=
  parts.foldl Scope.add S

@[simp] theorem Scope.depth_add (S : Scope) (part : Tree) : (S.add part).depth = S.depth := by
  cases S <;> rfl

@[simp] theorem Scope.allowsBlocks_add (S : Scope) (part : Tree) :
    (S.add part).allowsBlocks = S.allowsBlocks := by
  cases S <;> rfl

@[simp] theorem Scope.depth_addAll (S : Scope) (parts : List Tree) :
    (S.addAll parts).depth = S.depth := by
  induction parts generalizing S with
  | nil => rfl
  | cons part rest ih => exact (ih (S.add part)).trans (S.depth_add part)

@[simp] theorem Scope.allowsBlocks_addAll (S : Scope) (parts : List Tree) :
    (S.addAll parts).allowsBlocks = S.allowsBlocks := by
  induction parts generalizing S with
  | nil => rfl
  | cons part rest ih => exact (ih (S.add part)).trans (S.allowsBlocks_add part)

theorem Scope.addAll_append (S : Scope) (front back : List Tree) :
    S.addAll (front ++ back) = (S.addAll front).addAll back :=
  List.foldl_append

/-- Among blocks, a run of text is a paragraph. -/
theorem Scope.addRun_of_allowsBlocks {S : Scope} (hS : S.allowsBlocks = true) (pieces : List Tree) :
    S.addRun pieces = S.addAll [.node (.paragraph pieces.reverse)] := by
  cases S with
  | brackets => exact absurd hS Bool.false_ne_true
  | _ => rfl

/-- A document keeps the last part in front, so the parts come out reversed. -/
theorem Scope.addAll_document (blocks parts : List Tree) :
    (Scope.document blocks).addAll parts = .document (parts.reverse ++ blocks) := by
  induction parts generalizing blocks with
  | nil => rfl
  | cons part rest ih =>
    rw [List.reverse_cons, List.append_assoc]
    exact ih (part :: blocks)

theorem Scope.addAll_braces (outer : Scope) (call : Call) (start depth : Nat)
    (blocks parts : List Tree) :
    (Scope.braces outer call start depth blocks).addAll parts
      = .braces outer call start depth (parts.reverse ++ blocks) := by
  induction parts generalizing blocks with
  | nil => rfl
  | cons part rest ih =>
    rw [List.reverse_cons, List.append_assoc]
    exact ih (part :: blocks)

theorem addText_same (pieces : List Tree) (n : Nat) : addText pieces n n = pieces := by
  rw [addText, if_neg (Nat.lt_irrefl n)]

theorem addText_bytes (pieces : List Tree) (n : Nat) {bytes : Bytes} (h : bytes ≠ []) :
    addText pieces n (n + bytes.length) = .node (.text ⟨n, n + bytes.length⟩) :: pieces := by
  have hpos : 0 < bytes.length := List.length_pos_iff.2 h
  rw [addText, if_pos (by omega)]

/-! ## Finishing a command or an argument -/

/-- The reader after a command, whose last byte is in front of the offset. -/
def afterCall (n : Nat) (σ : List Bracket) (S : Scope) (place : Place) (command : Tree) : Reader :=
  match place with
  | .alone => ⟨n, σ, S.add command, .ready⟩
  | .within pieces => ⟨n, σ, S, .text (command :: pieces) n false⟩

/-- The reader after an argument, whose last byte is in front of the offset. -/
def afterArgument (n : Nat) (σ : List Bracket) (S : Scope) (call : Call) (arg : Argument Tree) :
    Reader :=
  if call.listed then ⟨n, σ, S, .next { call with args := arg :: call.args }⟩
  else afterCall n σ S call.place (.node (.command call.name (arg :: call.args).reverse))

theorem finishCall_eq (n : Nat) (σ : List Bracket) (S : Scope) (m : Mode) (call : Call) :
    ({ (Reader.mk n σ S m).finishCall call with offset := n + 1 } : Reader)
      = afterCall (n + 1) σ S call.place (.node (.command call.name call.args.reverse)) := by
  unfold finishCall afterCall
  cases call.place <;> rfl

/-- An argument of a list waits for a comma; one that stands alone ends its command as well. -/
theorem finishArgument_eq (n : Nat) (σ : List Bracket) (S : Scope) (m : Mode) (call : Call)
    (arg : Argument Tree) :
    ({ (Reader.mk n σ S m).finishArgument call arg with offset := n + 1 } : Reader)
      = afterArgument (n + 1) σ S call arg := by
  unfold finishArgument afterArgument
  cases call.listed with
  | true => rfl
  | false => exact finishCall_eq n σ S m { call with args := arg :: call.args }

/-! ## In a list -/

theorem run_list_blank {call : Call} {fresh : Bool} (hb : isBlank b = true) :
    (Reader.mk n σ S (.list call fresh)).run (b :: rest)
      = (Reader.mk (n + 1) σ S (.list call false)).run rest := by
  refine run_cons_of_take (Reader.mk n σ S (.list call false)) ?_ rest
  simp only [take, inList, hb, if_true]

theorem run_next_blank {call : Call} (hb : isBlank b = true) :
    (Reader.mk n σ S (.next call)).run (b :: rest)
      = (Reader.mk (n + 1) σ S (.next call)).run rest := by
  refine run_cons_of_take (Reader.mk n σ S (.next call)) ?_ rest
  simp only [take, inNext, hb, if_true]

/-- After a comma there has to be another argument: the list is fresh again. -/
theorem run_next_comma {call : Call} :
    (Reader.mk n σ S (.next call)).run (comma :: rest)
      = (Reader.mk (n + 1) σ S (.list call true)).run rest := by
  have hcloser : (comma == Bracket.round.closer) = false := by decide
  refine run_cons_of_take (Reader.mk n σ S (.list call true)) ?_ rest
  simp only [take, inNext, isBlank_comma, hcloser, beq_self_eq_true, if_true, Bool.false_eq_true,
    if_false]

/-- The parenthesis that ends a list ends the command. -/
theorem run_round {call : Call} {m : Mode} (hm : m = .next call ∨ ∃ fresh, m = .list call fresh) :
    (Reader.mk n (.round :: σ) S m).run (Bracket.round.closer :: rest)
      = (afterCall (n + 1) σ S call.place (.node (.command call.name call.args.reverse))).run
          rest := by
  have hcross : cross (.round :: σ) Bracket.round.closer = .ok σ := by
    rw [cross_eq_ok, Bracket.pass_closer, Bracket.pop_eq_some]
  rw [← finishCall_eq n σ S m call]
  refine run_cons_of_take ((Reader.mk n σ S m).finishCall call) ?_ rest
  rcases hm with rfl | ⟨fresh, rfl⟩
  · simp only [take, inNext, isBlank_closer, beq_self_eq_true, if_true, Bool.false_eq_true,
      if_false, closeList, hcross]
    rfl
  · simp only [take, inList, isBlank_closer, beq_self_eq_true, if_true, Bool.false_eq_true,
      if_false, closeList, hcross]
    rfl

/-! ## Identifiers and strings -/

/-- A letter in a list begins an identifier, as it is none of the bytes that are looked for before it. -/
theorem run_list_letter {call : Call} {fresh : Bool} (hb : isLetter b = true) :
    (Reader.mk n σ S (.list call fresh)).run (b :: rest)
      = (Reader.mk (n + 1) σ S (.ident call n)).run rest := by
  have hplain := Bracket.plain_of_isLetter hb
  have hcloser : (b == Bracket.round.closer) = false := by
    refine beq_eq_false_iff_ne.2 ?_
    rintro rfl
    exact absurd hb (by decide)
  have hopener : ∀ k : Bracket, (b == k.opener) = false := by
    intro k
    refine beq_eq_false_iff_ne.2 ?_
    rintro rfl
    rw [Bracket.ofOpener?_opener] at hplain
    cases hplain.1
  have hquote : (b == quote) = false := by
    refine beq_eq_false_iff_ne.2 ?_
    rintro rfl
    exact absurd hb (by decide)
  refine run_cons_of_take (Reader.mk n σ S (.ident call n)) ?_ rest
  simp only [take, inList, not_isBlank_of_isLetter hb, hcloser, hopener, hquote, hb, if_true,
    Bool.false_eq_true, if_false, Bool.false_and]

theorem run_ident {call : Call} {start : Nat} {letters : Bytes} (h : letters.all isLetter = true) :
    (Reader.mk n σ S (.ident call start)).run (letters ++ rest)
      = (Reader.mk (n + letters.length) σ S (.ident call start)).run rest := by
  induction letters generalizing n with
  | nil => rfl
  | cons b more ih =>
    rw [List.all_cons, Bool.and_eq_true] at h
    rw [List.cons_append, run_cons_of_take (Reader.mk n σ S (.ident call start))
      (by simp only [take, h.1, if_true]), ih h.2, List.length_cons]
    rw [show n + 1 + more.length = n + (more.length + 1) from by omega]

/-- A byte that is no letter is read as one after the identifier. -/
theorem run_ident_end {call : Call} {start : Nat} (hb : isLetter b = false) :
    (Reader.mk n σ S (.ident call start)).run (b :: rest)
      = (Reader.mk n σ S (.next { call with args := .ident ⟨start, n⟩ :: call.args })).run
          (b :: rest) := by
  refine run_cons_congr ?_ rest
  simp only [take, hb, Bool.false_eq_true, if_false]
  rfl

/-- Quotes in a list begin a string, which the reader is in with no escape pending. -/
theorem run_list_quote {call : Call} {fresh : Bool} :
    (Reader.mk n σ S (.list call fresh)).run (quote :: rest)
      = (Reader.mk (n + 1) σ S (.string call n false)).run rest := by
  have hcloser : (quote == Bracket.round.closer) = false := by decide
  have hsquare : (quote == Bracket.square.opener) = false := by decide
  have hcurly : (quote == Bracket.curly.opener) = false := by decide
  refine run_cons_of_take (Reader.mk n σ S (.string call n false)) ?_ rest
  simp only [take, inList, isBlank_quote, hcloser, hsquare, hcurly, beq_self_eq_true, if_true,
    Bool.false_eq_true, if_false, Bool.false_and]

/-- A byte of a string is taken unless it is a quote that no backslash escapes. -/
theorem run_string_byte {call : Call} {start : Nat} {escaped : Bool}
    (hb : (b != quote || escaped) = true) :
    (Reader.mk n σ S (.string call start escaped)).run (b :: rest)
      = (Reader.mk (n + 1) σ S (.string call start (b == backslash))).run rest := by
  refine run_cons_of_take (Reader.mk n σ S (.string call start (b == backslash))) ?_ rest
  have hgoes : (b == quote && !escaped) = false := by
    cases escaped <;> simp_all
  simp only [take, hgoes, Bool.false_eq_true, if_false]

/-- A quote without a backslash in front of it ends the string, and with it the argument. -/
theorem run_string_quote {call : Call} {start : Nat} :
    (Reader.mk n σ S (.string call start false)).run (quote :: rest)
      = (afterArgument (n + 1) σ S call (.string ⟨start, n + 1⟩)).run rest := by
  rw [← finishArgument_eq n σ S (.string call start false) call]
  refine run_cons_of_take
    ((Reader.mk n σ S (.string call start false)).finishArgument call (.string ⟨start, n + 1⟩)) ?_ rest
  simp only [take, beq_self_eq_true, Bool.not_false, Bool.and_self, if_true]

/-! ## The end of a scope -/

/-- A reader whose scope is complete but for its end: it is between two parts, or in a text that
ends here. `settled` is the reader that has ended the text. -/
inductive Rests (r : Reader) : (settled : Reader) → Prop where
  | ready (h : r.mode = .ready) : Rests r r
  | text {pieces : List Tree} {start : Nat} {afterReturn : Bool}
      (h : r.mode = .text pieces start afterReturn) :
      Rests r (r.endRun (addText pieces start r.offset))

namespace Rests

variable {r settled : Reader}

theorem offset_eq (h : Rests r settled) : settled.offset = r.offset := by
  cases h <;> rfl

theorem opened_eq (h : Rests r settled) : settled.opened = r.opened := by
  cases h <;> rfl

theorem depth_eq (h : Rests r settled) : settled.scope.depth = r.scope.depth := by
  cases h with
  | ready => rfl
  | text =>
    simp only [endRun, Scope.addRun]
    cases r.scope <;> rfl

theorem allowsBlocks_eq (h : Rests r settled) :
    settled.scope.allowsBlocks = r.scope.allowsBlocks := by
  cases h with
  | ready => rfl
  | text =>
    simp only [endRun, Scope.addRun]
    cases r.scope <;> rfl

/-- The closer of a scope is taken after the text in front of it has ended. -/
theorem take_closer (h : Rests r settled) (hS : r.scope.allowsBlocks = true) {b : UInt8}
    (hcloser : (Bracket.ofCloser? b).isSome = true) (hends : r.endsScope b = true) :
    r.take b = settled.closeScope b := by
  -- a closer is none of the bytes that are looked for before it
  have hne : ∀ c, Bracket.ofCloser? c = none → (b == c) = false := by
    intro c hc
    refine beq_eq_false_iff_ne.2 ?_
    rintro rfl
    rw [hc] at hcloser
    exact absurd hcloser Bool.false_ne_true
  have hblank : isBlank b = false := by
    cases hblank : isBlank b with
    | false => rfl
    | true =>
      rw [(Bracket.plain_of_isBlank hblank).2] at hcloser
      exact absurd hcloser Bool.false_ne_true
  cases h with
  | ready hmode =>
    obtain ⟨n, σ, S, m⟩ := r
    cases hmode
    cases S with
    | brackets => exact absurd hS Bool.false_ne_true
    | _ =>
      simp only [take, inReady, hblank, hne tilde (by decide), hends, Bool.false_eq_true, if_false,
        if_true]
  | text hmode =>
    simp only [take, hmode, inText, hne tilde (by decide), hne lineFeed (by decide), hends,
      Bool.false_eq_true, if_false, if_true]

end Rests

/-- The closer of an argument in braces gives the scope around it, with the argument. -/
theorem run_close_curly {r settled : Reader} (h : Rests r settled) {call : Call} {start : Nat}
    {blocks : List Tree}
    (hsettled : settled = ⟨n, .curly :: σ, .braces S call start (σ.length + 1) blocks, .ready⟩) :
    r.run [Bracket.curly.closer]
      = .ok (afterArgument (n + 1) σ S call (.block blocks.reverse ⟨start, n + 1⟩)) := by
  -- The reader itself may still be in a text; what it settles to has the same scope and stack.
  have hallows : r.scope.allowsBlocks = true := by
    rw [← h.allowsBlocks_eq, hsettled]
    rfl
  have hends : r.endsScope Bracket.curly.closer = true := by
    rw [endsScope, ← h.opened_eq, ← h.depth_eq, hsettled, Bracket.ofCloser?_closer]
    exact beq_self_eq_true _
  have hcross : cross (.curly :: σ) Bracket.curly.closer = .ok σ := by
    rw [cross_eq_ok, Bracket.pass_closer, Bracket.pop_eq_some]
  have htake : r.take Bracket.curly.closer
      = .ok ((Reader.mk n σ S .ready).finishArgument call (.block blocks.reverse ⟨start, n + 1⟩)) := by
    rw [h.take_closer hallows (by decide) hends, hsettled]
    simp only [closeScope, beq_self_eq_true, if_true, hcross]
    rfl
  have hoffset : r.offset = n := by rw [← h.offset_eq, hsettled]
  rw [run_cons_of_take _ htake, hoffset, finishArgument_eq, run_nil]

/-- The closer of an argument in square brackets gives the scope around it, with the argument. It
takes whatever bracket is innermost when the content is complete. -/
theorem run_close_square {call : Call} {start d : Nat} {content : Tree} :
    (Reader.mk n (.square :: σ) (.brackets S call start d (some content)) .ready).run
        [Bracket.square.closer]
      = .ok (afterArgument (n + 1) σ S call (.inline content ⟨start, n + 1⟩)) := by
  have hcross : cross (.square :: σ) Bracket.square.closer = .ok σ := by
    rw [cross_eq_ok, Bracket.pass_closer, Bracket.pop_eq_some]
  rw [← finishArgument_eq n σ S .ready call]
  refine run_cons_of_take
    ((Reader.mk n σ S .ready).finishArgument call (.inline content ⟨start, n + 1⟩)) ?_ []
  simp only [take, inReady, closeScope, beq_self_eq_true, if_true, hcross]
  rfl

/-- In a text the closer has to be that of the scope, at the depth that the scope has remembered. -/
theorem run_close_square_text {call : Call} {start textStart : Nat} {pieces : List Tree}
    {afterReturn : Bool} {content : Option Tree} :
    (Reader.mk n (.square :: σ) (.brackets S call start (σ.length + 1) content)
        (.text pieces textStart afterReturn)).run [Bracket.square.closer]
      = .ok (afterArgument (n + 1) σ S call
          (.inline (.node (.group (addText pieces textStart n).reverse)) ⟨start, n + 1⟩)) := by
  have htilde : (Bracket.square.closer == tilde) = false := by decide
  have hline : (Bracket.square.closer == lineFeed) = false := by decide
  have hends : (Reader.mk n (.square :: σ) (.brackets S call start (σ.length + 1) content)
      (.text pieces textStart afterReturn)).endsScope Bracket.square.closer = true := by
    rw [endsScope, Bracket.ofCloser?_closer]
    exact beq_self_eq_true _
  -- The text ends first, which leaves the group as the content of the brackets.
  rw [← run_close_square (d := σ.length + 1)]
  refine run_cons_congr ?_ []
  simp only [take, inText, htilde, hline, hends, Bool.false_eq_true, if_false, if_true]
  rfl

/-! ## The end of a source -/

theorem finishScope_eq_ok {S : Scope} {tree : Tree} (h : finishScope S = .ok tree) :
    ∃ blocks, S = .document blocks ∧ tree = .node (.group blocks.reverse) := by
  cases S with
  | document blocks =>
    cases h
    exact ⟨blocks, rfl, rfl⟩
  | braces => cases h
  | brackets => cases h

theorem ok_of_mapError {ε ε' α : Type} {x : Except ε α} {f : ε → ε'} {a : α}
    (h : x.mapError f = .ok a) : x = .ok a := by
  cases x with
  | error e => cases h
  | ok found =>
    cases h
    rfl

theorem error_of_mapError {ε ε' α : Type} {x : Except ε α} {f : ε → ε'} {e' : ε'}
    (h : x.mapError f = .error e') : ∃ e, x = .error e ∧ f e = e' := by
  cases x with
  | error e =>
    cases h
    exact ⟨e, rfl, rfl⟩
  | ok found => cases h

end TildeMarkup.Reader
