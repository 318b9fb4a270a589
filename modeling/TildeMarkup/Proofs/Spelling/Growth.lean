import TildeMarkup.Proofs.Reader.Moves
import TildeMarkup.Proofs.Spelling.Grammar

/-!
# Spellings that grow

A reader adds to the end of what it has read: a byte to a text, a piece to a run, a part to a
scope. What the grammar says of a sequence goes on to hold when one more element fits at its end.
The text that is being read is the last piece of its run (`pending`), but there is none before the
first byte of it.
-/

namespace TildeMarkup.Spelling

open Reader

variable {τ₀ τ next : List Bracket} {b : UInt8}

/-- The parts stand in a scope of blocks, and leave brackets open in it. -/
structure Blocks (parts : List Part) (goesOn : Bool) (τ : List Bracket) : Prop where
  sequence : parts.foldlM Part.inBlocks true = some goesOn
  fits : Part.FitsAll true parts
  cross : Part.crossAll [] parts = some τ

/-- The pieces follow each other in a run, and take the stack from `τ₀` to `τ`. -/
structure Pieces (τ₀ : List Bracket) (pieces : List Part) (τ : List Bracket) : Prop where
  sequence : (pieces.foldlM Part.inRun true).isSome = true
  fits : Part.FitsAll false pieces
  cross : Part.crossAll τ₀ pieces = some τ

/-- The pieces are some, and the first of them may start a run in the scope. -/
def Started (S : Scope) (pieces : List Part) : Prop :=
  pieces ≠ [] ∧ Part.startsRun (!S.allowsBlocks) pieces = true

/-- The text that is being read, as the last piece of its run. -/
def pending (bytes : Bytes) : List Part :=
  if bytes = [] then [] else [.text bytes]

theorem pending_nil : pending [] = [] := rfl

theorem pending_cons (bytes : Bytes) : pending (b :: bytes) = [.text (b :: bytes)] :=
  if_neg (List.cons_ne_nil b bytes)

/-! ## Another part -/

/-- Another part after the others, where one may follow and its brackets go through. -/
theorem Blocks.add {parts : List Part} {goesOn : Bool} (h : Blocks parts true τ₀) (part : Part)
    (hplace : Part.inBlocks true part = some goesOn)
    (hfits : part.Fits true) (hcross : part.cross τ₀ = some τ) :
    Blocks (parts ++ [part]) goesOn τ where
  sequence := by
    rw [List.foldlM_append, h.sequence]
    show (Part.inBlocks true part).bind _ = _
    rw [hplace]
    rfl
  fits := Part.fitsAll_append.2 ⟨h.fits, hfits, trivial⟩
  cross := by
    rw [Part.crossAll_append, h.cross]
    exact (Part.crossAll_singleton τ₀ part).trans hcross

/-- After a command a text may come, whatever is in front of it. -/
theorem Pieces.sequence_call {pieces : List Part} {part : Part} (h : Pieces τ₀ pieces τ)
    (hcall : part.isCall = true) : (pieces ++ [part]).foldlM Part.inRun true = some true := by
  obtain ⟨textFits, hsequence⟩ := Option.isSome_iff_exists.1 h.sequence
  rw [List.foldlM_append, hsequence]
  cases part with
  | call => rfl
  | _ => cases hcall

/-- Another command after the pieces of a run, where its brackets go through. -/
theorem Pieces.add {pieces : List Part} {part : Part} (h : Pieces τ₀ pieces τ)
    (hcall : part.isCall = true) (hfits : part.Fits false) (hcross : part.cross τ = some next) :
    Pieces τ₀ (pieces ++ [part]) next where
  sequence := by
    rw [h.sequence_call hcall]
    rfl
  fits := Part.fitsAll_append.2 ⟨h.fits, hfits, trivial⟩
  cross := by
    rw [Part.crossAll_append, h.cross]
    exact (Part.crossAll_singleton τ part).trans hcross

/-- How a run starts is a matter of its first piece, so more pieces do not change it. -/
theorem Started.append {S : Scope} {pieces : List Part} (h : Started S pieces)
    (more : List Part) : Started S (pieces ++ more) := by
  obtain ⟨hne, hstarts⟩ := h
  -- Only a text can be that piece: a run does not start with a command.
  match pieces, hne, hstarts with
  | .text (b :: bytes) :: rest, _, hstarts => exact ⟨List.cons_ne_nil _ _, hstarts⟩

/-! ## What the pending text stands for -/

/-- The pending text has been read, so its bytes are among those of the run. -/
theorem bytesAll_pending (pieces : List Part) (bytes : Bytes) :
    Part.bytesAll (pieces ++ pending bytes) = Part.bytesAll pieces ++ bytes := by
  rw [Part.bytesAll_append, pending]
  split
  · next h => rw [h, Part.bytesAll]
  · rw [Part.bytesAll_singleton, Part.bytes]

/-- A reader that ends its text adds the node of the pending one, if it has any bytes. -/
theorem addText_pending (m : Nat) (pieces : List Part) (bytes : Bytes) :
    addText (Part.treesAll m pieces).reverse (m + (Part.bytesAll pieces).length)
        (m + (Part.bytesAll pieces).length + bytes.length)
      = (Part.treesAll m (pieces ++ pending bytes)).reverse := by
  rw [Part.treesAll_append, List.reverse_append, pending]
  split
  · next h =>
    rw [h, List.length_nil, Nat.add_zero, addText_same]
    rfl
  · next h =>
    rw [addText_bytes _ _ h, Part.treesAll_singleton]
    rfl

theorem sequence_pending {pieces : List Part} (h : pieces.foldlM Part.inRun true = some true)
    (bytes : Bytes) : ((pieces ++ pending bytes).foldlM Part.inRun true).isSome = true := by
  rw [List.foldlM_append, h, pending]
  split <;> rfl

theorem fitsAll_pending {bytes : Bytes} :
    Part.FitsAll false (pending bytes) ↔ tilde ∉ bytes ∧ lineFeed ∉ bytes := by
  rw [pending]
  split
  · next h => simp [h, Part.FitsAll]
  · next h => simp [Part.FitsAll, Part.Fits, h]

theorem crossAll_pending (σ : List Bracket) (bytes : Bytes) :
    Part.crossAll σ (pending bytes) = Bracket.scan σ bytes := by
  rw [pending]
  split
  · next h =>
    rw [h]
    rfl
  · exact Part.crossAll_singleton σ (.text bytes)

/-! ## Another byte of a text -/

/-- A byte that goes through is one more of the pending text, or the first of it. -/
theorem Pieces.push {pieces : List Part} {bytes : Bytes}
    (h : Pieces τ₀ (pieces ++ pending bytes) τ) (htext : pieces.foldlM Part.inRun true = some true)
    (htilde : b ≠ tilde) (hline : b ≠ lineFeed) (hpass : Bracket.pass τ b = some next) :
    Pieces τ₀ (pieces ++ pending (bytes ++ [b])) next where
  sequence := sequence_pending htext _
  fits := by
    obtain ⟨hpieces, hbytes⟩ := Part.fitsAll_append.1 h.fits
    rw [fitsAll_pending] at hbytes
    refine Part.fitsAll_append.2 ⟨hpieces, fitsAll_pending.2 ⟨?_, ?_⟩⟩
    · simp only [List.mem_append, List.mem_singleton, not_or]
      exact ⟨hbytes.1, htilde.symm⟩
    · simp only [List.mem_append, List.mem_singleton, not_or]
      exact ⟨hbytes.2, hline.symm⟩
  cross := by
    have hcross := h.cross
    rw [Part.crossAll_append] at hcross ⊢
    -- The text is scanned from the stack that the pieces in front of it leave.
    obtain ⟨middle, hpieces, hbytes⟩ := Option.bind_eq_some_iff.1 hcross
    rw [crossAll_pending] at hbytes
    rw [hpieces, Option.bind_some, crossAll_pending, Bracket.scan_append, hbytes, Option.bind_some,
      Bracket.scan_singleton, hpass]

theorem Started.push {S : Scope} {pieces : List Part} {bytes : Bytes}
    (h : Started S (pieces ++ pending bytes)) (b : UInt8) :
    Started S (pieces ++ pending (bytes ++ [b])) := by
  cases pieces with
  | cons piece rest =>
    have hpiece : Started S [piece] := by
      refine ⟨List.cons_ne_nil _ _, ?_⟩
      obtain ⟨_, hstarts⟩ := h
      match piece, hstarts with
      | .text (_ :: _), hstarts => exact hstarts
    exact hpiece.append (rest ++ pending (bytes ++ [b]))
  | nil =>
    obtain ⟨hne, hstarts⟩ := h
    -- With no piece in front, the text itself starts the run, and its first byte stays the first.
    cases bytes with
    | nil => exact absurd rfl hne
    | cons c more => exact ⟨List.cons_ne_nil _ _, hstarts⟩

/-! ## The return in front of a line end -/

/-- Bytes that end in a return are some bytes and the return. -/
theorem endsInReturn_eq_true {bytes : Bytes} (h : endsInReturn false bytes = true) :
    ∃ front, bytes = front ++ [carriageReturn] := by
  rcases List.eq_nil_or_concat bytes with rfl | ⟨front, b, rfl⟩
  · cases h
  · rw [List.concat_eq_append, endsInReturn, List.foldl_append] at h
    exact ⟨front, by rw [List.concat_eq_append, beq_iff_eq.1 h]⟩

theorem endsInReturn_of_getLast? {bytes : Bytes} (h : bytes.getLast? = some carriageReturn)
    (before : Bool) : endsInReturn before bytes = true := by
  obtain ⟨front, rfl⟩ := List.getLast?_eq_some_iff.1 h
  rw [endsInReturn, List.foldl_append]
  rfl

theorem runEndsInReturn_append (before : Bool) (front back : List Part) :
    Part.runEndsInReturn before (front ++ back)
      = Part.runEndsInReturn (Part.runEndsInReturn before front) back := by
  induction front generalizing before with
  | nil => rfl
  | cons part rest ih =>
    cases part <;> exact ih _

/-- Pieces after which a text may come end in a command, so they do not end in a return. -/
theorem runEndsInReturn_of_inRun {pieces : List Part} {textFits before : Bool}
    (h : pieces.foldlM Part.inRun textFits = some true) (hbefore : textFits = true → before = false) :
    Part.runEndsInReturn before pieces = false := by
  -- What counts is the last byte of the last text, unless a command has come since.
  induction pieces generalizing textFits before with
  | nil =>
    cases h
    exact hbefore rfl
  | cons part rest ih =>
    rw [List.foldlM_cons] at h
    cases part with
    | text bytes =>
      cases textFits with
      | false => cases h
      | true => exact ih h (fun hfalse => by cases hfalse)
    | call => exact ih h (fun _ => rfl)
    | _ => cases h

theorem runEndsInReturn_pending {pieces : List Part} (h : pieces.foldlM Part.inRun true = some true)
    (bytes : Bytes) :
    Part.runEndsInReturn false (pieces ++ pending bytes) = endsInReturn false bytes := by
  rw [runEndsInReturn_append, runEndsInReturn_of_inRun h (fun _ => rfl), pending]
  split
  · next hnil =>
    rw [hnil]
    rfl
  · rfl

/-- A return that a line end follows is taken off its text again, which may then be none at all. -/
theorem Pieces.dropReturn {pieces : List Part} {front : Bytes}
    (h : Pieces τ₀ (pieces ++ pending (front ++ [carriageReturn])) τ)
    (htext : pieces.foldlM Part.inRun true = some true) :
    Pieces τ₀ (pieces ++ pending front) τ where
  sequence := sequence_pending htext _
  fits := by
    obtain ⟨hpieces, hbytes⟩ := Part.fitsAll_append.1 h.fits
    rw [fitsAll_pending] at hbytes
    refine Part.fitsAll_append.2 ⟨hpieces, fitsAll_pending.2 ⟨?_, ?_⟩⟩
    · exact fun hmem => hbytes.1 (List.mem_append_left _ hmem)
    · exact fun hmem => hbytes.2 (List.mem_append_left _ hmem)
  cross := by
    have hcross := h.cross
    rw [Part.crossAll_append] at hcross ⊢
    obtain ⟨middle, hpieces, hbytes⟩ := Option.bind_eq_some_iff.1 hcross
    rw [crossAll_pending, Bracket.scan_append] at hbytes
    obtain ⟨last, hfront, hreturn⟩ := Option.bind_eq_some_iff.1 hbytes
    rw [Bracket.scan_singleton, Bracket.pass_plain (by decide)] at hreturn
    rw [hpieces, Option.bind_some, crossAll_pending, hfront, hreturn]

theorem startsRun_dropReturn {bracketed : Bool} {pieces : List Part} {front : Bytes}
    (h : Part.startsRun bracketed (pieces ++ pending (front ++ [carriageReturn])) = true) :
    Part.startsRun bracketed (pieces ++ pending front) = true := by
  match pieces, front, h with
  | .text (_ :: _) :: _, _, h => exact h
  | [], _ :: _, h => exact h
  | [], [], h =>
    -- a return is a blank, so a run that starts with it is in square brackets
    have hblank : (bracketed || !isBlank carriageReturn) = true := h
    cases bracketed with
    | true => rfl
    | false => exact absurd hblank (by decide)

end TildeMarkup.Spelling
