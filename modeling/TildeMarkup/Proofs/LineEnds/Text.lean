import TildeMarkup.Proofs.Html.Calls
import TildeMarkup.Proofs.LineEnds.Basic
import TildeMarkup.Proofs.Utf8

/-!
# Text with carriage returns

What becomes of a string when its line feeds have carriage returns in front: it is read as the same
text with the same addition, and so it is with its quotes resolved and its characters escaped. The
lines of a listing, and the extension of its file, are then those of the text without.
-/

namespace TildeMarkup

open Utf8 Text Html

/-- The text with a carriage return in front of every line feed. -/
def crlfChars (cs : List Char) : List Char :=
  withReturns '\r' '\n' cs

/-- The parts of a text have their own line ends. -/
theorem crlfChars_append (front back : List Char) :
    crlfChars (front ++ back) = crlfChars front ++ crlfChars back :=
  withReturns_append front back

/-! ## Reading -/

/-- What is unfinished at the end is no line feed. -/
theorem feed_not_mem_decodeFrom_nil (state : State) : '\n' ∉ decodeFrom state [] := by
  cases state with
  | clear => exact List.not_mem_nil
  | within =>
    show '\n' ∉ [replacement]
    decide

/-- Bytes are decoded to the same characters, with a carriage return in front of every line feed. -/
theorem decodeFrom_crlf {state : State} (hstate : state.Wide) (bytes : Bytes) :
    decodeFrom state (crlf bytes) = crlfChars (decodeFrom state bytes) := by
  induction bytes generalizing state with
  | nil => exact (withReturns_of_not_mem (feed_not_mem_decodeFrom_nil state)).symm
  | cons b rest ih =>
    by_cases hb : b = lineFeed
    · -- what is open is given up at the carriage return, and at the line feed without one
      have hclear : State.clear.Wide := trivial
      have hreturn := step_of_lt hstate (b := carriageReturn) (by decide)
      have hfeed {state : State} (hstate : state.Wide) := step_of_lt hstate (b := lineFeed) (by decide)
      have hpending : crlfChars (decodeFrom state [] ++ ['\n'])
          = decodeFrom state [] ++ ['\r', '\n'] := by
        rw [crlfChars, withReturns_append, withReturns_of_not_mem (feed_not_mem_decodeFrom_nil state)]
        rfl
      rw [hb, crlf, withReturns_feed, ← crlf, decodeFrom_cons, hreturn, decodeFrom_cons, hfeed hclear,
        ih hclear, decodeFrom_cons, hfeed hstate]
      show (decodeFrom state [] ++ ['\r']) ++ (['\n'] ++ crlfChars (decodeFrom .clear rest))
        = crlfChars ((decodeFrom state [] ++ ['\n']) ++ decodeFrom .clear rest)
      rw [crlfChars_append, hpending, List.append_assoc, List.append_assoc]
      rfl
    · have hstep : '\n' ∉ (step state b).1 := fun hmem =>
        hb (UInt8.toNat_inj.1 (mem_step hstate hmem (by decide) (by decide)).symm)
      rw [crlf, withReturns_cons hb, ← crlf, decodeFrom_cons, decodeFrom_cons, ih (wide_step hstate b),
        crlfChars_append, show crlfChars (step state b).1 = _ from withReturns_of_not_mem hstep]

/-- In particular so from the start of a source on. -/
theorem decodeChars_crlf (bytes : Bytes) : decodeChars (crlf bytes) = crlfChars (decodeChars bytes) :=
  decodeFrom_crlf (show State.clear.Wide from trivial) bytes

theorem return_not_mem_decodeChars {bytes : Bytes} (h : carriageReturn ∉ bytes) :
    '\r' ∉ decodeChars bytes := fun hmem =>
  h (mem_of_mem_decodeFrom (show State.clear.Wide from trivial) hmem (by decide) (by decide))

/-! ## Quotes -/

/-- A character by itself is read as it is, if it is no backslash in front of a quote. -/
theorem unescapeChars_cons {c : Char} {rest : List Char} (h : c = '\\' → rest.head? ≠ some '"') :
    unescapeChars (c :: rest) = c :: unescapeChars rest := by
  rw [unescapeChars]
  rintro more rfl rfl
  exact h rfl rfl

/-- A quote is the first character of both texts, or of none. -/
theorem head?_crlfChars {cs : List Char} (h : (crlfChars cs).head? = some '"') :
    cs.head? = some '"' := by
  cases cs with
  | nil => cases h
  | cons c rest =>
    by_cases hc : c = '\n'
    · rw [hc, crlfChars, withReturns_feed] at h
      cases h
    · rwa [crlfChars, withReturns_cons hc] at h

/-- Resolving quotes touches no line end. -/
theorem unescapeChars_crlf (cs : List Char) :
    unescapeChars (crlfChars cs) = crlfChars (unescapeChars cs) := by
  -- By the cases of resolving: an escaped quote, any other character, and the end.
  induction cs using unescapeChars.induct with
  | case1 rest ih =>
    rw [unescapeChars, crlfChars, crlfChars, withReturns_cons (by decide), withReturns_cons (by decide),
      withReturns_cons (by decide), unescapeChars]
    exact congrArg ('"' :: ·) ih
  | case2 c rest hplain ih =>
    have hquote : c = '\\' → rest.head? ≠ some '"' := by
      rintro rfl hhead
      obtain ⟨more, rfl⟩ := List.head?_eq_some_iff.1 hhead
      exact hplain more rfl rfl
    rw [unescapeChars_cons hquote]
    by_cases hc : c = '\n'
    · rw [hc, crlfChars, crlfChars, withReturns_feed, withReturns_feed,
        unescapeChars_cons (fun h => by cases h), unescapeChars_cons (fun h => by cases h)]
      exact congrArg ('\r' :: '\n' :: ·) ih
    · have hcons := unescapeChars_cons fun h hhead => hquote h (head?_crlfChars hhead)
      rw [crlfChars, crlfChars, withReturns_cons hc, withReturns_cons hc, ← crlfChars, hcons, ih]
      rfl
  | case3 => rfl

theorem mem_of_mem_unescapeChars {cs : List Char} {c : Char} (h : c ∈ unescapeChars cs) : c ∈ cs := by
  induction cs using unescapeChars.induct with
  | case1 rest ih =>
    rw [unescapeChars] at h
    exact List.mem_cons_of_mem _ ((List.mem_cons.1 h).elim (fun h => h ▸ List.mem_cons_self)
      fun h => List.mem_cons_of_mem _ (ih h))
  | case2 d rest hplain ih =>
    rw [unescapeChars] at h
    · exact (List.mem_cons.1 h).elim (fun h => h ▸ List.mem_cons_self)
        fun h => List.mem_cons_of_mem _ (ih h)
    · exact hplain
  | case3 => cases h

/-! ## Escaped characters -/

/-- A line end is escaped to itself, and it is no part of another character's escape. -/
theorem mem_escapeChar {c d : Char} (hd : d = '\n' ∨ d = '\r') (h : d ∈ escapeChar c) : d = c := by
  unfold escapeChar at h
  split at h
  · rcases hd with rfl | rfl <;> revert h <;> decide
  · rcases hd with rfl | rfl <;> revert h <;> decide
  · rcases hd with rfl | rfl <;> revert h <;> decide
  · rcases hd with rfl | rfl <;> revert h <;> decide
  · exact List.mem_singleton.1 h

/-- Escaping touches no line end either. -/
theorem escapeChars_crlf (cs : List Char) : escapeChars (crlfChars cs) = crlfChars (escapeChars cs) := by
  induction cs with
  | nil => rfl
  | cons c rest ih =>
    by_cases hc : c = '\n'
    · rw [hc, crlfChars, withReturns_feed, ← crlfChars]
      show '\r' :: '\n' :: escapeChars (crlfChars rest) = crlfChars ('\n' :: escapeChars rest)
      rw [ih, crlfChars, crlfChars, withReturns_feed]
    · have hescape : '\n' ∉ escapeChar c := fun h => hc (mem_escapeChar (.inl rfl) h).symm
      rw [crlfChars, withReturns_cons hc, ← crlfChars]
      show escapeChar c ++ escapeChars (crlfChars rest) = crlfChars (escapeChar c ++ escapeChars rest)
      rw [ih, crlfChars_append, crlfChars, crlfChars, withReturns_of_not_mem hescape]

theorem return_not_mem_escapeChars {cs : List Char} (h : '\r' ∉ cs) : '\r' ∉ escapeChars cs := by
  intro hmem
  obtain ⟨c, hc, hescape⟩ := List.mem_flatMap.1 hmem
  rw [← mem_escapeChar (.inr rfl) hescape] at hc
  exact h hc

/-! ## Lines -/

/-- Only a carriage return at the end of a line is dropped. -/
theorem dropReturn_cons {c : Char} (hc : c ≠ '\r') (line : List Char) :
    dropReturn (c :: line) = c :: dropReturn line := by
  cases line with
  | nil => simp [dropReturn, hc]
  | cons d rest =>
    rw [dropReturn, dropReturn, List.getLast?_cons_cons, List.dropLast_cons_cons]
    split <;> rfl

/-- A character that ends no line belongs to the first one. -/
theorem lineChars_cons {c : Char} (hfeed : c ≠ '\n') (hreturn : c ≠ '\r') (cs : List Char) :
    lineChars (c :: cs) = (c :: (lineChars cs).headD []) :: (lineChars cs).tail := by
  rw [lineChars, splitLines, if_neg (by simpa using hfeed), lineChars]
  cases splitLines cs with
  | nil => exact congrArg (· :: []) (dropReturn_cons hreturn [])
  | cons line lines => exact congrArg (· :: lines.map dropReturn) (dropReturn_cons hreturn line)

/-- The lines of a text do not tell how they end: the carriage return of each is dropped with its line
feed. -/
theorem lineChars_crlf {cs : List Char} (h : '\r' ∉ cs) : lineChars (crlfChars cs) = lineChars cs := by
  induction cs with
  | nil => rfl
  | cons c rest ih =>
    rw [List.mem_cons, not_or] at h
    by_cases hc : c = '\n'
    · rw [hc, crlfChars, withReturns_feed]
      exact congrArg ([] :: ·) (ih h.2)
    · have hcons := lineChars_cons hc (Ne.symm h.1)
      rw [crlfChars, withReturns_cons hc, ← crlfChars, hcons, ih h.2, ← hcons]

/-! ## Extensions -/

/-- An extension without line ends is that of the file with and without carriage returns. -/
theorem hasExtension_crlf {cs : List Char} (h : '\r' ∉ cs) {extension : String}
    (hfeed : '\n' ∉ extension.toList) (hreturn : '\r' ∉ extension.toList) :
    Listing.HasExtension (String.ofList (crlfChars cs)) extension
      ↔ Listing.HasExtension (String.ofList cs) extension := by
  simp only [Listing.HasExtension, String.toList_ofList]
  constructor
  · rintro ⟨stem, hfile, hdot⟩
    have hwithout := congrArg (List.filter (· ≠ '\r')) hfile
    have hextension : extension.toList.filter (· ≠ '\r') = extension.toList :=
      List.filter_eq_self.2 fun c hc => decide_eq_true fun heq => hreturn (heq ▸ hc)
    rw [crlfChars, filter_withReturns (by decide) h, List.filter_append,
      List.filter_cons_of_pos (by decide), hextension] at hwithout
    exact ⟨_, hwithout, hdot⟩
  · rintro ⟨stem, rfl, hdot⟩
    refine ⟨crlfChars stem, ?_, hdot⟩
    rw [crlfChars_append]
    exact congrArg (crlfChars stem ++ ·) (withReturns_of_not_mem (by simpa using hfeed))

end TildeMarkup
