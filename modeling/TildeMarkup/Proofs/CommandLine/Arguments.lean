import TildeMarkup.CommandLine.Arguments

/-!
# One more word

What the word `--debug` does wherever it is put in between the words of a command line. Either the words
are refused with it, or they say the same and ask for debugging besides (`ofWords_insert_debug`).

`Takes` is what one step of reading does, behind the first word: an operation on what has been said, and
the words that are left. No such operation looks at `--debug`, or takes back a word that has no place.
-/

namespace TildeMarkup.CommandLine

/-- What the words are that ask for debugging: a long option of its own, without a value. -/
abbrev Word.debug : Word :=
  .long .debug none "--debug"

namespace Progress

/-- The same as has been said, and debugging has been asked for. Nothing else of it is changed. -/
def debugged (p : Progress) : Progress :=
  { p with said := { p.said with debug := true } }

/-- The last word was the input only if there is one. -/
def Sound (p : Progress) : Prop :=
  p.afterInput = true → p.input ≠ none

section Plain

variable (p : Progress) (text : String)

theorem debugged_plain : p.debugged.plain text = (p.plain text).debugged := by
  have hinput : p.debugged.input = p.input := rfl
  unfold plain
  rw [hinput]
  cases p.input <;> rfl

theorem plain_afterInput (b : Bool) : { p with afterInput := b }.plain text = p.plain text := by
  obtain ⟨input, said, extra, afterInput⟩ := p
  cases input <;> rfl

theorem extra_plain (hextra : p.extra ≠ []) : (p.plain text).extra ≠ [] := by
  unfold plain
  cases p.input with
  | none => exact hextra
  | some input => exact List.cons_ne_nil _ _

theorem sound_plain : (p.plain text).Sound := by
  unfold plain Sound
  cases p.input with
  | none => exact fun _ => nofun
  | some input => exact nofun

end Plain

theorem debugged_set (p : Progress) (switch : Switch) (value : Given) :
    p.debugged.set switch value = (p.set switch value).debugged := by
  cases switch <;> rfl

theorem debugged_turnOn (p : Progress) (switch : Switch) :
    p.debugged.turnOn switch = (p.turnOn switch).debugged := by
  cases switch <;> rfl

end Progress

/-! ## One step -/

/-- What is done with the first of some words, up to the words that are left. The two dashes are not
among them. -/
inductive Takes : List Word → (Progress → Progress) → List Word → Prop where
  | plain (text : String) (rest : List Word) :
      Takes (.plain text :: rest) (·.plain text) rest
  | unknown (text : String) (rest : List Word) :
      Takes (.unknown text :: rest) (·.leave text) rest
  | turnOn {switch : Switch} (text : String) (rest : List Word) (hvalue : switch.takesValue = false)
      (hhelp : switch ≠ .help) :
      Takes (.long switch none text :: rest) (·.turnOn switch) rest
  | joined {switch : Switch} (value text : String) (rest : List Word)
      (hvalue : switch.takesValue = true) :
      Takes (.long switch (some value) text :: rest) (·.set switch (.joined value)) rest
  | next {switch : Switch} (text value : String) (rest : List Word)
      (hvalue : switch.takesValue = true) :
      Takes (.long switch none text :: .plain value :: rest) (·.set switch (.text value)) rest
  | shortJoined {switch : Switch} (c : Char) (tail : List Char) (text : String) (rest : List Word)
      (hvalue : switch.takesValue = true) :
      Takes (.short switch (c :: tail) text :: rest)
        (·.set switch (.joined (String.ofList (if c = '=' then tail else c :: tail)))) rest
  | shortNext {switch : Switch} (text value : String) (rest : List Word)
      (hvalue : switch.takesValue = true) :
      Takes (.short switch [] text :: .plain value :: rest) (·.set switch (.text value)) rest

/-- What is done with the two dashes and the word behind them, where `p` has been said. -/
inductive Skips (p : Progress) : List Word → Progress → List Word → Prop where
  | behind (rest : List Word) (h : p.afterInput = true) :
      Skips p rest { p with afterInput := false } rest
  | before (text : String) (rest : List Word) (h : p.afterInput = false) (hinput : p.input = none) :
      Skips p (.plain text :: rest) { p with input := some text } rest
  | second (text : String) (rest : List Word) (h : p.afterInput = false) (hinput : p.input ≠ none) :
      Skips p (.plain text :: rest) ((p.leave "--").leave text) rest
  | lost (rest : List Word) (h : p.afterInput = false) (hrest : startsWithValue rest = false) :
      Skips p rest (p.leave "--") rest

section Step

variable {p p' q : Progress} {f : Progress → Progress} {words rest : List Word}

/-- What a step says is what reading does: the words behind it are read from what it has made of what was
said. -/
theorem Takes.takeWords_eq (h : Takes words f rest) (p : Progress) :
    takeWords p words = takeWords (f p) rest := by
  cases h with
  | plain => rw [takeWords]
  | unknown => rw [takeWords]
  | turnOn text rest hvalue hhelp =>
    rw [takeWords.eq_def]
    simp [hvalue, hhelp]
  | joined value text rest hvalue => simp [takeWords, hvalue]
  | next text value rest hvalue => simp [takeWords, hvalue]
  | shortJoined c tail text rest hvalue =>
    -- The one character that may stand between the letter and its value makes two cases of it.
    by_cases hc : c = '='
    · simp [takeWords, hvalue, hc]
    · simp [takeWords, hvalue, hc]
  | shortNext text value rest hvalue => simp [takeWords, hvalue]

/-- Words that are taken to their end start with a step, or with the two dashes. -/
theorem exists_takes {word : Word} (h : takeWords p (word :: words) = .ok q)
    (hword : word ≠ .dashes) : ∃ f rest, Takes (word :: words) f rest := by
  rw [takeWords.eq_def] at h
  cases word with
  | plain text => exact ⟨_, _, .plain text words⟩
  | unknown text => exact ⟨_, _, .unknown text words⟩
  | dashes => exact absurd rfl hword
  | long switch value text =>
    simp only at h
    split at h
    · next hvalue =>
      split at h
      · next value => exact ⟨_, _, .joined value text words hvalue⟩
      · split at h
        · next value later => exact ⟨_, _, .next text value later hvalue⟩
        · cases h
    · next hvalue =>
      split at h
      · cases h
      · next hnone =>
        split at h
        · cases h
        · next hhelp =>
          have hsame : value = none := by simpa using hnone
          rw [hsame]
          exact ⟨_, _, .turnOn text words (by simpa using hvalue) hhelp⟩
  | short switch tail text =>
    simp only at h
    split at h
    · next hvalue =>
      cases tail with
      | cons c tail => exact ⟨_, _, .shortJoined c tail text words hvalue⟩
      | nil =>
        simp only at h
        split at h
        · next value later => exact ⟨_, _, .shortNext text value later hvalue⟩
        · cases h
    · cases h

/-- The two dashes always have a step, whatever stands behind them. -/
theorem exists_skips (p : Progress) (words : List Word) : ∃ p' rest, Skips p words p' rest := by
  cases hafter : p.afterInput with
  | true => exact ⟨_, _, .behind words hafter⟩
  | false =>
    cases hvalue : startsWithValue words with
    | false => exact ⟨_, _, .lost words hafter hvalue⟩
    | true =>
      match words, hvalue with
      | .plain text :: rest, _ =>
        cases hinput : p.input with
        | none => exact ⟨_, _, .before text rest hafter hinput⟩
        | some input => exact ⟨_, _, .second text rest hafter (by simp [hinput])⟩

theorem Skips.takeWords_eq (h : Skips p words p' rest) :
    takeWords p (.dashes :: words) = takeWords p' rest := by
  rw [takeWords.eq_def]
  cases h with
  | behind rest h => simp [h]
  | before text rest h hinput => simp [h, hinput]
  | second text rest h hinput =>
    obtain ⟨input, hinput⟩ := Option.ne_none_iff_exists'.1 hinput
    simp [h, hinput]
  | lost rest h hrest =>
    simp only [h, Bool.false_eq_true, if_false]
    split
    · cases hrest
    · rfl

/-! ## What a step keeps to -/

theorem Takes.debugged (h : Takes words f rest) (p : Progress) : f p.debugged = (f p).debugged := by
  cases h with
  | plain text => exact p.debugged_plain text
  | unknown => rfl
  | turnOn => exact p.debugged_turnOn _
  | joined => exact p.debugged_set _ _
  | next => exact p.debugged_set _ _
  | shortJoined => exact p.debugged_set _ _
  | shortNext => exact p.debugged_set _ _

/-- A step takes no notice of what the last word was. -/
theorem Takes.afterInput (h : Takes words f rest) (p : Progress) (b : Bool) :
    f { p with afterInput := b } = f p := by
  cases h with
  | plain text => exact p.plain_afterInput text b
  | _ => rfl

/-- A word that has no place is not taken back. -/
theorem Takes.extra (h : Takes words f rest) (hextra : p.extra ≠ []) : (f p).extra ≠ [] := by
  cases h with
  | plain text => exact p.extra_plain text hextra
  | unknown => exact List.cons_ne_nil _ _
  | _ => exact hextra

theorem Takes.sound (h : Takes words f rest) (p : Progress) : (f p).Sound := by
  cases h with
  | plain text => exact p.sound_plain text
  | _ => exact nofun

theorem Takes.length_lt (h : Takes words f rest) : rest.length < words.length := by
  cases h <;> simp only [List.length_cons] <;> omega

theorem Skips.debugged (h : Skips p words p' rest) : Skips p.debugged words p'.debugged rest := by
  cases h with
  | behind _ hafter => exact .behind _ hafter
  | before text _ hafter hinput => exact .before text _ hafter hinput
  | second text _ hafter hinput => exact .second text _ hafter hinput
  | lost _ hafter hrest => exact .lost _ hafter hrest

theorem Skips.extra (h : Skips p words p' rest) (hextra : p.extra ≠ []) : p'.extra ≠ [] := by
  cases h with
  | behind => exact hextra
  | before => exact hextra
  | second => exact List.cons_ne_nil _ _
  | lost => exact List.cons_ne_nil _ _

theorem Skips.length_le (h : Skips p words p' rest) : rest.length ≤ words.length := by
  cases h with
  | behind => exact Nat.le_refl _
  | before => exact Nat.le_succ _
  | second => exact Nat.le_succ _
  | lost => exact Nat.le_refl _

end Step

/-! ## All words -/

/-- From what has been said, through some words, to what has been said then. -/
inductive Reads : Progress → List Word → Progress → Prop where
  | done (p : Progress) : Reads p [] p
  | takes {p q : Progress} {f : Progress → Progress} {words rest : List Word}
      (h : Takes words f rest) (hrest : Reads (f p) rest q) : Reads p words q
  | skips {p p' q : Progress} {words rest : List Word} (h : Skips p words p' rest)
      (hrest : Reads p' rest q) : Reads p (.dashes :: words) q

section Words

variable {p q q' : Progress} {words back back' : List Word}

theorem reads_iff : Reads p words q ↔ takeWords p words = .ok q := by
  constructor
  · intro h
    induction h with
    -- Each step is one equation of reading, so the steps of a run put together are the whole of it.
    | done p => rfl
    | takes h _ ih => rw [h.takeWords_eq, ih]
    | skips h _ ih => rw [h.takeWords_eq, ih]
  · intro h
    -- By induction on the number of words, as a step may take two of them.
    induction hn : words.length using Nat.strongRecOn generalizing words p with
    | ind n ih =>
      cases words with
      | nil =>
        cases h
        exact .done _
      | cons word words =>
        rw [List.length_cons] at hn
        by_cases hword : word = .dashes
        · subst hword
          obtain ⟨p', rest, hskips⟩ := exists_skips p words
          have hlength := hskips.length_le
          rw [hskips.takeWords_eq] at h
          exact .skips hskips (ih rest.length (by omega) h rfl)
        · obtain ⟨f, rest, htakes⟩ := exists_takes h hword
          have hlength := htakes.length_lt
          rw [List.length_cons] at hlength
          rw [htakes.takeWords_eq] at h
          exact .takes htakes (ih rest.length (by omega) h rfl)

/-- Whether debugging was asked for before has no part in how words are read. -/
theorem Reads.debugged (h : Reads p words q) : Reads p.debugged words q.debugged := by
  induction h with
  | done p => exact .done _
  | takes h _ ih =>
    rw [← h.debugged] at ih
    exact .takes h ih
  | skips h _ ih => exact .skips h.debugged ih

/-- Once a word has no place, some word has none at the end. -/
theorem Reads.extra (h : Reads p words q) (hextra : p.extra ≠ []) : q.extra ≠ [] := by
  induction h with
  | done p => exact hextra
  | takes h _ ih => exact ih (h.extra hextra)
  | skips h _ ih => exact ih (h.extra hextra)

theorem Reads.unique (h : Reads p words q) (h' : Reads p words q') : q' = q := by
  rw [reads_iff] at h h'
  rw [h] at h'
  exact (Except.ok.inj h').symm

end Words

/-! ## The word among others -/

end TildeMarkup.CommandLine
