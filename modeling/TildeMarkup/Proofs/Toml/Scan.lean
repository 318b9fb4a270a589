import TildeMarkup.Toml.Scan

/-!
# What the words of a configuration leave

No scan leaves more characters than it was given. A scan of a key counts its steps, and does not run
out of them if it has one more than there are characters (`gives_key`). A scan of a number may find too
many digits, and then there are as many characters (`gives_number`).
-/

namespace TildeMarkup.Toml

variable {total : Nat}

/-- What is read has a property. If nothing is read, it is not for want of steps, and it is for too many
digits only if there are so many characters in total. -/
inductive Gives {α : Type} (total : Nat) (P : α → Prop) : Except Problem α → Prop where
  | ok {a : α} (h : P a) : Gives total P (.ok a)
  | error {problem : Problem} (h : problem ≠ .exhausted)
      (hdigits : problem = .tooManyDigits → maxDigits < total) : Gives total P (.error problem)

/-- At most `n` characters are left of those that were given. -/
def Leaves {α : Type} (n : Nat) (scanned : α × List Char) : Prop :=
  scanned.2.length ≤ n

@[simp] theorem leaves_mk {α : Type} {n : Nat} {found : α} {rest : List Char} :
    Leaves n (found, rest) ↔ rest.length ≤ n :=
  Iff.rfl

namespace Gives

variable {α β : Type} {P : α → Prop} {Q : β → Prop} {read : Except Problem α}

/-- What is refused for want of something else is not refused for want of steps. -/
theorem expected {wanted : String} : Gives total P (.error (.expected wanted)) :=
  .error (by simp) (by simp)

theorem illegal {c : Char} : Gives total P (.error (.illegal c)) :=
  .error (by simp) (by simp)

theorem redefined {name : String} : Gives total P (.error (.redefined name)) :=
  .error (by simp) (by simp)

theorem noSuchDay : Gives total P (.error .noSuchDay) :=
  .error (by simp) (by simp)

theorem tooManyDigits (h : maxDigits < total) : Gives total P (.error .tooManyDigits) :=
  .error (by simp) fun _ => h

theorem mono {P' : α → Prop} (h : Gives total P read) (hmono : ∀ a, P a → P' a) : Gives total P' read := by
  cases h with
  | ok ha => exact .ok (hmono _ ha)
  | error hne hdigits => exact .error hne hdigits

/-- Two readings one after the other: the second one may rely on what the first one gives. -/
theorem bind {next : α → Except Problem β} (h : Gives total P read) (hnext : ∀ a, P a → Gives total Q (next a)) :
    Gives total Q (read >>= next) := by
  cases h with
  | ok ha => exact hnext _ ha
  | error hne hdigits => exact .error hne hdigits

theorem map {f : α → β} (h : Gives total P read) (hf : ∀ a, P a → Q (f a)) : Gives total Q (read.map f) := by
  cases h with
  | ok ha => exact .ok (hf _ ha)
  | error hne hdigits => exact .error hne hdigits

theorem leaves {m n : Nat} {read : Except Problem (α × List Char)} (h : Gives total (Leaves m) read)
    (hle : m ≤ n) : Gives total (Leaves n) read :=
  h.mono fun _ ha => Nat.le_trans ha hle

/-- The reading goes on with what is left, and never with more than there was. -/
theorem next {n : Nat} {read : Except Problem (α × List Char)}
    {more : α × List Char → Except Problem β} (h : Gives total (Leaves n) read)
    (hmore : ∀ found rest, rest.length ≤ n → Gives total Q (more (found, rest))) : Gives total Q (read >>= more) :=
  h.bind fun scanned hscanned => hmore scanned.1 scanned.2 hscanned

/-- What is done with the thing read leaves the same characters. -/
theorem keep {m n : Nat} {read : Except Problem (α × List Char)} {f : α → β}
    (h : Gives total (Leaves m) read) (hle : m ≤ n) :
    Gives total (Leaves n) (do let (found, rest) ← read; return (f found, rest)) :=
  h.bind fun _ ha => .ok (Nat.le_trans ha hle)

end Gives

/-! ## Gaps -/

theorem length_skipBlanks_le (cs : List Char) : (skipBlanks cs).length ≤ cs.length :=
  (List.dropWhile_suffix _).length_le

theorem gives_skipGaps (inComment : Bool) (cs : List Char) :
    Gives total (fun rest => rest.length ≤ cs.length) (skipGaps inComment cs) := by
  fun_induction skipGaps inComment cs
  case case1 => exact .ok (Nat.le_refl _)
  case case3 => exact .illegal
  case case7 => exact .ok (Nat.le_refl _)
  all_goals
    rename_i ih
    exact ih.mono fun _ => Nat.le_succ_of_le

/-! ## Strings -/

theorem gives_hexChar (digits : List Char) : Gives total (fun _ => True) (hexChar digits) := by
  unfold hexChar
  split
  · exact .expected
  · dsimp only
    split
    · exact .ok trivial
    · exact .expected

/-- The body of a string ends at its quotes, and an escape takes more than one character. -/
theorem gives_basicBody (multiline : Bool) (state : StringState) (cs : List Char) :
    Gives total (Leaves cs.length) (basicBody multiline state cs) := by
  fun_induction basicBody multiline state cs
  -- the closing quotes
  case case6 | case8 => exact .ok (by simp only [leaves_mk, List.length_cons]; omega)
  -- a character, or an escape
  case case7 ih | case13 ih | case17 ih => exact ih.keep (by simp only [List.length_cons]; omega)
  case case9 ih | case10 ih =>
    exact (gives_hexChar _).bind fun _ _ => ih.keep (by simp only [List.length_cons]; omega)
  -- what joins two lines
  case case2 ih | case3 ih | case5 ih | case11 ih | case12 ih =>
    exact ih.leaves (by simp only [List.length_cons]; omega)
  case case16 => exact .illegal
  all_goals exact .expected

theorem gives_literalBody (multiline : Bool) (cs : List Char) :
    Gives total (Leaves cs.length) (literalBody multiline cs) := by
  fun_induction literalBody multiline cs
  case case1 => exact .expected
  -- the closing quotes
  case case2 | case3 => exact .ok (by simp only [leaves_mk, List.length_cons]; omega)
  case case4 hcontrol _ =>
    rw [if_pos hcontrol]
    exact .illegal
  case case5 hcontrol _ ih =>
    rw [if_neg hcontrol]
    exact ih.keep (Nat.le_succ _)

theorem length_extraQuotes_le (mark : Char) (text cs : List Char) :
    (extraQuotes mark text cs).2.length ≤ cs.length := by
  unfold extraQuotes
  split
  · split
    · simp only [List.length_cons]
      omega
    · split <;> simp
  · split <;> simp
  · exact Nat.le_refl _

theorem length_dropLineEnd_le (cs : List Char) : (dropLineEnd cs).length ≤ cs.length := by
  unfold dropLineEnd
  split
  · exact Nat.le_succ _
  · exact Nat.le_refl _

theorem gives_lineString {cs : List Char} {read : Except Problem (String × List Char)}
    (h : lineString? cs = some read) : Gives total (Leaves cs.length) read := by
  unfold lineString? at h
  split at h
  · cases h
    exact (gives_basicBody ..).keep (Nat.le_succ _)
  · cases h
    exact (gives_literalBody ..).keep (Nat.le_succ _)
  · cases h

/-- The quotes that close a string of several lines may be followed by some of its own. -/
theorem Gives.extraQuotes {m n : Nat} {read : Except Problem (List Char × List Char)} {mark : Char}
    (h : Gives total (Leaves m) read) (hle : m ≤ n) :
    Gives total (Leaves n) (do let (text, after) ← read; return Toml.extraQuotes mark text after) :=
  h.next fun text after hafter =>
    .ok (Nat.le_trans (length_extraQuotes_le mark text after) (Nat.le_trans hafter hle))

theorem gives_string {cs : List Char} {read : Except Problem (String × List Char)}
    (h : string? cs = some read) : Gives total (Leaves cs.length) read := by
  unfold string? at h
  split at h
  · next rest =>
    cases h
    have hrest := length_dropLineEnd_le rest
    exact (gives_basicBody ..).extraQuotes (by simp only [List.length_cons]; omega)
  · next rest =>
    cases h
    have hrest := length_dropLineEnd_le rest
    exact (gives_literalBody ..).extraQuotes (by simp only [List.length_cons]; omega)
  · exact gives_lineString h

/-! ## Keys -/

theorem gives_keyPart (cs : List Char) : Gives total (Leaves cs.length) (keyPart cs) := by
  unfold keyPart
  split
  · next h => exact gives_lineString h
  · dsimp only
    split
    · exact .expected
    · exact .ok (by simp only [leaves_mk, List.length_drop]; omega)

/-- Every part of a key but the last is followed by a point, so the steps last. -/
theorem gives_key {steps : Nat} {cs : List Char} (h : cs.length < steps) :
    Gives total (Leaves cs.length) (key steps cs) := by
  induction steps generalizing cs with
  | zero => exact absurd h (Nat.not_lt_zero _)
  | succ steps ih =>
    rw [key]
    refine (gives_keyPart cs).next fun part rest hpart => ?_
    have hrest : (skipBlanks rest).length ≤ cs.length :=
      Nat.le_trans (length_skipBlanks_le rest) hpart
    dsimp only
    split
    · next more hmore =>
      rw [hmore, List.length_cons] at hrest
      have hblanks := length_skipBlanks_le more
      exact (ih (by omega)).keep (by omega)
    · exact .ok hrest

/-! ## Numbers -/

section Numbers

variable {cs : List Char}

theorem length_digitRun_le (base : Nat) (cs : List Char) :
    (digitRun base cs).2.length ≤ cs.length := by
  fun_induction digitRun base cs <;> grind

theorem leaves_basedInteger {base : Nat} {found : Value × List Char}
    (h : basedInteger? base cs = some found) : Leaves cs.length found := by
  have hrun := length_digitRun_le base cs
  unfold basedInteger? at h
  split at h
  · cases h
  · next hdigits =>
    cases h
    rwa [hdigits] at hrun

theorem length_digits_le (base : Nat) (cs : List Char) : (digitRun base cs).1.length ≤ cs.length := by
  fun_induction digitRun base cs <;> grind

theorem length_fraction_le (cs : List Char) : (fraction cs).2.length ≤ cs.length := by
  unfold fraction
  split
  · split
    · exact Nat.le_refl _
    · exact Nat.le_succ_of_le (length_digitRun_le _ _)
  · exact Nat.le_refl _

theorem length_sign_le (cs : List Char) : (sign cs).2.length ≤ cs.length := by
  unfold sign
  split
  · exact Nat.le_succ _
  · exact Nat.le_succ _
  · exact Nat.le_refl _

theorem leaves_exponent {found : Int × List Char} (h : exponent? cs = some found) :
    Leaves cs.length found := by
  cases cs with
  | nil => cases h
  | cons e rest =>
    have hsign := length_sign_le rest
    have hrun := length_digitRun_le 10 (sign rest).2
    simp only [exponent?] at h
    split at h
    · split at h
      · cases h
      · next hdigits =>
        rw [hdigits] at hrun
        cases h
        exact Nat.le_succ_of_le (Nat.le_trans hrun hsign)
    · cases h

theorem length_wholeRun_le (cs : List Char) : (wholeRun cs).2.length ≤ cs.length := by
  unfold wholeRun
  split
  · exact Nat.le_succ _
  · exact length_digitRun_le 10 cs

theorem length_wholeDigits_le (cs : List Char) : (wholeRun cs).1.length ≤ cs.length := by
  unfold wholeRun
  split
  · exact Nat.succ_le_succ (Nat.zero_le _)
  · exact length_digits_le 10 cs

/-- A decimal number leaves what is behind it, and is refused only if its digits are too many. -/
theorem gives_decimal {negative : Bool} {read : Except Problem (Value × List Char)}
    (htotal : cs.length ≤ total) (h : decimal? negative cs = some read) :
    Gives total (Leaves cs.length) read := by
  have hwhole := length_wholeRun_le cs
  have hdigits := length_wholeDigits_le cs
  have hfraction := length_fraction_le (wholeRun cs).2
  simp only [decimal?] at h
  split at h
  · cases h
  · split at h
    · split at h
      · next hmany =>
        -- each digit is a character
        cases h
        exact .tooManyDigits (by omega)
      · cases h
        exact .ok (Nat.le_trans hfraction hwhole)
    · cases h
      refine .ok ?_
      cases hexponent : exponent? (fraction (wholeRun cs).2).2 with
      | none => exact Nat.le_trans hfraction hwhole
      | some exponent =>
        exact Nat.le_trans (leaves_exponent hexponent) (Nat.le_trans hfraction hwhole)

/-- A number is one of another base or a decimal one, and only the latter can have too many digits. -/
theorem gives_number {read : Except Problem (Value × List Char)} (htotal : cs.length ≤ total)
    (h : number? cs = some read) : Gives total (Leaves cs.length) read := by
  have hsign := length_sign_le cs
  unfold number? at h
  dsimp only at h
  split at h
  · next hbased =>
    cases h
    refine .ok ?_
    split at hbased
    · exact Nat.le_succ_of_le (Nat.le_succ_of_le (leaves_basedInteger hbased))
    · exact Nat.le_succ_of_le (Nat.le_succ_of_le (leaves_basedInteger hbased))
    · exact Nat.le_succ_of_le (Nat.le_succ_of_le (leaves_basedInteger hbased))
    · cases hbased
  · exact (gives_decimal (Nat.le_trans hsign htotal) h).leaves hsign

theorem leaves_special {found : Value × List Char} (h : special? cs = some found) :
    Leaves cs.length found := by
  have hsign := length_sign_le cs
  unfold special? at h
  dsimp only at h
  split at h
  · next hword =>
    cases h
    simp only [hword, List.length_cons] at hsign
    simp only [leaves_mk]
    omega
  · next hword =>
    cases h
    simp only [hword, List.length_cons] at hsign
    simp only [leaves_mk]
    omega
  · cases h

end Numbers

/-! ## Dates and times -/

section Moments

variable {cs : List Char}

theorem leaves_twoDigits {low high : Nat} {found : Nat × List Char}
    (h : twoDigits? low high cs = some found) : Leaves cs.length found := by
  unfold twoDigits? at h
  split at h
  · dsimp only at h
    split at h
    · cases h
      simp only [leaves_mk, List.length_cons]
      omega
    · cases h
  · cases h

theorem length_after_le {mark : Char} {rest : List Char} (h : after? mark cs = some rest) :
    rest.length ≤ cs.length := by
  unfold after? at h
  split at h
  · split at h
    · cases h
      exact Nat.le_succ _
    · cases h
  · cases h

theorem leaves_date {found : Date × List Char} (h : date? cs = some found) :
    Leaves cs.length found := by
  unfold date? at h
  obtain ⟨⟨century, afterCentury⟩, hcentury, h⟩ := Option.bind_eq_some_iff.1 h
  obtain ⟨⟨year, afterYear⟩, hyear, h⟩ := Option.bind_eq_some_iff.1 h
  obtain ⟨beforeMonth, hfirst, h⟩ := Option.bind_eq_some_iff.1 h
  obtain ⟨⟨month, afterMonth⟩, hmonth, h⟩ := Option.bind_eq_some_iff.1 h
  obtain ⟨beforeDay, hsecond, h⟩ := Option.bind_eq_some_iff.1 h
  obtain ⟨⟨day, afterDay⟩, hday, h⟩ := Option.bind_eq_some_iff.1 h
  cases h
  calc afterDay.length ≤ beforeDay.length := leaves_twoDigits hday
    _ ≤ afterMonth.length := length_after_le hsecond
    _ ≤ beforeMonth.length := leaves_twoDigits hmonth
    _ ≤ afterYear.length := length_after_le hfirst
    _ ≤ afterCentury.length := leaves_twoDigits hyear
    _ ≤ cs.length := leaves_twoDigits hcentury

theorem length_microseconds_le (cs : List Char) : (microseconds cs).2.length ≤ cs.length := by
  unfold microseconds
  split
  · dsimp only
    split
    · exact Nat.le_refl _
    · simp only [List.length_drop, List.length_cons]
      omega
  · exact Nat.le_refl _

theorem leaves_time {found : Time × List Char} (h : time? cs = some found) :
    Leaves cs.length found := by
  unfold time? at h
  obtain ⟨⟨hour, afterHour⟩, hhour, h⟩ := Option.bind_eq_some_iff.1 h
  obtain ⟨beforeMinute, hfirst, h⟩ := Option.bind_eq_some_iff.1 h
  obtain ⟨⟨minute, afterMinute⟩, hminute, h⟩ := Option.bind_eq_some_iff.1 h
  obtain ⟨beforeSecond, hsecond, h⟩ := Option.bind_eq_some_iff.1 h
  obtain ⟨⟨second, afterSecond⟩, hlast, h⟩ := Option.bind_eq_some_iff.1 h
  cases h
  calc (microseconds afterSecond).2.length ≤ afterSecond.length := length_microseconds_le _
    _ ≤ beforeSecond.length := leaves_twoDigits hlast
    _ ≤ afterMinute.length := length_after_le hsecond
    _ ≤ beforeMinute.length := leaves_twoDigits hminute
    _ ≤ afterHour.length := length_after_le hfirst
    _ ≤ cs.length := leaves_twoDigits hhour

theorem leaves_offset {found : Int × List Char} (h : offset? cs = some found) :
    Leaves cs.length found := by
  unfold offset? at h
  split at h
  · split at h
    · cases h
      exact Nat.le_succ _
    · split at h
      · obtain ⟨⟨hours, afterHours⟩, hhours, h⟩ := Option.bind_eq_some_iff.1 h
        obtain ⟨beforeMinutes, hmark, h⟩ := Option.bind_eq_some_iff.1 h
        obtain ⟨⟨minutes, afterMinutes⟩, hminutes, h⟩ := Option.bind_eq_some_iff.1 h
        cases h
        exact Nat.le_succ_of_le (Nat.le_trans (leaves_twoDigits hminutes)
          (Nat.le_trans (length_after_le hmark) (leaves_twoDigits hhours)))
      · cases h
  · cases h

theorem leaves_timeAfterDate {found : Time × List Char} (h : timeAfterDate? cs = some found) :
    Leaves cs.length found := by
  unfold timeAfterDate? at h
  split at h
  · split at h
    · exact Nat.le_succ_of_le (leaves_time h)
    · cases h
  · cases h

/-- A date, a time or both leave what is behind them, and a date is refused only if there is no such
day. -/
theorem gives_moment {read : Except Problem (Value × List Char)} (h : moment? cs = some read) :
    Gives total (Leaves cs.length) read := by
  unfold moment? at h
  split at h
  · next date rest hdate =>
    have hrest : rest.length ≤ cs.length := leaves_date hdate
    cases h
    split
    · split
      · next htime =>
        have hleft := Nat.le_trans (leaves_timeAfterDate htime) hrest
        split
        · next hoffset => exact .ok (Nat.le_trans (leaves_offset hoffset) hleft)
        · exact .ok hleft
      · exact .ok hrest
    · exact .noSuchDay
  · obtain ⟨⟨time, rest⟩, htime, rfl⟩ := Option.map_eq_some_iff.1 h
    exact .ok (leaves_time htime)

end Moments

/-! ## Values without values inside -/

theorem leaves_boolean {cs : List Char} {found : Value × List Char} (h : boolean? cs = some found) :
    Leaves cs.length found := by
  unfold boolean? at h
  split at h
  · cases h
    simp only [leaves_mk, List.length_cons]
    omega
  · cases h
    simp only [leaves_mk, List.length_cons]
    omega
  · cases h

/-- A value without values inside leaves what is behind it. -/
theorem gives_atom {cs : List Char} (htotal : cs.length ≤ total) :
    Gives total (Leaves cs.length) (atom cs) := by
  unfold atom
  split
  · next hstring => exact (gives_string hstring).map fun _ ha => ha
  · split
    · next hboolean => exact .ok (leaves_boolean hboolean)
    · split
      · next hmoment => exact gives_moment hmoment
      · split
        · next hnumber => exact gives_number htotal hnumber
        · split
          · next hspecial => exact .ok (leaves_special hspecial)
          · exact .expected

end TildeMarkup.Toml
