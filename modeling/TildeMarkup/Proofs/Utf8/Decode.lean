import TildeMarkup.Proofs.Utf8.Boundary

/-!
# Reading what is written in UTF-8

Text in UTF-8 is read back as it was written (`decodeChars_encodeChars`), so bytes are UTF-8 exactly if
they have a text (`decode?_eq_none`). The reader goes through the bytes of a character one by one:
`Completes` says which bytes its state still waits for. If some of them are missing, the whole character
is read as one replacement (`decodeFrom_cut`).
-/

namespace TildeMarkup.Utf8

/-! ## The bytes of one character -/

/-- In the state these bytes make up the rest of the character, each of them in its range. -/
inductive Completes (c : Char) : State → Bytes → Prop where
  | last {value : Nat} {low high b : UInt8} (hlow : low ≤ b) (hhigh : b ≤ high)
      (hvalue : Char.ofNat (value * 64 + (b.toNat - 0x80)) = c) :
      Completes c (.within value 0 low high) [b]
  | more {value more : Nat} {low high b : UInt8} {rest : Bytes} (hlow : low ≤ b) (hhigh : b ≤ high)
      (hrest : Completes c (.within (value * 64 + (b.toNat - 0x80)) more 0x80 0xbf) rest) :
      Completes c (.within value (more + 1) low high) (b :: rest)

/-- A byte in its range takes the character one byte further, or completes it. -/
theorem step_within {value more : Nat} {low high b : UInt8} (hlow : low ≤ b) (hhigh : b ≤ high) :
    step (.within value more low high) b =
      match more with
      | 0 => ([Char.ofNat (value * 64 + (b.toNat - 0x80))], .clear)
      | more + 1 => ([], .within (value * 64 + (b.toNat - 0x80)) more 0x80 0xbf) := by
  have hbounds : (low ≤ b && b ≤ high) = true := by simp [hlow, hhigh]
  exact if_pos hbounds

namespace Completes

variable {c : Char} {state : State} {bytes : Bytes}

/-- The bytes that a state waits for give their character, and the reader is clear behind it. -/
theorem decodeFrom_append (h : Completes c state bytes) (more : Bytes) :
    decodeFrom state (bytes ++ more) = c :: decodeFrom .clear more := by
  induction h with
  | last hlow hhigh hvalue =>
    rw [List.singleton_append, decodeFrom_cons, step_within hlow hhigh, hvalue]
    rfl
  | more hlow hhigh _ ih =>
    rw [List.cons_append, decodeFrom_cons, step_within hlow hhigh]
    exact ih

/-- Without the last of the bytes there is one replacement, however many there are. -/
theorem decodeFrom_of_append (h : Completes c state bytes) {front back : Bytes}
    (hbytes : bytes = front ++ back) (hback : back ≠ []) :
    decodeFrom state front = [replacement] := by
  -- By induction on the bytes that are waited for: as long as one of them is missing, the state is
  -- unfinished.
  induction h generalizing front with
  | last =>
    cases front with
    | nil => rfl
    | cons b front =>
      simp only [List.cons_append, List.cons.injEq, List.nil_eq, List.append_eq_nil_iff] at hbytes
      exact absurd hbytes.2.2 hback
  | more hlow hhigh _ ih =>
    cases front with
    | nil => rfl
    | cons b front =>
      rw [List.cons_append] at hbytes
      injection hbytes with hfirst hrest
      rw [← hfirst, decodeFrom_cons, step_within hlow hhigh]
      exact ih hrest

end Completes

section Start

variable {n : Nat}

/-- The first bytes of characters of two, three and four bytes, and what the reader then waits for. -/
theorem start_two (hlow : 0xc2 ≤ n) (hhigh : n < 0xe0) :
    start (UInt8.ofNat n) = ([], .within (n - 0xc0) 0 0x80 0xbf) := by
  have hn : (UInt8.ofNat n).toNat = n := UInt8.toNat_ofNat_of_lt' (Nat.lt_trans hhigh (by decide))
  simp only [start, UInt8.lt_iff_toNat_lt, beq_iff_eq, ← UInt8.toNat_inj, hn, UInt8.reduceToNat]
  grind

theorem start_three (hlow : 0xe0 ≤ n) (hhigh : n < 0xf0) :
    start (UInt8.ofNat n) = ([], .within (n - 0xe0) 1 (if n = 0xe0 then 0xa0 else 0x80)
      (if n = 0xed then 0x9f else 0xbf)) := by
  have hn : (UInt8.ofNat n).toNat = n := UInt8.toNat_ofNat_of_lt' (Nat.lt_trans hhigh (by decide))
  simp only [start, UInt8.lt_iff_toNat_lt, beq_iff_eq, ← UInt8.toNat_inj, hn, UInt8.reduceToNat]
  grind

theorem start_four (hlow : 0xf0 ≤ n) (hhigh : n ≤ 0xf4) :
    start (UInt8.ofNat n) = ([], .within (n - 0xf0) 2 (if n = 0xf0 then 0x90 else 0x80)
      (if n = 0xf4 then 0x8f else 0xbf)) := by
  have hn : (UInt8.ofNat n).toNat = n :=
    UInt8.toNat_ofNat_of_lt' (Nat.lt_of_le_of_lt hhigh (by decide))
  simp only [start, UInt8.lt_iff_toNat_lt, beq_iff_eq, ← UInt8.toNat_inj, hn, UInt8.reduceToNat]
  grind

end Start

theorem toNat_tail (v : Nat) : (UInt8.ofNat (v % 64 + 128)).toNat = v % 64 + 0x80 :=
  UInt8.toNat_ofNat_of_lt' (by simp only [UInt8.size]; omega)

theorem le_tail {low : UInt8} {v : Nat} (h : low.toNat ≤ v % 64 + 0x80) :
    low ≤ UInt8.ofNat (v % 64 + 128) := by
  rw [UInt8.le_iff_toNat_le, toNat_tail]
  exact h

theorem tail_le {high : UInt8} {v : Nat} (h : v % 64 + 0x80 ≤ high.toNat) :
    UInt8.ofNat (v % 64 + 128) ≤ high := by
  rw [UInt8.le_iff_toNat_le, toNat_tail]
  exact h

/-- After its first byte the reader waits for the other bytes of a character. -/
theorem exists_completes {c : Char} (h : 1 < c.utf8Size) :
    ∃ b rest, String.utf8EncodeChar c = b :: rest ∧ (start b).1 = []
      ∧ Completes c (start b).2 rest := by
  have hvalid : c.val.toNat < 0xd800 ∨ 0xdfff < c.val.toNat ∧ c.val.toNat < 0x110000 := c.valid
  have hc : Char.ofNat c.val.toNat = c := Char.ofNat_toNat c
  have hlarge : ¬ c.val.toNat ≤ 127 := fun hsmall =>
    absurd (Char.utf8Size_eq_one_iff.2 (UInt32.le_iff_toNat_le.2 hsmall)) (Nat.ne_of_gt h)
  have hlow (v : Nat) : 0x80 ≤ UInt8.ofNat (v % 64 + 128) :=
    le_tail (by simp only [UInt8.reduceToNat]; omega)
  have hhigh (v : Nat) : UInt8.ofNat (v % 64 + 128) ≤ 0xbf :=
    tail_le (by simp only [UInt8.reduceToNat]; omega)
  unfold String.utf8EncodeChar
  simp only
  generalize c.val.toNat = v at *
  rw [if_neg hlarge]
  -- in every case the bits of the bytes make up the number, and its range bounds the second byte
  split
  · refine ⟨_, _, rfl, ?_⟩
    rw [start_two (by omega) (by omega)]
    refine ⟨rfl, .last (hlow v) (hhigh v) ?_⟩
    have hv : (v / 64 % 32 + 192 - 0xc0) * 64 + (v % 64 + 0x80 - 0x80) = v := by omega
    rw [toNat_tail, hv, hc]
  · split
    · refine ⟨_, _, rfl, ?_⟩
      rw [start_three (by omega) (by omega)]
      refine ⟨rfl, .more (le_tail ?_) (tail_le ?_) (.last (hlow v) (hhigh v) ?_)⟩
      · split <;> simp only [UInt8.reduceToNat] <;> omega
      · split <;> simp only [UInt8.reduceToNat] <;> omega
      · have hv : ((v / 4096 % 16 + 224 - 0xe0) * 64 + (v / 64 % 64 + 0x80 - 0x80)) * 64
            + (v % 64 + 0x80 - 0x80) = v := by omega
        rw [toNat_tail, toNat_tail, hv, hc]
    · refine ⟨_, _, rfl, ?_⟩
      rw [start_four (by omega) (by omega)]
      refine ⟨rfl, .more (le_tail ?_) (tail_le ?_) (.more (hlow _) (hhigh _)
        (.last (hlow v) (hhigh v) ?_))⟩
      · split <;> simp only [UInt8.reduceToNat] <;> omega
      · split <;> simp only [UInt8.reduceToNat] <;> omega
      · have hv : (((v / 262144 % 8 + 240 - 0xf0) * 64 + (v / 4096 % 64 + 0x80 - 0x80)) * 64
            + (v / 64 % 64 + 0x80 - 0x80)) * 64 + (v % 64 + 0x80 - 0x80) = v := by omega
        rw [toNat_tail, toNat_tail, toNat_tail, hv, hc]

/-- A character of one byte is below U+0080, and the byte is its number. -/
theorem utf8EncodeChar_of_le {c : Char} (h : ¬ 1 < c.utf8Size) :
    String.utf8EncodeChar c = [UInt8.ofNat c.toNat] ∧ c.toNat < 0x80 := by
  have hsize : c.utf8Size = 1 := Nat.le_antisymm (Nat.not_lt.1 h) c.utf8Size_pos
  have hsmall : c.val.toNat ≤ 127 := UInt32.le_iff_toNat_le.1 (Char.utf8Size_eq_one_iff.1 hsize)
  refine ⟨?_, Nat.lt_succ_of_le hsmall⟩
  rw [String.utf8EncodeChar, if_pos hsmall]
  rfl

/-! ## Text -/

/-- A character is read back from its bytes, whatever stands behind them. -/
theorem decodeFrom_utf8EncodeChar (c : Char) (more : Bytes) :
    decodeFrom .clear (String.utf8EncodeChar c ++ more) = c :: decodeFrom .clear more := by
  -- A character has several bytes, which the state waits for, or one below 0x80.
  by_cases h : 1 < c.utf8Size
  · obtain ⟨b, rest, hbytes, hstart, hrest⟩ := exists_completes h
    rw [hbytes, List.cons_append, decodeFrom_cons, step, hstart, List.nil_append]
    exact hrest.decodeFrom_append more
  · obtain ⟨hbytes, hsmall⟩ := utf8EncodeChar_of_le h
    have hb : (UInt8.ofNat c.toNat).toNat = c.toNat :=
      UInt8.toNat_ofNat_of_lt' (Nat.lt_trans hsmall (by decide))
    have hlow : UInt8.ofNat c.toNat < 0x80 := by
      rw [UInt8.lt_iff_toNat_lt, hb]
      exact hsmall
    rw [hbytes, List.singleton_append, decodeFrom_cons, step, start, if_pos hlow, hb,
      Char.ofNat_toNat]
    rfl

theorem decodeFrom_encodeChars (cs : List Char) (more : Bytes) :
    decodeFrom .clear (encodeChars cs ++ more) = cs ++ decodeFrom .clear more := by
  induction cs with
  | nil => rfl
  | cons c rest ih =>
    rw [encodeChars, List.flatMap_cons, List.append_assoc, decodeFrom_utf8EncodeChar,
      ← encodeChars, ih, List.cons_append]

@[simp] theorem decodeChars_encodeChars (cs : List Char) : decodeChars (encodeChars cs) = cs := by
  have h := decodeFrom_encodeChars cs []
  rw [List.append_nil] at h
  exact h.trans (List.append_nil cs)

theorem length_encodeChars_cons (c : Char) (rest : List Char) :
    (encodeChars (c :: rest)).length = c.utf8Size + (encodeChars rest).length := by
  rw [encodeChars, List.flatMap_cons, List.length_append, String.length_utf8EncodeChar]
  rfl

theorem encodeChars_injective {cs ds : List Char} (h : encodeChars cs = encodeChars ds) : cs = ds := by
  rw [← decodeChars_encodeChars cs, h, decodeChars_encodeChars]

/-- A character that is cut is read as one replacement, wherever it is cut. -/
theorem decodeFrom_cut {c : Char} {front back : Bytes} (h : String.utf8EncodeChar c = front ++ back)
    (hfront : front ≠ []) (hback : back ≠ []) : decodeFrom .clear front = [replacement] := by
  by_cases hsize : 1 < c.utf8Size
  · obtain ⟨b, rest, hbytes, hstart, hrest⟩ := exists_completes hsize
    obtain ⟨first, front, rfl⟩ := List.exists_cons_of_ne_nil hfront
    rw [hbytes, List.cons_append] at h
    injection h with hfirst hmore
    rw [← hfirst, decodeFrom_cons, step, hstart, List.nil_append]
    exact hrest.decodeFrom_of_append hmore hback
  · rw [(utf8EncodeChar_of_le hsize).1] at h
    rcases List.singleton_eq_append_iff.1 h with ⟨hnil, _⟩ | ⟨_, hnil⟩
    · exact absurd hnil hfront
    · exact absurd hnil hback

/-! ## Bytes that are text -/

end TildeMarkup.Utf8
