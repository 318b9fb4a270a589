import TildeMarkup.Text.Utf8

/-!
# Bytes below 0x80

A byte below 0x80 in a text in UTF-8 is a character by itself: it is written for that character only
(`exists_of_mem_encodeChars`), and it is read as that character whatever stands around it
(`step_of_lt`, `mem_of_mem_decodeFrom`).
-/

namespace TildeMarkup.Utf8

/-- A byte below 0x80 is written for the character of that number only. -/
theorem toNat_of_mem_utf8EncodeChar {c : Char} {b : UInt8} (hb : b < 0x80)
    (h : b ∈ String.utf8EncodeChar c) : c.toNat = b.toNat := by
  rw [UInt8.lt_iff_toNat_lt] at hb
  have hhigh (n : Nat) (hn : 0x80 ≤ n) (hlt : n < 0x100) : b ≠ UInt8.ofNat n := by
    rintro rfl
    rw [UInt8.toNat_ofNat_of_lt' hlt] at hb
    exact absurd hb (Nat.not_lt.2 hn)
  unfold String.utf8EncodeChar at h
  simp only at h
  split at h
  · next hsmall =>
    rw [List.mem_singleton.1 h, UInt8.toNat_ofNat_of_lt' (Nat.lt_of_le_of_lt hsmall (by decide))]
    rfl
  · -- every byte of a longer sequence is 0x80 or above
    split at h
    · simp only [List.mem_cons, List.not_mem_nil, or_false] at h
      rcases h with h | h <;> exact absurd h (hhigh _ (by omega) (by omega))
    · split at h <;> simp only [List.mem_cons, List.not_mem_nil, or_false] at h
      · rcases h with h | h | h <;> exact absurd h (hhigh _ (by omega) (by omega))
      · rcases h with h | h | h | h <;> exact absurd h (hhigh _ (by omega) (by omega))

theorem exists_of_mem_encodeChars {cs : List Char} {b : UInt8} (hb : b < 0x80)
    (h : b ∈ encodeChars cs) : Char.ofNat b.toNat ∈ cs := by
  obtain ⟨c, hc, hbyte⟩ := List.mem_flatMap.1 h
  rw [← toNat_of_mem_utf8EncodeChar hb hbyte, Char.ofNat_toNat]
  exact hc

/-! ## Reading -/

/-- The character that is unfinished will be one above U+007F, and no byte below 0x80 is part of it. -/
def State.Wide : State → Prop
  | .clear => True
  | .within value 0 low _ => 0x80 ≤ low ∧ 2 ≤ value
  | .within value (_ + 1) low _ => 0x80 ≤ low ∧ 2 ≤ value * 64 + (low.toNat - 0x80)

/-- What is read where a character starts: the character of that number from a byte below 0x80, and at
most a replacement from any other. -/
def Starts (b : UInt8) (read : List Char × State) : Prop :=
  read = ([Char.ofNat b.toNat], .clear) ∨ read.1 ⊆ [replacement] ∧ read.2.Wide

/-- A first byte is read in one of the two ways, whatever it is. -/
theorem starts_start (b : UInt8) : Starts b (start b) := by
  have hbroken : Starts b ([replacement], .clear) := .inr ⟨List.Subset.refl _, trivial⟩
  have hopen {state : State} (h : state.Wide) : Starts b ([], state) := .inr ⟨List.nil_subset _, h⟩
  -- the first byte of a range of longer sequences has a case of its own
  have habove {n : UInt8} {m : Nat} (hm : n.toNat = m) (hle : ¬ b < n) (hne : ¬ (b == n) = true) :
      0 < b.toNat - m :=
    Nat.sub_pos_of_lt <| Nat.lt_of_le_of_ne (hm ▸ Nat.not_lt.1 hle) fun h =>
      hne (beq_iff_eq.2 (UInt8.toNat_inj.1 (hm.trans h).symm))
  have hlong {value more : Nat} {high : UInt8} (h : 0 < value) :
      Starts b ([], .within value (more + 1) 0x80 high) :=
    hopen ⟨by decide, Nat.le_trans (by decide : 2 ≤ 1 * 64)
      (Nat.le_add_right_of_le (Nat.mul_le_mul_right 64 h))⟩
  refine iteInduction (fun _ => .inl rfl) fun _ => ?_
  refine iteInduction (fun _ => hbroken) fun hc2 => ?_
  have hshort : 2 ≤ b.toNat - 0xc0 := Nat.le_sub_of_add_le' (Nat.not_lt.1 hc2)
  refine iteInduction (fun _ => hopen ⟨by decide, hshort⟩) fun he0 => ?_
  refine iteInduction (fun _ => hopen ⟨by decide, by decide⟩) fun hne => ?_
  refine iteInduction (fun _ => hlong (by decide)) fun _ => ?_
  refine iteInduction (fun _ => hlong (habove rfl he0 hne)) fun hf0 => ?_
  refine iteInduction (fun _ => hopen ⟨by decide, by decide⟩) fun hne => ?_
  refine iteInduction (fun _ => hlong (habove rfl hf0 hne)) fun _ => ?_
  exact iteInduction (fun _ => hlong (by decide)) fun _ => hbroken

theorem wide_start (b : UInt8) : (start b).2.Wide := by
  rcases starts_start b with hbyte | ⟨_, hwide⟩
  · rw [hbyte]
    trivial
  · exact hwide

/-- One byte keeps the state wide: a character that goes on is still one above U+007F. -/
theorem wide_step {state : State} (h : state.Wide) (b : UInt8) : (step state b).2.Wide := by
  cases state with
  | clear => exact wide_start b
  | within value more low high =>
    rw [step]
    split
    · next hbyte =>
      rw [Bool.and_eq_true, decide_eq_true_eq, UInt8.le_iff_toNat_le] at hbyte
      match more, h with
      | 0, _ => trivial
      | 1, ⟨_, hvalue⟩ => exact ⟨by decide, by omega⟩
      | more + 2, ⟨_, hvalue⟩ =>
        refine ⟨by decide, ?_⟩
        simp only [UInt8.reduceToNat]
        omega
    · exact wide_start b

/-- A number that is none of a character gives the null character instead. -/
theorem toNat_ofNat (n : Nat) : (Char.ofNat n).toNat = n ∨ (Char.ofNat n).toNat = 0 := by
  by_cases h : n.isValidChar
  · rw [Char.ofNat, dif_pos h]
    exact .inl rfl
  · rw [Char.ofNat, dif_neg h]
    exact .inr rfl

theorem mem_start {c : Char} {b : UInt8} (h : c ∈ (start b).1) (hpos : 0 < c.toNat)
    (hlt : c.toNat < 0x80) : c.toNat = b.toNat := by
  rcases starts_start b with hbyte | ⟨hchars, _⟩
  · rw [hbyte] at h
    rw [List.mem_singleton.1 h] at hpos ⊢
    exact (toNat_ofNat b.toNat).resolve_right (Nat.ne_of_gt hpos)
  · rw [List.mem_singleton.1 (hchars h)] at hlt
    exact absurd hlt (by decide)

/-- A character below U+0080 is read from its own byte, in every state that is wide. -/
theorem mem_step {state : State} (hstate : state.Wide) {c : Char} {b : UInt8}
    (h : c ∈ (step state b).1) (hpos : 0 < c.toNat) (hlt : c.toNat < 0x80) : c.toNat = b.toNat := by
  cases state with
  | clear => exact mem_start h hpos hlt
  | within value more low high =>
    rw [step] at h
    split at h
    · match more, hstate with
      | 0, ⟨_, hvalue⟩ =>
        rw [List.mem_singleton.1 h] at hpos hlt
        rcases toNat_ofNat (value * 64 + (b.toNat - 0x80)) with hc | hc
        · omega
        · omega
      | more + 1, _ => cases h
    · rcases List.mem_cons.1 h with rfl | h
      · exact absurd hlt (by decide)
      · exact mem_start h hpos hlt

/-- A byte below 0x80 is read as the character of that number; what was open is given up. -/
theorem step_of_lt {state : State} (hstate : state.Wide) {b : UInt8} (hb : b < 0x80) :
    step state b = (decodeFrom state [] ++ [Char.ofNat b.toNat], .clear) := by
  have hstart : start b = ([Char.ofNat b.toNat], .clear) := if_pos hb
  cases state with
  | clear => exact hstart
  | within value more low high =>
    have hlow : 0x80 ≤ low := by
      match more, hstate with
      | 0, ⟨hlow, _⟩ => exact hlow
      | more + 1, ⟨hlow, _⟩ => exact hlow
    rw [step, if_neg, hstart]
    · rfl
    · rw [UInt8.lt_iff_toNat_lt] at hb
      rw [UInt8.le_iff_toNat_le] at hlow
      simp only [Bool.and_eq_true, decide_eq_true_eq, UInt8.le_iff_toNat_le, not_and]
      omega

/-- Bytes below 0x80 are read one by one, each as the character of its number. -/
theorem decodeChars_of_lt {bytes : Bytes} (h : ∀ b ∈ bytes, b < 0x80) :
    decodeChars bytes = bytes.map fun b => Char.ofNat b.toNat := by
  induction bytes with
  | nil => rfl
  | cons b rest ih =>
    obtain ⟨hb, hrest⟩ := List.forall_mem_cons.1 h
    have hstep : step .clear b = ([Char.ofNat b.toNat], .clear) := @step_of_lt .clear trivial b hb
    rw [decodeChars, decodeFrom_cons, hstep, List.map_cons]
    exact congrArg (_ :: ·) (ih hrest)

/-- A character below U+0080 that is read from bytes has its byte among them. -/
theorem mem_of_mem_decodeFrom {state : State} (hstate : state.Wide) {bytes : Bytes} {c : Char}
    (h : c ∈ decodeFrom state bytes) (hpos : 0 < c.toNat) (hlt : c.toNat < 0x80) :
    UInt8.ofNat c.toNat ∈ bytes := by
  induction bytes generalizing state with
  | nil =>
    cases state with
    | clear => cases h
    | within =>
      rw [List.mem_singleton.1 h] at hlt
      exact absurd hlt (by decide)
  | cons b rest ih =>
    rw [decodeFrom_cons] at h
    rcases List.mem_append.1 h with h | h
    · rw [mem_step hstate h hpos hlt, UInt8.ofNat_toNat]
      exact List.mem_cons_self
    · exact List.mem_cons_of_mem b (ih (wide_step hstate b) h)

end TildeMarkup.Utf8
