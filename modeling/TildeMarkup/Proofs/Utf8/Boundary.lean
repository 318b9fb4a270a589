import TildeMarkup.Proofs.Source
import TildeMarkup.Proofs.Utf8

/-!
# Boundaries of characters

Where a text in UTF-8 may be cut. A byte below 0x80 is a character by itself, so there is a boundary on
both of its sides (`IsValid.split`), and what stands between two boundaries is UTF-8 again
(`IsBoundary.isValid_slice`). Whoever reads byte by byte and cuts only next to such bytes never cuts a
character.
-/

namespace TildeMarkup.Utf8

/-- The bytes are those of some characters, so they are text in UTF-8. -/
def IsValid (bytes : Bytes) : Prop :=
  ∃ cs, encodeChars cs = bytes

/-- No character stands across the offset: the bytes in front of it are UTF-8, and those behind it. -/
def IsBoundary (source : Bytes) (n : Nat) : Prop :=
  ∃ before after, source = before ++ after ∧ before.length = n ∧ IsValid before ∧ IsValid after


namespace IsValid

variable {bytes more : Bytes}

theorem nil : IsValid [] :=
  ⟨[], rfl⟩

theorem encode (text : String) : IsValid (Utf8.encode text) :=
  ⟨text.toList, rfl⟩

theorem append (h : IsValid bytes) (hmore : IsValid more) : IsValid (bytes ++ more) := by
  obtain ⟨cs, rfl⟩ := h
  obtain ⟨ds, rfl⟩ := hmore
  exact ⟨cs ++ ds, encodeChars_append cs ds⟩

theorem flatten {contents : List Bytes} (h : ∀ content ∈ contents, IsValid content) :
    IsValid contents.flatten := by
  induction contents with
  | nil => exact nil
  | cons content rest ih =>
    rw [List.flatten_cons]
    rw [List.forall_mem_cons] at h
    exact h.1.append (ih h.2)

end IsValid

/-- A character that is written with a byte below 0x80 is written with that byte alone. -/
theorem utf8EncodeChar_eq_singleton_of_mem {c : Char} {b : UInt8} (hb : b < 0x80)
    (h : b ∈ String.utf8EncodeChar c) : String.utf8EncodeChar c = [b] := by
  have hnat := toNat_of_mem_utf8EncodeChar hb h
  have hsize : c.utf8Size = 1 := by
    rw [Char.utf8Size_eq_one_iff, UInt32.le_iff_toNat_le]
    rw [UInt8.lt_iff_toNat_lt] at hb
    show c.toNat ≤ 127
    rw [hnat]
    exact Nat.le_of_lt_succ hb
  rw [String.utf8EncodeChar_eq_singleton hsize] at h ⊢
  rw [List.mem_singleton.1 h]

/-- A byte below 0x80 is a character by itself, whatever stands on either side of it. -/
theorem IsValid.split {before after : Bytes} {b : UInt8} (h : IsValid (before ++ b :: after))
    (hb : b < 0x80) : IsValid before ∧ IsValid [b] ∧ IsValid after := by
  obtain ⟨cs, hcs⟩ := h
  induction cs generalizing before with
  | nil =>
    have hlength := congrArg List.length hcs
    simp [encodeChars] at hlength
  | cons c rest ih =>
    have hcons : String.utf8EncodeChar c ++ encodeChars rest = before ++ b :: after := hcs
    have hfirst : IsValid (String.utf8EncodeChar c) := ⟨[c], List.append_nil _⟩
    -- the byte is one of the later characters, or it is the first one
    rcases List.append_eq_append_iff.1 hcons with ⟨lead, rfl, hrest⟩ | ⟨lead, hchar, hrest⟩
    · obtain ⟨hlead, hmore⟩ := ih hrest
      exact ⟨hfirst.append hlead, hmore⟩
    · cases lead with
      | nil =>
        rw [List.append_nil] at hchar
        rw [List.nil_append] at hrest
        obtain ⟨_, hmore⟩ := ih (hrest.symm.trans (List.nil_append _).symm)
        exact ⟨hchar ▸ hfirst, hmore⟩
      | cons first lead =>
        injection hrest with hsame hafter
        subst hsame
        have hsingle := utf8EncodeChar_eq_singleton_of_mem hb (c := c) (by simp [hchar])
        rw [hsingle] at hchar hfirst
        cases before with
        | nil =>
          injection hchar with _ hlead
          rw [hafter, ← hlead]
          exact ⟨.nil, hfirst, rest, rfl⟩
        | cons other before => simp at hchar

/-- Of two characters, neither is written as a start of the other, so the first of a text is told by its
bytes. -/
theorem eq_of_utf8EncodeChar_append {c d : Char} {bytes more : Bytes}
    (h : String.utf8EncodeChar c ++ bytes = String.utf8EncodeChar d ++ more) : c = d := by
  have hread (c : Char) (bytes : Bytes) :
      (String.utf8EncodeChar c ++ bytes).toByteArray.utf8DecodeChar? 0 = some c := by
    rw [List.toByteArray_append]
    exact ByteArray.utf8DecodeChar?_utf8EncodeChar_append
  have hfirst := hread c bytes
  rw [h, hread] at hfirst
  exact (Option.some.inj hfirst).symm

/-- What follows characters in a text in UTF-8 is UTF-8 as well. -/
theorem IsValid.of_append {bytes more : Bytes} (h : IsValid (bytes ++ more)) (hbytes : IsValid bytes) :
    IsValid more := by
  obtain ⟨cs, hcs⟩ := h
  obtain ⟨ds, rfl⟩ := hbytes
  induction ds generalizing cs with
  | nil => exact ⟨cs, hcs⟩
  | cons d ds ih =>
    cases cs with
    | nil =>
      simp [encodeChars] at hcs
    | cons c cs =>
      have hcons : String.utf8EncodeChar c ++ encodeChars cs
          = String.utf8EncodeChar d ++ (encodeChars ds ++ more) := by
        rw [← List.append_assoc]
        exact hcs
      have hsame := eq_of_utf8EncodeChar_append hcons
      rw [hsame] at hcons
      exact ih cs (List.append_cancel_left hcons)

/-! ## Boundaries in a source -/

namespace IsBoundary

variable {source bytes : Bytes} {b : UInt8} {m n : Nat}

theorem start (h : IsValid source) : IsBoundary source 0 :=
  ⟨[], source, rfl, rfl, .nil, h⟩

theorem stop (h : IsValid source) : IsBoundary source source.length :=
  ⟨source, [], (List.append_nil source).symm, rfl, h, .nil⟩

/-- There is a boundary in front of a byte below 0x80, wherever it stands. -/
theorem before (h : IsValid source) (hat : At source n (b :: bytes)) (hb : b < 0x80) :
    IsBoundary source n := by
  obtain ⟨before, after, hsource, hn⟩ := hat
  rw [hsource, List.cons_append] at h
  obtain ⟨hbefore, hbyte, hafter⟩ := h.split hb
  exact ⟨before, [b] ++ (bytes ++ after), hsource, hn, hbefore, hbyte.append hafter⟩

/-- There is a boundary behind a byte below 0x80, wherever it stands. -/
theorem behind (h : IsValid source) (hat : At source n (bytes ++ [b])) (hb : b < 0x80) :
    IsBoundary source (n + (bytes ++ [b]).length) := by
  obtain ⟨before, after, rfl, rfl⟩ := hat
  have hsplit : before ++ (bytes ++ [b] ++ after) = (before ++ bytes) ++ b :: after := by simp
  rw [hsplit] at h ⊢
  obtain ⟨hbefore, hbyte, hafter⟩ := h.split hb
  exact ⟨before ++ bytes ++ [b], after, by simp, by simp, hbefore.append hbyte, hafter⟩

/-- Bytes below 0x80 go from one boundary to another, by induction on them. -/
theorem low (h : IsValid source) (hn : IsBoundary source n) (hat : At source n bytes)
    (hlow : ∀ b ∈ bytes, b < 0x80) : IsBoundary source (n + bytes.length) := by
  rcases List.eq_nil_or_concat bytes with rfl | ⟨init, last, rfl⟩
  · exact hn
  · rw [List.concat_eq_append] at *
    exact behind h hat (hlow last (by simp))

/-- What stands between two boundaries of a source is text in UTF-8. -/
theorem isValid_slice (hm : IsBoundary source m) (hn : IsBoundary source n) :
    IsValid (Span.slice ⟨m, n⟩ source) := by
  obtain ⟨before, after, rfl, rfl, hbefore, _⟩ := hm
  obtain ⟨longer, rest, hsource, rfl, hlonger, _⟩ := hn
  rw [Span.slice, List.drop_left]
  -- the bytes in front of the first boundary are a start of those in front of the second
  rcases List.append_eq_append_iff.1 hsource with ⟨middle, rfl, hmiddle⟩ | ⟨middle, hshort, _⟩
  · rw [hmiddle, List.length_append, Nat.add_sub_cancel_left, List.take_left]
    exact hlonger.of_append hbefore
  · rw [hshort, List.length_append, Nat.sub_eq_zero_of_le (Nat.le_add_right ..), List.take_zero]
    exact .nil

end IsBoundary

end TildeMarkup.Utf8
