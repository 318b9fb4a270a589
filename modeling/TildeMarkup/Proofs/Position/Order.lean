import Mathlib.Data.Prod.Lex
import TildeMarkup.Proofs.Editor

/-!
# The order of positions

A later offset is never shown in front of an earlier one (`position_ordered`), neither in a report nor in
an editor. That is so for any bytes: what is unfinished at an offset is one replacement, and whatever
bytes come next, they go on from there with one character at least (`exists_decodeFrom_append`). Between
characters of a text in UTF-8 the order is strict, so a position tells its offset.
-/

namespace TildeMarkup

open Utf8

/-! ## Reading on -/

namespace Utf8

/-- What is unfinished is read as something, whatever bytes come next. -/
theorem decodeFrom_within_ne_nil (value more : Nat) (low high : UInt8) (bytes : Bytes) :
    decodeFrom (.within value more low high) bytes ≠ [] := by
  induction bytes generalizing value more low high with
  | nil => exact List.cons_ne_nil _ _
  | cons b rest ih =>
    rw [decodeFrom_cons, step]
    split
    · cases more with
      | zero => exact List.cons_ne_nil _ _
      | succ more => exact ih _ _ _ _
    · exact List.cons_ne_nil _ _

/-- With more bytes behind them, bytes are read as before, but for what is unfinished at their end. -/
theorem exists_decodeFrom_append (state : State) (bytes more : Bytes) :
    ∃ done last next, decodeFrom state bytes = done ++ last
      ∧ decodeFrom state (bytes ++ more) = done ++ next
      ∧ (last = [] ∨ last = [replacement] ∧ next ≠ []) := by
  -- By induction on the bytes. Behind the last of them only the state is left, which is clear or
  -- unfinished.
  induction bytes generalizing state with
  | nil =>
    cases state with
    | clear => exact ⟨[], [], _, rfl, rfl, .inl rfl⟩
    | within value left low high =>
      exact ⟨[], _, _, rfl, rfl, .inr ⟨rfl, decodeFrom_within_ne_nil value left low high more⟩⟩
  | cons b rest ih =>
    obtain ⟨done, last, next, hlast, hnext, hend⟩ := ih (step state b).2
    refine ⟨(step state b).1 ++ done, last, next, ?_, ?_, hend⟩
    · rw [decodeFrom_cons, hlast, List.append_assoc]
    · rw [List.cons_append, decodeFrom_cons, hnext, List.append_assoc]

end Utf8

/-! ## How far along a line -/

/-- A measure of what characters take up on a line: each of them something, and no one less than a
replacement. -/
structure Extent (f : List Char → Nat) : Prop where
  append : ∀ cs ds, f (cs ++ ds) = f cs + f ds
  pos : 0 < f [replacement]
  least : ∀ c, f [replacement] ≤ f [c]

namespace Extent

variable {f : List Char → Nat} {source : Bytes} {a b : Nat}

/-- The number of characters is such a measure, and the one that reports use. -/
theorem length : Extent List.length where
  append _ _ := List.length_append
  pos := Nat.one_pos
  least _ := Nat.le_refl 1

/-- The number of UTF-16 units is another one, and the one that editors use. -/
theorem units16 : Extent units16 where
  append := Editor.units16_append
  pos := by decide
  least c := by
    rw [Editor.units16_singleton c]
    split <;> decide

theorem le_of_ne_nil (hf : Extent f) {cs : List Char} (h : cs ≠ []) : f [replacement] ≤ f cs := by
  obtain ⟨c, rest, rfl⟩ := List.exists_cons_of_ne_nil h
  have hsplit : f (c :: rest) = f [c] + f rest := hf.append [c] rest
  rw [hsplit]
  exact Nat.le_add_right_of_le (hf.least c)

theorem nil (hf : Extent f) : f [] = 0 := by
  have happend := hf.append [] []
  rw [List.append_nil] at happend
  omega

/-- More bytes take up no less of a line than the first of them do alone. -/
theorem decodeChars_append (hf : Extent f) (bytes more : Bytes) :
    f (decodeChars bytes) ≤ f (decodeChars (bytes ++ more)) := by
  obtain ⟨done, last, next, hlast, hnext, hend⟩ := exists_decodeFrom_append .clear bytes more
  rw [decodeChars, decodeChars, hlast, hnext, hf.append, hf.append]
  rcases hend with rfl | ⟨rfl, hne⟩
  · rw [hf.nil]
    omega
  · exact Nat.add_le_add_left (hf.le_of_ne_nil hne) _

end Extent

section Offsets

variable {source : Bytes} {a b : Nat} {f : List Char → Nat}

/-- The bytes up to a later offset are those up to an earlier one, and the bytes between them. -/
theorem exists_take_eq_append (source : Bytes) (h : a ≤ b) :
    ∃ mid, source.take b = source.take a ++ mid := by
  obtain ⟨mid, hmid⟩ := List.take_prefix_take_left (l := source) h
  exact ⟨mid, hmid.symm⟩

theorem count_take_le (source : Bytes) (h : a ≤ b) :
    (source.take a).count lineFeed ≤ (source.take b).count lineFeed := by
  obtain ⟨mid, hmid⟩ := exists_take_eq_append source h
  rw [hmid, List.count_append]
  exact Nat.le_add_right _ _

/-- On the line of an earlier offset a later one is no less far along. -/
theorem Extent.linePrefix_le (hf : Extent f) (h : a ≤ b)
    (hline : (source.take a).count lineFeed = (source.take b).count lineFeed) :
    f (decodeChars (Position.linePrefix source a)) ≤ f (decodeChars (Position.linePrefix source b)) := by
  obtain ⟨mid, hmid⟩ := exists_take_eq_append source h
  -- Both offsets are on one line, so there is no line feed between them.
  have hfeed : lineFeed ∉ mid.reverse := by
    rw [hmid, List.count_append] at hline
    rw [List.mem_reverse]
    exact List.count_eq_zero.1 (by omega)
  have hgrown : Position.linePrefix source b = Position.linePrefix source a ++ mid := by
    rw [Position.linePrefix, hmid, List.reverse_append, takeWhile_append_of_not_mem hfeed,
      List.reverse_append, List.reverse_reverse]
    rfl
  rw [hgrown]
  exact hf.decodeChars_append _ _

/-- Between two boundaries of a source stand characters, at least one of them. -/
theorem Utf8.IsBoundary.exists_between (ha : IsBoundary source a) (hb : IsBoundary source b)
    (h : a < b) : ∃ front mid, source.take a = encodeChars front
      ∧ source.take b = encodeChars (front ++ mid) ∧ mid ≠ [] := by
  obtain ⟨mid, hmid⟩ := exists_take_eq_append source h.le
  obtain ⟨before, after, rfl, rfl, ⟨front, rfl⟩, -⟩ := ha
  obtain ⟨longer, rest, hsource, rfl, hlonger, -⟩ := hb
  rw [List.take_left] at hmid
  rw [hsource, List.take_left] at hmid
  rw [hmid] at hlonger h
  obtain ⟨cs, rfl⟩ := hlonger.of_append ⟨front, rfl⟩
  refine ⟨front, cs, List.take_left, ?_, ?_⟩
  · rw [hsource, List.take_left, hmid, encodeChars_append]
  · rintro rfl
    simp [encodeChars] at h

/-- On the line of an earlier boundary a later one is farther along. -/
theorem Extent.linePrefix_lt (hf : Extent f) (ha : IsBoundary source a) (hb : IsBoundary source b)
    (h : a < b) (hline : (source.take a).count lineFeed = (source.take b).count lineFeed) :
    f (decodeChars (Position.linePrefix source a)) < f (decodeChars (Position.linePrefix source b)) := by
  obtain ⟨front, mid, hfront, hmid, hne⟩ := ha.exists_between hb h
  have hfeed : '\n' ∉ mid := by
    rw [hfront, hmid, count_encodeChars, count_encodeChars, List.count_append] at hline
    exact List.count_eq_zero.1 (by omega)
  -- At a boundary no character is cut, so the line ends in whole characters.
  rw [← List.append_nil (encodeChars front)] at hfront
  rw [← List.append_nil (encodeChars _)] at hmid
  rw [decodeChars_linePrefix hfront List.not_mem_nil, decodeChars_linePrefix hmid List.not_mem_nil,
    lastLine_append hfeed, hf.append, hf.append, hf.append]
  have hpos := hf.pos
  have hleast := hf.le_of_ne_nil hne
  omega

end Offsets

/-! ## Positions -/

/-- Positions are compared by line, and on one line by column. -/
def Position.key (position : Position) : ℕ ×ₗ ℕ :=
  toLex (position.line, position.column)

/-- Places in an editor are compared in the same way, by line and character. -/
def Editor.Place.key (place : Editor.Place) : ℕ ×ₗ ℕ :=
  toLex (place.line, place.character)

/-- A place in the order of reading, by any measure along the line. Both kinds of place are of this form;
they count from 0 or from 1 on. -/
theorem Extent.key_le {f : List Char → Nat} (hf : Extent f) (source : Bytes) {a b : Nat} (h : a ≤ b)
    (first : Nat) :
    toLex ((source.take a).count lineFeed + first,
        f (decodeChars (Position.linePrefix source a)) + first)
      ≤ toLex ((source.take b).count lineFeed + first,
        f (decodeChars (Position.linePrefix source b)) + first) := by
  rw [Prod.Lex.toLex_le_toLex]
  -- A later line decides; on the same line the measure does.
  rcases Nat.lt_or_eq_of_le (count_take_le source h) with hline | hline
  · exact .inl (Nat.add_lt_add_right hline first)
  · exact .inr ⟨congrArg (· + first) hline, Nat.add_le_add_right (hf.linePrefix_le h hline) first⟩

/-- Between boundaries the order is strict: the later place is on a later line, or farther along on
one. -/
theorem Extent.key_lt {f : List Char → Nat} (hf : Extent f) {source : Bytes} {a b : Nat}
    (ha : IsBoundary source a) (hb : IsBoundary source b) (h : a < b) (first : Nat) :
    toLex ((source.take a).count lineFeed + first,
        f (decodeChars (Position.linePrefix source a)) + first)
      < toLex ((source.take b).count lineFeed + first,
        f (decodeChars (Position.linePrefix source b)) + first) := by
  rw [Prod.Lex.toLex_lt_toLex]
  rcases Nat.lt_or_eq_of_le (count_take_le source h.le) with hline | hline
  · exact .inl (Nat.add_lt_add_right hline first)
  · exact .inr ⟨congrArg (· + first) hline, Nat.add_lt_add_right (hf.linePrefix_lt ha hb h hline) first⟩

open Editor in
/-- Positions are in the order of their offsets, whatever the bytes are, in reports and for editors. Where
characters meet, in a source that is UTF-8, they are in strict order, so that line and column determine
the offset. -/
theorem position_ordered (source : Bytes) :
    Monotone (fun n => (Position.ofOffset source n).key)
    ∧ Monotone (fun n => (Place.ofOffset source n).key)
    ∧ StrictMonoOn (fun n => (Position.ofOffset source n).key) {n | IsBoundary source n}
    ∧ StrictMonoOn (fun n => (Place.ofOffset source n).key) {n | IsBoundary source n}
    ∧ Set.InjOn (fun n => (Position.ofOffset source n).key) {n | IsBoundary source n}
    ∧ Set.InjOn (fun n => (Place.ofOffset source n).key) {n | IsBoundary source n} := by
  have hposition : StrictMonoOn (fun n => (Position.ofOffset source n).key) {n | IsBoundary source n} :=
    fun a ha b hb h => Extent.length.key_lt ha hb h 1
  have hplace : StrictMonoOn (fun n => (Place.ofOffset source n).key) {n | IsBoundary source n} :=
    fun a ha b hb h => Extent.units16.key_lt ha hb h 0
  refine ⟨fun a b h => ?_, fun a b h => ?_, hposition, hplace, hposition.injOn, hplace.injOn⟩
  · exact Extent.length.key_le source h 1
  · exact Extent.units16.key_le source h 0

/-- Four bytes of which the last is missing are one replacement, and the third one behind `a` is in front
of the end. In `é` the characters meet behind its second byte. -/
theorem position_ordered_sample :
    (Position.ofOffset [0x61, 0xf0, 0x9f, 0x98] 3).key
        ≤ (Position.ofOffset [0x61, 0xf0, 0x9f, 0x98] 4).key
      ∧ IsBoundary [0xc3, 0xa9] 0 ∧ IsBoundary [0xc3, 0xa9] 2
      ∧ (Editor.Place.ofOffset [0xc3, 0xa9] 0).key < (Editor.Place.ofOffset [0xc3, 0xa9] 2).key := by
  have hvalid : IsValid [0xc3, 0xa9] := ⟨['é'], by decide⟩
  have hstart := IsBoundary.start hvalid
  have hstop := IsBoundary.stop hvalid
  refine ⟨(position_ordered _).1 (by decide), hstart, hstop, ?_⟩
  exact (position_ordered _).2.2.2.1 hstart hstop (by decide)

end TildeMarkup
