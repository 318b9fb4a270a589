import TildeMarkup.Proofs.Source

/-!
# Carriage returns in front of line feeds

The two ways to end the lines of a source: with a line feed, and with a carriage return in front of it
(`crlf`). What stands in the source stands in the other one where its offset has moved to (`At.crlf`).
-/

namespace TildeMarkup

section Returns

variable {α : Type} [DecidableEq α]

/-- A list with `ret` in front of every `feed`. -/
def withReturns (ret feed : α) (l : List α) : List α :=
  l.flatMap fun a => if a = feed then [ret, feed] else [a]

variable {ret feed : α}

@[simp] theorem withReturns_nil : withReturns ret feed [] = [] := rfl

theorem withReturns_feed (rest : List α) :
    withReturns ret feed (feed :: rest) = ret :: feed :: withReturns ret feed rest := by
  simp [withReturns]

theorem withReturns_cons {a : α} (h : a ≠ feed) (rest : List α) :
    withReturns ret feed (a :: rest) = a :: withReturns ret feed rest := by
  simp [withReturns, h]

/-- What is done to each element is done to parts of a list. -/
theorem withReturns_append (front back : List α) :
    withReturns ret feed (front ++ back) = withReturns ret feed front ++ withReturns ret feed back :=
  List.flatMap_append

/-- Without a feed there is nothing to be put in. -/
theorem withReturns_of_not_mem {l : List α} (h : feed ∉ l) : withReturns ret feed l = l := by
  induction l with
  | nil => rfl
  | cons a rest ih =>
    rw [List.mem_cons, not_or] at h
    rw [withReturns_cons (Ne.symm h.1), ih h.2]

/-- There is one more for every feed. -/
theorem length_withReturns (l : List α) :
    (withReturns ret feed l).length = l.length + l.count feed := by
  induction l with
  | nil => rfl
  | cons a rest ih =>
    by_cases h : a = feed
    · rw [h, withReturns_feed, List.count_cons_self]
      simp only [List.length_cons, ih]
      omega
    · rw [withReturns_cons h, List.count_cons_of_ne h]
      simp only [List.length_cons, ih]
      omega

/-- Nothing but the returns is added, so without them the list is what it was. -/
theorem filter_withReturns (hne : feed ≠ ret) {l : List α} (h : ret ∉ l) :
    (withReturns ret feed l).filter (· ≠ ret) = l := by
  induction l with
  | nil => rfl
  | cons a rest ih =>
    rw [List.mem_cons, not_or] at h
    by_cases ha : a = feed
    · rw [ha, withReturns_feed]
      simpa [hne] using ih h.2
    · rw [withReturns_cons ha]
      simpa [Ne.symm h.1] using ih h.2

end Returns

/-- The source with a carriage return in front of every line feed. -/
def crlf (source : Bytes) : Bytes :=
  withReturns carriageReturn lineFeed source

/-- Where an offset of the source is then: further to the right by the line feeds in front of it. -/
def crlfOffset (source : Bytes) (p : Nat) : Nat :=
  p + (source.take p).count lineFeed

theorem length_crlf_take {source : Bytes} {p : Nat} (h : p ≤ source.length) :
    (crlf (source.take p)).length = crlfOffset source p := by
  rw [crlf, length_withReturns, List.length_take_of_le h]
  rfl

/-- Offsets keep their order, and none of them fall together. -/
theorem crlfOffset_lt_iff (source : Bytes) (a b : Nat) :
    crlfOffset source a < crlfOffset source b ↔ a < b := by
  have hcount {a b : Nat} (h : a ≤ b) :
      (source.take a).count lineFeed ≤ (source.take b).count lineFeed :=
    (List.take_prefix_take_left h).sublist.count_le lineFeed
  unfold crlfOffset
  rcases Nat.lt_or_ge a b with h | h
  · have hab := hcount (Nat.le_of_lt h)
    omega
  · have hba := hcount h
    omega

/-- Over a line feed the offset moves by two. -/
theorem crlfOffset_succ {source : Bytes} {p : Nat} {b : UInt8} (h : source[p]? = some b) :
    crlfOffset source (p + 1) = crlfOffset source p + (if b = lineFeed then 2 else 1) := by
  rw [crlfOffset, crlfOffset, List.take_add_one, h, List.count_append]
  by_cases hb : b = lineFeed
  · simp [hb]
    omega
  · simp [hb]
    omega

/-- Bytes of the source stand in the other one with their line ends. -/
theorem At.crlf {source bytes : Bytes} {n : Nat} (h : At source n bytes) :
    At (crlf source) (crlfOffset source n) (TildeMarkup.crlf bytes)
      ∧ crlfOffset source (n + bytes.length)
        = crlfOffset source n + (TildeMarkup.crlf bytes).length := by
  have hle := h.le
  obtain ⟨before, after, rfl, rfl⟩ := h
  -- Where the bytes start and where they stop is told by the parts of the source up to there.
  have hstart := length_crlf_take (show before.length ≤ (before ++ (bytes ++ after)).length by
    rw [List.length_append]; omega)
  have hstop := length_crlf_take hle
  rw [List.take_left] at hstart
  rw [← List.length_append, ← List.append_assoc, List.take_left, TildeMarkup.crlf,
    withReturns_append, List.length_append, List.append_assoc] at hstop
  refine ⟨⟨TildeMarkup.crlf before, TildeMarkup.crlf after, ?_, hstart⟩, ?_⟩
  · rw [TildeMarkup.crlf, withReturns_append, withReturns_append]
    rfl
  · rw [← hstart, ← List.length_append, ← hstop]
    rfl

end TildeMarkup
