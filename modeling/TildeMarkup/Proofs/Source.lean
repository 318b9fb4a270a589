import TildeMarkup.Span

/-!
# Pieces of a source

`At source n bytes`: the bytes stand in the source at offset `n`. A piece that stands in a source
is taken apart by `At.left`, `At.right` and `At.tail`, and a span over it reads it back
(`At.slice`, `At.contents`).
-/

namespace TildeMarkup

/-- The bytes up to some place in a span, and those behind it, are the bytes of the span. -/
theorem Span.slice_append {source : Bytes} {start middle stop : Nat} (hfront : start ≤ middle)
    (hback : middle ≤ stop) : Span.slice ⟨start, stop⟩ source
      = Span.slice ⟨start, middle⟩ source ++ Span.slice ⟨middle, stop⟩ source := by
  have hlength : stop - start = (middle - start) + (stop - middle) := by omega
  have hdrop : start + (middle - start) = middle := by omega
  simp only [Span.slice]
  rw [hlength, List.take_add, List.drop_drop, hdrop]

/-- What stands between the quotes of a string is the slice without its first and its last byte. -/
theorem Span.contents_eq_slice {span : Span} (source : Bytes) (h : 0 < span.stop) :
    span.contents source = Span.slice ⟨span.start + 1, span.stop - 1⟩ source := by
  simp only [Span.contents]
  rw [if_neg (by omega)]

/-- The bytes stand in the source at the offset, with anything in front of them and behind them. -/
def At (source : Bytes) (n : Nat) (bytes : Bytes) : Prop :=
  ∃ before after, source = before ++ (bytes ++ after) ∧ before.length = n

namespace At

variable {source bytes more : Bytes} {n : Nat}

theorem self (source : Bytes) : At source 0 source :=
  ⟨[], [], by rw [List.nil_append, List.append_nil], rfl⟩

/-- The front of a piece stands where the piece does. -/
theorem left (h : At source n (bytes ++ more)) : At source n bytes := by
  obtain ⟨before, after, hsource, hn⟩ := h
  exact ⟨before, more ++ after, by rw [hsource, List.append_assoc], hn⟩

/-- The back of a piece stands where its front ends. -/
theorem right (h : At source n (bytes ++ more)) : At source (n + bytes.length) more := by
  obtain ⟨before, after, hsource, hn⟩ := h
  refine ⟨before ++ bytes, after, ?_, by rw [List.length_append, hn]⟩
  rw [hsource, List.append_assoc, List.append_assoc]

theorem tail {b : UInt8} (h : At source n (b :: bytes)) : At source (n + 1) bytes := by
  have hsplit : At source n ([b] ++ bytes) := h
  exact hsplit.right

/-- A piece that stands in a source ends in it, so its offset is not past the end. -/
theorem le (h : At source n bytes) : n + bytes.length ≤ source.length := by
  obtain ⟨before, after, rfl, rfl⟩ := h
  simp only [List.length_append]
  omega

/-- A span over a piece that stands in the source reads the piece back. -/
theorem slice (h : At source n bytes) : Span.slice ⟨n, n + bytes.length⟩ source = bytes := by
  obtain ⟨before, after, rfl, rfl⟩ := h
  simp only [Span.slice]
  rw [List.drop_left, Nat.add_sub_cancel_left, List.take_left]

/-- A span over a string with its quotes reads what stands between them. -/
theorem contents {raw : Bytes} (h : At source n (quote :: (raw ++ [quote]))) :
    Span.contents ⟨n, n + raw.length + 2⟩ source = raw := by
  have hraw := h.tail.left.slice
  rw [Span.contents_eq_slice source (Nat.zero_lt_succ _)]
  -- The span is counted with both quotes, and the contents end in front of the second one.
  rwa [show n + raw.length + 2 - 1 = n + 1 + raw.length from by omega]

/-- Each byte of a piece is a byte of the source, as far behind the offset. -/
theorem get? (h : At source n bytes) {i : Nat} (hi : i < bytes.length) :
    source[n + i]? = bytes[i]? := by
  obtain ⟨before, after, rfl, rfl⟩ := h
  rw [List.getElem?_append_right (by omega), Nat.add_sub_cancel_left,
    List.getElem?_append_left hi]

theorem head {b : UInt8} (h : At source n (b :: bytes)) : source[n]? = some b :=
  h.get? (Nat.zero_lt_succ _)

end At

end TildeMarkup
