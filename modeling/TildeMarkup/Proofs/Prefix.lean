import TildeMarkup.Proofs.Reader.Causes

/-!
# What a fault depends on

A reader takes one byte after the other, and what it makes of one does not depend on those that
follow. So the bytes up to the one that is refused decide alone that the source is refused, where,
and for what cause (`parse_take_append`).
-/

namespace TildeMarkup

/-- The bytes in front of a fault have all been taken, and it is at the next one or at the end. -/
theorem run_take_of_refused {source : Bytes} {fault : Fault} (h : parse source = .error fault) :
    ∃ r, Reader.initial.run (source.take fault.span.start) = .ok r ∧ r.offset = fault.span.start
      ∧ ((∃ b after, source = source.take fault.span.start ++ b :: after ∧ r.step b = .error fault)
        ∨ (source.length = fault.span.start ∧ r.finish = .error fault)) := by
  -- A source is refused at a byte, or at its end.
  rcases refused_cases h with ⟨before, b, after, r, rfl, hrun, hstep⟩ | ⟨r, hrun, hfinish⟩
  · have hoffset : r.offset = before.length := Reader.offset_of_initial hrun
    have hstart : fault.span.start = before.length := by rw [Reader.span_of_step hstep, hoffset]
    rw [hstart, List.take_left]
    exact ⟨r, hrun, hoffset, .inl ⟨b, after, rfl, hstep⟩⟩
  · have hoffset : r.offset = source.length := Reader.offset_of_initial hrun
    have hstart : fault.span.start = source.length := by rw [Reader.span_of_finish hfinish, hoffset]
    rw [hstart, List.take_length]
    exact ⟨r, hrun, hoffset, .inr ⟨rfl, hfinish⟩⟩

/-- A byte that is refused behind others is refused whatever follows it. -/
theorem parse_of_step {before : Bytes} {b : UInt8} {r : Reader} {fault : Fault}
    (hrun : Reader.initial.run before = .ok r) (hstep : r.step b = .error fault) (after : Bytes) :
    parse (before ++ b :: after) = .error fault := by
  have hall : Reader.initial.run (before ++ b :: after) = .error fault := by
    rw [Reader.run_append, hrun]
    show r.run (b :: after) = _
    rw [Reader.run_cons, hstep]
    rfl
  rw [parse, Tree.parse, hall]
  rfl

/-- A source that is refused at one of its bytes is refused there for the same cause when anything
else follows that byte. -/
theorem parse_take_append {source : Bytes} {fault : Fault} (h : parse source = .error fault)
    (hinside : fault.span.start < source.length) (more : Bytes) :
    parse (source.take (fault.span.start + 1) ++ more) = .error fault := by
  obtain ⟨r, hrun, _, ⟨b, after, hsource, hstep⟩ | ⟨hend, _⟩⟩ := run_take_of_refused h
  · have htake : source.take (fault.span.start + 1)
        = source.take fault.span.start ++ [b] := by
      have hbyte : source[fault.span.start]? = some b := by
        rw [hsource, List.getElem?_append_right (by rw [List.length_take]; omega),
          List.length_take, Nat.min_eq_left (Nat.le_of_lt hinside), Nat.sub_self]
        rfl
      rw [List.take_add_one, hbyte]
      rfl
    rw [htake, List.append_assoc]
    exact parse_of_step hrun hstep more
  -- At the end of the source the fault would not be in front of it.
  · omega

/-- In `~i[ab)c` the parenthesis is refused, and so it is in `~i[ab)` with a square bracket after
it. -/
theorem parse_take_append_sample :
    parse [tilde, 0x69, 0x5b, 0x61, 0x62, 0x29, 0x63] = .error ⟨.expected [0x5d] [0x29], ⟨5, 6⟩⟩
      ∧ parse [tilde, 0x69, 0x5b, 0x61, 0x62, 0x29, 0x5d]
        = .error ⟨.expected [0x5d] [0x29], ⟨5, 6⟩⟩ := by
  have h : parse [tilde, 0x69, 0x5b, 0x61, 0x62, 0x29, 0x63]
      = .error ⟨.expected [0x5d] [0x29], ⟨5, 6⟩⟩ := rfl
  exact ⟨h, parse_take_append h (by decide) [0x5d]⟩

end TildeMarkup
