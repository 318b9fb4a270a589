import TildeMarkup.Text.Quoted

/-!
# Reading quoted excerpts

A quoted excerpt tells the characters it was made of, and where it ends, whatever stands behind it
(`Quoted.encode_append_inj`). All its characters are printable (`Quoted.isPrintable_of_mem_encode`): so it
has no line break of any kind.

`Quoted.readChar` reads one character back from how it is written.
-/

namespace TildeMarkup

namespace Printable

/-- The ASCII characters from the space to the tilde are printable. -/
theorem isPrintable_of_ascii {c : Char} (hlow : 0x20 ≤ c.toNat) (hhigh : c.toNat < 0x7f) :
    isPrintable c = true := by
  rw [isPrintable, if_pos hhigh]
  exact decide_eq_true hlow

/-- The characters at which a text may be broken into lines: line feed, vertical tab, form feed, carriage
return, the three separators of files, groups and records, and the two of lines and paragraphs. -/
def lineBreaks : List Char :=
  ['\n', Char.ofNat 0x0b, Char.ofNat 0x0c, '\r', Char.ofNat 0x1c, Char.ofNat 0x1d, Char.ofNat 0x1e,
    Char.ofNat 0x85, Char.ofNat 0x2028, Char.ofNat 0x2029]

/-- No line break is printable, which is looked up for each of the ten. -/
theorem not_isPrintable_of_lineBreak {c : Char} (h : c ∈ lineBreaks) : isPrintable c = false := by
  have hall : lineBreaks.all (fun c => !isPrintable c) = true := by decide +kernel
  exact Bool.not_eq_eq_eq_not.1 (List.all_eq_true.1 hall c h)

end Printable

namespace Quoted

/-! ## Hexadecimal digits -/

/-- What a hexadecimal digit counts, where digits above nine are small letters. -/
def hexValue (c : Char) : Nat :=
  if c.isDigit then c.toNat - 48 else c.toNat - 87

/-- The number that some hexadecimal digits spell, the highest of them first. -/
def ofHex (digits : List Char) : Nat :=
  digits.foldl (fun n c => 16 * n + hexValue c) 0

theorem hexValue_digitChar : ∀ d < 16, hexValue (Nat.digitChar d) = d := by
  decide

theorem ofHex_toDigits (n : Nat) : ofHex (Nat.toDigits 16 n) = n := by
  induction n using Nat.strongRecOn with
  | ind n ih =>
    rw [Nat.toDigits_eq_if (by decide)]
    split
    · next hlt => exact (Nat.zero_add _).trans (hexValue_digitChar n hlt)
    · next hge =>
      have hquotient := ih (n / 16) (by omega)
      rw [ofHex] at hquotient
      rw [ofHex, List.foldl_append, hquotient, List.foldl_cons, List.foldl_nil,
        hexValue_digitChar _ (Nat.mod_lt n (by decide))]
      exact Nat.div_add_mod n 16

/-- Zeros in front of the digits of a number do not change the number. -/
theorem ofHex_hex (width n : Nat) : ofHex (hex width n) = n := by
  have hzeros (count : Nat) (digits : List Char) :
      ofHex (List.replicate count '0' ++ digits) = ofHex digits := by
    induction count with
    | zero => rfl
    | succ count ih => exact ih
  rw [hex, hzeros, ofHex_toDigits]

/-- A number that is short enough is written with as many digits as are asked for. -/
theorem length_hex {width n : Nat} (h : (Nat.toDigits 16 n).length ≤ width) :
    (hex width n).length = width := by
  rw [hex, List.length_append, List.length_replicate]
  omega

theorem exists_of_mem_toDigits {c : Char} {n : Nat} (h : c ∈ Nat.toDigits 16 n) :
    ∃ d < 16, c = Nat.digitChar d := by
  induction n using Nat.strongRecOn with
  | ind n ih =>
    rw [Nat.toDigits_eq_if (by decide)] at h
    split at h
    · next hlt => exact ⟨n, hlt, List.mem_singleton.1 h⟩
    · next hge =>
      rcases List.mem_append.1 h with h | h
      · exact ih (n / 16) (by omega) h
      · exact ⟨n % 16, Nat.mod_lt n (by decide), List.mem_singleton.1 h⟩

theorem isPrintable_digitChar : ∀ d < 16, Printable.isPrintable (Nat.digitChar d) = true := by
  decide

theorem isPrintable_of_mem_hex {c : Char} {width n : Nat} (h : c ∈ hex width n) :
    Printable.isPrintable c = true := by
  rcases List.mem_append.1 h with h | h
  · rw [List.eq_of_mem_replicate h]
    decide
  · obtain ⟨d, hd, rfl⟩ := exists_of_mem_toDigits h
    exact isPrintable_digitChar d hd

/-! ## One character -/

/-- A quote that is put around characters, a single one or a double one. -/
def IsMark (mark : Char) : Prop :=
  mark = '\'' ∨ mark = '"'

theorem isMark_markFor (chars : List Char) : IsMark (markFor chars) := by
  rw [markFor]
  split
  · exact .inr rfl
  · exact .inl rfl

/-- The ways in which a character may be written between quotes. -/
inductive Written (mark c : Char) : List Char → Prop where
  | plain (h : Printable.isPrintable c = true) (hmark : c ≠ mark) (hbackslash : c ≠ '\\') : Written mark c [c]
  | escaped (h : c = mark ∨ c = '\\') : Written mark c ['\\', c]
  | named {letter : Char} (h : (c, letter) ∈ [('\n', 'n'), ('\r', 'r'), ('\t', 't')]) :
      Written mark c ['\\', letter]
  | coded {letter : Char} (width : Nat) (h : (letter, width) ∈ [('x', 2), ('u', 4), ('U', 8)])
      (hwidth : (Nat.toDigits 16 c.toNat).length ≤ width) :
      Written mark c ('\\' :: letter :: hex width c.toNat)

/-- Every character is written in one of the four ways, and which one depends on the character. -/
theorem written_encodeChar (mark c : Char) : Written mark c (encodeChar mark c) := by
  rw [encodeChar]
  split
  · next h => exact .escaped (by simpa using h)
  · next hplain =>
    simp only [Bool.or_eq_true, beq_iff_eq, not_or] at hplain
    split
    · next h => exact .named (by simpa using h)
    · split
      · next h => exact .named (by simpa using h)
      · split
        · next h => exact .named (by simpa using h)
        · split
          · next h => exact .plain h hplain.1 hplain.2
          · split
            · next h => exact .coded 2 (by simp) ((Nat.length_toDigits_le_iff (by decide) (by decide)).2 h)
            · split
              · next h => exact .coded 4 (by simp) ((Nat.length_toDigits_le_iff (by decide) (by decide)).2 h)
              · have hlt : c.toNat < 16 ^ 8 := Nat.lt_of_lt_of_le c.val.toNat_lt (by decide)
                exact .coded 8 (by simp) ((Nat.length_toDigits_le_iff (by decide) (by decide)).2 hlt)

/-- Reads a code point of so many digits, and tells what stands behind it. -/
def readHex (width : Nat) (chars : List Char) : Char × List Char :=
  (Char.ofNat (ofHex (chars.take width)), chars.drop width)

theorem readHex_hex {c : Char} {width : Nat} (h : (Nat.toDigits 16 c.toNat).length ≤ width)
    (rest : List Char) : readHex width (hex width c.toNat ++ rest) = (c, rest) := by
  have hlength := length_hex h
  rw [readHex, List.take_left' hlength, List.drop_left' hlength, ofHex_hex, Char.ofNat_toNat]

/-- Reads the character that stands behind a backslash, by its letter. -/
def readEscape : List Char → Option (Char × List Char)
  | [] => none
  | c :: rest =>
    if c = 'n' then some ('\n', rest)
    else if c = 'r' then some ('\r', rest)
    else if c = 't' then some ('\t', rest)
    else if c = 'x' then some (readHex 2 rest)
    else if c = 'u' then some (readHex 4 rest)
    else if c = 'U' then some (readHex 8 rest)
    else some (c, rest)

/-- Reads a character back from how it is written, and tells what stands behind it. -/
def readChar : List Char → Option (Char × List Char)
  | [] => none
  | c :: rest => if c = '\\' then readEscape rest else some (c, rest)

namespace Written

variable {mark c : Char} {word : List Char}

theorem readChar_append (h : Written mark c word) (hmark : IsMark mark) (rest : List Char) :
    readChar (word ++ rest) = some (c, rest) := by
  -- A letter behind the backslash tells how the character is written; none of them is a quote.
  cases h with
  | plain _ _ hbackslash => exact if_neg hbackslash
  | escaped h =>
    rcases h with rfl | rfl
    · rcases hmark with rfl | rfl <;> rfl
    · rfl
  | named h =>
    simp only [List.mem_cons, Prod.mk.injEq, List.not_mem_nil, or_false] at h
    rcases h with ⟨rfl, rfl⟩ | ⟨rfl, rfl⟩ | ⟨rfl, rfl⟩ <;> rfl
  | coded width h hwidth =>
    simp only [List.mem_cons, Prod.mk.injEq, List.not_mem_nil, or_false] at h
    rcases h with ⟨rfl, rfl⟩ | ⟨rfl, rfl⟩ | ⟨rfl, rfl⟩ <;>
      exact congrArg some (readHex_hex hwidth rest)

/-- What a character is written as starts with another one than the quote. -/
theorem append_ne (h : Written mark c word) (hmark : IsMark mark) (rest more : List Char) :
    word ++ rest ≠ mark :: more := by
  have hbackslash : '\\' ≠ mark := by rcases hmark with rfl | rfl <;> decide
  cases h with
  | plain _ hmark _ => exact fun h => hmark (List.cons.inj h).1
  | _ => exact fun h => hbackslash (List.cons.inj h).1

/-- What a character is written as has printable characters only. -/
theorem isPrintable (h : Written mark c word) (hmark : IsMark mark) :
    ∀ d ∈ word, Printable.isPrintable d = true := by
  have hbackslash : Printable.isPrintable '\\' = true := by decide
  cases h with
  | plain hc _ _ => exact List.forall_mem_singleton.2 hc
  | escaped h =>
    refine List.forall_mem_cons.2 ⟨hbackslash, List.forall_mem_singleton.2 ?_⟩
    rcases h with rfl | rfl
    · rcases hmark with rfl | rfl <;> decide
    · decide
  | named h =>
    refine List.forall_mem_cons.2 ⟨hbackslash, List.forall_mem_singleton.2 ?_⟩
    simp only [List.mem_cons, Prod.mk.injEq, List.not_mem_nil, or_false] at h
    rcases h with ⟨rfl, rfl⟩ | ⟨rfl, rfl⟩ | ⟨rfl, rfl⟩ <;> decide
  | coded _ h _ =>
    refine List.forall_mem_cons.2 ⟨hbackslash, List.forall_mem_cons.2 ⟨?_, fun _ => isPrintable_of_mem_hex⟩⟩
    simp only [List.mem_cons, Prod.mk.injEq, List.not_mem_nil, or_false] at h
    rcases h with ⟨rfl, rfl⟩ | ⟨rfl, rfl⟩ | ⟨rfl, rfl⟩ <;> decide

end Written

/-! ## Excerpts -/

/-- The characters in a pair of quotes are told by what is written, and so is what stands behind. -/
theorem flatMap_encodeChar_inj {mark : Char} (hmark : IsMark mark) {chars others rest more : List Char}
    (h : chars.flatMap (encodeChar mark) ++ mark :: rest = others.flatMap (encodeChar mark) ++ mark :: more) :
    chars = others ∧ rest = more := by
  -- By induction on the characters. The quote that ends the excerpt is never how a character starts.
  induction chars generalizing others with
  | nil =>
    cases others with
    | nil => exact ⟨rfl, (List.cons.inj h).2⟩
    | cons other others =>
      rw [List.flatMap_cons, List.append_assoc] at h
      exact absurd h.symm ((written_encodeChar mark other).append_ne hmark _ _)
  | cons c chars ih =>
    cases others with
    | nil =>
      rw [List.flatMap_cons, List.append_assoc] at h
      exact absurd h ((written_encodeChar mark c).append_ne hmark _ _)
    | cons other others =>
      rw [List.flatMap_cons, List.flatMap_cons, List.append_assoc, List.append_assoc] at h
      have hread := congrArg readChar h
      rw [(written_encodeChar mark c).readChar_append hmark,
        (written_encodeChar mark other).readChar_append hmark] at hread
      obtain ⟨rfl, hbehind⟩ := Prod.mk.inj (Option.some.inj hread)
      obtain ⟨rfl, rfl⟩ := ih hbehind
      exact ⟨rfl, rfl⟩

/-- An excerpt tells its characters, and where it ends, whatever stands behind it. -/
theorem encode_append_inj {chars others rest more : List Char}
    (h : encode chars ++ rest = encode others ++ more) : chars = others ∧ rest = more := by
  simp only [encode, List.cons_append, List.append_assoc, List.nil_append] at h
  obtain ⟨hmark, h⟩ := List.cons.inj h
  rw [← hmark] at h
  exact flatMap_encodeChar_inj (isMark_markFor chars) h

/-- An excerpt has no characters but printable ones, its quotes among them. -/
theorem isPrintable_of_mem_encode {chars : List Char} {c : Char} (h : c ∈ encode chars) :
    Printable.isPrintable c = true := by
  have hmark := isMark_markFor chars
  have hquote : Printable.isPrintable (markFor chars) = true := by
    rcases hmark with h | h <;> rw [h] <;> decide
  rcases List.mem_cons.1 h with rfl | h
  · exact hquote
  · rcases List.mem_append.1 h with h | h
    · obtain ⟨d, _, h⟩ := List.mem_flatMap.1 h
      exact (written_encodeChar _ d).isPrintable hmark c h
    · rw [List.mem_singleton.1 h]
      exact hquote

end Quoted
end TildeMarkup
