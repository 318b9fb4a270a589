import TildeMarkup.Outline
import TildeMarkup.Proofs.Position
import TildeMarkup.Proofs.Text.Quoted

/-!
# The items of an outline

A line of an outline shows one item: a node or an argument, as far as the line tells of it (`Outline.Item`).
The line tells the item, and how deep it stands (`Outline.indented_inj`), and all of its characters are
printable, so it has no line break in it (`Outline.isPrintable_of_mem_indented`).
-/

namespace TildeMarkup.Outline

/-- What a line of an outline shows, with the characters and the span that stand in it. -/
inductive Item where
  | group
  | paragraph
  | text (shown : List Char)
  | command (name : String)
  | block (span : Span)
  | inline (span : Span)
  | ident (shown : List Char) (span : Span)
  | string (shown : List Char) (span : Span)
  deriving DecidableEq

/-- Some characters as an excerpt shows them, in quotes and with escapes. -/
def quoted (shown : List Char) : String :=
  String.ofList (Quoted.encode shown)

/-- The line of an item, but for where it starts. -/
def Item.label : Item → String
  | group => "Group"
  | paragraph => "Paragraph"
  | text shown => "Text(" ++ quoted shown ++ ")"
  | command name => "Command ~" ++ name
  | block span => "Block " ++ bounds span
  | inline span => "Inline " ++ bounds span
  | ident shown span => "Ident(" ++ quoted shown ++ ") " ++ bounds span
  | string shown span => "String(" ++ quoted shown ++ ") " ++ bounds span

/-- The line of an item, two spaces for every level. -/
def indented (depth : Nat) (item : Item) : List Char :=
  List.replicate (2 * depth) ' ' ++ item.label.toList

/-! ## What a line tells -/

/-- Bounds are two numbers with two dots between them. -/
theorem toList_bounds (span : Span) : (bounds span).toList
    = '@' :: (Nat.toDigits 10 span.start ++ '.' :: '.' :: Nat.toDigits 10 span.stop) := by
  have hdigits (n : Nat) : (toString n).toList = Nat.toDigits 10 n := by
    rw [Nat.toString_eq_ofList_toDigits, String.toList_ofList]
  have hat : "@".toList = ['@'] := rfl
  have hdots : "..".toList = ['.', '.'] := rfl
  simp only [bounds, String.toList_append, hdigits, hat, hdots, List.cons_append, List.nil_append,
    List.append_assoc]

/-- They tell the span, since there is no dot in a number. -/
theorem bounds_inj {span other : Span} (h : (bounds span).toList = (bounds other).toList) : span = other := by
  have hdot (n : Nat) : '.' ∉ Nat.toDigits 10 n := by
    intro hmem
    exact absurd (Nat.isDigit_of_mem_toDigits (by decide) (by decide) hmem) (by decide)
  have hdigits {n m : Nat} (h : Nat.toDigits 10 n = Nat.toDigits 10 m) : n = m := by
    rw [← @Nat.ofDigitChars_ten_toDigits n, h, Nat.ofDigitChars_ten_toDigits]
  rw [toList_bounds, toList_bounds] at h
  obtain ⟨hstart, hrest⟩ := eq_of_append_cons (hdot _) (hdot _) (List.cons.inj h).2
  obtain ⟨start, stop⟩ := span
  obtain ⟨otherStart, otherStop⟩ := other
  obtain rfl : start = otherStart := hdigits hstart
  obtain rfl : stop = otherStop := hdigits (List.cons.inj hrest).2
  rfl

namespace Item

/-- The first two characters of the line, which tell the kind of item. -/
def tag : Item → List Char
  | group => ['G', 'r']
  | paragraph => ['P', 'a']
  | text _ => ['T', 'e']
  | command _ => ['C', 'o']
  | block _ => ['B', 'l']
  | inline _ => ['I', 'n']
  | ident _ _ => ['I', 'd']
  | string _ _ => ['S', 't']

/-- What the line has behind the tag: the rest of the word, then the excerpt or name, then the bounds. -/
def body : Item → List Char
  | group => ['o', 'u', 'p']
  | paragraph => ['r', 'a', 'g', 'r', 'a', 'p', 'h']
  | text shown => ['x', 't', '('] ++ (Quoted.encode shown ++ [')'])
  | command name => ['m', 'm', 'a', 'n', 'd', ' ', '~'] ++ name.toList
  | block span => ['o', 'c', 'k', ' '] ++ (bounds span).toList
  | inline span => ['l', 'i', 'n', 'e', ' '] ++ (bounds span).toList
  | ident shown span => ['e', 'n', 't', '('] ++ (Quoted.encode shown ++ ')' :: ' ' :: (bounds span).toList)
  | string shown span =>
    ['r', 'i', 'n', 'g', '('] ++ (Quoted.encode shown ++ ')' :: ' ' :: (bounds span).toList)

/-- The line of an item, in these two parts. -/
theorem toList_label (item : Item) : item.label.toList = item.tag ++ item.body := by
  have hquoted (front back : String) (shown : List Char) : (front ++ quoted shown ++ back).toList
      = front.toList ++ (Quoted.encode shown ++ back.toList) := by
    rw [String.toList_append, String.toList_append, quoted, String.toList_ofList, List.append_assoc]
  cases item with
  | group => rfl
  | paragraph => rfl
  | text shown => exact hquoted "Text(" ")" shown
  | command name => exact String.toList_append
  | block span => exact String.toList_append
  | inline span => exact String.toList_append
  | ident shown span =>
    rw [label, String.toList_append, hquoted, List.append_assoc, List.append_assoc]
    rfl
  | string shown span =>
    rw [label, String.toList_append, hquoted, List.append_assoc, List.append_assoc]
    rfl

/-- The tag and what stands behind it tell the item. -/
theorem body_inj {item other : Item} (htag : item.tag = other.tag) (h : item.body = other.body) :
    item = other := by
  -- An excerpt tells where it ends, so the bounds behind it can be compared.
  have hexcerpt {shown more : List Char} {span otherSpan : Span}
      (h : Quoted.encode shown ++ ')' :: ' ' :: (bounds span).toList
        = Quoted.encode more ++ ')' :: ' ' :: (bounds otherSpan).toList) :
      shown = more ∧ span = otherSpan := by
    obtain ⟨hshown, hrest⟩ := Quoted.encode_append_inj h
    exact ⟨hshown, bounds_inj (List.cons.inj (List.cons.inj hrest).2).2⟩
  cases item with
  | group => cases other <;> first | rfl | cases htag
  | paragraph => cases other <;> first | rfl | cases htag
  | text shown =>
    cases other with
    | text more => rw [(Quoted.encode_append_inj (List.append_cancel_left h)).1]
    | _ => cases htag
  | command name =>
    cases other with
    | command more => rw [String.toList_inj.1 (List.append_cancel_left h)]
    | _ => cases htag
  | block span =>
    cases other with
    | block otherSpan => rw [bounds_inj (List.append_cancel_left h)]
    | _ => cases htag
  | inline span =>
    cases other with
    | inline otherSpan => rw [bounds_inj (List.append_cancel_left h)]
    | _ => cases htag
  | ident shown span =>
    cases other with
    | ident more otherSpan =>
      obtain ⟨rfl, rfl⟩ := hexcerpt (List.append_cancel_left h)
      rfl
    | _ => cases htag
  | string shown span =>
    cases other with
    | string more otherSpan =>
      obtain ⟨rfl, rfl⟩ := hexcerpt (List.append_cancel_left h)
      rfl
    | _ => cases htag

theorem length_tag (item : Item) : item.tag.length = 2 := by
  cases item <;> rfl

/-- The line of an item tells the item: the tag has two characters in any line. -/
theorem label_inj {item other : Item} (h : item.label.toList = other.label.toList) : item = other := by
  rw [toList_label, toList_label] at h
  obtain ⟨htag, hbody⟩ := List.append_inj h (by rw [length_tag, length_tag])
  exact body_inj htag hbody

/-- No line but for the levels starts with a space. -/
theorem label_ne_space (item : Item) (rest : List Char) : item.label.toList ≠ ' ' :: rest := by
  rw [toList_label]
  cases item <;> exact fun h => absurd (List.cons.inj h).1 (by decide)

end Item

/-- A line tells its item, and how deep it stands. -/
theorem indented_inj {depth deep : Nat} {item other : Item} (h : indented depth item = indented deep other) :
    depth = deep ∧ item = other := by
  rw [indented, indented] at h
  -- The depth is read off the spaces, since no line goes on with one.
  have hspaces (n : Nat) (item : Item) :
      ((List.replicate n ' ' ++ item.label.toList).takeWhile (· == ' ')).length = n := by
    have hlabel : item.label.toList.takeWhile (· == ' ') = [] := by
      cases hchars : item.label.toList with
      | nil => rfl
      | cons c rest =>
        refine List.takeWhile_cons_of_neg ?_
        rintro hc
        exact item.label_ne_space rest (beq_iff_eq.1 hc ▸ hchars)
    rw [List.takeWhile_append_of_pos fun c hc => beq_iff_eq.2 (List.eq_of_mem_replicate hc), hlabel,
      List.append_nil, List.length_replicate]
  have hdepth : 2 * depth = 2 * deep := by rw [← hspaces (2 * depth) item, h, hspaces]
  rw [hdepth] at h
  exact ⟨by omega, Item.label_inj (List.append_cancel_left h)⟩

/-! ## Printable lines -/

/-- Digits and dots are printable. -/
theorem isPrintable_of_mem_bounds {span : Span} {c : Char} (h : c ∈ (bounds span).toList) :
    Printable.isPrintable c = true := by
  have hdigits {n : Nat} (hc : c ∈ Nat.toDigits 10 n) : Printable.isPrintable c = true := by
    have hdigit := Nat.isDigit_of_mem_toDigits (by decide) (by decide) hc
    rw [Char.isDigit, Bool.and_eq_true, decide_eq_true_eq, decide_eq_true_eq] at hdigit
    have hlow : 48 ≤ c.toNat := hdigit.1
    have hhigh : c.toNat ≤ 57 := hdigit.2
    exact Printable.isPrintable_of_ascii (by omega) (by omega)
  have hdot : Printable.isPrintable '.' = true := by decide
  rw [toList_bounds] at h
  rcases List.mem_cons.1 h with rfl | h
  · decide
  · rcases List.mem_append.1 h with h | h
    · exact hdigits h
    · rcases List.mem_cons.1 h with rfl | h
      · exact hdot
      · rcases List.mem_cons.1 h with rfl | h
        · exact hdot
        · exact hdigits h

/-- The name of a command, if the item is one, is of printable characters. -/
def Item.NamePrintable (item : Item) : Prop :=
  ∀ name, item = .command name → ∀ c ∈ name.toList, Printable.isPrintable c = true

/-- Excerpts are printable by their escapes, and what is always there is ASCII. The name of a command is
left to its own condition. -/
theorem Item.isPrintable_of_mem_body {item : Item} {c : Char} (hname : item.NamePrintable)
    (h : c ∈ item.body) : Printable.isPrintable c = true := by
  have hletters {letters : List Char} (hall : letters.all Printable.isPrintable = true)
      (h : c ∈ letters) : Printable.isPrintable c = true := List.all_eq_true.1 hall c h
  -- what stands in front of the parts of a line that differ from item to item
  have hfixed {front back : List Char} (hfront : front.all Printable.isPrintable = true)
      (hback : c ∈ back → Printable.isPrintable c = true) (h : c ∈ front ++ back) :
      Printable.isPrintable c = true := (List.mem_append.1 h).elim (hletters hfront) hback
  have hquoted {shown back : List Char} (hback : c ∈ back → Printable.isPrintable c = true)
      (h : c ∈ Quoted.encode shown ++ back) : Printable.isPrintable c = true :=
    (List.mem_append.1 h).elim Quoted.isPrintable_of_mem_encode hback
  have hbetween : [')', ' '].all Printable.isPrintable = true := by decide
  have hexcerpt {shown : List Char} {span : Span}
      (h : c ∈ Quoted.encode shown ++ ')' :: ' ' :: (bounds span).toList) : Printable.isPrintable c = true :=
    hquoted (hfixed hbetween isPrintable_of_mem_bounds) h
  cases item with
  | group =>
    have hall : (body group).all Printable.isPrintable = true := by decide
    exact hletters hall h
  | paragraph =>
    have hall : (body paragraph).all Printable.isPrintable = true := by decide
    exact hletters hall h
  | text shown =>
    have hclose : [')'].all Printable.isPrintable = true := by decide
    exact hfixed (by decide) (hquoted (hletters hclose)) h
  | command name => exact hfixed (by decide) (hname name rfl c) h
  | block span => exact hfixed (by decide) isPrintable_of_mem_bounds h
  | inline span => exact hfixed (by decide) isPrintable_of_mem_bounds h
  | ident shown span => exact hfixed (by decide) hexcerpt h
  | string shown span => exact hfixed (by decide) hexcerpt h

/-- All characters of a line are printable, the spaces in front of it among them. -/
theorem isPrintable_of_mem_indented {item : Item} {depth : Nat} {c : Char} (hname : item.NamePrintable)
    (h : c ∈ indented depth item) : Printable.isPrintable c = true := by
  have htag : item.tag.all Printable.isPrintable = true := by
    cases item <;> rfl
  rw [indented, Item.toList_label] at h
  rcases List.mem_append.1 h with h | h
  · rw [List.eq_of_mem_replicate h]
    decide
  · exact (List.mem_append.1 h).elim (List.all_eq_true.1 htag c) (Item.isPrintable_of_mem_body hname)

end TildeMarkup.Outline
