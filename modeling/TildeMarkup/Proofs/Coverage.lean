import TildeMarkup.Proofs.Spelling.Lists
import TildeMarkup.Proofs.Spelling.Placement

/-!
# What becomes of each byte

A source that parses is covered by its tree: the leaves stand one after the other, and a byte outside
of them is a blank or belongs to the markup that the tree tells of (`IsMarkup`). An argument in
brackets starts and ends with its brackets and holds what stands between them, and the letters of a
name or an identifier are a whole word (`Span.IsWord`).

The markup is not in the tree. Its place follows from the spans: a list opens at the first byte after
the name that is no blank, and a comma stands at the first such byte after an argument.
-/

namespace TildeMarkup

/-- The first offset from `i` on at which no blank stands. -/
def skipBlanks (source : Bytes) (i : Nat) : Nat :=
  i + ((source.drop i).takeWhile isBlank).length

/-- The arguments of the command stand in a list. -/
def IsListed (source : Bytes) (name : Span) : Prop :=
  source[skipBlanks source name.stop]? = some Bracket.round.opener

/-- Where the list of a command closes: after the last argument, or after the comma behind it. -/
def listStop (source : Bytes) (name : Span) (args : List (Argument Tree)) : Nat :=
  match args.getLast? with
  | none => skipBlanks source (skipBlanks source name.stop + 1)
  | some arg =>
    let next := skipBlanks source arg.span.stop
    if source[next]? = some comma then skipBlanks source (next + 1) else next

/-- The byte at the offset is a blank, or markup of a command of the tree. -/
inductive IsMarkup (source : Bytes) (tree : Tree) (i : Nat) : Prop where
  | blank {b : UInt8} (hbyte : source[i]? = some b) (hb : isBlank b = true)
  | tilde {name : Span} {args : List (Argument Tree)} (h : tree.Has (.command name args))
      (hplace : name.start = i + 1) (hbyte : source[i]? = some TildeMarkup.tilde)
  | listOpener {name : Span} {args : List (Argument Tree)} (h : tree.Has (.command name args))
      (hplace : i = skipBlanks source name.stop) (hbyte : source[i]? = some Bracket.round.opener)
  | comma {name : Span} {args : List (Argument Tree)} {arg : Argument Tree}
      (h : tree.Has (.command name args)) (hlisted : IsListed source name) (harg : arg ∈ args)
      (hplace : i = skipBlanks source arg.span.stop) (hbyte : source[i]? = some TildeMarkup.comma)
  | listCloser {name : Span} {args : List (Argument Tree)} (h : tree.Has (.command name args))
      (hlisted : IsListed source name) (hplace : i = listStop source name args)
      (hbyte : source[i]? = some Bracket.round.closer)
  | opener {name : Span} {args : List (Argument Tree)} {arg : Argument Tree} {kind : Bracket}
      (h : tree.Has (.command name args)) (harg : arg ∈ args) (hkind : arg.bracket? = some kind)
      (hplace : i = arg.span.start) (hbyte : source[i]? = some kind.opener)
  | closer {name : Span} {args : List (Argument Tree)} {arg : Argument Tree} {kind : Bracket}
      (h : tree.Has (.command name args)) (harg : arg ∈ args) (hkind : arg.bracket? = some kind)
      (hplace : i + 1 = arg.span.stop) (hbyte : source[i]? = some kind.closer)

/-- The span is a whole word: only letters, and none next to them. -/
structure Span.IsWord (source : Bytes) (span : Span) : Prop where
  letters : (span.slice source).all isLetter = true
  before : ∀ i b, i + 1 = span.start → source[i]? = some b → isLetter b = false
  after : ∀ b, source[span.stop]? = some b → isLetter b = false

/-- The argument starts and ends with its brackets, and holds the marks between them and no others:
those that it does not hold end in front of it, start after it, or are arguments around it. -/
structure Argument.IsScope (source : Bytes) (tree : Tree) (arg : Argument Tree) (kind : Bracket) :
    Prop where
  opener : source[arg.span.start]? = some kind.opener
  closer : ∃ last, last + 1 = arg.span.stop ∧ arg.span.start < last
    ∧ source[last]? = some kind.closer
  inner : ∀ mark ∈ tree.marks, mark ∈ arg.inner
    ↔ arg.span.start < mark.span.start ∧ mark.span.stop < arg.span.stop
  others : ∀ mark ∈ tree.marks, mark ∉ arg.inner →
    Spelling.Apart mark arg.span.start arg.span.stop

/-- Every byte of the source has its place in the tree. -/
structure Coverage (source : Bytes) (tree : Tree) : Prop where
  ordered : tree.leaves.Pairwise fun a b => a.stop ≤ b.start
  within : ∀ span ∈ tree.leaves, span.start ≤ span.stop ∧ span.stop ≤ source.length
  covered : ∀ i < source.length,
    (∃ span ∈ tree.leaves, span.start ≤ i ∧ i < span.stop) ∨ IsMarkup source tree i
  scopes : ∀ name args arg kind, tree.Has (.command name args) → arg ∈ args →
    arg.bracket? = some kind → arg.IsScope source tree kind
  names : ∀ name args, tree.Has (.command name args) → name.IsWord source
  idents : ∀ name args span, tree.Has (.command name args) → .ident span ∈ args →
    span.start < span.stop ∧ span.IsWord source

/-! ## Stretches of a source -/

theorem skipBlanks_eq {source gap rest : Bytes} {n : Nat} {b : UInt8}
    (h : At source n (gap ++ b :: rest)) (hgap : gap.all isBlank = true)
    (hb : isBlank b = false) : skipBlanks source n = n + gap.length := by
  obtain ⟨before, after, rfl, rfl⟩ := h
  have htake : ((gap ++ b :: rest) ++ after).takeWhile isBlank = gap := by
    rw [List.append_assoc, List.takeWhile_append_of_pos (List.all_eq_true.1 hgap), List.cons_append,
      List.takeWhile_cons_of_neg (by rw [hb]; exact Bool.false_ne_true), List.append_nil]
  rw [skipBlanks, List.drop_left, htake]

/-- All bytes between two offsets are in a leaf or are markup. -/
def Covered (source : Bytes) (tree : Tree) (lo hi : Nat) : Prop :=
  ∀ i, lo ≤ i → i < hi →
    (∃ span ∈ tree.leaves, span.start ≤ i ∧ i < span.stop) ∨ IsMarkup source tree i

namespace Covered

variable {source : Bytes} {tree : Tree} {lo mid hi : Nat}

/-- Between an offset and itself there is nothing to cover. -/
theorem empty (n : Nat) : Covered source tree n n :=
  fun _ hlo hhi => absurd hhi (Nat.not_lt.2 hlo)

/-- Two stretches, one behind the other. -/
theorem append (h : Covered source tree lo mid) (hmore : Covered source tree mid hi) :
    Covered source tree lo hi := by
  intro i hlo hhi
  rcases Nat.lt_or_ge i mid with hmid | hmid
  · exact h i hlo hmid
  · exact hmore i hmid hhi

/-- A leaf covers all of its bytes. -/
theorem leaf {span : Span} (h : span ∈ tree.leaves) : Covered source tree span.start span.stop :=
  fun _ hlo hhi => .inl ⟨span, h, hlo, hhi⟩

/-- A byte of markup covers itself. -/
theorem byte {n : Nat} (h : IsMarkup source tree n) : Covered source tree n (n + 1) := by
  intro i hlo hhi
  have hi : i = n := by omega
  rw [hi]
  exact .inr h

/-- A stretch of blanks. -/
theorem blanks {gap : Bytes} {n : Nat} (h : At source n gap) (hgap : gap.all isBlank = true) :
    Covered source tree n (n + gap.length) := by
  intro i hlo hhi
  have hi : i - n < gap.length := by omega
  refine .inr (.blank (b := gap[i - n]) ?_ ?_)
  · have hbyte := h.get? hi
    rw [List.getElem?_eq_getElem hi, show n + (i - n) = i from by omega] at hbyte
    exact hbyte
  · exact List.all_eq_true.1 hgap _ (List.getElem_mem hi)

end Covered

namespace Spelling

/-! ## The bytes of a command -/

/-- What is neither in square brackets nor in braces stands in a list. -/
theorem Arg.inList_of_fitsCall {listed : Bool} {front back : List Arg} {arg : Arg}
    (h : Arg.fitsCall listed (front ++ arg :: back) = true) (hinline : ∀ part, arg ≠ .inline part)
    (hblock : ∀ parts, arg ≠ .block parts) :
    listed = true ∧ ∃ before after, front.foldlM Arg.inList true = some before
      ∧ Arg.inList before arg = some after ∧ (back.foldlM Arg.inList after).isSome = true := by
  cases listed with
  -- In a list the argument is read behind some others, and in front of some more.
  | true =>
    obtain ⟨last, hlast⟩ := Option.isSome_iff_exists.1 h
    rw [List.foldlM_append] at hlast
    obtain ⟨before, hfront, hrest⟩ := Option.bind_eq_some_iff.1 hlast
    obtain ⟨after, harg, hback⟩ := Option.bind_eq_some_iff.1 hrest
    exact ⟨rfl, before, after, hfront, harg, Option.isSome_iff_exists.2 ⟨last, hback⟩⟩
  | false =>
    -- Without a list there is but one argument, and it is in brackets.
    match front, h with
    | [], h =>
      cases arg with
      | inline part => exact absurd rfl (hinline part)
      | block parts => exact absurd rfl (hblock parts)
      | _ => cases h
    | first :: second, h =>
      cases first <;> cases second <;> cases h

section Call

variable {parts : List Part} {opened : List Bracket} {n : Nat} {name gap : Bytes} {listed : Bool}
  {args front back : List Arg} {arg : Arg}

/-- The name of a command is of letters, blanks follow, and the arguments are those that may stand
there. -/
theorem Holds.fits_call (hparts : IsDocument parts opened)
    (h : Holds parts n (.call name gap listed args)) :
    name.all isLetter = true ∧ gap.all isBlank = true ∧ Arg.fitsCall listed args = true
      ∧ ∃ blocks, Arg.FitsAll blocks args := by
  obtain ⟨blocks, hname, hgap, hcall, hargs⟩ := h.fits hparts
  exact ⟨hname, hgap, hcall, blocks, hargs⟩

/-- A command that is written somewhere is one of the tree, with the arguments that are written. -/
theorem Holds.has_command (h : Holds parts n (.call name gap listed args)) :
    (documentTree parts).Has (.command ⟨n + 1, n + 1 + name.length⟩
      (Arg.argumentsAll (argsStart n name gap listed) args)) :=
  h.has rfl

/-- What follows an argument, or some arguments, up to the end of the command. -/
theorem Holds.at_back (h : Holds parts n (.call name gap listed (front ++ back))) :
    At (Part.bytesAll parts) (argsStart n name gap listed + (Arg.bytesAll front).length)
      (Arg.bytesAll back ++ callTail listed) := by
  have hcall := h.located
  rw [Part.bytes_call_eq, Arg.bytesAll_append, List.append_assoc] at hcall
  rw [argsStart_eq]
  exact hcall.right.right

/-- A list starts at the first byte after the name that is no blank. -/
theorem Holds.skipBlanks_name (hparts : IsDocument parts opened)
    (h : Holds parts n (.call name gap true args)) :
    skipBlanks (Part.bytesAll parts) (n + 1 + name.length) + 1 = argsStart n name gap true
      ∧ (Part.bytesAll parts)[skipBlanks (Part.bytesAll parts) (n + 1 + name.length)]?
        = some Bracket.round.opener := by
  obtain ⟨_, hgap, _⟩ := h.fits_call hparts
  have hcall := h.located
  rw [Part.bytes, if_pos rfl] at hcall
  have hrest := hcall.tail.right
  rw [skipBlanks_eq hrest hgap (Reader.isBlank_opener .round)]
  exact ⟨rfl, hrest.right.head⟩

/-- Where blanks after an argument end. -/
theorem Holds.skipBlanks_arg {gap' after : Bytes} {b : UInt8} (hparts : IsDocument parts opened)
    (h : Holds parts n (.call name gap listed (front ++ arg :: (Arg.blanks gap' ++ back))))
    (hback : Arg.bytesAll back ++ callTail listed = b :: after) (hb : isBlank b = false) :
    skipBlanks (Part.bytesAll parts)
        (argsStart n name gap listed + (Arg.bytesAll front).length + arg.bytes.length)
      = argsStart n name gap listed + (Arg.bytesAll (front ++ arg :: Arg.blanks gap')).length
    ∧ (Part.bytesAll parts)[argsStart n name gap listed
        + (Arg.bytesAll (front ++ arg :: Arg.blanks gap')).length]? = some b := by
  obtain ⟨_, _, _, blocks, hargs⟩ := h.fits_call hparts
  have hgap := Arg.blanks_of_fitsAll (Arg.fitsAll_append.1 (Arg.fitsAll_append.1 hargs).2.2).1
  have hrest := h.at_back
  rw [Arg.bytesAll, Arg.bytesAll_append, Arg.bytesAll_blanks, List.append_assoc, List.append_assoc,
    hback] at hrest
  -- The offset is that of the argument with the blanks behind it.
  have hlength : argsStart n name gap listed + (Arg.bytesAll (front ++ arg :: Arg.blanks gap')).length
      = argsStart n name gap listed + (Arg.bytesAll front).length + arg.bytes.length
        + gap'.length := by
    rw [Arg.bytesAll_append, Arg.bytesAll, Arg.bytesAll_blanks]
    simp only [List.length_append]
    omega
  rw [hlength]
  exact ⟨skipBlanks_eq hrest.right hgap hb, hrest.right.right.head⟩

/-- A list can be told from the source, by the byte that follows the name. -/
theorem Holds.isListed (hparts : IsDocument parts opened)
    (h : Holds parts n (.call name gap true args)) :
    IsListed (Part.bytesAll parts) ⟨n + 1, n + 1 + name.length⟩ :=
  (h.skipBlanks_name hparts).2

/-- An argument of a command as it is written is one of the tree. -/
theorem Holds.exists_argument (hparts : IsDocument parts opened)
    (h : Holds parts n (.call name gap listed (front ++ arg :: back)))
    (harg : arg.isSeparator = false) :
    ∃ a, arg.arguments (argsStart n name gap listed + (Arg.bytesAll front).length) = [a]
      ∧ a ∈ Arg.argumentsAll (argsStart n name gap listed) (front ++ arg :: back)
      ∧ a.span = ⟨argsStart n name gap listed + (Arg.bytesAll front).length,
        argsStart n name gap listed + (Arg.bytesAll front).length + arg.bytes.length⟩
      ∧ a.bracket? = arg.bracket? := by
  obtain ⟨_, _, _, blocks, hargs⟩ := h.fits_call hparts
  obtain ⟨a, ha, hspan, hbracket⟩ :=
    Arg.arguments_eq_singleton (Arg.fitsAll_append.1 hargs).2.1 harg
      (argsStart n name gap listed + (Arg.bytesAll front).length)
  refine ⟨a, ha, Arg.mem_argumentsAll_append front back ?_, hspan, hbracket⟩
  rw [ha]
  exact List.mem_singleton_self a

/-- An argument of the tree is the one that is written where it stands. -/
theorem Holds.argument_eq {a : Argument Tree} (hparts : IsDocument parts opened)
    (h : Holds parts n (.call name gap listed (front ++ arg :: back)))
    (ha : a ∈ arg.arguments (argsStart n name gap listed + (Arg.bytesAll front).length)) :
    arg.arguments (argsStart n name gap listed + (Arg.bytesAll front).length) = [a]
      ∧ a.span = ⟨argsStart n name gap listed + (Arg.bytesAll front).length,
        argsStart n name gap listed + (Arg.bytesAll front).length + arg.bytes.length⟩
      ∧ a.bracket? = arg.bracket? := by
  have hsep : arg.isSeparator = false := by
    cases arg with
    | blank => cases ha
    | comma => cases ha
    | _ => rfl
  obtain ⟨found, harg, _, hspan, hbracket⟩ := h.exists_argument hparts hsep
  have hfound : a = found := by
    rw [harg] at ha
    exact List.mem_singleton.1 ha
  rw [← hfound] at harg hspan hbracket
  exact ⟨harg, hspan, hbracket⟩

/-- A comma that is written is the first byte behind an argument of the tree that is no blank. -/
theorem Holds.isMarkup_comma (hparts : IsDocument parts opened)
    (h : Holds parts n (.call name gap listed (front ++ .comma :: back))) :
    IsMarkup (Part.bytesAll parts) (documentTree parts)
      (argsStart n name gap listed + (Arg.bytesAll front).length) := by
  -- A comma is only written in a list, where it follows an argument.
  obtain ⟨_, _, hcall, _⟩ := h.fits_call hparts
  obtain ⟨rfl, before, after, hfront, hcomma, _⟩ := Arg.inList_of_fitsCall hcall
    (fun _ heq => by cases heq) (fun _ heq => by cases heq)
  -- a comma comes after an argument and blanks
  have hbefore : before = false := by
    cases before with
    | true => cases hcomma
    | false => rfl
  rw [hbefore] at hfront
  cases Arg.ListEnd.of_inList hfront with
  | @argument arg front harg gap' =>
    rw [List.append_assoc, List.cons_append] at h
    obtain ⟨a, _, hmem, hspan, _⟩ := h.exists_argument hparts harg
    obtain ⟨hplace, hbyte⟩ := h.skipBlanks_arg hparts rfl Reader.isBlank_comma
    refine .comma h.has_command (h.isListed hparts) hmem ?_ hbyte
    rw [hspan]
    exact hplace.symm

/-- The last argument of a list is the last one that is written, whatever separators follow. -/
theorem Arg.getLast?_argumentsAll {m : Nat} {rest : List Arg} {a : Argument Tree}
    (ha : arg.arguments (m + (Arg.bytesAll front).length) = [a])
    (hrest : ∀ m, Arg.argumentsAll m rest = []) :
    (Arg.argumentsAll m (front ++ arg :: rest)).getLast? = some a := by
  rw [Arg.argumentsAll_append, Arg.argumentsAll, ha, hrest, List.append_nil, List.getLast?_concat]

/-- The closing parenthesis stands where the list stops. -/
theorem Holds.listStop_eq (hparts : IsDocument parts opened)
    (h : Holds parts n (.call name gap true args)) :
    listStop (Part.bytesAll parts) ⟨n + 1, n + 1 + name.length⟩
        (Arg.argumentsAll (argsStart n name gap true) args)
      = argsStart n name gap true + (Arg.bytesAll args).length := by
  obtain ⟨_, _, hcall, blocks, hargs⟩ := h.fits_call hparts
  obtain ⟨argFits, hlast⟩ := Option.isSome_iff_exists.1 hcall
  -- A list ends with blanks only, behind an argument, or behind an argument with a comma.
  cases Arg.ListEnd.of_inList hlast with
  | blanks gap' =>
    rw [← List.nil_append (Arg.blanks gap')] at h
    have hclose := h.at_back
    rw [Arg.bytesAll_blanks] at hclose
    rw [Arg.argumentsAll_blanks, Arg.bytesAll_blanks, listStop]
    show skipBlanks _ (skipBlanks _ (n + 1 + name.length) + 1) = _
    rw [(h.skipBlanks_name hparts).1]
    exact skipBlanks_eq hclose (Arg.blanks_of_fitsAll hargs) (Reader.isBlank_closer .round)
  | @argument arg front harg gap' =>
    obtain ⟨a, ha, _, hspan, _⟩ := h.exists_argument hparts harg
    rw [← List.append_nil (Arg.blanks gap')] at h
    obtain ⟨hplace, hbyte⟩ := h.skipBlanks_arg hparts rfl (Reader.isBlank_closer .round)
    rw [listStop, Arg.getLast?_argumentsAll ha (Arg.argumentsAll_blanks · gap')]
    simp only [hspan, hplace, hbyte]
    rw [if_neg (by decide)]
  | @comma arg front harg gap' after =>
    obtain ⟨a, ha, _, hspan, _⟩ := h.exists_argument hparts harg
    obtain ⟨hplace, hbyte⟩ := h.skipBlanks_arg hparts rfl Reader.isBlank_comma
    have hnone (m : Nat) : Arg.argumentsAll m (Arg.blanks gap' ++ .comma :: Arg.blanks after) = [] := by
      rw [Arg.argumentsAll_append, Arg.argumentsAll_blanks]
      exact Arg.argumentsAll_blanks _ after
    -- the blanks after the comma, up to the parenthesis
    have hargs' := (Arg.fitsAll_append.1 (Arg.fitsAll_append.1 hargs).2.2).2
    have hafter := Arg.blanks_of_fitsAll hargs'.2
    rw [← List.cons_append, ← List.append_assoc] at h
    have hclose := h.at_back
    rw [Arg.bytesAll, Arg.bytesAll_blanks, List.append_assoc] at hclose
    have hclose : At _ (_ + 1) (after ++ [Bracket.round.closer]) := hclose.right
    rw [listStop, Arg.getLast?_argumentsAll ha hnone]
    simp only [hspan, hplace, hbyte, if_true]
    rw [skipBlanks_eq hclose hafter (Reader.isBlank_closer .round),
      ← List.cons_append, ← List.append_assoc, Arg.bytesAll_append _ (.comma :: _), Arg.bytesAll,
      Arg.bytesAll_blanks, Arg.bytes]
    simp only [List.length_append, List.length_singleton]
    omega

/-- From the tilde up to the arguments. -/
theorem Holds.covered_head (hparts : IsDocument parts opened)
    (h : Holds parts n (.call name gap listed args)) :
    Covered (Part.bytesAll parts) (documentTree parts) n (argsStart n name gap listed) := by
  obtain ⟨_, hgap, _⟩ := h.fits_call hparts
  have hcall := h.located
  rw [Part.bytes] at hcall
  -- The tilde, the name, the blanks behind it, and the parenthesis if there is a list.
  have htilde : Covered (Part.bytesAll parts) (documentTree parts) n (n + 1) :=
    .byte (.tilde h.has_command rfl hcall.head)
  have hmark := h.has_command.marks_name
  have hname : Covered (Part.bytesAll parts) (documentTree parts) (n + 1) (n + 1 + name.length) :=
    .leaf (Mark.mem_leaves hmark rfl)
  have hblanks : Covered (Part.bytesAll parts) (documentTree parts) (n + 1 + name.length)
      (n + 1 + name.length + gap.length) :=
    .blanks hcall.tail.right.left hgap
  have hfront := htilde.append (hname.append hblanks)
  cases listed with
  | false => exact hfront
  | true =>
    obtain ⟨hplace, hbyte⟩ := h.skipBlanks_name hparts
    have hstart : skipBlanks (Part.bytesAll parts) (n + 1 + name.length)
        = n + 1 + name.length + gap.length := Nat.succ.inj hplace
    rw [hstart] at hbyte
    exact hfront.append (.byte (.listOpener h.has_command hstart.symm hbyte))

/-- From the last argument up to the end of the command. -/
theorem Holds.covered_tail (hparts : IsDocument parts opened)
    (h : Holds parts n (.call name gap listed args)) :
    Covered (Part.bytesAll parts) (documentTree parts)
      (argsStart n name gap listed + (Arg.bytesAll args).length)
      (n + (Part.call name gap listed args).bytes.length) := by
  rw [Part.length_bytes_call]
  cases listed with
  | false => exact .empty _
  | true =>
    have hback : Holds parts n (.call name gap true (args ++ [])) := by
      rw [List.append_nil]
      exact h
    exact .byte (.listCloser h.has_command (h.isListed hparts) (h.listStop_eq hparts).symm
      hback.at_back.head)

/-- The brackets of an argument, around what it holds. -/
theorem Holds.covered_scope {kind : Bracket} {inside : Bytes} (hparts : IsDocument parts opened)
    (h : Holds parts n (.call name gap listed (front ++ arg :: back)))
    (hbytes : arg.bytes = kind.opener :: (inside ++ [kind.closer]))
    (hkind : arg.bracket? = some kind) (harg : arg.isSeparator = false)
    (hinside : Covered (Part.bytesAll parts) (documentTree parts)
      (argsStart n name gap listed + (Arg.bytesAll front).length + 1)
      (argsStart n name gap listed + (Arg.bytesAll front).length + 1 + inside.length)) :
    Covered (Part.bytesAll parts) (documentTree parts)
      (argsStart n name gap listed + (Arg.bytesAll front).length)
      (argsStart n name gap listed + (Arg.bytesAll front).length + arg.bytes.length) := by
  obtain ⟨a, _, hmem, hspan, hbracket⟩ := h.exists_argument hparts harg
  rw [hkind] at hbracket
  have hat := at_arg h.located
  rw [hbytes] at hat
  generalize argsStart n name gap listed + (Arg.bytesAll front).length = m at *
  have hlength : m + arg.bytes.length = m + 1 + inside.length + 1 := by
    rw [hbytes, List.length_cons, List.length_append, List.length_singleton]
    omega
  rw [hlength] at hspan ⊢
  have hopener : Covered (Part.bytesAll parts) (documentTree parts) m (m + 1) :=
    .byte (.opener h.has_command hmem hbracket (by rw [hspan]) hat.head)
  have hcloser : Covered (Part.bytesAll parts) (documentTree parts) (m + 1 + inside.length)
      (m + 1 + inside.length + 1) :=
    .byte (.closer h.has_command hmem hbracket (by rw [hspan]) hat.tail.right.head)
  exact hopener.append (hinside.append hcloser)

/-- An argument that is in no bracket is a leaf by itself. -/
theorem Holds.covered_leaf (hparts : IsDocument parts opened)
    (h : Holds parts n (.call name gap listed (front ++ arg :: back)))
    (harg : arg.isSeparator = false) (hkind : arg.bracket? = none) :
    Covered (Part.bytesAll parts) (documentTree parts)
      (argsStart n name gap listed + (Arg.bytesAll front).length)
      (argsStart n name gap listed + (Arg.bytesAll front).length + arg.bytes.length) := by
  obtain ⟨a, _, hmem, hspan, hbracket⟩ := h.exists_argument hparts harg
  rw [hkind] at hbracket
  have hmark := h.has_command.marks_argument hmem a.mem_marks
  have hleaf : a.span ∈ (documentTree parts).leaves :=
    Mark.mem_leaves hmark (Argument.isLeaf_of_bracket? hbracket)
  rw [hspan] at hleaf
  exact .leaf hleaf

end Call

section Parts

variable {parts : List Part} {opened : List Bracket}

mutual

/-- Every byte of a part is covered. The four statements are proved together, on the parts and arguments
as they are written, each knowing where in the document it stands. -/
theorem Part.covered (hparts : IsDocument parts opened) : ∀ (part : Part) (n : Nat),
    Holds parts n part →
      Covered (Part.bytesAll parts) (documentTree parts) n (n + part.bytes.length)
  | .blank b, n, h => by
    obtain ⟨_, hfits⟩ := h.fits hparts
    exact .byte (.blank h.located.head hfits)
  | .text bytes, n, h => by
    have hlayer : (documentTree parts).Has (.text ⟨n, n + bytes.length⟩) := h.has rfl
    have hmark : .text ⟨n, n + bytes.length⟩ ∈ (documentTree parts).marks := by
      refine hlayer.marks ?_
      rw [Tree.marks_text]
      exact List.mem_singleton_self _
    exact .leaf (Mark.mem_leaves hmark rfl)
  | .run bracketed pieces ending, n, h => by
    have hat := h.located
    rw [Part.bytes] at hat
    -- The pieces of the run, then its line end, which is of blanks.
    have hpieces := Part.coveredAll hparts pieces n fun front part back heq => by
      subst heq
      exact h.trans (.run front back (.self _ part))
    rw [Part.bytes, List.length_append, ← Nat.add_assoc]
    refine hpieces.append (.blanks hat.right ?_)
    cases ending <;> decide
  | .call name gap listed args, n, h =>
    (h.covered_head hparts).append
      ((Arg.coveredAll hparts args [] h).append (h.covered_tail hparts))
termination_by structural part => part

theorem Part.coveredAll (hparts : IsDocument parts opened) : ∀ (inner : List Part) (n : Nat),
    (∀ front part back, inner = front ++ part :: back →
      Holds parts (n + (Part.bytesAll front).length) part) →
        Covered (Part.bytesAll parts) (documentTree parts) n (n + (Part.bytesAll inner).length)
  | [], n, _ => .empty n
  | part :: rest, n, h => by
    have hpart := Part.covered hparts part n (h [] part rest rfl)
    have hrest := Part.coveredAll hparts rest (n + part.bytes.length) fun front found back heq => by
      have hfound := h (part :: front) found back (by rw [heq, List.cons_append])
      rw [Part.bytesAll, List.length_append, ← Nat.add_assoc] at hfound
      exact hfound
    rw [Part.bytesAll, List.length_append, ← Nat.add_assoc]
    exact hpart.append hrest
termination_by structural inner => inner

theorem Arg.covered (hparts : IsDocument parts opened) : ∀ (arg : Arg) {n : Nat} {name gap : Bytes}
    {listed : Bool} {front back : List Arg},
    Holds parts n (.call name gap listed (front ++ arg :: back)) →
      Covered (Part.bytesAll parts) (documentTree parts)
        (argsStart n name gap listed + (Arg.bytesAll front).length)
        (argsStart n name gap listed + (Arg.bytesAll front).length + arg.bytes.length)
  | .blank b, n, name, gap, listed, front, back, h => by
    obtain ⟨_, _, _, _, hargs⟩ := h.fits_call hparts
    exact .byte (.blank (at_arg h.located).head (Arg.fitsAll_append.1 hargs).2.1)
  | .comma, n, name, gap, listed, front, back, h => .byte (h.isMarkup_comma hparts)
  | .ident letters, n, name, gap, listed, front, back, h => h.covered_leaf hparts rfl rfl
  | .string raw, n, name, gap, listed, front, back, h => h.covered_leaf hparts rfl rfl
  | .inline part, n, name, gap, listed, front, back, h =>
    h.covered_scope hparts rfl rfl rfl
      (Part.covered hparts part _ (h.trans (.inline front back (.self _ part))))
  | .block inner, n, name, gap, listed, front, back, h => by
    refine h.covered_scope hparts rfl rfl rfl
      (Part.coveredAll hparts inner _ fun before part after heq => ?_)
    subst heq
    -- A part of the block stands in the document because the block does.
    exact h.trans (.block front back before after (.self _ part))
termination_by structural arg => arg

theorem Arg.coveredAll (hparts : IsDocument parts opened) : ∀ (args front : List Arg) {n : Nat}
    {name gap : Bytes} {listed : Bool},
    Holds parts n (.call name gap listed (front ++ args)) →
      Covered (Part.bytesAll parts) (documentTree parts)
        (argsStart n name gap listed + (Arg.bytesAll front).length)
        (argsStart n name gap listed + (Arg.bytesAll (front ++ args)).length)
  | [], front, n, name, gap, listed, _ => by
    rw [List.append_nil]
    exact .empty _
  | arg :: rest, front, n, name, gap, listed, h => by
    have harg := Arg.covered hparts arg h
    rw [← List.singleton_append, ← List.append_assoc] at h ⊢
    have hrest := Arg.coveredAll hparts rest (front ++ [arg]) h
    rw [Arg.bytesAll_append front, Arg.bytesAll_singleton, List.length_append,
      ← Nat.add_assoc] at hrest
    exact harg.append hrest
termination_by structural args => args

end

end Parts

/-! ## Scopes and words -/

section Call

variable {parts : List Part} {opened : List Bracket} {n : Nat} {name gap : Bytes} {listed : Bool}
  {args front back : List Arg} {arg : Arg}

/-- The bytes of an argument in brackets, and where the brackets stand. -/
theorem Arg.bytes_of_bracket? {kind : Bracket} (h : arg.bracket? = some kind) :
    arg.isSeparator = false
      ∧ ∃ inside, arg.bytes = kind.opener :: (inside ++ [kind.closer]) := by
  cases arg with
  | inline part =>
    cases h
    exact ⟨rfl, part.bytes, rfl⟩
  | block inner =>
    cases h
    exact ⟨rfl, Part.bytesAll inner, rfl⟩
  | _ => cases h

/-- An argument in brackets holds the marks that are between its brackets, and no others. -/
theorem Holds.isScope {a : Argument Tree} {kind : Bracket} (hparts : IsDocument parts opened)
    (h : Holds parts n (.call name gap listed (front ++ arg :: back)))
    (ha : a ∈ arg.arguments (argsStart n name gap listed + (Arg.bytesAll front).length))
    (hkind : a.bracket? = some kind) :
    a.IsScope (Part.bytesAll parts) (documentTree parts) kind := by
  obtain ⟨harg, hspan, hbracket⟩ := h.argument_eq hparts ha
  obtain ⟨_, inside, hbytes⟩ := Arg.bytes_of_bracket? (hbracket.symm.trans hkind)
  have hat := at_arg h.located
  rw [hbytes] at hat
  -- The marks of the tree are those in front of the argument, those of the argument itself, and
  -- those after it.
  obtain ⟨before, after, hmarks, hapart⟩ := h.surrounds_arg
  have hbounds (mark : Mark) (hmark : mark ∈ a.inner) := Arg.inner_bounds harg hmark
  rw [Arg.marks, harg, List.flatMap_cons, List.flatMap_nil, List.append_nil,
    Argument.marks_of_bracket? hkind] at hmarks
  generalize argsStart n name gap listed + (Arg.bytesAll front).length = p at *
  have hlength : arg.bytes.length = inside.length + 2 := by
    rw [hbytes, List.length_cons, List.length_append, List.length_singleton]
  -- a mark of the tree is held by the argument, its own, or apart from it
  have hcases (mark : Mark) (hmark : mark ∈ (documentTree parts).marks) :
      mark ∈ a.inner ∨ Apart mark p (p + arg.bytes.length) := by
    rw [hmarks] at hmark
    rcases List.mem_append.1 hmark with hmark | hmark
    · rcases List.mem_append.1 hmark with hmark | hmark
      · exact .inr (hapart mark (List.mem_append_left _ hmark))
      · rcases List.mem_cons.1 hmark with rfl | hmark
        · refine .inr (.inr (.inr ⟨Argument.isLeaf_eq_false_of_bracket? hkind, ?_⟩))
          show a.span.start ≤ _ ∧ _ ≤ a.span.stop
          rw [hspan]
          exact ⟨Nat.le_refl _, Nat.le_refl _⟩
        · exact .inl hmark
    · exact .inr (hapart mark (List.mem_append_right _ hmark))
  constructor
  case opener =>
    rw [hspan]
    exact hat.head
  case closer =>
    rw [hspan]
    refine ⟨p + 1 + inside.length, ?_, ?_, hat.tail.right.head⟩
    · show p + 1 + inside.length + 1 = p + arg.bytes.length
      omega
    · show p < p + 1 + inside.length
      omega
  case inner =>
    intro mark hmark
    rw [hspan]
    refine ⟨hbounds mark, fun hbetween => ?_⟩
    obtain ⟨hstart, hstop⟩ : p < mark.span.start ∧ mark.span.stop < p + arg.bytes.length := hbetween
    rcases hcases mark hmark with hinner | hapart
    · exact hinner
    · have hle := ((placed_documentTree parts).bounds mark hmark).2.1
      rcases hapart with h | h | h <;> omega
  case others =>
    intro mark hmark hinner
    rw [hspan]
    exact (hcases mark hmark).resolve_left hinner

/-- Letters between bytes that are none are a word. -/
theorem isWord_of_at {source letters after : Bytes} {m : Nat} {b c : UInt8}
    (h : At source m (b :: (letters ++ c :: after))) (hletters : letters.all isLetter = true)
    (hb : isLetter b = false) (hc : isLetter c = false) :
    Span.IsWord source ⟨m + 1, m + 1 + letters.length⟩ where
  letters := by
    rw [h.tail.left.slice]
    exact hletters
  before i other hi hother := by
    have him : i = m := Nat.succ.inj hi
    rw [him, h.head] at hother
    cases hother
    exact hb
  after other hother := by
    have hnext : source[m + 1 + letters.length]? = some other := hother
    rw [h.tail.right.head] at hnext
    cases hnext
    exact hc

/-- A name ends before a blank or a bracket. -/
theorem Holds.isWord_name (hparts : IsDocument parts opened)
    (h : Holds parts n (.call name gap listed args)) :
    Span.IsWord (Part.bytesAll parts) ⟨n + 1, n + 1 + name.length⟩ := by
  obtain ⟨hname, hgap, hcall, _⟩ := h.fits_call hparts
  have hat := h.located
  have hnext : ∃ c after, (Part.call name gap listed args).bytes = tilde :: (name ++ c :: after)
      ∧ isLetter c = false := by
    cases gap with
    | cons c more =>
      rw [List.all_cons, Bool.and_eq_true] at hgap
      exact ⟨c, _, rfl, Reader.isLetter_eq_false_of_isBlank hgap.1⟩
    | nil =>
      -- With no blank between, the name runs up to the list or to its one argument.
      match listed, args, hcall with
      | true, _, _ => exact ⟨_, _, rfl, by decide⟩
      | false, [.inline part], _ => exact ⟨_, _, rfl, by decide⟩
      | false, [.block inner], _ => exact ⟨_, _, rfl, by decide⟩
  obtain ⟨c, after, hbytes, hc⟩ := hnext
  rw [hbytes] at hat
  exact isWord_of_at hat hname (by decide) hc

/-- Where an argument may be next, the list has just been opened, or the last byte is a blank or a
comma. -/
theorem Arg.last_of_inList {blocks : Bool} (h : front.foldlM Arg.inList true = some true)
    (hfits : Arg.FitsAll blocks front) :
    front = [] ∨ ∃ lead b, Arg.bytesAll front = lead ++ [b] ∧ isLetter b = false := by
  cases front using List.reverseRecOn with
  | nil => exact .inl rfl
  | append_singleton front last =>
    rw [List.foldlM_append] at h
    obtain ⟨before, _, hlast⟩ := Option.bind_eq_some_iff.1 h
    rw [Arg.bytesAll_append, Arg.bytesAll_singleton]
    -- No argument leaves the list open for another: the last part of it is a blank or a comma.
    cases last with
    | blank b =>
      have hb : isBlank b = true := (Arg.fitsAll_append.1 hfits).2.1
      exact .inr ⟨_, b, rfl, Reader.isLetter_eq_false_of_isBlank hb⟩
    | comma => exact .inr ⟨_, TildeMarkup.comma, rfl, by decide⟩
    | _ => cases before <;> cases hlast

/-- An identifier stands after the parenthesis, a comma or a blank, and before a comma, a blank or the
parenthesis. -/
theorem Holds.isWord_ident {letters : Bytes} (hparts : IsDocument parts opened)
    (h : Holds parts n (.call name gap listed (front ++ .ident letters :: back))) :
    letters ≠ [] ∧ Span.IsWord (Part.bytesAll parts)
      ⟨argsStart n name gap listed + (Arg.bytesAll front).length,
        argsStart n name gap listed + (Arg.bytesAll front).length + letters.length⟩ := by
  obtain ⟨_, _, hcall, blocks, hargs⟩ := h.fits_call hparts
  obtain ⟨rfl, before, next, hfront, hident, hback⟩ := Arg.inList_of_fitsCall hcall
    (fun _ heq => by cases heq) (fun _ heq => by cases heq)
  obtain ⟨hfits, ⟨hne, hletters⟩, hfits'⟩ := Arg.fitsAll_append.1 hargs
  obtain ⟨rfl, rfl⟩ : before = true ∧ next = false := by
    cases before <;> cases hident
    exact ⟨rfl, rfl⟩
  -- The bytes on both sides: a separator or the parenthesis behind the identifier, and in front of
  -- it a separator or the one that opens the list.
  obtain ⟨c, after, hafter, hc⟩ := head_list_not_letter hback hfits'
  obtain ⟨lead, b, hlead, hb⟩ : ∃ lead b, callHead name gap true ++ Arg.bytesAll front = lead ++ [b]
      ∧ isLetter b = false := by
    rcases Arg.last_of_inList hfront hfits with rfl | ⟨lead, b, hbytes, hb⟩
    · refine ⟨tilde :: (name ++ gap), Bracket.round.opener, ?_, by decide⟩
      rw [callHead, if_pos rfl, Arg.bytesAll, List.append_nil, List.cons_append, List.append_assoc]
    · refine ⟨callHead name gap true ++ lead, b, ?_, hb⟩
      rw [hbytes, List.append_assoc]
  have hat := h.located
  rw [Part.bytes_call_eq, Arg.bytesAll_append, Arg.bytesAll, Arg.bytes, List.append_assoc,
    ← List.append_assoc, hlead, List.append_assoc, List.append_assoc, callTail, if_pos rfl,
    hafter] at hat
  have hplace : argsStart n name gap true + (Arg.bytesAll front).length = n + lead.length + 1 := by
    have hlength := congrArg List.length hlead
    rw [List.length_append, List.length_append, List.length_singleton] at hlength
    rw [argsStart_eq]
    omega
  rw [hplace]
  exact ⟨hne, isWord_of_at hat.right hletters hb hc⟩

end Call

end Spelling

open Spelling

/-- A document as it is written is covered by its tree. -/
theorem coverage_of_isDocument {parts : List Part} {opened : List Bracket}
    (hparts : IsDocument parts opened) : Coverage (Part.bytesAll parts) (documentTree parts) where
  ordered := (placed_documentTree parts).leaves.pairwise
  within span hspan := ((placed_documentTree parts).leaves.bounds hspan).2
  covered := by
    have hcovered := Part.coveredAll hparts parts 0 fun front part back heq => by
      rw [Nat.zero_add]
      exact ⟨front, part, back, heq, .self _ part⟩
    rw [Nat.zero_add] at hcovered
    exact fun i hi => hcovered i (Nat.zero_le i) hi
  scopes := by
    intro name args arg kind h harg hkind
    -- Every command of the tree is one that the spelling holds, so what is known of those carries
    -- over.
    obtain ⟨m, letters, gap, listed, spelled, hholds, _, rfl⟩ := holds_command h
    obtain ⟨front, found, back, rfl, hfound⟩ := Arg.exists_of_mem_argumentsAll harg
    exact hholds.isScope hparts hfound hkind
  names := by
    intro name args h
    obtain ⟨m, letters, gap, listed, spelled, hholds, rfl, _⟩ := holds_command h
    exact hholds.isWord_name hparts
  idents := by
    intro name args span h harg
    obtain ⟨m, letters, gap, listed, spelled, hholds, _, rfl⟩ := holds_command h
    obtain ⟨front, found, back, rfl, hfound⟩ := Arg.exists_of_mem_argumentsAll harg
    cases found with
    -- Only an identifier is written as an identifier.
    | ident word =>
      cases List.mem_singleton.1 hfound
      obtain ⟨hne, hword⟩ := hholds.isWord_ident hparts
      have hpos := List.length_pos_iff.2 hne
      exact ⟨Nat.lt_add_of_pos_right hpos, hword⟩
    | inline part =>
      obtain ⟨_, _, heq⟩ := List.mem_map.1 hfound
      cases heq
    | _ => cases hfound <;> rename_i hfound <;> cases hfound

/-- No byte of a source that parses is lost or read twice. -/
theorem parse_covers {source : Bytes} {arena : Arena} (h : parse source = .ok arena) :
    ∃ tree, arena.tree = .ok tree ∧ Coverage source tree := by
  obtain ⟨parts, opened, hparts, rfl, rfl⟩ := spelled_of_parse h
  exact ⟨_, Arena.tree_toArena _, coverage_of_isDocument hparts⟩

/-- The text `x ` and the command `~a(b, [~c[]])`, with a comma, blanks and brackets of all kinds of
argument around its leaves. -/
def coverageSample : Bytes :=
  [0x78, 0x20, tilde, 0x61, 0x28, 0x62, comma, 0x20, 0x5b, tilde, 0x63, 0x5b, 0x5d, 0x5d, 0x29]

theorem parse_covers_sample :
    ∃ arena, parse coverageSample = .ok arena
      ∧ ∃ tree, arena.tree = .ok tree ∧ Coverage coverageSample tree := by
  obtain ⟨arena, h⟩ : ∃ arena, parse coverageSample = .ok arena := ⟨_, rfl⟩
  exact ⟨arena, h, parse_covers h⟩

end TildeMarkup
