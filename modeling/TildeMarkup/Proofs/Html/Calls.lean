import TildeMarkup.Proofs.Html.Local

/-!
# Calls that can be rendered

When a command can be rendered, and what is said of one that cannot.

* `Html.ValidCall`: the name is that of a command, the arguments are those that its parameters ask
  for, and the file of a listing has the extension of a known language.
* `Html.FirstFault`: the first of these that fails, in that order, with the place that is shown for it.

The check before a command is rendered decides between the two (`checkCommand_eq_ok`,
`checkCommand_eq_error`).
-/

namespace TildeMarkup

/-! ## The extension of a file -/

namespace Listing

/-- The extension stands behind the last dot of the name. -/
def HasExtension (file extension : String) : Prop :=
  ∃ stem, file.toList = stem ++ '.' :: extension.toList ∧ '.' ∉ extension.toList

/-- What is in front of a dot, if it holds none itself. -/
theorem takeWhile_dot {front back : List Char} (h : '.' ∉ front) :
    (front ++ '.' :: back).takeWhile (· != '.') = front := by
  rw [List.takeWhile_append_of_pos, List.takeWhile_cons_of_neg (by decide), List.append_nil]
  intro c hc
  exact bne_iff_ne.2 fun heq => h (heq ▸ hc)

/-- A name without a dot has no extension, and no other has none. -/
theorem extension?_eq_none {file : String} : extension? file = none ↔ '.' ∉ file.toList := by
  rw [extension?]
  split <;> simp_all

/-- The extension that is looked for is the one behind the last dot. -/
theorem extension?_eq_some {file extension : String} :
    extension? file = some extension ↔ HasExtension file extension := by
  constructor
  · intro h
    have hdot : '.' ∈ file.toList := Classical.byContradiction fun hnone => by
      rw [extension?_eq_none.2 hnone] at h
      cases h
    -- the last dot is the first one from behind
    obtain ⟨front, back, hsplit, hfront⟩ := List.eq_append_cons_of_mem (List.mem_reverse.2 hdot)
    rw [extension?, if_pos (List.contains_iff_mem.2 hdot), hsplit, takeWhile_dot hfront] at h
    cases h
    refine ⟨back.reverse, ?_, ?_⟩
    · have hfile := congrArg List.reverse hsplit
      rw [List.reverse_reverse, List.reverse_append, List.reverse_cons, List.append_assoc,
        List.singleton_append] at hfile
      rw [hfile, String.toList_ofList]
    · rw [String.toList_ofList, List.mem_reverse]
      exact hfront
  · rintro ⟨stem, hfile, hdot⟩
    rw [extension?, hfile, if_pos (by simp), List.reverse_append, List.reverse_cons,
      List.append_assoc, List.singleton_append, takeWhile_dot (by simpa using hdot),
      List.reverse_reverse, String.ofList_toList]

/-- The extension that is shown: that of the file, or none. -/
theorem getD_extension? {file extension : String} :
    (extension? file).getD "" = extension
      ↔ HasExtension file extension ∨ ('.' ∉ file.toList ∧ extension = "") := by
  cases hfile : extension? file with
  | none =>
    have hnone (found : String) : ¬ HasExtension file found := fun hfound => by
      rw [extension?_eq_some.2 hfound] at hfile
      cases hfile
    rw [Option.getD_none, or_iff_right (hnone extension), and_iff_right (extension?_eq_none.1 hfile),
      eq_comm]
  | some found =>
    have hdot : '.' ∈ file.toList := Classical.byContradiction fun hdot => by
      rw [extension?_eq_none.2 hdot] at hfile
      cases hfile
    rw [Option.getD_some, or_iff_left (fun h => h.1 hdot), ← extension?_eq_some, hfile,
      Option.some.injEq]

/-- A language is known exactly if the extension is in the table. -/
theorem isSome_language? {file : String} :
    (language? file).isSome = true ↔ ∃ extension ∈ languages.map Prod.fst,
      HasExtension file extension := by
  -- A table is looked up by its first parts.
  have hlookup (extension : String) :
      (languages.lookup extension).isSome = true ↔ extension ∈ languages.map Prod.fst := by
    rw [List.lookup_isSome_iff, List.mem_map]
    exact exists_congr fun pair => and_congr_right fun _ => beq_iff_eq.trans eq_comm
  rw [language?]
  cases hfile : extension? file with
  | none =>
    constructor
    · intro h
      cases h
    · rintro ⟨extension, _, hextension⟩
      rw [extension?_eq_some.2 hextension] at hfile
      cases hfile
  | some found =>
    refine (hlookup found).trans ⟨fun h => ⟨found, h, extension?_eq_some.1 hfile⟩, ?_⟩
    rintro ⟨extension, hmem, hextension⟩
    rw [extension?_eq_some.2 hextension] at hfile
    cases hfile
    exact hmem

end Listing

namespace Builtin

/-- Only a registered command is found. -/
theorem mem_all_of_find? {name : String} {builtin : Builtin} (h : find? name = some builtin) :
    builtin ∈ all :=
  List.mem_of_find?_eq_some h

/-- Of all commands only one gives a listing. -/
theorem form_eq_listing_iff {builtin : Builtin} (h : builtin ∈ all) :
    builtin.form = .listing ↔ builtin.name = "codeblock" := by
  revert builtin
  decide

end Builtin

namespace Html

/-! ## Valid calls -/

section Call

variable {α : Type}

/-- The command can be rendered: its name is registered, there is one argument for every parameter and
of its kind, and the file name of a listing has the extension of a known language. -/
def ValidCall (source : Bytes) (name : Span) (args : List (Argument α)) : Prop :=
  ∃ builtin, Builtin.find? (commandName source name) = some builtin
    ∧ args.map Argument.kind = builtin.params.map Parameter.kind
    ∧ (builtin.name = "codeblock" → ∀ file rest, args = .string file :: rest →
      ∃ extension ∈ Listing.languages.map Prod.fst,
        Listing.HasExtension (stringText source file) extension)

/-- The first thing that keeps a command from being rendered, and where it is shown. -/
inductive FirstFault (source : Bytes) (name : Span) (args : List (Argument α)) : Fault → Prop where
  | unknownCommand (h : Builtin.find? (commandName source name) = none) :
      FirstFault source name args ⟨.unknownCommand (commandName source name), name⟩
  | argumentCount {builtin : Builtin}
      (h : Builtin.find? (commandName source name) = some builtin)
      (hcount : args.length ≠ builtin.params.length) :
      FirstFault source name args ⟨.argumentCount builtin.params.length args.length, name⟩
  | argumentKind {builtin : Builtin} {arg : Argument α} {param : Parameter} (i : Nat)
      (h : Builtin.find? (commandName source name) = some builtin)
      (hcount : args.length = builtin.params.length)
      (harg : args[i]? = some arg) (hparam : builtin.params[i]? = some param)
      (hkind : arg.kind ≠ param.kind)
      (hleft : (args.take i).map Argument.kind = (builtin.params.take i).map Parameter.kind) :
      FirstFault source name args ⟨.argumentKind param.kind, arg.span⟩
  | unknownLanguage {builtin : Builtin} {file : Span} {rest : List (Argument α)} {extension : String}
      (h : Builtin.find? (commandName source name) = some builtin)
      (hkinds : args.map Argument.kind = builtin.params.map Parameter.kind)
      (hname : builtin.name = "codeblock") (hargs : args = .string file :: rest)
      (hunknown : ∀ known ∈ Listing.languages.map Prod.fst,
        ¬ Listing.HasExtension (stringText source file) known)
      (hextension : Listing.HasExtension (stringText source file) extension
        ∨ ('.' ∉ (stringText source file).toList ∧ extension = "")) :
      FirstFault source name args ⟨.unknownLanguage extension, file⟩

/-! ## What is below a call

The nodes inside of the arguments have no part in the check.
-/

/-- Kinds do not tell what is in an argument. -/
theorem checkKinds_map {β : Type} (f : α → β) (params : List Parameter) (args : List (Argument α)) :
    checkKinds params (args.map (Argument.map f)) = checkKinds params args := by
  induction args generalizing params with
  | nil => cases params <;> rfl
  | cons arg rest ih =>
    cases params with
    | nil => rfl
    | cons param more =>
      rw [List.map_cons, checkKinds, checkKinds, ih, Argument.kind_map, Argument.span_map]

/-- Of the arguments only the file of a listing is read, and nothing is in that. -/
theorem checkLanguage_map {β : Type} (f : α → β) (source : Bytes) (builtin : Builtin)
    (args : List (Argument α)) :
    checkLanguage source builtin (args.map (Argument.map f)) = checkLanguage source builtin args := by
  by_cases hfile : builtin.form = .listing ∧ ∃ file rest, args = .string file :: rest
  · obtain ⟨hform, file, rest, rfl⟩ := hfile
    rw [List.map_cons, Argument.map, checkLanguage_string hform, checkLanguage_string hform]
  · have hnone : builtin.form = .listing → ∀ file rest, args ≠ .string file :: rest :=
      fun hform file rest hargs => hfile ⟨hform, file, rest, hargs⟩
    rw [checkLanguage_eq_ok hnone, checkLanguage_eq_ok]
    intro hform file rest hargs
    cases args with
    | nil => cases hargs
    | cons arg more =>
      cases arg with
      | string span => exact hnone hform span more rfl
      | _ => cases hargs

theorem checkCommand_map {β : Type} (f : α → β) (source : Bytes) (name : Span)
    (args : List (Argument α)) :
    checkCommand source name (args.map (Argument.map f)) = checkCommand source name args := by
  simp only [checkCommand, checkArguments, checkKinds_map, checkLanguage_map, List.length_map]

/-! ## What the check finds -/

variable {source : Bytes} {name : Span} {args : List (Argument α)} {fault : Fault}

/-- The kinds go through where each argument is of the kind of its parameter. -/
theorem checkKinds_eq_ok {params : List Parameter} (hcount : args.length = params.length) :
    checkKinds params args = .ok () ↔ args.map Argument.kind = params.map Parameter.kind := by
  induction args generalizing params with
  | nil =>
    cases params with
    | nil => exact ⟨fun _ => rfl, fun _ => rfl⟩
    | cons => cases hcount
  | cons arg rest ih =>
    cases params with
    | nil => cases hcount
    | cons param more =>
      rw [checkKinds, List.map_cons, List.map_cons, List.cons.injEq, ← ih (Nat.succ.inj hcount)]
      split
      · next hkind => exact ⟨fun h => ⟨hkind, h⟩, fun h => h.2⟩
      · next hkind => exact iff_of_false (fun h => by cases h) fun h => hkind h.1

/-- The leftmost argument of a wrong kind is the one that is found. -/
theorem checkKinds_eq_error {params : List Parameter} :
    checkKinds params args = .error fault ↔ ∃ i arg param, args[i]? = some arg
      ∧ params[i]? = some param ∧ arg.kind ≠ param.kind
      ∧ (args.take i).map Argument.kind = (params.take i).map Parameter.kind
      ∧ fault = ⟨.argumentKind param.kind, arg.span⟩ := by
  induction args generalizing params with
  | nil => cases params <;> simp [checkKinds]
  | cons arg rest ih =>
    cases params with
    | nil => simp [checkKinds]
    | cons param more =>
      rw [checkKinds]
      split
      · next hkind =>
        rw [ih]
        constructor
        · rintro ⟨i, found, wanted, hfound, hwanted, hne, hleft, hfault⟩
          refine ⟨i + 1, found, wanted, hfound, hwanted, hne, ?_, hfault⟩
          rw [List.take_succ_cons, List.take_succ_cons, List.map_cons, List.map_cons, hkind, hleft]
        · rintro ⟨i, found, wanted, hfound, hwanted, hne, hleft, hfault⟩
          -- it is not the first argument, which is of its kind
          cases i with
          | zero =>
            cases hfound
            cases hwanted
            exact absurd hkind hne
          | succ i => exact ⟨i, found, wanted, hfound, hwanted, hne, (List.cons.inj hleft).2, hfault⟩
      · next hkind =>
        constructor
        · intro h
          cases h
          exact ⟨0, arg, param, rfl, rfl, hkind, rfl, rfl⟩
        · rintro ⟨i, found, wanted, hfound, hwanted, _, hleft, rfl⟩
          cases i with
          | zero =>
            cases hfound
            cases hwanted
            rfl
          | succ i => exact absurd (List.cons.inj hleft).1 hkind

/-- As many arguments as parameters, and each of the kind of its own. -/
theorem checkArguments_eq_ok {builtin : Builtin} :
    checkArguments builtin name args = .ok ()
      ↔ args.map Argument.kind = builtin.params.map Parameter.kind := by
  rw [checkArguments]
  split
  · next hcount => exact checkKinds_eq_ok hcount
  · next hcount =>
    refine iff_of_false (fun h => by cases h) fun h => hcount ?_
    have hlength := congrArg List.length h
    rwa [List.length_map, List.length_map] at hlength

/-- The language counts for a listing only, whose first argument is the file. -/
theorem checkLanguage_eq_ok_iff {builtin : Builtin} (hbuiltin : builtin ∈ Builtin.all) :
    checkLanguage source builtin args = .ok () ↔ (builtin.name = "codeblock" →
      ∀ file rest, args = .string file :: rest →
        ∃ extension ∈ Listing.languages.map Prod.fst,
          Listing.HasExtension (stringText source file) extension) := by
  rw [← Builtin.form_eq_listing_iff hbuiltin]
  by_cases hfile : builtin.form = .listing ∧ ∃ file rest, args = .string file :: rest
  · obtain ⟨hform, file, rest, rfl⟩ := hfile
    rw [checkLanguage_string hform]
    split
    · next hknown =>
      refine ⟨fun _ _ other more hargs => ?_, fun _ => rfl⟩
      cases hargs
      exact Listing.isSome_language?.1 hknown
    · next hknown =>
      refine iff_of_false (fun h => by cases h) fun h => hknown ?_
      exact Listing.isSome_language?.2 (h hform file rest rfl)
  · have hnone : builtin.form = .listing → ∀ file rest, args ≠ .string file :: rest :=
      fun hform file rest hargs => hfile ⟨hform, file, rest, hargs⟩
    rw [checkLanguage_eq_ok hnone]
    exact ⟨fun _ hform file rest hargs => absurd hargs (hnone hform file rest), fun _ => rfl⟩

/-- A language is not known if the file has another extension than those in the table, or none. The fault
has the extension that the file does have. -/
theorem checkLanguage_eq_error {builtin : Builtin} (hbuiltin : builtin ∈ Builtin.all) :
    checkLanguage source builtin args = .error fault ↔ ∃ file rest extension,
      builtin.name = "codeblock" ∧ args = .string file :: rest
      ∧ (∀ known ∈ Listing.languages.map Prod.fst,
        ¬ Listing.HasExtension (stringText source file) known)
      ∧ (Listing.HasExtension (stringText source file) extension
        ∨ ('.' ∉ (stringText source file).toList ∧ extension = ""))
      ∧ fault = ⟨.unknownLanguage extension, file⟩ := by
  constructor
  · intro h
    by_cases hfile : builtin.form = .listing ∧ ∃ file rest, args = .string file :: rest
    · obtain ⟨hform, file, rest, rfl⟩ := hfile
      rw [checkLanguage_string hform] at h
      split at h
      · cases h
      · next hunknown =>
        cases h
        refine ⟨file, rest, _, (Builtin.form_eq_listing_iff hbuiltin).1 hform, rfl, ?_, ?_, rfl⟩
        · exact fun known hmem hknown => hunknown (Listing.isSome_language?.2 ⟨known, hmem, hknown⟩)
        · exact Listing.getD_extension?.1 rfl
    · rw [checkLanguage_eq_ok fun hform file rest hargs => hfile ⟨hform, file, rest, hargs⟩] at h
      cases h
  · rintro ⟨file, rest, extension, hname, rfl, hunknown, hextension, rfl⟩
    have hform := (Builtin.form_eq_listing_iff hbuiltin).2 hname
    rw [checkLanguage_string hform, Listing.getD_extension?.2 hextension, if_neg]
    intro hsome
    obtain ⟨known, hmem, hknown⟩ := Listing.isSome_language?.1 hsome
    exact hunknown known hmem hknown

/-- A command passes its check exactly if it is valid. -/
theorem checkCommand_eq_ok :
    checkCommand source name args = .ok () ↔ ValidCall source name args := by
  rw [checkCommand, ValidCall]
  cases hfind : Builtin.find? (commandName source name) with
  | none =>
    constructor
    · intro h
      cases h
    · rintro ⟨_, hfound, _⟩
      cases hfound
  | some builtin =>
    have hbuiltin := Builtin.mem_all_of_find? hfind
    have harguments : checkArguments builtin name args = .ok () ↔ _ := checkArguments_eq_ok
    simp only [Option.some.injEq, exists_eq_left', ← harguments, ← checkLanguage_eq_ok_iff hbuiltin]
    -- The arguments are checked first; their failure hides that of the language.
    cases checkArguments builtin name args with
    | error found => exact iff_of_false (fun h => by cases h) fun h => by cases h.1
    | ok _ => exact ⟨fun h => ⟨rfl, h⟩, fun h => h.2⟩

/-- A command that does not pass is refused for the first thing that fails. -/
theorem checkCommand_eq_error :
    checkCommand source name args = .error fault ↔ FirstFault source name args fault := by
  constructor
  · intro h
    rw [checkCommand] at h
    -- From the check to the fault: in the order in which things are checked.
    cases hfind : Builtin.find? (commandName source name) with
    | none =>
      rw [hfind] at h
      cases h
      exact .unknownCommand hfind
    | some builtin =>
      rw [hfind] at h
      have hbuiltin := Builtin.mem_all_of_find? hfind
      cases harguments : checkArguments builtin name args with
      | error found =>
        have hfault : found = fault := by
          simp only [harguments] at h
          exact Except.error.inj h
        rw [hfault, checkArguments] at harguments
        split at harguments
        · next hcount =>
          obtain ⟨i, arg, param, harg, hparam, hkind, hleft, rfl⟩ := checkKinds_eq_error.1 harguments
          exact .argumentKind i hfind hcount harg hparam hkind hleft
        · next hcount =>
          cases harguments
          exact .argumentCount hfind hcount
      | ok _ =>
        have hlanguage : checkLanguage source builtin args = .error fault := by
          simp only [harguments] at h
          exact h
        obtain ⟨file, rest, extension, hname, hargs, hunknown, hextension, rfl⟩ :=
          (checkLanguage_eq_error hbuiltin).1 hlanguage
        exact .unknownLanguage hfind (checkArguments_eq_ok.1 harguments) hname hargs hunknown
          hextension
  · intro h
    -- each check goes through up to the one that fails
    cases h with
    | unknownCommand hfind => rw [checkCommand, hfind]
    | argumentCount hfind hcount =>
      rw [checkCommand, hfind]
      simp only [checkArguments, if_neg hcount]
      rfl
    | argumentKind i hfind hcount harg hparam hkind hleft =>
      have hkinds := checkKinds_eq_error.2 ⟨i, _, _, harg, hparam, hkind, hleft, rfl⟩
      rw [checkCommand, hfind]
      simp only [checkArguments, if_pos hcount, hkinds]
      rfl
    | unknownLanguage hfind hkinds hname hargs hunknown hextension =>
      have hlanguage := (checkLanguage_eq_error (Builtin.mem_all_of_find? hfind)).2
        ⟨_, _, _, hname, hargs, hunknown, hextension, rfl⟩
      rw [checkCommand, hfind]
      simp only [checkArguments_eq_ok.2 hkinds]
      exact hlanguage

end Call

end Html

end TildeMarkup
