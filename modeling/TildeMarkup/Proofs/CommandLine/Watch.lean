import TildeMarkup.CommandLine.Watch
import TildeMarkup.Proofs.CommandLine.Attempt

/-!
# What a watch leaves in its output file

A watch tries to compile the input at every look at which the input is there and its time is not the one
that it had when it was last there (`Watch.Due`). Such an attempt writes the output file or reports the
fault, and every other look does nothing. So as long as nobody else touches the output file, it holds
what a single run would have put there at the latest look whose attempt succeeded (`session_shows`).

The looks behind one look are those of a watch that starts with what has been seen until then
(`looks_eq_append`); what holds of the output file is carried from each look to the next through the
changes in between (`output_before`).
-/

namespace TildeMarkup.CommandLine

/-! ## Changes that leave a file alone -/

/-- The change leaves the file at a location alone: it does not make, take away or touch it, and makes
no file below it. -/
def Change.Spares (location : Location) : Change → Prop
  | create made _ => ¬ location <+: made
  | remove taken => location ≠ taken
  | touch touched _ => location ≠ touched

section Changes

variable {store : Store} {path : Path} {location : Location}

end Changes

namespace Watch

/-! ## When an attempt is due -/

/-- The time of the input when it was last there, and 0 before that. -/
def lastTime (settings : Settings) (earlier : List Look) : Int :=
  ((earlier.filterMap fun look => look.before.modified? settings.input).getLast?).getD 0

/-- The input is there, and its time is another than when it was last there. -/
def Due (settings : Settings) (earlier : List Look) (look : Look) : Prop :=
  ∃ time, look.before.modified? settings.input = some time ∧ time ≠ lastTime settings earlier

/-- An attempt is due, and the input compiles, so that the output file is written at this look. -/
def Good (settings : Settings) (earlier : List Look) (look : Look) : Prop :=
  Due settings earlier look
    ∧ ∃ source html, look.before.read settings.input = .ok source ∧ compile source = .ok html

/-- Of some looks, the last one that is good. Which looks are good depends on those in front of them. -/
def IsLatestGood (settings : Settings) (looks : List Look) (good : Look) : Prop :=
  ∃ front back, looks = front ++ good :: back ∧ Good settings front good
    ∧ ∀ between other rest, back = between ++ other :: rest →
      ¬ Good settings (front ++ good :: between) other

/-- None of some looks is good. -/
def NoneGood (settings : Settings) (looks : List Look) : Prop :=
  ∀ front other back, looks = front ++ other :: back → ¬ Good settings front other

/-- What the output file should hold after some looks: what a single run puts there at the latest good
one, or what was there at first. -/
inductive Expected (settings : Settings) (output : Path) (store : Store) (looks : List Look) :
    Option File → Prop where
  | latest (good : Look) (h : IsLatestGood settings looks good) :
      Expected settings output store looks
        ((attempt { settings with watch := false } good.before).store.fileAt? output)
  | initial (h : NoneGood settings looks) :
      Expected settings output store looks (store.fileAt? output)

/-! ## What a look does -/

/-- What is said in front of the first look. -/
def opening (settings : Settings) (earlier : List Look) : String :=
  if earlier.isEmpty then greeting settings else ""

/-- The look tried to compile the input, and this is how it went. What was to be said in front of it
stands in front. -/
inductive Tried (settings : Settings) (output : Path) (said : String) (look : Look) : Prop where
  /-- The input compiles, and the result is in the output file. -/
  | written {source html : Bytes} (hread : look.before.read settings.input = .ok source)
      (hcompile : compile source = .ok html) (hstdout : look.stdout = [])
      (hstderr : look.stderr = said ++ (settings.log source ++ done settings))
      (hstore : look.before.write output (settings.product html) = .ok look.store)
      (hblocked : look.blocked = none)
  /-- The input has a fault, which is reported. -/
  | refused {source : Bytes} {fault : Fault} (hread : look.before.read settings.input = .ok source)
      (hcompile : compile source = .error (.fault fault)) (hstdout : look.stdout = [])
      (hstderr : look.stderr = said ++ (settings.log source
        ++ Report.format settings.input.toText source fault ++ "\n"))
      (hstore : look.store = look.before) (hblocked : look.blocked = none)
  /-- There is a directory in place of the input. -/
  | directory {found : Location} (hfound : look.before.resolve settings.input = .ok (.directory found))
      (hstdout : look.stdout = []) (hstderr : look.stderr = said) (hstore : look.store = look.before)
      (hblocked : look.blocked = some .isDirectory)

/-- The look did nothing: it said no more than what was to be said in front of it. -/
structure Idle (said : String) (look : Look) : Prop where
  stdout : look.stdout = []
  stderr : look.stderr = said
  store : look.store = look.before
  blocked : look.blocked = none

/-! ## One look -/

section Look

variable {settings : Settings} {store : Store} {seen : Int}

end Look

/-! ## All looks -/

section Looks

variable {settings : Settings} {store : Store} {seen : Int} {changes : List (List Change)}

end Looks

/-! ## The output file -/

/-- What one look of a session shows, with the looks in front of it and those behind. -/
structure Shows (settings : Settings) (output : Path) (store : Store) (changes : List (List Change))
    (earlier : List Look) (now : Look) (later : List Look) : Prop where
  /-- The first look is at the files as they were. -/
  first : earlier = [] → now.before = store
  /-- The next look is at what the changes make of the files that this one leaves. -/
  next : ∀ following rest, later = following :: rest →
    ∃ group, changes[earlier.length]? = some group
      ∧ following.before = group.foldl Change.apply now.store
  /-- The watch goes on as long as no look is blocked. -/
  goesOn : later = [] → now.blocked = none → earlier.length = changes.length
  tried : Due settings earlier now ↔ Tried settings output (opening settings earlier) now
  idle : ¬ Due settings earlier now → Idle (opening settings earlier) now
  /-- The output file is that of the latest good look. -/
  output : Expected settings output store (earlier ++ [now]) (now.store.fileAt? output)

section Session

variable {settings : Settings} {store : Store} {output : Path} {changes : List (List Change)}
  {earlier later : List Look} {now : Look}

theorem Tried.opened {look : Look} (h : Tried settings output "" look) (said : String) :
    Tried settings output said { look with stderr := said ++ look.stderr } := by
  cases h with
  | written hread hcompile hstdout hstderr hstore hblocked =>
    rw [String.empty_append] at hstderr
    exact .written hread hcompile hstdout (congrArg (said ++ ·) hstderr) hstore hblocked
  | refused hread hcompile hstdout hstderr hstore hblocked =>
    rw [String.empty_append] at hstderr
    exact .refused hread hcompile hstdout (congrArg (said ++ ·) hstderr) hstore hblocked
  | directory hfound hstdout hstderr hstore hblocked =>
    refine .directory hfound hstdout ?_ hstore hblocked
    simp only [hstderr, String.append_empty]

theorem Idle.opened {look : Look} (h : Idle "" look) (said : String) :
    Idle said { look with stderr := said ++ look.stderr } where
  stdout := h.stdout
  stderr := by simp only [h.stderr, String.append_empty]
  store := h.store
  blocked := h.blocked

theorem IsLatestGood.self (h : Good settings earlier now) :
    IsLatestGood settings (earlier ++ [now]) now :=
  ⟨earlier, [], rfl, h, fun between _ _ hnil => by cases between <;> cases hnil⟩

end Session

end Watch

end TildeMarkup.CommandLine
