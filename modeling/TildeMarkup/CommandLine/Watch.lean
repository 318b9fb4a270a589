import TildeMarkup.CommandLine.Run

/-!
# Watching

A watch looks at the input again and again, and compiles it whenever its time is not the one last
seen. The time last seen is 0 at first. While the input is missing nothing happens, and a source
that is refused is not tried again before its time changes.
-/

namespace TildeMarkup.CommandLine

/-- A change to the files that comes from outside. -/
inductive Change where
  | create (location : Location) (content : Bytes)
  | remove (location : Location)
  | touch (location : Location) (time : Int)
  deriving DecidableEq, Repr

/-- The files after a change. -/
def Change.apply (store : Store) : Change → Store
  | create location content => store.create location content
  | remove location => store.remove location
  | touch location time => store.touch location time

/-- One look at the input: what was put out, the files before and after, and the time of the input
that was seen last. -/
structure Look where
  seen : Int
  stdout : Bytes
  stderr : String
  before : Store
  store : Store
  /-- The watch cannot go on. -/
  blocked : Option StoreFault

namespace Watch

/-- What a watch says at its start. -/
def greeting (settings : Settings) : String :=
  "Watching " ++ settings.input.toText ++ " for changes...\n"

/-- What a watch says when it has compiled the input. -/
def done (settings : Settings) : String :=
  "Compiled " ++ settings.input.toText ++ "\n"

/-- Compiles the input after a change. -/
def refresh (settings : Settings) (time : Int) (store : Store) : Look :=
  let result := attempt settings store
  let look : Look :=
    { seen := time, stdout := result.stdout, stderr := result.stderr
      before := store, store := result.store, blocked := none }
  match result.verdict with
  | .written => { look with stderr := look.stderr ++ done settings }
  | .refused _ => look
  | .blocked fault => { look with blocked := some fault }

/-- Looks at the input. -/
def look (settings : Settings) (seen : Int) (store : Store) : Look :=
  let idle : Look :=
    { seen, stdout := [], stderr := "", before := store, store, blocked := none }
  -- An input that is missing is looked for again next time, and the time last seen is kept.
  match store.modified? settings.input with
  | none => idle
  | some time => if time = seen then idle else refresh settings time store

/-- Looks at the input, and once more after each group of changes. A watch that is blocked looks no
more. -/
def looks (settings : Settings) (seen : Int) (store : Store) : List (List Change) → List Look
  | [] => [look settings seen store]
  | changes :: rest =>
    let now := look settings seen store
    -- What cannot be read or written is not caught, so it is the last thing that a watch does.
    match now.blocked with
    | some _ => [now]
    | none => now :: looks settings now.seen (changes.foldl Change.apply now.store) rest

/-- All that a watch does, from its start on. -/
def session (settings : Settings) (store : Store) (changes : List (List Change)) : List Look :=
  match looks settings 0 store changes with
  | [] => []
  | first :: rest => { first with stderr := greeting settings ++ first.stderr } :: rest

end Watch

end TildeMarkup.CommandLine
