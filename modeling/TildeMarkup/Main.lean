import TildeMarkup.CommandLine.Run
import TildeMarkup.CommandLine.Watch

/-!
# The program

What is left to do around a run: to take the files that it names from the disk into a store, and to put
out what the run says. A watch takes a new store twice a second and looks at it once.

Stores know no absolute paths, so the program finds its files below the working directory, or on a way
that leads out of it by double dots.
-/

namespace TildeMarkup.CommandLine

/-! ## What the program says by itself -/

/-- How the program is called. -/
def usage : String :=
  "usage: tilde-markup [" ++ "] [".intercalate (Switch.long.map Prod.fst) ++ "] input\n"

/-- Why the words are refused. -/
def Refusal.message : Refusal → String
  | ambiguous word => "ambiguous option: " ++ word
  | missingValue switch =>
    let names := (Switch.long.filter fun entry => entry.2 = switch).map Prod.fst
    "expected a value after " ++ " or ".intercalate names
  | unexpectedValue word => "unexpected value: " ++ word
  | unrecognized words => "unrecognized arguments: " ++ " ".intercalate words
  | missingInput => "an input is required"

/-- Why a file cannot be read or written. -/
def faultMessage : StoreFault → String
  | .notFound => "no such file or directory"
  | .isDirectory => "is a directory"
  | .notDirectory => "not a directory"

/-- Why a configuration gives no settings. -/
def ConfigFault.message : ConfigFault → String
  | notUtf8 => "the config file is not UTF-8"
  | invalid problem => problem.message
  | tooManyDigits => "an integer in the config file has too many digits"

/-- The exit code of the program. It is one for an ending that has none of its own. -/
def Ending.code : Ending → UInt32
  | exit code => UInt32.ofNat code
  | blocked _ | unsettled _ => 1

/-- What is still to be said about an ending that the run says nothing about. -/
def Ending.remark : Ending → String
  | exit _ => ""
  | blocked fault => "error: " ++ faultMessage fault ++ "\n"
  | unsettled fault => "error: " ++ fault.message ++ "\n"

/-! ## From the disk and back -/

/-- The name of a location for the system. -/
def onDisk (location : Location) : String :=
  if location.isEmpty then "." else "/".intercalate location

/-- What is known of a location, if there is anything. -/
def metadata? (location : Location) : IO (Option IO.FS.Metadata) := do
  let .ok path ← (IO.FS.realPath (onDisk location)).toBaseIO | return none
  let .ok found ← path.metadata.toBaseIO | return none
  return some found

/-- A time as a number, zero for the time that nothing has been seen at. -/
def ticks (time : IO.FS.SystemTime) : Int :=
  time.sec * 1000000000 + time.nsec.toNat

/-- Takes over what there is along some parts, from a directory on. The way ends at the first part that
is no directory. -/
def loadFrom (store : Store) (location : Location) : List String → IO Store
  | [] => return store
  | part :: rest => do
    let next := Store.advance location part
    let some found ← metadata? next | return store
    match found.type with
    | .dir => loadFrom { store with directories := next :: store.directories } next rest
    | _ =>
      let content ← IO.FS.readBinFile (onDisk next)
      return store.put next ⟨content.toList, ticks found.modified⟩

/-- The store that has what some paths lead to. What is written into it is newer than all that it has. -/
def snapshot (paths : List Path) : IO Store := do
  let relative := paths.filter fun path => path.root.isEmpty
  let store ← relative.foldlM (fun store path => loadFrom store [] path.parts) (Store.empty 0)
  -- A file that is written gets the time of the clock, so a look sees it as a change.
  let newest := (store.files.map fun entry => entry.2.modified).foldl max 0
  return { store with clock := newest + 1 }

/-- Puts out what comes of a run, or of a look: the files that were written, the log and the result. -/
def putOut (before after : Store) (stderr : String) (stdout : Bytes) : IO Unit := do
  for (location, file) in after.files do
    -- Only what the run has changed is written back.
    unless before.file? location = some file do
      IO.FS.writeBinFile (onDisk location) (ByteArray.mk file.content.toArray)
  IO.eprint stderr
  let out ← IO.getStdout
  out.write (ByteArray.mk stdout.toArray)
  out.flush

/-! ## Runs and watches -/

/-- The paths that a run reads and writes. -/
def Settings.paths (settings : Settings) : List Path :=
  settings.input :: settings.output.toList

/-- Ends the program as a run says. -/
def conclude (store : Store) : Except Stop Outcome → IO UInt32
  | .error .help => do
    IO.print usage
    return 0
  | .error (.refused refusal) => do
    IO.eprint (usage ++ "error: " ++ refusal.message ++ "\n")
    return 2
  | .ok outcome => do
    putOut store outcome.store outcome.stderr outcome.stdout
    IO.eprint outcome.ending.remark
    return outcome.ending.code

/-- Looks at the input again and again, until a look is blocked. -/
partial def watch (settings : Settings) (seen : Int) : IO UInt32 := do
  let look := Watch.look settings seen (← snapshot settings.paths)
  putOut look.before look.store look.stderr look.stdout
  match look.blocked with
  | some fault =>
    IO.eprint (Ending.blocked fault).remark
    return (Ending.blocked fault).code
  | none =>
    IO.sleep 500
    watch settings look.seen

/-- The program. The configuration is loaded by itself, as it may be refused before any other file is
looked at. -/
def program (words : List String) : IO UInt32 := do
  let config := (Arguments.ofWords words).toOption.map Arguments.configPath
  let configured ← snapshot config.toList
  match settingsFor configured words with
  | .error _ => conclude configured (run configured words)
  | .ok settings =>
    if settings.watch then
      IO.eprint (Watch.greeting settings)
      watch settings 0
    else
      -- The configuration is among the files of the run, which reads it again from the same store.
      let store ← snapshot (config.toList ++ settings.paths)
      conclude store (run store words)

end TildeMarkup.CommandLine

/-- Runs the program with the words of its command line. -/
def main (words : List String) : IO UInt32 :=
  TildeMarkup.CommandLine.program words
