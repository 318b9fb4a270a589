import TildeMarkup.CommandLine.Settings
import TildeMarkup.Compile
import TildeMarkup.Outline
import TildeMarkup.Report
import TildeMarkup.Store.Basic

/-!
# One run of the program

From the words of a command line and the files that are there to an exit code, two outputs and the
files afterwards. A source that is refused leaves every file as it was.
-/

namespace TildeMarkup

namespace Failure

/-- The failure in words. -/
def report (fileName : String) (source : Bytes) : Failure → String
  | fault found => Report.format fileName source found
  | nameNotAscii _ => "error: the name of a command is not ASCII"
  | missingNode => "error: there is no such node"
  | endless => "error: a node is below itself"

/-- The exit code of a run that ends with the failure: one if the source cannot be read, two if it
cannot be rendered. -/
def exitCode : Failure → Nat
  | fault found => if found.cause.stage = .reading then 1 else 2
  | _ => 2

end Failure

namespace CommandLine

/-- The result of a source under some settings, after what it writes to the log. The outline is
logged as soon as the source has been read, even if it cannot be rendered. -/
def compileSource (settings : Settings) (source : Bytes) : String × Except Failure Bytes :=
  match parse source with
  | .error fault => ("", .error (.fault fault))
  | .ok arena =>
    -- The outline does not wait for the rendering, which may fail.
    let log := if settings.debug then (outline source arena).toOption.getD "" else ""
    let fragment := Html.render source arena
    -- Only a fragment that there is gets a page around it.
    (log, if settings.standalone then fragment.map (Html.page settings.head) else fragment)

/-- How an attempt to compile the input went. -/
inductive Verdict where
  /-- The result is at its place. -/
  | written
  /-- The source is refused. -/
  | refused (failure : Failure)
  /-- The input cannot be read, or the output cannot be written. -/
  | blocked (fault : StoreFault)
  deriving DecidableEq, Repr

/-- An attempt to compile the input: how it went, what it put out, and the files afterwards. -/
structure Attempt where
  verdict : Verdict
  stdout : Bytes
  stderr : String
  store : Store

/-- Puts a result at its place: into the output file, or on the standard output. -/
def deliver (settings : Settings) (store : Store) (log : String) (result : Bytes) : Attempt :=
  match settings.output with
  | none => ⟨.written, result, log, store⟩
  | some path =>
    match store.write path result with
    | .ok store => ⟨.written, [], log, store⟩
    | .error fault => ⟨.blocked fault, [], log, store⟩

/-- Compiles the input as it is now. -/
def attempt (settings : Settings) (store : Store) : Attempt :=
  match store.read settings.input with
  | .error fault => ⟨.blocked fault, [], "", store⟩
  | .ok source =>
    match compileSource settings source with
    | (log, .ok result) => deliver settings store log result
    | (log, .error failure) =>
      ⟨.refused failure, [], log ++ failure.report settings.input.toText source ++ "\n", store⟩

/-- How a run ends. -/
inductive Ending where
  | exit (code : Nat)
  /-- The input cannot be read, or the output cannot be written. -/
  | blocked (fault : StoreFault)
  /-- There are no settings for the run, and nothing is said about it: there is no exit code. -/
  | unsettled (fault : ConfigFault)
  deriving DecidableEq, Repr

/-- How an attempt ends a run. -/
def Verdict.ending : Verdict → Ending
  | .written => .exit 0
  | .refused failure => .exit failure.exitCode
  | .blocked fault => .blocked fault

/-- Why there are no settings for a run. -/
inductive SettingsFault where
  | stop (stop : Stop)
  | config (fault : ConfigFault)
  deriving DecidableEq, Repr

/-- The settings for a run: the words, and the configuration that they lead to. A configuration that
is not there, or is no file, is as good as an empty one. -/
def settingsFor (store : Store) (words : List String) : Except SettingsFault Settings := do
  let args ← (Arguments.ofWords words).mapError SettingsFault.stop
  let content := (store.fileAt? args.configPath).map File.content
  (Settings.resolve args content).mapError SettingsFault.config

/-- What is said about a configuration that is no TOML document. -/
def invalidConfig (problem : Toml.Problem) : String :=
  "error: invalid config file: " ++ problem.message ++ "\n"

/-- What a run leaves behind. -/
structure Outcome where
  ending : Ending
  stdout : Bytes
  stderr : String
  store : Store

/-- A run that has no settings for its configuration. What is no TOML document is refused with a message
and an exit code. No other fault of a configuration is caught. -/
def refuseConfig (store : Store) : ConfigFault → Outcome
  | .invalid problem => ⟨.exit 2, [], invalidConfig problem, store⟩
  | fault => ⟨.unsettled fault, [], "", store⟩

/-- A run without watching. It has no outcome where the words give no arguments. -/
def run (store : Store) (words : List String) : Except Stop Outcome :=
  match settingsFor store words with
  | .error (.stop stop) => .error stop
  | .error (.config fault) => .ok (refuseConfig store fault)
  | .ok settings =>
    let done := attempt settings store
    .ok ⟨done.verdict.ending, done.stdout, done.stderr, done.store⟩

end CommandLine

end TildeMarkup
