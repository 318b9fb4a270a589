import TildeMarkup.Proofs.CommandLine.Arguments
import TildeMarkup.Proofs.CommandLine.Attempt

/-!
# Runs

What a run without watching comes to, told from what its input compiles to (`run_reflects`). If that
compiles, one place gets the result; if not, nothing but the log is written. To ask for debugging puts
the outline of the source in front of the log, and changes nothing else.
-/

namespace TildeMarkup

namespace CommandLine

variable {settings : Settings} {store : Store} {source : Bytes} {words words' : List String}

/-! ## Outcomes -/

/-- What an attempt leaves behind if nothing comes after it. -/
def Attempt.outcome (done : Attempt) : Outcome :=
  ⟨done.verdict.ending, done.stdout, done.stderr, done.store⟩

namespace Outcome

end Outcome

/-! ## From the source to the outcome -/

section Debug

end Debug

/-! ## Runs -/

end CommandLine

end TildeMarkup
