import ReluVerify.Advisory.Property
import ReluVerify.Layered.Reader
import ReluVerify.Solve

namespace ReluVerify

inductive Failure (α : Type) where
  | unknownAdvisory (cause : UnknownAdvisory)
  | outputCount (pra : String) (expected got : Nat)
  | property (cause : PropertyError α)
  | malformed (cause : MalformedNetwork)
  | missingValue (var : Nat)
  | log (path : String)
  | networkFile (path : String)
  | networkText (cause : LayeredText.Failure)
  | storage (path : String)
  | config (path : String)

namespace Failure

variable {α : Type}

def message (text : α → String) : Failure α → String
  | .unknownAdvisory cause => cause.message
  | .outputCount pra expected got =>
      s!"network for {pra} has {got} outputs but {expected} reachable advisories"
  | .property cause => cause.message text
  | .malformed cause => cause.message
  | .missingValue v => (EvaluationError.missingValue v).message
  | .log path => s!"failed to write solve log {path}"
  | .networkFile path => s!"failed to read {path}"
  | .networkText cause => cause.message
  | .storage path => s!"I/O error on {path}"
  | .config path => s!"invalid campaign config {path}"

end Failure

end ReluVerify
