import Codebook.Command.Help
import Codebook.Command.Outcome

namespace Codebook.Command

/-- What a run of the program shows: its status, its output, and its messages. -/
structure Report where
  status : UInt32
  output : String
  messages : String
  deriving DecidableEq, Repr

/-- The report of a run that does nothing. A refusal is one line, without a line feed. -/
def Stop.report : Stop → Report
  | usage e => ⟨2, "", e.firstLine⟩
  | help scope => ⟨0, scope.help, ""⟩
  | version => ⟨0, versionText, ""⟩

/-- The report of an outcome: the log, and after it the failure. -/
def Outcome.report (verbosity : Verbosity) (o : Outcome) : Report :=
  match o.failure with
  | none => ⟨0, o.output, Event.log verbosity o.events⟩
  | some failure =>
    ⟨1, o.output, Event.log verbosity o.events ++ "Error: " ++ failure.message ++ "\n"⟩

end Codebook.Command
