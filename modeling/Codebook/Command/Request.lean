import Codebook.Command.Settings

namespace Codebook.Command

/-- What is to be done with the text of a file. -/
inductive Task where
  | tokens
  | parse (format : Format) (strict : Bool) (limit : Option Nat)
  | lookup (id : UInt32) (limit : Option Nat)
  deriving DecidableEq, Repr

/-- A task with a limit from elsewhere, unless it has one of its own. -/
def Task.limitedBy (limit : Option Nat) : Task → Task
  | tokens => tokens
  | parse format strict own => parse format strict (own.or limit)
  | lookup id own => lookup id (own.or limit)

/-- A task on the file at a path. -/
structure Request where
  path : String
  task : Task
  deriving DecidableEq, Repr

/-- The request that an action and its settings make, if what it requires is set. Text is the
default format. -/
def Request.ofSettings? (a : Action) (s : Settings) : Option Request := do
  let path ← s.path
  match a with
  | .tokens => return ⟨path, .tokens⟩
  | .parse => return ⟨path, .parse (s.format.getD .text) s.strict s.maxErrors⟩
  | .lookup => return ⟨path, .lookup (← s.id) s.maxErrors⟩

end Codebook.Command
