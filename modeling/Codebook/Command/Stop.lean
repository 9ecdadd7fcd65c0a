import Codebook.Command.Parameter
import Codebook.Numeral
import Codebook.Terminal

namespace Codebook.Command

def purpose : String :=
  "Inspect enumeration registry files"

/-- Why arguments are refused. -/
inductive UsageError where
  | nothingAsked
  | missingAction
  | missingArguments
  | unknownAction (word : String)
  | unexpectedArgument (argument : String)
  | unexpectedValue (value : String) (p : Parameter)
  | valueRequired (p : Parameter)
  | repeated (p : Parameter)
  | badChoice (value : String) (p : Parameter)
  | badNumeral (value : String) (p : Parameter) (fault : Numeral.Fault)
  | outOfRange (value : String) (p : Parameter) (n : Int) (limit : Nat)
  deriving DecidableEq, Repr

namespace UsageError

/-- Words of the user in quotes, without what would steer a terminal. -/
def quoted (words : String) : String :=
  "'" ++ Terminal.plain words ++ "'"

def named (p : Parameter) : String :=
  "'" ++ p.display ++ "'"

def invalidValue (value : String) (p : Parameter) : String :=
  "invalid value " ++ quoted value ++ " for " ++ named p

/-- The cause of a refusal. Who asks nothing is told what the program is for. -/
def cause : UsageError → String
  | nothingAsked => purpose
  | missingAction => "'enumconf' requires a subcommand but one was not provided"
  | missingArguments => "the following required arguments were not provided:"
  | unknownAction word => "unrecognized subcommand " ++ quoted word
  | unexpectedArgument argument => "unexpected argument " ++ quoted argument ++ " found"
  | unexpectedValue value p =>
    "unexpected value " ++ quoted value ++ " for " ++ named p ++ " found; no more were expected"
  | valueRequired p => "a value is required for " ++ named p ++ " but none was supplied"
  | repeated p => "the argument " ++ named p ++ " cannot be used multiple times"
  | badChoice value p => invalidValue value p
  | badNumeral value p fault => invalidValue value p ++ ": " ++ fault.message
  | outOfRange value p n limit =>
    invalidValue value p ++ ": " ++ toString n ++ " is not in 0..=" ++ limit.repr

/-- The wording of a refusal. To ask nothing is no error. -/
def message (e : UsageError) : String :=
  if e = nothingAsked then e.cause else "error: " ++ e.cause

def firstLine (e : UsageError) : String :=
  String.ofList (e.message.toList.takeWhile (· != '\n'))

end UsageError

/-- Why arguments lead to no run. -/
inductive Stop where
  | usage (e : UsageError)
  | help (scope : Scope)
  | version
  deriving DecidableEq, Repr

end Codebook.Command
