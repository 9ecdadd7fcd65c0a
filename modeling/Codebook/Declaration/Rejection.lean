import Codebook.Token.Basic

namespace Codebook

/-- Why a declaration is rejected. -/
inductive Rejection where
  | unexpectedToken (expected : Token.Kind) (found : Token) (reason : String)
  | unknownCategory (value : String) (line : Nat)
  | overflow (lexeme : String) (limit line : Nat)
  deriving DecidableEq, Repr

namespace Rejection

def line : Rejection → Nat
  | unexpectedToken _ found _ => found.line
  | unknownCategory _ line => line
  | overflow _ _ line => line

def cause : Rejection → String
  | unexpectedToken _ found reason => reason ++ ", found " ++ found.display
  | unknownCategory value _ => "invalid type '" ++ value ++ "', expected 'error' or 'app_id'"
  | overflow lexeme limit _ => "integer literal " ++ lexeme ++ " exceeds maximum of " ++ limit.repr

def message (r : Rejection) : String :=
  "Parse error at line " ++ r.line.repr ++ ": " ++ r.cause

end Rejection

end Codebook
