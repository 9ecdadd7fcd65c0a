import Codebook.Command.Stop
import Codebook.Declaration.Basic

namespace Codebook.Command

/-- How entries are printed. -/
inductive Format where
  | text
  | json
  deriving DecidableEq, Repr

def Format.ofName? (s : String) : Option Format :=
  if s = "text" then some .text else if s = "json" then some .json else none

def maxLimit : Nat :=
  18446744073709551615

/-- What has been set. -/
structure Settings where
  maxErrors : Option Nat
  format : Option Format
  strict : Bool
  path : Option String
  id : Option UInt32
  deriving DecidableEq, Repr

namespace Settings

def empty : Settings :=
  ⟨none, none, false, none, none⟩

def has (s : Settings) : Parameter → Bool
  | .maxErrors => s.maxErrors.isSome
  | .format => s.format.isSome
  | .strict => s.strict
  | .path => s.path.isSome
  | .id => s.id.isSome
  | .help => false
  | .version => false

def readLimit (value : String) : Except UsageError Nat :=
  match Numeral.readNat maxLimit value.toList with
  | .ok n => .ok n
  | .error fault => .error (.badNumeral value .maxErrors fault)

/-- Reads a format. An empty value counts as missing. -/
def readFormat (value : String) : Except UsageError Format :=
  match Format.ofName? value with
  | some format => .ok format
  | none => .error (if value = "" then .valueRequired .format else .badChoice value .format)

/-- Reads an id. It may carry a sign, but has to be in range. -/
def readId (value : String) : Except UsageError UInt32 :=
  match Numeral.readInt64 value.toList with
  | .ok n =>
    if 0 ≤ n ∧ n ≤ maxId then .ok (UInt32.ofNat n.toNat)
    else .error (.outOfRange value .id n maxId)
  | .error fault => .error (.badNumeral value .id fault)

/-- Sets a parameter to a value, unless it has been set before. -/
def assign (s : Settings) (p : Parameter) (value : String) : Except UsageError Settings :=
  if s.has p then .error (.repeated p)
  else
    match p with
    | .maxErrors => (readLimit value).map fun n => { s with maxErrors := n }
    | .format => (readFormat value).map fun format => { s with format }
    | .path => .ok { s with path := value }
    | .id => (readId value).map fun id => { s with id }
    | _ => .error (.unexpectedValue value p)

end Settings

end Codebook.Command
