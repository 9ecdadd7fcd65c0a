namespace Codebook.Command

/-- What the program can be told to do with a file. -/
inductive Action where
  | tokens
  | parse
  | lookup
  deriving DecidableEq, Repr

namespace Action

def name : Action → String
  | tokens => "tokens"
  | parse => "parse"
  | lookup => "lookup"

def ofName? (s : String) : Option Action :=
  [tokens, parse, lookup].find? (·.name == s)

end Action

/-- What an argument can set. -/
inductive Parameter where
  | maxErrors
  | format
  | strict
  | help
  | version
  | path
  | id
  deriving DecidableEq, Repr

namespace Parameter

def display : Parameter → String
  | maxErrors => "--max-errors <max-errors>"
  | format => "--format <format>"
  | strict => "--strict"
  | help => "--help"
  | version => "--version"
  | path => "<path>"
  | id => "<id>"

def long? : Parameter → Option String
  | maxErrors => some "max-errors"
  | format => some "format"
  | strict => some "strict"
  | help => some "help"
  | version => some "version"
  | path => none
  | id => none

def short? : Parameter → Option Char
  | format => some 'f'
  | help => some 'h'
  | version => some 'V'
  | _ => none

def takesValue : Parameter → Bool
  | strict => false
  | help => false
  | version => false
  | _ => true

end Parameter

/-- Where an argument stands: before the name of an action, or after it. -/
inductive Scope where
  | top
  | action (a : Action)
  deriving DecidableEq, Repr

namespace Scope

def named : Scope → List Parameter
  | top => [.maxErrors, .help, .version]
  | action .parse => [.format, .strict, .maxErrors, .help]
  | action _ => [.maxErrors, .help]

/-- The parameters that are set by place. All of them are required. -/
def placed : Scope → List Parameter
  | top => []
  | action .lookup => [.path, .id]
  | action _ => [.path]

def long? (scope : Scope) (name : String) : Option Parameter :=
  scope.named.find? (·.long? == some name)

def short? (scope : Scope) (c : Char) : Option Parameter :=
  scope.named.find? (·.short? == some c)

/-- What a word tells the program to do. Only words before an action do so. -/
inductive Word where
  | perform (a : Action)
  | help

def word? (scope : Scope) (s : String) : Option Word :=
  match scope with
  | top => if s = "help" then some .help else (Action.ofName? s).map .perform
  | action _ => none

end Scope

end Codebook.Command
