import Codebook.Declaration.Rejection
import Codebook.Entry.Basic

namespace Codebook

/-- How much an event matters, the gravest first. -/
inductive Level where
  | error
  | warn
  | info
  | debug
  | trace
  deriving DecidableEq, Repr, Ord

namespace Level

def name : Level → String
  | error => "ERROR"
  | warn => "WARN"
  | info => "INFO"
  | debug => "DEBUG"
  | trace => "TRACE"

def all : List Level :=
  [error, warn, info, debug, trace]

def ofName? (s : String) : Option Level :=
  all.find? (·.name == s.toUpper)

def atLeast (a b : Level) : Bool :=
  (compare a b).isLE

end Level

/-- The least grave level that is shown, if any is. -/
abbrev Verbosity :=
  Option Level

/-- Reads how much is to be shown. An empty wish shows errors alone, and a name of no level shows
nothing. -/
def Verbosity.read (s : String) : Verbosity :=
  if s = "" then some .error else Level.ofName? s

/-- Something to report while a codebook is read. -/
inductive Event where
  | opening (path : String)
  | lexed (tokens : Nat)
  | accepted (entry : Entry)
  | rejected (rejection : Rejection)
  | limitReached (limit : Nat)
  | finished (entries rejections : Nat)
  | registered (entries : Nat)
  | stoppedEarly (rejections : Nat)
  deriving DecidableEq, Repr

namespace Event

/-- The level of an event. What loses part of a codebook is a warning. -/
def level : Event → Level
  | opening _ => .info
  | lexed _ => .debug
  | accepted _ => .debug
  | rejected _ => .warn
  | limitReached _ => .warn
  | finished _ _ => .debug
  | registered _ => .debug
  | stoppedEarly _ => .warn

def origin : Event → String
  | opening _ => "enumconf"
  | lexed _ => "enumconf::parser::lexer"
  | accepted _ => "enumconf::parser::parse"
  | rejected _ => "enumconf::parser::parse"
  | limitReached _ => "enumconf::parser::parse"
  | finished _ _ => "enumconf::parser::parse"
  | registered _ => "enumconf::registry"
  | stoppedEarly _ => "enumconf"

def message : Event → String
  | opening path => "reading " ++ path
  | lexed tokens => "lexed " ++ tokens.repr ++ " tokens"
  | accepted entry =>
    "parsed enumeration " ++ entry.number.toNat.repr ++ " (id " ++ entry.id.toNat.repr ++ ")"
  | rejected rejection => "skipping declaration: " ++ rejection.message
  | limitReached limit => "error limit of " ++ limit.repr ++ " reached, stopping"
  | finished entries rejections =>
    "parsed " ++ entries.repr ++ " entries, " ++ rejections.repr ++ " rejected"
  | registered entries => "registry holds " ++ entries.repr ++ " entries"
  | stoppedEarly rejections => "parsing stopped early after " ++ rejections.repr ++ " errors"

def record (e : Event) : String :=
  e.level.name ++ " " ++ e.message

def indent (s : String) : String :=
  String.ofList (s.toList.flatMap fun c => if c = '\n' then '\n' :: List.replicate 4 ' ' else [c])

/-- An event as a line of the log. A level and the blanks after it take six columns. -/
def line (e : Event) : String :=
  "[" ++ e.level.name.pushn ' ' (6 - e.level.name.length) ++ e.origin ++ "] " ++ indent e.message

def isShown (verbosity : Verbosity) (e : Event) : Bool :=
  verbosity.any e.level.atLeast

def log (verbosity : Verbosity) (events : List Event) : String :=
  String.join ((events.filter (isShown verbosity)).map (·.line ++ "\n"))

end Event

end Codebook
