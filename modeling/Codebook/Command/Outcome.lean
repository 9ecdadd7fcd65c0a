import Codebook.Command.Request
import Codebook.Entry.Json
import Codebook.Files
import Codebook.Reading
import Codebook.Registry

namespace Codebook.Command

/-- Why a request fails. -/
inductive Failure where
  | unreadable (path : String) (fault : FileFault)
  | rejections (count : Nat)
  | duplicate (d : DuplicateId)
  | unregistered (id : UInt32)
  deriving DecidableEq, Repr

def Failure.message : Failure → String
  | unreadable path fault =>
    "failed to read '" ++ path ++ "'\n\nCaused by:\n    " ++ fault.message
  | rejections count => count.repr ++ " declaration(s) rejected"
  | duplicate d => d.message
  | unregistered id => "id " ++ id.toNat.repr ++ " is not registered"

/-- What comes of a request: the text printed, the events on the way, and the failure, if there
is one. -/
structure Outcome where
  output : String
  events : List Event
  failure : Option Failure
  deriving DecidableEq, Repr

def unlines (lines : List String) : String :=
  String.join (lines.map (· ++ "\n"))

def Format.print : Format → List Entry → String
  | text, entries => unlines (entries.map (·.text))
  | json, entries => (Entry.arrayJson entries).pretty ++ "\n"

namespace Task

def runTokens (source : String) : Outcome :=
  let tokens := tokenize source
  ⟨unlines (tokens.map (·.dump)), [.lexed tokens.length], none⟩

/-- Prints the entries of a source text. Only a strict run fails on rejections. -/
def runParse (format : Format) (strict : Bool) (limit : Option Nat) (source : String) : Outcome :=
  let (reading, events) := readSource limit source
  { output := format.print reading.entries
    events :=
      if reading.truncated then events ++ [.stoppedEarly reading.rejections.length] else events
    failure :=
      if strict && !reading.isClean then some (.rejections reading.rejections.length) else none }

/-- Prints the title under an id. Entries that cannot all be registered are no source of titles. -/
def runLookup (id : UInt32) (limit : Option Nat) (source : String) : Outcome :=
  let (reading, events) := readSource limit source
  match Registry.ofList reading.entries with
  | .error d => ⟨"", events, some (.duplicate d)⟩
  | .ok registry =>
    let events := events ++ [.registered registry.size]
    match registry.title? id with
    | some title => ⟨title ++ "\n", events, none⟩
    | none => ⟨"", events, some (.unregistered id)⟩

def run : Task → String → Outcome
  | tokens => runTokens
  | parse format strict limit => runParse format strict limit
  | lookup id limit => runLookup id limit

end Task

def Request.run (r : Request) (source : Except FileFault String) : Outcome :=
  let outcome :=
    match source with
    | .ok source => r.task.run source
    | .error fault => ⟨"", [], some (.unreadable r.path fault)⟩
  { outcome with events := .opening r.path :: outcome.events }

end Codebook.Command
