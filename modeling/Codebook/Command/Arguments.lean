import Codebook.Command.Request

namespace Codebook.Command

/-- What the look of an argument says of it. -/
inductive Shape where
  | separator
  | long (name : List Char) (value : Option (List Char))
  | cluster (letters : List Char)
  | plain
  deriving DecidableEq, Repr

/-- The shape of an argument. A lone dash is plain. -/
def Shape.of : List Char → Shape
  | ['-', '-'] => separator
  | '-' :: '-' :: cs =>
    long (cs.takeWhile (· != '='))
      (match cs.dropWhile (· != '=') with
      | [] => none
      | _ :: value => some value)
  | '-' :: c :: cs => cluster (c :: cs)
  | _ => plain

/-- The reading of arguments in one scope. A value is not looked at before the next argument is,
so the last argument stays pending. -/
structure Progress where
  settings : Settings
  pending : Option (Parameter × Option String)
  places : List Parameter
  trailing : Bool
  deriving DecidableEq, Repr

namespace Progress

def start (scope : Scope) : Progress :=
  ⟨.empty, none, scope.placed, false⟩

def isAwaiting (s : Progress) : Bool :=
  s.pending.any (·.2.isNone)

def settle (s : Progress) : Except UsageError Progress :=
  match s.pending with
  | none => .ok s
  | some (p, none) => .error (.valueRequired p)
  | some (p, some value) =>
    (s.settings.assign p value).map fun settings => { s with settings, pending := none }

def await (s : Progress) (p : Parameter) : Except UsageError Progress :=
  s.settle.map fun s => { s with pending := some (p, none) }

def attach (s : Progress) (p : Parameter) (value : List Char) : Except UsageError Progress := do
  let s ← s.settle
  return { s with settings := ← s.settings.assign p (String.ofList value) }

def switch (s : Progress) (scope : Scope) (p : Parameter) : Except Stop Progress := do
  let s ← s.settle.mapError .usage
  match p with
  | .help => throw (.help scope)
  | .version => throw .version
  | _ =>
    if s.settings.has p then throw (.usage (.repeated p))
    else return { s with settings := { s.settings with strict := true } }

def takeLong (s : Progress) (scope : Scope) (name : List Char) (value : Option (List Char)) :
    Except Stop Progress :=
  match scope.long? (String.ofList name) with
  | none => .error (.usage (.unexpectedArgument ("--" ++ String.ofList name)))
  | some p =>
    match p.takesValue, value with
    | true, none => (s.await p).mapError .usage
    | true, some value => (s.attach p value).mapError .usage
    | false, none => s.switch scope p
    | false, some value => .error (.usage (.unexpectedValue (String.ofList value) p))

/-- Takes letters after one dash. A letter that takes a value takes the rest, after an equals sign
or not. -/
def takeLetters (scope : Scope) : List Char → Progress → Except Stop Progress
  | [], s => .ok s
  | c :: cs, s =>
    match scope.short? c with
    | none => .error (.usage (.unexpectedArgument (String.ofList ['-', c])))
    | some p =>
      match p.takesValue, cs with
      | true, [] => (s.await p).mapError .usage
      | true, '=' :: value => (s.attach p value).mapError .usage
      | true, value => (s.attach p value).mapError .usage
      | false, cs => do takeLetters scope cs (← s.switch scope p)

def misplaced (s : Progress) (scope : Scope) (argument : String) : UsageError :=
  match scope with
  | .top =>
    if s.trailing && (scope.word? argument).isSome then .unexpectedArgument argument
    else .unknownAction argument
  | .action _ => .unexpectedArgument argument

/-- Takes a word that is neither a name nor the value of one. -/
def takePlace (s : Progress) (scope : Scope) (argument : String) : Except Stop Progress :=
  match s.places with
  | [] => .error (.usage (s.misplaced scope argument))
  | p :: places =>
    (s.settle.map fun s => { s with pending := some (p, some argument), places }).mapError .usage

def take (s : Progress) (scope : Scope) (argument : String) : Except Stop Progress :=
  if s.trailing then s.takePlace scope argument
  else
    match Shape.of argument.toList with
    | .separator => .ok { s with trailing := true }
    | .long name value => s.takeLong scope name value
    | .cluster letters => takeLetters scope letters s
    | .plain =>
      match s.pending with
      | some (p, none) => .ok { s with pending := some (p, some argument) }
      | _ => s.takePlace scope argument

def word? (s : Progress) (scope : Scope) (argument : String) : Option Scope.Word :=
  if s.trailing || s.isAwaiting then none else scope.word? argument

/-- Takes arguments up to the name of an action, and gives back what follows that name. -/
def takeAll (scope : Scope) : Progress → List String →
    Except Stop (Progress × Option (Action × List String))
  | s, [] => .ok (s, none)
  | s, argument :: arguments =>
    match s.word? scope argument with
    | some (.perform a) => .ok (s, some (a, arguments))
    | some .help => .error (helpOn arguments)
    | none => do takeAll scope (← s.take scope argument) arguments
where
  /-- The help on the words after the word for help. -/
  helpOn : List String → Stop
    | [] => .help .top
    | [word] =>
      match Action.ofName? word with
      | some a => .help (.action a)
      | none => if word = "help" then .help .top else .usage (.unknownAction word)
    | word :: next :: _ =>
      if (Scope.top.word? word).isSome then .usage (.unknownAction next)
      else .usage (.unknownAction word)

end Progress

/-- The request that arguments make. A limit after the name of the action counts before one in
front of it. -/
def Request.ofArguments (arguments : List String) : Except Stop Request := do
  match ← Progress.takeAll .top (.start .top) arguments with
  | (top, none) =>
    let top ← top.settle.mapError .usage
    throw (.usage (if top.settings = .empty then .nothingAsked else .missingAction))
  | (top, some (a, arguments)) =>
    let (inner, _) ← Progress.takeAll (.action a) (.start (.action a)) arguments
    let inner ← inner.settle.mapError .usage
    match ofSettings? a inner.settings with
    | none => throw (.usage .missingArguments)
    | some request =>
      let top ← top.settle.mapError .usage
      return { request with task := request.task.limitedBy top.settings.maxErrors }

end Codebook.Command
