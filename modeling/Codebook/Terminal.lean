namespace Codebook.Terminal

/-- How far a control sequence has been read. On the ground there is none. -/
inductive Sequence where
  | ground
  | escape
  | intermediate
  | control
  | deviceEntry
  | deviceParameters
  | deviceIntermediates
  | string
  | command
  deriving DecidableEq, Repr

/-- The control characters that lay out text and steer nothing. -/
def isLayout (c : Char) : Bool :=
  c == '\t' || c == '\n' || c == '\x0c' || c == '\r'

/-- The byte that ends a control string occurs in the encoding of a character. -/
def holdsTerminator (c : Char) : Bool :=
  (String.utf8EncodeChar c).contains 0x9c

namespace Sequence

/-- The sequence after one more character. The escape character begins anew, and two others cancel
whatever has begun. -/
def next (s : Sequence) (c : Char) : Sequence :=
  if c = '\x1b' then escape
  else if c = '\x18' ∨ c = '\x1a' then ground
  else
    match s with
    | ground => ground
    | escape =>
      if c = '[' then control
      else if c = ']' then command
      else if c = 'P' then deviceEntry
      else if c = 'X' ∨ c = '^' ∨ c = '_' then string
      else if ' ' ≤ c ∧ c ≤ '/' then intermediate
      else if '0' ≤ c ∧ c ≤ '~' then ground
      else escape
    | intermediate => if '0' ≤ c ∧ c ≤ '~' then ground else intermediate
    | control => if '@' ≤ c ∧ c ≤ '~' then ground else control
    | deviceEntry =>
      if ' ' ≤ c ∧ c ≤ '/' then deviceIntermediates
      else if '0' ≤ c ∧ c ≤ '?' then deviceParameters
      else if '@' ≤ c ∧ c ≤ '~' then string
      else deviceEntry
    | deviceParameters =>
      if ' ' ≤ c ∧ c ≤ '/' then deviceIntermediates
      else if '<' ≤ c ∧ c ≤ '~' then string
      else deviceParameters
    | deviceIntermediates => if '0' ≤ c ∧ c ≤ '~' then string else deviceIntermediates
    | string => if holdsTerminator c then ground else string
    | command => if c = '\x07' then ground else command

/-- A character is shown. Layout is shown within a sequence too, unless that carries a string. -/
def shows (s : Sequence) (c : Char) : Bool :=
  match s with
  | ground => (' ' ≤ c && c != '\x7f') || isLayout c
  | escape => isLayout c
  | intermediate => isLayout c
  | control => isLayout c
  | _ => false

end Sequence

/-- The characters that are shown. Layout interrupts a sequence, which goes on with the next control
character. -/
def shown (s : Sequence) (interrupted : Bool) : List Char → List Char
  | [] => []
  | c :: cs =>
    if interrupted && Sequence.ground.shows c then
      c :: shown (if c.toNat < 128 then s else .ground) true cs
    else if s.shows c then c :: shown (s.next c) true cs
    else shown (s.next c) false cs

def plain (text : String) : String :=
  String.ofList (shown .ground false text.toList)

end Codebook.Terminal
