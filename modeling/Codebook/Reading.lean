import Codebook.Declaration.Basic
import Codebook.Event
import Codebook.Token.Stream

namespace Codebook

/-- What a codebook holds: the entries, the declarations rejected, and whether reading stopped
before the end. -/
structure Reading where
  entries : List Entry
  rejections : List Rejection
  truncated : Bool
  deriving DecidableEq, Repr

def Reading.isClean (r : Reading) : Bool :=
  r.rejections.isEmpty && !r.truncated

/-- A pass over the tokens ahead of a cursor: what was read, what happened, and where the cursor
came to rest. -/
structure Pass where
  reading : Reading
  events : List Event
  cursor : Cursor
  deriving DecidableEq

namespace Pass

def ended (c : Cursor) : Pass :=
  ⟨⟨[], [], false⟩, [], c⟩

def stopped (limit : Nat) (c : Cursor) : Pass :=
  ⟨⟨[], [], true⟩, [.limitReached limit], c⟩

def accept (entry : Entry) (p : Pass) : Pass :=
  { p with
    reading.entries := entry :: p.reading.entries
    events := .accepted entry :: p.events }

def reject (rejection : Rejection) (p : Pass) : Pass :=
  { p with
    reading.rejections := rejection :: p.reading.rejections
    events := .rejected rejection :: p.events }

def finish (p : Pass) : Pass :=
  { p with
    events :=
      p.events ++ [.finished p.reading.entries.length p.reading.rejections.length] }

end Pass

namespace Cursor

/-- The limit, if that many rejections reach it while something is left to read. -/
def reached? (c : Cursor) (limit : Option Nat) (rejected : Nat) : Option Nat :=
  if c.isAtEnd then none else limit.filter (· ≤ rejected)

/-- Reads the declarations ahead, after some rejections. A rejected declaration is skipped. -/
def readOn (limit : Option Nat) (rejected : Nat) (c : Cursor) : Pass :=
  if _ : c.isAtEnd then .ended c
  else
    match _ : c.declaration.1 with
    | .ok entry => (c.declaration.2.readOn limit rejected).accept entry
    | .error rejection =>
      match c.declaration.2.recover.reached? limit (rejected + 1) with
      | some limit => (Pass.stopped limit c.declaration.2.recover).reject rejection
      | none => (c.declaration.2.recover.readOn limit (rejected + 1)).reject rejection
termination_by c.ahead.length
decreasing_by
  · exact ahead_lt_of_declaration_ok ‹_›
  · exact ahead_recover_declaration_lt (Bool.eq_false_iff.2 ‹_›)

/-- Reads the declarations ahead, up to a limit of rejections. -/
def read (limit : Option Nat) (c : Cursor) : Pass :=
  (c.readOn limit 0).finish

end Cursor

def Reading.ofTokens (limit : Option Nat) (tokens : List Token) : Reading :=
  ((Cursor.ofTokens tokens).read limit).reading

def readSource (limit : Option Nat) (source : String) : Reading × List Event :=
  let tokens := tokenize source
  let pass := (Cursor.ofTokens tokens).read limit
  (pass.reading, .lexed tokens.length :: pass.events)

end Codebook
