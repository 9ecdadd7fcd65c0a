namespace Codebook

/-- The reserved words. -/
inductive Keyword where
  | enumeration
  | type
  | title
  | id
  deriving DecidableEq, Repr

namespace Keyword

def text : Keyword → String
  | enumeration => "enumeration"
  | type => "type"
  | title => "title"
  | id => "id"

def all : List Keyword :=
  [enumeration, type, title, id]

/-- The reserved word with a given spelling. Letter case counts. -/
def ofText? (s : String) : Option Keyword :=
  all.find? (·.text == s)

@[simp]
theorem ofText?_text (k : Keyword) : ofText? k.text = some k := by
  cases k <;> decide

theorem ofText?_eq_some_iff {s : String} {k : Keyword} : ofText? s = some k ↔ s = k.text := by
  constructor
  · intro h
    have := List.find?_some h
    exact (beq_iff_eq.1 this).symm
  · rintro rfl
    exact ofText?_text k

end Keyword

namespace Token

/-- The kinds of token. -/
inductive Kind where
  | keyword (word : Keyword)
  | string
  | integer
  | colon
  | semicolon
  | error
  | endOfFile
  deriving DecidableEq, Repr

namespace Kind

def name : Kind → String
  | keyword .enumeration => "ENUMERATION"
  | keyword .type => "TYPE"
  | keyword .title => "TITLE"
  | keyword .id => "ID"
  | string => "STRING"
  | integer => "INTEGER"
  | colon => "COLON"
  | semicolon => "SEMICOLON"
  | error => "ERROR"
  | endOfFile => "EOF"

def all : List Kind :=
  Keyword.all.map keyword ++ [string, integer, colon, semicolon, error, endOfFile]

def ofName? (s : String) : Option Kind :=
  all.find? (·.name == s)

@[simp]
theorem ofName?_name (k : Kind) : ofName? k.name = some k := by
  cases k with
  | keyword word => cases word <;> decide
  | _ => decide

def display : Kind → String
  | keyword word => "'" ++ word.text ++ "'"
  | string => "string literal"
  | integer => "integer literal"
  | colon => "':'"
  | semicolon => "';'"
  | error => "lexical error"
  | endOfFile => "end of file"

/-- Nothing is read after a lexical error or the end of the file. -/
def isTerminal : Kind → Bool
  | error => true
  | endOfFile => true
  | _ => false

end Kind

end Token

/-- A token with its text and the line on which it starts. -/
structure Token where
  kind : Token.Kind
  lexeme : String
  line : Nat
  deriving DecidableEq, Repr

namespace Token

def display (t : Token) : String :=
  match t.kind with
  | .string => "string literal '" ++ t.lexeme ++ "'"
  | .integer => "integer literal " ++ t.lexeme
  | .error => t.lexeme
  | kind => kind.display

def dump (t : Token) : String :=
  t.kind.name ++ " '" ++ t.lexeme ++ "' line " ++ t.line.repr

def endOfFile (line : Nat) : Token :=
  ⟨.endOfFile, "", line⟩

def isTerminal (t : Token) : Bool :=
  t.kind.isTerminal

end Token

end Codebook
