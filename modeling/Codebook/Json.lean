namespace Codebook

/-- The JSON values that stand for entries. -/
inductive Json where
  | number (n : Nat)
  | text (s : String)
  | array (items : List Json)
  | object (members : List (String × Json))

namespace Json

/-- A character inside a JSON string. Only the quote, the backslash and the control characters
below the blank are escaped. -/
def escape (c : Char) : List Char :=
  if c = '"' then ['\\', '"']
  else if c = '\\' then ['\\', '\\']
  else if c = '\x08' then ['\\', 'b']
  else if c = '\t' then ['\\', 't']
  else if c = '\n' then ['\\', 'n']
  else if c = '\x0c' then ['\\', 'f']
  else if c = '\r' then ['\\', 'r']
  else if c.toNat < 32 then
    ['\\', 'u', '0', '0', Nat.digitChar (c.toNat / 16), Nat.digitChar (c.toNat % 16)]
  else [c]

def quoted (s : String) : String :=
  "\"" ++ String.ofList (s.toList.flatMap escape) ++ "\""

/-- The blanks of a JSON text: those in front of an item at some depth, and those between a name
and its value. -/
structure Layout where
  line : Nat → String
  gap : String

def Layout.compact : Layout :=
  ⟨fun _ => "", ""⟩

/-- One item to a line, set in by two columns for each depth. -/
def Layout.pretty : Layout :=
  ⟨fun depth => "\n".pushn ' ' (2 * depth), " "⟩

/-- Items in brackets at some depth. Without items the brackets stand together. -/
def Layout.enclose (l : Layout) (depth : Nat) (opening closing : String) : List String → String
  | [] => opening ++ closing
  | item :: items =>
    opening ++ ",".intercalate ((item :: items).map (l.line (depth + 1) ++ ·)) ++ l.line depth
      ++ closing

mutual

def write (l : Layout) (depth : Nat) : Json → String
  | number n => n.repr
  | text s => quoted s
  | array items => l.enclose depth "[" "]" (writeItems l (depth + 1) items)
  | object members => l.enclose depth "\x7b" "\x7d" (writeMembers l (depth + 1) members)

def writeItems (l : Layout) (depth : Nat) : List Json → List String
  | [] => []
  | item :: items => write l depth item :: writeItems l depth items

def writeMembers (l : Layout) (depth : Nat) : List (String × Json) → List String
  | [] => []
  | (name, value) :: members =>
    (quoted name ++ ":" ++ l.gap ++ write l depth value) :: writeMembers l depth members

end

def compact (v : Json) : String :=
  v.write .compact 0

def pretty (v : Json) : String :=
  v.write .pretty 0

end Json

end Codebook
