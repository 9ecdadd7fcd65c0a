import Codebook.Token.Basic

namespace Codebook

/-- The characters that separate tokens and mean nothing else: space, tab, carriage return and
line feed. -/
def isBlank (c : Char) : Bool :=
  c.isWhitespace

/-- The characters that a word starts with: the letters of ASCII and the underscore. -/
def startsWord (c : Char) : Bool :=
  c.isAlpha || c == '_'

def continuesWord (c : Char) : Bool :=
  c.isAlphanum || c == '_'

def quote : Char :=
  '\''

/-- A stretch of a source text that is read at once. -/
inductive Piece where
  | word (text : List Char)
  | number (digits : List Char)
  | quoted (body : List Char)
  | colon
  | semicolon
  | unclosed (body : List Char)
  | stray (c : Char)
  deriving DecidableEq, Repr

namespace Piece

/-- The characters of a piece as they stand in the source text. -/
def text : Piece → List Char
  | word text => text
  | number digits => digits
  | quoted body => quote :: (body ++ [quote])
  | colon => [':']
  | semicolon => [';']
  | unclosed body => quote :: body
  | stray c => [c]

/-- The piece after an opening quote, with what follows it. There is no escape: the next quote
closes the text. -/
def afterQuote (cs : List Char) : Piece × List Char :=
  match cs.dropWhile (· != quote) with
  | [] => (unclosed cs, [])
  | _ :: rest => (quoted (cs.takeWhile (· != quote)), rest)

/-- The longest piece at the start of a text that is not empty, with what follows it. -/
def split (c : Char) (cs : List Char) : Piece × List Char :=
  if c.isDigit then
    (number (c :: cs.takeWhile Char.isDigit), cs.dropWhile Char.isDigit)
  else if startsWord c then
    (word (c :: cs.takeWhile continuesWord), cs.dropWhile continuesWord)
  else if c = quote then afterQuote cs
  else if c = ':' then (colon, cs)
  else if c = ';' then (semicolon, cs)
  else (stray c, cs)

/-- Why a piece is no token. -/
inductive Fault where
  | unknownWord (text : List Char)
  | unclosedQuote
  | strayCharacter (c : Char)
  deriving DecidableEq, Repr

def Fault.message : Fault → String
  | unknownWord text => "Unexpected identifier: " ++ String.ofList text
  | unclosedQuote => "Unterminated string."
  | strayCharacter c => "Unexpected character: " ++ String.singleton c

/-- The kind and the lexeme of a piece. A quoted text goes without its quotes. -/
def classify : Piece → Except Fault (Token.Kind × List Char)
  | word text =>
    match Keyword.ofText? (String.ofList text) with
    | some k => .ok (.keyword k, text)
    | none => .error (.unknownWord text)
  | number digits => .ok (.integer, digits)
  | quoted body => .ok (.string, body)
  | colon => .ok (.colon, [':'])
  | semicolon => .ok (.semicolon, [';'])
  | unclosed _ => .error .unclosedQuote
  | stray c => .error (.strayCharacter c)

/-- The token of a piece that starts on a given line. A fault becomes a token that carries its
wording. -/
def token (line : Nat) (p : Piece) : Token :=
  match p.classify with
  | .ok (kind, lexeme) => ⟨kind, String.ofList lexeme, line⟩
  | .error fault => ⟨.error, fault.message, line⟩

theorem text_afterQuote (cs : List Char) :
    (afterQuote cs).1.text ++ (afterQuote cs).2 = quote :: cs := by
  have h := List.takeWhile_append_dropWhile (p := (· != quote)) (l := cs)
  unfold afterQuote
  split
  · simp [text]
  · rename_i d rest hd
    have hq : d = quote := by
      have := List.head?_dropWhile_not (· != quote) cs
      simpa [hd] using this
    rw [hd, hq] at h
    simp only [text, List.cons_append, List.append_assoc, List.nil_append]
    rw [h]

/-- Nothing is lost when a text is split. -/
theorem text_split (c : Char) (cs : List Char) :
    (split c cs).1.text ++ (split c cs).2 = c :: cs := by
  unfold split
  split
  · simp [text]
  split
  · simp [text]
  split
  · rename_i h
    rw [text_afterQuote, h]
  split
  · rename_i h
    simp [text, h]
  split
  · rename_i h
    simp [text, h]
  · simp [text]

theorem text_ne_nil (c : Char) (cs : List Char) : (split c cs).1.text ≠ [] := by
  unfold split
  split
  · simp [text]
  split
  · simp [text]
  split
  · unfold afterQuote
    split <;> simp [text]
  split
  · simp [text]
  split <;> simp [text]

theorem length_split (c : Char) (cs : List Char) : (split c cs).2.length ≤ cs.length := by
  have h := congrArg List.length (text_split c cs)
  have hpos := List.length_pos_iff.2 (text_ne_nil c cs)
  simp only [List.length_append, List.length_cons] at h
  omega

end Piece

end Codebook
