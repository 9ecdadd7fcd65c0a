import Codebook.Token.Piece

namespace Codebook

/-- The unread part of a source text. `closed` says that pulling has met the last token. -/
structure Stream where
  unread : List Char
  line : Nat
  closed : Bool
  deriving DecidableEq, Repr

namespace Stream

def ofText (source : List Char) : Stream :=
  ⟨source, 1, false⟩

/-- Something is left to read, if only blanks. -/
def hasMore (s : Stream) : Bool :=
  !s.unread.isEmpty

def skipBlanks (s : Stream) : Stream :=
  { s with
    unread := s.unread.dropWhile isBlank
    line := s.line + (s.unread.takeWhile isBlank).count '\n' }

def read (s : Stream) : Token × Stream :=
  match s.unread with
  | [] => (.endOfFile s.line, s)
  | c :: cs =>
    ((Piece.split c cs).1.token s.line,
      { s with
        unread := (Piece.split c cs).2
        line := s.line + (Piece.split c cs).1.text.count '\n' })

/-- Reads the next token. At the end of the text it is the end-of-file token, as often as one
asks. -/
def next (s : Stream) : Token × Stream :=
  s.skipBlanks.read

theorem skipBlanks_length_le (s : Stream) : s.skipBlanks.unread.length ≤ s.unread.length :=
  (List.dropWhile_suffix isBlank).length_le

theorem read_length_le (s : Stream) : s.read.2.unread.length ≤ s.unread.length - 1 := by
  unfold read
  split
  · rename_i h
    simp [h]
  · rename_i c cs h
    simpa [h] using Piece.length_split c cs

theorem next_length_lt {s : Stream} (hs : s.unread ≠ []) :
    s.next.2.unread.length < s.unread.length := by
  have hskip := s.skipBlanks_length_le
  have hread := s.skipBlanks.read_length_le
  have hpos := List.length_pos_iff.2 hs
  unfold next
  omega

theorem next_length_lt_of_not_terminal {s : Stream} (h : s.next.1.isTerminal = false) :
    s.next.2.unread.length < s.unread.length := by
  by_cases hs : s.unread = []
  · simp [next, read, skipBlanks, hs, Token.endOfFile, Token.isTerminal, Token.Kind.isTerminal] at h
  · exact next_length_lt hs

@[simp]
theorem next_closed (s : Stream) : s.next.2.closed = s.closed := by
  unfold next read
  split <;> rfl

/-- Reads the tokens up to an error or the end. A text that ends with a token has no end-of-file
token. -/
def drain (s : Stream) : List Token × Stream :=
  if _h : s.unread = [] then ([], s)
  else if s.next.1.isTerminal then ([s.next.1], s.next.2)
  else
    let rest := s.next.2.drain
    (s.next.1 :: rest.1, rest.2)
termination_by s.unread.length
decreasing_by exact next_length_lt ‹_›

/-- Pulls one token, unless the last one pulled has closed the stream. -/
def pull (s : Stream) : Option Token × Stream :=
  if s.closed then (none, s)
  else (some s.next.1, { s.next.2 with closed := s.next.1.isTerminal })

def pullAll (s : Stream) : List Token × Stream :=
  if s.closed then ([], s)
  else if _h : s.next.1.isTerminal then ([s.next.1], { s.next.2 with closed := true })
  else
    let rest := s.next.2.pullAll
    (s.next.1 :: rest.1, rest.2)
termination_by s.unread.length
decreasing_by exact next_length_lt_of_not_terminal (Bool.eq_false_iff.2 ‹_›)

end Stream

def tokenize (source : String) : List Token :=
  (Stream.ofText source.toList).drain.1

end Codebook
