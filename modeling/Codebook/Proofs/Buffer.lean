import Codebook.Token.Stream

namespace Codebook

/-- A source text held as a whole, with the start of the last token, a place, and the line there. -/
structure Buffer where
  text : List Char
  mark : Nat
  position : Nat
  line : Nat
  closed : Bool
  deriving DecidableEq, Repr

namespace Buffer

def ofText (source : List Char) : Buffer :=
  ⟨source, 0, 0, 1, false⟩

def hasMore (b : Buffer) : Bool :=
  b.position < b.text.length

def peek? (b : Buffer) : Option Char :=
  b.text[b.position]?

/-- Passes one character, if there is one. -/
def advance (b : Buffer) : Buffer :=
  match b.peek? with
  | none => b
  | some c =>
    { b with
      position := b.position + 1
      line := if c = '\n' then b.line + 1 else b.line }

/-- What is left of a buffer to read. -/
def stream (b : Buffer) : Stream :=
  ⟨b.text.drop b.position, b.line, b.closed⟩

section Advance

variable {b : Buffer} {c : Char} {cs : List Char}

theorem peek?_eq_head? (b : Buffer) : b.peek? = (b.text.drop b.position).head? :=
  List.head?_drop.symm

theorem advance_of_peek? (h : b.peek? = some c) : b.advance =
    { b with position := b.position + 1, line := if c = '\n' then b.line + 1 else b.line } := by
  rw [advance, h]

theorem remaining_advance_lt (h : b.peek? = some c) :
    b.advance.text.length - b.advance.position < b.text.length - b.position := by
  obtain ⟨hlt, -⟩ := List.getElem?_eq_some_iff.1 h
  rw [advance_of_peek? h]
  dsimp only
  omega

@[simp]
theorem text_advance (b : Buffer) : b.advance.text = b.text := by
  rw [advance]
  split <;> rfl

@[simp]
theorem mark_advance (b : Buffer) : b.advance.mark = b.mark := by
  rw [advance]
  split <;> rfl

@[simp]
theorem closed_advance (b : Buffer) : b.advance.closed = b.closed := by
  rw [advance]
  split <;> rfl

end Advance

/-- Passes characters as long as they are of some sort. -/
def advanceWhile (p : Char → Bool) (b : Buffer) : Buffer :=
  if _h : b.peek?.any p = true then b.advance.advanceWhile p else b
termination_by b.text.length - b.position
decreasing_by
  obtain ⟨c, hc, -⟩ := (Option.any_eq_true _ _).1 _h
  exact remaining_advance_lt hc

/-- The characters between two positions. Positions that do not lie in the text in this order have
none to give. -/
def slice? (b : Buffer) (i j : Nat) : Option (List Char) :=
  if i ≤ j ∧ j ≤ b.text.length then some ((b.text.drop i).take (j - i)) else none

/-- A token made of what has been passed since the mark. -/
def token? (make : List Char → Token) (b : Buffer) : Option (Token × Buffer) :=
  (b.slice? b.mark b.position).map fun lexeme => (make lexeme, b)

/-- The string that ends at a quote ahead, if there is one. Both quotes are left out. -/
def string? (line : Nat) (b : Buffer) : Option (Token × Buffer) :=
  match b.peek? with
  | none => some (⟨.error, Piece.Fault.unclosedQuote.message, line⟩, b)
  | some _ =>
    (b.slice? (b.mark + 1) b.position).map fun body =>
      (⟨.string, String.ofList body, line⟩, b.advance)

/-- The token whose first character has been passed. -/
def scan? (line : Nat) (c : Char) (b : Buffer) : Option (Token × Buffer) :=
  if c.isDigit then
    (b.advanceWhile Char.isDigit).token? fun digits => ⟨.integer, String.ofList digits, line⟩
  else if startsWord c then
    (b.advanceWhile continuesWord).token? fun text => (Piece.word text).token line
  else if c = quote then (b.advanceWhile (· != quote)).string? line
  else if c = ':' then b.token? fun text => ⟨.colon, String.ofList text, line⟩
  else if c = ';' then b.token? fun text => ⟨.semicolon, String.ofList text, line⟩
  else some ((Piece.stray c).token line, b)

/-- The buffer at the next token, which is marked. -/
def markToken (b : Buffer) : Buffer :=
  let b := b.advanceWhile isBlank
  { b with mark := b.position }

/-- Reads the next token. There is none where characters are asked for that do not lie in the
text. -/
def next? (b : Buffer) : Option (Token × Buffer) :=
  let b := b.markToken
  match b.peek? with
  | none => some (.endOfFile b.line, b)
  | some c => b.advance.scan? b.line c

section AdvanceWhile

variable {p : Char → Bool}

theorem advanceWhile_of_any {b : Buffer} (h : b.peek?.any p = true) :
    b.advanceWhile p = b.advance.advanceWhile p := by
  rw [advanceWhile, dif_pos h]

theorem advanceWhile_of_not_any {b : Buffer} (h : ¬ b.peek?.any p = true) :
    b.advanceWhile p = b := by
  rw [advanceWhile, dif_neg h]

@[simp]
theorem text_advanceWhile (b : Buffer) : (b.advanceWhile p).text = b.text := by
  induction b using advanceWhile.induct p with
  | case1 b h ih => rw [advanceWhile_of_any h, ih, text_advance]
  | case2 b h => rw [advanceWhile_of_not_any h]

@[simp]
theorem closed_advanceWhile (b : Buffer) : (b.advanceWhile p).closed = b.closed := by
  induction b using advanceWhile.induct p with
  | case1 b h ih => rw [advanceWhile_of_any h, ih, closed_advance]
  | case2 b h => rw [advanceWhile_of_not_any h]

theorem advance_with_mark (b : Buffer) (mark : Nat) :
    advance { b with mark } = { b.advance with mark } := by
  rw [advance, advance, show peek? { b with mark } = b.peek? from rfl]
  split <;> rfl

theorem advanceWhile_with_mark (b : Buffer) (mark : Nat) :
    advanceWhile p { b with mark } = { b.advanceWhile p with mark } := by
  induction b using advanceWhile.induct p with
  | case1 b h ih =>
    have hmark : (peek? { b with mark }).any p = true := h
    rw [advanceWhile_of_any h, advanceWhile_of_any hmark, advance_with_mark, ih]
  | case2 b h =>
    have hmark : ¬ (peek? { b with mark }).any p = true := h
    rw [advanceWhile_of_not_any h, advanceWhile_of_not_any hmark]

end AdvanceWhile

/-- What has been passed since the mark, which stands on a given line, and what is left. -/
structure Spans (b : Buffer) (line : Nat) (since rest : List Char) : Prop where
  mark_le : b.mark ≤ b.text.length
  text : b.text.drop b.mark = since ++ rest
  position : b.position = b.mark + since.length
  line_eq : b.line = line + since.count '\n'

namespace Spans

variable {b : Buffer} {line : Nat} {since rest : List Char} {c : Char}

theorem mark_le_position (h : Spans b line since rest) : b.mark ≤ b.position := by
  rw [h.position]
  exact Nat.le_add_right _ _

theorem position_le (h : Spans b line since rest) : b.position ≤ b.text.length := by
  have hlength := congrArg List.length h.text
  rw [List.length_drop, List.length_append] at hlength
  have hmark := h.mark_le
  rw [h.position]
  omega

theorem drop_position (h : Spans b line since rest) : b.text.drop b.position = rest := by
  rw [h.position, ← List.drop_drop, h.text, List.drop_left]

theorem stream_eq (h : Spans b line since rest) :
    b.stream = ⟨rest, line + since.count '\n', b.closed⟩ := by
  rw [stream, h.drop_position, h.line_eq]

theorem peek?_eq (h : Spans b line since rest) : b.peek? = rest.head? := by
  rw [peek?_eq_head?, h.drop_position]

theorem slice?_eq (h : Spans b line since rest) : b.slice? b.mark b.position = some since := by
  rw [slice?, if_pos ⟨h.mark_le_position, h.position_le⟩, h.text, h.position,
    Nat.add_sub_cancel_left, List.take_left]

theorem slice?_tail (h : Spans b line (c :: since) rest) :
    b.slice? (b.mark + 1) b.position = some since := by
  have hposition := h.position
  rw [List.length_cons] at hposition
  have htail : b.text.drop (b.mark + 1) = since ++ rest := by
    rw [← List.drop_drop, h.text]
    rfl
  rw [slice?, if_pos ⟨by omega, h.position_le⟩, htail, hposition,
    show b.mark + (since.length + 1) - (b.mark + 1) = since.length by omega, List.take_left]

theorem advance (h : Spans b line since (c :: rest)) :
    Spans b.advance line (since ++ [c]) rest := by
  have hpeek : b.peek? = some c := h.peek?_eq
  refine ⟨?_, ?_, ?_, ?_⟩
  · rw [mark_advance, text_advance]
    exact h.mark_le
  · rw [mark_advance, text_advance, h.text, List.append_assoc]
    rfl
  · rw [mark_advance, advance_of_peek? hpeek, h.position, List.length_append, List.length_singleton]
    rfl
  · rw [advance_of_peek? hpeek, List.count_append, List.count_singleton, h.line_eq]
    simp only [beq_iff_eq]
    split <;> rfl

theorem advanceWhile (p : Char → Bool) (h : Spans b line since rest) :
    Spans (b.advanceWhile p) line (since ++ rest.takeWhile p) (rest.dropWhile p) := by
  induction rest generalizing b since with
  | nil =>
    rw [advanceWhile_of_not_any (by rw [h.peek?_eq]; simp)]
    simpa using h
  | cons c rest ih =>
    cases hc : p c with
    | true =>
      rw [advanceWhile_of_any (by rw [h.peek?_eq]; simpa using hc), List.takeWhile_cons_of_pos hc,
        List.dropWhile_cons_of_pos hc, ← List.singleton_append, ← List.append_assoc]
      exact ih h.advance
    | false =>
      rw [advanceWhile_of_not_any (by rw [h.peek?_eq]; simp [hc]),
        List.takeWhile_cons_of_neg (by simp [hc]), List.dropWhile_cons_of_neg (by simp [hc]),
        List.append_nil]
      exact h

theorem token?_eq (h : Spans b line since rest) (make : List Char → Token) :
    b.token? make = some (make since, b) := by
  rw [token?, h.slice?_eq]
  rfl

theorem string?_eq (h : Spans b line [quote] rest) :
    ∃ b', (b.advanceWhile (· != quote)).string? line =
        some ((Piece.afterQuote rest).1.token line, b') ∧
      Spans b' line (Piece.afterQuote rest).1.text (Piece.afterQuote rest).2 ∧
      b'.text = b.text ∧ b'.closed = b.closed := by
  have hbody := h.advanceWhile (· != quote)
  rw [string?, hbody.peek?_eq, Piece.afterQuote]
  cases hrest : rest.dropWhile (· != quote) with
  | nil =>
    have hall := List.takeWhile_append_dropWhile (p := (· != quote)) (l := rest)
    rw [hrest, List.append_nil] at hall
    rw [hrest, hall] at hbody
    exact ⟨_, rfl, hbody, text_advanceWhile b, closed_advanceWhile b⟩
  | cons d rest' =>
    have hd : d = quote := by
      simpa [hrest] using List.head?_dropWhile_not (· != quote) rest
    rw [hrest, hd] at hbody
    refine ⟨(b.advanceWhile (· != quote)).advance, ?_, hbody.advance, ?_, ?_⟩
    · rw [List.head?_cons]
      dsimp only
      rw [hbody.slice?_tail]
      rfl
    · rw [text_advance, text_advanceWhile]
    · rw [closed_advance, closed_advanceWhile]

/-- The token whose first character has been passed is that of the piece that a stream reads
there. -/
theorem scan?_eq (h : Spans b line [c] rest) :
    ∃ b', b.scan? line c = some ((Piece.split c rest).1.token line, b') ∧
      Spans b' line (Piece.split c rest).1.text (Piece.split c rest).2 ∧
      b'.text = b.text ∧ b'.closed = b.closed := by
  rw [scan?, Piece.split]
  split
  · have hdigits := h.advanceWhile Char.isDigit
    exact ⟨_, hdigits.token?_eq _, hdigits, text_advanceWhile b, closed_advanceWhile b⟩
  split
  · have hword := h.advanceWhile continuesWord
    exact ⟨_, hword.token?_eq _, hword, text_advanceWhile b, closed_advanceWhile b⟩
  split
  · rename_i hquote
    rw [hquote] at h
    exact h.string?_eq
  split
  · rename_i hcolon
    rw [hcolon] at h
    exact ⟨b, h.token?_eq _, h, rfl, rfl⟩
  split
  · rename_i hsemicolon
    rw [hsemicolon] at h
    exact ⟨b, h.token?_eq _, h, rfl, rfl⟩
  · exact ⟨b, rfl, h, rfl, rfl⟩

end Spans

/-- The place of a buffer lies in its text, not in front of the mark. -/
structure IsWithin (b : Buffer) : Prop where
  mark_le : b.mark ≤ b.position
  position_le : b.position ≤ b.text.length

theorem Spans.isWithin {b : Buffer} {line : Nat} {since rest : List Char}
    (h : Spans b line since rest) : b.IsWithin :=
  ⟨h.mark_le_position, h.position_le⟩

theorem Spans.mark_position {b : Buffer} {line : Nat} {since rest : List Char}
    (h : Spans b line since rest) :
    Spans { b with mark := b.position } (line + since.count '\n') [] rest where
  mark_le := h.position_le
  text := h.drop_position
  position := rfl
  line_eq := h.line_eq

theorem spans_markToken {b : Buffer} (h : b.position ≤ b.text.length) :
    Spans b.markToken b.stream.skipBlanks.line [] b.stream.skipBlanks.unread := by
  have hhere : Spans { b with mark := b.position } b.line [] b.stream.unread := ⟨h, rfl, rfl, rfl⟩
  have hblanks := (hhere.advanceWhile isBlank).mark_position
  rw [advanceWhile_with_mark] at hblanks
  exact hblanks

@[simp]
theorem text_markToken (b : Buffer) : b.markToken.text = b.text :=
  text_advanceWhile b

@[simp]
theorem closed_markToken (b : Buffer) : b.markToken.closed = b.closed :=
  closed_advanceWhile b

/-- A result over a buffer that answers as a stream does and still holds the whole text. -/
def Agrees {α : Type} (text : List Char) (result : Option (α × Buffer)) (p : α × Stream) : Prop :=
  ∃ b, result = some (p.1, b) ∧ b.stream = p.2 ∧ b.text = text ∧ b.IsWithin

theorem agrees_next {b : Buffer} (h : b.position ≤ b.text.length) :
    Agrees b.text b.next? b.stream.next := by
  have hmark := spans_markToken h
  cases hunread : b.stream.skipBlanks.unread with
  | nil =>
    rw [hunread] at hmark
    have hpeek : b.markToken.peek? = none := hmark.peek?_eq
    have hread : b.stream.next = (.endOfFile b.stream.skipBlanks.line, b.stream.skipBlanks) := by
      rw [Stream.next, Stream.read, hunread]
    rw [hread]
    refine ⟨b.markToken, ?_, ?_, text_markToken b, hmark.isWithin⟩
    · simp only [next?, hpeek, hmark.line_eq, List.count_nil, Nat.add_zero]
    · rw [hmark.stream_eq, List.count_nil, Nat.add_zero, closed_markToken, ← hunread]
      rfl
  | cons c cs =>
    rw [hunread] at hmark
    have hpeek : b.markToken.peek? = some c := hmark.peek?_eq
    have hread : b.stream.next = ((Piece.split c cs).1.token b.stream.skipBlanks.line,
        ⟨(Piece.split c cs).2, b.stream.skipBlanks.line + (Piece.split c cs).1.text.count '\n',
          b.closed⟩) := by
      rw [Stream.next, Stream.read, hunread]
      rfl
    obtain ⟨b', hscan, hspans, htext, hclosed⟩ := hmark.advance.scan?_eq
    rw [text_advance, text_markToken] at htext
    rw [closed_advance, closed_markToken] at hclosed
    rw [hread]
    refine ⟨b', ?_, ?_, htext, hspans.isWithin⟩
    · simp only [next?, hpeek, hmark.line_eq, List.count_nil, Nat.add_zero]
      exact hscan
    · rw [hspans.stream_eq, hclosed]

end Buffer

end Codebook
