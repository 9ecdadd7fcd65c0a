import Codebook.Declaration.Rejection
import Codebook.Entry.Basic
import Codebook.Numeral
import Codebook.Token.Cursor

namespace Codebook

def maxNumber : Nat :=
  65535

def maxId : Nat :=
  4294967295

/-- The token ahead, if it has the wanted kind. A refusal leaves the cursor where it is. -/
def Cursor.expect (c : Cursor) (kind : Token.Kind) (reason : String) :
    Except Rejection Token × Cursor :=
  if c.check kind then (.ok c.peek, c.advance)
  else (.error (.unexpectedToken kind c.peek reason), c)

def Token.natural (limit : Nat) (t : Token) : Except Rejection Nat :=
  match Numeral.readNat limit t.lexeme.toList with
  | .ok n => .ok n
  | .error _ => .error (.overflow t.lexeme limit t.line)

def Token.category (t : Token) : Except Rejection Category :=
  match Category.read t.lexeme with
  | .ok category => .ok category
  | .error _ => .error (.unknownCategory t.lexeme t.line)

namespace Declaration

/-- One step of a declaration: the kind of its token, what to say of another kind, and what the
token adds to the entry. -/
structure Step where
  kind : Token.Kind
  reason : String
  fill : Token → Entry → Except Rejection Entry

namespace Step

def mark (kind : Token.Kind) (reason : String) : Step :=
  ⟨kind, reason, fun _ e => .ok e⟩

def number : Step where
  kind := .integer
  reason := "Expected declaration number after 'enumeration'"
  fill t e := (t.natural maxNumber).map fun n => { e with number := UInt16.ofNat n }

def category : Step where
  kind := .string
  reason := "Expected quoted value for 'type'"
  fill t e := t.category.map fun category => { e with category }

def title : Step where
  kind := .string
  reason := "Expected quoted value for 'title'"
  fill t e := .ok { e with title := t.lexeme }

def id : Step where
  kind := .integer
  reason := "Expected number for 'id'"
  fill t e := (t.natural maxId).map fun n => { e with id := UInt32.ofNat n }

end Step

/-- The steps of a declaration. No field is optional and none changes place. -/
def steps : List Step :=
  [.mark (.keyword .enumeration) "Expected 'enumeration' at start of declaration",
    .number,
    .mark .colon "Expected ':' after declaration number",
    .mark (.keyword .type) "Expected 'type' field",
    .mark .colon "Expected ':' after 'type'",
    .category,
    .mark (.keyword .title) "Expected 'title' field",
    .mark .colon "Expected ':' after 'title'",
    .title,
    .mark (.keyword .id) "Expected 'id' field",
    .mark .colon "Expected ':' after 'id'",
    .id,
    .mark .semicolon "Expected ';' after declaration"]

end Declaration

namespace Cursor

/-- Takes steps and fills an entry. The cursor stays where the first failure leaves it. -/
def follow (c : Cursor) : List Declaration.Step → Entry → Except Rejection Entry × Cursor
  | [], entry => (.ok entry, c)
  | step :: steps, entry =>
    match c.expect step.kind step.reason with
    | (.error rejection, c) => (.error rejection, c)
    | (.ok token, c) =>
      match step.fill token entry with
      | .error rejection => (.error rejection, c)
      | .ok entry => c.follow steps entry

def declaration (c : Cursor) : Except Rejection Entry × Cursor :=
  c.follow Declaration.steps .blank

theorem expect_of_check {c : Cursor} {kind : Token.Kind} (h : c.check kind = true)
    (reason : String) : c.expect kind reason = (.ok c.peek, c.advance) := by
  simp [expect, h]

theorem expect_of_not_check {c : Cursor} {kind : Token.Kind} (h : c.check kind = false)
    (reason : String) :
    c.expect kind reason = (.error (.unexpectedToken kind c.peek reason), c) := by
  simp [expect, h]

theorem ahead_follow_le (steps : List Declaration.Step) (entry : Entry) (c : Cursor) :
    (c.follow steps entry).2.ahead.length ≤ c.ahead.length := by
  induction steps generalizing entry c with
  | nil => exact Nat.le_refl _
  | cons step steps ih =>
    cases h : c.check step.kind with
    | false => simp [follow, expect_of_not_check h]
    | true =>
      simp only [follow, expect_of_check h]
      split
      · exact c.ahead_advance_le
      · exact Nat.le_trans (ih _ _) c.ahead_advance_le

theorem ahead_declaration_lt {c : Cursor} (h : c.check (.keyword .enumeration) = true) :
    c.declaration.2.ahead.length < c.ahead.length := by
  have hend : c.isAtEnd = false := by
    obtain ⟨passed, ahead, nonempty⟩ := c
    cases ahead with
    | nil => simp [check] at h
    | cons t ts =>
      have : t.kind = .keyword .enumeration := by simpa [check] using h
      simp [isAtEnd, this]
  unfold declaration Declaration.steps
  rw [follow, Declaration.Step.mark]
  simp only [expect_of_check h]
  exact Nat.lt_of_le_of_lt (ahead_follow_le _ _ _) (ahead_advance_lt hend)

theorem declaration_of_not_check {c : Cursor} (h : c.check (.keyword .enumeration) = false) :
    c.declaration = (.error (.unexpectedToken (.keyword .enumeration) c.peek
      "Expected 'enumeration' at start of declaration"), c) := by
  unfold declaration Declaration.steps
  rw [follow, Declaration.Step.mark]
  simp only [expect_of_not_check h]

theorem ahead_lt_of_declaration_ok {c : Cursor} {entry : Entry}
    (h : c.declaration.1 = .ok entry) : c.declaration.2.ahead.length < c.ahead.length := by
  cases hstart : c.check (.keyword .enumeration) with
  | true => exact ahead_declaration_lt hstart
  | false => simp [declaration_of_not_check hstart] at h

/-- A failure and the recovery that follows it take at least one token together. -/
theorem ahead_recover_declaration_lt {c : Cursor} (hend : c.isAtEnd = false) :
    c.declaration.2.recover.ahead.length < c.ahead.length := by
  cases hstart : c.check (.keyword .enumeration) with
  | true => exact Nat.lt_of_le_of_lt (ahead_recover_le _) (ahead_declaration_lt hstart)
  | false =>
    rw [declaration_of_not_check hstart]
    exact ahead_recover_lt hend hstart

end Cursor

end Codebook
