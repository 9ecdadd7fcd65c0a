import Codebook.Token.Basic

namespace Codebook

/-- A place in a list of tokens: those passed, the nearest first, and those ahead. There is
always a token to look at. -/
structure Cursor where
  passed : List Token
  ahead : List Token
  nonempty : ahead ++ passed ≠ []
  deriving DecidableEq

namespace Cursor

/-- The cursor at the start of some tokens. No tokens at all read as the end of a file. -/
def ofTokens : List Token → Cursor
  | [] => ⟨[], [.endOfFile 1], by simp⟩
  | t :: ts => ⟨[], t :: ts, by simp⟩

def tokens (c : Cursor) : List Token :=
  c.passed.reverse ++ c.ahead

def position (c : Cursor) : Nat :=
  c.passed.length

def peek (c : Cursor) : Token :=
  (c.ahead ++ c.passed).head c.nonempty

def check (c : Cursor) (kind : Token.Kind) : Bool :=
  c.ahead.head?.any (·.kind == kind)

def isAtEnd (c : Cursor) : Bool :=
  c.ahead.head?.all (·.kind == .endOfFile)

/-- The cursor one token further on. At the end it stays. -/
def advance : Cursor → Cursor
  | ⟨passed, [], nonempty⟩ => ⟨passed, [], nonempty⟩
  | ⟨passed, t :: ts, nonempty⟩ =>
    if t.kind = .endOfFile then ⟨passed, t :: ts, nonempty⟩ else ⟨t :: passed, ts, by simp⟩

/-- The tokens that recovery skips: all but the start of a declaration and the end. -/
def isSkipped (t : Token) : Bool :=
  t.kind != .keyword .enumeration && t.kind != .endOfFile

/-- The cursor at the next start of a declaration, or at the end. -/
def recover (c : Cursor) : Cursor where
  passed := (c.ahead.takeWhile isSkipped).reverse ++ c.passed
  ahead := c.ahead.dropWhile isSkipped
  nonempty := by
    intro h
    simp only [List.append_eq_nil_iff, List.reverse_eq_nil_iff] at h
    apply c.nonempty
    rw [← List.takeWhile_append_dropWhile (p := isSkipped) (l := c.ahead), h.1, h.2.1, h.2.2]
    rfl

@[simp]
theorem tokens_ofTokens {ts : List Token} (h : ts ≠ []) : (ofTokens ts).tokens = ts := by
  cases ts with
  | nil => exact absurd rfl h
  | cons t ts => rfl

@[simp]
theorem tokens_advance (c : Cursor) : c.advance.tokens = c.tokens := by
  unfold advance
  split
  · rfl
  · split <;> simp [tokens]

theorem ahead_advance_le (c : Cursor) : c.advance.ahead.length ≤ c.ahead.length := by
  unfold advance
  split
  · exact Nat.le_refl _
  · split <;> simp

theorem ahead_recover_le (c : Cursor) : c.recover.ahead.length ≤ c.ahead.length :=
  (List.dropWhile_suffix isSkipped).length_le

theorem ahead_advance_lt {c : Cursor} (h : c.isAtEnd = false) :
    c.advance.ahead.length < c.ahead.length := by
  obtain ⟨passed, ahead, nonempty⟩ := c
  cases ahead with
  | nil => simp [isAtEnd] at h
  | cons t ts =>
    have ht : t.kind ≠ .endOfFile := by simpa [isAtEnd] using h
    simp [advance, ht]

theorem ahead_recover_lt {c : Cursor} (hend : c.isAtEnd = false)
    (hstart : c.check (.keyword .enumeration) = false) :
    c.recover.ahead.length < c.ahead.length := by
  obtain ⟨passed, ahead, nonempty⟩ := c
  cases ahead with
  | nil => simp [isAtEnd] at hend
  | cons t ts =>
    have he : t.kind ≠ .endOfFile := by simpa [isAtEnd] using hend
    have hs : t.kind ≠ .keyword .enumeration := by simpa [check] using hstart
    have hskip : isSkipped t = true := by simp [isSkipped, he, hs]
    have hrest : (ts.dropWhile isSkipped).length ≤ ts.length :=
      (List.dropWhile_suffix isSkipped).length_le
    simpa [recover, List.dropWhile_cons_of_pos hskip] using Nat.lt_succ_of_le hrest

end Cursor

end Codebook
