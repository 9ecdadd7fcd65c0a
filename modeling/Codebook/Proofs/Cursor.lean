import Codebook.Token.Cursor

namespace Codebook.Cursor

attribute [ext] Cursor

/-- The cursor some tokens further on, or behind the last token. -/
def skip (c : Cursor) (n : Nat) : Cursor where
  passed := (c.ahead.take n).reverse ++ c.passed
  ahead := c.ahead.drop n
  nonempty := by
    intro h
    simp only [List.append_eq_nil_iff, List.reverse_eq_nil_iff] at h
    apply c.nonempty
    rw [← List.take_append_drop n c.ahead, h.1, h.2.1, h.2.2]
    rfl

@[simp]
theorem ahead_skip (c : Cursor) (n : Nat) : (c.skip n).ahead = c.ahead.drop n :=
  rfl

@[simp]
theorem passed_skip (c : Cursor) (n : Nat) :
    (c.skip n).passed = (c.ahead.take n).reverse ++ c.passed :=
  rfl

@[simp]
theorem skip_zero (c : Cursor) : c.skip 0 = c := by
  ext <;> simp [skip]

@[simp]
theorem skip_skip (c : Cursor) (m n : Nat) : (c.skip m).skip n = c.skip (m + n) := by
  apply Cursor.ext
  · simp [skip, List.take_add]
  · simp

@[simp]
theorem tokens_skip (c : Cursor) (n : Nat) : (c.skip n).tokens = c.tokens := by
  simp [tokens, skip]

theorem advance_eq_skip {c : Cursor} {t : Token} {ts : List Token} (h : c.ahead = t :: ts)
    (ht : t.kind ≠ .endOfFile) : c.advance = c.skip 1 := by
  obtain ⟨passed, ahead, nonempty⟩ := c
  subst h
  simp [advance, ht, skip]

theorem recover_eq_skip (c : Cursor) :
    c.recover = c.skip (c.ahead.takeWhile isSkipped).length := by
  have hp := List.takeWhile_append_dropWhile (p := isSkipped) (l := c.ahead)
  apply Cursor.ext
  · simp only [recover, skip]
    rw [← List.prefix_iff_eq_take.1 (List.takeWhile_prefix isSkipped)]
  · have hd := congrArg (List.drop (c.ahead.takeWhile isSkipped).length) hp
    rw [List.drop_left] at hd
    exact hd

theorem check_of_ahead {c : Cursor} {t : Token} {ts : List Token} (h : c.ahead = t :: ts)
    (kind : Token.Kind) : c.check kind = (t.kind == kind) := by
  rw [check, h]
  rfl

theorem check_eq_true_iff {c : Cursor} {kind : Token.Kind} :
    c.check kind = true ↔ ∃ t ts, c.ahead = t :: ts ∧ t.kind = kind := by
  rw [check]
  cases c.ahead <;> simp

theorem isAtEnd_eq_true_iff {c : Cursor} :
    c.isAtEnd = true ↔ ∀ t ∈ c.ahead.head?, t.kind = .endOfFile := by
  rw [isAtEnd]
  cases c.ahead <;> simp

theorem isAtEnd_eq_false_iff {c : Cursor} :
    c.isAtEnd = false ↔ ∃ t ts, c.ahead = t :: ts ∧ t.kind ≠ .endOfFile := by
  rw [isAtEnd]
  cases c.ahead <;> simp

theorem peek_of_ahead {c : Cursor} {t : Token} {ts : List Token} (h : c.ahead = t :: ts) :
    c.peek = t := by
  obtain ⟨passed, ahead, nonempty⟩ := c
  subst h
  rfl

theorem isAtEnd_of_check {c : Cursor} {kind : Token.Kind} (h : c.check kind = true)
    (hkind : kind ≠ .endOfFile) : c.isAtEnd = false := by
  obtain ⟨t, ts, hts, ht⟩ := check_eq_true_iff.1 h
  exact isAtEnd_eq_false_iff.2 ⟨t, ts, hts, ht ▸ hkind⟩

theorem recover_check_or_isAtEnd (c : Cursor) :
    c.recover.check (.keyword .enumeration) = true ∨ c.recover.isAtEnd = true := by
  cases h : c.ahead.dropWhile isSkipped with
  | nil => exact .inr (isAtEnd_eq_true_iff.2 (by simp [recover, h]))
  | cons t ts =>
    have ht : isSkipped t = false := by
      have hd := List.head?_dropWhile_not isSkipped c.ahead
      simpa [h] using hd
    by_cases hs : t.kind = .keyword .enumeration
    · exact .inl (check_eq_true_iff.2 ⟨t, ts, h, hs⟩)
    · have he : t.kind = .endOfFile := by simpa [isSkipped, hs] using ht
      exact .inr (isAtEnd_eq_true_iff.2 (by simp [recover, h, he]))

end Codebook.Cursor
