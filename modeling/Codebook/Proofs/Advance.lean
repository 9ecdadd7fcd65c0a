import Codebook.Proofs.Declaration

namespace Codebook.Cursor

section Place

variable {c : Cursor}

theorem getElem?_position (c : Cursor) : c.tokens[c.position]? = c.ahead.head? := by
  rw [tokens, position, List.getElem?_append_right (by simp), List.length_reverse, Nat.sub_self,
    List.head?_eq_getElem?]

theorem position_add_ahead (c : Cursor) : c.position + c.ahead.length = c.tokens.length := by
  simp [tokens, position]

theorem position_le (c : Cursor) : c.position ≤ c.tokens.length :=
  position_add_ahead c ▸ Nat.le_add_right _ _

theorem position_lt (h : c.isAtEnd = false) : c.position < c.tokens.length := by
  obtain ⟨t, ts, ha, -⟩ := isAtEnd_eq_false_iff.1 h
  rw [← position_add_ahead c, ha, List.length_cons]
  omega

theorem getElem?_peek (c : Cursor) :
    c.tokens[min c.position (c.tokens.length - 1)]? = some c.peek := by
  cases ha : c.ahead with
  | cons t ts =>
    have hlt : c.position < c.tokens.length := by simp [tokens, position, ha]
    rw [Nat.min_eq_left (Nat.le_sub_one_of_lt hlt), getElem?_position, ha, peek_of_ahead ha]
    rfl
  | nil =>
    have htokens : c.tokens = c.passed.reverse := by rw [tokens, ha, List.append_nil]
    have hposition : c.position = c.tokens.length := by rw [htokens, List.length_reverse, position]
    have hhead : c.passed.head? = some c.peek := by
      apply (List.head_eq_iff_head?_eq_some (fun h => c.nonempty (by rw [ha, h]; rfl))).1
      simp only [peek, ha, List.nil_append]
    rw [hposition, Nat.min_eq_right (Nat.sub_le _ _), ← List.getLast?_eq_getElem?, htokens,
      List.getLast?_reverse, hhead]

theorem advance_of_end (h : c.isAtEnd = true) : c.advance = c := by
  obtain ⟨passed, ahead, nonempty⟩ := c
  cases ahead with
  | nil => rfl
  | cons t ts => exact if_pos (isAtEnd_eq_true_iff.1 h t rfl)

theorem exists_advance_of_not_end (h : c.isAtEnd = false) :
    ∃ t, t.kind ≠ .endOfFile ∧ c.advance.passed = t :: c.passed := by
  obtain ⟨t, ts, ha, ht⟩ := isAtEnd_eq_false_iff.1 h
  refine ⟨t, ht, ?_⟩
  rw [advance_eq_skip ha ht]
  simp [skip, ha]

theorem position_advance (c : Cursor) :
    c.advance.position = if c.isAtEnd then c.position else c.position + 1 := by
  cases h : c.isAtEnd with
  | true => rw [advance_of_end h, if_pos rfl]
  | false =>
    obtain ⟨t, -, hpassed⟩ := exists_advance_of_not_end h
    rw [position, hpassed]
    rfl

end Place

/-- A cursor that another one comes to by advancing. -/
inductive Advances (c : Cursor) : Cursor → Prop where
  | refl : Advances c c
  | step {c' : Cursor} : Advances c c' → Advances c c'.advance

namespace Advances

variable {c c' c'' : Cursor}

theorem advance (c : Cursor) : Advances c c.advance :=
  refl.step

theorem trans (h : Advances c c') (h' : Advances c' c'') : Advances c c'' := by
  induction h' with
  | refl => exact h
  | step _ ih => exact ih.step

theorem expect (c : Cursor) (kind : Token.Kind) (reason : String) :
    Advances c (c.expect kind reason).2 := by
  rw [Cursor.expect]
  split
  · exact advance c
  · exact refl

theorem follow (c : Cursor) (steps : List Declaration.Step) (e : Entry) :
    Advances c (c.follow steps e).2 := by
  induction steps generalizing c e with
  | nil => exact refl
  | cons step steps ih =>
    have hexpect := expect c step.kind step.reason
    rw [Cursor.follow]
    split
    · rename_i heq
      rwa [heq] at hexpect
    · rename_i heq
      rw [heq] at hexpect
      split
      · exact hexpect
      · exact hexpect.trans (ih _ _)

theorem declaration (c : Cursor) : Advances c c.declaration.2 :=
  follow c _ _

theorem recover (c : Cursor) : Advances c c.recover := by
  induction h : c.ahead generalizing c with
  | nil =>
    rw [recover_eq_skip, h]
    exact (skip_zero c).symm ▸ refl
  | cons t ts ih =>
    cases ht : isSkipped t with
    | false =>
      rw [recover_eq_skip, h, List.takeWhile_cons_of_neg (by simp [ht])]
      exact (skip_zero c).symm ▸ refl
    | true =>
      have hkind : t.kind ≠ .endOfFile := by
        simp only [isSkipped, Bool.and_eq_true, bne_iff_ne] at ht
        exact ht.2
      have hone : c.ahead = [t] ++ ts := h
      have hadvance := advance_eq_skip h hkind
      have hrecover : c.advance.recover = c.recover := by
        rw [hadvance]
        exact recover_skip hone (by simpa using ht)
      have hrest := ih c.advance (by rw [hadvance, ahead_skip, h]; rfl)
      rw [hrecover] at hrest
      exact (advance c).trans hrest

theorem tokens (h : Advances c c') : c'.tokens = c.tokens := by
  induction h with
  | refl => rfl
  | step _ ih => rw [tokens_advance, ih]

theorem position_le (h : Advances c c') : c.position ≤ c'.position := by
  induction h with
  | refl => exact Nat.le_refl _
  | step _ ih =>
    rw [position_advance]
    split
    · exact ih
    · exact Nat.le_succ_of_le ih

theorem eq_of_end (h : Advances c c') (hend : c.isAtEnd = true) : c' = c := by
  induction h with
  | refl => rfl
  | step _ ih => rw [ih, advance_of_end hend]

/-- What is advanced over stands in front of what is ahead, and nothing of it ends a file. -/
theorem exists_ahead (h : Advances c c') :
    ∃ ts, c.ahead = ts ++ c'.ahead ∧ ∀ t ∈ ts, t.kind ≠ .endOfFile := by
  induction h with
  | refl => exact ⟨[], rfl, List.forall_mem_nil _⟩
  | @step c' _ ih =>
    obtain ⟨ts, hahead, hts⟩ := ih
    cases hend : c'.isAtEnd with
    | true =>
      rw [advance_of_end hend]
      exact ⟨ts, hahead, hts⟩
    | false =>
      obtain ⟨t, us, hu, ht⟩ := isAtEnd_eq_false_iff.1 hend
      refine ⟨ts ++ [t], ?_, List.forall_mem_append.2 ⟨hts, List.forall_mem_singleton.2 ht⟩⟩
      rw [hahead, advance_eq_skip hu ht, ahead_skip, hu, List.append_assoc]
      rfl

theorem forall_passed (h : Advances c c') (hc : ∀ t ∈ c.passed, t.kind ≠ .endOfFile) :
    ∀ t ∈ c'.passed, t.kind ≠ .endOfFile := by
  induction h with
  | refl => exact hc
  | @step c' _ ih =>
    cases hend : c'.isAtEnd with
    | true =>
      rw [advance_of_end hend]
      exact ih
    | false =>
      obtain ⟨t, ht, hpassed⟩ := exists_advance_of_not_end hend
      rw [hpassed]
      exact List.forall_mem_cons.2 ⟨ht, ih⟩

end Advances

end Codebook.Cursor
