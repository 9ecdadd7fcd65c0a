import Codebook.Proofs.Attempts

namespace Codebook.Cursor

/-- The ways to use a cursor. -/
inductive Call where
  | peek
  | advance
  | check (kind : Token.Kind)
  | isAtEnd
  | expect (kind : Token.Kind) (reason : String)
  | declaration
  | entries (limit : Option Nat)
  | read (limit : Option Nat)
  deriving DecidableEq, Repr

inductive Answer where
  | token (t : Token)
  | holds (holds : Bool)
  | expected (outcome : Except Rejection Token)
  | declared (outcome : Except Rejection Entry)
  | entries (entries : List Entry)
  | reading (reading : Reading)

def answer (c : Cursor) : Call → Answer × Cursor
  | .peek => (.token c.peek, c)
  | .advance => (.token c.peek, c.advance)
  | .check kind => (.holds (c.check kind), c)
  | .isAtEnd => (.holds c.isAtEnd, c)
  | .expect kind reason => (.expected (c.expect kind reason).1, (c.expect kind reason).2)
  | .declaration => (.declared c.declaration.1, c.declaration.2)
  | .entries limit => (.entries (c.read limit).reading.entries, (c.read limit).cursor)
  | .read limit => (.reading (c.read limit).reading, (c.read limit).cursor)

/-- The cursor that some calls leave, made one after the other. -/
def afterCalls (c : Cursor) : List Call → Cursor
  | [] => c
  | call :: calls => (c.answer call).2.afterCalls calls

/-- The calls that only look. To expect something else than what is there is one of them. -/
inductive Call.Looks : Call → Answer → Prop where
  | peek {t : Token} : Looks .peek (.token t)
  | check {kind : Token.Kind} {holds : Bool} : Looks (.check kind) (.holds holds)
  | isAtEnd {holds : Bool} : Looks .isAtEnd (.holds holds)
  | refused {kind : Token.Kind} {reason : String} {r : Rejection} :
      Looks (.expect kind reason) (.expected (.error r))

/-- The calls that answer with a token and go on. -/
inductive Call.Takes : Call → Answer → Token → Prop where
  | advance {t : Token} : Takes .advance (.token t) t
  | expected {kind : Token.Kind} {reason : String} {t : Token} :
      Takes (.expect kind reason) (.expected (.ok t)) t

/-- Where a cursor may be among some tokens, and what it sees there. It is never behind a token
that ends a file. -/
structure IsIn (c : Cursor) (ts : List Token) : Prop where
  tokens : c.tokens = ts
  position_le : c.position ≤ ts.length
  position_le_end {n : Nat} {t : Token} : ts[n]? = some t → t.kind = .endOfFile → c.position ≤ n
  peek : ts[min c.position (ts.length - 1)]? = some c.peek
  check (kind : Token.Kind) : c.check kind = ts[c.position]?.any (·.kind == kind)
  isAtEnd : c.isAtEnd = ts[c.position]?.all (·.kind == .endOfFile)

theorem isIn_tokens {c : Cursor} (hc : ∀ t ∈ c.passed, t.kind ≠ .endOfFile) :
    c.IsIn c.tokens where
  tokens := rfl
  position_le := c.position_le
  position_le_end := by
    intro n t hn ht
    apply Nat.le_of_not_lt
    intro hlt
    have hlt : n < c.passed.reverse.length := by simpa [position] using hlt
    rw [Cursor.tokens, List.getElem?_append_left hlt] at hn
    exact hc t (List.mem_reverse.1 (List.mem_of_getElem? hn)) ht
  peek := c.getElem?_peek
  check kind := by rw [getElem?_position]; rfl
  isAtEnd := by rw [getElem?_position]; rfl

theorem Advances.answer (c : Cursor) (call : Call) : Advances c (c.answer call).2 := by
  cases call with
  | peek => exact refl
  | advance => exact advance c
  | check kind => exact refl
  | isAtEnd => exact refl
  | expect kind reason => exact expect c kind reason
  | declaration => exact declaration c
  | entries limit => exact read limit c
  | read limit => exact read limit c

theorem Advances.afterCalls (c : Cursor) (calls : List Call) : Advances c (c.afterCalls calls) := by
  induction calls generalizing c with
  | nil => exact refl
  | cons call calls ih => exact (answer c call).trans (ih _)

theorem answer_of_looks {c : Cursor} {call : Call} (h : call.Looks (c.answer call).1) :
    (c.answer call).2 = c := by
  cases call with
  | peek => rfl
  | check kind => rfl
  | isAtEnd => rfl
  | expect kind reason =>
    cases hcheck : c.check kind with
    | false => simp only [answer, expect_of_not_check hcheck]
    | true =>
      simp only [answer, expect_of_check hcheck] at h
      cases h
  | _ => cases h

theorem answer_of_takes {c : Cursor} {call : Call} {t : Token}
    (h : call.Takes (c.answer call).1 t) : t = c.peek ∧ (c.answer call).2 = c.advance := by
  cases call with
  | advance =>
    cases h
    exact ⟨rfl, rfl⟩
  | expect kind reason =>
    cases hcheck : c.check kind with
    | false =>
      simp only [answer, expect_of_not_check hcheck] at h
      cases h
    | true =>
      simp only [answer, expect_of_check hcheck] at h
      cases h
      exact ⟨rfl, by simp only [answer, expect_of_check hcheck]⟩
  | _ => cases h

theorem isIn_afterCalls (ts : List Token) (calls : List Call) :
    ((ofTokens ts).afterCalls calls).IsIn (ofTokens ts).tokens := by
  have hadvances := Advances.afterCalls (ofTokens ts) calls
  rw [← hadvances.tokens]
  apply isIn_tokens
  apply hadvances.forall_passed
  cases ts with
  | nil => exact List.forall_mem_nil _
  | cons t ts => exact List.forall_mem_nil _

/-- However a cursor is used, it stays among its tokens, moves by what is taken, and never moves
back. -/
theorem calls_keep_place (ts : List Token) (calls : List Call) :
    let c := (ofTokens ts).afterCalls calls
    c.IsIn (if ts = [] then [.endOfFile 1] else ts) ∧
      (∀ call, call.Looks (c.answer call).1 → (c.answer call).2 = c) ∧
      (∀ call t, call.Takes (c.answer call).1 t → t = c.peek ∧
        (c.answer call).2.position = if c.isAtEnd then c.position else c.position + 1) ∧
      ∀ more, c.position ≤ (c.afterCalls more).position ∧
        (c.isAtEnd = true → c.afterCalls more = c) := by
  intro c
  have htokens : (ofTokens ts).tokens = if ts = [] then [.endOfFile 1] else ts := by
    cases ts with
    | nil => rfl
    | cons t ts => rfl
  refine ⟨htokens ▸ isIn_afterCalls ts calls, fun _ => answer_of_looks, ?_, ?_⟩
  · intro call t h
    obtain ⟨ht, hadvance⟩ := answer_of_takes h
    rw [hadvance]
    exact ⟨ht, position_advance c⟩
  · intro more
    have hadvances := Advances.afterCalls c more
    exact ⟨hadvances.position_le, hadvances.eq_of_end⟩

end Codebook.Cursor
