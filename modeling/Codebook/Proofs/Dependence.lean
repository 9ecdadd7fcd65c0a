import Codebook.Proofs.Attempts

namespace Codebook

/-- What is read of a token: not its line, and its lexeme only where that is a value. -/
def Token.bare (t : Token) : Token where
  kind := t.kind
  lexeme := if t.kind = .string ∨ t.kind = .integer then t.lexeme else ""
  line := 0

/-- A rejection without its line, and with what is read of the token that was found. -/
def Rejection.bare : Rejection → Rejection
  | unexpectedToken expected found reason => unexpectedToken expected found.bare reason
  | unknownCategory value _ => unknownCategory value 0
  | overflow lexeme limit _ => overflow lexeme limit 0

def Event.bare : Event → Event
  | rejected r => rejected r.bare
  | e => e

theorem Declaration.Step.fill_bare {step : Step} (h : step ∈ steps) {t : Token}
    (hk : t.kind = step.kind) (e : Entry) :
    step.fill t.bare e = (step.fill t e).mapError Rejection.bare :=
  fill_of_lexeme h hk (fun hvalue => if_pos hvalue) rfl (fun _ => rfl) e

/-- The tokens up to the first end of file, and that one. -/
def upToEnd : List Token → List Token
  | [] => []
  | t :: ts => if t.kind = .endOfFile then [t] else t :: upToEnd ts

theorem upToEnd_eq_nil_iff {ts : List Token} : upToEnd ts = [] ↔ ts = [] := by
  cases ts with
  | nil => exact Iff.rfl
  | cons t ts =>
    rw [upToEnd]
    split <;> simp

theorem head_upToEnd (ts : List Token) : (upToEnd ts).head? = ts.head? := by
  cases ts with
  | nil => rfl
  | cons t ts =>
    rw [upToEnd]
    split <;> rfl

namespace Cursor

theorem takeWhile_isSkipped_upToEnd (ts : List Token) :
    (upToEnd ts).takeWhile isSkipped = ts.takeWhile isSkipped := by
  induction ts with
  | nil => rfl
  | cons t ts ih =>
    rw [upToEnd]
    by_cases ht : t.kind = .endOfFile
    · have hskip : ¬ isSkipped t = true := by simp [isSkipped, ht]
      rw [if_pos ht, List.takeWhile_cons_of_neg hskip, List.takeWhile_cons_of_neg hskip]
    · rw [if_neg ht, List.takeWhile_cons, List.takeWhile_cons, ih]

theorem dropWhile_isSkipped_upToEnd (ts : List Token) :
    (upToEnd ts).dropWhile isSkipped = upToEnd (ts.dropWhile isSkipped) := by
  induction ts with
  | nil => rfl
  | cons t ts ih =>
    by_cases ht : isSkipped t = true
    · have hend : t.kind ≠ .endOfFile := by
        intro hend
        simp [isSkipped, hend] at ht
      rw [upToEnd, if_neg hend, List.dropWhile_cons_of_pos ht, List.dropWhile_cons_of_pos ht, ih]
    · rw [List.dropWhile_cons_of_neg ht, upToEnd]
      split
      · exact List.dropWhile_cons_of_neg ht
      · exact List.dropWhile_cons_of_neg ht

/-- What is read of the tokens of a cursor, up to the end of the file. -/
def bare (c : Cursor) : Cursor where
  passed := c.passed.map Token.bare
  ahead := (upToEnd c.ahead).map Token.bare
  nonempty := by
    intro h
    obtain ⟨hahead, hpassed⟩ := List.append_eq_nil_iff.1 h
    apply c.nonempty
    rw [upToEnd_eq_nil_iff.1 (List.map_eq_nil_iff.1 hahead), List.map_eq_nil_iff.1 hpassed]
    rfl

@[simp]
theorem ahead_bare (c : Cursor) : c.bare.ahead = (upToEnd c.ahead).map Token.bare :=
  rfl

@[simp]
theorem passed_bare (c : Cursor) : c.bare.passed = c.passed.map Token.bare :=
  rfl

theorem head_or_head (c : Cursor) : c.ahead.head?.or c.passed.head? = some c.peek := by
  rw [← List.head?_append]
  exact (List.head_eq_iff_head?_eq_some c.nonempty).1 rfl

section Moves

variable (c : Cursor)

theorem position_bare : c.bare.position = c.position :=
  List.length_map _

theorem head_ahead_bare : c.bare.ahead.head? = c.ahead.head?.map Token.bare := by
  rw [ahead_bare, List.head?_map, head_upToEnd]

theorem check_bare (kind : Token.Kind) : c.bare.check kind = c.check kind := by
  rw [check, check, head_ahead_bare, Option.any_map]
  rfl

theorem isAtEnd_bare : c.bare.isAtEnd = c.isAtEnd := by
  rw [isAtEnd, isAtEnd, head_ahead_bare, Option.all_map]
  rfl

theorem peek_bare : c.bare.peek = c.peek.bare := by
  apply Option.some.inj
  rw [← head_or_head, head_ahead_bare, passed_bare, List.head?_map, ← Option.map_or, head_or_head]
  rfl

theorem advance_bare : c.bare.advance = c.advance.bare := by
  cases hend : c.isAtEnd with
  | true =>
    have hend' : c.bare.isAtEnd = true := by rw [isAtEnd_bare, hend]
    rw [advance_of_end hend, advance_of_end hend']
  | false =>
    obtain ⟨t, ts, ha, ht⟩ := isAtEnd_eq_false_iff.1 hend
    have ha' : c.bare.ahead = t.bare :: (upToEnd ts).map Token.bare := by
      rw [ahead_bare, ha, upToEnd, if_neg ht, List.map_cons]
    rw [advance_eq_skip ha ht, advance_eq_skip ha' ht]
    apply Cursor.ext
    · rw [passed_skip, ha', passed_bare, passed_bare, passed_skip, ha]
      rfl
    · rw [ahead_skip, ha', ahead_bare, ahead_skip, ha]
      rfl

theorem recover_bare : c.bare.recover = c.recover.bare := by
  have hskip : isSkipped ∘ Token.bare = isSkipped := rfl
  apply Cursor.ext
  · simp only [recover, ahead_bare, passed_bare, List.takeWhile_map, hskip,
      takeWhile_isSkipped_upToEnd, List.map_append, List.map_reverse]
  · simp only [recover, ahead_bare, List.dropWhile_map, hskip, dropWhile_isSkipped_upToEnd]

end Moves

section Steps

open Declaration

theorem follow_bare {steps : List Step} (hs : ∀ step ∈ steps, step ∈ Declaration.steps)
    (c : Cursor) (e : Entry) : c.bare.follow steps e =
      ((c.follow steps e).1.mapError Rejection.bare, (c.follow steps e).2.bare) := by
  induction steps generalizing c e with
  | nil => rfl
  | cons step steps ih =>
    obtain ⟨hstep, hrest⟩ := List.forall_mem_cons.1 hs
    cases hcheck : c.check step.kind with
    | false =>
      have hcheck' : c.bare.check step.kind = false := by rw [check_bare, hcheck]
      rw [follow_cons_of_not_check hcheck, follow_cons_of_not_check hcheck', peek_bare]
      rfl
    | true =>
      have hcheck' : c.bare.check step.kind = true := by rw [check_bare, hcheck]
      have hk : c.peek.kind = step.kind := by
        obtain ⟨t, ts, ha, hk⟩ := check_eq_true_iff.1 hcheck
        rw [peek_of_ahead ha, hk]
      simp only [follow, expect_of_check hcheck, expect_of_check hcheck', peek_bare, advance_bare,
        Step.fill_bare hstep hk]
      cases step.fill c.peek e with
      | error r => rfl
      | ok e' => exact ih hrest c.advance e'

theorem declaration_bare (c : Cursor) : c.bare.declaration =
    (c.declaration.1.mapError Rejection.bare, c.declaration.2.bare) :=
  follow_bare (fun _ h => h) c .blank

end Steps

end Cursor

/-- What is read of a pass over tokens that are read the same way. -/
def Pass.bare (p : Pass) : Pass where
  reading := { p.reading with rejections := p.reading.rejections.map Rejection.bare }
  events := p.events.map Event.bare
  cursor := p.cursor.bare

namespace Cursor

theorem reached?_bare (c : Cursor) (limit : Option Nat) (rejected : Nat) :
    c.bare.reached? limit rejected = c.reached? limit rejected := by
  rw [reached?, reached?, isAtEnd_bare]

theorem readOn_bare (limit : Option Nat) (rejected : Nat) (c : Cursor) :
    c.bare.readOn limit rejected = (c.readOn limit rejected).bare := by
  induction h : c.ahead.length using Nat.strongRecOn generalizing c rejected with
  | ind n ih =>
    subst h
    cases hend : c.isAtEnd with
    | true =>
      have hend' : c.bare.isAtEnd = true := by rw [isAtEnd_bare, hend]
      rw [readOn_of_end hend, readOn_of_end hend']
      rfl
    | false =>
      have hend' : c.bare.isAtEnd = false := by rw [isAtEnd_bare, hend]
      have hlt := ahead_attempt_lt hend
      have hd' := c.declaration_bare
      cases hd : c.declaration with
      | mk outcome c' =>
        rw [hd] at hd'
        cases outcome with
        | ok e =>
          rw [attempt_of_ok hd] at hlt
          rw [readOn_of_ok hend hd, readOn_of_ok hend' hd', ih _ hlt _ _ rfl]
          rfl
        | error r =>
          rw [attempt_of_error hd] at hlt
          rw [readOn_of_error hend hd, readOn_of_error hend' hd', recover_bare, reached?_bare]
          cases c'.recover.reached? limit (rejected + 1) with
          | some limit => rfl
          | none =>
            simp only
            rw [ih _ hlt _ _ rfl]
            rfl

theorem read_bare (limit : Option Nat) (c : Cursor) :
    c.bare.read limit = (c.read limit).bare := by
  rw [read, read, readOn_bare, Pass.finish, Pass.finish]
  simp [Pass.bare, Event.bare]

theorem bare_ofTokens {ts ts' : List Token}
    (h : (upToEnd ts).map Token.bare = (upToEnd ts').map Token.bare) :
    (ofTokens ts).bare = (ofTokens ts').bare := by
  cases ts with
  | nil =>
    rw [upToEnd, List.map_nil, eq_comm, List.map_eq_nil_iff, upToEnd_eq_nil_iff] at h
    rw [h]
  | cons t ts =>
    cases ts' with
    | nil =>
      rw [upToEnd, List.map_nil, List.map_eq_nil_iff, upToEnd_eq_nil_iff] at h
      cases h
    | cons t' ts' => exact Cursor.ext rfl h

end Cursor

/-- A reading depends on nothing but the kinds of tokens and the lexemes of strings and numbers, up
to the first end of file. -/
theorem reading_depends_on_bare {ts ts' : List Token}
    (h : (upToEnd ts).map Token.bare = (upToEnd ts').map Token.bare) (limit : Option Nat) :
    let p := (Cursor.ofTokens ts).read limit
    let p' := (Cursor.ofTokens ts').read limit
    p.reading.entries = p'.reading.entries ∧ p.reading.truncated = p'.reading.truncated ∧
      p.cursor.position = p'.cursor.position ∧
      p.reading.rejections.map Rejection.bare = p'.reading.rejections.map Rejection.bare ∧
      p.events.map Event.bare = p'.events.map Event.bare := by
  intro p p'
  have hbare : p.bare = p'.bare := by
    rw [← Cursor.read_bare, ← Cursor.read_bare, Cursor.bare_ofTokens h]
  have hentries := congrArg (·.reading.entries) hbare
  have htruncated := congrArg (·.reading.truncated) hbare
  have hposition := congrArg (·.cursor.position) hbare
  have hrejections := congrArg (·.reading.rejections) hbare
  have hevents := congrArg Pass.events hbare
  simp only [Pass.bare, Cursor.position_bare] at hposition
  exact ⟨hentries, htruncated, hposition, hrejections, hevents⟩

/-- The lines differ, and the words of a keyword, and what follows the end of the file. -/
theorem reading_depends_on_bare_cut_short :
    let ts : List Token :=
      [⟨.keyword .enumeration, "enumeration", 1⟩, ⟨.integer, "65536", 1⟩, .endOfFile 1]
    let ts' : List Token :=
      [⟨.keyword .enumeration, "", 5⟩, ⟨.integer, "65536", 3⟩, ⟨.endOfFile, "#", 4⟩, ⟨.colon, ":", 4⟩]
    (upToEnd ts).map Token.bare = (upToEnd ts').map Token.bare ∧
      let p := (Cursor.ofTokens ts).read (some 0)
      let p' := (Cursor.ofTokens ts').read (some 0)
      p.reading.entries = p'.reading.entries ∧ p.reading.truncated = p'.reading.truncated ∧
        p.cursor.position = p'.cursor.position ∧
        p.reading.rejections.map Rejection.bare = p'.reading.rejections.map Rejection.bare ∧
        p.events.map Event.bare = p'.events.map Event.bare := by
  intro ts ts'
  have h : (upToEnd ts).map Token.bare = (upToEnd ts').map Token.bare := by decide
  exact ⟨h, reading_depends_on_bare h (some 0)⟩

end Codebook
