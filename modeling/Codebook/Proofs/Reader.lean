import Codebook.Proofs.Block

namespace Codebook

/-- A reader that is handed tokens one by one. It is ready for a declaration, within one, or
skipping. -/
inductive Reader where
  | ready
  | within (step : Declaration.Step) (steps : List Declaration.Step) (entry : Entry)
      (proper : step :: steps <:+ Declaration.steps.tail)
  | skipping

namespace Reader

/-- The reader before the next of some steps, or behind the last of them. -/
def after (entry : Entry) : (steps : List Declaration.Step) → steps <:+ Declaration.steps.tail →
    Reader × List (Except Rejection Entry)
  | [], _ => (ready, [.ok entry])
  | step :: steps, h => (within step steps entry h, [])

/-- The reader behind a token that it could not use, unless to start a declaration. -/
def resumed (t : Token) : Reader :=
  if t.kind = .keyword .enumeration then
    (after .blank Declaration.steps.tail (List.suffix_refl _)).1
  else skipping

/-- The reader that takes a step, if it can, with what becomes of the declaration. -/
def meet (step : Declaration.Step) (steps : List Declaration.Step) (entry : Entry)
    (h : steps <:+ Declaration.steps.tail) (t : Token) :
    Reader × List (Except Rejection Entry) :=
  if t.kind = step.kind then
    match step.fill t entry with
    | .ok entry => after entry steps h
    | .error r => (skipping, [.error r])
  else (resumed t, [.error (.unexpectedToken step.kind t step.reason)])

/-- Hands over one token, and says what it settles. -/
def feed : Reader → Token → Reader × List (Except Rejection Entry)
  | ready, t => meet Declaration.start Declaration.steps.tail .blank (List.suffix_refl _) t
  | within step steps entry h, t => meet step steps entry ((List.suffix_cons step steps).trans h) t
  | skipping, t => (resumed t, [])

def feedAll (r : Reader) : List Token → Reader × List (Except Rejection Entry)
  | [] => (r, [])
  | t :: ts =>
    let rest := (r.feed t).1.feedAll ts
    (rest.1, (r.feed t).2 ++ rest.2)

/-- What is settled where the tokens end. A declaration that has begun finds some token there. -/
def finish (found : Token) : Reader → List (Except Rejection Entry)
  | within step _ _ _ => [.error (.unexpectedToken step.kind found step.reason)]
  | _ => []

/-- What becomes of the declarations among some tokens. Where these run out, the last one is found
once more. -/
def outcomes (r : Reader) (last : Token) : List Token → List (Except Rejection Entry)
  | [] => r.finish last
  | t :: ts =>
    if t.kind = .endOfFile then r.finish t
    else (r.feed t).2 ++ (r.feed t).1.outcomes t ts

/-- The reader behind a declaration that was read, or that failed. -/
def behind : Except Rejection Entry → Reader
  | .ok _ => ready
  | .error _ => skipping

section Feed

variable {t : Token}

theorem kind_ne_of_suffix {step : Declaration.Step} {steps : List Declaration.Step}
    (h : step :: steps <:+ Declaration.steps.tail) :
    step.kind ≠ .keyword .enumeration ∧ step.kind ≠ .error := by
  have hkinds : ∀ kind ∈ Declaration.steps.tail.map (·.kind),
      kind ≠ .keyword .enumeration ∧ kind ≠ .error := by decide
  exact hkinds step.kind (List.mem_map_of_mem (h.subset List.mem_cons_self))

theorem feed_of_start (r : Reader) (h : t.kind = .keyword .enumeration) :
    r.feed t = (resumed t, r.finish t) := by
  cases r with
  | ready =>
    have hk : t.kind = Declaration.start.kind := h
    rw [feed, meet, if_pos hk, resumed, if_pos h]
    rfl
  | within step steps e proper =>
    rw [feed, meet, if_neg fun hk => (kind_ne_of_suffix proper).1 (hk.symm.trans h)]
    rfl
  | skipping => rfl

theorem feed_ready_of_ne (h : t.kind ≠ .keyword .enumeration) :
    ready.feed t = (skipping, [.error (Block.misplaced t)]) := by
  have hk : t.kind ≠ Declaration.start.kind := h
  rw [feed, meet, if_neg hk, resumed, if_neg h]
  rfl

end Feed

theorem feedAll_append (r : Reader) (ts us : List Token) :
    r.feedAll (ts ++ us) =
      (((r.feedAll ts).1.feedAll us).1, (r.feedAll ts).2 ++ ((r.feedAll ts).1.feedAll us).2) := by
  induction ts generalizing r with
  | nil => rfl
  | cons t ts ih => rw [List.cons_append, feedAll, ih, feedAll, List.append_assoc]

theorem outcomes_append (r : Reader) (last : Token) {ts : List Token} (us : List Token)
    (hts : ∀ t ∈ ts, t.kind ≠ .endOfFile) : r.outcomes last (ts ++ us) =
      (r.feedAll ts).2 ++ (r.feedAll ts).1.outcomes (ts.getLastD last) us := by
  induction ts generalizing r last with
  | nil => rfl
  | cons t ts ih =>
    obtain ⟨ht, hts⟩ := List.forall_mem_cons.1 hts
    rw [List.cons_append, outcomes, if_neg ht, ih _ _ hts, feedAll, List.append_assoc,
      List.getLastD_cons]

theorem outcomes_ready_last (last last' : Token) (ts : List Token) :
    ready.outcomes last ts = ready.outcomes last' ts := by
  cases ts with
  | nil => rfl
  | cons t ts => rfl

end Reader

/-- The tokens before the end of the file. -/
def contents (ts : List Token) : List Token :=
  ts.takeWhile (·.kind != .endOfFile)

theorem kind_ne_of_mem_contents {ts : List Token} {t : Token} (h : t ∈ contents ts) :
    t.kind ≠ .endOfFile := by
  simpa using List.all_eq_true.1 List.all_takeWhile t h

theorem contents_cons {t : Token} (h : t.kind ≠ .endOfFile) (ts : List Token) :
    contents (t :: ts) = t :: contents ts :=
  List.takeWhile_cons_of_pos (bne_iff_ne.2 h)

theorem contents_append {ts : List Token} (us : List Token) (h : ∀ t ∈ ts, t.kind ≠ .endOfFile) :
    contents (ts ++ us) = ts ++ contents us :=
  List.takeWhile_append_of_pos fun t ht => bne_iff_ne.2 (h t ht)

theorem contents_eq_self {ts : List Token} (h : ∀ t ∈ ts, t.kind ≠ .endOfFile) :
    contents ts = ts := by
  have happend := contents_append [] h
  rw [List.append_nil] at happend
  exact happend.trans (List.append_nil ts)

/-- Only the tokens before the end of the file matter, but for the one that is found there. -/
theorem Reader.exists_outcomes_eq (r : Reader) (last : Token) (ts : List Token) :
    ∃ found, r.outcomes last ts =
      (r.feedAll (contents ts)).2 ++ (r.feedAll (contents ts)).1.finish found := by
  have hsplit : contents ts ++ ts.dropWhile (·.kind != .endOfFile) = ts :=
    List.takeWhile_append_dropWhile
  have hcontents : ∀ t ∈ contents ts, t.kind ≠ .endOfFile := fun t => kind_ne_of_mem_contents
  have happend := outcomes_append r last (ts.dropWhile (·.kind != .endOfFile)) hcontents
  rw [hsplit] at happend
  rw [happend]
  cases hrest : ts.dropWhile (·.kind != .endOfFile) with
  | nil => exact ⟨_, rfl⟩
  | cons t rest =>
    have ht : t.kind = .endOfFile := by
      have hhead := List.head?_dropWhile_not (·.kind != .endOfFile) ts
      simpa [hrest] using hhead
    rw [outcomes, if_pos ht]
    exact ⟨t, rfl⟩

namespace Cursor

open Reader

variable {c : Cursor}

theorem outcomes_of_end (h : c.isAtEnd = true) (r : Reader) :
    r.outcomes c.peek c.ahead = r.finish c.peek := by
  cases ha : c.ahead with
  | nil => rfl
  | cons t ts =>
    have ht : t.kind = .endOfFile := isAtEnd_eq_true_iff.1 h t (by rw [ha]; rfl)
    rw [outcomes, if_pos ht, peek_of_ahead ha]

theorem peek_of_passed {t : Token} {ts : List Token} (h : c.ahead = []) (ht : c.passed = t :: ts) :
    c.peek = t := by
  obtain ⟨passed, ahead, nonempty⟩ := c
  subst h ht
  rfl

theorem outcomes_of_ahead {t : Token} {ts : List Token} (h : c.ahead = t :: ts)
    (ht : t.kind ≠ .endOfFile) (r : Reader) : r.outcomes c.peek c.ahead =
      (r.feed t).2 ++ (r.feed t).1.outcomes (c.skip 1).peek (c.skip 1).ahead := by
  have hahead : (c.skip 1).ahead = ts := by
    rw [ahead_skip, h]
    rfl
  rw [h, outcomes, if_neg ht, hahead]
  cases ts with
  | cons u us => rfl
  | nil =>
    have hpassed : (c.skip 1).passed = t :: c.passed := by
      simp [skip, h]
    rw [peek_of_passed hahead hpassed]

theorem recover_of_head (h : ∀ t ∈ c.ahead.head?, isSkipped t = false) : c.recover = c := by
  have hnone : c.ahead.takeWhile isSkipped = [] := by
    cases ha : c.ahead with
    | nil => rfl
    | cons t ts => exact List.takeWhile_cons_of_neg (by simp [h t (by rw [ha]; rfl)])
  rw [recover_eq_skip, hnone, List.length_nil, skip_zero]

theorem outcomes_skipping (c : Cursor) :
    skipping.outcomes c.peek c.ahead = ready.outcomes c.recover.peek c.recover.ahead := by
  induction h : c.ahead.length generalizing c with
  | zero =>
    have hnil := List.eq_nil_of_length_eq_zero h
    rw [recover_of_head (by simp [hnil]), hnil]
    rfl
  | succ n ih =>
    obtain ⟨t, ts, ha⟩ := List.exists_cons_of_length_eq_add_one h
    by_cases hend : t.kind = .endOfFile
    · rw [recover_of_head (by simp [ha, isSkipped, hend]), ha, outcomes, outcomes, if_pos hend,
        if_pos hend]
      rfl
    by_cases hstart : t.kind = .keyword .enumeration
    · rw [recover_of_head (by simp [ha, isSkipped, hstart]), outcomes_of_ahead ha hend,
        outcomes_of_ahead ha hend, feed_of_start _ hstart, feed_of_start _ hstart]
      rfl
    · have hahead : c.ahead = [t] ++ ts := ha
      have hskip : ∀ u ∈ [t], isSkipped u = true := by simp [isSkipped, hend, hstart]
      have hlen : (c.skip 1).ahead.length = n := by
        rw [ahead_skip, List.length_drop, h]
        rfl
      have hrest := ih (c.skip 1) hlen
      rw [outcomes_of_ahead ha hend, ← recover_skip hahead hskip]
      simp only [feed, resumed, hstart, if_false]
      exact hrest

theorem isRegular_of_suffix {step : Declaration.Step} {steps : List Declaration.Step}
    (h : step :: steps <:+ Declaration.steps.tail) : step.IsRegular :=
  Declaration.Step.isRegular (List.mem_of_mem_tail (h.subset List.mem_cons_self))

section Follow

variable {step : Declaration.Step} {steps : List Declaration.Step} {c' : Cursor}
  {outcome : Except Rejection Entry}

theorem outcomes_meet (hsteps : steps <:+ Declaration.steps.tail) (hreg : step.IsRegular)
    {t : Token} {ts : List Token} (ha : c.ahead = t :: ts) (ht : t.kind ≠ .endOfFile) {e : Entry}
    (h : c.follow (step :: steps) e = (outcome, c'))
    (hafter : ∀ e', (c.skip 1).follow steps e' = (outcome, c') →
      (after e' steps hsteps).2 ++
          (after e' steps hsteps).1.outcomes (c.skip 1).peek (c.skip 1).ahead =
        outcome :: (behind outcome).outcomes c'.peek c'.ahead) :
    (meet step steps e hsteps t).2 ++
        (meet step steps e hsteps t).1.outcomes (c.skip 1).peek (c.skip 1).ahead =
      outcome :: (behind outcome).outcomes c'.peek c'.ahead := by
  by_cases hk : t.kind = step.kind
  · rw [meet, if_pos hk]
    cases hf : step.fill t e with
    | error r =>
      rw [follow_cons_of_error ha hk hreg.kind_ne hf] at h
      cases h
      rfl
    | ok e' =>
      rw [follow_cons_of_ok ha hk hreg.kind_ne hf] at h
      exact hafter e' h
  · have hcheck : c.check step.kind = false := by
      rw [check_of_ahead ha]
      exact beq_false_of_ne hk
    rw [follow_cons_of_not_check hcheck, peek_of_ahead ha] at h
    cases h
    rw [meet, if_neg hk, behind, outcomes_of_ahead ha ht]
    rfl

theorem outcomes_after (hsteps : steps <:+ Declaration.steps.tail) {e : Entry}
    (h : c.follow steps e = (outcome, c')) :
    (after e steps hsteps).2 ++ (after e steps hsteps).1.outcomes c.peek c.ahead =
      outcome :: (behind outcome).outcomes c'.peek c'.ahead := by
  induction steps generalizing e c with
  | nil =>
    cases h
    rfl
  | cons step steps ih =>
    cases hend : c.isAtEnd with
    | true =>
      have hreg := isRegular_of_suffix hsteps
      have hcheck : c.check step.kind = false := by
        cases hcheck : c.check step.kind with
        | false => rfl
        | true => rw [isAtEnd_of_check hcheck hreg.kind_ne] at hend; cases hend
      rw [follow_cons_of_not_check hcheck] at h
      cases h
      rw [after, outcomes_of_end hend, behind, outcomes_of_end hend]
      rfl
    | false =>
      obtain ⟨t, ts, ha, ht⟩ := isAtEnd_eq_false_iff.1 hend
      rw [after, outcomes_of_ahead ha ht]
      exact outcomes_meet _ (isRegular_of_suffix hsteps) ha ht h fun _ => ih _

end Follow

/-- The attempts settle what a reader does that is handed the tokens ahead. -/
theorem outcomes_attempts (c : Cursor) :
    c.attempts.map (·.outcome) = ready.outcomes c.peek c.ahead := by
  induction h : c.ahead.length using Nat.strongRecOn generalizing c with
  | ind n ih =>
    subst h
    cases hend : c.isAtEnd with
    | true =>
      rw [attempts_of_end hend, outcomes_of_end hend]
      rfl
    | false =>
      obtain ⟨t, ts, ha, ht⟩ := isAtEnd_eq_false_iff.1 hend
      have hlt := ahead_attempt_lt hend
      rw [attempts_of_not_end hend, List.map_cons, ih _ hlt _ rfl, outcomes_of_ahead ha ht, feed]
      cases hd : c.declaration with
      | mk outcome c' =>
        have hreg : Declaration.start.IsRegular := Declaration.Step.isRegular List.mem_cons_self
        have hfollow : c.follow (Declaration.start :: Declaration.steps.tail) .blank =
            (outcome, c') := hd
        rw [outcomes_meet _ hreg ha ht hfollow fun _ => outcomes_after _]
        cases outcome with
        | ok e => rw [attempt_of_ok hd, behind]
        | error r => rw [attempt_of_error hd, behind, outcomes_skipping]

end Cursor

namespace Reading

/-- What outcomes add up to if they are cut off behind the rejection that reaches the limit, where
others follow. -/
def limited (limit : Option Nat) (rejected : Nat) : List (Except Rejection Entry) → Reading
  | [] => ⟨[], [], false⟩
  | .ok e :: outcomes =>
    let rest := limited limit rejected outcomes
    { rest with entries := e :: rest.entries }
  | .error r :: outcomes =>
    if !outcomes.isEmpty && limit.any (· ≤ rejected + 1) then ⟨[], [r], true⟩
    else
      let rest := limited limit (rejected + 1) outcomes
      { rest with rejections := r :: rest.rejections }

theorem limited_none (rejected : Nat) (outcomes : List (Except Rejection Entry)) :
    limited none rejected outcomes = ofOutcomes outcomes := by
  induction outcomes generalizing rejected with
  | nil => rfl
  | cons outcome outcomes ih =>
    cases outcome with
    | ok e =>
      rw [limited, ih]
      rfl
    | error r =>
      rw [limited, Option.any_none, Bool.and_false, ih]
      rfl

theorem limited_attempts {limit : Option Nat} {rejected : Nat} {as rest : List Attempt}
    (h : as = Attempt.upTo limit rejected as ++ rest) :
    limited limit rejected (as.map (·.outcome)) =
      { Attempt.reading (Attempt.upTo limit rejected as) with truncated := !rest.isEmpty } := by
  induction as generalizing rejected with
  | nil =>
    obtain rfl := (List.append_eq_nil_iff.1 h.symm).2
    rfl
  | cons a as ih =>
    cases ho : a.outcome with
    | ok e =>
      rw [Attempt.upTo, ho, List.cons_append] at h
      rw [List.map_cons, ho, limited, ih (List.cons.inj h).2, Attempt.upTo, ho,
        Attempt.reading_cons_ok ho]
    | error r =>
      rw [Attempt.upTo, ho] at h
      rw [List.map_cons, ho, limited, List.isEmpty_map, Attempt.upTo, ho]
      cases hreached : limit.any (· ≤ rejected + 1) with
      | false =>
        simp only [hreached, Bool.false_eq_true, if_false, List.cons_append] at h ⊢
        rw [Bool.and_false, ih (List.cons.inj h).2, Attempt.reading_cons_error ho]
        rfl
      | true =>
        simp only [hreached, if_true, List.cons_append, List.nil_append] at h ⊢
        obtain rfl := (List.cons.inj h).2
        rw [Bool.and_true, Attempt.reading_cons_error ho]
        cases as with
        | nil => rfl
        | cons b bs => rfl

/-- What is read depends on what becomes of the declarations alone, whatever the limit. -/
theorem read_eq_limited (limit : Option Nat) (c : Cursor) :
    (c.read limit).reading = limited limit 0 (c.attempts.map (·.outcome)) := by
  have hmakes := Cursor.makes_read limit c
  rw [limited_attempts hmakes.attempts, hmakes.reading]
  cases hend : (c.read limit).cursor.isAtEnd with
  | true => rw [Cursor.attempts_of_end hend]; rfl
  | false => rw [Cursor.attempts_of_not_end hend]; rfl

theorem outcomes_attempts_ofTokens (last : Token) (ts : List Token) :
    (Cursor.ofTokens ts).attempts.map (·.outcome) = Reader.ready.outcomes last ts := by
  rw [Cursor.outcomes_attempts]
  cases ts with
  | nil => rfl
  | cons t ts => rfl

theorem ofTokens_eq_limited (limit : Option Nat) (last : Token) (ts : List Token) :
    ofTokens limit ts = limited limit 0 (Reader.ready.outcomes last ts) := by
  rw [ofTokens, read_eq_limited, outcomes_attempts_ofTokens last]

theorem ofTokens_none_eq (last : Token) (ts : List Token) :
    ofTokens none ts = ofOutcomes (Reader.ready.outcomes last ts) := by
  rw [ofTokens_eq_limited none last, limited_none]

theorem exists_ofTokens_eq (limit : Option Nat) (ts : List Token) :
    ∃ found, ofTokens limit ts = limited limit 0 ((Reader.ready.feedAll (contents ts)).2 ++
      (Reader.ready.feedAll (contents ts)).1.finish found) := by
  obtain ⟨found, hfound⟩ := Reader.ready.exists_outcomes_eq (.endOfFile 1) ts
  exact ⟨found, by rw [ofTokens_eq_limited limit (.endOfFile 1), hfound]⟩

end Reading

end Codebook
