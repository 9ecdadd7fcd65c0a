import Codebook.Proofs.Lexeme
import Codebook.Proofs.Reader
import Mathlib.Data.List.Chain

namespace Codebook

namespace Declaration

/-- The places of a declaration where a number stands, with the greatest number that is taken. -/
def numberLimits : List (Nat × Nat) :=
  [(1, 65535), (11, 4294967295)]

end Declaration

/-- What a rejection says of a token, behind other tokens, if it is so. -/
inductive Rejection.Holds (before : List Token) (t : Token) : Rejection → Prop where
  | unexpectedToken {expected : Token.Kind} {reason : String} : t.kind ≠ expected →
      Holds before t (.unexpectedToken expected t reason)
  | unknownCategory : t.kind = .string → t.lexeme ≠ "error" → t.lexeme ≠ "app_id" →
      Holds before t (.unknownCategory t.lexeme t.line)
  | overflow {place limit n : Nat} : (place, limit) ∈ Declaration.numberLimits →
      Declaration.kinds.take place <:+ before.map (·.kind) → t.kind = .integer →
      Numeral.Digits t.lexeme.toList n → limit < n → Holds before t (.overflow t.lexeme limit t.line)

namespace Declaration

theorem kinds_isChain : kinds.IsChain (· ≠ ·) := by
  decide

theorem kinds_eq : kinds = steps.map (·.kind) :=
  rfl

theorem take_kinds {done rest : List Step} (h : steps = done ++ rest) :
    kinds.take done.length = done.map (·.kind) := by
  rw [kinds_eq, h, List.map_append, List.take_left' (List.length_map _)]

theorem getElem?_steps {done rest : List Step} {step : Step} (h : steps = done ++ step :: rest) :
    steps[done.length]? = some step := by
  rw [h, List.getElem?_append_right (Nat.le_refl _), Nat.sub_self]
  rfl

theorem kind_ne_of_steps {done rest : List Step} {step step' : Step}
    (h : steps = done ++ step :: step' :: rest) : step.kind ≠ step'.kind := by
  have hchain := kinds_isChain
  rw [kinds_eq, h, List.map_append, List.map_cons, List.map_cons] at hchain
  exact (List.isChain_append_cons_cons.1 hchain).2.1

end Declaration

theorem Numeral.Digits.lt_of_not_isOk {ds : List Char} {n limit : Nat} (h : Digits ds n)
    (hread : (readNat limit ds).isOk = false) : limit < n := by
  apply Nat.lt_of_not_le
  intro hle
  rw [readNat_eq_ok_iff.2 ⟨ds, .inl rfl, h, hle⟩] at hread
  cases hread

open Declaration in
theorem Rejection.holds_of_valueViolation? {place : Nat} {before : List Token} {t : Token}
    {r : Rejection} (h : valueViolation? place t = some r) (hk : kinds[place]? = some t.kind)
    (hbefore : kinds.take place <:+ before.map (·.kind))
    (hdigits : t.kind = .integer → ∃ n, Numeral.Digits t.lexeme.toList n) :
    r.Holds before t := by
  have hoverflow (limit : Nat) (hlimit : (place, limit) ∈ numberLimits) (hk : t.kind = .integer)
      (hread : ¬ (Numeral.readNat limit t.lexeme.toList).isOk = true) :
      (Rejection.overflow t.lexeme limit t.line).Holds before t := by
    obtain ⟨n, hn⟩ := hdigits hk
    exact .overflow hlimit hbefore hk hn (hn.lt_of_not_isOk (Bool.eq_false_iff.2 hread))
  unfold valueViolation? at h
  split at h
  · split at h
    · cases h
    · rename_i hread
      cases h
      exact hoverflow maxNumber List.mem_cons_self (Option.some.inj hk).symm hread
  · split at h
    · cases h
    · rename_i hvalue
      cases h
      rw [not_or] at hvalue
      exact .unknownCategory (Option.some.inj hk).symm hvalue.1 hvalue.2
  · split at h
    · cases h
    · rename_i hread
      cases h
      exact hoverflow maxId (List.mem_cons_of_mem _ List.mem_cons_self) (Option.some.inj hk).symm
        hread
  · cases h

namespace Cursor

open Declaration

variable {c c' : Cursor}

theorem exists_failure_of_follow {steps : List Step} {e : Entry} {r : Rejection}
    (hs : ∀ step ∈ steps, step.IsRegular) (h : c.follow steps e = (.error r, c')) :
    ∃ done step rest e', steps = done ++ step :: rest ∧
      Fits done (c.ahead.take done.length) e e' ∧
      step.failure? (c.skip done.length) = some (r, c') := by
  induction steps generalizing c e with
  | nil => cases h
  | cons step steps ih =>
    obtain ⟨hreg, hrest⟩ := List.forall_mem_cons.1 hs
    cases hcheck : c.check step.kind with
    | false =>
      rw [follow_cons_of_not_check hcheck] at h
      cases h
      refine ⟨[], step, steps, e, rfl, .nil, ?_⟩
      rw [List.length_nil, skip_zero, Step.failure?, if_neg (by simp [hcheck])]
    | true =>
      obtain ⟨t, ts, ha, hk⟩ := check_eq_true_iff.1 hcheck
      cases hf : step.fill t e with
      | error r' =>
        rw [follow_cons_of_error ha hk hreg.kind_ne hf] at h
        cases h
        refine ⟨[], step, steps, e, rfl, .nil, ?_⟩
        rw [List.length_nil, skip_zero, Step.failure?, if_pos hcheck, peek_of_ahead ha,
          hreg.fill_eq_error_iff.1 hf]
        rfl
      | ok e₁ =>
        rw [follow_cons_of_ok ha hk hreg.kind_ne hf] at h
        obtain ⟨done, step', rest, e', rfl, hfits, hfail⟩ := ih hrest h
        refine ⟨step :: done, step', rest, e', rfl, ?_, ?_⟩
        · rw [ha, List.length_cons, List.take_succ_cons]
          rw [ahead_skip, ha] at hfits
          exact .cons hk hf hfits
        · rw [skip_skip, Nat.add_comm] at hfail
          exact hfail

section Failure

variable {done rest : List Step} {step : Step} {r : Rejection}

theorem peek_of_ahead_nil {init : List Token} {t : Token} {n : Nat} (h : c.ahead = init ++ [t])
    (hn : (c.skip n).ahead = []) : (c.skip n).peek = t := by
  have htake : c.ahead.take n = c.ahead := List.take_of_length_le (List.drop_eq_nil_iff.1 hn)
  have hpassed : (c.skip n).passed = t :: (init.reverse ++ c.passed) := by
    rw [passed_skip, htake, h, List.reverse_concat, List.cons_append]
  exact peek_of_passed hn hpassed

theorem exists_last_of_ahead_nil
    (hkinds : (c.ahead.take done.length).map (·.kind) = done.map (·.kind))
    (hend : c.isAtEnd = false) (hnil : (c.skip done.length).ahead = []) :
    ∃ before last, done = before ++ [last] ∧ (c.skip done.length).peek.kind = last.kind := by
  have htake : c.ahead.take done.length = c.ahead :=
    List.take_of_length_le (List.drop_eq_nil_iff.1 hnil)
  rw [htake] at hkinds
  obtain ⟨u, us, hu, -⟩ := isAtEnd_eq_false_iff.1 hend
  have hahead : c.ahead ≠ [] := by simp [hu]
  have hdone : done ≠ [] := by
    rintro rfl
    exact hahead (List.map_eq_nil_iff.1 hkinds)
  obtain ⟨init, t, hinit⟩ := (List.eq_nil_or_concat' c.ahead).resolve_left hahead
  obtain ⟨before, last, rfl⟩ := (List.eq_nil_or_concat' done).resolve_left hdone
  refine ⟨before, last, rfl, ?_⟩
  rw [peek_of_ahead_nil hinit hnil]
  rw [hinit, List.map_append, List.map_append] at hkinds
  exact (List.cons.inj (List.append_inj' hkinds rfl).2).1

/-- The token found where a step fails is not of the wanted kind, not even where the tokens have run
out. -/
theorem peek_kind_ne (hsteps : Declaration.steps = done ++ step :: rest)
    (hkinds : (c.ahead.take done.length).map (·.kind) = done.map (·.kind))
    (hend : c.isAtEnd = false) (h : (c.skip done.length).check step.kind = false) :
    (c.skip done.length).peek.kind ≠ step.kind := by
  cases ha : (c.skip done.length).ahead with
  | cons t ts =>
    rw [check_of_ahead ha] at h
    rw [peek_of_ahead ha]
    exact ne_of_beq_false h
  | nil =>
    obtain ⟨before, last, hdone, hlast⟩ := exists_last_of_ahead_nil hkinds hend ha
    have hadjacent : Declaration.steps = before ++ last :: step :: rest := by
      rw [hsteps, hdone, List.append_assoc]
      rfl
    rw [hlast]
    exact kind_ne_of_steps hadjacent

theorem holds_of_failure? (hsteps : Declaration.steps = done ++ step :: rest)
    (hkinds : (c.ahead.take done.length).map (·.kind) = done.map (·.kind))
    (hend : c.isAtEnd = false)
    (hdigits : ∀ t ∈ c.tokens, t.kind = .integer → ∃ n, Numeral.Digits t.lexeme.toList n)
    (h : step.failure? (c.skip done.length) = some (r, c')) :
    ∃ before t after, c.tokens = before ++ t :: after ∧ r.Holds before t := by
  rw [← tokens_skip c done.length] at hdigits ⊢
  cases hcheck : (c.skip done.length).check step.kind with
  | false =>
    rw [Step.failure?, if_neg (by simp [hcheck])] at h
    cases h
    obtain ⟨before, after, htokens⟩ :=
      List.append_of_mem (List.mem_of_getElem? (getElem?_peek (c.skip done.length)))
    exact ⟨before, _, after, htokens, .unexpectedToken (peek_kind_ne hsteps hkinds hend hcheck)⟩
  | true =>
    obtain ⟨t, ts, ha, hk⟩ := check_eq_true_iff.1 hcheck
    have htokens : (c.skip done.length).tokens =
        (c.skip done.length).passed.reverse ++ t :: ts := by
      rw [tokens, ha]
    rw [Step.failure?, if_pos hcheck, peek_of_ahead ha] at h
    obtain ⟨_, hr, heq⟩ := Option.map_eq_some_iff.1 h
    cases heq
    have hstep := getElem?_steps hsteps
    have hplace : (step, done.length) ∈ Declaration.steps.zipIdx :=
      List.mem_zipIdx_iff_getElem?.2 hstep
    have hkind : kinds[done.length]? = some t.kind := by
      rw [kinds_eq, List.getElem?_map, hstep, hk]
      rfl
    have hbefore : kinds.take done.length <:+ (c.skip done.length).passed.reverse.map (·.kind) := by
      rw [take_kinds hsteps, ← hkinds, passed_skip, List.reverse_append, List.reverse_reverse,
        List.map_append]
      exact List.suffix_append _ _
    rw [Step.refusal?_eq_valueViolation? hplace] at hr
    exact ⟨_, t, ts, htokens, Rejection.holds_of_valueViolation? hr hkind hbefore
      (hdigits t (htokens ▸ List.mem_append_right _ List.mem_cons_self))⟩

end Failure

variable {limit : Option Nat} {r : Rejection}

theorem holds_of_attempt (hend : c.isAtEnd = false)
    (hdigits : ∀ t ∈ c.tokens, t.kind = .integer → ∃ n, Numeral.Digits t.lexeme.toList n)
    (h : c.attempt.outcome = .error r) :
    ∃ before t after, c.tokens = before ++ t :: after ∧ r.Holds before t := by
  have hd : c.declaration = (.error r, c.declaration.2) := Prod.ext h rfl
  obtain ⟨done, step, rest, e, hsteps, hfits, hfail⟩ :=
    exists_failure_of_follow (fun _ h => Step.isRegular h) hd
  exact holds_of_failure? hsteps hfits.kinds hend hdigits hfail

/-- Whatever the limit, a rejection says of one of the tokens what is so, if the numbers among
them are digits. -/
theorem holds_of_mem_rejections
    (hdigits : ∀ t ∈ c.tokens, t.kind = .integer → ∃ n, Numeral.Digits t.lexeme.toList n)
    (h : r ∈ (c.read limit).reading.rejections) :
    ∃ before t after, c.tokens = before ++ t :: after ∧ r.Holds before t := by
  obtain ⟨c', hend, htokens, hr⟩ := exists_attempt_of_mem_rejections h
  rw [← htokens] at hdigits ⊢
  exact holds_of_attempt hend hdigits hr

end Cursor

theorem Rejection.Holds.line {before : List Token} {t : Token} {r : Rejection}
    (h : r.Holds before t) : r.line = t.line := by
  cases h <;> rfl

/-- Every rejection is true of a token of the source text. -/
theorem rejections_hold {limit : Option Nat} {source : String} {r : Rejection}
    (h : r ∈ (readSource limit source).1.rejections) :
    ∃ before t after, tokenize source = before ++ t :: after ∧ r.line = t.line ∧
      r.Holds before t ∧ (t.kind ≠ .error → t.lexeme.toList <:+: source.toList) := by
  cases htokens : tokenize source with
  | nil =>
    have hend : (Cursor.ofTokens (tokenize source)).isAtEnd = true := by rw [htokens]; rfl
    rw [readSource, Cursor.read, Cursor.readOn_of_end hend] at h
    cases h
  | cons u us =>
    have hne : tokenize source ≠ [] := by
      rw [htokens]
      exact List.cons_ne_nil u us
    have hcursor := Cursor.tokens_ofTokens hne
    obtain ⟨before, t, after, hsplit, hholds⟩ :=
      Cursor.holds_of_mem_rejections (fun a ha => digits_lexeme (hcursor ▸ ha)) h
    rw [hcursor, htokens] at hsplit
    have ht : t ∈ tokenize source := by
      rw [htokens, hsplit]
      exact List.mem_append_right before List.mem_cons_self
    exact ⟨before, t, after, hsplit, hholds.line, hholds, lexeme_infix ht⟩

/-- The text ends behind the number, and the number is found where a colon should stand. -/
theorem rejections_hold_run_out :
    let source := "enumeration 7"
    let r : Rejection := .unexpectedToken .colon ⟨.integer, "7", 1⟩
      "Expected ':' after declaration number"
    r ∈ (readSource (some 0) source).1.rejections ∧
      ∃ before t after, tokenize source = before ++ t :: after ∧ r.line = t.line ∧
        r.Holds before t ∧ (t.kind ≠ .error → t.lexeme.toList <:+: source.toList) := by
  intro source r
  have hr : r ∈ (readSource (some 0) source).1.rejections := by decide +kernel
  exact ⟨hr, rejections_hold hr⟩

end Codebook
