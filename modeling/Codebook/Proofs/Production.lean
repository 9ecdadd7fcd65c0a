import Codebook.Proofs.Advance
import Codebook.Proofs.Block

namespace Codebook

/-- The lexeme of a token names a number up to a limit: in digits, after a plus sign or not. -/
def Token.Names (t : Token) (limit n : Nat) : Prop :=
  ∃ ds, (t.lexeme.toList = ds ∨ t.lexeme.toList = '+' :: ds) ∧ Numeral.Digits ds n ∧ n ≤ limit

namespace Declaration

/-- What is said at each place of a declaration of a token that has another kind. -/
def reasons : List String :=
  ["Expected 'enumeration' at start of declaration",
    "Expected declaration number after 'enumeration'",
    "Expected ':' after declaration number",
    "Expected 'type' field",
    "Expected ':' after 'type'",
    "Expected quoted value for 'type'",
    "Expected 'title' field",
    "Expected ':' after 'title'",
    "Expected quoted value for 'title'",
    "Expected 'id' field",
    "Expected ':' after 'id'",
    "Expected number for 'id'",
    "Expected ';' after declaration"]

/-- The value of a token is refused at a place of a declaration. Three places have a value that can
be. -/
inductive Refuses : Nat → Token → Rejection → Prop where
  | number {t : Token} : (∀ n, ¬ t.Names 65535 n) → Refuses 1 t (.overflow t.lexeme 65535 t.line)
  | category {t : Token} : t.lexeme ≠ "error" → t.lexeme ≠ "app_id" →
      Refuses 5 t (.unknownCategory t.lexeme t.line)
  | id {t : Token} : (∀ n, ¬ t.Names 4294967295 n) →
      Refuses 11 t (.overflow t.lexeme 4294967295 t.line)

/-- From a position on, tokens stand as in the declaration of an entry. -/
structure StandsAt (ts : List Token) (p : Nat) (e : Entry) : Prop where
  kinds : ∀ i < 13, ts[p + i]?.map (·.kind) = Declaration.kinds[i]?
  number : ∃ t, ts[p + 1]? = some t ∧ t.Names 65535 e.number.toNat
  category : ts[p + 5]?.map (·.lexeme) = some e.category.text
  title : ts[p + 8]?.map (·.lexeme) = some e.title
  id : ∃ t, ts[p + 11]? = some t ∧ t.Names 4294967295 e.id.toNat

/-- The token at a place of a declaration that starts at a position passes its checks. -/
def Passes (ts : List Token) (p i : Nat) : Prop :=
  ∃ t, ts[p + i]? = some t ∧ kinds[i]? = some t.kind ∧ ∀ r, ¬ Refuses i t r

/-- A check of a kind or of a value fails at a place of a declaration. The last index is the
position behind. -/
inductive FailsAt (ts : List Token) (p i : Nat) : Rejection → Nat → Prop where
  | kind {expected : Token.Kind} {found : Token} {reason : String} :
      kinds[i]? = some expected → reasons[i]? = some reason →
      (∀ t, ts[p + i]? = some t → t.kind ≠ expected) →
      ts[min (p + i) (ts.length - 1)]? = some found →
      FailsAt ts p i (.unexpectedToken expected found reason) (p + i)
  | value {t : Token} {r : Rejection} : ts[p + i]? = some t → kinds[i]? = some t.kind →
      Refuses i t r → FailsAt ts p i r (p + i + 1)

end Declaration

theorem Token.natural_eq_ok_iff {t : Token} {limit n : Nat} :
    t.natural limit = .ok n ↔ t.Names limit n := by
  rw [Names, ← Numeral.readNat_eq_ok_iff, natural]
  cases Numeral.readNat limit t.lexeme.toList <;> simp

theorem Token.isOk_readNat_iff {t : Token} {limit : Nat} :
    (Numeral.readNat limit t.lexeme.toList).isOk = true ↔ ∃ n, t.Names limit n := by
  simp only [Names, ← Numeral.readNat_eq_ok_iff]
  cases Numeral.readNat limit t.lexeme.toList with
  | ok n => exact iff_of_true rfl ⟨n, rfl⟩
  | error fault => exact iff_of_false nofun fun ⟨_, h⟩ => nomatch h

namespace Declaration

theorem refuses_iff {place : Nat} {t : Token} {r : Rejection} :
    Refuses place t r ↔ valueViolation? place t = some r := by
  apply Iff.intro
  · intro h
    cases h with
    | number hnone => exact if_neg fun hok => not_exists.2 hnone (Token.isOk_readNat_iff.1 hok)
    | category herror happId => exact if_neg (not_or.2 ⟨herror, happId⟩)
    | id hnone => exact if_neg fun hok => not_exists.2 hnone (Token.isOk_readNat_iff.1 hok)
  · intro h
    unfold valueViolation? at h
    split at h
    · split at h
      · cases h
      · rename_i hno
        cases h
        exact .number (not_exists.1 (mt Token.isOk_readNat_iff.2 hno))
    · split at h
      · cases h
      · rename_i hno
        cases h
        exact .category (not_or.1 hno).1 (not_or.1 hno).2
    · split at h
      · cases h
      · rename_i hno
        cases h
        exact .id (not_exists.1 (mt Token.isOk_readNat_iff.2 hno))
    · cases h

section Places

variable {step : Step} {i : Nat}

theorem getElem?_kinds (h : steps[i]? = some step) : kinds[i]? = some step.kind := by
  have hkinds : kinds = steps.map (·.kind) := rfl
  rw [hkinds, List.getElem?_map, h]
  rfl

theorem getElem?_reasons (h : steps[i]? = some step) : reasons[i]? = some step.reason := by
  have hreasons : reasons = steps.map (·.reason) := rfl
  rw [hreasons, List.getElem?_map, h]
  rfl

theorem exists_step {kind : Token.Kind} (h : kinds[i]? = some kind) :
    ∃ step, steps[i]? = some step := by
  have hkinds : kinds = steps.map (·.kind) := rfl
  rw [hkinds, List.getElem?_map, Option.map_eq_some_iff] at h
  exact h.imp fun _ h => h.1

theorem FailsAt.exists_step {ts : List Token} {p q : Nat} {r : Rejection}
    (h : FailsAt ts p i r q) : ∃ step, steps[i]? = some step := by
  cases h with
  | kind hexpected => exact Declaration.exists_step hexpected
  | value _ hk => exact Declaration.exists_step hk

theorem refusal?_eq_some_iff_refuses (h : steps[i]? = some step) {t : Token} {r : Rejection} :
    step.refusal? t = some r ↔ Refuses i t r := by
  have hplace : (step, i) ∈ steps.zipIdx := List.mem_zipIdx_iff_getElem?.2 h
  rw [refuses_iff, Step.refusal?_eq_valueViolation? hplace]

end Places

end Declaration

theorem findSome?_zipIdx_iff {α β : Type} {f : α × Nat → Option β} {xs : List α} {n : Nat} {b : β} :
    (xs.zipIdx n).findSome? f = some b ↔
      ∃ i x, xs[i]? = some x ∧ f (x, n + i) = some b ∧
        ∀ j < i, ∀ y, xs[j]? = some y → f (y, n + j) = none := by
  induction xs generalizing n with
  | nil => simp
  | cons x xs ih =>
    rw [List.zipIdx_cons, List.findSome?_cons]
    cases hx : f (x, n) with
    | some b' =>
      apply Iff.intro
      · intro h
        exact ⟨0, x, rfl, hx.trans h, fun j hj => absurd hj (Nat.not_lt_zero j)⟩
      · rintro ⟨i, y, hy, hf, hbefore⟩
        cases i with
        | zero =>
          cases hy
          exact hx.symm.trans hf
        | succ i => exact absurd (hx.symm.trans (hbefore 0 (Nat.succ_pos i) x rfl)) nofun
    | none =>
      have hshift (i : Nat) : n + 1 + i = n + (i + 1) := by omega
      simp only [ih, hshift]
      apply Iff.intro
      · rintro ⟨i, y, hy, hf, hbefore⟩
        refine ⟨i + 1, y, hy, hf, fun j hj z hz => ?_⟩
        cases j with
        | zero =>
          cases hz
          exact hx
        | succ j => exact hbefore j (Nat.lt_of_succ_lt_succ hj) z hz
      · rintro ⟨i, y, hy, hf, hbefore⟩
        cases i with
        | zero =>
          cases hy
          exact absurd (hx.symm.trans hf) nofun
        | succ i =>
          exact ⟨i, y, hy, hf, fun j hj z hz => hbefore (j + 1) (Nat.succ_lt_succ hj) z hz⟩

namespace Cursor

open Declaration

variable {c c' : Cursor}

theorem getElem?_tokens (c : Cursor) (i : Nat) : c.tokens[c.position + i]? = c.ahead[i]? := by
  rw [tokens, position, List.getElem?_append_right (by simp), List.length_reverse,
    Nat.add_sub_cancel_left]

theorem eq_of_tokens_of_position (htokens : c'.tokens = c.tokens)
    (hposition : c'.position = c.position) : c' = c := by
  have hlength : c'.passed.reverse.length = c.passed.reverse.length := by
    rw [List.length_reverse, List.length_reverse]
    exact hposition
  obtain ⟨hpassed, hahead⟩ := List.append_inj htokens hlength
  exact Cursor.ext (List.reverse_inj.1 hpassed) hahead

theorem position_skip {n : Nat} (h : n ≤ c.ahead.length) :
    (c.skip n).position = c.position + n := by
  rw [position, passed_skip, List.length_append, List.length_reverse, List.length_take_of_le h,
    Nat.add_comm]
  rfl

theorem eq_skip_iff {n : Nat} (h : n ≤ c.ahead.length) :
    c' = c.skip n ↔ c'.tokens = c.tokens ∧ c'.position = c.position + n := by
  rw [← position_skip h, ← tokens_skip c n]
  apply Iff.intro
  · rintro rfl
    exact ⟨rfl, rfl⟩
  · intro ⟨htokens, hposition⟩
    exact eq_of_tokens_of_position htokens hposition

theorem check_skip_iff {i : Nat} {kind : Token.Kind} : (c.skip i).check kind = true ↔
    ∃ t, c.tokens[c.position + i]? = some t ∧ t.kind = kind := by
  rw [check, ahead_skip, List.head?_drop, getElem?_tokens]
  cases c.ahead[i]? <;> simp

theorem peek_skip {i : Nat} {t : Token} (h : c.tokens[c.position + i]? = some t) :
    (c.skip i).peek = t := by
  rw [getElem?_tokens] at h
  obtain ⟨hlt, ht⟩ := List.getElem?_eq_some_iff.1 h
  have hahead : (c.skip i).ahead = t :: c.ahead.drop (i + 1) := by
    rw [ahead_skip, List.drop_eq_getElem_cons hlt, ht]
  exact peek_of_ahead hahead

theorem lt_length_of_passes {i : Nat} (h : Passes c.tokens c.position i) :
    i < c.ahead.length := by
  obtain ⟨t, ht, -⟩ := h
  rw [getElem?_tokens] at ht
  exact (List.getElem?_eq_some_iff.1 ht).1

theorem le_length_of_passes {i : Nat} (h : ∀ j < i, Passes c.tokens c.position j) :
    i ≤ c.ahead.length := by
  cases i with
  | zero => exact Nat.zero_le _
  | succ i => exact lt_length_of_passes (h i (Nat.lt_succ_self i))

section Failure

variable {step : Step} {i : Nat} {r : Rejection}

theorem check_skip_of_kind (h : steps[i]? = some step) {t : Token}
    (ht : c.tokens[c.position + i]? = some t) (hk : kinds[i]? = some t.kind) :
    (c.skip i).check step.kind = true := by
  rw [getElem?_kinds h, Option.some.injEq] at hk
  exact check_skip_iff.2 ⟨t, ht, hk.symm⟩

theorem failure?_of_not_check (hcheck : (c.skip i).check step.kind = false) :
    step.failure? (c.skip i) =
      some (.unexpectedToken step.kind (c.skip i).peek step.reason, c.skip i) := by
  rw [Step.failure?, if_neg (by simp [hcheck])]

theorem failure?_of_check {t : Token} (ht : c.tokens[c.position + i]? = some t)
    (hk : t.kind = step.kind) :
    step.failure? (c.skip i) = (step.refusal? t).map (·, c.skip (i + 1)) := by
  rw [Step.failure?, if_pos (check_skip_iff.2 ⟨t, ht, hk⟩), peek_skip ht, skip_skip]

theorem failure?_eq_none_iff (h : steps[i]? = some step) :
    step.failure? (c.skip i) = none ↔ Passes c.tokens c.position i := by
  cases hcheck : (c.skip i).check step.kind with
  | false =>
    rw [failure?_of_not_check hcheck]
    apply iff_of_false nofun
    rintro ⟨t, ht, hk, -⟩
    rw [check_skip_of_kind h ht hk] at hcheck
    cases hcheck
  | true =>
    obtain ⟨t, ht, hk⟩ := check_skip_iff.1 hcheck
    rw [failure?_of_check ht hk, Option.map_eq_none_iff, Option.eq_none_iff_forall_ne_some]
    simp only [ne_eq, refusal?_eq_some_iff_refuses h]
    apply Iff.intro
    · exact fun hnone => ⟨t, ht, hk ▸ getElem?_kinds h, hnone⟩
    · rintro ⟨u, hu, -, hnone⟩
      cases ht.symm.trans hu
      exact hnone

theorem failure?_eq_some_iff (h : steps[i]? = some step) (hi : i ≤ c.ahead.length) :
    step.failure? (c.skip i) = some (r, c') ↔
      c'.tokens = c.tokens ∧ FailsAt c.tokens c.position i r c'.position := by
  cases hcheck : (c.skip i).check step.kind with
  | false =>
    have hpeek := getElem?_peek (c.skip i)
    rw [tokens_skip, position_skip hi] at hpeek
    rw [failure?_of_not_check hcheck]
    apply Iff.intro
    · intro heq
      cases heq
      rw [tokens_skip, position_skip hi]
      refine ⟨rfl, .kind (getElem?_kinds h) (getElem?_reasons h) (fun t ht hk => ?_) hpeek⟩
      rw [check_skip_iff.2 ⟨t, ht, hk⟩] at hcheck
      cases hcheck
    · intro ⟨htokens, hfails⟩
      generalize hposition : c'.position = q at hfails
      cases hfails with
      | kind hexpected hreason _ hfound =>
        cases (getElem?_kinds h).symm.trans hexpected
        cases (getElem?_reasons h).symm.trans hreason
        cases hpeek.symm.trans hfound
        rw [(eq_skip_iff hi).2 ⟨htokens, hposition⟩]
      | value ht hk =>
        rw [check_skip_of_kind h ht hk] at hcheck
        cases hcheck
  | true =>
    obtain ⟨t, ht, hk⟩ := check_skip_iff.1 hcheck
    have hlt : i + 1 ≤ c.ahead.length := by
      rw [getElem?_tokens] at ht
      exact (List.getElem?_eq_some_iff.1 ht).1
    rw [failure?_of_check ht hk, Option.map_eq_some_iff]
    apply Iff.intro
    · rintro ⟨_, hr, heq⟩
      cases heq
      rw [tokens_skip, position_skip hlt]
      exact ⟨rfl, .value ht (hk ▸ getElem?_kinds h) ((refusal?_eq_some_iff_refuses h).1 hr)⟩
    · intro ⟨htokens, hfails⟩
      generalize hposition : c'.position = q at hfails
      cases hfails with
      | kind hexpected _ hother =>
        cases (getElem?_kinds h).symm.trans hexpected
        exact absurd hk (hother t ht)
      | value hu _ hrefuses =>
        cases ht.symm.trans hu
        refine ⟨r, (refusal?_eq_some_iff_refuses h).2 hrefuses, ?_⟩
        rw [(eq_skip_iff hlt).2 ⟨htokens, hposition⟩]

end Failure

theorem declaration_error_iff {r : Rejection} : c.declaration = (.error r, c') ↔
    c'.tokens = c.tokens ∧ ∃ i, (∀ j < i, Passes c.tokens c.position j) ∧
      FailsAt c.tokens c.position i r c'.position := by
  rw [declaration_eq_error_iff, findSome?_zipIdx_iff]
  simp only [Nat.zero_add]
  apply Iff.intro
  · intro ⟨i, step, hstep, hfail, hbefore⟩
    have hpasses : ∀ j < i, Passes c.tokens c.position j := by
      intro j hj
      have hlt : j < Declaration.steps.length :=
        Nat.lt_trans hj (List.getElem?_eq_some_iff.1 hstep).1
      have hstep' := List.getElem?_eq_getElem hlt
      exact (failure?_eq_none_iff hstep').1 (hbefore j hj _ hstep')
    obtain ⟨htokens, hfails⟩ := (failure?_eq_some_iff hstep (le_length_of_passes hpasses)).1 hfail
    exact ⟨htokens, i, hpasses, hfails⟩
  · intro ⟨htokens, i, hpasses, hfails⟩
    obtain ⟨step, hstep⟩ := hfails.exists_step
    refine ⟨i, step, hstep, ?_, ?_⟩
    · exact (failure?_eq_some_iff hstep (le_length_of_passes hpasses)).2 ⟨htokens, hfails⟩
    · exact fun j hj step' hstep' => (failure?_eq_none_iff hstep').2 (hpasses j hj)

theorem declares_take_iff_standsAt {e : Entry} :
    Declares (c.ahead.take 13) e ↔ StandsAt c.tokens c.position e := by
  have hget (i : Nat) (hi : i < 13) : (c.ahead.take 13)[i]? = c.tokens[c.position + i]? := by
    rw [List.getElem?_take_of_lt hi, getElem?_tokens]
  have hnames (i : Nat) (hi : i < 13) (limit n : Nat) :
      (c.ahead.take 13)[i]?.map (·.natural limit) = some (.ok n) ↔
        ∃ t, c.tokens[c.position + i]? = some t ∧ t.Names limit n := by
    rw [hget i hi, Option.map_eq_some_iff]
    simp only [Token.natural_eq_ok_iff]
  have hkinds : (c.ahead.take 13).map (·.kind) = Declaration.kinds ↔
      ∀ i < 13, c.tokens[c.position + i]?.map (·.kind) = Declaration.kinds[i]? := by
    apply Iff.intro
    · intro h i hi
      rw [← hget i hi, ← List.getElem?_map, h]
    · intro h
      apply List.ext_getElem?
      intro i
      rw [List.getElem?_map]
      by_cases hi : i < 13
      · rw [hget i hi, h i hi]
      · have hi := Nat.le_of_not_lt hi
        rw [List.getElem?_eq_none (Nat.le_trans (List.length_take_le 13 c.ahead) hi),
          List.getElem?_eq_none (l := Declaration.kinds) hi]
        rfl
  apply Iff.intro
  · intro h
    exact ⟨hkinds.1 h.kinds, (hnames 1 (by decide) _ _).1 h.number,
      hget 5 (by decide) ▸ h.category, hget 8 (by decide) ▸ h.title,
      (hnames 11 (by decide) _ _).1 h.id⟩
  · intro h
    exact ⟨hkinds.2 h.kinds, (hnames 1 (by decide) _ _).2 h.number,
      hget 5 (by decide) ▸ h.category, hget 8 (by decide) ▸ h.title,
      (hnames 11 (by decide) _ _).2 h.id⟩

theorem declaration_ok_iff {e : Entry} : c.declaration = (.ok e, c') ↔
    StandsAt c.tokens c.position e ∧ c'.tokens = c.tokens ∧ c'.position = c.position + 13 := by
  rw [declaration_eq_ok_iff, ← declares_take_iff_standsAt]
  apply and_congr_right
  intro h
  have hlength : 13 ≤ c.ahead.length := by
    have htake := h.length
    rw [List.length_take] at htake
    omega
  exact eq_skip_iff hlength

theorem kind_of_passed {i : Nat} {t : Token} (h : c.tokens[c.position + i]? = some t)
    (hi : c.position + i < c.declaration.2.position) :
    t.kind ≠ .endOfFile ∧ (t.kind = .keyword .enumeration → i = 0) := by
  obtain ⟨ts, rest, hahead, hc, hprefix⟩ :=
    exists_follow_skip (fun _ h => Step.isRegular h) c .blank
  have hlength : ts.length ≤ c.ahead.length := by
    rw [hahead, List.length_append]
    exact Nat.le_add_right _ _
  rw [declaration, hc, position_skip hlength] at hi
  have hlt : i < ts.length := Nat.lt_of_add_lt_add_left hi
  rw [getElem?_tokens, hahead, List.getElem?_append_left hlt] at h
  obtain ⟨more, hkinds⟩ : ts.map (·.kind) <+: kinds := hprefix
  have hkind : kinds[i]? = some t.kind := by
    rw [← hkinds, List.getElem?_append_left (by rw [List.length_map]; exact hlt),
      List.getElem?_map, h]
    rfl
  have hend : ∀ kind ∈ kinds, kind ≠ .endOfFile := by decide
  have hstart : ∀ kind ∈ kinds.tail, kind ≠ .keyword .enumeration := by decide
  refine ⟨hend _ (List.mem_of_getElem? hkind), fun henumeration => ?_⟩
  cases i with
  | zero => rfl
  | succ i => exact absurd henumeration (hstart _ (List.mem_of_getElem? hkind))

/-- A declaration is read where thirteen tokens stand as they should, or rejected for the first
check that fails. -/
theorem declaration_first_failure (c : Cursor) :
    (∀ e c', c.declaration = (.ok e, c') ↔
      StandsAt c.tokens c.position e ∧ c'.tokens = c.tokens ∧ c'.position = c.position + 13) ∧
    (∀ r c', c.declaration = (.error r, c') ↔
      c'.tokens = c.tokens ∧ ∃ i, (∀ j < i, Passes c.tokens c.position j) ∧
        FailsAt c.tokens c.position i r c'.position) ∧
    ∀ i t, c.tokens[c.position + i]? = some t → c.position + i < c.declaration.2.position →
      t.kind ≠ .endOfFile ∧ (t.kind = .keyword .enumeration → i = 0) :=
  ⟨fun _ _ => declaration_ok_iff, fun _ _ => declaration_error_iff, fun _ _ => kind_of_passed⟩

end Cursor

end Codebook
