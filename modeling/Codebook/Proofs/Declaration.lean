import Codebook.Declaration.Basic
import Codebook.Proofs.Cursor
import Codebook.Proofs.Numeral

namespace Codebook

theorem Token.natural_le {limit n : Nat} {t : Token} (h : t.natural limit = .ok n) :
    n ≤ limit := by
  rw [natural] at h
  split at h
  · cases h
    exact Numeral.readNat_le ‹_›
  · cases h

theorem Token.toNat_of_natural_maxNumber {n : Nat} {t : Token}
    (h : t.natural maxNumber = .ok n) : (UInt16.ofNat n).toNat = n :=
  UInt16.toNat_ofNat_of_lt' (Nat.lt_succ_of_le (natural_le h))

theorem Token.toNat_of_natural_maxId {n : Nat} {t : Token} (h : t.natural maxId = .ok n) :
    (UInt32.ofNat n).toNat = n :=
  UInt32.toNat_ofNat_of_lt' (Nat.lt_succ_of_le (natural_le h))

theorem Token.category_eq_ok_iff {t : Token} {category : Category} :
    t.category = .ok category ↔ t.lexeme = category.text := by
  rw [← Category.read_eq_ok_iff, Token.category]
  split <;> simp_all

section Lexeme

variable {t t' : Token} {g : Rejection → Rejection}

theorem Token.natural_of_lexeme {limit : Nat} (h : t'.lexeme = t.lexeme)
    (hg : g (.overflow t.lexeme limit t.line) = .overflow t.lexeme limit t'.line) :
    t'.natural limit = (t.natural limit).mapError g := by
  rw [natural, natural, h]
  cases Numeral.readNat limit t.lexeme.toList with
  | ok n => rfl
  | error e => exact congrArg Except.error hg.symm

theorem Token.category_of_lexeme (h : t'.lexeme = t.lexeme)
    (hg : g (.unknownCategory t.lexeme t.line) = .unknownCategory t.lexeme t'.line) :
    t'.category = t.category.mapError g := by
  rw [category, category, h]
  cases Category.read t.lexeme with
  | ok category => rfl
  | error e => exact congrArg Except.error hg.symm

end Lexeme

namespace Declaration

def kinds : List Token.Kind :=
  [.keyword .enumeration, .integer, .colon, .keyword .type, .colon, .string, .keyword .title,
    .colon, .string, .keyword .id, .colon, .integer, .semicolon]

/-- The tokens of a declaration, with the entry that they declare. -/
structure Declares (ts : List Token) (e : Entry) : Prop where
  kinds : ts.map (·.kind) = Declaration.kinds
  number : ts[1]?.map (·.natural maxNumber) = some (.ok e.number.toNat)
  category : ts[5]?.map (·.lexeme) = some e.category.text
  title : ts[8]?.map (·.lexeme) = some e.title
  id : ts[11]?.map (·.natural maxId) = some (.ok e.id.toNat)

theorem Declares.length {ts : List Token} {e : Entry} (h : Declares ts e) : ts.length = 13 := by
  simpa [Declaration.kinds] using congrArg List.length h.kinds

/-- Tokens that some steps accept, with the entry before and after them. -/
inductive Fits : List Step → List Token → Entry → Entry → Prop where
  | nil {e : Entry} : Fits [] [] e e
  | cons {step : Step} {steps : List Step} {t : Token} {ts : List Token} {e e' e'' : Entry} :
      t.kind = step.kind → step.fill t e = .ok e' → Fits steps ts e' e'' →
        Fits (step :: steps) (t :: ts) e e''

theorem Fits.kinds {steps : List Step} {ts : List Token} {e e' : Entry}
    (h : Fits steps ts e e') : ts.map (·.kind) = steps.map (·.kind) := by
  induction h with
  | nil => rfl
  | cons hk _ _ ih => rw [List.map_cons, List.map_cons, hk, ih]

@[simp]
theorem fits_nil_iff {ts : List Token} {e e' : Entry} : Fits [] ts e e' ↔ ts = [] ∧ e = e' := by
  apply Iff.intro
  · intro h
    cases h
    exact ⟨rfl, rfl⟩
  · rintro ⟨rfl, rfl⟩
    exact .nil

@[simp]
theorem fits_cons_iff {step : Step} {steps : List Step} {t : Token} {ts : List Token}
    {e e'' : Entry} : Fits (step :: steps) (t :: ts) e e'' ↔
      t.kind = step.kind ∧ ∃ e', step.fill t e = .ok e' ∧ Fits steps ts e' e'' := by
  apply Iff.intro
  · intro h
    cases h with
    | cons hk hf hs => exact ⟨hk, _, hf, hs⟩
  · rintro ⟨hk, e', hf, hs⟩
    exact .cons hk hf hs

theorem exists_of_kinds {ts : List Token} (h : ts.map (·.kind) = kinds) :
    ∃ t₀ t₁ t₂ t₃ t₄ t₅ t₆ t₇ t₈ t₉ t₁₀ t₁₁ t₁₂,
      ts = [t₀, t₁, t₂, t₃, t₄, t₅, t₆, t₇, t₈, t₉, t₁₀, t₁₁, t₁₂] := by
  have hlen : ts.length = 13 := by
    simpa [kinds] using congrArg List.length h
  match ts, hlen with
  | [t₀, t₁, t₂, t₃, t₄, t₅, t₆, t₇, t₈, t₉, t₁₀, t₁₁, t₁₂], _ =>
    exact ⟨_, _, _, _, _, _, _, _, _, _, _, _, _, rfl⟩

theorem declares_iff {t₀ t₁ t₂ t₃ t₄ t₅ t₆ t₇ t₈ t₉ t₁₀ t₁₁ t₁₂ : Token} {e : Entry}
    (h : [t₀, t₁, t₂, t₃, t₄, t₅, t₆, t₇, t₈, t₉, t₁₀, t₁₁, t₁₂].map (·.kind) = kinds) :
    Declares [t₀, t₁, t₂, t₃, t₄, t₅, t₆, t₇, t₈, t₉, t₁₀, t₁₁, t₁₂] e ↔
      t₁.natural maxNumber = .ok e.number.toNat ∧ t₅.lexeme = e.category.text ∧
        t₈.lexeme = e.title ∧ t₁₁.natural maxId = .ok e.id.toNat := by
  apply Iff.intro
  · intro hd
    exact ⟨Option.some.inj hd.number, Option.some.inj hd.category, Option.some.inj hd.title,
      Option.some.inj hd.id⟩
  · intro ⟨hnumber, hcategory, htitle, hid⟩
    exact ⟨h, congrArg some hnumber, congrArg some hcategory, congrArg some htitle,
      congrArg some hid⟩

namespace Step

theorem map_eq_ok_iff {α β ε : Type} {f : α → β} {x : Except ε α} {b : β} :
    x.map f = .ok b ↔ ∃ a, x = .ok a ∧ f a = b := by
  cases x <;> simp [Except.map]

theorem number_fill_iff {t : Token} {e e' : Entry} : number.fill t e = .ok e' ↔
    ∃ n : UInt16, t.natural maxNumber = .ok n.toNat ∧ e' = { e with number := n } := by
  simp only [number, map_eq_ok_iff]
  apply Iff.intro
  · rintro ⟨n, hn, rfl⟩
    exact ⟨UInt16.ofNat n, by rw [Token.toNat_of_natural_maxNumber hn, hn], rfl⟩
  · rintro ⟨n, hn, rfl⟩
    exact ⟨n.toNat, hn, by rw [UInt16.ofNat_toNat]⟩

theorem category_fill_iff {t : Token} {e e' : Entry} : category.fill t e = .ok e' ↔
    ∃ category : Category, t.lexeme = category.text ∧ e' = { e with category } := by
  simp only [category, map_eq_ok_iff, Token.category_eq_ok_iff]
  simp only [eq_comm]

theorem title_fill_iff {t : Token} {e e' : Entry} : title.fill t e = .ok e' ↔
    e' = { e with title := t.lexeme } := by
  simp [title, eq_comm]

theorem id_fill_iff {t : Token} {e e' : Entry} : id.fill t e = .ok e' ↔
    ∃ n : UInt32, t.natural maxId = .ok n.toNat ∧ e' = { e with id := n } := by
  simp only [id, map_eq_ok_iff]
  apply Iff.intro
  · rintro ⟨n, hn, rfl⟩
    exact ⟨UInt32.ofNat n, by rw [Token.toNat_of_natural_maxId hn, hn], rfl⟩
  · rintro ⟨n, hn, rfl⟩
    exact ⟨n.toNat, hn, by rw [UInt32.ofNat_toNat]⟩

@[simp]
theorem mark_fill_iff {kind : Token.Kind} {reason : String} {t : Token} {e e' : Entry} :
    (mark kind reason).fill t e = .ok e' ↔ e' = e := by
  simp [mark, eq_comm]

end Step

theorem fits_steps_iff {ts : List Token} {e : Entry} :
    Fits steps ts .blank e ↔ Declares ts e := by
  apply Iff.intro
  · intro h
    have hk := h.kinds
    obtain ⟨t₀, t₁, t₂, t₃, t₄, t₅, t₆, t₇, t₈, t₉, t₁₀, t₁₁, t₁₂, rfl⟩ := exists_of_kinds hk
    simp only [steps, fits_cons_iff, fits_nil_iff, Step.mark_fill_iff, Step.number_fill_iff,
      Step.category_fill_iff, Step.title_fill_iff, Step.id_fill_iff, exists_eq_left] at h
    obtain ⟨-, -, -, ⟨n, hn, rfl⟩, -, -, -, -, -, ⟨category, hc, rfl⟩, -, -, -, -, -, -, -,
      ⟨m, hm, rfl⟩, -, -, rfl⟩ := h
    exact (declares_iff hk).2 ⟨hn, hc, rfl, hm⟩
  · intro h
    have hk := h.kinds
    obtain ⟨t₀, t₁, t₂, t₃, t₄, t₅, t₆, t₇, t₈, t₉, t₁₀, t₁₁, t₁₂, rfl⟩ := exists_of_kinds hk
    obtain ⟨hnumber, hcategory, htitle, hid⟩ := (declares_iff hk).1 h
    simp only [List.map_cons, List.map_nil, kinds, List.cons.injEq, and_true] at hk
    obtain ⟨h₀, h₁, h₂, h₃, h₄, h₅, h₆, h₇, h₈, h₉, h₁₀, h₁₁, h₁₂⟩ := hk
    simp only [steps, fits_cons_iff, fits_nil_iff, Step.mark_fill_iff, Step.number_fill_iff,
      Step.category_fill_iff, Step.title_fill_iff, Step.id_fill_iff, exists_eq_left]
    exact ⟨h₀, h₁, _, ⟨e.number, hnumber, rfl⟩, h₂, h₃, h₄, h₅, _, ⟨e.category, hcategory, rfl⟩,
      h₆, h₇, h₈, h₉, h₁₀, h₁₁, _, ⟨e.id, hid, by rw [htitle]⟩, h₁₂, trivial, rfl⟩

namespace Step

def refusal? (step : Step) (t : Token) : Option Rejection :=
  match step.fill t .blank with
  | .ok _ => none
  | .error r => some r

/-- What goes wrong where a step is taken, if anything does, and where that leaves the cursor. -/
def failure? (step : Step) (c : Cursor) : Option (Rejection × Cursor) :=
  if c.check step.kind then (step.refusal? c.peek).map (·, c.skip 1)
  else some (.unexpectedToken step.kind c.peek step.reason, c)

/-- A step of the language takes a token that can be passed, and judges it by itself. -/
structure IsRegular (step : Step) : Prop where
  kind_ne : step.kind ≠ .endOfFile
  fill_eq_error_iff {t : Token} {e : Entry} {r : Rejection} :
    step.fill t e = .error r ↔ step.refusal? t = some r

theorem map_eq_error_iff {α β ε : Type} {f : α → β} {x : Except ε α} {err : ε} :
    x.map f = .error err ↔ x = .error err := by
  cases x <;> simp [Except.map]

theorem refusal?_eq_some_iff {step : Step} {t : Token} {r : Rejection} :
    step.refusal? t = some r ↔ step.fill t .blank = .error r := by
  rw [refusal?]
  split <;> simp_all

theorem cases_of_mem {step : Step} (h : step ∈ steps) :
    (∃ kind reason, kind ≠ .endOfFile ∧ step = mark kind reason) ∨
      step = number ∨ step = category ∨ step = title ∨ step = id := by
  simp only [steps, List.mem_cons, List.not_mem_nil, or_false] at h
  rcases h with rfl | rfl | rfl | rfl | rfl | rfl | rfl | rfl | rfl | rfl | rfl | rfl | rfl
  all_goals first
    | exact .inl ⟨_, _, by decide, rfl⟩
    | simp

theorem isRegular {step : Step} (h : step ∈ steps) : step.IsRegular := by
  rcases cases_of_mem h with ⟨kind, reason, hkind, rfl⟩ | rfl | rfl | rfl | rfl
  · exact ⟨hkind, by simp [refusal?_eq_some_iff, mark]⟩
  all_goals
    constructor <;>
    simp [refusal?_eq_some_iff, number, category, title, id, map_eq_error_iff]

theorem map_mapError {α β ε ε' : Type} (f : α → β) (g : ε → ε') (x : Except ε α) :
    (x.mapError g).map f = (x.map f).mapError g := by
  cases x <;> rfl

section Lexeme

variable {t t' : Token} {g : Rejection → Rejection}

/-- A step reads nothing of a token of its kind but the lexeme, and that only where it is a
value. -/
theorem fill_of_lexeme {step : Step} (h : step ∈ steps) (hk : t.kind = step.kind)
    (hlexeme : t.kind = .string ∨ t.kind = .integer → t'.lexeme = t.lexeme)
    (hcategory : g (.unknownCategory t.lexeme t.line) = .unknownCategory t.lexeme t'.line)
    (hoverflow : ∀ limit, g (.overflow t.lexeme limit t.line) = .overflow t.lexeme limit t'.line)
    (e : Entry) : step.fill t' e = (step.fill t e).mapError g := by
  rcases cases_of_mem h with ⟨kind, reason, -, rfl⟩ | rfl | rfl | rfl | rfl
  · rfl
  · simp only [number, Token.natural_of_lexeme (hlexeme (.inr hk)) (hoverflow _), map_mapError]
  · simp only [category, Token.category_of_lexeme (hlexeme (.inl hk)) hcategory, map_mapError]
  · simp only [title, hlexeme (.inl hk)]
    rfl
  · simp only [id, Token.natural_of_lexeme (hlexeme (.inr hk)) (hoverflow _), map_mapError]

end Lexeme

end Step

end Declaration

namespace Cursor

open Declaration

variable {step : Step} {steps : List Step} {c c' : Cursor}

theorem follow_cons_of_not_check (h : c.check step.kind = false) (e : Entry) :
    c.follow (step :: steps) e = (.error (.unexpectedToken step.kind c.peek step.reason), c) := by
  rw [follow, expect_of_not_check h]

theorem follow_cons_of_ok {t : Token} {ts : List Token} {e e' : Entry} (h : c.ahead = t :: ts)
    (hk : t.kind = step.kind) (hend : step.kind ≠ .endOfFile) (hf : step.fill t e = .ok e') :
    c.follow (step :: steps) e = (c.skip 1).follow steps e' := by
  have hcheck : c.check step.kind = true := check_eq_true_iff.2 ⟨t, ts, h, hk⟩
  simp only [follow, expect_of_check hcheck, peek_of_ahead h, hf]
  rw [advance_eq_skip h (hk ▸ hend)]

theorem follow_cons_of_error {t : Token} {ts : List Token} {e : Entry} {r : Rejection}
    (h : c.ahead = t :: ts) (hk : t.kind = step.kind) (hend : step.kind ≠ .endOfFile)
    (hf : step.fill t e = .error r) : c.follow (step :: steps) e = (.error r, c.skip 1) := by
  have hcheck : c.check step.kind = true := check_eq_true_iff.2 ⟨t, ts, h, hk⟩
  simp only [follow, expect_of_check hcheck, peek_of_ahead h, hf]
  rw [advance_eq_skip h (hk ▸ hend)]

theorem follow_eq_ok_iff {e e' : Entry} (hs : ∀ step ∈ steps, step.IsRegular) :
    c.follow steps e = (.ok e', c') ↔
      Fits steps (c.ahead.take steps.length) e e' ∧ c' = c.skip steps.length := by
  induction steps generalizing c e with
  | nil => simp [follow, eq_comm]
  | cons step steps ih =>
    have hreg := hs step (by simp)
    have hrest : ∀ step ∈ steps, step.IsRegular := fun s h => hs s (List.mem_cons_of_mem _ h)
    cases hcheck : c.check step.kind with
    | false =>
      rw [follow_cons_of_not_check hcheck]
      simp only [Prod.mk.injEq, reduceCtorEq, false_and, false_iff, not_and]
      intro hfits
      exfalso
      cases ha : c.ahead with
      | nil =>
        rw [ha] at hfits
        cases hfits
      | cons t ts =>
        rw [ha, List.length_cons, List.take_succ_cons, fits_cons_iff] at hfits
        have := check_eq_true_iff.2 ⟨t, ts, ha, hfits.1⟩
        rw [hcheck] at this
        cases this
    | true =>
      obtain ⟨t, ts, ha, hk⟩ := check_eq_true_iff.1 hcheck
      rw [ha, List.length_cons, List.take_succ_cons, fits_cons_iff]
      cases hf : step.fill t e with
      | error r => simp [follow_cons_of_error ha hk hreg.kind_ne hf]
      | ok e₁ =>
        rw [follow_cons_of_ok ha hk hreg.kind_ne hf, ih hrest]
        simp [hk, ha, Nat.add_comm 1]

/-- Steps fail as the first of them that goes wrong does. -/
theorem follow_eq_error_iff {e : Entry} {r : Rejection} (hs : ∀ step ∈ steps, step.IsRegular)
    (n : Nat) : (c.skip n).follow steps e = (.error r, c') ↔
      (steps.zipIdx n).findSome? (fun p => p.1.failure? (c.skip p.2)) = some (r, c') := by
  induction steps generalizing n e with
  | nil => simp [follow]
  | cons step steps ih =>
    have hreg := hs step (by simp)
    have hrest : ∀ step ∈ steps, step.IsRegular := fun s h => hs s (List.mem_cons_of_mem _ h)
    rw [List.zipIdx_cons, List.findSome?_cons]
    cases hcheck : (c.skip n).check step.kind with
    | false =>
      rw [follow_cons_of_not_check hcheck]
      simp [Step.failure?, hcheck]
    | true =>
      obtain ⟨t, ts, ha, hk⟩ := check_eq_true_iff.1 hcheck
      simp only [Step.failure?, hcheck, if_true, peek_of_ahead ha]
      cases hf : step.fill t e with
      | error r' =>
        rw [follow_cons_of_error ha hk hreg.kind_ne hf, hreg.fill_eq_error_iff.1 hf]
        simp
      | ok e₁ =>
        have hnone : step.refusal? t = none := by
          cases hr : step.refusal? t with
          | none => rfl
          | some r' =>
            rw [hreg.fill_eq_error_iff.2 hr] at hf
            cases hf
        rw [follow_cons_of_ok ha hk hreg.kind_ne hf, hnone, skip_skip]
        exact ih hrest (n + 1)

/-- Steps pass tokens of their own kinds only, whether they succeed or not. -/
theorem exists_follow_skip (hs : ∀ step ∈ steps, step.IsRegular) (c : Cursor) (e : Entry) :
    ∃ ts rest, c.ahead = ts ++ rest ∧ (c.follow steps e).2 = c.skip ts.length ∧
      ts.map (·.kind) <+: steps.map (·.kind) := by
  induction steps generalizing c e with
  | nil => exact ⟨[], c.ahead, rfl, (skip_zero c).symm, List.nil_prefix⟩
  | cons step steps ih =>
    have hreg := hs step (by simp)
    cases hcheck : c.check step.kind with
    | false =>
      rw [follow_cons_of_not_check hcheck]
      exact ⟨[], c.ahead, rfl, (skip_zero c).symm, List.nil_prefix⟩
    | true =>
      obtain ⟨t, ts, ha, hk⟩ := check_eq_true_iff.1 hcheck
      cases hf : step.fill t e with
      | error r =>
        rw [follow_cons_of_error ha hk hreg.kind_ne hf]
        exact ⟨[t], ts, ha, rfl, by simp [hk]⟩
      | ok e' =>
        rw [follow_cons_of_ok ha hk hreg.kind_ne hf]
        obtain ⟨us, rest, hus, hc, hp⟩ :=
          ih (fun s h => hs s (List.mem_cons_of_mem _ h)) (c.skip 1) e'
        rw [ahead_skip, ha, List.drop_succ_cons, List.drop_zero] at hus
        refine ⟨t :: us, rest, by rw [ha, hus, List.cons_append], ?_, ?_⟩
        · rw [hc, skip_skip, List.length_cons, Nat.add_comm]
        · rw [List.map_cons, List.map_cons, hk]
          exact (List.prefix_cons_inj _).2 hp

theorem recover_skip {ts rest : List Token} (h : c.ahead = ts ++ rest)
    (hts : ∀ t ∈ ts, isSkipped t = true) : (c.skip ts.length).recover = c.recover := by
  rw [recover_eq_skip, recover_eq_skip, skip_skip, ahead_skip, h, List.drop_left,
    List.takeWhile_append_of_pos hts, List.length_append]

theorem isSkipped_of_kind {t : Token} (h : t.kind ∈ kinds.tail) : isSkipped t = true := by
  have hne : ∀ kind ∈ kinds.tail, kind ≠ .keyword .enumeration ∧ kind ≠ .endOfFile := by decide
  simpa [isSkipped] using hne t.kind h

theorem isSkipped_of_mem_tail {ts : List Token} (h : ts.map (·.kind) <+: kinds) :
    ∀ t ∈ ts.tail, isSkipped t = true := by
  intro t ht
  cases ts with
  | nil => simp at ht
  | cons u ts =>
    obtain ⟨-, hp⟩ := List.cons_prefix_cons.1 h
    exact isSkipped_of_kind (hp.subset (List.mem_map_of_mem ht))

/-- Recovery from a declaration leads to where recovery from its first token leads. -/
theorem recover_declaration (h : c.check (.keyword .enumeration) = true) :
    c.declaration.2.recover = (c.skip 1).recover := by
  obtain ⟨ts, rest, ha, hc, hp⟩ :=
    exists_follow_skip (fun _ h => Step.isRegular h) c .blank
  have hlt := ahead_declaration_lt h
  rw [declaration, hc, ahead_skip, ha, List.drop_left, List.length_append] at hlt
  cases ts with
  | nil => simp at hlt
  | cons t ts =>
    have ha' : (c.skip 1).ahead = ts ++ rest := by
      rw [ahead_skip, ha]
      rfl
    rw [declaration, hc, List.length_cons, Nat.add_comm, ← skip_skip]
    exact recover_skip ha' (isSkipped_of_mem_tail hp)

/-- A declaration is read exactly where the tokens declare an entry. -/
theorem declaration_eq_ok_iff {e : Entry} :
    c.declaration = (.ok e, c') ↔ Declares (c.ahead.take 13) e ∧ c' = c.skip 13 := by
  rw [declaration, follow_eq_ok_iff fun _ h => Step.isRegular h, ← fits_steps_iff]
  rfl

theorem declaration_eq_error_iff {r : Rejection} : c.declaration = (.error r, c') ↔
    Declaration.steps.zipIdx.findSome? (fun p => p.1.failure? (c.skip p.2)) = some (r, c') := by
  rw [← follow_eq_error_iff (fun _ h => Step.isRegular h), skip_zero, declaration]

end Cursor

end Codebook
