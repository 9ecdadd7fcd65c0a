import Codebook.Proofs.Reader
import Mathlib.Data.List.Induction

namespace Codebook

theorem Token.natural_zero (kind : Token.Kind) (limit line : Nat) :
    (⟨kind, String.ofList ['0'], line⟩ : Token).natural limit = .ok 0 := by
  rw [Token.natural, String.toList_ofList]
  rfl

namespace Declaration

/-- Tokens that more tokens would complete to a declaration. -/
def Begins (ts : List Token) : Prop :=
  ∃ more e, Declares (ts ++ more) e

/-- The tokens since the last start of a declaration, or all of them where there is none. -/
def sinceStart (ts : List Token) : List Token :=
  ts.foldl (fun since t => if t.kind = .keyword .enumeration then [t] else since ++ [t]) []

theorem sinceStart_concat (ts : List Token) (t : Token) : sinceStart (ts ++ [t]) =
    if t.kind = .keyword .enumeration then [t] else sinceStart ts ++ [t] := by
  rw [sinceStart, List.foldl_append]
  rfl

theorem sinceStart_suffix (ts : List Token) : sinceStart ts <:+ ts := by
  induction ts using List.reverseRecOn with
  | nil => exact List.suffix_refl _
  | append_singleton ts t ih =>
    rw [sinceStart_concat]
    split
    · exact List.suffix_append ts [t]
    · obtain ⟨front, hfront⟩ := ih
      exact ⟨front, by rw [← List.append_assoc, hfront]⟩

theorem Begins.of_append {ts us : List Token} (h : Begins (ts ++ us)) : Begins ts := by
  obtain ⟨more, e, h⟩ := h
  rw [List.append_assoc] at h
  exact ⟨us ++ more, e, h⟩

theorem Fits.length {steps : List Step} {ts : List Token} {e e' : Entry}
    (h : Fits steps ts e e') : ts.length = steps.length := by
  simpa using congrArg List.length h.kinds

theorem Fits.unique {steps : List Step} {ts : List Token} {e e₁ e₂ : Entry}
    (h₁ : Fits steps ts e e₁) (h₂ : Fits steps ts e e₂) : e₁ = e₂ := by
  induction h₁ with
  | nil => exact (fits_nil_iff.1 h₂).2
  | cons _ hf _ ih =>
    obtain ⟨-, e', hf', h₂⟩ := fits_cons_iff.1 h₂
    rw [hf] at hf'
    cases hf'
    exact ih h₂

theorem fits_append_iff {steps steps' : List Step} {ts us : List Token} {e e'' : Entry}
    (hlen : ts.length = steps.length) : Fits (steps ++ steps') (ts ++ us) e e'' ↔
      ∃ e', Fits steps ts e e' ∧ Fits steps' us e' e'' := by
  induction steps generalizing ts e with
  | nil =>
    obtain rfl := List.eq_nil_of_length_eq_zero hlen
    simp
  | cons step steps ih =>
    obtain ⟨t, ts, rfl⟩ := List.exists_cons_of_length_eq_add_one hlen
    simp only [List.cons_append, fits_cons_iff, ih (Nat.succ.inj hlen)]
    grind

theorem Step.exists_accepted {step : Step} (h : step ∈ steps) :
    ∃ t : Token, t.kind = step.kind ∧ ∀ e, ∃ e', step.fill t e = .ok e' := by
  rcases cases_of_mem h with ⟨kind, reason, -, rfl⟩ | rfl | rfl | rfl | rfl
  · exact ⟨⟨kind, "", 1⟩, rfl, fun e => ⟨e, rfl⟩⟩
  · exact ⟨⟨.integer, String.ofList ['0'], 1⟩, rfl,
      fun e => ⟨_, number_fill_iff.2 ⟨0, Token.natural_zero .integer maxNumber 1, rfl⟩⟩⟩
  · exact ⟨⟨.string, Category.error.text, 1⟩, rfl,
      fun e => ⟨_, category_fill_iff.2 ⟨.error, rfl, rfl⟩⟩⟩
  · exact ⟨⟨.string, "", 1⟩, rfl, fun e => ⟨_, rfl⟩⟩
  · exact ⟨⟨.integer, String.ofList ['0'], 1⟩, rfl,
      fun e => ⟨_, id_fill_iff.2 ⟨0, Token.natural_zero .integer maxId 1, rfl⟩⟩⟩

theorem exists_fits {rest : List Step} (h : ∀ step ∈ rest, step ∈ steps) (e : Entry) :
    ∃ ts e', Fits rest ts e e' := by
  induction rest generalizing e with
  | nil => exact ⟨[], e, .nil⟩
  | cons step rest ih =>
    obtain ⟨hstep, hrest⟩ := List.forall_mem_cons.1 h
    obtain ⟨t, hk, haccepted⟩ := Step.exists_accepted hstep
    obtain ⟨e₁, hf⟩ := haccepted e
    obtain ⟨ts, e', hfits⟩ := ih hrest e₁
    exact ⟨t :: ts, e', .cons hk hf hfits⟩

section Fitted

variable {done rest : List Step} {step : Step} {ts : List Token} {e : Entry}

theorem begins_of_fits (hsteps : done ++ rest = steps) (h : Fits done ts .blank e) :
    Begins ts := by
  have hrest : ∀ step ∈ rest, step ∈ steps := by
    intro step hstep
    rw [← hsteps]
    exact List.mem_append_right done hstep
  obtain ⟨us, e', hfits⟩ := exists_fits hrest e
  refine ⟨us, e', fits_steps_iff.1 ?_⟩
  rw [← hsteps]
  exact (fits_append_iff h.length).2 ⟨e, h, hfits⟩

theorem not_begins_of_refused (hsteps : done ++ step :: rest = steps) (h : Fits done ts .blank e)
    {t : Token} (ht : t.kind = step.kind → ∀ e', step.fill t e ≠ .ok e') :
    ¬ Begins (ts ++ [t]) := by
  rintro ⟨more, e'', hdeclares⟩
  have hfits := fits_steps_iff.2 hdeclares
  rw [← hsteps, List.append_assoc, List.singleton_append, fits_append_iff h.length] at hfits
  obtain ⟨e', hdone, hnext⟩ := hfits
  obtain rfl := hdone.unique h
  obtain ⟨hk, e₁, hf, -⟩ := fits_cons_iff.1 hnext
  exact ht hk e₁ hf

end Fitted

end Declaration

/-- The token on which a declaration was rejected. -/
inductive Rejection.About : Rejection → Token → Prop where
  | unexpectedToken (expected : Token.Kind) (t : Token) (reason : String) :
      About (.unexpectedToken expected t reason) t
  | unknownCategory (t : Token) : About (.unknownCategory t.lexeme t.line) t
  | overflow (t : Token) (limit : Nat) : About (.overflow t.lexeme limit t.line) t

theorem Declaration.Step.about_of_refusal? {step : Step} (h : step ∈ steps) {t : Token}
    {r : Rejection} (hr : step.refusal? t = some r) : r.About t := by
  have hnatural {limit : Nat} (hn : t.natural limit = .error r) : r.About t := by
    rw [Token.natural] at hn
    split at hn
    · cases hn
    · cases hn
      exact .overflow t limit
  rw [refusal?_eq_some_iff] at hr
  rcases cases_of_mem h with ⟨kind, reason, -, rfl⟩ | rfl | rfl | rfl | rfl
  · cases hr
  · exact hnatural (map_eq_error_iff.1 hr)
  · have hcategory : t.category = .error r := map_eq_error_iff.1 hr
    rw [Token.category] at hcategory
    split at hcategory
    · cases hcategory
    · cases hcategory
      exact .unknownCategory t
  · cases hr
  · exact hnatural (map_eq_error_iff.1 hr)

namespace Reader

open Declaration

/-- What a reader knows: that the tokens since the last start are a declaration, have begun one, or
rule one out. -/
inductive Knows : Reader → List Token → List (Except Rejection Entry) → Prop where
  | start : Knows ready [] []
  | ready {ts : List Token} {e : Entry} {outcomes : List (Except Rejection Entry)} :
      Declares ts e → Knows ready ts (outcomes ++ [.ok e])
  | within {done steps : List Step} {step : Step} {ts : List Token} {e : Entry}
      {outcomes : List (Except Rejection Entry)} (proper : step :: steps <:+ Declaration.steps.tail) :
      done ++ step :: steps = Declaration.steps → Fits done ts .blank e →
        Knows (within step steps e proper) ts outcomes
  | skipping {ts : List Token} {t : Token} {r : Rejection}
      {outcomes : List (Except Rejection Entry)} :
      ¬ Begins ts → t ∈ ts → r.About t → Knows skipping ts (outcomes ++ [.error r])

section Feed

variable {t : Token}

theorem knows_resumed (ht : t.kind = .keyword .enumeration)
    (outcomes : List (Except Rejection Entry)) : Knows (resumed t) [t] outcomes := by
  have hfits : Fits [Declaration.start] [t] .blank .blank := .cons ht rfl .nil
  have hsteps : [Declaration.start] ++ Declaration.steps.tail = Declaration.steps := rfl
  rw [resumed, if_pos ht]
  exact .within _ hsteps hfits

theorem knows_meet {done rest : List Step} {step : Step} {ts : List Token} {e : Entry}
    (hsteps : done ++ step :: rest = Declaration.steps) (h : Fits done ts .blank e)
    (hrest : rest <:+ Declaration.steps.tail) (ht : t.kind ≠ .keyword .enumeration)
    (outcomes : List (Except Rejection Entry)) :
    Knows (meet step rest e hrest t).1 (ts ++ [t]) (outcomes ++ (meet step rest e hrest t).2) := by
  have hmem : step ∈ Declaration.steps := by
    rw [← hsteps]
    exact List.mem_append_right done List.mem_cons_self
  have hlast : t ∈ ts ++ [t] := List.mem_append_right ts List.mem_cons_self
  by_cases hk : t.kind = step.kind
  · rw [meet, if_pos hk]
    cases hf : step.fill t e with
    | error r =>
      have hrefusal := (Step.isRegular hmem).fill_eq_error_iff.1 hf
      refine .skipping (not_begins_of_refused hsteps h ?_) hlast (Step.about_of_refusal? hmem hrefusal)
      intro _ e' hok
      rw [hf] at hok
      cases hok
    | ok e' =>
      have hfits : Fits (done ++ [step]) (ts ++ [t]) .blank e' :=
        (fits_append_iff h.length).2 ⟨e, h, .cons hk hf .nil⟩
      cases rest with
      | nil =>
        rw [hsteps] at hfits
        exact .ready (fits_steps_iff.1 hfits)
      | cons step' rest =>
        exact .within _ (by rw [← hsteps, List.append_assoc]; rfl) hfits
  · rw [meet, if_neg hk, resumed, if_neg ht]
    exact .skipping (not_begins_of_refused hsteps h fun hk' => absurd hk' hk) hlast
      (.unexpectedToken step.kind t step.reason)

/-- What a reader knows, it still knows behind one more token. -/
theorem Knows.feed {r : Reader} {ts : List Token} {outcomes : List (Except Rejection Entry)}
    (h : r.Knows ts outcomes) (t : Token) : (r.feed t).1.Knows
      (if t.kind = .keyword .enumeration then [t] else ts ++ [t]) (outcomes ++ (r.feed t).2) := by
  by_cases ht : t.kind = .keyword .enumeration
  · rw [if_pos ht, feed_of_start r ht]
    exact knows_resumed ht _
  rw [if_neg ht]
  have hlast : t ∈ ts ++ [t] := List.mem_append_right ts List.mem_cons_self
  cases h with
  | start => exact knows_meet (List.nil_append _) .nil _ ht []
  | @ready _ e outcomes hdeclares =>
    rw [feed_ready_of_ne ht]
    refine .skipping ?_ hlast (.unexpectedToken _ t _)
    rintro ⟨more, e', hmore⟩
    have hlen := hmore.length
    simp only [List.length_append, hdeclares.length, List.length_singleton] at hlen
    omega
  | within proper hsteps hfits => exact knows_meet hsteps hfits _ ht outcomes
  | @skipping _ u r outcomes hbegins hu habout =>
    rw [Reader.feed, resumed, if_neg ht, List.append_nil]
    exact .skipping (fun h => hbegins h.of_append) (List.mem_append_left _ hu) habout

end Feed

theorem knows_feedAll (ts : List Token) :
    (ready.feedAll ts).1.Knows (sinceStart ts) (ready.feedAll ts).2 := by
  induction ts using List.reverseRecOn with
  | nil => exact .start
  | append_singleton ts t ih =>
    have hfeed := ih.feed t
    rw [sinceStart_concat, feedAll_append, feedAll, feedAll, List.append_nil]
    exact hfeed

/-- A reader skips exactly where the tokens since the last start rule a declaration out. -/
theorem Knows.begins_iff {r : Reader} {ts : List Token}
    {outcomes : List (Except Rejection Entry)} (h : r.Knows ts outcomes) :
    Begins ts ↔ r ≠ Reader.skipping := by
  cases h with
  | start => exact iff_of_true (begins_of_fits (List.nil_append _) .nil) nofun
  | ready hdeclares =>
    exact iff_of_true (begins_of_fits (List.append_nil _) (fits_steps_iff.2 hdeclares)) nofun
  | within proper hsteps hfits => exact iff_of_true (begins_of_fits hsteps hfits) nofun
  | skipping hbegins => exact iff_of_false hbegins fun h => h rfl

end Reader

end Codebook
