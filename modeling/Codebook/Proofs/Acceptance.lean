import Codebook.Command.Report
import Codebook.Proofs.Attempts
import Codebook.Proofs.Grammar

namespace Codebook

namespace Slot

@[simp]
theorem filled_nil_iff {tokens : List Token} :
    Filled [] tokens ↔ ∀ t ∈ tokens.head?, t.kind = .endOfFile := by
  apply Iff.intro
  · intro h
    cases h with
    | nil hend => exact hend
  · exact .nil

@[simp]
theorem filled_cons_iff {s : Slot} {slots : List Slot} {t : Token} {tokens : List Token} :
    Filled (s :: slots) (t :: tokens) ↔
      t.kind = s.kind ∧ t.lexeme.toList ∈ s.lexemes ∧ Filled slots tokens := by
  apply Iff.intro
  · intro h
    cases h with
    | cons hkind hlexeme hfilled => exact ⟨hkind, hlexeme, hfilled⟩
  · intro h
    exact .cons h.1 h.2.1 h.2.2

theorem Filled.kinds {slots : List Slot} {tokens : List Token} (h : Filled slots tokens) :
    slots.map (·.kind) <+: tokens.map (·.kind) := by
  induction h with
  | nil => exact List.nil_prefix
  | cons hkind _ _ ih =>
    rw [List.map_cons, List.map_cons, hkind, List.prefix_cons_inj]
    exact ih

section FilledCons

variable {slots : List Slot} {t : Token} {tokens : List Token}

theorem filled_any_iff {s : Slot} (h : ∀ cs, cs ∈ s.lexemes) :
    Filled (s :: slots) (t :: tokens) ↔ t.kind = s.kind ∧ Filled slots tokens := by
  rw [filled_cons_iff]
  exact and_congr_right fun _ => and_iff_right (h _)

theorem filled_keyword_iff {word : Keyword} : Filled (keyword word :: slots) (t :: tokens) ↔
    t.kind = .keyword word ∧ Filled slots tokens :=
  filled_any_iff fun _ => trivial

theorem filled_colon_iff : Filled (colon :: slots) (t :: tokens) ↔
    t.kind = .colon ∧ Filled slots tokens :=
  filled_any_iff fun _ => trivial

theorem filled_semicolon_iff : Filled (semicolon :: slots) (t :: tokens) ↔
    t.kind = .semicolon ∧ Filled slots tokens :=
  filled_any_iff fun _ => trivial

theorem filled_natural_iff {limit n : Nat} : Filled (natural limit n :: slots) (t :: tokens) ↔
    t.kind = .integer ∧ t.natural limit = .ok n ∧ Filled slots tokens := by
  have h : t.lexeme.toList ∈ (natural limit n).lexemes ↔ t.natural limit = .ok n := by
    have h : t.lexeme.toList ∈ (natural limit n).lexemes ↔
        Numeral.readNat limit t.lexeme.toList = .ok n := Iff.rfl
    rw [h, Token.natural]
    cases Numeral.readNat limit t.lexeme.toList <;> simp
  rw [filled_cons_iff, h]
  exact Iff.rfl

theorem filled_quoted_iff {s : String} : Filled (quoted s :: slots) (t :: tokens) ↔
    t.kind = .string ∧ t.lexeme = s ∧ Filled slots tokens := by
  have h : t.lexeme.toList ∈ (quoted s).lexemes ↔ t.lexeme = s := String.toList_inj
  rw [filled_cons_iff, h]
  exact Iff.rfl

end FilledCons

theorem filled_declaration_iff {e : Entry} {slots : List Slot} {tokens : List Token} :
    Filled (declaration e ++ slots) tokens ↔
      Declaration.Declares (tokens.take 13) e ∧ Filled slots (tokens.drop 13) := by
  have hsplit (h : (tokens.take 13).map (·.kind) = Declaration.kinds) :
      Filled (declaration e ++ slots) tokens ↔
        Declaration.Declares (tokens.take 13) e ∧ Filled slots (tokens.drop 13) := by
    obtain ⟨t₀, t₁, t₂, t₃, t₄, t₅, t₆, t₇, t₈, t₉, t₁₀, t₁₁, t₁₂, hts⟩ :=
      Declaration.exists_of_kinds h
    have htokens := List.take_append_drop 13 tokens
    rw [hts] at htokens h ⊢
    generalize tokens.drop 13 = tail at htokens ⊢
    subst htokens
    rw [Declaration.declares_iff h]
    simp only [Declaration.kinds, List.map_cons, List.map_nil, List.cons.injEq, and_true] at h
    obtain ⟨h₀, h₁, h₂, h₃, h₄, h₅, h₆, h₇, h₈, h₉, h₁₀, h₁₁, h₁₂⟩ := h
    simp only [declaration, List.cons_append, List.nil_append, filled_keyword_iff,
      filled_colon_iff, filled_semicolon_iff, filled_natural_iff, filled_quoted_iff, h₀, h₁, h₂,
      h₃, h₄, h₅, h₆, h₇, h₈, h₉, h₁₀, h₁₁, h₁₂, true_and, and_assoc]
  apply Iff.intro
  · intro h
    have hkinds : (tokens.take 13).map (·.kind) = Declaration.kinds := by
      obtain ⟨kinds, hkinds⟩ := h.kinds
      rw [List.map_take, ← hkinds]
      rfl
    exact (hsplit hkinds).1 h
  · intro h
    exact (hsplit h.1.kinds).2 h

end Slot

namespace Cursor

theorem isAtEnd_of_declaration_ok {c c' : Cursor} {e : Entry} (h : c.declaration = (.ok e, c')) :
    c.isAtEnd = false := by
  cases hcheck : c.check (.keyword .enumeration) with
  | true => exact isAtEnd_of_check hcheck (by decide)
  | false =>
    rw [declaration_of_not_check hcheck] at h
    cases h

/-- The attempts give some entries exactly if the tokens ahead fill the slots of their
declarations. -/
theorem outcomes_eq_ok_iff_filled {c : Cursor} {entries : List Entry} :
    c.attempts.map (·.outcome) = entries.map .ok ↔
      Slot.Filled (entries.flatMap Slot.declaration) c.ahead := by
  induction entries generalizing c with
  | nil =>
    rw [List.map_nil, List.map_eq_nil_iff, attempts_eq_nil_iff, isAtEnd_eq_true_iff]
    exact Slot.filled_nil_iff.symm
  | cons e entries ih =>
    rw [List.flatMap_cons, Slot.filled_declaration_iff, ← ahead_skip, ← ih, List.map_cons]
    apply Iff.intro
    · intro h
      cases hend : c.isAtEnd with
      | true =>
        rw [attempts_of_end hend] at h
        cases h
      | false =>
        rw [attempts_of_not_end hend, List.map_cons] at h
        injection h with hfirst hothers
        cases hd : c.declaration with
        | mk outcome c' =>
          cases outcome with
          | error r =>
            rw [attempt_of_error hd] at hfirst
            cases hfirst
          | ok e' =>
            rw [attempt_of_ok hd] at hfirst hothers
            cases hfirst
            obtain ⟨hdeclares, rfl⟩ := declaration_eq_ok_iff.1 hd
            exact ⟨hdeclares, hothers⟩
    · intro ⟨hdeclares, hothers⟩
      have hd := declaration_eq_ok_iff.2 ⟨hdeclares, rfl⟩
      rw [attempts_of_not_end (isAtEnd_of_declaration_ok hd), attempt_of_ok hd, List.map_cons,
        hothers]

theorem filled_ofTokens_iff {entries : List Entry} {tokens : List Token} :
    Slot.Filled (entries.flatMap Slot.declaration) (ofTokens tokens).ahead ↔
      Slot.Filled (entries.flatMap Slot.declaration) tokens := by
  cases tokens with
  | cons t tokens => exact Iff.rfl
  | nil =>
    cases entries with
    | nil =>
      rw [List.flatMap_nil, Slot.filled_nil_iff, Slot.filled_nil_iff]
      exact iff_of_true (by simp [ofTokens, Token.endOfFile]) (by simp)
    | cons e entries =>
      rw [List.flatMap_cons, Slot.filled_declaration_iff, Slot.filled_declaration_iff]
      exact iff_of_false (fun h => absurd h.1.length (by decide))
        (fun h => absurd h.1.length (by decide))

end Cursor

namespace Grammar

theorem mem_declaring_iff {source : String} {entries : List Entry} :
    source.toList ∈ declaring entries ↔
      Slot.Filled (entries.flatMap Slot.declaration) (tokenize source) := by
  rw [declaring_eq_phrase]
  apply Iff.intro
  · intro h
    obtain ⟨tokens, ⟨tiles, rest, hs, htiles⟩, hfilled⟩ := exists_lexes_of_mem_phrase h []
    rw [← htiles.eq_tokenize hs]
    exact hfilled
  · intro h
    exact mem_phrase_of_lexes (tiles_tokenize source) h

theorem mem_declaring_iff_isClean (limit : Option Nat) {source : String} {entries : List Entry} :
    source.toList ∈ declaring entries ↔
      (readSource limit source).1.isClean = true ∧
        (readSource limit source).1.entries = entries := by
  rw [mem_declaring_iff, ← Cursor.filled_ofTokens_iff, ← Cursor.outcomes_eq_ok_iff_filled,
    ← Cursor.read_isClean_iff limit]
  rfl

theorem mem_source_iff_isClean (limit : Option Nat) {text : String} :
    text.toList ∈ source ↔ (readSource limit text).1.isClean = true := by
  rw [mem_source_iff]
  apply Iff.intro
  · intro ⟨entries, h⟩
    exact ((mem_declaring_iff_isClean limit).1 h).1
  · intro h
    exact ⟨_, (mem_declaring_iff_isClean limit).2 ⟨h, rfl⟩⟩

end Grammar

namespace Command

theorem status_strict_eq_zero_iff (path : String) (format : Format) (limit : Option Nat)
    (verbosity : Verbosity) (source : String) :
    (((Request.mk path (.parse format true limit)).run (.ok source)).report verbosity).status = 0 ↔
      (readSource limit source).1.isClean = true := by
  cases h : (readSource limit source).1.isClean <;>
    simp [Request.run, Task.run, Task.runParse, Outcome.report, h]

end Command

/-- A text is accepted, under any limit, exactly if it is one of the grammar, and its entries are
those that it declares. -/
theorem accepted_iff_mem_source (text : String) (limit : Option Nat) :
    ((readSource limit text).1.isClean = true ↔ text.toList ∈ Grammar.source) ∧
      (∀ entries, (readSource limit text).1.isClean = true ∧
        (readSource limit text).1.entries = entries ↔ text.toList ∈ Grammar.declaring entries) ∧
      ∀ path format verbosity,
        (((Command.Request.mk path (.parse format true limit)).run (.ok text)).report
          verbosity).status = 0 ↔ text.toList ∈ Grammar.source := by
  refine ⟨(Grammar.mem_source_iff_isClean limit).symm,
    fun entries => (Grammar.mem_declaring_iff_isClean limit).symm, ?_⟩
  intro path format verbosity
  rw [Grammar.mem_source_iff_isClean limit]
  exact Command.status_strict_eq_zero_iff path format limit verbosity text

end Codebook
