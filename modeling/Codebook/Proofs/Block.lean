import Codebook.Proofs.Attempts
import Mathlib.Data.List.Basic

namespace Codebook

namespace Declaration

/-- What is wrong with the value of a token at a place of a declaration. Three places have one. -/
def valueViolation? (place : Nat) (t : Token) : Option Rejection :=
  match place with
  | 1 =>
    if (Numeral.readNat maxNumber t.lexeme.toList).isOk then none
    else some (.overflow t.lexeme maxNumber t.line)
  | 5 =>
    if t.lexeme = "error" ∨ t.lexeme = "app_id" then none
    else some (.unknownCategory t.lexeme t.line)
  | 11 =>
    if (Numeral.readNat maxId t.lexeme.toList).isOk then none
    else some (.overflow t.lexeme maxId t.line)
  | _ => none

/-- What is wrong at a place of a declaration where a token of some kind should stand. -/
def violation? (found : Token) (ts : List Token) (kind : Token.Kind) (place : Nat) :
    Option Rejection :=
  let reason := (steps[place]?.map (·.reason)).getD ""
  match ts[place]? with
  | none => some (.unexpectedToken kind found reason)
  | some t =>
    if t.kind = kind then valueViolation? place t else some (.unexpectedToken kind t reason)

/-- The violation at the first place that has one. -/
def firstViolation? (found : Token) (ts : List Token) : Option Rejection :=
  kinds.zipIdx.findSome? fun p => violation? found ts p.1 p.2

/-- The entry that tokens declare, if they are the tokens of a declaration. -/
def declared? (ts : List Token) : Option Entry :=
  match ts with
  | [_, number, _, _, _, category, _, _, title, _, _, id, _] =>
    if ts.map (·.kind) = kinds then
      match number.natural maxNumber, category.category, id.natural maxId with
      | .ok n, .ok c, .ok m => some ⟨UInt16.ofNat n, c, title.lexeme, UInt32.ofNat m⟩
      | _, _, _ => none
    else none
  | _ => none

theorem declared?_eq_some_iff {ts : List Token} {e : Entry} :
    declared? ts = some e ↔ Declares ts e := by
  apply Iff.intro
  · intro h
    unfold declared? at h
    split at h
    · rename_i number _ _ _ category _ _ title _ _ id _
      split at h
      · rename_i hk
        split at h
        · rename_i n c m hn hc hm
          cases h
          have hn' := Token.toNat_of_natural_maxNumber hn
          have hm' := Token.toNat_of_natural_maxId hm
          exact (declares_iff hk).2 ⟨by rw [hn']; exact hn, Token.category_eq_ok_iff.1 hc, rfl,
            by rw [hm']; exact hm⟩
        · cases h
      · cases h
    · cases h
  · intro h
    obtain ⟨t₀, t₁, t₂, t₃, t₄, t₅, t₆, t₇, t₈, t₉, t₁₀, t₁₁, t₁₂, rfl⟩ := exists_of_kinds h.kinds
    obtain ⟨hn, hcategory, ht, hm⟩ := (declares_iff h.kinds).1 h
    have hc : t₅.category = .ok e.category := Token.category_eq_ok_iff.2 hcategory
    simp only [declared?, h.kinds, if_true, hn, hc, hm, ht, UInt16.ofNat_toNat, UInt32.ofNat_toNat]

def start : Step :=
  .mark (.keyword .enumeration) "Expected 'enumeration' at start of declaration"

namespace Step

theorem number_refusal? (t : Token) : number.refusal? t = valueViolation? 1 t := by
  simp only [refusal?, number, Token.natural, valueViolation?]
  cases Numeral.readNat maxNumber t.lexeme.toList <;> rfl

theorem id_refusal? (t : Token) : id.refusal? t = valueViolation? 11 t := by
  simp only [refusal?, id, Token.natural, valueViolation?]
  cases Numeral.readNat maxId t.lexeme.toList <;> rfl

theorem category_refusal? (t : Token) : category.refusal? t = valueViolation? 5 t := by
  simp only [refusal?, category, Token.category, Category.read, valueViolation?, Category.text]
  by_cases he : t.lexeme = "error"
  · simp [he, Except.map]
  · by_cases ha : t.lexeme = "app_id"
    · simp [ha, Except.map]
    · simp [he, ha, Except.map]

/-- What is wrong where a step meets the token at a place. -/
def violation? (found : Token) (ts : List Token) (step : Step) (place : Nat) : Option Rejection :=
  match ts[place]? with
  | none => some (.unexpectedToken step.kind found step.reason)
  | some t =>
    if t.kind = step.kind then step.refusal? t
    else some (.unexpectedToken step.kind t step.reason)

theorem refusal?_eq_valueViolation? {p : Step × Nat} (h : p ∈ steps.zipIdx) (t : Token) :
    p.1.refusal? t = valueViolation? p.2 t := by
  simp only [steps, List.zipIdx_cons, List.zipIdx_nil, List.mem_cons, List.not_mem_nil,
    or_false] at h
  rcases h with rfl | rfl | rfl | rfl | rfl | rfl | rfl | rfl | rfl | rfl | rfl | rfl | rfl
  case inr.inl => exact number_refusal? t
  case inr.inr.inr.inr.inr.inl => exact category_refusal? t
  case inr.inr.inr.inr.inr.inr.inr.inr.inr.inr.inr.inl => exact id_refusal? t
  all_goals rfl

theorem violation?_eq {p : Step × Nat} (h : p ∈ steps.zipIdx) (found : Token) (ts : List Token) :
    p.1.violation? found ts p.2 = Declaration.violation? found ts p.1.kind p.2 := by
  have hreason : (steps[p.2]?.map (·.reason)).getD "" = p.1.reason := by
    rw [List.mem_zipIdx_iff_getElem?.1 h]
    rfl
  simp only [violation?, Declaration.violation?, hreason, refusal?_eq_valueViolation? h]

end Step

theorem firstViolation?_eq (found : Token) (ts : List Token) :
    firstViolation? found ts =
      steps.zipIdx.findSome? fun p => p.1.violation? found ts p.2 := by
  have hkinds : kinds.zipIdx = steps.zipIdx.map fun p => (p.1.kind, p.2) := rfl
  rw [firstViolation?, hkinds, List.findSome?_map, ← List.head?_filterMap,
    ← List.head?_filterMap]
  congr 1
  exact List.filterMap_congr fun p hp => (Step.violation?_eq hp found ts).symm

end Declaration

/-- The tokens from the start of a declaration up to the start of the next. -/
structure Block where
  start : Token
  body : List Token
  start_kind : start.kind = .keyword .enumeration
  body_kind : ∀ t ∈ body, t.kind ≠ .keyword .enumeration

namespace Block

def tokens (b : Block) : List Token :=
  b.start :: b.body

def last (b : Block) : Token :=
  b.body.getLast?.getD b.start

/-- Divides tokens into those before the first start of a declaration, and blocks. -/
def divide : List Token →
    { ts : List Token // ∀ t ∈ ts, t.kind ≠ .keyword .enumeration } × List Block
  | [] => (⟨[], by simp⟩, [])
  | t :: ts =>
    if h : t.kind = .keyword .enumeration then
      (⟨[], by simp⟩, ⟨t, (divide ts).1, h, (divide ts).1.2⟩ :: (divide ts).2)
    else (⟨t :: (divide ts).1, List.forall_mem_cons.2 ⟨h, (divide ts).1.2⟩⟩, (divide ts).2)

theorem divide_tokens (ts : List Token) :
    (divide ts).1.1 ++ (divide ts).2.flatMap tokens = ts := by
  induction ts with
  | nil => rfl
  | cons t ts ih =>
    rw [divide]
    split
    · simpa [tokens] using ih
    · simpa using ih

theorem mem_of_mem_leading {t : Token} {ts : List Token} (h : t ∈ (divide ts).1.1) : t ∈ ts := by
  rw [← divide_tokens ts]
  exact List.mem_append_left _ h

theorem mem_of_mem_body {t : Token} {ts : List Token} {b : Block} (hb : b ∈ (divide ts).2)
    (h : t ∈ b.body) : t ∈ ts := by
  rw [← divide_tokens ts]
  exact List.mem_append_right _ (List.mem_flatMap.2 ⟨b, hb, List.mem_cons_of_mem _ h⟩)

theorem head_flatMap_tokens (rest : List Token) (blocks : List Block) :
    ∀ t ∈ (blocks.flatMap tokens ++ rest).head?,
      t ∈ rest.head? ∨ t.kind = .keyword .enumeration := by
  intro t ht
  cases blocks with
  | nil => exact .inl ht
  | cons b blocks =>
    cases ht
    exact .inr b.start_kind

def misplaced (t : Token) : Rejection :=
  .unexpectedToken (.keyword .enumeration) t "Expected 'enumeration' at start of declaration"

/-- What becomes of a block. What follows a declaration within the block is rejected once. -/
def outcomes (found : Token) (b : Block) : List (Except Rejection Entry) :=
  match Declaration.declared? (b.tokens.take 13) with
  | some e => .ok e :: b.tokens[13]?.toList.map fun t => .error (misplaced t)
  | none => (Declaration.firstViolation? found b.tokens).toList.map .error

/-- What becomes of blocks. Where a block has run out the next token is found, or its own last
one. -/
def outcomesBefore (rest : List Token) : List Block → List (Except Rejection Entry)
  | [] => []
  | b :: blocks =>
    b.outcomes ((blocks.flatMap tokens ++ rest).head?.getD b.last) ++ outcomesBefore rest blocks

end Block

/-- Reads tokens block by block, up to the first end of file. -/
def Reading.blockwise (ts : List Token) : Reading :=
  let (leading, blocks) := Block.divide (ts.takeWhile (·.kind != .endOfFile))
  .ofOutcomes (leading.1.head?.toList.map (fun t => .error (Block.misplaced t)) ++
    Block.outcomesBefore (ts.dropWhile (·.kind != .endOfFile)) blocks)

end Codebook
