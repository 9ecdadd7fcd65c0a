import Codebook.Proofs.Tiling
import Mathlib.Computability.Language

namespace Codebook

/-- Any number of blanks. -/
def gap : Language Char :=
  {cs | ∀ c ∈ cs, c ∈ blanks}

/-- At least one blank. -/
def space : Language Char :=
  {cs | cs ≠ [] ∧ ∀ c ∈ cs, c ∈ blanks}

/-- A place for a token of one kind, with the lexemes that it allows. -/
structure Slot where
  kind : Token.Kind
  lexemes : Language Char
  not_terminal : kind.isTerminal = false

namespace Slot

def texts (s : Slot) : Language Char :=
  {text | ∃ lexeme ∈ s.lexemes, s.kind.Spells lexeme text}

/-- Tokens that fill some slots, with nothing behind them but the end of the file. -/
inductive Filled : List Slot → List Token → Prop where
  | nil {tail : List Token} : (∀ t ∈ tail.head?, t.kind = .endOfFile) → Filled [] tail
  | cons {s : Slot} {slots : List Slot} {t : Token} {tokens : List Token} :
      t.kind = s.kind → t.lexeme.toList ∈ s.lexemes → Filled slots tokens →
        Filled (s :: slots) (t :: tokens)

end Slot

/-- Tokens of these two kinds run into each other without a blank between them. -/
def Token.Kind.meets : Token.Kind → Token.Kind → Bool
  | .keyword _, .keyword _ => true
  | .keyword _, .integer => true
  | .integer, .integer => true
  | _, _ => false

/-- What stands between a token and the next one, if there is one. -/
def separator (kind : Token.Kind) (next : Option Token.Kind) : Language Char :=
  if next.any kind.meets then space else gap

/-- The texts that some slots allow, from the first token on. -/
def phrase : List Slot → Language Char
  | [] => 1
  | s :: slots => s.texts * (separator s.kind (slots.head?.map (·.kind)) * phrase slots)

theorem Token.Kind.extendedBy_of_mem_blanks {c : Char} (h : c ∈ blanks) (kind : Token.Kind) :
    kind.extendedBy c = false := by
  simp only [blanks, List.mem_cons, List.not_mem_nil, or_false] at h
  cases kind <;> rcases h with rfl | rfl | rfl | rfl <;> rfl

theorem startsWord_head {c : Char} {text : List Char} (h : IsWord text) (hc : c ∈ text.head?) :
    startsWord c = true := by
  cases text with
  | nil => cases h
  | cons d text =>
    cases hc
    exact h.1

theorem Token.Kind.Spells.extendedBy_head {kind kind' : Token.Kind} {lexeme text : List Char}
    (h : kind'.Spells lexeme text) :
    ∀ c ∈ text.head?, kind.extendedBy c = kind.meets kind' := by
  intro c hc
  cases h with
  | keyword word =>
    have hstart := startsWord_head (isWord_text word) hc
    have hword := continuesWord_of_startsWord hstart
    have hdigit := not_isDigit_of_startsWord hstart
    cases kind <;> simp only [extendedBy, meets, hword, hdigit]
  | integer hne hdigits =>
    have hdigit := hdigits c (List.mem_of_mem_head? hc)
    have hword := continuesWord_of_isDigit hdigit
    cases kind <;> simp only [extendedBy, meets, hword, hdigit]
  | string => cases hc; cases kind <;> rfl
  | colon => cases hc; cases kind <;> rfl
  | semicolon => cases hc; cases kind <;> rfl

theorem Token.Kind.Spells.head_not_mem_blanks {kind : Token.Kind} {lexeme text : List Char}
    (h : kind.Spells lexeme text) : ∀ c ∈ text.head?, c ∉ blanks := by
  intro c hc hblank
  have hword : continuesWord c = false :=
    extendedBy_of_mem_blanks hblank (.keyword .enumeration)
  cases h with
  | keyword word =>
    rw [continuesWord_of_startsWord (startsWord_head (isWord_text word) hc)] at hword
    cases hword
  | integer hne hdigits =>
    rw [continuesWord_of_isDigit (hdigits c (List.mem_of_mem_head? hc))] at hword
    cases hword
  | string => cases hc; exact absurd hblank (by decide)
  | colon => cases hc; exact absurd hblank (by decide)
  | semicolon => cases hc; exact absurd hblank (by decide)

theorem any_extendedBy_head_phrase {slots : List Slot} {cs : List Char}
    (h : cs ∈ phrase slots) (kind : Token.Kind) :
    cs.head?.any kind.extendedBy = (slots.head?.map (·.kind)).any kind.meets := by
  cases slots with
  | nil =>
    cases h
    rfl
  | cons s slots =>
    obtain ⟨text, ⟨lexeme, -, hs⟩, behind, -, rfl⟩ := Language.mem_mul.1 h
    cases text with
    | nil => exact absurd rfl hs.ne_nil
    | cons c text => exact hs.extendedBy_head c rfl

/-- Blanks separate a token from a phrase exactly if the token does not go on behind itself. -/
theorem mem_separator_iff {kind : Token.Kind} {slots : List Slot} {cs behind : List Char}
    (h : behind ∈ phrase slots) : cs ∈ separator kind (slots.head?.map (·.kind)) ↔
      cs ∈ gap ∧ ∀ c ∈ (cs ++ behind).head?, kind.extendedBy c = false := by
  rw [separator, ← any_extendedBy_head_phrase h kind]
  cases cs with
  | cons d cs =>
    have hspace : d :: cs ∈ space ↔ d :: cs ∈ gap := and_iff_right (List.cons_ne_nil d cs)
    have hblank : d :: cs ∈ gap → ∀ c ∈ (d :: cs ++ behind).head?, kind.extendedBy c = false := by
      intro hgap c hc
      cases hc
      exact Token.Kind.extendedBy_of_mem_blanks (hgap d List.mem_cons_self) kind
    rw [and_iff_left_of_imp hblank]
    split
    · exact hspace
    · exact Iff.rfl
  | nil =>
    have hgap : [] ∈ gap := by
      intro c hc
      cases hc
    have hspace : [] ∉ space := fun h => h.1 rfl
    rw [List.nil_append, and_iff_right hgap]
    cases behind with
    | nil => exact iff_of_true hgap (by simp)
    | cons c behind =>
      cases hc : kind.extendedBy c <;> simp [hc, hgap, hspace]

/-- Characters that are read as some tokens, from a place behind others on. -/
def Lexes (before cs : List Char) (tokens : List Token) : Prop :=
  ∃ tiles rest, cs = tiles.flatMap Tile.chars ++ rest ∧ Tiles before tiles rest tokens

theorem exists_lexes_of_mem_gap {cs : List Char} (h : cs ∈ gap) (before : List Char) :
    ∃ tokens, Lexes before cs tokens ∧ Slot.Filled [] tokens := by
  cases cs with
  | nil => exact ⟨[], ⟨[], [], rfl, .nil⟩, .nil (by simp)⟩
  | cons c cs =>
    let t : Tile := ⟨c :: cs, [], h, by simp⟩
    refine ⟨_, ⟨[t], [], ?_, .endOfFile (List.cons_ne_nil c cs) rfl⟩, .nil ?_⟩
    · simp [Tile.chars, t]
    · intro a ha
      cases ha
      rfl

theorem mem_gap_of_lexes {before cs : List Char} {tokens : List Token}
    (h : Lexes before cs tokens) (hend : ∀ t ∈ tokens.head?, t.kind = .endOfFile) : cs ∈ gap := by
  obtain ⟨tiles, rest, rfl, htiles⟩ := h
  cases htiles with
  | nil =>
    intro c hc
    cases hc
  | @endOfFile _ t hgap htext =>
    rw [List.flatMap_singleton, List.append_nil, Tile.chars, htext, List.append_nil]
    exact t.gap_blank
  | error => cases hend _ rfl
  | @token _ _ _ t tiles kind _ hs =>
    have hkind : kind = .endOfFile := hend _ rfl
    have hterminal := hs.isTerminal
    rw [hkind] at hterminal
    cases hterminal

theorem Lexes.cons {cs after lexeme : List Char} {kind : Token.Kind} {tokens : List Token}
    {before : List Char} (t : Tile) (hs : kind.Spells lexeme t.text)
    (hafter : ∀ c ∈ after.head?, kind.extendedBy c = false)
    (h : Lexes (before ++ t.chars) after tokens) (hcs : cs = t.chars ++ after) :
    Lexes before cs (⟨kind, String.ofList lexeme, lineBehind (before ++ t.gap)⟩ :: tokens) := by
  obtain ⟨tiles, rest, rfl, htiles⟩ := h
  refine ⟨t :: tiles, rest, ?_, .token hs hafter htiles⟩
  rw [hcs, List.flatMap_cons, List.append_assoc]

/-- A text of some slots, with blanks in front, is read as tokens that fill them. -/
theorem exists_lexes_of_mem_phrase {slots : List Slot} {cs : List Char}
    (h : cs ∈ gap * phrase slots) (before : List Char) :
    ∃ tokens, Lexes before cs tokens ∧ Slot.Filled slots tokens := by
  induction slots generalizing cs before with
  | nil =>
    rw [phrase, mul_one] at h
    exact exists_lexes_of_mem_gap h before
  | cons s slots ih =>
    obtain ⟨w, hw, x, hx, rfl⟩ := Language.mem_mul.1 h
    obtain ⟨text, ⟨lexeme, hlexeme, hs⟩, y, hy, rfl⟩ := Language.mem_mul.1 hx
    obtain ⟨w', hw', behind, hbehind, rfl⟩ := Language.mem_mul.1 hy
    obtain ⟨hgap, hafter⟩ := (mem_separator_iff hbehind).1 hw'
    let t : Tile := ⟨w, text, hw, hs.head_not_mem_blanks⟩
    obtain ⟨tokens, hlexes, hfilled⟩ :=
      ih (Language.mem_mul.2 ⟨w', hgap, behind, hbehind, rfl⟩) (before ++ t.chars)
    refine ⟨_, .cons t hs hafter hlexes ?_, .cons rfl ?_ hfilled⟩
    · rw [Tile.chars, List.append_assoc]
    · rw [String.toList_ofList]
      exact hlexeme

/-- What is read as tokens that fill some slots is a text of them, with blanks in front. -/
theorem mem_phrase_of_lexes {slots : List Slot} {before cs : List Char} {tokens : List Token}
    (h : Lexes before cs tokens) (hfilled : Slot.Filled slots tokens) :
    cs ∈ gap * phrase slots := by
  induction hfilled generalizing before cs with
  | nil hend =>
    rw [phrase, mul_one]
    exact mem_gap_of_lexes h hend
  | @cons s slots a tokens hkind hlexeme _ ih =>
    obtain ⟨tiles, rest, rfl, htiles⟩ := h
    have hterminal := s.not_terminal
    cases htiles with
    | endOfFile =>
      rw [← hkind] at hterminal
      cases hterminal
    | error =>
      rw [← hkind] at hterminal
      cases hterminal
    | @token _ _ lexeme t tiles kind _ hs hafter htiles =>
      obtain ⟨w, hw, behind, hbehind, hcs⟩ := Language.mem_mul.1 (ih ⟨tiles, rest, rfl, htiles⟩)
      have hkind : kind = s.kind := hkind
      rw [String.toList_ofList] at hlexeme
      rw [← hcs] at hafter
      rw [List.flatMap_cons, List.append_assoc, ← hcs, Tile.chars, List.append_assoc]
      refine Language.append_mem_mul t.gap_blank ?_
      refine Language.append_mem_mul ⟨lexeme, hlexeme, hkind ▸ hs⟩ ?_
      exact Language.append_mem_mul ((mem_separator_iff hbehind).2 ⟨hw, hkind ▸ hafter⟩) hbehind

end Codebook
