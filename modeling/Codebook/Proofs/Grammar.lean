import Codebook.Declaration.Basic
import Codebook.Proofs.Numeral
import Codebook.Proofs.Phrase

namespace Codebook

open Computability

namespace Slot

def keyword (word : Keyword) : Slot :=
  ⟨.keyword word, ⊤, rfl⟩

def colon : Slot :=
  ⟨.colon, ⊤, rfl⟩

def semicolon : Slot :=
  ⟨.semicolon, ⊤, rfl⟩

def natural (limit n : Nat) : Slot :=
  ⟨.integer, {cs | Numeral.readNat limit cs = .ok n}, rfl⟩

def quoted (s : String) : Slot :=
  ⟨.string, {s.toList}, rfl⟩

def declaration (e : Entry) : List Slot :=
  [keyword .enumeration, natural maxNumber e.number.toNat, colon,
    keyword .type, colon, quoted e.category.text,
    keyword .title, colon, quoted e.title,
    keyword .id, colon, natural maxId e.id.toNat, semicolon]

end Slot

namespace Grammar

/-- A text as it stands. -/
def literal (s : String) : Language Char :=
  {s.toList}

/-- The digits of a number, with any zeros in front. -/
def number (n : Nat) : Language Char :=
  {ds | Numeral.Digits ds n}

/-- A text between quotes, without a quote in it. -/
def quoted (s : String) : Language Char :=
  {cs | quote ∉ s.toList ∧ cs = quote :: (s.toList ++ [quote])}

/-- The declaration of an entry. -/
def declaration (e : Entry) : Language Char :=
  literal "enumeration" * space * number e.number.toNat * gap * literal ":" * gap *
    literal "type" * gap * literal ":" * gap * quoted e.category.text * gap *
    literal "title" * gap * literal ":" * gap * quoted e.title * gap *
    literal "id" * gap * literal ":" * gap * number e.id.toNat * gap * literal ";"

/-- A source text that declares some entries, in order. -/
def declaring (entries : List Entry) : Language Char :=
  gap * (entries.map fun e => declaration e * gap).prod

def anyDeclaration : Language Char :=
  {cs | ∃ e, cs ∈ declaration e}

/-- A source text: declarations with blanks around them. -/
def source : Language Char :=
  gap * (anyDeclaration * gap)∗

theorem texts_eq_literal {s : Slot} {lexeme : List Char} {text : String} (h : lexeme ∈ s.lexemes)
    (hs : s.kind.Spells lexeme text.toList)
    (honly : ∀ lexeme cs, s.kind.Spells lexeme cs → cs = text.toList) :
    s.texts = literal text := by
  apply Language.ext
  intro cs
  apply Iff.intro
  · intro ⟨lexeme, _, hcs⟩
    exact honly lexeme cs hcs
  · intro hcs
    cases hcs
    exact ⟨lexeme, h, hs⟩

theorem texts_keyword (word : Keyword) : (Slot.keyword word).texts = literal word.text := by
  apply texts_eq_literal (s := .keyword word) trivial (.keyword word)
  intro lexeme cs hs
  cases hs
  rfl

theorem texts_colon : Slot.colon.texts = literal ":" := by
  have hcolon : Token.Kind.colon.Spells [':'] ":".toList := .colon
  apply texts_eq_literal (s := .colon) trivial hcolon
  intro lexeme cs hs
  cases hs
  rfl

theorem texts_semicolon : Slot.semicolon.texts = literal ";" := by
  have hsemicolon : Token.Kind.semicolon.Spells [';'] ";".toList := .semicolon
  apply texts_eq_literal (s := .semicolon) trivial hsemicolon
  intro lexeme cs hs
  cases hs
  rfl

theorem texts_natural {limit n : Nat} (h : n ≤ limit) :
    (Slot.natural limit n).texts = number n := by
  apply Language.ext
  intro cs
  apply Iff.intro
  · intro ⟨lexeme, hread, hs⟩
    cases hs with
    | integer hne hdigits =>
      obtain ⟨ds, rfl | rfl, hds, -⟩ := Numeral.readNat_eq_ok_iff.1 hread
      · exact hds
      · -- A plus sign is no digit.
        exact absurd (hdigits '+' List.mem_cons_self) (by decide)
  · intro hds
    exact ⟨cs, Numeral.readNat_eq_ok_iff.2 ⟨cs, .inl rfl, hds, h⟩, .integer hds.ne_nil hds.isDigit⟩

theorem texts_quoted (s : String) : (Slot.quoted s).texts = quoted s := by
  apply Language.ext
  intro cs
  apply Iff.intro
  · intro ⟨lexeme, hlexeme, hs⟩
    cases hlexeme
    cases hs with
    | string hquote => exact ⟨hquote, rfl⟩
  · intro ⟨hquote, hcs⟩
    rw [hcs]
    exact ⟨_, rfl, .string hquote⟩

theorem phrase_declaration (e : Entry) (slots : List Slot) :
    phrase (Slot.declaration e ++ slots) = declaration e * gap * phrase slots := by
  have hnumber : (Slot.natural maxNumber e.number.toNat).texts = number e.number.toNat :=
    texts_natural (Nat.le_of_lt_succ e.number.toNat_lt)
  have hid : (Slot.natural maxId e.id.toNat).texts = number e.id.toNat :=
    texts_natural (Nat.le_of_lt_succ e.id.toNat_lt)
  have hlast (next : Option Token.Kind) : separator Slot.semicolon.kind next = gap := by
    cases next with
    | none => rfl
    | some kind => rfl
  simp only [Slot.declaration, List.cons_append, List.nil_append, phrase, List.head?_cons,
    Option.map_some, texts_keyword, texts_colon, texts_semicolon, texts_quoted, hnumber, hid, hlast]
  simp only [declaration, mul_assoc]
  rfl

theorem declaring_eq_phrase (entries : List Entry) :
    declaring entries = gap * phrase (entries.flatMap Slot.declaration) := by
  rw [declaring]
  congr 1
  induction entries with
  | nil => rfl
  | cons e entries ih =>
    rw [List.map_cons, List.prod_cons, List.flatMap_cons, phrase_declaration, ih]

theorem mem_anyDeclaration_gap_iff {cs : List Char} :
    cs ∈ anyDeclaration * gap ↔ ∃ e, cs ∈ declaration e * gap := by
  apply Iff.intro
  · intro h
    obtain ⟨x, ⟨e, hx⟩, y, hy, rfl⟩ := Language.mem_mul.1 h
    exact ⟨e, Language.append_mem_mul hx hy⟩
  · intro ⟨e, h⟩
    obtain ⟨x, hx, y, hy, rfl⟩ := Language.mem_mul.1 h
    exact Language.append_mem_mul ⟨e, hx⟩ hy

theorem mem_kstar_iff {cs : List Char} : cs ∈ (anyDeclaration * gap)∗ ↔
    ∃ entries : List Entry, cs ∈ (entries.map fun e => declaration e * gap).prod := by
  apply Iff.intro
  · intro h
    obtain ⟨parts, rfl, hparts⟩ := Language.mem_kstar.1 h
    clear h
    induction parts with
    | nil => exact ⟨[], rfl⟩
    | cons part parts ih =>
      obtain ⟨hpart, hparts⟩ := List.forall_mem_cons.1 hparts
      obtain ⟨e, he⟩ := mem_anyDeclaration_gap_iff.1 hpart
      obtain ⟨entries, hentries⟩ := ih hparts
      exact ⟨e :: entries, Language.append_mem_mul he hentries⟩
  · intro ⟨entries, h⟩
    induction entries generalizing cs with
    | nil =>
      cases h
      exact Language.nil_mem_kstar _
    | cons e entries ih =>
      obtain ⟨x, hx, y, hy, rfl⟩ := Language.mem_mul.1 h
      obtain ⟨parts, rfl, hparts⟩ := Language.mem_kstar.1 (ih hy)
      have hx := mem_anyDeclaration_gap_iff.2 ⟨e, hx⟩
      exact Language.mem_kstar.2 ⟨x :: parts, rfl, List.forall_mem_cons.2 ⟨hx, hparts⟩⟩

theorem mem_source_iff {cs : List Char} : cs ∈ source ↔ ∃ entries, cs ∈ declaring entries := by
  apply Iff.intro
  · intro h
    obtain ⟨w, hw, x, hx, rfl⟩ := Language.mem_mul.1 h
    obtain ⟨entries, hentries⟩ := mem_kstar_iff.1 hx
    exact ⟨entries, Language.append_mem_mul hw hentries⟩
  · intro ⟨entries, h⟩
    obtain ⟨w, hw, x, hx, rfl⟩ := Language.mem_mul.1 h
    exact Language.append_mem_mul hw (mem_kstar_iff.2 ⟨entries, hx⟩)

end Grammar

end Codebook
