import Codebook.Json
import Codebook.Proofs.Phrase

namespace Codebook.Json

/-- What a JSON text says. A number stands as it is written: its value is for the reader to take. -/
inductive Document where
  | null
  | bool (b : Bool)
  | number (text : String)
  | text (s : String)
  | array (items : List Document)
  | object (members : List (String × Document))

def digits : Language Char :=
  {cs | cs ≠ [] ∧ ∀ c ∈ cs, c.isDigit = true}

/-- Digits without a zero in front of others. -/
def whole : Language Char :=
  {cs | cs ∈ digits ∧ (cs.head? = some '0' → cs = ['0'])}

def fraction : Language Char :=
  1 + {['.']} * digits

def exponent : Language Char :=
  1 + ({['e']} + {['E']}) * ((1 + {['+']} + {['-']}) * digits)

def numeral : Language Char :=
  (1 + {['-']}) * (whole * (fraction * exponent))

/-- The values that are written as a word. -/
def words : List (Document × String) :=
  [(.null, "null"), (.bool true, "true"), (.bool false, "false")]

/-- The character that a letter behind a backslash stands for. -/
def unescape? : Char → Option Char
  | '"' => some '"'
  | '\\' => some '\\'
  | '/' => some '/'
  | 'b' => some '\x08'
  | 'f' => some '\x0c'
  | 'n' => some '\n'
  | 'r' => some '\r'
  | 't' => some '\t'
  | _ => none

def hexDigit? (c : Char) : Option Nat :=
  (List.range 16).find? fun d => d.digitChar = c.toLower

/-- Four hexadecimal digits, in either letter case, and the number that they write. -/
def IsCodeUnit (n : Nat) (w : List Char) : Prop :=
  w.length = 4 ∧ w.foldlM (fun n c => (hexDigit? c).map (16 * n + ·)) 0 = some n

/-- What stands for a character behind a backslash. Above the first plane that may be the halves of
a surrogate pair. -/
inductive Escapes : Char → List Char → Prop where
  | letter {c e : Char} : unescape? e = some c → Escapes c [e]
  | unit {c : Char} {w : List Char} : IsCodeUnit c.toNat w → Escapes c ('u' :: w)
  | pair {c : Char} {high low : Nat} {w w' : List Char} : high < 0x400 → low < 0x400 →
      IsCodeUnit (0xd800 + high) w → IsCodeUnit (0xdc00 + low) w' →
      c.toNat = 0x10000 + 0x400 * high + low → Escapes c ('u' :: (w ++ '\\' :: 'u' :: w'))

/-- The texts that stand for a character inside of a string. -/
inductive Spells : Char → List Char → Prop where
  | plain {c : Char} : ' ' ≤ c → c ≠ '"' → c ≠ '\\' → Spells c [c]
  | escape {c : Char} {t : List Char} : Escapes c t → Spells c ('\\' :: t)

/-- The texts of a string, with the quotes around it. -/
def IsLiteral (s : String) (t : List Char) : Prop :=
  ∃ spellings, List.Forall₂ Spells s.toList spellings ∧ t = '"' :: (spellings.flatten ++ ['"'])

/-- The values that hold no others, with their texts. -/
inductive Scalar : Document → List Char → Prop where
  | word {d : Document} {w : String} : (d, w) ∈ words → Scalar d w.toList
  | number {s : String} : s.toList ∈ numeral → Scalar (.number s) s.toList
  | text {s : String} {t : List Char} : IsLiteral s t → Scalar (.text s) t

/-- What stands between the commas of an array or of an object. -/
inductive Item where
  | element
  | member

@[reducible]
def Item.Meaning : Item → Type
  | element => Document
  | member => String × Document

/-- The parts of a JSON text: a value, an item with blanks, the items of a sequence, and what stands
between brackets. -/
inductive Part where
  | value
  | item (i : Item)
  | sequence (i : Item)
  | body (i : Item)

@[reducible]
def Part.Meaning : Part → Type
  | value => Document
  | item i => i.Meaning
  | sequence i => List i.Meaning
  | body i => List i.Meaning

/-- A part is read off the front of some characters, and the others are left. -/
inductive Reads : (p : Part) → p.Meaning → List Char → List Char → Prop where
  | scalar {d : Document} {t r : List Char} : Scalar d t → Reads .value d (t ++ r) r
  | array {ds : List Document} {t r : List Char} : Reads (.body .element) ds t (']' :: r) →
      Reads .value (.array ds) ('[' :: t) r
  | object {ms : List (String × Document)} {t r : List Char} :
      Reads (.body .member) ms t ('\x7d' :: r) → Reads .value (.object ms) ('\x7b' :: t) r
  | element {d : Document} {w w' t r : List Char} : w ∈ gap → Reads .value d t (w' ++ r) →
      w' ∈ gap → Reads (.item .element) d (w ++ t) r
  | member {name : String} {d : Document} {w w' k t r : List Char} : w ∈ gap →
      IsLiteral name k → w' ∈ gap → Reads (.item .element) d t r →
      Reads (.item .member) (name, d) (w ++ (k ++ (w' ++ ':' :: t))) r
  | last {i : Item} {x : i.Meaning} {t r : List Char} : Reads (.item i) x t r →
      Reads (.sequence i) [x] t r
  | cons {i : Item} {x : i.Meaning} {xs : List i.Meaning} {t t' r : List Char} :
      Reads (.item i) x t (',' :: t') → Reads (.sequence i) xs t' r →
      Reads (.sequence i) (x :: xs) t r
  | none {i : Item} {w r : List Char} : w ∈ gap → Reads (.body i) [] (w ++ r) r
  | some {i : Item} {xs : List i.Meaning} {t r : List Char} : Reads (.sequence i) xs t r →
      Reads (.body i) xs t r

/-- Letters and digits, and the signs and the point of numbers. -/
def bare (c : Char) : Bool :=
  c.isAlphanum || ['+', '-', '.'].contains c

/-- Texts that have no other characters. -/
def IsBare (l : Language Char) : Prop :=
  ∀ cs ∈ l, ∀ c ∈ cs, bare c = true

namespace IsBare

variable {l m : Language Char}

theorem mul (hl : IsBare l) (hm : IsBare m) : IsBare (l * m) := by
  intro cs h
  obtain ⟨xs, hxs, ys, hys, rfl⟩ := Language.mem_mul.1 h
  exact List.forall_mem_append.2 ⟨hl xs hxs, hm ys hys⟩

theorem add (hl : IsBare l) (hm : IsBare m) : IsBare (l + m) := by
  intro cs h
  rcases (Language.mem_add l m cs).1 h with h | h
  · exact hl cs h
  · exact hm cs h

theorem one : IsBare 1 := by
  rintro cs rfl c hc
  cases hc

theorem singleton {c : Char} (h : bare c = true) : IsBare {[c]} := by
  rintro cs rfl d hd
  rw [List.mem_singleton.1 hd]
  exact h

end IsBare

theorem isBare_digits : IsBare digits := by
  intro cs h c hc
  rw [bare, Char.isAlphanum, h.2 c hc, Bool.or_true, Bool.true_or]

theorem isBare_numeral : IsBare numeral := by
  have hwhole : IsBare whole := fun cs h => isBare_digits cs h.1
  have hfraction : IsBare fraction := .add .one (.mul (.singleton rfl) isBare_digits)
  have hletter : IsBare ({['e']} + {['E']}) := .add (.singleton rfl) (.singleton rfl)
  have hsign : IsBare (1 + {['+']} + {['-']}) := .add (.add .one (.singleton rfl)) (.singleton rfl)
  have hexponent : IsBare exponent := .add .one (.mul hletter (.mul hsign isBare_digits))
  have hminus : IsBare (1 + {['-']}) := .add .one (.singleton rfl)
  exact .mul hminus (.mul hwhole (.mul hfraction hexponent))

theorem head_of_mem_numeral {cs : List Char} (h : cs ∈ numeral) :
    ∃ c ∈ cs.head?, c = '-' ∨ c.isDigit = true := by
  obtain ⟨sign, hsign, rest, hrest, rfl⟩ := Language.mem_mul.1 h
  rcases (Language.mem_add _ _ sign).1 hsign with rfl | rfl
  · obtain ⟨ds, hds, behind, -, rfl⟩ := Language.mem_mul.1 hrest
    obtain ⟨d, ds, rfl⟩ := List.exists_cons_of_ne_nil hds.1.1
    exact ⟨d, rfl, .inr (hds.1.2 d List.mem_cons_self)⟩
  · exact ⟨'-', rfl, .inl rfl⟩

theorem exists_letter_of_mem_words {d : Document} {w : String} (h : (d, w) ∈ words) :
    ∃ c cs, w.toList = c :: cs ∧ c.isAlpha = true ∧ ∀ d ∈ w.toList, bare d = true := by
  simp only [words, List.mem_cons, Prod.mk.injEq, List.not_mem_nil, or_false] at h
  rcases h with ⟨-, rfl⟩ | ⟨-, rfl⟩ | ⟨-, rfl⟩ <;>
    exact ⟨_, _, rfl, rfl, List.all_eq_true.1 rfl⟩

theorem not_mem_numeral_of_mem_words {d : Document} {w : String} (h : (d, w) ∈ words) :
    w.toList ∉ numeral := by
  intro hnumeral
  obtain ⟨c, cs, hw, halpha, -⟩ := exists_letter_of_mem_words h
  obtain ⟨d, hd, hstart⟩ := head_of_mem_numeral hnumeral
  rw [hw] at hd
  cases hd
  have hword : startsWord c = true := by rw [startsWord, halpha, Bool.true_or]
  rcases hstart with rfl | hdigit
  · cases halpha
  · rw [not_isDigit_of_startsWord hword] at hdigit
    cases hdigit

theorem eq_of_mem_words {d d' : Document} {w : String} (h : (d, w) ∈ words)
    (h' : (d', w) ∈ words) : d = d' :=
  congrArg Prod.fst (List.inj_on_of_nodup_map (f := Prod.snd) (by decide) h h' rfl)

theorem IsCodeUnit.append_inj {m n : Nat} {w v r s : List Char} (hm : IsCodeUnit m w)
    (hn : IsCodeUnit n v) (h : w ++ r = v ++ s) : m = n ∧ r = s := by
  obtain ⟨rfl, rfl⟩ := List.append_inj h (hm.1.trans hn.1.symm)
  exact ⟨Option.some.inj (hm.2.symm.trans hn.2), rfl⟩

theorem toNat_ne_surrogate (c : Char) {high : Nat} (h : high < 0x400) :
    c.toNat ≠ 0xd800 + high := by
  rcases c.valid with hc | hc
  · have hc : c.toNat < 0xd800 := hc
    omega
  · have hc : 0xdfff < c.toNat := hc.1
    omega

theorem Escapes.append_inj {c c' : Char} {t t' r r' : List Char} (h : Escapes c t)
    (h' : Escapes c' t') (hs : t ++ r = t' ++ r') : c = c' ∧ r = r' := by
  have hletter {e : Char} {u : List Char} (he : unescape? e = some c) : e :: r ≠ 'u' :: u := by
    intro hs
    rw [(List.cons.inj hs).1] at he
    cases he
  have hletter' {e : Char} {u : List Char} (he : unescape? e = some c') : 'u' :: u ≠ e :: r' := by
    intro hs
    rw [← (List.cons.inj hs).1] at he
    cases he
  cases h with
  | letter he =>
    cases h' with
    | letter he' =>
      obtain ⟨rfl, hrest⟩ := List.cons.inj hs
      exact ⟨Option.some.inj (he.symm.trans he'), hrest⟩
    | unit => exact absurd hs (hletter he)
    | pair => exact absurd hs (hletter he)
  | unit hw =>
    cases h' with
    | letter he' => exact absurd hs (hletter' he')
    | unit hw' =>
      obtain ⟨hc, hrest⟩ := hw.append_inj hw' (List.cons.inj hs).2
      exact ⟨Char.toNat_inj.1 hc, hrest⟩
    | pair hhigh _ hw' =>
      rw [List.cons_append, List.cons_append, List.append_assoc] at hs
      exact absurd (hw.append_inj hw' (List.cons.inj hs).2).1 (toNat_ne_surrogate c hhigh)
  | pair hhigh _ hw hv hc =>
    rw [List.cons_append, List.append_assoc] at hs
    cases h' with
    | letter he' => exact absurd hs (hletter' he')
    | unit hw' =>
      exact absurd (hw.append_inj hw' (List.cons.inj hs).2).1.symm (toNat_ne_surrogate c' hhigh)
    | pair _ _ hw' hv' hc' =>
      simp only [List.cons_append, List.append_assoc] at hs
      obtain ⟨hhighs, hs⟩ := hw.append_inj hw' (List.cons.inj hs).2
      obtain ⟨hlows, hrest⟩ := hv.append_inj hv' (List.cons.inj (List.cons.inj hs).2).2
      refine ⟨Char.toNat_inj.1 ?_, hrest⟩
      omega

/-- No text of a character goes on as a text of another one. -/
theorem Spells.append_inj {c c' : Char} {t t' r r' : List Char} (h : Spells c t)
    (h' : Spells c' t') (hs : t ++ r = t' ++ r') : c = c' ∧ r = r' := by
  cases h with
  | plain _ _ hslash =>
    cases h' with
    | plain => exact List.cons.inj hs
    | escape => exact absurd (List.cons.inj hs).1 hslash
  | escape he =>
    cases h' with
    | plain _ _ hslash => exact absurd (List.cons.inj hs).1.symm hslash
    | escape he' => exact he.append_inj he' (List.cons.inj hs).2

theorem Spells.exists_cons {c : Char} {t : List Char} (h : Spells c t) :
    ∃ d u, t = d :: u ∧ d ≠ '"' := by
  cases h with
  | plain _ hquote _ => exact ⟨c, [], rfl, hquote⟩
  | escape => exact ⟨'\\', _, rfl, by decide⟩

/-- The quote that ends a string is the first one that no backslash escapes. -/
theorem eq_of_spellings {cs cs' : List Char} {ts ts' : List (List Char)} {r r' : List Char}
    (h : List.Forall₂ Spells cs ts) (h' : List.Forall₂ Spells cs' ts')
    (hs : ts.flatten ++ '"' :: r = ts'.flatten ++ '"' :: r') : cs = cs' ∧ r = r' := by
  induction h generalizing cs' ts' with
  | nil =>
    cases h' with
    | nil => exact ⟨rfl, (List.cons.inj hs).2⟩
    | cons ht' =>
      obtain ⟨d, u, rfl, hd⟩ := ht'.exists_cons
      exact absurd (List.cons.inj hs).1.symm hd
  | cons ht _ ih =>
    cases h' with
    | nil =>
      obtain ⟨d, u, rfl, hd⟩ := ht.exists_cons
      exact absurd (List.cons.inj hs).1 hd
    | cons ht' h' =>
      rw [List.flatten_cons, List.flatten_cons, List.append_assoc, List.append_assoc] at hs
      obtain ⟨rfl, hs⟩ := ht.append_inj ht' hs
      obtain ⟨rfl, hr⟩ := ih h' hs
      exact ⟨rfl, hr⟩

theorem IsLiteral.append_inj {s s' : String} {t t' r r' : List Char} (h : IsLiteral s t)
    (h' : IsLiteral s' t') (hs : t ++ r = t' ++ r') : s = s' ∧ r = r' := by
  obtain ⟨ts, hts, rfl⟩ := h
  obtain ⟨ts', hts', rfl⟩ := h'
  rw [List.cons_append, List.cons_append, List.append_assoc, List.append_assoc] at hs
  obtain ⟨hchars, hr⟩ := eq_of_spellings hts hts' (List.cons.inj hs).2
  exact ⟨String.toList_inj.1 hchars, hr⟩

namespace Scalar

theorem cases_bare {d : Document} {t : List Char} (h : Scalar d t) :
    (t ≠ [] ∧ ∀ c ∈ t, bare c = true) ∨ ∃ s, d = .text s ∧ IsLiteral s t := by
  cases h with
  | word hw =>
    obtain ⟨c, cs, hcons, -, hbare⟩ := exists_letter_of_mem_words hw
    exact .inl ⟨hcons ▸ List.cons_ne_nil c cs, hbare⟩
  | number hn =>
    refine .inl ⟨?_, isBare_numeral _ hn⟩
    obtain ⟨c, hc, -⟩ := head_of_mem_numeral hn
    intro hnil
    rw [hnil] at hc
    cases hc
  | text hs => exact .inr ⟨_, rfl, hs⟩

theorem eq_of_bare {d d' : Document} {t : List Char} (h : Scalar d t) (h' : Scalar d' t)
    (ht : ∀ c ∈ t, bare c = true) : d = d' := by
  have hliteral {s : String} : ¬ IsLiteral s t := by
    rintro ⟨ts, -, rfl⟩
    exact absurd (ht '"' List.mem_cons_self) (by decide)
  cases h with
  | text hs => exact absurd hs hliteral
  | word hw =>
    generalize hword : String.toList _ = t at h'
    cases h' with
    | text hs => exact absurd hs (hword ▸ hliteral)
    | word hw' =>
      rw [String.toList_inj.1 hword] at hw
      exact eq_of_mem_words hw hw'
    | number hn => exact absurd (hword ▸ hn) (not_mem_numeral_of_mem_words hw)
  | number hn =>
    generalize hnumber : String.toList _ = t at h'
    cases h' with
    | text hs => exact absurd hs (hnumber ▸ hliteral)
    | word hw' => exact absurd (hnumber ▸ hn) (not_mem_numeral_of_mem_words hw')
    | number => rw [String.toList_inj.1 hnumber]

theorem append_inj {d d' : Document} {t t' r r' : List Char} (h : Scalar d t) (h' : Scalar d' t')
    (hr : ∀ c ∈ r.head?, bare c = false) (hr' : ∀ c ∈ r'.head?, bare c = false)
    (hs : t ++ r = t' ++ r') : d = d' ∧ r = r' := by
  have hquote {u v s : List Char} (hne : u ≠ []) (hu : ∀ c ∈ u, bare c = true) : u ++ v ≠ '"' :: s := by
    intro hs
    obtain ⟨c, u, rfl⟩ := List.exists_cons_of_ne_nil hne
    have hc := hu c List.mem_cons_self
    rw [(List.cons.inj hs).1] at hc
    cases hc
  rcases h.cases_bare with ⟨hne, ht⟩ | ⟨s, rfl, ht⟩
  · rcases h'.cases_bare with ⟨-, ht'⟩ | ⟨s', rfl, ts, -, rfl⟩
    · obtain ⟨rfl, hrest⟩ := append_boundary_inj ht ht' hr hr' hs
      exact ⟨h.eq_of_bare h' ht, hrest⟩
    · exact absurd hs (hquote hne ht)
  · rcases h'.cases_bare with ⟨hne', ht'⟩ | ⟨s', rfl, ht'⟩
    · obtain ⟨ts, -, rfl⟩ := ht
      exact absurd hs.symm (hquote hne' ht')
    · obtain ⟨rfl, hrest⟩ := ht.append_inj ht' hs
      exact ⟨rfl, hrest⟩

theorem exists_cons {d : Document} {t : List Char} (h : Scalar d t) :
    ∃ c u, t = c :: u ∧ (bare c = true ∨ c = '"') := by
  rcases h.cases_bare with ⟨hne, ht⟩ | ⟨s, -, ts, -, rfl⟩
  · obtain ⟨c, u, rfl⟩ := List.exists_cons_of_ne_nil hne
    exact ⟨c, u, rfl, .inl (ht c List.mem_cons_self)⟩
  · exact ⟨'"', _, rfl, .inr rfl⟩

theorem not_bracket {d : Document} {t r u : List Char} (h : Scalar d t) :
    t ++ r ≠ '[' :: u ∧ t ++ r ≠ '\x7b' :: u := by
  obtain ⟨c, v, rfl, hc⟩ := h.exists_cons
  constructor <;>
  · intro hs
    rw [(List.cons.inj hs).1] at hc
    revert hc
    decide

end Scalar

end Codebook.Json
