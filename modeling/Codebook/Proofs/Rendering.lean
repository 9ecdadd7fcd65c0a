import Codebook.Proofs.Acceptance
import Codebook.Proofs.Lexeme

namespace Codebook

/-- The blanks behind each word of a declaration. Behind the first there is at least one. -/
structure Spacing where
  start : String
  gaps : Fin 12 → String
  start_space : start.toList ∈ space
  gaps_gap : ∀ i, (gaps i).toList ∈ gap

/-- The declaration of an entry, with blanks behind each word of it. -/
def Entry.declare (e : Entry) (s : Spacing) : String :=
  "enumeration" ++ s.start ++ e.number.toNat.repr ++ s.gaps 0 ++ ":" ++ s.gaps 1 ++
    "type" ++ s.gaps 2 ++ ":" ++ s.gaps 3 ++ ("'" ++ e.category.text ++ "'") ++ s.gaps 4 ++
    "title" ++ s.gaps 5 ++ ":" ++ s.gaps 6 ++ ("'" ++ e.title ++ "'") ++ s.gaps 7 ++
    "id" ++ s.gaps 8 ++ ":" ++ s.gaps 9 ++ e.id.toNat.repr ++ s.gaps 10 ++ ";" ++ s.gaps 11

/-- The blanks of a source text: those in front, and those of each declaration. -/
structure Layout where
  front : String
  spacing : Nat → Spacing
  front_gap : front.toList ∈ gap

theorem nil_mem_gap : [] ∈ gap := by
  intro c hc
  cases hc

theorem blank_mem_space : [' '] ∈ space := by
  refine ⟨List.cons_ne_nil _ _, ?_⟩
  intro c hc
  cases List.mem_singleton.1 hc
  exact List.mem_cons_self

/-- The least blanks: one behind the first word of each declaration. -/
def Layout.tight : Layout where
  front := ""
  spacing _ :=
    { start := " "
      gaps _ := ""
      start_space := blank_mem_space
      gaps_gap _ := nil_mem_gap }
  front_gap := nil_mem_gap

def Layout.render (l : Layout) (entries : List Entry) : String :=
  l.front ++ String.join (entries.mapIdx fun i e => e.declare (l.spacing i))

theorem Numeral.digits_repr (n : Nat) : Digits n.repr.toList n where
  ne_nil := by simp
  isDigit d hd := by
    rw [Nat.toList_repr] at hd
    exact Nat.isDigit_of_mem_toDigits (by decide) (by decide) hd
  value := by rw [Nat.toList_repr, Nat.ofDigitChars_ten_toDigits]

namespace Grammar

theorem append_mem_mul {s t : String} {l m : Language Char} (hs : s.toList ∈ l)
    (ht : t.toList ∈ m) : (s ++ t).toList ∈ l * m := by
  rw [String.toList_append]
  exact Language.append_mem_mul hs ht

theorem mem_literal (s : String) : s.toList ∈ literal s :=
  rfl

theorem repr_mem_number (n : Nat) : n.repr.toList ∈ number n :=
  Numeral.digits_repr n

theorem mem_quoted {s : String} (h : quote ∉ s.toList) : ("'" ++ s ++ "'").toList ∈ quoted s := by
  refine ⟨h, ?_⟩
  rw [String.toList_append, String.toList_append]
  rfl

theorem quote_not_mem_category (c : Category) : quote ∉ c.text.toList := by
  cases c with
  | error => simp [Category.text, quote]
  | appId => simp [Category.text, quote]

theorem declare_mem_declaration {e : Entry} (h : quote ∉ e.title.toList) (s : Spacing) :
    (e.declare s).toList ∈ declaration e * gap := by
  have hcategory := mem_quoted (quote_not_mem_category e.category)
  have htitle := mem_quoted h
  refine append_mem_mul ?_ (s.gaps_gap 11)
  apply_rules [append_mem_mul, mem_literal, repr_mem_number, s.start_space, s.gaps_gap]

theorem join_declare_mem {entries : List Entry} (h : ∀ e ∈ entries, quote ∉ e.title.toList)
    (spacing : Nat → Spacing) :
    (String.join (entries.mapIdx fun i e => e.declare (spacing i))).toList ∈
      (entries.map fun e => declaration e * gap).prod := by
  induction entries generalizing spacing with
  | nil => rfl
  | cons e entries ih =>
    obtain ⟨he, hentries⟩ := List.forall_mem_cons.1 h
    rw [List.mapIdx_cons, String.join_cons, List.map_cons, List.prod_cons]
    exact append_mem_mul (declare_mem_declaration he (spacing 0))
      (ih hentries fun i => spacing (i + 1))

theorem render_mem_declaring (l : Layout) {entries : List Entry}
    (h : ∀ e ∈ entries, quote ∉ e.title.toList) : (l.render entries).toList ∈ declaring entries :=
  append_mem_mul l.front_gap (join_declare_mem h l.spacing)

end Grammar

namespace Declaration

theorem Declares.exists_title {ts : List Token} {e : Entry} (h : Declares ts e) :
    ∃ t ∈ ts, t.kind = .string ∧ t.lexeme = e.title := by
  obtain ⟨t₀, t₁, t₂, t₃, t₄, t₅, t₆, t₇, t₈, t₉, t₁₀, t₁₁, t₁₂, rfl⟩ := exists_of_kinds h.kinds
  obtain ⟨-, -, htitle, -⟩ := (declares_iff h.kinds).1 h
  have hkinds := h.kinds
  simp only [Declaration.kinds, List.map_cons, List.map_nil, List.cons.injEq] at hkinds
  exact ⟨t₈, by simp, by simp [hkinds], htitle⟩

end Declaration

namespace Cursor

theorem exists_title_of_attempt {c : Cursor} {e : Entry} (h : c.attempt.outcome = .ok e) :
    ∃ t ∈ c.tokens, t.kind = .string ∧ t.lexeme = e.title := by
  have hd : c.declaration = (.ok e, c.declaration.2) := Prod.ext h rfl
  obtain ⟨hdeclares, -⟩ := declaration_eq_ok_iff.1 hd
  obtain ⟨t, ht, htitle⟩ := hdeclares.exists_title
  exact ⟨t, List.mem_append_right _ (List.mem_of_mem_take ht), htitle⟩

/-- Whatever the limit, the titles that are read are lexemes of quoted texts. -/
theorem exists_title_of_mem_entries {c : Cursor} {limit : Option Nat} {e : Entry}
    (h : e ∈ (c.read limit).reading.entries) :
    ∃ t ∈ c.tokens, t.kind = .string ∧ t.lexeme = e.title := by
  obtain ⟨c', -, htokens, he⟩ := exists_attempt_of_mem_entries h
  rw [← htokens]
  exact exists_title_of_attempt he

end Cursor

theorem quote_not_mem_title {limit : Option Nat} {source : String} {e : Entry}
    (h : e ∈ (readSource limit source).1.entries) : quote ∉ e.title.toList := by
  obtain ⟨t, ht, hkind, htitle⟩ := Cursor.exists_title_of_mem_entries h
  rw [← htitle]
  cases htokens : tokenize source with
  | nil =>
    rw [htokens] at ht
    cases List.mem_singleton.1 ht
    cases hkind
  | cons u us =>
    rw [Cursor.tokens_ofTokens (by rw [htokens]; exact List.cons_ne_nil u us)] at ht
    exact quote_not_mem_lexeme ht

/-- What is rendered with any blanks is read back, and what is read can be rendered. -/
theorem read_render (limit : Option Nat) (layout : Layout) :
    (∀ entries : List Entry, (∀ e ∈ entries, quote ∉ e.title.toList) →
      (readSource limit (layout.render entries)).1.isClean = true ∧
        (readSource limit (layout.render entries)).1.entries = entries) ∧
    ∀ (source : String) (limit' : Option Nat),
      let entries := (readSource limit' source).1.entries
      (∀ e ∈ entries, quote ∉ e.title.toList) ∧
        (readSource limit (layout.render entries)).1.isClean = true ∧
        (readSource limit (layout.render entries)).1.entries = entries := by
  have hrender (entries : List Entry) (h : ∀ e ∈ entries, quote ∉ e.title.toList) :=
    (Grammar.mem_declaring_iff_isClean limit).1 (Grammar.render_mem_declaring layout h)
  refine ⟨hrender, ?_⟩
  intro source limit'
  have hquote : ∀ e ∈ (readSource limit' source).1.entries, quote ∉ e.title.toList :=
    fun e he => quote_not_mem_title he
  exact ⟨hquote, hrender _ hquote⟩

theorem read_render_tight :
    let e : Entry := ⟨65535, .error, "two\nlines", 0⟩
    quote ∉ e.title.toList ∧
      (readSource (some 0) (Layout.tight.render [e, e])).1.isClean = true ∧
      (readSource (some 0) (Layout.tight.render [e, e])).1.entries = [e, e] := by
  have hquote : quote ∉ "two\nlines".toList := by simp [quote]
  exact ⟨hquote, (read_render (some 0) .tight).1 _ (by simpa using hquote)⟩

end Codebook
