import Codebook.Command.Outcome
import Codebook.Proofs.Rendering

namespace Codebook

/-- Items of some kind can be told from their lines, whatever is listed behind them. A line may
hold line feeds. -/
def Legible {α : Type} (IsItem : α → Prop) (line : α → String) : Prop :=
  ∀ ⦃a b : α⦄, IsItem a → IsItem b → ∀ ⦃cs ds : List Char⦄,
    (line a).toList ++ '\n' :: cs = (line b).toList ++ '\n' :: ds → a = b ∧ cs = ds

namespace Command

theorem toList_unlines_cons (line : String) (lines : List String) :
    (unlines (line :: lines)).toList = line.toList ++ '\n' :: (unlines lines).toList := by
  simp [unlines]

end Command

/-- A list of items can be told from their lines. -/
theorem Legible.unlines_inj {α : Type} {IsItem : α → Prop} {line : α → String}
    (h : Legible IsItem line) {as bs : List α} (has : ∀ a ∈ as, IsItem a)
    (hbs : ∀ b ∈ bs, IsItem b)
    (heq : Command.unlines (as.map line) = Command.unlines (bs.map line)) : as = bs := by
  replace heq := congrArg String.toList heq
  induction as generalizing bs with
  | nil =>
    cases bs with
    | nil => rfl
    | cons b bs =>
      rw [List.map_cons, Command.toList_unlines_cons, eq_comm] at heq
      exact absurd heq (by simp [Command.unlines])
  | cons a as ih =>
    cases bs with
    | nil =>
      rw [List.map_cons, Command.toList_unlines_cons] at heq
      exact absurd heq (by simp [Command.unlines])
    | cons b bs =>
      rw [List.map_cons, List.map_cons, Command.toList_unlines_cons, Command.toList_unlines_cons]
        at heq
      obtain ⟨ha, has⟩ := List.forall_mem_cons.1 has
      obtain ⟨hb, hbs⟩ := List.forall_mem_cons.1 hbs
      obtain ⟨hab, hrest⟩ := h ha hb heq
      rw [hab, ih has hbs hrest]

theorem append_cons_inj {c : Char} {xs ys cs ds : List Char} (hxs : c ∉ xs) (hys : c ∉ ys)
    (h : xs ++ c :: cs = ys ++ c :: ds) : xs = ys ∧ cs = ds := by
  have hboundary (cs : List Char) : ∀ d ∈ (c :: cs).head?, (d != c) = false := by simp
  obtain ⟨hxy, hrest⟩ := append_boundary_inj (bne_of_not_mem hxs) (bne_of_not_mem hys)
    (hboundary cs) (hboundary ds) h
  exact ⟨hxy, (List.cons.inj hrest).2⟩

theorem append_literal_inj {s : String} {c : Char} {tail xs ys cs ds : List Char}
    (hs : s.toList = c :: tail) (hxs : c ∉ xs) (hys : c ∉ ys)
    (h : xs ++ (s.toList ++ cs) = ys ++ (s.toList ++ ds)) : xs = ys ∧ cs = ds := by
  rw [hs, List.cons_append, List.cons_append] at h
  obtain ⟨hxy, hrest⟩ := append_cons_inj hxs hys h
  exact ⟨hxy, List.append_cancel_left hrest⟩

theorem not_mem_repr {c : Char} (hc : c.isDigit = false) (n : Nat) : c ∉ n.repr.toList := by
  intro hmem
  rw [(Numeral.digits_repr n).isDigit c hmem] at hc
  cases hc

theorem eq_of_toList_repr {m n : Nat} (h : m.repr.toList = n.repr.toList) : m = n := by
  rw [← (Numeral.digits_repr m).value, ← (Numeral.digits_repr n).value, h]

theorem Category.eq_of_toList_text {c c' : Category} (h : c.text.toList = c'.text.toList) :
    c = c' := by
  have htext : Category.read c.text = Category.read c'.text := by
    rw [String.toList_inj.1 h]
  rw [read_text, read_text] at htext
  exact Except.ok.inj htext

namespace Entry

theorem toList_text (e : Entry) : e.text.toList = "Enumeration ".toList ++
    (e.number.toNat.repr.toList ++ (":\n  type: '".toList ++ (e.category.text.toList ++
      ("'\n  title: '".toList ++ (e.title.toList ++ ("'\n  id: ".toList ++
        e.id.toNat.repr.toList)))))) := by
  unfold text
  simp only [String.toList_append, List.append_assoc]

theorem legible_text : Legible (fun e => quote ∉ e.title.toList) text := by
  intro e e' he he' cs ds h
  simp only [toList_text, List.append_assoc, List.append_right_inj] at h
  obtain ⟨hnumber, h⟩ := append_literal_inj (c := ':') rfl
    (not_mem_repr (by decide) _) (not_mem_repr (by decide) _) h
  obtain ⟨hcategory, h⟩ := append_literal_inj (c := quote) rfl
    (Grammar.quote_not_mem_category _) (Grammar.quote_not_mem_category _) h
  obtain ⟨htitle, h⟩ := append_literal_inj (c := quote) rfl he he' h
  obtain ⟨hid, h⟩ := append_cons_inj (not_mem_repr (by decide) _) (not_mem_repr (by decide) _) h
  refine ⟨?_, h⟩
  cases e
  cases e'
  rw [Entry.mk.injEq]
  exact ⟨UInt16.toNat_inj.1 (eq_of_toList_repr hnumber), Category.eq_of_toList_text hcategory,
    String.toList_inj.1 htitle, UInt32.toNat_inj.1 (eq_of_toList_repr hid)⟩

end Entry

namespace Token

theorem Kind.space_not_mem_name (kind : Kind) : ' ' ∉ kind.name.toList := by
  cases kind with
  | keyword word => cases word <;> decide
  | _ => decide

theorem Kind.eq_of_toList_name {kind kind' : Kind} (h : kind.name.toList = kind'.name.toList) :
    kind = kind' := by
  have hname := ofName?_name kind
  rw [String.toList_inj.1 h, ofName?_name] at hname
  exact (Option.some.inj hname).symm

theorem toList_dump (t : Token) : t.dump.toList = t.kind.name.toList ++ (" '".toList ++
    (t.lexeme.toList ++ ("' line ".toList ++ t.line.repr.toList))) := by
  unfold dump
  simp only [String.toList_append, List.append_assoc]

theorem legible_dump : Legible (fun t => quote ∉ t.lexeme.toList) dump := by
  intro t t' ht ht' cs ds h
  simp only [toList_dump, List.append_assoc] at h
  obtain ⟨hkind, h⟩ := append_literal_inj (c := ' ') rfl
    (Kind.space_not_mem_name _) (Kind.space_not_mem_name _) h
  obtain ⟨hlexeme, h⟩ := append_literal_inj (c := quote) rfl ht ht' h
  obtain ⟨hline, h⟩ := append_cons_inj (not_mem_repr (by decide) _) (not_mem_repr (by decide) _) h
  refine ⟨?_, h⟩
  cases t
  cases t'
  rw [Token.mk.injEq]
  exact ⟨Kind.eq_of_toList_name hkind, String.toList_inj.1 hlexeme, eq_of_toList_repr hline⟩

end Token

namespace Command

/-- Two runs print the same entries exactly if they have read the same ones, whatever the titles
imitate. -/
theorem printed_entries_eq_iff (path path' : String) (strict strict' : Bool)
    (limit limit' : Option Nat) (source source' : String) :
    ((Request.mk path (.parse .text strict limit)).run (.ok source)).output =
        ((Request.mk path' (.parse .text strict' limit')).run (.ok source')).output ↔
      (readSource limit source).1.entries = (readSource limit' source').1.entries := by
  apply Iff.intro
  · intro h
    exact Entry.legible_text.unlines_inj (fun _ he => quote_not_mem_title he)
      (fun _ he => quote_not_mem_title he) h
  · intro h
    exact congrArg (Format.print .text) h

/-- Two texts print the same tokens exactly if they hold the same ones, for no lexeme holds a
quote. -/
theorem printed_tokens_eq_iff (path : String) (source : String) :
    (∀ t ∈ tokenize source, quote ∉ t.lexeme.toList) ∧ ∀ path' source',
      ((Request.mk path .tokens).run (.ok source)).output =
          ((Request.mk path' .tokens).run (.ok source')).output ↔
        tokenize source = tokenize source' := by
  refine ⟨fun _ ht => quote_not_mem_lexeme ht, fun path' source' => ⟨?_, ?_⟩⟩
  · intro h
    exact Token.legible_dump.unlines_inj (fun _ ht => quote_not_mem_lexeme ht)
      (fun _ ht => quote_not_mem_lexeme ht) h
  · intro h
    exact congrArg (fun tokens => unlines (tokens.map (·.dump))) h

end Command

end Codebook
