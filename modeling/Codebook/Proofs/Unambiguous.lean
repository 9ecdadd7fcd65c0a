import Codebook.Proofs.Document

namespace Codebook.Json

/-- The characters that can stand behind a part. -/
def Part.follow : Part → List Char
  | value => blanks ++ [',', ']', '\x7d']
  | item _ => [',', ']', '\x7d']
  | sequence _ => [']', '\x7d']
  | body _ => [']', '\x7d']

theorem gap_append_inj {w w' t t' : List Char} (hw : w ∈ gap) (hw' : w' ∈ gap)
    (ht : ∀ c ∈ t.head?, c ∉ blanks) (ht' : ∀ c ∈ t'.head?, c ∉ blanks)
    (h : w ++ t = w' ++ t') : t = t' := by
  let u : Tile := ⟨w, t, hw, ht⟩
  let u' : Tile := ⟨w', t', hw', ht'⟩
  have htile : u = u' := Tile.ext_of_chars h
  exact congrArg Tile.text htile

/-- Characters that start with no blank, no comma and no closing bracket. -/
def Opens (t : List Char) : Prop :=
  ∃ c ∈ t.head?, c ∉ Part.value.follow

theorem Opens.append {t : List Char} (h : Opens t) (r : List Char) : Opens (t ++ r) := by
  obtain ⟨c, hc, hstart⟩ := h
  exact ⟨c, List.mem_head?_append_of_mem_head? hc, hstart⟩

theorem Opens.not_mem_follow {t : List Char} (h : Opens t) :
    ∀ c ∈ t.head?, c ∉ Part.value.follow := by
  intro c hc
  obtain ⟨d, hd, hstart⟩ := h
  rw [Option.mem_unique hc hd]
  exact hstart

theorem Opens.not_mem_blanks {t : List Char} (h : Opens t) : ∀ c ∈ t.head?, c ∉ blanks :=
  fun c hc hblank => h.not_mem_follow c hc (List.mem_append_left _ hblank)

theorem IsLiteral.opens {s : String} {t : List Char} (h : IsLiteral s t) : Opens t := by
  obtain ⟨ts, -, rfl⟩ := h
  exact ⟨'"', rfl, by decide⟩

theorem bare_of_mem_follow {c : Char} (h : c ∈ Part.value.follow) : bare c = false := by
  have hall : Part.value.follow.all (!bare ·) = true := rfl
  simpa using List.all_eq_true.1 hall c h

theorem Scalar.opens {d : Document} {t : List Char} (h : Scalar d t) : Opens t := by
  obtain ⟨c, u, rfl, hc⟩ := h.exists_cons
  refine ⟨c, rfl, ?_⟩
  intro hfollow
  rcases hc with hc | rfl
  · rw [bare_of_mem_follow hfollow] at hc
    cases hc
  · exact absurd hfollow (by decide)

namespace Reads

theorem opens {d : Document} {t r : List Char} (h : Reads .value d t r) : Opens t := by
  cases h with
  | scalar hd => exact hd.opens.append _
  | array => exact ⟨'[', rfl, by decide⟩
  | object => exact ⟨'\x7b', rfl, by decide⟩

theorem exists_opens {i : Item} {x : i.Meaning} {t r : List Char} (h : Reads (.item i) x t r) :
    ∃ w u, w ∈ gap ∧ Opens u ∧ t = w ++ u := by
  cases h with
  | element hw hd _ => exact ⟨_, _, hw, hd.opens, rfl⟩
  | member hw hname _ _ => exact ⟨_, _, hw, hname.opens.append _, rfl⟩

end Reads

/-- A part can end in front of some characters. -/
def Part.Before (p : Part) (r : List Char) : Prop :=
  ∀ c ∈ r.head?, c ∈ p.follow

namespace Part.Before

variable {i : Item} {w r : List Char}

theorem cons {p : Part} {c : Char} (h : c ∈ p.follow) : p.Before (c :: r) := by
  intro d hd
  cases hd
  exact h

theorem item (h : (sequence i).Before r) : (item i).Before r :=
  fun c hc => List.mem_cons_of_mem _ (h c hc)

theorem not_comma : ¬ (sequence i).Before (',' :: r) := by
  intro h
  have hcomma : ',' ∉ [']', '\x7d'] := by decide
  exact hcomma (h ',' rfl)

theorem not_mem_blanks (h : (Part.item i).Before r) : ∀ c ∈ r.head?, c ∉ blanks := by
  intro c hc
  have hall : [',', ']', '\x7d'].all (· ∉ blanks) = true := rfl
  exact of_decide_eq_true (List.all_eq_true.1 hall c (h c hc))

theorem value (hw : w ∈ gap) (h : (Part.item i).Before r) : Part.value.Before (w ++ r) := by
  intro c hc
  cases w with
  | nil => exact List.mem_append_right _ (h c hc)
  | cons d w =>
    cases hc
    exact List.mem_append_left _ (hw c List.mem_cons_self)

theorem not_bare (h : Part.value.Before r) : ∀ c ∈ r.head?, bare c = false :=
  fun c hc => bare_of_mem_follow (h c hc)

end Part.Before

namespace Reads

theorem not_sequence {i : Item} {xs : List i.Meaning} {w r s : List Char} (hw : w ∈ gap)
    (hr : (Part.sequence i).Before r) : ¬ Reads (.sequence i) xs (w ++ r) s := by
  intro h
  obtain ⟨w', u, hw', hu, heq⟩ : ∃ w' u, w' ∈ gap ∧ Opens u ∧ w ++ r = w' ++ u := by
    cases h with
    | last hx => exact hx.exists_opens
    | cons hx => exact hx.exists_opens
  obtain rfl := gap_append_inj hw hw' hr.item.not_mem_blanks hu.not_mem_blanks heq
  obtain ⟨c, hc, hstart⟩ := hu
  exact hstart (List.mem_append_right _ (hr.item c hc))

/-- A text has no more than one reading: what is read and what is left are told from the text. -/
theorem determined {p : Part} {x y : p.Meaning} {t r s : List Char} (h : Reads p x t r)
    (h' : Reads p y t s) (hr : p.Before r) (hs : p.Before s) : x = y ∧ r = s := by
  -- Along the first reading: its first characters decide how the other one starts, and where a
  -- part of it ends is settled by what can come behind.
  induction h generalizing s with
  | @scalar d t r hd =>
    generalize htext : t ++ r = u at h'
    cases h' with
    | scalar hd' => exact hd.append_inj hd' hr.not_bare hs.not_bare htext
    | array => exact absurd htext hd.not_bracket.1
    | object => exact absurd htext hd.not_bracket.2
  | @array ds t r _ ih =>
    generalize htext : '[' :: t = u at h'
    cases h' with
    | scalar hd' => exact absurd htext.symm hd'.not_bracket.1
    | array hb =>
      obtain ⟨-, rfl⟩ := List.cons.inj htext
      obtain ⟨rfl, hrest⟩ := ih hb (.cons (by decide)) (.cons (by decide))
      exact ⟨rfl, (List.cons.inj hrest).2⟩
    | object => exact absurd (List.cons.inj htext).1 (by decide)
  | @object ms t r _ ih =>
    generalize htext : '\x7b' :: t = u at h'
    cases h' with
    | scalar hd' => exact absurd htext.symm hd'.not_bracket.2
    | array => exact absurd (List.cons.inj htext).1 (by decide)
    | object hb =>
      obtain ⟨-, rfl⟩ := List.cons.inj htext
      obtain ⟨rfl, hrest⟩ := ih hb (.cons (by decide)) (.cons (by decide))
      exact ⟨rfl, (List.cons.inj hrest).2⟩
  | @element d w v t r hw hd hv ih =>
    generalize htext : w ++ t = u at h'
    cases h' with
    | element hw' hd' hv' =>
      obtain rfl := gap_append_inj hw hw' hd.opens.not_mem_blanks hd'.opens.not_mem_blanks htext
      obtain ⟨rfl, hrest⟩ := ih hd' (.value hv hr) (.value hv' hs)
      exact ⟨rfl, gap_append_inj hv hv' hr.not_mem_blanks hs.not_mem_blanks hrest⟩
  | @member name d w v k t r hw hname hv _ ih =>
    generalize htext : w ++ (k ++ (v ++ ':' :: t)) = u at h'
    cases h' with
    | member hw' hname' hv' hd' =>
      have hkey := gap_append_inj hw hw' (hname.opens.append _).not_mem_blanks
        (hname'.opens.append _).not_mem_blanks htext
      obtain ⟨rfl, hcolon⟩ := hname.append_inj hname' hkey
      have htail := gap_append_inj hv hv' (by simp [blanks]) (by simp [blanks]) hcolon
      obtain ⟨-, rfl⟩ := List.cons.inj htail
      obtain ⟨rfl, hrest⟩ := ih hd' hr hs
      exact ⟨rfl, hrest⟩
  | @last i x t r hx ih =>
    cases h' with
    | last hx' =>
      obtain ⟨rfl, hrest⟩ := ih hx' hr.item hs.item
      exact ⟨rfl, hrest⟩
    | cons hx' =>
      obtain ⟨-, rfl⟩ := ih hx' hr.item (.cons List.mem_cons_self)
      exact absurd hr Part.Before.not_comma
  | @cons i x xs t t' r hx _ ihx ih =>
    cases h' with
    | last hx' =>
      obtain ⟨-, rfl⟩ := ihx hx' (.cons List.mem_cons_self) hs.item
      exact absurd hs Part.Before.not_comma
    | cons hx' h' =>
      obtain ⟨rfl, hrest⟩ := ihx hx' (.cons List.mem_cons_self) (.cons List.mem_cons_self)
      obtain ⟨-, rfl⟩ := List.cons.inj hrest
      obtain ⟨rfl, hrest⟩ := ih h' hr hs
      exact ⟨rfl, hrest⟩
  | @none i w r hw =>
    generalize htext : w ++ r = u at h'
    have hbefore : (Part.sequence i).Before r := hr
    have hbefore' : (Part.sequence i).Before s := hs
    cases h' with
    | none hw' =>
      exact ⟨rfl, gap_append_inj hw hw' hbefore.item.not_mem_blanks hbefore'.item.not_mem_blanks
        htext⟩
    | some h' => exact absurd (htext ▸ h') (not_sequence hw hbefore)
  | @some i xs t r h ih =>
    generalize htext : t = u at h'
    cases h' with
    | none hw' => exact absurd (htext ▸ h) (not_sequence hw' hs)
    | some h' => exact ih (htext ▸ h') hr hs

end Reads

/-- What a text says, as a whole, is some document and no other one. -/
def Says (s : String) (d : Document) : Prop :=
  ∀ d', Reads (.item .element) d' s.toList [] ↔ d' = d

theorem says_iff {s : String} {d : Document} : Says s d ↔ Reads (.item .element) d s.toList [] := by
  constructor
  · exact fun h => (h d).2 rfl
  · refine fun h d' => ⟨fun h' => ?_, fun hd => hd ▸ h⟩
    exact (h'.determined h nofun nofun).1

end Codebook.Json
