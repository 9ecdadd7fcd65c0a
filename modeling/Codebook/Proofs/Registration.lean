import Codebook.Proofs.Registry
import Mathlib.Data.List.Induction

namespace Codebook

/-- The first entry whose id stands for another one before it, and that other one. -/
inductive Repeats : List Entry → Entry → Entry → Prop where
  | intro {before after : List Entry} {stored e : Entry} : (before.map (·.id)).Nodup →
      stored ∈ before → stored.id = e.id → Repeats (before ++ e :: after) stored e

namespace Repeats

variable {entries entries' : List Entry} {stored e : Entry}

theorem not_nodup (h : Repeats entries stored e) : ¬ (entries.map (·.id)).Nodup := by
  cases h with
  | intro _ hstored hid =>
    intro hnodup
    rw [List.map_append, List.map_cons, List.nodup_append] at hnodup
    exact hnodup.2.2 _ (List.mem_map_of_mem hstored) _ List.mem_cons_self hid

theorem of_prefix (h : Repeats entries stored e) (hle : entries <+: entries') :
    Repeats entries' stored e := by
  obtain ⟨more, rfl⟩ := hle
  cases h with
  | intro hbefore hstored hid =>
    rw [List.append_assoc, List.cons_append]
    exact .intro hbefore hstored hid

end Repeats

theorem exists_repeats {entries : List Entry} (h : ¬ (entries.map (·.id)).Nodup) :
    ∃ stored e, Repeats entries stored e := by
  induction entries using List.reverseRecOn with
  | nil => exact absurd List.nodup_nil h
  | append_singleton entries e ih =>
    by_cases hentries : (entries.map (·.id)).Nodup
    · by_cases htaken : e.id ∈ entries.map (·.id)
      · obtain ⟨stored, hstored, hid⟩ := List.mem_map.1 htaken
        exact ⟨stored, e, .intro hentries hstored hid⟩
      · rw [List.map_append, List.map_singleton, ← List.concat_eq_append, List.nodup_concat] at h
        exact absurd ⟨htaken, hentries⟩ h
    · obtain ⟨stored, e', hrepeats⟩ := ih hentries
      exact ⟨stored, e', hrepeats.of_prefix (List.prefix_append entries [e])⟩

namespace Registry

variable {r : Registry} {entries : List Entry}

theorem get?_eq_some_iff_mem_values {id : UInt32} {e : Entry} :
    r.get? id = some e ↔ e ∈ r.values ∧ e.id = id := by
  apply Iff.intro
  · intro h
    have hid := id_of_get? h
    exact ⟨mem_values_iff.2 (hid ▸ h), hid⟩
  · rintro ⟨h, rfl⟩
    exact mem_values_iff.1 h

theorem foldlM_insert_of_nodup (h : (entries.map (·.id)).Nodup)
    (hfree : ∀ e ∈ entries, r.get? e.id = none) :
    ∃ r', entries.foldlM insert r = .ok r' ∧ r'.values = entries.reverse ++ r.values := by
  induction entries generalizing r with
  | nil => exact ⟨r, rfl, rfl⟩
  | cons e entries ih =>
    obtain ⟨hne, hrest⟩ := List.nodup_cons.1 h
    obtain ⟨hfirst, hfree⟩ := List.forall_mem_cons.1 hfree
    obtain ⟨r₁, hinsert, hslots⟩ := insert_of_none hfirst
    have hfree₁ : ∀ e' ∈ entries, r₁.get? e'.id = none := by
      intro e' he'
      have hid : e'.id ≠ e.id := fun hid => hne (List.mem_map.2 ⟨e', he', hid⟩)
      rw [get?_of_insert hinsert, if_neg hid]
      exact hfree e' he'
    have hvalues₁ : r₁.values = e :: r.values := by
      rw [values, hslots]
      rfl
    obtain ⟨r', hfold, hvalues⟩ := ih hrest hfree₁
    refine ⟨r', ?_, ?_⟩
    · rw [List.foldlM_cons, hinsert]
      exact hfold
    · rw [hvalues, hvalues₁, List.reverse_cons, List.append_assoc]
      rfl

theorem ofList_of_nodup (h : (entries.map (·.id)).Nodup) :
    ∃ r, ofList entries = .ok r ∧ r.values = entries.reverse := by
  obtain ⟨r, hfold, hvalues⟩ := foldlM_insert_of_nodup (r := empty) h fun _ _ => rfl
  exact ⟨r, hfold, hvalues.trans (List.append_nil _)⟩

/-- Registering stops at the first id that is repeated, whatever follows. -/
theorem ofList_of_repeats {stored e : Entry} (h : Repeats entries stored e) :
    ofList entries = .error ⟨e.id, stored.title, e.title⟩ := by
  cases h with
  | @intro before after _ _ hbefore hstored hid =>
    obtain ⟨r, hfold, hvalues⟩ := ofList_of_nodup hbefore
    have htaken : r.get? e.id = some stored := by
      rw [get?_eq_some_iff_mem_values, hvalues, List.mem_reverse]
      exact ⟨hstored, hid⟩
    rw [ofList] at hfold
    rw [ofList, List.foldlM_append, hfold]
    change (e :: after).foldlM insert r = _
    rw [List.foldlM_cons, insert_of_some htaken]
    rfl

theorem nodup_ids_of_ofList (h : ofList entries = .ok r) : (entries.map (·.id)).Nodup := by
  apply Classical.byContradiction
  intro hnodup
  obtain ⟨stored, e, hrepeats⟩ := exists_repeats hnodup
  rw [ofList_of_repeats hrepeats] at h
  cases h

theorem values_of_ofList (h : ofList entries = .ok r) : r.values = entries.reverse := by
  obtain ⟨r', hr', hvalues⟩ := ofList_of_nodup (nodup_ids_of_ofList h)
  cases h.symm.trans hr'
  exact hvalues

theorem get?_of_ofList (h : ofList entries = .ok r) {id : UInt32} {e : Entry} :
    r.get? id = some e ↔ e ∈ entries ∧ e.id = id := by
  rw [get?_eq_some_iff_mem_values, values_of_ofList h, List.mem_reverse]

end Registry

end Codebook
