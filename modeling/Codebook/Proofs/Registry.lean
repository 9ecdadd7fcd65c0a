import Codebook.Registry
import Mathlib.Data.List.Basic
import Mathlib.Data.Set.Card

namespace Codebook.Registry

variable {r r' : Registry} {id : UInt32} {e : Entry}

theorem get?_eq_some_iff : r.get? id = some e ↔ (id, e) ∈ r.slots := by
  apply Iff.intro
  · intro h
    obtain ⟨before, after, hs, -⟩ := List.lookup_eq_some_iff.1 h
    rw [hs]
    exact List.mem_append_right before List.mem_cons_self
  · intro h
    obtain ⟨before, after, hs⟩ := List.append_of_mem h
    have hdistinct := r.distinct
    rw [hs, List.pairwise_append] at hdistinct
    refine List.lookup_eq_some_iff.2 ⟨before, after, hs, fun s hs => bne_iff_ne.2 ?_⟩
    exact (hdistinct.2.2 s hs _ List.mem_cons_self).symm

theorem id_of_get? (h : r.get? id = some e) : e.id = id :=
  r.own_id _ (get?_eq_some_iff.1 h)

theorem mem_values_iff : e ∈ r.values ↔ r.get? e.id = some e := by
  rw [get?_eq_some_iff, values, List.mem_map]
  apply Iff.intro
  · rintro ⟨⟨id, e⟩, hs, rfl⟩
    have hid : e.id = id := r.own_id _ hs
    rw [hid]
    exact hs
  · intro h
    exact ⟨_, h, rfl⟩

theorem values_distinct (r : Registry) : r.values.Pairwise (·.id ≠ ·.id) := by
  rw [values, List.pairwise_map]
  apply r.distinct.imp_of_mem
  intro s s' hs hs' hne
  rw [r.own_id s hs, r.own_id s' hs']
  exact hne

theorem get?_of_perm (h : r.slots.Perm r'.slots) : r.get? = r'.get? := by
  funext id
  apply Option.ext
  intro e
  rw [get?_eq_some_iff, get?_eq_some_iff, h.mem_iff]

theorem insert_of_some {stored : Entry} (h : r.get? e.id = some stored) :
    r.insert e = .error ⟨e.id, stored.title, e.title⟩ := by
  rw [insert]
  split
  · rename_i stored' h'
    rw [h] at h'
    cases h'
    rfl
  · rename_i h'
    rw [h] at h'
    cases h'

theorem insert_of_none (h : r.get? e.id = none) :
    ∃ r', r.insert e = .ok r' ∧ r'.slots = (e.id, e) :: r.slots := by
  rw [insert]
  split
  · rename_i stored' h'
    rw [h] at h'
    cases h'
  · exact ⟨_, rfl, rfl⟩

theorem get?_of_insert (h : r.insert e = .ok r') (id : UInt32) :
    r'.get? id = if id = e.id then some e else r.get? id := by
  cases hfree : r.get? e.id with
  | some stored =>
    rw [insert_of_some hfree] at h
    cases h
  | none =>
    obtain ⟨r'', h'', hslots⟩ := insert_of_none hfree
    rw [h''] at h
    cases h
    rw [get?, hslots, List.lookup_cons]
    by_cases hid : id = e.id
    · rw [if_pos hid, beq_iff_eq.2 hid]
    · rw [if_neg hid, beq_false_of_ne hid]
      rfl

theorem get?_erase (r : Registry) (id id' : UInt32) :
    (r.erase id).get? id' = if id' = id then none else r.get? id' := by
  apply Option.ext
  intro e
  rw [get?_eq_some_iff, erase, List.mem_filter]
  by_cases hid : id' = id
  · simp [hid]
  · simp [hid, get?_eq_some_iff]

/-- A title is removed with the entry that has the least id, and nothing else is removed. -/
theorem removeByTitle_cases (r : Registry) (title : String) :
    (∀ e ∈ r.values, e.title ≠ title) ∧ r.removeByTitle title = (none, r) ∨
      ∃ e ∈ r.values, e.title = title ∧
        (∀ e' ∈ r.values, e'.title = title → e.id ≤ e'.id) ∧
        r.removeByTitle title = (some e, r.erase e.id) := by
  have hmem (id : UInt32) : id ∈ (r.values.filter (·.title == title)).map (·.id) ↔
      ∃ e ∈ r.values, e.title = title ∧ e.id = id := by
    simp [and_assoc]
  rw [removeByTitle]
  split
  · rename_i h
    refine .inl ⟨?_, rfl⟩
    intro e he htitle
    rw [List.min?_eq_none_iff] at h
    have hid := (hmem e.id).2 ⟨e, he, htitle, rfl⟩
    rw [h] at hid
    cases hid
  · rename_i id h
    obtain ⟨hid, hle⟩ := List.min?_eq_some_iff.1 h
    obtain ⟨e, he, htitle, rfl⟩ := (hmem id).1 hid
    refine .inr ⟨e, he, htitle, ?_, ?_⟩
    · intro e' he' htitle'
      exact hle e'.id ((hmem e'.id).2 ⟨e', he', htitle', rfl⟩)
    · rw [mem_values_iff.1 he]

theorem mem_ofCategory {category : Category} :
    e ∈ r.ofCategory category ↔ e ∈ r.values ∧ e.category = category := by
  simp [ofCategory]

theorem mergeSort_filter_ascending (r : Registry) (p : Entry → Bool) :
    ((r.values.filter p).mergeSort fun a b => a.id ≤ b.id).Pairwise (·.id < ·.id) := by
  have htrans (a b c : Entry) (hab : decide (a.id ≤ b.id) = true)
      (hbc : decide (b.id ≤ c.id) = true) : decide (a.id ≤ c.id) = true :=
    decide_eq_true (UInt32.le_trans (of_decide_eq_true hab) (of_decide_eq_true hbc))
  have htotal (a b : Entry) : (decide (a.id ≤ b.id) || decide (b.id ≤ a.id)) = true := by
    simp [UInt32.le_total]
  have hle := List.pairwise_mergeSort htrans htotal (r.values.filter p)
  have hne := (List.mergeSort_perm (r.values.filter p) fun a b => a.id ≤ b.id).symm.pairwise
    (r.values_distinct.filter p) fun h => Ne.symm h
  exact (hle.and hne).imp fun h => UInt32.lt_of_le_of_ne (of_decide_eq_true h.1) h.2

theorem ofCategory_ascending (r : Registry) (category : Category) :
    (r.ofCategory category).Pairwise (·.id < ·.id) :=
  r.mergeSort_filter_ascending (·.category == category)

theorem nodup_values (r : Registry) : r.values.Nodup :=
  r.values_distinct.imp fun hne h => hne (congrArg Entry.id h)

theorem size_eq_ncard (r : Registry) : r.size = {e | e ∈ r.values}.ncard := by
  classical
  have hcoe : {e | e ∈ r.values} = (r.values.toFinset : Set Entry) := by
    ext e
    simp
  rw [hcoe, Set.ncard_coe_finset, List.toFinset_card_of_nodup r.nodup_values, values,
    List.length_map, size]

theorem isEmpty_iff : r.isEmpty = true ↔ ∀ e, e ∉ r.values := by
  rw [isEmpty, List.isEmpty_iff, ← List.eq_nil_iff_forall_not_mem, values, List.map_eq_nil_iff]

end Codebook.Registry
