import Codebook.Proofs.Alike
import Codebook.Proofs.Registration

namespace Codebook.Registry

/-- Removals of a title, with the slots in any order in between: what is removed, and what is
left. -/
inductive Removes (title : String) : Registry → List Entry → Registry → Prop where
  | nil {r r' : Registry} : r.slots.Perm r'.slots → Removes title r [] r'
  | cons {r r' s s' : Registry} {e : Entry} {removed : List Entry} : r.slots.Perm r'.slots →
      r'.removeByTitle title = (some e, s) → Removes title s removed s' →
        Removes title r (e :: removed) s'

/-- The entries of a registry that have a title, with ascending ids. -/
structure Holds (r : Registry) (title : String) (entries : List Entry) : Prop where
  ascending : entries.Pairwise (·.id < ·.id)
  mem_iff {e : Entry} : e ∈ entries ↔ e ∈ r.values ∧ e.title = title

theorem exists_holds (r : Registry) (title : String) : ∃ entries, r.Holds title entries := by
  refine ⟨_, r.mergeSort_filter_ascending (·.title == title), fun {e} => ?_⟩
  rw [List.mem_mergeSort, List.mem_filter, beq_iff_eq]

variable {r r' : Registry} {title : String} {e : Entry} {entries : List Entry}

theorem mem_values_erase {id : UInt32} : e ∈ (r.erase id).values ↔ e ∈ r.values ∧ e.id ≠ id := by
  rw [mem_values_iff, mem_values_iff, get?_erase]
  by_cases hid : e.id = id
  · simp [hid]
  · simp [hid]

theorem Holds.of_perm (h : r.Holds title entries) (hperm : r.slots.Perm r'.slots) :
    r'.Holds title entries where
  ascending := h.ascending
  mem_iff := h.mem_iff.trans (and_congr_left' (hperm.map (·.2)).mem_iff)

theorem Holds.removeByTitle_nil (h : r.Holds title []) : r.removeByTitle title = (none, r) := by
  obtain ⟨-, hnone⟩ | ⟨e, he, htitle, -, -⟩ := r.removeByTitle_cases title
  · exact hnone
  · cases h.mem_iff.2 ⟨he, htitle⟩

theorem Holds.removeByTitle_cons (h : r.Holds title (e :: entries)) :
    r.removeByTitle title = (some e, r.erase e.id) ∧ (r.erase e.id).Holds title entries := by
  obtain ⟨hlt, hascending⟩ := List.pairwise_cons.1 h.ascending
  obtain ⟨he, htitle⟩ := h.mem_iff.1 List.mem_cons_self
  apply And.intro
  · obtain ⟨hne, -⟩ | ⟨e', he', htitle', hle, hsome⟩ := r.removeByTitle_cases title
    · exact absurd htitle (hne e he)
    · rcases List.mem_cons.1 (h.mem_iff.2 ⟨he', htitle'⟩) with rfl | hmem
      · exact hsome
      · exact absurd (hle e he htitle) (UInt32.not_le.2 (hlt e' hmem))
  · refine ⟨hascending, fun {e'} => ?_⟩
    rw [mem_values_erase, and_right_comm, ← h.mem_iff, List.mem_cons]
    apply Iff.intro
    · intro hmem
      exact ⟨.inr hmem, (UInt32.ne_of_lt (hlt e' hmem)).symm⟩
    · rintro ⟨rfl | hmem, hid⟩
      · exact absurd rfl hid
      · exact hmem

/-- As long as entries are held a removal gives the first of them, and then it gives none. -/
theorem Holds.removeByTitle_cases (h : r.Holds title entries) :
    entries = [] ∧ r.removeByTitle title = (none, r) ∨
      ∃ e left, entries = e :: left ∧ (r.removeByTitle title).1 = some e := by
  cases entries with
  | nil => exact .inl ⟨rfl, h.removeByTitle_nil⟩
  | cons e left => exact .inr ⟨e, left, rfl, congrArg Prod.fst h.removeByTitle_cons.1⟩

theorem Holds.exists_removes (h : r.Holds title entries) : ∃ r', Removes title r entries r' := by
  induction entries generalizing r with
  | nil => exact ⟨r, .nil (.refl _)⟩
  | cons e entries ih =>
    obtain ⟨hremove, hrest⟩ := h.removeByTitle_cons
    obtain ⟨r', hr'⟩ := ih hrest
    exact ⟨r', .cons (.refl _) hremove hr'⟩

/-- What is removed is the first part of what is held, and the rest is held still. -/
theorem Removes.exists_left {removed : List Entry} (h : Removes title r removed r')
    (hholds : r.Holds title entries) : ∃ left, entries = removed ++ left ∧ r'.Holds title left := by
  induction h generalizing entries with
  | nil hperm => exact ⟨entries, rfl, hholds.of_perm hperm⟩
  | @cons r r₀ s s' e removed hperm hremove _ ih =>
    have hholds₀ := hholds.of_perm hperm
    cases entries with
    | nil =>
      rw [hholds₀.removeByTitle_nil] at hremove
      cases hremove
    | cons e' entries =>
      obtain ⟨hremove', hrest⟩ := hholds₀.removeByTitle_cons
      cases hremove.symm.trans hremove'
      obtain ⟨left, rfl, hleft⟩ := ih hrest
      exact ⟨left, rfl, hleft⟩

theorem get?_of_removeByTitle (h : r.removeByTitle title = (some e, r')) (id : UInt32) :
    r'.get? id = if id = e.id then none else r.get? id := by
  obtain ⟨-, hnone⟩ | ⟨e', -, -, -, hsome⟩ := r.removeByTitle_cases title
  · cases h.symm.trans hnone
  · cases h.symm.trans hsome
    exact r.get?_erase e.id id

theorem Removes.get? {removed : List Entry} (h : Removes title r removed r') (id : UInt32) :
    r'.get? id = if id ∈ removed.map (·.id) then none else r.get? id := by
  induction h with
  | nil hperm => rw [get?_of_perm hperm]; rfl
  | @cons r r₀ s s' e removed hperm hremove _ ih =>
    rw [ih, get?_of_removeByTitle hremove, get?_of_perm hperm, List.map_cons]
    by_cases hid : id = e.id
    · simp [hid]
    · simp [hid]

theorem Removes.exists_insert (h : Removes title r [e] r') :
    ∃ r'', r'.insert e = .ok r'' ∧ r''.Alike r := by
  obtain ⟨entries, hholds⟩ := r.exists_holds title
  obtain ⟨left, rfl, -⟩ := h.exists_left hholds
  have hstored : r.get? e.id = some e :=
    mem_values_iff.1 (hholds.mem_iff.1 (List.mem_append_left left List.mem_cons_self)).1
  have hget (id : UInt32) : r'.get? id = if id = e.id then none else r.get? id := by
    simpa using h.get? id
  obtain ⟨r'', hinsert, -⟩ := insert_of_none ((hget e.id).trans (if_pos rfl))
  refine ⟨r'', hinsert, alike_iff_get?.2 fun id => ?_⟩
  rw [get?_of_insert hinsert, hget]
  by_cases hid : id = e.id
  · rw [if_pos hid, hid, hstored]
  · rw [if_neg hid, if_neg hid]

/-- Removals of a title give the entries that have it by ascending ids. What is removed can be put
back. -/
theorem removal_in_order (r : Registry) (title : String) :
    ∃ entries, r.Holds title entries ∧
      (∃ r', Removes title r entries r') ∧
      (∀ removed r', Removes title r removed r' →
        (removed = entries ∧ r'.removeByTitle title = (none, r') ∨
          ∃ e left, entries = removed ++ e :: left ∧ (r'.removeByTitle title).1 = some e) ∧
        ∀ id, r'.get? id = if id ∈ removed.map (·.id) then none else r.get? id) ∧
      ∀ e r', Removes title r [e] r' → ∃ r'', r'.insert e = .ok r'' ∧ r''.Alike r := by
  obtain ⟨entries, hholds⟩ := r.exists_holds title
  refine ⟨entries, hholds, hholds.exists_removes, fun removed r' h => ⟨?_, h.get?⟩,
    fun e r' h => h.exists_insert⟩
  obtain ⟨left, rfl, hleft⟩ := h.exists_left hholds
  rcases hleft.removeByTitle_cases with ⟨rfl, hnone⟩ | ⟨e, left, rfl, hsome⟩
  · exact .inl ⟨(List.append_nil removed).symm, hnone⟩
  · exact .inr ⟨e, left, rfl, hsome⟩

end Codebook.Registry
