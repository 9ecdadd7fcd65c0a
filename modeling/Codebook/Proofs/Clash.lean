import Codebook.Proofs.Alike
import Codebook.Proofs.Registration

namespace Codebook

/-- Two places where one id stands, with the entries that stand there. -/
structure Clash (entries : List Entry) (i j : Nat) (stored e : Entry) : Prop where
  lt : i < j
  earlier : entries[i]? = some stored
  later : entries[j]? = some e
  same_id : stored.id = e.id

/-- The first place whose id stands before it, and the only place before it where that stands. -/
structure FirstClash (entries : List Entry) (i j : Nat) (stored e : Entry) : Prop
    extends Clash entries i j stored e where
  first {i' j' : Nat} {stored' e' : Entry} : Clash entries i' j' stored' e' → j ≤ j'
  only {i' : Nat} {stored' e' : Entry} : Clash entries i' j stored' e' → i' = i

section Clash

variable {entries before after : List Entry} {i j : Nat} {stored e : Entry}

theorem Clash.not_nodup (h : Clash entries i j stored e) : ¬ (entries.map (·.id)).Nodup := by
  intro hnodup
  have hj := (List.getElem?_eq_some_iff.1 h.later).1
  apply List.nodup_iff_getElem?_ne_getElem?.1 hnodup i j h.lt (by rwa [List.length_map])
  rw [List.getElem?_map, List.getElem?_map, h.earlier, h.later]
  exact congrArg some h.same_id

theorem Clash.of_append (h : Clash (before ++ after) i j stored e) (hj : j < before.length) :
    Clash before i j stored e where
  lt := h.lt
  earlier := by rw [← h.earlier, List.getElem?_append_left (Nat.lt_trans h.lt hj)]
  later := by rw [← h.later, List.getElem?_append_left hj]
  same_id := h.same_id

theorem eq_of_nodup_ids (h : (entries.map (·.id)).Nodup) (hi : entries[i]? = some stored)
    (hj : entries[j]? = some e) (hid : stored.id = e.id) : i = j := by
  rcases Nat.lt_trichotomy i j with hlt | heq | hgt
  · exact absurd h (Clash.not_nodup ⟨hlt, hi, hj, hid⟩)
  · exact heq
  · exact absurd h (Clash.not_nodup ⟨hgt, hj, hi, hid.symm⟩)

theorem exists_firstClash (after : List Entry) (hbefore : (before.map (·.id)).Nodup)
    (hstored : stored ∈ before) (hid : stored.id = e.id) :
    ∃ i, FirstClash (before ++ e :: after) i before.length stored e := by
  obtain ⟨i, hi⟩ := List.mem_iff_getElem?.1 hstored
  have hlt : i < before.length := (List.getElem?_eq_some_iff.1 hi).1
  have hrefused : (before ++ e :: after)[before.length]? = some e := by
    rw [List.getElem?_append_right (Nat.le_refl _), Nat.sub_self]
    rfl
  refine ⟨i, ⟨hlt, ?_, hrefused, hid⟩, ?_, ?_⟩
  · rw [List.getElem?_append_left hlt, hi]
  · intro i' j' stored' e' hclash
    apply Nat.le_of_not_lt
    intro hj'
    exact (hclash.of_append hj').not_nodup hbefore
  · intro i' stored' e' hclash
    have hstored' := hclash.earlier
    rw [List.getElem?_append_left hclash.lt] at hstored'
    have hrefused' := hclash.later
    rw [hrefused] at hrefused'
    cases hrefused'
    exact eq_of_nodup_ids hbefore hstored' hi (hclash.same_id.trans hid.symm)

end Clash

namespace Registry

variable {entries entries' : List Entry} {r r' : Registry}

/-- The order in which entries are registered tells no registries apart. -/
theorem ofList_of_perm (h : ofList entries = .ok r) (hperm : entries.Perm entries') :
    ∃ r', ofList entries' = .ok r' ∧ r.Alike r' := by
  have hnodup := (hperm.map (·.id)).nodup_iff.1 (nodup_ids_of_ofList h)
  obtain ⟨r', hr', -⟩ := ofList_of_nodup hnodup
  refine ⟨r', hr', alike_iff_get?.2 fun id => Option.ext fun e => ?_⟩
  rw [get?_of_ofList h, get?_of_ofList hr', hperm.mem_iff]

theorem ofList_of_not_nodup (h : ¬ (entries.map (·.id)).Nodup) :
    ∃ i j stored e, FirstClash entries i j stored e ∧
      ofList entries = .error ⟨e.id, stored.title, e.title⟩ ∧
      ∀ after, ofList (entries.take (j + 1) ++ after) = .error ⟨e.id, stored.title, e.title⟩ := by
  obtain ⟨stored, e, hrepeats⟩ := exists_repeats h
  have hreport := ofList_of_repeats hrepeats
  cases hrepeats with
  | @intro before more _ _ hbefore hstored hid =>
    obtain ⟨i, hfirst⟩ := exists_firstClash more hbefore hstored hid
    refine ⟨i, before.length, stored, e, hfirst, hreport, fun after => ?_⟩
    apply ofList_of_repeats
    rw [List.take_length_add_append, List.append_assoc]
    exact .intro hbefore hstored hid

/-- Entries with distinct ids are registered, in any order. Otherwise the first place whose id
stands before it is reported, whatever follows. -/
theorem registered_or_first_clash (entries : List Entry) :
    ((∃ r, ofList entries = .ok r) ↔ (entries.map (·.id)).Nodup) ∧
      (∀ r, ofList entries = .ok r →
        r.size = entries.length ∧
          (∀ id e, r.get? id = some e ↔ e ∈ entries ∧ e.id = id) ∧
          ∀ entries', entries.Perm entries' → ∃ r', ofList entries' = .ok r' ∧ r.Alike r') ∧
      (¬ (entries.map (·.id)).Nodup →
        ∃ i j stored e, FirstClash entries i j stored e ∧
          ofList entries = .error ⟨e.id, stored.title, e.title⟩ ∧
          ∀ after,
            ofList (entries.take (j + 1) ++ after) = .error ⟨e.id, stored.title, e.title⟩) := by
  refine ⟨⟨fun ⟨r, hr⟩ => nodup_ids_of_ofList hr, fun hnodup => ?_⟩, fun r hr => ?_,
    ofList_of_not_nodup⟩
  · obtain ⟨r, hr, -⟩ := ofList_of_nodup hnodup
    exact ⟨r, hr⟩
  · refine ⟨?_, fun id e => get?_of_ofList hr, fun entries' => ofList_of_perm hr⟩
    have hlength := congrArg List.length (values_of_ofList hr)
    rwa [values, List.length_map, List.length_reverse] at hlength

end Registry

end Codebook
