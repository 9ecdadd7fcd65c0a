import Codebook.Registry
import Mathlib.Data.List.Perm.Basic
import Mathlib.Data.Set.Card

namespace Codebook

namespace Registry

/-- What is asked of a registry, where one registry can be kept aside. -/
inductive Call where
  | insert (e : Entry)
  | ofList (entries : List Entry)
  | keep
  | restore
  | removeByTitle (title : String)
  | get? (id : UInt32)
  | title? (id : UInt32)
  | ofCategory (category : Category)
  | size
  | isEmpty
  deriving DecidableEq, Repr

inductive Answer where
  | done
  | duplicate (d : DuplicateId)
  | entry (e : Option Entry)
  | title (title : Option String)
  | entries (entries : List Entry)
  | size (n : Nat)
  | isEmpty (empty : Bool)
  deriving DecidableEq, Repr

end Registry

/-- The registry in use and the one that is kept aside. -/
@[ext]
structure Shelf (α : Type) where
  current : α
  kept : α

/-- A map from ids to entries, each under its own id. -/
@[ext]
structure Directory where
  entry? : UInt32 → Option Entry
  own_id : ∀ id e, entry? id = some e → e.id = id

namespace Directory

instance : Membership Entry Directory :=
  ⟨fun d e => d.entry? e.id = some e⟩

theorem mem_iff {d : Directory} {e : Entry} : e ∈ d ↔ d.entry? e.id = some e :=
  Iff.rfl

def empty : Directory :=
  ⟨fun _ => none, fun _ _ h => nomatch h⟩

/-- The map with an entry under its id. -/
def put (d : Directory) (e : Entry) : Directory where
  entry? id := if id = e.id then some e else d.entry? id
  own_id id e' h := by
    split at h
    · rename_i hid
      cases h
      exact hid.symm
    · exact d.own_id id e' h

/-- The map without what stands under an id. -/
def drop (d : Directory) (id : UInt32) : Directory where
  entry? id' := if id' = id then none else d.entry? id'
  own_id id' e h := by
    split at h
    · cases h
    · exact d.own_id id' e h

/-- Entries put under their ids one after the other, up to the first id that is taken. -/
inductive Registers : Directory → List Entry → Except DuplicateId Directory → Prop where
  | nil {d : Directory} : Registers d [] (.ok d)
  | put {d : Directory} {e : Entry} {entries : List Entry}
      {result : Except DuplicateId Directory} :
      d.entry? e.id = none → Registers (d.put e) entries result →
        Registers d (e :: entries) result
  | taken {d : Directory} {e stored : Entry} {entries : List Entry} :
      d.entry? e.id = some stored →
        Registers d (e :: entries) (.error ⟨e.id, stored.title, e.title⟩)

/-- What each call answers, and the maps that it leaves. -/
inductive Answers (s : Shelf Directory) :
    Registry.Call → Registry.Answer → Shelf Directory → Prop where
  | inserted {e : Entry} : s.current.entry? e.id = none →
      Answers s (.insert e) .done { s with current := s.current.put e }
  | refused {e stored : Entry} : s.current.entry? e.id = some stored →
      Answers s (.insert e) (.duplicate ⟨e.id, stored.title, e.title⟩) s
  | replaced {entries : List Entry} {d : Directory} : Registers empty entries (.ok d) →
      Answers s (.ofList entries) .done { s with current := d }
  | conflicting {entries : List Entry} {duplicate : DuplicateId} :
      Registers empty entries (.error duplicate) →
      Answers s (.ofList entries) (.duplicate duplicate) s
  | kept : Answers s .keep .done { s with kept := s.current }
  | restored : Answers s .restore .done { s with current := s.kept }
  | removed {title : String} {e : Entry} : e ∈ s.current → e.title = title →
      (∀ e' ∈ s.current, e'.title = title → e.id ≤ e'.id) →
      Answers s (.removeByTitle title) (.entry (some e))
        { s with current := s.current.drop e.id }
  | absent {title : String} : (∀ e ∈ s.current, e.title ≠ title) →
      Answers s (.removeByTitle title) (.entry none) s
  | got {id : UInt32} : Answers s (.get? id) (.entry (s.current.entry? id)) s
  | titled {id : UInt32} :
      Answers s (.title? id) (.title ((s.current.entry? id).map (·.title))) s
  | listed {category : Category} {entries : List Entry} :
      entries.Pairwise (·.id < ·.id) →
      (∀ e, e ∈ entries ↔ e ∈ s.current ∧ e.category = category) →
      Answers s (.ofCategory category) (.entries entries) s
  | counted : Answers s .size (.size {e | e ∈ s.current}.ncard) s
  | vacant : (∀ e, e ∉ s.current) → Answers s .isEmpty (.isEmpty true) s
  | occupied {e : Entry} : e ∈ s.current → Answers s .isEmpty (.isEmpty false) s

inductive Runs : Shelf Directory → List Registry.Call → List Registry.Answer → Prop where
  | nil {s : Shelf Directory} : Runs s [] []
  | cons {s s' : Shelf Directory} {call : Registry.Call} {calls : List Registry.Call}
      {answer : Registry.Answer} {answers : List Registry.Answer} :
      Answers s call answer s' → Runs s' calls answers →
        Runs s (call :: calls) (answer :: answers)

theorem Registers.unique {d : Directory} {entries : List Entry}
    {result result' : Except DuplicateId Directory} (h : Registers d entries result)
    (h' : Registers d entries result') : result = result' := by
  induction h with
  | nil =>
    cases h'
    rfl
  | put hfree _ ih =>
    cases h' with
    | put _ hrest => exact ih hrest
    | taken hstored =>
      rw [hfree] at hstored
      cases hstored
  | taken hstored =>
    cases h' with
    | put hfree =>
      rw [hstored] at hfree
      cases hfree
    | taken hstored' =>
      rw [hstored] at hstored'
      cases hstored'
      rfl

theorem eq_of_mem {d : Directory} {e e' : Entry} (h : e ∈ d) (h' : e' ∈ d)
    (hid : e.id = e'.id) : e = e' := by
  rw [mem_iff] at h h'
  rw [hid, h'] at h
  exact (Option.some.inj h).symm

theorem eq_of_ascending {entries entries' : List Entry} (h : entries.Pairwise (·.id < ·.id))
    (h' : entries'.Pairwise (·.id < ·.id)) (hmem : ∀ e, e ∈ entries ↔ e ∈ entries') :
    entries = entries' := by
  have hnodup {es : List Entry} (hes : es.Pairwise (·.id < ·.id)) : es.Nodup := by
    apply hes.imp
    intro a b hlt heq
    rw [heq] at hlt
    exact UInt32.lt_irrefl _ hlt
  have hperm := (List.perm_ext_iff_of_nodup (hnodup h) (hnodup h')).2 hmem
  exact hperm.eq_of_pairwise (fun a b _ _ hab hba => absurd hba (UInt32.lt_asymm hab)) h h'

/-- The map alone decides what a call answers and what it leaves. -/
theorem Answers.unique {s s' s'' : Shelf Directory} {call : Registry.Call}
    {answer answer' : Registry.Answer} (h : Answers s call answer s')
    (h' : Answers s call answer' s'') : answer = answer' ∧ s' = s'' := by
  -- A call has two outcomes at most, and where it has two their conditions exclude each other.
  cases h with
  | inserted hfree =>
    cases h' with
    | inserted => exact ⟨rfl, rfl⟩
    | refused hstored =>
      rw [hfree] at hstored
      cases hstored
  | refused hstored =>
    cases h' with
    | inserted hfree =>
      rw [hstored] at hfree
      cases hfree
    | refused hstored' =>
      rw [hstored] at hstored'
      cases hstored'
      exact ⟨rfl, rfl⟩
  | replaced hregisters =>
    cases h' with
    | replaced hregisters' =>
      cases hregisters.unique hregisters'
      exact ⟨rfl, rfl⟩
    | conflicting hregisters' => cases hregisters.unique hregisters'
  | conflicting hregisters =>
    cases h' with
    | replaced hregisters' => cases hregisters.unique hregisters'
    | conflicting hregisters' =>
      cases hregisters.unique hregisters'
      exact ⟨rfl, rfl⟩
  | kept =>
    cases h'
    exact ⟨rfl, rfl⟩
  | restored =>
    cases h'
    exact ⟨rfl, rfl⟩
  | removed hmem htitle hle =>
    cases h' with
    | removed hmem' htitle' hle' =>
      have hid := UInt32.le_antisymm (hle _ hmem' htitle') (hle' _ hmem htitle)
      cases eq_of_mem hmem hmem' hid
      exact ⟨rfl, rfl⟩
    | absent hne => exact absurd htitle (hne _ hmem)
  | absent hne =>
    cases h' with
    | removed hmem htitle => exact absurd htitle (hne _ hmem)
    | absent => exact ⟨rfl, rfl⟩
  | got =>
    cases h'
    exact ⟨rfl, rfl⟩
  | titled =>
    cases h'
    exact ⟨rfl, rfl⟩
  | listed hascending hmem =>
    cases h' with
    | listed hascending' hmem' =>
      cases eq_of_ascending hascending hascending' fun e => (hmem e).trans (hmem' e).symm
      exact ⟨rfl, rfl⟩
  | counted =>
    cases h'
    exact ⟨rfl, rfl⟩
  | vacant hvacant =>
    cases h' with
    | vacant => exact ⟨rfl, rfl⟩
    | occupied hmem => exact absurd hmem (hvacant _)
  | occupied hmem =>
    cases h' with
    | vacant hvacant => exact absurd hmem (hvacant _)
    | occupied => exact ⟨rfl, rfl⟩

theorem Runs.unique {s : Shelf Directory} {calls : List Registry.Call}
    {answers answers' : List Registry.Answer} (h : Runs s calls answers)
    (h' : Runs s calls answers') : answers = answers' := by
  induction h generalizing answers' with
  | nil =>
    cases h'
    rfl
  | cons hanswer _ ih =>
    cases h' with
    | cons hanswer' hrest' =>
      obtain ⟨rfl, rfl⟩ := hanswer.unique hanswer'
      rw [ih hrest']

end Directory

end Codebook
