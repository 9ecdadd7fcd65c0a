import Codebook.Entry.Basic

namespace Codebook

/-- Entries in slots, each under its own id. The order in which the slots are kept shows
nowhere. -/
structure Registry where
  slots : List (UInt32 × Entry)
  distinct : slots.Pairwise (·.1 ≠ ·.1)
  own_id : ∀ s ∈ slots, s.2.id = s.1

/-- Why an entry is not registered: its id stands for another title. -/
structure DuplicateId where
  id : UInt32
  existing : String
  title : String
  deriving DecidableEq, Repr

def DuplicateId.message (d : DuplicateId) : String :=
  "id " ++ d.id.toNat.repr ++ " is already registered as '" ++ d.existing
    ++ "', cannot register '" ++ d.title ++ "'"

namespace Registry

def empty : Registry :=
  ⟨[], .nil, by simp⟩

def get? (r : Registry) (id : UInt32) : Option Entry :=
  r.slots.lookup id

def title? (r : Registry) (id : UInt32) : Option String :=
  (r.get? id).map (·.title)

theorem id_ne_of_get?_eq_none {r : Registry} {id : UInt32} (h : r.get? id = none)
    {s : UInt32 × Entry} (hs : s ∈ r.slots) : id ≠ s.1 :=
  bne_iff_ne.1 (List.lookup_eq_none_iff.1 h s hs)

def insert (r : Registry) (e : Entry) : Except DuplicateId Registry :=
  match h : r.get? e.id with
  | some existing => .error ⟨e.id, existing.title, e.title⟩
  | none =>
    .ok
      { slots := (e.id, e) :: r.slots
        distinct := List.pairwise_cons.2 ⟨fun _ => id_ne_of_get?_eq_none h, r.distinct⟩
        own_id := List.forall_mem_cons.2 ⟨rfl, r.own_id⟩ }

/-- Registers entries one after the other. The first id that is taken stops it. -/
def ofList (entries : List Entry) : Except DuplicateId Registry :=
  entries.foldlM insert empty

def erase (r : Registry) (id : UInt32) : Registry where
  slots := r.slots.filter (·.1 != id)
  distinct := r.distinct.filter _
  own_id s hs := r.own_id s ((List.mem_filter.1 hs).1)

/-- The entries, in the order of their slots. -/
def values (r : Registry) : List Entry :=
  r.slots.map (·.2)

/-- The entries of a category, with ascending ids. -/
def ofCategory (r : Registry) (category : Category) : List Entry :=
  (r.values.filter (·.category == category)).mergeSort fun a b => a.id ≤ b.id

/-- Removes what stands under the least id among the entries with a title. -/
def removeByTitle (r : Registry) (title : String) : Option Entry × Registry :=
  match ((r.values.filter (·.title == title)).map (·.id)).min? with
  | none => (none, r)
  | some id => (r.get? id, r.erase id)

def size (r : Registry) : Nat :=
  r.slots.length

def isEmpty (r : Registry) : Bool :=
  r.slots.isEmpty

end Registry

end Codebook
