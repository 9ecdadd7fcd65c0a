namespace Codebook

/-- What an entry stands for. An error comes before an application id. -/
inductive Category where
  | error
  | appId
  deriving DecidableEq, Repr, Ord

/-- A text that names no category. -/
structure UnknownCategory where
  text : String
  deriving DecidableEq, Repr

def UnknownCategory.message (u : UnknownCategory) : String :=
  "unknown entry type '" ++ u.text ++ "'"

namespace Category

def text : Category → String
  | error => "error"
  | appId => "app_id"

/-- The category with a given name. Letter case counts. -/
def read (s : String) : Except UnknownCategory Category :=
  if s = error.text then .ok error
  else if s = appId.text then .ok appId
  else .error ⟨s⟩

@[simp]
theorem read_text (c : Category) : read c.text = .ok c := by
  cases c <;> rfl

theorem read_eq_ok_iff {s : String} {c : Category} : read s = .ok c ↔ s = c.text := by
  constructor
  · intro h
    unfold read at h
    split at h
    · cases h; assumption
    split at h
    · cases h; assumption
    · cases h
  · rintro rfl
    exact read_text c

end Category

/-- A title registered under an id, with the number of its declaration. -/
structure Entry where
  number : UInt16
  category : Category
  title : String
  id : UInt32
  deriving DecidableEq, Repr

namespace Entry

def blank : Entry :=
  ⟨0, .error, "", 0⟩

def text (e : Entry) : String :=
  "Enumeration " ++ e.number.toNat.repr ++ ":\n  type: '" ++ e.category.text ++ "'\n  title: '"
    ++ e.title ++ "'\n  id: " ++ e.id.toNat.repr

end Entry

end Codebook
