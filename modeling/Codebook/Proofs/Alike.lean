import Codebook.Proofs.Shelf

namespace Codebook

namespace Registry

/-- Registries that no calls tell apart, whatever is kept aside and whatever becomes of the order of
the slots. -/
def Alike (r r' : Registry) : Prop :=
  ∀ kept calls answers, Shelf.Runs ⟨r, kept⟩ calls answers ↔ Shelf.Runs ⟨r', kept⟩ calls answers

variable {r r' : Registry}

/-- Nothing but what stands under the ids tells registries apart. -/
theorem alike_iff_get? : r.Alike r' ↔ ∀ id, r.get? id = r'.get? id := by
  apply Iff.intro
  · intro h id
    have hruns (r : Registry) : Shelf.Runs ⟨r, .empty⟩ [.get? id] [.entry (r.get? id)] :=
      .cons ⟨.refl _, .refl _⟩ .nil
    have hanswers := (Shelf.runs_iff.1 ((h .empty _ _).1 (hruns r))).unique
      (Shelf.runs_iff.1 (hruns r'))
    simpa using hanswers
  · intro h kept calls answers
    have hdirectory : r.directory = r'.directory := Directory.ext (funext h)
    rw [Shelf.runs_iff, Shelf.runs_iff, Shelf.directories, Shelf.directories, hdirectory]

end Registry

end Codebook
