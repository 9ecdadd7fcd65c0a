import Codebook.Proofs.Directory
import Codebook.Proofs.Registry

namespace Codebook

namespace Registry

/-- What a registry finds under each id. -/
def directory (r : Registry) : Directory :=
  ⟨r.get?, fun _ _ h => id_of_get? h⟩

@[simp]
theorem mem_directory {r : Registry} {e : Entry} : e ∈ r.directory ↔ e ∈ r.values :=
  mem_values_iff.symm

theorem directory_of_perm {r r' : Registry} (h : r.slots.Perm r'.slots) :
    r.directory = r'.directory :=
  Directory.ext (get?_of_perm h)

theorem directory_of_insert {r r' : Registry} {e : Entry} (h : r.insert e = .ok r') :
    r'.directory = r.directory.put e :=
  Directory.ext (funext (get?_of_insert h))

theorem directory_erase (r : Registry) (id : UInt32) :
    (r.erase id).directory = r.directory.drop id :=
  Directory.ext (funext (r.get?_erase id))

/-- Entries are registered one after the other as they are put into the map. -/
theorem registers_foldlM (r : Registry) (entries : List Entry) :
    Directory.Registers r.directory entries
      ((entries.foldlM insert r).map Registry.directory) := by
  induction entries generalizing r with
  | nil => exact .nil
  | cons e entries ih =>
    rw [List.foldlM_cons]
    cases h : r.get? e.id with
    | some stored =>
      rw [insert_of_some h]
      exact .taken h
    | none =>
      obtain ⟨r', hr', -⟩ := insert_of_none h
      have hrest := ih r'
      rw [directory_of_insert hr'] at hrest
      rw [hr']
      exact .put h hrest

theorem registers_ofList (entries : List Entry) :
    Directory.Registers .empty entries ((ofList entries).map Registry.directory) :=
  registers_foldlM empty entries

end Registry

namespace Shelf

/-- Puts a new registry in use, unless an entry was refused. -/
def replace (s : Shelf Registry) :
    Except DuplicateId Registry → Registry.Answer × Shelf Registry
  | .ok r => (.done, { s with current := r })
  | .error d => (.duplicate d, s)

def answer (s : Shelf Registry) : Registry.Call → Registry.Answer × Shelf Registry
  | .insert e => s.replace (s.current.insert e)
  | .ofList entries => s.replace (Registry.ofList entries)
  | .keep => (.done, { s with kept := s.current })
  | .restore => (.done, { s with current := s.kept })
  | .removeByTitle title =>
    (.entry (s.current.removeByTitle title).1,
      { s with current := (s.current.removeByTitle title).2 })
  | .get? id => (.entry (s.current.get? id), s)
  | .title? id => (.title (s.current.title? id), s)
  | .ofCategory category => (.entries (s.current.ofCategory category), s)
  | .size => (.size s.current.size, s)
  | .isEmpty => (.isEmpty s.current.isEmpty, s)

/-- The same registries, with their slots in any order. -/
structure Reorders (s s' : Shelf Registry) : Prop where
  current : s.current.slots.Perm s'.current.slots
  kept : s.kept.slots.Perm s'.kept.slots

/-- Answers to some calls, where the slots change their order in any way between the calls. -/
inductive Runs : Shelf Registry → List Registry.Call → List Registry.Answer → Prop where
  | nil {s : Shelf Registry} : Runs s [] []
  | cons {s s' : Shelf Registry} {call : Registry.Call} {calls : List Registry.Call}
      {answers : List Registry.Answer} :
      (s.answer call).2.Reorders s' → Runs s' calls answers →
        Runs s (call :: calls) ((s.answer call).1 :: answers)

def directories (s : Shelf Registry) : Shelf Directory :=
  ⟨s.current.directory, s.kept.directory⟩

@[simp]
theorem mem_directories_current {s : Shelf Registry} {e : Entry} :
    e ∈ s.directories.current ↔ e ∈ s.current.values :=
  Registry.mem_directory

theorem Reorders.directories {s s' : Shelf Registry} (h : s.Reorders s') :
    s.directories = s'.directories :=
  Shelf.ext (Registry.directory_of_perm h.current) (Registry.directory_of_perm h.kept)

open Directory (Answers)

theorem answers_insert (s : Shelf Registry) (e : Entry) :
    Answers s.directories (.insert e) (s.answer (.insert e)).1
      (s.answer (.insert e)).2.directories := by
  rw [answer]
  cases h : s.current.get? e.id with
  | some stored =>
    rw [Registry.insert_of_some h]
    exact .refused h
  | none =>
    obtain ⟨r, hr, -⟩ := Registry.insert_of_none h
    have hput : s.directories.current.put e = r.directory := (Registry.directory_of_insert hr).symm
    have hanswer : Answers s.directories (.insert e) .done _ := .inserted h
    rw [hput] at hanswer
    rw [hr]
    exact hanswer

theorem answers_ofList (s : Shelf Registry) (entries : List Entry) :
    Answers s.directories (.ofList entries) (s.answer (.ofList entries)).1
      (s.answer (.ofList entries)).2.directories := by
  have hregisters := Registry.registers_ofList entries
  rw [answer]
  cases h : Registry.ofList entries with
  | error duplicate =>
    rw [h] at hregisters
    exact .conflicting hregisters
  | ok r =>
    rw [h] at hregisters
    exact .replaced hregisters

theorem answers_removeByTitle (s : Shelf Registry) (title : String) :
    Answers s.directories (.removeByTitle title) (s.answer (.removeByTitle title)).1
      (s.answer (.removeByTitle title)).2.directories := by
  rw [answer]
  obtain ⟨hne, hnone⟩ | ⟨e, he, htitle, hle, hsome⟩ := s.current.removeByTitle_cases title
  · rw [hnone]
    exact .absent fun e he => hne e (mem_directories_current.1 he)
  · have hdrop : s.directories.current.drop e.id = (s.current.erase e.id).directory :=
      (Registry.directory_erase s.current e.id).symm
    have hanswer : Answers s.directories (.removeByTitle title) (.entry (some e)) _ :=
      .removed (mem_directories_current.2 he) htitle fun e' he' =>
        hle e' (mem_directories_current.1 he')
    rw [hdrop] at hanswer
    rw [hsome]
    exact hanswer

/-- Every call answers from the map alone, and leaves the map that it should. -/
theorem answers_answer (s : Shelf Registry) (call : Registry.Call) :
    Answers s.directories call (s.answer call).1 (s.answer call).2.directories := by
  cases call with
  | insert e => exact s.answers_insert e
  | ofList entries => exact s.answers_ofList entries
  | keep => exact .kept
  | restore => exact .restored
  | removeByTitle title => exact s.answers_removeByTitle title
  | get? id => exact .got
  | title? id => exact .titled
  | ofCategory category =>
    refine .listed (s.current.ofCategory_ascending category) fun e => ?_
    rw [mem_directories_current]
    exact Registry.mem_ofCategory
  | size =>
    have hset : {e | e ∈ s.directories.current} = {e | e ∈ s.current.values} :=
      Set.ext fun _ => mem_directories_current
    rw [answer, Registry.size_eq_ncard, ← hset]
    exact .counted
  | isEmpty =>
    rw [answer]
    cases h : s.current.isEmpty with
    | true => exact .vacant fun e he => Registry.isEmpty_iff.1 h e (mem_directories_current.1 he)
    | false =>
      have hsome : ¬ ∀ e, e ∉ s.current.values := by
        rw [← Registry.isEmpty_iff, h]
        exact Bool.false_ne_true
      obtain ⟨e, he⟩ := not_forall_not.1 hsome
      exact .occupied (mem_directories_current.2 he)

theorem Runs.directories {s : Shelf Registry} {calls : List Registry.Call}
    {answers : List Registry.Answer} (h : s.Runs calls answers) :
    Directory.Runs s.directories calls answers := by
  induction h with
  | nil => exact .nil
  | cons hreorders _ ih =>
    rw [← hreorders.directories] at ih
    exact .cons (answers_answer _ _) ih

theorem exists_runs (s : Shelf Registry) (calls : List Registry.Call) :
    ∃ answers, s.Runs calls answers := by
  induction calls generalizing s with
  | nil => exact ⟨[], .nil⟩
  | cons call calls ih =>
    obtain ⟨answers, hanswers⟩ := ih (s.answer call).2
    exact ⟨_, .cons ⟨.refl _, .refl _⟩ hanswers⟩

theorem runs_iff {s : Shelf Registry} {calls : List Registry.Call}
    {answers : List Registry.Answer} :
    s.Runs calls answers ↔ Directory.Runs s.directories calls answers := by
  apply Iff.intro
  · intro h
    exact h.directories
  · intro h
    obtain ⟨answers', hruns⟩ := exists_runs s calls
    rw [h.unique hruns.directories]
    exact hruns

/-- A registry answers as a map from ids to entries does, whatever the order of its slots. -/
theorem runs_iff_directory_runs (calls : List Registry.Call) :
    (∃! answers, Directory.Runs ⟨.empty, .empty⟩ calls answers) ∧
      ∀ answers, Runs ⟨.empty, .empty⟩ calls answers ↔
        Directory.Runs ⟨.empty, .empty⟩ calls answers := by
  obtain ⟨answers, hruns⟩ := exists_runs ⟨.empty, .empty⟩ calls
  have hdirectory : Directory.Runs ⟨.empty, .empty⟩ calls answers := runs_iff.1 hruns
  exact ⟨⟨answers, hdirectory, fun answers' h => h.unique hdirectory⟩, fun answers' => runs_iff⟩

end Shelf

end Codebook
