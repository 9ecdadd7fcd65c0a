import Codebook.Command.Report
import Codebook.Proofs.Limits
import Codebook.Proofs.Registration

namespace Codebook

/-- What a look-up comes to. -/
inductive Finding where
  | title (title : String)
  | duplicate (d : DuplicateId)
  | unregistered
  deriving DecidableEq, Repr

/-- What there is to find under an id. The first id that is repeated is all that is found, whichever
is asked for. -/
inductive Finds (entries : List Entry) (id : UInt32) : Finding → Prop where
  | title {e : Entry} : (entries.map (·.id)).Nodup → e ∈ entries → e.id = id →
      Finds entries id (.title e.title)
  | duplicate {stored e : Entry} : Repeats entries stored e →
      Finds entries id (.duplicate ⟨e.id, stored.title, e.title⟩)
  | unregistered : (entries.map (·.id)).Nodup → (∀ e ∈ entries, e.id ≠ id) →
      Finds entries id .unregistered

section Finds

variable {entries entries' : List Entry} {id : UInt32} {finding finding' : Finding}

theorem exists_finds (entries : List Entry) (id : UInt32) : ∃ finding, Finds entries id finding := by
  by_cases hnodup : (entries.map (·.id)).Nodup
  · by_cases hid : ∃ e ∈ entries, e.id = id
    · obtain ⟨e, he, hid⟩ := hid
      exact ⟨_, .title hnodup he hid⟩
    · exact ⟨_, .unregistered hnodup fun e he heq => hid ⟨e, he, heq⟩⟩
  · obtain ⟨stored, e, hrepeats⟩ := exists_repeats hnodup
    exact ⟨_, .duplicate hrepeats⟩

theorem Finds.unique (h : Finds entries id finding) (h' : Finds entries id finding') :
    finding = finding' := by
  cases h with
  | title hnodup he hid =>
    cases h' with
    | title _ he' hid' =>
      rw [List.inj_on_of_nodup_map hnodup he he' (hid.trans hid'.symm)]
    | duplicate hrepeats => exact absurd hnodup hrepeats.not_nodup
    | unregistered _ hne => exact absurd hid (hne _ he)
  | duplicate hrepeats =>
    cases h' with
    | title hnodup => exact absurd hnodup hrepeats.not_nodup
    | duplicate hrepeats' =>
      have hsame := (Registry.ofList_of_repeats hrepeats).symm.trans
        (Registry.ofList_of_repeats hrepeats')
      rw [Except.error.inj hsame]
    | unregistered hnodup => exact absurd hnodup hrepeats.not_nodup
  | unregistered hnodup hne =>
    cases h' with
    | title _ he hid => exact absurd hid (hne _ he)
    | duplicate hrepeats => exact absurd hnodup hrepeats.not_nodup
    | unregistered => rfl

theorem Finds.title_of_prefix {title : String} (h : Finds entries' id (.title title))
    (hle : entries <+: entries') :
    Finds entries id (.title title) ∨ Finds entries id .unregistered := by
  cases h with
  | @title e hnodup he hid =>
    have hnodup' := hnodup.sublist (hle.sublist.map (·.id))
    by_cases hmem : e ∈ entries
    · exact .inl (.title hnodup' hmem hid)
    · refine .inr (.unregistered hnodup' fun e' he' hid' => hmem ?_)
      rw [List.inj_on_of_nodup_map hnodup he (hle.subset he') (hid.trans hid'.symm)]
      exact he'

theorem Finds.duplicate_of_prefix {d : DuplicateId} (h : Finds entries id (.duplicate d))
    (hle : entries <+: entries') : Finds entries' id (.duplicate d) := by
  cases h with
  | duplicate hrepeats => exact .duplicate (hrepeats.of_prefix hle)

end Finds

namespace Command

/-- An outcome that is a finding. -/
def Outcome.Gives (o : Outcome) (id : UInt32) : Finding → Prop
  | .title title => o.output = title ++ "\n" ∧ o.failure = none
  | .duplicate d => o.output = "" ∧ o.failure = some (.duplicate d)
  | .unregistered => o.output = "" ∧ o.failure = some (.unregistered id)

/-- A report of a failure, which its last line says. -/
structure Report.FailsWith (r : Report) (message : String) : Prop where
  status : r.status = 1
  output : r.output = ""
  messages : ∃ lines, r.messages = unlines (lines ++ ["Error: " ++ message])

def Report.Shows (r : Report) (id : UInt32) : Finding → Prop
  | .title title => r.status = 0 ∧ r.output = title ++ "\n"
  | .duplicate d =>
    r.FailsWith ("id " ++ d.id.toNat.repr ++ " is already registered as '" ++ d.existing
      ++ "', cannot register '" ++ d.title ++ "'")
  | .unregistered => r.FailsWith ("id " ++ id.toNat.repr ++ " is not registered")

theorem unlines_concat (lines : List String) (line : String) :
    unlines (lines ++ [line]) = unlines lines ++ line ++ "\n" := by
  simp [unlines, String.append_assoc]

theorem Outcome.report_of_failure {o : Outcome} {failure : Failure} (h : o.failure = some failure)
    (houtput : o.output = "") (verbosity : Verbosity) :
    (o.report verbosity).FailsWith failure.message := by
  rw [Outcome.report, h]
  refine ⟨rfl, houtput, (o.events.filter (Event.isShown verbosity)).map (·.line), ?_⟩
  rw [unlines_concat, unlines, List.map_map, ← String.append_assoc]
  rfl

theorem Outcome.Gives.report {o : Outcome} {id : UInt32} {finding : Finding}
    (h : o.Gives id finding) (verbosity : Verbosity) : (o.report verbosity).Shows id finding := by
  cases finding with
  | title title =>
    rw [Outcome.report, h.2]
    exact ⟨rfl, h.1⟩
  | duplicate d => exact Outcome.report_of_failure h.2 h.1 verbosity
  | unregistered => exact Outcome.report_of_failure h.2 h.1 verbosity

theorem Outcome.Gives.unique {o : Outcome} {id : UInt32} {finding finding' : Finding}
    (h : o.Gives id finding) (h' : o.Gives id finding') : finding = finding' := by
  cases finding with
  | title title =>
    cases finding' with
    | title title' =>
      rw [(String.append_left_inj "\n").1 (h.1.symm.trans h'.1)]
    | duplicate => cases h.2.symm.trans h'.2
    | unregistered => cases h.2.symm.trans h'.2
  | duplicate d =>
    cases finding' with
    | title => cases h.2.symm.trans h'.2
    | duplicate d' =>
      cases h.2.symm.trans h'.2
      rfl
    | unregistered => cases h.2.symm.trans h'.2
  | unregistered =>
    cases finding' with
    | title => cases h.2.symm.trans h'.2
    | duplicate => cases h.2.symm.trans h'.2
    | unregistered => rfl

/-- A look-up gives what there is to find among the entries that are read. -/
theorem gives_of_finds {path : String} {id : UInt32} {limit : Option Nat} {source : String}
    {finding : Finding} (h : Finds (readSource limit source).1.entries id finding) :
    ((Request.mk path (.lookup id limit)).run (.ok source)).Gives id finding := by
  cases h with
  | @title e hnodup he hid =>
    obtain ⟨r, hr, -⟩ := Registry.ofList_of_nodup hnodup
    have hget : r.get? id = some e := (Registry.get?_of_ofList hr).2 ⟨he, hid⟩
    simp only [Request.run, Task.run, Task.runLookup, hr, Registry.title?, hget]
    exact ⟨rfl, rfl⟩
  | duplicate hrepeats =>
    simp only [Request.run, Task.run, Task.runLookup, Registry.ofList_of_repeats hrepeats]
    exact ⟨rfl, rfl⟩
  | unregistered hnodup hne =>
    obtain ⟨r, hr, -⟩ := Registry.ofList_of_nodup hnodup
    have hget : r.get? id = none := by
      apply Option.eq_none_iff_forall_ne_some.2
      intro e he
      obtain ⟨hmem, hid⟩ := (Registry.get?_of_ofList hr).1 he
      exact hne e hmem hid
    simp only [Request.run, Task.run, Task.runLookup, hr, Registry.title?, hget]
    exact ⟨rfl, rfl⟩

theorem gives_iff_finds {path : String} {id : UInt32} {limit : Option Nat} {source : String}
    {finding : Finding} :
    ((Request.mk path (.lookup id limit)).run (.ok source)).Gives id finding ↔
      Finds (readSource limit source).1.entries id finding := by
  refine ⟨fun h => ?_, gives_of_finds⟩
  obtain ⟨finding', hfinds⟩ := exists_finds (readSource limit source).1.entries id
  rw [h.unique (gives_of_finds hfinds)]
  exact hfinds

theorem not_gives_of_fault (r : Request) (fault : FileFault) (id : UInt32) (finding : Finding) :
    ¬ (r.run (.error fault)).Gives id finding := by
  intro h
  cases finding <;> cases h.2

/-- A look-up shows the first id that is repeated, else the title under the id, else that there is
none. -/
theorem lookup_shows_finding (path : String) (id : UInt32) (limit : Option Nat) (source : String)
    (verbosity : Verbosity) :
    let entries := (readSource limit source).1.entries
    let report := ((Request.mk path (.lookup id limit)).run (.ok source)).report verbosity
    (∃! finding, Finds entries id finding) ∧
      ∀ finding, Finds entries id finding → report.Shows id finding := by
  intro entries report
  apply And.intro
  · obtain ⟨finding, hfinds⟩ := exists_finds entries id
    exact ⟨finding, hfinds, fun finding' hfinds' => hfinds'.unique hfinds⟩
  · intro finding hfinds
    exact (gives_of_finds hfinds).report verbosity

/-- An id stands twice behind a declaration that is rejected, and another one is asked for. -/
theorem lookup_shows_finding_repeated :
    let source := ";enumeration 1: type: 'error' title: 'a' id: 7;" ++
      "enumeration 2: type: 'app_id' title: 'b' id: 7;"
    let report := ((Request.mk "in.conf" (.lookup 8 (some 2))).run (.ok source)).report (some .warn)
    Finds (readSource (some 2) source).1.entries 8 (.duplicate ⟨7, "a", "b"⟩) ∧
      report.FailsWith "id 7 is already registered as 'a', cannot register 'b'" := by
  intro source report
  have hentries : (readSource (some 2) source).1.entries =
      [⟨1, .error, "a", 7⟩] ++ [⟨2, .appId, "b", 7⟩] := by decide +kernel
  have hfinds : Finds (readSource (some 2) source).1.entries 8 (.duplicate ⟨7, "a", "b"⟩) := by
    have hrepeats : Repeats ([⟨1, .error, "a", 7⟩] ++ [⟨2, .appId, "b", 7⟩])
        ⟨1, .error, "a", 7⟩ ⟨2, .appId, "b", 7⟩ := .intro (by decide) List.mem_cons_self rfl
    rw [hentries]
    exact .duplicate hrepeats
  exact ⟨hfinds, (lookup_shows_finding "in.conf" 8 (some 2) source (some .warn)).2 _ hfinds⟩

end Command

/-- A limit that is reached no later than another one. To have none is to reach it never. -/
def AtMost (limit larger : Option Nat) : Prop :=
  ∀ n ∈ larger, ∃ m ∈ limit, m ≤ n

theorem entries_readSource_prefix {limit larger : Option Nat} (h : AtMost limit larger)
    (source : String) :
    (readSource limit source).1.entries <+: (readSource larger source).1.entries := by
  cases larger with
  | none =>
    cases limit with
    | none => exact List.prefix_refl _
    | some m => exact (Cursor.read_some_le_read_none _ m).1
  | some n =>
    obtain ⟨m, rfl, hle⟩ := h n rfl
    exact (Cursor.read_some_le_read_some _ hle).1

/-- A smaller limit may hide what stands under an id, but it never changes an answer. -/
theorem lookup_of_smaller_limit {limit larger : Option Nat} (h : AtMost limit larger)
    (path : String) (id : UInt32) (source : Except FileFault String) :
    let outcome (limit : Option Nat) := (Command.Request.mk path (.lookup id limit)).run source
    (∀ title, (outcome larger).Gives id (.title title) →
        ((outcome limit).Gives id (.title title) ∨ (outcome limit).Gives id .unregistered) ∧
          ∀ d, ¬ (outcome limit).Gives id (.duplicate d)) ∧
      ∀ d, (outcome limit).Gives id (.duplicate d) → (outcome larger).Gives id (.duplicate d) := by
  cases source with
  | error fault =>
    simp only [Command.not_gives_of_fault, false_imp_iff, implies_true, and_self]
  | ok source =>
    have hle := entries_readSource_prefix h source
    simp only [Command.gives_iff_finds]
    apply And.intro
    · intro title htitle
      have hfewer := htitle.title_of_prefix hle
      refine ⟨hfewer, fun d hd => ?_⟩
      rcases hfewer with hsame | hnone
      · cases hsame.unique hd
      · cases hnone.unique hd
    · intro d hd
      exact hd.duplicate_of_prefix hle

theorem lookup_of_smaller_limit_hidden :
    let outcome (limit : Option Nat) := (Command.Request.mk "in.conf" (.lookup 7 limit)).run
      (.ok ";enumeration 1: type: 'error' title: 'a' id: 7;")
    AtMost (some 1) none ∧ (outcome none).Gives 7 (.title "a") ∧
      ((outcome (some 1)).Gives 7 (.title "a") ∨ (outcome (some 1)).Gives 7 .unregistered) := by
  intro outcome
  have hlimit : AtMost (some 1) none := nofun
  have htitle : (outcome none).Gives 7 (.title "a") := ⟨by decide +kernel, by decide +kernel⟩
  have hsmaller := lookup_of_smaller_limit hlimit "in.conf" 7
    (.ok ";enumeration 1: type: 'error' title: 'a' id: 7;")
  exact ⟨hlimit, htitle, (hsmaller.1 "a" htitle).1⟩

end Codebook
