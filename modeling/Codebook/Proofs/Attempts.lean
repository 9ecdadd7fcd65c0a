import Codebook.Proofs.Advance
import Codebook.Reading

namespace Codebook

/-- What became of one declaration, and where the next one is looked for. -/
structure Attempt where
  outcome : Except Rejection Entry
  after : Cursor

namespace Cursor

def attempt (c : Cursor) : Attempt where
  outcome := c.declaration.1
  after :=
    match c.declaration.1 with
    | .ok _ => c.declaration.2
    | .error _ => c.declaration.2.recover

theorem attempt_of_ok {c c' : Cursor} {e : Entry} (h : c.declaration = (.ok e, c')) :
    c.attempt = ⟨.ok e, c'⟩ := by
  simp [attempt, h]

theorem attempt_of_error {c c' : Cursor} {r : Rejection} (h : c.declaration = (.error r, c')) :
    c.attempt = ⟨.error r, c'.recover⟩ := by
  simp [attempt, h]

theorem ahead_attempt_lt {c : Cursor} (h : c.isAtEnd = false) :
    c.attempt.after.ahead.length < c.ahead.length := by
  cases hd : c.declaration.1 with
  | ok e => simpa [attempt, hd] using ahead_lt_of_declaration_ok hd
  | error r => simpa [attempt, hd] using ahead_recover_declaration_lt h

theorem Advances.attempt (c : Cursor) : Advances c c.attempt.after := by
  have hdeclaration := declaration c
  cases h : c.declaration with
  | mk outcome c' =>
    rw [h] at hdeclaration
    cases outcome with
    | ok e =>
      rw [attempt_of_ok h]
      exact hdeclaration
    | error r =>
      rw [attempt_of_error h]
      exact hdeclaration.trans (recover c')

/-- All the attempts up to the end, in order. -/
def attempts (c : Cursor) : List Attempt :=
  if _ : c.isAtEnd then [] else c.attempt :: c.attempt.after.attempts
termination_by c.ahead.length
decreasing_by exact ahead_attempt_lt (Bool.eq_false_iff.2 ‹_›)

theorem attempts_of_end {c : Cursor} (h : c.isAtEnd = true) : c.attempts = [] := by
  rw [attempts, dif_pos h]

theorem attempts_of_not_end {c : Cursor} (h : c.isAtEnd = false) :
    c.attempts = c.attempt :: c.attempt.after.attempts := by
  rw [attempts, dif_neg (by simp [h])]

theorem attempts_eq_nil_iff {c : Cursor} : c.attempts = [] ↔ c.isAtEnd = true := by
  cases h : c.isAtEnd with
  | true => simp [attempts_of_end h]
  | false => simp [attempts_of_not_end h]

/-- Where a cursor comes to rest after some attempts. -/
def afterAll (c : Cursor) : List Attempt → Cursor
  | [] => c
  | a :: as => a.after.afterAll as

@[simp]
theorem afterAll_append_singleton (c : Cursor) (as : List Attempt) (a : Attempt) :
    c.afterAll (as ++ [a]) = a.after := by
  induction as generalizing c with
  | nil => rfl
  | cons b as ih => exact ih b.after

theorem attempts_afterAll {c : Cursor} {before after : List Attempt}
    (h : c.attempts = before ++ after) : (c.afterAll before).attempts = after := by
  induction before generalizing c with
  | nil => exact h
  | cons b before ih =>
    cases hend : c.isAtEnd with
    | true => simp [attempts_of_end hend] at h
    | false =>
      rw [attempts_of_not_end hend, List.cons_append] at h
      injection h with hb h
      rw [hb] at h
      exact ih h

theorem afterAll_induction {motive : Cursor → Prop} {c : Cursor} {before after : List Attempt}
    (h : c.attempts = before ++ after) (hc : motive c)
    (hstep : ∀ c, c.isAtEnd = false → motive c → motive c.attempt.after) :
    motive (c.afterAll before) := by
  induction before generalizing c with
  | nil => exact hc
  | cons b before ih =>
    cases hend : c.isAtEnd with
    | true =>
      rw [attempts_of_end hend] at h
      cases h
    | false =>
      rw [attempts_of_not_end hend, List.cons_append] at h
      obtain ⟨rfl, hrest⟩ := List.cons.inj h
      exact ih hrest (hstep c hend hc)

theorem Advances.afterAll {c : Cursor} {before after : List Attempt}
    (h : c.attempts = before ++ after) : Advances c (c.afterAll before) := by
  apply afterAll_induction (motive := Advances c) h refl
  intro c' _ hc'
  exact hc'.trans (attempt c')

theorem exists_advances_of_mem_attempts {c : Cursor} {a : Attempt} (h : a ∈ c.attempts) :
    ∃ c', Advances c c' ∧ c'.isAtEnd = false ∧ c'.attempt = a := by
  obtain ⟨before, after, has⟩ := List.append_of_mem h
  have hrest := attempts_afterAll has
  cases hend : (c.afterAll before).isAtEnd with
  | true =>
    rw [attempts_of_end hend] at hrest
    cases hrest
  | false =>
    rw [attempts_of_not_end hend] at hrest
    exact ⟨c.afterAll before, .afterAll has, hend, (List.cons.inj hrest).1⟩

theorem exists_of_mem_attempts {c : Cursor} {a : Attempt} (h : a ∈ c.attempts) :
    ∃ c' : Cursor, c'.isAtEnd = false ∧ c'.tokens = c.tokens ∧ c'.attempt = a := by
  obtain ⟨c', hadvances, hend, ha⟩ := exists_advances_of_mem_attempts h
  exact ⟨c', hend, hadvances.tokens, ha⟩

end Cursor

namespace Reading

def rejection? : Except Rejection Entry → Option Rejection
  | .ok _ => none
  | .error r => some r

/-- What the outcomes of declarations add up to, when none is left out. -/
def ofOutcomes (outcomes : List (Except Rejection Entry)) : Reading :=
  ⟨outcomes.filterMap Except.toOption, outcomes.filterMap rejection?, false⟩

theorem ofOutcomes_clean_iff {outcomes : List (Except Rejection Entry)} {entries : List Entry} :
    (ofOutcomes outcomes).rejections = [] ∧ (ofOutcomes outcomes).entries = entries ↔
      outcomes = entries.map .ok := by
  induction outcomes generalizing entries with
  | nil => cases entries <;> simp [ofOutcomes]
  | cons outcome outcomes ih =>
    cases outcome with
    | error r =>
      apply Iff.intro
      · intro h
        cases h.1
      · intro h
        cases entries <;> cases h
    | ok e =>
      cases entries with
      | nil => simp [ofOutcomes, Except.toOption]
      | cons e' entries =>
        have hcons : (ofOutcomes (.ok e :: outcomes)).entries =
            e :: (ofOutcomes outcomes).entries := rfl
        rw [hcons, List.map_cons, List.cons.injEq, List.cons.injEq, Except.ok.injEq, ← ih,
          and_left_comm]
        exact Iff.rfl

end Reading

namespace Attempt

/-- The attempts up to the one with which the rejections reach the limit, if one does. -/
def upTo (limit : Option Nat) (rejected : Nat) : List Attempt → List Attempt
  | [] => []
  | a :: as =>
    match a.outcome with
    | .ok _ => a :: upTo limit rejected as
    | .error _ =>
      if limit.any (· ≤ rejected + 1) then [a] else a :: upTo limit (rejected + 1) as

theorem upTo_none (rejected : Nat) (as : List Attempt) : upTo none rejected as = as := by
  induction as generalizing rejected with
  | nil => rfl
  | cons a as ih =>
    rw [upTo]
    split <;> simp [ih]

theorem upTo_of_ok (limit : Option Nat) (rejected : Nat) {as : List Attempt}
    (h : ∀ a ∈ as, ∃ e, a.outcome = .ok e) : upTo limit rejected as = as := by
  induction as with
  | nil => rfl
  | cons a as ih =>
    obtain ⟨e, he⟩ := h a List.mem_cons_self
    rw [upTo, he]
    simp only [ih fun b hb => h b (List.mem_cons_of_mem a hb)]

def reading (as : List Attempt) : Reading :=
  .ofOutcomes (as.map (·.outcome))

@[simp]
theorem reading_nil : reading [] = ⟨[], [], false⟩ :=
  rfl

theorem reading_cons_ok {a : Attempt} {e : Entry} (h : a.outcome = .ok e) (as : List Attempt) :
    reading (a :: as) = { reading as with entries := e :: (reading as).entries } := by
  rw [reading]
  rw [List.map_cons, h]
  rfl

theorem reading_cons_error {a : Attempt} {r : Rejection} (h : a.outcome = .error r)
    (as : List Attempt) :
    reading (a :: as) = { reading as with rejections := r :: (reading as).rejections } := by
  rw [reading]
  rw [List.map_cons, h]
  rfl

theorem mem_entries_reading {as : List Attempt} {e : Entry} :
    e ∈ (reading as).entries ↔ ∃ a ∈ as, a.outcome = .ok e := by
  simp only [reading, Reading.ofOutcomes, List.filterMap_map, List.mem_filterMap,
    Function.comp_apply]
  refine exists_congr fun a => and_congr_right fun _ => ?_
  cases a.outcome <;> simp [Except.toOption]

theorem mem_rejections_reading {as : List Attempt} {r : Rejection} :
    r ∈ (reading as).rejections ↔ ∃ a ∈ as, a.outcome = .error r := by
  simp only [reading, Reading.ofOutcomes, List.filterMap_map, List.mem_filterMap,
    Function.comp_apply]
  refine exists_congr fun a => and_congr_right fun _ => ?_
  cases a.outcome <;> simp [Reading.rejection?]

end Attempt

namespace Cursor

variable {c c' : Cursor} {limit : Option Nat} {rejected : Nat}

theorem readOn_of_end (h : c.isAtEnd = true) : c.readOn limit rejected = .ended c := by
  rw [readOn, dif_pos h]

theorem readOn_of_ok {e : Entry} (hend : c.isAtEnd = false) (h : c.declaration = (.ok e, c')) :
    c.readOn limit rejected = (c'.readOn limit rejected).accept e := by
  rw [readOn, dif_neg (by simp [hend])]
  split
  · rename_i e' he
    rw [h] at he
    cases he
    rw [h]
  · rename_i r hr
    rw [h] at hr
    cases hr

theorem readOn_of_error {r : Rejection} (hend : c.isAtEnd = false)
    (h : c.declaration = (.error r, c')) :
    c.readOn limit rejected =
      match c'.recover.reached? limit (rejected + 1) with
      | some limit => (Pass.stopped limit c'.recover).reject r
      | none => (c'.recover.readOn limit (rejected + 1)).reject r := by
  rw [readOn, dif_neg (by simp [hend])]
  split
  · rename_i e he
    rw [h] at he
    cases he
  · rename_i r' hr
    rw [h] at hr
    cases hr
    obtain rfl : c.declaration.2 = c' := congrArg Prod.snd h
    rfl

theorem reached?_of_end (h : c.isAtEnd = true) : c.reached? limit rejected = none := by
  rw [reached?, if_pos h]

theorem reached?_of_not_end (h : c.isAtEnd = false) :
    c.reached? limit rejected = limit.filter (· ≤ rejected) := by
  rw [reached?, if_neg (by simp [h])]

/-- The pass that some attempts make. It is truncated where they leave something to attempt. -/
structure Makes (c : Cursor) (taken : List Attempt) (p : Pass) : Prop where
  attempts : c.attempts = taken ++ p.cursor.attempts
  reading : p.reading = { Attempt.reading taken with truncated := !p.cursor.isAtEnd }
  cursor : p.cursor = c.afterAll taken

theorem makes_nil (h : c.isAtEnd = true) : c.Makes [] (.ended c) where
  attempts := rfl
  reading := by simp [Pass.ended, h]
  cursor := rfl

theorem makes_stopped {l : Nat} (h : c.isAtEnd = false) : c.Makes [] (.stopped l c) where
  attempts := rfl
  reading := by simp [Pass.stopped, h]
  cursor := rfl

theorem Makes.accept {a : Attempt} {e : Entry} {taken : List Attempt} {p : Pass}
    (h : a.after.Makes taken p) (ha : a.outcome = .ok e)
    (hc : c.attempts = a :: a.after.attempts) : c.Makes (a :: taken) (p.accept e) where
  attempts := by rw [hc, h.attempts]; rfl
  reading := by
    rw [Attempt.reading_cons_ok ha, Pass.accept, h.reading]
  cursor := h.cursor

theorem Makes.reject {a : Attempt} {r : Rejection} {taken : List Attempt} {p : Pass}
    (h : a.after.Makes taken p) (ha : a.outcome = .error r)
    (hc : c.attempts = a :: a.after.attempts) : c.Makes (a :: taken) (p.reject r) where
  attempts := by rw [hc, h.attempts]; rfl
  reading := by
    rw [Attempt.reading_cons_error ha, Pass.reject, h.reading]
  cursor := h.cursor

theorem makes_readOn (limit : Option Nat) (rejected : Nat) (c : Cursor) :
    c.Makes (Attempt.upTo limit rejected c.attempts) (c.readOn limit rejected) := by
  induction h : c.ahead.length using Nat.strongRecOn generalizing c rejected with
  | ind n ih =>
    subst h
    cases hend : c.isAtEnd with
    | true =>
      rw [attempts_of_end hend, readOn_of_end hend]
      exact makes_nil hend
    | false =>
      have hlt := ahead_attempt_lt hend
      have hc := attempts_of_not_end hend
      rw [hc, Attempt.upTo]
      cases hd : c.declaration with
      | mk outcome c' =>
        cases outcome with
        | ok e =>
          have ha := attempt_of_ok hd
          rw [ha] at hlt hc
          rw [ha, readOn_of_ok hend hd]
          exact (ih _ hlt _ _ rfl).accept rfl hc
        | error r =>
          have ha := attempt_of_error hd
          rw [ha] at hlt hc
          rw [ha, readOn_of_error hend hd]
          simp only
          cases hrest : c'.recover.isAtEnd with
          | true =>
            rw [reached?_of_end hrest, readOn_of_end hrest, attempts_of_end hrest, Attempt.upTo,
              ite_self]
            rw [attempts_of_end hrest] at hc
            exact (makes_nil hrest).reject rfl (by rw [hc, attempts_of_end hrest])
          | false =>
            rw [reached?_of_not_end hrest]
            cases limit with
            | none => exact (ih _ hlt _ _ rfl).reject rfl hc
            | some limit =>
              by_cases hreached : limit ≤ rejected + 1
              · simp only [Option.filter_some, Option.any_some, hreached, decide_true, if_true]
                exact (makes_stopped hrest).reject rfl hc
              · simp only [Option.filter_some, Option.any_some, hreached, decide_false,
                  Bool.false_eq_true, if_false]
                exact (ih _ hlt _ _ rfl).reject rfl hc

/-- A pass takes the attempts up to the limit. -/
theorem makes_read (limit : Option Nat) (c : Cursor) :
    c.Makes (Attempt.upTo limit 0 c.attempts) (c.read limit) :=
  ⟨(makes_readOn limit 0 c).attempts, (makes_readOn limit 0 c).reading,
    (makes_readOn limit 0 c).cursor⟩

theorem exists_of_mem_upTo {a : Attempt} (h : a ∈ Attempt.upTo limit 0 c.attempts) :
    ∃ c' : Cursor, c'.isAtEnd = false ∧ c'.tokens = c.tokens ∧ c'.attempt = a := by
  apply exists_of_mem_attempts
  rw [(makes_read limit c).attempts]
  exact List.mem_append_left _ h

theorem exists_attempt_of_mem_entries {e : Entry} (h : e ∈ (c.read limit).reading.entries) :
    ∃ c' : Cursor, c'.isAtEnd = false ∧ c'.tokens = c.tokens ∧ c'.attempt.outcome = .ok e := by
  rw [(makes_read limit c).reading] at h
  obtain ⟨a, ha, he⟩ := Attempt.mem_entries_reading.1 h
  obtain ⟨c', hend, htokens, rfl⟩ := exists_of_mem_upTo ha
  exact ⟨c', hend, htokens, he⟩

theorem exists_attempt_of_mem_rejections {r : Rejection}
    (h : r ∈ (c.read limit).reading.rejections) :
    ∃ c' : Cursor, c'.isAtEnd = false ∧ c'.tokens = c.tokens ∧ c'.attempt.outcome = .error r := by
  rw [(makes_read limit c).reading] at h
  obtain ⟨a, ha, hr⟩ := Attempt.mem_rejections_reading.1 h
  obtain ⟨c', hend, htokens, rfl⟩ := exists_of_mem_upTo ha
  exact ⟨c', hend, htokens, hr⟩

theorem Advances.read (limit : Option Nat) (c : Cursor) : Advances c (c.read limit).cursor := by
  have hmakes := makes_read limit c
  rw [hmakes.cursor]
  exact afterAll hmakes.attempts

theorem Makes.isAtEnd {p : Pass} (h : c.Makes c.attempts p) : p.cursor.isAtEnd = true :=
  attempts_eq_nil_iff.1 (List.self_eq_append_right.1 h.attempts)

theorem read_none_reading (c : Cursor) : (c.read none).reading = Attempt.reading c.attempts := by
  have h := makes_read none c
  rw [Attempt.upTo_none] at h
  rw [h.reading, h.isAtEnd]
  rfl

/-- What is read is clean exactly if every attempt gives an entry, whatever the limit. -/
theorem read_isClean_iff (limit : Option Nat) (c : Cursor) (entries : List Entry) :
    (c.read limit).reading.isClean = true ∧ (c.read limit).reading.entries = entries ↔
      c.attempts.map (·.outcome) = entries.map .ok := by
  have hmakes := makes_read limit c
  have hreading := hmakes.reading
  apply Iff.intro
  · intro ⟨hclean, hentries⟩
    rw [Reading.isClean, Bool.and_eq_true, List.isEmpty_iff, Bool.not_eq_true'] at hclean
    rw [hreading] at hclean hentries
    obtain ⟨hrejections, hend⟩ := hclean
    have hend : (c.read limit).cursor.isAtEnd = true := by simpa using hend
    have hattempts := hmakes.attempts
    rw [attempts_of_end hend, List.append_nil] at hattempts
    rw [hattempts]
    exact Reading.ofOutcomes_clean_iff.1 ⟨hrejections, hentries⟩
  · intro h
    have hok : ∀ a ∈ c.attempts, ∃ e, a.outcome = .ok e := by
      intro a ha
      have hmem : a.outcome ∈ entries.map .ok := h ▸ List.mem_map_of_mem ha
      obtain ⟨e, -, he⟩ := List.mem_map.1 hmem
      exact ⟨e, he.symm⟩
    rw [Attempt.upTo_of_ok limit 0 hok] at hmakes hreading
    obtain ⟨hrejections, hentries⟩ := Reading.ofOutcomes_clean_iff.2 h
    rw [hreading, hmakes.isAtEnd]
    refine ⟨?_, hentries⟩
    rw [Reading.isClean, Bool.and_eq_true, List.isEmpty_iff]
    exact ⟨hrejections, rfl⟩

end Cursor

end Codebook
