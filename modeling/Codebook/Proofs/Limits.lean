import Codebook.Proofs.Attempts

namespace Codebook

namespace Attempt

def isRejected (a : Attempt) : Bool :=
  (Reading.rejection? a.outcome).isSome

theorem isRejected_eq_true_iff {a : Attempt} :
    a.isRejected = true ↔ ∃ r, a.outcome = .error r := by
  rw [isRejected]
  cases a.outcome <;> simp [Reading.rejection?]

theorem isRejected_eq_false_iff {a : Attempt} :
    a.isRejected = false ↔ ∃ e, a.outcome = .ok e := by
  rw [isRejected]
  cases a.outcome <;> simp [Reading.rejection?]

theorem reading_append (as bs : List Attempt) : reading (as ++ bs) =
    ⟨(reading as).entries ++ (reading bs).entries,
      (reading as).rejections ++ (reading bs).rejections, false⟩ := by
  simp [reading, Reading.ofOutcomes]

theorem length_rejections (as : List Attempt) :
    (reading as).rejections.length = (as.filter isRejected).length := by
  induction as with
  | nil => rfl
  | cons a as ih =>
    cases ha : a.isRejected with
    | true =>
      obtain ⟨r, hr⟩ := isRejected_eq_true_iff.1 ha
      rw [reading_cons_error hr, List.filter_cons_of_pos ha, List.length_cons, List.length_cons, ih]
    | false =>
      obtain ⟨e, he⟩ := isRejected_eq_false_iff.1 ha
      rw [reading_cons_ok he, List.filter_cons_of_neg (by simp [ha])]
      exact ih

variable {limit rejected : Nat} {a : Attempt}

theorem upTo_cons_of_not_rejected (h : a.isRejected = false) (as : List Attempt) :
    upTo (some limit) rejected (a :: as) = a :: upTo (some limit) rejected as := by
  obtain ⟨e, he⟩ := isRejected_eq_false_iff.1 h
  rw [upTo, he]

theorem upTo_cons_of_rejected (h : a.isRejected = true) (as : List Attempt) :
    upTo (some limit) rejected (a :: as) =
      if limit ≤ rejected + 1 then [a] else a :: upTo (some limit) (rejected + 1) as := by
  obtain ⟨r, hr⟩ := isRejected_eq_true_iff.1 h
  rw [upTo, hr]
  simp

theorem upTo_cases (limit rejected : Nat) (as : List Attempt) :
    (as.filter isRejected).length < max (limit - rejected) 1 ∧
        upTo (some limit) rejected as = as ∨
      ∃ before last after, as = before ++ last :: after ∧ last.isRejected = true ∧
        (before.filter isRejected).length + 1 = max (limit - rejected) 1 ∧
        upTo (some limit) rejected as = before ++ [last] := by
  induction as generalizing rejected with
  | nil => exact .inl ⟨by rw [List.filter_nil, List.length_nil]; omega, rfl⟩
  | cons a as ih =>
    cases ha : a.isRejected with
    | false =>
      rw [upTo_cons_of_not_rejected ha, List.filter_cons_of_neg (by simp [ha])]
      rcases ih rejected with ⟨hlt, hup⟩ | ⟨before, last, after, rfl, hlast, hcount, hup⟩
      · exact .inl ⟨hlt, by rw [hup]⟩
      · refine .inr ⟨a :: before, last, after, rfl, hlast, ?_, by rw [hup]; rfl⟩
        rw [List.filter_cons_of_neg (by simp [ha]), hcount]
    | true =>
      rw [upTo_cons_of_rejected ha]
      by_cases hreached : limit ≤ rejected + 1
      · rw [if_pos hreached]
        refine .inr ⟨[], a, as, rfl, ha, ?_, rfl⟩
        simp only [List.filter_nil, List.length_nil]
        omega
      · rw [if_neg hreached, List.filter_cons_of_pos ha]
        rcases ih (rejected + 1) with
          ⟨hlt, hup⟩ | ⟨before, last, after, rfl, hlast, hcount, hup⟩
        · refine .inl ⟨?_, by rw [hup]⟩
          rw [List.length_cons]
          omega
        · refine .inr ⟨a :: before, last, after, rfl, hlast, ?_, by rw [hup]; rfl⟩
          rw [List.filter_cons_of_pos ha, List.length_cons]
          omega

theorem upTo_le (limit rejected : Nat) (as : List Attempt) :
    upTo (some limit) rejected as <+: as := by
  rcases upTo_cases limit rejected as with ⟨-, h⟩ | ⟨before, last, after, has, -, -, h⟩
  · exact ⟨[], by rw [h, List.append_nil]⟩
  · rw [h, has]
    exact ⟨after, by simp⟩

theorem upTo_le_upTo {larger : Nat} (h : limit ≤ larger) (rejected : Nat)
    (as : List Attempt) : upTo (some limit) rejected as <+: upTo (some larger) rejected as := by
  induction as generalizing rejected with
  | nil => exact List.prefix_rfl
  | cons a as ih =>
    cases ha : a.isRejected with
    | false =>
      rw [upTo_cons_of_not_rejected ha, upTo_cons_of_not_rejected ha, List.prefix_cons_inj]
      exact ih rejected
    | true =>
      rw [upTo_cons_of_rejected ha, upTo_cons_of_rejected ha]
      by_cases hreached : limit ≤ rejected + 1
      · rw [if_pos hreached]
        split <;> simp
      · rw [if_neg hreached, if_neg (by omega), List.prefix_cons_inj]
        exact ih (rejected + 1)

theorem entries_append_rejected (as : List Attempt) (h : a.isRejected = true) :
    (reading (as ++ [a])).entries = (reading as).entries := by
  obtain ⟨r, hr⟩ := isRejected_eq_true_iff.1 h
  rw [reading_append, reading_cons_error hr]
  exact List.append_nil _

theorem entries_le {as bs : List Attempt} (h : as <+: bs) :
    (reading as).entries <+: (reading bs).entries := by
  obtain ⟨cs, rfl⟩ := h
  rw [reading_append]
  exact List.prefix_append _ _

theorem rejections_le {as bs : List Attempt} (h : as <+: bs) :
    (reading as).rejections <+: (reading bs).rejections := by
  obtain ⟨cs, rfl⟩ := h
  rw [reading_append]
  exact List.prefix_append _ _

end Attempt

namespace Cursor

/-- Some declaration starts before the end. -/
def HasStart (c : Cursor) : Prop :=
  ∃ t ∈ c.ahead.takeWhile (·.kind != .endOfFile), t.kind = .keyword .enumeration

/-- The attempt that ends in the rejection with a number, counted from one. -/
def rejectedAttempt? (c : Cursor) (number : Nat) : Option Attempt :=
  (c.attempts.filter Attempt.isRejected)[number - 1]?

/-- Without a limit there are fewer rejections, or as many and no declaration starts behind the last
one. -/
def StaysWithin (c : Cursor) (most : Nat) : Prop :=
  let rejections := (c.read none).reading.rejections
  rejections.length < most ∨
    rejections.length = most ∧ ∀ a, c.rejectedAttempt? most = some a → ¬ a.after.HasStart

theorem rejectedAttempt?_of_attempts {c : Cursor} {before after : List Attempt} {last : Attempt}
    (h : c.attempts = before ++ last :: after) (hlast : last.isRejected = true) :
    c.rejectedAttempt? ((before.filter Attempt.isRejected).length + 1) = some last := by
  rw [rejectedAttempt?, h, List.filter_append, List.filter_cons_of_pos hlast, Nat.add_sub_cancel,
    List.getElem?_append_right (Nat.le_refl _), Nat.sub_self]
  rfl

theorem hasStart_of_check {c : Cursor} (h : c.check (.keyword .enumeration) = true) :
    c.HasStart := by
  obtain ⟨t, ts, ha, ht⟩ := check_eq_true_iff.1 h
  refine ⟨t, ?_, ht⟩
  rw [ha, List.takeWhile_cons_of_pos (by simp [ht])]
  exact List.mem_cons_self

theorem not_hasStart_of_end {c : Cursor} (h : c.isAtEnd = true) : ¬ c.HasStart := by
  rintro ⟨t, ht, -⟩
  cases ha : c.ahead with
  | nil => simp [ha] at ht
  | cons u us =>
    have hu : u.kind = .endOfFile := isAtEnd_eq_true_iff.1 h u (by rw [ha]; rfl)
    rw [ha, List.takeWhile_cons_of_neg (by simp [hu])] at ht
    cases ht

theorem length_rejections_read_none (c : Cursor) : (c.read none).reading.rejections.length =
    (c.attempts.filter Attempt.isRejected).length := by
  rw [read_none_reading, Attempt.length_rejections]

theorem check_or_isAtEnd_of_rejected {c : Cursor} {a : Attempt} (ha : a ∈ c.attempts)
    (hr : a.isRejected = true) :
    a.after.check (.keyword .enumeration) = true ∨ a.after.isAtEnd = true := by
  obtain ⟨c', -, -, rfl⟩ := exists_of_mem_attempts ha
  obtain ⟨r, hout⟩ := Attempt.isRejected_eq_true_iff.1 hr
  have hafter : c'.attempt.after = c'.declaration.2.recover := by
    have hd : c'.declaration.1 = .error r := hout
    simp only [attempt, hd]
  rw [hafter]
  exact recover_check_or_isAtEnd _

section Reached

variable {c : Cursor} {before after : List Attempt} {last : Attempt}

theorem staysWithin_of_end (h : c.attempts = before ++ [last]) (hlast : last.isRejected = true)
    (hend : last.after.isAtEnd = true) :
    c.StaysWithin ((before.filter Attempt.isRejected).length + 1) := by
  refine .inr ⟨?_, ?_⟩
  · rw [length_rejections_read_none, h, List.filter_append, List.filter_cons_of_pos hlast]
    simp
  · intro a ha
    rw [rejectedAttempt?_of_attempts h hlast] at ha
    cases ha
    exact not_hasStart_of_end hend

theorem not_staysWithin_of_check (h : c.attempts = before ++ last :: after)
    (hlast : last.isRejected = true) (hcheck : last.after.check (.keyword .enumeration) = true) :
    ¬ c.StaysWithin ((before.filter Attempt.isRejected).length + 1) := by
  intro hwithin
  obtain hlt | ⟨-, hno⟩ := hwithin
  · rw [length_rejections_read_none, h, List.filter_append, List.filter_cons_of_pos hlast,
      List.length_append, List.length_cons] at hlt
    omega
  · exact hno last (rejectedAttempt?_of_attempts h hlast) (hasStart_of_check hcheck)

end Reached

/-- A limited pass makes all attempts, or it stops at the next start after the rejection that
reaches the limit. -/
theorem read_some_cases (c : Cursor) (limit : Nat) :
    c.StaysWithin (max limit 1) ∧ (c.read (some limit)).cursor.isAtEnd = true ∧
        Attempt.upTo (some limit) 0 c.attempts = c.attempts ∨
      ¬ c.StaysWithin (max limit 1) ∧ (c.read (some limit)).cursor.isAtEnd = false ∧
        (c.read (some limit)).cursor.check (.keyword .enumeration) = true ∧
        ∃ before last, c.attempts = before ++ last :: (c.read (some limit)).cursor.attempts ∧
          last.isRejected = true ∧ (before.filter Attempt.isRejected).length + 1 = max limit 1 ∧
          (c.read (some limit)).cursor = last.after ∧
          Attempt.upTo (some limit) 0 c.attempts = before ++ [last] := by
  have hmakes := makes_read (some limit) c
  obtain ⟨hlt, hup⟩ | ⟨before, last, after, has, hlast, hcount, hup⟩ :=
    Attempt.upTo_cases limit 0 c.attempts
  · rw [hup] at hmakes
    rw [Nat.sub_zero, ← length_rejections_read_none] at hlt
    exact .inl ⟨.inl hlt, hmakes.isAtEnd, hup⟩
  · have hattempts := hmakes.attempts
    have hcursor : (c.read (some limit)).cursor = last.after := by
      rw [hmakes.cursor, hup, afterAll_append_singleton]
    rw [Nat.sub_zero] at hcount
    rw [hup, List.append_assoc, List.singleton_append] at hattempts
    rw [← hcount]
    cases hend : (c.read (some limit)).cursor.isAtEnd with
    | true =>
      rw [attempts_of_end hend] at hattempts
      exact .inl ⟨staysWithin_of_end hattempts hlast (hcursor ▸ hend), rfl, by rw [hup, hattempts]⟩
    | false =>
      have hmem : last ∈ c.attempts := by
        rw [has]
        exact List.mem_append_right _ List.mem_cons_self
      have hcheck : last.after.check (.keyword .enumeration) = true := by
        obtain h | h := check_or_isAtEnd_of_rejected hmem hlast
        · exact h
        · rw [← hcursor, hend] at h
          cases h
      exact .inr ⟨not_staysWithin_of_check has hlast hcheck, rfl, hcursor ▸ hcheck, before, last,
        hattempts, hlast, rfl, hcursor, hup⟩

theorem read_some_le_read_none (c : Cursor) (limit : Nat) :
    (c.read (some limit)).reading.entries <+: (c.read none).reading.entries ∧
      (c.read (some limit)).reading.rejections <+: (c.read none).reading.rejections := by
  have hprefix := Attempt.upTo_le limit 0 c.attempts
  rw [(makes_read (some limit) c).reading, read_none_reading]
  exact ⟨Attempt.entries_le hprefix, Attempt.rejections_le hprefix⟩

theorem read_some_le_read_some (c : Cursor) {limit larger : Nat} (h : limit ≤ larger) :
    (c.read (some limit)).reading.entries <+: (c.read (some larger)).reading.entries ∧
      (c.read (some limit)).reading.rejections <+: (c.read (some larger)).reading.rejections := by
  have hprefix := Attempt.upTo_le_upTo h 0 c.attempts
  rw [(makes_read (some limit) c).reading, (makes_read (some larger) c).reading]
  exact ⟨Attempt.entries_le hprefix, Attempt.rejections_le hprefix⟩

theorem rejections_ne_nil_of_truncated (c : Cursor) (limit : Nat)
    (h : (c.read (some limit)).reading.truncated = true) :
    (c.read (some limit)).reading.rejections ≠ [] := by
  have hreading := (makes_read (some limit) c).reading
  rw [hreading] at h ⊢
  have hend : (c.read (some limit)).cursor.isAtEnd = false := by simpa using h
  rcases read_some_cases c limit with
    ⟨-, hend', -⟩ | ⟨-, -, -, before, last, -, hlast, -, -, hup⟩
  · rw [hend'] at hend
    cases hend
  · obtain ⟨r, hr⟩ := Attempt.isRejected_eq_true_iff.1 hlast
    rw [hup, Attempt.reading_append, Attempt.reading_cons_error hr]
    simp

theorem read_some_of_staysWithin {c : Cursor} {limit : Nat} (h : c.StaysWithin (max limit 1)) :
    (c.read (some limit)).reading = (c.read none).reading ∧
      (c.read (some limit)).reading.truncated = false := by
  obtain ⟨-, hend, hup⟩ | ⟨hbeyond, -⟩ := read_some_cases c limit
  · have hreading := (makes_read (some limit) c).reading
    rw [hup, hend] at hreading
    rw [hreading, read_none_reading]
    exact ⟨rfl, rfl⟩
  · exact absurd h hbeyond

theorem read_some_of_not_staysWithin {c : Cursor} {limit : Nat}
    (h : ¬ c.StaysWithin (max limit 1)) :
    (c.read (some limit)).reading.truncated = true ∧
      (c.read (some limit)).reading.rejections =
        (c.read none).reading.rejections.take (max limit 1) ∧
      (c.read (some limit)).cursor.check (.keyword .enumeration) = true ∧
      ∃ before last, c.attempts = before ++ last :: (c.read (some limit)).cursor.attempts ∧
        c.rejectedAttempt? (max limit 1) = some last ∧
        (before.filter Attempt.isRejected).length + 1 = max limit 1 ∧
        (c.read (some limit)).reading.entries = (Attempt.reading before).entries ∧
        (c.read (some limit)).cursor = last.after := by
  obtain ⟨hwithin, -⟩ | ⟨-, hend, hcheck, before, last, has, hlast, hcount, hcursor, hup⟩ :=
    read_some_cases c limit
  · exact absurd hwithin h
  · have hreading := (makes_read (some limit) c).reading
    have hnumber := rejectedAttempt?_of_attempts has hlast
    rw [hcount] at hnumber
    rw [hup, hend] at hreading
    have hlen : (Attempt.reading (before ++ [last])).rejections.length = max limit 1 := by
      rw [Attempt.length_rejections, List.filter_append, List.filter_cons_of_pos hlast]
      simpa using hcount
    have hrejections := List.prefix_iff_eq_take.1 (read_some_le_read_none c limit).2
    rw [hreading, hlen] at hrejections
    refine ⟨by rw [hreading]; rfl, ?_, hcheck, before, last, has, hnumber, hcount, ?_, hcursor⟩
    · rw [hreading]
      exact hrejections
    · rw [hreading]
      exact Attempt.entries_append_rejected before hlast

/-- A limited pass agrees with the one without a limit, or ends with the rejection that reaches the
limit, before the next start. -/
theorem read_some_against_read_none (c : Cursor) (limit : Nat) :
    let most := max limit 1
    let unlimited := c.read none
    let limited := c.read (some limit)
    unlimited.reading = Attempt.reading c.attempts ∧
      (c.StaysWithin most →
        limited.reading = unlimited.reading ∧ limited.reading.truncated = false) ∧
      (¬ c.StaysWithin most →
        limited.reading.truncated = true ∧
          limited.reading.rejections = unlimited.reading.rejections.take most ∧
          limited.cursor.check (.keyword .enumeration) = true ∧
          ∃ before last, c.attempts = before ++ last :: limited.cursor.attempts ∧
            c.rejectedAttempt? most = some last ∧
            (before.filter Attempt.isRejected).length + 1 = most ∧
            limited.reading.entries = (Attempt.reading before).entries ∧
            limited.cursor = last.after) ∧
      limited.reading.entries <+: unlimited.reading.entries ∧
      limited.reading.rejections <+: unlimited.reading.rejections ∧
      (∀ larger, limit ≤ larger →
        limited.reading.entries <+: (c.read (some larger)).reading.entries ∧
          limited.reading.rejections <+: (c.read (some larger)).reading.rejections) ∧
      (limited.reading.truncated = true → limited.reading.rejections ≠ []) :=
  ⟨read_none_reading c, read_some_of_staysWithin, read_some_of_not_staysWithin,
    (read_some_le_read_none c limit).1, (read_some_le_read_none c limit).2,
    fun _ h => read_some_le_read_some c h, rejections_ne_nil_of_truncated c limit⟩

end Cursor

end Codebook
