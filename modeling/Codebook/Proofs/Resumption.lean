import Codebook.Proofs.Limits

namespace Codebook

namespace Attempt

theorem exists_upTo_cons (limit : Option Nat) (rejected : Nat) (a : Attempt)
    (as : List Attempt) : ∃ tail, upTo limit rejected (a :: as) = a :: tail := by
  rw [upTo]
  split
  · exact ⟨_, rfl⟩
  · split
    · exact ⟨_, rfl⟩
    · exact ⟨_, rfl⟩

end Attempt

namespace Cursor

variable {c : Cursor}

theorem ahead_read_lt (limit : Option Nat) (hend : c.isAtEnd = false) :
    (c.read limit).cursor.ahead.length < c.ahead.length := by
  have hmakes := makes_read limit c
  have hattempts := hmakes.attempts
  obtain ⟨tail, htail⟩ := Attempt.exists_upTo_cons limit 0 c.attempt c.attempt.after.attempts
  rw [hmakes.cursor]
  rw [attempts_of_not_end hend, htail] at hattempts ⊢
  rw [List.cons_append] at hattempts
  have hlt := ahead_attempt_lt hend
  apply afterAll_induction (motive := fun c' => c'.ahead.length < c.ahead.length)
    (List.cons.inj hattempts).2 hlt
  intro c' hend' hc'
  exact Nat.lt_trans (ahead_attempt_lt hend') hc'

/-- What a pass reads and what is left to read behind it are what is read without a limit. -/
theorem read_append_read (limit : Option Nat) (c : Cursor) :
    (c.read limit).reading.entries ++ ((c.read limit).cursor.read none).reading.entries =
        (c.read none).reading.entries ∧
      (c.read limit).reading.rejections ++
          ((c.read limit).cursor.read none).reading.rejections =
        (c.read none).reading.rejections := by
  have hmakes := makes_read limit c
  rw [read_none_reading, read_none_reading, hmakes.attempts, Attempt.reading_append,
    hmakes.reading]
  exact ⟨rfl, rfl⟩

/-- Where a cursor rests after some passes, each from where the one before it came to rest. -/
def afterPasses (limit : Option Nat) (c : Cursor) : Nat → Cursor
  | 0 => c
  | n + 1 => (c.read limit).cursor.afterPasses limit n

def passes (limit : Option Nat) (c : Cursor) : Nat → List Pass
  | 0 => []
  | n + 1 => c.read limit :: (c.read limit).cursor.passes limit n

theorem exists_afterPasses_isAtEnd (limit : Option Nat) (c : Cursor) :
    ∃ n ≤ c.ahead.length, (c.afterPasses limit n).isAtEnd = true := by
  induction h : c.ahead.length using Nat.strongRecOn generalizing c with
  | ind k ih =>
    subst h
    cases hend : c.isAtEnd with
    | true => exact ⟨0, Nat.zero_le _, hend⟩
    | false =>
      have hlt := ahead_read_lt limit hend
      obtain ⟨n, hn, hrest⟩ := ih _ hlt _ rfl
      exact ⟨n + 1, Nat.lt_of_le_of_lt hn hlt, hrest⟩

theorem passes_append_read (limit : Option Nat) (c : Cursor) (n : Nat) :
    (c.passes limit n).flatMap (·.reading.entries) ++
          ((c.afterPasses limit n).read none).reading.entries = (c.read none).reading.entries ∧
      (c.passes limit n).flatMap (·.reading.rejections) ++
          ((c.afterPasses limit n).read none).reading.rejections =
        (c.read none).reading.rejections := by
  induction n generalizing c with
  | zero => exact ⟨rfl, rfl⟩
  | succ n ih =>
    obtain ⟨hentries, hrejections⟩ := read_append_read limit c
    obtain ⟨hentries', hrejections'⟩ := ih (c.read limit).cursor
    rw [passes, afterPasses, List.flatMap_cons, List.flatMap_cons, List.append_assoc,
      List.append_assoc, hentries', hrejections']
    exact ⟨hentries, hrejections⟩

theorem of_mem_passes {limit : Option Nat} {n : Nat} {p : Pass} (h : p ∈ c.passes limit n) :
    p.reading.truncated = !p.cursor.isAtEnd ∧ p.cursor.tokens = c.tokens := by
  induction n generalizing c with
  | zero => cases h
  | succ n ih =>
    rcases List.mem_cons.1 h with rfl | h
    · exact ⟨congrArg Reading.truncated (makes_read limit c).reading, (Advances.read limit c).tokens⟩
    · obtain ⟨htruncated, htokens⟩ := ih h
      exact ⟨htruncated, htokens.trans ((Advances.read limit c).tokens)⟩

theorem read_none_of_end (h : c.isAtEnd = true) : (c.read none).reading = ⟨[], [], false⟩ := by
  rw [read_none_reading, attempts_of_end h]
  rfl

/-- Passes with a limit reach the end of the tokens, and together they read what one pass without a
limit reads. -/
theorem passes_read_once (limit : Option Nat) (c : Cursor) :
    (∃ n ≤ c.ahead.length, (c.afterPasses limit n).isAtEnd = true) ∧
      ∀ n,
        (∀ p ∈ c.passes limit n,
          p.reading.truncated = !p.cursor.isAtEnd ∧ p.cursor.tokens = c.tokens) ∧
        ((c.afterPasses limit n).isAtEnd = true →
          (c.passes limit n).flatMap (·.reading.entries) = (c.read none).reading.entries ∧
            (c.passes limit n).flatMap (·.reading.rejections) =
              (c.read none).reading.rejections) := by
  refine ⟨exists_afterPasses_isAtEnd limit c, fun n => ⟨fun p hp => of_mem_passes hp, ?_⟩⟩
  intro hend
  obtain ⟨hentries, hrejections⟩ := passes_append_read limit c n
  rw [read_none_of_end hend, List.append_nil] at hentries hrejections
  exact ⟨hentries, hrejections⟩

end Cursor

end Codebook
