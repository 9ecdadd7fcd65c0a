import Codebook.Proofs.Production

namespace Codebook

namespace Cursor

/-- How many declarations start ahead, before the end of the file. -/
def starts (c : Cursor) : Nat :=
  (c.ahead.takeWhile (·.kind != .endOfFile)).countP (·.kind == .keyword .enumeration)

variable {c c' : Cursor}

theorem starts_of_append {ts : List Token} (h : c.ahead = ts ++ c'.ahead)
    (hts : ∀ t ∈ ts, t.kind ≠ .endOfFile) :
    c.starts = ts.countP (·.kind == .keyword .enumeration) + c'.starts := by
  have hpass : ∀ t ∈ ts, (t.kind != .endOfFile) = true := fun t ht => bne_iff_ne.2 (hts t ht)
  rw [starts, h, List.takeWhile_append_of_pos hpass, List.countP_append]
  rfl

theorem Advances.starts_le (h : Advances c c') : c'.starts ≤ c.starts := by
  obtain ⟨ts, hahead, hts⟩ := h.exists_ahead
  rw [starts_of_append hahead hts]
  exact Nat.le_add_left _ _

theorem starts_of_declaration_ok {e : Entry} (h : c.declaration = (.ok e, c')) :
    c.starts = 1 + c'.starts := by
  obtain ⟨hdeclares, rfl⟩ := declaration_eq_ok_iff.1 h
  have hkinds : (c.ahead.take 13).map (·.kind) = Declaration.kinds := hdeclares.kinds
  have hahead : c.ahead = c.ahead.take 13 ++ (c.skip 13).ahead := (List.take_append_drop 13 _).symm
  have hproper : ∀ t ∈ c.ahead.take 13, t.kind ≠ .endOfFile := by
    have hend : ∀ kind ∈ Declaration.kinds, kind ≠ .endOfFile := by decide
    intro t ht
    exact hend t.kind (hkinds ▸ List.mem_map_of_mem ht)
  have hcount : (c.ahead.take 13).countP (·.kind == .keyword .enumeration) =
      Declaration.kinds.countP (· == .keyword .enumeration) := by
    rw [← hkinds, List.countP_map]
    rfl
  rw [starts_of_append hahead hproper, hcount]
  rfl

theorem position_attempt_lt (hend : c.isAtEnd = false) :
    c.position < c.attempt.after.position := by
  have hlt := ahead_attempt_lt hend
  have htotal := position_add_ahead c
  have htotal' := position_add_ahead c.attempt.after
  rw [(Advances.attempt c).tokens] at htotal'
  omega

end Cursor

/-- A pass under way: what it has read so far, and where its cursor is. -/
structure Stage where
  reading : Reading
  cursor : Cursor

namespace Stage

def start (c : Cursor) : Stage :=
  ⟨⟨[], [], false⟩, c⟩

/-- One turn of a pass: a declaration, with the recovery from it. There is none where the pass
stops. -/
def turn? (limit : Option Nat) (s : Stage) : Option Stage :=
  if s.reading.truncated || s.cursor.isAtEnd then none
  else
    match s.cursor.attempt with
    | ⟨.ok entry, after⟩ =>
      some ⟨{ s.reading with entries := s.reading.entries ++ [entry] }, after⟩
    | ⟨.error rejection, after⟩ =>
      some
        { reading.entries := s.reading.entries
          reading.rejections := s.reading.rejections ++ [rejection]
          reading.truncated := (after.reached? limit (s.reading.rejections.length + 1)).isSome
          cursor := after }

/-- Turns taken one after the other, with their number. -/
inductive Turns (limit : Option Nat) : Stage → Nat → Stage → Prop where
  | none {s : Stage} : Turns limit s 0 s
  | turn {s s' s'' : Stage} {n : Nat} :
      s.turn? limit = some s' → Turns limit s' n s'' → Turns limit s (n + 1) s''

/-- What is read between two stages is paid for: an entry with thirteen tokens, a rejection with at
least one. -/
structure Pays (s s' : Stage) : Prop where
  tokens : s'.cursor.tokens = s.cursor.tokens
  price : s.cursor.position + 13 * s'.reading.entries.length + s'.reading.rejections.length ≤
    s'.cursor.position + 13 * s.reading.entries.length + s.reading.rejections.length
  starts : s'.reading.entries.length + s'.cursor.starts ≤
    s.reading.entries.length + s.cursor.starts

namespace Pays

variable {s s' s'' : Stage}

theorem refl (s : Stage) : Pays s s :=
  ⟨rfl, Nat.le_refl _, Nat.le_refl _⟩

theorem trans (h : Pays s s') (h' : Pays s' s'') : Pays s s'' where
  tokens := h'.tokens.trans h.tokens
  price := by
    have hprice := h.price
    have hprice' := h'.price
    omega
  starts := Nat.le_trans h'.starts h.starts

end Pays

variable {limit : Option Nat} {s s' : Stage}

theorem turn?_of_truncated (h : s.reading.truncated = !s.cursor.isAtEnd) :
    s.turn? limit = none := by
  rw [turn?, h, Bool.not_or_self, if_pos rfl]

section Open

variable {c : Cursor} (htruncated : s.reading.truncated = false)
  (hend : s.cursor.isAtEnd = false)

include htruncated hend

theorem turn?_of_ok {e : Entry} (h : s.cursor.declaration = (.ok e, c)) :
    s.turn? limit = some ⟨{ s.reading with entries := s.reading.entries ++ [e] }, c⟩ := by
  rw [turn?, htruncated, hend, if_neg (by simp), Cursor.attempt_of_ok h]

theorem turn?_of_error {r : Rejection} (h : s.cursor.declaration = (.error r, c)) :
    s.turn? limit = some
      ⟨⟨s.reading.entries, s.reading.rejections ++ [r],
        (c.recover.reached? limit (s.reading.rejections.length + 1)).isSome⟩, c.recover⟩ := by
  rw [turn?, htruncated, hend, if_neg (by simp), Cursor.attempt_of_error h]

end Open

/-- A turn is an attempt before the end, and adds the outcome of it to what is read. -/
theorem turn?_cases (h : s.turn? limit = some s') :
    s.cursor.isAtEnd = false ∧ s'.cursor = s.cursor.attempt.after ∧
      ((∃ e, s.cursor.declaration = (.ok e, s'.cursor) ∧
          s'.reading.entries = s.reading.entries ++ [e] ∧
          s'.reading.rejections = s.reading.rejections) ∨
        ∃ r, s'.reading.entries = s.reading.entries ∧
          s'.reading.rejections = s.reading.rejections ++ [r]) := by
  cases hstop : s.reading.truncated || s.cursor.isAtEnd with
  | true =>
    rw [turn?, if_pos hstop] at h
    cases h
  | false =>
    obtain ⟨htruncated, hend⟩ := Bool.or_eq_false_iff.1 hstop
    cases hd : s.cursor.declaration with
    | mk outcome c =>
      cases outcome with
      | ok e =>
        rw [turn?_of_ok htruncated hend hd] at h
        cases h
        exact ⟨hend, by rw [Cursor.attempt_of_ok hd], .inl ⟨e, rfl, rfl, rfl⟩⟩
      | error r =>
        rw [turn?_of_error htruncated hend hd] at h
        cases h
        exact ⟨hend, by rw [Cursor.attempt_of_error hd], .inr ⟨r, rfl, rfl⟩⟩

theorem position_turn_lt (h : s.turn? limit = some s') :
    s.cursor.position < s'.cursor.position := by
  obtain ⟨hend, hcursor, -⟩ := turn?_cases h
  rw [hcursor]
  exact Cursor.position_attempt_lt hend

theorem pays_of_turn (h : s.turn? limit = some s') : Pays s s' := by
  obtain ⟨hend, hcursor, hcase⟩ := turn?_cases h
  have hadvances := Cursor.Advances.attempt s.cursor
  have hlt := position_turn_lt h
  rw [← hcursor] at hadvances
  rcases hcase with ⟨e, hd, hentries, hrejections⟩ | ⟨r, hentries, hrejections⟩
  · have hposition := (Cursor.declaration_ok_iff.1 hd).2.2
    have hstarts := Cursor.starts_of_declaration_ok hd
    refine ⟨hadvances.tokens, ?_, ?_⟩
    · rw [hentries, hrejections, List.length_append, List.length_singleton]
      omega
    · rw [hentries, List.length_append, List.length_singleton]
      omega
  · have hstarts := hadvances.starts_le
    refine ⟨hadvances.tokens, ?_, ?_⟩
    · rw [hentries, hrejections, List.length_append, List.length_singleton]
      omega
    · rw [hentries]
      omega

theorem Turns.pays {n : Nat} (h : Turns limit s n s') : Pays s s' := by
  induction h with
  | none => exact .refl _
  | turn hturn _ ih => exact (pays_of_turn hturn).trans ih

theorem wellFounded_turn (limit : Option Nat) :
    WellFounded fun s' s : Stage => s.turn? limit = some s' := by
  apply Subrelation.wf _ (measure fun s : Stage => s.cursor.ahead.length).wf
  intro s' s h
  obtain ⟨hend, hcursor, -⟩ := turn?_cases h
  change s'.cursor.ahead.length < s.cursor.ahead.length
  rw [hcursor]
  exact Cursor.ahead_attempt_lt hend

/-- What is read behind some stage is read in turns, one for each entry and each rejection. -/
theorem turns_readOn (limit : Option Nat) (entries : List Entry) (rejections : List Rejection)
    (c : Cursor) :
    let p := c.readOn limit rejections.length
    Turns limit ⟨⟨entries, rejections, false⟩, c⟩
      (p.reading.entries.length + p.reading.rejections.length)
      ⟨⟨entries ++ p.reading.entries, rejections ++ p.reading.rejections, p.reading.truncated⟩,
        p.cursor⟩ := by
  induction h : c.ahead.length using Nat.strongRecOn generalizing c entries rejections with
  | ind n ih =>
    subst h
    cases hend : c.isAtEnd with
    | true =>
      rw [Cursor.readOn_of_end hend]
      simp only [Pass.ended, List.append_nil]
      exact .none
    | false =>
      have hlt := Cursor.ahead_attempt_lt hend
      cases hd : c.declaration with
      | mk outcome c' =>
        cases outcome with
        | ok e =>
          rw [Cursor.attempt_of_ok hd] at hlt
          have hturn : turn? limit ⟨⟨entries, rejections, false⟩, c⟩ = some _ :=
            turn?_of_ok rfl hend hd
          have hrest := ih _ hlt (entries ++ [e]) rejections c' rfl
          simp only [List.append_assoc] at hrest
          simp only [Cursor.readOn_of_ok hend hd, Pass.accept, List.length_cons]
          rw [Nat.add_right_comm]
          exact .turn hturn hrest
        | error r =>
          rw [Cursor.attempt_of_error hd] at hlt
          have hturn : turn? limit ⟨⟨entries, rejections, false⟩, c⟩ = some _ :=
            turn?_of_error rfl hend hd
          rw [Cursor.readOn_of_error hend hd]
          cases hreached : c'.recover.reached? limit (rejections.length + 1) with
          | some l =>
            simp only [hreached] at hturn
            simp only [Pass.stopped, Pass.reject, List.append_nil]
            exact .turn hturn .none
          | none =>
            simp only [hreached] at hturn
            have hrest := ih _ hlt entries (rejections ++ [r]) c'.recover rfl
            simp only [List.append_assoc, List.length_append, List.length_singleton] at hrest
            simp only [Pass.reject, List.length_cons]
            exact .turn hturn hrest

end Stage

namespace Cursor

/-- A pass is a run of turns, and what it reads is paid for with the tokens between its ends. -/
theorem pass_pays_for_reading (limit : Option Nat) (c : Cursor) :
    let p := c.read limit
    let entries := p.reading.entries.length
    let rejections := p.reading.rejections.length
    (∀ s s' : Stage, s.turn? limit = some s' →
        s'.cursor.tokens = s.cursor.tokens ∧ s.cursor.position < s'.cursor.position) ∧
      (WellFounded fun s' s : Stage => s.turn? limit = some s') ∧
      Stage.Turns limit (.start c) (entries + rejections) ⟨p.reading, p.cursor⟩ ∧
      Stage.turn? limit ⟨p.reading, p.cursor⟩ = none ∧
      c.position + (13 * entries + rejections) ≤ p.cursor.position ∧
      entries ≤ c.starts := by
  intro p entries rejections
  have hturns : Stage.Turns limit (.start c) (entries + rejections) ⟨p.reading, p.cursor⟩ :=
    Stage.turns_readOn limit [] [] c
  have hpays := hturns.pays
  refine ⟨fun s s' h => ⟨(Stage.pays_of_turn h).tokens, Stage.position_turn_lt h⟩,
    Stage.wellFounded_turn limit, hturns, ?_, ?_, ?_⟩
  · exact Stage.turn?_of_truncated (congrArg Reading.truncated (makes_read limit c).reading)
  · have hprice := hpays.price
    simp only [Stage.start, List.length_nil] at hprice
    omega
  · have hstarts := hpays.starts
    simp only [Stage.start, List.length_nil] at hstarts
    omega

end Cursor

end Codebook
