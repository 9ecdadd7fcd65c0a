import Codebook.Proofs.Turn

namespace Codebook

namespace Event

/-- The entry that an event reports as read. -/
def accepted? : Event → Option Entry
  | accepted e => some e
  | _ => none

/-- The rejection that an event warns of. -/
def rejected? : Event → Option Rejection
  | rejected r => some r
  | _ => none

section Record

theorem record_lexed (n : Nat) : (lexed n).record = "DEBUG lexed " ++ n.repr ++ " tokens" := by
  change "DEBUG" ++ " " ++ ("lexed " ++ n.repr ++ " tokens") = _
  simp only [String.reduceAppend, ← String.append_assoc]

theorem record_accepted (e : Entry) : (accepted e).record =
    "DEBUG parsed enumeration " ++ e.number.toNat.repr ++ " (id " ++ e.id.toNat.repr ++ ")" := by
  change "DEBUG" ++ " " ++
    ("parsed enumeration " ++ e.number.toNat.repr ++ " (id " ++ e.id.toNat.repr ++ ")") = _
  simp only [String.reduceAppend, ← String.append_assoc]

theorem record_rejected (r : Rejection) :
    (rejected r).record = "WARN skipping declaration: " ++ r.message := by
  change "WARN" ++ " " ++ ("skipping declaration: " ++ r.message) = _
  simp only [String.reduceAppend, ← String.append_assoc]

theorem record_limitReached (limit : Nat) :
    (limitReached limit).record = "WARN error limit of " ++ limit.repr ++ " reached, stopping" := by
  change "WARN" ++ " " ++ ("error limit of " ++ limit.repr ++ " reached, stopping") = _
  simp only [String.reduceAppend, ← String.append_assoc]

theorem record_finished (entries rejections : Nat) : (finished entries rejections).record =
    "DEBUG parsed " ++ entries.repr ++ " entries, " ++ rejections.repr ++ " rejected" := by
  change "DEBUG" ++ " " ++
    ("parsed " ++ entries.repr ++ " entries, " ++ rejections.repr ++ " rejected") = _
  simp only [String.reduceAppend, ← String.append_assoc]

end Record

end Event

namespace Cursor

variable {c : Cursor} {limit : Option Nat} {rejected l : Nat}

theorem reached?_eq_some (h : c.reached? limit rejected = some l) :
    limit = some l ∧ l ≤ rejected := by
  cases hend : c.isAtEnd with
  | true =>
    rw [reached?_of_end hend] at h
    cases h
  | false =>
    rw [reached?_of_not_end hend, Option.filter_eq_some_iff] at h
    simpa using h

theorem isAtEnd_of_reached?_eq_none (h : c.reached? limit rejected = none)
    (hlimit : limit.any (· ≤ rejected) = true) : c.isAtEnd = true := by
  cases hend : c.isAtEnd with
  | true => rfl
  | false =>
    rw [reached?_of_not_end hend] at h
    cases limit with
    | none => cases hlimit
    | some l =>
      rw [Option.any_some] at hlimit
      rw [Option.filter_some, if_pos hlimit] at h
      cases h

theorem attempts_ascend (c : Cursor) :
    (∀ a ∈ c.attempts, c.position < a.after.position) ∧
      c.attempts.Pairwise (·.after.position < ·.after.position) := by
  induction c using attempts.induct with
  | case1 c hend =>
    rw [attempts_of_end hend]
    exact ⟨List.forall_mem_nil _, .nil⟩
  | case2 c hend ih =>
    have hend := Bool.eq_false_iff.2 hend
    have hlt := position_attempt_lt hend
    obtain ⟨hbehind, hrest⟩ := ih
    rw [attempts_of_not_end hend]
    refine ⟨List.forall_mem_cons.2 ⟨hlt, fun a ha => ?_⟩, List.pairwise_cons.2 ⟨hbehind, hrest⟩⟩
    exact Nat.lt_trans hlt (hbehind a ha)

end Cursor

namespace Attempt

variable {limit : Option Nat} {rejected l : Nat} {a : Attempt} {as : List Attempt}
  {e : Entry} {r : Rejection}

/-- What is logged of an attempt: an entry is a detail, and a rejection a warning. -/
def record (a : Attempt) : String :=
  match a.outcome with
  | .ok e => "DEBUG parsed enumeration " ++ e.number.toNat.repr ++ " (id " ++ e.id.toNat.repr ++ ")"
  | .error r => "WARN skipping declaration: " ++ r.message

def event (a : Attempt) : Event :=
  match a.outcome with
  | .ok e => .accepted e
  | .error r => .rejected r

theorem record_event (a : Attempt) : a.event.record = a.record := by
  rw [event, record]
  cases a.outcome with
  | ok e => exact Event.record_accepted e
  | error r => exact Event.record_rejected r

theorem accepted?_event (a : Attempt) : a.event.accepted? = a.outcome.toOption := by
  rw [event]
  cases a.outcome <;> rfl

theorem rejected?_event (a : Attempt) : a.event.rejected? = Reading.rejection? a.outcome := by
  rw [event]
  cases a.outcome <;> rfl

theorem upTo_cons_of_ok (h : a.outcome = .ok e) :
    upTo limit rejected (a :: as) = a :: upTo limit rejected as := by
  rw [upTo, h]

theorem upTo_cons_of_reached (h : a.outcome = .error r)
    (hl : a.after.reached? limit (rejected + 1) = some l) :
    upTo limit rejected (a :: as) = [a] := by
  obtain ⟨rfl, hle⟩ := Cursor.reached?_eq_some hl
  rw [upTo, h]
  simp [hle]

/-- A limit that is met where nothing is left to attempt leaves nothing out. -/
theorem upTo_cons_of_not_reached (h : a.outcome = .error r)
    (hl : a.after.reached? limit (rejected + 1) = none) :
    upTo limit rejected (a :: a.after.attempts) =
      a :: upTo limit (rejected + 1) a.after.attempts := by
  rw [upTo, h]
  dsimp only
  split
  · rename_i hlimit
    rw [Cursor.attempts_of_end (Cursor.isAtEnd_of_reached?_eq_none hl hlimit), upTo]
  · rfl

/-- The events of some attempts, one for each, and a notice where the limit stops the reading. -/
inductive Logs (limit : Option Nat) : List Attempt → Bool → List Event → Prop where
  | none : Logs limit [] false []
  | attempt {as : List Attempt} {truncated : Bool} {events : List Event} (a : Attempt) :
      Logs limit as truncated events → Logs limit (a :: as) truncated (a.event :: events)
  | stopped {a : Attempt} {r : Rejection} {l : Nat} :
      a.outcome = .error r → limit = some l → Logs limit [a] true [a.event, .limitReached l]

namespace Logs

variable {truncated : Bool} {events : List Event}

theorem accepted_events (h : Logs limit as truncated events) :
    events.filterMap Event.accepted? = (reading as).entries := by
  rw [reading, Reading.ofOutcomes, List.filterMap_map]
  induction h with
  | none => rfl
  | attempt a _ ih => rw [List.filterMap_cons, List.filterMap_cons, accepted?_event, ih]; rfl
  | @stopped a => rw [List.filterMap_cons, accepted?_event]; rfl

theorem rejected_events (h : Logs limit as truncated events) :
    events.filterMap Event.rejected? = (reading as).rejections := by
  rw [reading, Reading.ofOutcomes, List.filterMap_map]
  induction h with
  | none => rfl
  | attempt a _ ih => rw [List.filterMap_cons, List.filterMap_cons, rejected?_event, ih]; rfl
  | @stopped a => rw [List.filterMap_cons, rejected?_event]; rfl

theorem records_of_untruncated (h : Logs limit as false events) :
    events.map Event.record = as.map record := by
  generalize htruncated : false = truncated at h
  induction h with
  | none => rfl
  | attempt a _ ih => rw [List.map_cons, List.map_cons, ih htruncated, record_event]
  | stopped => cases htruncated

theorem records_of_truncated (h : Logs limit as true events) :
    ∃ l before a r, limit = some l ∧ as = before ++ [a] ∧ a.outcome = .error r ∧
      events.map Event.record = as.map record ++ [(Event.limitReached l).record] := by
  generalize htruncated : true = truncated at h
  induction h with
  | none => cases htruncated
  | attempt b _ ih =>
    obtain ⟨l, before, a, r, hl, rfl, ha, hrecords⟩ := ih htruncated
    refine ⟨l, b :: before, a, r, hl, rfl, ha, ?_⟩
    rw [List.map_cons, List.map_cons, hrecords, record_event, List.cons_append]
  | @stopped a r l ha hl =>
    refine ⟨l, [], a, r, hl, rfl, ha, ?_⟩
    rw [List.map_cons, record_event]
    rfl

end Logs

end Attempt

namespace Cursor

open Attempt

/-- What a pass logs is told by the attempts that it makes. -/
theorem logs_readOn (limit : Option Nat) (rejected : Nat) (c : Cursor) :
    Logs limit (upTo limit rejected c.attempts) (c.readOn limit rejected).reading.truncated
      (c.readOn limit rejected).events := by
  induction rejected, c using readOn.induct_unfolding limit with
  | case1 rejected c hend =>
    rw [attempts_of_end hend]
    exact .none
  | case2 rejected c hend e hd ih =>
    have ha : c.attempt = ⟨.ok e, c.declaration.2⟩ := attempt_of_ok (Prod.ext hd rfl)
    rw [attempts_of_not_end (Bool.eq_false_iff.2 hend), ha, upTo_cons_of_ok rfl]
    exact .attempt _ ih
  | case3 rejected c hend r hd l hl =>
    have ha : c.attempt = ⟨.error r, c.declaration.2.recover⟩ := attempt_of_error (Prod.ext hd rfl)
    rw [attempts_of_not_end (Bool.eq_false_iff.2 hend), ha, upTo_cons_of_reached rfl hl]
    exact .stopped rfl (reached?_eq_some hl).1
  | case4 rejected c hend r hd hl ih =>
    have ha : c.attempt = ⟨.error r, c.declaration.2.recover⟩ := attempt_of_error (Prod.ext hd rfl)
    rw [attempts_of_not_end (Bool.eq_false_iff.2 hend), ha, upTo_cons_of_not_reached rfl hl]
    exact .attempt _ ih

theorem events_read (limit : Option Nat) (c : Cursor) : (c.read limit).events =
    (c.readOn limit 0).events ++
      [.finished (c.read limit).reading.entries.length
        (c.read limit).reading.rejections.length] :=
  rfl

theorem accepted_read (limit : Option Nat) (c : Cursor) :
    (c.read limit).events.filterMap Event.accepted? = (c.read limit).reading.entries := by
  have hlogs := logs_readOn limit 0 c
  rw [events_read, List.filterMap_append, hlogs.accepted_events, (makes_read limit c).reading]
  exact List.append_nil _

theorem rejected_read (limit : Option Nat) (c : Cursor) :
    (c.read limit).events.filterMap Event.rejected? = (c.read limit).reading.rejections := by
  have hlogs := logs_readOn limit 0 c
  rw [events_read, List.filterMap_append, hlogs.rejected_events, (makes_read limit c).reading]
  exact List.append_nil _

theorem records_read (limit : Option Nat) (c : Cursor) :
    let p := c.read limit
    let made := upTo limit 0 c.attempts
    ∃ notice : List String,
      p.events.map Event.record = made.map record ++ notice ++
        ["DEBUG parsed " ++ p.reading.entries.length.repr ++ " entries, " ++
          p.reading.rejections.length.repr ++ " rejected"] ∧
      (p.reading.truncated = false → notice = []) ∧
      (p.reading.truncated = true → ∃ l before a r, limit = some l ∧
        made = before ++ [a] ∧ a.outcome = .error r ∧
        notice = ["WARN error limit of " ++ l.repr ++ " reached, stopping"]) := by
  intro p made
  have hlogs : Logs limit made p.reading.truncated (c.readOn limit 0).events :=
    logs_readOn limit 0 c
  rw [events_read, List.map_append, List.map_singleton, Event.record_finished]
  cases htruncated : p.reading.truncated with
  | false =>
    rw [htruncated] at hlogs
    refine ⟨[], ?_, fun _ => rfl, nofun⟩
    rw [hlogs.records_of_untruncated, List.append_nil]
  | true =>
    rw [htruncated] at hlogs
    obtain ⟨l, before, a, r, hl, hlast, ha, hrecords⟩ := hlogs.records_of_truncated
    rw [Event.record_limitReached] at hrecords
    refine ⟨["WARN error limit of " ++ l.repr ++ " reached, stopping"], ?_, nofun,
      fun _ => ⟨l, before, a, r, hl, hlast, ha, rfl⟩⟩
    rw [hrecords]

end Cursor

/-- The log has a record for each attempt, in the order of the text, and says whether the limit
stopped the reading. -/
theorem readSource_records (limit : Option Nat) (source : String) :
    let reading := (readSource limit source).1
    let events := (readSource limit source).2
    let attempts := (Cursor.ofTokens (tokenize source)).attempts
    attempts.Pairwise (·.after.position < ·.after.position) ∧
      ∃ (made left : List Attempt) (notice : List String),
        attempts = made ++ left ∧
        reading = { Attempt.reading made with truncated := !left.isEmpty } ∧
        events.filterMap Event.accepted? = reading.entries ∧
        events.filterMap Event.rejected? = reading.rejections ∧
        events.map Event.record =
          ("DEBUG lexed " ++ (tokenize source).length.repr ++ " tokens") ::
            (made.map Attempt.record ++ notice ++
              ["DEBUG parsed " ++ reading.entries.length.repr ++ " entries, " ++
                reading.rejections.length.repr ++ " rejected"]) ∧
        (reading.truncated = false → notice = []) ∧
        (reading.truncated = true → ∃ l before a r, limit = some l ∧
          made = before ++ [a] ∧ a.outcome = .error r ∧
          notice = ["WARN error limit of " ++ l.repr ++ " reached, stopping"]) := by
  intro reading events attempts
  let c := Cursor.ofTokens (tokenize source)
  let left := (c.read limit).cursor.attempts
  have hmakes := Cursor.makes_read limit c
  have hleft : left.isEmpty = (c.read limit).cursor.isAtEnd := by
    rw [Bool.eq_iff_iff, List.isEmpty_iff, Cursor.attempts_eq_nil_iff]
  obtain ⟨notice, hrecords, hnotice⟩ := Cursor.records_read limit c
  refine ⟨(Cursor.attempts_ascend c).2, _, left, notice, hmakes.attempts, ?_,
    Cursor.accepted_read limit c, Cursor.rejected_read limit c, ?_, hnotice⟩
  · rw [hleft]
    exact hmakes.reading
  · exact congrArg₂ List.cons (Event.record_lexed _) hrecords

end Codebook
