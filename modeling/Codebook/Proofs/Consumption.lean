import Codebook.Token.Stream

namespace Codebook.Stream

/-- The ways to ask a stream for its tokens, or for whether it has more. -/
inductive Call where
  | next
  | pull
  | pullAll
  | drain
  | hasMore
  deriving DecidableEq, Repr

/-- The calls that look at whether the stream is closed, and close it. -/
def Call.isPull : Call → Bool
  | pull => true
  | pullAll => true
  | _ => false

inductive Answer where
  | token (t : Token)
  | pulled (t : Option Token)
  | tokens (ts : List Token)
  | more (more : Bool)
  deriving DecidableEq, Repr

/-- The tokens that an answer hands out. -/
def Answer.taken : Answer → List Token
  | token t => [t]
  | pulled t => t.toList
  | tokens ts => ts
  | more _ => []

def answer (s : Stream) : Call → Answer × Stream
  | .next => (.token s.next.1, s.next.2)
  | .pull => (.pulled s.pull.1, s.pull.2)
  | .pullAll => (.tokens s.pullAll.1, s.pullAll.2)
  | .drain => (.tokens s.drain.1, s.drain.2)
  | .hasMore => (.more s.hasMore, s)

/-- Calls made one after the other, each with its answer, and the stream that they leave. -/
def run (s : Stream) : List Call → List (Call × Answer) × Stream
  | [] => ([], s)
  | call :: calls =>
    let rest := (s.answer call).2.run calls
    ((call, (s.answer call).1) :: rest.1, rest.2)

/-- The first tokens that are read, one by one. -/
def first (s : Stream) : Nat → List Token
  | 0 => []
  | n + 1 => s.next.1 :: s.next.2.first n

/-- What is left behind the first tokens. -/
def behind (s : Stream) : Nat → Stream
  | 0 => s
  | n + 1 => s.next.2.behind n

theorem first_add (s : Stream) (m n : Nat) :
    s.first (m + n) = s.first m ++ (s.behind m).first n := by
  induction m generalizing s with
  | zero => rw [Nat.zero_add]; rfl
  | succ m ih => rw [Nat.succ_add, first, ih]; rfl

theorem behind_add (s : Stream) (m n : Nat) : s.behind (m + n) = (s.behind m).behind n := by
  induction m generalizing s with
  | zero => rw [Nat.zero_add]; rfl
  | succ m ih => rw [Nat.succ_add, behind, ih]; rfl

theorem next_with_closed (s : Stream) (closed : Bool) :
    next { s with closed } = (s.next.1, { s.next.2 with closed }) := by
  unfold next read skipBlanks
  split
  · rename_i h
    rw [h]
  · rename_i h
    rw [h]

theorem first_with_closed (s : Stream) (closed : Bool) (n : Nat) :
    first { s with closed } n = s.first n := by
  induction n generalizing s with
  | zero => rfl
  | succ n ih => rw [first, next_with_closed, ih]; rfl

theorem behind_with_closed (s : Stream) (closed : Bool) (n : Nat) :
    behind { s with closed } n = { s.behind n with closed } := by
  induction n generalizing s with
  | zero => rfl
  | succ n ih => rw [behind, next_with_closed, ih]; rfl

/-- Tokens that are the first of a stream, and a stream that is left behind them, but for whether
it is closed. -/
structure Takes (s : Stream) (ts : List Token) (s' : Stream) : Prop where
  taken : ts = s.first ts.length
  left : s' = { s.behind ts.length with closed := s'.closed }

namespace Takes

variable {s s' s'' : Stream} {ts ts' : List Token}

theorem refl (s : Stream) : Takes s [] s :=
  ⟨rfl, rfl⟩

theorem next (s : Stream) : Takes s [s.next.1] s.next.2 :=
  ⟨rfl, rfl⟩

theorem with_closed (h : Takes s ts s') (closed : Bool) : Takes s ts { s' with closed } where
  taken := h.taken
  left := by rw [h.left]

theorem trans (h : Takes s ts s') (h' : Takes s' ts' s'') : Takes s (ts ++ ts') s'' where
  taken := by
    have htaken := h'.taken
    rw [h.left, first_with_closed] at htaken
    rw [List.length_append, first_add, ← h.taken, ← htaken]
  left := by
    have hleft := h'.left
    rw [h.left, behind_with_closed] at hleft
    rw [List.length_append, behind_add]
    exact hleft

theorem cons (h : Takes s.next.2 ts s') : Takes s (s.next.1 :: ts) s' :=
  (next s).trans h

theorem drain (s : Stream) : Takes s s.drain.1 s.drain.2 := by
  induction s using Stream.drain.induct with
  | case1 s h =>
    rw [Stream.drain, dif_pos h]
    exact refl s
  | case2 s h hterminal =>
    rw [Stream.drain, dif_neg h, if_pos hterminal]
    exact next s
  | case3 s h hterminal ih =>
    rw [Stream.drain, dif_neg h, if_neg hterminal]
    exact cons ih

theorem pull (s : Stream) : Takes s s.pull.1.toList s.pull.2 := by
  rw [Stream.pull]
  split
  · exact refl s
  · exact (next s).with_closed _

theorem pullAll (s : Stream) : Takes s s.pullAll.1 s.pullAll.2 := by
  induction s using Stream.pullAll.induct with
  | case1 s h =>
    rw [Stream.pullAll, if_pos h]
    exact refl s
  | case2 s h hterminal =>
    rw [Stream.pullAll, if_neg h, dif_pos hterminal]
    exact (next s).with_closed true
  | case3 s h hterminal ih =>
    rw [Stream.pullAll, if_neg h, dif_neg hterminal]
    exact cons ih

/-- Whatever the call, it takes the next tokens in order. -/
theorem answer (s : Stream) (call : Call) :
    Takes s (s.answer call).1.taken (s.answer call).2 := by
  cases call with
  | next => exact next s
  | pull => exact pull s
  | pullAll => exact pullAll s
  | drain => exact drain s
  | hasMore => exact refl s

theorem run (s : Stream) (calls : List Call) :
    Takes s ((s.run calls).1.flatMap (·.2.taken)) (s.run calls).2 := by
  induction calls generalizing s with
  | nil => exact refl s
  | cons call calls ih =>
    rw [Stream.run, List.flatMap_cons]
    exact (answer s call).trans (ih _)

end Takes

theorem pull_eq_none_iff {s : Stream} : s.pull.1 = none ↔ s.closed = true := by
  rw [pull]
  split
  · rename_i h
    simp [h]
  · rename_i h
    simp [h]

theorem closed_pull (s : Stream) :
    s.pull.2.closed = (s.closed || s.pull.1.toList.any (·.isTerminal)) := by
  rw [pull]
  cases h : s.closed with
  | true => simp [h]
  | false => simp

theorem closed_pullAll (s : Stream) :
    s.pullAll.2.closed = (s.closed || s.pullAll.1.any (·.isTerminal)) := by
  induction s using pullAll.induct with
  | case1 s h =>
    rw [pullAll, if_pos h]
    simp [h]
  | case2 s h hterminal =>
    rw [pullAll, if_neg h, dif_pos hterminal]
    simp [hterminal]
  | case3 s h hterminal ih =>
    rw [pullAll, if_neg h, dif_neg hterminal]
    rw [ih, next_closed, List.any_cons, Bool.eq_false_iff.2 hterminal, Bool.false_or]

theorem closed_drain (s : Stream) : s.drain.2.closed = s.closed := by
  induction s using drain.induct with
  | case1 s h => rw [drain, dif_pos h]
  | case2 s h hterminal => rw [drain, dif_neg h, if_pos hterminal, next_closed]
  | case3 s h hterminal ih =>
    rw [drain, dif_neg h, if_neg hterminal]
    exact ih.trans s.next_closed

theorem closed_answer (s : Stream) (call : Call) : (s.answer call).2.closed =
    (s.closed || call.isPull && (s.answer call).1.taken.any (·.isTerminal)) := by
  cases call with
  | next => simp [answer, Call.isPull]
  | pull => exact closed_pull s
  | pullAll => exact closed_pullAll s
  | drain => simp [answer, Call.isPull, closed_drain]
  | hasMore => simp [answer, Call.isPull]

theorem closed_run (s : Stream) (calls : List Call) : (s.run calls).2.closed =
    (s.closed || (s.run calls).1.any fun p => p.1.isPull && p.2.taken.any (·.isTerminal)) := by
  induction calls generalizing s with
  | nil => simp [run]
  | cons call calls ih => rw [run, ih, closed_answer, List.any_cons, Bool.or_assoc]

theorem drain_eq_nil_iff {s : Stream} : s.drain.1 = [] ↔ s.hasMore = false := by
  rw [drain, hasMore]
  split
  · rename_i h
    simp [h]
  · rename_i h
    split <;> simp [h]

theorem isTerminal_eq_true_iff {t : Token} :
    t.isTerminal = true ↔ t.kind = .error ∨ t.kind = .endOfFile := by
  rw [Token.isTerminal]
  cases t.kind <;> simp [Token.Kind.isTerminal]

/-- However its tokens are asked for, a fresh stream hands out those that are read one by one, until
a pull has met the last. -/
theorem run_takes_first (source : List Char) (calls : List Call) :
    let fresh := ofText source
    let log := (fresh.run calls).1
    let s := (fresh.run calls).2
    let tokens := log.flatMap (·.2.taken)
    tokens = fresh.first tokens.length ∧
      (s.pull.1 = none ↔ ∃ p ∈ log, p.1.isPull = true ∧
        ∃ t ∈ p.2.taken, t.kind = .error ∨ t.kind = .endOfFile) ∧
      (s.pull.1 = none → s.pull.2 = s) ∧
      (s.answer .hasMore).2 = s ∧
      (s.drain.1 = [] ↔ s.hasMore = false) := by
  refine ⟨(Takes.run (ofText source) calls).taken, ?_, ?_, rfl, drain_eq_nil_iff⟩
  · rw [pull_eq_none_iff, closed_run]
    simp [ofText, isTerminal_eq_true_iff]
  · intro h
    rw [pull, if_pos (pull_eq_none_iff.1 h)]

end Codebook.Stream
