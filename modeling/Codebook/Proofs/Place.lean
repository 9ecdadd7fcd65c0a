import Codebook.Proofs.Buffer
import Codebook.Proofs.Exhaustion

namespace Codebook

namespace Buffer

section Progress

variable {b b' : Buffer} {t : Token}

theorem hasMore_eq_true_iff : b.hasMore = true ↔ b.position < b.text.length :=
  decide_eq_true_iff

theorem length_unread (b : Buffer) : b.stream.unread.length = b.text.length - b.position :=
  List.length_drop

theorem hasMore_stream (b : Buffer) : b.stream.hasMore = b.hasMore := by
  rw [Bool.eq_iff_iff, hasMore_eq_true_iff, Stream.hasMore, Bool.not_eq_true',
    List.isEmpty_eq_false_iff, ← List.length_pos_iff, length_unread]
  omega

theorem next?_of_not_hasMore (h : b.hasMore = false) :
    b.next? = some (.endOfFile b.line, { b with mark := b.position }) := by
  have hend : b.text.length ≤ b.position := by simpa [hasMore] using h
  have hpeek : b.peek? = none := List.getElem?_eq_none hend
  have hmark : b.markToken = { b with mark := b.position } := by
    rw [markToken, advanceWhile_of_not_any (by rw [hpeek]; simp)]
  rw [next?, hmark]
  simp only [show peek? { b with mark := b.position } = none from hpeek]

theorem remaining_next?_lt (hmore : b.hasMore = true) (h : b.next? = some (t, b')) :
    b'.text.length - b'.position < b.text.length - b.position := by
  have hlt := hasMore_eq_true_iff.1 hmore
  obtain ⟨b'', hnext, hstream, -⟩ := agrees_next (Nat.le_of_lt hlt)
  rw [h] at hnext
  cases hnext
  rw [← length_unread, ← length_unread, hstream]
  apply Stream.next_length_lt
  rw [← List.length_pos_iff, length_unread]
  exact Nat.sub_pos_of_lt hlt

theorem remaining_next?_lt_of_not_terminal (ht : t.isTerminal = false)
    (h : b.next? = some (t, b')) :
    b'.text.length - b'.position < b.text.length - b.position := by
  cases hmore : b.hasMore with
  | true => exact remaining_next?_lt hmore h
  | false =>
    rw [next?_of_not_hasMore hmore] at h
    cases h
    cases ht

end Progress

def drain? (b : Buffer) : Option (List Token × Buffer) :=
  if _h : b.hasMore = true then
    match _hnext : b.next? with
    | none => none
    | some (t, b') =>
      if t.isTerminal then some ([t], b')
      else b'.drain?.map fun p => (t :: p.1, p.2)
  else some ([], b)
termination_by b.text.length - b.position
decreasing_by exact remaining_next?_lt ‹_› ‹_›

def pull? (b : Buffer) : Option (Option Token × Buffer) :=
  if b.closed then some (none, b)
  else b.next?.map fun p => (some p.1, { p.2 with closed := p.1.isTerminal })

def pullAll? (b : Buffer) : Option (List Token × Buffer) :=
  if b.closed then some ([], b)
  else
    match _hnext : b.next? with
    | none => none
    | some (t, b') =>
      if _h : t.isTerminal then some ([t], { b' with closed := true })
      else b'.pullAll?.map fun p => (t :: p.1, p.2)
termination_by b.text.length - b.position
decreasing_by exact remaining_next?_lt_of_not_terminal (Bool.eq_false_iff.2 ‹_›) ‹_›

def answer? (b : Buffer) : Stream.Call → Option (Stream.Answer × Buffer)
  | .next => b.next?.map fun p => (.token p.1, p.2)
  | .pull => b.pull?.map fun p => (.pulled p.1, p.2)
  | .pullAll => b.pullAll?.map fun p => (.tokens p.1, p.2)
  | .drain => b.drain?.map fun p => (.tokens p.1, p.2)
  | .hasMore => some (.more b.hasMore, b)

/-- Calls made one after the other, each with its answer, and the buffer that they leave. -/
def run? (b : Buffer) : List Stream.Call → Option (List (Stream.Call × Stream.Answer) × Buffer)
  | [] => some ([], b)
  | call :: calls => do
    let (answer, b') ← b.answer? call
    let (log, b'') ← b'.run? calls
    return ((call, answer) :: log, b'')

section Loops

variable {b b' : Buffer} {t : Token}

theorem drain?_of_not_hasMore (h : b.hasMore = false) : b.drain? = some ([], b) := by
  rw [drain?, dif_neg (by simp [h])]

theorem drain?_of_hasMore (h : b.hasMore = true) (hnext : b.next? = some (t, b')) :
    b.drain? =
      if t.isTerminal then some ([t], b') else b'.drain?.map fun p => (t :: p.1, p.2) := by
  rw [drain?, dif_pos h]
  split
  · rename_i hnone
    rw [hnext] at hnone
    cases hnone
  · rename_i hsome
    rw [hnext] at hsome
    cases hsome
    rfl

theorem pull?_of_closed (h : b.closed = true) : b.pull? = some (none, b) := by
  rw [pull?, if_pos h]

theorem pull?_of_open (h : b.closed = false) : b.pull? =
    b.next?.map fun p => (some p.1, { p.2 with closed := p.1.isTerminal }) := by
  rw [pull?, if_neg (by simp [h])]

theorem pullAll?_of_closed (h : b.closed = true) : b.pullAll? = some ([], b) := by
  rw [pullAll?, if_pos h]

theorem pullAll?_of_open (h : b.closed = false) (hnext : b.next? = some (t, b')) :
    b.pullAll? =
      if t.isTerminal then some ([t], { b' with closed := true })
      else b'.pullAll?.map fun p => (t :: p.1, p.2) := by
  rw [pullAll?, if_neg (by simp [h])]
  split
  · rename_i hnone
    rw [hnext] at hnone
    cases hnone
  · rename_i hsome
    rw [hnext] at hsome
    cases hsome
    rfl

end Loops

section Agrees

variable {b : Buffer}

theorem Agrees.map {α β : Type} {text : List Char} {result : Option (α × Buffer)}
    {p : α × Stream} (h : Agrees text result p) (f : α → β) :
    Agrees text (result.map fun q => (f q.1, q.2)) (f p.1, p.2) := by
  obtain ⟨b', rfl, hb'⟩ := h
  exact ⟨b', rfl, hb'⟩

theorem unread_ne_nil (h : b.hasMore = true) : b.stream.unread ≠ [] := by
  rw [← List.length_pos_iff, length_unread]
  exact Nat.sub_pos_of_lt (hasMore_eq_true_iff.1 h)

theorem unread_eq_nil (h : b.hasMore = false) : b.stream.unread = [] := by
  rw [← hasMore_stream, Stream.hasMore, Bool.not_eq_false'] at h
  exact List.isEmpty_iff.1 h

theorem agrees_drain (h : b.IsWithin) : Agrees b.text b.drain? b.stream.drain := by
  induction hlength : b.text.length - b.position using Nat.strongRecOn generalizing b with
  | ind n ih =>
    subst hlength
    cases hmore : b.hasMore with
    | false =>
      rw [drain?_of_not_hasMore hmore, Stream.drain, dif_pos (unread_eq_nil hmore)]
      exact ⟨b, rfl, rfl, rfl, h⟩
    | true =>
      obtain ⟨b', hnext, hstream, htext, hwithin⟩ := agrees_next h.position_le
      rw [drain?_of_hasMore hmore hnext, Stream.drain, dif_neg (unread_ne_nil hmore)]
      split
      · exact ⟨b', rfl, hstream, htext, hwithin⟩
      · have hrest := ih _ (remaining_next?_lt hmore hnext) hwithin rfl
        rw [hstream, htext] at hrest
        exact hrest.map fun ts => b.stream.next.1 :: ts

theorem agrees_pull (h : b.IsWithin) : Agrees b.text b.pull? b.stream.pull := by
  cases hclosed : b.closed with
  | true =>
    rw [pull?_of_closed hclosed, Stream.pull_of_closed hclosed]
    exact ⟨b, rfl, rfl, rfl, h⟩
  | false =>
    obtain ⟨b', hnext, hstream, htext, hwithin⟩ := agrees_next h.position_le
    rw [pull?_of_open hclosed, hnext, Stream.pull_of_open hclosed, ← hstream]
    exact ⟨_, rfl, rfl, htext, hwithin.mark_le, hwithin.position_le⟩

theorem agrees_pullAll (h : b.IsWithin) : Agrees b.text b.pullAll? b.stream.pullAll := by
  induction hlength : b.text.length - b.position using Nat.strongRecOn generalizing b with
  | ind n ih =>
    subst hlength
    cases hclosed : b.closed with
    | true =>
      rw [pullAll?_of_closed hclosed, Stream.pullAll_of_closed hclosed]
      exact ⟨b, rfl, rfl, rfl, h⟩
    | false =>
      obtain ⟨b', hnext, hstream, htext, hwithin⟩ := agrees_next h.position_le
      rw [pullAll?_of_open hclosed hnext]
      cases ht : b.stream.next.1.isTerminal with
      | true =>
        rw [Stream.pullAll_of_terminal hclosed ht, ← hstream]
        exact ⟨_, rfl, rfl, htext, hwithin.mark_le, hwithin.position_le⟩
      | false =>
        have hrest := ih _ (remaining_next?_lt_of_not_terminal ht hnext) hwithin rfl
        rw [hstream, htext] at hrest
        rw [Stream.pullAll_of_not_terminal hclosed ht]
        exact hrest.map fun ts => b.stream.next.1 :: ts

/-- Whatever the call, a buffer answers as the stream of what is left does. -/
theorem agrees_answer (h : b.IsWithin) (call : Stream.Call) :
    Agrees b.text (b.answer? call) (b.stream.answer call) := by
  cases call with
  | next => exact (agrees_next h.position_le).map Stream.Answer.token
  | pull => exact (agrees_pull h).map Stream.Answer.pulled
  | pullAll => exact (agrees_pullAll h).map Stream.Answer.tokens
  | drain => exact (agrees_drain h).map Stream.Answer.tokens
  | hasMore =>
    rw [answer?, ← hasMore_stream]
    exact ⟨b, rfl, rfl, rfl, h⟩

theorem agrees_run (h : b.IsWithin) (calls : List Stream.Call) :
    Agrees b.text (b.run? calls) (b.stream.run calls) := by
  induction calls generalizing b with
  | nil => exact ⟨b, rfl, rfl, rfl, h⟩
  | cons call calls ih =>
    obtain ⟨b', hanswer, hstream, htext, hwithin⟩ := agrees_answer h call
    have hrest := ih hwithin
    rw [hstream, htext] at hrest
    rw [run?, hanswer, Stream.run]
    obtain ⟨b'', hrun, hb''⟩ := hrest
    refine ⟨b'', ?_, hb''⟩
    simp only [Option.bind_eq_bind, Option.bind_some, hrun]
    rfl

end Agrees

end Buffer

namespace Stream

variable {s : Stream}

theorem next_length_le (s : Stream) : s.next.2.unread.length ≤ s.unread.length := by
  have hskip := s.skipBlanks_length_le
  have hread := s.skipBlanks.read_length_le
  unfold next
  omega

theorem length_unread_behind_le (s : Stream) (n : Nat) :
    (s.behind n).unread.length ≤ s.unread.length := by
  induction n generalizing s with
  | zero => exact Nat.le_refl _
  | succ n ih => exact Nat.le_trans (ih s.next.2) s.next_length_le

theorem length_unread_answer_le (s : Stream) (call : Call) :
    (s.answer call).2.unread.length ≤ s.unread.length := by
  rw [(Takes.answer s call).left]
  exact length_unread_behind_le s _

theorem lastLine_answer (s : Stream) (call : Call) : (s.answer call).2.lastLine = s.lastLine := by
  rw [(Takes.answer s call).left]
  exact lastLine_behind s _

theorem length_drain_le (s : Stream) : s.drain.1.length ≤ s.unread.length := by
  induction s using drain.induct with
  | case1 s h =>
    rw [drain, dif_pos h]
    exact Nat.zero_le _
  | case2 s h ht =>
    rw [drain, dif_neg h, if_pos ht]
    exact List.length_pos_iff.2 h
  | case3 s h ht ih =>
    rw [drain, dif_neg h, if_neg ht]
    exact Nat.lt_of_le_of_lt ih (next_length_lt h)

section End

variable (h : s.unread = [])

include h

theorem behind_of_unread_nil (n : Nat) : s.behind n = s := by
  induction n with
  | zero => rfl
  | succ n ih =>
    rw [behind, next_of_unread_nil h]
    exact ih

theorem eq_of_mem_first_of_unread_nil {n : Nat} {t : Token} (ht : t ∈ s.first n) :
    t = .endOfFile s.lastLine := by
  induction n with
  | zero => cases ht
  | succ n ih =>
    rw [first, next_of_unread_nil h] at ht
    rcases List.mem_cons.1 ht with rfl | ht
    · rfl
    · exact ih ht

theorem answer_of_unread_nil (call : Call) :
    (s.answer call).2.unread = s.unread ∧ (s.answer call).2.line = s.line ∧
      ∀ t ∈ (s.answer call).1.taken, t = .endOfFile s.lastLine := by
  have htakes := Takes.answer s call
  refine ⟨?_, ?_, fun t ht => ?_⟩
  · rw [htakes.left, behind_of_unread_nil h]
  · rw [htakes.left, behind_of_unread_nil h]
  · rw [htakes.taken] at ht
    exact eq_of_mem_first_of_unread_nil h ht

end End

end Stream

namespace Buffer

/-- What holds of a buffer over a source text at all times. -/
structure Keeps (b : Buffer) (source : List Char) : Prop where
  text : b.text = source
  mark_le : b.mark ≤ b.position
  position_le : b.position ≤ source.length
  line : b.line = 1 + (source.take b.position).count '\n'

/-- The buffers that are met while characters of some sort are passed. -/
inductive Meets (p : Char → Bool) : Buffer → Buffer → Prop where
  | here {b : Buffer} : Meets p b b
  | further {b b' : Buffer} : b.peek?.any p = true → Meets p b.advance b' → Meets p b b'

theorem meets_advanceWhile (p : Char → Bool) (b : Buffer) : Meets p b (b.advanceWhile p) := by
  induction b using advanceWhile.induct p with
  | case1 b h ih =>
    rw [advanceWhile_of_any h]
    exact .further h ih
  | case2 b h =>
    rw [advanceWhile_of_not_any h]
    exact .here

theorem Spans.of_meets {p : Char → Bool} {b d : Buffer} {line : Nat} {since rest : List Char}
    (h : Spans b line since rest) (hmeets : Meets p b d) :
    d.text = b.text ∧ ∃ passed rest', Spans d line (since ++ passed) rest' := by
  induction hmeets generalizing since rest with
  | here => exact ⟨rfl, [], rest, by rwa [List.append_nil]⟩
  | @further b d hany _ ih =>
    rw [h.peek?_eq] at hany
    cases rest with
    | nil => cases hany
    | cons c rest =>
      obtain ⟨htext, passed, rest', hspans⟩ := ih h.advance
      rw [List.append_assoc] at hspans
      exact ⟨htext.trans (text_advance b), [c] ++ passed, rest', hspans⟩

/-- While the quote is looked for that ends a string, the place is behind the quote that starts it
and in the text. -/
theorem within_of_meets_string {b d : Buffer} (h : b.position ≤ b.text.length)
    (hquote : b.markToken.peek? = some quote)
    (hmeets : Meets (· != quote) b.markToken.advance d) :
    d.mark + 1 ≤ d.position ∧ d.position ≤ b.text.length := by
  have hmark := spans_markToken h
  rw [hmark.peek?_eq] at hquote
  cases hunread : b.stream.skipBlanks.unread with
  | nil =>
    rw [hunread] at hquote
    cases hquote
  | cons c cs =>
    rw [hunread] at hmark
    obtain ⟨htext, passed, rest, hspans⟩ := hmark.advance.of_meets hmeets
    have hposition := hspans.position
    have hle := hspans.position_le
    rw [htext, text_advance, text_markToken] at hle
    simp only [List.nil_append, List.length_append, List.length_singleton] at hposition
    omega

theorem keeps_of_lastLine {b : Buffer} {source : List Char} (htext : b.text = source)
    (hwithin : b.IsWithin) (hline : b.stream.lastLine = lineBehind source) : b.Keeps source where
  text := htext
  mark_le := hwithin.mark_le
  position_le := htext ▸ hwithin.position_le
  line := by
    have hsplit := congrArg (List.count '\n') (List.take_append_drop b.position source)
    rw [List.count_append] at hsplit
    have hline : b.line + (b.text.drop b.position).count '\n' = 1 + source.count '\n' := hline
    rw [htext] at hline
    omega

section Reached

variable {b : Buffer} (h : b.IsWithin)

include h

theorem position_of_length_unread {b' : Buffer} (htext : b'.text = b.text) (h' : b'.IsWithin)
    (hle : b'.stream.unread.length ≤ b.stream.unread.length) : b.position ≤ b'.position := by
  rw [length_unread, length_unread, htext] at hle
  have hposition := h.position_le
  have hposition' := h'.position_le
  rw [htext] at hposition'
  omega

theorem exists_answer? (call : Stream.Call) :
    ∃ answer b', b.answer? call = some (answer, b') ∧ b'.IsWithin ∧ b'.text = b.text ∧
      b'.stream.lastLine = b.stream.lastLine ∧ b.position ≤ b'.position := by
  obtain ⟨b', hanswer, hstream, htext, hwithin⟩ := agrees_answer h call
  refine ⟨_, b', hanswer, hwithin, htext, ?_, position_of_length_unread h htext hwithin ?_⟩
  · rw [hstream, Stream.lastLine_answer]
  · rw [hstream]
    exact Stream.length_unread_answer_le b.stream call

theorem exists_next?_lt (hmore : b.hasMore = true) :
    ∃ t b', b.next? = some (t, b') ∧ b.position < b'.position := by
  obtain ⟨b', hnext, hstream, htext, hwithin⟩ := agrees_next h.position_le
  have hlt := remaining_next?_lt hmore hnext
  rw [htext] at hlt
  exact ⟨_, b', hnext, by omega⟩

theorem exists_drain?_le :
    ∃ ts b', b.drain? = some (ts, b') ∧ ts.length ≤ b.text.length - b.position := by
  obtain ⟨b', hdrain, -⟩ := agrees_drain h
  refine ⟨_, b', hdrain, ?_⟩
  rw [← length_unread]
  exact Stream.length_drain_le b.stream

theorem answer?_of_not_hasMore (hmore : b.hasMore = false) {call : Stream.Call}
    {answer : Stream.Answer} {b' : Buffer} (hanswer : b.answer? call = some (answer, b')) :
    b'.position = b.position ∧ b'.line = b.line ∧
      ∀ t ∈ answer.taken, t = .endOfFile b.stream.lastLine := by
  obtain ⟨b'', hanswer', hstream, htext, hwithin⟩ := agrees_answer h call
  rw [hanswer] at hanswer'
  cases hanswer'
  obtain ⟨hunread, hline, htaken⟩ := Stream.answer_of_unread_nil (unread_eq_nil hmore) call
  rw [← hstream] at hunread hline
  refine ⟨Nat.le_antisymm ?_ ?_, hline, htaken⟩
  · exact position_of_length_unread hwithin htext.symm h (by rw [hunread])
  · exact position_of_length_unread h htext hwithin (by rw [hunread])

end Reached

theorem isWithin_ofText (source : List Char) : (ofText source).IsWithin :=
  ⟨Nat.le_refl _, Nat.zero_le _⟩

/-- Whatever the calls, a buffer stays within its text and answers as a stream does. -/
theorem calls_stay_within (source : List Char) (calls : List Stream.Call) :
    let log := ((Stream.ofText source).run calls).1
    let s := ((Stream.ofText source).run calls).2
    ∃ b, (ofText source).run? calls = some (log, b) ∧ b.stream = s ∧ b.Keeps source ∧
      (∀ call, ∃ answer b', b.answer? call = some (answer, b') ∧ b'.Keeps source ∧
        b.position ≤ b'.position) ∧
      (b.hasMore = true → ∃ t b', b.next? = some (t, b') ∧ b.position < b'.position) ∧
      (∃ ts b', b.drain? = some (ts, b') ∧ ts.length ≤ source.length - b.position) ∧
      (b.hasMore = false →
        b.next? = some (.endOfFile (lineBehind source), { b with mark := b.position }) ∧
          ∀ call answer b', b.answer? call = some (answer, b') →
            b'.position = b.position ∧ b'.line = b.line ∧
              ∀ t ∈ answer.taken, t = .endOfFile (lineBehind source)) ∧
      (b.markToken.peek? = some quote →
        let opened := b.markToken.advance
        Meets (· != quote) opened (opened.advanceWhile (· != quote)) ∧
          ∀ d, Meets (· != quote) opened d →
            d.mark + 1 ≤ d.position ∧ d.position ≤ source.length) := by
  intro log s
  obtain ⟨b, hrun, hstream, rfl, hwithin⟩ := agrees_run (isWithin_ofText source) calls
  have hline : b.stream.lastLine = lineBehind b.text := by
    rw [hstream]
    exact Stream.lastLine_run (Stream.ofText b.text) calls
  refine ⟨b, hrun, hstream, keeps_of_lastLine rfl hwithin hline, fun call => ?_,
    exists_next?_lt hwithin, exists_drain?_le hwithin, fun hmore => ⟨?_, fun call answer b' => ?_⟩,
    fun hquote => ⟨meets_advanceWhile _ _,
      fun d => within_of_meets_string hwithin.position_le hquote⟩⟩
  · obtain ⟨answer, b', hanswer, hwithin', htext, hline', hle⟩ := exists_answer? hwithin call
    exact ⟨answer, b', hanswer, keeps_of_lastLine htext hwithin' (hline'.trans hline), hle⟩
  · have hend : b.stream.lastLine = b.line := by
      rw [Stream.lastLine, unread_eq_nil hmore]
      rfl
    rw [next?_of_not_hasMore hmore, ← hline, hend]
  · intro hanswer
    rw [← hline]
    exact answer?_of_not_hasMore hwithin hmore hanswer

end Buffer

end Codebook
