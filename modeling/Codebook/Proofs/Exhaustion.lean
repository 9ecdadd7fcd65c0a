import Codebook.Proofs.Consumption
import Codebook.Proofs.Seam

namespace Codebook

namespace Stream

/-- Tokens that are pulled one after the other until there is none, and the stream that is left. -/
inductive PullsDry : Stream → List Token → Stream → Prop where
  | none {s s' : Stream} : s.pull = (none, s') → PullsDry s [] s'
  | some {s s' s'' : Stream} {t : Token} {ts : List Token} :
      s.pull = (some t, s') → PullsDry s' ts s'' → PullsDry s (t :: ts) s''

/-- The line on which the text of a stream ends. -/
def lastLine (s : Stream) : Nat :=
  s.line + s.unread.count '\n'

section LastLine

theorem lastLine_skipBlanks (s : Stream) : s.skipBlanks.lastLine = s.lastLine := by
  have hsplit := List.takeWhile_append_dropWhile (p := isBlank) (l := s.unread)
  have hcount := congrArg (List.count '\n') hsplit
  rw [List.count_append] at hcount
  rw [lastLine, lastLine, ← hcount, skipBlanks, Nat.add_assoc]

theorem lastLine_read (s : Stream) : s.read.2.lastLine = s.lastLine := by
  unfold read
  split
  · rfl
  · rename_i c cs h
    have hcount := congrArg (List.count '\n') (Piece.text_split c cs)
    rw [List.count_append] at hcount
    rw [lastLine, lastLine, h, ← hcount, Nat.add_assoc]

theorem lastLine_next (s : Stream) : s.next.2.lastLine = s.lastLine := by
  rw [next, lastLine_read, lastLine_skipBlanks]

theorem lastLine_behind (s : Stream) (n : Nat) : (s.behind n).lastLine = s.lastLine := by
  induction n generalizing s with
  | zero => rfl
  | succ n ih => rw [behind, ih, lastLine_next]

theorem lastLine_run (s : Stream) (calls : List Call) :
    (s.run calls).2.lastLine = s.lastLine := by
  have hleft := (Takes.run s calls).left
  rw [hleft]
  exact lastLine_behind s _

end LastLine

section Pull

variable {s s' : Stream}

theorem pull_of_closed (h : s.closed = true) : s.pull = (none, s) := by
  rw [pull, if_pos h]

theorem pull_of_open (h : s.closed = false) :
    s.pull = (some s.next.1, { s.next.2 with closed := s.next.1.isTerminal }) := by
  rw [pull, if_neg (by simp [h])]

theorem pullAll_of_closed (h : s.closed = true) : s.pullAll = ([], s) := by
  rw [pullAll, if_pos h]

theorem pullAll_of_terminal (h : s.closed = false) (ht : s.next.1.isTerminal = true) :
    s.pullAll = ([s.next.1], { s.next.2 with closed := true }) := by
  rw [pullAll, if_neg (by simp [h]), dif_pos ht]

theorem pullAll_of_not_terminal (h : s.closed = false) (ht : s.next.1.isTerminal = false) :
    s.pullAll = (s.next.1 :: s.next.2.pullAll.1, s.next.2.pullAll.2) := by
  rw [pullAll, if_neg (by simp [h]), dif_neg (by simp [ht])]

theorem pullAll_of_pull_none (h : s.pull = (none, s')) : s.pullAll = ([], s') := by
  cases hclosed : s.closed with
  | true =>
    rw [pull_of_closed hclosed] at h
    cases h
    exact pullAll_of_closed hclosed
  | false =>
    rw [pull_of_open hclosed] at h
    cases h

theorem pullAll_of_pull_some {t : Token} (h : s.pull = (some t, s')) :
    s.pullAll = (t :: s'.pullAll.1, s'.pullAll.2) := by
  cases hclosed : s.closed with
  | true =>
    rw [pull_of_closed hclosed] at h
    cases h
  | false =>
    rw [pull_of_open hclosed] at h
    cases h
    cases ht : s.next.1.isTerminal with
    | true => rw [pullAll_of_terminal hclosed ht, pullAll_of_closed rfl]
    | false =>
      have hopen : { s.next.2 with closed := false } = s.next.2 := by
        rw [← hclosed, ← s.next_closed]
      rw [pullAll_of_not_terminal hclosed ht, hopen]

theorem pullsDry_of_closed (h : s.closed = true) : s.PullsDry [] s :=
  .none (pull_of_closed h)

theorem pullsDry_pullAll (s : Stream) : s.PullsDry s.pullAll.1 s.pullAll.2 := by
  induction s using pullAll.induct with
  | case1 s h =>
    rw [pullAll_of_closed h]
    exact pullsDry_of_closed h
  | case2 s h ht =>
    have hopen := Bool.eq_false_iff.2 h
    rw [pullAll_of_terminal hopen ht]
    exact .some (pull_of_open hopen) (by rw [ht]; exact pullsDry_of_closed rfl)
  | case3 s h ht ih =>
    have hopen := Bool.eq_false_iff.2 h
    have hterminal := Bool.eq_false_iff.2 ht
    have hpull := pull_of_open hopen
    rw [hterminal, ← hopen, ← s.next_closed] at hpull
    rw [pullAll_of_not_terminal hopen hterminal]
    exact .some hpull ih

/-- Pulling all tokens is pulling one after the other until there is none. -/
theorem pullsDry_iff {ts : List Token} : s.PullsDry ts s' ↔ s.pullAll = (ts, s') := by
  apply Iff.intro
  · intro h
    induction h with
    | none hpull => exact pullAll_of_pull_none hpull
    | some hpull _ ih => rw [pullAll_of_pull_some hpull, ih]
  · intro h
    have hdry := pullsDry_pullAll s
    rw [h] at hdry
    exact hdry

theorem exists_pullsDry_iff {ts : List Token} :
    (∃ s', s.PullsDry ts s') ↔ ts = s.pullAll.1 := by
  apply Iff.intro
  · intro ⟨s', h⟩
    rw [pullsDry_iff.1 h]
  · rintro rfl
    exact ⟨_, pullsDry_pullAll s⟩

theorem closed_run_of_not_pull {calls : List Call} (h : ∀ call ∈ calls, call.isPull = false)
    (s : Stream) : (s.run calls).2.closed = s.closed := by
  induction calls generalizing s with
  | nil => rfl
  | cons call calls ih =>
    obtain ⟨hcall, hcalls⟩ := List.forall_mem_cons.1 h
    rw [run, ih hcalls, closed_answer, hcall, Bool.false_and, Bool.or_false]

end Pull

theorem next_of_unread_nil {s : Stream} (h : s.unread = []) :
    s.next = (.endOfFile s.lastLine, s) := by
  obtain ⟨unread, line, closed⟩ := s
  cases h
  rfl

/-- An open stream that runs dry gives what is drained, closed by an error or the end of the
file. -/
theorem pullAll_eq_drain {s : Stream} (h : s.closed = false) : s.pullAll.1 =
    if s.drain.1.getLast?.any (·.isTerminal) then s.drain.1
    else s.drain.1 ++ [.endOfFile s.lastLine] := by
  induction s using drain.induct with
  | case1 s hs =>
    have hnext := next_of_unread_nil hs
    rw [pullAll_of_terminal h (by rw [hnext]; rfl), drain, dif_pos hs, hnext]
    rfl
  | case2 s hs ht =>
    have hlast : [s.next.1].getLast?.any (·.isTerminal) = true := ht
    rw [pullAll_of_terminal h ht, drain, dif_neg hs, if_pos ht, if_pos hlast]
  | case3 s hs ht ih =>
    have hterminal := Bool.eq_false_iff.2 ht
    have hrest := ih (by rw [next_closed, h])
    have hnext : s.next = (s.next.1, s.next.2) := rfl
    rw [pullAll_of_not_terminal h hterminal, drain_of_not_terminal hs hnext hterminal, hrest,
      lastLine_next]
    cases s.next.2.drain.1 with
    | nil => simp [hterminal]
    | cons u us =>
      rw [List.getLast?_cons_cons]
      split <;> rfl

end Stream

theorem Token.Kind.Spells.getLast_not_mem_blanks {kind : Token.Kind} {lexeme text : List Char}
    (h : kind.Spells lexeme text) : ∀ c ∈ text.getLast?, c ∉ blanks := by
  intro c hc hblank
  cases h with
  | keyword word =>
    have hword := (isWord_text word).continuesWord c (List.mem_of_getLast? hc)
    rw [show continuesWord c = false from extendedBy_of_mem_blanks hblank (.keyword word)] at hword
    cases hword
  | integer _ hdigits =>
    have hdigit := hdigits c (List.mem_of_getLast? hc)
    rw [show c.isDigit = false from extendedBy_of_mem_blanks hblank .integer] at hdigit
    cases hdigit
  | @string body =>
    rw [← List.cons_append, List.getLast?_concat] at hc
    cases hc
    exact absurd hblank (by decide)
  | colon =>
    cases hc
    exact absurd hblank (by decide)
  | semicolon =>
    cases hc
    exact absurd hblank (by decide)

namespace Tiles

variable {before rest : List Char} {tiles : List Tile} {tokens : List Token}

theorem chars_ne_nil (h : Tiles before tiles rest tokens) (hne : tokens ≠ []) :
    tiles.flatMap Tile.chars ≠ [] := by
  obtain ⟨a, tokens, rfl⟩ := List.exists_cons_of_ne_nil hne
  obtain ⟨t, tail, rfl⟩ := h.exists_tile
  rw [List.flatMap_cons]
  exact List.append_ne_nil_of_left_ne_nil (h.next false).1 _

theorem getLast_endOfFile_iff (h : Tiles before tiles rest tokens) :
    (∃ a ∈ tokens.getLast?, a.kind = .endOfFile) ↔
      (∀ a ∈ tokens, a.kind ≠ .error) ∧
        ∃ c ∈ (tiles.flatMap Tile.chars ++ rest).getLast?, c ∈ blanks := by
  induction h with
  | nil => simp
  | @endOfFile _ t hgap htext =>
    have hchars : [t].flatMap Tile.chars ++ [] = t.gap := by simp [Tile.chars, htext]
    rw [hchars, List.getLast?_eq_some_getLast hgap]
    have hblank := t.gap_blank _ (List.getLast_mem hgap)
    simp [Token.endOfFile, hblank]
  | error => simp
  | @token _ rest lexeme t tiles kind tokens hs hafter htiles ih =>
    have hkind := hs.isTerminal
    rw [List.flatMap_cons, List.append_assoc]
    cases tokens with
    | nil =>
      cases htiles
      have hblank := hs.getLast_not_mem_blanks
      rw [← List.getLast?_append_of_ne_nil t.gap hs.ne_nil] at hblank
      simpa [Tile.chars, Token.Kind.ne_endOfFile hkind] using fun _ => hblank
    | cons a tokens =>
      have hne : tiles.flatMap Tile.chars ++ rest ≠ [] :=
        List.append_ne_nil_of_left_ne_nil (htiles.chars_ne_nil (List.cons_ne_nil a tokens)) rest
      rw [List.getLast?_cons_cons, ih, List.getLast?_append_of_ne_nil _ hne]
      have hproper {u : Token} (hu : u.kind ≠ .error) :
          (∀ b ∈ u :: a :: tokens, b.kind ≠ .error) ↔ ∀ b ∈ a :: tokens, b.kind ≠ .error := by
        rw [List.forall_mem_cons, and_iff_right hu]
      rw [hproper (Token.Kind.ne_error hkind)]

end Tiles

namespace Stream

/-- A stream that is pulled dry gives what would be drained, and the end of the file where that is
missing. -/
theorem pullsDry_iff_drained {calls : List Call} (h : ∀ call ∈ calls, call.isPull = false)
    (source : String) :
    let s := ((ofText source.toList).run calls).2
    (∀ ts, (∃ s', s.PullsDry ts s') ↔
      ts = if s.drain.1.getLast?.any (·.isTerminal) then s.drain.1
        else s.drain.1 ++ [.endOfFile (lineBehind source.toList)]) ∧
      ((∃ t ∈ (tokenize source).getLast?, t.kind = .endOfFile) ↔
        (∀ t ∈ tokenize source, t.kind ≠ .error) ∧ ∃ c ∈ source.toList.getLast?, c ∈ blanks) := by
  intro s
  have hopen : s.closed = false := closed_run_of_not_pull h (ofText source.toList)
  have hline : s.lastLine = lineBehind source.toList := lastLine_run (ofText source.toList) calls
  apply And.intro
  · intro ts
    rw [← hline, ← pullAll_eq_drain hopen]
    exact exists_pullsDry_iff
  · obtain ⟨tiles, rest, hs, htiles⟩ := tiles_tokenize source
    rw [hs]
    exact htiles.getLast_endOfFile_iff

/-- A number has been read, and behind the next word the text ends without a blank. -/
theorem pullsDry_iff_drained_in_the_middle :
    (∀ call ∈ [Call.next, .hasMore], call.isPull = false) ∧
      let s := ((ofText "12\nid".toList).run [.next, .hasMore]).2
      ∃ s', s.PullsDry [⟨.keyword .id, "id", 2⟩, .endOfFile 2] s' := by
  have hcalls : ∀ call ∈ [Call.next, .hasMore], call.isPull = false := by decide
  refine ⟨hcalls, ((pullsDry_iff_drained hcalls "12\nid").1 _).2 ?_⟩
  decide +kernel

end Stream

end Codebook
