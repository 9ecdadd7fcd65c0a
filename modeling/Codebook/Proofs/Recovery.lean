import Codebook.Proofs.Block

namespace Codebook

namespace Cursor

open Declaration

variable {c : Cursor} {ts rest : List Token}

theorem recover_of_append (h : c.ahead = ts ++ rest) (hts : ∀ t ∈ ts, isSkipped t = true)
    (hrest : ∀ t ∈ rest.head?, isSkipped t = false) : c.recover = c.skip ts.length := by
  have hnone : rest.takeWhile isSkipped = [] := by
    cases rest with
    | nil => rfl
    | cons t rest => exact List.takeWhile_cons_of_neg (by simp [hrest t rfl])
  rw [recover_eq_skip, h, List.takeWhile_append_of_pos hts, hnone, List.append_nil]

theorem peek_skip_tokens {b : Block} (h : c.ahead = b.tokens ++ rest) :
    (c.skip b.tokens.length).peek = rest.head?.getD b.last := by
  have hahead : (c.skip b.tokens.length).ahead = rest := by
    rw [ahead_skip, h, List.drop_left]
  cases rest with
  | cons t rest => exact peek_of_ahead hahead
  | nil =>
    have hpassed : (c.skip b.tokens.length).passed = b.tokens.reverse ++ c.passed := by
      simp [skip, h]
    have hlast : b.tokens.reverse.head? = some b.last := by
      rw [List.head?_reverse, Block.tokens, List.getLast?_cons, Block.last]
    have hhead : ((c.skip b.tokens.length).ahead ++ (c.skip b.tokens.length).passed).head? =
        some b.last := by
      rw [hahead, hpassed, List.nil_append, List.head?_append, hlast]
      rfl
    exact (List.head_eq_iff_head?_eq_some _).2 hhead

theorem findSome?_failure? {steps : List Step} {n : Nat} (h : c.ahead = ts ++ rest)
    (hn : n ≤ ts.length) (hstop : ∀ step ∈ steps, (c.skip ts.length).check step.kind = false) :
    ((steps.zipIdx n).findSome? fun p => p.1.failure? (c.skip p.2)).map Prod.fst =
      (steps.zipIdx n).findSome? fun p =>
        p.1.violation? (c.skip ts.length).peek ts p.2 := by
  induction steps generalizing n with
  | nil => rfl
  | cons step steps ih =>
    rw [List.zipIdx_cons, List.findSome?_cons, List.findSome?_cons]
    rcases Nat.lt_or_eq_of_le hn with hlt | rfl
    · have ha : (c.skip n).ahead = ts[n] :: (ts.drop (n + 1) ++ rest) := by
        rw [ahead_skip, h, List.drop_append_of_le_length hn, List.drop_eq_getElem_cons hlt,
          List.cons_append]
      have ih := ih hlt fun s hs => hstop s (List.mem_cons_of_mem _ hs)
      simp only [Step.violation?, List.getElem?_eq_getElem hlt, Step.failure?, peek_of_ahead ha]
      by_cases hk : ts[n].kind = step.kind
      · rw [if_pos (check_eq_true_iff.2 ⟨_, _, ha, hk⟩), if_pos hk]
        cases step.refusal? ts[n] with
        | none => exact ih
        | some r => rfl
      · rw [check_of_ahead ha, beq_false_of_ne hk, if_neg hk]
        rfl
    · simp only [Step.violation?, List.getElem?_eq_none (Nat.le_refl _), Step.failure?,
        hstop step (by simp)]
      rfl

theorem rejection?_declaration (c : Cursor) : Reading.rejection? c.declaration.1 =
    (Declaration.steps.zipIdx.findSome? fun p => p.1.failure? (c.skip p.2)).map Prod.fst := by
  cases hf : Declaration.steps.zipIdx.findSome? fun p => p.1.failure? (c.skip p.2) with
  | none =>
    cases hd : c.declaration with
    | mk outcome c' =>
      cases outcome with
      | error r =>
        rw [declaration_eq_error_iff, hf] at hd
        cases hd
      | ok e => rfl
  | some p =>
    obtain ⟨r, c'⟩ := p
    rw [declaration_eq_error_iff.2 hf]
    rfl

theorem firstViolation?_block {b : Block} (h : c.ahead = b.tokens ++ rest)
    (hrest : ∀ t ∈ rest.head?, isSkipped t = false) :
    firstViolation? (rest.head?.getD b.last) b.tokens = Reading.rejection? c.declaration.1 := by
  have hahead : (c.skip b.tokens.length).ahead = rest := by
    rw [ahead_skip, h, List.drop_left]
  have hstop : ∀ step ∈ Declaration.steps.tail,
      (c.skip b.tokens.length).check step.kind = false := by
    intro step hstep
    rw [check, hahead]
    cases rest with
    | nil => rfl
    | cons t rest =>
      apply beq_false_of_ne
      intro hk
      have hskip := isSkipped_of_kind (t := t) (hk ▸ List.mem_map_of_mem hstep)
      rw [hrest t rfl] at hskip
      cases hskip
  -- The first step takes the start of the block. The steps after it stop at the end of the block.
  have hfail := findSome?_failure? h (n := 1) (Nat.succ_le_succ (Nat.zero_le _)) hstop
  have hsteps : Declaration.steps.zipIdx =
      (Declaration.start, 0) :: Declaration.steps.tail.zipIdx 1 := rfl
  have hfirst : Declaration.start.failure? (c.skip 0) = none := by
    have hcheck : c.check Declaration.start.kind = true :=
      check_eq_true_iff.2 ⟨b.start, b.body ++ rest, h, b.start_kind⟩
    rw [skip_zero, Step.failure?, if_pos hcheck]
    rfl
  have hviolation : Declaration.start.violation? (c.skip b.tokens.length).peek b.tokens 0 = none :=
    if_pos b.start_kind
  rw [rejection?_declaration, firstViolation?_eq, ← peek_skip_tokens h, hsteps,
    List.findSome?_cons, List.findSome?_cons, hfirst, hviolation]
  exact hfail.symm

theorem declares_take_iff {b : Block} {e : Entry} (h : c.ahead = b.tokens ++ rest)
    (hrest : ∀ t ∈ rest.head?, isSkipped t = false) :
    Declares (c.ahead.take 13) e ↔ Declares (b.tokens.take 13) e := by
  by_cases hle : 13 ≤ b.tokens.length
  · rw [h, List.take_append_of_le_length hle]
  · apply Iff.intro
    · intro hd
      have hlen := hd.length
      have hkinds : (c.ahead.take 13).map (·.kind) <+: kinds :=
        ⟨[], by rw [hd.kinds, List.append_nil]⟩
      have hskip := isSkipped_of_mem_tail hkinds
      rw [h] at hlen hskip
      cases rest with
      | nil =>
        rw [List.append_nil, List.length_take] at hlen
        omega
      | cons t rest =>
        have hpos : 12 - b.body.length = 11 - b.body.length + 1 := by
          simp only [Block.tokens, List.length_cons] at hle
          omega
        have ht := hskip t (by
          rw [Block.tokens, List.cons_append, List.take_succ_cons, List.tail_cons,
            List.take_append, hpos, List.take_succ_cons]
          simp)
        rw [hrest t rfl] at ht
        cases ht
    · intro hd
      have hlen := hd.length
      rw [List.length_take] at hlen
      omega

theorem declared?_block {b : Block} (h : c.ahead = b.tokens ++ rest)
    (hrest : ∀ t ∈ rest.head?, isSkipped t = false) :
    declared? (b.tokens.take 13) = c.declaration.1.toOption := by
  have hiff (e : Entry) : c.declaration = (.ok e, c.skip 13) ↔
      declared? (b.tokens.take 13) = some e := by
    rw [declaration_eq_ok_iff, declares_take_iff h hrest, declared?_eq_some_iff]
    simp
  cases hd : c.declaration with
  | mk outcome c' =>
    cases outcome with
    | ok e =>
      obtain ⟨-, rfl⟩ := declaration_eq_ok_iff.1 hd
      exact (hiff e).1 hd
    | error r =>
      apply Option.eq_none_iff_forall_ne_some.2
      intro e he
      rw [(hiff e).2 he] at hd
      cases hd

theorem outcomes_attempts_misplaced (h : c.ahead = ts ++ rest)
    (hts : ∀ t ∈ ts, isSkipped t = true) (hrest : ∀ t ∈ rest.head?, isSkipped t = false) :
    c.attempts.map (·.outcome) = ts.head?.toList.map (fun t => .error (Block.misplaced t)) ++
      (c.skip ts.length).attempts.map (·.outcome) := by
  cases ts with
  | nil => rw [List.length_nil, skip_zero]; rfl
  | cons t ts =>
    have ht : isSkipped t = true := hts t (by simp)
    simp only [isSkipped, Bool.and_eq_true, bne_iff_ne] at ht
    have hend : c.isAtEnd = false := isAtEnd_eq_false_iff.2 ⟨t, ts ++ rest, h, ht.2⟩
    have hcheck : c.check (.keyword .enumeration) = false := by
      rw [check_of_ahead h]
      exact beq_false_of_ne ht.1
    have hd := declaration_of_not_check hcheck
    rw [attempts_of_not_end hend, attempt_of_error hd, recover_of_append h hts hrest,
      peek_of_ahead h]
    rfl

theorem outcomes_attempts_block {b : Block} (h : c.ahead = b.tokens ++ rest)
    (hbody : ∀ t ∈ b.body, isSkipped t = true) (hrest : ∀ t ∈ rest.head?, isSkipped t = false) :
    c.attempts.map (·.outcome) = b.outcomes (rest.head?.getD b.last) ++
      (c.skip b.tokens.length).attempts.map (·.outcome) := by
  have hcheck : c.check (.keyword .enumeration) = true :=
    check_eq_true_iff.2 ⟨b.start, b.body ++ rest, h, b.start_kind⟩
  have hend := isAtEnd_of_check hcheck (by simp)
  rw [attempts_of_not_end hend, List.map_cons]
  cases hd : c.declaration with
  | mk outcome c' =>
    cases outcome with
    | error r =>
      have hbehind : c'.recover = c.skip b.tokens.length := by
        have hr := recover_declaration hcheck
        have ha : (c.skip 1).ahead = b.body ++ rest := by
          rw [ahead_skip, h]
          rfl
        rw [hd, recover_of_append ha hbody hrest, skip_skip] at hr
        rw [hr, Block.tokens, List.length_cons, Nat.add_comm]
      rw [attempt_of_error hd, Block.outcomes, declared?_block h hrest,
        firstViolation?_block h hrest, hd, hbehind]
      rfl
    | ok e =>
      obtain ⟨hdecl, rfl⟩ := declaration_eq_ok_iff.1 hd
      have hle : 13 ≤ b.tokens.length := by
        have hlen := ((declares_take_iff h hrest).1 hdecl).length
        rw [List.length_take] at hlen
        omega
      have hbehind : (c.skip 13).ahead = b.tokens.drop 13 ++ rest := by
        rw [ahead_skip, h, List.drop_append_of_le_length hle]
      have hdrop : ∀ t ∈ b.tokens.drop 13, isSkipped t = true := fun t ht =>
        hbody t (List.mem_of_mem_drop (i := 12) ht)
      rw [attempt_of_ok hd, outcomes_attempts_misplaced hbehind hdrop hrest, Block.outcomes,
        declared?_block h hrest, hd, List.head?_drop, List.length_drop, skip_skip,
        Nat.add_sub_cancel' hle]
      rfl

/-- The attempts over blocks are those of each block in turn. -/
theorem outcomes_attempts_blocks {blocks : List Block}
    (h : c.ahead = blocks.flatMap Block.tokens ++ rest)
    (hbody : ∀ b ∈ blocks, ∀ t ∈ b.body, isSkipped t = true)
    (hrest : ∀ t ∈ rest.head?, t.kind = .endOfFile) :
    c.attempts.map (·.outcome) = Block.outcomesBefore rest blocks := by
  induction blocks generalizing c with
  | nil =>
    have hend : c.isAtEnd = true := by
      rw [isAtEnd_eq_true_iff, h]
      exact hrest
    rw [attempts_of_end hend]
    rfl
  | cons b blocks ih =>
    rw [List.flatMap_cons, List.append_assoc] at h
    have hnext : ∀ t ∈ (blocks.flatMap Block.tokens ++ rest).head?, isSkipped t = false := by
      intro t ht
      rcases Block.head_flatMap_tokens rest blocks t ht with h | h
      · simp [isSkipped, hrest t h]
      · simp [isSkipped, h]
    have hahead : (c.skip b.tokens.length).ahead = blocks.flatMap Block.tokens ++ rest := by
      rw [ahead_skip, h, List.drop_left]
    rw [outcomes_attempts_block h (hbody b (by simp)) hnext,
      ih hahead fun b' hb' => hbody b' (List.mem_cons_of_mem _ hb')]
    rfl

end Cursor

namespace Block

theorem isSome_violation? (found found' : Token) (ts : List Token) (kind : Token.Kind)
    (place : Nat) : (Declaration.violation? found ts kind place).isSome =
      (Declaration.violation? found' ts kind place).isSome := by
  rw [Declaration.violation?, Declaration.violation?]
  cases ts[place]? <;> rfl

theorem isSome_firstViolation? (found : Token) (b : Block) :
    (Declaration.firstViolation? found b.tokens).isSome =
      (Declaration.declared? (b.tokens.take 13)).isNone := by
  have hfound : (Declaration.firstViolation? found b.tokens).isSome =
      (Declaration.firstViolation? b.last b.tokens).isSome := by
    simp only [Declaration.firstViolation?, List.isSome_findSome?,
      isSome_violation? found b.last]
  have h : (Cursor.ofTokens b.tokens).ahead = b.tokens ++ [] := by
    rw [List.append_nil]
    rfl
  have hviolation : Declaration.firstViolation? b.last b.tokens = _ :=
    Cursor.firstViolation?_block h (by simp)
  rw [hfound, hviolation, Cursor.declared?_block h (by simp)]
  cases (Cursor.ofTokens b.tokens).declaration.1 <;> rfl

end Block

namespace Reading

/-- The attempts from a cursor read what is ahead of it block by block. -/
theorem attempts_eq_blockwise (c : Cursor) : Attempt.reading c.attempts = blockwise c.ahead := by
  let content := c.ahead.takeWhile (·.kind != .endOfFile)
  let rest := c.ahead.dropWhile (·.kind != .endOfFile)
  let leading := (Block.divide content).1
  let blocks := (Block.divide content).2
  have hcontent : ∀ t ∈ content, t.kind ≠ .endOfFile := fun t ht => by
    simpa using List.all_eq_true.1 List.all_takeWhile t ht
  have hrest : ∀ t ∈ rest.head?, t.kind = .endOfFile := by
    intro t ht
    have := List.head?_dropWhile_not (·.kind != .endOfFile) c.ahead
    rw [show c.ahead.dropWhile (·.kind != .endOfFile) = rest from rfl, ht] at this
    simpa using this
  have hleading : ∀ t ∈ leading.1, Cursor.isSkipped t = true := fun t ht => by
    simp [Cursor.isSkipped, leading.2 t ht, hcontent t (Block.mem_of_mem_leading ht)]
  have hbody : ∀ b ∈ blocks, ∀ t ∈ b.body, Cursor.isSkipped t = true := fun b hb t ht => by
    simp [Cursor.isSkipped, b.body_kind t ht, hcontent t (Block.mem_of_mem_body hb ht)]
  have hahead : c.ahead = leading.1 ++ (blocks.flatMap Block.tokens ++ rest) := by
    rw [← List.append_assoc, Block.divide_tokens]
    exact List.takeWhile_append_dropWhile.symm
  have hnext : ∀ t ∈ (blocks.flatMap Block.tokens ++ rest).head?,
      Cursor.isSkipped t = false := by
    intro t ht
    rcases Block.head_flatMap_tokens rest blocks t ht with h | h
    · simp [Cursor.isSkipped, hrest t h]
    · simp [Cursor.isSkipped, h]
  have hbehind : (c.skip leading.1.length).ahead = blocks.flatMap Block.tokens ++ rest := by
    rw [Cursor.ahead_skip, hahead, List.drop_left]
  rw [Attempt.reading, Cursor.outcomes_attempts_misplaced hahead hleading hnext,
    Cursor.outcomes_attempts_blocks hbehind hbody hrest]
  rfl

/-- Without a limit, tokens are read block by block. -/
theorem ofTokens_none_eq_blockwise (ts : List Token) :
    Reading.ofTokens none ts = blockwise ts ∧
      (Block.divide ts).1.1 ++ (Block.divide ts).2.flatMap Block.tokens = ts ∧
      ∀ (found : Token) (b : Block), (Declaration.firstViolation? found b.tokens).isSome =
        (Declaration.declared? (b.tokens.take 13)).isNone := by
  refine ⟨?_, Block.divide_tokens ts, Block.isSome_firstViolation?⟩
  rw [ofTokens, Cursor.read_none_reading, attempts_eq_blockwise]
  cases ts with
  | nil => rfl
  | cons t ts => rfl

end Reading

end Codebook
