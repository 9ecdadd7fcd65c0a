import Codebook.Proofs.Limits
import Codebook.Proofs.Production
import Codebook.Proofs.Tiling

namespace Codebook

theorem line_le_of_places {ts : List Token} (h : ts.Pairwise (·.line ≤ ·.line)) {i j : Nat}
    {t u : Token} (ht : ts[i]? = some t) (hu : ts[j]? = some u) (hij : i ≤ j) :
    t.line ≤ u.line := by
  obtain ⟨hi, rfl⟩ := List.getElem?_eq_some_iff.1 ht
  obtain ⟨hj, rfl⟩ := List.getElem?_eq_some_iff.1 hu
  rcases Nat.lt_or_eq_of_le hij with hlt | rfl
  · exact List.pairwise_iff_getElem.1 h i j hi hj hlt
  · exact Nat.le_refl _

namespace Declaration

theorem Refuses.line {place : Nat} {t : Token} {r : Rejection} (h : Refuses place t r) :
    r.line = t.line := by
  cases h <;> rfl

/-- What fails is reported with the line of a token between the positions where the declaration
starts and where it is left. -/
theorem FailsAt.exists_place {ts : List Token} {p i q : Nat} {r : Rejection}
    (h : FailsAt ts p i r q) (hp : p < ts.length) :
    ∃ n t, ts[n]? = some t ∧ r.line = t.line ∧ p ≤ n ∧ n ≤ q := by
  cases h with
  | @kind _ found _ _ _ _ hfound =>
    exact ⟨_, found, hfound, rfl, Nat.le_min.2 ⟨Nat.le_add_right p i, Nat.le_sub_one_of_lt hp⟩,
      Nat.min_le_left _ _⟩
  | @value t _ ht _ hrefuses =>
    exact ⟨p + i, t, ht, hrefuses.line, Nat.le_add_right p i, Nat.le_succ _⟩

end Declaration

namespace Cursor

variable {c : Cursor} {r : Rejection}

theorem exists_place_of_attempt (hend : c.isAtEnd = false) (h : c.attempt.outcome = .error r) :
    ∃ n t, c.tokens[n]? = some t ∧ r.line = t.line ∧ c.position ≤ n ∧
      n ≤ c.attempt.after.position := by
  have hd : c.declaration = (.error r, c.declaration.2) := Prod.ext h rfl
  obtain ⟨-, i, -, hfails⟩ := declaration_error_iff.1 hd
  obtain ⟨n, t, ht, hline, hstart, hleft⟩ := hfails.exists_place (position_lt hend)
  have hrecover := (Advances.recover c.declaration.2).position_le
  rw [attempt_of_error hd]
  exact ⟨n, t, ht, hline, hstart, Nat.le_trans hleft hrecover⟩

theorem exists_place_of_mem_rejections (h : r ∈ (Attempt.reading c.attempts).rejections) :
    ∃ n t, c.tokens[n]? = some t ∧ r.line = t.line ∧ c.position ≤ n := by
  obtain ⟨a, ha, hr⟩ := Attempt.mem_rejections_reading.1 h
  obtain ⟨c', hadvances, hend, rfl⟩ := exists_advances_of_mem_attempts ha
  obtain ⟨n, t, ht, hline, hplace, -⟩ := exists_place_of_attempt hend hr
  rw [hadvances.tokens] at ht
  exact ⟨n, t, ht, hline, Nat.le_trans hadvances.position_le hplace⟩

/-- Where lines ascend, the next attempt reports no line before one that has been reported. -/
theorem rejections_attempts_ascend (h : c.tokens.Pairwise (·.line ≤ ·.line)) :
    (Attempt.reading c.attempts).rejections.Pairwise (·.line ≤ ·.line) := by
  induction c using attempts.induct with
  | case1 c hend =>
    rw [attempts_of_end hend, Attempt.reading_nil]
    exact .nil
  | case2 c hend ih =>
    have hend := Bool.eq_false_iff.2 hend
    have htokens := (Advances.attempt c).tokens
    have hrest := ih (htokens ▸ h)
    rw [attempts_of_not_end hend]
    cases ha : c.attempt.outcome with
    | ok e =>
      rw [Attempt.reading_cons_ok ha]
      exact hrest
    | error r =>
      rw [Attempt.reading_cons_error ha]
      refine List.pairwise_cons.2 ⟨fun r' hr' => ?_, hrest⟩
      obtain ⟨n, t, ht, hline, -, hn⟩ := exists_place_of_attempt hend ha
      obtain ⟨m, u, hu, hline', hm⟩ := exists_place_of_mem_rejections hr'
      rw [htokens] at hu
      rw [hline, hline']
      exact line_le_of_places h ht hu (Nat.le_trans hn hm)

theorem rejections_read_prefix (limit : Option Nat) (c : Cursor) :
    (c.read limit).reading.rejections <+: (Attempt.reading c.attempts).rejections := by
  have hmakes := makes_read limit c
  rw [hmakes.reading]
  exact Attempt.rejections_le ⟨_, hmakes.attempts.symm⟩

end Cursor

theorem lineBehind_le (before cs : List Char) : lineBehind before ≤ lineBehind (before ++ cs) := by
  rw [lineBehind_append]
  exact Nat.le_add_right _ _

namespace Tiles

variable {before rest : List Char} {tiles : List Tile} {tokens : List Token}

theorem line_of_mem (h : Tiles before tiles rest tokens) {a : Token} (ha : a ∈ tokens) :
    lineBehind before ≤ a.line ∧ a.line ≤ lineBehind (before ++ tiles.flatMap Tile.chars) := by
  induction h with
  | nil => cases ha
  | @endOfFile _ t =>
    cases List.mem_singleton.1 ha
    refine ⟨lineBehind_le _ _, ?_⟩
    rw [List.flatMap_singleton, Tile.chars, ← List.append_assoc]
    exact lineBehind_le _ _
  | @error _ _ t =>
    cases List.mem_singleton.1 ha
    refine ⟨lineBehind_le _ _, ?_⟩
    rw [List.flatMap_singleton, Tile.chars, ← List.append_assoc]
    exact lineBehind_le _ _
  | @token before _ _ t tiles _ _ _ _ _ ih =>
    rw [List.flatMap_cons, ← List.append_assoc]
    rcases List.mem_cons.1 ha with rfl | ha
    · refine ⟨lineBehind_le _ _, ?_⟩
      rw [Tile.chars, ← List.append_assoc, List.append_assoc _ t.text]
      exact lineBehind_le _ _
    · obtain ⟨hfirst, hlast⟩ := ih ha
      exact ⟨Nat.le_trans (lineBehind_le _ _) hfirst, hlast⟩

theorem lines_ascend (h : Tiles before tiles rest tokens) :
    tokens.Pairwise (·.line ≤ ·.line) := by
  induction h with
  | nil => exact .nil
  | endOfFile => exact List.pairwise_singleton _ _
  | error => exact List.pairwise_singleton _ _
  | @token _ _ _ t _ _ _ _ _ htiles ih =>
    refine List.pairwise_cons.2 ⟨fun a ha => ?_, ih⟩
    have hbehind := (htiles.line_of_mem ha).1
    rw [Tile.chars, ← List.append_assoc] at hbehind
    exact Nat.le_trans (lineBehind_le _ _) hbehind

end Tiles

section Source

variable (source : String)

theorem lines_tokenize_ascend : (tokenize source).Pairwise (·.line ≤ ·.line) := by
  obtain ⟨tiles, rest, -, htiles⟩ := tiles_tokenize source
  exact htiles.lines_ascend

theorem line_of_mem_tokenize {t : Token} (h : t ∈ tokenize source) :
    1 ≤ t.line ∧ t.line ≤ 1 + source.toList.count '\n' := by
  obtain ⟨tiles, rest, hs, htiles⟩ := tiles_tokenize source
  obtain ⟨hfirst, hlast⟩ := htiles.line_of_mem h
  refine ⟨hfirst, ?_⟩
  rw [hs]
  exact Nat.le_trans hlast (lineBehind_le _ rest)

end Source

theorem Reading.rejections_ascend (limit : Option Nat) {ts : List Token}
    (h : ts.Pairwise (·.line ≤ ·.line)) :
    (ofTokens limit ts).rejections.Pairwise (·.line ≤ ·.line) ∧
      ∀ r ∈ (ofTokens limit ts).rejections, ∃ t ∈ ts, r.line = t.line := by
  cases ts with
  | nil =>
    have hend : (Cursor.ofTokens []).isAtEnd = true := rfl
    rw [ofTokens, Cursor.read, Cursor.readOn_of_end hend]
    exact ⟨.nil, List.forall_mem_nil _⟩
  | cons t ts =>
    have htokens := Cursor.tokens_ofTokens (List.cons_ne_nil t ts)
    have hpre := Cursor.rejections_read_prefix limit (Cursor.ofTokens (t :: ts))
    rw [← htokens] at h
    refine ⟨(Cursor.rejections_attempts_ascend h).sublist hpre.sublist, fun r hr => ?_⟩
    obtain ⟨n, u, hu, hline, -⟩ := Cursor.exists_place_of_mem_rejections (hpre.subset hr)
    rw [htokens] at hu
    exact ⟨u, List.mem_of_getElem? hu, hline⟩

/-- The rejections of a source text ascend in its lines, whatever the limit. -/
theorem rejections_in_order (limit : Option Nat) :
    (∀ ts : List Token, ts.Pairwise (·.line ≤ ·.line) →
      let rejections := (Reading.ofTokens limit ts).rejections
      rejections.Pairwise (·.line ≤ ·.line) ∧ ∀ r ∈ rejections, ∃ t ∈ ts, r.line = t.line) ∧
    ∀ source : String,
      let rejections := (readSource limit source).1.rejections
      rejections.Pairwise (·.line ≤ ·.line) ∧
        ∀ r ∈ rejections, 1 ≤ r.line ∧ r.line ≤ 1 + source.toList.count '\n' := by
  refine ⟨fun ts h => Reading.rejections_ascend limit h, fun source => ?_⟩
  obtain ⟨hascend, hlines⟩ := Reading.rejections_ascend limit (lines_tokenize_ascend source)
  refine ⟨hascend, fun r hr => ?_⟩
  obtain ⟨t, ht, hline⟩ := hlines r hr
  rw [hline]
  exact line_of_mem_tokenize source ht

/-- The first number is passed and refused, and at the end a token that has been passed is found. -/
theorem rejections_in_order_passed :
    let ts : List Token :=
      [⟨.semicolon, ";", 1⟩, ⟨.keyword .enumeration, "enumeration", 2⟩, ⟨.integer, "65536", 3⟩,
        ⟨.colon, ":", 3⟩, ⟨.keyword .enumeration, "enumeration", 4⟩]
    ts.Pairwise (·.line ≤ ·.line) ∧
      (Reading.ofTokens none ts).rejections.map (·.line) = [1, 3, 4] ∧
      (Reading.ofTokens none ts).rejections.Pairwise (·.line ≤ ·.line) := by
  intro ts
  have hts : ts.Pairwise (·.line ≤ ·.line) := by decide
  exact ⟨hts, by decide +kernel, ((rejections_in_order none).1 ts hts).1⟩

end Codebook
