import Codebook.Proofs.Fault
import Codebook.Proofs.Lines

namespace Codebook

/-- Behind other characters and some blanks a text is read as it is alone, further down. -/
theorem exists_lexes_behind {gap : List Char} (hgap : ∀ c ∈ gap, c ∈ blanks)
    (before : List Char) (b : String) :
    ∃ tail, Lexes before (gap ++ b.toList) tail ∧
      (tail = (tokenize b).map (Token.mapLine (· + (before ++ gap).count '\n')) ∨
        tokenize b = [] ∧ contents tail = []) := by
  have hlexes := lexes_tokenize b
  by_cases hb : tokenize b = []
  · rw [hb] at hlexes
    obtain ⟨tail, htail, hnone⟩ := exists_lexes_blanks hgap before
    rw [hlexes.eq_nil, List.append_nil]
    exact ⟨tail, htail, .inr ⟨hb, hnone⟩⟩
  · have hfurther := hlexes.further (before ++ gap)
    rw [List.append_nil] at hfurther
    have hne : (tokenize b).map (Token.mapLine (· + (before ++ gap).count '\n')) ≠ [] :=
      fun hnil => hb (List.map_eq_nil_iff.1 hnil)
    exact ⟨_, hfurther.of_blanks hgap hne, .inl rfl⟩

/-- The tokens of a text without an error are followed by those of another one, if blanks stand
between the two. -/
theorem tokenize_append {a w : String} (ha : ∀ t ∈ tokenize a, t.kind ≠ .error)
    (hw : w.toList ∈ space) (b : String) :
    ∃ tail, tokenize (a ++ w ++ b) = contents (tokenize a) ++ tail ∧
      (tail = (tokenize b).map (Token.mapLine (· + (a ++ w).toList.count '\n')) ∨
        tokenize b = [] ∧ contents tail = []) := by
  obtain ⟨tiles, rest, hs, htiles⟩ := tiles_tokenize a
  rcases htiles.cases_end with ⟨init, g, hchars, hg, hleads, -⟩ |
    ⟨_, _, _, front, _, _, _, htokens⟩
  · have hgap : ∀ c ∈ g ++ w.toList, c ∈ blanks := List.forall_mem_append.2 ⟨hg, hw.2⟩
    have hfront : (a ++ w).toList = init.flatMap Tile.chars ++ (g ++ w.toList) := by
      rw [String.toList_append, hs, hchars, List.append_assoc]
    have hleads' : Leads [] init ((g ++ w.toList) ++ b.toList) (contents (tokenize a)) := by
      apply hleads.replace
      intro c hc
      rw [List.head?_append_of_ne_nil _ (List.append_ne_nil_of_right_ne_nil g hw.1)] at hc
      exact .inr (hgap c (List.mem_of_mem_head? hc))
    obtain ⟨tail, htail, hcases⟩ := exists_lexes_behind hgap (init.flatMap Tile.chars) b
    have hwhole := hleads'.lexes htail
    rw [← List.append_assoc, ← hfront, ← String.toList_append] at hwhole
    rw [← hfront] at hcases
    exact ⟨tail, hwhole.eq_tokenize.symm, hcases⟩
  · exact absurd rfl (ha _ (htokens ▸ List.mem_append_right front List.mem_cons_self))

theorem Rejection.SameButLast.length_eq {rs rs' : List Rejection} (h : SameButLast rs rs') :
    rs.length = rs'.length := by
  cases h with
  | same => rfl
  | last rs => rw [List.length_append, List.length_append]; rfl

namespace Reader

open Reading

theorem outcomes_of_start (r : Reader) (last : Token) {t : Token} (ts : List Token)
    (ht : t.kind = .keyword .enumeration) :
    r.outcomes last (t :: ts) = r.finish t ++ ready.outcomes last (t :: ts) := by
  have hend : t.kind ≠ .endOfFile := by
    rw [ht]
    exact nofun
  rw [outcomes, outcomes, if_neg hend, if_neg hend, feed_of_start r ht, feed_of_start ready ht]
  rfl

/-- Behind a text that the reader is done with, or from a start on, another one is gone through as
it is alone. -/
theorem outcomes_behind {r : Reader} {tail ts : List Token} {f : Nat → Nat} (last : Token)
    (htail : tail = ts.map (Token.mapLine f) ∨ ts = [] ∧ contents tail = [])
    (hr : r = ready ∨ ∃ t ∈ ts.head?, t.kind = .keyword .enumeration) :
    ∃ found, r.outcomes last tail = r.finish found ++
      (ready.outcomes (.endOfFile 1) ts).map (Except.mapError (Rejection.mapLine f)) := by
  rcases htail with rfl | ⟨rfl, hnone⟩
  · rw [← outcomes_mapLine]
    rcases hr with rfl | ⟨t, ht, hstart⟩
    · exact ⟨last, outcomes_ready_last last _ _⟩
    · obtain ⟨rest, rfl⟩ := List.head?_eq_some_iff.1 ht
      refine ⟨t.mapLine f, ?_⟩
      rw [outcomes_ready_last _ last, List.map_cons]
      exact outcomes_of_start r last _ hstart
  · obtain ⟨found, hfound⟩ := r.exists_outcomes_eq last tail
    rw [hnone] at hfound
    exact ⟨found, hfound.trans (List.append_nil _).symm⟩

theorem Knows.eq_ready {r : Reader} {ts : List Token} {outcomes : List (Except Rejection Entry)}
    (h : r.Knows ts outcomes) {found : Token}
    (hnone : (ofOutcomes (outcomes ++ r.finish found)).rejections = []) : r = Reader.ready := by
  cases r with
  | ready => rfl
  | within step steps e proper =>
    have hlast := ofOutcomes_concat_error outcomes (.unexpectedToken step.kind found step.reason)
    rw [finish] at hnone
    rw [hnone] at hlast
    cases hlast
  | skipping =>
    obtain ⟨_, _, _, hlast, -⟩ := h.about_last
    have hfinish : Reader.skipping.finish found = [] := rfl
    rw [hfinish, List.append_nil] at hnone
    rw [hnone] at hlast
    cases hlast

end Reader

theorem Reading.ofOutcomes_append (outcomes outcomes' : List (Except Rejection Entry)) :
    ofOutcomes (outcomes ++ outcomes') =
      ⟨(ofOutcomes outcomes).entries ++ (ofOutcomes outcomes').entries,
        (ofOutcomes outcomes).rejections ++ (ofOutcomes outcomes').rejections, false⟩ := by
  simp only [ofOutcomes, List.filterMap_append]

section Whole

open Reading

/-- Two readings one after the other, the second further down. The last rejection of the first may
have found another token. -/
structure Reading.Joins (whole first second : Reading) (lines : Nat) : Prop where
  entries : whole.entries = first.entries ++ second.entries
  length : whole.rejections.length = first.rejections.length + second.rejections.length
  rejections : ∃ rejections, Rejection.SameButLast first.rejections rejections ∧
    whole.rejections = rejections ++ second.rejections.map (Rejection.mapLine (· + lines))

/-- Two texts with blanks between them are read as each alone, if nothing of the first one can reach
into the second. -/
theorem readSource_append {a w b : String} (ha : ∀ t ∈ tokenize a, t.kind ≠ .error)
    (hw : w.toList ∈ space)
    (hseam : (readSource none a).1.isClean = true ∨
      ∃ t ∈ (tokenize b).head?, t.kind = .keyword .enumeration) :
    (readSource none (a ++ w ++ b)).1.Joins (readSource none a).1 (readSource none b).1
      ((a ++ w).toList.count '\n') := by
  set first := (readSource none a).1
  set second := (readSource none b).1
  set whole := (readSource none (a ++ w ++ b)).1
  obtain ⟨tail, htokens, htail⟩ := tokenize_append ha hw b
  obtain ⟨found, hread⟩ := exists_ofTokens_eq none (tokenize a)
  have hfirst : first = _ := hread.trans (limited_none 0 _)
  have hsecond : second = _ := ofTokens_none_eq (.endOfFile 1) (tokenize b)
  have hwhole : whole = _ := ofTokens_none_eq (.endOfFile 1) (tokenize (a ++ w ++ b))
  rw [htokens, Reader.outcomes_append _ _ _ fun t ht => kind_ne_of_mem_contents ht] at hwhole
  have hknows := Reader.knows_feedAll (contents (tokenize a))
  cases hfeed : Reader.ready.feedAll (contents (tokenize a)) with
  | mk r outcomes =>
  rw [hfeed] at hfirst hwhole hknows
  have hr : r = .ready ∨ ∃ t ∈ (tokenize b).head?, t.kind = .keyword .enumeration := by
    apply hseam.imp_left
    intro hclean
    rw [hfirst, isClean, Bool.and_eq_true, List.isEmpty_iff] at hclean
    exact hknows.eq_ready hclean.1
  obtain ⟨found', htail'⟩ := Reader.outcomes_behind _ htail hr
  rw [htail', ← List.append_assoc, ofOutcomes_append, ofOutcomes_mapLine, ← hsecond] at hwhole
  have hagrees := agrees_finish none outcomes r found found'
  rw [limited_none, limited_none, ← hfirst] at hagrees
  have hlength := hagrees.rejections.length_eq
  rw [hwhole]
  refine ⟨congrArg (· ++ second.entries) hagrees.entries.symm, ?_, _, hagrees.rejections, rfl⟩
  rw [hlength, List.length_append, mapLine, List.length_map]

theorem readSource_append_unfinished :
    (∀ t ∈ tokenize "enumeration 7", t.kind ≠ .error) ∧ "\n".toList ∈ space ∧
      (tokenize "enumeration : id").head? = some ⟨.keyword .enumeration, "enumeration", 1⟩ ∧
      (readSource none ("enumeration 7" ++ "\n" ++ "enumeration : id")).1.Joins
        (readSource none "enumeration 7").1 (readSource none "enumeration : id").1
        (("enumeration 7" ++ "\n").toList.count '\n') := by
  have ha : ∀ t ∈ tokenize "enumeration 7", t.kind ≠ .error := by decide +kernel
  have hb : (tokenize "enumeration : id").head? =
      some ⟨.keyword .enumeration, "enumeration", 1⟩ := by decide +kernel
  exact ⟨ha, newline_mem_space, hb, readSource_append ha newline_mem_space (.inr ⟨_, hb, rfl⟩)⟩

end Whole

end Codebook
