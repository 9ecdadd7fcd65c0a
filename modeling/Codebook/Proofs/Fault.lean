import Codebook.Proofs.Ending
import Codebook.Proofs.Standing

namespace Codebook

theorem Misspells.replace {text after after' : List Char} {message : String}
    (h : Misspells text after message)
    (hword : IsWord text → ∀ c ∈ after'.head?, continuesWord c = false)
    (hquote : text.head? = some quote → after' = []) : Misspells text after' message := by
  cases h with
  | word htext hne => exact .word htext hne (hword htext)
  | unclosed hbody =>
    obtain rfl := hquote rfl
    exact .unclosed hbody
  | stray hblank hdigit hstart hother => exact .stray hblank hdigit hstart hother

theorem exists_misspells_of_error {source : String} {front : List Token} {err : Token}
    (h : tokenize source = front ++ [err]) (herr : err.kind = .error) :
    ∃ tiles t rest message, source.toList = (tiles ++ [t]).flatMap Tile.chars ++ rest ∧
      Tiles [] (tiles ++ [t]) rest (tokenize source) ∧ Misspells t.text rest message ∧
      Leads [] tiles (t.chars ++ rest) front ∧
      err = ⟨.error, message, lineBehind (tiles.flatMap Tile.chars ++ t.gap)⟩ := by
  obtain ⟨tiles, rest, hs, htiles⟩ := tiles_tokenize source
  rcases htiles.cases_end with ⟨_, _, _, _, _, hnone⟩ |
    ⟨init, t, message, front', rfl, hm, hleads, htokens⟩
  · exact absurd herr (hnone err (h ▸ List.mem_append_right front List.mem_cons_self))
  · obtain ⟨rfl, hlast⟩ := List.append_inj' (h.symm.trans htokens) rfl
    exact ⟨init, t, rest, message, hs, htiles, hm, hleads, (List.cons.inj hlast).1⟩

namespace Reading

theorem ofOutcomes_concat_error (outcomes : List (Except Rejection Entry)) (r : Rejection) :
    (ofOutcomes (outcomes ++ [.error r])).rejections.getLast? = some r := by
  have hrejections : (ofOutcomes (outcomes ++ [.error r])).rejections =
      outcomes.filterMap rejection? ++ [r] := List.filterMap_append
  rw [hrejections, List.getLast?_concat]

theorem limited_concat_error (limit : Option Nat) (rejected : Nat)
    (outcomes : List (Except Rejection Entry)) (e : Entry) (r : Rejection) :
    let reading := limited limit rejected (outcomes ++ [.ok e] ++ [.error r])
    let before := limited limit rejected (outcomes ++ [.ok e])
    reading.entries = before.entries ∧ reading.truncated = before.truncated := by
  induction outcomes generalizing rejected with
  | nil => exact ⟨rfl, rfl⟩
  | cons outcome outcomes ih =>
    cases outcome with
    | ok e' =>
      obtain ⟨hentries, htruncated⟩ := ih rejected
      exact ⟨congrArg (e' :: ·) hentries, htruncated⟩
    | error r' =>
      cases hreached : limit.any (· ≤ rejected + 1) with
      | true =>
        simp only [List.cons_append, limited, hreached, Bool.and_true]
        cases outcomes <;> exact ⟨rfl, rfl⟩
      | false =>
        simp only [List.cons_append, limited, hreached, Bool.and_false]
        exact ih (rejected + 1)

theorem rejections_limited_ne_nil (limit : Option Nat) (rejected : Nat)
    {outcomes : List (Except Rejection Entry)} {r : Rejection} (h : .error r ∈ outcomes) :
    (limited limit rejected outcomes).rejections ≠ [] := by
  induction outcomes generalizing rejected with
  | nil => cases h
  | cons outcome outcomes ih =>
    cases outcome with
    | ok e =>
      cases h with
      | tail _ h => exact ih rejected h
    | error r' =>
      rw [limited]
      split <;> exact List.cons_ne_nil _ _

theorem isClean_of_ne_nil {reading : Reading} (h : reading.rejections ≠ []) :
    reading.isClean = false := by
  rw [isClean, List.isEmpty_eq_false_iff.2 h, Bool.false_and]

end Reading

namespace Reader

open Declaration Reading

variable {r : Reader} {ts : List Token} {outcomes : List (Except Rejection Entry)} {err : Token}

/-- What is settled by a last token that no step wants. -/
def report (t : Token) : Reader → List (Except Rejection Entry)
  | ready => [.error (Block.misplaced t)]
  | within step steps entry h => (within step steps entry h).finish t
  | skipping => []

theorem outcomes_of_error (r : Reader) (last : Token) (herr : err.kind = .error) :
    r.outcomes last [err] = r.report err := by
  have hend : err.kind ≠ .endOfFile := by
    rw [herr]
    exact nofun
  have hstart : err.kind ≠ .keyword .enumeration := by
    rw [herr]
    exact nofun
  rw [outcomes, if_neg hend, outcomes]
  cases r with
  | ready =>
    rw [feed_ready_of_ne hstart]
    rfl
  | within step steps e proper =>
    have hk : err.kind ≠ step.kind := by
      rw [herr]
      exact (kind_ne_of_suffix proper).2.symm
    rw [feed, meet, if_neg hk, resumed, if_neg hstart]
    rfl
  | skipping =>
    rw [feed, resumed, if_neg hstart]
    rfl

theorem Knows.exists_error (h : r.Knows ts outcomes) (err : Token) :
    ∃ rejection, .error rejection ∈ outcomes ++ r.report err := by
  cases h with
  | start => exact ⟨_, List.mem_cons_self⟩
  | ready => exact ⟨_, List.mem_append_right _ List.mem_cons_self⟩
  | within => exact ⟨_, List.mem_append_right _ List.mem_cons_self⟩
  | skipping =>
    exact ⟨_, List.mem_append_left _ (List.mem_append_right _ List.mem_cons_self)⟩

/-- An error adds a rejection at most. It is as if the tokens ended in front of it. -/
theorem Knows.limited_report (h : r.Knows ts outcomes) (limit : Option Nat) (found err : Token) :
    let reading := limited limit 0 (outcomes ++ r.report err)
    let before := limited limit 0 (outcomes ++ r.finish found)
    reading.entries = before.entries ∧ reading.truncated = before.truncated := by
  cases h with
  | start => exact ⟨rfl, rfl⟩
  | @ready _ e outcomes =>
    have hfinish : Reader.ready.finish found = [] := rfl
    rw [hfinish, List.append_nil]
    exact limited_concat_error limit 0 outcomes e (Block.misplaced err)
  | @within _ _ step _ _ _ =>
    have hagrees := agrees_limited limit 0 outcomes step.kind err found step.reason
    exact ⟨hagrees.entries, hagrees.truncated⟩
  | skipping => exact ⟨rfl, rfl⟩

theorem report_of_ne_skipping (h : r ≠ skipping) (err : Token) :
    ∃ expected reason, r.report err = [.error (.unexpectedToken expected err reason)] := by
  cases r with
  | ready => exact ⟨_, _, rfl⟩
  | within step steps e proper => exact ⟨step.kind, step.reason, rfl⟩
  | skipping => exact absurd rfl h

theorem Knows.about_last (h : Knows Reader.skipping ts outcomes) : ∃ t ∈ ts, ∃ rejection,
    (ofOutcomes outcomes).rejections.getLast? = some rejection ∧ rejection.About t := by
  cases h with
  | @skipping _ t rejection outcomes _ ht habout =>
    exact ⟨t, ht, rejection, ofOutcomes_concat_error outcomes rejection, habout⟩

end Reader

section Tokens

open Reading

variable {front : List Token} {err : Token}

theorem ofTokens_concat_error (limit : Option Nat) (hfront : ∀ t ∈ front, t.isTerminal = false)
    (herr : err.kind = .error) : ofTokens limit (front ++ [err]) = limited limit 0
      ((Reader.ready.feedAll front).2 ++ (Reader.ready.feedAll front).1.report err) := by
  have hend : ∀ t ∈ front, t.kind ≠ .endOfFile :=
    fun t ht => Token.Kind.ne_endOfFile (hfront t ht)
  rw [ofTokens_eq_limited limit (.endOfFile 1), Reader.outcomes_append _ _ _ hend,
    Reader.outcomes_of_error _ _ herr]

/-- An error leaves the entries of the tokens before it, and it is not left unsaid. -/
theorem reading_concat_error (limit : Option Nat) (hfront : ∀ t ∈ front, t.isTerminal = false)
    (herr : err.kind = .error) {ts : List Token} (hts : contents ts = front) :
    let reading := ofTokens limit (front ++ [err])
    let before := ofTokens limit ts
    reading.isClean = false ∧ reading.entries = before.entries ∧
      reading.truncated = before.truncated := by
  intro reading before
  have hreading : reading = _ := ofTokens_concat_error limit hfront herr
  obtain ⟨found, hbefore⟩ := exists_ofTokens_eq limit ts
  rw [hts] at hbefore
  have hknows := Reader.knows_feedAll front
  obtain ⟨rejection, hmem⟩ := hknows.exists_error err
  rw [hreading, show before = _ from hbefore]
  exact ⟨isClean_of_ne_nil (rejections_limited_ne_nil limit 0 hmem),
    hknows.limited_report limit found err⟩

end Tokens

theorem tokenize_stray : tokenize "; #" =
    [⟨.semicolon, ";", 1⟩] ++ [⟨.error, "Unexpected character: #", 1⟩] := by
  decide +kernel

theorem last_rejection_stray : (readSource none "; #").1.rejections.getLast? =
    some (Block.misplaced ⟨.semicolon, ";", 1⟩) := by
  decide +kernel

section Error

open Declaration Reading

variable {source : String} {front : List Token} {err : Token}

/-- A text that is read up to a piece that is no token, whatever stands behind that piece. -/
structure StopsAt (source : String) (tiles : List Tile) (t : Tile) (rest : List Char) : Prop where
  chars_eq : source.toList = (tiles ++ [t]).flatMap Tile.chars ++ rest
  tiling : Tiles [] (tiles ++ [t]) rest (tokenize source)
  reading (limit : Option Nat) :
    let reading := (readSource limit source).1
    let before := (readSource limit (String.ofList (tiles.flatMap Tile.chars ++ t.gap))).1
    reading.isClean = false ∧ reading.entries = before.entries ∧
      reading.truncated = before.truncated
  replace (rest' : List Char) (limit : Option Nat) :
    (IsWord t.text → ∀ c ∈ rest'.head?, continuesWord c = false) →
      (t.text.head? = some quote → rest' = []) →
      readSource limit (String.ofList ((tiles ++ [t]).flatMap Tile.chars ++ rest')) =
        readSource limit source

/-- Reading stops at an error, wherever it stands. -/
theorem reading_stops_at_error (h : tokenize source = front ++ [err]) (herr : err.kind = .error) :
    ∃ tiles t rest, StopsAt source tiles t rest := by
  obtain ⟨tiles, t, rest, message, hs, htiles, hm, hleads, rfl⟩ := exists_misspells_of_error h herr
  refine ⟨tiles, t, rest, hs, htiles, ?_, ?_⟩
  · intro limit
    rw [readSource, readSource, h]
    apply reading_concat_error limit hleads.isTerminal herr
    exact hleads.contents_tokenize t.gap_blank String.toList_ofList
  · intro rest' limit hword hquote
    have hstart : (t.gap ++ (t.text ++ rest')).head? = (t.chars ++ rest).head? := by
      obtain ⟨c, cs, htext⟩ := List.exists_cons_of_ne_nil hm.ne_nil
      simp [Tile.chars, htext]
    have hs' : (String.ofList ((tiles ++ [t]).flatMap Tile.chars ++ rest')).toList =
        tiles.flatMap Tile.chars ++ (t.gap ++ (t.text ++ rest')) := by
      simp [Tile.chars]
    rw [readSource, readSource, h,
      hleads.tokenize_of_misspells (hm.replace hword hquote) t.gap_blank hstart hs']

theorem reading_stops_at_error_stray :
    tokenize "; #" = [⟨.semicolon, ";", 1⟩] ++ [⟨.error, "Unexpected character: #", 1⟩] ∧
      ∃ tiles t rest, StopsAt "; #" tiles t rest :=
  ⟨tokenize_stray, reading_stops_at_error tokenize_stray rfl⟩

/-- A final error is what was rejected last exactly if the tokens since the last start could still
become a declaration. -/
theorem last_rejection_of_error (h : tokenize source = front ++ [err]) (herr : err.kind = .error) :
    let reading := (readSource none source).1
    ((∃ expected reason,
        reading.rejections.getLast? = some (.unexpectedToken expected err reason)) ↔
      Begins (sinceStart front)) ∧
      (¬ Begins (sinceStart front) → reading = Reading.ofTokens none front ∧
        ∃ t ∈ sinceStart front, ∃ rejection,
          reading.rejections.getLast? = some rejection ∧ rejection.About t) := by
  intro reading
  obtain ⟨_, _, _, _, _, _, _, hleads, -⟩ := exists_misspells_of_error h herr
  have hreading : reading = ofTokens none (tokenize source) := rfl
  obtain ⟨found, hbefore⟩ := exists_ofTokens_eq none front
  rw [contents_eq_self fun t ht => Token.Kind.ne_endOfFile (hleads.isTerminal t ht)] at hbefore
  have hknows := Reader.knows_feedAll front
  rw [hreading, h, hbefore, hknows.begins_iff, ofTokens_concat_error none hleads.isTerminal herr,
    limited_none, limited_none]
  cases hfeed : Reader.ready.feedAll front with
  | mk r outcomes =>
  rw [hfeed] at hknows
  by_cases hskip : r = .skipping
  · subst hskip
    obtain ⟨t, ht, rejection, hlast, habout⟩ := hknows.about_last
    have hreport : Reader.skipping.report err = Reader.skipping.finish found := rfl
    have hfinish : Reader.skipping.finish found = [] := rfl
    rw [hreport, hfinish, List.append_nil]
    refine ⟨iff_of_false ?_ fun h => h rfl, fun _ => ⟨rfl, t, ht, rejection, hlast, habout⟩⟩
    rintro ⟨expected, reason, hfound⟩
    rw [hlast] at hfound
    cases hfound
    cases habout
    have herr' := hleads.isTerminal err ((sinceStart_suffix front).subset ht)
    exact Token.Kind.ne_error herr' herr
  · obtain ⟨expected, reason, hreport⟩ := Reader.report_of_ne_skipping hskip err
    rw [hreport, ofOutcomes_concat_error]
    exact ⟨iff_of_true ⟨expected, reason, rfl⟩ hskip, fun h => absurd hskip h⟩

/-- A declaration is rejected once, so an error that comes behind what was wrong with it is not
among the rejections. -/
theorem not_last_rejection_of_error :
    ¬ ∀ source front err, tokenize source = front ++ [err] → err.kind = .error →
      ∃ expected reason, (readSource none source).1.rejections.getLast? =
        some (.unexpectedToken expected err reason) := by
  intro h
  obtain ⟨expected, reason, hlast⟩ := h "; #" _ _ tokenize_stray rfl
  rw [last_rejection_stray] at hlast
  cases hlast

theorem last_rejection_of_error_stray :
    tokenize "; #" = [⟨.semicolon, ";", 1⟩] ++ [⟨.error, "Unexpected character: #", 1⟩] ∧
      ¬ Begins (sinceStart [⟨.semicolon, ";", 1⟩]) ∧
      (readSource none "; #").1 = Reading.ofTokens none [⟨.semicolon, ";", 1⟩] := by
  obtain ⟨hlast, hbefore⟩ := last_rejection_of_error tokenize_stray rfl
  have hbegins : ¬ Begins (sinceStart [⟨.semicolon, ";", 1⟩]) := by
    rw [← hlast, last_rejection_stray]
    rintro ⟨expected, reason, hfound⟩
    cases hfound
  exact ⟨tokenize_stray, hbegins, (hbefore hbegins).1⟩

end Error

end Codebook
