import Codebook.Proofs.Consumption
import Codebook.Proofs.Seam

namespace Codebook

/-- Rejections that are the same, but for the token that the last of them may have found. -/
inductive Rejection.SameButLast : List Rejection → List Rejection → Prop where
  | same (rs : List Rejection) : SameButLast rs rs
  | last (rs : List Rejection) (expected : Token.Kind) (t t' : Token) (reason : String) :
      SameButLast (rs ++ [.unexpectedToken expected t reason])
        (rs ++ [.unexpectedToken expected t' reason])

theorem Rejection.SameButLast.cons {rs rs' : List Rejection} (h : SameButLast rs rs')
    (r : Rejection) : SameButLast (r :: rs) (r :: rs') := by
  cases h with
  | same => exact .same _
  | last rs expected t t' reason => exact .last (r :: rs) expected t t' reason

namespace Reading

/-- Readings that differ in nothing but the token that the last rejection found. -/
structure Agrees (r r' : Reading) : Prop where
  entries : r.entries = r'.entries
  rejections : Rejection.SameButLast r.rejections r'.rejections
  truncated : r.truncated = r'.truncated

theorem Agrees.refl (r : Reading) : r.Agrees r :=
  ⟨rfl, .same _, rfl⟩

theorem agrees_limited (limit : Option Nat) (rejected : Nat)
    (outcomes : List (Except Rejection Entry)) (expected : Token.Kind) (t t' : Token)
    (reason : String) :
    (limited limit rejected (outcomes ++ [.error (.unexpectedToken expected t reason)])).Agrees
      (limited limit rejected (outcomes ++ [.error (.unexpectedToken expected t' reason)])) := by
  induction outcomes generalizing rejected with
  | nil => exact ⟨rfl, .last [] expected t t' reason, rfl⟩
  | cons outcome outcomes ih =>
    cases outcome with
    | ok e =>
      obtain ⟨hentries, hrejections, htruncated⟩ := ih rejected
      exact ⟨congrArg (e :: ·) hentries, hrejections, htruncated⟩
    | error r =>
      obtain ⟨hentries, hrejections, htruncated⟩ := ih (rejected + 1)
      cases hreached : limit.any (· ≤ rejected + 1) with
      | true =>
        simp only [List.cons_append, limited, hreached, Bool.and_true]
        cases outcomes <;> exact .refl _
      | false =>
        simp only [List.cons_append, limited, hreached, Bool.and_false]
        exact ⟨hentries, hrejections.cons r, htruncated⟩

theorem agrees_finish (limit : Option Nat) (outcomes : List (Except Rejection Entry)) (r : Reader)
    (found found' : Token) : (limited limit 0 (outcomes ++ r.finish found)).Agrees
      (limited limit 0 (outcomes ++ r.finish found')) := by
  cases r with
  | within step steps e proper =>
    exact agrees_limited limit 0 outcomes step.kind found found' step.reason
  | ready => exact .refl _
  | skipping => exact .refl _

/-- Only the tokens before the end of the file matter. -/
theorem agrees_of_contents (limit : Option Nat) {ts ts' : List Token}
    (h : contents ts = contents ts') : (ofTokens limit ts).Agrees (ofTokens limit ts') := by
  obtain ⟨found, hread⟩ := exists_ofTokens_eq limit ts
  obtain ⟨found', hread'⟩ := exists_ofTokens_eq limit ts'
  rw [hread, hread', ← h]
  exact agrees_finish limit _ _ found found'

end Reading

theorem Stream.contents_pullAll {s : Stream} (h : s.closed = false) :
    contents s.pullAll.1 = contents s.drain.1 := by
  induction s using Stream.drain.induct with
  | case1 s hs =>
    have hnext : s.next.1 = .endOfFile s.line := by
      simp [next, skipBlanks, read, hs]
    rw [drain, dif_pos hs, pullAll, if_neg (by simp [h]), dif_pos (by rw [hnext]; rfl), hnext]
    rfl
  | case2 s hs hterminal =>
    rw [drain, dif_neg hs, if_pos hterminal, pullAll, if_neg (by simp [h]), dif_pos hterminal]
  | case3 s hs hterminal ih =>
    have hend : s.next.1.kind ≠ .endOfFile :=
      Token.Kind.ne_endOfFile (Bool.eq_false_iff.2 hterminal)
    rw [drain, dif_neg hs, if_neg hterminal, pullAll, if_neg (by simp [h]), dif_neg hterminal,
      contents_cons hend, contents_cons hend, ih (by rw [next_closed, h])]

theorem head_append_blanks {cs w : List Char} {p : Char → Bool} (hw : ∀ c ∈ w, c ∈ blanks)
    (hblanks : ∀ c ∈ blanks, p c = false) (h : ∀ c ∈ cs.head?, p c = false) :
    ∀ c ∈ (cs ++ w).head?, p c = false := by
  cases cs with
  | cons d cs => exact h
  | nil => exact fun c hc => hblanks c (hw c (List.mem_of_mem_head? hc))

theorem Misspells.append_blanks {text after w : List Char} {message : String}
    (h : Misspells text after message) (hw : ∀ c ∈ w, c ∈ blanks) :
    ∃ text' after', text ++ after ++ w = text' ++ after' ∧ text'.head? = text.head? ∧
      Misspells text' after' message := by
  cases h with
  | word hword hne hafter =>
    refine ⟨text, after ++ w, List.append_assoc _ _ _, rfl, .word hword hne ?_⟩
    apply head_append_blanks hw ?_ hafter
    intro c hc
    exact Token.Kind.extendedBy_of_mem_blanks hc (.keyword .enumeration)
  | @unclosed body hbody =>
    refine ⟨quote :: (body ++ w), [], by simp, rfl, .unclosed ?_⟩
    intro hquote
    rcases List.mem_append.1 hquote with hmem | hmem
    · exact hbody hmem
    · exact absurd (hw quote hmem) (by decide)
  | stray hblank hdigit hword hother =>
    exact ⟨_, after ++ w, List.append_assoc _ _ _, rfl, .stray hblank hdigit hword hother⟩

/-- Blanks at the end of a text add no token but the end of the file. -/
theorem contents_tokenize_append {w : String} (hw : ∀ c ∈ w.toList, c ∈ blanks)
    (source : String) : contents (tokenize (source ++ w)) = contents (tokenize source) := by
  obtain ⟨tiles, rest, hs, htiles⟩ := tiles_tokenize source
  rcases htiles.cases_end with ⟨init, g, hchars, hg, hleads, -⟩ |
    ⟨init, t, message, front, rfl, hm, hleads, htokens⟩
  · apply hleads.contents_tokenize (List.forall_mem_append.2 ⟨hg, hw⟩)
    rw [String.toList_append, hs, hchars, List.append_assoc]
  · obtain ⟨text, after, happend, hhead, hm'⟩ := hm.append_blanks hw
    have hstart : (t.gap ++ (text ++ after)).head? = (t.chars ++ rest).head? := by
      obtain ⟨c, cs, htext⟩ := List.exists_cons_of_ne_nil hm.ne_nil
      rw [htext] at hhead
      simp [Tile.chars, htext, hhead]
    have hs' : (source ++ w).toList =
        init.flatMap Tile.chars ++ (t.gap ++ (text ++ after)) := by
      rw [String.toList_append, hs, ← happend]
      simp [Tile.chars]
    rw [hleads.tokenize_of_misspells hm' t.gap_blank hstart hs', htokens, List.nil_append]

/-- What is read does not depend on whether the end of the file is among the tokens. -/
theorem readings_agree_at_end {w : String} (hw : w.toList ∈ space) (source : String)
    (limit : Option Nat) :
    let listings :=
      [tokenize source, (Stream.ofText source.toList).pullAll.1, tokenize (source ++ w)]
    ∀ ts ∈ listings, ∀ ts' ∈ listings,
      (Reading.ofTokens limit ts).Agrees (Reading.ofTokens limit ts') := by
  intro listings
  have hcontents : ∀ ts ∈ listings, contents ts = contents (tokenize source) := by
    refine List.forall_mem_cons.2 ⟨rfl, List.forall_mem_cons.2 ⟨?_, List.forall_mem_singleton.2 ?_⟩⟩
    · exact Stream.contents_pullAll rfl
    · exact contents_tokenize_append hw.2 source
  intro ts hts ts' hts'
  exact Reading.agrees_of_contents limit ((hcontents ts hts).trans (hcontents ts' hts').symm)

theorem newline_mem_space : "\n".toList ∈ space := by
  have hchars : "\n".toList = ['\n'] := rfl
  rw [hchars]
  exact ⟨List.cons_ne_nil _ _, List.forall_mem_singleton.2 (by decide)⟩

theorem readings_agree_at_end_cut_short :
    "\n".toList ∈ space ∧
      (Reading.ofTokens none (tokenize "id enumeration 7")).Agrees
        (Reading.ofTokens none (tokenize ("id enumeration 7" ++ "\n"))) := by
  have hagree := readings_agree_at_end newline_mem_space "id enumeration 7" none
  refine ⟨newline_mem_space, hagree _ ?_ _ ?_⟩
  · exact List.mem_cons_self
  · exact List.mem_cons_of_mem _ (List.mem_cons_of_mem _ List.mem_cons_self)

end Codebook
