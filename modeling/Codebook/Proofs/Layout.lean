import Codebook.Proofs.Lines
import Codebook.Proofs.Seam

namespace Codebook

/-- Texts that differ in the runs of blanks outside of strings. What is left may stay as it is. -/
inductive Relaid : List Char → List Char → Prop where
  | same (cs : List Char) : Relaid cs cs
  | blanks {w w' cs cs' : List Char} : w ∈ space → w' ∈ space →
      (∀ c ∈ cs.head?, c ∉ Codebook.blanks) → Relaid cs cs' → Relaid (w ++ cs) (w' ++ cs')
  | string {body cs cs' : List Char} : quote ∉ body → Relaid cs cs' →
      Relaid (quote :: (body ++ quote :: cs)) (quote :: (body ++ quote :: cs'))
  | other {c : Char} {cs cs' : List Char} : c ∉ Codebook.blanks → c ≠ quote → Relaid cs cs' →
      Relaid (c :: cs) (c :: cs')

/-- Two source texts that differ in layout, and in whether blanks stand at the start. -/
def SameButLayout (source source' : String) : Prop :=
  ∃ w ∈ gap, ∃ w' ∈ gap, ∃ cs cs', Relaid cs cs' ∧
    source.toList = w ++ cs ∧ source'.toList = w' ++ cs'

theorem quote_not_mem_blanks : quote ∉ blanks := by
  decide

theorem plain_of_continuesWord {c : Char} (h : continuesWord c = true) :
    c ∉ blanks ∧ c ≠ quote := by
  apply And.intro
  · intro hblank
    have hnot : continuesWord c = false :=
      Token.Kind.extendedBy_of_mem_blanks hblank (.keyword .enumeration)
    rw [h] at hnot
    cases hnot
  · rintro rfl
    exact absurd h (by decide)

namespace Relaid

variable {cs cs' after : List Char}

theorem head (h : Relaid cs cs') : ∀ c ∈ cs'.head?, c ∈ cs.head? ∨ c ∈ Codebook.blanks := by
  intro c hc
  cases h with
  | same => exact .inl hc
  | @blanks w w' cs cs' hw hw' =>
    rw [List.head?_append_of_ne_nil _ hw'.1] at hc
    exact .inr (hw'.2 c (List.mem_of_mem_head? hc))
  | string => exact .inl hc
  | other => exact .inl hc

theorem nil (h : Relaid [] cs') : cs' = [] := by
  generalize hcs : ([] : List Char) = cs at h
  cases h with
  | same => rfl
  | blanks hw => exact absurd (List.append_eq_nil_iff.1 hcs.symm).1 hw.1
  | string => cases hcs
  | other => cases hcs

theorem cons {c : Char} (h : Relaid (c :: cs) cs') (hblank : c ∉ Codebook.blanks)
    (hquote : c ≠ quote) : ∃ after, cs' = c :: after ∧ Relaid cs after := by
  generalize hcs : c :: cs = ds at h
  cases h with
  | same => exact ⟨cs, hcs.symm, .same cs⟩
  | @blanks w w' _ _ hw =>
    obtain ⟨d, w, rfl⟩ := List.exists_cons_of_ne_nil hw.1
    cases hcs
    exact absurd (hw.2 c List.mem_cons_self) hblank
  | string =>
    cases hcs
    exact absurd rfl hquote
  | other _ _ hrest =>
    cases hcs
    exact ⟨_, rfl, hrest⟩

theorem plain {text : List Char} (h : Relaid (text ++ cs) cs')
    (htext : ∀ c ∈ text, c ∉ Codebook.blanks ∧ c ≠ quote) :
    ∃ after, cs' = text ++ after ∧ Relaid cs after := by
  induction text generalizing cs' with
  | nil => exact ⟨cs', rfl, h⟩
  | cons c text ih =>
    obtain ⟨⟨hblank, hquote⟩, htext⟩ := List.forall_mem_cons.1 htext
    obtain ⟨rest, rfl, hrest⟩ := h.cons hblank hquote
    obtain ⟨after, rfl, hafter⟩ := ih hrest htext
    exact ⟨after, rfl, hafter⟩

theorem open_quote (h : Relaid (quote :: cs) cs') : cs' = quote :: cs ∨
    ∃ body rest after, quote ∉ body ∧ cs = body ++ quote :: rest ∧
      cs' = quote :: (body ++ quote :: after) ∧ Relaid rest after := by
  generalize hcs : quote :: cs = ds at h
  cases h with
  | same => exact .inl rfl
  | @blanks w w' _ _ hw =>
    obtain ⟨d, w, rfl⟩ := List.exists_cons_of_ne_nil hw.1
    obtain ⟨rfl, -⟩ := List.cons.inj hcs
    exact absurd (hw.2 quote List.mem_cons_self) quote_not_mem_blanks
  | @string body rest after hbody hrest =>
    exact .inr ⟨body, rest, after, hbody, (List.cons.inj hcs).2, rfl, hrest⟩
  | other _ hquote => exact absurd (List.cons.inj hcs).1.symm hquote

theorem quoted {body : List Char} (h : Relaid (quote :: (body ++ quote :: cs)) cs')
    (hbody : quote ∉ body) :
    ∃ after, cs' = quote :: (body ++ quote :: after) ∧ Relaid cs after := by
  rcases h.open_quote with rfl | ⟨body', rest, after, hbody', hcs, rfl, hrest⟩
  · exact ⟨cs, rfl, .same cs⟩
  · -- Both strings end at the first quote.
    have hsplit := congrArg Piece.afterQuote hcs
    rw [Piece.afterQuote_closed hbody, Piece.afterQuote_closed hbody'] at hsplit
    cases hsplit
    exact ⟨after, rfl, hrest⟩

theorem unclosed {body : List Char} (h : Relaid (quote :: body) cs') (hbody : quote ∉ body) :
    cs' = quote :: body := by
  rcases h.open_quote with rfl | ⟨body', rest, after, -, rfl, -⟩
  · rfl
  · exact absurd (List.mem_append_right body' List.mem_cons_self) hbody

theorem blanks_append {w : List Char} (h : Relaid (w ++ cs) cs') (hw : w ∈ gap)
    (hcs : ∀ c ∈ cs.head?, c ∉ Codebook.blanks) :
    ∃ w' after, cs' = w' ++ after ∧ w' ∈ gap ∧ (w ≠ [] → w' ≠ []) ∧ Relaid cs after := by
  by_cases hnil : w = []
  · subst hnil
    exact ⟨[], cs', rfl, hw, id, h⟩
  generalize hds : w ++ cs = ds at h
  cases h with
  | same => exact ⟨w, cs, hds.symm, hw, id, .same cs⟩
  | @blanks v v' rest rest' hv hv' hrest hrelaid =>
    let t : Tile := ⟨w, cs, hw, hcs⟩
    let u : Tile := ⟨v, rest, hv.2, hrest⟩
    have htile : t = u := Tile.ext_of_chars hds
    obtain rfl : cs = rest := congrArg Tile.text htile
    exact ⟨v', rest', rfl, hv'.2, fun _ => hv'.1, hrelaid⟩
  | string =>
    obtain ⟨d, w, rfl⟩ := List.exists_cons_of_ne_nil hnil
    obtain ⟨rfl, -⟩ := List.cons.inj hds
    exact absurd (hw quote List.mem_cons_self) quote_not_mem_blanks
  | @other c _ _ hblank =>
    obtain ⟨d, w, rfl⟩ := List.exists_cons_of_ne_nil hnil
    obtain ⟨rfl, -⟩ := List.cons.inj hds
    exact absurd (hw d List.mem_cons_self) hblank

theorem spells {kind : Token.Kind} {lexeme text : List Char} (hs : kind.Spells lexeme text)
    (h : Relaid (text ++ cs) cs') : ∃ after, cs' = text ++ after ∧ Relaid cs after := by
  cases hs with
  | keyword word =>
    apply h.plain
    intro c hc
    exact plain_of_continuesWord ((isWord_text word).continuesWord c hc)
  | integer _ hdigits =>
    apply h.plain
    intro c hc
    exact plain_of_continuesWord (continuesWord_of_isDigit (hdigits c hc))
  | @string body hbody =>
    rw [List.cons_append, List.append_assoc] at h
    obtain ⟨after, rfl, hafter⟩ := h.quoted hbody
    exact ⟨after, by simp, hafter⟩
  | colon => exact h.plain (List.forall_mem_singleton.2 (by decide))
  | semicolon => exact h.plain (List.forall_mem_singleton.2 (by decide))

theorem misspells {text : List Char} {message : String} (hm : Misspells text cs message)
    (h : Relaid (text ++ cs) cs') : ∃ after, cs' = text ++ after ∧ Misspells text after message := by
  cases hm with
  | word hword hne hafter =>
    obtain ⟨after, rfl, hrest⟩ := h.plain fun c hc =>
      plain_of_continuesWord (hword.continuesWord c hc)
    refine ⟨after, rfl, .word hword hne fun c hc => ?_⟩
    rcases hrest.head c hc with hsame | hblank
    · exact hafter c hsame
    · exact Token.Kind.extendedBy_of_mem_blanks hblank (.keyword .enumeration)
  | unclosed hbody =>
    rw [List.append_nil] at h
    exact ⟨[], by rw [h.unclosed hbody, List.append_nil], .unclosed hbody⟩
  | @stray c _ hblank hdigit hstart hother =>
    have hquote : c ≠ quote := fun hc => hother (hc ▸ List.mem_cons_self)
    have hplain : ∀ d ∈ [c], d ∉ Codebook.blanks ∧ d ≠ quote := by simp [hblank, hquote]
    obtain ⟨after, rfl, -⟩ := h.plain hplain
    exact ⟨after, rfl, .stray hblank hdigit hstart hother⟩

end Relaid

/-- A token without the line on which it stands. -/
def Token.unplaced (t : Token) : Token :=
  t.mapLine fun _ => 0

/-- A rejection without its line, nor that of the token that was found. -/
def Rejection.unplaced (r : Rejection) : Rejection :=
  r.mapLine fun _ => 0

/-- Tiles are read as the same tokens in another layout, wherever they stand. -/
theorem Tiles.relaid {before rest cs' : List Char} {tiles : List Tile} {tokens : List Token}
    (h : Tiles before tiles rest tokens) (hr : Relaid (tiles.flatMap Tile.chars ++ rest) cs')
    (before' : List Char) : ∃ tokens', Lexes before' cs' tokens' ∧
      tokens'.map Token.unplaced = tokens.map Token.unplaced := by
  induction h generalizing before' cs' with
  | nil =>
    obtain rfl := hr.nil
    exact ⟨[], ⟨[], [], rfl, .nil⟩, rfl⟩
  | @endOfFile _ t hgap htext =>
    have hchars : [t].flatMap Tile.chars ++ [] = t.gap ++ [] := by
      simp [Tile.chars, htext]
    rw [hchars] at hr
    obtain ⟨w, after, rfl, hw, hne, hafter⟩ := hr.blanks_append t.gap_blank (by simp)
    obtain rfl := hafter.nil
    let u : Tile := ⟨w, [], hw, by simp⟩
    refine ⟨_, ⟨[u], [], ?_, .endOfFile (hne hgap) rfl⟩, rfl⟩
    simp [Tile.chars, u]
  | @error _ rest t message hm =>
    rw [List.flatMap_singleton, Tile.chars, List.append_assoc] at hr
    have hstart : ∀ c ∈ (t.text ++ rest).head?, c ∉ blanks := by
      rw [List.head?_append_of_ne_nil _ hm.ne_nil]
      exact t.text_start
    obtain ⟨w, after, rfl, hw, -, hafter⟩ := hr.blanks_append t.gap_blank hstart
    obtain ⟨after, rfl, hm'⟩ := hafter.misspells hm
    exact ⟨_, hm'.lexes hw before', rfl⟩
  | @token _ rest lexeme t tiles kind tokens hs hbehind _ ih =>
    rw [List.flatMap_cons, Tile.chars, List.append_assoc, List.append_assoc] at hr
    have hstart : ∀ c ∈ (t.text ++ (tiles.flatMap Tile.chars ++ rest)).head?, c ∉ blanks := by
      rw [List.head?_append_of_ne_nil _ hs.ne_nil]
      exact t.text_start
    obtain ⟨w, after, rfl, hw, -, hafter⟩ := hr.blanks_append t.gap_blank hstart
    obtain ⟨after, rfl, hrest⟩ := hafter.spells hs
    let u : Tile := ⟨w, t.text, hw, t.text_start⟩
    obtain ⟨tokens', hlexes, htokens⟩ := ih hrest (before' ++ u.chars)
    have hend : ∀ c ∈ after.head?, kind.extendedBy c = false := by
      intro c hc
      rcases hrest.head c hc with hsame | hblank
      · exact hbehind c hsame
      · exact Token.Kind.extendedBy_of_mem_blanks hblank kind
    refine ⟨_, .cons u hs hend hlexes (List.append_assoc _ _ _).symm, ?_⟩
    rw [List.map_cons, List.map_cons, htokens]
    rfl

section Source

variable {source source' : String}

theorem SameButLayout.tokens (h : SameButLayout source source')
    (hs : ∃ c ∈ source.toList, c ∉ blanks) :
    (tokenize source').map Token.unplaced = (tokenize source).map Token.unplaced := by
  obtain ⟨w, hw, w', hw', cs, cs', hrelaid, hsource, hsource'⟩ := h
  obtain ⟨tiles, rest, tokens, rfl, htiles⟩ := exists_tiles ([] ++ w) cs
  obtain ⟨tokens', hlexes', htokens⟩ := htiles.relaid hrelaid ([] ++ w')
  have hlexes : Lexes ([] ++ w) (tiles.flatMap Tile.chars ++ rest) tokens :=
    ⟨tiles, rest, rfl, htiles⟩
  have hne : tokens ≠ [] := by
    rintro rfl
    obtain ⟨c, hc, hblank⟩ := hs
    rw [hsource, hlexes.eq_nil, List.append_nil] at hc
    exact hblank (hw c hc)
  have hne' : tokens' ≠ [] := by
    rintro rfl
    exact hne (List.map_eq_nil_iff.1 htokens.symm)
  have hread := hlexes.of_blanks hw hne
  have hread' := hlexes'.of_blanks hw' hne'
  rw [← hsource] at hread
  rw [← hsource'] at hread'
  rw [← hread.eq_tokenize, ← hread'.eq_tokenize, htokens]

/-- In another layout of the blanks outside strings a text has the same tokens and the same reading,
but for lines. -/
theorem reading_ignores_layout (hs : ∃ c ∈ source.toList, c ∉ blanks)
    (h : SameButLayout source source') :
    (tokenize source').map (fun t => (t.kind, t.lexeme)) =
        (tokenize source).map (fun t => (t.kind, t.lexeme)) ∧
      ∀ limit,
        let reading := (readSource limit source).1
        let reading' := (readSource limit source').1
        reading'.entries = reading.entries ∧ reading'.truncated = reading.truncated ∧
          reading'.rejections.map Rejection.unplaced =
            reading.rejections.map Rejection.unplaced := by
  have htokens := h.tokens hs
  apply And.intro
  · have hpairs := congrArg (List.map fun t : Token => (t.kind, t.lexeme)) htokens
    rw [List.map_map, List.map_map] at hpairs
    exact hpairs
  · intro limit reading reading'
    have hreading := Reading.ofTokens_mapLine (f := fun _ => 0) limit (tokenize source)
    have hreading' := Reading.ofTokens_mapLine (f := fun _ => 0) limit (tokenize source')
    have hsame : reading'.mapLine (fun _ => 0) = reading.mapLine (fun _ => 0) :=
      hreading'.symm.trans ((congrArg (Reading.ofTokens limit) htokens).trans hreading)
    obtain ⟨hentries, hrejections, htruncated⟩ := Reading.mk.inj hsame
    exact ⟨hentries, htruncated, hrejections⟩

end Source

theorem sameButLayout_word_and_string :
    SameButLayout "id 'a  b'# c" "\n\tid\r\n'a  b'# c" := by
  have hspace : [' '] ∈ space := ⟨List.cons_ne_nil _ _, by simp [blanks]⟩
  have hspace' : ['\r', '\n'] ∈ space := ⟨List.cons_ne_nil _ _, by simp [blanks]⟩
  have hstart : ['\n', '\t'] ∈ gap :=
    List.forall_mem_cons.2 ⟨by decide, List.forall_mem_singleton.2 (by decide)⟩
  have hquote : ∀ c ∈ "'a  b'# c".toList.head?, c ∉ blanks := by
    rintro c ⟨⟩
    exact quote_not_mem_blanks
  have hbehind := Relaid.blanks hspace hspace' hquote (.same _)
  have hrelaid : Relaid ('i' :: 'd' :: _) ('i' :: 'd' :: _) :=
    .other (by decide) (by decide) (.other (by decide) (by decide) hbehind)
  exact ⟨[], List.forall_mem_nil _, _, hstart, _, _, hrelaid, rfl, rfl⟩

theorem reading_ignores_layout_word_and_string :
    (∃ c ∈ "id 'a  b'# c".toList, c ∉ blanks) ∧
      SameButLayout "id 'a  b'# c" "\n\tid\r\n'a  b'# c" ∧
      (tokenize "\n\tid\r\n'a  b'# c").map (fun t => (t.kind, t.lexeme)) =
        (tokenize "id 'a  b'# c").map (fun t => (t.kind, t.lexeme)) ∧
      (readSource (some 1) "\n\tid\r\n'a  b'# c").1.rejections.map Rejection.unplaced =
        (readSource (some 1) "id 'a  b'# c").1.rejections.map Rejection.unplaced := by
  have hs : ∃ c ∈ "id 'a  b'# c".toList, c ∉ blanks := ⟨'i', by decide, by decide⟩
  obtain ⟨htokens, hreading⟩ := reading_ignores_layout hs sameButLayout_word_and_string
  exact ⟨hs, sameButLayout_word_and_string, htokens, (hreading (some 1)).2.2⟩

end Codebook
