import Codebook.Proofs.Spelling

namespace Codebook

/-- A stretch of a source text: some blanks, and behind them the text of a token. -/
structure Tile where
  gap : List Char
  text : List Char
  gap_blank : ∀ c ∈ gap, c ∈ blanks
  text_start : ∀ c ∈ text.head?, c ∉ blanks

def Tile.chars (t : Tile) : List Char :=
  t.gap ++ t.text

/-- The line of what stands behind some characters. -/
def lineBehind (before : List Char) : Nat :=
  1 + before.count '\n'

theorem lineBehind_append (before cs : List Char) :
    lineBehind (before ++ cs) = lineBehind before + cs.count '\n' := by
  rw [lineBehind, lineBehind, List.count_append, Nat.add_assoc]

/-- Tiles behind some characters, with a token for each, and what is left untiled behind an
error. -/
inductive Tiles : List Char → List Tile → List Char → List Token → Prop where
  | nil {before : List Char} : Tiles before [] [] []
  | endOfFile {before : List Char} {t : Tile} : t.gap ≠ [] → t.text = [] →
      Tiles before [t] [] [.endOfFile (lineBehind (before ++ t.gap))]
  | error {before rest : List Char} {t : Tile} {message : String} :
      Misspells t.text rest message →
      Tiles before [t] rest [⟨.error, message, lineBehind (before ++ t.gap)⟩]
  | token {before rest lexeme : List Char} {t : Tile} {tiles : List Tile}
      {kind : Token.Kind} {tokens : List Token} :
      kind.Spells lexeme t.text →
      (∀ c ∈ (tiles.flatMap Tile.chars ++ rest).head?, kind.extendedBy c = false) →
      Tiles (before ++ t.chars) tiles rest tokens →
      Tiles before (t :: tiles) rest
        (⟨kind, String.ofList lexeme, lineBehind (before ++ t.gap)⟩ :: tokens)

theorem Token.Kind.Spells.ne_nil {kind : Token.Kind} {lexeme text : List Char}
    (h : kind.Spells lexeme text) : text ≠ [] := by
  cases h with
  | keyword word => cases word <;> decide
  | integer hne => exact hne
  | string => exact List.cons_ne_nil _ _
  | colon => exact List.cons_ne_nil _ _
  | semicolon => exact List.cons_ne_nil _ _

theorem Token.Kind.Spells.isTerminal {kind : Token.Kind} {lexeme text : List Char}
    (h : kind.Spells lexeme text) : kind.isTerminal = false := by
  cases h <;> rfl

theorem Misspells.ne_nil {text after : List Char} {message : String}
    (h : Misspells text after message) : text ≠ [] := by
  cases h with
  | word hword =>
    intro htext
    rw [htext] at hword
    exact hword
  | unclosed => exact List.cons_ne_nil _ _
  | stray => exact List.cons_ne_nil _ _

namespace Stream

variable {line : Nat} {closed : Bool} {gap text after : List Char}

theorem skipBlanks_append {cs : List Char} (hgap : ∀ c ∈ gap, c ∈ blanks)
    (hcs : ∀ c ∈ cs.head?, c ∉ blanks) :
    (⟨gap ++ cs, line, closed⟩ : Stream).skipBlanks =
      ⟨cs, line + gap.count '\n', closed⟩ := by
  have hg : ∀ c ∈ gap, isBlank c = true := fun c hc => isBlank_eq_true_iff.2 (hgap c hc)
  have hc : ∀ c ∈ cs.head?, isBlank c = false := fun c hc => isBlank_eq_false_iff.2 (hcs c hc)
  simp only [skipBlanks, takeWhile_append_boundary hg hc, dropWhile_append_boundary hg hc]

theorem next_of_read {t : Tile} {p : Token × Stream} (h : t.text = [] → after = [])
    (hread : (⟨t.text ++ after, line + t.gap.count '\n', closed⟩ : Stream).read = p) :
    (⟨t.chars ++ after, line, closed⟩ : Stream).next = p := by
  have hstart : ∀ c ∈ (t.text ++ after).head?, c ∉ blanks := by
    cases htext : t.text with
    | nil => simp [h htext]
    | cons c cs =>
      intro d hd
      exact t.text_start d (by rw [htext]; exact hd)
  rw [next, Tile.chars, List.append_assoc, skipBlanks_append t.gap_blank hstart, hread]

theorem next_of_spells {t : Tile} {kind : Token.Kind} {lexeme before : List Char}
    (h : kind.Spells lexeme t.text) (hafter : ∀ c ∈ after.head?, kind.extendedBy c = false) :
    (⟨t.chars ++ after, lineBehind before, closed⟩ : Stream).next =
      (⟨kind, String.ofList lexeme, lineBehind (before ++ t.gap)⟩,
        ⟨after, lineBehind (before ++ t.chars), closed⟩) := by
  apply next_of_read fun htext => absurd htext h.ne_nil
  rw [← lineBehind_append, read_of_spells h hafter, ← lineBehind_append, List.append_assoc,
    Tile.chars]

theorem next_of_misspells {t : Tile} {message : String} {before : List Char}
    (h : Misspells t.text after message) :
    (⟨t.chars ++ after, lineBehind before, closed⟩ : Stream).next =
      (⟨.error, message, lineBehind (before ++ t.gap)⟩,
        ⟨after, lineBehind (before ++ t.chars), closed⟩) := by
  apply next_of_read fun htext => absurd htext h.ne_nil
  rw [← lineBehind_append, read_of_misspells h, ← lineBehind_append, List.append_assoc,
    Tile.chars]

theorem next_of_blanks {t : Tile} {before : List Char} (h : t.text = []) :
    (⟨t.chars, lineBehind before, closed⟩ : Stream).next =
      (.endOfFile (lineBehind (before ++ t.gap)),
        ⟨[], lineBehind (before ++ t.gap), closed⟩) := by
  rw [← List.append_nil t.chars]
  apply next_of_read fun _ => rfl
  rw [h, ← lineBehind_append]
  rfl

theorem drain_of_terminal {s : Stream} (hs : s.unread ≠ []) {t : Token} {rest : Stream}
    (h : s.next = (t, rest)) (ht : t.isTerminal = true) : s.drain.1 = [t] := by
  rw [drain, dif_neg hs, h, if_pos ht]

theorem drain_of_not_terminal {s : Stream} (hs : s.unread ≠ []) {t : Token} {rest : Stream}
    (h : s.next = (t, rest)) (ht : t.isTerminal = false) : s.drain.1 = t :: rest.drain.1 := by
  rw [drain, dif_neg hs, h, if_neg (by simp [ht])]

end Stream

theorem Tile.chars_ne_nil {t : Tile} (h : t.text ≠ []) : t.chars ≠ [] := by
  intro hnil
  exact h (List.append_eq_nil_iff.1 hnil).2

theorem Tile.ext_of_chars {t t' : Tile} (h : t.chars = t'.chars) : t = t' := by
  have hgap (t : Tile) : t.gap = t.chars.takeWhile isBlank := by
    have hg : ∀ c ∈ t.gap, isBlank c = true := fun c hc =>
      isBlank_eq_true_iff.2 (t.gap_blank c hc)
    have hc : ∀ c ∈ t.text.head?, isBlank c = false := fun c hc =>
      isBlank_eq_false_iff.2 (t.text_start c hc)
    exact (takeWhile_append_boundary hg hc).symm
  have hgaps : t.gap = t'.gap := by rw [hgap t, hgap t', h]
  have htexts : t.text = t'.text := by
    rw [Tile.chars, Tile.chars, hgaps] at h
    exact List.append_cancel_left h
  cases t
  cases t'
  cases hgaps
  cases htexts
  rfl

namespace Tiles

variable {before rest : List Char} {tiles : List Tile} {tokens : List Token}

theorem exists_tile {a : Token} (h : Tiles before tiles rest (a :: tokens)) :
    ∃ t tail, tiles = t :: tail := by
  cases h with
  | endOfFile => exact ⟨_, _, rfl⟩
  | error => exact ⟨_, _, rfl⟩
  | token => exact ⟨_, _, rfl⟩

theorem next {t : Tile} {a : Token} (h : Tiles before (t :: tiles) rest (a :: tokens))
    (closed : Bool) :
    t.chars ≠ [] ∧
      (⟨t.chars ++ (tiles.flatMap Tile.chars ++ rest), lineBehind before, closed⟩ : Stream).next =
        (a, ⟨tiles.flatMap Tile.chars ++ rest, lineBehind (before ++ t.chars), closed⟩) ∧
      (a.isTerminal = false ∧ Tiles (before ++ t.chars) tiles rest tokens ∨
        a.isTerminal = true ∧ tiles = [] ∧ tokens = []) := by
  cases h with
  | endOfFile hgap htext =>
    refine ⟨fun hnil => hgap (List.append_eq_nil_iff.1 hnil).1, ?_, .inr ⟨rfl, rfl, rfl⟩⟩
    rw [List.flatMap_nil, List.append_nil, List.append_nil, Stream.next_of_blanks htext,
      Tile.chars, htext, List.append_nil]
  | error hm =>
    exact ⟨Tile.chars_ne_nil hm.ne_nil, Stream.next_of_misspells hm, .inr ⟨rfl, rfl, rfl⟩⟩
  | token hs hafter htiles =>
    exact ⟨Tile.chars_ne_nil hs.ne_nil, Stream.next_of_spells hs hafter,
      .inl ⟨hs.isTerminal, htiles⟩⟩

theorem drain (h : Tiles before tiles rest tokens) (closed : Bool) :
    (⟨tiles.flatMap Tile.chars ++ rest, lineBehind before, closed⟩ : Stream).drain.1 =
      tokens := by
  induction tokens generalizing before tiles with
  | nil =>
    cases h
    rw [Stream.drain]
    rfl
  | cons a tokens ih =>
    obtain ⟨t, tail, rfl⟩ := h.exists_tile
    obtain ⟨hchars, hnext, hbehind⟩ := h.next closed
    have hunread : t.chars ++ (tail.flatMap Tile.chars ++ rest) ≠ [] := fun hnil =>
      hchars (List.append_eq_nil_iff.1 hnil).1
    rw [List.flatMap_cons, List.append_assoc]
    rcases hbehind with ⟨ha, htiles⟩ | ⟨ha, rfl, rfl⟩
    · rw [Stream.drain_of_not_terminal hunread hnext ha, ih htiles]
    · exact Stream.drain_of_terminal hunread hnext ha

theorem unique {rest' : List Char} {tiles' : List Tile} (h : Tiles before tiles rest tokens)
    (h' : Tiles before tiles' rest' tokens)
    (hs : tiles.flatMap Tile.chars ++ rest = tiles'.flatMap Tile.chars ++ rest') :
    tiles = tiles' ∧ rest = rest' := by
  induction tokens generalizing before tiles tiles' with
  | nil =>
    cases h
    cases h'
    exact ⟨rfl, rfl⟩
  | cons a tokens ih =>
    obtain ⟨t, tail, rfl⟩ := h.exists_tile
    obtain ⟨t', tail', rfl⟩ := h'.exists_tile
    obtain ⟨-, hnext, hbehind⟩ := h.next false
    obtain ⟨-, hnext', hbehind'⟩ := h'.next false
    rw [List.flatMap_cons, List.flatMap_cons, List.append_assoc, List.append_assoc] at hs
    have hafter : tail.flatMap Tile.chars ++ rest = tail'.flatMap Tile.chars ++ rest' := by
      rw [hs, hnext'] at hnext
      exact congrArg (fun p => p.2.unread) hnext.symm
    rw [hafter] at hs
    obtain rfl := Tile.ext_of_chars (List.append_cancel_right hs)
    rcases hbehind with ⟨ha, htiles⟩ | ⟨ha, rfl, rfl⟩
    · rcases hbehind' with ⟨-, htiles'⟩ | ⟨ha', -⟩
      · obtain ⟨rfl, rfl⟩ := ih htiles htiles' hafter
        exact ⟨rfl, rfl⟩
      · rw [ha] at ha'
        cases ha'
    · rcases hbehind' with ⟨ha', -⟩ | ⟨-, rfl, -⟩
      · rw [ha] at ha'
        cases ha'
      · exact ⟨rfl, hafter⟩

theorem eq_tokenize {source : String} (h : Tiles [] tiles rest tokens)
    (hs : source.toList = tiles.flatMap Tile.chars ++ rest) : tokens = tokenize source := by
  rw [tokenize, Stream.ofText, hs]
  exact (h.drain false).symm

end Tiles

theorem exists_gap (cs : List Char) : ∃ gap after, cs = gap ++ after ∧ (∀ c ∈ gap, c ∈ blanks) ∧
    ∀ c ∈ after.head?, c ∉ blanks :=
  ⟨cs.takeWhile isBlank, cs.dropWhile isBlank, List.takeWhile_append_dropWhile.symm,
    fun c hc => isBlank_eq_true_iff.1 (of_mem_takeWhile c hc),
    fun c hc => isBlank_eq_false_iff.1 (head_dropWhile c hc)⟩

theorem exists_tiles (before cs : List Char) :
    ∃ tiles rest tokens, cs = tiles.flatMap Tile.chars ++ rest ∧
      Tiles before tiles rest tokens := by
  induction h : cs.length using Nat.strongRecOn generalizing before cs with
  | ind n ih =>
    subst h
    obtain ⟨gap, behind, rfl, hgap, hbehind⟩ := exists_gap cs
    cases behind with
    | nil =>
      cases gap with
      | nil => exact ⟨[], [], [], rfl, .nil⟩
      | cons c gap =>
        refine ⟨[⟨c :: gap, [], hgap, by simp⟩], [], _, ?_, .endOfFile (by simp) rfl⟩
        simp [Tile.chars]
    | cons c cs =>
      have hc : c ∉ blanks := hbehind c rfl
      obtain ⟨text, after, htext, hcase⟩ := exists_spells_or_misspells hc cs
      have hstart (hne : text ≠ []) : ∀ d ∈ text.head?, d ∉ blanks := by
        intro d hd
        apply hbehind d
        rw [htext, List.head?_append, hd]
        rfl
      rcases hcase with ⟨kind, lexeme, hs, hafter⟩ | ⟨message, hm⟩
      · have hlt : after.length < (gap ++ c :: cs).length := by
          have hpos := List.length_pos_iff.2 hs.ne_nil
          rw [htext, List.length_append, List.length_append]
          omega
        let t : Tile := ⟨gap, text, hgap, hstart hs.ne_nil⟩
        obtain ⟨tiles, rest, tokens, rfl, htiles⟩ := ih _ hlt (before ++ t.chars) after rfl
        refine ⟨t :: tiles, rest, _, ?_, .token hs hafter htiles⟩
        rw [htext, List.flatMap_cons, Tile.chars]
        simp only [List.append_assoc]
        rfl
      · let t : Tile := ⟨gap, text, hgap, hstart hm.ne_nil⟩
        refine ⟨[t], after, _, ?_, .error hm⟩
        rw [htext, List.flatMap_singleton, Tile.chars, List.append_assoc]

theorem tiles_tokenize (source : String) :
    ∃ tiles rest, source.toList = tiles.flatMap Tile.chars ++ rest ∧
      Tiles [] tiles rest (tokenize source) := by
  obtain ⟨tiles, rest, tokens, hs, htiles⟩ := exists_tiles [] source.toList
  obtain rfl := htiles.eq_tokenize hs
  exact ⟨tiles, rest, hs, htiles⟩

/-- Every source text is tiled in one way, by the tokens that are read from it. -/
theorem tokenize_tiles (source : String) :
    ∃ tiles rest, source.toList = tiles.flatMap Tile.chars ++ rest ∧
      Tiles [] tiles rest (tokenize source) ∧
      ∀ tiles' rest' tokens, source.toList = tiles'.flatMap Tile.chars ++ rest' →
        Tiles [] tiles' rest' tokens →
          tiles' = tiles ∧ rest' = rest ∧ tokens = tokenize source := by
  obtain ⟨tiles, rest, hs, htiles⟩ := tiles_tokenize source
  refine ⟨tiles, rest, hs, htiles, ?_⟩
  intro tiles' rest' tokens hs' htiles'
  obtain rfl := htiles'.eq_tokenize hs'
  obtain ⟨rfl, rfl⟩ := htiles'.unique htiles (hs' ▸ hs)
  exact ⟨rfl, rfl, rfl⟩

end Codebook
