import Codebook.Proofs.Phrase
import Codebook.Proofs.Reader

namespace Codebook

/-- Tiles between some characters and others, with their tokens. What follows them must not make the
last token longer. -/
inductive Leads : List Char → List Tile → List Char → List Token → Prop where
  | nil {before behind : List Char} : Leads before [] behind []
  | cons {before behind lexeme : List Char} {t : Tile} {tiles : List Tile} {kind : Token.Kind}
      {tokens : List Token} :
      kind.Spells lexeme t.text →
      (∀ c ∈ (tiles.flatMap Tile.chars ++ behind).head?, kind.extendedBy c = false) →
      Leads (before ++ t.chars) tiles behind tokens →
      Leads before (t :: tiles) behind
        (⟨kind, String.ofList lexeme, lineBehind (before ++ t.gap)⟩ :: tokens)

namespace Leads

variable {before behind behind' : List Char} {tiles : List Tile} {tokens : List Token}

theorem isTerminal (h : Leads before tiles behind tokens) :
    ∀ t ∈ tokens, t.isTerminal = false := by
  induction h with
  | nil => exact List.forall_mem_nil _
  | cons hs _ _ ih => exact List.forall_mem_cons.2 ⟨hs.isTerminal, ih⟩

/-- What follows may change, as long as it starts as it did, or with a blank. -/
theorem replace (h : Leads before tiles behind tokens)
    (hbehind : ∀ c ∈ behind'.head?, c ∈ behind.head? ∨ c ∈ blanks) :
    Leads before tiles behind' tokens := by
  induction h with
  | nil => exact .nil
  | @cons _ _ _ t tiles kind _ hs hafter _ ih =>
    refine .cons hs ?_ (ih hbehind)
    intro c hc
    cases hchars : tiles.flatMap Tile.chars with
    | cons d ds =>
      rw [hchars] at hc hafter
      exact hafter c hc
    | nil =>
      rw [hchars] at hc hafter
      rcases hbehind c hc with hsame | hblank
      · exact hafter c hsame
      · exact Token.Kind.extendedBy_of_mem_blanks hblank kind

theorem lexes {tail : List Token} (h : Leads before tiles behind tokens)
    (htail : Lexes (before ++ tiles.flatMap Tile.chars) behind tail) :
    Lexes before (tiles.flatMap Tile.chars ++ behind) (tokens ++ tail) := by
  induction h with
  | nil =>
    rw [List.flatMap_nil, List.append_nil] at htail
    exact htail
  | cons hs hafter _ ih =>
    rw [List.flatMap_cons, ← List.append_assoc] at htail
    exact .cons _ hs hafter (ih htail) (by rw [List.flatMap_cons, List.append_assoc])

end Leads

theorem Token.Kind.ne_endOfFile {kind : Token.Kind} (h : kind.isTerminal = false) :
    kind ≠ .endOfFile := by
  rintro rfl
  cases h

theorem Token.Kind.ne_error {kind : Token.Kind} (h : kind.isTerminal = false) :
    kind ≠ .error := by
  rintro rfl
  cases h

theorem Lexes.eq_tokenize {source : String} {tokens : List Token}
    (h : Lexes [] source.toList tokens) : tokens = tokenize source := by
  obtain ⟨tiles, rest, hs, htiles⟩ := h
  exact htiles.eq_tokenize hs

theorem Lexes.eq_nil {before cs : List Char} (h : Lexes before cs []) : cs = [] := by
  obtain ⟨tiles, rest, rfl, htiles⟩ := h
  cases htiles
  rfl

theorem lexes_tokenize (source : String) : Lexes [] source.toList (tokenize source) :=
  tiles_tokenize source

theorem exists_lexes_blanks {cs : List Char} (h : ∀ c ∈ cs, c ∈ blanks) (before : List Char) :
    ∃ tokens, Lexes before cs tokens ∧ contents tokens = [] := by
  obtain ⟨tokens, hlexes, hfilled⟩ := exists_lexes_of_mem_gap h before
  refine ⟨tokens, hlexes, ?_⟩
  cases hfilled with
  | nil hend =>
    cases tokens with
    | nil => rfl
    | cons t ts => exact List.takeWhile_cons_of_neg (by simp [hend t rfl])

theorem Misspells.start {text after : List Char} {message : String}
    (h : Misspells text after message) : ∀ c ∈ text.head?, c ∉ blanks := by
  intro c hc hblank
  cases h with
  | word hword =>
    have hcontinues := continuesWord_of_startsWord (startsWord_head hword hc)
    rw [show continuesWord c = false from
      Token.Kind.extendedBy_of_mem_blanks hblank (.keyword .enumeration)] at hcontinues
    cases hcontinues
  | unclosed => cases hc; exact absurd hblank (by decide)
  | stray hstray => cases hc; exact hstray hblank

theorem Misspells.lexes {text after : List Char} {message : String}
    (h : Misspells text after message) {w : List Char} (hw : ∀ c ∈ w, c ∈ blanks)
    (before : List Char) : Lexes before (w ++ (text ++ after))
      [⟨.error, message, lineBehind (before ++ w)⟩] := by
  let t : Tile := ⟨w, text, hw, h.start⟩
  refine ⟨[t], after, ?_, .error h⟩
  rw [List.flatMap_singleton, Tile.chars, List.append_assoc]

namespace Leads

variable {behind : List Char} {tiles : List Tile} {tokens : List Token} {source : String}

theorem contents_tokenize (h : Leads [] tiles behind tokens) {w : List Char}
    (hw : ∀ c ∈ w, c ∈ blanks) (hs : source.toList = tiles.flatMap Tile.chars ++ w) :
    contents (tokenize source) = tokens := by
  have hleads : Leads [] tiles w tokens :=
    h.replace fun c hc => .inr (hw c (List.mem_of_mem_head? hc))
  obtain ⟨tail, htail, hnone⟩ := exists_lexes_blanks hw ([] ++ tiles.flatMap Tile.chars)
  have hlexes := hleads.lexes htail
  rw [← hs] at hlexes
  rw [← hlexes.eq_tokenize, contents_append _ fun t ht => Token.Kind.ne_endOfFile (h.isTerminal t ht),
    hnone, List.append_nil]

theorem tokenize_of_misspells (h : Leads [] tiles behind tokens) {gap text after : List Char}
    {message : String} (hm : Misspells text after message) (hgap : ∀ c ∈ gap, c ∈ blanks)
    (hbehind : (gap ++ (text ++ after)).head? = behind.head?)
    (hs : source.toList = tiles.flatMap Tile.chars ++ (gap ++ (text ++ after))) :
    tokenize source =
      tokens ++ [⟨.error, message, lineBehind (tiles.flatMap Tile.chars ++ gap)⟩] := by
  have hleads : Leads [] tiles (gap ++ (text ++ after)) tokens :=
    h.replace fun c hc => .inl (hbehind ▸ hc)
  have hlexes := hleads.lexes (hm.lexes hgap _)
  rw [← hs] at hlexes
  exact hlexes.eq_tokenize.symm

end Leads

theorem Lexes.of_blanks {before w cs : List Char} {tokens : List Token}
    (hw : ∀ c ∈ w, c ∈ blanks) (h : Lexes (before ++ w) cs tokens) (hne : tokens ≠ []) :
    Lexes before (w ++ cs) tokens := by
  obtain ⟨tiles, rest, rfl, htiles⟩ := h
  let widen (t : Tile) : Tile :=
    ⟨w ++ t.gap, t.text, List.forall_mem_append.2 ⟨hw, t.gap_blank⟩, t.text_start⟩
  have hchars (t : Tile) : (widen t).chars = w ++ t.chars := List.append_assoc _ _ _
  cases htiles with
  | nil => exact absurd rfl hne
  | @endOfFile _ t hgap htext =>
    rw [List.append_assoc]
    refine ⟨[widen t], [], by simp [hchars], .endOfFile ?_ htext⟩
    intro hnil
    exact hgap (List.append_eq_nil_iff.1 hnil).2
  | @error _ _ t message hm =>
    rw [List.append_assoc]
    exact ⟨[widen t], rest, by simp [hchars], .error hm⟩
  | @token _ _ lexeme t tiles kind tokens hs hafter htiles =>
    rw [List.append_assoc] at htiles ⊢
    rw [← hchars] at htiles
    exact ⟨widen t :: tiles, rest, by simp [hchars], .token hs hafter htiles⟩

/-- How the tokens of a text end: with blanks and no error, or with a piece that is no token. -/
theorem Tiles.cases_end {before rest : List Char} {tiles : List Tile} {tokens : List Token}
    (h : Tiles before tiles rest tokens) :
    (∃ init w, tiles.flatMap Tile.chars ++ rest = init.flatMap Tile.chars ++ w ∧
        (∀ c ∈ w, c ∈ blanks) ∧ Leads before init w (contents tokens) ∧
        ∀ t ∈ tokens, t.kind ≠ .error) ∨
      ∃ init t message front, tiles = init ++ [t] ∧ Misspells t.text rest message ∧
        Leads before init (t.chars ++ rest) front ∧
        tokens = front ++
          [⟨.error, message, lineBehind (before ++ init.flatMap Tile.chars ++ t.gap)⟩] := by
  induction h with
  | nil => exact .inl ⟨[], [], rfl, List.forall_mem_nil _, .nil, List.forall_mem_nil _⟩
  | @endOfFile before t hgap htext =>
    refine .inl ⟨[], t.gap, ?_, t.gap_blank, .nil, by simp [Token.endOfFile]⟩
    simp [Tile.chars, htext]
  | @error before rest t message hm =>
    exact .inr ⟨[], t, message, [], rfl, hm, .nil, by simp⟩
  | @token before rest lexeme t tiles kind tokens hs hafter htiles ih =>
    rcases ih with ⟨init, w, hchars, hw, hleads, hnone⟩ |
      ⟨init, u, message, front, rfl, hm, hleads, rfl⟩
    · refine .inl ⟨t :: init, w, by simp [hchars], hw, ?_, ?_⟩
      · rw [contents_cons (Token.Kind.ne_endOfFile hs.isTerminal)]
        rw [hchars] at hafter
        exact .cons hs hafter hleads
      · exact List.forall_mem_cons.2 ⟨Token.Kind.ne_error hs.isTerminal, hnone⟩
    · let a : Token := ⟨kind, String.ofList lexeme, lineBehind (before ++ t.gap)⟩
      refine .inr ⟨t :: init, u, message, a :: front, rfl, hm, ?_, by simp [a]⟩
      exact .cons hs (by simpa using hafter) hleads

end Codebook
