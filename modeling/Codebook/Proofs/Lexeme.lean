import Codebook.Proofs.Numeral
import Codebook.Proofs.Tiling

namespace Codebook

variable {before rest : List Char} {tiles : List Tile} {tokens : List Token} {a : Token}

/-- Each token is spelled by one of the tiles, or misspelled by one, or it is the end of the
file. -/
theorem Tiles.of_mem (h : Tiles before tiles rest tokens) (ha : a ∈ tokens) :
    (∃ t ∈ tiles, a.kind.Spells a.lexeme.toList t.text) ∨
      (a.kind = .error ∧ ∃ t ∈ tiles, Misspells t.text rest a.lexeme) ∨
      a = .endOfFile a.line := by
  induction h with
  | nil => cases ha
  | endOfFile =>
    cases List.mem_singleton.1 ha
    exact .inr (.inr rfl)
  | @error _ _ t _ hm =>
    cases List.mem_singleton.1 ha
    exact .inr (.inl ⟨rfl, t, List.mem_cons_self, hm⟩)
  | @token _ _ lexeme t _ kind _ hs _ _ ih =>
    rcases List.mem_cons.1 ha with rfl | ha
    · refine .inl ⟨t, List.mem_cons_self, ?_⟩
      rw [String.toList_ofList]
      exact hs
    · rcases ih ha with ⟨u, hu, hspells⟩ | ⟨hk, u, hu, hm⟩ | hend
      · exact .inl ⟨u, List.mem_cons_of_mem t hu, hspells⟩
      · exact .inr (.inl ⟨hk, u, List.mem_cons_of_mem t hu, hm⟩)
      · exact .inr (.inr hend)

namespace Token.Kind.Spells

variable {kind : Token.Kind} {lexeme text : List Char}

theorem quote_not_mem (h : kind.Spells lexeme text) : quote ∉ lexeme := by
  cases h with
  | keyword word => cases word <;> decide
  | integer _ hdigits => exact fun hquote => absurd (hdigits quote hquote) (by decide)
  | string hquote => exact hquote
  | colon => decide
  | semicolon => decide

theorem digits (h : Token.Kind.integer.Spells lexeme text) :
    Numeral.Digits lexeme (Nat.ofDigitChars 10 lexeme 0) := by
  cases h with
  | integer hne hdigits => exact ⟨hne, hdigits, rfl⟩

theorem infix_text (h : kind.Spells lexeme text) : lexeme <:+: text := by
  cases h with
  | string => exact ⟨[quote], [quote], by simp⟩
  | _ => exact List.infix_rfl

end Token.Kind.Spells

theorem Misspells.quote_not_mem {text after : List Char} {message : String}
    (h : Misspells text after message) : quote ∉ message.toList := by
  cases h with
  | @word text _ hword =>
    have hplain := IsWord.continuesWord hword
    rw [String.toList_append, List.mem_append, not_or]
    refine ⟨by decide, ?_⟩
    rw [String.toList_ofList]
    exact fun hquote => absurd (hplain quote hquote) (by decide)
  | unclosed => decide
  | @stray c _ _ _ _ hother =>
    rw [String.toList_append, String.toList_singleton, List.mem_append, not_or]
    refine ⟨by decide, fun hquote => hother ?_⟩
    rw [← List.mem_singleton.1 hquote]
    exact List.mem_cons_self

theorem Tiles.quote_not_mem (h : Tiles before tiles rest tokens) (ha : a ∈ tokens) :
    quote ∉ a.lexeme.toList := by
  rcases h.of_mem ha with ⟨_, _, hs⟩ | ⟨_, _, _, hm⟩ | hend
  · exact hs.quote_not_mem
  · exact hm.quote_not_mem
  · rw [hend]
    exact List.not_mem_nil

section Source

variable {source : String}

theorem quote_not_mem_lexeme (h : a ∈ tokenize source) : quote ∉ a.lexeme.toList := by
  obtain ⟨tiles, rest, -, htiles⟩ := tiles_tokenize source
  exact htiles.quote_not_mem h

theorem digits_lexeme (h : a ∈ tokenize source) (hk : a.kind = .integer) :
    ∃ n, Numeral.Digits a.lexeme.toList n := by
  obtain ⟨tiles, rest, -, htiles⟩ := tiles_tokenize source
  rcases htiles.of_mem h with ⟨_, _, hs⟩ | ⟨hk', -⟩ | hend
  · rw [hk] at hs
    exact ⟨_, hs.digits⟩
  · cases hk.symm.trans hk'
  · rw [hend] at hk
    cases hk

theorem lexeme_infix (h : a ∈ tokenize source) (hk : a.kind ≠ .error) :
    a.lexeme.toList <:+: source.toList := by
  obtain ⟨tiles, rest, hs, htiles⟩ := tiles_tokenize source
  rcases htiles.of_mem h with ⟨t, ht, hspells⟩ | ⟨hk', -⟩ | hend
  · have htext : t.text <:+: t.chars := (List.suffix_append t.gap t.text).isInfix
    have htile : t.chars <:+: tiles.flatMap Tile.chars :=
      List.infix_of_mem_flatten (List.mem_map_of_mem ht)
    rw [hs]
    exact (hspells.infix_text.trans htext).trans (htile.trans (List.prefix_append _ rest).isInfix)
  · exact absurd hk' hk
  · rw [hend]
    exact List.nil_infix

end Source

end Codebook
