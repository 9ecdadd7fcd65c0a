import Codebook.Token.Stream

namespace Codebook

/-- The four characters between tokens. -/
def blanks : List Char :=
  [' ', '\t', '\r', '\n']

theorem isBlank_eq_true_iff {c : Char} : isBlank c = true ↔ c ∈ blanks := by
  simp [isBlank, Char.isWhitespace, blanks, or_assoc]

theorem isBlank_eq_false_iff {c : Char} : isBlank c = false ↔ c ∉ blanks := by
  rw [← isBlank_eq_true_iff, Bool.not_eq_true]

/-- A letter or an underscore, with letters, digits and underscores behind it. -/
def IsWord : List Char → Prop
  | [] => False
  | c :: cs => startsWord c = true ∧ ∀ d ∈ cs, continuesWord d = true

namespace Token.Kind

/-- The texts that stand for the tokens of a kind, with their lexemes. -/
inductive Spells : Token.Kind → List Char → List Char → Prop where
  | keyword (word : Keyword) : Spells (.keyword word) word.text.toList word.text.toList
  | integer {ds : List Char} : ds ≠ [] → (∀ d ∈ ds, d.isDigit = true) → Spells .integer ds ds
  | string {body : List Char} : quote ∉ body → Spells .string body (quote :: (body ++ [quote]))
  | colon : Spells .colon [':'] [':']
  | semicolon : Spells .semicolon [';'] [';']

/-- A character that would make a token of some kind longer. -/
def extendedBy : Token.Kind → Char → Bool
  | .keyword _, c => continuesWord c
  | .integer, c => c.isDigit
  | _, _ => false

end Token.Kind

/-- The texts that are no token in front of what follows them, with the words that say so. -/
inductive Misspells : List Char → List Char → String → Prop where
  | word {text after : List Char} : IsWord text → (∀ word : Keyword, text ≠ word.text.toList) →
      (∀ c ∈ after.head?, continuesWord c = false) →
      Misspells text after ("Unexpected identifier: " ++ String.ofList text)
  | unclosed {body : List Char} : quote ∉ body →
      Misspells (quote :: body) [] "Unterminated string."
  | stray {c : Char} {after : List Char} : c ∉ blanks → c.isDigit = false →
      startsWord c = false → c ∉ [quote, ':', ';'] →
      Misspells [c] after ("Unexpected character: " ++ String.singleton c)

theorem takeWhile_append_boundary {p : Char → Bool} {xs ys : List Char}
    (hxs : ∀ c ∈ xs, p c = true) (hys : ∀ c ∈ ys.head?, p c = false) :
    (xs ++ ys).takeWhile p = xs := by
  rw [List.takeWhile_append_of_pos hxs]
  cases ys with
  | nil => exact List.append_nil xs
  | cons y ys => rw [List.takeWhile_cons_of_neg (by simp [hys y rfl]), List.append_nil]

theorem dropWhile_append_boundary {p : Char → Bool} {xs ys : List Char}
    (hxs : ∀ c ∈ xs, p c = true) (hys : ∀ c ∈ ys.head?, p c = false) :
    (xs ++ ys).dropWhile p = ys := by
  rw [List.dropWhile_append_of_pos hxs]
  cases ys with
  | nil => rfl
  | cons y ys => rw [List.dropWhile_cons_of_neg (by simp [hys y rfl])]

theorem append_boundary_inj {p : Char → Bool} {xs ys r s : List Char} (hxs : ∀ c ∈ xs, p c = true)
    (hys : ∀ c ∈ ys, p c = true) (hr : ∀ c ∈ r.head?, p c = false)
    (hs : ∀ c ∈ s.head?, p c = false) (h : xs ++ r = ys ++ s) : xs = ys ∧ r = s := by
  constructor
  · rw [← takeWhile_append_boundary hxs hr, h, takeWhile_append_boundary hys hs]
  · rw [← dropWhile_append_boundary hxs hr, h, dropWhile_append_boundary hys hs]

theorem bne_of_not_mem {c : Char} {cs : List Char} (h : c ∉ cs) : ∀ d ∈ cs, (d != c) = true := by
  intro d hd
  rw [bne_iff_ne]
  intro hdc
  exact h (hdc ▸ hd)

theorem head_dropWhile {p : Char → Bool} {cs : List Char} :
    ∀ c ∈ (cs.dropWhile p).head?, p c = false := by
  intro c hc
  have h := List.head?_dropWhile_not p cs
  rw [hc] at h
  simpa using h

theorem of_mem_takeWhile {p : Char → Bool} {cs : List Char} :
    ∀ c ∈ cs.takeWhile p, p c = true :=
  List.all_eq_true.1 List.all_takeWhile

theorem not_isDigit_of_startsWord {c : Char} (h : startsWord c = true) : c.isDigit = false := by
  rw [Bool.eq_false_iff]
  intro hdigit
  obtain ⟨-, hle⟩ := Bool.and_eq_true_iff.1 hdigit
  have hle : c.val ≤ '9'.val := of_decide_eq_true hle
  rcases Bool.or_eq_true_iff.1 h with halpha | hunderscore
  · rcases Bool.or_eq_true_iff.1 halpha with hupper | hlower
    · have hge : 'A'.val ≤ c.val := (of_decide_eq_true hupper).1
      exact absurd (UInt32.le_trans hge hle) (by decide)
    · have hge : 'a'.val ≤ c.val := of_decide_eq_true (Bool.and_eq_true_iff.1 hlower).1
      exact absurd (UInt32.le_trans hge hle) (by decide)
  · rw [beq_iff_eq.1 hunderscore] at hle
    exact absurd hle (by decide)

theorem continuesWord_of_startsWord {c : Char} (h : startsWord c = true) :
    continuesWord c = true := by
  simp only [startsWord, Bool.or_eq_true] at h
  simp only [continuesWord, Char.isAlphanum, Bool.or_eq_true]
  rcases h with h | h
  · exact .inl (.inl h)
  · exact .inr h

theorem continuesWord_of_isDigit {c : Char} (h : c.isDigit = true) : continuesWord c = true := by
  simp [continuesWord, Char.isAlphanum, h]

theorem isWord_text (word : Keyword) : IsWord word.text.toList := by
  cases word <;> exact ⟨rfl, List.all_eq_true.1 rfl⟩

theorem IsWord.continuesWord {text : List Char} (h : IsWord text) :
    ∀ c ∈ text, continuesWord c = true := by
  cases text with
  | nil => cases h
  | cons c cs => exact List.forall_mem_cons.2 ⟨continuesWord_of_startsWord h.1, h.2⟩

namespace Piece

variable {after text : List Char}

theorem split_number {c : Char} {cs : List Char} (h : ∀ d ∈ c :: cs, d.isDigit = true)
    (hafter : ∀ d ∈ after.head?, d.isDigit = false) :
    split c (cs ++ after) = (number (c :: cs), after) := by
  have hcs : ∀ d ∈ cs, d.isDigit = true := fun d hd => h d (List.mem_cons_of_mem _ hd)
  rw [split, if_pos (h c List.mem_cons_self), takeWhile_append_boundary hcs hafter,
    dropWhile_append_boundary hcs hafter]

theorem split_word {c : Char} {cs : List Char} (h : IsWord (c :: cs))
    (hafter : ∀ d ∈ after.head?, continuesWord d = false) :
    split c (cs ++ after) = (word (c :: cs), after) := by
  rw [split, if_neg (by simp [not_isDigit_of_startsWord h.1]), if_pos h.1,
    takeWhile_append_boundary h.2 hafter, dropWhile_append_boundary h.2 hafter]

theorem afterQuote_closed {body : List Char} (h : quote ∉ body) (after : List Char) :
    afterQuote (body ++ quote :: after) = (quoted body, after) := by
  have hbody := bne_of_not_mem h
  have hquote : ∀ c ∈ (quote :: after).head?, (c != quote) = false := by simp
  rw [afterQuote, dropWhile_append_boundary hbody hquote, takeWhile_append_boundary hbody hquote]

theorem afterQuote_unclosed {body : List Char} (h : quote ∉ body) :
    afterQuote body = (unclosed body, []) := by
  have hend : ∀ c ∈ ([] : List Char).head?, (c != quote) = false := by simp
  have hdrop := dropWhile_append_boundary (bne_of_not_mem h) hend
  rw [List.append_nil] at hdrop
  rw [afterQuote, hdrop]

theorem split_quote (cs : List Char) : split quote cs = afterQuote cs := by
  rw [split, if_neg (by decide), if_neg (by decide), if_pos rfl]

theorem ofText?_of_ne {text : List Char} (h : ∀ word : Keyword, text ≠ word.text.toList) :
    Keyword.ofText? (String.ofList text) = none := by
  apply Option.eq_none_iff_forall_ne_some.2
  intro word hword
  apply h word
  rw [← Keyword.ofText?_eq_some_iff.1 hword, String.toList_ofList]

end Piece

namespace Stream

variable {after text : List Char} {line : Nat} {closed : Bool}

theorem read_of_split {p : Piece} {c : Char} {cs : List Char}
    (h : Piece.split c (cs ++ after) = (p, after)) :
    (⟨c :: cs ++ after, line, closed⟩ : Stream).read =
      (p.token line, ⟨after, line + (c :: cs).count '\n', closed⟩) := by
  have htext : p.text = c :: cs := by
    have := Piece.text_split c (cs ++ after)
    rw [h] at this
    exact List.append_cancel_right this
  simp only [read, List.cons_append, h, htext]

theorem read_of_spells {kind : Token.Kind} {lexeme : List Char} (h : kind.Spells lexeme text)
    (hafter : ∀ c ∈ after.head?, kind.extendedBy c = false) :
    (⟨text ++ after, line, closed⟩ : Stream).read =
      (⟨kind, String.ofList lexeme, line⟩, ⟨after, line + text.count '\n', closed⟩) := by
  cases h with
  | keyword word =>
    have hword := isWord_text word
    have htoken : (Piece.word word.text.toList).token line =
        ⟨.keyword word, String.ofList word.text.toList, line⟩ := by
      simp only [Piece.token, Piece.classify, String.ofList_toList, Keyword.ofText?_text]
    cases htext : word.text.toList with
    | nil => rw [htext] at hword; cases hword
    | cons c cs =>
      rw [htext] at hword htoken
      rw [read_of_split (Piece.split_word hword hafter), htoken]
  | integer hne hdigits =>
    cases text with
    | nil => exact absurd rfl hne
    | cons c cs => exact read_of_split (Piece.split_number hdigits hafter)
  | @string body hbody =>
    have hsplit : Piece.split quote ((lexeme ++ [quote]) ++ after) = (.quoted lexeme, after) := by
      rw [Piece.split_quote, List.append_assoc]
      exact Piece.afterQuote_closed hbody after
    exact read_of_split hsplit
  | colon =>
    have hsplit : Piece.split ':' ([] ++ after) = (.colon, after) := rfl
    exact read_of_split hsplit
  | semicolon =>
    have hsplit : Piece.split ';' ([] ++ after) = (.semicolon, after) := rfl
    exact read_of_split hsplit

theorem read_of_misspells {message : String} (h : Misspells text after message) :
    (⟨text ++ after, line, closed⟩ : Stream).read =
      (⟨.error, message, line⟩, ⟨after, line + text.count '\n', closed⟩) := by
  cases h with
  | word hword hne hafter =>
    cases text with
    | nil => cases hword
    | cons c cs =>
      rw [read_of_split (Piece.split_word hword hafter)]
      simp only [Piece.token, Piece.classify, Piece.ofText?_of_ne hne]
      rfl
  | @unclosed body hbody =>
    have hsplit : Piece.split quote (body ++ []) = (.unclosed body, []) := by
      rw [Piece.split_quote, List.append_nil]
      exact Piece.afterQuote_unclosed hbody
    exact read_of_split hsplit
  | @stray c after hblank hdigit hword hother =>
    simp only [List.mem_cons, List.not_mem_nil, or_false, not_or] at hother
    have hsplit : Piece.split c ([] ++ after) = (.stray c, after) := by
      rw [Piece.split, if_neg (by simp [hdigit]), if_neg (by simp [hword]), if_neg hother.1,
        if_neg hother.2.1, if_neg hother.2.2]
      rfl
    exact read_of_split hsplit

end Stream

/-- What does not start with a blank starts with a text that spells or misspells a token. -/
theorem exists_spells_or_misspells {c : Char} (hc : c ∉ blanks) (cs : List Char) :
    ∃ text after, c :: cs = text ++ after ∧
      ((∃ kind lexeme, Token.Kind.Spells kind lexeme text ∧
        ∀ d ∈ after.head?, kind.extendedBy d = false) ∨
      ∃ message, Misspells text after message) := by
  cases hdigit : c.isDigit with
  | true =>
    refine ⟨c :: cs.takeWhile Char.isDigit, cs.dropWhile Char.isDigit, ?_, ?_⟩
    · rw [List.cons_append, List.takeWhile_append_dropWhile]
    · refine .inl ⟨.integer, _, .integer (by simp) ?_, head_dropWhile⟩
      exact List.forall_mem_cons.2 ⟨hdigit, of_mem_takeWhile⟩
  | false =>
    cases hword : startsWord c with
    | true =>
      have hisWord : IsWord (c :: cs.takeWhile continuesWord) := ⟨hword, of_mem_takeWhile⟩
      refine ⟨c :: cs.takeWhile continuesWord, cs.dropWhile continuesWord, ?_, ?_⟩
      · rw [List.cons_append, List.takeWhile_append_dropWhile]
      · by_cases hkeyword : ∃ word : Keyword, c :: cs.takeWhile continuesWord = word.text.toList
        · obtain ⟨word, htext⟩ := hkeyword
          rw [htext]
          exact .inl ⟨.keyword word, _, .keyword word, head_dropWhile⟩
        · refine .inr ⟨_, .word hisWord ?_ head_dropWhile⟩
          exact fun word htext => hkeyword ⟨word, htext⟩
    | false =>
      by_cases hother : c ∈ [quote, ':', ';']
      · simp only [List.mem_cons, List.not_mem_nil, or_false] at hother
        rcases hother with rfl | rfl | rfl
        · by_cases hquote : quote ∈ cs
          · obtain ⟨body, after, rfl, hbody⟩ := List.eq_append_cons_of_mem hquote
            refine ⟨quote :: (body ++ [quote]), after, by simp, .inl ?_⟩
            exact ⟨.string, body, .string hbody, fun _ _ => rfl⟩
          · exact ⟨quote :: cs, [], by simp, .inr ⟨_, .unclosed hquote⟩⟩
        · exact ⟨[':'], cs, rfl, .inl ⟨.colon, _, .colon, fun _ _ => rfl⟩⟩
        · exact ⟨[';'], cs, rfl, .inl ⟨.semicolon, _, .semicolon, fun _ _ => rfl⟩⟩
      · exact ⟨[c], cs, rfl, .inr ⟨_, .stray hc hdigit hword hother⟩⟩

end Codebook
