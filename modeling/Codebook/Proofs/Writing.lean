import Codebook.Proofs.Seam
import Mathlib.Data.List.Chain

namespace Codebook

namespace Token.Kind

/-- The lexemes of the tokens of some kind. -/
def IsLexeme : Token.Kind → String → Prop
  | .keyword word, s => s = word.text
  | .string, s => quote ∉ s.toList
  | .integer, s => s.toList ≠ [] ∧ ∀ d ∈ s.toList, d.isDigit = true
  | .colon, s => s = ":"
  | .semicolon, s => s = ";"
  | .error, _ => False
  | .endOfFile, _ => False

/-- How a token is written: with its lexeme, and a string with quotes around it. -/
def spelling : Token.Kind → String → String
  | .string, s => "'" ++ s ++ "'"
  | _, s => s

theorem toList_spelling_string (s : String) :
    (string.spelling s).toList = quote :: (s.toList ++ [quote]) := by
  rw [spelling, String.toList_append, String.toList_append]
  rfl

theorem spells_spelling {kind : Token.Kind} {s : String} (h : kind.IsLexeme s) :
    kind.Spells s.toList (kind.spelling s).toList := by
  cases kind with
  | keyword word =>
    cases h
    exact .keyword word
  | string =>
    rw [toList_spelling_string]
    exact .string h
  | integer => exact .integer h.1 h.2
  | colon =>
    cases h
    exact .colon
  | semicolon =>
    cases h
    exact .semicolon
  | error => cases h
  | endOfFile => cases h

theorem Spells.eq_spelling {kind : Token.Kind} {s : String} {text : List Char}
    (h : kind.Spells s.toList text) : text = (kind.spelling s).toList := by
  generalize hlexeme : s.toList = lexeme at h
  cases h with
  | string => rw [toList_spelling_string, hlexeme]
  | _ => exact hlexeme.symm

end Token.Kind

/-- A token to be written, with the blanks in front of it. -/
structure Writable where
  front : String
  kind : Token.Kind
  lexeme : String
  front_gap : front.toList ∈ gap
  isLexeme : kind.IsLexeme lexeme

namespace Writable

def text (w : Writable) : String :=
  w.front ++ w.kind.spelling w.lexeme

/-- The tokens that are written behind some characters, each on the line where it comes to stand. -/
def tokens (before : List Char) : List Writable → List Token
  | [] => []
  | w :: ws => ⟨w.kind, w.lexeme, lineBehind (before ++ w.front.toList)⟩ ::
      tokens (before ++ w.text.toList) ws

theorem spells (w : Writable) :
    w.kind.Spells w.lexeme.toList (w.kind.spelling w.lexeme).toList :=
  Token.Kind.spells_spelling w.isLexeme

def tile (w : Writable) : Tile where
  gap := w.front.toList
  text := (w.kind.spelling w.lexeme).toList
  gap_blank := w.front_gap
  text_start := w.spells.head_not_mem_blanks

theorem toList_text (w : Writable) : w.text.toList = w.tile.chars := by
  rw [text, String.toList_append]
  rfl

end Writable

/-- Tokens to be written one after the other, and the blanks behind the last one. -/
structure Draft where
  items : List Writable
  last : String
  last_gap : last.toList ∈ gap

namespace Draft

def text (d : Draft) : String :=
  String.join (d.items.map (·.text)) ++ d.last

/-- The tokens that are meant. Blanks behind the last one bring the end of the file with them. -/
def tokens (d : Draft) : List Token :=
  Writable.tokens [] d.items ++
    if d.last = "" then [] else [.endOfFile (lineBehind d.text.toList)]

/-- Tokens that would run into each other have a blank between them. -/
def Separated (d : Draft) : Prop :=
  d.items.IsChain fun v w => v.kind.meets w.kind = true → w.front ≠ ""

end Draft

section Lexes

variable {before cs after : List Char} {a : Token} {tokens : List Token}

theorem Lexes.exists_tile (h : Lexes before cs (a :: tokens)) (ha : a.isTerminal = false) :
    ∃ (t : Tile) (after : List Char), cs = t.chars ++ after ∧
      a.kind.Spells a.lexeme.toList t.text ∧
      (∀ c ∈ after.head?, a.kind.extendedBy c = false) ∧ Lexes (before ++ t.chars) after tokens := by
  obtain ⟨tiles, rest, rfl, htiles⟩ := h
  cases htiles with
  | endOfFile => cases ha
  | error => cases ha
  | @token _ _ lexeme t tiles kind tokens hs hafter htiles =>
    refine ⟨t, _, ?_, ?_, hafter, tiles, rest, rfl, htiles⟩
    · rw [List.flatMap_cons, List.append_assoc]
    · rw [String.toList_ofList]
      exact hs

/-- A tile with more behind its text. -/
def Tile.extend (t : Tile) (hne : t.text ≠ []) (cs : List Char) : Tile where
  gap := t.gap
  text := t.text ++ cs
  gap_blank := t.gap_blank
  text_start := by
    rw [List.head?_append_of_ne_nil _ hne]
    exact t.text_start

theorem Tile.eq_of_append {t u : Tile} {cs ds : List Char} (htext : t.text = u.text)
    (hne : u.text ≠ []) (h : t.chars ++ cs = u.chars ++ ds) : t = u ∧ cs = ds := by
  have hextend : t.extend (htext ▸ hne) cs = u.extend hne ds := by
    apply ext_of_chars
    rw [chars, chars, List.append_assoc, List.append_assoc] at h
    exact h
  have hgap := congrArg Tile.gap hextend
  have htu : t = u := ext_of_chars (by rw [chars, chars, htext, show t.gap = u.gap from hgap])
  rw [htu] at h
  exact ⟨htu, List.append_cancel_left h⟩

/-- A token is read back from where it is written if what follows does not make it longer. -/
theorem lexes_text_iff (w : Writable) :
    Lexes before (w.text.toList ++ after)
        (⟨w.kind, w.lexeme, lineBehind (before ++ w.front.toList)⟩ :: tokens) ↔
      (∀ c ∈ after.head?, w.kind.extendedBy c = false) ∧
        Lexes (before ++ w.text.toList) after tokens := by
  rw [w.toList_text]
  apply Iff.intro
  · intro h
    obtain ⟨t, after', hcs, hs, hafter, hrest⟩ := h.exists_tile w.spells.isTerminal
    obtain ⟨rfl, rfl⟩ := Tile.eq_of_append (u := w.tile) hs.eq_spelling w.spells.ne_nil hcs.symm
    exact ⟨hafter, hrest⟩
  · intro ⟨hafter, hrest⟩
    have hlexes := Lexes.cons w.tile w.spells hafter hrest rfl
    rw [String.ofList_toList] at hlexes
    exact hlexes

/-- What is written behind a token makes it no longer exactly if the two are kept apart where they
would run together. -/
theorem Writable.head_text_iff (kind : Token.Kind) (w : Writable) :
    (∀ c ∈ (w.text.toList ++ after).head?, kind.extendedBy c = false) ↔
      (kind.meets w.kind = true → w.front ≠ "") := by
  rw [w.toList_text, Tile.chars, List.append_assoc]
  cases hfront : w.tile.gap with
  | cons c cs =>
    have hblank : c ∈ blanks := w.tile.gap_blank c (by rw [hfront]; exact List.mem_cons_self)
    have hne : w.front ≠ "" := by
      intro hnil
      have htoList : w.front.toList = c :: cs := hfront
      rw [hnil] at htoList
      cases htoList
    exact iff_of_true (by simp [Token.Kind.extendedBy_of_mem_blanks hblank]) fun _ => hne
  | nil =>
    have hnil : w.front = "" := String.toList_inj.1 hfront
    obtain ⟨c, cs, htext⟩ := List.exists_cons_of_ne_nil w.spells.ne_nil
    have hmeets : kind.extendedBy c = kind.meets w.kind :=
      w.spells.extendedBy_head c (by rw [htext]; rfl)
    have hchars : w.tile.text = c :: cs := htext
    simp [hchars, hmeets, hnil]

end Lexes

namespace Draft

theorem lexes_last {last : String} (h : last.toList ∈ gap) (before : List Char) :
    Lexes before last.toList
      (if last = "" then [] else [.endOfFile (lineBehind (before ++ last.toList))]) := by
  split
  · rename_i hnil
    rw [hnil]
    exact ⟨[], [], rfl, .nil⟩
  · rename_i hne
    let t : Tile := ⟨last.toList, [], h, by simp⟩
    refine ⟨[t], [], by simp [Tile.chars, t], .endOfFile ?_ rfl⟩
    exact fun hnil => hne (String.toList_inj.1 hnil)

/-- Written tokens are read back, from any place on, exactly if they are separated. -/
theorem lexes_iff (ws : List Writable) {last : String} (h : last.toList ∈ gap)
    (before : List Char) :
    Lexes before ((String.join (ws.map (·.text))).toList ++ last.toList)
        (Writable.tokens before ws ++ if last = "" then [] else
          [.endOfFile (lineBehind (before ++ ((String.join (ws.map (·.text))).toList ++
            last.toList)))]) ↔
      ws.IsChain fun v w => v.kind.meets w.kind = true → w.front ≠ "" := by
  induction ws generalizing before with
  | nil => exact iff_of_true (lexes_last h before) .nil
  | cons v ws ih =>
    rw [List.map_cons, String.join_cons, String.toList_append, List.append_assoc,
      Writable.tokens, List.cons_append, lexes_text_iff, ← List.append_assoc before, ih]
    cases ws with
    | nil =>
      refine iff_of_true ⟨?_, .nil⟩ (.singleton v)
      exact fun c hc => Token.Kind.extendedBy_of_mem_blanks (h c (List.mem_of_mem_head? hc)) v.kind
    | cons w ws =>
      rw [List.map_cons, String.join_cons, String.toList_append, List.append_assoc,
        Writable.head_text_iff, List.isChain_cons_cons]

end Draft

theorem lexes_iff_eq_tokenize {source : String} {tokens : List Token} :
    Lexes [] source.toList tokens ↔ tokens = tokenize source := by
  apply Iff.intro Lexes.eq_tokenize
  rintro rfl
  exact lexes_tokenize source

/-- What is written as tokens is read as these tokens exactly if those that would run into each other
are separated. -/
theorem tokenize_text_iff_separated (d : Draft) : tokenize d.text = d.tokens ↔ d.Separated := by
  have htext : d.text.toList = (String.join (d.items.map (·.text))).toList ++ d.last.toList :=
    String.toList_append
  rw [Draft.Separated, ← Draft.lexes_iff d.items d.last_gap [], eq_comm, ← lexes_iff_eq_tokenize,
    Draft.tokens, htext]
  rfl

end Codebook
