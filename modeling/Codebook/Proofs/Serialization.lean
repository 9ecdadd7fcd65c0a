import Codebook.Command.Outcome
import Codebook.Proofs.Rendering
import Codebook.Proofs.Unambiguous

namespace Codebook

namespace Json

mutual

/-- What the text of a value says. -/
def document : Json → Document
  | number n => .number n.repr
  | text s => .text s
  | array items => .array (documents items)
  | object members => .object (memberDocuments members)

def documents : List Json → List Document
  | [] => []
  | item :: items => document item :: documents items

def memberDocuments : List (String × Json) → List (String × Document)
  | [] => []
  | (name, value) :: members => (name, document value) :: memberDocuments members

end

theorem documents_eq_map (items : List Json) : documents items = items.map document := by
  induction items with
  | nil => rfl
  | cons item items ih => rw [documents, ih, List.map_cons]

theorem hexDigit?_digitChar {d : Nat} (h : d < 16) : hexDigit? d.digitChar = some d := by
  have hall : ∀ d : Fin 16, hexDigit? (Nat.digitChar d) = some d.val := by decide
  exact hall ⟨d, h⟩

theorem isCodeUnit_digitChar {n : Nat} (h : n < 32) :
    IsCodeUnit n ['0', '0', Nat.digitChar (n / 16), Nat.digitChar (n % 16)] := by
  have hzero : hexDigit? '0' = some 0 := by decide
  refine ⟨rfl, ?_⟩
  have hhigh := hexDigit?_digitChar (show n / 16 < 16 by omega)
  have hlow := hexDigit?_digitChar (show n % 16 < 16 by omega)
  simp only [List.foldlM_cons, List.foldlM_nil, hzero, hhigh, hlow, Option.map_some,
    Option.bind_eq_bind, Option.bind_some]
  congr 1
  omega

theorem spells_escape (c : Char) : Spells c (escape c) := by
  unfold escape
  iterate 7
    split
    · subst c
      exact .escape (.letter rfl)
  split
  · exact .escape (.unit (isCodeUnit_digitChar ‹_›))
  · refine .plain ?_ ‹_› ‹_›
    rw [Char.le_def, UInt32.le_iff_toNat_le]
    exact Nat.le_of_not_lt ‹_›

theorem toList_quoted (s : String) :
    (quoted s).toList = '"' :: (s.toList.flatMap escape ++ ['"']) := by
  simp only [quoted, String.toList_append, String.toList_ofList]
  rfl

theorem isLiteral_quoted (s : String) : IsLiteral s (quoted s).toList := by
  refine ⟨s.toList.map escape, ?_, ?_⟩
  · rw [List.forall₂_map_right_iff]
    exact List.forall₂_same.2 fun c _ => spells_escape c
  · rw [toList_quoted, List.flatMap_def]

theorem eq_zero_of_head_toDigits {n : Nat} (h : (Nat.toDigits 10 n).head? = some '0') : n = 0 := by
  induction n using Nat.strongRecOn with
  | ind n ih =>
    rcases Nat.lt_or_ge n 10 with hn | hn
    · rw [Nat.toDigits_of_lt_base hn] at h
      exact Nat.digitChar_eq_zero.1 (Option.some.inj h)
    · rw [Nat.toDigits_of_base_le (by decide) hn,
        List.head?_append_of_ne_nil _ Nat.toDigits_ne_nil] at h
      have hzero := ih (n / 10) (by omega) h
      omega

theorem repr_mem_numeral (n : Nat) : n.repr.toList ∈ numeral := by
  have hdigits := Numeral.digits_repr n
  have hwhole : n.repr.toList ∈ whole := by
    refine ⟨⟨hdigits.ne_nil, hdigits.isDigit⟩, ?_⟩
    intro hzero
    rw [Nat.toList_repr] at hzero
    rw [eq_zero_of_head_toDigits hzero]
    rfl
  have h : [] ++ (n.repr.toList ++ ([] ++ [])) ∈ numeral :=
    Language.append_mem_mul (.inl rfl)
      (Language.append_mem_mul hwhole (Language.append_mem_mul (.inl rfl) (.inl rfl)))
  rwa [List.append_nil, List.append_nil] at h

theorem pushn_mem_gap {s : String} (h : s.toList ∈ gap) (n : Nat) :
    (s.pushn ' ' n).toList ∈ gap := by
  rw [String.pushn_eq_repeat_push]
  induction n with
  | zero => exact h
  | succ n ih =>
    rw [Nat.repeat, String.toList_push]
    exact List.forall_mem_append.2 ⟨ih, blank_mem_space.2⟩

theorem newline_mem_gap : "\n".toList ∈ gap :=
  List.forall_mem_singleton.2 (by decide)

/-- A layout that has nothing but blanks. -/
structure Layout.IsBlank (l : Layout) : Prop where
  line : ∀ depth, (l.line depth).toList ∈ Codebook.gap
  gap : l.gap.toList ∈ Codebook.gap

theorem Layout.isBlank_compact : compact.IsBlank :=
  ⟨fun _ => nil_mem_gap, nil_mem_gap⟩

theorem Layout.isBlank_pretty : pretty.IsBlank where
  line _ := pushn_mem_gap newline_mem_gap _
  gap := blank_mem_space.2

/-- Between any blanks, a text is read as an item. -/
def Writes (i : Item) (x : i.Meaning) (s : String) : Prop :=
  ∀ w w' r, w ∈ gap → w' ∈ gap → Reads (.item i) x (w ++ (s.toList ++ (w' ++ r))) r

theorem reads_intercalate {i : Item} {xs : List i.Meaning} {ss : List String} {front : String}
    {w : List Char} (hne : xs ≠ []) (h : List.Forall₂ (Writes i) xs ss)
    (hfront : front.toList ∈ gap) (hw : w ∈ gap) (r : List Char) :
    Reads (.sequence i) xs ((",".intercalate (ss.map (front ++ ·))).toList ++ (w ++ r)) r := by
  induction h with
  | nil => exact absurd rfl hne
  | @cons x s xs ss hx h ih =>
    cases h with
    | nil =>
      rw [List.map_singleton, String.intercalate_singleton, String.toList_append, List.append_assoc]
      exact .last (hx _ _ _ hfront hw)
    | @cons y u xs ss =>
      rw [List.map_cons, List.map_cons, String.intercalate_cons_cons,
        ← List.map_cons (f := (front ++ ·))]
      simp only [String.toList_append, List.append_assoc]
      exact .cons (hx _ [] _ hfront nil_mem_gap) (ih (List.cons_ne_nil _ _))

theorem exists_body_enclose {l : Layout} (hl : l.IsBlank) (depth : Nat) (opening closing : String)
    {i : Item} {xs : List i.Meaning} {ss : List String} (h : List.Forall₂ (Writes i) xs ss) :
    ∃ t, (l.enclose depth opening closing ss).toList = opening.toList ++ (t ++ closing.toList) ∧
      ∀ r, Reads (.body i) xs (t ++ r) r := by
  cases h with
  | nil =>
    refine ⟨[], ?_, fun r => .none nil_mem_gap⟩
    rw [Layout.enclose, String.toList_append, List.nil_append]
  | @cons x s xs ss hx h =>
    refine ⟨(",".intercalate ((s :: ss).map (l.line (depth + 1) ++ ·))).toList ++
      (l.line depth).toList, ?_, ?_⟩
    · simp only [Layout.enclose, String.toList_append, List.append_assoc]
    · intro r
      rw [List.append_assoc]
      exact .some (reads_intercalate (List.cons_ne_nil _ _) (.cons hx h) (hl.line (depth + 1))
        (hl.line depth) r)

theorem Writes.of_value {d : Document} {s : String}
    (h : ∀ r, Reads .value d (s.toList ++ r) r) : Writes .element d s := by
  intro w w' r hw hw'
  exact .element hw (h (w' ++ r)) hw'

mutual

theorem reads_write {l : Layout} (hl : l.IsBlank) (depth : Nat) :
    ∀ (v : Json) (r : List Char), Reads .value v.document ((v.write l depth).toList ++ r) r
  | number n, r => .scalar (.number (repr_mem_numeral n))
  | text s, r => .scalar (.text (isLiteral_quoted s))
  | array items, r => by
    obtain ⟨t, ht, hbody⟩ :=
      exists_body_enclose hl depth "[" "]" (writes_items hl (depth + 1) items)
    rw [write, ht]
    simp only [List.append_assoc]
    exact .array (hbody _)
  | object members, r => by
    obtain ⟨t, ht, hbody⟩ :=
      exists_body_enclose hl depth "\x7b" "\x7d" (writes_members hl (depth + 1) members)
    rw [write, ht]
    simp only [List.append_assoc]
    exact .object (hbody _)

theorem writes_items {l : Layout} (hl : l.IsBlank) (depth : Nat) : ∀ items : List Json,
    List.Forall₂ (Writes .element) (documents items) (writeItems l depth items)
  | [] => .nil
  | item :: items =>
    .cons (.of_value (reads_write hl depth item)) (writes_items hl depth items)

theorem writes_members {l : Layout} (hl : l.IsBlank) (depth : Nat) :
    ∀ members : List (String × Json),
      List.Forall₂ (Writes .member) (memberDocuments members) (writeMembers l depth members)
  | [] => .nil
  | (name, value) :: members => by
    refine .cons ?_ (writes_members hl depth members)
    intro w w' r hw hw'
    have hvalue := Writes.of_value (reads_write hl depth value) _ w' r hl.gap hw'
    have h := Reads.member hw (isLiteral_quoted name) nil_mem_gap hvalue
    simp only [String.toList_append, List.append_assoc]
    exact h

end

theorem says_write {l : Layout} (hl : l.IsBlank) (depth : Nat) (v : Json) {s : String}
    (hs : s.toList ∈ gap) : Says (v.write l depth ++ s) v.document := by
  rw [says_iff, String.toList_append]
  have h := Writes.of_value (reads_write hl depth v) [] s.toList [] nil_mem_gap hs
  rwa [List.append_nil] at h

mutual

/-- A JSON text without the blanks outside of its strings. -/
def tighten : List Char → List Char
  | [] => []
  | c :: cs =>
    if c = '"' then c :: tightenString cs
    else if c ∈ blanks then tighten cs
    else c :: tighten cs

/-- The same from inside of a string on. -/
def tightenString : List Char → List Char
  | [] => []
  | ['\\'] => ['\\']
  | '\\' :: c :: cs => '\\' :: c :: tightenString cs
  | c :: cs => if c = '"' then c :: tighten cs else c :: tightenString cs

end

/-- A text that is tightened to another one, whatever follows it. -/
def Tightens (s s' : String) : Prop :=
  ∀ r, tighten (s.toList ++ r) = s'.toList ++ tighten r

theorem Tightens.append {s s' t t' : String} (hs : Tightens s s') (ht : Tightens t t') :
    Tightens (s ++ t) (s' ++ t') := by
  intro r
  rw [String.toList_append, String.toList_append, List.append_assoc, hs, ht, List.append_assoc]

theorem tightens_gap {s : String} (h : s.toList ∈ gap) : Tightens s "" := by
  intro r
  generalize s.toList = w at h
  induction w with
  | nil => rfl
  | cons c w ih =>
    obtain ⟨hc, hw⟩ := List.forall_mem_cons.1 h
    have hquote : c ≠ '"' := by
      rintro rfl
      exact absurd hc (by decide)
    rw [List.cons_append, tighten, if_neg hquote, if_pos hc, ih hw]

theorem tightens_self {s : String} (h : ∀ c ∈ s.toList, c ≠ '"' ∧ c ∉ blanks) : Tightens s s := by
  intro r
  generalize s.toList = w at h
  induction w with
  | nil => rfl
  | cons c w ih =>
    obtain ⟨hc, hw⟩ := List.forall_mem_cons.1 h
    rw [List.cons_append, tighten, if_neg hc.1, if_neg hc.2, ih hw]
    rfl

theorem tightens_mark {s : String} {c : Char} (hs : s.toList = [c]) (hquote : c ≠ '"')
    (hblank : c ∉ blanks) : Tightens s s := by
  refine tightens_self ?_
  rw [hs, List.forall_mem_singleton]
  exact ⟨hquote, hblank⟩

theorem tightens_repr (n : Nat) : Tightens n.repr n.repr := by
  have hdigits := Numeral.digits_repr n
  refine tightens_self fun c hc => ?_
  have hbare := isBare_digits _ ⟨hdigits.ne_nil, hdigits.isDigit⟩ c hc
  constructor
  · rintro rfl
    cases hbare
  · intro hblank
    rw [bare_of_mem_follow (List.mem_append_left _ hblank)] at hbare
    cases hbare

theorem tightenString_plain {c : Char} (hquote : c ≠ '"') (hslash : c ≠ '\\') (cs : List Char) :
    tightenString (c :: cs) = c :: tightenString cs := by
  rw [tightenString, if_neg hquote]
  · exact fun h _ => hslash h
  · exact fun _ _ h _ => hslash h

theorem tightenString_append {w : List Char} (h : ∀ c ∈ w, c ≠ '"' ∧ c ≠ '\\') (r : List Char) :
    tightenString (w ++ r) = w ++ tightenString r := by
  induction w with
  | nil => rfl
  | cons c w ih =>
    obtain ⟨hc, hw⟩ := List.forall_mem_cons.1 h
    rw [List.cons_append, tightenString_plain hc.1 hc.2, ih hw, List.cons_append]

theorem IsCodeUnit.plain {n : Nat} {w : List Char} (h : IsCodeUnit n w) :
    ∀ c ∈ w, c ≠ '"' ∧ c ≠ '\\' := by
  have hdigit {c : Char} (hc : hexDigit? c ≠ none) : c ≠ '"' ∧ c ≠ '\\' := by
    constructor <;>
    · rintro rfl
      exact absurd (by decide) hc
  obtain ⟨-, h⟩ := h
  generalize 0 = start at h
  induction w generalizing start with
  | nil => simp
  | cons c w ih =>
    rw [List.foldlM_cons, Option.bind_eq_bind, Option.bind_eq_some_iff] at h
    obtain ⟨value, hc, h⟩ := h
    refine List.forall_mem_cons.2 ⟨hdigit ?_, ih value h⟩
    intro hnone
    rw [hnone] at hc
    cases hc

theorem Escapes.tightenString_append {c : Char} {t : List Char} (h : Escapes c t) (r : List Char) :
    tightenString ('\\' :: (t ++ r)) = '\\' :: (t ++ tightenString r) := by
  cases h with
  | letter => rw [List.singleton_append, tightenString, List.singleton_append]
  | unit hw =>
    rw [List.cons_append, tightenString, Json.tightenString_append hw.plain, List.cons_append]
  | pair _ _ hw hw' =>
    simp only [List.cons_append, List.append_assoc, tightenString,
      Json.tightenString_append hw.plain, Json.tightenString_append hw'.plain]

theorem Spells.tightenString_append {c : Char} {t : List Char} (h : Spells c t) (r : List Char) :
    tightenString (t ++ r) = t ++ tightenString r := by
  cases h with
  | plain _ hquote hslash => exact tightenString_plain hquote hslash r
  | escape he => exact he.tightenString_append r

theorem IsLiteral.tighten_append {s : String} {t : List Char} (h : IsLiteral s t) (r : List Char) :
    tighten (t ++ r) = t ++ tighten r := by
  obtain ⟨ts, hts, rfl⟩ := h
  have hstring : tightenString (ts.flatten ++ '"' :: r) = ts.flatten ++ '"' :: tighten r := by
    generalize s.toList = cs at hts
    induction hts with
    | nil => rfl
    | cons ht _ ih =>
      rw [List.flatten_cons, List.append_assoc, ht.tightenString_append, ih, List.append_assoc]
  rw [List.cons_append, tighten, if_pos rfl, List.append_assoc, List.singleton_append, hstring,
    List.cons_append, List.append_assoc, List.singleton_append]

theorem tightens_intercalate {ss ss' : List String} (h : List.Forall₂ Tightens ss ss') :
    Tightens (",".intercalate ss) (",".intercalate ss') := by
  induction h with
  | nil => exact tightens_gap nil_mem_gap
  | @cons s s' ss ss' hs h ih =>
    cases h with
    | nil =>
      rw [String.intercalate_singleton, String.intercalate_singleton]
      exact hs
    | cons =>
      rw [String.intercalate_cons_cons, String.intercalate_cons_cons]
      exact (hs.append (tightens_mark rfl (by decide) (by decide))).append ih

theorem tightens_enclose {l : Layout} (hl : l.IsBlank) (depth depth' : Nat)
    {opening closing : String} (hopening : Tightens opening opening)
    (hclosing : Tightens closing closing) {ss ss' : List String}
    (h : List.Forall₂ Tightens ss ss') :
    Tightens (l.enclose depth opening closing ss)
      (Layout.compact.enclose depth' opening closing ss') := by
  have hline (depth : Nat) : Tightens (l.line depth) "" := tightens_gap (hl.line depth)
  cases h with
  | nil => exact hopening.append hclosing
  | cons hs h =>
    refine ((hopening.append (tightens_intercalate ?_)).append (hline depth)).append hclosing
    rw [List.forall₂_map_left_iff, List.forall₂_map_right_iff]
    exact (List.Forall₂.cons hs h).imp fun _ _ hs => (hline _).append hs

mutual

theorem tightens_write {l : Layout} (hl : l.IsBlank) (depth depth' : Nat) :
    ∀ v : Json, Tightens (v.write l depth) (v.write .compact depth')
  | number n => tightens_repr n
  | text s => (isLiteral_quoted s).tighten_append
  | array items =>
    tightens_enclose hl depth depth' (tightens_mark rfl (by decide) (by decide))
      (tightens_mark rfl (by decide) (by decide))
      (tightens_items hl (depth + 1) (depth' + 1) items)
  | object members =>
    tightens_enclose hl depth depth' (tightens_mark rfl (by decide) (by decide))
      (tightens_mark rfl (by decide) (by decide))
      (tightens_members hl (depth + 1) (depth' + 1) members)

theorem tightens_items {l : Layout} (hl : l.IsBlank) (depth depth' : Nat) :
    ∀ items : List Json,
      List.Forall₂ Tightens (writeItems l depth items) (writeItems .compact depth' items)
  | [] => .nil
  | item :: items =>
    .cons (tightens_write hl depth depth' item) (tightens_items hl depth depth' items)

theorem tightens_members {l : Layout} (hl : l.IsBlank) (depth depth' : Nat) :
    ∀ members : List (String × Json),
      List.Forall₂ Tightens (writeMembers l depth members) (writeMembers .compact depth' members)
  | [] => .nil
  | (name, value) :: members => by
    refine .cons ?_ (tightens_members hl depth depth' members)
    have hname : Tightens (quoted name) (quoted name) := (isLiteral_quoted name).tighten_append
    have hcolon : Tightens ":" ":" := tightens_mark rfl (by decide) (by decide)
    exact ((hname.append hcolon).append (tightens_gap hl.gap)).append
      (tightens_write hl depth depth' value)

end

/-- A text without its blanks is the same in every layout. -/
theorem tighten_write {l : Layout} (hl : l.IsBlank) (depth : Nat) (v : Json) :
    tighten (v.write l depth).toList = v.compact.toList := by
  have h := tightens_write hl depth 0 v []
  rwa [List.append_nil, tighten, List.append_nil] at h

namespace Document

/-- The value under a name that an object has once. -/
def member? (name : String) : Document → Option Document
  | object members =>
    match members.filter (·.1 = name) with
    | [(_, d)] => some d
    | _ => none
  | _ => none

def text? : Document → Option String
  | text s => some s
  | _ => none

/-- The value of a number that is written with digits only, up to a limit. -/
def natural? (limit : Nat) : Document → Option Nat
  | number s => (Numeral.readNat limit s.toList).toOption
  | _ => none

theorem natural?_repr {limit n : Nat} (h : n ≤ limit) :
    (number n.repr).natural? limit = some n := by
  rw [natural?, Numeral.readNat_eq_ok_iff.2 ⟨_, .inl rfl, Numeral.digits_repr n, h⟩]
  rfl

end Document

end Json

namespace Entry

open Json (Document Says tighten)

/-- The entry whose fields stand under their names. -/
def ofDocument? (d : Document) : Option Entry := do
  let number ← (← d.member? "enum_id").natural? maxNumber
  let category ← (Category.read (← (← d.member? "type").text?)).toOption
  let title ← (← d.member? "title").text?
  let id ← (← d.member? "id").natural? maxId
  return ⟨.ofNat number, category, title, .ofNat id⟩

def listOfDocument? : Document → Option (List Entry)
  | .array items => items.mapM ofDocument?
  | _ => none

theorem ofDocument?_document (e : Entry) : ofDocument? e.toJson.document = some e := by
  have hnumber : (Document.number e.number.toNat.repr).natural? maxNumber = some e.number.toNat :=
    Document.natural?_repr (Nat.le_of_lt_succ e.number.toNat_lt)
  have hid : (Document.number e.id.toNat.repr).natural? maxId = some e.id.toNat :=
    Document.natural?_repr (Nat.le_of_lt_succ e.id.toNat_lt)
  simp only [ofDocument?, toJson, Json.document, Json.memberDocuments, Document.member?,
    Document.text?, String.reduceEq, decide_false, decide_true, List.filter_cons, List.filter_nil,
    if_true, Bool.false_eq_true, if_false, Option.bind_eq_bind, Option.bind_some, hnumber, hid,
    Category.read_text, Except.toOption, Option.pure_def, UInt16.ofNat_toNat, UInt32.ofNat_toNat]

theorem listOfDocument?_document (entries : List Entry) :
    listOfDocument? (arrayJson entries).document = some entries := by
  have hread : (ofDocument? ∘ Json.document) ∘ toJson = fun e => pure e :=
    funext ofDocument?_document
  rw [arrayJson, Json.document, listOfDocument?, Json.documents_eq_map, List.mapM_map, List.mapM_map,
    hread, List.mapM_pure, List.map_id']
  rfl

theorem says_print (entries : List Entry) :
    Says (Command.Format.json.print entries) (arrayJson entries).document :=
  Json.says_write Json.Layout.isBlank_pretty 0 (arrayJson entries) Json.newline_mem_gap

/-- An entry is read back from its text, and a list of entries from what is printed. -/
theorem json_reads_back (e : Entry) (entries : List Entry) :
    (∃ d, Says e.toJson.compact d ∧ ofDocument? d = some e) ∧
    (∃ d, Says (Command.Format.json.print entries) d ∧ listOfDocument? d = some entries) ∧
    (∀ path strict limit source, ∃ d,
      Says ((Command.Request.mk path (.parse .json strict limit)).run (.ok source)).output d ∧
        listOfDocument? d = some (readSource limit source).1.entries) ∧
    tighten e.toJson.pretty.toList = e.toJson.compact.toList := by
  refine ⟨⟨e.toJson.document, ?_, ofDocument?_document e⟩,
    ⟨(arrayJson entries).document, says_print entries, listOfDocument?_document entries⟩,
    fun path strict limit source => ?_, Json.tighten_write Json.Layout.isBlank_pretty 0 e.toJson⟩
  · have h := Json.says_write Json.Layout.isBlank_compact 0 e.toJson (s := "") nil_mem_gap
    rwa [String.append_empty] at h
  · exact ⟨_, says_print _, listOfDocument?_document (readSource limit source).1.entries⟩

end Entry

end Codebook
