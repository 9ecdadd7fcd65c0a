import Codebook.Proofs.Production
import Mathlib.Algebra.Group.Nat.Defs

namespace Codebook

namespace Numeral

section Word

variable {w : Nat}

/-- A product in a word, unless the word is too narrow for it. -/
def checkedMul (a b : BitVec w) : Option (BitVec w) :=
  if a.umulOverflow b then none else some (a * b)

/-- A sum in a word, unless the word is too narrow for it. -/
def checkedAdd (a b : BitVec w) : Option (BitVec w) :=
  if a.uaddOverflow b then none else some (a + b)

/-- A value in a word with one more decimal digit behind it. -/
def appendDigit (value : BitVec w) (digit : Nat) : Option (BitVec w) := do
  let tens ← checkedMul value (BitVec.ofNat w 10)
  checkedAdd tens (BitVec.ofNat w digit)

/-- Reads decimal digits into a word, after a value already read. -/
def readWordDigits (value : BitVec w) : List Char → Option (BitVec w)
  | [] => some value
  | c :: cs =>
    if c.isDigit then do
      let value ← appendDigit value (c.toNat - '0'.toNat)
      readWordDigits value cs
    else none

/-- Reads a number into a word. One plus sign may stand before the digits. -/
def readWord (w : Nat) : List Char → Option (BitVec w)
  | [] => none
  | '+' :: c :: cs => readWordDigits 0 (c :: cs)
  | cs => readWordDigits 0 cs

theorem checked_eq {overflow : Bool} {value : BitVec w} {n : Nat}
    (hoverflow : overflow = decide (2 ^ w ≤ n)) (hvalue : value = BitVec.ofNat w n) :
    (if overflow then none else some value) =
      if n < 2 ^ w then some (BitVec.ofNat w n) else none := by
  rw [hoverflow, hvalue]
  by_cases h : n < 2 ^ w
  · rw [if_pos h, if_neg (by simpa using h)]
  · rw [if_neg h, if_pos (by simpa using h)]

theorem checkedMul_eq (a b : BitVec w) : checkedMul a b =
    if a.toNat * b.toNat < 2 ^ w then some (BitVec.ofNat w (a.toNat * b.toNat)) else none := by
  have hmul : a * b = BitVec.ofNat w (a.toNat * b.toNat) := by
    apply BitVec.eq_of_toNat_eq
    rw [BitVec.toNat_mul, BitVec.toNat_ofNat]
  exact checked_eq rfl hmul

theorem checkedAdd_eq (a b : BitVec w) : checkedAdd a b =
    if a.toNat + b.toNat < 2 ^ w then some (BitVec.ofNat w (a.toNat + b.toNat)) else none := by
  have hadd : a + b = BitVec.ofNat w (a.toNat + b.toNat) := by
    apply BitVec.eq_of_toNat_eq
    rw [BitVec.toNat_add, BitVec.toNat_ofNat]
  exact checked_eq rfl hadd

theorem ten_lt_two_pow (hw : 4 ≤ w) : 10 < 2 ^ w :=
  Nat.lt_of_lt_of_le (by decide) (Nat.pow_le_pow_right (by decide) hw)

/-- One more digit is refused exactly if the value with it does not fit, whether the multiplication
overflows or the addition does. -/
theorem appendDigit_eq (hw : 4 ≤ w) (value : BitVec w) {digit : Nat} (hdigit : digit < 10) :
    appendDigit value digit =
      if 10 * value.toNat + digit < 2 ^ w then
        some (BitVec.ofNat w (10 * value.toNat + digit))
      else none := by
  have hten := ten_lt_two_pow hw
  have hbase : (BitVec.ofNat w 10).toNat = 10 := Nat.mod_eq_of_lt hten
  have hlast : (BitVec.ofNat w digit).toNat = digit := Nat.mod_eq_of_lt (by omega)
  rw [appendDigit, checkedMul_eq, hbase, Nat.mul_comm value.toNat]
  by_cases hmul : 10 * value.toNat < 2 ^ w
  · have htens : (BitVec.ofNat w (10 * value.toNat)).toNat = 10 * value.toNat :=
      Nat.mod_eq_of_lt hmul
    rw [if_pos hmul, Option.bind_eq_bind, Option.bind_some, checkedAdd_eq, htens, hlast]
  · rw [if_neg hmul, if_neg (by omega)]
    rfl

-- The addition overflows in the first case, and the multiplication in the second.
example : appendDigit 6553#16 6 = none ∧ appendDigit 6554#16 0 = none := by decide

theorem digit_lt_ten {c : Char} (h : c.isDigit = true) : c.toNat - '0'.toNat < 10 := by
  obtain ⟨-, hle⟩ := Bool.and_eq_true_iff.1 h
  have hle : c.toNat ≤ 57 := UInt32.le_iff_toNat_le.1 (of_decide_eq_true hle)
  change c.toNat - 48 < 10
  omega

/-- Reading into a word is reading up to the greatest number that it holds. -/
theorem readWordDigits_eq (hw : 4 ≤ w) (value : BitVec w) (cs : List Char) :
    readWordDigits value cs =
      (readDigits (2 ^ w - 1) value.toNat cs).toOption.map (BitVec.ofNat w) := by
  induction cs generalizing value with
  | nil => simp [readWordDigits, readDigits, Except.toOption]
  | cons c cs ih =>
    rw [readWordDigits, readDigits]
    cases hc : c.isDigit with
    | false => rfl
    | true =>
      rw [if_pos rfl, if_pos rfl, appendDigit_eq hw value (digit_lt_ten hc)]
      by_cases h : 10 * value.toNat + (c.toNat - '0'.toNat) < 2 ^ w
      · have hfits : (BitVec.ofNat w (10 * value.toNat + (c.toNat - '0'.toNat))).toNat =
            10 * value.toNat + (c.toNat - '0'.toNat) := Nat.mod_eq_of_lt h
        rw [if_pos h, if_pos (Nat.le_sub_one_of_lt h), Option.bind_eq_bind, Option.bind_some, ih,
          hfits]
      · rw [if_neg h, if_neg (by omega)]
        rfl

theorem readWord_eq (hw : 4 ≤ w) (cs : List Char) :
    readWord w cs = (readNat (2 ^ w - 1) cs).toOption.map (BitVec.ofNat w) := by
  have hdigits (cs : List Char) : readWordDigits (0 : BitVec w) cs =
      (readDigits (2 ^ w - 1) 0 cs).toOption.map (BitVec.ofNat w) :=
    (readWordDigits_eq hw 0 cs).trans (by simp)
  unfold readWord
  split
  · rfl
  · exact hdigits _
  · rename_i hnil hplus
    rw [readNat]
    · exact hdigits _
    · exact hnil
    · exact hplus

end Word

end Numeral

namespace Token

/-- The number of a token in a word of some width. -/
def word (w : Nat) (t : Token) : Except Rejection (BitVec w) :=
  match Numeral.readWord w t.lexeme.toList with
  | some value => .ok value
  | none => .error (.overflow t.lexeme (2 ^ w - 1) t.line)

theorem natural_eq_error {limit : Nat} {t : Token} (h : ¬ ∃ n, t.Names limit n) :
    t.natural limit = .error (.overflow t.lexeme limit t.line) := by
  cases hnatural : t.natural limit with
  | ok n => exact absurd ⟨n, natural_eq_ok_iff.1 hnatural⟩ h
  | error r =>
    rw [natural] at hnatural
    split at hnatural
    · cases hnatural
    · rw [← hnatural]

theorem word_eq {w : Nat} (hw : 4 ≤ w) (t : Token) :
    t.word w = (t.natural (2 ^ w - 1)).map (BitVec.ofNat w) := by
  rw [word, natural, Numeral.readWord_eq hw]
  cases Numeral.readNat (2 ^ w - 1) t.lexeme.toList <;> rfl

end Token

namespace Declaration

/-- The numbers of a declaration. -/
inductive Number where
  | number
  | id
  deriving DecidableEq, Repr

namespace Number

def width : Number → Nat
  | number => 16
  | id => 32

def limit : Number → Nat
  | number => maxNumber
  | id => maxId

def step : Number → Step
  | number => .number
  | id => .id

/-- Puts a word into the entry. -/
def put : (f : Number) → BitVec f.width → Entry → Entry
  | number, value, e => { e with number := .ofBitVec value }
  | id, value, e => { e with id := .ofBitVec value }

def get : Number → Entry → Nat
  | number, e => e.number.toNat
  | id, e => e.id.toNat

theorem limit_eq (f : Number) : f.limit = 2 ^ f.width - 1 := by
  cases f <;> rfl

theorem four_le_width (f : Number) : 4 ≤ f.width := by
  cases f <;> decide

theorem get_put (f : Number) (value : BitVec f.width) (e : Entry) :
    f.get (f.put value e) = value.toNat := by
  cases f <;> rfl

theorem fill_eq (f : Number) (t : Token) (e : Entry) :
    f.step.fill t e = (t.word f.width).map (f.put · e) := by
  rw [Token.word_eq f.four_le_width, ← f.limit_eq]
  cases f with
  | number =>
    simp only [step, Step.number, limit]
    cases t.natural maxNumber <;> rfl
  | id =>
    simp only [step, Step.id, limit]
    cases t.natural maxId <;> rfl

theorem natural_eq (f : Number) (t : Token) :
    t.natural f.limit = (t.word f.width).map BitVec.toNat := by
  rw [Token.word_eq f.four_le_width, ← f.limit_eq]
  cases h : t.natural f.limit with
  | error r => rfl
  | ok n =>
    have hle : n ≤ 2 ^ f.width - 1 := f.limit_eq ▸ Token.natural_le h
    have hlt : n < 2 ^ f.width := by
      have := Nat.two_pow_pos f.width
      omega
    exact congrArg Except.ok (Nat.mod_eq_of_lt hlt).symm

theorem names_get {f : Number} {t : Token} {e e' : Entry} (h : f.step.fill t e = .ok e') :
    t.Names f.limit (f.get e') := by
  rw [f.fill_eq] at h
  cases hword : t.word f.width with
  | error r => rw [hword] at h; cases h
  | ok value =>
    rw [hword] at h
    cases h
    have hnatural : t.natural f.limit = .ok value.toNat := by rw [f.natural_eq, hword]; rfl
    rw [f.get_put]
    exact Token.natural_eq_ok_iff.1 hnatural

/-- A number is taken over exactly or refused, as by a digit loop over words of its width. -/
theorem converts_exactly (f : Number) (t : Token) :
    (∀ n, t.natural f.limit = .ok n ↔ t.Names f.limit n) ∧
      ((¬ ∃ n, t.Names f.limit n) →
        t.natural f.limit = .error (.overflow t.lexeme f.limit t.line)) ∧
      t.natural f.limit = (t.word f.width).map BitVec.toNat ∧
      ∀ e, f.step.fill t e = (t.word f.width).map (f.put · e) ∧
        ∀ e', f.step.fill t e = .ok e' → t.Names f.limit (f.get e') :=
  ⟨fun _ => Token.natural_eq_ok_iff, Token.natural_eq_error, f.natural_eq t,
    fun e => ⟨f.fill_eq t e, fun _ => names_get⟩⟩

end Number

end Declaration

end Codebook
