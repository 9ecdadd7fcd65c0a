namespace Codebook

namespace Numeral

/-- Why a text names no number of the wanted range. -/
inductive Fault where
  | empty
  | badDigit
  | tooLarge
  | tooSmall
  deriving DecidableEq, Repr

def Fault.message : Fault → String
  | empty => "cannot parse integer from empty string"
  | badDigit => "invalid digit found in string"
  | tooLarge => "number too large to fit in target type"
  | tooSmall => "number too small to fit in target type"

/-- Reads decimal digits after a value already read. The first character that cannot be taken
decides the fault. -/
def readDigits (limit value : Nat) : List Char → Except Fault Nat
  | [] => .ok value
  | c :: cs =>
    if c.isDigit then
      if 10 * value + (c.toNat - '0'.toNat) ≤ limit then
        readDigits limit (10 * value + (c.toNat - '0'.toNat)) cs
      else .error .tooLarge
    else .error .badDigit

/-- Reads a natural number up to a limit. One plus sign may stand before the digits. -/
def readNat (limit : Nat) : List Char → Except Fault Nat
  | [] => .error .empty
  | '+' :: c :: cs => readDigits limit 0 (c :: cs)
  | cs => readDigits limit 0 cs

/-- Reads an integer of 64 bits, with an optional sign before the digits. -/
def readInt64 : List Char → Except Fault Int
  | [] => .error .empty
  | '-' :: c :: cs =>
    match readDigits 9223372036854775808 0 (c :: cs) with
    | .ok n => .ok (-n)
    | .error .tooLarge => .error .tooSmall
    | .error fault => .error fault
  | '+' :: c :: cs => (readDigits 9223372036854775807 0 (c :: cs)).map Int.ofNat
  | cs => (readDigits 9223372036854775807 0 cs).map Int.ofNat

end Numeral

end Codebook
