import Codebook.Numeral

namespace Codebook.Numeral

/-- Digits that write a number in base ten, with any number of zeros in front. -/
structure Digits (ds : List Char) (n : Nat) : Prop where
  ne_nil : ds ≠ []
  isDigit : ∀ d ∈ ds, d.isDigit = true
  value : Nat.ofDigitChars 10 ds 0 = n

theorem le_ofDigitChars (cs : List Char) (value : Nat) : value ≤ Nat.ofDigitChars 10 cs value := by
  induction cs generalizing value with
  | nil => simp
  | cons c cs ih =>
    rw [Nat.ofDigitChars_cons]
    exact Nat.le_trans (by omega) (ih _)

theorem readDigits_eq_ok_iff {limit value n : Nat} {cs : List Char} (hv : value ≤ limit) :
    readDigits limit value cs = .ok n ↔
      (∀ c ∈ cs, c.isDigit = true) ∧ Nat.ofDigitChars 10 cs value = n ∧ n ≤ limit := by
  induction cs generalizing value with
  | nil =>
    simp only [readDigits, Except.ok.injEq, List.not_mem_nil, false_implies, implies_true,
      Nat.ofDigitChars_nil, true_and]
    apply Iff.intro
    · rintro rfl
      exact ⟨rfl, hv⟩
    · exact fun h => h.1
  | cons c cs ih =>
    cases hc : c.isDigit with
    | false => simp [readDigits, hc]
    | true =>
      have hle := le_ofDigitChars cs (10 * value + (c.toNat - '0'.toNat))
      rw [readDigits, if_pos hc, Nat.ofDigitChars_cons]
      split
      · rename_i hlimit
        rw [ih hlimit, List.forall_mem_cons]
        simp only [hc, true_and]
      · simp only [reduceCtorEq, false_iff, not_and]
        rintro - rfl
        omega

/-- A natural number is read exactly from digits within the limit, after a plus sign or not. -/
theorem readNat_eq_ok_iff {limit n : Nat} {cs : List Char} :
    readNat limit cs = .ok n ↔
      ∃ ds, (cs = ds ∨ cs = '+' :: ds) ∧ Digits ds n ∧ n ≤ limit := by
  have hdigits (cs : List Char) (hcs : cs ≠ []) :
      readDigits limit 0 cs = .ok n ↔ Digits cs n ∧ n ≤ limit := by
    rw [readDigits_eq_ok_iff (Nat.zero_le _)]
    exact ⟨fun ⟨h, hn, hle⟩ => ⟨⟨hcs, h, hn⟩, hle⟩, fun ⟨h, hle⟩ => ⟨h.isDigit, h.value, hle⟩⟩
  have hplus (ds : List Char) : ¬ Digits ('+' :: ds) n := fun h => by
    simpa using h.isDigit '+' (by simp)
  unfold readNat
  split
  · simp only [reduceCtorEq, false_iff, not_exists]
    rintro ds ⟨rfl | h, hd, -⟩
    · exact hd.ne_nil rfl
    · cases h
  · rename_i c cs
    rw [hdigits _ (by simp)]
    apply Iff.intro
    · exact fun h => ⟨_, .inr rfl, h⟩
    · rintro ⟨ds, rfl | h, hd⟩
      · exact absurd hd.1 (hplus _)
      · cases h
        exact hd
  · rename_i cs hnil hcons
    rw [hdigits _ fun h => hnil h]
    apply Iff.intro
    · exact fun h => ⟨_, .inl rfl, h⟩
    · rintro ⟨ds, rfl | rfl, hd⟩
      · exact hd
      · cases ds with
        | nil => exact absurd rfl hd.1.ne_nil
        | cons d ds => exact absurd rfl (hcons d ds)

theorem readNat_le {limit n : Nat} {cs : List Char} (h : readNat limit cs = .ok n) :
    n ≤ limit := by
  obtain ⟨-, -, -, hle⟩ := readNat_eq_ok_iff.1 h
  exact hle

end Codebook.Numeral
