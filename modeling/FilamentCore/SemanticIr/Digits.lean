import FilamentCore.SemanticIr.Numerals

/-!
# Runs of digits

The value of a run of decimal digits against its length and its first digit.
-/

namespace FilamentCore.SemanticIr

/-! ### Characters -/

theorem char_eq_of_toNat {c d : Char} (h : c.toNat = d.toNat) : c = d :=
  Char.ext (UInt32.toNat_inj.1 h)

theorem digit_bounds {c : Char} (h : isAsciiDigit c = true) : 48 ≤ c.toNat ∧ c.toNat ≤ 57 := by
  simp only [isAsciiDigit, Bool.and_eq_true, decide_eq_true_eq, Char.le_def,
    UInt32.le_iff_toNat_le] at h
  exact h

theorem not_digit_minus : isAsciiDigit '-' = false := by decide

theorem head_ne_minus {c : Char} {cs : List Char} (h : isAsciiDigit c = true) :
    (c :: cs).head? ≠ some '-' := by
  intro heq
  simp only [List.head?_cons, Option.some.injEq] at heq
  rw [heq, not_digit_minus] at h
  cases h

/-! ### Values -/

theorem foldl_digits (acc : ℕ) (cs : List Char) :
    cs.foldl (fun acc c => 10 * acc + (c.toNat - '0'.toNat)) acc =
      acc * 10 ^ cs.length + decimalValue cs := by
  induction cs generalizing acc with
  | nil => simp [decimalValue]
  | cons c cs ih =>
    have hnil := ih (10 * 0 + (c.toNat - '0'.toNat))
    have hvalue : decimalValue (c :: cs) =
        cs.foldl (fun acc c => 10 * acc + (c.toNat - '0'.toNat)) (10 * 0 + (c.toNat - '0'.toNat)) :=
      rfl
    rw [List.foldl_cons, ih, hvalue, hnil, List.length_cons, pow_succ]
    ring

theorem decimalValue_cons (c : Char) (cs : List Char) :
    decimalValue (c :: cs) = (c.toNat - '0'.toNat) * 10 ^ cs.length + decimalValue cs := by
  have h := foldl_digits (10 * 0 + (c.toNat - '0'.toNat)) cs
  simpa only [mul_zero, zero_add, decimalValue, List.foldl_cons] using h

theorem le_decimalValue {c : Char} {cs : List Char} (hd : isAsciiDigit c = true) (hz : c ≠ '0') :
    10 ^ cs.length ≤ decimalValue (c :: cs) := by
  have hbounds := digit_bounds hd
  have hne : c.toNat ≠ '0'.toNat := fun h => hz (char_eq_of_toNat h)
  have hzero : '0'.toNat = 48 := rfl
  have hone : 1 ≤ c.toNat - '0'.toNat := by omega
  rw [decimalValue_cons]
  calc 10 ^ cs.length = 1 * 10 ^ cs.length := (one_mul _).symm
    _ ≤ (c.toNat - '0'.toNat) * 10 ^ cs.length := Nat.mul_le_mul_right _ hone
    _ ≤ _ := Nat.le_add_right _ _

theorem eq_one_of_decimalValue {c : Char} {cs : List Char} (hd : isAsciiDigit c = true)
    (hz : c ≠ '0') (h : decimalValue (c :: cs) = 1) : c :: cs = ['1'] := by
  have hle := @le_decimalValue c cs hd hz
  cases cs with
  | nil =>
    have hvalue : c.toNat - '0'.toNat = 1 := by
      rw [decimalValue_cons] at h
      simpa [decimalValue] using h
    have hzero : '0'.toNat = 48 := rfl
    have hone : '1'.toNat = 49 := rfl
    rw [char_eq_of_toNat (c := c) (d := '1') (by omega)]
  | cons d ds =>
    have hten : 10 ≤ 10 ^ (d :: ds).length := by
      rw [List.length_cons, pow_succ]
      have := Nat.one_le_pow ds.length 10 (by omega)
      omega
    omega

end FilamentCore.SemanticIr
