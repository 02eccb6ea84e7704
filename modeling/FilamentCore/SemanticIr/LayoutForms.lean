import FilamentCore.SemanticIr.NumberLayout

/-!
# The form of a layout (crates/semantic-ir/src/number.rs)

`layout` against the `Number::toString` of ECMAScript, and its arithmetic on `i32`.
-/

namespace FilamentCore.SemanticIr
open Grammar

/-! ### ECMAScript -/

/-- Steps 5 to 10 of `Number::toString`, for the value `digits × 10 ^ (n - k)` with `k` digits. -/
def ecmaText (digits : List Char) (n : ℤ) : List Char :=
  if -5 ≤ n ∧ n ≤ 21 then
    if (digits.length : ℤ) ≤ n then digits ++ List.replicate (n - digits.length).toNat '0'
    else if 0 < n then digits.take n.toNat ++ '.' :: digits.drop n.toNat
    else '0' :: '.' :: (List.replicate (-n).toNat '0' ++ digits)
  else
    let exponent := 'e' :: (if n < 0 then '-' else '+') :: (toString (n - 1).natAbs).toList
    match digits with
    | [] => exponent
    | [digit] => digit :: exponent
    | digit :: rest => digit :: '.' :: (rest ++ exponent)

variable {digits : List Char} {n : ℤ}

theorem exponent_sign (hn : ¬ (-5 ≤ n ∧ n ≤ 21)) :
    (if 0 ≤ n - 1 then '+' else '-') = if n < 0 then '-' else '+' := by
  by_cases hneg : n < 0
  · have he : ¬ 0 ≤ n - 1 := by omega
    rw [if_neg he, if_pos hneg]
  · have he : 0 ≤ n - 1 := by omega
    rw [if_pos he, if_neg hneg]

theorem layout_exponent (hpos : 0 < digits.length) (hn : ¬ (-5 ≤ n ∧ n ≤ 21)) :
    layout digits digits.length n = ecmaText digits n := by
  have hplain : ¬ ((digits.length : ℤ) ≤ n ∧ n ≤ 21) := by omega
  have hpoint : ¬ (0 < n ∧ n ≤ 21) := by omega
  have hfraction : ¬ (-6 < n ∧ n ≤ 0) := by omega
  rw [layout, if_neg hplain, if_neg hpoint, if_neg hfraction, ecmaText, if_neg hn,
    ← exponent_sign hn]
  cases digits with
  | nil => exact absurd hpos (Nat.lt_irrefl 0)
  | cons digit rest =>
    cases rest with
    | nil => rfl
    | cons second rest =>
      have hk : ¬ (((digit :: second :: rest).length : ℤ) = 1) := by
        simp only [List.length_cons]
        omega
      simp only [if_neg hk]
      rfl

/-- The branches of `layout` are those of ECMAScript. -/
theorem layout_eq_ecmaText (hpos : 0 < digits.length) (n : ℤ) :
    layout digits digits.length n = ecmaText digits n := by
  by_cases hn : -5 ≤ n ∧ n ≤ 21
  · rw [layout, ecmaText, if_pos hn]
    by_cases hplain : (digits.length : ℤ) ≤ n
    · have hall : (digits.length : ℤ) ≤ n ∧ n ≤ 21 := ⟨hplain, hn.2⟩
      rw [if_pos hall, if_pos hplain]
    · have hall : ¬ ((digits.length : ℤ) ≤ n ∧ n ≤ 21) := fun hc => hplain hc.1
      rw [if_neg hall, if_neg hplain]
      by_cases hpoint : 0 < n
      · have hboth : 0 < n ∧ n ≤ 21 := ⟨hpoint, hn.2⟩
        rw [if_pos hboth, if_pos hpoint]
      · have hboth : ¬ (0 < n ∧ n ≤ 21) := fun hc => hpoint hc.1
        have hfraction : -6 < n ∧ n ≤ 0 := by omega
        rw [if_neg hboth, if_neg hpoint, if_pos hfraction]
        rfl
  · exact layout_exponent hpos hn

/-! ### Arithmetic on `i32` -/

/-- The result of an `i32` operation, none where it overflows. -/
def i32 (x : ℤ) : Option ℤ :=
  if -2 ^ 31 ≤ x ∧ x < 2 ^ 31 then some x else none

/-- `layout` with every `i32` operation and every slice of the source. -/
def layoutChecked (digits : List Char) (k n : ℤ) : Option (List Char) :=
  if k ≤ n ∧ n ≤ 21 then
    (i32 (n - k)).map fun zeros => digits ++ List.replicate zeros.toNat '0'
  else if 0 < n ∧ n ≤ 21 then
    if n.toNat ≤ digits.length then some (digits.take n.toNat ++ '.' :: digits.drop n.toNat)
    else none
  else if -6 < n ∧ n ≤ 0 then
    (i32 (-n)).map fun zeros => '0' :: '.' :: List.replicate zeros.toNat '0' ++ digits
  else
    (i32 (n - 1)).bind fun e =>
      (if 0 ≤ e then some e else i32 (-e)).bind fun magnitude =>
        (if k = 1 then some digits
        else if 1 ≤ digits.length then some (digits.take 1 ++ '.' :: digits.drop 1)
        else none).map fun mantissa =>
          mantissa ++ 'e' :: (if 0 ≤ e then '+' else '-') :: (toString magnitude).toList

theorem i32_of_range {x : ℤ} (hlow : -2 ^ 31 ≤ x) (hhigh : x < 2 ^ 31) : i32 x = some x :=
  if_pos ⟨hlow, hhigh⟩

theorem layoutChecked_eq (hpos : 0 < digits.length) (hlength : (digits.length : ℤ) < 2 ^ 31)
    (hlow : -2 ^ 31 + 2 ≤ n) (hhigh : n < 2 ^ 31) :
    layoutChecked digits digits.length n = some (layout digits digits.length n) := by
  rw [layoutChecked, layout]
  by_cases hplain : (digits.length : ℤ) ≤ n ∧ n ≤ 21
  · rw [if_pos hplain, if_pos hplain, i32_of_range (by omega) (by omega)]
    rfl
  · rw [if_neg hplain, if_neg hplain]
    by_cases hpoint : 0 < n ∧ n ≤ 21
    · have hslice : n.toNat ≤ digits.length := by omega
      rw [if_pos hpoint, if_pos hpoint, if_pos hslice]
    · rw [if_neg hpoint, if_neg hpoint]
      by_cases hfraction : -6 < n ∧ n ≤ 0
      · rw [if_pos hfraction, if_pos hfraction, i32_of_range (by omega) (by omega)]
        rfl
      · rw [if_neg hfraction, if_neg hfraction, i32_of_range (by omega) (by omega),
          Option.bind_some]
        have hmagnitude : (if 0 ≤ n - 1 then some (n - 1) else i32 (-(n - 1))) =
            some ((n - 1).natAbs : ℤ) := by
          by_cases he : 0 ≤ n - 1
          · rw [if_pos he, Int.natAbs_of_nonneg he]
          · rw [if_neg he, i32_of_range (by omega) (by omega)]
            have habs : -(n - 1) = ((n - 1).natAbs : ℤ) := by omega
            rw [habs]
        have hmantissa : (if (digits.length : ℤ) = 1 then some digits
            else if 1 ≤ digits.length then some (digits.take 1 ++ '.' :: digits.drop 1)
            else none) =
            some (if (digits.length : ℤ) = 1 then digits
              else digits.take 1 ++ '.' :: digits.drop 1) := by
          by_cases hk : (digits.length : ℤ) = 1
          · rw [if_pos hk, if_pos hk]
          · have hone : 1 ≤ digits.length := hpos
            rw [if_neg hk, if_neg hk, if_pos hone]
        rw [hmagnitude, Option.bind_some, hmantissa]
        rfl

/-! ### The layout -/

/-- Every layout is a JSON number whose value is that of its digits, in the form that ECMAScript
prescribes, and the `i32` operations of the source compute it. -/
theorem layout_prescribed (h : Leading digits) (n : ℤ) :
    NumberText (layout digits digits.length n) ∧
    readUnsigned (layout digits digits.length n) =
      some ((decimalValue digits : ℚ) * 10 ^ (n - digits.length)) ∧
    layout digits digits.length n = ecmaText digits n ∧
    ((digits.length : ℤ) < 2 ^ 31 → -2 ^ 31 + 2 ≤ n → n < 2 ^ 31 →
      layoutChecked digits digits.length n = some (layout digits digits.length n)) := by
  have hpos : 0 < digits.length := List.length_pos_iff.2 h.integerText.1.1
  obtain ⟨ws, fs, tail, e, hspelling, hvalue, _⟩ := layout_spelling h n
  refine ⟨hspelling.numberText, ?_, layout_eq_ecmaText hpos n, layoutChecked_eq hpos⟩
  rw [hspelling.readUnsigned_eq, power_eq, Nat.cast_ofNat, hvalue]

theorem layout_prescribed_small :
    NumberText (layout ['1', '2', '5'] 3 (-6)) ∧
    readUnsigned (layout ['1', '2', '5'] 3 (-6)) = some (125 * 10 ^ (-9 : ℤ)) ∧
    layoutChecked ['1', '2', '5'] 3 (-6) = some (layout ['1', '2', '5'] 3 (-6)) := by
  have hleading : Leading ['1', '2', '5'] := ⟨by simp [isAsciiDigit], '1', rfl, by decide⟩
  obtain ⟨htext, hvalue, _, hchecked⟩ := layout_prescribed hleading (-6)
  have hdigits : decimalValue ['1', '2', '5'] = 125 := rfl
  refine ⟨htext, ?_, hchecked (by norm_num) (by norm_num) (by norm_num)⟩
  rw [hdigits] at hvalue
  exact_mod_cast hvalue

end FilamentCore.SemanticIr
