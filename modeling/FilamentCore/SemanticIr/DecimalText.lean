import FilamentCore.SemanticIr.Numerals
import FilamentCore.SemanticIr.ShortestDigits

/-!
# Decimals in their canonical spelling

A decimal is spelled by a sign, a whole part without a leading zero and a fraction without a
trailing zero. Every number that a power of ten makes an integer has one such spelling, and no
other.
-/

namespace FilamentCore.SemanticIr

/-! ### Spellings -/

/-- Digits with no leading zero, one at least. -/
structure WholePart (w : List Char) : Prop where
  digit : ∀ c ∈ w, isAsciiDigit c = true
  lead : w = ['0'] ∨ ∃ c cs, w = c :: cs ∧ c ≠ '0'

/-- Digits with no trailing zero. -/
structure FractionPart (f : List Char) : Prop where
  digit : ∀ c ∈ f, isAsciiDigit c = true
  last : f.getLast? ≠ some '0'

structure CanonicalParts (negative : Bool) (w f : List Char) : Prop where
  whole : WholePart w
  fraction : FractionPart f
  unsigned : negative = true → w = ['0'] → f ≠ []

def spellParts (negative : Bool) (w f : List Char) : List Char :=
  signed negative (if f.isEmpty then w else w ++ '.' :: f)

theorem spellParts_whole (n : Bool) (w : List Char) : spellParts n w [] = signed n w := rfl

theorem spellParts_point (n : Bool) (w : List Char) {f : List Char} (hf : f ≠ []) :
    spellParts n w f = signed n (w ++ '.' :: f) := by
  rw [spellParts, if_neg (by simpa using hf)]

theorem FractionPart.nil : FractionPart [] := ⟨by simp, by simp⟩

theorem WholePart.zero : WholePart ['0'] := ⟨by simp [isAsciiDigit], .inl rfl⟩

def partsValue (negative : Bool) (w f : List Char) : ℚ :=
  (if negative then -1 else 1) * (decimalValue (w ++ f) / 10 ^ f.length)

/-! ### Reading the parts -/

theorem cutPoint_plain {w : List Char} (hw : '.' ∉ w) : cutPoint w = (w, []) := by
  have hnone : splitOnce '.' w = none := by
    induction w with
    | nil => rfl
    | cons c w ih =>
      rw [List.mem_cons, not_or] at hw
      rw [splitOnce, if_neg (Ne.symm hw.1), ih hw.2, Option.map_none]
  rw [cutPoint, hnone]

theorem cutPoint_point {w : List Char} (hw : '.' ∉ w) (f : List Char) :
    cutPoint (w ++ '.' :: f) = (w, f) := by
  have hsome : splitOnce '.' (w ++ '.' :: f) = some (w, f) := by
    induction w with
    | nil => rfl
    | cons c w ih =>
      rw [List.mem_cons, not_or] at hw
      rw [List.cons_append, splitOnce, if_neg (Ne.symm hw.1), ih hw.2, Option.map_some]
  rw [cutPoint, hsome]

theorem cutPoint_cases (cs : List Char) :
    '.' ∉ cs ∧ cutPoint cs = (cs, []) ∨
      ∃ w f, cs = w ++ '.' :: f ∧ '.' ∉ w ∧ cutPoint cs = (w, f) := by
  by_cases hcs : '.' ∈ cs
  · obtain ⟨w, f, rfl, hw⟩ := List.eq_append_cons_of_mem hcs
    exact .inr ⟨w, f, rfl, hw, cutPoint_point hw f⟩
  · exact .inl ⟨hcs, cutPoint_plain hcs⟩

theorem point_not_digit {cs : List Char} (h : ∀ c ∈ cs, isAsciiDigit c = true) : '.' ∉ cs := by
  intro hm
  have hdigit := h _ hm
  cases hdigit

theorem signed_stripMinus (cs : List Char) :
    signed (cs.head? == some '-') (stripMinus cs) = cs := by
  unfold stripMinus
  split
  · rfl
  · rename_i hne
    cases cs with
    | nil => rfl
    | cons c cs =>
      have hc : c ≠ '-' := by
        rintro rfl
        exact hne cs rfl
      simp [signed, hc]

theorem stripMinus_signed {n : Bool} {cs : List Char} (h : cs.head? ≠ some '-') :
    stripMinus (signed n cs) = cs ∧ ((signed n cs).head? == some '-') = n := by
  cases n with
  | true => exact ⟨rfl, rfl⟩
  | false =>
    have hplain := signed_stripMinus cs
    rw [beq_eq_false_iff_ne.2 h] at hplain
    exact ⟨hplain, beq_eq_false_iff_ne.2 h⟩

theorem WholePart.head_ne_minus {w : List Char} (hw : WholePart w) (rest : List Char) :
    (w ++ rest).head? ≠ some '-' := by
  rcases hw.lead with rfl | ⟨c, cs, rfl, -⟩
  · simp
  · have hc := hw.digit c (List.mem_cons_self ..)
    rw [List.cons_append, List.head?_cons, ne_eq, Option.some.injEq]
    rintro rfl
    cases hc

/-! ### Digits and their value -/

theorem decimalValue_injective {cs ds : List Char} (hcs : ∀ c ∈ cs, isAsciiDigit c = true)
    (hds : ∀ c ∈ ds, isAsciiDigit c = true) (hl : cs.length = ds.length)
    (h : decimalValue cs = decimalValue ds) : cs = ds := by
  induction cs generalizing ds with
  | nil => exact (List.eq_nil_of_length_eq_zero hl.symm).symm
  | cons c cs ih =>
    cases ds with
    | nil => cases hl
    | cons d ds =>
      have hlen : cs.length = ds.length := Nat.succ.inj hl
      have hcrest := fun x hx => hcs x (List.mem_cons_of_mem _ hx)
      have hdrest := fun x hx => hds x (List.mem_cons_of_mem _ hx)
      have hc := digit_bounds (hcs c (List.mem_cons_self ..))
      have hd := digit_bounds (hds d (List.mem_cons_self ..))
      have hclt := decimalValue_lt hcrest
      have hdlt := decimalValue_lt hdrest
      have hzero : '0'.toNat = 48 := rfl
      rw [decimalValue_cons, decimalValue_cons, hlen] at h
      rw [hlen] at hclt
      have hpos : 0 < 10 ^ ds.length := by positivity
      -- the first digit is the quotient, the rest the remainder
      have hquot : c.toNat - '0'.toNat = d.toNat - '0'.toNat := by
        have hdiv := congrArg (· / 10 ^ ds.length) h
        simp only [mul_comm _ (10 ^ ds.length), Nat.mul_add_div hpos, Nat.div_eq_of_lt hclt,
          Nat.div_eq_of_lt hdlt, add_zero] at hdiv
        exact hdiv
      rw [hquot, Nat.add_left_cancel_iff] at h
      rw [char_eq_of_toNat (c := c) (d := d) (by omega), ih hcrest hdrest hlen h]

theorem decimalValue_concat (cs : List Char) (d : Char) :
    decimalValue (cs ++ [d]) = decimalValue cs * 10 + (d.toNat - '0'.toNat) := by
  rw [decimalValue_append, decimalValue_cons]
  simp [decimalValue]

theorem decimalValue_mod_ten (cs : List Char) {f : List Char} (hf : FractionPart f) (hne : f ≠ []) :
    decimalValue (cs ++ f) % 10 ≠ 0 := by
  obtain ⟨front, d, rfl⟩ := List.eq_nil_or_concat f |>.resolve_left hne
  have hd := digit_bounds (hf.digit d (by simp))
  have hzero : d ≠ '0' := by
    rintro rfl
    exact hf.last (by simp)
  have hnum : d.toNat ≠ '0'.toNat := fun h => hzero (char_eq_of_toNat h)
  have h48 : '0'.toNat = 48 := rfl
  rw [List.concat_eq_append, ← List.append_assoc, decimalValue_concat]
  omega

theorem WholePart.value_pos {w : List Char} (hw : WholePart w) (hne : w ≠ ['0']) :
    10 ^ (w.length - 1) ≤ decimalValue w := by
  obtain ⟨c, cs, rfl, hc⟩ := hw.lead.resolve_left hne
  exact le_decimalValue (hw.digit c (List.mem_cons_self ..)) hc

theorem WholePart.length_pos {w : List Char} (hw : WholePart w) : 0 < w.length := by
  rcases hw.lead with rfl | ⟨c, cs, rfl, -⟩
  · exact Nat.one_pos
  · exact Nat.succ_pos _

theorem WholePart.unique {w v : List Char} (hw : WholePart w) (hv : WholePart v)
    (h : decimalValue w = decimalValue v) : w = v := by
  have hzero : decimalValue ['0'] = 0 := by decide
  by_cases hw0 : w = ['0']
  · by_contra hne
    have hv0 : v ≠ ['0'] := fun heq => hne (hw0.trans heq.symm)
    have hpos := hv.value_pos hv0
    have hten : 0 < 10 ^ (v.length - 1) := by positivity
    rw [hw0, hzero] at h
    omega
  · by_cases hv0 : v = ['0']
    · have hpos := hw.value_pos hw0
      have hten : 0 < 10 ^ (w.length - 1) := by positivity
      rw [hv0, hzero] at h
      omega
    · have hwlt := decimalValue_lt hw.digit
      have hvlt := decimalValue_lt hv.digit
      have hwle := hw.value_pos hw0
      have hvle := hv.value_pos hv0
      have hwpos := hw.length_pos
      have hvpos := hv.length_pos
      rw [h] at hwlt hwle
      have h₁ := (Nat.pow_lt_pow_iff_right (by norm_num : 1 < 10)).1 (hwle.trans_lt hvlt)
      have h₂ := (Nat.pow_lt_pow_iff_right (by norm_num : 1 < 10)).1 (hvle.trans_lt hwlt)
      exact decimalValue_injective hw.digit hv.digit (by omega) h

/-! ### One spelling for each number -/

section Unique

variable {n n' : Bool} {w f w' f' : List Char}

theorem CanonicalParts.value_eq_zero (h : CanonicalParts n w f) (hz : decimalValue (w ++ f) = 0) :
    n = false ∧ w = ['0'] ∧ f = [] := by
  have hf : f = [] := by
    by_contra hne
    have hmod := decimalValue_mod_ten w h.fraction hne
    omega
  have hw : w = ['0'] := by
    by_contra hne
    have hpos := h.whole.value_pos hne
    have hten : 0 < 10 ^ (w.length - 1) := by positivity
    rw [hf, List.append_nil] at hz
    omega
  refine ⟨?_, hw, hf⟩
  cases n with
  | false => rfl
  | true => exact absurd hf (h.unsigned rfl hw)

theorem partsValue_abs : |partsValue n w f| = decimalValue (w ++ f) / 10 ^ f.length := by
  rw [partsValue, abs_mul]
  have hsign : |(if n = true then -1 else 1 : ℚ)| = 1 := by cases n <;> simp
  rw [hsign, one_mul, abs_of_nonneg (by positivity)]

theorem partsValue_neg_iff (h : CanonicalParts n w f) : partsValue n w f < 0 ↔ n = true := by
  cases n with
  | false =>
    have hle : 0 ≤ partsValue false w f := by
      rw [partsValue]
      simp only [Bool.false_eq_true, if_false, one_mul]
      positivity
    simp [hle]
  | true =>
    have hvalue : 0 < decimalValue (w ++ f) := by
      rw [Nat.pos_iff_ne_zero]
      intro hz
      cases (h.value_eq_zero hz).1
    have hq : (0 : ℚ) < decimalValue (w ++ f) / 10 ^ f.length := by positivity
    simp only [partsValue, if_true, neg_mul, one_mul, Left.neg_neg_iff, hq]

theorem fraction_le (hf' : FractionPart f')
    (heq : decimalValue (w ++ f) * 10 ^ f'.length = decimalValue (w' ++ f') * 10 ^ f.length) :
    f'.length ≤ f.length := by
  by_contra hlt
  have hne : f' ≠ [] := by
    rintro rfl
    simp at hlt
  obtain ⟨k, hk⟩ : ∃ k, f'.length = f.length + (k + 1) := ⟨f'.length - f.length - 1, by omega⟩
  rw [hk, pow_add, mul_left_comm, mul_comm (decimalValue (w' ++ f'))] at heq
  have hcancel := Nat.eq_of_mul_eq_mul_left (by positivity) heq
  have hmod := decimalValue_mod_ten w' hf' hne
  rw [← hcancel, pow_succ, ← mul_assoc] at hmod
  exact hmod (Nat.mul_mod_left _ 10)

theorem CanonicalParts.unique (h : CanonicalParts n w f) (h' : CanonicalParts n' w' f')
    (heq : partsValue n w f = partsValue n' w' f') : n = n' ∧ w = w' ∧ f = f' := by
  have hsign : n = n' := by
    have hn := partsValue_neg_iff h
    rw [heq, partsValue_neg_iff h'] at hn
    exact (Bool.eq_iff_iff.2 hn).symm
  have habs := congrArg abs heq
  rw [partsValue_abs, partsValue_abs, div_eq_div_iff (by positivity) (by positivity)] at habs
  have hnat : decimalValue (w ++ f) * 10 ^ f'.length = decimalValue (w' ++ f') * 10 ^ f.length := by
    exact_mod_cast habs
  have hlen : f.length = f'.length :=
    Nat.le_antisymm (fraction_le h.fraction hnat.symm) (fraction_le h'.fraction hnat)
  rw [hlen] at hnat
  have hvalue := Nat.eq_of_mul_eq_mul_right (by positivity) hnat
  have hflt := decimalValue_lt h.fraction.digit
  have hflt' := decimalValue_lt h'.fraction.digit
  rw [decimalValue_append, decimalValue_append, hlen] at hvalue
  rw [hlen] at hflt
  have hpos : 0 < 10 ^ f'.length := by positivity
  have hwhole : decimalValue w = decimalValue w' := by
    have hdiv := congrArg (· / 10 ^ f'.length) hvalue
    simp only [mul_comm _ (10 ^ f'.length), Nat.mul_add_div hpos, Nat.div_eq_of_lt hflt,
      Nat.div_eq_of_lt hflt', add_zero] at hdiv
    exact hdiv
  rw [hwhole, Nat.add_left_cancel_iff] at hvalue
  exact ⟨hsign, h.whole.unique h'.whole hwhole,
    decimalValue_injective h.fraction.digit h'.fraction.digit hlen hvalue⟩

end Unique

/-! ### A spelling for each number -/

theorem partsValue_leading (n : Bool) (zeros : ℕ) (w f : List Char) :
    partsValue n (List.replicate zeros '0' ++ w) f = partsValue n w f := by
  rw [partsValue, partsValue, List.append_assoc, decimalValue_append _ (w ++ f),
    decimalValue_replicate, zero_mul, zero_add]

theorem partsValue_trailing (n : Bool) (zeros : ℕ) (w f : List Char) :
    partsValue n w (f ++ List.replicate zeros '0') = partsValue n w f := by
  rw [partsValue, partsValue, ← List.append_assoc, decimalValue_append (w ++ f),
    decimalValue_replicate, List.length_append, List.length_replicate, add_zero, pow_add]
  have hten : (10 : ℚ) ^ zeros ≠ 0 := by positivity
  push_cast
  rw [mul_div_mul_right _ _ hten]

theorem trimTrailing_eq (cs : List Char) :
    ∃ zeros, cs = trimTrailing cs ++ List.replicate zeros '0' := by
  obtain ⟨zeros, h⟩ := trimmed_eq cs
  have hsame : (fun c : Char => c == '0') = fun c => decide (c = '0') := by
    funext c
    rw [Bool.eq_iff_iff, beq_iff_eq, decide_eq_true_eq]
  refine ⟨zeros, ?_⟩
  rw [trimTrailing, hsame]
  exact h

theorem trimTrailing_fraction {cs : List Char} (h : ∀ c ∈ cs, isAsciiDigit c = true) :
    FractionPart (trimTrailing cs) := by
  obtain ⟨zeros, heq⟩ := trimTrailing_eq cs
  refine ⟨fun c hc => h c (by rw [heq]; exact List.mem_append_left _ hc), fun hlast => ?_⟩
  have hnot := List.head?_dropWhile_not (fun c : Char => c == '0') cs.reverse
  rw [trimTrailing, List.getLast?_reverse] at hlast
  rw [hlast] at hnot
  cases hnot

theorem toString_whole (m : ℕ) : WholePart (toString m).toList := by
  refine ⟨Json.toString_digits m, ?_⟩
  by_cases hm : m = 0
  · left
    rw [hm]
    rfl
  · right
    exact head_toString (Nat.pos_of_ne_zero hm)

/-- The digits of a remainder, `k` of them. -/
def padded (k m : ℕ) : List Char :=
  List.replicate (k - (toString m).length) '0' ++ (toString m).toList

theorem padded_length {k m : ℕ} (h : m < 10 ^ (k + 1)) : (padded (k + 1) m).length = k + 1 := by
  have hle : (toString m).length ≤ k + 1 := by
    by_cases hm : m = 0
    · rw [hm]
      exact Nat.succ_le_succ (Nat.zero_le k)
    · obtain ⟨hlow, -⟩ := toString_bounds (Nat.pos_of_ne_zero hm)
      have hpow := (Nat.pow_lt_pow_iff_right (by norm_num : 1 < 10)).1 (hlow.trans_lt h)
      omega
  rw [padded, List.length_append, List.length_replicate, String.length_toList]
  omega

theorem padded_digit {k m : ℕ} {c : Char} (h : c ∈ padded k m) : isAsciiDigit c = true := by
  rcases List.mem_append.1 h with h | h
  · rw [List.eq_of_mem_replicate h]
    decide
  · exact Json.toString_digits m c h

theorem decimalValue_padded (k m : ℕ) : decimalValue (padded k m) = m := by
  rw [padded, decimalValue_append, decimalValue_replicate, zero_mul, zero_add,
    decimalValue_toString]

theorem exists_canonicalParts {q : ℚ} {k : ℕ} {z : ℤ} (h : q * 10 ^ k = z) :
    ∃ n w f, CanonicalParts n w f ∧ partsValue n w f = q := by
  -- one place more, so that the fraction has a digit before it is trimmed
  have hten : (10 : ℚ) ^ (k + 1) ≠ 0 := by positivity
  have hz : q = (z * 10 : ℤ) / 10 ^ (k + 1) := by
    rw [eq_div_iff hten, pow_succ, ← mul_assoc, h]
    push_cast
    rfl
  let total := (z * 10).natAbs
  let w := (toString (total / 10 ^ (k + 1))).toList
  let digits := padded (k + 1) (total % 10 ^ (k + 1))
  have hlt : total % 10 ^ (k + 1) < 10 ^ (k + 1) := Nat.mod_lt _ (by positivity)
  have hlen : digits.length = k + 1 := padded_length hlt
  have hvalue : decimalValue (w ++ digits) = total := by
    rw [decimalValue_append, hlen, decimalValue_toString, decimalValue_padded]
    exact Nat.div_add_mod' total (10 ^ (k + 1))
  have hparts : partsValue (decide (z < 0)) w (trimTrailing digits) = q := by
    obtain ⟨zeros, heq⟩ := trimTrailing_eq digits
    rw [← partsValue_trailing _ zeros, ← heq, partsValue, hvalue, hlen, hz, ← mul_div_assoc]
    congr 1
    show _ * (((z * 10).natAbs : ℕ) : ℚ) = _
    rw [Nat.cast_natAbs]
    by_cases hneg : z < 0
    · rw [abs_of_nonpos (by omega)]
      simp [hneg]
    · rw [abs_of_nonneg (by omega)]
      simp [hneg]
  refine ⟨_, w, trimTrailing digits, ⟨toString_whole _,
    trimTrailing_fraction fun c hc => padded_digit hc, fun hneg hw hf => ?_⟩, hparts⟩
  rw [hw, hf] at hparts
  have hzero : q = 0 := by
    rw [← hparts, partsValue]
    simp [decimalValue]
  rw [hzero, zero_mul] at h
  have hz0 : z = 0 := by exact_mod_cast h.symm
  rw [decide_eq_true_eq] at hneg
  omega

/-! ### Bounds -/

section Bounds

variable {n : Bool} {w f : List Char}

def wholeDigits (w : List Char) : ℕ := if w = ['0'] then 0 else w.length

theorem WholePart.value_lt_iff (hw : WholePart w) (m : ℕ) :
    decimalValue w < 10 ^ m ↔ wholeDigits w ≤ m := by
  unfold wholeDigits
  split
  · rename_i hw0
    have hzero : decimalValue ['0'] = 0 := by decide
    have hten : 0 < 10 ^ m := by positivity
    rw [hw0, hzero]
    exact ⟨fun _ => Nat.zero_le _, fun _ => hten⟩
  · rename_i hw0
    have hle := hw.value_pos hw0
    have hlt := decimalValue_lt hw.digit
    have hpos := hw.length_pos
    constructor
    · intro h
      have hpow := (Nat.pow_lt_pow_iff_right (by norm_num : 1 < 10)).1 (hle.trans_lt h)
      omega
    · intro h
      exact hlt.trans_le (Nat.pow_le_pow_right (by norm_num) h)

theorem partsValue_abs_lt (hw : WholePart w) (hf : ∀ c ∈ f, isAsciiDigit c = true) (m : ℕ) :
    |partsValue n w f| < 10 ^ m ↔ wholeDigits w ≤ m := by
  have hten : (0 : ℚ) < 10 ^ f.length := by positivity
  have hflt := decimalValue_lt hf
  rw [← hw.value_lt_iff, partsValue_abs, div_lt_iff₀ hten]
  have hcast : ((decimalValue (w ++ f) : ℚ) < 10 ^ m * 10 ^ f.length) ↔
      decimalValue (w ++ f) < 10 ^ m * 10 ^ f.length := by exact_mod_cast Iff.rfl
  rw [hcast, decimalValue_append]
  constructor
  · intro h
    exact lt_of_mul_lt_mul_right (by omega : _ * 10 ^ f.length < _ * 10 ^ f.length) (Nat.zero_le _)
  · intro h
    calc decimalValue w * 10 ^ f.length + decimalValue f
        < decimalValue w * 10 ^ f.length + 10 ^ f.length := by omega
      _ = (decimalValue w + 1) * 10 ^ f.length := by ring
      _ ≤ 10 ^ m * 10 ^ f.length := Nat.mul_le_mul_right _ h

theorem partsValue_integer (hf : FractionPart f) (s : ℕ) :
    (∃ z : ℤ, partsValue n w f * 10 ^ s = z) ↔ f.length ≤ s := by
  constructor
  · rintro ⟨z, hz⟩
    by_contra hlt
    have hne : f ≠ [] := by
      rintro rfl
      simp at hlt
    obtain ⟨k, hk⟩ : ∃ k, f.length = s + (k + 1) := ⟨f.length - s - 1, by omega⟩
    have habs := congrArg abs hz
    have hs : (10 : ℚ) ^ s ≠ 0 := by positivity
    rw [abs_mul, partsValue_abs, abs_of_pos (by positivity : (0 : ℚ) < 10 ^ s), hk, pow_add,
      div_mul_eq_mul_div, mul_comm ((10 : ℚ) ^ s), mul_div_mul_right _ _ hs,
      div_eq_iff (by positivity)] at habs
    have hnat : decimalValue (w ++ f) = z.natAbs * 10 ^ k * 10 := by
      have hcast : ((decimalValue (w ++ f) : ℕ) : ℚ) = ((z.natAbs * 10 ^ (k + 1) : ℕ) : ℚ) := by
        rw [habs]
        push_cast
        rw [Nat.cast_natAbs, Int.cast_abs]
      rw [pow_succ, ← mul_assoc] at hcast
      exact_mod_cast hcast
    have hmod := decimalValue_mod_ten w hf hne
    rw [hnat] at hmod
    exact hmod (Nat.mul_mod_left _ 10)
  · intro hle
    refine ⟨(if n then -1 else 1) * (decimalValue (w ++ f) * 10 ^ (s - f.length) : ℕ), ?_⟩
    have hs : (10 : ℚ) ^ s = 10 ^ (s - f.length) * 10 ^ f.length := by
      rw [← pow_add]
      congr 1
      omega
    have hf0 : (10 : ℚ) ^ f.length ≠ 0 := by positivity
    rw [partsValue, hs]
    push_cast
    field_simp

end Bounds

end FilamentCore.SemanticIr
