import FilamentCore.SemanticIr.ExactNumbers

/-!
# The form of a number's text (crates/semantic-ir/src/number.rs)

Which numbers are written as digits only, with a point, and with an exponent.
-/

namespace FilamentCore.SemanticIr

variable {q : ℚ} {m : ℕ} {e : ℤ}

theorem shortestDigits_first {a d : ℕ} (h : roundTrips a d (decimalPoint a d) 17 ≠ []) :
    ∃ c k : ℕ, 0 < k ∧ k ≤ 17 ∧ (roundTrips a d (decimalPoint a d) k).head? = some c ∧
      (∀ j, 0 < j → j < k → roundTrips a d (decimalPoint a d) j = []) ∧
      shortestDigits a d = (((toString c).toList.reverse.dropWhile (· = '0')).reverse,
        decimalPoint a d + (toString c).toList.length - k) := by
  unfold shortestDigits
  extract_lets point
  generalize hfound : List.findSome? (fun k => Option.map (fun x => (x, k + 1))
    (roundTrips a d point (k + 1)).head?) (List.range 17) = found
  cases found with
  | none =>
    rw [List.findSome?_eq_none_iff] at hfound
    have hlast := hfound 16 (List.mem_range.2 (by norm_num))
    rw [Option.map_eq_none_iff, List.head?_eq_none_iff] at hlast
    exact absurd hlast h
  | some found =>
    obtain ⟨before, i, after, hrange, hi, hbefore⟩ := List.findSome?_eq_some_iff.1 hfound
    rw [Option.map_eq_some_iff] at hi
    obtain ⟨c, hc, rfl⟩ := hi
    have hsorted := List.pairwise_lt_range (n := 17)
    have hi : i < 17 := List.mem_range.1 (hrange ▸ List.mem_append_right _ (.head _))
    rw [hrange, List.pairwise_append, List.pairwise_cons] at hsorted
    refine ⟨c, i + 1, i.succ_pos, hi, hc, fun j hpos hj => ?_, rfl⟩
    have hmem : j - 1 ∈ before ++ i :: after := by
      rw [← hrange, List.mem_range]
      omega
    obtain hmem | hmem := List.mem_append.1 hmem
    · have hnone := hbefore _ hmem
      rwa [Option.map_eq_none_iff, List.head?_eq_none_iff, Nat.sub_add_cancel hpos] at hnone
    · obtain heq | hmem := List.mem_cons.1 hmem
      · omega
      · have hlt := hsorted.2.1.1 _ hmem
        omega

theorem candidate_bounds {a d k c : ℕ} {point : ℤ} (hd : 0 < d) (hk : 0 < k)
    (hl : (10 : ℚ) ^ (point - 1) ≤ a / d) (hu : (a : ℚ) / d < 10 ^ point)
    (h : (roundTrips a d point k).head? = some c) : 10 ^ (k - 1) ≤ c ∧ c ≤ 10 ^ k := by
  have hs := scaled_div (b := 10) (by norm_num) a d (point - k)
  have hsd := scaled_pos (b := 10) (by norm_num) hd a (point - k)
  have hmem := List.mem_of_mem_head? h
  rw [roundTrips] at hmem
  have hcandidates := (List.mem_filter.1 hmem).1
  rw [Nat.cast_ofNat] at hs
  generalize scaled 10 a d (point - k) = s at hs hsd hcandidates
  obtain ⟨num, den⟩ := s
  simp only at hs hsd hcandidates
  have hunit : (0 : ℚ) < 10 ^ (point - k) := zpow_pos (by norm_num) _
  have hden : (0 : ℚ) < den := by exact_mod_cast hsd
  have hlow : 10 ^ (k - 1) ≤ num / den := by
    rw [Nat.le_div_iff_mul_le hsd]
    have hq : ((10 ^ (k - 1) : ℕ) : ℚ) ≤ num / den := by
      rw [hs, le_div_iff₀ hunit]
      push_cast
      rw [← zpow_natCast, ← zpow_add₀ (by norm_num)]
      rwa [show (((k - 1 : ℕ) : ℤ) + (point - k)) = point - 1 by omega]
    rw [le_div_iff₀ hden] at hq
    exact_mod_cast hq
  have hhigh : num / den < 10 ^ k := by
    rw [Nat.div_lt_iff_lt_mul hsd]
    have hq : (num : ℚ) / den < ((10 ^ k : ℕ) : ℚ) := by
      rw [hs, div_lt_iff₀ hunit]
      push_cast
      rw [← zpow_natCast, ← zpow_add₀ (by norm_num)]
      rwa [show ((k : ℤ) + (point - k)) = point by omega]
    rw [div_lt_iff₀ hden] at hq
    exact_mod_cast hq
  have hcases : c = num / den ∨ c = num / den + 1 := by
    split at hcandidates <;> simp at hcandidates <;> omega
  omega

theorem trimmed_integral {c k : ℕ} {point : ℤ} (hc : 0 < c) {digits : List Char}
    (hd : ((toString c).toList.reverse.dropWhile (· = '0')).reverse = digits) :
    (digits.length : ℤ) ≤ point + (toString c).toList.length - k ↔
      ∃ z : ℕ, (c : ℚ) * 10 ^ (point - k) = z := by
  have hvalue := trimmed_value c k point hd
  have htrim : trimTrailing (toString c).toList = digits := by
    rw [← hd, trimTrailing]
    congr 2
  have hfraction : FractionPart digits := htrim ▸ trimTrailing_fraction (Json.toString_digits c)
  rw [← hvalue]
  generalize point + (toString c).toList.length - k = n at hvalue
  constructor
  · intro hle
    obtain ⟨z, hz⟩ := Int.eq_ofNat_of_zero_le (show 0 ≤ n - digits.length by omega)
    refine ⟨decimalValue digits * 10 ^ z, ?_⟩
    rw [hz, zpow_natCast]
    push_cast
    rfl
  · rintro ⟨z, hz⟩
    by_contra hlt
    obtain ⟨t, ht⟩ : ∃ t : ℕ, n - digits.length = -((t : ℤ) + 1) :=
      ⟨(digits.length - n - 1).toNat, by omega⟩
    have hten : (decimalValue digits : ℚ) = ((10 * (z * 10 ^ t) : ℕ) : ℚ) := by
      rw [ht, zpow_neg, zpow_add_one₀ (by norm_num), zpow_natCast] at hz
      push_cast
      rw [← hz]
      field_simp
    have hten : decimalValue digits = 10 * (z * 10 ^ t) := by exact_mod_cast hten
    have hne : digits ≠ [] := by
      rintro rfl
      have hzero : decimalValue [] = 0 := rfl
      rw [hzero, Nat.cast_zero, zero_mul] at hvalue
      have hpos : (c : ℚ) * 10 ^ (point - k) ≠ 0 :=
        mul_ne_zero (by exact_mod_cast hc.ne') (zpow_ne_zero _ (by norm_num))
      exact hpos hvalue.symm
    have hmod := decimalValue_mod_ten [] hfraction hne
    rw [List.nil_append, hten] at hmod
    omega

theorem IsBinary.integer (hq : IsBinary q m e) (h : 2 ^ 52 ≤ q) : ∃ z : ℕ, q = z := by
  have he : 0 ≤ e := by
    by_contra hneg
    have hhalf : (2 : ℚ) ^ e ≤ 2 ^ (-1 : ℤ) := zpow_le_zpow_right₀ (by norm_num) (by omega)
    have hm : (m : ℚ) < 2 ^ 53 := by exact_mod_cast hq.significand
    rw [hq.eq] at h
    have hmul := mul_le_mul_of_nonneg_left hhalf (Nat.cast_nonneg (α := ℚ) m)
    rw [zpow_neg_one] at hmul
    linarith
  obtain ⟨k, rfl⟩ := Int.eq_ofNat_of_zero_le he
  exact ⟨m * 2 ^ k, by rw [hq.eq, zpow_natCast]; push_cast; rfl⟩

theorem IsBinary.positive (hq : IsBinary q m e) : 0 < q := by
  have hm : (0 : ℚ) < m := by exact_mod_cast hq.pos
  rw [hq.eq]
  positivity

theorem IsBinary.round_self (hq : IsBinary q m e) : binary64 q = some q := by
  apply binary64_near hq
  rw [sub_self, abs_zero, mul_zero]
  exact hq.positive

theorem isBinary_bound : IsBinary (10 ^ 21) (5 ^ 21 * 2 ^ 4) 17 := by
  refine ⟨by norm_num, by norm_num, by norm_num, by norm_num, .inr (by norm_num), ?_⟩
  exact (by norm_num : (10 : ℚ) ^ 21 < 2 ^ (70 : ℤ)).trans
    (zpow_lt_zpow_right₀ (by norm_num) (by norm_num))

/-- What the search for the shortest digits of a value finds. -/
structure ShortestFound (q : ℚ) (point : ℤ) (c k : ℕ) : Prop where
  low : (10 : ℚ) ^ (point - 1) ≤ q
  high : q < 10 ^ point
  length : 0 < k ∧ k ≤ 17
  candidate : 10 ^ (k - 1) ≤ c ∧ c ≤ 10 ^ k
  reads : binary64 ((c : ℚ) * 10 ^ (point - k)) = some q
  first : ∀ j, 0 < j → j < k → roundTrips q.num.natAbs q.den point j = []
  head : (roundTrips q.num.natAbs q.den point k).head? = some c

theorem exists_found (hq : IsBinary q m e) : ∃ c k : ℕ,
    ShortestFound q (decimalPoint q.num.natAbs q.den) c k ∧ shortestDigits q.num.natAbs q.den =
      (((toString c).toList.reverse.dropWhile (· = '0')).reverse,
        decimalPoint q.num.natAbs q.den + (toString c).toList.length - k) := by
  have hpos := hq.positive
  have ha : 0 < q.num.natAbs := Int.natAbs_pos.2 (Rat.num_pos.2 hpos).ne'
  obtain ⟨hl, hu⟩ := decimalPoint_spec ha q.pos
  obtain ⟨c, k, hk, h17, hhead, hfirst, heq⟩ := shortestDigits_first (exists_roundTrip hq hpos)
  have hbounds := candidate_bounds q.pos hk hl hu hhead
  have hreads := roundTrips_reads hhead
  rw [mkRat_natAbs hpos, power_eq, Nat.cast_ofNat] at hreads
  rw [natAbs_div_den hpos] at hl hu
  exact ⟨c, k, ⟨hl, hu, ⟨hk, h17⟩, hbounds, hreads, hfirst, hhead⟩, heq⟩

namespace ShortestFound

variable {point : ℤ} {c k : ℕ}

theorem pos (h : ShortestFound q point c k) : 0 < c :=
  (Nat.pow_pos (by norm_num)).trans_le h.candidate.1

theorem length_le (h : ShortestFound q point c k) (hq : IsBinary q m e) {z : ℕ} (hz : q = z)
    (hpoint : 0 < point) : (k : ℤ) ≤ point := by
  by_contra hlt
  obtain ⟨j, rfl⟩ := Int.eq_ofNat_of_zero_le hpoint.le
  have hnone := h.first j (by omega) (by omega)
  have hself := hq.round_self
  have hmem : z ∈ roundTrips q.num.natAbs q.den j j := by
    rw [hz, Rat.num_natCast, Rat.den_natCast, Int.natAbs_natCast, roundTrips, sub_self]
    have hscaled : scaled 10 z 1 0 = (z, 1) := by
      rw [scaled, if_pos le_rfl]
      rfl
    rw [hscaled]
    simp only [Nat.div_one, Nat.mod_one, mul_zero, Nat.zero_le, if_true]
    rw [List.mem_filter]
    refine ⟨.head _, ?_⟩
    have hone : power 10 0 = 1 := by
      rw [power_eq, zpow_zero]
    have hz1 : mkRat (z : ℤ) 1 = (z : ℚ) := by rw [Rat.mkRat_one, Int.cast_natCast]
    rw [hone, mul_one, hz1, ← hz, hself]
    exact decide_eq_true rfl
  rw [hnone] at hmem
  exact absurd hmem List.not_mem_nil

theorem integral (h : ShortestFound q point c k) (hq : IsBinary q m e) :
    (∃ z : ℕ, (c : ℚ) * 10 ^ (point - k) = z) ↔ ∃ z : ℕ, q = z := by
  constructor
  · rintro ⟨z, hz⟩
    have hreads := h.reads
    rw [hz] at hreads
    by_cases hle : z ≤ 2 ^ 53
    · rw [binary64_integer hle, Option.some.injEq] at hreads
      exact ⟨z, hreads.symm⟩
    · apply hq.integer
      have hx : (0 : ℚ) < z := by exact_mod_cast (show 0 < z by omega)
      have hlarge : (2 : ℚ) ^ 53 < z := by exact_mod_cast not_le.1 hle
      have hwithin := (abs_le.1 (binary64_within hx hreads)).2
      obtain ⟨-, -, hplace⟩ := lastPlace_spec hx
      have hlast : (2 : ℚ) ^ lastPlace (z : ℚ) ≤ z := by
        obtain hleast | hplace := hplace
        · rw [hleast]
          have htiny : (2 : ℚ) ^ (-1074 : ℤ) ≤ 1 :=
            zpow_le_one_of_nonpos₀ (by norm_num) (by norm_num)
          linarith
        · exact (zpow_le_zpow_right₀ (by norm_num) (by omega)).trans hplace
      linarith
  · rintro ⟨z, hz⟩
    have hdecimal : 0 ≤ point - k → ∃ z : ℕ, (c : ℚ) * 10 ^ (point - k) = z := by
      intro hle
      obtain ⟨t, ht⟩ := Int.eq_ofNat_of_zero_le hle
      refine ⟨c * 10 ^ t, ?_⟩
      rw [ht, zpow_natCast]
      push_cast
      rfl
    have hpoint : 0 < point := by
      by_contra hle
      have hone : (1 : ℚ) ≤ q := by
        rw [hz]
        have hpos := hq.positive
        rw [hz] at hpos
        exact_mod_cast hpos
      have hsmall : (10 : ℚ) ^ point ≤ 1 := zpow_le_one_of_nonpos₀ (by norm_num) (not_lt.1 hle)
      have hhigh := h.high
      linarith
    have hlength := h.length_le hq hz hpoint
    exact hdecimal (by omega)

theorem large (h : ShortestFound q point c k) :
    21 < point + ((toString c).toList.length : ℤ) - k ↔ 10 ^ 21 ≤ q := by
  obtain ⟨hk, hk17⟩ := h.length
  obtain ⟨hlow, hhigh⟩ := toString_bounds h.pos
  obtain ⟨hcl, hcu⟩ := h.candidate
  rw [← String.length_toList] at hlow hhigh
  have hten : (10 : ℚ) ^ 21 = 10 ^ (21 : ℤ) := rfl
  have hge : k ≤ (toString c).toList.length := by
    have hlt := (Nat.pow_lt_pow_iff_right (by norm_num : 1 < 10)).1 (hcl.trans_lt hhigh)
    omega
  constructor
  · intro hn
    by_contra hq
    rw [hten, not_le] at hq
    have hpoint : point ≤ 21 := by
      have hlt := (zpow_lt_zpow_iff_right₀ (by norm_num : (1 : ℚ) < 10)).1 (h.low.trans_lt hq)
      omega
    -- the decimal is the power of ten itself, which is a value of the format
    have hmore : k ≤ (toString c).toList.length - 1 := by omega
    have hc : c = 10 ^ k :=
      le_antisymm hcu ((Nat.pow_le_pow_right (by norm_num) hmore).trans hlow)
    have hless : (toString c).toList.length - 1 ≤ k := by
      exact (Nat.pow_le_pow_iff_right (by norm_num)).1 (hlow.trans hcu)
    have hreads := h.reads
    rw [hc, show point = 21 by omega] at hreads
    have hvalue : ((10 ^ k : ℕ) : ℚ) * 10 ^ (21 - (k : ℤ)) = 10 ^ 21 := by
      push_cast
      rw [← zpow_natCast, ← zpow_add₀ (by norm_num), hten]
      congr 1
      omega
    have hself := isBinary_bound.round_self
    rw [hvalue, hself, Option.some.injEq] at hreads
    rw [← hten, hreads] at hq
    exact lt_irrefl _ hq
  · intro hq
    have hpoint : 21 < point := by
      rw [hten] at hq
      exact (zpow_lt_zpow_iff_right₀ (by norm_num : (1 : ℚ) < 10)).1 (hq.trans_lt h.high)
    omega

end ShortestFound

/-- The digits of a value's text and the place of its point. -/
structure NumberDigits (q : ℚ) (digits : List Char) (n : ℤ) : Prop where
  leading : Leading digits
  text : unsignedText q = layout digits digits.length n
  reads : binary64 ((decimalValue digits : ℚ) * 10 ^ (n - digits.length)) = some q
  integral : (digits.length : ℤ) ≤ n ↔ ∃ z : ℕ, q = z
  large : 21 < n ↔ 10 ^ 21 ≤ q

theorem exists_digits (hq : IsBinary q m e) : ∃ digits n, NumberDigits q digits n := by
  have hshortest := shortestDigits_spec hq hq.positive
  obtain ⟨c, k, hfound, heq⟩ := exists_found hq
  refine ⟨(shortestDigits q.num.natAbs q.den).1, (shortestDigits q.num.natAbs q.den).2,
    ⟨hshortest.digit, hshortest.head⟩, rfl, hshortest.reads, ?_, ?_⟩
  · rw [heq, ← hfound.integral hq]
    exact trimmed_integral hfound.pos rfl
  · rw [heq]
    exact hfound.large

theorem NumberDigits.whole {digits : List Char} {n : ℤ} (h : NumberDigits q digits n) {z : ℕ}
    (hz : q = z) (hq : q < 10 ^ 21) : Spelling (unsignedText q) (unsignedText q) [] [] 0 ∧
      binary64 (decimalValue (unsignedText q)) = some q := by
  have hlength := h.integral.2 ⟨z, hz⟩
  have hn : n ≤ 21 := not_lt.1 fun hn => absurd (h.large.1 hn) (not_le.2 hq)
  have htext : unsignedText q = digits ++ List.replicate (n - digits.length).toNat '0' := by
    rw [h.text, layout, if_pos ⟨hlength, hn⟩]
  obtain ⟨t, ht⟩ := Int.eq_ofNat_of_zero_le (show 0 ≤ n - digits.length by omega)
  have hreads := h.reads
  rw [ht, zpow_natCast] at hreads
  rw [ht, Int.toNat_natCast] at htext
  rw [htext]
  refine ⟨⟨(List.append_nil _).symm, (h.leading.append (zeros_digit _)).integerText,
    fun c hc => absurd hc List.not_mem_nil, .inl rfl, rfl⟩, ?_⟩
  rw [decimalValue_append, decimalValue_replicate, List.length_replicate]
  push_cast
  rw [add_zero]
  exact hreads

theorem NumberDigits.spelled {digits : List Char} {n : ℤ} (h : NumberDigits q digits n) :
    ∃ ws fs tail e, Spelling (unsignedText q) ws fs tail e ∧
      binary64 ((decimalValue (ws ++ fs) : ℚ) * 10 ^ (e - fs.length)) = some q ∧
        (10 ^ 21 ≤ q → tail ≠ []) := by
  obtain ⟨ws, fs, tail, e, hspelling, hvalue, htail⟩ := layout_spelling h.leading n
  rw [← h.text] at hspelling
  refine ⟨ws, fs, tail, e, hspelling, by rw [hvalue]; exact h.reads, fun hq hnil => ?_⟩
  have hn := h.large.2 hq
  have hmarker : 'e' ∈ unsignedText q := by
    rw [h.text, layout, if_neg (by omega), if_neg (by omega), if_neg (by omega)]
    exact List.mem_append_right _ (.head _)
  have hdigits : ∀ {ds : List Char}, (∀ c ∈ ds, isAsciiDigit c = true) → 'e' ∉ ds := by
    intro ds hds hmem
    exact absurd (hds _ hmem) (by decide)
  rw [hspelling.eq, hnil, List.append_nil, List.mem_append] at hmarker
  obtain hmem | hmem := hmarker
  · exact hdigits hspelling.whole.1.2 hmem
  · cases fs with
    | nil => exact absurd hmem List.not_mem_nil
    | cons d ds =>
      obtain heq | hmem := List.mem_cons.1 hmem
      · exact absurd heq (by decide)
      · exact hdigits hspelling.fraction hmem

end FilamentCore.SemanticIr
