import FilamentCore.SemanticIr.Number

/-!
# Rounding to binary64

What the nearest binary64 value is: a significand below `2^53` at the exponent of its last place.
A value of that form is its own rounding, and that of everything nearer to it than `2^-54` of it.
-/

namespace FilamentCore.SemanticIr

/-! ### Scaling -/

theorem power_eq (b : ℕ) (e : ℤ) : power b e = (b : ℚ) ^ e := by
  rw [power]
  split
  · rename_i h
    obtain ⟨n, rfl⟩ := Int.eq_ofNat_of_zero_le h
    rw [Int.toNat_natCast, zpow_natCast, Nat.cast_pow]
  · rename_i h
    obtain ⟨n, hn⟩ := Int.eq_ofNat_of_zero_le (show 0 ≤ -e by omega)
    obtain rfl : e = -n := by omega
    rw [neg_neg, Int.toNat_natCast, zpow_neg, zpow_natCast, Rat.mkRat_eq_div, Nat.cast_pow]
    norm_num

theorem scaled_pos {b d : ℕ} (hb : 0 < b) (hd : 0 < d) (n : ℕ) (e : ℤ) :
    0 < (scaled b n d e).2 := by
  rw [scaled]
  split
  · exact Nat.mul_pos hd (Nat.pow_pos hb)
  · exact hd

theorem scaled_div {b : ℕ} (hb : 0 < b) (n d : ℕ) (e : ℤ) :
    ((scaled b n d e).1 : ℚ) / (scaled b n d e).2 = n / d / (b : ℚ) ^ e := by
  rw [scaled]
  split
  · rename_i h
    obtain ⟨k, rfl⟩ := Int.eq_ofNat_of_zero_le h
    rw [Int.toNat_natCast, zpow_natCast, Nat.cast_mul, Nat.cast_pow, div_mul_eq_div_div]
  · rename_i h
    obtain ⟨k, hk⟩ := Int.eq_ofNat_of_zero_le (show 0 ≤ -e by omega)
    obtain rfl : e = -k := by omega
    rw [neg_neg, Int.toNat_natCast, zpow_neg, zpow_natCast, Nat.cast_mul, Nat.cast_pow, div_inv_eq_mul]
    ring

theorem scaled_lt {b n d : ℕ} (hb : 0 < b) (hd : 0 < d) (e : ℤ) :
    (scaled b n d e).1 < (scaled b n d e).2 ↔ (n : ℚ) / d < (b : ℚ) ^ e := by
  have hp : (0 : ℚ) < (b : ℚ) ^ e := zpow_pos (by exact_mod_cast hb) e
  have hs : (0 : ℚ) < (scaled b n d e).2 := by exact_mod_cast scaled_pos hb hd n e
  rw [← Nat.cast_lt (α := ℚ), ← div_lt_one hs, scaled_div hb, div_lt_one hp]

/-! ### The place of the leading digit -/

theorem place_spec {b : ℚ} {x : ℚ} {k : ℤ} (hl : b ^ (k - 1) ≤ x) (hu : x < b ^ (k + 1)) :
    b ^ (if x < b ^ k then k - 1 else k) ≤ x ∧ x < b ^ ((if x < b ^ k then k - 1 else k) + 1) := by
  split
  · rename_i h
    rw [sub_add_cancel]
    exact ⟨hl, h⟩
  · rename_i h
    exact ⟨not_lt.1 h, hu⟩

theorem quotient_bounds {b : ℚ} {n d : ℚ} {i j : ℤ} (hb : 0 < b) (hn : b ^ i ≤ n)
    (hn' : n < b ^ (i + 1)) (hd : b ^ j ≤ d) (hd' : d < b ^ (j + 1)) :
    b ^ (i - j - 1) ≤ n / d ∧ n / d < b ^ (i - j + 1) := by
  have hd0 : 0 < d := (zpow_pos hb j).trans_le hd
  have hl : b ^ (i - j - 1) * d ≤ b ^ (i - j - 1) * b ^ (j + 1) :=
    mul_le_mul_of_nonneg_left hd'.le (zpow_pos hb _).le
  have hu : b ^ (i - j + 1) * b ^ j ≤ b ^ (i - j + 1) * d :=
    mul_le_mul_of_nonneg_left hd (zpow_pos hb _).le
  rw [← zpow_add₀ hb.ne', show i - j - 1 + (j + 1) = i by omega] at hl
  rw [← zpow_add₀ hb.ne', show i - j + 1 + j = i + 1 by omega] at hu
  rw [le_div_iff₀ hd0, div_lt_iff₀ hd0]
  exact ⟨hl.trans hn, hn'.trans_le hu⟩

theorem log2_bounds {n : ℕ} (hn : 0 < n) :
    (2 : ℚ) ^ (n.log2 : ℤ) ≤ n ∧ (n : ℚ) < (2 : ℚ) ^ ((n.log2 : ℤ) + 1) := by
  have hl := Nat.log2_self_le hn.ne'
  have hu : n < 2 ^ (n.log2 + 1) := Nat.lt_log2_self
  have h : ((n.log2 : ℤ) + 1) = ((n.log2 + 1 : ℕ) : ℤ) := by push_cast; rfl
  rw [h, zpow_natCast, zpow_natCast]
  exact ⟨by exact_mod_cast hl, by exact_mod_cast hu⟩

theorem floorLog2_spec {n d : ℕ} (hn : 0 < n) (hd : 0 < d) :
    (2 : ℚ) ^ floorLog2 n d ≤ n / d ∧ (n : ℚ) / d < 2 ^ (floorLog2 n d + 1) := by
  obtain ⟨hn1, hn2⟩ := log2_bounds hn
  obtain ⟨hd1, hd2⟩ := log2_bounds hd
  obtain ⟨hl, hu⟩ := quotient_bounds (by norm_num) hn1 hn2 hd1 hd2
  have h := place_spec hl hu
  have he : floorLog2 n d =
      if (n : ℚ) / d < 2 ^ ((n.log2 : ℤ) - d.log2) then (n.log2 : ℤ) - d.log2 - 1
      else (n.log2 : ℤ) - d.log2 := by
    rw [floorLog2]
    exact if_congr (scaled_lt (by norm_num) hd _) rfl rfl
  rwa [he]

/-! ### The nearest integer -/

theorem roundHalfEven_le {n d m : ℕ} (h : 2 * n < (2 * m + 1) * d) : roundHalfEven n d ≤ m := by
  have hdm := Nat.div_add_mod n d
  have hm : (2 * m + 1) * d = 2 * (d * m) + d := by ring
  rw [roundHalfEven]
  by_cases hq : n / d < m
  · split <;> omega
  · have hle : d * m ≤ d * (n / d) := Nat.mul_le_mul_left d (by omega)
    have heq : n / d = m := by
      by_contra hc
      have hge : d * (m + 1) ≤ d * (n / d) := Nat.mul_le_mul_left d (by omega)
      have hsucc : d * (m + 1) = d * m + d := by ring
      omega
    rw [heq] at hdm ⊢
    rw [if_neg (by omega)]

theorem le_roundHalfEven {n d m : ℕ} (hd : 0 < d) (h : 2 * (d * m) < 2 * n + d) :
    m ≤ roundHalfEven n d := by
  have hdm := Nat.div_add_mod n d
  have hr := Nat.mod_lt n hd
  rw [roundHalfEven]
  by_cases hq : m ≤ n / d
  · split <;> omega
  · have heq : m = n / d + 1 := by
      by_contra hc
      have hge : d * (n / d + 2) ≤ d * m := Nat.mul_le_mul_left d (by omega)
      have hsucc : d * (n / d + 2) = d * (n / d) + 2 * d := by ring
      omega
    have hsucc : d * (n / d + 1) = d * (n / d) + d := by ring
    rw [heq, hsucc] at h
    rw [if_pos (by omega), heq]

theorem roundHalfEven_eq {n d m : ℕ} (hd : 0 < d) (h : |(n : ℚ) / d - m| < 1 / 2) :
    roundHalfEven n d = m := by
  have hd' : (0 : ℚ) < d := by exact_mod_cast hd
  obtain ⟨hl, hu⟩ := abs_lt.1 h
  have hu' : (n : ℚ) < (m + 1 / 2) * d := by
    rw [← div_lt_iff₀ hd']
    linarith
  have hl' : ((m : ℚ) - 1 / 2) * d < n := by
    rw [← lt_div_iff₀ hd']
    linarith
  have hle : 2 * n < (2 * m + 1) * d := by
    have : (2 * n : ℚ) < (2 * m + 1) * d := by linarith
    exact_mod_cast this
  have hge : 2 * (d * m) < 2 * n + d := by
    have : (2 * (d * m) : ℚ) < 2 * n + d := by linarith
    exact_mod_cast this
  exact le_antisymm (roundHalfEven_le hle) (le_roundHalfEven hd hge)

/-! ### Binary values -/

/-- The exponent of the last place of `x`. -/
def lastPlace (x : ℚ) : ℤ := max (floorLog2 x.num.natAbs x.den - 52) (-1074)

theorem natAbs_div_den {x : ℚ} (hx : 0 < x) : (x.num.natAbs : ℚ) / x.den = x := by
  have hn : (x.num.natAbs : ℚ) = x.num := by
    rw [Nat.cast_natAbs, abs_of_pos (Rat.num_pos.2 hx)]
  rw [hn, Rat.num_div_den]

theorem floorLog2_bounds {x : ℚ} (hx : 0 < x) :
    (2 : ℚ) ^ floorLog2 x.num.natAbs x.den ≤ x ∧ x < 2 ^ (floorLog2 x.num.natAbs x.den + 1) := by
  have hn : 0 < x.num.natAbs := Int.natAbs_pos.2 (Rat.num_pos.2 hx).ne'
  have h := floorLog2_spec hn x.pos
  rwa [natAbs_div_den hx] at h

theorem lastPlace_spec {x : ℚ} (hx : 0 < x) : -1074 ≤ lastPlace x ∧ x < 2 ^ (lastPlace x + 53) ∧
    (lastPlace x = -1074 ∨ (2 : ℚ) ^ (lastPlace x + 52) ≤ x) := by
  obtain ⟨hl, hu⟩ := floorLog2_bounds hx
  refine ⟨le_max_right _ _, hu.trans_le (zpow_le_zpow_right₀ (by norm_num) ?_), ?_⟩
  · have hle : floorLog2 x.num.natAbs x.den - 52 ≤ lastPlace x := le_max_left _ _
    omega
  · obtain h | h := max_choice (floorLog2 x.num.natAbs x.den - 52) (-1074)
    · right
      rw [lastPlace, h, sub_add_cancel]
      exact hl
    · exact .inl h

theorem lastPlace_eq {x : ℚ} (hx : 0 < x) {e : ℤ} (he : -1074 ≤ e) (hu : x < 2 ^ (e + 53))
    (hl : e = -1074 ∨ (2 : ℚ) ^ (e + 52) ≤ x) : lastPlace x = e := by
  obtain ⟨hfl, hfu⟩ := floorLog2_bounds hx
  have hlt : floorLog2 x.num.natAbs x.den < e + 53 :=
    (zpow_lt_zpow_iff_right₀ (by norm_num : (1 : ℚ) < 2)).1 (hfl.trans_lt hu)
  rw [lastPlace]
  obtain rfl | hl := hl
  · exact max_eq_right (by omega)
  · have hgt : e + 52 < floorLog2 x.num.natAbs x.den + 1 :=
      (zpow_lt_zpow_iff_right₀ (by norm_num : (1 : ℚ) < 2)).1 (hl.trans_lt hfu)
    rw [max_eq_left (by omega)]
    omega

theorem binary64_pos {x : ℚ} (hx : 0 < x) : binary64 x =
    if (2 : ℚ) ^ (1024 : ℤ) ≤ (roundHalfEven (scaled 2 x.num.natAbs x.den (lastPlace x)).1
      (scaled 2 x.num.natAbs x.den (lastPlace x)).2 : ℚ) * 2 ^ lastPlace x then none
    else some ((roundHalfEven (scaled 2 x.num.natAbs x.den (lastPlace x)).1
      (scaled 2 x.num.natAbs x.den (lastPlace x)).2 : ℚ) * 2 ^ lastPlace x) := by
  rw [binary64, if_neg hx.ne']
  simp only [power_eq, Nat.cast_ofNat, if_neg hx.not_gt]
  rfl

theorem binary64_eq {x : ℚ} (hx : 0 < x) {m : ℕ} (h : |x / 2 ^ lastPlace x - m| < 1 / 2)
    (hm : (m : ℚ) * 2 ^ lastPlace x < 2 ^ (1024 : ℤ)) :
    binary64 x = some ((m : ℚ) * 2 ^ lastPlace x) := by
  have hr : roundHalfEven (scaled 2 x.num.natAbs x.den (lastPlace x)).1
      (scaled 2 x.num.natAbs x.den (lastPlace x)).2 = m := by
    apply roundHalfEven_eq (scaled_pos (by norm_num) x.pos _ _)
    rw [scaled_div (by norm_num), natAbs_div_den hx]
    exact_mod_cast h
  rw [binary64_pos hx, hr, if_neg hm.not_ge]

/-- A positive value of the format: `2^53` significands, the least exponent `-1074`. -/
structure IsBinary (q : ℚ) (m : ℕ) (e : ℤ) : Prop where
  eq : q = m * 2 ^ e
  pos : 0 < m
  significand : m < 2 ^ 53
  least : -1074 ≤ e
  normal : e = -1074 ∨ 2 ^ 52 ≤ m
  finite : q < 2 ^ (1024 : ℤ)

theorem binary64_near {q x : ℚ} {m : ℕ} {e : ℤ} (hq : IsBinary q m e)
    (h : 2 ^ 54 * |x - q| < q) : binary64 x = some q := by
  have hu : (0 : ℚ) < 2 ^ e := zpow_pos (by norm_num) e
  have hm : (m : ℚ) + 1 ≤ 2 ^ 53 := by exact_mod_cast hq.significand
  have h53 : (2 : ℚ) ^ (e + 53) = 2 ^ 53 * 2 ^ e := by
    rw [zpow_add₀ (by norm_num), mul_comm]
    rfl
  have h52 : (2 : ℚ) ^ (e + 52) = 2 ^ 52 * 2 ^ e := by
    rw [zpow_add₀ (by norm_num), mul_comm]
    rfl
  have hqu : q + 2 ^ e ≤ 2 ^ 53 * 2 ^ e := by
    rw [hq.eq]
    nlinarith
  have hx : 0 < x := by
    have := neg_abs_le (x - q)
    have := abs_nonneg (x - q)
    linarith
  have hclose : |x - q| < 2 ^ e / 2 := by linarith
  obtain ⟨hlow, hhigh⟩ := abs_lt.1 hclose
  by_cases hl : e = -1074 ∨ (2 : ℚ) ^ (e + 52) ≤ x
  · have hplace : lastPlace x = e := by
      apply lastPlace_eq hx hq.least _ hl
      rw [h53]
      linarith
    have hdiv : x / 2 ^ e - m = (x - q) / 2 ^ e := by
      rw [hq.eq]
      field_simp
    have hround := binary64_eq (m := m) hx
    rw [hplace, hdiv, abs_div, abs_of_pos hu, div_lt_iff₀ hu, ← hq.eq] at hround
    exact hround (by linarith) hq.finite
  · -- below the least significand of the exponent the places are half as far apart
    rw [not_or, not_le, h52] at hl
    have hnormal : 2 ^ 52 ≤ m := hq.normal.resolve_left hl.1
    have hm52 : (m : ℚ) = 2 ^ 52 := by
      have hge : (2 : ℚ) ^ 52 ≤ m := by exact_mod_cast hnormal
      by_contra hne
      have hgt : 2 ^ 52 + 1 ≤ m := by
        have : 2 ^ 52 ≠ m := fun h => hne (by rw [← h]; norm_num)
        omega
      have hgt' : (2 : ℚ) ^ 52 + 1 ≤ m := by exact_mod_cast hgt
      rw [hq.eq] at hlow
      nlinarith
    have hhalf : (2 : ℚ) ^ (e - 1) = 2 ^ e / 2 := by
      rw [zpow_sub₀ (by norm_num), zpow_one]
    have hq52 : q = 2 ^ 52 * 2 ^ e := by rw [hq.eq, hm52]
    have hplace : lastPlace x = e - 1 := by
      apply lastPlace_eq hx
      · have := hq.least
        have := hl.1
        omega
      · rw [show e - 1 + 53 = e + 52 by ring, h52]
        exact hl.2
      · right
        rw [show e - 1 + 52 = e - 1 + 52 by ring, zpow_add₀ (by norm_num), hhalf]
        have h52' : (2 : ℚ) ^ (52 : ℤ) = 2 ^ 52 := rfl
        rw [h52']
        linarith
    have hvalue : ((2 ^ 53 : ℕ) : ℚ) * (2 ^ e / 2) = q := by
      rw [hq52]
      push_cast
      ring
    have hdiv : x / (2 ^ e / 2) - ((2 ^ 53 : ℕ) : ℚ) = (x - q) / (2 ^ e / 2) := by
      rw [← hvalue]
      field_simp
    have hround := binary64_eq (m := 2 ^ 53) hx
    rw [hplace, hhalf, hdiv, abs_div, abs_of_pos (half_pos hu), div_lt_iff₀ (half_pos hu),
      hvalue] at hround
    exact hround (by linarith) hq.finite

theorem binary64_zero : binary64 0 = some 0 := if_pos rfl

theorem binary64_neg (x : ℚ) : binary64 (-x) = (binary64 x).map Neg.neg := by
  by_cases hx : x = 0
  · subst hx
    rfl
  · have hneg : -x ≠ 0 := neg_ne_zero.2 hx
    rw [binary64, binary64, if_neg hx, if_neg hneg, Rat.neg_num, Int.natAbs_neg, Rat.neg_den]
    simp only
    split
    · rfl
    · rw [Option.map_some]
      obtain hlt | hgt := lt_or_gt_of_ne hx
      · rw [if_neg (by linarith), if_pos hlt, neg_neg]
      · rw [if_pos (by linarith), if_neg (by linarith)]

theorem isBinary_of_round {x q : ℚ} (hx : 0 < x) (h : binary64 x = some q) (hq : q ≠ 0) :
    ∃ m e, IsBinary q m e := by
  obtain ⟨hleast, hu, hl⟩ := lastPlace_spec hx
  have hp : (0 : ℚ) < 2 ^ lastPlace x := zpow_pos (by norm_num) _
  rw [binary64_pos hx] at h
  split at h
  · cases h
  · rename_i hfinite
    rw [Option.some.injEq] at h
    rw [not_le, h] at hfinite
    have hd := scaled_pos (b := 2) (by norm_num) x.pos x.num.natAbs (lastPlace x)
    have hd' : (0 : ℚ) < (scaled 2 x.num.natAbs x.den (lastPlace x)).2 := by exact_mod_cast hd
    have hs := scaled_div (b := 2) (by norm_num) x.num.natAbs x.den (lastPlace x)
    rw [natAbs_div_den hx, Nat.cast_ofNat] at hs
    generalize scaled 2 x.num.natAbs x.den (lastPlace x) = s at h hd hd' hs
    have hle : roundHalfEven s.1 s.2 ≤ 2 ^ 53 := by
      apply roundHalfEven_le
      have hlt : (s.1 : ℚ) < 2 ^ 53 * s.2 := by
        rw [← div_lt_iff₀ hd', hs, div_lt_iff₀ hp]
        rw [zpow_add₀ (by norm_num), mul_comm] at hu
        exact hu
      have hlt' : s.1 < 2 ^ 53 * s.2 := by exact_mod_cast hlt
      omega
    have hpos : roundHalfEven s.1 s.2 ≠ 0 := by
      intro hz
      rw [hz, Nat.cast_zero, zero_mul] at h
      exact hq h.symm
    have hnormal : lastPlace x = -1074 ∨ 2 ^ 52 ≤ roundHalfEven s.1 s.2 := by
      refine hl.imp_right fun hl => le_roundHalfEven hd ?_
      have hge : (2 : ℚ) ^ 52 * s.2 ≤ s.1 := by
        rw [← le_div_iff₀ hd', hs, le_div_iff₀ hp]
        rw [zpow_add₀ (by norm_num), mul_comm] at hl
        exact hl
      have hge' : 2 ^ 52 * s.2 ≤ s.1 := by exact_mod_cast hge
      omega
    obtain hlt | heq := Nat.lt_or_eq_of_le hle
    · exact ⟨_, _, h.symm, Nat.pos_of_ne_zero hpos, hlt, hleast, hnormal, hfinite⟩
    · refine ⟨2 ^ 52, lastPlace x + 1, ?_, by norm_num, by norm_num, by omega, .inr le_rfl, hfinite⟩
      rw [← h, heq, zpow_add₀ (by norm_num), zpow_one]
      push_cast
      ring

end FilamentCore.SemanticIr
