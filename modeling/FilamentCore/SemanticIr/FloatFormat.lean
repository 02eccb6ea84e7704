import FilamentCore.SemanticIr.ExactNumbers

/-!
# Rounding to a binary format

What the nearest value of a binary format is: a significand of `places + 1` bits at an exponent
from the least on. A value of that form is the rounding of everything close to it.
-/

namespace FilamentCore.SemanticIr

/-- The nearest value with significands of `places + 1` bits, ties to even; `none` from `2 ^ top`
on. -/
def roundNearest (places : ℕ) (least top : ℤ) (q : ℚ) : Option ℚ :=
  if q = 0 then some 0
  else
    let n := q.num.natAbs
    let e := max (floorLog2 n q.den - places) least
    let s := scaled 2 n q.den e
    let v := (roundHalfEven s.1 s.2 : ℚ) * power 2 e
    if power 2 top ≤ v then none else some (if q < 0 then -v else v)

def binary32 : ℚ → Option ℚ := roundNearest 23 (-149) 128

namespace RoundNearest

variable {places : ℕ} {least top : ℤ}

/-- The exponent of the last place of `x`. -/
def lastPlace (places : ℕ) (least : ℤ) (x : ℚ) : ℤ :=
  max (floorLog2 x.num.natAbs x.den - places) least

theorem lastPlace_eq {x : ℚ} (hx : 0 < x) {e : ℤ} (he : least ≤ e)
    (hu : x < 2 ^ (e + places + 1)) (hl : e = least ∨ (2 : ℚ) ^ (e + places) ≤ x) :
    lastPlace places least x = e := by
  obtain ⟨hfl, hfu⟩ := floorLog2_bounds hx
  have hlt : floorLog2 x.num.natAbs x.den < e + places + 1 :=
    (zpow_lt_zpow_iff_right₀ (by norm_num : (1 : ℚ) < 2)).1 (hfl.trans_lt hu)
  rw [lastPlace]
  obtain rfl | hl := hl
  · exact max_eq_right (by omega)
  · have hgt : e + places < floorLog2 x.num.natAbs x.den + 1 :=
      (zpow_lt_zpow_iff_right₀ (by norm_num : (1 : ℚ) < 2)).1 (hl.trans_lt hfu)
    rw [max_eq_left (by omega)]
    omega

theorem nearest_pos {x : ℚ} (hx : 0 < x) : roundNearest places least top x =
    if (2 : ℚ) ^ top ≤ (roundHalfEven (scaled 2 x.num.natAbs x.den (lastPlace places least x)).1
      (scaled 2 x.num.natAbs x.den (lastPlace places least x)).2 : ℚ) *
        2 ^ lastPlace places least x then none
    else some ((roundHalfEven (scaled 2 x.num.natAbs x.den (lastPlace places least x)).1
      (scaled 2 x.num.natAbs x.den (lastPlace places least x)).2 : ℚ) *
        2 ^ lastPlace places least x) := by
  rw [roundNearest, if_neg hx.ne']
  simp only [power_eq, Nat.cast_ofNat, if_neg hx.not_gt]
  rfl

theorem nearest_eq {x : ℚ} (hx : 0 < x) {m : ℕ}
    (h : |x / 2 ^ lastPlace places least x - m| < 1 / 2)
    (hm : (m : ℚ) * 2 ^ lastPlace places least x < 2 ^ top) :
    roundNearest places least top x = some ((m : ℚ) * 2 ^ lastPlace places least x) := by
  have hr : roundHalfEven (scaled 2 x.num.natAbs x.den (lastPlace places least x)).1
      (scaled 2 x.num.natAbs x.den (lastPlace places least x)).2 = m := by
    apply roundHalfEven_eq (scaled_pos (by norm_num) x.pos _ _)
    rw [scaled_div (by norm_num), natAbs_div_den hx]
    exact_mod_cast h
  rw [nearest_pos hx, hr, if_neg hm.not_ge]

structure IsValue (places : ℕ) (least top : ℤ) (q : ℚ) (m : ℕ) (e : ℤ) : Prop where
  eq : q = m * 2 ^ e
  pos : 0 < m
  significand : m < 2 ^ (places + 1)
  bounded : least ≤ e
  normal : e = least ∨ 2 ^ places ≤ m
  finite : q < 2 ^ top

theorem nearest_near {q x : ℚ} {m : ℕ} {e : ℤ} (hq : IsValue places least top q m e)
    (h : 2 ^ (places + 2) * |x - q| < q) : roundNearest places least top x = some q := by
  have hu : (0 : ℚ) < 2 ^ e := zpow_pos (by norm_num) e
  have hpow : (1 : ℚ) ≤ 2 ^ places := one_le_pow₀ (by norm_num)
  have hm : (m : ℚ) + 1 ≤ 2 * 2 ^ places := by
    have hsig := hq.significand
    rw [pow_succ] at hsig
    have hcast : ((m + 1 : ℕ) : ℚ) ≤ ((2 ^ places * 2 : ℕ) : ℚ) := by exact_mod_cast hsig
    push_cast at hcast
    linarith
  have hlower : (2 : ℚ) ^ (e + places) = 2 ^ places * 2 ^ e := by
    rw [zpow_add₀ (by norm_num), zpow_natCast, mul_comm]
  have hupper : (2 : ℚ) ^ (e + places + 1) = 2 * 2 ^ places * 2 ^ e := by
    rw [zpow_add_one₀ (by norm_num), hlower]
    ring
  have hfour : (2 : ℚ) ^ (places + 2) = 4 * 2 ^ places := by
    rw [pow_add]
    ring
  rw [hfour] at h
  have hnormal : e = least ∨ (2 : ℚ) ^ places ≤ m :=
    hq.normal.imp_right fun h => by exact_mod_cast h
  have htwo : ((2 ^ (places + 1) : ℕ) : ℚ) = 2 * 2 ^ places := by
    push_cast
    ring
  have hstep : (2 : ℚ) ^ places < m → (2 : ℚ) ^ places + 1 ≤ m := by
    intro hlt
    have hlt : 2 ^ places < m := by exact_mod_cast hlt
    exact_mod_cast hlt
  generalize (2 : ℚ) ^ places = size at hpow hm hlower hupper h hnormal htwo hstep
  have hqu : q + 2 ^ e ≤ 2 * size * 2 ^ e := by
    rw [hq.eq]
    nlinarith
  have hnonneg := abs_nonneg (x - q)
  have hx : 0 < x := by
    have := neg_abs_le (x - q)
    nlinarith
  have hclose : |x - q| < 2 ^ e / 2 := by
    by_contra hge
    nlinarith
  obtain ⟨hlow, hhigh⟩ := abs_lt.1 hclose
  by_cases hl : e = least ∨ (2 : ℚ) ^ (e + places) ≤ x
  · have hplace : lastPlace places least x = e := by
      apply lastPlace_eq hx hq.bounded _ hl
      rw [hupper]
      linarith
    have hdiv : x / 2 ^ e - m = (x - q) / 2 ^ e := by
      rw [hq.eq]
      field_simp
    have hround := @nearest_eq places least top x hx m
    rw [hplace, hdiv, abs_div, abs_of_pos hu, div_lt_iff₀ hu, ← hq.eq] at hround
    exact hround (by linarith) hq.finite
  · -- below the least significand of the exponent the places are half as far apart
    rw [not_or, not_le, hlower] at hl
    have hnormal := hnormal.resolve_left hl.1
    have hsize : (m : ℚ) = size := by
      by_contra hne
      have hmore := hstep (lt_of_le_of_ne hnormal (Ne.symm hne))
      rw [hq.eq] at hlow
      nlinarith
    have hhalf : (2 : ℚ) ^ (e - 1) = 2 ^ e / 2 := by
      rw [zpow_sub₀ (by norm_num), zpow_one]
    have hqsize : q = size * 2 ^ e := by rw [hq.eq, hsize]
    have hplace : lastPlace places least x = e - 1 := by
      apply lastPlace_eq hx
      · have := hq.bounded
        have := hl.1
        omega
      · rw [show e - 1 + places + 1 = e + places by ring, hlower]
        exact hl.2
      · right
        rw [show e - 1 + places = e + places - 1 by ring, zpow_sub_one₀ (by norm_num), hlower]
        nlinarith
    have hvalue : ((2 ^ (places + 1) : ℕ) : ℚ) * (2 ^ e / 2) = q := by
      rw [hqsize, htwo]
      ring
    have hdiv : x / (2 ^ e / 2) - ((2 ^ (places + 1) : ℕ) : ℚ) = (x - q) / (2 ^ e / 2) := by
      rw [← hvalue]
      field_simp
    have hround := @nearest_eq places least top x hx (2 ^ (places + 1))
    rw [hplace, hhalf, hdiv, abs_div, abs_of_pos (half_pos hu), div_lt_iff₀ (half_pos hu),
      hvalue] at hround
    exact hround (by nlinarith) hq.finite

end RoundNearest

theorem binary32_reads {x q : ℚ} {m : ℕ} {e : ℤ} (hq : RoundNearest.IsValue 23 (-149) 128 q m e)
    (hx : 0 < x) (h : binary64 x = some q) : binary32 x = some q := by
  apply RoundNearest.nearest_near hq
  have hm : (1 : ℚ) ≤ m := by exact_mod_cast hq.pos
  have hleast : (2 : ℚ) ^ (-149 : ℤ) ≤ q := by
    have hplace : (2 : ℚ) ^ (-149 : ℤ) ≤ 2 ^ e := zpow_le_zpow_right₀ (by norm_num) hq.bounded
    rw [hq.eq]
    exact hplace.trans (le_mul_of_one_le_left (zpow_nonneg (by norm_num) e) hm)
  have hwithin := binary64_within hx h
  obtain ⟨-, -, hplace⟩ := lastPlace_spec hx
  obtain hplace | hplace := hplace
  · rw [hplace] at hwithin
    have htiny : (2 : ℚ) ^ (-1074 : ℤ) * 2 ^ 25 ≤ 2 ^ (-149 : ℤ) := by
      rw [← zpow_natCast, ← zpow_add₀ (by norm_num)]
      exact zpow_le_zpow_right₀ (by norm_num) (by norm_num)
    have hpos : (0 : ℚ) < 2 ^ (-1074 : ℤ) := zpow_pos (by norm_num) _
    generalize (2 : ℚ) ^ (-1074 : ℤ) = tiny at hwithin htiny hpos
    generalize (2 : ℚ) ^ (-149 : ℤ) = low at hleast htiny
    norm_num at htiny ⊢
    linarith
  · rw [zpow_add₀ (by norm_num)] at hplace
    have hpos : (0 : ℚ) < 2 ^ lastPlace x := zpow_pos (by norm_num) _
    have hclose := (abs_le.1 hwithin).2
    generalize (2 : ℚ) ^ lastPlace x = place at hwithin hplace hpos hclose
    norm_num at hplace ⊢
    linarith

end FilamentCore.SemanticIr
