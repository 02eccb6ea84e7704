import FilamentCore.SemanticIr.Binary64
import FilamentCore.SemanticIr.CanonicalText
import FilamentCore.SemanticIr.Digits

/-!
# The shortest digits that read back (crates/semantic-ir/src/number.rs)

Seventeen digits are enough for every value of the format, so the digits of a number read back as
it.
-/

namespace FilamentCore.SemanticIr

/-! ### Decimals of natural numbers -/

theorem toList_toString (n : ℕ) : (toString n).toList = Nat.toDigits 10 n := Nat.toList_repr

theorem decimalValue_toString (n : ℕ) : decimalValue (toString n).toList = n := by
  have h := @Nat.ofDigitChars_ten_toDigits n
  rwa [Nat.ofDigitChars_eq_foldl, ← toList_toString] at h

theorem toString_bounds {n : ℕ} (hn : 0 < n) :
    10 ^ ((toString n).length - 1) ≤ n ∧ n < 10 ^ (toString n).length := by
  have hlength : (toString n).length = (Nat.toDigits 10 n).length := by
    rw [← toList_toString, String.length_toList]
  have hpos := @Nat.length_toDigits_pos 10 n
  rw [hlength]
  refine ⟨?_, (Nat.length_toDigits_le_iff (by norm_num) hpos).1 le_rfl⟩
  by_contra hlt
  by_cases hone : (Nat.toDigits 10 n).length = 1
  · rw [hone] at hlt
    omega
  · have hle := (Nat.length_toDigits_le_iff (b := 10) (by norm_num)
      (show 0 < (Nat.toDigits 10 n).length - 1 by omega)).2 (not_le.1 hlt)
    omega

theorem decimalPoint_spec {a d : ℕ} (ha : 0 < a) (hd : 0 < d) :
    (10 : ℚ) ^ (decimalPoint a d - 1) ≤ a / d ∧ (a : ℚ) / d < 10 ^ decimalPoint a d := by
  have hbounds : ∀ n : ℕ, 0 < n → (10 : ℚ) ^ (((toString n).length : ℤ) - 1) ≤ n ∧
      (n : ℚ) < 10 ^ (((toString n).length : ℤ) - 1 + 1) := by
    intro n hn
    obtain ⟨hl, hu⟩ := toString_bounds hn
    have hpos : 0 < (toString n).length := by
      rw [← String.length_toList, toList_toString]
      exact Nat.length_toDigits_pos
    have hcast : ((toString n).length : ℤ) - 1 = ((toString n).length - 1 : ℕ) := by omega
    rw [sub_add_cancel, hcast, zpow_natCast, zpow_natCast]
    exact ⟨by exact_mod_cast hl, by exact_mod_cast hu⟩
  obtain ⟨ha1, ha2⟩ := hbounds a ha
  obtain ⟨hd1, hd2⟩ := hbounds d hd
  obtain ⟨hl, hu⟩ := quotient_bounds (by norm_num) ha1 ha2 hd1 hd2
  rw [sub_sub_sub_cancel_right] at hl hu
  have h := place_spec hl hu
  have he : decimalPoint a d = (if (a : ℚ) / d < 10 ^
      (((toString a).length : ℤ) - (toString d).length) then
        ((toString a).length : ℤ) - (toString d).length - 1
      else ((toString a).length : ℤ) - (toString d).length) + 1 := by
    rw [decimalPoint]
    have hiff := scaled_lt (b := 10) (n := a) (by norm_num) hd
      (((toString a).length : ℤ) - (toString d).length)
    rw [Nat.cast_ofNat] at hiff
    by_cases hlt : (a : ℚ) / d < 10 ^ (((toString a).length : ℤ) - (toString d).length)
    · rw [if_pos hlt, sub_add_cancel]
      exact if_pos (hiff.2 hlt)
    · rw [if_neg hlt]
      exact if_neg fun h => hlt (hiff.1 h)
  rw [he, add_sub_cancel_right]
  exact h

/-! ### Seventeen digits -/

/-- The nearer of the two integers about a quotient. -/
def nearer (n d : ℕ) : ℕ := if 2 * (n % d) ≤ d then n / d else n / d + 1

theorem nearer_close {n d : ℕ} (hd : 0 < d) : |(nearer n d : ℚ) - (n : ℚ) / d| ≤ 1 / 2 := by
  have hd' : (0 : ℚ) < d := by exact_mod_cast hd
  have hdm : (d : ℚ) * (n / d : ℕ) + (n % d : ℕ) = n := by exact_mod_cast Nat.div_add_mod n d
  have hlt : ((n % d : ℕ) : ℚ) < d := by exact_mod_cast Nat.mod_lt n hd
  have hquot : (n : ℚ) / d = (n / d : ℕ) + (n % d : ℕ) / d := by
    rw [← hdm]
    field_simp
  rw [hquot, nearer]
  split
  · rename_i hle
    have hle' : 2 * ((n % d : ℕ) : ℚ) ≤ d := by exact_mod_cast hle
    have hdiv : ((n % d : ℕ) : ℚ) / d ≤ 1 / 2 := by
      rw [div_le_iff₀ hd']
      linarith
    have hdiv0 : 0 ≤ ((n % d : ℕ) : ℚ) / d := by positivity
    rw [abs_le]
    constructor <;> linarith
  · rename_i hgt
    have hgt' : (d : ℚ) < 2 * (n % d : ℕ) := by exact_mod_cast not_le.1 hgt
    have hdiv : 1 / 2 ≤ ((n % d : ℕ) : ℚ) / d := by
      rw [le_div_iff₀ hd']
      linarith
    have hdiv1 : ((n % d : ℕ) : ℚ) / d ≤ 1 := by
      rw [div_le_one hd']
      exact hlt.le
    push_cast
    rw [abs_le]
    constructor <;> linarith

theorem mkRat_natAbs {q : ℚ} (hq : 0 < q) : mkRat q.num.natAbs q.den = q := by
  rw [Rat.mkRat_eq_div, Int.cast_natCast, natAbs_div_den hq]

theorem exists_roundTrip {q : ℚ} {m : ℕ} {e : ℤ} (hq : IsBinary q m e) (hpos : 0 < q) :
    roundTrips q.num.natAbs q.den (decimalPoint q.num.natAbs q.den) 17 ≠ [] := by
  have ha : 0 < q.num.natAbs := Int.natAbs_pos.2 (Rat.num_pos.2 hpos).ne'
  obtain ⟨hl, -⟩ := decimalPoint_spec ha q.pos
  rw [natAbs_div_den hpos] at hl
  generalize decimalPoint q.num.natAbs q.den = point at hl ⊢
  have hunit : (0 : ℚ) < 10 ^ (point - 17) := zpow_pos (by norm_num) _
  have hscale : (10 : ℚ) ^ (point - 1) = 10 ^ 16 * 10 ^ (point - 17) := by
    rw [show point - 1 = 16 + (point - 17) by ring, zpow_add₀ (by norm_num)]
    rfl
  have hs := scaled_div (b := 10) (by norm_num) q.num.natAbs q.den (point - 17)
  have hd := scaled_pos (b := 10) (by norm_num) q.pos q.num.natAbs (point - 17)
  rw [natAbs_div_den hpos, Nat.cast_ofNat] at hs
  have hnear := nearer_close (n := (scaled 10 q.num.natAbs q.den (point - 17)).1) hd
  have hmem : nearer (scaled 10 q.num.natAbs q.den (point - 17)).1
      (scaled 10 q.num.natAbs q.den (point - 17)).2 ∈
        roundTrips q.num.natAbs q.den point 17 := by
    rw [roundTrips, Nat.cast_ofNat]
    generalize scaled 10 q.num.natAbs q.den (point - 17) = s at hs hd hnear
    simp only [List.mem_filter, decide_eq_true_eq]
    constructor
    · rw [nearer]
      split <;> exact .head _
    · rw [mkRat_natAbs hpos, power_eq, Nat.cast_ofNat]
      apply binary64_near hq
      have hdiff : (nearer s.1 s.2 : ℚ) * 10 ^ (point - 17) - q =
          (nearer s.1 s.2 - q / 10 ^ (point - 17)) * 10 ^ (point - 17) := by
        field_simp
      rw [hs] at hnear
      rw [hdiff, abs_mul, abs_of_pos hunit]
      have hmul := mul_le_mul_of_nonneg_right hnear hunit.le
      rw [hscale] at hl
      linarith
  exact List.ne_nil_of_mem hmem

/-! ### The digits -/

theorem trimmed_eq (cs : List Char) : ∃ zeros,
    cs = (cs.reverse.dropWhile (· = '0')).reverse ++ List.replicate zeros '0' := by
  have hsplit := List.takeWhile_append_dropWhile (p := fun c : Char => decide (c = '0'))
    (l := cs.reverse)
  refine ⟨(cs.reverse.takeWhile (· = '0')).length, ?_⟩
  have hzeros : cs.reverse.takeWhile (· = '0') =
      List.replicate (cs.reverse.takeWhile (· = '0')).length '0' := by
    apply List.eq_replicate_of_mem
    intro c hc
    simpa using List.mem_takeWhile_imp hc
  have hreverse := congrArg List.reverse hsplit
  rw [List.reverse_append, List.reverse_reverse, hzeros, List.reverse_replicate] at hreverse
  exact hreverse.symm

theorem decimalValue_append (cs ds : List Char) :
    decimalValue (cs ++ ds) = decimalValue cs * 10 ^ ds.length + decimalValue ds := by
  rw [decimalValue, List.foldl_append]
  exact foldl_digits _ ds

theorem decimalValue_replicate (n : ℕ) : decimalValue (List.replicate n '0') = 0 := by
  induction n with
  | zero => rfl
  | succ n ih =>
    rw [List.replicate_succ, decimalValue_cons, ih, Nat.sub_self, zero_mul]

/-- The digits of a value of the format: not empty, no zero first, and they read back. -/
structure Shortest (q : ℚ) (digits : List Char) (point : ℤ) : Prop where
  digit : ∀ c ∈ digits, isAsciiDigit c = true
  head : ∃ c, digits.head? = some c ∧ c ≠ '0'
  reads : binary64 ((decimalValue digits : ℚ) * 10 ^ (point - digits.length)) = some q

theorem decimalValue_lt {cs : List Char} (h : ∀ c ∈ cs, isAsciiDigit c = true) :
    decimalValue cs < 10 ^ cs.length := by
  induction cs with
  | nil => exact Nat.one_pos
  | cons c cs ih =>
    have hc := digit_bounds (h c (.head _))
    have hcs := ih fun d hd => h d (.tail _ hd)
    have hzero : '0'.toNat = 48 := rfl
    have hle : (c.toNat - '0'.toNat) * 10 ^ cs.length ≤ 9 * 10 ^ cs.length :=
      Nat.mul_le_mul_right _ (by omega)
    rw [decimalValue_cons, List.length_cons, pow_succ]
    omega

theorem head_toString {n : ℕ} (hn : 0 < n) :
    ∃ c cs, (toString n).toList = c :: cs ∧ c ≠ '0' := by
  obtain ⟨hl, -⟩ := toString_bounds hn
  have hvalue := decimalValue_toString n
  have hdigits := Json.toString_digits n
  rw [← String.length_toList] at hl
  cases h : (toString n).toList with
  | nil =>
    rw [toList_toString] at h
    exact absurd h Nat.toDigits_ne_nil
  | cons c cs =>
    refine ⟨c, cs, rfl, ?_⟩
    rintro rfl
    rw [h] at hl hvalue hdigits
    have hlt := decimalValue_lt fun d hd => hdigits d (.tail _ hd)
    rw [decimalValue_cons, Nat.sub_self, zero_mul, zero_add] at hvalue
    rw [List.length_cons, Nat.add_sub_cancel, ← hvalue] at hl
    omega

theorem shortestDigits_found {a d : ℕ} (h : roundTrips a d (decimalPoint a d) 17 ≠ []) :
    ∃ c k : ℕ, (roundTrips a d (decimalPoint a d) k).head? = some c ∧
      shortestDigits a d = (((toString c).toList.reverse.dropWhile (· = '0')).reverse,
        decimalPoint a d + (toString c).toList.length - k) := by
  unfold shortestDigits
  extract_lets point
  generalize hfound : List.findSome? (fun k => Option.map (fun x => (x, k + 1))
    (roundTrips a d point (k + 1)).head?) (List.range 17) = found
  cases found with
  | none =>
    rw [List.findSome?_eq_none_iff] at hfound
    have hlast := hfound 16 (List.mem_range.2 (by norm_num))
    rw [Option.map_eq_none_iff, List.head?_eq_none_iff] at hlast
    exact absurd hlast h
  | some found =>
    obtain ⟨i, -, hi⟩ := List.exists_of_findSome?_eq_some hfound
    rw [Option.map_eq_some_iff] at hi
    obtain ⟨c, hc, rfl⟩ := hi
    exact ⟨c, i + 1, hc, rfl⟩

theorem roundTrips_reads {a d k c : ℕ} {point : ℤ} (h : (roundTrips a d point k).head? = some c) :
    binary64 ((c : ℚ) * power 10 (point - k)) = some (mkRat a d) := by
  have hmem := List.mem_of_mem_head? h
  rw [roundTrips] at hmem
  exact of_decide_eq_true (List.mem_filter.1 hmem).2

theorem trimmed_value (c k : ℕ) (point : ℤ) {digits : List Char}
    (hd : ((toString c).toList.reverse.dropWhile (· = '0')).reverse = digits) :
    (decimalValue digits : ℚ) *
      10 ^ (point + (toString c).toList.length - k - digits.length) = c * 10 ^ (point - k) := by
  obtain ⟨zeros, htrim⟩ := trimmed_eq (toString c).toList
  have hvalue := decimalValue_toString c
  rw [hd] at htrim
  rw [htrim, decimalValue_append, decimalValue_replicate, List.length_replicate,
    add_zero] at hvalue
  have hlength := congrArg List.length htrim
  rw [List.length_append, List.length_replicate] at hlength
  rw [hlength, ← hvalue]
  push_cast
  rw [show point + ((digits.length : ℤ) + zeros) - k - digits.length = zeros + (point - k) by
    ring, zpow_add₀ (by norm_num), zpow_natCast]
  ring

theorem shortestDigits_spec {q : ℚ} {m : ℕ} {e : ℤ} (hq : IsBinary q m e) (hpos : 0 < q) :
    Shortest q (shortestDigits q.num.natAbs q.den).1 (shortestDigits q.num.natAbs q.den).2 := by
  have hdigit := Json.shortestDigits_digits q.num.natAbs q.den
  obtain ⟨c, k, hhead, heq⟩ := shortestDigits_found (exists_roundTrip hq hpos)
  have hreads := roundTrips_reads hhead
  generalize decimalPoint q.num.natAbs q.den = point at hreads heq
  rw [mkRat_natAbs hpos, power_eq, Nat.cast_ofNat] at hreads
  have hc : 0 < c := by
    apply Nat.pos_of_ne_zero
    rintro rfl
    rw [Nat.cast_zero, zero_mul, binary64_zero, Option.some.injEq] at hreads
    exact hpos.ne hreads
  obtain ⟨first, rest, hspelled, hfirst⟩ := head_toString hc
  obtain ⟨zeros, htrim⟩ := trimmed_eq (toString c).toList
  have hvalue := trimmed_value c k point rfl
  rw [heq] at hdigit ⊢
  simp only at hdigit ⊢
  generalize ((toString c).toList.reverse.dropWhile (· = '0')).reverse = digits
    at htrim hdigit hvalue ⊢
  refine ⟨hdigit, ?_, ?_⟩
  · cases digits with
    | nil =>
      have hzero : (c : ℚ) * 10 ^ (point - k) ≠ 0 :=
        mul_ne_zero (by exact_mod_cast hc.ne') (zpow_ne_zero _ (by norm_num))
      rw [decimalValue, List.foldl_nil, Nat.cast_zero, zero_mul] at hvalue
      exact absurd hvalue.symm hzero
    | cons d ds =>
      rw [hspelled, List.cons_append, List.cons.injEq] at htrim
      exact ⟨d, rfl, htrim.1 ▸ hfirst⟩
  · rw [hvalue]
    exact hreads

end FilamentCore.SemanticIr
