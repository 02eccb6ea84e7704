import FilamentCore.SemanticIr.NormalizedNumber

/-!
# Exact numbers (crates/semantic-ir/src/rules.rs)

Which numbers the exactness rule reports, against the exact value of the lexeme and the value that
its canonical rendering denotes.
-/

namespace FilamentCore.SemanticIr

open Grammar

/-! ### What a number denotes -/

def Number.denoted (n : Number) : ℚ := (lexemeValue n.lexeme.toList).getD 0

def Number.rendered (n : Number) : ℚ := (lexemeValue (ecmaNumberToString n.value)).getD 0

/-- The code a number deserves: an integer above `2 ^ 53` is inexact, and so is any other number
that its rendering does not denote. -/
def exactKind (n : Number) : Option Code :=
  if n.denoted.den = 1 then
    if 2 ^ 53 < |n.denoted| then some .inexactInteger else none
  else if n.rendered = n.denoted then none
  else some .inexactNumber

theorem binary64_of_readNumber {cs : List Char} {x : ℚ}
    (h : readNumber (String.ofList cs) = some x) :
    ∃ v, lexemeValue cs = some v ∧ binary64 v = some x := by
  cases cs with
  | nil => cases h
  | cons c cs =>
    by_cases hc : c = '-'
    · subst hc
      rw [readNumber_minus] at h
      obtain ⟨u, hu, hx⟩ := Option.bind_eq_some_iff.1 h
      refine ⟨-u, ?_, hx⟩
      have hmap : lexemeValue ('-' :: cs) = (readUnsigned cs).map Neg.neg := rfl
      rw [hmap, hu, Option.map_some]
    · rw [readNumber_cons hc] at h
      obtain ⟨u, hu, hx⟩ := Option.bind_eq_some_iff.1 h
      exact ⟨u, by rw [lexemeValue_unsigned (by simpa using hc), hu], hx⟩

theorem Number.denoted_spec (n : Number) :
    lexemeValue n.lexeme.toList = some n.denoted ∧ binary64 n.denoted = some n.value := by
  have hread : readNumber (String.ofList n.lexeme.toList) = some n.value := by
    rw [String.ofList_toList]
    exact (Option.some_get n.valid).symm
  obtain ⟨v, hv, hx⟩ := binary64_of_readNumber hread
  rw [Number.denoted, hv]
  exact ⟨rfl, hx⟩

theorem Number.rendered_spec (n : Number) :
    lexemeValue (ecmaNumberToString n.value) = some n.rendered := by
  obtain ⟨hread, -⟩ := ecmaNumberToString_reads n.denoted_spec.2
  obtain ⟨v, hv, -⟩ := binary64_of_readNumber hread
  rw [Number.rendered, hv]
  rfl

/-! ### Spelled values -/

theorem spellParts_read {n : Bool} {w f : List Char} (h : CanonicalParts n w f) :
    ((spellParts n w f).head? == some '-') = n ∧
      cutPoint (stripMinus (spellParts n w f)) = (w, f) := by
  have hpoint := point_not_digit h.whole.digit
  by_cases hf : f = []
  · subst hf
    have hhead := h.whole.head_ne_minus []
    rw [List.append_nil] at hhead
    obtain ⟨hstrip, hsign⟩ := stripMinus_signed (n := n) hhead
    rw [spellParts_whole, hstrip]
    exact ⟨hsign, cutPoint_plain hpoint⟩
  · obtain ⟨hstrip, hsign⟩ := stripMinus_signed (n := n) (h.whole.head_ne_minus ('.' :: f))
    rw [spellParts_point n w hf, hstrip]
    exact ⟨hsign, cutPoint_point hpoint f⟩

theorem spellParts_eq_iff {n n' : Bool} {w w' f f' : List Char} (h : CanonicalParts n w f)
    (h' : CanonicalParts n' w' f') :
    spellParts n w f = spellParts n' w' f' ↔ partsValue n w f = partsValue n' w' f' := by
  constructor
  · intro heq
    obtain ⟨hn, hcut⟩ := spellParts_read h
    obtain ⟨hn', hcut'⟩ := spellParts_read h'
    rw [heq] at hn hcut
    rw [hn] at hn'
    rw [hcut, Prod.mk.injEq] at hcut'
    rw [hn', hcut'.1, hcut'.2]
  · intro heq
    obtain ⟨rfl, rfl, rfl⟩ := h.unique h' heq
    rfl

/-! ### The bound of the integers -/

theorem char_lt_iff {c d : Char} : c < d ↔ c.toNat < d.toNat := by
  rw [Char.lt_def, UInt32.lt_iff_toNat_lt]
  rfl

theorem digits_lt_iff {cs ds : List Char} (hcs : ∀ c ∈ cs, isAsciiDigit c = true)
    (hds : ∀ d ∈ ds, isAsciiDigit d = true) (hl : cs.length = ds.length) :
    cs < ds ↔ decimalValue cs < decimalValue ds := by
  induction cs generalizing ds with
  | nil =>
    obtain rfl := List.eq_nil_of_length_eq_zero hl.symm
    simp
  | cons c cs ih =>
    obtain ⟨d, ds, rfl⟩ := List.exists_cons_of_length_eq_add_one hl.symm
    obtain ⟨hc, hcs⟩ := List.forall_mem_cons.1 hcs
    obtain ⟨hd, hds⟩ := List.forall_mem_cons.1 hds
    have hlen : cs.length = ds.length := by simpa using hl
    have hcb := digit_bounds hc
    have hdb := digit_bounds hd
    have hclt := decimalValue_lt hcs
    have hdlt := decimalValue_lt hds
    have hzero : '0'.toNat = 48 := rfl
    rw [List.cons_lt_cons_iff, char_lt_iff, ih hcs hds hlen, decimalValue_cons, decimalValue_cons,
      hlen, hzero]
    rw [hlen] at hclt
    constructor
    · rintro (hlt | ⟨rfl, hlt⟩)
      · have hmul := Nat.mul_le_mul_right (10 ^ ds.length)
          (show c.toNat - 48 + 1 ≤ d.toNat - 48 by omega)
        rw [Nat.add_mul, one_mul] at hmul
        omega
      · omega
    · intro hlt
      rcases Nat.lt_trichotomy c.toNat d.toNat with hcd | hcd | hcd
      · exact .inl hcd
      · refine .inr ⟨char_eq_of_toNat hcd, ?_⟩
        rw [hcd] at hlt
        omega
      · have hmul := Nat.mul_le_mul_right (10 ^ ds.length)
          (show d.toNat - 48 + 1 ≤ c.toNat - 48 by omega)
        rw [Nat.add_mul, one_mul] at hmul
        omega

theorem above_iff {w : List Char} (hd : ∀ c ∈ w, isAsciiDigit c = true) (hl : w.length = 16) :
    "9007199254740992" < String.ofList w ↔ 2 ^ 53 < decimalValue w := by
  have hall : "9007199254740992".toList.all isAsciiDigit = true := by decide
  rw [String.lt_iff, String.toList_ofList (l := w),
    digits_lt_iff (List.all_eq_true.1 hall) hd hl.symm]
  have hbound : decimalValue "9007199254740992".toList = 2 ^ 53 := by decide
  rw [hbound]

theorem magnitude_iff {w : List Char} (hw : WholePart w) :
    (16 < (w.dropWhile (· == '0')).length ∨ (w.dropWhile (· == '0')).length = 16 ∧
      "9007199254740992" < String.ofList (w.dropWhile (· == '0'))) ↔ 2 ^ 53 < decimalValue w := by
  by_cases hzero : w = ['0']
  · rw [hzero]
    decide
  · obtain ⟨c, cs, rfl, hc⟩ := hw.lead.resolve_left hzero
    have hdrop : (c :: cs).dropWhile (· == '0') = c :: cs :=
      List.dropWhile_cons_of_neg (by simpa using hc)
    have hlow := hw.value_pos hzero
    have hhigh := decimalValue_lt hw.digit
    rw [hdrop]
    constructor
    · rintro (hlong | ⟨hlen, hlt⟩)
      · have hpow : 10 ^ 16 ≤ 10 ^ ((c :: cs).length - 1) :=
          Nat.pow_le_pow_right (by norm_num) (by omega)
        omega
      · exact (above_iff hw.digit hlen).1 hlt
    · intro hlt
      by_cases hlong : 16 < (c :: cs).length
      · exact .inl hlong
      · have hlen : (c :: cs).length = 16 := by
          by_contra hne
          have hpow : 10 ^ (c :: cs).length ≤ 10 ^ 15 :=
            Nat.pow_le_pow_right (by norm_num) (by omega)
          omega
        exact .inr ⟨hlen, (above_iff hw.digit hlen).2 hlt⟩

/-! ### Integers -/

theorem roundHalfEven_within {n d : ℕ} (hd : 0 < d) :
    |(n : ℚ) / d - roundHalfEven n d| ≤ 1 / 2 := by
  have hd' : (0 : ℚ) < d := by exact_mod_cast hd
  have hle : (roundHalfEven n d : ℚ) ≤ n / d + 1 / 2 := by
    by_contra hgt
    have hpos : 0 < roundHalfEven n d := by
      rw [Nat.pos_iff_ne_zero]
      intro h0
      rw [h0, Nat.cast_zero] at hgt
      exact hgt (by positivity)
    have hlt : 2 * n < (2 * (roundHalfEven n d - 1) + 1) * d := by
      have hcast : ((roundHalfEven n d - 1 : ℕ) : ℚ) = roundHalfEven n d - 1 := by
        rw [Nat.cast_sub hpos, Nat.cast_one]
      have hmul := mul_lt_mul_of_pos_right (not_le.1 hgt) hd'
      rw [add_mul, div_mul_cancel₀ _ hd'.ne'] at hmul
      have hq : (2 * n : ℚ) < (2 * ((roundHalfEven n d - 1 : ℕ) : ℚ) + 1) * d := by
        rw [hcast]
        linarith
      exact_mod_cast hq
    have hbound := roundHalfEven_le hlt
    omega
  have hge : (n : ℚ) / d - 1 / 2 ≤ roundHalfEven n d := by
    by_contra hlt
    have hsmall : 2 * (d * (roundHalfEven n d + 1)) < 2 * n + d := by
      have hmul := mul_lt_mul_of_pos_right (not_le.1 hlt) hd'
      rw [sub_mul, div_mul_cancel₀ _ hd'.ne'] at hmul
      have hq : (2 * (d * (roundHalfEven n d + 1)) : ℚ) < 2 * n + d := by linarith
      exact_mod_cast hq
    have hbound := le_roundHalfEven hd hsmall
    omega
  exact abs_le.2 ⟨by linarith, by linarith⟩

theorem binary64_within {x y : ℚ} (hx : 0 < x) (h : binary64 x = some y) :
    |x - y| ≤ 2 ^ lastPlace x / 2 := by
  have hp : (0 : ℚ) < 2 ^ lastPlace x := zpow_pos (by norm_num) _
  have hd := scaled_pos (b := 2) (by norm_num) x.pos x.num.natAbs (lastPlace x)
  have hdiv := scaled_div (b := 2) (by norm_num) x.num.natAbs x.den (lastPlace x)
  rw [natAbs_div_den hx, Nat.cast_ofNat] at hdiv
  rw [binary64_pos hx] at h
  generalize scaled 2 x.num.natAbs x.den (lastPlace x) = s at hd hdiv h
  obtain ⟨n, d⟩ := s
  simp only at hd hdiv h
  split at h
  · cases h
  · have hy : y = roundHalfEven n d * 2 ^ lastPlace x := (Option.some.inj h).symm
    have hxs : x = (n : ℚ) / d * 2 ^ lastPlace x := by
      rw [hdiv, div_mul_cancel₀ _ hp.ne']
    have hsub : x - y = ((n : ℚ) / d - roundHalfEven n d) * 2 ^ lastPlace x := by
      rw [hy, sub_mul, ← hxs]
    rw [hsub, abs_mul, abs_of_pos hp]
    calc |(n : ℚ) / d - roundHalfEven n d| * 2 ^ lastPlace x ≤ 1 / 2 * 2 ^ lastPlace x :=
          mul_le_mul_of_nonneg_right (roundHalfEven_within hd) hp.le
      _ = 2 ^ lastPlace x / 2 := by ring

theorem binary64_integer {z : ℕ} (hz : z ≤ 2 ^ 53) : binary64 z = some (z : ℚ) := by
  by_cases h0 : z = 0
  · rw [h0, Nat.cast_zero, binary64_zero]
  · have hx : (0 : ℚ) < z := by exact_mod_cast Nat.pos_of_ne_zero h0
    have hzq : (z : ℚ) ≤ 2 ^ (53 : ℤ) := by exact_mod_cast hz
    obtain ⟨-, -, hplace⟩ := lastPlace_spec hx
    have hfinite : (z : ℚ) < 2 ^ (1024 : ℤ) :=
      hzq.trans_lt (zpow_lt_zpow_right₀ (by norm_num) (by norm_num))
    -- the integer is so many units of its last place
    have hunits : ∃ m : ℕ, (m : ℚ) * 2 ^ lastPlace (z : ℚ) = z := by
      by_cases hp : lastPlace (z : ℚ) ≤ 0
      · obtain ⟨k, hk⟩ := Int.eq_ofNat_of_zero_le (show 0 ≤ -lastPlace (z : ℚ) by omega)
        refine ⟨z * 2 ^ k, ?_⟩
        rw [show lastPlace (z : ℚ) = -(k : ℤ) by omega, zpow_neg, zpow_natCast]
        push_cast
        rw [mul_assoc, mul_inv_cancel₀ (by positivity), mul_one]
      · have hlow := hplace.resolve_left (by omega)
        have hone : lastPlace (z : ℚ) = 1 := by
          have hlt := (zpow_le_zpow_iff_right₀ (by norm_num : (1 : ℚ) < 2)).1 (hlow.trans hzq)
          omega
        rw [hone] at hlow ⊢
        have htop : z = 2 ^ 53 := by
          have hge : (2 : ℚ) ^ (53 : ℤ) ≤ z := by simpa using hlow
          have hge : 2 ^ 53 ≤ z := by exact_mod_cast hge
          omega
        exact ⟨2 ^ 52, by rw [htop]; norm_num⟩
    obtain ⟨m, hm⟩ := hunits
    have hp : (0 : ℚ) < 2 ^ lastPlace (z : ℚ) := zpow_pos (by norm_num) _
    have hzero : |(z : ℚ) / 2 ^ lastPlace (z : ℚ) - m| < 1 / 2 := by
      have hquotient : (z : ℚ) / 2 ^ lastPlace (z : ℚ) = m := by rw [div_eq_iff hp.ne', hm]
      rw [hquotient, sub_self, abs_zero]
      norm_num
    have heq := binary64_eq hx hzero (by rw [hm]; exact hfinite)
    rw [hm] at heq
    exact heq

theorem eq_of_binary64 {z t : ℕ} (hz : z ≤ 2 ^ 53)
    (h : binary64 ((10 * t : ℕ) : ℚ) = some (z : ℚ)) : 10 * t = z := by
  by_cases hle : 10 * t ≤ 2 ^ 53
  · rw [binary64_integer hle, Option.some.injEq] at h
    exact_mod_cast h
  · have hx : (0 : ℚ) < ((10 * t : ℕ) : ℚ) := by exact_mod_cast (show 0 < 10 * t by omega)
    have hwithin := binary64_within hx h
    obtain ⟨-, hupper, hplace⟩ := lastPlace_spec hx
    generalize hlast : lastPlace ((10 * t : ℕ) : ℚ) = place at hwithin hupper hplace
    have habove : (2 : ℚ) ^ (53 : ℤ) < ((10 * t : ℕ) : ℚ) := by exact_mod_cast not_le.1 hle
    have hpos : 1 ≤ place := by
      have hlt := (zpow_lt_zpow_iff_right₀ (by norm_num : (1 : ℚ) < 2)).1 (habove.trans hupper)
      omega
    have hzq : (z : ℚ) ≤ 2 ^ 53 := by exact_mod_cast hz
    have hlow := hplace.resolve_left (by omega)
    have hdiff := (abs_le.1 hwithin).2
    by_cases hone : place = 1
    · -- two integers beyond the bound round down to it, and neither is a multiple of ten
      rw [hone, zpow_one] at hdiff
      have hq : ((10 * t : ℕ) : ℚ) ≤ ((2 ^ 53 + 1 : ℕ) : ℚ) := by
        push_cast at hdiff ⊢
        linarith
      have hn : 10 * t ≤ 2 ^ 53 + 1 := by exact_mod_cast hq
      omega
    · obtain ⟨k, rfl⟩ : ∃ k : ℕ, place = k + 2 := ⟨(place - 2).toNat, by omega⟩
      have hunit : (1 : ℚ) ≤ 2 ^ k := one_le_pow₀ (by norm_num)
      rw [show ((k : ℤ) + 2 + 52) = ((k + 54 : ℕ) : ℤ) by push_cast; ring, zpow_natCast,
        pow_add] at hlow
      rw [show ((k : ℤ) + 2) = ((k + 2 : ℕ) : ℤ) by push_cast; ring, zpow_natCast,
        pow_add] at hdiff
      exfalso
      nlinarith

theorem roundTrips_integer {z k c : ℕ} (hz : z ≤ 2 ^ 53)
    (h : (roundTrips z 1 (decimalPoint z 1) k).head? = some c) :
    (c : ℚ) * 10 ^ (decimalPoint z 1 - k) = z := by
  have hreads := roundTrips_reads h
  rw [power_eq, Nat.cast_ofNat] at hreads
  have hz1 : mkRat (z : ℤ) 1 = (z : ℚ) := by rw [Rat.mkRat_one, Int.cast_natCast]
  rw [hz1] at hreads
  generalize decimalPoint z 1 = point at h hreads ⊢
  by_cases hk : (k : ℤ) < point
  · obtain ⟨t, ht⟩ : ∃ t : ℕ, point - k = t + 1 := ⟨(point - k - 1).toNat, by omega⟩
    have hten : (c : ℚ) * 10 ^ (point - k) = ((10 * (c * 10 ^ t) : ℕ) : ℚ) := by
      rw [ht, zpow_add_one₀ (by norm_num), zpow_natCast]
      push_cast
      ring
    rw [hten] at hreads ⊢
    rw [eq_of_binary64 hz hreads]
  · obtain ⟨t, ht⟩ := Int.eq_ofNat_of_zero_le (show 0 ≤ -(point - k) by omega)
    -- the integer has no more digits than are tried, and is tried first
    have hscaled : (scaled 10 z 1 (point - k)).1 / (scaled 10 z 1 (point - k)).2 = z * 10 ^ t ∧
        (scaled 10 z 1 (point - k)).1 % (scaled 10 z 1 (point - k)).2 = 0 := by
      unfold scaled
      split
      · obtain rfl : t = 0 := by omega
        rw [show (point - k).toNat = 0 by omega]
        simp [Nat.mod_one]
      · rw [ht, Int.toNat_natCast]
        simp [Nat.mod_one]
    have hown : ((z * 10 ^ t : ℕ) : ℚ) * 10 ^ (point - k) = z := by
      rw [show point - k = -(t : ℤ) by omega, zpow_neg, zpow_natCast]
      push_cast
      rw [mul_assoc, mul_inv_cancel₀ (by positivity), mul_one]
    have hfirst : (roundTrips z 1 point k).head? = some (z * 10 ^ t) := by
      unfold roundTrips
      simp only [hscaled.1, hscaled.2, mul_zero, Nat.zero_le, if_true]
      rw [List.filter_cons_of_pos]
      · rfl
      · rw [power_eq, Nat.cast_ofNat, hown, hz1, binary64_integer hz]
        simp
    rw [h, Option.some.injEq] at hfirst
    rw [hfirst, hown]

theorem unsignedText_value {q : ℚ} {m : ℕ} {e : ℤ} (hq : IsBinary q m e) (hpos : 0 < q) :
    ∃ c k : ℕ,
      (roundTrips q.num.natAbs q.den (decimalPoint q.num.natAbs q.den) k).head? = some c ∧
      readUnsigned (unsignedText q) =
        some ((c : ℚ) * 10 ^ (decimalPoint q.num.natAbs q.den - k)) := by
  have h := shortestDigits_spec hq hpos
  obtain ⟨c, k, hhead, heq⟩ := shortestDigits_found (exists_roundTrip hq hpos)
  refine ⟨c, k, hhead, ?_⟩
  have hvalue := trimmed_value c k (decimalPoint q.num.natAbs q.den) rfl
  obtain ⟨ws, fs, tail, e, hspelling, hlayout, -⟩ := layout_spelling ⟨h.digit, h.head⟩
    (shortestDigits q.num.natAbs q.den).2
  rw [unsignedText, hspelling.readUnsigned_eq, power_eq, Nat.cast_ofNat, hlayout, heq]
  rw [hvalue]

theorem readUnsigned_integer {z : ℕ} (hz : z ≤ 2 ^ 53) (h0 : 0 < z) :
    readUnsigned (unsignedText (z : ℚ)) = some (z : ℚ) := by
  have hpos : (0 : ℚ) < z := by exact_mod_cast h0
  obtain ⟨m, e, hbinary⟩ := isBinary_of_round hpos (binary64_integer hz) hpos.ne'
  obtain ⟨c, k, hhead, hread⟩ := unsignedText_value hbinary hpos
  rw [Rat.num_natCast, Rat.den_natCast, Int.natAbs_natCast] at hhead hread
  rw [hread, roundTrips_integer hz hhead]

theorem unsignedText_head {q : ℚ} {m : ℕ} {e : ℤ} (hq : IsBinary q m e) (hpos : 0 < q) :
    (unsignedText q).head? ≠ some '-' := by
  obtain ⟨c, cs, htext, hc⟩ := (unsignedText_reads hq hpos).digit
  rw [htext]
  exact head_ne_minus hc

theorem rendered_integer (n : Number) (hden : n.denoted.den = 1) (hbound : |n.denoted| ≤ 2 ^ 53) :
    n.rendered = n.denoted := by
  obtain ⟨-, hvalue⟩ := n.denoted_spec
  have hrendered := n.rendered_spec
  obtain ⟨i, hi⟩ : ∃ i : ℤ, n.denoted = i := ⟨_, (Rat.coe_int_num_of_den_eq_one hden).symm⟩
  rw [hi] at hbound hvalue ⊢
  have hz : i.natAbs ≤ 2 ^ 53 := by
    rw [← Int.cast_abs] at hbound
    have hint : |i| ≤ 2 ^ 53 := by exact_mod_cast hbound
    rw [Int.abs_eq_natAbs] at hint
    omega
  rcases lt_trichotomy i 0 with hneg | rfl | hpos
  · have hcast : (i : ℚ) = -(i.natAbs : ℚ) := by
      rw [show i = -(i.natAbs : ℤ) by omega]
      push_cast
      simp
    have h0 : 0 < i.natAbs := by omega
    have hq : (0 : ℚ) < i.natAbs := by exact_mod_cast h0
    rw [hcast, binary64_neg, binary64_integer hz, Option.map_some, Option.some.injEq] at hvalue
    rw [← hvalue, ecma_neg (by linarith), neg_neg] at hrendered
    have hmap : lexemeValue ('-' :: unsignedText (i.natAbs : ℚ)) =
        (readUnsigned (unsignedText (i.natAbs : ℚ))).map Neg.neg := rfl
    rw [hmap, readUnsigned_integer hz h0, Option.map_some, Option.some.injEq] at hrendered
    rw [← hrendered, hcast]
  · rw [Int.cast_zero, binary64_zero, Option.some.injEq] at hvalue
    have hzero : lexemeValue (ecmaNumberToString 0) = some 0 := by decide +kernel
    rw [← hvalue, hzero, Option.some.injEq] at hrendered
    rw [← hrendered, Int.cast_zero]
  · have hcast : (i : ℚ) = (i.natAbs : ℚ) := by
      rw [show i = (i.natAbs : ℤ) by omega]
      push_cast
      simp
    have h0 : 0 < i.natAbs := by omega
    have hq : (0 : ℚ) < i.natAbs := by exact_mod_cast h0
    rw [hcast, binary64_integer hz, Option.some.injEq] at hvalue
    obtain ⟨m, e, hbinary⟩ := isBinary_of_round hq (binary64_integer hz) hq.ne'
    rw [← hvalue, ecma_pos hq, lexemeValue_unsigned (unsignedText_head hbinary hq),
      readUnsigned_integer hz h0, Option.some.injEq] at hrendered
    rw [← hrendered, hcast]

/-! ### Numbers next to zero -/

theorem binary64_tiny {x : ℚ} (hx : 0 < x) (hsmall : x < 2 ^ (-1075 : ℤ)) :
    binary64 x = some 0 := by
  have hplace : lastPlace x = -1074 := by
    refine lastPlace_eq hx le_rfl (hsmall.trans (zpow_lt_zpow_right₀ (by norm_num) (by norm_num)))
      (.inl rfl)
  have hunit : (0 : ℚ) < 2 ^ (-1074 : ℤ) := zpow_pos (by norm_num) _
  have heq := binary64_eq hx (m := 0) (by
    rw [hplace, Nat.cast_zero, sub_zero, abs_of_pos (div_pos hx hunit), div_lt_iff₀ hunit]
    refine hsmall.trans_le ?_
    rw [show (-1075 : ℤ) = -1074 - 1 by norm_num, zpow_sub_one₀ (by norm_num)]
    linarith) (by
    rw [Nat.cast_zero, zero_mul]
    exact zpow_pos (by norm_num) _)
  rw [heq, Nat.cast_zero, zero_mul]

theorem binary64_range {x y : ℚ} (hx : 0 < x) (h : binary64 x = some y) (hy : 0 < y) :
    2 ^ (-1075 : ℤ) ≤ x ∧ x < 2 ^ (1025 : ℤ) := by
  constructor
  · by_contra hlt
    rw [binary64_tiny hx (not_le.1 hlt), Option.some.injEq] at h
    exact hy.ne h
  · by_contra hge
    have hge := not_lt.1 hge
    have hfinite : y < 2 ^ (1024 : ℤ) := by
      rw [binary64_pos hx] at h
      split at h
      · cases h
      · rename_i hsmall
        rw [← Option.some.inj h]
        exact not_le.1 hsmall
    have hwithin := (abs_le.1 (binary64_within hx h)).2
    obtain ⟨-, hupper, hplace⟩ := lastPlace_spec hx
    have hlast := (zpow_lt_zpow_iff_right₀ (by norm_num : (1 : ℚ) < 2)).1 (hge.trans_lt hupper)
    have hlow := hplace.resolve_left (by omega)
    have hunit : (2 : ℚ) ^ lastPlace x ≤ x :=
      (zpow_le_zpow_right₀ (by norm_num) (by omega)).trans hlow
    have hdouble : (2 : ℚ) ^ (1025 : ℤ) = 2 ^ (1024 : ℤ) * 2 :=
      zpow_add_one₀ (by norm_num) 1024
    rw [hdouble] at hge
    generalize (2 : ℚ) ^ (1024 : ℤ) = bound at hge hfinite
    linarith

theorem ten_zpow_le : (10 : ℚ) ^ (-1075 : ℤ) ≤ 2 ^ (-1075 : ℤ) := by
  rw [zpow_neg, zpow_neg]
  exact inv_anti₀ (zpow_pos (by norm_num) _)
    (zpow_le_zpow_left₀ (by norm_num) (by norm_num) (by norm_num))

/-! ### Renderings -/

theorem unsignedText_spelling {q : ℚ} {m : ℕ} {e : ℤ} (hq : IsBinary q m e) (hpos : 0 < q) :
    ∃ ws fs tail k, Spelling (unsignedText q) ws fs tail k ∧
      exponentOf 64 tail k = some k := by
  have h := shortestDigits_spec hq hpos
  rw [unsignedText]
  generalize shortestDigits q.num.natAbs q.den = found at h ⊢
  obtain ⟨ws, fs, tail, k, hspelling, -, htail⟩ := layout_spelling ⟨h.digit, h.head⟩ found.2
  refine ⟨ws, fs, tail, k, hspelling, if_pos (htail.imp_right fun hk => ?_)⟩
  obtain ⟨c, hhead, hc⟩ := h.head
  obtain ⟨ds, hds⟩ : ∃ ds, found.1 = c :: ds := by
    cases hd : found.1 with
    | nil => rw [hd] at hhead; cases hhead
    | cons d ds =>
      rw [hd] at hhead
      obtain rfl := Option.some.inj hhead
      exact ⟨ds, rfl⟩
  have hlow : 10 ^ (found.1.length - 1) ≤ decimalValue found.1 := by
    rw [hds]
    exact le_decimalValue (h.digit c (hds ▸ List.mem_cons_self ..)) hc
  have hhigh := decimalValue_lt h.digit
  have hlength : 0 < found.1.length := by rw [hds]; exact Nat.succ_pos _
  have hten : (0 : ℚ) < 10 ^ (found.2 - found.1.length) := zpow_pos (by norm_num) _
  have hvpos : (0 : ℚ) < decimalValue found.1 * 10 ^ (found.2 - found.1.length) := by
    have hd : (0 : ℚ) < decimalValue found.1 := by
      exact_mod_cast (Nat.pow_pos (by norm_num)).trans_le hlow
    exact mul_pos hd hten
  obtain ⟨hmin, hmax⟩ := binary64_range hvpos h.reads hpos
  -- the digits start just below the point
  have habove : (10 : ℚ) ^ (found.2 - 1) ≤
      decimalValue found.1 * 10 ^ (found.2 - found.1.length) := by
    have hsplit : (10 : ℚ) ^ (found.2 - 1) =
        10 ^ (found.1.length - 1) * 10 ^ (found.2 - found.1.length) := by
      rw [← zpow_natCast, ← zpow_add₀ (by norm_num)]
      congr 1
      omega
    rw [hsplit]
    exact mul_le_mul_of_nonneg_right (by exact_mod_cast hlow) hten.le
  have hbelow : decimalValue found.1 * (10 : ℚ) ^ (found.2 - found.1.length) < 10 ^ found.2 := by
    have hsplit : (10 : ℚ) ^ found.2 =
        10 ^ found.1.length * 10 ^ (found.2 - found.1.length) := by
      rw [← zpow_natCast, ← zpow_add₀ (by norm_num)]
      congr 1
      omega
    rw [hsplit]
    exact mul_lt_mul_of_pos_right (by exact_mod_cast hhigh) hten
  have hupper : found.2 - 1 < 1025 := by
    by_contra hge
    have hpow : (2 : ℚ) ^ (1025 : ℤ) ≤ 10 ^ (found.2 - 1) :=
      (zpow_le_zpow_left₀ (by norm_num) (by norm_num) (by norm_num)).trans
        (zpow_le_zpow_right₀ (by norm_num) (by omega))
    linarith
  have hlower : -1075 < found.2 := by
    by_contra hle
    have hpow : (10 : ℚ) ^ found.2 ≤ 10 ^ (-1075 : ℤ) :=
      zpow_le_zpow_right₀ (by norm_num) (by omega)
    linarith [ten_zpow_le]
  rw [hk]
  norm_num
  omega

theorem rendering_lexeme (n : Number) : ∃ negative ws fs tail e,
    Lexeme (ecmaNumberToString n.value) negative ws fs tail e ∧
      exponentOf 64 tail e = some e := by
  obtain hzero | ⟨m, e, hpos, hq⟩ | ⟨m, e, hneg, hq⟩ := round_cases n.denoted_spec.2
  · rw [hzero]
    refine ⟨false, ['0'], [], [], 0, ⟨by decide +kernel, rfl, ?_, by simp, .inl rfl, rfl⟩,
      if_pos (.inl rfl)⟩
    exact ⟨⟨List.cons_ne_nil _ _, zeros_digit 1⟩, fun _ => rfl⟩
  · obtain ⟨ws, fs, tail, k, hs, hfits⟩ := unsignedText_spelling hq hpos
    rw [ecma_pos hpos]
    exact ⟨false, ws, fs, tail, k, ⟨hs.eq, hs.eq ▸ hs⟩, hfits⟩
  · obtain ⟨ws, fs, tail, k, hs, hfits⟩ := unsignedText_spelling hq (neg_pos.2 hneg)
    rw [ecma_neg hneg]
    exact ⟨true, ws, fs, tail, k, ⟨by rw [hs.eq]; rfl, hs.eq ▸ hs⟩, hfits⟩

/-! ### The expansion budget -/

theorem exponentOf_cases (width : ℕ) (tail : List Char) (e : ℤ) :
    exponentOf width tail e = some e ∨ exponentOf width tail e = none := by
  unfold exponentOf
  split
  · exact .inl rfl
  · exact .inr rfl

section Budget

variable {cs ws fs tail : List Char} {negative : Bool} {e : ℤ}

theorem pointed_filter (h : Lexeme cs negative ws fs tail e) :
    (ws ++ pointed fs).filter (fun c => decide (c ≠ '.')) = ws ++ fs := by
  have hkeep : ∀ ds : List Char, (∀ c ∈ ds, isAsciiDigit c = true) →
      ds.filter (fun c => decide (c ≠ '.')) = ds := by
    intro ds hd
    refine List.filter_eq_self.2 fun c hc => decide_eq_true ?_
    rintro rfl
    cases hd _ hc
  rw [List.filter_append, hkeep ws h.parts.whole.1.2]
  cases fs with
  | nil => rfl
  | cons d ds =>
    rw [pointed, List.filter_cons_of_neg (by decide), hkeep _ h.parts.fraction]

theorem Lexeme.exceeds_iff (h : Lexeme cs negative ws fs tail e) :
    expansionWouldExceedBudget cs = true ↔ tail ≠ [] ∧ decimalValue (ws ++ fs) ≠ 0 ∧
      (exponentOf 128 tail e = none ∨ (ws.length : ℤ) + e < -4096 ∨
        4096 < (ws.length : ℤ) + e) := by
  obtain ⟨marked, hcut, hnone, hexponent, -⟩ := h.cut
  have hread := hexponent 128
  have hzero := all_zero_iff h.digits.2
  unfold expansionWouldExceedBudget
  simp only [hcut]
  cases marked with
  | none => simp [hnone.1 rfl]
  | some exponent =>
    have htail : tail ≠ [] := fun hnil => by cases hnone.2 hnil
    simp only at hread
    simp only [pointed_filter h]
    by_cases hz : (ws ++ fs).all (· == '0') = true
    · rw [if_pos hz]
      simp [hzero.1 hz]
    · rw [if_neg hz, hread]
      have hnz : decimalValue (ws ++ fs) ≠ 0 := mt hzero.2 hz
      rcases exponentOf_cases 128 tail e with hsome | hno
      · rw [hsome]
        simp [htail, hnz, h.cutPoint, maxExactExpansion]
      · rw [hno]
        simp [htail, hnz]

theorem Lexeme.huge_of_neg (h : Lexeme cs negative ws fs tail e) (hneg : e < 0) :
    hugeExponentIsInteger cs = false := by
  obtain ⟨marked, hcut, hnone, hexponent, hsign⟩ := h.cut
  have hread := hexponent 128
  unfold hugeExponentIsInteger
  simp only [hcut]
  cases marked with
  | none => rfl
  | some exponent =>
    simp only at hread ⊢
    rw [hread]
    rcases exponentOf_cases 128 tail e with hsome | hno
    · rw [hsome, h.cutPoint]
      simp only [decide_eq_false_iff_not]
      omega
    · rw [hno, (hsign exponent rfl).1 hneg]
      rfl

theorem Lexeme.tiny (h : Lexeme cs negative ws fs tail e)
    (hnz : decimalValue (ws ++ fs) ≠ 0) (hplace : (ws.length : ℤ) + e < -4096) :
    scaledValue negative ws fs e ≠ 0 ∧ |scaledValue negative ws fs e| < 2 ^ (-1075 : ℤ) := by
  have hten : (0 : ℚ) < 10 ^ (e - fs.length) := zpow_pos (by norm_num) _
  have hdpos : (0 : ℚ) < decimalValue (ws ++ fs) := by exact_mod_cast Nat.pos_of_ne_zero hnz
  have hpos := mul_pos hdpos hten
  have habs : |scaledValue negative ws fs e| = decimalValue (ws ++ fs) * 10 ^ (e - fs.length) := by
    unfold scaledValue
    cases negative
    · rw [if_neg Bool.false_ne_true, one_mul, abs_of_pos hpos]
    · rw [if_pos rfl, neg_one_mul, abs_neg, abs_of_pos hpos]
  refine ⟨fun hzero => ?_, ?_⟩
  · rw [hzero, abs_zero] at habs
    exact hpos.ne habs
  · have hlt := decimalValue_lt h.digits.2
    have hle : (decimalValue (ws ++ fs) : ℚ) * 10 ^ (e - fs.length) <
        10 ^ ((ws.length : ℤ) + e) := by
      have hsplit : (10 : ℚ) ^ ((ws.length : ℤ) + e) =
          10 ^ (ws ++ fs).length * 10 ^ (e - fs.length) := by
        rw [← zpow_natCast, ← zpow_add₀ (by norm_num), List.length_append]
        congr 1
        push_cast
        ring
      rw [hsplit]
      exact mul_lt_mul_of_pos_right (by exact_mod_cast hlt) hten
    have hpow : (10 : ℚ) ^ ((ws.length : ℤ) + e) ≤ 10 ^ (-1075 : ℤ) :=
      zpow_le_zpow_right₀ (by norm_num) (by omega)
    rw [habs]
    exact hle.trans_le (hpow.trans ten_zpow_le)

theorem Lexeme.length_le (h : Lexeme cs negative ws fs tail e) :
    ws.length + fs.length ≤ cs.length := by
  have hpoint : fs.length ≤ (pointed fs).length := by
    cases fs with
    | nil => exact Nat.zero_le _
    | cons d ds => exact Nat.le_succ _
  have hlength := congrArg List.length h.eq
  unfold signed at hlength
  split at hlength
  · simp only [List.length_cons, List.length_append] at hlength
    omega
  · simp only [List.length_append] at hlength
    omega

theorem exponentOf_eq_none {width : ℕ} (h : exponentOf width tail e = none) :
    tail ≠ [] ∧ (e < -(2 ^ (width - 1) : ℤ) ∨ 2 ^ (width - 1) ≤ e) := by
  unfold exponentOf at h
  split at h
  · cases h
  · rename_i hout
    rw [not_or, not_and_or, not_le, not_lt] at hout
    exact hout

theorem Lexeme.huge_iff (h : Lexeme cs negative ws fs tail e) (hshort : cs.length < 2 ^ 62)
    (htail : tail ≠ []) (hsign : 0 ≤ e) :
    hugeExponentIsInteger cs = true ↔ (fs.length : ℤ) ≤ e := by
  obtain ⟨marked, hcut, hnone, hexponent, hhead⟩ := h.cut
  have hread := hexponent 128
  have hlength := h.length_le
  unfold hugeExponentIsInteger
  simp only [hcut]
  cases marked with
  | none => exact absurd (hnone.1 rfl) htail
  | some exponent =>
    simp only at hread ⊢
    rw [hread]
    rcases exponentOf_cases 128 tail e with hsome | hno
    · rw [hsome, h.cutPoint]
      exact decide_eq_true_iff
    · obtain ⟨-, hlarge⟩ := exponentOf_eq_none hno
      rw [hno]
      simp only [bne_iff_ne, ne_eq, (hhead exponent rfl).2 (by omega), not_false_eq_true, true_iff]
      omega

theorem scaledValue_integer (hle : (fs.length : ℤ) ≤ e) :
    (scaledValue negative ws fs e).den = 1 := by
  obtain ⟨k, hk⟩ := Int.eq_ofNat_of_zero_le (show 0 ≤ e - fs.length by omega)
  have hint : scaledValue negative ws fs e =
      (((if negative then -1 else 1) * (decimalValue (ws ++ fs) * 10 ^ k) : ℤ) : ℚ) := by
    unfold scaledValue
    rw [hk]
    cases negative <;> simp
  rw [hint, Rat.den_intCast]

theorem Lexeme.expansion (h : Lexeme cs negative ws fs tail e)
    (hbudget : expansionWouldExceedBudget cs = false) (hnz : decimalValue (ws ++ fs) ≠ 0) :
    (placePoint (ws ++ fs) (ws.length + e)).1.length +
      (placePoint (ws ++ fs) (ws.length + e)).2.length ≤ cs.length + 4097 := by
  have hlength := h.length_le
  have hws := List.length_pos_iff.2 h.parts.whole.1.1
  have hplace : e = 0 ∨ -4096 ≤ (ws.length : ℤ) + e ∧ (ws.length : ℤ) + e ≤ 4096 := by
    by_cases htail : tail = []
    · subst htail
      exact .inl (Option.some.inj h.parts.value).symm
    · right
      by_contra hout
      rw [not_and_or, not_le, not_le] at hout
      rw [h.exceeds_iff.2 ⟨htail, hnz, .inr hout⟩] at hbudget
      cases hbudget
  unfold placePoint
  split
  · simp only [List.length_cons, List.length_nil, List.length_append, List.length_replicate]
    omega
  · split
    · simp only [List.length_nil, List.length_append, List.length_replicate] at *
      omega
    · simp only [List.length_take, List.length_drop, List.length_append]
      omega

end Budget

/-! ### The rule -/

def InexactInteger (n : Number) : Prop := n.denoted.den = 1 ∧ 2 ^ 53 < |n.denoted|

def InexactDecimal (n : Number) : Prop := n.denoted.den ≠ 1 ∧ n.rendered ≠ n.denoted

theorem exactKind_integer (n : Number) :
    exactKind n = some .inexactInteger ↔ InexactInteger n := by
  unfold exactKind InexactInteger
  split_ifs <;> simp_all

theorem exactKind_decimal (n : Number) :
    exactKind n = some .inexactNumber ↔ InexactDecimal n := by
  unfold exactKind InexactDecimal
  split_ifs <;> simp_all

section Kinds

variable {w f : List Char} {negative : Bool}

theorem den_eq_one_iff (h : CanonicalParts negative w f) :
    (partsValue negative w f).den = 1 ↔ f = [] := by
  have hinteger := partsValue_integer (n := negative) (w := w) h.fraction 0
  rw [pow_zero, mul_one, Nat.le_zero, List.length_eq_zero_iff] at hinteger
  rw [← hinteger]
  constructor
  · intro hden
    exact ⟨_, (Rat.coe_int_num_of_den_eq_one hden).symm⟩
  · rintro ⟨z, hz⟩
    rw [hz, Rat.den_intCast]

end Kinds

/-- A number that is expanded is reported as it deserves. -/
theorem exactNumberKind_expanded (n : Number)
    (hbudget : expansionWouldExceedBudget n.lexeme.toList = false)
    (hread : normalizedNumber n.lexeme.toList ≠ none) : exactNumberKind n = exactKind n := by
  obtain ⟨hdenoted, -⟩ := n.denoted_spec
  obtain ⟨negative, ws, fs, tail, e, hlex⟩ := exists_lexeme hdenoted
  have hfits : exponentOf 64 tail e = some e := (exponentOf_cases 64 tail e).resolve_right
    fun hno => hread (hlex.not_normalized hno)
  obtain ⟨s, w, f, hparts, hvalue, hnormal⟩ := hlex.normalized hfits
  rw [hlex.value, Option.some.injEq] at hdenoted
  rw [hdenoted] at hvalue
  -- the rendering, by its own canonical parts
  obtain ⟨negative', ws', fs', tail', e', hlex', hfits'⟩ := rendering_lexeme n
  obtain ⟨s', w', f', hparts', hvalue', hnormal'⟩ := hlex'.normalized hfits'
  have hrendered := n.rendered_spec
  rw [hlex'.value, Option.some.injEq] at hrendered
  rw [hrendered] at hvalue'
  have htexts : signed s (if f.isEmpty then w else w ++ '.' :: f) =
      signed s' (if f'.isEmpty then w' else w' ++ '.' :: f') ↔ n.rendered = n.denoted := by
    refine (spellParts_eq_iff hparts hparts').trans ?_
    rw [hvalue, hvalue', eq_comm]
  have hden := den_eq_one_iff hparts
  rw [hvalue] at hden
  unfold exactNumberKind exactKind
  simp only [hbudget, hnormal, hnormal', Bool.false_eq_true, if_false]
  by_cases hf : f = []
  · subst hf
    have habs : |n.denoted| = decimalValue w := by
      rw [← hvalue, partsValue_abs]
      simp
    have hlarge : 2 ^ 53 < |n.denoted| ↔ 2 ^ 53 < decimalValue w := by
      rw [habs]
      exact_mod_cast Iff.rfl
    have hmagnitude := magnitude_iff hparts.whole
    rw [if_pos (hden.2 rfl)]
    simp only [List.isEmpty_nil, if_true, cutPoint_plain (point_not_digit hparts.whole.digit),
      Bool.true_and, Bool.or_eq_true, Bool.and_eq_true, decide_eq_true_eq, beq_iff_eq] at htexts ⊢
    by_cases hbig : 2 ^ 53 < |n.denoted|
    · rw [if_pos (hmagnitude.2 (hlarge.1 hbig)), if_pos hbig]
    · rw [if_neg (mt hmagnitude.1 (mt hlarge.2 hbig)), if_neg hbig,
        if_pos (htexts.2 (rendered_integer n (hden.2 rfl) (not_lt.1 hbig)))]
  · have hempty : f.isEmpty = false := by simpa using hf
    rw [if_neg (mt hden.1 hf)]
    simp only [hempty, Bool.false_and, Bool.false_eq_true, if_false] at htexts ⊢
    exact if_congr htexts rfl rfl

theorem denoted_eq_zero {n : Number} {negative : Bool} {ws fs tail : List Char} {e : ℤ}
    (h : Lexeme n.lexeme.toList negative ws fs tail e) :
    n.denoted = scaledValue negative ws fs e ∧ (n.denoted = 0 ↔ decimalValue (ws ++ fs) = 0) := by
  obtain ⟨hdenoted, -⟩ := n.denoted_spec
  rw [h.value, Option.some.injEq] at hdenoted
  rw [← hdenoted]
  have hten : (10 : ℚ) ^ (e - fs.length) ≠ 0 := zpow_ne_zero _ (by norm_num)
  refine ⟨rfl, ?_⟩
  unfold scaledValue
  cases negative <;> simp [hten]

theorem inexactDecimal_tiny {n : Number} (hnz : n.denoted ≠ 0)
    (hsmall : |n.denoted| < 2 ^ (-1075 : ℤ)) : InexactDecimal n := by
  obtain ⟨-, hvalue⟩ := n.denoted_spec
  have hzero : n.value = 0 := by
    rcases lt_or_gt_of_ne hnz with hneg | hpos
    · rw [abs_of_neg hneg] at hsmall
      rw [← neg_neg n.denoted, binary64_neg, binary64_tiny (neg_pos.2 hneg) hsmall,
        Option.map_some, neg_zero, Option.some.injEq] at hvalue
      exact hvalue.symm
    · rw [abs_of_pos hpos] at hsmall
      rw [binary64_tiny hpos hsmall, Option.some.injEq] at hvalue
      exact hvalue.symm
  have hrendered : n.rendered = 0 := by
    have hspec := n.rendered_spec
    have htext : lexemeValue (ecmaNumberToString 0) = some 0 := by decide +kernel
    rw [hzero, htext, Option.some.injEq] at hspec
    exact hspec.symm
  refine ⟨fun hden => ?_, by rw [hrendered]; exact hnz.symm⟩
  obtain ⟨i, hi⟩ : ∃ i : ℤ, n.denoted = i := ⟨_, (Rat.coe_int_num_of_den_eq_one hden).symm⟩
  rw [hi] at hnz hsmall
  have hone : (1 : ℤ) ≤ |i| := Int.one_le_abs (by exact_mod_cast hnz)
  have hone : (1 : ℚ) ≤ |(i : ℚ)| := by exact_mod_cast hone
  have hpow : (2 : ℚ) ^ (-1075 : ℤ) ≤ 1 := zpow_le_one_of_nonpos₀ (by norm_num) (by norm_num)
  linarith

theorem exactNumberKind_exceeding {n : Number}
    (hbudget : expansionWouldExceedBudget n.lexeme.toList = true) :
    exactNumberKind n = exactKind n ↔
      if hugeExponentIsInteger n.lexeme.toList = true then InexactInteger n
      else InexactDecimal n := by
  unfold exactNumberKind
  simp only [hbudget, if_true]
  rw [eq_comm]
  split
  · exact exactKind_integer n
  · exact exactKind_decimal n

section Short

variable {n : Number} {negative : Bool} {ws fs tail : List Char} {e : ℤ}

theorem exactNumberKind_right (h : Lexeme n.lexeme.toList negative ws fs tail e)
    (hshort : n.lexeme.toList.length < 2 ^ 62) (htail : tail ≠ []) (hnz : n.denoted ≠ 0)
    (hplace : 4096 < (ws.length : ℤ) + e) : exactNumberKind n = exactKind n ↔
      if (fs.length : ℤ) ≤ e then 2 ^ 53 < |n.denoted| else InexactDecimal n := by
  obtain ⟨hvalue, hzero⟩ := denoted_eq_zero h
  rw [exactNumberKind_exceeding (h.exceeds_iff.2 ⟨htail, mt hzero.2 hnz, .inr (.inr hplace)⟩)]
  by_cases hneg : e < 0
  · rw [h.huge_of_neg hneg, if_neg Bool.false_ne_true, if_neg (by omega)]
  · have hhuge := h.huge_iff hshort htail (not_lt.1 hneg)
    by_cases hle : (fs.length : ℤ) ≤ e
    · have hinteger : n.denoted.den = 1 := by rw [hvalue, scaledValue_integer hle]
      rw [if_pos (hhuge.2 hle), if_pos hle]
      exact and_iff_right hinteger
    · rw [if_neg (mt hhuge.1 hle), if_neg hle]

theorem exactNumberKind_left (h : Lexeme n.lexeme.toList negative ws fs tail e)
    (htail : tail ≠ []) (hnz : n.denoted ≠ 0) (hplace : (ws.length : ℤ) + e < -4096) :
    exactNumberKind n = exactKind n := by
  obtain ⟨hvalue, hzero⟩ := denoted_eq_zero h
  obtain ⟨-, hsmall⟩ := h.tiny (mt hzero.2 hnz) hplace
  rw [exactNumberKind_exceeding (h.exceeds_iff.2 ⟨htail, mt hzero.2 hnz, .inr (.inl hplace)⟩),
    h.huge_of_neg (by omega), if_neg Bool.false_ne_true]
  exact inexactDecimal_tiny hnz (hvalue ▸ hsmall)

theorem exactNumberKind_near (h : Lexeme n.lexeme.toList negative ws fs tail e)
    (hshort : n.lexeme.toList.length < 2 ^ 62)
    (hnear : tail = [] ∨ n.denoted = 0 ∨
      -4096 ≤ (ws.length : ℤ) + e ∧ (ws.length : ℤ) + e ≤ 4096) :
    exactNumberKind n = exactKind n := by
  obtain ⟨-, hzero⟩ := denoted_eq_zero h
  have hlength := h.length_le
  have hfits : ∀ width, 64 ≤ width → exponentOf width tail e = none → n.denoted = 0 := by
    intro width hwidth hno
    obtain ⟨htail, hout⟩ := exponentOf_eq_none hno
    have hpow : (2 : ℤ) ^ 63 ≤ 2 ^ (width - 1) := pow_le_pow_right₀ (by norm_num) (by omega)
    rcases hnear with hnear | hnear | hnear
    · exact absurd hnear htail
    · exact hnear
    · omega
  have hbudget : expansionWouldExceedBudget n.lexeme.toList = false := by
    rw [Bool.eq_false_iff, Ne, h.exceeds_iff]
    rintro ⟨htail, hnz, hout⟩
    have hdenoted := mt hzero.1 hnz
    have hread := mt (hfits 128 (by norm_num)) hdenoted
    have hplace := (hnear.resolve_left htail).resolve_left hdenoted
    rcases hout with hout | hout | hout
    · exact hread hout
    · omega
    · omega
  by_cases hread : normalizedNumber n.lexeme.toList = none
  · -- only the exponent of a zero is not read
    have hdenoted : n.denoted = 0 := by
      by_contra hnz
      have hread64 := (exponentOf_cases 64 tail e).resolve_right (mt (hfits 64 le_rfl) hnz)
      obtain ⟨_, _, _, -, -, hsome⟩ := h.normalized hread64
      rw [hread] at hsome
      cases hsome
    have hkind : exactNumberKind n = none := by
      unfold exactNumberKind
      simp only [hbudget, hread, Bool.false_eq_true, if_false]
    have hden : (0 : ℚ).den = 1 := rfl
    rw [hkind, exactKind, hdenoted, if_pos hden, abs_zero, if_neg (by norm_num)]
  · exact exactNumberKind_expanded n hbudget hread

end Short

/-- The rule reports a number as it deserves exactly when the numbers that it does not expand are
inexact, and of the kind that their exponents give. -/
theorem exactNumberKind_iff (n : Number) :
    (exactNumberKind n = exactKind n ↔
      (expansionWouldExceedBudget n.lexeme.toList = true →
        if hugeExponentIsInteger n.lexeme.toList = true then InexactInteger n
        else InexactDecimal n) ∧
      (expansionWouldExceedBudget n.lexeme.toList = false →
        normalizedNumber n.lexeme.toList = none → exactKind n = none)) ∧
    ∀ negative ws fs tail e, Lexeme n.lexeme.toList negative ws fs tail e →
      (n.lexeme.length < 2 ^ 62 →
        (exactNumberKind n = exactKind n ↔
          (tail ≠ [] → n.denoted ≠ 0 → 4096 < (ws.length : ℤ) + e →
            if (fs.length : ℤ) ≤ e then 2 ^ 53 < |n.denoted| else InexactDecimal n))) ∧
      (expansionWouldExceedBudget n.lexeme.toList = false → n.denoted ≠ 0 →
        (placePoint (ws ++ fs) (ws.length + e)).1.length +
          (placePoint (ws ++ fs) (ws.length + e)).2.length ≤ n.lexeme.length + 4097) := by
  refine ⟨?_, fun negative ws fs tail e hlex => ⟨fun hshort => ?_, fun hbudget hnz => ?_⟩⟩
  · cases hbudget : expansionWouldExceedBudget n.lexeme.toList with
    | true =>
      rw [exactNumberKind_exceeding hbudget]
      simp
    | false =>
      by_cases hread : normalizedNumber n.lexeme.toList = none
      · have hkind : exactNumberKind n = none := by
          unfold exactNumberKind
          simp only [hbudget, hread, Bool.false_eq_true, if_false]
        rw [hkind, eq_comm]
        simp [hread]
      · simp [exactNumberKind_expanded n hbudget hread, hread]
  · rw [← String.length_toList] at hshort
    have hlength := hlex.length_le
    obtain ⟨hvalue, hzero⟩ := denoted_eq_zero hlex
    by_cases hfar : tail ≠ [] ∧ n.denoted ≠ 0 ∧ 4096 < (ws.length : ℤ) + e
    · obtain ⟨htail, hnz, hplace⟩ := hfar
      rw [exactNumberKind_right hlex hshort htail hnz hplace]
      exact ⟨fun h _ _ _ => h, fun h => h htail hnz hplace⟩
    · refine iff_of_true ?_ fun htail hnz hplace => absurd ⟨htail, hnz, hplace⟩ hfar
      by_cases hleft : tail ≠ [] ∧ n.denoted ≠ 0 ∧ (ws.length : ℤ) + e < -4096
      · exact exactNumberKind_left hlex hleft.1 hleft.2.1 hleft.2.2
      · refine exactNumberKind_near hlex hshort ?_
        by_contra hnear
        rw [not_or, not_or, not_and_or, not_le, not_le] at hnear
        obtain ⟨htail, hnz, hout⟩ := hnear
        exact hout.elim (fun hout => hleft ⟨htail, hnz, hout⟩) fun hout =>
          hfar ⟨htail, hnz, hout⟩
  · rw [← String.length_toList]
    exact hlex.expansion hbudget (mt (denoted_eq_zero hlex).2.2 hnz)

section One

/-- A one with so many zeros before it. -/
def fractionOne (k : ℕ) : List Char := List.replicate k '0' ++ ['1']

/-- The text of a one below the point, with an exponent. -/
def shiftedOne (k : ℕ) (tail : List Char) : List Char :=
  ['0'] ++ (pointed (fractionOne k) ++ tail)

variable {k : ℕ} {tail : List Char}

theorem shiftedOne_lexeme (htail : ExponentText tail)
    (hread : readExponent tail = some ((k + 1 : ℕ) : ℤ)) :
    Lexeme (shiftedOne k tail) false ['0'] (fractionOne k) tail ((k + 1 : ℕ) : ℤ) := by
  refine ⟨rfl, rfl, ⟨⟨List.cons_ne_nil _ _, zeros_digit 1⟩, fun _ => rfl⟩, fun c hc => ?_,
    htail, hread⟩
  exact (List.mem_append.1 hc).elim (zeros_digit k c) fun hone => by
    rw [List.mem_singleton.1 hone]
    decide

theorem fractionOne_length : (fractionOne k).length = k + 1 := by
  rw [fractionOne, List.length_append, List.length_replicate, List.length_singleton]

theorem fractionOne_value : decimalValue (['0'] ++ fractionOne k) = 1 := by
  have hone : decimalValue ['1'] = 1 := by decide
  have hzero : decimalValue ['0'] = 0 := by decide
  rw [fractionOne, decimalValue_append, decimalValue_append, decimalValue_replicate, hzero, hone,
    zero_mul, zero_mul, zero_add, zero_add]

theorem shiftedOne_value (htail : ExponentText tail)
    (hread : readExponent tail = some ((k + 1 : ℕ) : ℤ)) :
    lexemeValue (shiftedOne k tail) = some 1 := by
  rw [(shiftedOne_lexeme htail hread).value, scaledValue, fractionOne_value, fractionOne_length,
    sub_self, zpow_zero, if_neg Bool.false_ne_true]
  norm_num

theorem shiftedOne_valid (htail : ExponentText tail)
    (hread : readExponent tail = some ((k + 1 : ℕ) : ℤ)) :
    (readNumber (String.ofList (shiftedOne k tail))).isSome = true := by
  have hone : binary64 1 = some 1 := by
    have hinteger := binary64_integer (z := 1) (by norm_num)
    rwa [Nat.cast_one] at hinteger
  have hhead : (shiftedOne k tail).head? ≠ some '-' := by
    rw [shiftedOne, List.singleton_append, List.head?_cons]
    decide
  have hvalue := shiftedOne_value htail hread
  rw [lexemeValue_unsigned hhead] at hvalue
  rw [shiftedOne, List.singleton_append] at hvalue ⊢
  rw [readNumber_cons (by decide), hvalue, Option.bind_some, hone]
  rfl

theorem exactNumberKind_shiftedOne (htail : ExponentText tail)
    (hread : readExponent tail = some ((k + 1 : ℕ) : ℤ)) (hne : tail ≠ []) (hfar : 4095 ≤ k)
    (hshort : k + tail.length < 2 ^ 61) :
    exactKind ⟨_, shiftedOne_valid htail hread⟩ = none ∧
      exactNumberKind ⟨_, shiftedOne_valid htail hread⟩ = some .inexactInteger := by
  have hlex := shiftedOne_lexeme htail hread
  have hlength : (shiftedOne k tail).length < 2 ^ 62 := by
    have hpoint : (pointed (fractionOne k)).length = k + 2 := by
      have hsome : fractionOne k ≠ [] :=
        List.append_ne_nil_of_right_ne_nil _ (List.cons_ne_nil _ _)
      rw [pointed_of_ne hsome, List.length_cons, fractionOne_length]
    rw [shiftedOne, List.length_append, List.length_append, hpoint, List.length_singleton]
    omega
  have hbudget : expansionWouldExceedBudget (shiftedOne k tail) = true := by
    refine hlex.exceeds_iff.2 ⟨hne, ?_, .inr (.inr ?_)⟩
    · rw [fractionOne_value]
      exact one_ne_zero
    · rw [List.length_singleton]
      push_cast
      omega
  have hhuge : hugeExponentIsInteger (shiftedOne k tail) = true :=
    (hlex.huge_iff hlength hne (Int.natCast_nonneg _)).2 (by rw [fractionOne_length])
  have hdenoted : Number.denoted ⟨_, shiftedOne_valid htail hread⟩ = 1 := by
    rw [Number.denoted, String.toList_ofList, shiftedOne_value htail hread]
    rfl
  have hden : (1 : ℚ).den = 1 := rfl
  constructor
  · rw [exactKind, hdenoted, if_pos hden, abs_one, if_neg (by norm_num)]
  · unfold exactNumberKind
    simp only [String.toList_ofList, hbudget, hhuge, if_true]

end One

theorem exponentText_4096 : ExponentText "e4096".toList := by
  have hdigits : "4096".toList.all isAsciiDigit = true := by decide
  exact .inr ⟨'e', [], "4096".toList, .inl rfl, .inl rfl, ⟨by decide, List.all_eq_true.1 hdigits⟩,
    by decide⟩

theorem readExponent_4096 : readExponent "e4096".toList = some ((4095 + 1 : ℕ) : ℤ) := by
  decide +kernel

/-- A one below as many places as the budget has. -/
def farOne : Number :=
  ⟨String.ofList (shiftedOne 4095 "e4096".toList), shiftedOne_valid exponentText_4096
    readExponent_4096⟩

theorem exactNumberKind_farOne :
    exactKind farOne = none ∧ exactNumberKind farOne = some .inexactInteger :=
  exactNumberKind_shiftedOne exponentText_4096 readExponent_4096 (by decide) le_rfl
    (show 4095 + 5 < 2 ^ 61 by norm_num)

end FilamentCore.SemanticIr
