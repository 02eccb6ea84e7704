import FilamentCore.SemanticIr.DecimalText
import FilamentCore.SemanticIr.NumberLayout

/-!
# Normalized numbers (crates/semantic-ir/src/rules.rs)

The exact value of a number of the JSON grammar, and that the normalized text of one is the
canonical spelling of its value.
-/

namespace FilamentCore.SemanticIr

open Grammar

/-! ### Lexemes by their parts -/

/-- The exact value of a number of the JSON grammar. -/
def lexemeValue : List Char → Option ℚ
  | '-' :: cs => (readUnsigned cs).map Neg.neg
  | cs => readUnsigned cs

/-- A number of the grammar by its sign and its parts. -/
structure Lexeme (cs : List Char) (negative : Bool) (ws fs tail : List Char) (e : ℤ) :
    Prop where
  eq : cs = signed negative (ws ++ (pointed fs ++ tail))
  parts : Spelling (ws ++ (pointed fs ++ tail)) ws fs tail e

/-- The value of a number by its sign and its parts. -/
def scaledValue (negative : Bool) (ws fs : List Char) (e : ℤ) : ℚ :=
  (if negative then -1 else 1) * (decimalValue (ws ++ fs) * 10 ^ (e - fs.length))

theorem readFraction_spec {cs fs rest : List Char} (h : readFraction cs = some (fs, rest)) :
    cs = pointed fs ++ rest ∧ ∀ c ∈ fs, isAsciiDigit c = true := by
  unfold readFraction at h
  split at h
  · rename_i tail
    simp only at h
    split at h
    · cases h
    · rename_i hne
      cases h
      rw [pointed_of_ne hne, List.cons_append, List.takeWhile_append_dropWhile]
      exact ⟨rfl, fun c hc => List.mem_takeWhile_imp hc⟩
  · cases h
    exact ⟨rfl, by simp⟩

theorem readExponentDigits_eq_some {sign e : ℤ} {ds : List Char} :
    readExponentDigits sign ds = some e ↔ Digits ds ∧ e = sign * decimalValue ds := by
  unfold readExponentDigits
  split
  · rename_i hd
    rw [Option.some.injEq, eq_comm]
    exact ⟨fun he => ⟨⟨hd.1, List.all_eq_true.1 hd.2⟩, he⟩, And.right⟩
  · rename_i hd
    constructor
    · intro h
      cases h
    · rintro ⟨⟨hne, hall⟩, -⟩
      exact absurd ⟨hne, List.all_eq_true.2 hall⟩ hd

/-- What the sign of an exponent multiplies its digits by. -/
def signFactor (sign : List Char) : ℤ := if sign = ['-'] then -1 else 1

theorem readExponent_cons {marker : Char} {rest : List Char} {e : ℤ}
    (h : readExponent (marker :: rest) = some e) : (marker = 'e' ∨ marker = 'E') ∧
      ∃ sign ds, (sign = [] ∨ sign = ['+'] ∨ sign = ['-']) ∧ Digits ds ∧ rest = sign ++ ds ∧
        e = signFactor sign * decimalValue ds := by
  simp only [readExponent] at h
  split at h
  · rename_i hm
    refine ⟨hm, ?_⟩
    split at h
    · obtain ⟨hd, he⟩ := readExponentDigits_eq_some.1 h
      exact ⟨['+'], _, .inr (.inl rfl), hd, rfl, by rw [he]; rfl⟩
    · obtain ⟨hd, he⟩ := readExponentDigits_eq_some.1 h
      exact ⟨['-'], _, .inr (.inr rfl), hd, rfl, by rw [he]; rfl⟩
    · obtain ⟨hd, he⟩ := readExponentDigits_eq_some.1 h
      exact ⟨[], rest, .inl rfl, hd, rfl, by rw [he]; rfl⟩
  · cases h

theorem exists_spelling {cs : List Char} {v : ℚ} (h : readUnsigned cs = some v) :
    ∃ ws fs tail e, Spelling cs ws fs tail e := by
  simp only [readUnsigned] at h
  split at h
  · cases h
  · rename_i hguard
    obtain ⟨⟨fs, tail⟩, hf, h⟩ := Option.bind_eq_some_iff.1 h
    obtain ⟨e, he, -⟩ := Option.bind_eq_some_iff.1 h
    obtain ⟨hcut, hdigits⟩ := readFraction_spec hf
    have hsplit := List.takeWhile_append_dropWhile (p := isAsciiDigit) (l := cs)
    refine ⟨cs.takeWhile isAsciiDigit, fs, tail, e, ?_, ⟨⟨?_, fun c hc =>
      List.mem_takeWhile_imp hc⟩, fun hhead => ?_⟩, hdigits, ?_, he⟩
    · rw [← hcut, hsplit]
    · exact fun hnil => hguard (.inl hnil)
    · -- a whole part that starts with `0` has no second digit
      have hlength : ¬ 1 < (cs.takeWhile isAsciiDigit).length :=
        fun hl => hguard (.inr ⟨hl, hhead⟩)
      cases hw : cs.takeWhile isAsciiDigit with
      | nil => exact absurd (.inl hw) hguard
      | cons c rest =>
        rw [hw] at hlength hhead
        obtain rfl : c = '0' := Option.some.inj hhead
        have hnil : rest = [] := by
          rw [List.length_cons] at hlength
          exact List.eq_nil_of_length_eq_zero (by omega)
        rw [hnil]
    · cases tail with
      | nil => exact .inl rfl
      | cons marker rest =>
        obtain ⟨hm, sign, ds, hs, hd, hrest, -⟩ := readExponent_cons he
        exact .inr ⟨marker, sign, ds, hm, hs, hd, by rw [hrest]⟩

theorem Spelling.head {text ws fs tail : List Char} {e : ℤ} (h : Spelling text ws fs tail e) :
    ∃ c rest, text = c :: rest ∧ isAsciiDigit c = true := by
  obtain ⟨⟨hne, hdigits⟩, -⟩ := h.whole
  cases ws with
  | nil => exact absurd rfl hne
  | cons c ws => exact ⟨c, _, h.eq, hdigits c (.head _)⟩

theorem exists_lexeme {cs : List Char} {v : ℚ} (h : lexemeValue cs = some v) :
    ∃ negative ws fs tail e, Lexeme cs negative ws fs tail e := by
  unfold lexemeValue at h
  split at h
  · obtain ⟨u, hu, -⟩ := Option.map_eq_some_iff.1 h
    obtain ⟨ws, fs, tail, e, hs⟩ := exists_spelling hu
    exact ⟨true, ws, fs, tail, e, by rw [hs.eq]; rfl, hs.eq ▸ hs⟩
  · obtain ⟨ws, fs, tail, e, hs⟩ := exists_spelling h
    exact ⟨false, ws, fs, tail, e, hs.eq, hs.eq ▸ hs⟩

section Lexemes

variable {cs ws fs tail : List Char} {negative : Bool} {e : ℤ}

theorem Lexeme.head (h : Lexeme cs negative ws fs tail e) :
    (ws ++ (pointed fs ++ tail)).head? ≠ some '-' := by
  obtain ⟨c, rest, heq, hc⟩ := h.parts.head
  rw [heq]
  exact head_ne_minus hc

theorem lexemeValue_unsigned {cs : List Char} (h : cs.head? ≠ some '-') :
    lexemeValue cs = readUnsigned cs := by
  unfold lexemeValue
  split
  · exact absurd rfl h
  · rfl

theorem Lexeme.value (h : Lexeme cs negative ws fs tail e) :
    lexemeValue cs = some (scaledValue negative ws fs e) := by
  have hread := h.parts.readUnsigned_eq
  rw [power_eq, Nat.cast_ofNat] at hread
  rw [h.eq]
  cases negative with
  | true =>
    have hmap : lexemeValue (signed true (ws ++ (pointed fs ++ tail))) =
        (readUnsigned (ws ++ (pointed fs ++ tail))).map Neg.neg := rfl
    rw [hmap, hread, Option.map_some, scaledValue, if_pos rfl, neg_one_mul]
  | false =>
    have hplain : signed false (ws ++ (pointed fs ++ tail)) = ws ++ (pointed fs ++ tail) := rfl
    rw [hplain, lexemeValue_unsigned h.head, hread, scaledValue, if_neg Bool.false_ne_true,
      one_mul]

theorem Lexeme.strip (h : Lexeme cs negative ws fs tail e) :
    stripSign cs = ws ++ (pointed fs ++ tail) ∧ (cs.head? == some '-') = negative := by
  obtain ⟨c, rest, heq, hc⟩ := h.parts.head
  have hplus : c ≠ '+' := by
    rintro rfl
    cases hc
  have hminus : c ≠ '-' := by
    rintro rfl
    cases hc
  rw [h.eq, heq]
  cases negative with
  | true => exact ⟨rfl, rfl⟩
  | false =>
    have hplain : signed false (c :: rest) = c :: rest := rfl
    rw [hplain]
    refine ⟨?_, by simpa using hminus⟩
    unfold stripSign
    split
    · rename_i heq
      exact absurd (List.cons.inj heq).1 hminus
    · rename_i heq
      exact absurd (List.cons.inj heq).1 hplus
    · rfl

/-! ### Cutting a lexeme -/

theorem cutExponent_append {mantissa : List Char} (hm : 'e' ∉ mantissa ∧ 'E' ∉ mantissa)
    (rest : List Char) : cutExponent (mantissa ++ rest) =
      (mantissa ++ (cutExponent rest).1, (cutExponent rest).2) := by
  induction mantissa with
  | nil => rfl
  | cons c mantissa ih =>
    rw [List.mem_cons, List.mem_cons, not_or, not_or] at hm
    have hc : ¬ (c = 'e' ∨ c = 'E') := by
      rintro (rfl | rfl)
      · exact hm.1.1 rfl
      · exact hm.2.1 rfl
    rw [List.cons_append, cutExponent, if_neg hc, ih ⟨hm.1.2, hm.2.2⟩]
    rfl

theorem no_marker {ds : List Char} (hd : ∀ c ∈ ds, isAsciiDigit c = true) :
    'e' ∉ ds ∧ 'E' ∉ ds := by
  constructor <;> intro hm <;> cases hd _ hm

theorem Lexeme.mantissa (h : Lexeme cs negative ws fs tail e) :
    'e' ∉ ws ++ pointed fs ∧ 'E' ∉ ws ++ pointed fs := by
  have hws := no_marker h.parts.whole.1.2
  have hfs := no_marker h.parts.fraction
  have hnot : ∀ m : Char, m ≠ '.' → m ∉ ws → m ∉ fs → m ∉ ws ++ pointed fs := by
    intro m hpoint hw hf hm
    rcases List.mem_append.1 hm with hm | hm
    · exact hw hm
    · cases fs with
      | nil => cases hm
      | cons d ds => exact (List.mem_cons.1 hm).elim hpoint hf
  exact ⟨hnot 'e' (by decide) hws.1 hfs.1, hnot 'E' (by decide) hws.2 hfs.2⟩

theorem Lexeme.cutPoint (h : Lexeme cs negative ws fs tail e) :
    cutPoint (ws ++ pointed fs) = (ws, fs) := by
  have hpoint := point_not_digit h.parts.whole.1.2
  cases fs with
  | nil =>
    rw [pointed, List.append_nil]
    exact cutPoint_plain hpoint
  | cons d ds => exact cutPoint_point hpoint (d :: ds)

def exponentOf (width : ℕ) (tail : List Char) (e : ℤ) : Option ℤ :=
  if tail = [] ∨ (-(2 ^ (width - 1) : ℤ) ≤ e ∧ e < 2 ^ (width - 1)) then some e else none

theorem parseInt_signed {width : ℕ} {sign ds : List Char}
    (hs : sign = [] ∨ sign = ['+'] ∨ sign = ['-']) (hd : Digits ds) :
    parseInt width (sign ++ ds) =
      if -(2 ^ (width - 1) : ℤ) ≤ signFactor sign * decimalValue ds ∧
        signFactor sign * decimalValue ds < 2 ^ (width - 1)
      then some (signFactor sign * decimalValue ds) else none := by
  obtain ⟨hne, hall⟩ := hd
  obtain ⟨c, rest, rfl⟩ := List.exists_cons_of_ne_nil hne
  have hc := hall c (List.mem_cons_self ..)
  have hminus : c ≠ '-' := by
    rintro rfl
    cases hc
  have hplus : c ≠ '+' := by
    rintro rfl
    cases hc
  have hstrip : stripSign (sign ++ c :: rest) = c :: rest := by
    rcases hs with rfl | rfl | rfl
    · rw [List.nil_append]
      unfold stripSign
      split
      · rename_i heq
        exact absurd (List.cons.inj heq).1 hminus
      · rename_i heq
        exact absurd (List.cons.inj heq).1 hplus
      · rfl
    · rfl
    · rfl
  have hvalue : (if (sign ++ c :: rest).head? = some '-' then -(decimalValue (c :: rest) : ℤ)
      else decimalValue (c :: rest)) =
        signFactor sign * decimalValue (c :: rest) := by
    rcases hs with rfl | rfl | rfl <;> simp [signFactor, hminus]
  have hguard : ((c :: rest).isEmpty || !(c :: rest).all isAsciiDigit) = false := by
    rw [List.all_eq_true.2 hall]
    rfl
  unfold parseInt
  simp only [hstrip, hvalue, hguard, Bool.false_eq_true, if_false]

theorem Lexeme.cut (h : Lexeme cs negative ws fs tail e) : ∃ marked,
    cutExponent (stripSign cs) = (ws ++ pointed fs, marked) ∧
    (marked = none ↔ tail = []) ∧
    (∀ width, (match marked with
      | none => some 0
      | some exponent => parseInt width exponent) = exponentOf width tail e) ∧
    ∀ exponent, marked = some exponent → (e < 0 → exponent.head? = some '-') ∧
      (0 < e → exponent.head? ≠ some '-') := by
  have hvalue := h.parts.value
  rw [h.strip.1, ← List.append_assoc, cutExponent_append h.mantissa]
  cases tail with
  | nil =>
    obtain rfl : 0 = e := Option.some.inj hvalue
    refine ⟨none, by rw [cutExponent, List.append_nil], by simp, fun width => ?_, by simp⟩
    rw [exponentOf, if_pos (.inl rfl)]
  | cons marker rest =>
    obtain ⟨hm, sign, ds, hs, hd, rfl, he⟩ := readExponent_cons hvalue
    refine ⟨some (sign ++ ds), by rw [cutExponent, if_pos hm, List.append_nil], by simp,
      fun width => ?_, ?_⟩
    · simp only
      rw [parseInt_signed hs hd, ← he, exponentOf]
      simp
    · rintro exponent heq
      obtain rfl := Option.some.inj heq
      obtain ⟨c, ds, rfl⟩ := List.exists_cons_of_ne_nil hd.1
      have hc := hd.2 c (List.mem_cons_self ..)
      rcases hs with rfl | rfl | rfl
      · rw [signFactor, if_neg (by simp), one_mul] at he
        refine ⟨fun hneg => ?_, fun _ => head_ne_minus hc⟩
        omega
      · rw [signFactor, if_neg (by simp), one_mul] at he
        refine ⟨fun hneg => ?_, fun _ => by simp⟩
        omega
      · rw [signFactor, if_pos rfl] at he
        refine ⟨fun _ => rfl, fun hpos => ?_⟩
        omega

/-! ### Normalizing -/

theorem trimLeading_eq (cs : List Char) :
    ∃ zeros, cs = List.replicate zeros '0' ++ trimLeading cs := by
  fun_induction trimLeading cs with
  | case1 c cs ih =>
    obtain ⟨zeros, heq⟩ := ih
    exact ⟨zeros + 1, by rw [List.replicate_succ, List.cons_append, ← heq]⟩
  | case2 cs => exact ⟨0, rfl⟩

theorem trimLeading_whole {cs : List Char} (hne : cs ≠ [])
    (hd : ∀ c ∈ cs, isAsciiDigit c = true) : WholePart (trimLeading cs) := by
  fun_induction trimLeading cs with
  | case1 c cs ih =>
    exact ih (List.cons_ne_nil c cs) fun x hx => hd x (List.mem_cons_of_mem _ hx)
  | case2 cs hno =>
    refine ⟨hd, ?_⟩
    obtain ⟨c, rest, rfl⟩ := List.exists_cons_of_ne_nil hne
    by_cases hc : c = '0'
    · left
      rw [hc] at hno ⊢
      cases rest with
      | nil => rfl
      | cons d rest => exact absurd rfl (hno d rest)
    · exact .inr ⟨c, rest, rfl, hc⟩

theorem placePoint_spec {digits : List Char} (hne : digits ≠ [])
    (hd : ∀ c ∈ digits, isAsciiDigit c = true) (place : ℤ) :
    (placePoint digits place).1 ≠ [] ∧
    (∀ c ∈ (placePoint digits place).1, isAsciiDigit c = true) ∧
    (∀ c ∈ (placePoint digits place).2, isAsciiDigit c = true) ∧
    (decimalValue ((placePoint digits place).1 ++ (placePoint digits place).2) : ℚ) /
      10 ^ (placePoint digits place).2.length =
        decimalValue digits * 10 ^ (place - digits.length) := by
  unfold placePoint
  split
  · rename_i hplace
    obtain ⟨z, hz⟩ := Int.eq_ofNat_of_zero_le (show 0 ≤ -place by omega)
    rw [hz, Int.toNat_natCast]
    refine ⟨List.cons_ne_nil _ _, zeros_digit 1, fun c hc =>
      (List.mem_append.1 hc).elim (zeros_digit z c) (hd c), ?_⟩
    have hzero : decimalValue ['0'] = 0 := rfl
    have hexp : place - digits.length = -((z + digits.length : ℕ) : ℤ) := by push_cast; omega
    simp only
    rw [decimalValue_append, decimalValue_append, decimalValue_replicate, hzero, zero_mul,
      zero_mul, zero_add, zero_add, List.length_append, List.length_replicate, hexp, zpow_neg,
      zpow_natCast]
    exact div_eq_mul_inv ..
  · rename_i hplace
    obtain ⟨p, rfl⟩ := Int.eq_ofNat_of_zero_le (show 0 ≤ place by omega)
    rw [Int.toNat_natCast]
    split
    · rename_i hlong
      refine ⟨fun hnil => hne (List.append_eq_nil_iff.1 hnil).1, fun c hc =>
        (List.mem_append.1 hc).elim (hd c) (zeros_digit _ c), by simp, ?_⟩
      have hexp : (p : ℤ) - digits.length = ((p - digits.length : ℕ) : ℤ) := by omega
      simp only [List.append_nil, List.length_nil, pow_zero, div_one]
      rw [decimalValue_append, decimalValue_replicate, List.length_replicate, add_zero, hexp,
        zpow_natCast]
      push_cast
      rfl
    · rename_i hshort
      refine ⟨?_, fun c hc => hd c (List.mem_of_mem_take hc),
        fun c hc => hd c (List.mem_of_mem_drop hc), ?_⟩
      · rw [Ne, List.take_eq_nil_iff]
        rintro (hp | hnil)
        · omega
        · exact hne hnil
      · have hexp : (p : ℤ) - digits.length = -((digits.length - p : ℕ) : ℤ) := by omega
        simp only
        rw [List.take_append_drop, List.length_drop, hexp, zpow_neg, zpow_natCast]
        exact div_eq_mul_inv ..

theorem all_zero_iff {ds : List Char} (hd : ∀ c ∈ ds, isAsciiDigit c = true) :
    ds.all (· == '0') = true ↔ decimalValue ds = 0 := by
  rw [List.all_eq_true]
  constructor
  · intro h
    have hzeros : ds = List.replicate ds.length '0' :=
      List.eq_replicate_of_mem fun c hc => beq_iff_eq.1 (h c hc)
    rw [hzeros, decimalValue_replicate]
  · intro h c hc
    have hsame : ds = List.replicate ds.length '0' := by
      apply decimalValue_injective hd (zeros_digit _) (List.length_replicate ..).symm
      rw [h, decimalValue_replicate]
    rw [hsame] at hc
    exact beq_iff_eq.2 (List.eq_of_mem_replicate hc)

theorem Lexeme.digits (h : Lexeme cs negative ws fs tail e) :
    ws ++ fs ≠ [] ∧ ∀ c ∈ ws ++ fs, isAsciiDigit c = true := by
  refine ⟨fun hnil => h.parts.whole.1.1 (List.append_eq_nil_iff.1 hnil).1, fun c hc => ?_⟩
  exact (List.mem_append.1 hc).elim (h.parts.whole.1.2 c) (h.parts.fraction c)

theorem Lexeme.normalizedNumber_eq (h : Lexeme cs negative ws fs tail e) :
    normalizedNumber cs = (exponentOf 64 tail e).bind fun exponent =>
      if (ws ++ fs).all (· == '0') then some (false, ['0'], true)
      else
        let placed := placePoint (ws ++ fs) (ws.length + exponent)
        some (negative, if (trimTrailing placed.2).isEmpty then trimLeading placed.1
          else trimLeading placed.1 ++ '.' :: trimTrailing placed.2,
          (trimTrailing placed.2).isEmpty) := by
  obtain ⟨marked, hcut, -, hexponent, -⟩ := h.cut
  have hguard : (ws.isEmpty || !fs.all isAsciiDigit || !ws.all isAsciiDigit) = false := by
    rw [List.all_eq_true.2 h.parts.fraction, List.all_eq_true.2 h.parts.whole.1.2]
    simpa using h.parts.whole.1.1
  rw [← hexponent 64, ← h.strip.2]
  unfold normalizedNumber
  simp only [hcut]
  cases marked <;>
    simp only [h.cutPoint, hguard, Bool.false_eq_true, if_false, Option.bind_eq_bind]

theorem Lexeme.normalized (h : Lexeme cs negative ws fs tail e)
    (hfits : exponentOf 64 tail e = some e) : ∃ n w f, CanonicalParts n w f ∧
      partsValue n w f = scaledValue negative ws fs e ∧
      normalizedNumber cs = some (n, if f.isEmpty then w else w ++ '.' :: f, f.isEmpty) := by
  obtain ⟨hne, hdigit⟩ := h.digits
  rw [h.normalizedNumber_eq, hfits, Option.bind_some]
  split
  · rename_i hzero
    refine ⟨false, ['0'], [], ⟨WholePart.zero, FractionPart.nil, by simp⟩, ?_, rfl⟩
    rw [scaledValue, (all_zero_iff hdigit).1 hzero]
    simp [partsValue, decimalValue]
  · rename_i hzero
    obtain ⟨hI, hdI, hdF, hvalue⟩ := placePoint_spec hne hdigit (ws.length + e)
    generalize placePoint (ws ++ fs) (ws.length + e) = placed at hI hdI hdF hvalue ⊢
    obtain ⟨I, F⟩ := placed
    obtain ⟨leading, hlead⟩ := trimLeading_eq I
    obtain ⟨trailing, htrail⟩ := trimTrailing_eq F
    have hparts : partsValue negative (trimLeading I) (trimTrailing F) =
        scaledValue negative ws fs e := by
      rw [← partsValue_leading negative leading, ← hlead,
        ← partsValue_trailing negative trailing, ← htrail, partsValue, hvalue, scaledValue,
        List.length_append]
      congr 3
      push_cast
      omega
    have hnonzero : scaledValue negative ws fs e ≠ 0 := by
      rw [scaledValue]
      have hten : (10 : ℚ) ^ (e - fs.length) ≠ 0 := zpow_ne_zero _ (by norm_num)
      have hvalue : (decimalValue (ws ++ fs) : ℚ) ≠ 0 := by
        exact_mod_cast mt (all_zero_iff hdigit).2 hzero
      cases negative <;> simp [hten, hvalue]
    refine ⟨negative, trimLeading I, trimTrailing F, ⟨trimLeading_whole hI hdI,
      trimTrailing_fraction hdF, fun _ hw hf => hnonzero ?_⟩, hparts, rfl⟩
    rw [← hparts, hw, hf]
    simp [partsValue, decimalValue]

theorem Lexeme.not_normalized (h : Lexeme cs negative ws fs tail e)
    (hfits : exponentOf 64 tail e = none) : normalizedNumber cs = none := by
  rw [h.normalizedNumber_eq, hfits, Option.bind_none]

end Lexemes

end FilamentCore.SemanticIr
