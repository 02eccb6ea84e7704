import FilamentCore.Backends.DecimalInstances

/-!
# The patterns of decimals

The decimals of the JSON Schema backend (src/compiler/backends/json-schema-v1/index.mjs): the
pattern that stands for a policy and the one that stands for a list of values.
-/

namespace FilamentCore.Backends.DecimalPatterns
open FilamentCore.Library FilamentCore.Library.Regex
open FilamentCore.SemanticIr FilamentCore.Compiler
open DecimalInstances
open IntegerPatterns (mem_range isAsciiDigit_iff mem_nonzero_digits)

/-! ### The patterns -/

/-- `[1-9][0-9]{0,n}`. -/
def nonzeroWhole (n : ℕ) : Pattern := .followed (.range '1' '9') (.between (.range '0' '9') 0 n)

def integerPart (integerDigits : ℕ) : Pattern :=
  if integerDigits = 0 then .char '0'
  else .group (.alts [.char '0', nonzeroWhole (integerDigits - 1)])

def fractionPart (scale : ℕ) : Pattern :=
  if 0 < scale then
    .optional (.group (.followed (.char '.') (.between (.range '0' '9') 1 scale)))
  else .empty

/-- `0\.(?=[0-9]*[1-9])[0-9]{1,scale}`. -/
def negativeFraction (scale : ℕ) : Pattern :=
  .followed (.char '0') (.followed (.char '.')
    (.followed (.ahead (.followed (.many (.range '0' '9')) (.range '1' '9')))
      (.between (.range '0' '9') 1 scale)))

/-- `negative`: the alternatives behind a minus sign. -/
def negatives (integerDigits scale : ℕ) : List Pattern :=
  (if integerDigits = 0 then []
    else [.followed (nonzeroWhole (integerDigits - 1)) (fractionPart scale)]) ++
  (if 0 < scale then [negativeFraction scale] else [])

def policyPattern (integerDigits scale : ℕ) : Pattern :=
  .cat [.start, .group (.either (.followed (integerPart integerDigits) (fractionPart scale))
    (.followed (.char '-') (.group (.alts (negatives integerDigits scale))))), .finish]

/-- The pattern of a policy; none where the policy is not of integers or has no room. -/
def decimalSchema (precision scale : Option ℤ) : Option Pattern := do
  let precision ← precision
  let scale ← scale
  let integerDigits := precision - scale
  if integerDigits < 0 ∨ scale < 0 then none
  else some (policyPattern integerDigits.toNat scale.toNat)

/-- `value.match(/^(-?)(0|[1-9][0-9]*)(?:\.([0-9]+))?$/)`. -/
def matchDecimal (value : List Char) : Option (Bool × List Char × List Char) :=
  let (whole, fraction) := cutPoint (stripMinus value)
  if whole = [] ∨ ¬ whole.all isAsciiDigit ∨ ¬ fraction.all isAsciiDigit ∨
      (1 < whole.length ∧ whole.head? = some '0') ∨ ('.' ∈ value ∧ fraction = []) then none
  else some (value.head? == some '-', whole, fraction)

/-- The fraction of a listed value and the zeros that may follow it. -/
def paddedFraction (fraction : List Char) (trailing : ℕ) : Pattern :=
  if fraction ≠ [] then
    .followed (.char '.') (.followed (.word fraction) (.between (.char '0') 0 trailing))
  else if 0 < trailing then
    .optional (.group (.followed (.char '.') (.between (.char '0') 1 trailing)))
  else .empty

def valuePattern (scale : ℕ) (value : List Char) : Option Pattern := do
  let (negative, whole, rawFraction) ← matchDecimal value
  let fraction := trimTrailing rawFraction
  if negative = true ∧ whole = ['0'] ∧ fraction.length = 0 then none
  else if scale < fraction.length then none
  else some (.followed (.word (signed negative whole))
    (paddedFraction fraction (scale - fraction.length)))

def decimalEnumPattern (values : List (List Char)) (scale : ℕ) : Option Pattern :=
  let patterns := values.filterMap (valuePattern scale)
  if patterns = [] then none else some (.cat [.start, .group (.alts patterns), .finish])

/-! ### What the pieces read -/

variable {n : Bool} {w f text : List Char}

theorem reads_nonzeroWhole (n : ℕ) : Reads (nonzeroWhole n).regex
    (runs (fun c => '1' ≤ c && c ≤ '9') {1} * runs isAsciiDigit (Set.Icc 0 n)) :=
  reads_seq reads_set (reads_between_set (Nat.zero_le n))

def wholesUpTo (digits : ℕ) : Language Char := {w | WholePart w ∧ wholeDigits w ≤ digits}

def nonzeroUpTo (digits : ℕ) : Language Char := {w | WholePart w ∧ w ≠ ['0'] ∧ w.length ≤ digits}

theorem nonzeroWhole_eq (n : ℕ) :
    runs (fun c => '1' ≤ c && c ≤ '9') {1} * runs isAsciiDigit (Set.Icc 0 n) =
      nonzeroUpTo (n + 1) := by
  ext w
  constructor
  · intro h
    obtain ⟨a, ha, b, ⟨hlength, hdigits⟩, rfl⟩ := Language.mem_mul.1 h
    have hmem : a ++ b ∈ runs (fun c => '1' ≤ c && c ≤ '9') {1} * runs isAsciiDigit Set.univ :=
      Language.append_mem_mul ha ⟨trivial, hdigits⟩
    obtain ⟨hhead, hall⟩ := mem_nonzero_digits.1 hmem
    obtain ⟨hone, -⟩ := mem_range.1 ha
    obtain ⟨c, rfl⟩ := List.length_eq_one_iff.1 hone
    rw [List.singleton_append, List.head?_cons, Option.any_some, bne_iff_ne] at hhead
    refine ⟨⟨List.all_eq_true.1 hall, .inr ⟨c, b, rfl, hhead⟩⟩, ?_, ?_⟩
    · intro heq
      exact hhead (List.cons.inj heq).1
    · rw [List.singleton_append, List.length_cons]
      exact Nat.succ_le_succ hlength.2
  · rintro ⟨hw, hne, hlength⟩
    obtain ⟨c, cs, rfl, hc⟩ := hw.lead.resolve_left hne
    have hmem : c :: cs ∈ runs (fun c => '1' ≤ c && c ≤ '9') {1} * runs isAsciiDigit Set.univ := by
      rw [mem_nonzero_digits, List.head?_cons, Option.any_some, bne_iff_ne]
      exact ⟨hc, List.all_eq_true.2 hw.digit⟩
    obtain ⟨a, ha, b, ⟨-, hdigits⟩, heq⟩ := Language.mem_mul.1 hmem
    have hlen := congrArg List.length heq
    have hone := (mem_range.1 ha).1
    rw [Set.mem_singleton_iff] at hone
    rw [List.length_append, List.length_cons, hone] at hlen
    rw [List.length_cons] at hlength
    rw [← heq]
    exact Language.append_mem_mul ha ⟨⟨Nat.zero_le _, by omega⟩, hdigits⟩

theorem reads_integerPart (digits : ℕ) :
    Reads (integerPart digits).regex (wholesUpTo digits) := by
  rw [integerPart]
  split
  · rename_i hzero
    have hlanguage : ({['0']} : Language Char) = wholesUpTo digits := by
      ext w
      constructor
      · rintro rfl
        exact ⟨.zero, Nat.zero_le _⟩
      · rintro ⟨hw, hdigits⟩
        by_contra hne
        have hne : w ≠ ['0'] := hne
        rw [wholeDigits, if_neg hne, hzero] at hdigits
        exact absurd hdigits (not_le.2 hw.length_pos)
    rw [← hlanguage]
    exact reads_lit '0'
  · rename_i hpos
    have hreads : Reads (Pattern.group (.alts [.char '0', nonzeroWhole (digits - 1)])).regex
        ({['0']} + nonzeroUpTo (digits - 1 + 1)) := by
      rw [← nonzeroWhole_eq]
      exact reads_alt (reads_lit '0') (reads_nonzeroWhole _)
    have hlanguage : {['0']} + nonzeroUpTo (digits - 1 + 1) = wholesUpTo digits := by
      ext w
      rw [Language.mem_add, Nat.sub_add_cancel (Nat.pos_of_ne_zero hpos)]
      constructor
      · rintro (rfl | ⟨hw, hne, hlength⟩)
        · exact ⟨.zero, Nat.zero_le _⟩
        · refine ⟨hw, ?_⟩
          rwa [wholeDigits, if_neg hne]
      · rintro ⟨hw, hdigits⟩
        by_cases hne : w = ['0']
        · exact .inl hne
        · rw [wholeDigits, if_neg hne] at hdigits
          exact .inr ⟨hw, hne, hdigits⟩
    rwa [hlanguage] at hreads

theorem reads_fractionPart (scale : ℕ) :
    Reads (fractionPart scale).regex (fractions isAsciiDigit (Set.Icc 1 scale)) := by
  have hzero : 0 ∉ Set.Icc 1 scale := by simp
  rw [fractionPart]
  split
  · rename_i hpos
    exact reads_fraction hzero (reads_between_set hpos)
  · rename_i hpos
    have hlanguage : (1 : Language Char) = fractions isAsciiDigit (Set.Icc 1 scale) := by
      ext t
      rw [Language.mem_one]
      constructor
      · rintro rfl
        exact ⟨[], .inl rfl, fun c hc => absurd hc List.not_mem_nil, rfl⟩
      · rintro ⟨f, hlength, -, rfl⟩
        obtain rfl | hlength := hlength
        · rfl
        · exact absurd (hlength.1.trans hlength.2) hpos
    rw [← hlanguage]
    exact reads_empty

/-- The fractions behind a zero that have a digit other than it. -/
def negativeFractions (scale : ℕ) : Language Char :=
  {x | ∃ f, f.length ∈ Set.Icc 1 scale ∧ (∀ c ∈ f, isAsciiDigit c = true) ∧
    (∃ c ∈ f, c ≠ '0') ∧ x = '0' :: '.' :: f}

theorem exists_nonzero_iff (hf : ∀ c ∈ f, isAsciiDigit c = true) :
    (∃ u ∈ runs isAsciiDigit Set.univ * runs (fun c => '1' ≤ c && c ≤ '9') {1}, u <+: f) ↔
      ∃ c ∈ f, c ≠ '0' := by
  constructor
  · rintro ⟨u, hu, hstarts⟩
    obtain ⟨a, -, b, hb, rfl⟩ := Language.mem_mul.1 hu
    obtain ⟨hone, hclass⟩ := mem_range.1 hb
    obtain ⟨c, rfl⟩ := List.length_eq_one_iff.1 hone
    refine ⟨c, hstarts.subset (by simp), ?_⟩
    rintro rfl
    exact absurd (hclass _ (List.mem_singleton_self _)).1 (by decide)
  · rintro ⟨c, hc, hne⟩
    obtain ⟨before, after, rfl⟩ := List.append_of_mem hc
    rw [List.forall_mem_append, List.forall_mem_cons] at hf
    have hbounds := digit_bounds hf.2.1
    have hnum : c.toNat ≠ 48 := fun h => hne (char_eq_of_toNat (d := '0') h)
    have hlow : '1'.toNat = 49 := rfl
    have hhigh : '9'.toNat = 57 := rfl
    have hclass : [c] ∈ runs (fun c => '1' ≤ c && c ≤ '9') {1} := by
      refine mem_range.2 ⟨rfl, fun d hd => ?_⟩
      rw [List.mem_singleton.1 hd]
      omega
    exact ⟨before ++ [c], Language.append_mem_mul ⟨trivial, hf.1⟩ hclass, after, by simp⟩

theorem ends_negativeFraction {scale : ℕ} (hpos : 0 < scale) :
    Ends (negativeFraction scale).regex (negativeFractions scale) := by
  have hends : Ends (negativeFraction scale).regex ({['0']} * ({['.']} *
      startingWith (runs isAsciiDigit (Set.Icc 1 scale))
        (runs isAsciiDigit Set.univ * runs (fun c => '1' ≤ c && c ≤ '9') {1}))) :=
    ends_seq (reads_lit '0') (ends_seq (reads_lit '.')
      (ends_ahead (reads_seq reads_star_set reads_set) (reads_between_set hpos).ends))
  have hlanguage : {['0']} * ({['.']} * startingWith (runs isAsciiDigit (Set.Icc 1 scale))
      (runs isAsciiDigit Set.univ * runs (fun c => '1' ≤ c && c ≤ '9') {1})) =
        negativeFractions scale := by
    ext x
    constructor
    · intro h
      obtain ⟨a, rfl, y, hy, rfl⟩ := Language.mem_mul.1 h
      obtain ⟨b, rfl, f, ⟨⟨hlength, hdigits⟩, hnonzero⟩, rfl⟩ := Language.mem_mul.1 hy
      exact ⟨f, hlength, hdigits, (exists_nonzero_iff hdigits).1 hnonzero, rfl⟩
    · rintro ⟨f, hlength, hdigits, hnonzero, rfl⟩
      exact Language.append_mem_mul (a := ['0']) rfl (Language.append_mem_mul (a := ['.']) rfl
        ⟨⟨hlength, hdigits⟩, (exists_nonzero_iff hdigits).2 hnonzero⟩)
  rwa [hlanguage] at hends

/-- The whole parts and fractions behind a minus sign. -/
def unsignedNonzero (digits scale : ℕ) : Language Char :=
  {x | ∃ w f, WholePart w ∧ wholeDigits w ≤ digits ∧ f.length ≤ scale ∧
    (∀ c ∈ f, isAsciiDigit c = true) ∧ (w = ['0'] → ∃ c ∈ f, c ≠ '0') ∧ x = w ++ pointed f}

theorem mem_wholeFraction {digits scale : ℕ} {x : List Char} :
    x ∈ nonzeroUpTo digits * fractions isAsciiDigit (Set.Icc 1 scale) ↔
      ∃ w f, WholePart w ∧ w ≠ ['0'] ∧ w.length ≤ digits ∧ f.length ≤ scale ∧
        (∀ c ∈ f, isAsciiDigit c = true) ∧ x = w ++ pointed f := by
  rw [Language.mem_mul]
  constructor
  · rintro ⟨w, ⟨hw, hne, hlength⟩, t, ⟨f, hf, hdigits, rfl⟩, rfl⟩
    refine ⟨w, f, hw, hne, hlength, ?_, hdigits, rfl⟩
    obtain rfl | hf := hf
    · exact Nat.zero_le _
    · exact hf.2
  · rintro ⟨w, f, hw, hne, hlength, hf, hdigits, rfl⟩
    refine ⟨w, ⟨hw, hne, hlength⟩, _, ⟨f, ?_, hdigits, rfl⟩, rfl⟩
    by_cases hnil : f = []
    · exact .inl hnil
    · exact .inr ⟨List.length_pos_iff.2 hnil, hf⟩

theorem mem_unsignedNonzero {digits scale : ℕ} {x : List Char} :
    x ∈ unsignedNonzero digits scale ↔
      (digits ≠ 0 ∧ x ∈ nonzeroUpTo digits * fractions isAsciiDigit (Set.Icc 1 scale)) ∨
        (0 < scale ∧ x ∈ negativeFractions scale) := by
  have hpointed : ∀ f : List Char, f ≠ [] → '0' :: '.' :: f = ['0'] ++ pointed f := by
    intro f hf
    rw [pointed, if_neg hf]
    rfl
  rw [mem_wholeFraction]
  constructor
  · rintro ⟨w, f, hw, hwhole, hf, hdigits, hnonzero, rfl⟩
    by_cases hw0 : w = ['0']
    · right
      obtain ⟨c, hc, hne⟩ := hnonzero hw0
      have hpos := List.length_pos_of_mem hc
      refine ⟨by omega, f, ⟨hpos, hf⟩, hdigits, ⟨c, hc, hne⟩, ?_⟩
      rw [hw0, hpointed f (List.ne_nil_of_mem hc)]
    · left
      rw [wholeDigits, if_neg hw0] at hwhole
      have hpos := hw.length_pos
      exact ⟨by omega, w, f, hw, hw0, hwhole, hf, hdigits, rfl⟩
  · rintro (⟨-, w, f, hw, hne, hlength, hf, hdigits, rfl⟩ | ⟨-, f, hlength, hdigits, hnonzero, rfl⟩)
    · refine ⟨w, f, hw, ?_, hf, hdigits, fun h => absurd h hne, rfl⟩
      rwa [wholeDigits, if_neg hne]
    · obtain ⟨c, hc, -⟩ := id hnonzero
      exact ⟨['0'], f, .zero, Nat.zero_le _, hlength.2, hdigits, fun _ => hnonzero,
        hpointed f (List.ne_nil_of_mem hc)⟩

theorem ends_negatives {digits scale : ℕ} (hroom : 0 < digits + scale) :
    Ends (Pattern.alts (negatives digits scale)).regex (unsignedNonzero digits scale) := by
  have hwhole : digits ≠ 0 →
      Ends (Pattern.followed (nonzeroWhole (digits - 1)) (fractionPart scale)).regex
        (nonzeroUpTo digits * fractions isAsciiDigit (Set.Icc 1 scale)) := by
    intro hdigits
    have hreads := reads_seq (reads_nonzeroWhole (digits - 1)) (reads_fractionPart scale)
    rw [nonzeroWhole_eq, Nat.sub_add_cancel (Nat.pos_of_ne_zero hdigits)] at hreads
    exact hreads.ends
  by_cases hdigits : digits = 0
  · have hpos : 0 < scale := by omega
    have hlanguage : negativeFractions scale = unsignedNonzero digits scale := by
      ext x
      rw [mem_unsignedNonzero, or_iff_right fun h => h.1 hdigits, and_iff_right hpos]
    rw [negatives, if_pos hdigits, if_pos hpos, ← hlanguage]
    exact ends_negativeFraction hpos
  · by_cases hpos : 0 < scale
    · have hlanguage : nonzeroUpTo digits * fractions isAsciiDigit (Set.Icc 1 scale) +
          negativeFractions scale = unsignedNonzero digits scale := by
        ext x
        rw [mem_unsignedNonzero, and_iff_right hdigits, and_iff_right hpos, Language.mem_add]
      rw [negatives, if_neg hdigits, if_pos hpos, ← hlanguage]
      exact ends_alt (hwhole hdigits) (ends_negativeFraction hpos)
    · have hlanguage : nonzeroUpTo digits * fractions isAsciiDigit (Set.Icc 1 scale) =
          unsignedNonzero digits scale := by
        ext x
        rw [mem_unsignedNonzero, and_iff_right hdigits, or_iff_left fun h => hpos h.1]
      rw [negatives, if_neg hdigits, if_neg hpos, ← hlanguage]
      exact hwhole hdigits

theorem found_policyPattern {digits scale : ℕ} (hroom : 0 < digits + scale) :
    Found (policyPattern digits scale).regex text ↔
      ∃ n w f, Spells n w f text ∧ wholeDigits w ≤ digits ∧ f.length ≤ scale := by
  have hpositive := (reads_seq (reads_integerPart digits) (reads_fractionPart scale)).ends
  have hnegative := ends_seq (reads_lit '-') (ends_negatives hroom)
  have hfound := Pattern.found_anchored (p := .group (.either
    (.followed (integerPart digits) (fractionPart scale))
    (.followed (.char '-') (.group (.alts (negatives digits scale))))))
    (ends_alt hpositive hnegative) text
  rw [policyPattern, hfound, Language.mem_add]
  constructor
  · rintro (h | h)
    · obtain ⟨w, ⟨hw, hwhole⟩, t, ⟨f, hf, hdigits, rfl⟩, rfl⟩ := Language.mem_mul.1 h
      refine ⟨false, w, f, ⟨hw, hdigits, fun h => absurd h Bool.false_ne_true, ?_⟩, hwhole, ?_⟩
      · rw [spellParts_pointed]
        rfl
      · obtain rfl | hf := hf
        · exact Nat.zero_le _
        · exact hf.2
    · obtain ⟨a, rfl, x, ⟨w, f, hw, hwhole, hf, hdigits, hnonzero, rfl⟩, rfl⟩ :=
        Language.mem_mul.1 h
      refine ⟨true, w, f, ⟨hw, hdigits, fun _ => hnonzero, ?_⟩, hwhole, hf⟩
      rw [spellParts_pointed]
      rfl
  · rintro ⟨n, w, f, h, hwhole, hf⟩
    rw [h.eq, spellParts_pointed]
    cases n with
    | false =>
      left
      refine Language.append_mem_mul ⟨h.whole, hwhole⟩ ⟨f, ?_, h.digits, rfl⟩
      by_cases hnil : f = []
      · exact .inl hnil
      · exact .inr ⟨List.length_pos_iff.2 hnil, hf⟩
    | true =>
      right
      exact Language.append_mem_mul (a := ['-']) rfl
        ⟨w, f, h.whole, hwhole, hf, h.digits, h.unsigned rfl, rfl⟩

theorem decimalSchema_found {precision scale : ℕ} (hprecision : 1 ≤ precision)
    (hscale : scale ≤ precision) :
    ∃ p, decimalSchema (some precision) (some scale) = some p ∧
      ∀ v, Found p.regex v ↔ DecimalWithinPolicy v precision scale := by
  have hdigits : ((precision : ℤ) - scale).toNat = precision - scale := by omega
  refine ⟨policyPattern (precision - scale) scale, ?_, fun v => ?_⟩
  · rw [decimalSchema]
    simp only [Option.bind_eq_bind, Option.bind_some]
    rw [if_neg (by omega), hdigits, Int.toNat_natCast]
  · rw [found_policyPattern (by omega), decimalWithinPolicy_spells hscale]
    constructor
    · rintro ⟨n, w, f, h, hwhole, hf⟩
      exact ⟨n, w, f, h, hwhole, hf⟩
    · rintro ⟨n, w, f, h, hfits⟩
      exact ⟨n, w, f, h, hfits.whole, hfits.fraction⟩

/-! ### The spellings of a listed value -/

theorem matchDecimal_spells (h : Spells n w f text) : matchDecimal text = some (n, w, f) := by
  have hshape := (shape_iff text f.length).2
    ⟨h.whole, h.digits, fun hmem => (mem_point h).1 hmem, le_rfl⟩
  obtain ⟨hsign, -, hcut⟩ := h.cut
  rw [matchDecimal, hcut]
  dsimp only
  rw [if_neg (by tauto), hsign]

theorem canonical_of_spells (h : Spells n w f text) : CanonicalParts n w (trimTrailing f) := by
  refine ⟨h.whole, trimTrailing_fraction h.digits, fun hn hw hnil => ?_⟩
  obtain ⟨zeros, heq⟩ := trimTrailing_eq f
  obtain ⟨c, hc, hne⟩ := h.unsigned hn hw
  rw [heq, hnil, List.nil_append] at hc
  exact hne (List.eq_of_mem_replicate hc)

theorem trimmed_value (h : Spells n w f text) :
    decimalOf text = partsValue n w (trimTrailing f) := by
  obtain ⟨zeros, heq⟩ := trimTrailing_eq f
  rw [h.value]
  conv_lhs => rw [heq]
  exact partsValue_trailing n zeros w _

theorem same_value_iff (h : Spells n w f text) (scale : ℕ) (v : List Char) :
    ((∃ n' w' f', Spells n' w' f' v ∧ f'.length ≤ scale) ∧ decimalOf v = decimalOf text) ↔
      ∃ zeros, (trimTrailing f).length + zeros ≤ scale ∧
        v = spellParts n w (trimTrailing f ++ List.replicate zeros '0') := by
  constructor
  · rintro ⟨⟨n', w', f', h', hlength⟩, hvalue⟩
    rw [trimmed_value h', trimmed_value h] at hvalue
    obtain ⟨rfl, rfl, htrim⟩ := (canonical_of_spells h').unique (canonical_of_spells h) hvalue
    obtain ⟨zeros, heq⟩ := trimTrailing_eq f'
    rw [htrim] at heq
    refine ⟨zeros, ?_, ?_⟩
    · rw [heq, List.length_append, List.length_replicate] at hlength
      exact hlength
    · rw [← heq]
      exact h'.eq
  · rintro ⟨zeros, hlength, rfl⟩
    have hspells : Spells n w (trimTrailing f ++ List.replicate zeros '0')
        (spellParts n w (trimTrailing f ++ List.replicate zeros '0')) := by
      refine ⟨h.whole, ?_, ?_, rfl⟩
      · intro c hc
        obtain hc | hc := List.mem_append.1 hc
        · exact (canonical_of_spells h).fraction.digit c hc
        · rw [List.eq_of_mem_replicate hc]
          decide
      · intro hn hw
        obtain ⟨c, hc, hne⟩ := h.unsigned hn hw
        obtain ⟨more, heq⟩ := trimTrailing_eq f
        rw [heq] at hc
        obtain hc | hc := List.mem_append.1 hc
        · exact ⟨c, List.mem_append_left _ hc, hne⟩
        · exact absurd (List.eq_of_mem_replicate hc) hne
    refine ⟨⟨n, w, _, hspells, ?_⟩, ?_⟩
    · rwa [List.length_append, List.length_replicate]
    · rw [hspells.value, trimmed_value h]
      exact partsValue_trailing n zeros w _

/-- A fraction and at most so many zeros, behind a point where there is anything. -/
def padded (fraction : List Char) (trailing : ℕ) : Language Char :=
  {t | ∃ zeros ≤ trailing, t = pointed (fraction ++ List.replicate zeros '0')}

theorem mem_zeros {lengths : Set ℕ} {x : List Char} :
    x ∈ runs (fun d => d == '0') lengths ↔ ∃ zeros ∈ lengths, x = List.replicate zeros '0' := by
  constructor
  · rintro ⟨hlength, hx⟩
    exact ⟨x.length, hlength, List.eq_replicate_iff.2 ⟨rfl, fun c hc => beq_iff_eq.1 (hx c hc)⟩⟩
  · rintro ⟨zeros, hlength, rfl⟩
    refine ⟨by rwa [List.length_replicate], fun c hc => ?_⟩
    rw [List.eq_of_mem_replicate hc]
    rfl

theorem reads_paddedFraction (fraction : List Char) (trailing : ℕ) :
    Reads (paddedFraction fraction trailing).regex (padded fraction trailing) := by
  rw [paddedFraction]
  by_cases hnil : fraction = []
  · rw [if_neg (not_not.2 hnil)]
    by_cases hpos : 0 < trailing
    · have hzero : 0 ∉ Set.Icc 1 trailing := by simp
      have hlanguage : fractions (fun d => d == '0') (Set.Icc 1 trailing) =
          padded fraction trailing := by
        ext t
        constructor
        · rintro ⟨f, hlength, hzeros, rfl⟩
          have heq : f = List.replicate f.length '0' :=
            List.eq_replicate_iff.2 ⟨rfl, fun c hc => beq_iff_eq.1 (hzeros c hc)⟩
          refine ⟨f.length, ?_, by rw [hnil, List.nil_append, ← heq]⟩
          obtain rfl | hlength := hlength
          · exact Nat.zero_le _
          · exact hlength.2
        · rintro ⟨zeros, hle, rfl⟩
          refine ⟨List.replicate zeros '0', ?_, ?_, by rw [hnil, List.nil_append]⟩
          · rw [List.length_replicate]
            obtain rfl | hz := Nat.eq_zero_or_pos zeros
            · exact .inl rfl
            · exact .inr ⟨hz, hle⟩
          · intro c hc
            rw [List.eq_of_mem_replicate hc]
            rfl
      rw [if_pos hpos, ← hlanguage]
      exact reads_fraction hzero (reads_between_set hpos)
    · have hlanguage : (1 : Language Char) = padded fraction trailing := by
        ext t
        rw [Language.mem_one]
        constructor
        · rintro rfl
          exact ⟨0, Nat.zero_le _, by rw [hnil]; rfl⟩
        · rintro ⟨zeros, hle, rfl⟩
          rw [hnil, Nat.le_zero.1 (hle.trans (not_lt.1 hpos))]
          rfl
      rw [if_neg hpos, ← hlanguage]
      exact reads_empty
  · have hlanguage : {['.']} * ({fraction} * runs (fun d => d == '0') (Set.Icc 0 trailing)) =
        padded fraction trailing := by
      have hpointed : ∀ zeros, pointed (fraction ++ List.replicate zeros '0') =
          ['.'] ++ (fraction ++ List.replicate zeros '0') := by
        intro zeros
        rw [pointed, if_neg fun h => hnil (List.append_eq_nil_iff.1 h).1]
        rfl
      ext t
      constructor
      · intro h
        obtain ⟨a, rfl, y, hy, rfl⟩ := Language.mem_mul.1 h
        obtain ⟨b, rfl, z, hz, rfl⟩ := Language.mem_mul.1 hy
        obtain ⟨zeros, hle, rfl⟩ := mem_zeros.1 hz
        exact ⟨zeros, hle.2, (hpointed zeros).symm⟩
      · rintro ⟨zeros, hle, rfl⟩
        rw [hpointed]
        exact Language.append_mem_mul rfl (Language.append_mem_mul rfl
          (mem_zeros.2 ⟨zeros, ⟨Nat.zero_le _, hle⟩, rfl⟩))
    rw [if_pos hnil, ← hlanguage]
    exact reads_seq (reads_lit '.') (reads_seq (Pattern.reads_word fraction)
      (reads_between_set (Nat.zero_le _)))

/-- The decimals of at most so many fraction digits. -/
def DecimalWithinScale (v : List Char) (scale : ℕ) : Prop :=
  ∃ n w f, Spells n w f v ∧ f.length ≤ scale

def spellingsWithin (scale : ℕ) (value : ℚ) : Language Char :=
  {v | DecimalWithinScale v scale ∧ decimalOf v = value}

theorem spellings_eq (h : Spells n w f text) {scale : ℕ}
    (hroom : (trimTrailing f).length ≤ scale) :
    {signed n w} * padded (trimTrailing f) (scale - (trimTrailing f).length) =
      spellingsWithin scale (decimalOf text) := by
  have hsigned : ∀ t, signed n w ++ t = signed n (w ++ t) := by
    intro t
    cases n <;> rfl
  ext v
  constructor
  · intro hv
    obtain ⟨a, rfl, t, ⟨zeros, hle, rfl⟩, rfl⟩ := Language.mem_mul.1 hv
    rw [hsigned, ← spellParts_pointed]
    exact (same_value_iff h scale _).2 ⟨zeros, by omega, rfl⟩
  · intro hv
    obtain ⟨zeros, hle, rfl⟩ := (same_value_iff h scale v).1 hv
    rw [spellParts_pointed, ← hsigned]
    exact Language.append_mem_mul rfl ⟨zeros, by omega, rfl⟩

theorem valuePattern_eq (h : Spells n w f text) (scale : ℕ) :
    valuePattern scale text = if scale < (trimTrailing f).length then none
      else some (.followed (.word (signed n w))
        (paddedFraction (trimTrailing f) (scale - (trimTrailing f).length))) := by
  have hsigned : ¬ (n = true ∧ w = ['0'] ∧ (trimTrailing f).length = 0) := fun hzero =>
    (canonical_of_spells h).unsigned hzero.1 hzero.2.1 (List.length_eq_zero_iff.1 hzero.2.2)
  rw [valuePattern, matchDecimal_spells h]
  simp only [Option.bind_eq_bind, Option.bind_some]
  rw [if_neg hsigned]

theorem spellings_of_none (h : Spells n w f text) {scale : ℕ}
    (hnone : valuePattern scale text = none) : spellingsWithin scale (decimalOf text) = 0 := by
  rw [valuePattern_eq h, ite_eq_left_iff] at hnone
  have hroom : scale < (trimTrailing f).length := by
    by_contra hroom
    exact absurd (hnone hroom) (Option.some_ne_none _)
  ext v
  constructor
  · intro hv
    obtain ⟨zeros, hle, -⟩ := (same_value_iff h scale v).1 hv
    omega
  · intro hv
    exact absurd hv (Language.notMem_zero v)

theorem reads_of_some (h : Spells n w f text) {scale : ℕ} {p : Pattern}
    (hsome : valuePattern scale text = some p) :
    Reads p.regex (spellingsWithin scale (decimalOf text)) := by
  rw [valuePattern_eq h] at hsome
  by_cases hroom : scale < (trimTrailing f).length
  · rw [if_pos hroom] at hsome
    exact absurd hsome.symm (Option.some_ne_none p)
  · rw [if_neg hroom, Option.some.injEq] at hsome
    rw [← hsome, ← spellings_eq h (not_lt.1 hroom)]
    exact reads_seq (Pattern.reads_word _) (reads_paddedFraction _ _)

variable {values : List (List Char)} {scale : ℕ}

theorem anyOf_values (scale : ℕ) (hvalues : ∀ u ∈ values, IsCanonicalDecimal u) (v : List Char) :
    v ∈ Pattern.anyOf (values.filterMap (valuePattern scale)) ↔
      DecimalWithinScale v scale ∧ ∃ u ∈ values, decimalOf v = decimalOf u := by
  rw [Pattern.mem_anyOf]
  constructor
  · rintro ⟨p, hp, hv⟩
    obtain ⟨u, hu, hsome⟩ := List.mem_filterMap.1 hp
    obtain ⟨n, w, f, h⟩ := isCanonicalDecimal_spells.1 (hvalues u hu)
    rw [(reads_of_some h hsome).language_eq] at hv
    exact ⟨hv.1, u, hu, hv.2⟩
  · rintro ⟨hv, u, hu, heq⟩
    obtain ⟨n, w, f, h⟩ := isCanonicalDecimal_spells.1 (hvalues u hu)
    have hmem : v ∈ spellingsWithin scale (decimalOf u) := ⟨hv, heq⟩
    cases hpattern : valuePattern scale u with
    | none =>
      rw [spellings_of_none h hpattern] at hmem
      exact absurd hmem (Language.notMem_zero v)
    | some p =>
      refine ⟨p, List.mem_filterMap.2 ⟨u, hu, hpattern⟩, ?_⟩
      rwa [(reads_of_some h hpattern).language_eq]

/-- The patterns of a list: without any, no decimal of the scale has a listed value; else they
are found in the decimals of the scale that have one. -/
theorem decimalEnumPattern_found (scale : ℕ)
    (hvalues : ∀ u ∈ values, IsCanonicalDecimal u) :
    (decimalEnumPattern values scale = none →
      ∀ v, DecimalWithinScale v scale → ∀ u ∈ values, decimalOf v ≠ decimalOf u) ∧
    (∀ p, decimalEnumPattern values scale = some p → ∀ v, Found p.regex v ↔
      DecimalWithinScale v scale ∧ ∃ u ∈ values, decimalOf v = decimalOf u) := by
  have hany := anyOf_values scale hvalues
  have hreads : ∀ p ∈ values.filterMap (valuePattern scale), ∃ L, Ends p.regex L := by
    intro p hp
    obtain ⟨u, hu, hsome⟩ := List.mem_filterMap.1 hp
    obtain ⟨n, w, f, h⟩ := isCanonicalDecimal_spells.1 (hvalues u hu)
    exact ⟨_, (reads_of_some h hsome).ends⟩
  rw [decimalEnumPattern]
  by_cases hnil : values.filterMap (valuePattern scale) = []
  · rw [if_pos hnil]
    refine ⟨fun _ v hv u hu heq => ?_, fun p hp => absurd hp.symm (Option.some_ne_none p)⟩
    obtain ⟨p, hp, -⟩ := (hany v).2 ⟨hv, u, hu, heq⟩
    rw [hnil] at hp
    exact absurd hp List.not_mem_nil
  · rw [if_neg hnil]
    refine ⟨fun hnone => absurd hnone (Option.some_ne_none _), fun p hp v => ?_⟩
    rw [Option.some.injEq] at hp
    rw [← hp, ← hany v]
    exact Pattern.found_anchored (p := .group (.alts _)) (Pattern.ends_alts hnil hreads) v

theorem admitted_of_value {precision : ℕ} (hscale : scale ≤ precision) {u v : List Char}
    (hu : DecimalWithinPolicy u precision scale) (hv : DecimalWithinScale v scale)
    (heq : decimalOf v = decimalOf u) : DecimalWithinPolicy v precision scale := by
  obtain ⟨n, w, f, h, hfits⟩ := (decimalWithinPolicy_spells hscale).1 hu
  obtain ⟨n', w', f', h', hlength⟩ := hv
  rw [trimmed_value h', trimmed_value h] at heq
  obtain ⟨rfl, rfl, -⟩ := (canonical_of_spells h').unique (canonical_of_spells h) heq
  exact (decimalWithinPolicy_spells hscale).2 ⟨n', w', f', h', hfits.whole, hlength⟩

theorem withinScale_of_admitted {precision : ℕ} (hscale : scale ≤ precision) {v : List Char}
    (hv : DecimalWithinPolicy v precision scale) : DecimalWithinScale v scale := by
  obtain ⟨n, w, f, h, hfits⟩ := (decimalWithinPolicy_spells hscale).1 hv
  exact ⟨n, w, f, h, hfits.fraction⟩

/-- The two patterns of a policy: the policy's own decides as the other backends do, and that of a
list of admitted values reads their admitted spellings. -/
structure PatternsDecide (precision scale : ℕ) : Prop where
  policy : ∃ p, decimalSchema (some precision) (some scale) = some p ∧ ∀ v,
    (Found p.regex v ↔ DecimalWithinPolicy v precision scale) ∧
    (Found p.regex v ↔ (decimalNormalize v precision scale).isSome = true)
  listed : ∀ values, values ≠ [] → (∀ u ∈ values, DecimalWithinPolicy u precision scale) →
    ∃ p, decimalEnumPattern values scale = some p ∧ ∀ v, Found p.regex v ↔
      DecimalWithinPolicy v precision scale ∧ ∃ u ∈ values, decimalOf v = decimalOf u
  canonical : ∀ values, (∀ u ∈ values, IsCanonicalDecimal u) →
    (decimalEnumPattern values scale = none →
      ∀ v, DecimalWithinScale v scale → ∀ u ∈ values, decimalOf v ≠ decimalOf u) ∧
    (∀ p, decimalEnumPattern values scale = some p → ∀ v, Found p.regex v ↔
      DecimalWithinScale v scale ∧ ∃ u ∈ values, decimalOf v = decimalOf u)

theorem listed_found {precision : ℕ} (hscale : scale ≤ precision) (hne : values ≠ [])
    (hvalues : ∀ u ∈ values, DecimalWithinPolicy u precision scale) :
    ∃ p, decimalEnumPattern values scale = some p ∧ ∀ v, Found p.regex v ↔
      DecimalWithinPolicy v precision scale ∧ ∃ u ∈ values, decimalOf v = decimalOf u := by
  have hcanonical : ∀ u ∈ values, IsCanonicalDecimal u := by
    intro u hu
    obtain ⟨n, w, f, h, -⟩ := (decimalWithinPolicy_spells hscale).1 (hvalues u hu)
    exact isCanonicalDecimal_spells.2 ⟨n, w, f, h⟩
  obtain ⟨hnone, hsome⟩ := decimalEnumPattern_found scale hcanonical
  cases hpattern : decimalEnumPattern values scale with
  | none =>
    obtain ⟨u, hu⟩ := List.exists_mem_of_ne_nil values hne
    exact absurd rfl (hnone hpattern u (withinScale_of_admitted hscale (hvalues u hu)) u hu)
  | some p =>
    refine ⟨p, rfl, fun v => ?_⟩
    rw [hsome p hpattern v]
    constructor
    · rintro ⟨hv, u, hu, heq⟩
      exact ⟨admitted_of_value hscale (hvalues u hu) hv heq, u, hu, heq⟩
    · rintro ⟨hv, hlisted⟩
      exact ⟨withinScale_of_admitted hscale hv, hlisted⟩

theorem decimalPatterns_decide (precision scale : ℕ) (hprecision : 1 ≤ precision)
    (hscale : scale ≤ precision) : PatternsDecide precision scale := by
  refine ⟨?_, fun values => listed_found hscale, fun values => decimalEnumPattern_found scale⟩
  obtain ⟨p, hp, hfound⟩ := decimalSchema_found hprecision hscale
  refine ⟨p, hp, fun v => ⟨hfound v, ?_⟩⟩
  rw [hfound v]
  exact (decimalNormalize_accepts hscale v).symm

theorem decimalPatterns_decide_money : PatternsDecide 5 2 :=
  decimalPatterns_decide 5 2 (by decide) (by decide)

/-- Behind a policy of one digit the pattern of a list still reads a value of three. -/
theorem decimalEnumPattern_beyond : IsCanonicalDecimal "100".toList ∧
    ∃ p, decimalEnumPattern ["100".toList] 0 = some p ∧ p.text = "^(?:100)$".toList ∧
      Found p.regex "100".toList ∧ ¬ DecimalWithinPolicy "100".toList 1 0 := by
  have hwithin := (decimalNormalize_accepts (Nat.zero_le 3) "100".toList).1 (by decide)
  have hvalues : ∀ u ∈ ["100".toList], IsCanonicalDecimal u := by
    intro u hu
    rw [List.mem_singleton.1 hu]
    exact hwithin.1
  have hfound := (decimalEnumPattern_found 0 hvalues).2 _ (by rfl) "100".toList
  refine ⟨hwithin.1, _, by rfl, by rfl, ?_, ?_⟩
  · exact hfound.2 ⟨withinScale_of_admitted (Nat.zero_le 3) hwithin, _,
      List.mem_singleton_self _, rfl⟩
  · intro hone
    have hrust := (decimalNormalize_accepts (Nat.zero_le 1) "100".toList).2 hone
    exact absurd hrust (by decide)

end FilamentCore.Backends.DecimalPatterns
