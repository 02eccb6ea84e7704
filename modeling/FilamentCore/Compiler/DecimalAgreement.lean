import FilamentCore.SemanticIr.DecimalText

/-!
# Canonical decimals (crates/semantic-ir/src/rules.rs and src/compiler/ir/reader.mjs)

The scanner `is_canonical_decimal` and the pattern of `decimalAdmitted` beside each other, and
what a decimal policy admits.
-/

namespace FilamentCore.Compiler

open FilamentCore.SemanticIr

/-! ### The pattern -/

def oneOf (cs : List Char) : RegularExpression Char :=
  (cs.map RegularExpression.char).foldr (· + ·) 0

/-- `P?`. -/
def optional (P : RegularExpression Char) : RegularExpression Char := 1 + P

def anyDigit : RegularExpression Char := oneOf "0123456789".toList

def nonzeroDigit : RegularExpression Char := oneOf "123456789".toList

/-- `\.[0-9]*[1-9]`. -/
def fractionPattern : RegularExpression Char :=
  RegularExpression.char '.' * (anyDigit.star * nonzeroDigit)

/-- `^(0|-?(0\.[0-9]*[1-9]|[1-9][0-9]*(\.[0-9]*[1-9])?))$`. -/
def decimalPattern : RegularExpression Char :=
  RegularExpression.char '0' + optional (RegularExpression.char '-') *
    (RegularExpression.char '0' * fractionPattern +
      nonzeroDigit * (anyDigit.star * optional fractionPattern))

/-- `decimal: {precision, scale}`, as the schema admits it. -/
structure DecimalPolicy where
  precision : ℕ
  scale : ℕ
  precision_pos : 1 ≤ precision
  precision_le : precision ≤ 38
  scale_le : scale ≤ precision

def decimalAdmitted (value : Json) (policy : Option DecimalPolicy) : Bool :=
  match value.asStr, policy with
  | some text, some policy =>
    let (whole, fraction) := cutPoint (stripMinus text.toList)
    let integerDigits := if whole = ['0'] then 0 else whole.length
    decimalPattern.rmatch text.toList &&
      decide (integerDigits ≤ policy.precision - policy.scale) &&
      decide (fraction.length ≤ policy.scale)
  | _, _ => false

theorem mem_char {c : Char} {x : List Char} :
    x ∈ (RegularExpression.char c).matches' ↔ x = [c] := Iff.rfl

theorem mem_oneOf {cs x : List Char} : x ∈ (oneOf cs).matches' ↔ ∃ c ∈ cs, x = [c] := by
  induction cs with
  | nil => simp [oneOf, Language.notMem_zero]
  | cons c cs ih =>
    have hcons : oneOf (c :: cs) = RegularExpression.char c + oneOf cs := rfl
    rw [hcons, RegularExpression.matches'_add, Language.mem_add, ih, mem_char]
    simp

theorem mem_star_oneOf {cs x : List Char} : x ∈ (oneOf cs).star.matches' ↔ ∀ c ∈ x, c ∈ cs := by
  rw [RegularExpression.matches'_star, Language.mem_kstar]
  constructor
  · rintro ⟨words, rfl, hwords⟩ c hc
    obtain ⟨word, hm, hc⟩ := List.mem_flatten.1 hc
    obtain ⟨d, hd, rfl⟩ := mem_oneOf.1 (hwords word hm)
    rwa [List.mem_singleton.1 hc]
  · intro h
    refine ⟨x.map fun c => [c], ?_, fun word hm => ?_⟩
    · simp [List.flatten_eq_flatMap, List.flatMap_map]
    · obtain ⟨c, hc, rfl⟩ := List.mem_map.1 hm
      exact mem_oneOf.2 ⟨c, h c hc, rfl⟩

theorem mem_digits {c : Char} : c ∈ "0123456789".toList ↔ isAsciiDigit c = true := by
  constructor
  · intro h
    have hall : "0123456789".toList.all isAsciiDigit = true := by decide
    exact List.all_eq_true.1 hall c h
  · intro h
    obtain ⟨hl, hu⟩ := digit_bounds h
    have hc : c = Char.ofNat c.toNat := (Char.ofNat_toNat c).symm
    generalize c.toNat = k at hc hl hu
    subst hc
    interval_cases k <;> decide

theorem mem_nonzero {c : Char} :
    c ∈ "123456789".toList ↔ isAsciiDigit c = true ∧ c ≠ '0' := by
  have hlist : "0123456789".toList = '0' :: "123456789".toList := by decide
  rw [← mem_digits, hlist, List.mem_cons]
  constructor
  · intro h
    refine ⟨.inr h, ?_⟩
    rintro rfl
    have hnot : "123456789".toList.contains '0' = false := by decide
    rw [List.contains_iff_mem.2 h] at hnot
    cases hnot
  · rintro ⟨h, hne⟩
    exact h.resolve_left hne

theorem mem_fraction {x : List Char} :
    x ∈ fractionPattern.matches' ↔ ∃ f, x = '.' :: f ∧ f ≠ [] ∧ FractionPart f := by
  simp only [fractionPattern, RegularExpression.matches'_mul, Language.mem_mul, mem_char, anyDigit, nonzeroDigit,
    mem_star_oneOf, mem_oneOf, mem_digits, mem_nonzero]
  constructor
  · rintro ⟨_, rfl, _, ⟨front, hfront, _, ⟨d, ⟨hd, hne⟩, rfl⟩, rfl⟩, rfl⟩
    refine ⟨front ++ [d], rfl, by simp, ⟨fun c hc => ?_, by simpa using hne⟩⟩
    rcases List.mem_append.1 hc with hc | hc
    · exact hfront c hc
    · rwa [List.mem_singleton.1 hc]
  · rintro ⟨f, rfl, hne, hf⟩
    obtain ⟨front, d, rfl⟩ := List.eq_nil_or_concat f |>.resolve_left hne
    rw [List.concat_eq_append] at hf ⊢
    refine ⟨['.'], rfl, front ++ [d], ⟨front, fun c hc => hf.digit c (by simp [hc]), [d],
      ⟨d, ⟨hf.digit d (by simp), ?_⟩, rfl⟩, rfl⟩, rfl⟩
    rintro rfl
    exact hf.last (by simp)

theorem mem_optional {P : RegularExpression Char} {x : List Char} :
    x ∈ (optional P).matches' ↔ x = [] ∨ x ∈ P.matches' := by
  rw [optional, RegularExpression.matches'_add, Language.mem_add, RegularExpression.matches'_epsilon,
    Language.mem_one]

theorem decimalPattern_iff {cs : List Char} : decimalPattern.rmatch cs = true ↔
    ∃ n w f, CanonicalParts n w f ∧ cs = spellParts n w f := by
  have hlead : ∀ x, x ∈ nonzeroDigit.matches' ↔ ∃ c, (isAsciiDigit c = true ∧ c ≠ '0') ∧ x = [c] := by
    intro x
    simp only [nonzeroDigit, mem_oneOf, mem_nonzero]
  have hrest : ∀ x, x ∈ anyDigit.star.matches' ↔ ∀ c ∈ x, isAsciiDigit c = true := by
    intro x
    simp only [anyDigit, mem_star_oneOf, mem_digits]
  rw [RegularExpression.rmatch_iff_matches', decimalPattern, RegularExpression.matches'_add,
    Language.mem_add, mem_char, RegularExpression.matches'_mul, Language.mem_mul]
  simp only [mem_optional, mem_char, RegularExpression.matches'_add, Language.mem_add,
    RegularExpression.matches'_mul, Language.mem_mul, mem_fraction, hlead, hrest]
  constructor
  · rintro (rfl | ⟨a, ha, b, hb, rfl⟩)
    · exact ⟨false, ['0'], [], ⟨.zero, .nil, by simp⟩, rfl⟩
    · obtain ⟨n, hn⟩ : ∃ n, ∀ x, a ++ x = signed n x := by
        rcases ha with rfl | rfl
        · exact ⟨false, fun _ => rfl⟩
        · exact ⟨true, fun _ => rfl⟩
      rw [hn]
      rcases hb with ⟨_, rfl, _, ⟨f, rfl, hne, hf⟩, rfl⟩ |
        ⟨_, ⟨c, ⟨hc, hc0⟩, rfl⟩, _, ⟨ds, hds, t, ht, rfl⟩, rfl⟩
      · exact ⟨n, ['0'], f, ⟨.zero, hf, fun _ _ => hne⟩, (spellParts_point n _ hne).symm⟩
      · have hw : WholePart (c :: ds) := by
          refine ⟨fun d hd => ?_, .inr ⟨c, ds, rfl, hc0⟩⟩
          rcases List.mem_cons.1 hd with rfl | hd
          · exact hc
          · exact hds d hd
        rcases ht with rfl | ⟨f, rfl, hne, hf⟩
        · refine ⟨n, c :: ds, [], ⟨hw, .nil, fun _ heq => ?_⟩, ?_⟩
          · cases heq
            exact absurd rfl hc0
          · rw [spellParts_whole, List.append_nil]
            rfl
        · refine ⟨n, c :: ds, f, ⟨hw, hf, fun _ _ => hne⟩, ?_⟩
          rw [spellParts_point n _ hne]
          rfl
  · rintro ⟨n, w, f, h, rfl⟩
    have hsign : ∃ a, (a = [] ∨ a = ['-']) ∧ ∀ x, signed n x = a ++ x := by
      cases n with
      | false => exact ⟨[], .inl rfl, fun _ => rfl⟩
      | true => exact ⟨['-'], .inr rfl, fun _ => rfl⟩
    obtain ⟨a, ha, hn⟩ := hsign
    by_cases hf : f = []
    · subst hf
      rw [spellParts_whole]
      rcases h.whole.lead with rfl | ⟨c, cs, rfl, hc⟩
      · left
        cases n with
        | false => rfl
        | true => exact absurd rfl (h.unsigned rfl rfl)
      · right
        rw [hn]
        refine ⟨a, ha, _, .inr ⟨[c], ⟨c, ⟨h.whole.digit c (List.mem_cons_self ..), hc⟩, rfl⟩, _,
          ⟨cs, fun d hd => h.whole.digit d (List.mem_cons_of_mem _ hd), [], .inl rfl, rfl⟩, rfl⟩, ?_⟩
        rw [List.append_nil]
        rfl
    · right
      rw [spellParts_point n w hf, hn]
      rcases h.whole.lead with rfl | ⟨c, cs, rfl, hc⟩
      · exact ⟨a, ha, _, .inl ⟨_, rfl, _, ⟨f, rfl, hf, h.fraction⟩, rfl⟩, rfl⟩
      · exact ⟨a, ha, _, .inr ⟨[c], ⟨c, ⟨h.whole.digit c (List.mem_cons_self ..), hc⟩, rfl⟩, _,
          ⟨cs, fun d hd => h.whole.digit d (List.mem_cons_of_mem _ hd), _,
            .inr ⟨f, rfl, hf, h.fraction⟩, rfl⟩, rfl⟩, rfl⟩

/-! ### The scanner -/

/-- A whole part followed by a point and nothing else. -/
def LonePoint (text : String) : Prop :=
  ∃ n w, WholePart w ∧ text.toList = signed n (w ++ ['.'])

theorem wholePart_iff {w : List Char} :
    (!(w.isEmpty || !w.all isAsciiDigit || (1 < w.length && w.head? == some '0'))) = true ↔
      WholePart w := by
  rw [Bool.not_eq_true', Bool.or_eq_false_iff, Bool.or_eq_false_iff, Bool.not_eq_false',
    List.all_eq_true]
  constructor
  · rintro ⟨⟨hne, hdigit⟩, hlead⟩
    refine ⟨hdigit, ?_⟩
    cases w with
    | nil => cases hne
    | cons c cs =>
      by_cases hc : c = '0'
      · left
        have hshort : cs = [] := by
          cases cs with
          | nil => rfl
          | cons d ds => simp [hc] at hlead
        rw [hc, hshort]
      · exact .inr ⟨c, cs, rfl, hc⟩
  · intro h
    refine ⟨⟨?_, h.digit⟩, ?_⟩
    · rcases h.lead with rfl | ⟨c, cs, rfl, -⟩ <;> rfl
    · rcases h.lead with rfl | ⟨c, cs, rfl, hc⟩
      · rfl
      · simp [hc]

theorem fractionPart_iff {f : List Char} :
    (f.isEmpty || (f.all isAsciiDigit && f.getLast? != some '0')) = true ↔ FractionPart f := by
  rw [Bool.or_eq_true, Bool.and_eq_true, List.all_eq_true, bne_iff_ne]
  constructor
  · rintro (h | ⟨hdigit, hlast⟩)
    · rw [List.isEmpty_iff.1 h]
      exact .nil
    · exact ⟨hdigit, hlast⟩
  · exact fun h => .inr ⟨h.digit, h.last⟩

theorem read_parts {n : Bool} {w : List Char} (hw : WholePart w) {f t : List Char}
    (ht : t = [] ∧ f = [] ∨ t = '.' :: f) :
    ((signed n (w ++ t)).head? == some '-') = n ∧ stripMinus (signed n (w ++ t)) = w ++ t ∧
      cutPoint (stripMinus (signed n (w ++ t))) = (w, f) := by
  obtain ⟨hstrip, hsign⟩ := @stripMinus_signed n (w ++ t) (hw.head_ne_minus t)
  refine ⟨hsign, hstrip, ?_⟩
  have hpoint := point_not_digit hw.digit
  rw [hstrip]
  rcases ht with ⟨rfl, rfl⟩ | rfl
  · rw [List.append_nil]
    exact cutPoint_plain hpoint
  · exact cutPoint_point hpoint f

theorem spellParts_eq (n : Bool) (w f : List Char) :
    ∃ t, spellParts n w f = signed n (w ++ t) ∧ (t = [] ∧ f = [] ∨ t = '.' :: f ∧ f ≠ []) := by
  by_cases hf : f = []
  · subst hf
    exact ⟨[], by rw [spellParts_whole, List.append_nil], .inl ⟨rfl, rfl⟩⟩
  · exact ⟨'.' :: f, spellParts_point n w hf, .inr ⟨rfl, hf⟩⟩

theorem isCanonicalDecimal_iff (text : String) : isCanonicalDecimal text = true ↔
    (∃ n w f, CanonicalParts n w f ∧ text.toList = spellParts n w f) ∨ LonePoint text := by
  have hscan : ∀ n w f t, text.toList = signed n (w ++ t) → WholePart w → FractionPart f →
      (t = [] ∧ f = [] ∨ t = '.' :: f) → (n = true → w ++ t ≠ ['0']) →
      isCanonicalDecimal text = true := by
    intro n w f t htext hw hf ht hzero
    obtain ⟨hsign, hstrip, hcut⟩ := @read_parts n w hw f t ht
    have hunsigned : (!(n && (w ++ t) == ['0'])) = true := by
      cases n with
      | false => rfl
      | true =>
        have hne := hzero rfl
        simpa using hne
    rw [isCanonicalDecimal, htext, hsign, hcut, hstrip]
    simp only [hunsigned, wholePart_iff.2 hw, fractionPart_iff.2 hf, Bool.and_self]
  constructor
  · intro h
    rw [isCanonicalDecimal] at h
    have htext := signed_stripMinus text.toList
    generalize (text.toList.head? == some '-') = n at h htext
    generalize stripMinus text.toList = unsigned at h htext
    rcases cutPoint_cases unsigned with ⟨-, hcut⟩ | ⟨w, f, rfl, -, hcut⟩
    · rw [hcut] at h
      simp only [Bool.and_eq_true] at h
      obtain ⟨⟨hzero, hw⟩, -⟩ := h
      refine .inl ⟨n, unsigned, [], ⟨wholePart_iff.1 hw, .nil, fun hn hu => ?_⟩, htext.symm⟩
      rw [hn, hu] at hzero
      cases hzero
    · rw [hcut] at h
      simp only [Bool.and_eq_true] at h
      obtain ⟨⟨-, hw⟩, hf⟩ := h
      by_cases hne : f = []
      · subst hne
        exact .inr ⟨n, w, wholePart_iff.1 hw, htext.symm⟩
      · refine .inl ⟨n, w, f, ⟨wholePart_iff.1 hw, fractionPart_iff.1 hf, fun _ _ => hne⟩, ?_⟩
        rw [spellParts_point n w hne, htext]
  · rintro (⟨n, w, f, h, htext⟩ | ⟨n, w, hw, htext⟩)
    · obtain ⟨t, heq, ht⟩ := spellParts_eq n w f
      refine hscan n w f t (htext.trans heq) h.whole h.fraction (ht.imp_right And.left)
        fun hn hzero => ?_
      rcases ht with ⟨rfl, rfl⟩ | ⟨rfl, -⟩
      · rw [List.append_nil] at hzero
        exact h.unsigned hn hzero rfl
      · have hlength := congrArg List.length hzero
        have hpos := h.whole.length_pos
        simp at hlength
        omega
    · refine hscan n w [] ['.'] htext hw .nil (.inr rfl) fun _ hzero => ?_
      have hlength := congrArg List.length hzero
      have hpos := hw.length_pos
      simp only [List.length_append, List.length_cons, List.length_nil] at hlength
      omega

theorem LonePoint.not_matched {text : String} (h : LonePoint text) :
    decimalPattern.rmatch text.toList = false := by
  rw [Bool.eq_false_iff, ne_eq, decimalPattern_iff]
  rintro ⟨n', w', f', h', htext'⟩
  obtain ⟨n, w, hw, htext⟩ := h
  obtain ⟨t, heq, ht⟩ := spellParts_eq n' w' f'
  obtain ⟨-, hstrip, hcut⟩ := @read_parts n w hw [] ['.'] (.inr rfl)
  obtain ⟨-, hstrip', hcut'⟩ := @read_parts n' w' h'.whole f' t (ht.imp_right And.left)
  rw [← htext, htext', heq] at hstrip hcut
  rw [hcut', Prod.mk.injEq] at hcut
  rw [hstrip', hcut.1] at hstrip
  rcases ht with ⟨rfl, -⟩ | ⟨-, hne⟩
  · have hlength := congrArg List.length hstrip
    simp at hlength
  · exact hne hcut.2

/-! ### Values and policies -/

def decimalOf (cs : List Char) : ℚ :=
  partsValue (cs.head? == some '-') (cutPoint (stripMinus cs)).1 (cutPoint (stripMinus cs)).2

def Denotes (policy : DecimalPolicy) (q : ℚ) : Prop :=
  (∃ z : ℤ, q * 10 ^ policy.scale = z) ∧ |q| < 10 ^ (policy.precision - policy.scale)

/-- A run of digits too long for the cast, whose count then fits the policy. -/
def Wraps (text : String) (policy : DecimalPolicy) : Prop :=
  decimalPattern.rmatch text.toList = true ∧
    let (w, f) := cutPoint (stripMinus text.toList)
    (2 ^ 32 ≤ w.length ∨ 2 ^ 32 ≤ f.length) ∧
      (if w = ['0'] then 0 else w.length % 2 ^ 32) ≤ policy.precision - policy.scale ∧
        f.length % 2 ^ 32 ≤ policy.scale

/-- The scanner takes what the pattern matches, and the policy check admits what the policy
denotes. -/
def MeetsPattern (text : String) (policy : DecimalPolicy) : Prop :=
  (isCanonicalDecimal text = true ↔ decimalPattern.rmatch text.toList = true) ∧
    (isCanonicalDecimal text = true →
      (decimalWithinPolicy text (policy.precision, policy.scale) = true ↔
        Denotes policy (decimalOf text.toList)))

theorem decimalOf_spellParts {n : Bool} {w f : List Char} (hw : WholePart w) :
    decimalOf (spellParts n w f) = partsValue n w f := by
  obtain ⟨t, heq, ht⟩ := spellParts_eq n w f
  obtain ⟨hsign, -, hcut⟩ := @read_parts n w hw f t (ht.imp_right And.left)
  rw [decimalOf, heq, hsign, hcut]

theorem existsUnique_spelling {q : ℚ} {k : ℕ} {z : ℤ} (h : q * 10 ^ k = z) :
    ∃! text : String, decimalPattern.rmatch text.toList = true ∧ decimalOf text.toList = q := by
  obtain ⟨n, w, f, hparts, hvalue⟩ := exists_canonicalParts h
  refine ⟨String.ofList (spellParts n w f), ⟨?_, ?_⟩, ?_⟩
  · rw [String.toList_ofList]
    exact decimalPattern_iff.2 ⟨n, w, f, hparts, rfl⟩
  · rw [String.toList_ofList, decimalOf_spellParts hparts.whole, hvalue]
  · rintro text ⟨hmatch, hq⟩
    obtain ⟨n', w', f', hparts', htext⟩ := decimalPattern_iff.1 hmatch
    rw [htext, decimalOf_spellParts hparts'.whole, ← hvalue] at hq
    obtain ⟨rfl, rfl, rfl⟩ := hparts'.unique hparts hq
    rw [← htext, String.ofList_toList]

theorem fits_iff (policy : DecimalPolicy) {n : Bool} {w f : List Char} (hw : WholePart w)
    (hf : FractionPart f) : Denotes policy (partsValue n w f) ↔
      wholeDigits w ≤ policy.precision - policy.scale ∧ f.length ≤ policy.scale := by
  rw [Denotes, partsValue_integer hf, partsValue_abs_lt hw hf.digit, and_comm]

theorem decimalAdmitted_iff (text : String) (policy : DecimalPolicy) :
    decimalAdmitted (.str text) (some policy) = true ↔
      decimalPattern.rmatch text.toList = true ∧ Denotes policy (decimalOf text.toList) := by
  simp only [decimalAdmitted, Json.asStr, Bool.and_eq_true, decide_eq_true_eq, and_assoc]
  refine and_congr_right fun hmatch => ?_
  obtain ⟨n, w, f, hparts, htext⟩ := decimalPattern_iff.1 hmatch
  obtain ⟨t, heq, ht⟩ := spellParts_eq n w f
  obtain ⟨-, -, hcut⟩ := @read_parts n w hparts.whole f t (ht.imp_right And.left)
  rw [htext, decimalOf_spellParts hparts.whole, fits_iff policy hparts.whole hparts.fraction, heq,
    hcut]
  rfl

theorem decimalWithinPolicy_iff {text : String} {n : Bool} {w f t : List Char} (hw : WholePart w)
    (htext : text.toList = signed n (w ++ t)) (ht : t = [] ∧ f = [] ∨ t = '.' :: f)
    (haccepted : isCanonicalDecimal text = true) (policy : DecimalPolicy) :
    decimalWithinPolicy text (policy.precision, policy.scale) = true ↔
      (if w = ['0'] then 0 else w.length % 2 ^ 32) ≤ policy.precision - policy.scale ∧
        f.length % 2 ^ 32 ≤ policy.scale := by
  obtain ⟨-, -, hcut⟩ := @read_parts n w hw f t ht
  rw [decimalWithinPolicy, htext, hcut]
  simp only [haccepted, Bool.true_and, Bool.and_eq_true, decide_eq_true_eq]

theorem meetsPattern_iff (text : String) (policy : DecimalPolicy) :
    MeetsPattern text policy ↔ ¬ LonePoint text ∧ ¬ Wraps text policy := by
  have hscale := policy.scale_le
  have hprecision := policy.precision_le
  constructor
  · rintro ⟨haccept, hwithin⟩
    refine ⟨fun hlone => ?_, fun hwraps => ?_⟩
    · have hmatch := haccept.1 ((isCanonicalDecimal_iff text).2 (.inr hlone))
      rw [hlone.not_matched] at hmatch
      cases hmatch
    · obtain ⟨hmatch, hwraps⟩ := hwraps
      have htrue := haccept.2 hmatch
      obtain ⟨n, w, f, hparts, htext⟩ := decimalPattern_iff.1 hmatch
      obtain ⟨t, heq, ht⟩ := spellParts_eq n w f
      have ht := ht.imp_right And.left
      obtain ⟨-, -, hcut⟩ := @read_parts n w hparts.whole f t ht
      have hfits := hwithin htrue
      rw [decimalWithinPolicy_iff hparts.whole (htext.trans heq) ht htrue, htext,
        decimalOf_spellParts hparts.whole, fits_iff policy hparts.whole hparts.fraction] at hfits
      rw [htext, heq, hcut] at hwraps
      obtain ⟨hlong, hcount⟩ := hwraps
      obtain ⟨hwhole, hfraction⟩ := hfits.1 hcount
      rcases hlong with hlong | hlong
      · rw [wholeDigits, if_neg] at hwhole
        · omega
        · rintro rfl
          simp at hlong
      · omega
  · rintro ⟨hlone, hwraps⟩
    refine ⟨?_, fun htrue => ?_⟩
    · rw [isCanonicalDecimal_iff, decimalPattern_iff, or_iff_left hlone]
    · obtain ⟨n, w, f, hparts, htext⟩ := ((isCanonicalDecimal_iff text).1 htrue).resolve_right hlone
      obtain ⟨t, heq, ht⟩ := spellParts_eq n w f
      have ht := ht.imp_right And.left
      obtain ⟨-, -, hcut⟩ := @read_parts n w hparts.whole f t ht
      rw [decimalWithinPolicy_iff hparts.whole (htext.trans heq) ht htrue, htext,
        decimalOf_spellParts hparts.whole, fits_iff policy hparts.whole hparts.fraction]
      rw [Wraps, not_and, decimalPattern_iff] at hwraps
      have hcount := hwraps ⟨n, w, f, hparts, htext⟩
      rw [htext, heq, hcut, not_and] at hcount
      by_cases hlong : 2 ^ 32 ≤ w.length ∨ 2 ^ 32 ≤ f.length
      · have hnot := hcount hlong
        refine iff_of_false hnot fun ⟨hwhole, hfraction⟩ => ?_
        rcases hlong with hlong | hlong
        · rw [wholeDigits, if_neg] at hwhole
          · omega
          · rintro rfl
            simp at hlong
        · omega
      · rw [not_or, not_le, not_le] at hlong
        rw [Nat.mod_eq_of_lt hlong.1, Nat.mod_eq_of_lt hlong.2]
        rfl

/-- The pattern matches exactly one spelling of each finite decimal, and with it the compiler
admits what a policy denotes. The scanner and its policy check do the same unless the text ends in
a lone point, or is too long for the cast. -/
theorem canonicalDecimals (text : String) (policy : DecimalPolicy) :
    (∀ (q : ℚ) (k : ℕ) (z : ℤ), q * 10 ^ k = z →
      ∃! text : String, decimalPattern.rmatch text.toList = true ∧ decimalOf text.toList = q) ∧
    (decimalPattern.rmatch text.toList = true →
      ∃ (k : ℕ) (z : ℤ), decimalOf text.toList * 10 ^ k = z) ∧
    (decimalAdmitted (.str text) (some policy) = true ↔
      decimalPattern.rmatch text.toList = true ∧ Denotes policy (decimalOf text.toList)) ∧
    (MeetsPattern text policy ↔ ¬ LonePoint text ∧ ¬ Wraps text policy) := by
  refine ⟨fun q k z h => existsUnique_spelling h, fun hmatch => ?_, decimalAdmitted_iff text policy,
    meetsPattern_iff text policy⟩
  obtain ⟨n, w, f, hparts, htext⟩ := decimalPattern_iff.1 hmatch
  rw [htext, decimalOf_spellParts hparts.whole]
  exact ⟨f.length, (partsValue_integer hparts.fraction f.length).2 le_rfl⟩

def widePolicy : DecimalPolicy := ⟨38, 9, by decide, by decide, by decide⟩

/-- The half has one spelling. -/
theorem canonicalDecimals_half :
    ∃! text : String, decimalPattern.rmatch text.toList = true ∧ decimalOf text.toList = 1 / 2 :=
  (canonicalDecimals "0.5" widePolicy).1 (1 / 2) 1 5 (by norm_num)

/-- `1.` is accepted beside `1`, and the pattern refuses it. -/
theorem isCanonicalDecimal_lonePoint :
    isCanonicalDecimal "1." = true ∧ decimalPattern.rmatch "1.".toList = false ∧
      decimalAdmitted (.str "1.") (some widePolicy) = false ∧ isCanonicalDecimal "1" = true ∧
        decimalOf "1.".toList = decimalOf "1".toList := by
  refine ⟨by decide +kernel, by decide +kernel, by decide +kernel, by decide +kernel, ?_⟩
  have hone : cutPoint (stripMinus "1.".toList) = (['1'], []) := by decide +kernel
  have hplain : cutPoint (stripMinus "1".toList) = (['1'], []) := by decide +kernel
  rw [decimalOf, decimalOf, hone, hplain]
  rfl

end FilamentCore.Compiler
