import FilamentCore.Backends.IntegerPatterns
import FilamentCore.Compiler.DecimalAgreement

/-!
# Decimal instances

What the generated TypeScript validators (src/compiler/backends/typescript-v1/validators.mjs) and
the generated Rust package (src/compiler/backends/rust-serde/support-template.rs) make of a decimal:
which texts a policy admits, the text they are normalised to and the order of two.
-/

namespace FilamentCore.Backends.DecimalInstances
open FilamentCore.Library FilamentCore.Library.Regex
open FilamentCore.SemanticIr FilamentCore.Compiler
open IntegerPatterns (mem_range isAsciiDigit_iff mem_nonzero_digits)

/-! ### The TypeScript validators -/

/-- `(0|[1-9][0-9]*)`. -/
def wholePattern : Pattern :=
  .group (.alts [.char '0', .followed (.range '1' '9') (.many (.range '0' '9'))])

/-- `-?(0|[1-9][0-9]*)(\.[0-9]+)?`. -/
def spellingPattern : Pattern :=
  .followed (.optional (.char '-')) (.followed wholePattern
    (.optional (.group (.followed (.char '.') (.some (.range '0' '9'))))))

/-- `-0(?:\.0+)?`. -/
def negativeZeroPattern : Pattern :=
  .followed (.char '-') (.followed (.char '0')
    (.optional (.group (.followed (.char '.') (.some (.char '0'))))))

def IsCanonicalDecimal (value : List Char) : Prop :=
  Found (Pattern.cat [.start, spellingPattern, .finish]).regex value ∧
    ¬ Found (Pattern.cat [.start, negativeZeroPattern, .finish]).regex value

/-- `const [whole, fraction = ""] = unsigned.split(".")`. -/
def splitParts (unsigned : List Char) : List Char × List Char :=
  let parts := splitOn '.' unsigned
  (parts.getD 0 [], parts.getD 1 [])

def DecimalWithinPolicy (value : List Char) (precision scale : ℕ) : Prop :=
  let (whole, fraction) := splitParts (stripMinus value)
  let integerDigits : ℤ := if whole = ['0'] then 0 else whole.length
  IsCanonicalDecimal value ∧ integerDigits ≤ (precision : ℤ) - scale ∧ fraction.length ≤ scale

/-- The coefficient of a canonical decimal and its scale. -/
def parseDecimal (value : List Char) : ℤ × ℕ :=
  let (whole, fraction) := splitParts (stripMinus value)
  let coefficient : ℤ := decimalValue (whole ++ if fraction = [] then ['0'] else fraction)
  (if value.head? = some '-' then -coefficient else coefficient, fraction.length)

def compareDecimal (left right : List Char) : Ordering :=
  let a := parseDecimal left
  let b := parseDecimal right
  let scale := max a.2 b.2
  cmp (a.1 * 10 ^ (scale - a.2)) (b.1 * 10 ^ (scale - b.2))

/-! ### The Rust package -/

def decimalNormalize (value : List Char) (precision scale : ℕ) : Option (List Char) :=
  let negative := value.head? == some '-'
  let unsigned := stripMinus value
  if unsigned = [] ∨ unsigned.head? = some '+' then none
  else
    let (whole, fraction) := cutPoint unsigned
    if whole = [] ∨ ¬ whole.all isAsciiDigit ∨ ¬ fraction.all isAsciiDigit ∨
        (1 < whole.length ∧ whole.head? = some '0') ∨ ('.' ∈ value ∧ fraction = []) ∨
          scale < fraction.length then none
    else if negative ∧ whole = ['0'] ∧ (fraction = [] ∨ fraction.all (· == '0')) then none
    else if precision - scale < (if whole = ['0'] then 0 else whole.length) then none
    else
      let tail := if 0 < scale then
        '.' :: (fraction ++ List.replicate (scale - fraction.length) '0') else []
      some ((if negative then ['-'] else []) ++ whole ++ tail)

/-- `checked_mul` of two `i128` that are not negative. -/
def checkedMul (a b : ℕ) : Option ℕ := if a * b < 2 ^ 127 then some (a * b) else none

def checkedPow (exponent : ℕ) : Option ℕ :=
  if 10 ^ exponent < 2 ^ 127 then some (10 ^ exponent) else none

/-- `parts(value)`: the length of the fraction is cast to `u32`. -/
def cmpParts (value : List Char) : Option (Bool × ℕ × ℕ) :=
  if value = [] ∨ value = ['-', '0'] ∨ value.head? = some '+' then none
  else
    let (whole, fraction) := cutPoint (stripMinus value)
    if whole = [] ∨ ¬ whole.all isAsciiDigit ∨ ¬ fraction.all isAsciiDigit ∨
        (1 < whole.length ∧ whole.head? = some '0') then none
    else
      let coefficient := decimalValue (whole ++ fraction)
      if coefficient < 2 ^ 127 then
        some (value.head? == some '-', coefficient, fraction.length % 2 ^ 32)
      else none

def decimalCmp (left right : List Char) : Option Ordering := do
  let (leftNegative, leftCoefficient, leftScale) ← cmpParts left
  let (rightNegative, rightCoefficient, rightScale) ← cmpParts right
  let scale := max leftScale rightScale
  let left ← checkedMul leftCoefficient (← checkedPow (scale - leftScale))
  let right ← checkedMul rightCoefficient (← checkedPow (scale - rightScale))
  let left : ℤ := if leftNegative then -left else left
  let right : ℤ := if rightNegative then -right else right
  return cmp left right

/-! ### Spellings -/

variable {n : Bool} {w f text : List Char}

/-- The parts of an instance: a fraction may end in zeros, and zero has no sign. -/
structure Spells (n : Bool) (w f text : List Char) : Prop where
  whole : WholePart w
  digits : ∀ c ∈ f, isAsciiDigit c = true
  unsigned : n = true → w = ['0'] → ∃ c ∈ f, c ≠ '0'
  eq : text = spellParts n w f

def wholes : Language Char := {w | WholePart w}

theorem reads_whole : Reads wholePattern.regex wholes := by
  have hreads : Reads wholePattern.regex ({['0']} +
      runs (fun c => '1' ≤ c && c ≤ '9') {1} * runs isAsciiDigit Set.univ) :=
    reads_alt (reads_lit '0') (reads_seq reads_set reads_star_set)
  have hlanguage : ({['0']} : Language Char) +
      runs (fun c => '1' ≤ c && c ≤ '9') {1} * runs isAsciiDigit Set.univ = wholes := by
    ext w
    rw [Language.mem_add, mem_nonzero_digits]
    constructor
    · rintro (rfl | ⟨hhead, hall⟩)
      · exact WholePart.zero
      · cases w with
        | nil => cases hhead
        | cons c cs =>
          rw [List.head?_cons, Option.any_some, bne_iff_ne] at hhead
          exact ⟨List.all_eq_true.1 hall, .inr ⟨c, cs, rfl, hhead⟩⟩
    · intro hw
      obtain rfl | ⟨c, cs, rfl, hc⟩ := id hw.lead
      · exact .inl rfl
      · right
        rw [List.head?_cons, Option.any_some, bne_iff_ne]
        exact ⟨hc, List.all_eq_true.2 hw.digit⟩
  rwa [hlanguage] at hreads

def pointed (f : List Char) : List Char := if f = [] then [] else '.' :: f

theorem spellParts_pointed : spellParts n w f = signed n (w ++ pointed f) := by
  rw [pointed]
  split
  · rename_i hf
    rw [hf, spellParts_whole, List.append_nil]
  · rename_i hf
    exact spellParts_point n w hf

theorem pointed_cases (f : List Char) : pointed f = [] ∧ f = [] ∨ pointed f = '.' :: f := by
  rw [pointed]
  split
  · rename_i hf
    exact .inl ⟨rfl, hf⟩
  · exact .inr rfl

def fractions (member : Char → Bool) (lengths : Set ℕ) : Language Char :=
  {t | ∃ f, (f = [] ∨ f.length ∈ lengths) ∧ (∀ c ∈ f, member c = true) ∧ t = pointed f}

theorem reads_fraction {r : Regex Char} {member : Char → Bool} {lengths : Set ℕ}
    (hzero : 0 ∉ lengths) (h : Reads r (runs member lengths)) :
    Reads (opt (.seq (lit '.') r)) (fractions member lengths) := by
  have hreads : Reads (opt (.seq (lit '.') r)) ({['.']} * runs member lengths + 1) :=
    reads_alt (reads_seq (reads_lit '.') h) reads_empty
  have hlanguage : {['.']} * runs member lengths + 1 = fractions member lengths := by
    ext t
    rw [Language.mem_add, Language.mem_mul, Language.mem_one]
    constructor
    · rintro (⟨a, rfl, f, ⟨hlength, hdigits⟩, rfl⟩ | rfl)
      · have hne : f ≠ [] := by
          rintro rfl
          exact hzero hlength
        refine ⟨f, .inr hlength, hdigits, ?_⟩
        rw [pointed, if_neg hne]
        rfl
      · exact ⟨[], .inl rfl, fun c hc => absurd hc List.not_mem_nil, rfl⟩
    · rintro ⟨f, hlength, hdigits, rfl⟩
      obtain ⟨hpointed, -⟩ | hpointed := pointed_cases f
      · exact .inr hpointed
      · rw [hpointed]
        left
        obtain rfl | hlength := hlength
        · cases hpointed
        · exact ⟨['.'], rfl, f, ⟨hlength, hdigits⟩, rfl⟩
  rwa [hlanguage] at hreads

theorem mem_signed {L : Language Char} {x : List Char} :
    x ∈ ({['-']} + 1) * L ↔ ∃ n, ∃ y ∈ L, x = signed n y := by
  rw [Language.mem_mul]
  constructor
  · rintro ⟨a, ha | ha, y, hy, rfl⟩
    · rw [show a = ['-'] from ha]
      exact ⟨true, y, hy, rfl⟩
    · rw [(Language.mem_one a).1 ha]
      exact ⟨false, y, hy, rfl⟩
  · rintro ⟨n, y, hy, rfl⟩
    cases n with
    | true => exact ⟨['-'], .inl rfl, y, hy, rfl⟩
    | false => exact ⟨[], .inr rfl, y, hy, rfl⟩

theorem found_spelling : Found (Pattern.cat [.start, spellingPattern, .finish]).regex text ↔
    ∃ n w f, WholePart w ∧ (∀ c ∈ f, isAsciiDigit c = true) ∧ text = spellParts n w f := by
  have hzero : 0 ∉ Set.Ici 1 := by simp
  have hreads : Reads spellingPattern.regex (({['-']} + 1) *
      (wholes * fractions isAsciiDigit (Set.Ici 1))) :=
    reads_seq (reads_alt (reads_lit '-') reads_empty)
      (reads_seq reads_whole (reads_fraction hzero reads_plus_set))
  rw [Pattern.found_anchored hreads.ends, mem_signed]
  constructor
  · rintro ⟨n, y, hy, rfl⟩
    obtain ⟨w, hw, t, ⟨f, -, hdigits, rfl⟩, rfl⟩ := Language.mem_mul.1 hy
    exact ⟨n, w, f, hw, hdigits, spellParts_pointed.symm⟩
  · rintro ⟨n, w, f, hw, hdigits, rfl⟩
    refine ⟨n, w ++ pointed f, Language.append_mem_mul hw ⟨f, ?_, hdigits, rfl⟩,
      spellParts_pointed⟩
    by_cases hf : f = []
    · exact .inl hf
    · exact .inr (List.length_pos_iff.2 hf)

theorem found_negativeZero : Found (Pattern.cat [.start, negativeZeroPattern, .finish]).regex text ↔
    ∃ f, (∀ c ∈ f, c = '0') ∧ text = spellParts true ['0'] f := by
  have hzero : 0 ∉ Set.Ici 1 := by simp
  have hreads : Reads negativeZeroPattern.regex
      ({['-']} * ({['0']} * fractions (fun c => c == '0') (Set.Ici 1))) :=
    reads_seq (reads_lit '-') (reads_seq (reads_lit '0') (reads_fraction hzero reads_plus_set))
  rw [Pattern.found_anchored hreads.ends]
  constructor
  · intro h
    obtain ⟨a, rfl, y, hy, rfl⟩ := Language.mem_mul.1 h
    obtain ⟨b, rfl, t, ⟨f, -, hzeros, rfl⟩, rfl⟩ := Language.mem_mul.1 hy
    refine ⟨f, fun c hc => beq_iff_eq.1 (hzeros c hc), ?_⟩
    rw [spellParts_pointed]
    rfl
  · rintro ⟨f, hzeros, rfl⟩
    rw [spellParts_pointed]
    refine Language.append_mem_mul (a := ['-']) rfl (Language.append_mem_mul (a := ['0']) rfl
      ⟨f, ?_, fun c hc => beq_iff_eq.2 (hzeros c hc), rfl⟩)
    by_cases hf : f = []
    · exact .inl hf
    · exact .inr (List.length_pos_iff.2 hf)

/-! ### The parts of a text -/

theorem parts_of_spellParts (hw : WholePart w) :
    ((spellParts n w f).head? == some '-') = n ∧ stripMinus (spellParts n w f) = w ++ pointed f ∧
      cutPoint (stripMinus (spellParts n w f)) = (w, f) := by
  rw [spellParts_pointed]
  refine read_parts hw ?_
  obtain ⟨hpointed, hf⟩ | hpointed := pointed_cases f
  · exact .inl ⟨hpointed, hf⟩
  · exact .inr hpointed

theorem spellParts_inj {n' : Bool} {w' f' : List Char} (hw : WholePart w) (hw' : WholePart w')
    (h : spellParts n w f = spellParts n' w' f') : n = n' ∧ w = w' ∧ f = f' := by
  obtain ⟨hn, -, hcut⟩ := parts_of_spellParts (n := n) (f := f) hw
  obtain ⟨hn', -, hcut'⟩ := parts_of_spellParts (n := n') (f := f') hw'
  rw [h, hn'] at hn
  rw [h, hcut'] at hcut
  exact ⟨hn.symm, (congrArg Prod.fst hcut).symm, (congrArg Prod.snd hcut).symm⟩

theorem Spells.cut (h : Spells n w f text) : (text.head? == some '-') = n ∧
    stripMinus text = w ++ pointed f ∧ cutPoint (stripMinus text) = (w, f) := by
  rw [h.eq]
  exact parts_of_spellParts h.whole

theorem splitOn_plain {cs : List Char} (h : '.' ∉ cs) : splitOn '.' cs = [cs] := by
  induction cs with
  | nil => rfl
  | cons c cs ih =>
    rw [List.mem_cons, not_or] at h
    rw [splitOn, if_neg (Ne.symm h.1), ih h.2]

theorem splitOn_point {cs : List Char} (h : '.' ∉ cs) {ds : List Char} (hd : '.' ∉ ds) :
    splitOn '.' (cs ++ '.' :: ds) = [cs, ds] := by
  induction cs with
  | nil =>
    rw [List.nil_append, splitOn, if_pos rfl, splitOn_plain hd]
  | cons c cs ih =>
    rw [List.mem_cons, not_or] at h
    rw [List.cons_append, splitOn, if_neg (Ne.symm h.1), ih h.2]

theorem Spells.split (h : Spells n w f text) : splitParts (stripMinus text) = (w, f) := by
  have hw := point_not_digit h.whole.digit
  have hf := point_not_digit h.digits
  rw [h.cut.2.1]
  obtain ⟨hpointed, rfl⟩ | hpointed := pointed_cases f
  · rw [hpointed, List.append_nil, splitParts, splitOn_plain hw]
    rfl
  · rw [hpointed, splitParts, splitOn_point hw hf]
    rfl

theorem isCanonicalDecimal_spells : IsCanonicalDecimal text ↔ ∃ n w f, Spells n w f text := by
  rw [IsCanonicalDecimal, found_spelling, found_negativeZero]
  constructor
  · rintro ⟨⟨n, w, f, hw, hdigits, rfl⟩, hzero⟩
    refine ⟨n, w, f, hw, hdigits, ?_, rfl⟩
    rintro rfl rfl
    by_contra hnone
    refine hzero ⟨f, fun c hc => ?_, rfl⟩
    by_contra hne
    exact hnone ⟨c, hc, hne⟩
  · rintro ⟨n, w, f, h⟩
    refine ⟨⟨n, w, f, h.whole, h.digits, h.eq⟩, ?_⟩
    rintro ⟨f', hzeros, heq⟩
    obtain ⟨rfl, rfl, rfl⟩ := spellParts_inj h.whole WholePart.zero (h.eq.symm.trans heq)
    obtain ⟨c, hc, hne⟩ := h.unsigned rfl rfl
    exact hne (hzeros c hc)

/-- What a policy counts. -/
structure Fits (precision scale : ℕ) (w f : List Char) : Prop where
  whole : wholeDigits w ≤ precision - scale
  fraction : f.length ≤ scale

theorem decimalWithinPolicy_spells {precision scale : ℕ} (hscale : scale ≤ precision) :
    DecimalWithinPolicy text precision scale ↔
      ∃ n w f, Spells n w f text ∧ Fits precision scale w f := by
  have hcount : ∀ w f : List Char, ((if w = ['0'] then 0 else (w.length : ℤ)) ≤
      (precision : ℤ) - scale ∧ f.length ≤ scale) ↔ Fits precision scale w f := by
    intro w f
    have hwhole : (if w = ['0'] then 0 else (w.length : ℤ)) = wholeDigits w := by
      rw [wholeDigits]
      split <;> rfl
    rw [hwhole]
    exact ⟨fun h => ⟨by omega, h.2⟩, fun h => ⟨by have := h.whole; omega, h.fraction⟩⟩
  rw [DecimalWithinPolicy]
  constructor
  · rintro ⟨hcanonical, hwhole, hfraction⟩
    obtain ⟨n, w, f, h⟩ := isCanonicalDecimal_spells.1 hcanonical
    have hsplit := h.split
    rw [splitParts, Prod.mk.injEq] at hsplit
    rw [hsplit.1] at hwhole
    rw [hsplit.2] at hfraction
    exact ⟨n, w, f, h, (hcount w f).1 ⟨hwhole, hfraction⟩⟩
  · rintro ⟨n, w, f, h, hfits⟩
    obtain ⟨hwhole, hfraction⟩ := (hcount w f).2 hfits
    have hsplit := h.split
    rw [splitParts, Prod.mk.injEq] at hsplit
    refine ⟨isCanonicalDecimal_spells.2 ⟨n, w, f, h⟩, ?_, ?_⟩
    · rw [hsplit.1]
      exact hwhole
    · rw [hsplit.2]
      exact hfraction

/-! ### Normalisation -/

def filled (scale : ℕ) (f : List Char) : List Char := f ++ List.replicate (scale - f.length) '0'

theorem length_filled {scale : ℕ} (h : f.length ≤ scale) : (filled scale f).length = scale := by
  rw [filled, List.length_append, List.length_replicate]
  omega

theorem Spells.filled (h : Spells n w f text) (scale : ℕ) :
    Spells n w (filled scale f) (spellParts n w (filled scale f)) := by
  refine ⟨h.whole, ?_, ?_, rfl⟩
  · intro c hc
    obtain hc | hc := List.mem_append.1 hc
    · exact h.digits c hc
    · rw [List.eq_of_mem_replicate hc]
      decide
  · intro hn hw
    obtain ⟨c, hc, hne⟩ := h.unsigned hn hw
    exact ⟨c, List.mem_append_left _ hc, hne⟩

theorem shape_iff (text : List Char) (scale : ℕ) : (¬ (w = [] ∨ ¬ w.all isAsciiDigit = true ∨
    ¬ f.all isAsciiDigit = true ∨ (1 < w.length ∧ w.head? = some '0') ∨ ('.' ∈ text ∧ f = []) ∨
      scale < f.length)) ↔ WholePart w ∧ (∀ c ∈ f, isAsciiDigit c = true) ∧
        ('.' ∈ text → f ≠ []) ∧ f.length ≤ scale := by
  rw [← wholePart_iff, ← List.all_eq_true, Bool.not_eq_true', Bool.or_eq_false_iff,
    Bool.or_eq_false_iff, Bool.not_eq_false', ← Bool.not_eq_true, ← Bool.not_eq_true,
    Bool.and_eq_true, List.isEmpty_iff, decide_eq_true_eq, beq_iff_eq, ← not_lt]
  tauto

theorem tail_eq {scale : ℕ} (h : f.length ≤ scale) :
    (if 0 < scale then '.' :: (f ++ List.replicate (scale - f.length) '0') else []) =
      pointed (filled scale f) := by
  have hlength := length_filled h
  by_cases hpos : 0 < scale
  · have hne : filled scale f ≠ [] := by
      intro hnil
      rw [hnil, List.length_nil] at hlength
      omega
    rw [if_pos hpos, pointed, if_neg hne]
    rfl
  · have hnil : filled scale f = [] := List.length_eq_zero_iff.1 (by omega)
    rw [if_neg hpos, hnil]
    rfl

/-- What is normalised: a canonical decimal that fits, filled up to the scale. -/
theorem decimalNormalize_iff {precision scale : ℕ} {out : List Char} :
    decimalNormalize text precision scale = some out ↔
      ∃ n w f, Spells n w f text ∧ Fits precision scale w f ∧
        out = spellParts n w (filled scale f) := by
  have hequation : ∀ w f, cutPoint (stripMinus text) = (w, f) →
      (decimalNormalize text precision scale = some out ↔
        ¬ (stripMinus text = [] ∨ (stripMinus text).head? = some '+') ∧
        (WholePart w ∧ (∀ c ∈ f, isAsciiDigit c = true) ∧ ('.' ∈ text → f ≠ []) ∧
          f.length ≤ scale) ∧
        ¬ ((text.head? == some '-') = true ∧ w = ['0'] ∧
          (f = [] ∨ f.all (· == '0') = true)) ∧
        wholeDigits w ≤ precision - scale ∧
        out = spellParts (text.head? == some '-') w (filled scale f)) := by
    intro w f hcut
    rw [decimalNormalize, hcut]
    dsimp only
    rw [← shape_iff text scale]
    by_cases hempty : stripMinus text = [] ∨ (stripMinus text).head? = some '+'
    · rw [if_pos hempty]
      simp [hempty]
    rw [if_neg hempty, and_iff_right hempty]
    split
    · rename_i hshape
      exact iff_of_false (Option.some_ne_none _).symm fun h => h.1 hshape
    rename_i hshape
    rw [and_iff_right hshape]
    split
    · rename_i hzero
      exact iff_of_false (Option.some_ne_none _).symm fun h => h.1 hzero
    rename_i hzero
    rw [and_iff_right hzero, ← not_lt]
    have hlength := ((shape_iff text scale).1 hshape).2.2.2
    rw [tail_eq hlength, spellParts_pointed, List.append_assoc]
    have hsign : ∀ (n : Bool) (y : List Char),
        (if n = true then ['-'] else []) ++ y = signed n y := by
      intro n y
      cases n <;> rfl
    rw [hsign]
    change (if precision - scale < wholeDigits w then none else _) = _ ↔ _
    split
    · rename_i hwide
      exact iff_of_false (Option.some_ne_none _).symm fun h => h.1 hwide
    · rename_i hwide
      rw [Option.some.injEq, and_iff_right hwide]
      exact eq_comm
  constructor
  · intro h
    generalize hcut : cutPoint (stripMinus text) = parts
    obtain ⟨w, f⟩ := parts
    obtain ⟨-, ⟨hw, hf, hpoint, hlength⟩, hzero, hwide, rfl⟩ := (hequation w f hcut).1 h
    have hstrip : stripMinus text = w ++ pointed f := by
      obtain ⟨-, hplain⟩ | ⟨w', f', hsplit, -, hsome⟩ := cutPoint_cases (stripMinus text)
      · rw [hplain, Prod.mk.injEq] at hcut
        rw [hcut.1, ← hcut.2]
        exact (List.append_nil w).symm
      · rw [hsome, Prod.mk.injEq] at hcut
        obtain ⟨rfl, rfl⟩ := hcut
        have hmem : '.' ∈ text := by
          rw [← signed_stripMinus text, hsplit]
          cases (text.head? == some '-') <;> simp [signed]
        rw [pointed, if_neg (hpoint hmem), hsplit]
    refine ⟨_, w, f, ⟨hw, hf, ?_, ?_⟩, ⟨hwide, hlength⟩, rfl⟩
    · intro hn hw0
      by_contra hnone
      refine hzero ⟨hn, hw0, .inr (List.all_eq_true.2 fun c hc => beq_iff_eq.2 ?_)⟩
      by_contra hne
      exact hnone ⟨c, hc, hne⟩
    · rw [spellParts_pointed, ← hstrip, signed_stripMinus]
  · rintro ⟨n, w, f, h, hfits, rfl⟩
    obtain ⟨hsign, hstrip, hcut⟩ := h.cut
    refine (hequation w f hcut).2 ⟨?_, ⟨h.whole, h.digits, ?_, hfits.fraction⟩, ?_, hfits.whole, ?_⟩
    · rw [hstrip]
      obtain ⟨c, cs, hcons⟩ := List.exists_cons_of_length_pos h.whole.length_pos
      have hc := h.whole.digit c (by rw [hcons]; exact List.mem_cons_self ..)
      rw [hcons]
      rintro (hnil | hplus)
      · cases hnil
      · rw [List.cons_append, List.head?_cons, Option.some.injEq] at hplus
        rw [hplus] at hc
        cases hc
    · rintro hpoint rfl
      have hno := point_not_digit h.whole.digit
      rw [h.eq, spellParts_whole] at hpoint
      cases n with
      | true =>
        obtain hminus | hmem := List.mem_cons.1 hpoint
        · cases hminus
        · exact hno hmem
      | false => exact hno hpoint
    · rintro ⟨hn, hw, hf⟩
      rw [hsign] at hn
      obtain ⟨c, hc, hne⟩ := h.unsigned hn hw
      obtain rfl | hzeros := hf
      · exact absurd hc List.not_mem_nil
      · exact hne (beq_iff_eq.1 (List.all_eq_true.1 hzeros c hc))
    · rw [hsign]

theorem decimalNormalize_accepts {precision scale : ℕ} (hscale : scale ≤ precision)
    (text : List Char) : (decimalNormalize text precision scale).isSome = true ↔
      DecimalWithinPolicy text precision scale := by
  rw [decimalWithinPolicy_spells hscale, Option.isSome_iff_exists]
  simp only [decimalNormalize_iff]
  constructor
  · rintro ⟨out, n, w, f, h, hfits, -⟩
    exact ⟨n, w, f, h, hfits⟩
  · rintro ⟨n, w, f, h, hfits⟩
    exact ⟨_, n, w, f, h, hfits, rfl⟩

theorem Spells.value (h : Spells n w f text) : decimalOf text = partsValue n w f := by
  rw [h.eq]
  exact decimalOf_spellParts h.whole

theorem zeros_of_decimalValue (hf : ∀ c ∈ f, isAsciiDigit c = true) (h : decimalValue f = 0) :
    ∀ c ∈ f, c = '0' := by
  have hzeros : ∀ c ∈ List.replicate f.length '0', isAsciiDigit c = true := by
    intro c hc
    rw [List.eq_of_mem_replicate hc]
    decide
  have heq : f = List.replicate f.length '0' :=
    decimalValue_injective hf hzeros (List.length_replicate ..).symm
      (h.trans (decimalValue_replicate _).symm)
  intro c hc
  rw [heq] at hc
  exact List.eq_of_mem_replicate hc

theorem Spells.pos (h : Spells n w f text) (hn : n = true) : 0 < decimalValue (w ++ f) := by
  rw [Nat.pos_iff_ne_zero]
  intro hzero
  rw [decimalValue_append, Nat.add_eq_zero_iff, Nat.mul_eq_zero] at hzero
  have hw : w = ['0'] := by
    by_contra hne
    have hpos := h.whole.value_pos hne
    have hten : 0 < 10 ^ (w.length - 1) := by positivity
    have hfrac : 0 < 10 ^ f.length := by positivity
    omega
  obtain ⟨c, hc, hne⟩ := h.unsigned hn hw
  exact hne (zeros_of_decimalValue h.digits hzero.2 c hc)

theorem Spells.neg_iff (h : Spells n w f text) : partsValue n w f < 0 ↔ n = true := by
  cases n with
  | false =>
    have hle : 0 ≤ partsValue false w f := by
      rw [partsValue, if_neg Bool.false_ne_true, one_mul]
      positivity
    exact iff_of_false (not_lt.2 hle) Bool.false_ne_true
  | true =>
    have hvalue := h.pos rfl
    have hquot : (0 : ℚ) < decimalValue (w ++ f) / 10 ^ f.length := by positivity
    rw [partsValue, if_pos rfl, neg_one_mul, neg_lt_zero]
    exact iff_of_true hquot rfl

theorem Spells.unique {n' : Bool} {w' f' text' : List Char} (h : Spells n w f text)
    (h' : Spells n' w' f' text') (hlength : f.length = f'.length)
    (heq : partsValue n w f = partsValue n' w' f') : n = n' ∧ w = w' ∧ f = f' := by
  have hsign : n = n' := by
    have hn := h.neg_iff
    rw [heq, h'.neg_iff] at hn
    exact (Bool.eq_iff_iff.2 hn).symm
  have habs := congrArg abs heq
  have hten : (10 : ℚ) ^ f'.length ≠ 0 := by positivity
  rw [partsValue_abs, partsValue_abs, hlength, div_left_inj' hten, Nat.cast_inj] at habs
  have hflt := decimalValue_lt h.digits
  have hflt' := decimalValue_lt h'.digits
  rw [decimalValue_append, decimalValue_append, hlength] at habs
  rw [hlength] at hflt
  have hpos : 0 < 10 ^ f'.length := by positivity
  have hwhole : decimalValue w = decimalValue w' := by
    have hdiv := congrArg (· / 10 ^ f'.length) habs
    simp only [mul_comm _ (10 ^ f'.length), Nat.mul_add_div hpos, Nat.div_eq_of_lt hflt,
      Nat.div_eq_of_lt hflt', add_zero] at hdiv
    exact hdiv
  rw [hwhole, Nat.add_left_cancel_iff] at habs
  exact ⟨hsign, h.whole.unique h'.whole hwhole,
    decimalValue_injective h.digits h'.digits hlength habs⟩

/-- What normalisation promises, whatever the policy. -/
structure Normalises (precision scale : ℕ) : Prop where
  accepts : ∀ text, (decimalNormalize text precision scale).isSome = true ↔
    DecimalWithinPolicy text precision scale
  value : ∀ text out, decimalNormalize text precision scale = some out →
    decimalOf out = decimalOf text
  digits : ∀ text out, decimalNormalize text precision scale = some out →
    (cutPoint (stripMinus out)).2.length = scale
  fixed : ∀ text out, decimalNormalize text precision scale = some out →
    decimalNormalize out precision scale = some out
  unique : ∀ text text' out out', decimalNormalize text precision scale = some out →
    decimalNormalize text' precision scale = some out' →
      (out = out' ↔ decimalOf text = decimalOf text')

theorem normalises {precision scale : ℕ} (hscale : scale ≤ precision) :
    Normalises precision scale := by
  have hvalue : ∀ n w f text, Spells n w f text →
      decimalOf (spellParts n w (filled scale f)) = decimalOf text := by
    intro n w f text h
    rw [(h.filled scale).value, h.value]
    exact partsValue_trailing n _ w f
  refine ⟨decimalNormalize_accepts hscale, ?_, ?_, ?_, ?_⟩
  · intro text out hout
    obtain ⟨n, w, f, h, -, rfl⟩ := decimalNormalize_iff.1 hout
    exact hvalue n w f text h
  · intro text out hout
    obtain ⟨n, w, f, h, hfits, rfl⟩ := decimalNormalize_iff.1 hout
    rw [(h.filled scale).cut.2.2]
    exact length_filled hfits.fraction
  · intro text out hout
    obtain ⟨n, w, f, h, hfits, rfl⟩ := decimalNormalize_iff.1 hout
    have hlength := length_filled hfits.fraction
    refine decimalNormalize_iff.2 ⟨n, w, _, h.filled scale, ⟨hfits.whole, hlength.le⟩, ?_⟩
    conv_rhs => rw [filled, hlength, Nat.sub_self]
    rw [List.replicate_zero, List.append_nil]
  · intro text text' out out' hout hout'
    obtain ⟨n, w, f, h, hfits, rfl⟩ := decimalNormalize_iff.1 hout
    obtain ⟨n', w', f', h', hfits', rfl⟩ := decimalNormalize_iff.1 hout'
    rw [← hvalue n w f text h, ← hvalue n' w' f' text' h']
    constructor
    · intro heq
      rw [heq]
    · intro heq
      rw [(h.filled scale).value, (h'.filled scale).value] at heq
      have hlength := (length_filled hfits.fraction).trans (length_filled hfits'.fraction).symm
      obtain ⟨rfl, rfl, hfilled⟩ := (h.filled scale).unique (h'.filled scale) hlength heq
      rw [hfilled]

/-! ### The order of two decimals -/

theorem Fits.coefficient_lt {precision scale : ℕ} (hscale : scale ≤ precision)
    (hprecision : precision ≤ 38) (h : Spells n w f text) (hfits : Fits precision scale w f)
    {m : ℕ} (hm : m ≤ scale) (hlength : f.length ≤ m) :
    decimalValue (w ++ f) * 10 ^ (m - f.length) < 2 ^ 127 := by
  have hw := (h.whole.value_lt_iff _).2 hfits.whole
  have hf := decimalValue_lt h.digits
  have hvalue : decimalValue (w ++ f) < 10 ^ (precision - scale) * 10 ^ f.length := by
    rw [decimalValue_append]
    calc decimalValue w * 10 ^ f.length + decimalValue f
        < decimalValue w * 10 ^ f.length + 10 ^ f.length := by omega
      _ = (decimalValue w + 1) * 10 ^ f.length := by ring
      _ ≤ 10 ^ (precision - scale) * 10 ^ f.length := Nat.mul_le_mul_right _ hw
  calc decimalValue (w ++ f) * 10 ^ (m - f.length)
      < 10 ^ (precision - scale) * 10 ^ f.length * 10 ^ (m - f.length) :=
        Nat.mul_lt_mul_of_pos_right hvalue (by positivity)
    _ = 10 ^ (precision - scale + f.length + (m - f.length)) := by rw [pow_add, pow_add]
    _ ≤ 10 ^ 38 := Nat.pow_le_pow_right (by norm_num) (by omega)
    _ < 2 ^ 127 := by norm_num

def signedCoefficient (n : Bool) (w f : List Char) : ℤ :=
  if n then -(decimalValue (w ++ f) : ℤ) else decimalValue (w ++ f)

theorem scaled_eq {m : ℕ} (h : f.length ≤ m) :
    ((signedCoefficient n w f * 10 ^ (m - f.length) : ℤ) : ℚ) = partsValue n w f * 10 ^ m := by
  have hpow : (10 : ℚ) ^ m = 10 ^ (m - f.length) * 10 ^ f.length := by
    rw [← pow_add]
    congr 1
    omega
  have hten : (10 : ℚ) ^ f.length ≠ 0 := by positivity
  rw [partsValue, hpow, signedCoefficient]
  cases n <;> push_cast <;> field_simp <;> simp

theorem cmp_scaled {n' : Bool} {w' f' : List Char} {m : ℕ} (h : f.length ≤ m)
    (h' : f'.length ≤ m) :
    cmp (signedCoefficient n w f * 10 ^ (m - f.length))
        (signedCoefficient n' w' f' * 10 ^ (m - f'.length)) =
      cmp (partsValue n w f) (partsValue n' w' f') := by
  have hten : (0 : ℚ) < 10 ^ m := by positivity
  rw [← Int.cast_strictMono.cmp_map_eq (β := ℚ), scaled_eq h, scaled_eq h',
    cmp_mul_pos_right hten]

theorem Spells.cmpParts (h : Spells n w f text) (hlength : f.length < 2 ^ 32) :
    cmpParts text = if decimalValue (w ++ f) < 2 ^ 127 then
      some (n, decimalValue (w ++ f), f.length) else none := by
  obtain ⟨hsign, hstrip, hcut⟩ := h.cut
  obtain ⟨c, cs, hcons⟩ := List.exists_cons_of_length_pos h.whole.length_pos
  have hc := h.whole.digit c (by rw [hcons]; exact List.mem_cons_self ..)
  have hfirst : ¬ (text = [] ∨ text = ['-', '0'] ∨ text.head? = some '+') := by
    rw [h.eq, spellParts_pointed, hcons]
    rintro (hnil | hzero | hplus)
    · cases n <;> cases hnil
    · cases n with
      | false =>
        rw [show signed false (c :: cs ++ pointed f) = c :: (cs ++ pointed f) from rfl] at hzero
        rw [(List.cons.inj hzero).1] at hc
        cases hc
      | true =>
        have hw0 : w ++ pointed f = ['0'] := by
          rw [hcons]
          exact (List.cons.inj hzero).2
        obtain ⟨hpointed, rfl⟩ | hpointed := pointed_cases f
        · rw [hpointed, List.append_nil] at hw0
          obtain ⟨d, hd, -⟩ := h.unsigned rfl hw0
          exact absurd hd List.not_mem_nil
        · have hlen := congrArg List.length hw0
          have hpos := h.whole.length_pos
          rw [hpointed, List.length_append, List.length_cons, List.length_singleton] at hlen
          omega
    · cases n with
      | false =>
        have heq : c = '+' := Option.some.inj hplus
        rw [heq] at hc
        cases hc
      | true => cases hplus
  have hshape : ¬ (w = [] ∨ ¬ w.all isAsciiDigit = true ∨ ¬ f.all isAsciiDigit = true ∨
      (1 < w.length ∧ w.head? = some '0')) := by
    have hall := (shape_iff [] f.length).2 ⟨h.whole, h.digits,
      fun hmem => absurd hmem List.not_mem_nil, le_rfl⟩
    tauto
  unfold DecimalInstances.cmpParts
  rw [if_neg hfirst, hcut]
  dsimp only
  rw [if_neg hshape, hsign, Nat.mod_eq_of_lt hlength]

def coefficientOf (text : List Char) : ℕ :=
  decimalValue ((cutPoint (stripMinus text)).1 ++ (cutPoint (stripMinus text)).2)

def placesOf (text : List Char) : ℕ := (cutPoint (stripMinus text)).2.length

/-- An `i128` holds the coefficient of a decimal, the power of ten that brings it to a number of
places, and their product. -/
structure HeldAt (places : ℕ) (text : List Char) : Prop where
  coefficient : coefficientOf text < 2 ^ 127
  power : 10 ^ (places - placesOf text) < 2 ^ 127
  product : coefficientOf text * 10 ^ (places - placesOf text) < 2 ^ 127

/-- The numbers that two decimals are compared by do not overflow. -/
structure Held (left right : List Char) : Prop where
  places : placesOf left < 2 ^ 32 ∧ placesOf right < 2 ^ 32
  first : HeldAt (max (placesOf left) (placesOf right)) left
  second : HeldAt (max (placesOf left) (placesOf right)) right

theorem Spells.counts (h : Spells n w f text) :
    coefficientOf text = decimalValue (w ++ f) ∧ placesOf text = f.length := by
  rw [coefficientOf, placesOf, h.cut.2.2]
  exact ⟨rfl, rfl⟩

section Compared

variable {n' : Bool} {w' f' text' : List Char}

theorem held_of_fits {precision scale : ℕ} (hscale : scale ≤ precision)
    (hprecision : precision ≤ 38) (h : Spells n w f text) (hfits : Fits precision scale w f)
    (h' : Spells n' w' f' text') (hfits' : Fits precision scale w' f') : Held text text' := by
  have hone : ∀ {n w f text} {m : ℕ}, Spells n w f text → Fits precision scale w f → m ≤ scale →
      f.length ≤ m → HeldAt m text := by
    intro n w f text m h hfits hm hlength
    have hvalue := hfits.coefficient_lt hscale hprecision h hfits.fraction le_rfl
    rw [Nat.sub_self, pow_zero, mul_one] at hvalue
    obtain ⟨hcoefficient, hplaces⟩ := h.counts
    refine ⟨?_, ?_, ?_⟩
    · rwa [hcoefficient]
    · rw [hplaces]
      calc 10 ^ (m - f.length) ≤ 10 ^ 38 := Nat.pow_le_pow_right (by norm_num) (by omega)
        _ < 2 ^ 127 := by norm_num
    · rw [hcoefficient, hplaces]
      exact hfits.coefficient_lt hscale hprecision h hm hlength
  have hlong := hfits.fraction
  have hlong' := hfits'.fraction
  have hm : max f.length f'.length ≤ scale := max_le hlong hlong'
  refine ⟨?_, ?_, ?_⟩
  · rw [h.counts.2, h'.counts.2]
    omega
  · rw [h.counts.2, h'.counts.2]
    exact hone h hfits hm (le_max_left ..)
  · rw [h.counts.2, h'.counts.2]
    exact hone h' hfits' hm (le_max_right ..)

theorem decimalCmp_held (h : Spells n w f text) (h' : Spells n' w' f' text')
    (hheld : Held text text') :
    decimalCmp text text' = some (cmp (decimalOf text) (decimalOf text')) := by
  obtain ⟨hcoefficient, hplaces⟩ := h.counts
  obtain ⟨hcoefficient', hplaces'⟩ := h'.counts
  obtain ⟨⟨hlong, hlong'⟩, hleft, hright⟩ := hheld
  rw [hplaces] at hlong
  rw [hplaces'] at hlong'
  have hl := hleft.coefficient
  have hr := hright.coefficient
  have hlpower := hleft.power
  have hrpower := hright.power
  have hlproduct := hleft.product
  have hrproduct := hright.product
  rw [hcoefficient] at hl hlproduct
  rw [hcoefficient'] at hr hrproduct
  rw [hplaces, hplaces'] at hlpower hrpower hlproduct hrproduct
  rw [decimalCmp, h.cmpParts hlong, if_pos hl, h'.cmpParts hlong', if_pos hr]
  simp only [Option.bind_eq_bind, Option.bind_some, checkedPow, checkedMul]
  rw [if_pos hlpower, Option.bind_some, if_pos hlproduct, Option.bind_some, if_pos hrpower,
    Option.bind_some, if_pos hrproduct, Option.bind_some, h.value, h'.value,
    ← cmp_scaled (le_max_left f.length f'.length) (le_max_right f.length f'.length)]
  have hsigned : ∀ (n : Bool) (w f : List Char) (k : ℕ),
      (if n = true then -((decimalValue (w ++ f) * 10 ^ k : ℕ) : ℤ)
        else ((decimalValue (w ++ f) * 10 ^ k : ℕ) : ℤ)) = signedCoefficient n w f * 10 ^ k := by
    intro n w f k
    rw [signedCoefficient]
    cases n <;> push_cast <;> simp
  rw [hsigned, hsigned]
  rfl

theorem decimalCmp_not_held (h : Spells n w f text) (h' : Spells n' w' f' text')
    (hlong : f.length < 2 ^ 32) (hlong' : f'.length < 2 ^ 32) (hheld : ¬ Held text text') :
    decimalCmp text text' = none := by
  obtain ⟨hcoefficient, hplaces⟩ := h.counts
  obtain ⟨hcoefficient', hplaces'⟩ := h'.counts
  rw [decimalCmp, h.cmpParts hlong, h'.cmpParts hlong']
  by_cases hl : decimalValue (w ++ f) < 2 ^ 127
  · by_cases hr : decimalValue (w' ++ f') < 2 ^ 127
    · rw [if_pos hl, if_pos hr]
      simp only [Option.bind_eq_bind, Option.bind_some, checkedPow, checkedMul]
      by_cases hlpower : 10 ^ (max f.length f'.length - f.length) < 2 ^ 127
      · by_cases hlproduct : decimalValue (w ++ f) *
            10 ^ (max f.length f'.length - f.length) < 2 ^ 127
        · by_cases hrpower : 10 ^ (max f.length f'.length - f'.length) < 2 ^ 127
          · by_cases hrproduct : decimalValue (w' ++ f') *
                10 ^ (max f.length f'.length - f'.length) < 2 ^ 127
            · refine absurd ⟨?_, ?_, ?_⟩ hheld
              · rw [hplaces, hplaces']
                exact ⟨hlong, hlong'⟩
              · rw [← hplaces, ← hplaces'] at hlpower hlproduct
                rw [← hcoefficient] at hl hlproduct
                exact ⟨hl, hlpower, hlproduct⟩
              · rw [← hplaces, ← hplaces'] at hrpower hrproduct
                rw [← hcoefficient'] at hr hrproduct
                exact ⟨hr, hrpower, hrproduct⟩
            · rw [if_pos hlpower, Option.bind_some, if_pos hlproduct, Option.bind_some,
                if_pos hrpower, Option.bind_some, if_neg hrproduct, Option.bind_none]
          · rw [if_pos hlpower, Option.bind_some, if_pos hlproduct, Option.bind_some,
              if_neg hrpower, Option.bind_none]
        · rw [if_pos hlpower, Option.bind_some, if_neg hlproduct, Option.bind_none]
      · rw [if_neg hlpower, Option.bind_none]
    · rw [if_pos hl, if_neg hr]
      rfl
  · rw [if_neg hl]
    rfl

end Compared

theorem mem_point (h : Spells n w f text) : '.' ∈ text ↔ f ≠ [] := by
  have hno := point_not_digit h.whole.digit
  rw [h.eq, spellParts_pointed]
  constructor
  · rintro hmem rfl
    rw [show pointed [] = [] from rfl, List.append_nil] at hmem
    cases n with
    | true =>
      obtain hminus | hmem := List.mem_cons.1 hmem
      · cases hminus
      · exact hno hmem
    | false => exact hno hmem
  · intro hf
    rw [pointed, if_neg hf]
    cases n <;> simp [signed]

/-- The value that `compareDecimal` reads: ten times too large where there is no fraction. -/
def spread (text : List Char) : ℚ := (if '.' ∈ text then 1 else 10) * decimalOf text

theorem Spells.parseDecimal (h : Spells n w f text) : parseDecimal text =
    (signedCoefficient n w (if f = [] then ['0'] else f), f.length) := by
  have hsplit := h.split
  rw [splitParts, Prod.mk.injEq] at hsplit
  have hsign : text.head? = some '-' ↔ n = true := by
    rw [← beq_iff_eq, h.cut.1]
  unfold DecimalInstances.parseDecimal
  dsimp only [splitParts]
  rw [hsplit.1, hsplit.2]
  simp only [hsign]
  rfl

theorem Spells.spread_eq (h : Spells n w f text) {m : ℕ} (hm : f.length ≤ m) :
    (((DecimalInstances.parseDecimal text).1 * 10 ^ (m - (DecimalInstances.parseDecimal text).2) :
      ℤ) : ℚ) = spread text * 10 ^ m := by
  rw [h.parseDecimal, spread, h.value]
  dsimp only
  by_cases hf : f = []
  · have hnone : '.' ∉ text := fun hmem => (mem_point h).1 hmem hf
    have hzero : decimalValue (w ++ ['0']) = decimalValue w * 10 := by
      rw [decimalValue_concat, Nat.sub_self, Nat.add_zero]
    rw [if_pos hf, if_neg hnone, hf, partsValue, signedCoefficient, List.append_nil, hzero]
    cases n <;> push_cast <;> simp <;> ring
  · rw [if_neg hf, if_pos ((mem_point h).2 hf), one_mul, scaled_eq hm]

theorem compareDecimal_spells {n' : Bool} {w' f' text' : List Char} (h : Spells n w f text)
    (h' : Spells n' w' f' text') :
    compareDecimal text text' = cmp (spread text) (spread text') := by
  have hleft : f.length ≤ max f.length f'.length := le_max_left ..
  have hright : f'.length ≤ max f.length f'.length := le_max_right ..
  have hscale : (DecimalInstances.parseDecimal text).2 = f.length := by rw [h.parseDecimal]
  have hscale' : (DecimalInstances.parseDecimal text').2 = f'.length := by rw [h'.parseDecimal]
  rw [compareDecimal]
  rw [← Int.cast_strictMono.cmp_map_eq (β := ℚ)]
  rw [hscale, hscale', ← hscale, ← hscale', h.spread_eq (by rw [hscale, hscale']; exact hleft),
    h'.spread_eq (by rw [hscale, hscale']; exact hright), cmp_mul_pos_right (by positivity)]

/-- A value between another and ten times it. -/
def Between (v u : ℚ) : Prop := v ≠ 0 ∧ 1 ≤ u / v ∧ u / v ≤ 10

theorem cmp_eq_cmp_iff {a b u : ℚ} (h : a < b) : cmp a u = cmp b u ↔ u < a ∨ b < u := by
  obtain hu | rfl | hu := lt_trichotomy u a
  · exact iff_of_true (by rw [(cmp_eq_gt_iff a u).2 hu, (cmp_eq_gt_iff b u).2 (hu.trans h)])
      (.inl hu)
  · rw [(cmp_eq_eq_iff u u).2 rfl, (cmp_eq_gt_iff b u).2 h]
    exact iff_of_false (fun heq => by cases heq) fun hor =>
      hor.elim (lt_irrefl u) fun hb => lt_asymm h hb
  · rw [(cmp_eq_lt_iff a u).2 hu, eq_comm, cmp_eq_lt_iff]
    exact ⟨.inr, fun hor => hor.resolve_left (lt_asymm hu)⟩

theorem cmp_ten_iff (v u : ℚ) : cmp (10 * v) u = cmp v u ↔ ¬ Between v u := by
  obtain hv | rfl | hv := lt_trichotomy v 0
  · rw [cmp_eq_cmp_iff (by linarith), Between, le_div_iff_of_neg hv, div_le_iff_of_neg hv, one_mul,
      and_iff_right hv.ne, not_and_or, not_le, not_le, or_comm]
  · rw [mul_zero]
    exact iff_of_true rfl fun h => h.1 rfl
  · rw [eq_comm, cmp_eq_cmp_iff (by linarith), Between, le_div_iff₀ hv, div_le_iff₀ hv, one_mul,
      and_iff_right hv.ne', not_and_or, not_le, not_le]

/-- One of two decimals has a fraction, and its value is between the other, which has none and is
not zero, and ten times it. -/
def Misordered (left right : List Char) : Prop :=
  '.' ∉ left ∧ '.' ∈ right ∧ Between (decimalOf left) (decimalOf right) ∨
    '.' ∈ left ∧ '.' ∉ right ∧ Between (decimalOf right) (decimalOf left)

theorem spread_cmp_iff (left right : List Char) :
    cmp (spread left) (spread right) = cmp (decimalOf left) (decimalOf right) ↔
      ¬ Misordered left right := by
  have hten : (0 : ℚ) < 10 := by norm_num
  rw [spread, spread, Misordered]
  by_cases hleft : '.' ∈ left <;> by_cases hright : '.' ∈ right
  · simp [hleft, hright]
  · rw [if_pos hleft, if_neg hright, one_mul, ← cmp_swap, ← cmp_swap (decimalOf right),
      Ordering.swap_inj, cmp_ten_iff]
    simp [hleft, hright]
  · rw [if_neg hleft, if_pos hright, one_mul, cmp_ten_iff]
    simp [hleft, hright]
  · rw [if_neg hleft, if_neg hright, cmp_mul_pos_left hten]
    simp [hleft, hright]

/-! ### The two packages -/

/-- What the two packages make of the decimals of a policy, and of two that it admits. -/
structure DecimalsAgree (precision scale : ℕ) (left right : List Char) : Prop where
  normalises : Normalises precision scale
  order : DecimalWithinPolicy left precision scale → DecimalWithinPolicy right precision scale →
    decimalCmp left right = some (compareDecimal left right)

/-- Up to the precision that the schema admits nothing overflows; the two packages then agree
unless two decimals are misordered. -/
theorem decimals_agree_iff (precision scale : ℕ) (hscale : scale ≤ precision)
    (hnarrow : scale < 2 ^ 32) (left right : List Char) :
    (DecimalsAgree precision scale left right ↔
      (DecimalWithinPolicy left precision scale → DecimalWithinPolicy right precision scale →
        Held left right ∧ ¬ Misordered left right)) ∧
    (precision ≤ 38 → DecimalWithinPolicy left precision scale →
      DecimalWithinPolicy right precision scale → Held left right) := by
  simp only [decimalWithinPolicy_spells hscale]
  have horder : (∃ n w f, Spells n w f left ∧ Fits precision scale w f) →
      (∃ n w f, Spells n w f right ∧ Fits precision scale w f) →
        (decimalCmp left right = some (compareDecimal left right) ↔
          Held left right ∧ ¬ Misordered left right) := by
    rintro ⟨n, w, f, h, hfits⟩ ⟨n', w', f', h', hfits'⟩
    by_cases hheld : Held left right
    · rw [decimalCmp_held h h' hheld, compareDecimal_spells h h', Option.some.injEq, eq_comm,
        spread_cmp_iff, and_iff_right hheld]
    · rw [decimalCmp_not_held h h' (hfits.fraction.trans_lt hnarrow)
        (hfits'.fraction.trans_lt hnarrow) hheld]
      exact iff_of_false (Option.some_ne_none _).symm fun h => hheld h.1
  refine ⟨⟨?_, ?_⟩, ?_⟩
  · rintro ⟨-, h⟩ hleft hright
    rw [decimalWithinPolicy_spells hscale, decimalWithinPolicy_spells hscale] at h
    exact (horder hleft hright).1 (h hleft hright)
  · intro h
    refine ⟨normalises hscale, ?_⟩
    rw [decimalWithinPolicy_spells hscale, decimalWithinPolicy_spells hscale]
    exact fun hleft hright => (horder hleft hright).2 (h hleft hright)
  · rintro hprecision ⟨n, w, f, h, hfits⟩ ⟨n', w', f', h', hfits'⟩
    exact held_of_fits hscale hprecision h hfits h' hfits'

theorem decimals_agree_fractions : DecimalsAgree 5 2 "1.5".toList "2.25".toList := by
  obtain ⟨hiff, hheld⟩ := decimals_agree_iff 5 2 (by decide) (by decide) "1.5".toList "2.25".toList
  refine hiff.2 fun hleft hright => ⟨hheld (by decide) hleft hright, ?_⟩
  rintro (⟨hno, -⟩ | ⟨-, hno, -⟩)
  · exact hno (by decide)
  · exact hno (by decide)

/-- Five is before five and a half, and `compareDecimal` puts it after. -/
theorem decimals_disagree : DecimalWithinPolicy "5".toList 5 2 ∧
    DecimalWithinPolicy "5.5".toList 5 2 ∧ decimalCmp "5".toList "5.5".toList = some .lt ∧
      compareDecimal "5".toList "5.5".toList = .gt ∧
        ¬ DecimalsAgree 5 2 "5".toList "5.5".toList := by
  have hscale : 2 ≤ 5 := by decide
  have hleft := (decimalNormalize_accepts hscale "5".toList).1 (by decide)
  have hright := (decimalNormalize_accepts hscale "5.5".toList).1 (by decide)
  have hrust : decimalCmp "5".toList "5.5".toList = some .lt := by decide
  have htypescript : compareDecimal "5".toList "5.5".toList = .gt := by decide
  refine ⟨hleft, hright, hrust, htypescript, fun h => ?_⟩
  have horder := h.order hleft hright
  rw [hrust, htypescript] at horder
  cases horder

end FilamentCore.Backends.DecimalInstances
