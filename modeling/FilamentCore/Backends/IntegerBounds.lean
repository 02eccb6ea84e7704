import FilamentCore.SemanticIr.Json

/-!
# The range of an integer (FR-144)

The effective range of a list of constraints, and the two computations of it
(src/compiler/backends/typescript-v1/model.mjs and rust-serde/mapping.mjs).
-/

namespace FilamentCore.Backends
open FilamentCore.SemanticIr (Json isAsciiDigit decimalValue)

/-! ### Bounds -/

/-- `2^53 - 1`. -/
def safeInteger : ℤ := 2 ^ 53 - 1

/-- A run of decimal digits with no leading zero. -/
def positiveText (digits : List Char) : Option ℤ :=
  if digits ≠ [] ∧ digits.head? ≠ some '0' ∧ digits.all isAsciiDigit then
    some (decimalValue digits)
  else none

/-- `BigInt(value)` of a value that matches `/^(0|-?[1-9][0-9]*)$/`. -/
def integerText (value : String) : Option ℤ :=
  match value.toList with
  | ['0'] => some 0
  | '-' :: digits => (positiveText digits).map (- ·)
  | digits => positiveText digits

def operandOf (constraint : Json) : Option ℤ :=
  ((constraint.get "operands").bind (·.getStr "value")).bind integerText

def lowOf (constraint : Json) : Option ℤ :=
  (operandOf constraint).bind fun n =>
    if constraint.getStr "keyword" = some "min" then some n
    else if constraint.getStr "keyword" = some "exclusiveMin" then some (n + 1)
    else none

def highOf (constraint : Json) : Option ℤ :=
  (operandOf constraint).bind fun n =>
    if constraint.getStr "keyword" = some "max" then some n
    else if constraint.getStr "keyword" = some "exclusiveMax" then some (n - 1)
    else none

def lows (constraints : List Json) : List ℤ := constraints.filterMap lowOf

def highs (constraints : List Json) : List ℤ := constraints.filterMap highOf

/-! ### The effective range -/

structure Range where
  lo : ℤ
  hi : ℤ
  deriving DecidableEq, Repr

namespace Range

def Contains (r : Range) (x : ℤ) : Prop := r.lo ≤ x ∧ x ≤ r.hi

/-- Both ends of the range lie in the safe interval. -/
def Inside (r : Range) : Prop :=
  -safeInteger ≤ r.lo ∧ r.lo ≤ safeInteger ∧ -safeInteger ≤ r.hi ∧ r.hi ≤ safeInteger

instance (r : Range) : Decidable r.Inside := by unfold Inside; infer_instance

end Range

/-- The greatest lower bound and the least upper bound; a side without a bound is the end of the
safe interval. -/
noncomputable def effectiveRange (constraints : List Json) : Range :=
  ⟨(lows constraints).maximum.unbotD (-safeInteger), (highs constraints).minimum.untopD safeInteger⟩

theorem effectiveRange_nil_inside : (effectiveRange []).Inside := by
  have h : (0 : ℤ) ≤ safeInteger := by norm_num [safeInteger]
  have hr : effectiveRange [] = ⟨-safeInteger, safeInteger⟩ := rfl
  rw [hr]
  exact ⟨le_rfl, neg_le_self h, neg_le_self h, le_rfl⟩

theorem effectiveRange_perm {cs ds : List Json} (h : cs.Perm ds) :
    effectiveRange cs = effectiveRange ds := by
  have hl : (lows cs).maximum = (lows ds).maximum := (h.filterMap lowOf).maximum_eq
  have hh : (highs cs).minimum = (highs ds).minimum := (h.filterMap highOf).minimum_eq
  rw [effectiveRange, effectiveRange, hl, hh]

/-- The range is the intersection of the bounds, a missing side taken from the safe interval. -/
theorem effectiveRange_contains (cs : List Json) (x : ℤ) :
    (effectiveRange cs).Contains x ↔
      (∀ a ∈ lows cs, a ≤ x) ∧ (lows cs = [] → -safeInteger ≤ x) ∧
        (∀ b ∈ highs cs, x ≤ b) ∧ (highs cs = [] → x ≤ safeInteger) := by
  have hlow : (lows cs).maximum.unbotD (-safeInteger) ≤ x ↔
      (∀ a ∈ lows cs, a ≤ x) ∧ (lows cs = [] → -safeInteger ≤ x) := by
    cases hm : (lows cs).maximum with
    | bot =>
      have hnil := List.maximum_eq_bot.1 hm
      simp [hnil]
    | coe m =>
      obtain ⟨hmem, hall⟩ := List.maximum_eq_coe_iff.1 hm
      have hne : lows cs ≠ [] := List.ne_nil_of_mem hmem
      rw [WithBot.unbotD_coe]
      exact ⟨fun h => ⟨fun a ha => (hall a ha).trans h, fun hnil => absurd hnil hne⟩,
        fun h => h.1 m hmem⟩
  have hhigh : x ≤ (highs cs).minimum.untopD safeInteger ↔
      (∀ b ∈ highs cs, x ≤ b) ∧ (highs cs = [] → x ≤ safeInteger) := by
    cases hm : (highs cs).minimum with
    | top =>
      have hnil := List.minimum_eq_top.1 hm
      simp [hnil]
    | coe m =>
      obtain ⟨hmem, hall⟩ := List.minimum_eq_coe_iff.1 hm
      have hne : highs cs ≠ [] := List.ne_nil_of_mem hmem
      rw [WithTop.untopD_coe]
      exact ⟨fun h => ⟨fun b hb => h.trans (hall b hb), fun hnil => absurd hnil hne⟩,
        fun h => h.1 m hmem⟩
  rw [Range.Contains, effectiveRange, hlow, hhigh, and_assoc]

/-! ### The bounds as both backends collect them -/

structure Bounds where
  lower : ℤ
  upper : ℤ
  lowerExplicit : Bool
  upperExplicit : Bool
  deriving DecidableEq, Repr

def Bounds.missing : Bounds := ⟨-safeInteger, safeInteger, false, false⟩

/-- One constraint: `raise` and `drop` are what a backend makes of a bound of each side. -/
def boundStep (raise drop : Bounds → ℤ → ℤ) (bounds : Bounds) (constraint : Json) : Bounds :=
  match operandOf constraint with
  | none => bounds
  | some parsed =>
    let keyword := constraint.getStr "keyword"
    if keyword = some "min" then
      { bounds with lower := raise bounds parsed, lowerExplicit := true }
    else if keyword = some "exclusiveMin" then
      { bounds with lower := raise bounds (parsed + 1), lowerExplicit := true }
    else if keyword = some "max" then
      { bounds with upper := drop bounds parsed, upperExplicit := true }
    else if keyword = some "exclusiveMax" then
      { bounds with upper := drop bounds (parsed - 1), upperExplicit := true }
    else bounds

noncomputable def Bounds.of (ls hs : List ℤ) : Bounds :=
  ⟨ls.maximum.unbotD (-safeInteger), hs.minimum.untopD safeInteger, !ls.isEmpty, !hs.isEmpty⟩

/-- A backend that keeps the greater of two lower bounds and the lesser of two upper ones. -/
structure Keeps (raise drop : Bounds → ℤ → ℤ) : Prop where
  raise : ∀ b n, raise b n = if b.lowerExplicit = true then max b.lower n else n
  drop : ∀ b n, drop b n = if b.upperExplicit = true then min b.upper n else n

theorem of_raise (ls hs : List ℤ) (n : ℤ) :
    Bounds.of (ls ++ [n]) hs =
      { Bounds.of ls hs with
        lower := if (Bounds.of ls hs).lowerExplicit = true then max (Bounds.of ls hs).lower n else n
        lowerExplicit := true } := by
  cases hm : ls.maximum with
  | bot =>
    obtain rfl := List.maximum_eq_bot.1 hm
    simp [Bounds.of]
  | coe m =>
    have hne : ls ≠ [] := List.ne_nil_of_mem (List.maximum_eq_coe_iff.1 hm).1
    have hmax : (ls ++ [n]).maximum = (max m n : ℤ) := by
      rw [List.maximum_concat, hm]
      rfl
    simp only [Bounds.of, hm, hmax, WithBot.unbotD_coe]
    simp [hne]

theorem of_drop (ls hs : List ℤ) (n : ℤ) :
    Bounds.of ls (hs ++ [n]) =
      { Bounds.of ls hs with
        upper := if (Bounds.of ls hs).upperExplicit = true then min (Bounds.of ls hs).upper n else n
        upperExplicit := true } := by
  cases hm : hs.minimum with
  | top =>
    obtain rfl := List.minimum_eq_top.1 hm
    simp [Bounds.of]
  | coe m =>
    have hne : hs ≠ [] := List.ne_nil_of_mem (List.minimum_eq_coe_iff.1 hm).1
    have hmin : (hs ++ [n]).minimum = (min m n : ℤ) := by
      rw [List.minimum_concat, hm]
      rfl
    simp only [Bounds.of, hm, hmin, WithTop.untopD_coe]
    simp [hne]

variable {raise drop : Bounds → ℤ → ℤ}

theorem boundStep_of (h : Keeps raise drop) (ls hs : List ℤ) (c : Json) :
    boundStep raise drop (Bounds.of ls hs) c =
      Bounds.of (ls ++ (lowOf c).toList) (hs ++ (highOf c).toList) := by
  rw [boundStep]
  cases ho : operandOf c with
  | none => simp [lowOf, highOf, ho]
  | some n =>
    by_cases hmin : c.getStr "keyword" = some "min"
    · simp [lowOf, highOf, ho, hmin, of_raise, h.raise]
    · by_cases hemin : c.getStr "keyword" = some "exclusiveMin"
      · simp [lowOf, highOf, ho, hemin, of_raise, h.raise]
      · by_cases hmax : c.getStr "keyword" = some "max"
        · simp [lowOf, highOf, ho, hmax, of_drop, h.drop]
        · by_cases hemax : c.getStr "keyword" = some "exclusiveMax"
          · simp [lowOf, highOf, ho, hemax, of_drop, h.drop]
          · simp [lowOf, highOf, ho, hmin, hemin, hmax, hemax]

theorem foldl_boundStep (h : Keeps raise drop) (cs : List Json) (ls hs : List ℤ) :
    cs.foldl (boundStep raise drop) (Bounds.of ls hs) =
      Bounds.of (ls ++ lows cs) (hs ++ highs cs) := by
  induction cs generalizing ls hs with
  | nil => simp [lows, highs]
  | cons c cs ih =>
    have hl : lows (c :: cs) = (lowOf c).toList ++ lows cs := by
      rw [lows, List.filterMap_cons]
      cases lowOf c <;> rfl
    have hh : highs (c :: cs) = (highOf c).toList ++ highs cs := by
      rw [highs, List.filterMap_cons]
      cases highOf c <;> rfl
    rw [List.foldl_cons, boundStep_of h, ih, hl, hh, List.append_assoc, List.append_assoc]

noncomputable def boundsOf (cs : List Json) : Bounds := Bounds.of (lows cs) (highs cs)

theorem foldl_boundStep_missing (h : Keeps raise drop) (cs : List Json) :
    cs.foldl (boundStep raise drop) .missing = boundsOf cs := foldl_boundStep h cs [] []

theorem boundsOf_range (cs : List Json) :
    (⟨(boundsOf cs).lower, (boundsOf cs).upper⟩ : Range) = effectiveRange cs := rfl

theorem lower_default {cs : List Json} (h : (boundsOf cs).lowerExplicit = false) :
    (boundsOf cs).lower = -safeInteger := by
  have hnil : lows cs = [] := by simpa [boundsOf, Bounds.of] using h
  rw [boundsOf, hnil]
  rfl

theorem upper_default {cs : List Json} (h : (boundsOf cs).upperExplicit = false) :
    (boundsOf cs).upper = safeInteger := by
  have hnil : highs cs = [] := by simpa [boundsOf, Bounds.of] using h
  rw [boundsOf, hnil]
  rfl

theorem unbotD_append {ls ms : List ℤ} (hl : ls ≠ []) (hm : ms ≠ []) (d : ℤ) :
    (ls ++ ms).maximum.unbotD d = max (ls.maximum.unbotD d) (ms.maximum.unbotD d) := by
  rw [List.maximum_append]
  cases hls : ls.maximum with
  | bot => exact absurd (List.maximum_eq_bot.1 hls) hl
  | coe a =>
    cases hms : ms.maximum with
    | bot => exact absurd (List.maximum_eq_bot.1 hms) hm
    | coe b => rfl

theorem untopD_append {hs ks : List ℤ} (hh : hs ≠ []) (hk : ks ≠ []) (d : ℤ) :
    (hs ++ ks).minimum.untopD d = min (hs.minimum.untopD d) (ks.minimum.untopD d) := by
  rw [List.minimum_append]
  cases hhs : hs.minimum with
  | top => exact absurd (List.minimum_eq_top.1 hhs) hh
  | coe a =>
    cases hks : ks.minimum with
    | top => exact absurd (List.minimum_eq_top.1 hks) hk
    | coe b => rfl

theorem lows_append (cs ds : List Json) : lows (cs ++ ds) = lows cs ++ lows ds :=
  List.filterMap_append

theorem highs_append (cs ds : List Json) : highs (cs ++ ds) = highs cs ++ highs ds :=
  List.filterMap_append

/-! ### The two computations -/

namespace TypescriptV1

def integerBounds (constraints : List Json) : Bounds :=
  constraints.foldl (boundStep
    (fun bounds parsed =>
      if !bounds.lowerExplicit || decide (bounds.lower < parsed) then parsed else bounds.lower)
    (fun bounds parsed =>
      if !bounds.upperExplicit || decide (parsed < bounds.upper) then parsed else bounds.upper))
    .missing

theorem integerBounds_eq (cs : List Json) : integerBounds cs = boundsOf cs := by
  apply foldl_boundStep_missing
  constructor
  · intro b n
    cases b.lowerExplicit
    · rfl
    · by_cases h : b.lower < n
      · simp [h, max_eq_right h.le]
      · simp [h, max_eq_left (not_lt.1 h)]
  · intro b n
    cases b.upperExplicit
    · rfl
    · by_cases h : n < b.upper
      · simp [h, min_eq_right h.le]
      · simp [h, min_eq_left (not_lt.1 h)]

end TypescriptV1

namespace RustSerde

def integerBounds (constraints : List Json) : Bounds :=
  constraints.foldl (boundStep
    (fun bounds parsed =>
      if bounds.lowerExplicit && decide (parsed < bounds.lower) then bounds.lower else parsed)
    (fun bounds parsed =>
      if bounds.upperExplicit && decide (bounds.upper < parsed) then bounds.upper else parsed))
    .missing

theorem integerBounds_eq (cs : List Json) : integerBounds cs = boundsOf cs := by
  apply foldl_boundStep_missing
  constructor
  · intro b n
    cases b.lowerExplicit
    · rfl
    · by_cases h : n < b.lower
      · simp [h, max_eq_left h.le]
      · simp [h, max_eq_right (not_lt.1 h)]
  · intro b n
    cases b.upperExplicit
    · rfl
    · by_cases h : b.upper < n
      · simp [h, min_eq_left h.le]
      · simp [h, min_eq_right (not_lt.1 h)]

end RustSerde
end FilamentCore.Backends
