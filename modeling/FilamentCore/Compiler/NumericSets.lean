import FilamentCore.Compiler.NumericChange
import Mathlib.Algebra.Order.Field.Rat
import Mathlib.Tactic.Linarith
import Mathlib.Tactic.FieldSimp
import Mathlib.Tactic.Positivity

/-!
# The values a numeric subject admits

What the comparisons of diff.mjs say of the sets of values: the integers of a range, and the
finite decimals between two limits or of a policy.
-/

namespace FilamentCore.Compiler.Diff
open FilamentCore.Library
open FilamentCore.SemanticIr (Json)
open FilamentCore.Backends (Range boundsOf effectiveRange foldl_boundStep_missing)

/-! ### The change between two sets -/

/-- A disposition tells whether a set stayed, grew, or lost a value. -/
structure Reports {α : Type} (change : Option Disposition) (before after : Set α) : Prop where
  same : change = none ↔ after = before
  widened : change = some .conditional ↔ before ⊂ after
  broken : change = some .breaking ↔ ¬ before ⊆ after

theorem reports_of_ite {α : Type} {before after : Set α} {p q : Prop} [Decidable p] [Decidable q]
    (hp : p ↔ after = before) (hq : q ↔ before ⊆ after) :
    Reports (if p then none else if q then some .conditional else some .breaking)
      before after := by
  by_cases hs : p
  · rw [if_pos hs]
    have he := hp.1 hs
    refine ⟨iff_of_true rfl he, iff_of_false (fun h => by cases h) ?_, ?_⟩
    · exact fun h => h.ne he.symm
    · exact iff_of_false (fun h => by cases h) fun h => h he.superset
  · rw [if_neg hs]
    have hne : after ≠ before := fun h => hs (hp.2 h)
    by_cases hw : q
    · rw [if_pos hw]
      have hsub := hq.1 hw
      refine ⟨iff_of_false (fun h => by cases h) hne, iff_of_true rfl ?_, ?_⟩
      · exact ssubset_iff_subset_ne.2 ⟨hsub, hne.symm⟩
      · exact iff_of_false (fun h => by cases h) fun h => h hsub
    · rw [if_neg hw]
      have hnot : ¬ before ⊆ after := fun h => hw (hq.2 h)
      exact ⟨iff_of_false (fun h => by cases h) hne,
        iff_of_false (fun h => by cases h) fun h => hnot h.subset, iff_of_true rfl hnot⟩

/-! ### Integers -/

theorem integerRange_eq (cs : List Json) : integerRange cs = boundsOf cs := by
  apply foldl_boundStep_missing
  constructor
  · intro b n
    cases b.lowerExplicit
    · rfl
    · by_cases h : n < b.lower
      · simp [h, max_eq_left h.le]
      · simp [h, max_eq_right (not_lt.1 h)]
  · intro b n
    cases b.upperExplicit
    · rfl
    · by_cases h : b.upper < n
      · simp [h, min_eq_left h.le]
      · simp [h, min_eq_right (not_lt.1 h)]

def integers (constraints : List Json) : Set ℤ := {x | (effectiveRange constraints).Contains x}

theorem mem_integers {cs : List Json} {x : ℤ} :
    x ∈ integers cs ↔ (integerRange cs).lower ≤ x ∧ x ≤ (integerRange cs).upper := by
  rw [integerRange_eq]
  exact Iff.rfl

theorem integers_subset {cs ds : List Json} (hne : (integers cs).Nonempty) :
    integers cs ⊆ integers ds ↔ (integerRange ds).lower ≤ (integerRange cs).lower ∧
      (integerRange cs).upper ≤ (integerRange ds).upper := by
  obtain ⟨x, hx⟩ := hne
  rw [mem_integers] at hx
  constructor
  · intro h
    have hlower := h (mem_integers.2 ⟨le_rfl, hx.1.trans hx.2⟩)
    have hupper := h (mem_integers.2 ⟨hx.1.trans hx.2, le_rfl⟩)
    exact ⟨(mem_integers.1 hlower).1, (mem_integers.1 hupper).2⟩
  · intro h y hy
    rw [mem_integers] at hy ⊢
    omega

/-- The bounds of an integer change as its values do. -/
theorem numericBoundChange_integer {before after : List Json} (hb : (integers before).Nonempty)
    (ha : (integers after).Nonempty) :
    Reports (numericBoundChange before after "integer") (integers before) (integers after) := by
  have hsub := @integers_subset before after hb
  have hsup := @integers_subset after before ha
  have hsame : (integerRange before).lower = (integerRange after).lower ∧
      (integerRange before).upper = (integerRange after).upper ↔
        integers after = integers before := by
    rw [Set.Subset.antisymm_iff, hsub, hsup]
    omega
  have hwide : (¬ ((integerRange before).lower = (integerRange after).lower ∧
      (integerRange before).upper = (integerRange after).upper) →
      (integerDomainWidened before after = true ↔ integers before ⊆ integers after)) := by
    intro hne
    rw [hsub]
    simp only [integerDomainWidened, Bool.and_eq_true, Bool.or_eq_true, decide_eq_true_eq]
    omega
  rw [numericBoundChange, if_pos rfl]
  have happly : (some (if integerDomainWidened before after = true then Disposition.conditional
      else .breaking)) = if integerDomainWidened before after = true then some .conditional
        else some .breaking := apply_ite some _ _ _
  simp only [happly]
  by_cases hs : (integerRange before).lower = (integerRange after).lower ∧
      (integerRange before).upper = (integerRange after).upper
  · have hreport := @reports_of_ite ℤ (integers before) (integers after) _
      (integers before ⊆ integers after) _ (Classical.propDecidable _) hsame Iff.rfl
    rw [if_pos hs] at hreport ⊢
    exact hreport
  · have hreport := reports_of_ite hsame (hwide hs)
    rwa [if_neg hs] at hreport ⊢

/-! ### Finite decimals -/

def IsDecimal (q : ℚ) : Prop := ∃ n : ℤ, ∃ k : ℕ, q = n / 10 ^ k

abbrev Decimal := {q : ℚ // IsDecimal q}

theorem IsDecimal.add {p q : ℚ} (hp : IsDecimal p) (hq : IsDecimal q) : IsDecimal (p + q) := by
  obtain ⟨n, k, rfl⟩ := hp
  obtain ⟨m, j, rfl⟩ := hq
  refine ⟨n * 10 ^ j + m * 10 ^ k, k + j, ?_⟩
  push_cast
  rw [pow_add]
  field_simp

theorem IsDecimal.half {p : ℚ} (hp : IsDecimal p) : IsDecimal (p / 2) := by
  obtain ⟨n, k, rfl⟩ := hp
  refine ⟨n * 5, k + 1, ?_⟩
  push_cast
  field_simp
  ring

theorem isDecimal_int (n : ℤ) : IsDecimal n := ⟨n, 0, by simp⟩

instance : DenselyOrdered Decimal where
  dense a b h := by
    have hab : a.1 < b.1 := h
    refine ⟨⟨(a.1 + b.1) / 2, (a.2.add b.2).half⟩, ?_, ?_⟩
    · change a.1 < (a.1 + b.1) / 2
      linarith
    · change (a.1 + b.1) / 2 < b.1
      linarith

instance : NoMaxOrder Decimal where
  exists_gt a := by
    refine ⟨⟨a.1 + (1 : ℤ), a.2.add (isDecimal_int 1)⟩, ?_⟩
    change a.1 < a.1 + (1 : ℤ)
    push_cast
    linarith

instance : NoMinOrder Decimal where
  exists_lt a := by
    refine ⟨⟨a.1 + (-1 : ℤ), a.2.add (isDecimal_int (-1))⟩, ?_⟩
    change a.1 + (-1 : ℤ) < a.1
    push_cast
    linarith

def ExactBound.decimal (b : ExactBound) : Decimal :=
  ⟨b.coefficient / 10 ^ b.scale, b.coefficient, b.scale, rfl⟩

theorem compare_decimal (l r : ExactBound) :
    compare (l.coefficient * 10 ^ (max l.scale r.scale - l.scale))
      (r.coefficient * 10 ^ (max l.scale r.scale - r.scale)) = compare l.decimal r.decimal := by
  have hpow : (0 : ℚ) < 10 ^ max l.scale r.scale := by positivity
  have hscale : ∀ b : ExactBound, b.scale ≤ max l.scale r.scale →
      b.decimal.1 * 10 ^ max l.scale r.scale =
        ((b.coefficient * 10 ^ (max l.scale r.scale - b.scale) : ℤ) : ℚ) := by
    intro b hb
    obtain ⟨d, hd⟩ := Nat.exists_eq_add_of_le hb
    rw [ExactBound.decimal, hd, Nat.add_sub_cancel_left, pow_add]
    push_cast
    field_simp
  have hl := hscale l (le_max_left _ _)
  have hr := hscale r (le_max_right _ _)
  have hlt : ∀ a b : ℤ, ∀ x y : Decimal, x.1 * 10 ^ max l.scale r.scale = (a : ℚ) →
      y.1 * 10 ^ max l.scale r.scale = (b : ℚ) → (a < b ↔ x < y) := by
    intro a b x y hx hy
    rw [← Int.cast_lt (R := ℚ), ← hx, ← hy, mul_lt_mul_iff_left₀ hpow]
    exact Iff.rfl
  have hlr := hlt _ _ _ _ hl hr
  have hrl := hlt _ _ _ _ hr hl
  obtain h | h | h := lt_trichotomy (l.coefficient * 10 ^ (max l.scale r.scale - l.scale))
    (r.coefficient * 10 ^ (max l.scale r.scale - r.scale))
  · rw [compare_lt_iff_lt.2 h, compare_lt_iff_lt.2 (hlr.1 h)]
  · have heq : l.decimal = r.decimal := by
      apply le_antisymm
      · exact not_lt.1 fun hgt => (hrl.2 hgt).ne' h
      · exact not_lt.1 fun hgt => (hlr.2 hgt).ne h
    rw [compare_eq_iff_eq.2 h, compare_eq_iff_eq.2 heq]
  · rw [compare_gt_iff_gt.2 h, compare_gt_iff_gt.2 (hrl.1 h)]

/-! ### Decimal bounds -/

def Entry.limit (e : Entry) : Option (Limit Decimal) :=
  (exactBound e.value "decimal").map fun b => ⟨b.decimal, e.exclusive⟩

/-- An entry that `decimalLimits` keeps has an exact bound. -/
def Exact (e : Option Entry) : Prop := ∀ entry ∈ e, (exactBound entry.value "decimal").isSome = true

def limitOf (e : Option Entry) : Option (Limit Decimal) := e.bind Entry.limit

theorem compareExactBounds_eq {l r : Entry} {a b : ExactBound}
    (hl : exactBound l.value "decimal" = some a) (hr : exactBound r.value "decimal" = some b) :
    compareExactBounds (some l.value) (some r.value) "decimal" =
      some (compare a.decimal b.decimal) := by
  rw [compareExactBounds, Option.bind_some, Option.bind_some, hl, hr]
  exact congrArg some (compare_decimal a b)

theorem compareLimit_eq {l r : Option Entry} (hl : Exact l) (hr : Exact r) :
    compareLimit l r "decimal" .lower = some (Limit.compareLower (limitOf l) (limitOf r)) ∧
      compareLimit l r "decimal" .upper = some (Limit.compareUpper (limitOf l) (limitOf r)) := by
  cases l with
  | none =>
    cases r with
    | none => exact ⟨rfl, rfl⟩
    | some r =>
      obtain ⟨b, hb⟩ := Option.isSome_iff_exists.1 (hr r rfl)
      have hlimit : limitOf (some r) = some ⟨b.decimal, r.exclusive⟩ := by
        rw [limitOf, Option.bind_some, Entry.limit, hb, Option.map_some]
      rw [hlimit]
      exact ⟨rfl, rfl⟩
  | some l =>
    obtain ⟨a, ha⟩ := Option.isSome_iff_exists.1 (hl l rfl)
    have hlimit : limitOf (some l) = some ⟨a.decimal, l.exclusive⟩ := by
      rw [limitOf, Option.bind_some, Entry.limit, ha, Option.map_some]
    cases r with
    | none =>
      rw [hlimit]
      exact ⟨rfl, rfl⟩
    | some r =>
      obtain ⟨b, hb⟩ := Option.isSome_iff_exists.1 (hr r rfl)
      have hlimit' : limitOf (some r) = some ⟨b.decimal, r.exclusive⟩ := by
        rw [limitOf, Option.bind_some, Entry.limit, hb, Option.map_some]
      have hcompare := compareExactBounds_eq ha hb
      rw [hlimit, hlimit', Limit.compareUpper_some]
      simp only [compareLimit, hcompare, Limit.compareLower]
      obtain hlt | heq | hgt := lt_trichotomy a.decimal b.decimal
      · rw [compare_lt_iff_lt.2 hlt, if_pos hlt, if_pos hlt]
        exact ⟨rfl, rfl⟩
      · rw [compare_eq_iff_eq.2 heq, heq]
        simp only [lt_irrefl, if_false]
        cases l.exclusive <;> cases r.exclusive <;> exact ⟨rfl, rfl⟩
      · rw [compare_gt_iff_gt.2 hgt, if_neg hgt.not_gt, if_pos hgt, if_neg hgt.not_gt, if_pos hgt]
        exact ⟨rfl, rfl⟩

def lowLimit (constraint : Json) : Option (Limit Decimal) :=
  (operandText constraint).bind fun value =>
    if constraint.getStr "keyword" = some "min" then (⟨value, false⟩ : Entry).limit
    else if constraint.getStr "keyword" = some "exclusiveMin" then (⟨value, true⟩ : Entry).limit
    else none

def highLimit (constraint : Json) : Option (Limit Decimal) :=
  (operandText constraint).bind fun value =>
    if constraint.getStr "keyword" = some "max" then (⟨value, false⟩ : Entry).limit
    else if constraint.getStr "keyword" = some "exclusiveMax" then (⟨value, true⟩ : Entry).limit
    else none

def decimals (constraints : List Json) : Set Decimal :=
  {x | ∀ c ∈ constraints, Limit.Above (lowLimit c) x ∧ Limit.Below (highLimit c) x}

def DecimalLimits.decimals (limits : DecimalLimits) : Set Decimal :=
  Limit.between (limitOf limits.lower) (limitOf limits.upper)

structure DecimalLimits.Exact (limits : DecimalLimits) : Prop where
  lower : Diff.Exact limits.lower
  upper : Diff.Exact limits.upper

theorem exact_entry {e : Entry} (h : (exactBound e.value "decimal").isSome = true) :
    Exact (some e) := by
  intro entry he
  rwa [← Option.some.inj he]

theorem exact_none : Exact none := fun _ h => absurd h (Option.not_mem_none _)

theorem limitOf_entry {e : Entry} : limitOf (some e) = e.limit := rfl

theorem keepLower {limits : DecimalLimits} (hl : limits.Exact) {e : Entry}
    (he : (exactBound e.value "decimal").isSome = true) (x : Decimal) :
    Limit.Above (limitOf (if limits.lower = none ∨
      compareLimit (some e) limits.lower "decimal" .lower = some .gt then some e
      else limits.lower)) x ↔ Limit.Above (limitOf limits.lower) x ∧ Limit.Above e.limit x := by
  have hcompare := (compareLimit_eq (exact_entry he) hl.lower).1
  have hcond : (limits.lower = none ∨
      compareLimit (some e) limits.lower "decimal" .lower = some .gt) ↔
        Limit.compareLower (limitOf (some e)) (limitOf limits.lower) = .gt := by
    rw [hcompare, Option.some.injEq]
    constructor
    · intro h
      obtain h | h := h
      · obtain ⟨b, hb⟩ := Option.isSome_iff_exists.1 he
        rw [h, limitOf_entry, Entry.limit, hb]
        rfl
      · exact h
    · exact .inr
  rw [apply_ite limitOf, if_congr hcond rfl rfl]
  exact Limit.above_tighter _ _ x

theorem keepUpper {limits : DecimalLimits} (hl : limits.Exact) {e : Entry}
    (he : (exactBound e.value "decimal").isSome = true) (x : Decimal) :
    Limit.Below (limitOf (if limits.upper = none ∨
      compareLimit (some e) limits.upper "decimal" .upper = some .lt then some e
      else limits.upper)) x ↔ Limit.Below (limitOf limits.upper) x ∧ Limit.Below e.limit x := by
  have hcompare := (compareLimit_eq (exact_entry he) hl.upper).2
  have hcond : (limits.upper = none ∨
      compareLimit (some e) limits.upper "decimal" .upper = some .lt) ↔
        Limit.compareUpper (limitOf (some e)) (limitOf limits.upper) = .lt := by
    rw [hcompare, Option.some.injEq]
    constructor
    · intro h
      obtain h | h := h
      · obtain ⟨b, hb⟩ := Option.isSome_iff_exists.1 he
        rw [h, limitOf_entry, Entry.limit, hb]
        rfl
      · exact h
    · exact .inr
  rw [apply_ite limitOf, if_congr hcond rfl rfl]
  exact Limit.below_tighter _ _ x

theorem spec_none {limits : DecimalLimits} (hl : limits.Exact) {c : Json}
    (hstep : limitStep limits c = limits) (hlow : lowLimit c = none) (hhigh : highLimit c = none) :
    (limitStep limits c).Exact ∧ ∀ x, x ∈ (limitStep limits c).decimals ↔
      x ∈ limits.decimals ∧ Limit.Above (lowLimit c) x ∧ Limit.Below (highLimit c) x := by
  rw [hstep, hlow, hhigh]
  refine ⟨hl, fun x => ?_⟩
  have hnone : Limit.Below (none : Option (Limit Decimal)) x := @Limit.above_none Decimalᵒᵈ _ x
  exact ⟨fun h => ⟨h, Limit.above_none x, hnone⟩, fun h => h.1⟩

theorem spec_lower {limits : DecimalLimits} (hl : limits.Exact) {c : Json} {e : Entry}
    (he : (exactBound e.value "decimal").isSome = true)
    (hstep : limitStep limits c = if limits.lower = none ∨
      compareLimit (some e) limits.lower "decimal" .lower = some .gt
      then { limits with lower := some e } else limits)
    (hlow : lowLimit c = e.limit) (hhigh : highLimit c = none) :
    (limitStep limits c).Exact ∧ ∀ x, x ∈ (limitStep limits c).decimals ↔
      x ∈ limits.decimals ∧ Limit.Above (lowLimit c) x ∧ Limit.Below (highLimit c) x := by
  rw [hstep, hlow, hhigh]
  constructor
  · split
    · exact ⟨exact_entry he, hl.upper⟩
    · exact hl
  · intro x
    have hnone : Limit.Below (none : Option (Limit Decimal)) x := @Limit.above_none Decimalᵒᵈ _ x
    have hkeep := keepLower hl he x
    have hdecimals : x ∈ (if limits.lower = none ∨
        compareLimit (some e) limits.lower "decimal" .lower = some .gt
        then { limits with lower := some e } else limits).decimals ↔
        Limit.Above (limitOf (if limits.lower = none ∨
          compareLimit (some e) limits.lower "decimal" .lower = some .gt then some e
          else limits.lower)) x ∧ Limit.Below (limitOf limits.upper) x := by
      split <;> exact Iff.rfl
    rw [hdecimals, hkeep]
    exact ⟨fun h => ⟨⟨h.1.1, h.2⟩, h.1.2, hnone⟩, fun h => ⟨⟨h.1.1, h.2.1⟩, h.1.2⟩⟩

theorem spec_upper {limits : DecimalLimits} (hl : limits.Exact) {c : Json} {e : Entry}
    (he : (exactBound e.value "decimal").isSome = true)
    (hstep : limitStep limits c = if limits.upper = none ∨
      compareLimit (some e) limits.upper "decimal" .upper = some .lt
      then { limits with upper := some e } else limits)
    (hlow : lowLimit c = none) (hhigh : highLimit c = e.limit) :
    (limitStep limits c).Exact ∧ ∀ x, x ∈ (limitStep limits c).decimals ↔
      x ∈ limits.decimals ∧ Limit.Above (lowLimit c) x ∧ Limit.Below (highLimit c) x := by
  rw [hstep, hlow, hhigh]
  constructor
  · split
    · exact ⟨hl.lower, exact_entry he⟩
    · exact hl
  · intro x
    have hkeep := keepUpper hl he x
    have hdecimals : x ∈ (if limits.upper = none ∨
        compareLimit (some e) limits.upper "decimal" .upper = some .lt
        then { limits with upper := some e } else limits).decimals ↔
        Limit.Above (limitOf limits.lower) x ∧ Limit.Below (limitOf (if limits.upper = none ∨
          compareLimit (some e) limits.upper "decimal" .upper = some .lt then some e
          else limits.upper)) x := by
      split <;> exact Iff.rfl
    rw [hdecimals, hkeep]
    exact ⟨fun h => ⟨⟨h.1, h.2.1⟩, Limit.above_none x, h.2.2⟩, fun h => ⟨h.1.1, h.1.2, h.2.2⟩⟩

theorem limitStep_eq {limits : DecimalLimits} {c : Json} {keyword value : String}
    (hk : c.getStr "keyword" = some keyword) (ho : operandText c = some value)
    (hm : keyword ∈ ["min", "exclusiveMin", "max", "exclusiveMax"])
    (hexact : (exactBound value "decimal").isSome = true) {exclusive lower : Bool}
    (he : "exclusive".toList.isPrefixOf keyword.toList = exclusive)
    (hl : ("Min".toList.isSuffixOf keyword.toList || keyword == "min") = lower) :
    limitStep limits c = if lower = true then
        if limits.lower = none ∨
            compareLimit (some ⟨value, exclusive⟩) limits.lower "decimal" .lower = some .gt
        then { limits with lower := some ⟨value, exclusive⟩ } else limits
      else if limits.upper = none ∨
          compareLimit (some ⟨value, exclusive⟩) limits.upper "decimal" .upper = some .lt
        then { limits with upper := some ⟨value, exclusive⟩ } else limits := by
  rw [limitStep, hk, ho]
  simp only [he, hl]
  exact if_pos ⟨hm, hexact⟩

theorem limitStep_spec {limits : DecimalLimits} (hl : limits.Exact) (c : Json) :
    (limitStep limits c).Exact ∧ ∀ x, x ∈ (limitStep limits c).decimals ↔
      x ∈ limits.decimals ∧ Limit.Above (lowLimit c) x ∧ Limit.Below (highLimit c) x := by
  cases ho : operandText c with
  | none =>
    have hstep : limitStep limits c = limits := by
      rw [limitStep, ho]
      cases c.getStr "keyword" <;> rfl
    exact spec_none hl hstep (by rw [lowLimit, ho, Option.bind_none])
      (by rw [highLimit, ho, Option.bind_none])
  | some value =>
    have hlow : lowLimit c = if c.getStr "keyword" = some "min" then (⟨value, false⟩ : Entry).limit
        else if c.getStr "keyword" = some "exclusiveMin" then (⟨value, true⟩ : Entry).limit
        else none := by
      rw [lowLimit, ho, Option.bind_some]
    have hhigh : highLimit c = if c.getStr "keyword" = some "max" then
        (⟨value, false⟩ : Entry).limit
        else if c.getStr "keyword" = some "exclusiveMax" then (⟨value, true⟩ : Entry).limit
        else none := by
      rw [highLimit, ho, Option.bind_some]
    by_cases hexact : (exactBound value "decimal").isSome = true
    · by_cases hmin : c.getStr "keyword" = some "min"
      · apply @spec_lower limits hl c ⟨value, false⟩ hexact
        · exact (limitStep_eq hmin ho (by decide) hexact (by decide) (by decide)).trans
            (if_pos rfl)
        · simp [hlow, hmin]
        · simp [hhigh, hmin]
      by_cases hemin : c.getStr "keyword" = some "exclusiveMin"
      · apply @spec_lower limits hl c ⟨value, true⟩ hexact
        · exact (limitStep_eq hemin ho (by decide) hexact (by decide) (by decide)).trans
            (if_pos rfl)
        · simp [hlow, hemin]
        · simp [hhigh, hemin]
      by_cases hmax : c.getStr "keyword" = some "max"
      · apply @spec_upper limits hl c ⟨value, false⟩ hexact
        · exact (limitStep_eq hmax ho (by decide) hexact (by decide) (by decide)).trans
            (if_neg Bool.false_ne_true)
        · simp [hlow, hmax]
        · simp [hhigh, hmax]
      by_cases hemax : c.getStr "keyword" = some "exclusiveMax"
      · apply @spec_upper limits hl c ⟨value, true⟩ hexact
        · exact (limitStep_eq hemax ho (by decide) hexact (by decide) (by decide)).trans
            (if_neg Bool.false_ne_true)
        · simp [hlow, hemax]
        · simp [hhigh, hemax]
      refine spec_none hl ?_ (by simp [hlow, hmin, hemin]) (by simp [hhigh, hmax, hemax])
      cases hk : c.getStr "keyword" with
      | none => simp [limitStep, hk]
      | some keyword =>
        rw [hk, Option.some.injEq] at hmin hemin hmax hemax
        rw [limitStep, hk, ho]
        apply if_neg
        simp [hmin, hemin, hmax, hemax]
    · have hnone : ∀ exclusive, (⟨value, exclusive⟩ : Entry).limit = none := by
        intro exclusive
        rw [Entry.limit, Option.map_eq_none_iff]
        exact Option.not_isSome_iff_eq_none.1 hexact
      refine spec_none hl ?_ (by simp [hlow, hnone]) (by simp [hhigh, hnone])
      rw [limitStep, ho]
      cases c.getStr "keyword" with
      | none => rfl
      | some keyword => simp [hexact]

theorem decimalLimits_spec (cs : List Json) :
    (decimalLimits cs).Exact ∧ (decimalLimits cs).decimals = decimals cs := by
  have hfold : ∀ cs : List Json, ∀ limits : DecimalLimits, limits.Exact →
      (cs.foldl limitStep limits).Exact ∧ ∀ x, x ∈ (cs.foldl limitStep limits).decimals ↔
        x ∈ limits.decimals ∧ x ∈ decimals cs := by
    intro cs
    induction cs with
    | nil =>
      intro limits hl
      exact ⟨hl, fun x => ⟨fun h => ⟨h, fun c hc => absurd hc List.not_mem_nil⟩, fun h => h.1⟩⟩
    | cons c cs ih =>
      intro limits hl
      obtain ⟨hexact, hstep⟩ := limitStep_spec hl c
      obtain ⟨hrest, hmem⟩ := ih _ hexact
      refine ⟨hrest, fun x => ?_⟩
      have hcons : x ∈ decimals (c :: cs) ↔
          (Limit.Above (lowLimit c) x ∧ Limit.Below (highLimit c) x) ∧ x ∈ decimals cs :=
        List.forall_mem_cons
      rw [List.foldl_cons, hmem, hstep, and_assoc, hcons]
  obtain ⟨hexact, hmem⟩ := hfold cs ⟨none, none⟩ ⟨exact_none, exact_none⟩
  refine ⟨hexact, Set.ext fun x => (hmem x).trans ⟨fun h => h.2, fun h => ⟨?_, h⟩⟩⟩
  exact ⟨Limit.above_none x, @Limit.above_none Decimalᵒᵈ _ x⟩

/-- The bounds of a decimal change as its values do. -/
theorem numericBoundChange_decimal {before after : List Json} (hb : (decimals before).Nonempty)
    (ha : (decimals after).Nonempty) :
    Reports (numericBoundChange before after "decimal") (decimals before) (decimals after) := by
  obtain ⟨hexact, hold⟩ := decimalLimits_spec before
  obtain ⟨hexact', hnew⟩ := decimalLimits_spec after
  rw [← hold] at hb ⊢
  rw [← hnew] at ha ⊢
  have hlower := (compareLimit_eq hexact'.lower hexact.lower).1
  have hupper := (compareLimit_eq hexact'.upper hexact.upper).2
  have hloose : ∀ o : Ordering, (some o = some .lt ∨ some o = some .eq) ↔ o ≠ .gt := by decide
  have hloose' : ∀ o : Ordering, (some o = some .gt ∨ some o = some .eq) ↔ o ≠ .lt := by decide
  have hsame : (compareLimit (decimalLimits after).lower (decimalLimits before).lower "decimal"
        .lower = some .eq ∧
      compareLimit (decimalLimits after).upper (decimalLimits before).upper "decimal"
        .upper = some .eq) ↔
      (decimalLimits after).decimals = (decimalLimits before).decimals := by
    rw [hlower, hupper, Option.some.injEq, Option.some.injEq, Limit.compareLower_eq,
      Limit.compareUpper_eq]
    exact (Limit.between_eq ha hb).symm
  have hwide : ((compareLimit (decimalLimits after).lower (decimalLimits before).lower "decimal"
        .lower = some .lt ∨ compareLimit (decimalLimits after).lower
          (decimalLimits before).lower "decimal" .lower = some .eq) ∧
      (compareLimit (decimalLimits after).upper (decimalLimits before).upper "decimal"
        .upper = some .gt ∨ compareLimit (decimalLimits after).upper
          (decimalLimits before).upper "decimal" .upper = some .eq)) ↔
      (decimalLimits before).decimals ⊆ (decimalLimits after).decimals := by
    rw [hlower, hupper, hloose, hloose', Ne, Ne, Limit.compareLower_gt, Limit.compareUpper_lt,
      not_not, not_not]
    exact (Limit.between_subset hb).symm
  rw [numericBoundChange, if_neg (by decide), if_neg (by decide)]
  simp only
  exact reports_of_ite hsame hwide

/-! ### Decimal policies -/

namespace DecimalPolicy

/-- The decimals of at most `scale` fraction digits and `precision - scale` before the point. -/
def decimals (policy : DecimalPolicy) : Set Decimal :=
  {x | (∃ n : ℤ, x.1 * 10 ^ policy.scale = n) ∧ |x.1| < 10 ^ (policy.precision - policy.scale)}

def unit (policy : DecimalPolicy) : Decimal := ⟨1 / 10 ^ policy.scale, 1, policy.scale, by simp⟩

def greatest (policy : DecimalPolicy) : Decimal :=
  ⟨(10 ^ policy.precision - 1) / 10 ^ policy.scale, 10 ^ policy.precision - 1, policy.scale,
    by push_cast; rfl⟩

theorem pow_precision (policy : DecimalPolicy) : (10 : ℚ) ^ policy.precision =
    10 ^ (policy.precision - policy.scale) * 10 ^ policy.scale := by
  rw [← pow_add, Nat.sub_add_cancel policy.within]

theorem greatest_mem (policy : DecimalPolicy) : policy.greatest ∈ policy.decimals := by
  have hpow : (0 : ℚ) < 10 ^ policy.scale := by positivity
  have hone : (1 : ℚ) ≤ 10 ^ policy.precision := one_le_pow₀ (by norm_num)
  refine ⟨⟨10 ^ policy.precision - 1, ?_⟩, ?_⟩
  · push_cast
    exact div_mul_cancel₀ _ hpow.ne'
  · change |((10 : ℚ) ^ policy.precision - 1) / 10 ^ policy.scale| < _
    rw [abs_of_nonneg (div_nonneg (by linarith) hpow.le), div_lt_iff₀ hpow, ← pow_precision]
    linarith

theorem unit_mem (policy : DecimalPolicy) : policy.unit ∈ policy.decimals := by
  have hpow : (0 : ℚ) < 10 ^ policy.scale := by positivity
  refine ⟨⟨1, ?_⟩, ?_⟩
  · push_cast
    exact div_mul_cancel₀ _ hpow.ne'
  · change |(1 : ℚ) / 10 ^ policy.scale| < _
    have hlt : (1 : ℚ) < 10 ^ policy.precision :=
      one_lt_pow₀ (by norm_num) (Nat.one_le_iff_ne_zero.1 policy.positive)
    rw [abs_of_nonneg (by positivity), div_lt_iff₀ hpow, ← pow_precision]
    exact hlt

theorem decimals_subset {p q : DecimalPolicy} : p.decimals ⊆ q.decimals ↔
    p.scale ≤ q.scale ∧ p.precision - p.scale ≤ q.precision - q.scale := by
  have hp : (0 : ℚ) < 10 ^ p.scale := by positivity
  constructor
  · intro h
    constructor
    · obtain ⟨⟨n, hn⟩, -⟩ := h p.unit_mem
      have hmul : (10 : ℚ) ^ q.scale = n * 10 ^ p.scale := by
        change 1 / (10 : ℚ) ^ p.scale * 10 ^ q.scale = n at hn
        rw [← hn]
        field_simp
      have hint : (10 : ℤ) ^ q.scale = n * 10 ^ p.scale := by exact_mod_cast hmul
      have hpos : (0 : ℤ) < 10 ^ q.scale := by positivity
      have hpos' : (0 : ℤ) < 10 ^ p.scale := by positivity
      have hone : 1 ≤ n := by
        by_contra hlt
        have hle : n * 10 ^ p.scale ≤ 0 := mul_nonpos_of_nonpos_of_nonneg (by omega) hpos'.le
        omega
      have hle : (10 : ℤ) ^ p.scale ≤ 10 ^ q.scale := by
        rw [hint]
        exact le_mul_of_one_le_left hpos'.le hone
      exact (pow_le_pow_iff_right₀ (by norm_num)).1 hle
    · obtain ⟨-, hlt⟩ := h p.greatest_mem
      by_contra hgt
      have hone : (1 : ℚ) ≤ 10 ^ p.scale := one_le_pow₀ (by norm_num)
      have hprec : (1 : ℚ) ≤ 10 ^ p.precision := one_le_pow₀ (by norm_num)
      change |((10 : ℚ) ^ p.precision - 1) / 10 ^ p.scale| < _ at hlt
      rw [abs_of_nonneg (div_nonneg (by linarith) hp.le), div_lt_iff₀ hp, pow_precision] at hlt
      obtain ⟨d, hd⟩ := Nat.exists_eq_add_of_lt (not_le.1 hgt)
      have hlarge : (10 : ℚ) ^ (p.precision - p.scale) =
          10 ^ (q.precision - q.scale) * 10 ^ d * 10 := by
        rw [hd, pow_add, pow_add, pow_one]
      have hq : (1 : ℚ) ≤ 10 ^ (q.precision - q.scale) := one_le_pow₀ (by norm_num)
      have hten : (1 : ℚ) ≤ 10 ^ d := one_le_pow₀ (by norm_num)
      have hprod : (10 : ℚ) ^ (q.precision - q.scale) ≤
          10 ^ (q.precision - q.scale) * 10 ^ d := le_mul_of_one_le_right (by linarith) hten
      rw [hlarge] at hlt
      nlinarith
  · intro h x hx
    obtain ⟨hs, hd⟩ := h
    obtain ⟨⟨n, hn⟩, hlt⟩ := hx
    refine ⟨⟨n * 10 ^ (q.scale - p.scale), ?_⟩, hlt.trans_le (pow_le_pow_right₀ (by norm_num) hd)⟩
    rw [← Nat.add_sub_cancel' hs, pow_add, ← mul_assoc, hn, Nat.add_sub_cancel_left]
    push_cast
    rfl

theorem decimals_eq {p q : DecimalPolicy} : p.decimals = q.decimals ↔ p = q := by
  constructor
  · intro h
    obtain ⟨hs, hd⟩ := decimals_subset.1 h.subset
    obtain ⟨hs', hd'⟩ := decimals_subset.1 h.superset
    obtain ⟨pp, ps, hpp, hpw⟩ := p
    obtain ⟨qp, qs, hqp, hqw⟩ := q
    change ps ≤ qs at hs
    change qs ≤ ps at hs'
    change pp - ps ≤ qp - qs at hd
    change qp - qs ≤ pp - ps at hd'
    obtain rfl : ps = qs := le_antisymm hs hs'
    obtain rfl : pp = qp := by omega
    rfl
  · intro h
    rw [h]

end DecimalPolicy

theorem decimalPolicyChange_spec (before after : DecimalPolicy) :
    Reports (decimalPolicyChange (some before) (some after)) before.decimals after.decimals := by
  refine reports_of_ite ?_ DecimalPolicy.decimals_subset.symm
  rw [Option.some.injEq, DecimalPolicy.decimals_eq, eq_comm]

/-! ### References -/

/-- What a policy admits, everything where there is none. -/
def policyDecimals : Option DecimalPolicy → Set Decimal
  | none => Set.univ
  | some policy => policy.decimals

/-- The constraints on a value: those of what its reference resolves to, and its own. -/
def Subject.bounds (subject : Subject) (field : Inline) : List Json :=
  subject.constraints ++ field.constraints

def Subject.decimals (subject : Subject) (field : Inline) : Set Decimal :=
  Diff.decimals (subject.bounds field) ∩ policyDecimals (field.decimal.or subject.decimal)

theorem policyDecimals_subset {before after : Option DecimalPolicy}
    (h : decimalPolicyChange before after ≠ some .breaking) :
    policyDecimals before ⊆ policyDecimals after := by
  cases before with
  | none =>
    cases after with
    | none => exact subset_rfl
    | some q => exact absurd rfl h
  | some p =>
    cases after with
    | none => exact absurd rfl h
    | some q =>
      by_contra hsub
      exact h ((decimalPolicyChange_spec p q).broken.2 hsub)

theorem numericRefDisposition_cases (original field : Inline) (old new : Subject) :
    numericRefDisposition original field old new = .conditional ∨
      numericRefDisposition original field old new = .breaking := by
  have hsome : ∀ change : Option Disposition, change = none ∨ change = some .conditional ∨
      change = some .breaking → change.getD .breaking = .conditional ∨
        change.getD .breaking = .breaking := by
    intro change h
    obtain rfl | rfl | rfl := h
    · exact .inr rfl
    · exact .inl rfl
    · exact .inr rfl
  simp only [numericRefDisposition]
  split_ifs
  · apply hsome
    rw [scalarChange]
    split_ifs
    · exact .inl rfl
    · exact .inr (.inl rfl)
    · exact .inr (.inr rfl)
  · exact .inr rfl
  · apply hsome
    rw [numericBoundChange, if_pos rfl]
    simp only
    split_ifs
    · exact .inl rfl
    · exact .inr (.inl rfl)
    · exact .inr (.inr rfl)
  · exact .inr rfl
  · exact .inl rfl
  · exact .inr rfl
  · exact .inr rfl

theorem numericRefDisposition_integer {original field : Inline} {old new : Subject}
    (ho : old.scalar = some "integer") (hn : new.scalar = some "integer")
    (hold : (integers (old.bounds original)).Nonempty)
    (hnew : (integers (new.bounds field)).Nonempty) :
    numericRefDisposition original field old new = .conditional ↔
      wideInteger (old.bounds original) = wideInteger (new.bounds field) ∧
        integers (old.bounds original) ⊂ integers (new.bounds field) := by
  have hreport := numericBoundChange_integer hold hnew
  have hvalue : numericRefDisposition original field old new =
      if (wideInteger (old.bounds original) != wideInteger (new.bounds field)) = true then .breaking
      else (numericBoundChange (old.bounds original) (new.bounds field) "integer").getD
        .breaking := by
    rw [numericRefDisposition, if_neg (by rw [ho, hn]; exact not_not.2 rfl)]
    exact if_pos ho
  rw [hvalue, ← hreport.widened]
  by_cases hw : wideInteger (old.bounds original) = wideInteger (new.bounds field)
  · rw [if_neg (by rw [hw]; simp)]
    cases numericBoundChange (old.bounds original) (new.bounds field) "integer" with
    | none => exact iff_of_false (fun h => by cases h) fun h => by cases h.2
    | some d =>
      rw [Option.getD_some, Option.some.injEq]
      exact ⟨fun h => ⟨hw, h⟩, fun h => h.2⟩
  · rw [if_pos (by simpa using hw)]
    exact iff_of_false (fun h => by cases h) fun h => hw h.1

theorem numericRefDisposition_decimal {original field : Inline} {old new : Subject}
    (ho : old.scalar = some "decimal") (hn : new.scalar = some "decimal")
    (hold : (decimals (old.bounds original)).Nonempty)
    (hnew : (decimals (new.bounds field)).Nonempty)
    (h : numericRefDisposition original field old new = .conditional) :
    old.decimals original ⊆ new.decimals field := by
  have hreport := numericBoundChange_decimal hold hnew
  have hint : ¬ old.scalar = some "integer" := by rw [ho]; decide
  rw [numericRefDisposition, if_neg (by rw [ho, hn]; exact not_not.2 rfl)] at h
  simp only [if_neg hint, if_pos ho] at h
  split at h
  · cases h
  · next hnot =>
    rw [not_or] at hnot
    have hbounds : decimals (old.bounds original) ⊆ decimals (new.bounds field) := by
      by_contra hsub
      exact hnot.2 (hreport.broken.2 hsub)
    exact Set.inter_subset_inter hbounds (policyDecimals_subset hnot.1)

/-! ### Numeric changes -/

/-- Integer ranges, decimal bounds and decimal policies are each compared as sets of values. A
reference that is pointed elsewhere is never without a change, and where it is no breaking change
its values are all kept. -/
theorem numericChanges_report :
    (∀ before after, (integers before).Nonempty → (integers after).Nonempty →
      Reports (numericBoundChange before after "integer") (integers before) (integers after)) ∧
    (∀ before after, (decimals before).Nonempty → (decimals after).Nonempty →
      Reports (numericBoundChange before after "decimal") (decimals before) (decimals after)) ∧
    (∀ before after : DecimalPolicy,
      Reports (decimalPolicyChange (some before) (some after)) before.decimals after.decimals) ∧
    (∀ original field old new, numericRefDisposition original field old new = .conditional ∨
      numericRefDisposition original field old new = .breaking) ∧
    (∀ original field old new, old.scalar = some "integer" → new.scalar = some "integer" →
      (integers (old.bounds original)).Nonempty → (integers (new.bounds field)).Nonempty →
      (numericRefDisposition original field old new = .conditional ↔
        wideInteger (old.bounds original) = wideInteger (new.bounds field) ∧
          integers (old.bounds original) ⊂ integers (new.bounds field))) ∧
    ∀ original field old new, old.scalar = some "decimal" → new.scalar = some "decimal" →
      (decimals (old.bounds original)).Nonempty → (decimals (new.bounds field)).Nonempty →
      numericRefDisposition original field old new = .conditional →
        old.decimals original ⊆ new.decimals field :=
  ⟨fun _ _ => numericBoundChange_integer, fun _ _ => numericBoundChange_decimal,
    decimalPolicyChange_spec, numericRefDisposition_cases,
    fun _ _ _ _ => numericRefDisposition_integer, fun _ _ _ _ => numericRefDisposition_decimal⟩

def sampleBound (keyword value : String) : Json :=
  .object [("keyword", .str keyword), ("operands", .object [("value", .str value)])]

theorem sampleIntegers_nonempty : (integers []).Nonempty := by
  refine ⟨0, mem_integers.2 ?_⟩
  decide +kernel

/-- A bound past 2^53 that moves up. -/
theorem numericChanges_report_wide :
    Reports (numericBoundChange [sampleBound "max" "9007199254740992"]
        [sampleBound "max" "9007199254740993"] "integer")
      (integers [sampleBound "max" "9007199254740992"])
      (integers [sampleBound "max" "9007199254740993"]) := by
  apply numericChanges_report.1
  · refine ⟨0, mem_integers.2 ?_⟩
    decide +kernel
  · refine ⟨0, mem_integers.2 ?_⟩
    decide +kernel

/-- A reference whose integers grow past the safe ones is a breaking change. -/
theorem wideReference_breaks :
    (integers []).Nonempty ∧ integers [] ⊂ integers [sampleBound "max" "9007199254740992"] ∧
      numericRefDisposition ⟨[], none⟩ ⟨[], none⟩ ⟨some "integer", [], none⟩
        ⟨some "integer", [sampleBound "max" "9007199254740992"], none⟩ = .breaking := by
  have hne : (integers [sampleBound "max" "9007199254740992"]).Nonempty := by
    refine ⟨0, mem_integers.2 ?_⟩
    decide +kernel
  have hempty := sampleIntegers_nonempty
  refine ⟨hempty, ?_, by decide +kernel⟩
  rw [ssubset_iff_subset_not_subset, integers_subset hempty, integers_subset hne]
  decide +kernel

end FilamentCore.Compiler.Diff
