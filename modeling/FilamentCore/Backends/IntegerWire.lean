import FilamentCore.Backends.IntegerBounds
import FilamentCore.Backends.Rendering

/-!
# The wire form of an integer (FR-144)

Where a position resolves to an integer, the TypeScript model marks it wide
(src/compiler/backends/typescript-v1/model.mjs) and the Rust mapping gives it a string adapter and
an integer type (rust-serde/mapping.mjs).
-/

namespace FilamentCore.Backends
open FilamentCore.SemanticIr (Json)

/-- `node.constraints ?? []`. -/
def constraintsOf (node : Json) : List Json := node.members "constraints"

/-! ### Walks -/

/-- The walk of a reference that ends at an integer: the types it passes, and over how many
aliases. -/
inductive Walk (document : Json) : String → List Json → ℕ → Prop
  | native {reference : String} : typeOf document reference = none →
      nativeScalar reference = some "integer" → Walk document reference [] 0
  | scalar {reference : String} {type : Json} : typeOf document reference = some type →
      nativeScalar reference = none → type.getStr "kind" = some "scalar" →
      type.getStr "scalar" = some "integer" → Walk document reference [type] 0
  | link {reference next : String} {type : Json} {chain : List Json} {links : ℕ} :
      typeOf document reference = some type → nativeScalar reference = none →
      isAliasShaped document type = true → type.getStr "target" = some next →
      Walk document next chain links → Walk document reference (type :: chain) (links + 1)

variable {document : Json} {reference : String} {chain : List Json} {links : ℕ}

theorem isAliasShaped_scalar {type : Json} (h : type.getStr "kind" = some "scalar") :
    isAliasShaped document type = false := by
  rw [isAliasShaped, renderingOf_core h]
  decide

theorem kind_of_alias {type : Json} (h : isAliasShaped document type = true) :
    type.getStr "kind" ≠ some "scalar" :=
  fun hk => Bool.false_ne_true ((isAliasShaped_scalar hk).symm.trans h)

theorem Walk.unique {chain' : List Json} {links' : ℕ} (h : Walk document reference chain links)
    (h' : Walk document reference chain' links') : chain = chain' ∧ links = links' := by
  induction h generalizing chain' links' with
  | native ht _ =>
    cases h' with
    | native _ _ => exact ⟨rfl, rfl⟩
    | scalar ht' => cases ht.symm.trans ht'
    | link ht' => cases ht.symm.trans ht'
  | scalar ht _ hk _ =>
    cases h' with
    | native ht' => cases ht.symm.trans ht'
    | scalar ht' =>
      cases ht.symm.trans ht'
      exact ⟨rfl, rfl⟩
    | link ht' _ ha =>
      cases ht.symm.trans ht'
      exact absurd hk (kind_of_alias ha)
  | link ht _ ha hn _ ih =>
    cases h' with
    | native ht' => cases ht.symm.trans ht'
    | scalar ht' _ hk =>
      cases ht.symm.trans ht'
      exact absurd hk (kind_of_alias ha)
    | link ht' _ _ hn' hw =>
      cases ht.symm.trans ht'
      cases hn.symm.trans hn'
      obtain ⟨rfl, rfl⟩ := ih hw
      exact ⟨rfl, rfl⟩

theorem Walk.native_of_nil (h : Walk document reference [] links) :
    nativeScalar reference = some "integer" := by
  cases h
  assumption

theorem Walk.not_native (h : Walk document reference chain links) (hc : chain ≠ []) :
    nativeScalar reference = none := by
  cases h with
  | native => exact absurd rfl hc
  | scalar _ hn => exact hn
  | link _ hn => exact hn

/-- The places already seen have longer walks, so none of them is on this one. -/
def Fresh (document : Json) (seen : List String) (links : ℕ) : Prop :=
  ∀ i ∈ seen, ∀ chain' links', Walk document i chain' links' → links < links'

theorem Fresh.nil : Fresh document [] links := fun _ hi => absurd hi List.not_mem_nil

theorem Fresh.not_mem {seen : List String} (h : Fresh document seen links)
    (hw : Walk document reference chain links) : reference ∉ seen :=
  fun hm => Nat.lt_irrefl _ (h reference hm _ _ hw)

theorem Fresh.cons {seen : List String} (h : Fresh document seen (links + 1))
    (hw : Walk document reference chain (links + 1)) :
    Fresh document (reference :: seen) links := by
  intro i hi chain' links' hw'
  obtain rfl | hi := List.mem_cons.1 hi
  · have he := (hw.unique hw').2
    omega
  · have hlt := h i hi _ _ hw'
    omega

/-! ### Following references -/

def unseen (document : Json) (seen : List String) : ℕ :=
  (((document.members "types").filterMap (·.getStr "identity")).toFinset.filter (· ∉ seen)).card

theorem typeOf_identity {type : Json} (h : typeOf document reference = some type) :
    type ∈ document.members "types" ∧ type.getStr "identity" = some reference := by
  have hi := List.find?_some h
  exact ⟨List.mem_reverse.1 (List.mem_of_find?_eq_some h), by simpa using hi⟩

theorem unseen_lt {seen : List String} {type : Json} (ht : typeOf document reference = some type)
    (hs : reference ∉ seen) : unseen document (reference :: seen) < unseen document seen := by
  obtain ⟨hm, hi⟩ := typeOf_identity ht
  apply Finset.card_lt_card
  rw [Finset.ssubset_iff_of_subset]
  · refine ⟨reference, ?_, ?_⟩
    · exact Finset.mem_filter.2 ⟨List.mem_toFinset.2 (List.mem_filterMap.2 ⟨type, hm, hi⟩), hs⟩
    · simp
  · intro i hi
    obtain ⟨hi, hn⟩ := Finset.mem_filter.1 hi
    exact Finset.mem_filter.2 ⟨hi, fun hm => hn (List.mem_cons_of_mem _ hm)⟩

/-! ### The TypeScript model -/

namespace TypescriptV1

def maxDepth : ℕ := 256

/-- Whether resolution goes on through the target of the type. -/
def isChained (document type : Json) : Bool :=
  isAliasShaped document type || type.getStr "kind" = some "reference"

def resolveScalar (document : Json) (seen : List String) (depth : ℕ) :
    Option String → Option String
  | none => none
  | some identity =>
    if _hs : identity ∈ seen ∨ maxDepth < depth then none
    else
      match _ht : typeOf document identity with
      | none => nativeScalar identity
      | some type =>
        if type.getStr "kind" = some "scalar" then type.getStr "scalar"
        else if isChained document type then
          resolveScalar document (identity :: seen) (depth + 1) (type.getStr "target")
        else none
termination_by unseen document seen
decreasing_by exact unseen_lt _ht fun hm => _hs (.inl hm)

/-- The bounds of a type under those of its target. -/
def meet (own : Bounds) (parent : Option Bounds) : Bounds :=
  match parent with
  | none => own
  | some parent =>
    { lower :=
        if own.lowerExplicit && parent.lowerExplicit then
          if parent.lower < own.lower then own.lower else parent.lower
        else if own.lowerExplicit || !parent.lowerExplicit then own.lower else parent.lower
      upper :=
        if own.upperExplicit && parent.upperExplicit then
          if own.upper < parent.upper then own.upper else parent.upper
        else if own.upperExplicit || !parent.upperExplicit then own.upper else parent.upper
      lowerExplicit := own.lowerExplicit || parent.lowerExplicit
      upperExplicit := own.upperExplicit || parent.upperExplicit }

def effectiveIntegerBounds (document : Json) (seen : List String) : Option String → Option Bounds
  | none => none
  | some identity =>
    if _hs : identity ∈ seen then none
    else
      match _ht : typeOf document identity with
      | none => none
      | some type =>
        let parent := if isChained document type then
            effectiveIntegerBounds document (identity :: seen) (type.getStr "target")
          else none
        if type.getStr "kind" ≠ some "scalar" ∧ isChained document type = false then parent
        else if resolveScalar document [] 0 (some identity) ≠ some "integer" then parent
        else some (meet (integerBounds (constraintsOf type)) parent)
termination_by unseen document seen
decreasing_by exact unseen_lt _ht _hs

/-- One of the ends is not a safe integer. -/
def isWide (lower upper : ℤ) : Bool :=
  decide (lower < -safeInteger) || decide (safeInteger < lower) ||
    decide (upper < -safeInteger) || decide (safeInteger < upper)

/-! ### What the model finds on a walk -/

variable {seen : List String} {depth : ℕ}

theorem isChained_scalar {type : Json} (h : type.getStr "kind" = some "scalar") :
    isChained document type = false := by
  rw [isChained, isAliasShaped_scalar h, h]
  decide

theorem isChained_alias {type : Json} (h : isAliasShaped document type = true) :
    isChained document type = true := by
  rw [isChained, h, Bool.true_or]

theorem resolveScalar_walk (hw : Walk document reference chain links)
    (hf : Fresh document seen links) :
    resolveScalar document seen depth (some reference) =
      if depth + links ≤ maxDepth then some "integer" else none := by
  induction hw generalizing seen depth with
  | @native reference ht hn =>
    have hs := hf.not_mem (.native ht hn)
    rw [resolveScalar]
    by_cases hd : maxDepth < depth
    · rw [dif_pos (.inr hd), if_neg (by omega)]
    · rw [dif_neg (by tauto), if_pos (by omega)]
      split
      · exact hn
      · next type ht' => cases ht.symm.trans ht'
  | @scalar reference type ht hn hk hi =>
    have hs := hf.not_mem (.scalar ht hn hk hi)
    rw [resolveScalar]
    by_cases hd : maxDepth < depth
    · rw [dif_pos (.inr hd), if_neg (by omega)]
    · rw [dif_neg (by tauto), if_pos (by omega)]
      split
      · next ht' => cases ht.symm.trans ht'
      · next type' ht' =>
        cases ht.symm.trans ht'
        rw [if_pos hk, hi]
  | @link reference next type chain links ht hn ha hg hw ih =>
    have hs := hf.not_mem (.link ht hn ha hg hw)
    rw [resolveScalar]
    by_cases hd : maxDepth < depth
    · rw [dif_pos (.inr hd), if_neg (by omega)]
    · rw [dif_neg (by tauto)]
      split
      · next ht' => cases ht.symm.trans ht'
      · next type' ht' =>
        cases ht.symm.trans ht'
        rw [if_neg (kind_of_alias ha), if_pos (isChained_alias ha), hg,
          ih (hf.cons (.link ht hn ha hg hw)), show depth + 1 + links = depth + (links + 1) by omega]

theorem resolveScalar_start (hw : Walk document reference chain links) :
    resolveScalar document [] 0 (some reference) =
      if links ≤ maxDepth then some "integer" else none := by
  rw [resolveScalar_walk hw Fresh.nil, Nat.zero_add]

theorem meet_boundsOf (cs ds : List Json) :
    meet (boundsOf cs) (some (boundsOf ds)) = boundsOf (cs ++ ds) := by
  simp only [meet, boundsOf, lows_append, highs_append, Bounds.of, Bounds.mk.injEq]
  refine ⟨?_, ?_, ?_, ?_⟩
  · by_cases hl : lows cs = []
    · by_cases hm : lows ds = []
      · simp [hl, hm]
      · simp [hl, hm]
    · by_cases hm : lows ds = []
      · simp [hm]
      · rw [unbotD_append hl hm]
        simp only [hl, hm, List.isEmpty_eq_false_iff.2, ne_eq, not_false_eq_true, Bool.not_false,
          Bool.and_self, if_true]
        grind
  · by_cases hh : highs cs = []
    · by_cases hk : highs ds = []
      · simp [hh, hk]
      · simp [hh, hk]
    · by_cases hk : highs ds = []
      · simp [hk]
      · rw [untopD_append hh hk]
        simp only [hh, hk, List.isEmpty_eq_false_iff.2, ne_eq, not_false_eq_true, Bool.not_false,
          Bool.and_self, if_true]
        grind
  · cases lows cs <;> rfl
  · cases highs cs <;> rfl

/-- The types of a walk whose bounds the model counts: the last `maxDepth` links. -/
def heard (chain : List Json) (links : ℕ) : List Json := chain.drop (links - maxDepth)

theorem heard_cons {type : Json} (h : links + 1 ≤ maxDepth) :
    heard (type :: chain) (links + 1) = type :: heard chain links := by
  rw [heard, heard, show links + 1 - maxDepth = 0 by omega, show links - maxDepth = 0 by omega]
  rfl

theorem heard_far {type : Json} (h : maxDepth < links + 1) :
    heard (type :: chain) (links + 1) = heard chain links := by
  rw [heard, heard, show links + 1 - maxDepth = links - maxDepth + 1 by omega, List.drop_succ_cons]

noncomputable def boundsHeard (types : List Json) : Option Bounds :=
  if types = [] then none else some (boundsOf (types.flatMap constraintsOf))

theorem meet_boundsHeard (type : Json) (types : List Json) :
    some (meet (boundsOf (constraintsOf type)) (boundsHeard types)) =
      boundsHeard (type :: types) := by
  cases types with
  | nil => simp [boundsHeard, meet]
  | cons next types =>
    rw [boundsHeard, boundsHeard, if_neg (List.cons_ne_nil _ _), if_neg (List.cons_ne_nil _ _),
      meet_boundsOf, List.flatMap_cons (x := type)]

theorem effectiveIntegerBounds_walk (hw : Walk document reference chain links)
    (hf : Fresh document seen links) :
    effectiveIntegerBounds document seen (some reference) = boundsHeard (heard chain links) := by
  induction hw generalizing seen with
  | @native reference ht hn =>
    rw [effectiveIntegerBounds, dif_neg (hf.not_mem (.native ht hn))]
    split
    · rfl
    · next type ht' => cases ht.symm.trans ht'
  | @scalar reference type ht hn hk hi =>
    have hr := resolveScalar_start (.scalar ht hn hk hi)
    rw [effectiveIntegerBounds, dif_neg (hf.not_mem (.scalar ht hn hk hi))]
    split
    · next ht' => cases ht.symm.trans ht'
    · next type' ht' =>
      cases ht.symm.trans ht'
      have hown : resolveScalar document [] 0 (some reference) = some "integer" := by
        rw [hr, if_pos (by decide)]
      simp only [hk, isChained_scalar hk, hown, ne_eq, not_true_eq_false, false_and, if_false,
        Bool.false_eq_true, integerBounds_eq]
      exact meet_boundsHeard type []
  | @link reference next type chain links ht hn ha hg hw ih =>
    have hwalk := Walk.link ht hn ha hg hw
    have hr := resolveScalar_start hwalk
    rw [effectiveIntegerBounds, dif_neg (hf.not_mem hwalk)]
    split
    · next ht' => cases ht.symm.trans ht'
    · next type' ht' =>
      cases ht.symm.trans ht'
      simp only [isChained_alias ha, hg, if_true, ih (hf.cons hwalk), hr,
        Bool.true_eq_false, and_false, if_false, integerBounds_eq]
      by_cases hd : links + 1 ≤ maxDepth
      · rw [if_pos hd, if_neg (by simp), heard_cons hd, meet_boundsHeard]
      · rw [if_neg hd, if_pos (by simp), heard_far (by omega)]

theorem isWide_range (cs : List Json) :
    isWide (boundsOf cs).lower (boundsOf cs).upper = true ↔ ¬ (effectiveRange cs).Inside := by
  rw [← boundsOf_range, Range.Inside, isWide]
  simp only [Bool.or_eq_true, decide_eq_true_eq]
  omega

def effectiveWideInteger (document : Json) (identity : Option String) : Bool :=
  (effectiveIntegerBounds document [] identity).any fun bounds => isWide bounds.lower bounds.upper

theorem effectiveWideInteger_walk (hw : Walk document reference chain links) :
    effectiveWideInteger document (some reference) = true ↔
      ¬ (effectiveRange ((heard chain links).flatMap constraintsOf)).Inside := by
  rw [effectiveWideInteger, effectiveIntegerBounds_walk hw Fresh.nil, boundsHeard]
  by_cases hh : heard chain links = []
  · rw [if_pos hh, hh, List.flatMap_nil]
    exact ⟨fun h => absurd h Bool.false_ne_true, fun h => absurd effectiveRange_nil_inside h⟩
  · rw [if_neg hh, ← isWide_range, Option.any_some]

def wideIntegerWithConstraints (document : Json) (identity : Option String)
    (constraints : List Json) : Bool :=
  if resolveScalar document [] 0 identity ≠ some "integer" then false
  else
    let base := (effectiveIntegerBounds document [] identity).getD .missing
    let own := integerBounds constraints
    isWide
      (if own.lowerExplicit then
        if base.lowerExplicit && decide (own.lower < base.lower) then base.lower else own.lower
      else base.lower)
      (if own.upperExplicit then
        if base.upperExplicit && decide (base.upper < own.upper) then base.upper else own.upper
      else base.upper)

theorem meet_lower (cs ds : List Json) :
    (if (boundsOf cs).lowerExplicit then
        if (boundsOf ds).lowerExplicit && decide ((boundsOf cs).lower < (boundsOf ds).lower) then
          (boundsOf ds).lower
        else (boundsOf cs).lower
      else (boundsOf ds).lower) = (meet (boundsOf cs) (some (boundsOf ds))).lower := by
  rw [meet]
  cases hc : (boundsOf cs).lowerExplicit
  · cases hd : (boundsOf ds).lowerExplicit
    · simp [lower_default hc, lower_default hd]
    · simp
  · cases hd : (boundsOf ds).lowerExplicit
    · simp
    · simp only [Bool.true_and, Bool.and_self, decide_eq_true_eq, if_true]
      split_ifs with h h' h'
      · omega
      · rfl
      · rfl
      · omega

theorem meet_upper (cs ds : List Json) :
    (if (boundsOf cs).upperExplicit then
        if (boundsOf ds).upperExplicit && decide ((boundsOf ds).upper < (boundsOf cs).upper) then
          (boundsOf ds).upper
        else (boundsOf cs).upper
      else (boundsOf ds).upper) = (meet (boundsOf cs) (some (boundsOf ds))).upper := by
  rw [meet]
  cases hc : (boundsOf cs).upperExplicit
  · cases hd : (boundsOf ds).upperExplicit
    · simp [upper_default hc, upper_default hd]
    · simp
  · cases hd : (boundsOf ds).upperExplicit
    · simp
    · simp only [Bool.true_and, Bool.and_self, decide_eq_true_eq, if_true]
      split_ifs with h h' h'
      · omega
      · rfl
      · rfl
      · omega

theorem wideIntegerWithConstraints_walk (hw : Walk document reference chain links)
    (hl : links ≤ maxDepth) (constraints : List Json) :
    wideIntegerWithConstraints document (some reference) constraints = true ↔
      ¬ (effectiveRange ((heard chain links).flatMap constraintsOf ++ constraints)).Inside := by
  have hr := resolveScalar_start hw
  rw [if_pos hl] at hr
  have hbase : (boundsHeard (heard chain links)).getD .missing =
      boundsOf ((heard chain links).flatMap constraintsOf) := by
    by_cases hh : heard chain links = []
    · rw [boundsHeard, if_pos hh, hh]
      rfl
    · rw [boundsHeard, if_neg hh, Option.getD_some]
  have hperm : (constraints ++ (heard chain links).flatMap constraintsOf).Perm
      ((heard chain links).flatMap constraintsOf ++ constraints) := List.perm_append_comm
  rw [← effectiveRange_perm hperm, ← isWide_range, ← meet_boundsOf, wideIntegerWithConstraints,
    if_neg (by simp [hr]), effectiveIntegerBounds_walk hw Fresh.nil, hbase, integerBounds_eq,
    ← meet_lower, ← meet_upper]

/-- `fieldEntry(types, identifiers, field).element.wideInteger`. -/
def fieldWide (document field : Json) : Bool :=
  let typeRef := field.getStr "typeRef"
  if constraintsOf field ≠ [] ∧ resolveScalar document [] 0 typeRef = some "integer" then
    wideIntegerWithConstraints document typeRef (constraintsOf field)
  else effectiveWideInteger document typeRef

/-- The constraints that decide a field: those of the types heard, and its own where its type is
resolved. -/
def fieldHeard (chain : List Json) (links : ℕ) (constraints : List Json) : List Json :=
  (heard chain links).flatMap constraintsOf ++ if links ≤ maxDepth then constraints else []

theorem fieldWide_walk {field : Json} (hr : field.getStr "typeRef" = some reference)
    (hw : Walk document reference chain links) :
    fieldWide document field = true ↔
      ¬ (effectiveRange (fieldHeard chain links (constraintsOf field))).Inside := by
  have hs := resolveScalar_start hw
  rw [fieldWide, hr, hs, fieldHeard]
  by_cases hl : links ≤ maxDepth
  · rw [if_pos hl, if_pos hl]
    by_cases hc : constraintsOf field = []
    · rw [if_neg (by simp [hc]), hc, List.append_nil, effectiveWideInteger_walk hw]
    · rw [if_pos ⟨hc, rfl⟩, wideIntegerWithConstraints_walk hw hl]
  · rw [if_neg hl, if_neg hl, if_neg (by simp), List.append_nil, effectiveWideInteger_walk hw]

end TypescriptV1

/-! ### The Rust mapping -/

namespace RustSerde

variable {seen : List String}

inductive IntegerType where
  | i64 | u64 | i128
  deriving DecidableEq, Repr

def IntegerType.Contains : IntegerType → ℤ → Prop
  | .i64, x => -2 ^ 63 ≤ x ∧ x ≤ 2 ^ 63 - 1
  | .u64, x => 0 ≤ x ∧ x ≤ 2 ^ 64 - 1
  | .i128, x => -2 ^ 127 ≤ x ∧ x ≤ 2 ^ 127 - 1

def integerRustType (constraints : List Json) : IntegerType :=
  let bounds := integerBounds constraints
  if -2 ^ 63 ≤ bounds.lower ∧ bounds.upper ≤ 2 ^ 63 - 1 then .i64
  else if 0 ≤ bounds.lower ∧ bounds.upper ≤ 2 ^ 64 - 1 then .u64
  else .i128

def integerIsWide (constraints : List Json) : Bool :=
  let bounds := integerBounds constraints
  decide (bounds.lower < -safeInteger) || decide (safeInteger < bounds.lower) ||
    decide (bounds.upper < -safeInteger) || decide (safeInteger < bounds.upper)

/-- Every operand is within the ceiling of a bound. -/
def Small (constraints : List Json) : Prop :=
  ∀ c ∈ constraints, ∀ n, operandOf c = some n → -2 ^ 127 ≤ n ∧ n ≤ 2 ^ 127 - 1

theorem Small.low {cs : List Json} (h : Small cs) {a : ℤ} (ha : a ∈ lows cs) : -2 ^ 127 ≤ a := by
  obtain ⟨c, hc, hlow⟩ := List.mem_filterMap.1 ha
  obtain ⟨n, hn, hlow⟩ := Option.bind_eq_some_iff.1 hlow
  have hb := h c hc n hn
  split_ifs at hlow
  · cases hlow
    exact hb.1
  · cases hlow
    omega

theorem Small.high {cs : List Json} (h : Small cs) {b : ℤ} (hb : b ∈ highs cs) :
    b ≤ 2 ^ 127 - 1 := by
  obtain ⟨c, hc, hhigh⟩ := List.mem_filterMap.1 hb
  obtain ⟨n, hn, hhigh⟩ := Option.bind_eq_some_iff.1 hhigh
  have hb := h c hc n hn
  split_ifs at hhigh
  · cases hhigh
    exact hb.2
  · cases hhigh
    omega

/-- The type chosen holds every integer of the range. -/
theorem integerRustType_contains {cs : List Json} (h : Small cs) {x : ℤ}
    (hx : (effectiveRange cs).Contains x) : (integerRustType cs).Contains x := by
  have hlo : (boundsOf cs).lower ≤ x := hx.1
  have hhi : x ≤ (boundsOf cs).upper := hx.2
  obtain ⟨hlows, hlnil, hhighs, hhnil⟩ := (effectiveRange_contains cs x).1 hx
  rw [integerRustType, integerBounds_eq]
  split_ifs with hi hu
  · exact ⟨hi.1.trans hlo, hhi.trans hi.2⟩
  · exact ⟨hu.1.trans hlo, hhi.trans hu.2⟩
  · have hsafe : safeInteger ≤ 2 ^ 127 - 1 := by norm_num [safeInteger]
    constructor
    · cases hl : lows cs with
      | nil =>
        have := hlnil hl
        omega
      | cons a ls =>
        have hmem : a ∈ lows cs := hl ▸ List.mem_cons_self
        exact (h.low hmem).trans (hlows a hmem)
    · cases hh : highs cs with
      | nil => exact (hhnil hh).trans hsafe
      | cons b hs =>
        have hmem : b ∈ highs cs := hh ▸ List.mem_cons_self
        exact (hhighs b hmem).trans (h.high hmem)

theorem integerIsWide_range (cs : List Json) :
    integerIsWide cs = true ↔ ¬ (effectiveRange cs).Inside := by
  rw [integerIsWide, integerBounds_eq]
  exact TypescriptV1.isWide_range cs

theorem integerIsWide_nil : integerIsWide [] = false :=
  Bool.eq_false_iff.2 fun h => (integerIsWide_range []).1 h effectiveRange_nil_inside

theorem integerRustType_nil : integerRustType [] = .i64 := by
  have h : -2 ^ 63 ≤ -safeInteger ∧ safeInteger ≤ 2 ^ 63 - 1 := by norm_num [safeInteger]
  rw [integerRustType]
  exact if_pos h

theorem integerRustType_perm {cs ds : List Json} (h : cs.Perm ds) :
    integerRustType cs = integerRustType ds := by
  have hr := effectiveRange_perm h
  have hlo : (boundsOf cs).lower = (boundsOf ds).lower := congrArg Range.lo hr
  have hhi : (boundsOf cs).upper = (boundsOf ds).upper := congrArg Range.hi hr
  rw [integerRustType, integerRustType, integerBounds_eq, integerBounds_eq, hlo, hhi]

theorem integerIsWide_perm {cs ds : List Json} (h : cs.Perm ds) :
    integerIsWide cs = integerIsWide ds := by
  rw [Bool.eq_iff_iff, integerIsWide_range, integerIsWide_range, effectiveRange_perm h]

/-- `resolveKind(byIdentity, typeRef)`: a kind and a scalar. -/
def resolveKind (document : Json) (seen : List String) :
    Option String → Option (Option String × Option String)
  | none => none
  | some identity =>
    if _hs : identity ∈ seen then none
    else
      match nativeScalar identity with
      | some scalar => some (some "scalar", some scalar)
      | none =>
        match _ht : typeOf document identity with
        | none => none
        | some definition =>
          if isAliasShaped document definition then
            resolveKind document (identity :: seen) (definition.getStr "target")
          else some (definition.getStr "kind", definition.getStr "scalar")
termination_by unseen document seen
decreasing_by exact unseen_lt _ht _hs

def constraintsThroughAliases (document : Json) (seen : List String) : Option String → List Json
  | none => []
  | some identity =>
    if _hs : identity ∈ seen then []
    else
      match _ht : typeOf document identity with
      | none => []
      | some definition =>
        (if isAliasShaped document definition then
          constraintsThroughAliases document (identity :: seen) (definition.getStr "target")
        else []) ++ constraintsOf definition
termination_by unseen document seen
decreasing_by exact unseen_lt _ht _hs

theorem resolveKind_walk (hw : Walk document reference chain links)
    (hf : Fresh document seen links) :
    resolveKind document seen (some reference) = some (some "scalar", some "integer") := by
  induction hw generalizing seen with
  | @native reference ht hn =>
    rw [resolveKind, dif_neg (hf.not_mem (.native ht hn)), hn]
  | @scalar reference type ht hn hk hi =>
    rw [resolveKind, dif_neg (hf.not_mem (.scalar ht hn hk hi)), hn]
    have ha : isAliasShaped document type = false := isAliasShaped_scalar hk
    dsimp only
    split
    · next ht' => cases ht.symm.trans ht'
    · next type' ht' =>
      cases ht.symm.trans ht'
      rw [ha, hk, hi]
      rfl
  | @link reference next type chain links ht hn ha hg hw ih =>
    have hwalk := Walk.link ht hn ha hg hw
    rw [resolveKind, dif_neg (hf.not_mem hwalk), hn]
    dsimp only
    split
    · next ht' => cases ht.symm.trans ht'
    · next type' ht' =>
      cases ht.symm.trans ht'
      rw [ha, hg, if_pos rfl, ih (hf.cons hwalk)]

theorem constraintsThroughAliases_walk (hw : Walk document reference chain links)
    (hf : Fresh document seen links) :
    constraintsThroughAliases document seen (some reference) =
      chain.reverse.flatMap constraintsOf := by
  induction hw generalizing seen with
  | @native reference ht hn =>
    rw [constraintsThroughAliases, dif_neg (hf.not_mem (.native ht hn))]
    split
    · rfl
    · next type ht' => cases ht.symm.trans ht'
  | @scalar reference type ht hn hk hi =>
    rw [constraintsThroughAliases, dif_neg (hf.not_mem (.scalar ht hn hk hi))]
    have ha : isAliasShaped document type = false := isAliasShaped_scalar hk
    split
    · next ht' => cases ht.symm.trans ht'
    · next type' ht' =>
      cases ht.symm.trans ht'
      simp [ha]
  | @link reference next type chain links ht hn ha hg hw ih =>
    have hwalk := Walk.link ht hn ha hg hw
    rw [constraintsThroughAliases, dif_neg (hf.not_mem hwalk)]
    split
    · next ht' => cases ht.symm.trans ht'
    · next type' ht' =>
      cases ht.symm.trans ht'
      rw [ha, hg, if_pos rfl, ih (hf.cons hwalk), List.reverse_cons, List.flatMap_append,
        List.flatMap_singleton]

structure IntegerDeclaration where
  inner : IntegerType
  wideInteger : Bool
  deriving DecidableEq, Repr

/-- The `scalar` and `alias` cases of `mapType`, where they resolve to an integer. -/
def mapDeclaration (document : Json) (identity : String) : Option IntegerDeclaration :=
  (typeOf document identity).bind fun definition =>
    let inherited := if isAliasShaped document definition then
        constraintsThroughAliases document [] (some identity)
      else constraintsOf definition
    let mapped := IntegerDeclaration.mk (integerRustType inherited) (integerIsWide inherited)
    match renderingOf document definition with
    | some "scalar" =>
      if definition.getStr "scalar" = some "integer" then some mapped else none
    | some "alias" =>
      if (resolveKind document [] (some identity)).any (·.2 = some "integer") then some mapped
      else none
    | _ => none

theorem mapDeclaration_walk (hc : chain ≠ []) (hw : Walk document reference chain links) :
    mapDeclaration document reference =
      some ⟨integerRustType (chain.flatMap constraintsOf),
        integerIsWide (chain.flatMap constraintsOf)⟩ := by
  cases hw with
  | native => exact absurd rfl hc
  | @scalar _ type ht hn hk hi =>
    simp [mapDeclaration, ht, renderingOf_core hk, hi, isAliasShaped_scalar hk]
  | @link _ next type chain links ht hn ha hg hw =>
    have hwalk := Walk.link ht hn ha hg hw
    have hkind := resolveKind_walk hwalk Fresh.nil
    have hall := constraintsThroughAliases_walk hwalk Fresh.nil
    have hperm : ((type :: chain).reverse.flatMap constraintsOf).Perm
        ((type :: chain).flatMap constraintsOf) := (List.reverse_perm _).flatMap_right _
    have hshape : renderingOf document type = some "alias" := by simpa [isAliasShaped] using ha
    rw [← integerRustType_perm hperm, ← integerIsWide_perm hperm]
    simp [mapDeclaration, ht, ha, hshape, hkind, hall]

/-- What stands for an element: an integer type, or the newtype of a declaration. -/
inductive Element where
  | raw (type : IntegerType)
  | declared (reference : String)
  deriving DecidableEq, Repr

def isCollection (multiplicity : Json) : Bool :=
  match multiplicity.getI64 "upper" with
  | none => true
  | some upper => 1 < upper

def IntegerType.name : IntegerType → String
  | .i64 => "i64"
  | .u64 => "u64"
  | .i128 => "i128"

def adapterModule (optional nullable collection : Bool) (type : IntegerType) : String :=
  if optional && nullable then
    if collection then "wide_option_vec_nullable" else "wide_option_nullable"
  else if optional then if collection then "wide_option_vec" else "wide_option"
  else if nullable then if collection then "wide_vec_nullable" else "wide_nullable"
  else (if collection then "wide_vec_" else "wide_") ++ type.name

structure IntegerField where
  element : Element
  serdeWith : Option String
  deriving DecidableEq, Repr

/-- The element and the adapter `mapField` gives a field that resolves to an integer. -/
def mapField (document field : Json) : Option IntegerField :=
  (field.getStr "typeRef").bind fun typeRef =>
    let multiplicity := (field.get "multiplicity").getD .null
    let optional := multiplicity.getI64 "lower" = some 0
    let nullable := field.getBool "nullable" = some true
    let all := constraintsThroughAliases document [] (some typeRef) ++ constraintsOf field
    if (resolveKind document [] (some typeRef)).any (·.2 = some "integer") then
      let native := nativeScalar typeRef = some "integer"
      some
        { element :=
            if constraintsOf field ≠ [] then .raw (integerRustType all)
            else if native then .raw .i64 else .declared typeRef
          serdeWith :=
            if native ∧ integerIsWide all then
              some ("crate::support::" ++
                adapterModule optional nullable (isCollection multiplicity) (integerRustType all))
            else none }
    else none

end RustSerde

/-! ### Positions -/

inductive Position where
  | declaration (identity : String)
  | member (node : Json)

namespace Position

def inline : Position → List Json
  | .declaration _ => []
  | .member node => constraintsOf node

/-- The position resolves to an integer, past the types of the chain. -/
inductive Resolves (document : Json) : Position → List Json → ℕ → Prop
  | declaration {identity : String} {chain : List Json} {links : ℕ} :
      chain ≠ [] → Walk document identity chain links →
      Resolves document (.declaration identity) chain links
  | member {node : Json} {typeRef : String} {chain : List Json} {links : ℕ} :
      node.getStr "typeRef" = some typeRef → Walk document typeRef chain links →
      Resolves document (.member node) chain links

def typescriptWide (document : Json) : Position → Bool
  | .declaration identity => TypescriptV1.effectiveWideInteger document (some identity)
  | .member node => TypescriptV1.fieldWide document node

/-- The integer type that stands for an element, and whether its wire form is a string. -/
def rustElement (document : Json) : RustSerde.Element → Option RustSerde.IntegerDeclaration
  | .raw type => some ⟨type, false⟩
  | .declared reference => RustSerde.mapDeclaration document reference

def rustWire (document : Json) : Position → Option RustSerde.IntegerDeclaration
  | .declaration identity => RustSerde.mapDeclaration document identity
  | .member node =>
    (RustSerde.mapField document node).bind fun mapped =>
      (rustElement document mapped.element).map fun element =>
        { element with wideInteger := mapped.serdeWith.isSome || element.wideInteger }

def constraints (p : Position) (chain : List Json) : List Json :=
  chain.flatMap constraintsOf ++ p.inline

/-- Both backends write the position as a string exactly where the range is not inside the safe
interval, and the Rust type holds the whole range. -/
def Agrees (document : Json) (p : Position) (range : Range) : Prop :=
  (p.typescriptWide document = true ↔ ¬ range.Inside) ∧
    ∃ wire, p.rustWire document = some wire ∧ (wire.wideInteger = true ↔ ¬ range.Inside) ∧
      ∀ x, range.Contains x → wire.inner.Contains x

/-- The types beyond `maxDepth` links from the end do not decide on which side the range falls,
and a field of a declared type with constraints of its own is safe. -/
def Met (p : Position) (chain : List Json) (links : ℕ) : Prop :=
  ((effectiveRange (TypescriptV1.fieldHeard chain links p.inline)).Inside ↔
      (effectiveRange (p.constraints chain)).Inside) ∧
    (chain ≠ [] → p.inline ≠ [] → (effectiveRange (p.constraints chain)).Inside)

variable {p : Position}

theorem typescriptWide_walk (h : p.Resolves document chain links) :
    p.typescriptWide document = true ↔
      ¬ (effectiveRange (TypescriptV1.fieldHeard chain links p.inline)).Inside := by
  cases h with
  | declaration _ hw =>
    rw [typescriptWide, TypescriptV1.effectiveWideInteger_walk hw, TypescriptV1.fieldHeard, inline,
      ite_self, List.append_nil]
  | member hr hw => exact TypescriptV1.fieldWide_walk hr hw

/-- The string form, for every position but a declared type with constraints of the field. -/
def rustString (p : Position) (chain : List Json) : Bool :=
  (chain.isEmpty || p.inline.isEmpty) && RustSerde.integerIsWide (p.constraints chain)

theorem rustWire_walk (h : p.Resolves document chain links) :
    p.rustWire document =
      some ⟨RustSerde.integerRustType (p.constraints chain), p.rustString chain⟩ := by
  cases h with
  | declaration hc hw =>
    rw [rustWire, RustSerde.mapDeclaration_walk hc hw]
    simp [constraints, inline, rustString]
  | @member node typeRef chain links hr hw =>
    have hkind := RustSerde.resolveKind_walk hw Fresh.nil
    have hall := RustSerde.constraintsThroughAliases_walk hw Fresh.nil
    have hperm : (chain.reverse.flatMap constraintsOf ++ constraintsOf node).Perm
        (constraints (.member node) chain) :=
      ((List.reverse_perm _).flatMap_right _).append_right _
    have htype := RustSerde.integerRustType_perm hperm
    have hwide := RustSerde.integerIsWide_perm hperm
    by_cases hc : chain = []
    · subst hc
      have hn := hw.native_of_nil
      by_cases hi : constraintsOf node = []
      · have hnone : constraints (.member node) [] = [] := hi
        rw [rustString, hnone, RustSerde.integerRustType_nil, RustSerde.integerIsWide_nil]
        simp [rustWire, RustSerde.mapField, hr, hkind, hall, hn, hi, rustElement,
          RustSerde.integerIsWide_nil]
      · simp only [rustWire, RustSerde.mapField, hr, hkind, hall, hn, rustElement, rustString,
          constraints, inline, Option.bind_some, List.reverse_nil, List.flatMap_nil,
          List.nil_append]
        cases hw : RustSerde.integerIsWide (constraintsOf node)
        · simp [hi]
        · simp [hi]
    · have hn := hw.not_native hc
      by_cases hi : constraintsOf node = []
      · simp [rustWire, RustSerde.mapField, hr, hkind, hn, hi, rustElement, rustString,
          constraints, inline, RustSerde.mapDeclaration_walk hc hw]
      · rw [← htype]
        simp [rustWire, RustSerde.mapField, hr, hkind, hall, hn, hi, hc, rustElement, rustString,
          inline]

/-! ### A wide type under a bounded field -/

/-- `max` or `min` with an integer operand. -/
def bound (keyword value : String) : Json :=
  .object [("keyword", .str keyword), ("operands", .object [("value", .str value)])]

def wideType : Json :=
  .object [("identity", .str "ix://acme/pkg/Big"), ("kind", .str "scalar"),
    ("scalar", .str "integer"), ("constraints", .array [bound "max" "9007199254740992"])]

def wideDocument : Json := .object [("types", .array [wideType])]

def wideField (constraints : List Json) : Json :=
  .object [("typeRef", .str "ix://acme/pkg/Big"), ("constraints", .array constraints)]

theorem wideField_resolves (constraints : List Json) :
    Resolves wideDocument (.member (wideField constraints)) [wideType] 0 :=
  have hr : (wideField constraints).getStr "typeRef" = some "ix://acme/pkg/Big" := rfl
  .member hr (.scalar rfl (by decide +kernel) rfl rfl)

theorem wideField_small :
    RustSerde.Small (constraints (.member (wideField [bound "min" "0"])) [wideType]) := by
  intro c hc n hn
  have hall : ∀ c ∈ constraints (.member (wideField [bound "min" "0"])) [wideType],
      (operandOf c).all fun n => decide (-2 ^ 127 ≤ n ∧ n ≤ 2 ^ 127 - 1) := by decide +kernel
  have hb := hall c hc
  rw [hn, Option.all_some] at hb
  exact of_decide_eq_true hb

/-- Where the two backends agree on a position that resolves to an integer. -/
theorem agrees_iff (h : p.Resolves document chain links)
    (hs : RustSerde.Small (p.constraints chain)) :
    (∀ cs, cs.Perm (p.constraints chain) → p.Agrees document (effectiveRange cs)) ↔
      p.Met chain links := by
  have hts := typescriptWide_walk h
  have hrust := rustWire_walk h
  have hwide := RustSerde.integerIsWide_range (p.constraints chain)
  constructor
  · intro ha
    obtain ⟨ht, wire, hw, hs, _⟩ := ha _ (List.Perm.refl _)
    refine ⟨not_iff_not.1 (hts.symm.trans ht), fun hc hi => ?_⟩
    cases hrust.symm.trans hw
    refine not_not.1 fun hn => ?_
    simpa [rustString, hc, hi] using hs.2 hn
  · rintro ⟨hheard, hfield⟩ cs hp
    rw [effectiveRange_perm hp]
    refine ⟨hts.trans (not_congr hheard), _, hrust, ?_, fun x hx =>
      RustSerde.integerRustType_contains hs hx⟩
    rw [← hwide, rustString]
    by_cases hc : chain = []
    · simp [hc]
    · by_cases hi : p.inline = []
      · simp [hi]
      · have hnot := hwide.not.2 (not_not.2 (hfield hc hi))
        simp [hnot]

theorem wideField_agrees :
    (∀ cs, cs.Perm (constraints (.member (wideField [bound "min" "0"])) [wideType]) →
      Agrees wideDocument (.member (wideField [bound "min" "0"])) (effectiveRange cs)) ↔
      Met (.member (wideField [bound "min" "0"])) [wideType] 0 :=
  agrees_iff (wideField_resolves _) wideField_small

theorem wideField_disagrees :
    ¬ ∀ (document : Json) (p : Position) (chain : List Json) (links : ℕ),
      p.Resolves document chain links → RustSerde.Small (p.constraints chain) →
      ∀ cs, cs.Perm (p.constraints chain) → p.Agrees document (effectiveRange cs) := by
  intro h
  have hr := wideField_resolves [bound "min" "0"]
  obtain ⟨_, wire, hw, hs, _⟩ := h _ _ _ _ hr wideField_small _ (List.Perm.refl _)
  cases (rustWire_walk hr).symm.trans hw
  have hwide : RustSerde.integerIsWide
      (constraints (.member (wideField [bound "min" "0"])) [wideType]) = true := by decide +kernel
  have hstring := hs.2 ((RustSerde.integerIsWide_range _).1 hwide)
  have hraw : rustString (.member (wideField [bound "min" "0"])) [wideType] = false := by
    decide +kernel
  exact absurd hstring (by rw [hraw]; decide)

end Position

end FilamentCore.Backends
