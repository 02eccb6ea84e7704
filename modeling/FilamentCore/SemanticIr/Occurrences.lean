import FilamentCore.SemanticIr.Reordering

/-!
# Occurrences of a retained field

What a field admits, by FR-106 and FR-027: an absent member when it is optional, a null when it
is nullable, and otherwise as many values as its multiplicity allows. The classifier compares
nullability and multiplicity; of a field that writes its multiplicity it never reads `presence`.
-/

namespace FilamentCore.SemanticIr
open FilamentCore.Library
open Classification (noteIf noteIf_le)

def typesOf (bundle : Json) : List Json := (irOf bundle).members "types"

theorem Accepted.types_eq {bundle : Json} {d : Document} (ha : Accepted bundle d) :
    d.types = typesOf bundle := by
  rw [typesOf, irOf, ha.document.1, Option.getD_some, ha.document.2.2.1]

def documentOf (bundle : Json) : Document := ⟨bundle, irOf bundle, typesOf bundle, none⟩

theorem Accepted.eq_documentOf {bundle : Json} {d : Document} (ha : Accepted bundle d) :
    d = documentOf bundle := by
  obtain ⟨hir, hb, -, hdepth⟩ := ha.document
  have ht := ha.types_eq
  cases d
  simp only [documentOf, irOf] at *
  simp only [hir, hb, ht, hdepth, Option.getD_some]

namespace Compat

/-! ### Retained fields -/

/-- Two fields of one identity, of two types of one identity. -/
def RetainedField (before after field other : Json) : Prop :=
  ∃ earlier ∈ typesOf before, ∃ later ∈ typesOf after, identityOf earlier = identityOf later ∧
    field ∈ earlier.members "fields" ∧ other ∈ later.members "fields" ∧
    identityOf field = identityOf other

section
variable {beforeBundle afterBundle : Json} {before after : Document}

theorem mem_of_retained_item (ha : Accepted afterBundle after) {earlier later : Json}
    (hr : Retained before after earlier later) {name : String} (hn : name ∈ declaringLists)
    (hs : ∀ item ∈ later.members name, HasIdentity item) {item other : Json}
    (hi : item ∈ earlier.members name) (ho : other ∈ later.members name)
    (heq : identityOf item = identityOf other) {removed n : Classification}
    {retained : Json → Json → List Classification} {addition : Json → List Classification}
    (h : n ∈ retained item other) :
    n ∈ compareLists (earlier.members name) (later.members name) removed retained addition := by
  have hc : counterpart item (later.members name) = some other :=
    counterpart_of_mem (nodup_identityOr (ha.list_nodup hr.inAfter hn) hs) ho
      (by rw [identityOr, identityOr, heq])
  exact mem_compareLists.2 (.inr (.inl ⟨item, hi, other, hc, h⟩))

theorem compareField_le (hb : Accepted beforeBundle before) (ha : Accepted afterBundle after)
    {c : Classification} (hc : classify beforeBundle afterBundle true true ≤ c)
    {field other : Json} (hf : RetainedField beforeBundle afterBundle field other) :
    ∀ n ∈ compareField before after field other, n ≤ c := by
  obtain ⟨earlier, he, later, hl, hi, hf, ho, hfo⟩ := hf
  have hr : Retained before after earlier later := ⟨hb.types_eq ▸ he, ha.types_eq ▸ hl, hi⟩
  obtain ⟨_, hchecked⟩ := ha.checked
  obtain ⟨_, hlater⟩ := hchecked later hr.inAfter
  intro n hn
  apply compareType_le hb ha hc hr
  have hm : n ∈ compareFields before after earlier later :=
    mem_of_retained_item ha hr (by decide) (fun f hf => (hlater.fields f hf).identity)
      hf ho hfo hn
  simp only [compareType, List.mem_append]
  tauto

theorem retainedField_checked (hb : Accepted beforeBundle before)
    (ha : Accepted afterBundle after) {field other : Json}
    (hf : RetainedField beforeBundle afterBundle field other) :
    FieldChecked field ∧ FieldChecked other := by
  obtain ⟨earlier, he, later, hl, -, hf, ho, -⟩ := hf
  obtain ⟨_, hbefore⟩ := hb.checked
  obtain ⟨_, hafter⟩ := ha.checked
  obtain ⟨_, hearlier⟩ := hbefore earlier (hb.types_eq ▸ he)
  obtain ⟨_, hlater⟩ := hafter later (ha.types_eq ▸ hl)
  exact ⟨hearlier.fields field hf, hlater.fields other ho⟩

end

/-! ### Occurrences -/

inductive Occurrence where
  | absent
  | null
  | values (count : ℕ)
  deriving DecidableEq, Repr

def presenceOf (field : Json) : Option String := field.getStr "presence"

def Admits (field : Json) : Occurrence → Prop
  | .absent => presenceOf field = some "optional"
  | .null => field.getBool "nullable" = some true
  | .values count => (effectiveMultiplicity field).lower ≤ count ∧
      ∀ upper ∈ (effectiveMultiplicity field).upper, (count : ℤ) ≤ upper

/-- A consumer of the earlier field is served by the later one: every occurrence is still
admitted, and a field that was there is still there. -/
structure Kept (field other : Json) : Prop where
  occurrences : ∀ occurrence, Admits field occurrence → Admits other occurrence
  required : presenceOf field = some "required" → presenceOf other = some "required"

theorem not_narrowed {was is : Effective} (h : narrowed was is = false) :
    is.lower ≤ was.lower ∧ ∀ upper ∈ is.upper, ∃ earlier ∈ was.upper, earlier ≤ upper := by
  simp only [narrowed, Bool.or_eq_false_iff, decide_eq_false_iff_not, not_lt] at h
  refine ⟨h.1, ?_⟩
  rintro upper hu
  rw [Option.mem_def] at hu
  cases hw : was.upper with
  | none => simp [hw, hu] at h
  | some earlier => exact ⟨earlier, rfl, by simpa [hw, hu] using h.2⟩

theorem presence_eq_of_kept {field other : Json} (hf : FieldChecked field) (h : Kept field other) :
    presenceOf field = presenceOf other := by
  obtain ⟨presence, hm, hp⟩ := hf.presence
  simp only [presences, List.mem_cons, List.not_mem_nil, or_false] at hm
  rcases hm with rfl | rfl
  · exact hp.trans (h.required hp).symm
  · exact hp.trans (h.occurrences .absent hp).symm

theorem kept_of_presence {before after : Document} {field other : Json}
    (ho : FieldChecked other) (hn : ∀ n ∈ compareField before after field other, n ≤ .additive)
    (hp : presenceOf field = presenceOf other) : Kept field other := by
  have hle : Classification.additive < .breaking := by decide
  have hnullable : (field.getBool "nullable").getD false = (other.getBool "nullable").getD false := by
    have h : ∀ n ∈ noteIf ((field.getBool "nullable").getD false ≠
        (other.getBool "nullable").getD false) .breaking, n ≤ Classification.additive := by
      intro n hm
      apply hn
      simp only [compareField, List.mem_append]
      tauto
    exact not_not.1 (noteIf_le h hle)
  have hnarrowed : narrowed (effectiveMultiplicity field) (effectiveMultiplicity other) = false := by
    by_contra hw
    have hm : Classification.breaking ∈ compareField before after field other := by
      simp only [compareField, List.mem_append]
      rw [if_pos (Bool.not_eq_false _ ▸ hw)]
      simp
    exact absurd (hn _ hm) (not_le.2 hle)
  obtain ⟨hlower, hupper⟩ := not_narrowed hnarrowed
  refine ⟨?_, fun h => hp ▸ h⟩
  rintro (_ | _ | count) h
  · exact hp.symm.trans h
  · obtain ⟨nullable, hother⟩ := ho.nullable
    simp only [Admits] at h ⊢
    rw [h, hother, Option.getD_some, Option.getD_some] at hnullable
    rw [hother, hnullable]
  · obtain ⟨hl, hu⟩ := h
    refine ⟨by omega, fun upper hm => ?_⟩
    obtain ⟨earlier, he, hle⟩ := hupper upper hm
    have := hu earlier he
    omega

/-- Of a pair classified `patch` or `additive`, the consumers of every retained field are kept
exactly when no retained field changes its presence. -/
theorem kept_iff_presence {before after : Json} (hb : isValid before = true)
    (ha : isValid after = true) (hc : classify before after true true ≤ .additive) :
    (∀ field other, RetainedField before after field other → Kept field other) ↔
      ∀ field other, RetainedField before after field other →
        presenceOf field = presenceOf other := by
  obtain ⟨b, hb⟩ := accepted_of_isValid hb
  obtain ⟨a, ha⟩ := accepted_of_isValid ha
  constructor
  · intro h field other hf
    exact presence_eq_of_kept (retainedField_checked hb ha hf).1 (h field other hf)
  · intro h field other hf
    exact kept_of_presence (retainedField_checked hb ha hf).2 (compareField_le hb ha hc hf)
      (h field other hf)

/-! ### A field that becomes optional -/

def recordOf (field : Json) : Json :=
  Sample.document [Sample.type "ix://a/R" "record" [] [("fields", .array [field])],
    Sample.scalar "ix://a/T" "string"] []

def requiredField : Json := Sample.field "ix://a/R/f" "f" "ix://a/T" "required" []

def optionalField : Json := Sample.field "ix://a/R/f" "f" "ix://a/T" "optional" []

theorem recordOf_retained {field other : Json} (hi : identityOf field = identityOf other) :
    RetainedField (recordOf field) (recordOf other) field other :=
  ⟨_, .head _, _, .head _, rfl, .head _, .head _, hi⟩

theorem recordOf_field {field other f g : Json}
    (h : RetainedField (recordOf field) (recordOf other) f g) : f = field ∧ g = other := by
  have hmem : ∀ {x y t : Json}, t ∈ typesOf (recordOf x) → y ∈ t.members "fields" → y = x := by
    rintro x y t (_ | ⟨_, (_ | ⟨_, ⟨⟩⟩)⟩) hy
    · exact List.mem_singleton.1 hy
    · cases hy
  obtain ⟨_, he, _, hl, -, hf, ho, -⟩ := h
  exact ⟨hmem he hf, hmem hl ho⟩

/-- A required field that becomes optional is a patch. -/
theorem optional_is_patch : isValid (recordOf requiredField) = true ∧
    isValid (recordOf optionalField) = true ∧
    classify (recordOf requiredField) (recordOf optionalField) true true = .patch ∧
    RetainedField (recordOf requiredField) (recordOf optionalField) requiredField optionalField ∧
    ¬ Kept requiredField optionalField := by
  refine ⟨by decide +kernel, by decide +kernel, by decide +kernel, recordOf_retained rfl, ?_⟩
  intro h
  exact absurd (h.required rfl) (by decide)

theorem zero_valid : (readNumber "0").isSome = true := by decide +kernel

/-- The required field, which may hold any number of values. -/
def widenedField : Json :=
  .object [("identity", .str "ix://a/R/f"), ("name", .str "f"), ("typeRef", .str "ix://a/T"),
    ("presence", .str "required"), ("nullable", .bool false), ("defaultKind", .str "none"),
    ("origin", Sample.origin), ("multiplicity", .object [("lower", .number ⟨"0", zero_valid⟩),
      ("ordered", .bool false), ("unique", .bool false)])]

theorem widenedField_kept : Kept requiredField widenedField := by
  have hb : isValid (recordOf requiredField) = true := by decide +kernel
  have ha : isValid (recordOf widenedField) = true := by decide +kernel
  have hc : classify (recordOf requiredField) (recordOf widenedField) true true ≤ .additive := by
    decide +kernel
  refine (kept_iff_presence hb ha hc).2 (fun field other h => ?_) _ _ (recordOf_retained rfl)
  obtain ⟨rfl, rfl⟩ := recordOf_field h
  rfl

end Compat
end FilamentCore.SemanticIr
