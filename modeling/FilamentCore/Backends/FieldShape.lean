import FilamentCore.SemanticIr.Json

/-!
# The shape of a record field

What the three generated packages ask of the member of a field: the checks of the TypeScript
validator (src/compiler/backends/typescript-v1/model.mjs, validators.mjs), the Rust type and its
serde attributes (rust-serde/mapping.mjs, crate.mjs, support-template.rs) and the JSON Schema
(json-schema-v1/index.mjs).
-/

namespace FilamentCore.Backends.Fields
open FilamentCore.SemanticIr (Json)

/-! ### Fields -/

inductive Presence where
  | required | optional
  deriving DecidableEq, Repr

structure Multiplicity where
  lower : ℕ
  upper : Option ℕ
  unique : Bool

/-- A field; `semanticDefault` is its `defaultValue` where `defaultKind` is `semantic`. -/
structure Field where
  presence : Presence
  nullable : Bool
  multiplicity : Multiplicity
  semanticDefault : Option Json

/-- What the type of a field says of one value and of the values of a collection. -/
structure Element where
  accepts : Json → Bool
  distinct : List Json → Bool
  /-- The value has a Rust literal of the element's type. -/
  literal : Json → Bool
  /-- A native integer whose range is outside the safe interval. -/
  wideNativeInteger : Bool
  literal_null : literal .null = false
  wide_null : wideNativeInteger = true → accepts .null = false

def isNull : Json → Bool
  | .null => true
  | _ => false

/-- `upper` absent or greater than one. -/
def Multiplicity.collection (m : Multiplicity) : Bool :=
  match m.upper with
  | none => true
  | some upper => decide (1 < upper)

/-- The tests of a count against the bounds: below a positive lower one, above a stated upper one. -/
def Multiplicity.counts (m : Multiplicity) (n : ℕ) : Bool :=
  !(decide (0 < m.lower) && decide (n < m.lower)) &&
    !(m.upper.any fun upper => decide (upper < n))

/-- The tests of a collection as a whole. -/
def Field.wholeOk (f : Field) (e : Element) (items : List Json) : Bool :=
  f.multiplicity.counts items.length && (!f.multiplicity.unique || e.distinct items)

/-- The values the field declares: null where it is nullable, and otherwise the collection or the
single value. -/
def Field.valid (f : Field) (e : Element) (value : Json) : Bool :=
  if isNull value then f.nullable
  else if f.multiplicity.collection then
    match value with
    | .array items => f.wholeOk e items && items.all e.accepts
    | _ => false
  else e.accepts value

theorem eq_null {value : Json} (h : isNull value = true) : value = .null := by
  cases value with
  | null => rfl
  | _ => cases h

/-! ### Shapes -/

/-- How many items an array may hold, and whether one may be null. -/
structure Items where
  fewest : ℕ
  most : Option ℕ
  null : Bool
  deriving DecidableEq, Repr

/-- What a package asks of a member: whether it may be absent, whether it may be null, and the
array it must be otherwise. -/
structure Shape where
  absent : Bool
  null : Bool
  items : Option Items
  deriving DecidableEq, Repr

namespace Items

/-- The count is within the bounds. -/
def holds (s : Items) (n : ℕ) : Bool := decide (s.fewest ≤ n) && s.most.all fun most => decide (n ≤ most)

def admits (s : Items) (e : Element) (unique : Bool) : Json → Bool
  | .array items => s.holds items.length && (!unique || e.distinct items) &&
      items.all fun item => if isNull item then s.null else e.accepts item
  | _ => false

end Items

namespace Shape

def admits (s : Shape) (e : Element) (unique : Bool) : Option Json → Bool
  | none => s.absent
  | some value =>
    if isNull value then s.null
    else
      match s.items with
      | none => e.accepts value
      | some items => items.admits e unique value

end Shape

theorem counts_eq_holds (m : Multiplicity) (null : Bool) (n : ℕ) :
    m.counts n = (Items.mk m.lower m.upper null).holds n := by
  rw [Bool.eq_iff_iff]
  cases hu : m.upper with
  | none =>
    simp [Multiplicity.counts, Items.holds, hu]
    omega
  | some upper =>
    simp [Multiplicity.counts, Items.holds, hu]
    omega

/-- The array a collection must be, where `null` tells whether an item may be null. -/
def Field.items (f : Field) (null : Bool) : Option Items :=
  if f.multiplicity.collection then some ⟨f.multiplicity.lower, f.multiplicity.upper, null⟩
  else none

/-- The values of a field whose items are read by `item`. -/
def Field.reads (f : Field) (e : Element) (item : Json → Bool) (value : Json) : Bool :=
  if f.multiplicity.collection then
    match value with
    | .array items => f.wholeOk e items && items.all item
    | _ => false
  else item value

variable {f : Field} {e : Element} {item : Json → Bool}

theorem reads_shape (h : ∀ v, isNull v = false → item v = e.accepts v) {value : Json}
    (hn : isNull value = false) (absent null : Bool) :
    f.reads e item value =
      (Shape.mk absent null (f.items (item .null))).admits e f.multiplicity.unique (some value) := by
  have hitem : ∀ v, item v = if isNull v then item .null else e.accepts v := by
    intro v
    cases hv : isNull v with
    | true => rw [eq_null hv, if_pos rfl]
    | false => rw [h v hv, if_neg Bool.false_ne_true]
  rw [Shape.admits, hn, if_neg Bool.false_ne_true, Field.items]
  cases hc : f.multiplicity.collection with
  | false =>
    simp only [Field.reads, hc, Bool.false_eq_true, if_false]
    exact h value hn
  | true =>
    cases value with
    | array items =>
      have hall : items.all item =
          items.all fun v => if isNull v then item .null else e.accepts v :=
        congrArg (items.all ·) (funext hitem)
      simp only [Field.reads, hc, if_true, Items.admits, Field.wholeOk, hall,
        counts_eq_holds _ (item .null)]
    | _ => simp only [Field.reads, hc, if_true, Items.admits]

/-! ### The TypeScript validator -/

namespace TypescriptV1

structure Axes where
  optional : Bool
  nullable : Bool
  collection : Bool

def axesOf (f : Field) : Axes where
  optional := decide (f.presence = .optional)
  nullable := f.nullable
  collection := f.multiplicity.collection

/-- `fieldStatements(field)`: the checks of a member. -/
def fieldStatements (f : Field) (e : Element) : Option Json → Bool
  | none => (axesOf f).optional
  | some value =>
    if isNull value then (axesOf f).nullable
    else if (axesOf f).collection then
      match value with
      | .array items => f.wholeOk e items && items.all e.accepts
      | _ => false
    else e.accepts value

/-- The validator: the default stands for an absent member before the checks run. -/
def accepts (f : Field) (e : Element) (member : Option Json) : Bool :=
  fieldStatements f e (member.or f.semanticDefault)

def shape (f : Field) (e : Element) : Shape where
  absent := accepts f e none
  null := accepts f e (some .null)
  items := f.items (e.accepts .null)

theorem accepts_shape (f : Field) (e : Element) (member : Option Json) :
    accepts f e member = (shape f e).admits e f.multiplicity.unique member := by
  cases member with
  | none => rfl
  | some value =>
    cases hn : isNull value with
    | true =>
      rw [eq_null hn]
      rfl
    | false =>
      rw [shape, ← reads_shape (fun _ _ => rfl) hn]
      simp only [accepts, Option.some_or, fieldStatements, hn, Bool.false_eq_true, if_false]
      rfl

end TypescriptV1

/-! ### The Rust deserialiser -/

namespace RustSerde

inductive RustType where
  | element
  | nullable (inner : RustType)
  | vec (inner : RustType)
  | option (inner : RustType)

namespace RustType

/-- `Deserialize` of a present value. -/
def reads (e : Element) : RustType → Json → Bool
  | .element, value => e.accepts value
  | .nullable inner, value => isNull value || reads e inner value
  | .vec inner, value =>
    match value with
    | .array items => items.all (reads e inner)
    | _ => false
  | .option inner, value => isNull value || reads e inner value

/-- `missing_field`: a type that asks for an option is given none. -/
def readsMissing : RustType → Bool
  | .element => false
  | .nullable _ => true
  | .vec _ => false
  | .option _ => true

end RustType

structure Member where
  rustType : RustType
  /-- `default`. -/
  default : Bool
  /-- `deserialize_with = "crate::support::present_or_absent"`. -/
  presentOrAbsent : Bool
  /-- `with`, a wide integer adapter. -/
  adapted : Bool

/-- The items of a collection, or the value of a single member. -/
def itemType (f : Field) : RustType :=
  if f.nullable then .nullable .element else .element

def valueType (f : Field) : RustType :=
  if f.multiplicity.collection then .vec (itemType f) else itemType f

/-- `multiplicity.lower === 0`. -/
def optional (f : Field) : Bool := decide (f.multiplicity.lower = 0)

/-- The default has a Rust literal (`renderDefault`). -/
def rendersDefault (f : Field) (e : Element) (value : Json) : Bool :=
  if f.multiplicity.collection then
    match value with
    | .array items => items.all e.literal
    | _ => false
  else (f.nullable && isNull value) || e.literal value

/-- The Rust type of a field and its serde attributes. -/
def memberOf (f : Field) (e : Element) : Member where
  rustType := if optional f then .option (valueType f) else valueType f
  default := optional f
  presentOrAbsent := optional f && f.nullable && !e.wideNativeInteger
  adapted := e.wideNativeInteger

/-- `mapField(field)`; none where the generator refuses the field or its default. -/
def mapField (f : Field) (e : Element) : Option Member :=
  if f.multiplicity.upper = some 0 then none
  else if f.semanticDefault.all (rendersDefault f e) then some (memberOf f e)
  else none

/-- `try_new`: the bounds and the uniqueness of a collection that is there. -/
def renderFieldChecks (f : Field) (e : Element) : Json → Bool
  | .array items => !f.multiplicity.collection || f.wholeOk e items
  | _ => true

def defaultAccepted (f : Field) (e : Element) (value : Json) : Bool :=
  (valueType f).reads e value && renderFieldChecks f e value

def accepts (f : Field) (e : Element) (m : Member) : Option Json → Bool
  | none =>
    match f.semanticDefault with
    | some value => defaultAccepted f e value
    | none => m.default || (!m.presentOrAbsent && !m.adapted && m.rustType.readsMissing)
  | some value =>
    (if m.presentOrAbsent then (valueType f).reads e value else m.rustType.reads e value) &&
      (isNull value || renderFieldChecks f e value)

def shape (f : Field) (e : Element) (m : Member) : Shape where
  absent := accepts f e m none
  null := accepts f e m (some .null)
  items := f.items ((itemType f).reads e .null)

theorem itemType_reads {value : Json} (hn : isNull value = false) :
    (itemType f).reads e value = e.accepts value := by
  rw [itemType]
  cases f.nullable with
  | true =>
    simp only [if_true, RustType.reads, hn, Bool.false_or]
  | false => rfl

theorem valueType_null :
    (valueType f).reads e .null =
      (!f.multiplicity.collection && (itemType f).reads e .null) := by
  rw [valueType]
  cases f.multiplicity.collection <;> rfl

theorem valueType_checked (value : Json) :
    ((valueType f).reads e value && renderFieldChecks f e value) =
      f.reads e ((itemType f).reads e) value := by
  rw [valueType]
  cases hc : f.multiplicity.collection with
  | false =>
    cases value with
    | array items => simp [Field.reads, renderFieldChecks, hc]
    | _ => simp [Field.reads, renderFieldChecks, hc]
  | true =>
    cases value with
    | array items => simp [Field.reads, renderFieldChecks, hc, RustType.reads, Bool.and_comm]
    | _ => simp [Field.reads, hc, RustType.reads]

theorem mapField_some {m : Member} (h : mapField f e = some m) :
    m = memberOf f e ∧ ∀ value, f.semanticDefault = some value → rendersDefault f e value = true := by
  rw [mapField] at h
  split_ifs at h with hu hd
  refine ⟨(Option.some.inj h).symm, fun value hv => ?_⟩
  simpa [hv] using hd

theorem accepts_shape (m : Member) (hm : mapField f e = some m) (member : Option Json) :
    accepts f e m member = (shape f e m).admits e f.multiplicity.unique member := by
  cases member with
  | none => rfl
  | some value =>
    cases hn : isNull value with
    | true =>
      rw [eq_null hn]
      rfl
    | false =>
      obtain ⟨rfl, _⟩ := mapField_some hm
      rw [shape, ← reads_shape (fun _ h => itemType_reads h) hn, ← valueType_checked]
      simp only [accepts, memberOf, hn, Bool.false_or]
      by_cases ho : optional f = true
      · simp only [ho, RustType.reads, hn, Bool.false_or, if_true, ite_self]
      · simp only [ho, if_false, ite_self, Bool.false_eq_true]

theorem defaultAccepted_eq {value : Json} (h : rendersDefault f e value = true) :
    defaultAccepted f e value = f.valid e value := by
  rw [defaultAccepted, valueType_checked]
  cases hn : isNull value with
  | true =>
    obtain rfl := eq_null hn
    cases hc : f.multiplicity.collection with
    | true => simp [rendersDefault, hc] at h
    | false =>
      have hnull : f.nullable = true := by simpa [rendersDefault, hc, e.literal_null, isNull] using h
      simp [Field.reads, Field.valid, hc, hnull, itemType, RustType.reads, isNull]
  | false =>
    cases hc : f.multiplicity.collection with
    | false => simp [Field.reads, Field.valid, hc, hn, itemType_reads]
    | true =>
      cases value with
      | array items =>
        have hlit : ∀ v ∈ items, e.literal v = true := by simpa [rendersDefault, hc] using h
        have hplain : ∀ v ∈ items, (itemType f).reads e v = e.accepts v := by
          intro v hv
          have hnot : isNull v = false := by
            cases hnv : isNull v with
            | true => exact absurd (eq_null hnv ▸ hlit v hv) (by simp [e.literal_null])
            | false => rfl
          exact itemType_reads hnot
        have hall : items.all ((itemType f).reads e) = items.all e.accepts := by
          rw [Bool.eq_iff_iff, List.all_eq_true, List.all_eq_true]
          exact forall₂_congr fun v hv => by rw [hplain v hv]
        simp [Field.reads, Field.valid, hc, hn, hall]
      | _ => simp [rendersDefault, hc] at h

theorem accepts_none {m : Member} (hm : mapField f e = some m) :
    accepts f e m none =
      match f.semanticDefault with
      | some value => f.valid e value
      | none => optional f || (!f.multiplicity.collection && f.nullable && !e.wideNativeInteger) := by
  obtain ⟨rfl, hd⟩ := mapField_some hm
  cases hv : f.semanticDefault with
  | some value =>
    rw [accepts, hv]
    exact defaultAccepted_eq (hd value hv)
  | none =>
    rw [accepts, hv]
    cases ho : optional f with
    | true => simp [memberOf, ho]
    | false =>
      cases hc : f.multiplicity.collection with
      | true => simp [memberOf, ho, valueType, hc, RustType.readsMissing]
      | false =>
        cases hn : f.nullable with
        | true => simp [memberOf, ho, valueType, hc, itemType, hn, RustType.readsMissing]
        | false => simp [memberOf, ho, valueType, hc, itemType, hn, RustType.readsMissing]

theorem accepts_null {m : Member} (hm : mapField f e = some m) :
    accepts f e m (some .null) =
      ((optional f && !(f.nullable && !e.wideNativeInteger)) ||
        (!f.multiplicity.collection && (f.nullable || e.accepts .null))) := by
  obtain ⟨rfl, _⟩ := mapField_some hm
  have hv : (valueType f).reads e .null =
      (!f.multiplicity.collection && (f.nullable || e.accepts .null)) := by
    rw [valueType_null, itemType]
    cases f.nullable with
    | true => rfl
    | false => rfl
  cases ho : optional f with
  | false => simp [accepts, memberOf, ho, hv, isNull]
  | true =>
    cases hp : f.nullable && !e.wideNativeInteger with
    | true => simp [accepts, memberOf, ho, hp, hv, isNull]
    | false => simp [accepts, memberOf, ho, hp, RustType.reads, isNull]

end RustSerde

/-! ### The JSON Schema -/

namespace JsonSchemaV1

/-- `fieldSchema(field, types)`: the values of the property. -/
def fieldSchema (f : Field) (e : Element) (value : Json) : Bool :=
  (f.nullable && isNull value) ||
    if f.multiplicity.collection then
      match value with
      | .array items => f.wholeOk e items && items.all e.accepts
      | _ => false
    else e.accepts value

/-- `recordSchema(type, types)`: `required` lists the required fields. -/
def accepts (f : Field) (e : Element) : Option Json → Bool
  | none => !decide (f.presence = .required)
  | some value => fieldSchema f e value

def shape (f : Field) (e : Element) : Shape where
  absent := accepts f e none
  null := accepts f e (some .null)
  items := f.items (e.accepts .null)

theorem accepts_shape (f : Field) (e : Element) (member : Option Json) :
    accepts f e member = (shape f e).admits e f.multiplicity.unique member := by
  cases member with
  | none => rfl
  | some value =>
    cases hn : isNull value with
    | true =>
      rw [eq_null hn]
      rfl
    | false =>
      rw [shape, ← reads_shape (fun _ _ => rfl) hn]
      simp only [accepts, fieldSchema, hn, Bool.and_false, Bool.false_or]
      rfl

end JsonSchemaV1

/-! ### Where the packages agree -/

/-- Where the three packages ask the same of a member. -/
structure Aligned (f : Field) (e : Element) : Prop where
  collection : f.multiplicity.collection = true → f.nullable = false ∧ f.multiplicity.lower ≠ 0
  single : f.multiplicity.collection = false → (f.multiplicity.lower = 0 → f.nullable = true) ∧
    (f.nullable = false → e.accepts .null = false)
  presence : f.semanticDefault = none → (f.presence = .optional ↔ f.multiplicity.lower = 0 ∨
    f.multiplicity.collection = false ∧ f.nullable = true ∧ e.wideNativeInteger = false)
  semantic : ∀ value, f.semanticDefault = some value →
    (f.presence = .optional ↔ f.valid e value = true)

variable {m : RustSerde.Member}

theorem absent_agree_iff (hm : RustSerde.mapField f e = some m) :
    (TypescriptV1.accepts f e none = RustSerde.accepts f e m none ∧
      JsonSchemaV1.accepts f e none = RustSerde.accepts f e m none) ↔
      (f.semanticDefault = none → (f.presence = .optional ↔ f.multiplicity.lower = 0 ∨
        f.multiplicity.collection = false ∧ f.nullable = true ∧ e.wideNativeInteger = false)) ∧
      ∀ value, f.semanticDefault = some value →
        (f.presence = .optional ↔ f.valid e value = true) := by
  have hschema : JsonSchemaV1.accepts f e none = decide (f.presence = .optional) := by
    rw [JsonSchemaV1.accepts]
    cases f.presence with
    | required => rfl
    | optional => rfl
  rw [hschema, RustSerde.accepts_none hm, TypescriptV1.accepts, Option.none_or]
  cases hd : f.semanticDefault with
  | none =>
    have hts : TypescriptV1.fieldStatements f e none = decide (f.presence = .optional) := rfl
    rw [hts, and_self, Bool.eq_iff_iff, RustSerde.optional]
    simp [and_assoc]
  | some value =>
    have hts : TypescriptV1.fieldStatements f e (some value) = f.valid e value := rfl
    rw [hts, eq_self, true_and, Bool.eq_iff_iff]
    simp

theorem null_table : ∀ c n o a w : Bool, (w = true → a = false) →
    (((n = ((o && !(n && !w)) || (!c && (n || a)))) ∧
        (n || (!c && a)) = ((o && !(n && !w)) || (!c && (n || a)))) ∧
      (c = true → a = (n || a)) ↔
        (c = true → n = false ∧ o = false) ∧
          (c = false → (o = true → n = true) ∧ (n = false → a = false))) := by
  decide

theorem items_agree_iff :
    f.items (e.accepts .null) = f.items ((RustSerde.itemType f).reads e .null) ↔
      (f.multiplicity.collection = true → e.accepts .null = (f.nullable || e.accepts .null)) := by
  have hitem : (RustSerde.itemType f).reads e .null = (f.nullable || e.accepts .null) := by
    rw [RustSerde.itemType]
    cases f.nullable with
    | true => rfl
    | false => rfl
  rw [hitem, Field.items, Field.items]
  cases f.multiplicity.collection with
  | true => simp
  | false => simp

theorem null_agree_iff (hm : RustSerde.mapField f e = some m) :
    ((TypescriptV1.accepts f e (some .null) = RustSerde.accepts f e m (some .null) ∧
        JsonSchemaV1.accepts f e (some .null) = RustSerde.accepts f e m (some .null)) ∧
      f.items (e.accepts .null) = f.items ((RustSerde.itemType f).reads e .null)) ↔
      (f.multiplicity.collection = true → f.nullable = false ∧ f.multiplicity.lower ≠ 0) ∧
        (f.multiplicity.collection = false → (f.multiplicity.lower = 0 → f.nullable = true) ∧
          (f.nullable = false → e.accepts .null = false)) := by
  have hts : TypescriptV1.accepts f e (some .null) = f.nullable := rfl
  have hschema : JsonSchemaV1.accepts f e (some .null) =
      (f.nullable || (!f.multiplicity.collection && e.accepts .null)) := by
    cases hc : f.multiplicity.collection with
    | true => simp [JsonSchemaV1.accepts, JsonSchemaV1.fieldSchema, hc, isNull]
    | false => simp [JsonSchemaV1.accepts, JsonSchemaV1.fieldSchema, hc, isNull]
  have htable := null_table f.multiplicity.collection f.nullable (RustSerde.optional f)
    (e.accepts .null) e.wideNativeInteger e.wide_null
  rw [hts, hschema, RustSerde.accepts_null hm, items_agree_iff, htable, RustSerde.optional]
  simp only [decide_eq_true_eq, decide_eq_false_iff_not]

/-- The three packages have one shape for the field, and accept the same members. -/
def Agree (f : Field) (e : Element) (m : RustSerde.Member) : Prop :=
  TypescriptV1.shape f e = RustSerde.shape f e m ∧
    JsonSchemaV1.shape f e = RustSerde.shape f e m ∧
      ∀ member, TypescriptV1.accepts f e member = RustSerde.accepts f e m member ∧
        JsonSchemaV1.accepts f e member = RustSerde.accepts f e m member

/-- One shape is one set of members. -/
theorem accepts_agree (hm : RustSerde.mapField f e = some m)
    (hts : TypescriptV1.shape f e = RustSerde.shape f e m)
    (hjs : JsonSchemaV1.shape f e = RustSerde.shape f e m) (member : Option Json) :
    TypescriptV1.accepts f e member = RustSerde.accepts f e m member ∧
      JsonSchemaV1.accepts f e member = RustSerde.accepts f e m member := by
  rw [TypescriptV1.accepts_shape, JsonSchemaV1.accepts_shape, RustSerde.accepts_shape m hm, hts,
    hjs]
  exact ⟨rfl, rfl⟩

/-! ### A text field -/

def textElement : Element where
  accepts value := value.asStr.isSome
  distinct items := decide items.Nodup
  literal _ := false
  wideNativeInteger := false
  literal_null := rfl
  wide_null := fun h => absurd h Bool.false_ne_true

def textField (presence : Presence) (lower : ℕ) : Field where
  presence := presence
  nullable := false
  multiplicity := ⟨lower, some 1, false⟩
  semanticDefault := none

end FilamentCore.Backends.Fields
