import FilamentCore.SemanticIr.Json

/-!
# Sums in the generated packages

What the three generated packages accept of the values of an enum and of a union: the checks of the
TypeScript validator (src/compiler/backends/typescript-v1/validators.mjs), the derived and the
written out deserializers of the Rust crate (rust-serde/crate.mjs, support-template.rs) and the JSON
Schema (json-schema-v1/index.mjs).
-/

namespace FilamentCore.Backends.Sums
open FilamentCore.SemanticIr (Json)
open FilamentCore.SemanticIr.Json (lookup)

inductive UnknownPolicy where
  | preserve | reject | surface
  deriving DecidableEq, Repr

inductive Form where
  | enum | union
  deriving DecidableEq, Repr

/-- A variant, with what the type of its payload says of a value. -/
structure Variant where
  name : String
  payload : Option (Json → Bool)

/-- An enum or a union; `untagged` is the wire form its extension asks for. -/
structure SumType where
  form : Form
  untagged : Bool
  unknownPolicy : UnknownPolicy
  variants : List Variant

def SumType.names (type : SumType) : List String := type.variants.map Variant.name

def named (variants : List Variant) (name : String) : Option Variant :=
  variants.find? fun variant => variant.name == name

/-! ### The TypeScript validator -/

namespace Typescript

def enumCheckBody (type : SumType) : Json → Bool
  | .str candidate => type.names.contains candidate
  | _ => false

/-- `UNION_DISCRIMINANT`. -/
def discriminant : String := "kind"

def declared (variant : Variant) : List String :=
  if variant.payload.isNone then [discriminant] else [discriminant, "value"]

def caseBody (variant : Variant) (members : List (String × Json)) : Bool :=
  (members.all fun member => (declared variant).contains member.1) &&
    match variant.payload with
    | none => true
    | some accepts => (lookup "value" members).any accepts

def unionCheckBody (type : SumType) (candidate : Json) : Bool :=
  if type.untagged then
    type.variants.any fun variant => variant.payload.any fun accepts => accepts candidate
  else
    match candidate with
    | .object members =>
      match lookup discriminant members with
      | some (.str tag) => (named type.variants tag).any fun variant => caseBody variant members
      | _ => false
    | _ => false

def accepts (type : SumType) (value : Json) : Bool :=
  match type.form with
  | .enum => enumCheckBody type value
  | .union => unionCheckBody type value

end Typescript

/-! ### The JSON Schema -/

namespace JsonSchema

/-- A branch of the `oneOf` of a union. -/
def branch (variant : Variant) : Json → Bool
  | .object members =>
    lookup "tag" members == some (.str variant.name) &&
      match variant.payload with
      | none => members.all fun member => member.1 == "tag"
      | some accepts => (lookup "payload" members).any accepts &&
        members.all fun member => member.1 == "tag" || member.1 == "payload"
  | _ => false

def accepts (type : SumType) (value : Json) : Bool :=
  match type.form with
  | .enum =>
    match value with
    | .str candidate => type.names.contains candidate
    | _ => false
  | .union => (type.variants.filter fun variant => branch variant value).length == 1

end JsonSchema

/-! ### The Rust crate -/

namespace RustSerde

/-- What the derived deserializers of serde do where the crate relies on no more than their
documented forms: `readName` reads the name of a variant, `readsOther` a union from a value that is
no object. A string is the variant it names. -/
structure Derived where
  readName : List String → Json → Option String
  readsOther : List Variant → Json → Bool
  readName_str : ∀ names text,
    readName names (.str text) = if names.contains text then some text else none

/-- `unknownDisposition` is `variant-catchall`. -/
def catchAll (type : SumType) : Bool := type.unknownPolicy != .reject

/-- `#[serde(tag = "kind", content = "value", deny_unknown_fields)]`, a unit variant with
`reject_unit_variant_value`. -/
def derivedUnion (derived : Derived) (type : SumType) : Json → Bool
  | .object members =>
    (members.all fun member => member.1 == "kind" || member.1 == "value") &&
      (((lookup "kind" members).bind (derived.readName type.names)).bind (named type.variants)).any
        fun variant =>
          match variant.payload with
          | none => (lookup "value" members).isNone
          | some accepts => (lookup "value" members).any accepts
  | value => derived.readsOther type.variants value

/-- `visit_map` after the tag is read, and the payload where it came first. -/
def afterTag (type : SumType) (tag : String) (buffered : Option Json)
    (rest : List (String × Json)) : Bool :=
  match named type.variants tag with
  | some variant =>
    match variant.payload with
    | none => buffered.isNone && rest.isEmpty
    | some accepts =>
      match buffered with
      | some payload => accepts payload && rest.isEmpty
      | none =>
        match rest with
        | [] => false
        | (member, payload) :: rest => member == "value" && accepts payload && rest.isEmpty
  | none =>
    match buffered with
    | some _ => rest.isEmpty
    | none =>
      match rest with
      | [] => true
      | (member, _) :: rest => member == "value" && rest.isEmpty

/-- `visit_map` of a union that retains an unknown variant. -/
def visitMap (type : SumType) : List (String × Json) → Bool
  | [] => false
  | (member, first) :: rest =>
    if member = "kind" then
      match first with
      | .str tag => afterTag type tag none rest
      | _ => false
    else if member = "value" then
      match rest with
      | (member, .str tag) :: rest => member == "kind" && afterTag type tag (some first) rest
      | _ => false
    else false

def accepts (derived : Derived) (type : SumType) (value : Json) : Bool :=
  match type.form with
  | .enum =>
    if catchAll type then
      match value with
      | .str _ => true
      | _ => false
    else (derived.readName type.names value).isSome
  | .union =>
    if catchAll type then
      match value with
      | .object members => visitMap type members
      | _ => false
    else derivedUnion derived type value

end RustSerde

/-! ### Objects with the members of a tagged value -/

def TaggedKeys (members : List (String × Json)) : Prop :=
  ∀ m ∈ members, m.1 = "kind" ∨ m.1 = "value"

theorem members_cases {members : List (String × Json)} (hn : (members.map Prod.fst).Nodup)
    (hkeys : TaggedKeys members) {tag : Json} (htag : lookup "kind" members = some tag) :
    members = [("kind", tag)] ∨ (∃ p, members = [("kind", tag), ("value", p)]) ∨
      ∃ p, members = [("value", p), ("kind", tag)] := by
  rcases members with _ | ⟨⟨a, x⟩, _ | ⟨⟨b, y⟩, _ | ⟨⟨c, z⟩, rest⟩⟩⟩
  · simp [lookup] at htag
  · have ha := hkeys _ List.mem_cons_self
    obtain ha | ha := ha
    · simp only at ha
      subst ha
      simp only [lookup, List.reverse_singleton, List.find?_singleton, beq_self_eq_true, if_true,
        Option.map_some, Option.some.injEq] at htag
      exact Or.inl (by rw [htag])
    · simp only at ha
      subst ha
      simp [lookup] at htag
  · have ha := hkeys _ List.mem_cons_self
    have hb := hkeys _ (List.mem_cons_of_mem _ List.mem_cons_self)
    simp only at ha hb
    simp only [List.map_cons, List.map_nil, List.nodup_cons, List.mem_singleton] at hn
    obtain rfl | rfl := ha
    · obtain rfl | rfl := hb
      · exact absurd rfl hn.1
      · simp [lookup] at htag
        exact Or.inr (Or.inl ⟨y, by rw [htag]⟩)
    · obtain rfl | rfl := hb
      · simp [lookup] at htag
        exact Or.inr (Or.inr ⟨x, by rw [htag]⟩)
      · exact absurd rfl hn.1
  · have ha := hkeys _ List.mem_cons_self
    have hb := hkeys _ (List.mem_cons_of_mem _ List.mem_cons_self)
    have hc := hkeys _ (List.mem_cons_of_mem _ (List.mem_cons_of_mem _ List.mem_cons_self))
    simp only at ha hb hc
    simp only [List.map_cons, List.nodup_cons, List.mem_cons, not_or] at hn
    obtain ⟨⟨hab, hac, -⟩, ⟨hbc, -⟩, -⟩ := hn
    grind

theorem declared_tagged (variant : Variant) (name : String)
    (h : name ∈ Typescript.declared variant) : name = "kind" ∨ name = "value" := by
  rw [Typescript.declared] at h
  split at h
  · exact Or.inl (List.mem_singleton.1 h)
  · simpa [Typescript.discriminant] using h

theorem caseBody_tagged {variant : Variant} {members : List (String × Json)}
    (h : Typescript.caseBody variant members = true) : TaggedKeys members := by
  rw [Typescript.caseBody, Bool.and_eq_true, List.all_eq_true] at h
  exact fun m hm => declared_tagged variant m.1 (List.contains_iff_mem.1 (h.1 m hm))

theorem afterTag_tagged {type : SumType} {tag : String} {buffered : Option Json}
    {rest : List (String × Json)} (h : RustSerde.afterTag type tag buffered rest = true) :
    ∀ m ∈ rest, m.1 = "value" := by
  have hone : ∀ {c : String} {p : Json} {l : List (String × Json)}, (c == "value") = true →
      l.isEmpty = true → ∀ m ∈ (c, p) :: l, m.1 = "value" := by
    intro c p l hc hl m hm
    rw [List.isEmpty_iff.1 hl, List.mem_singleton] at hm
    rw [hm]
    exact eq_of_beq hc
  have hnone : ∀ {l : List (String × Json)}, l.isEmpty = true → ∀ m ∈ l, m.1 = "value" := by
    intro l hl m hm
    rw [List.isEmpty_iff.1 hl] at hm
    exact absurd hm List.not_mem_nil
  cases hv : named type.variants tag with
  | none =>
    simp only [RustSerde.afterTag, hv] at h
    cases buffered with
    | some payload => exact hnone h
    | none =>
      rcases rest with _ | ⟨⟨c, p⟩, rest⟩
      · exact hnone rfl
      · obtain ⟨hc, hrest⟩ := Bool.and_eq_true_iff.1 h
        exact hone hc hrest
  | some variant =>
    simp only [RustSerde.afterTag, hv] at h
    cases hp : variant.payload with
    | none =>
      simp only [hp] at h
      exact hnone (Bool.and_eq_true_iff.1 h).2
    | some accepts =>
      simp only [hp] at h
      cases buffered with
      | some payload => exact hnone (Bool.and_eq_true_iff.1 h).2
      | none =>
        rcases rest with _ | ⟨⟨c, p⟩, rest⟩
        · exact hnone rfl
        · obtain ⟨h, hrest⟩ := Bool.and_eq_true_iff.1 h
          exact hone (Bool.and_eq_true_iff.1 h).1 hrest

theorem visitMap_tagged {type : SumType} {members : List (String × Json)}
    (h : RustSerde.visitMap type members = true) : TaggedKeys members := by
  rcases members with _ | ⟨⟨a, x⟩, rest⟩
  · exact fun m hm => absurd hm List.not_mem_nil
  · by_cases ha : a = "kind"
    · cases x with
      | str text =>
        simp only [RustSerde.visitMap, if_pos ha] at h
        intro m hm
        obtain rfl | hm := List.mem_cons.1 hm
        · exact Or.inl ha
        · exact Or.inr (afterTag_tagged h m hm)
      | _ => simp [RustSerde.visitMap, ha] at h
    · by_cases ha' : a = "value"
      · rcases rest with _ | ⟨⟨b, y⟩, rest⟩
        · simp [RustSerde.visitMap, ha'] at h
        · cases y with
          | str text =>
            simp only [RustSerde.visitMap, if_neg ha, if_pos ha'] at h
            obtain ⟨hb, h⟩ := Bool.and_eq_true_iff.1 h
            intro m hm
            obtain rfl | hm := List.mem_cons.1 hm
            · exact Or.inr ha'
            · obtain rfl | hm := List.mem_cons.1 hm
              · exact Or.inl (eq_of_beq hb)
              · exact Or.inr (afterTag_tagged h m hm)
          | _ => simp [RustSerde.visitMap, ha'] at h
      · cases x <;> simp [RustSerde.visitMap, ha, ha'] at h

/-! ### What the packages agree on -/

/-- An object of an undeclared tag, alone or with a value. -/
def unknownTagged (type : SumType) (members : List (String × Json)) : Bool :=
  match lookup "kind" members with
  | some (.str tag) => (named type.variants tag).isNone &&
      members.all fun member => member.1 == "kind" || member.1 == "value"
  | _ => false

theorem contains_names (type : SumType) (tag : String) :
    type.names.contains tag = (named type.variants tag).isSome := by
  rw [Bool.eq_iff_iff, List.contains_iff_mem, SumType.names, List.mem_map, named,
    List.find?_isSome]
  constructor
  · intro h
    obtain ⟨variant, hm, hname⟩ := h
    exact ⟨variant, hm, beq_iff_eq.2 hname⟩
  · intro h
    obtain ⟨variant, hm, hname⟩ := h
    exact ⟨variant, hm, eq_of_beq hname⟩

theorem tagged_iff (members : List (String × Json)) :
    (members.all fun member => member.1 == "kind" || member.1 == "value") = true ↔
      TaggedKeys members := by
  simp [TaggedKeys]

variable {type : SumType} {members : List (String × Json)} {tag : String}

theorem derivedUnion_object (derived : RustSerde.Derived) (hn : (members.map Prod.fst).Nodup)
    (hu : type.untagged = false) (htag : lookup "kind" members = some (.str tag)) :
    RustSerde.derivedUnion derived type (.object members) =
      Typescript.unionCheckBody type (.object members) := by
  have hname : derived.readName type.names (.str tag) =
      if (named type.variants tag).isSome then some tag else none := by
    rw [derived.readName_str, contains_names]
  have hts : Typescript.unionCheckBody type (.object members) =
      (named type.variants tag).any fun variant => Typescript.caseBody variant members := by
    simp only [Typescript.unionCheckBody, hu, Bool.false_eq_true, if_false]
    rw [Typescript.discriminant, htag]
  rw [hts, RustSerde.derivedUnion, htag, Option.bind_some, hname]
  cases hv : named type.variants tag with
  | none => simp
  | some variant =>
    simp only [Option.isSome_some, if_true, Option.bind_some, hv, Option.any_some]
    by_cases hkeys : TaggedKeys members
    · rw [(tagged_iff members).2 hkeys, Bool.true_and, Typescript.caseBody]
      obtain rfl | ⟨p, rfl⟩ | ⟨p, rfl⟩ := members_cases hn hkeys htag <;>
        cases hp : variant.payload <;>
        simp [Typescript.declared, Typescript.discriminant, hp, lookup]
    · have hfalse : (members.all fun member => member.1 == "kind" || member.1 == "value") =
          false := by
        rw [← Bool.not_eq_true, tagged_iff]
        exact hkeys
      have hcase : Typescript.caseBody variant members = false := by
        rw [← Bool.not_eq_true]
        exact fun h => hkeys (caseBody_tagged h)
      rw [hfalse, hcase, Bool.false_and]

theorem visitMap_object (hn : (members.map Prod.fst).Nodup) (hu : type.untagged = false)
    (htag : lookup "kind" members = some (.str tag)) :
    RustSerde.visitMap type members =
      (Typescript.unionCheckBody type (.object members) || unknownTagged type members) := by
  have hts : Typescript.unionCheckBody type (.object members) =
      (named type.variants tag).any fun variant => Typescript.caseBody variant members := by
    simp only [Typescript.unionCheckBody, hu, Bool.false_eq_true, if_false]
    rw [Typescript.discriminant, htag]
  rw [hts]
  simp only [unknownTagged, htag]
  by_cases hkeys : TaggedKeys members
  · rw [(tagged_iff members).2 hkeys]
    cases hv : named type.variants tag with
    | none =>
      obtain rfl | ⟨p, rfl⟩ | ⟨p, rfl⟩ := members_cases hn hkeys htag <;>
        simp [RustSerde.visitMap, RustSerde.afterTag, hv]
    | some variant =>
      rw [Option.any_some, Typescript.caseBody]
      obtain rfl | ⟨p, rfl⟩ | ⟨p, rfl⟩ := members_cases hn hkeys htag <;>
        cases hp : variant.payload <;>
        simp [RustSerde.visitMap, RustSerde.afterTag, hv, hp, Typescript.declared,
          Typescript.discriminant, lookup]
  · have hfalse : (members.all fun member => member.1 == "kind" || member.1 == "value") =
        false := by
      rw [← Bool.not_eq_true, tagged_iff]
      exact hkeys
    have hvisit : RustSerde.visitMap type members = false := by
      rw [← Bool.not_eq_true]
      exact fun h => hkeys (visitMap_tagged h)
    rw [hfalse, hvisit, Bool.and_false, Bool.or_false]
    cases named type.variants tag with
    | none => rfl
    | some variant =>
      rw [Option.any_some]
      exact (Bool.eq_false_iff.2 fun h => hkeys (caseBody_tagged h)).symm

theorem visitMap_tag (h : RustSerde.visitMap type members = true) :
    ∃ m ∈ members, m.1 = "kind" := by
  rcases members with _ | ⟨⟨a, x⟩, rest⟩
  · exact absurd h Bool.false_ne_true
  · by_cases ha : a = "kind"
    · exact ⟨_, List.mem_cons_self, ha⟩
    · by_cases ha' : a = "value"
      · rcases rest with _ | ⟨⟨b, y⟩, rest⟩
        · simp [RustSerde.visitMap, ha'] at h
        · cases y with
          | str text =>
            simp only [RustSerde.visitMap, if_neg ha, if_pos ha'] at h
            exact ⟨_, List.mem_cons_of_mem _ List.mem_cons_self,
              eq_of_beq (Bool.and_eq_true_iff.1 h).1⟩
          | _ => simp [RustSerde.visitMap, ha'] at h
      · cases x <;> simp [RustSerde.visitMap, ha, ha'] at h

theorem untagged_refused (derived : RustSerde.Derived) (hu : type.untagged = false)
    (htag : lookup "kind" members = none) :
    RustSerde.derivedUnion derived type (.object members) = false ∧
      RustSerde.visitMap type members = false ∧
      Typescript.unionCheckBody type (.object members) = false ∧
      unknownTagged type members = false := by
  refine ⟨?_, ?_, ?_, ?_⟩
  · rw [RustSerde.derivedUnion, htag]
    exact Bool.and_false _
  · rw [← Bool.not_eq_true]
    intro h
    obtain ⟨m, hm, hkind⟩ := visitMap_tag h
    rw [lookup, Option.map_eq_none_iff, List.find?_eq_none] at htag
    exact htag m (List.mem_reverse.2 hm) (beq_iff_eq.2 hkind)
  · simp only [Typescript.unionCheckBody, hu, Bool.false_eq_true, if_false]
    rw [Typescript.discriminant, htag]
  · rw [unknownTagged, htag]

/-- An enum has one set of values in the validator and in the schema, and the crate accepts these
strings, under a policy that retains every string. A tagged union has one set of values in the
validator and in the crate but for the undeclared tags, which the crate accepts under such a
policy. -/
theorem sums_agree (derived : RustSerde.Derived) (type : SumType) (value : Json)
    (hvalue : ∀ members, value = .object members → (members.map Prod.fst).Nodup) :
    (type.form = .enum → Typescript.accepts type value = JsonSchema.accepts type value ∧
      (∀ text, value = .str text → RustSerde.accepts derived type value =
        (Typescript.accepts type value || RustSerde.catchAll type)) ∧
      (RustSerde.catchAll type = true → RustSerde.accepts derived type value = true →
        ∃ text, value = .str text)) ∧
    (type.form = .union → type.untagged = false → ∀ members, value = .object members →
      (∀ tag, lookup "kind" members = some tag → ∃ text, tag = .str text) →
        RustSerde.accepts derived type value = (Typescript.accepts type value ||
          RustSerde.catchAll type && unknownTagged type members)) := by
  constructor
  · intro hform
    have hts : Typescript.accepts type value = Typescript.enumCheckBody type value := by
      simp only [Typescript.accepts, hform]
    refine ⟨?_, ?_, ?_⟩
    · rw [hts]
      cases value <;> simp only [JsonSchema.accepts, hform, Typescript.enumCheckBody]
    · intro text htext
      subst htext
      rw [hts]
      cases hc : RustSerde.catchAll type with
      | true => simp [RustSerde.accepts, hform, hc]
      | false =>
        simp only [RustSerde.accepts, hform, hc, Bool.false_eq_true, if_false,
          derived.readName_str, Bool.or_false, Typescript.enumCheckBody]
        cases type.names.contains text <;> rfl
    · intro hc haccepts
      cases value with
      | str text => exact ⟨text, rfl⟩
      | _ => simp [RustSerde.accepts, hform, hc] at haccepts
  · intro hform hu members hmembers htags
    have hn := hvalue members hmembers
    subst hmembers
    simp only [Typescript.accepts, RustSerde.accepts, hform]
    cases htag : lookup "kind" members with
    | none =>
      obtain ⟨hderived, hvisit, hts, hunknown⟩ := untagged_refused derived hu htag
      rw [hderived, hvisit, hts, hunknown, Bool.and_false, ite_self]
      rfl
    | some tag =>
      obtain ⟨text, rfl⟩ := htags tag htag
      cases hc : RustSerde.catchAll type with
      | true => rw [if_pos rfl, visitMap_object hn hu htag, Bool.true_and]
      | false =>
        rw [if_neg Bool.false_ne_true, derivedUnion_object derived hn hu htag, Bool.false_and,
          Bool.or_false]

def strictReader : RustSerde.Derived where
  readName := fun names value =>
    match value with
    | .str text => if names.contains text then some text else none
    | _ => none
  readsOther := fun _ _ => false
  readName_str := fun _ _ => rfl

def textOrNone (policy : UnknownPolicy) : SumType where
  form := .union
  untagged := false
  unknownPolicy := policy
  variants := [⟨"text", some fun value => value.asStr.isSome⟩, ⟨"none", none⟩]

theorem textOrNone_agree : RustSerde.accepts strictReader (textOrNone .reject)
    (.object [("value", .str "x"), ("kind", .str "text")]) =
      (Typescript.accepts (textOrNone .reject)
        (.object [("value", .str "x"), ("kind", .str "text")]) ||
          RustSerde.catchAll (textOrNone .reject) &&
            unknownTagged (textOrNone .reject) [("value", .str "x"), ("kind", .str "text")]) := by
  refine (sums_agree strictReader (textOrNone .reject)
    (.object [("value", .str "x"), ("kind", .str "text")]) ?_).2 rfl rfl _ rfl ?_
  · intro members h
    injection h with h
    rw [← h]
    decide
  · intro tag h
    exact ⟨"text", (Option.some.inj h).symm⟩

/-- An undeclared tag is accepted by the crate alone, and a declared one by no schema. -/
theorem textOrNone_differ :
    (RustSerde.accepts strictReader (textOrNone .preserve) (.object [("kind", .str "other")]) = true ∧
      Typescript.accepts (textOrNone .preserve) (.object [("kind", .str "other")]) = false ∧
      JsonSchema.accepts (textOrNone .preserve) (.object [("kind", .str "other")]) = false) ∧
    (RustSerde.accepts strictReader (textOrNone .reject) (.object [("kind", .str "none")]) = true ∧
      Typescript.accepts (textOrNone .reject) (.object [("kind", .str "none")]) = true ∧
      JsonSchema.accepts (textOrNone .reject) (.object [("kind", .str "none")]) = false) := by
  decide

end FilamentCore.Backends.Sums
