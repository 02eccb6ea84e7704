import FilamentCore.Library.SchemaRules
import FilamentCore.PythonBackend.InspectSource

/-!
# What the inspection sanctions

Which values a node accepts that `_unconstrained` takes for faithful to a permissive
annotation, and which imports an enforced module has.
-/

namespace FilamentCore.PythonBackend
open Library Library.JsonSchema Syntax

variable {V : Vocabulary}

/-! ### Keywords of a node -/

theorem keywords_meaningful {k : String} (hk : k ∈ keywords) :
    k ∉ metadata ∧ k ∉ descriptiveAnnotations ∧
      k ≠ "x-agent-ix-extensions" := by
  revert k
  decide +kernel

theorem mem_meaningful {node : Members} {k : String} {j : Json} (hk : k ∈ keywords)
    (hl : lookup k node = some j) : k ∈ meaningful node := by
  obtain ⟨hm, hd, hx⟩ := keywords_meaningful hk
  have hmem : (k, j) ∈ node := OrderedMap.mem_of_lookup hl
  refine List.mem_map.2 ⟨(k, j), List.mem_filter.2 ⟨hmem, ?_⟩, rfl⟩
  simp [descriptive, hm, hd, hx]

theorem lookup_of_only {node : Members} {keys : List String}
    (h : meaningfulOnly node keys = true) {k : String} (hk : k ∈ keywords) (hn : k ∉ keys) :
    lookup k node = none := by
  cases hl : lookup k node with
  | none => rfl
  | some j =>
    rw [meaningfulOnly, Bool.and_eq_true, List.all_eq_true] at h
    have hc := h.1 k (mem_meaningful hk hl)
    exact absurd (by simpa using hc) hn

theorem lookup_composing {node : Members}
    (h : ((meaningful node).any composingKeywords.contains) = false) {k : String}
    (hk : k ∈ composingKeywords) : lookup k node = none := by
  have hkw : k ∈ keywords := by
    revert k
    decide +kernel
  cases hl : lookup k node with
  | none => rfl
  | some j =>
    rw [List.any_eq_false] at h
    have hc := h k (mem_meaningful hkw hl)
    exact absurd (by simpa using hk) hc

theorem typedObject_iff {node : Members} :
    typedObject node = true ↔ lookup "type" node = some (.str "object") := by
  unfold typedObject
  cases lookup "type" node with
  | none => simp
  | some j => cases j <;> simp

/-! ### Nodes without applicators -/

theorem applicators_keywords :
    (∀ o : Operand, o.keyword ∈ keywords) ∧ (∀ a : Applicator, a.keyword ∈ keywords) ∧
      (∀ a : ListApplicator, a.keyword ∈ keywords) ∧
        ∀ a : MapApplicator, a.keyword ∈ keywords := by
  refine ⟨fun o => ?_, fun a => ?_, fun a => ?_, fun a => ?_⟩
  · cases o <;> decide +kernel
  · cases a <;> decide +kernel
  · cases a <;> decide +kernel
  · cases a <;> decide +kernel

theorem assertion_keyword (a : Assertion) : a.keyword ∈ keywords := by
  cases a <;> decide +kernel

theorem plain_of_only {node : Members} {keys : List String}
    (hkeys : keys ⊆ ["type", "additionalProperties"]) (h : meaningfulOnly node keys = true) :
    (read V node).Plain := by
  obtain ⟨ho, ha, hl, hm⟩ := applicators_keywords
  refine ⟨fun o => ?_, fun a hne => ?_, fun a => ?_, fun a => ?_⟩
  · rw [read_operand]
    refine lookup_of_only h (ho o) fun hc => ?_
    have := hkeys hc
    cases o <;> simp [Operand.keyword] at this
  · rw [read_schema]
    have hn : OrderedMap.lookup a.keyword node = none := by
      refine lookup_of_only h (ha a) fun hc => ?_
      have := hkeys hc
      cases a <;> simp [Applicator.keyword] at this hne
    rw [hn, Option.map_none]
  · rw [read_listed]
    have hn : OrderedMap.lookup a.keyword node = none := by
      refine lookup_of_only h (hl a) fun hc => ?_
      have := hkeys hc
      cases a <;> simp [ListApplicator.keyword] at this
    rw [hn, Option.map_none, Option.getD_none]
  · rw [read_named]
    have hn : OrderedMap.lookup a.keyword node = none := by
      refine lookup_of_only h (hm a) fun hc => ?_
      have := hkeys hc
      cases a <;> simp [MapApplicator.keyword] at this
    rw [hn, Option.map_none, Option.getD_none]

theorem assertions_of_only {node : Members} {keys : List String}
    (hkeys : keys ⊆ ["type", "additionalProperties"]) (h : meaningfulOnly node keys = true)
    (v : Json) :
    (Reading.assertions V (read V node) v).isSome = true ↔
      ∀ o, lookup "type" node = some o → holds V o v .type = true := by
  rw [Reading.assertions, isSome_assert, List.all_eq_true]
  constructor
  · intro hall o hl
    have ht := hall .type (Assertion.mem_all _)
    rw [read_assertion] at ht
    have hl' : OrderedMap.lookup Assertion.type.keyword node = some o := hl
    simpa [hl'] using ht
  · intro ht a _
    rw [read_assertion]
    by_cases hat : a = .type
    · subst hat
      cases hl : OrderedMap.lookup Assertion.type.keyword node with
      | none => rfl
      | some o => simpa using ht o hl
    · have hn : OrderedMap.lookup a.keyword node = none := by
        refine lookup_of_only h (assertion_keyword a) fun hc => ?_
        have := hkeys hc
        cases a <;> simp [Assertion.keyword] at this hat
      rw [hn]
      rfl

theorem holds_object (v : Json) : holds V (.str "object") v .type = v.isObject := by
  cases v <;> simp [holds, Json.isArray, Json.text, hasType, Json.isObject]

/-! ### What is sanctioned -/

def Patterned (V : Vocabulary) (node : Members) (name : String) : Prop :=
  ∃ ps, lookup "patternProperties" node = some (.object ps) ∧ ∃ p ∈ ps, V.found p.1 name = true

/-- A schema a permissive annotation may stand for. -/
inductive Sanctioned (V : Vocabulary) : Json → Prop
  /-- It accepts every value. -/
  | everything {t : Json} (h : ∀ v, Accepts V t v) : Sanctioned V t
  /-- It has type `object` and accepts every object. -/
  | everyObject {node : Members} (ht : typedObject node = true)
      (h : ∀ v, v.isObject = true → Accepts V (.object node) v) : Sanctioned V (.object node)
  /-- It is a union, and a branch is sanctioned. -/
  | union {node : Members} {key : String} {branches : List Json} {t : Json}
      (hk : key = "oneOf" ∨ key = "anyOf") (ho : meaningfulOnly node [key] = true)
      (hl : lookup key node = some (.array branches)) (hm : t ∈ branches)
      (h : Sanctioned V t) : Sanctioned V (.object node)
  /-- It accepts the objects whose members all have a sanctioned schema. -/
  | map {node : Members} {t : Json} (hl : lookup "additionalProperties" node = some t)
      (ha : ∀ v, Accepts V (.object node) v ↔
        v.isObject = true ∧ ∀ m ∈ v.members, Accepts V t m.2)
      (h : Sanctioned V t) : Sanctioned V (.object node)
  /-- It has type `object`, composes no members, and accepts the objects the rest accepts. -/
  | uncomposed {node : Members} (hc : ∀ k ∈ composingKeywords, lookup k node = none)
      (ha : ∀ v, Accepts V (.object node) v ↔ v.isObject = true ∧
        Accepts V (.object (node.filter fun m => m.1 != "type")) v) :
      Sanctioned V (.object node)
  /-- It accepts objects without members but those a pattern names. -/
  | closed {node : Members}
      (ha : (∀ o, lookup "maxProperties" node = some o → o.number.isSome = true) →
        ∀ v, Accepts V (.object node) v →
          v.isObject = true ∧ ∀ m ∈ v.members, Patterned V node m.1) :
      Sanctioned V (.object node)

section
variable {node : Members}

theorem accepts_everything (h : (meaningful node).isEmpty = true) (v : Json) :
    Accepts V (.object node) v := by
  have ho : meaningfulOnly node [] = true := by
    rw [List.isEmpty_iff] at h
    simp [meaningfulOnly, h]
  have hnone : ∀ k ∈ keywords, lookup k node = none := fun k hk => lookup_of_only ho hk (by simp)
  rw [accepts_object, accepts_plain (plain_of_only (by simp) ho)]
  constructor
  · rw [assertions_of_only (by simp) ho]
    intro o hl
    rw [hnone "type" (by decide +kernel)] at hl
    cases hl
  · intro m _ c hc
    have hn : OrderedMap.lookup Applicator.additionalProperties.keyword node = none :=
      hnone _ (by decide +kernel)
    rw [read_schema, hn] at hc
    cases hc

theorem accepts_typed (ht : typedObject node = true) (ho : meaningfulOnly node ["type"] = true)
    (v : Json) : Accepts V (.object node) v ↔ v.isObject = true := by
  rw [accepts_object, accepts_plain (plain_of_only (by simp) ho), assertions_of_only (by simp) ho]
  have hn : OrderedMap.lookup Applicator.additionalProperties.keyword node = none :=
    lookup_of_only ho (by decide +kernel) (by decide +kernel)
  rw [typedObject_iff] at ht
  simp [ht, holds_object, hn]

theorem accepts_map (ht : typedObject node = true)
    (ho : meaningfulOnly node ["type", "additionalProperties"] = true) {t : Json}
    (hl : lookup "additionalProperties" node = some t) (v : Json) :
    Accepts V (.object node) v ↔ v.isObject = true ∧ ∀ m ∈ v.members, Accepts V t m.2 := by
  rw [accepts_object, accepts_plain (plain_of_only (by simp) ho), assertions_of_only (by simp) ho]
  have hs : OrderedMap.lookup Applicator.additionalProperties.keyword node = some t := hl
  rw [typedObject_iff] at ht
  simp [ht, holds_object, hs, Accepts]

theorem read_filter_type :
    read V (node.filter fun m => m.1 != "type") = (read V node).without .type := by
  have hkeep : ∀ k : String, k ≠ "type" →
      OrderedMap.lookup k (node.filter fun m => m.1 != "type") = OrderedMap.lookup k node :=
    fun k hk => OrderedMap.lookup_filter (p := fun n => n != "type") (by simpa using hk)
  have hdrop : OrderedMap.lookup "type" (node.filter fun m => m.1 != "type") = none := by
    rw [OrderedMap.lookup_eq_none_iff]
    simp
  refine Reading.ext_of (fun a => ?_) (fun o => ?_) (fun a => ?_) (fun a => ?_) (fun a => ?_)
  · by_cases hat : a = .type
    · subst hat
      rw [read_assertion]
      simpa [Reading.without, Assertion.keyword] using hdrop
    · have hk : a.keyword ≠ "type" := by
        cases a <;> simp [Assertion.keyword] at hat ⊢
      simp [Reading.without, hat, hkeep _ hk]
  · have hk : o.keyword ≠ "type" := by cases o <;> simp [Operand.keyword]
    simp [Reading.without, hkeep _ hk]
  · have hk : a.keyword ≠ "type" := by cases a <;> simp [Applicator.keyword]
    simp [Reading.without, hkeep _ hk]
  · have hk : a.keyword ≠ "type" := by cases a <;> simp [ListApplicator.keyword]
    simp [Reading.without, hkeep _ hk]
  · have hk : a.keyword ≠ "type" := by cases a <;> simp [MapApplicator.keyword]
    simp [Reading.without, hkeep _ hk]

theorem accepts_uncomposed (ht : typedObject node = true) (v : Json) :
    Accepts V (.object node) v ↔ v.isObject = true ∧
      Accepts V (.object (node.filter fun m => m.1 != "type")) v := by
  rw [typedObject_iff] at ht
  have ha : (read V node).assertion .type = some (.str "object") := by
    rw [read_assertion]
    exact ht
  rw [accepts_object, accepts_object, outcome_without ha, holds_object, read_filter_type]
  cases v.isObject <;> simp

theorem accepted_parts {v : Json} (h : Accepts V (.object node) v) :
    (∀ a o, (read V node).assertion a = some o → holds V o v a = true) ∧
      ∀ m ∈ v.members, ∀ c ∈ Reading.memberChecks V (read V node) m.1, (c m.2).isSome = true := by
  rw [accepts_object] at h
  have hadj : ((read V node).adjacent V v).isSome = true := by
    unfold Reading.outcome at h
    cases ha : (read V node).adjacent V v with
    | none => simp [ha] at h
    | some e => rfl
  rw [Reading.adjacent, isSome_allOf, List.all_eq_true] at hadj
  constructor
  · intro a o ho
    have hass := hadj (Reading.assertions V (read V node) v) (by simp)
    rw [Reading.assertions, isSome_assert, List.all_eq_true] at hass
    simpa [ho] using hass a (Assertion.mem_all a)
  · have hobj := hadj (Reading.objectMembers V (read V node) v) (by simp)
    unfold Reading.objectMembers at hobj
    split at hobj
    · next hall =>
      intro m hm c hc
      exact List.all_eq_true.1 (List.all_eq_true.1 hall m hm) c hc
    · cases hobj

theorem pattern_of_named {q : String × Check}
    (h : q ∈ (read V node).named .patternProperties) :
    ∃ ps, lookup "patternProperties" node = some (.object ps) ∧ ∃ p ∈ ps, p.1 = q.1 := by
  rw [read_named] at h
  cases hl : OrderedMap.lookup MapApplicator.patternProperties.keyword node with
  | none => simp [hl] at h
  | some j =>
    rw [hl, Option.map_some, Option.getD_some] at h
    cases j with
    | object ps =>
      rw [namedChecks, memberChecks_eq, List.mem_map] at h
      obtain ⟨p, hp, rfl⟩ := h
      exact ⟨ps, hl, p, hp, rfl⟩
    | _ => simp [namedChecks] at h

theorem empty_properties
    (hp : ((lookup "properties" node).any fun p => p.isObject && p.members.isEmpty) = true)
    (name : String) : OrderedMap.lookup name ((read V node).named .properties) = none := by
  cases hl : lookup "properties" node with
  | none => simp [hl] at hp
  | some p =>
    have hl' : OrderedMap.lookup MapApplicator.properties.keyword node = some p := hl
    rw [hl] at hp
    cases p with
    | object ps =>
      obtain rfl : ps = [] := by simpa [Json.isObject, Json.members] using hp
      simp [hl', namedChecks, memberChecks, OrderedMap.lookup]
    | _ => simp [Json.isObject] at hp

theorem closed_additional (hf : (lookup "additionalProperties" node).any isFalse = true) :
    (read V node).schema .additionalProperties = some fun _ => none := by
  cases hl : lookup "additionalProperties" node with
  | none => simp [hl] at hf
  | some o =>
    have hl' : OrderedMap.lookup Applicator.additionalProperties.keyword node = some o := hl
    rw [hl] at hf
    obtain rfl : o = .bool false := by cases o <;> simp_all [isFalse]
    rw [read_schema, hl', Option.map_some, check]

theorem members_of_zero {o v : Json} (hz : isZero o = true) (hn : o.number.isSome = true)
    (h : holds V o v .maxProperties = true) : v.members = [] := by
  have h0 : o.number = some 0 := by cases o <;> simp_all [isZero, Json.number]
  cases v with
  | object ms =>
    have hlen : (ms.length : ℚ) ≤ 0 := by simpa [holds, limited, width, h0] using h
    have hnil : ms.length = 0 := by exact_mod_cast le_antisymm hlen (by positivity)
    exact List.eq_nil_of_length_eq_zero hnil
  | _ => rfl

theorem accepts_closed (hu : uninhabited node = true)
    (hmax : ∀ o, lookup "maxProperties" node = some o → o.number.isSome = true) {v : Json}
    (h : Accepts V (.object node) v) :
    v.isObject = true ∧ ∀ m ∈ v.members, Patterned V node m.1 := by
  obtain ⟨hass, hmem⟩ := accepted_parts h
  rw [uninhabited, Bool.and_eq_true, typedObject_iff] at hu
  obtain ⟨ht, hu⟩ := hu
  have hobj : v.isObject = true := by
    have := hass .type (.str "object") (by rw [read_assertion]; exact ht)
    rwa [holds_object] at this
  refine ⟨hobj, fun m hm => ?_⟩
  rw [Bool.or_eq_true, Bool.and_eq_true] at hu
  rcases hu with hz | ⟨hf, hp⟩
  · cases hl : lookup "maxProperties" node with
    | none => simp [hl] at hz
    | some o =>
      rw [hl] at hz
      have hw := hass .maxProperties o (by rw [read_assertion]; exact hl)
      rw [members_of_zero (by simpa using hz) (hmax o hl) hw] at hm
      cases hm
  · -- a member no pattern names meets `additionalProperties: false`
    have hc := hmem m hm
    by_cases hnamed : Reading.namedChecks V (read V node) m.1 = []
    · have hbad := hc (fun _ => none) (by simp [Reading.memberChecks, hnamed, closed_additional hf])
      cases hbad
    · rw [Reading.namedChecks, empty_properties hp, Option.toList_none, List.nil_append] at hnamed
      obtain ⟨c, hmemc⟩ := List.exists_mem_of_ne_nil _ hnamed
      obtain ⟨q, hq, -⟩ := List.mem_map.1 hmemc
      rw [List.mem_filter] at hq
      obtain ⟨ps, hps, p, hpm, hpq⟩ := pattern_of_named hq.1
      exact ⟨ps, hps, p, hpm, hpq ▸ hq.2⟩

end

/-! ### The verdict is right -/

theorem lookup_verdictsOf (k : String) (node : Members) :
    OrderedMap.lookup k (verdictsOf node) =
      (lookup k node).map fun j => ⟨unconstrained j, anyUnconstrained j⟩ := by
  unfold lookup
  induction node with
  | nil => simp [verdictsOf, OrderedMap.lookup]
  | cons m ms ih =>
    obtain ⟨n, j⟩ := m
    by_cases h : n = k
    · simp [verdictsOf, verdictOf, OrderedMap.lookup, h]
    · simp [verdictsOf, verdictOf, OrderedMap.lookup, h, ih]

/-- A node `_unconstrained` takes is sanctioned when the operands it takes are. -/
theorem sanctioned_node {node : Members} (h : unconstrained (.object node) = true)
    (hin : ∀ k j, lookup k node = some j → (unconstrained j = true → Sanctioned V j) ∧
      (anyUnconstrained j = true → ∃ t ∈ j.items, Sanctioned V t)) :
    Sanctioned V (.object node) := by
  have hunion : ∀ key, key = "oneOf" ∨ key = "anyOf" → meaningfulOnly node [key] = true →
      (lookup key node).any Json.isArray = true →
      (OrderedMap.lookup key (verdictsOf node)).any Verdict.branch = true →
      Sanctioned V (.object node) := by
    intro key hk ho ha hb
    rw [lookup_verdictsOf] at hb
    cases hl : lookup key node with
    | none => simp [hl] at ha
    | some j =>
      rw [hl] at ha hb
      obtain ⟨t, ht, hs⟩ := (hin key j hl).2 (by simpa using hb)
      cases j with
      | array branches => exact .union hk ho hl ht hs
      | _ => simp [Json.isArray] at ha
  rw [unconstrained, unconstrainedMembers] at h
  dsimp only at h
  split at h
  · next he => exact .everything (accepts_everything he)
  split at h
  · next hone =>
    rw [Bool.and_eq_true] at hone
    exact hunion "oneOf" (.inl rfl) hone.1 hone.2 h
  split at h
  · next hany =>
    rw [Bool.and_eq_true] at hany
    exact hunion "anyOf" (.inr rfl) hany.1 hany.2 h
  split at h
  · next hty =>
    rw [Bool.and_eq_true] at hty
    exact .everyObject hty.2 fun v hv => (accepts_typed hty.2 hty.1 v).2 hv
  split at h
  · next hmap =>
    rw [Bool.and_eq_true, Bool.and_eq_true] at hmap
    rw [lookup_verdictsOf] at h
    cases hl : lookup "additionalProperties" node with
    | none => simp [hl] at h
    | some t =>
      rw [hl] at h
      have hs := (hin _ t hl).1 (by simpa using h)
      exact .map hl (accepts_map hmap.1.1 hmap.1.2 hl) hs
  split at h
  · next hun =>
    rw [Bool.and_eq_true, Bool.not_eq_true'] at hun
    exact .uncomposed (fun k hk => lookup_composing hun.2 hk) (accepts_uncomposed hun.1)
  · exact .closed fun hmax v hv => accepts_closed h hmax hv

mutual

theorem sanctioned_of_unconstrained : ∀ j : Json, unconstrained j = true → Sanctioned V j
  | .bool b, h => by
    obtain rfl : b = true := by simpa [unconstrained] using h
    exact .everything fun v => by simp [Accepts, check, accept]
  | .object node, h => sanctioned_node h (sanctioned_members node)
  | .null, h => by simp [unconstrained] at h
  | .integer _, h => by simp [unconstrained] at h
  | .decimal _, h => by simp [unconstrained] at h
  | .str _, h => by simp [unconstrained] at h
  | .array _, h => by simp [unconstrained] at h

theorem sanctioned_members : ∀ (node : Members) (k : String) (j : Json),
    lookup k node = some j → (unconstrained j = true → Sanctioned V j) ∧
      (anyUnconstrained j = true → ∃ t ∈ j.items, Sanctioned V t)
  | [], k, j, hl => by simp [lookup, OrderedMap.lookup] at hl
  | m :: ms, k, j, hl => by
    by_cases hk : m.1 = k
    · obtain rfl : m.2 = j := by simpa [lookup, OrderedMap.lookup, hk] using hl
      exact sanctioned_member m
    · exact sanctioned_members ms k j (by simpa [lookup, OrderedMap.lookup, hk] using hl)

theorem sanctioned_member : ∀ m : String × Json,
    (unconstrained m.2 = true → Sanctioned V m.2) ∧
      (anyUnconstrained m.2 = true → ∃ t ∈ m.2.items, Sanctioned V t)
  | (_, j) => ⟨sanctioned_of_unconstrained j, sanctioned_branch j⟩

theorem sanctioned_branch : ∀ j : Json, anyUnconstrained j = true →
    ∃ t ∈ j.items, Sanctioned V t
  | .array branches, h => sanctioned_branches branches h
  | .null, h => by simp [anyUnconstrained] at h
  | .bool _, h => by simp [anyUnconstrained] at h
  | .integer _, h => by simp [anyUnconstrained] at h
  | .decimal _, h => by simp [anyUnconstrained] at h
  | .str _, h => by simp [anyUnconstrained] at h
  | .object _, h => by simp [anyUnconstrained] at h

theorem sanctioned_branches : ∀ branches : List Json,
    someUnconstrained branches = true → ∃ t ∈ branches, Sanctioned V t
  | [], h => by simp [someUnconstrained] at h
  | j :: js, h => by
    rw [someUnconstrained, Bool.or_eq_true] at h
    rcases h with hj | hjs
    · exact ⟨j, List.mem_cons_self, sanctioned_of_unconstrained j hj⟩
    · obtain ⟨t, ht, hs⟩ := sanctioned_branches js hjs
      exact ⟨t, List.mem_cons_of_mem _ ht, hs⟩

end

end FilamentCore.PythonBackend
