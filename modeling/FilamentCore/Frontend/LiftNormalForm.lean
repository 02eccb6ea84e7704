import FilamentCore.Compiler.FixedPoint
import FilamentCore.Frontend.NodeOrder

/-!
# The normal form of a lift

The document of any types with semantic identities is written in the normal form of the compiler.
-/

namespace FilamentCore.Frontend.Document
open FilamentCore.Library
open FilamentCore.SemanticIr
open FilamentCore.SemanticIr.Json
open FilamentCore.SemanticIr.Grammar (depth JsonText)
open FilamentCore.Compiler.Canonical (Ordered Before sortKey_eq identitySets normalizeIr
  normalizeIr_normal maxDepth)

/-! ### Ordered lists -/

theorem perm_orderSet (items : List Json) : (orderSet items).Perm items :=
  List.perm_insertionSort _ _

theorem pairwise_orderSet {items : List Json}
    (h : ∀ item ∈ items, HasIdentity item) : (orderSet items).Pairwise Before := by
  have htotal : Std.Total fun a b : Json =>
      utf16Le (Compiler.Canonical.sortKey a) (Compiler.Canonical.sortKey b) = true :=
    ⟨fun _ _ => utf16Le_total _ _⟩
  have htrans : IsTrans Json fun a b =>
      utf16Le (Compiler.Canonical.sortKey a) (Compiler.Canonical.sortKey b) = true :=
    ⟨fun _ _ _ => utf16Le_trans⟩
  refine (List.pairwise_insertionSort _ items).imp_of_mem fun {a b} ha hb hab => ?_
  obtain ⟨i, hi⟩ := h a ((List.mem_insertionSort _).1 ha)
  obtain ⟨j, hj⟩ := h b ((List.mem_insertionSort _).1 hb)
  rw [sortKey_eq hi, sortKey_eq hj] at hab
  rwa [Before, identityKey, identityKey, hi, hj]

theorem identified_of_set {items : List Json} {identities : List String}
    (hs : SemanticSet identities) (hi : items.map identityOf = identities.map some) :
    Identified items := by
  refine ⟨fun item hm => ?_, ?_⟩
  · obtain ⟨identity, hidentity, -⟩ := semantic_of_set hs hi item hm
    exact ⟨identity, hidentity⟩
  · rw [hi]
    exact hs.distinct.map (Option.some_injective _)

theorem Lifted.fits {place : Place} {v : Json} (h : Lifted place v) : Fits place v := by
  induction h with
  | leaf value => exact .leaf value
  | object place members ho hclosed _ ih =>
    exact .object place members ho (fun _ _ hv => hclosed _ (mem_of_lookup hv))
      fun _ _ hv => ih _ (mem_of_lookup hv)
  | array place items ha hset _ ih =>
    refine .array place items ha (fun hs => ?_) ih
    obtain ⟨identities, hsemantic, hi⟩ := hset hs
    exact identified_of_set hsemantic hi

theorem ordered_arrange {place : Place} {v : Json} (h : Fits place v) :
    Ordered place (arrange placeOrder place v) := by
  induction h with
  | leaf value =>
    rw [arrange_leaf]
    exact .leaf value
  | object place members ho hclosed _ ih =>
    rw [arrange_object]
    refine .object place _ ho ?_ ?_
    · intro name value hv
      rw [lookup_map name fun name v => arrange placeOrder (placeOrder.member place name) v] at hv
      obtain ⟨original, hl, -⟩ := Option.map_eq_some_iff.1 hv
      exact hclosed name original hl
    · intro name value hv
      rw [lookup_map name fun name v => arrange placeOrder (placeOrder.member place name) v] at hv
      obtain ⟨original, hl, rfl⟩ := Option.map_eq_some_iff.1 hv
      exact ih name original hl
  | array place items ha hidentified _ ih =>
    have heach : ∀ item ∈ items.map (arrange placeOrder place.item), Ordered place.item item := by
      intro item hi
      obtain ⟨original, ho, rfl⟩ := List.mem_map.1 hi
      exact ih original ho
    have horder : arrange placeOrder place (array items) = array (if place.isSet then
        orderSet (items.map (arrange placeOrder place.item))
        else items.map (arrange placeOrder place.item)) := arrange_array placeOrder place items
    rw [horder]
    by_cases hs : place.isSet = true
    · have hmapped := (hidentified hs).map (identityOf_arrange placeOrder place.item)
      rw [if_pos hs]
      refine .array place _ ha (fun _ => ⟨?_, pairwise_orderSet hmapped.named⟩) ?_
      · exact hmapped.perm (perm_orderSet _)
      · exact fun item hm => heach item ((perm_orderSet _).mem_iff.1 hm)
    · rw [if_neg hs]
      exact .array place _ ha (fun h => absurd h hs) heach

/-! ### The lists of a lift -/

structure TypeDefinition.Sets (t : TypeDefinition) : Prop where
  variants : SemanticSet ((t.variants.getD []).map fun v => v.identity)
  constraints : SemanticSet (t.constraints.map fun c => c.identity)
  relationships : SemanticSet ((t.relationships.getD []).map fun r => r.identity)
  operations : SemanticSet ((t.operations.getD []).map fun o => o.identity)
  clauses : SemanticSet ((t.clauses.getD []).map fun c => c.identity)
  extensions : SemanticSet (t.extensions.map fun e => e.identity)
  fields : ∀ field ∈ t.fields.getD [], SemanticSet (field.extensions.map fun e => e.identity)
  params : ∀ operation ∈ t.operations.getD [], ∀ param ∈ operation.params,
    SemanticSet (param.extensions.map fun e => e.identity)

/-- Nodes that arrive as values. -/
def SemanticNodes (nodes : List Json) : Prop :=
  ∃ identities, SemanticSet identities ∧ nodes.map identityOf = identities.map some

/-- The nodes of every list have semantic identities, distinct inside the list. -/
structure Sets (envelope : Envelope) (types : List TypeDefinition) : Prop where
  definitions : SemanticSet (types.map fun t => t.identity)
  occurrences : SemanticNodes envelope.occurrences
  extensions : SemanticNodes envelope.extensions
  each : ∀ t ∈ types, t.Sets

/-! ### The values of the nodes -/

/-- A member of an object at the place. -/
structure Fitting (place : Place) (m : String × Json) : Prop where
  named : m.1 ∈ place.names
  lifted : Lifted (place.member m.1) m.2

theorem forall_append {l r : List (String × Json)} {P : String × Json → Prop}
    (hl : ∀ m ∈ l, P m) (hr : ∀ m ∈ r, P m) : ∀ m ∈ l ++ r, P m :=
  List.forall_mem_append.2 ⟨hl, hr⟩

theorem lifted_object {place : Place} {members : List (String × Json)}
    (ho : place.isArray = false) (h : ∀ m ∈ members, Fitting place m) :
    Lifted place (object members) :=
  .object place members ho (fun m hm => (h m hm).named) fun m hm => (h m hm).lifted

theorem fitting {place : Place} {name : String} {v : Json} (hn : name ∈ place.names)
    (h : Lifted (place.member name) v) : Fitting place (name, v) :=
  ⟨hn, h⟩

theorem fitting_leaf {place : Place} {name : String} (v : Json) (hn : name ∈ place.names)
    (hp : place.member name = .leaf) : Fitting place (name, v) :=
  fitting hn (hp ▸ .leaf v)

theorem fitting_optional {place : Place} {name : String} {value : Option Json}
    (h : ∀ v, value = some v → Fitting place (name, v)) :
    ∀ m ∈ optional name value, Fitting place m := by
  intro m hm
  rw [optional, Option.mem_toList, Option.map_eq_some_iff] at hm
  obtain ⟨v, hv, rfl⟩ := hm
  exact h v hv

theorem fitting_optional_leaf {place : Place} {name : String} (value : Option Json)
    (hn : name ∈ place.names) (hp : place.member name = .leaf) :
    ∀ m ∈ optional name value, Fitting place m :=
  fitting_optional fun v _ => fitting_leaf v hn hp

theorem ne_of_optional {name key : String} {value : Option Json} (h : name ≠ key) :
    ∀ m ∈ optional name value, m.1 ≠ key := by
  intro m hm
  rw [optional, Option.mem_toList, Option.map_eq_some_iff] at hm
  obtain ⟨v, -, rfl⟩ := hm
  exact h

theorem identityOf_append {members rest : List (String × Json)}
    (h : ∀ m ∈ rest, m.1 ≠ "identity") :
    identityOf (object (members ++ rest)) = identityOf (object members) := by
  have hrest : lookup "identity" rest = none := by
    cases hl : lookup "identity" rest with
    | none => rfl
    | some value => exact absurd rfl (h _ (mem_of_lookup hl))
  change (lookup "identity" (members ++ rest)).bind asStr = (lookup "identity" members).bind asStr
  rw [lookup_append, hrest, Option.none_or]

theorem lifted_set {α : Type} {toValue : α → Json} {identity : α → String}
    (hidentity : ∀ node, identityOf (toValue node) = some (identity node)) {nodes : List α}
    (h : SemanticSet (nodes.map identity)) : Lifted .set (array (nodes.map toValue)) := by
  refine .array .set _ rfl (fun _ => ⟨nodes.map identity, h, ?_⟩) fun item _ => .leaf item
  rw [List.map_map, List.map_map]
  exact List.map_congr_left fun node _ => hidentity node

theorem lifted_field {field : Field} (h : SemanticSet (field.extensions.map fun e => e.identity)) :
    Lifted .field field.toValue := by
  have hextensions : Fitting .field ("extensions", array (field.extensions.map Extension.toValue)) :=
    fitting (by decide) (lifted_set (fun _ => rfl) h)
  have hconstraints : ∀ m ∈ (if field.constraints = [] then [] else [("constraints",
      array (field.constraints.map ConstraintNode.toValue))]), Fitting .field m := by
    intro m hm
    split at hm
    · exact absurd hm List.not_mem_nil
    · rw [List.mem_singleton.1 hm]
      exact fitting_leaf _ (by decide) (by decide)
  apply lifted_object rfl
  simp only [List.forall_mem_append, List.forall_mem_cons]
  refine ⟨⟨⟨⟨?_, ?_, ?_, ?_, ?_, ?_, ?_, hextensions, ?_, fun m hm => absurd hm List.not_mem_nil⟩,
    ?_⟩, ?_⟩, hconstraints⟩
  all_goals
    first
    | exact fitting_leaf _ (by decide) (by decide)
    | exact fitting_optional_leaf _ (by decide) (by decide)

theorem lifted_fields {fields : List Field}
    (h : ∀ field ∈ fields, SemanticSet (field.extensions.map fun e => e.identity)) :
    Lifted .fields (array (fields.map Field.toValue)) := by
  refine .array .fields _ rfl (fun hs : Place.fields.isSet = true => absurd hs (by decide)) ?_
  intro item hi
  obtain ⟨field, hf, rfl⟩ := List.mem_map.1 hi
  exact lifted_field (h field hf)

theorem lifted_operation {operation : Operation} (h : ∀ param ∈ operation.params,
    SemanticSet (param.extensions.map fun e => e.identity)) :
    Lifted .operation operation.toValue := by
  have hparams : Fitting .operation ("params", array (operation.params.map Field.toValue)) :=
    fitting (by decide) (lifted_fields h)
  apply lifted_object rfl
  simp only [List.forall_mem_append, List.forall_mem_cons]
  refine ⟨⟨?_, ?_, hparams, ?_, ?_, ?_, fun m hm => absurd hm List.not_mem_nil⟩, ?_⟩
  all_goals
    first
    | exact fitting_leaf _ (by decide) (by decide)
    | exact fitting_optional_leaf _ (by decide) (by decide)

theorem lifted_operations {operations : List Operation}
    (hs : SemanticSet (operations.map fun o => o.identity))
    (h : ∀ operation ∈ operations, ∀ param ∈ operation.params,
      SemanticSet (param.extensions.map fun e => e.identity)) :
    Lifted .operations (array (operations.map Operation.toValue)) := by
  refine .array .operations _ rfl (fun _ => ⟨_, hs, ?_⟩) fun item hi => ?_
  · rw [List.map_map, List.map_map]
    apply List.map_congr_left
    intro operation _
    exact identityOf_append (ne_of_optional (by decide))
  · obtain ⟨operation, ho, rfl⟩ := List.mem_map.1 hi
    exact lifted_operation (h operation ho)

theorem fitting_listed {place : Place} {name : String} {α : Type} {toValue : α → Json}
    {nodes : Option (List α)} (hn : name ∈ place.names)
    (h : Lifted (place.member name) (array ((nodes.getD []).map toValue))) :
    ∀ m ∈ optional name (listed toValue nodes), Fitting place m := by
  refine fitting_optional fun v hv => fitting hn ?_
  cases nodes with
  | none => cases hv
  | some nodes =>
    rw [listed, Option.map_some, Option.some.injEq] at hv
    exact hv ▸ h

theorem fitting_construct (c : ConstructMembers) : ∀ m ∈ c.toMembers, Fitting .type m := by
  unfold ConstructMembers.toMembers
  repeat' refine List.forall_mem_append.2 ⟨?_, ?_⟩
  all_goals exact fitting_optional_leaf _ (by decide +kernel) (by decide +kernel)

theorem lifted_type {t : TypeDefinition} (h : t.Sets) : Lifted .type t.toValue := by
  have hconstraints : Fitting .type ("constraints",
      array (t.constraints.map ConstraintNode.toValue)) :=
    fitting (by decide) (lifted_set (fun _ => rfl) h.constraints)
  have hextensions : Fitting .type ("extensions", array (t.extensions.map Extension.toValue)) :=
    fitting (by decide) (lifted_set (fun _ => rfl) h.extensions)
  have hfields := @fitting_listed .type "fields" _ Field.toValue t.fields (by decide)
    (lifted_fields h.fields)
  have hvariants := @fitting_listed .type "variants" _ Variant.toValue t.variants (by decide)
    (lifted_set (fun _ => identityOf_append (ne_of_optional (by decide))) h.variants)
  have hrelationships := @fitting_listed .type "relationships" _ Relationship.toValue
    t.relationships (by decide) (lifted_set (fun _ => rfl) h.relationships)
  have hoperations := @fitting_listed .type "operations" _ Operation.toValue t.operations
    (by decide) (lifted_operations h.operations h.params)
  have hclauses := @fitting_listed .type "clauses" _ Clause.toValue t.clauses (by decide)
    (lifted_set (fun _ => rfl) h.clauses)
  unfold TypeDefinition.toValue
  apply lifted_object rfl
  simp only [List.append_assoc]
  refine forall_append ?_ <| forall_append ?_ <| forall_append ?_ <| forall_append ?_ <|
    forall_append ?_ <| forall_append hfields <| forall_append hvariants <| forall_append ?_ <|
    forall_append hrelationships <| forall_append hoperations <| forall_append hclauses <|
    fitting_construct t.construct
  · simp only [List.forall_mem_cons]
    refine ⟨?_, ?_, ?_, ?_, ?_, hconstraints, hextensions, ?_,
      fun m hm => absurd hm List.not_mem_nil⟩
    all_goals exact fitting_leaf _ (by decide +kernel) (by decide +kernel)
  all_goals exact fitting_optional_leaf _ (by decide +kernel) (by decide +kernel)

theorem identityOf_type (t : TypeDefinition) : identityOf t.toValue = some t.identity := by
  have hconstruct : ∀ m ∈ t.construct.toMembers, m.1 ≠ "identity" := by
    unfold ConstructMembers.toMembers
    repeat' refine List.forall_mem_append.2 ⟨?_, ?_⟩
    all_goals exact ne_of_optional (by decide)
  unfold TypeDefinition.toValue
  simp only [List.append_assoc]
  rw [identityOf_append]
  · rfl
  · refine forall_append ?_ <| forall_append ?_ <| forall_append ?_ <| forall_append ?_ <|
      forall_append ?_ <| forall_append ?_ <| forall_append ?_ <| forall_append ?_ <|
      forall_append ?_ <| forall_append ?_ hconstruct
    all_goals exact ne_of_optional (by decide)

theorem lifted_nodes {nodes : List Json} (h : SemanticNodes nodes) : Lifted .set (array nodes) := by
  obtain ⟨identities, hs, hi⟩ := h
  exact .array .set nodes rfl (fun _ => ⟨identities, hs, hi⟩) fun item _ => .leaf item

theorem lifted_types {envelope : Envelope} {types : List TypeDefinition}
    (h : Sets envelope types) : Lifted .types (array (types.map TypeDefinition.toValue)) := by
  refine .array .types _ rfl (fun _ => ⟨_, h.definitions, ?_⟩) fun item hi => ?_
  · rw [List.map_map, List.map_map]
    apply List.map_congr_left
    intro t _
    rw [Function.comp_apply, Function.comp_apply, identityOf_type]
  · obtain ⟨t, ht, rfl⟩ := List.mem_map.1 hi
    exact lifted_type (h.each t ht)

theorem lifted_members {envelope : Envelope} {types : List TypeDefinition} (h : Sets envelope types)
    (constructs : List Construct) : Lifted .root (members envelope types constructs) := by
  have htypes : Fitting .root ("types", array (types.map TypeDefinition.toValue)) :=
    fitting (by decide +kernel) (lifted_types h)
  have hoccurrences : Fitting .root ("occurrences", array envelope.occurrences) :=
    fitting (by decide +kernel) (lifted_nodes h.occurrences)
  have hextensions : Fitting .root ("extensions", array envelope.extensions) :=
    fitting (by decide +kernel) (lifted_nodes h.extensions)
  apply lifted_object rfl
  simp only [List.forall_mem_cons]
  refine ⟨?_, ?_, ?_, ?_, htypes, hoccurrences, hextensions, ?_,
    fun m hm => absurd hm List.not_mem_nil⟩
  all_goals exact fitting_leaf _ (by decide +kernel) (by decide +kernel)

/-! ### The normal form -/

theorem ordered_assemble {envelope : Envelope} {types : List TypeDefinition}
    (h : Sets envelope types) (constructs : List Construct) :
    Ordered .root (assemble envelope types constructs) := by
  have hlifted := lifted_members h constructs
  rw [assemble, sortNodeLists_place hlifted]
  exact ordered_arrange hlifted.fits

/-- The lift sorts the identity sets of the compiler and nothing else, and the compiler reads what
the lift writes back to the same bytes wherever it does not refuse the nesting. -/
theorem lift_normalForm {envelope : Envelope} {types : List TypeDefinition}
    (h : Sets envelope types) (constructs : List Construct) :
    assemble envelope types constructs =
        arrange (pathOrder identitySets) "" (members envelope types constructs) ∧
      ∃ document, JsonText (canonicalBytes (assemble envelope types constructs)) document ∧
        normalizeIr document = if depth document ≤ maxDepth then
          some (canonicalBytes (assemble envelope types constructs)) else none :=
  ⟨sortNodeLists_eq (lifted_members h constructs), _, jsonText_canonical.2 rfl,
    normalizeIr_normal (ordered_assemble h constructs)⟩

/-! ### A lift -/

def exampleLocus : Locus where
  sourceIdentity := "ix://example/notes"
  path := "notes.md"
  startLine := 3
  startColumn := 1

def exampleExtension (identity : String) (payload : Json) : Extension where
  identity := identity
  version := "1.0.0"
  required := false
  payload := payload

/-- A record whose field carries two extensions, the later one first. -/
def exampleRecord (payload : Json) : TypeDefinition where
  identity := "ix://example/note"
  displayName := "Note"
  kind := .record
  roles := []
  origin := exampleLocus
  constraints := []
  extensions := [exampleExtension "ix://example/shape" payload]
  unknownPolicy := .reject
  scalar := none
  decimal := none
  target := none
  inner := none
  fields := some [{
    identity := "ix://example/note/title"
    name := "title"
    typeRef := "ix://example/text"
    decimal := none
    presence := .required
    nullable := false
    origin := exampleLocus
    extensions := [exampleExtension "ix://example/width" .null,
      exampleExtension "ix://example/align" .null]
    multiplicity := object [("lower", count 1)]
    unit := none
    constraints := [] }]
  variants := none
  positions := none
  relationships := none
  operations := none
  clauses := none
  construct := ⟨none, none, none, none, none, none, none, none, none, none, none, none, none, none,
    none, none, none, none, none, none, none⟩

def exampleEnvelope : Envelope where
  source := ⟨"ix://example/notes", "1.0.0", "markdown"⟩
  package := ⟨"example", "1.0.0", [], []⟩
  occurrences := []
  extensions := []

theorem exampleSets (payload : Json) : Sets exampleEnvelope [exampleRecord payload] := by
  have hset : ∀ identities : List String, identities.Nodup →
      (identities.all isSemanticIdentity = true) → SemanticSet identities :=
    fun identities hn hs => ⟨hn, List.all_eq_true.1 hs⟩
  have hempty := hset [] (by decide) (by decide)
  have hnodes : SemanticNodes [] := ⟨[], hempty, rfl⟩
  have hrecord := hset ["ix://example/note"] (by decide) (by decide +kernel)
  have hextensions := hset ["ix://example/shape"] (by decide) (by decide +kernel)
  have hfield := hset ["ix://example/width", "ix://example/align"] (by decide) (by decide +kernel)
  refine ⟨hrecord, hnodes, hnodes, fun t ht => ?_⟩
  rw [List.mem_singleton.1 ht]
  refine ⟨hempty, hempty, hempty, hempty, hempty, hextensions, fun field hf => ?_,
    fun operation ho => absurd ho List.not_mem_nil⟩
  rw [List.mem_singleton.1 hf]
  exact hfield

theorem lift_normalForm_record : ∃ document,
    JsonText (canonicalBytes (assemble exampleEnvelope [exampleRecord null] [])) document ∧
      normalizeIr document =
        some (canonicalBytes (assemble exampleEnvelope [exampleRecord null] [])) := by
  obtain ⟨-, document, htext, hnormal⟩ := lift_normalForm (exampleSets null) []
  have hdepth : depth (normal (Normalize.materializeIr
      (assemble exampleEnvelope [exampleRecord null] []))) ≤ maxDepth := by
    decide +kernel
  have hdocument := jsonText_canonical.1 htext
  refine ⟨document, htext, hnormal.trans (if_pos ?_)⟩
  rw [hdocument]
  exact hdepth

/-- A payload of `n` arrays inside one another. -/
def nested : ℕ → Json
  | 0 => array []
  | n + 1 => array [nested n]

/-- A document that nests too deep for the compiler to read it back. -/
theorem nestedPayload_refused : Sets exampleEnvelope [exampleRecord (nested 125)] ∧
    ∃ document, JsonText (canonicalBytes
        (assemble exampleEnvelope [exampleRecord (nested 125)] [])) document ∧
      normalizeIr document = none := by
  have hdepth : ¬ depth (normal (Normalize.materializeIr
      (assemble exampleEnvelope [exampleRecord (nested 125)] []))) ≤ maxDepth := by
    decide +kernel
  have hnormal := normalizeIr_normal (ordered_assemble (exampleSets (nested 125)) [])
  exact ⟨exampleSets (nested 125), _, jsonText_canonical.2 rfl, hnormal.trans (if_neg hdepth)⟩

end FilamentCore.Frontend.Document
