import FilamentCore.SemanticIr.Accepted
import FilamentCore.SemanticIr.Assignment

/-!
# The identity sets of a document

The arrays of a document whose order carries no meaning, by the place they stand at, and the form
that writes each of them in the order of its items' identities.
-/

namespace FilamentCore.SemanticIr
open FilamentCore.Library
open Json

/-! ### Places -/

/-- Where a value of a document stands. A `set` holds nodes without sets in them, `fields` the
fields of a type or the parameters of an operation, and no set is in a `leaf`. -/
inductive Place where
  | root | types | type | fields | field | operations | operation | set | leaf
  deriving DecidableEq

namespace Place

def isArray : Place → Bool
  | types | fields | operations | set => true
  | _ => false

def isSet : Place → Bool
  | types | operations | set => true
  | _ => false

def item : Place → Place
  | types => type
  | fields => field
  | operations => operation
  | _ => leaf

def names : Place → List String
  | root => irOptionalMembers
  | type => typeMembers
  | field => fieldMembers
  | operation => operationMembers
  | _ => []

/-- The members that are no leaf. -/
def rows : Place → List (String × Place)
  | root => [("types", types), ("occurrences", set), ("extensions", set)]
  | type => [("variants", set), ("constraints", set), ("relationships", set),
      ("operations", operations), ("clauses", set), ("extensions", set), ("fields", fields)]
  | field => [("extensions", set)]
  | operation => [("params", fields)]
  | _ => []

def member (place : Place) (name : String) : Place :=
  ((place.rows.find? fun row => row.1 == name).map Prod.snd).getD leaf

end Place

/-! ### The form -/

def identityKey (item : Json) : String := (identityOf item).getD ""

def sortByIdentity (texts : List (Json × List Char)) : List (Json × List Char) :=
  texts.insertionSort fun left right =>
    utf16Le (identityKey left.1) (identityKey right.1) = true

/-- Every set in the order of its identities, every other array as it is. -/
def identityEncoder : Encoder Place where
  item place _ := place.item
  member := Place.member
  order place texts := if place.isSet then sortByIdentity texts else texts

/-- Items that an order by identity sorts in one way. -/
structure Identified (items : List Json) : Prop where
  named : ∀ item ∈ items, HasIdentity item
  distinct : (items.map identityOf).Nodup

/-- A value with the form its place asks for. -/
inductive Fits : Place → Json → Prop
  | leaf (value : Json) : Fits .leaf value
  | object (place : Place) (members : List (String × Json)) (ho : place.isArray = false)
      (closed : ∀ name value, lookup name members = some value → name ∈ place.names)
      (fits : ∀ name value, lookup name members = some value → Fits (place.member name) value) :
      Fits place (object members)
  | array (place : Place) (items : List Json) (ha : place.isArray = true)
      (identified : place.isSet = true → Identified items)
      (fits : ∀ item ∈ items, Fits place.item item) : Fits place (array items)

theorem insertionSort_congr {α : Type} {r s : α → α → Prop} [DecidableRel r] [DecidableRel s]
    {l : List α} (h : ∀ a ∈ l, ∀ b ∈ l, r a b ↔ s a b) : l.insertionSort r = l.insertionSort s := by
  have hm := List.map_insertionSort r s id l h
  rw [List.map_id, List.map_id] at hm
  exact hm

theorem Identified.sort_eq {items : List Json} (h : Identified items)
    {r : Json × List Char → Json × List Char → Prop} [DecidableRel r]
    (hself : ∀ a, r a a)
    (hother : ∀ a b (i j : String), identityOf a.1 = some i → identityOf b.1 = some j → i ≠ j →
      (r a b ↔ utf16Le i j = true)) {texts : List (Json × List Char)}
    (ht : texts.map Prod.fst = items) : texts.insertionSort r = sortByIdentity texts := by
  have hnodup : (texts.map fun t => identityOf t.1).Nodup := by
    have hd := h.distinct
    rwa [← ht, List.map_map] at hd
  apply insertionSort_congr
  intro a ha b hb
  have hitem : ∀ t ∈ texts, t.1 ∈ items := fun t hm => ht ▸ List.mem_map_of_mem hm
  obtain ⟨i, hi⟩ := h.named a.1 (hitem a ha)
  obtain ⟨j, hj⟩ := h.named b.1 (hitem b hb)
  have hti : identityKey a.1 = i := by rw [identityKey, hi, Option.getD_some]
  have htj : identityKey b.1 = j := by rw [identityKey, hj, Option.getD_some]
  by_cases hij : i = j
  · have hab : a = b := by
      apply List.inj_on_of_nodup_map hnodup ha hb
      rw [hi, hj, hij]
    rw [hab]
    exact ⟨fun _ => utf16Le_refl _, fun _ => hself b⟩
  · rw [hti, htj]
    exact hother a b i j hi hj hij

theorem Identified.perm {l m : List Json} (h : Identified m) (hp : l.Perm m) : Identified l :=
  ⟨fun item hi => h.named item (hp.mem_iff.1 hi), (hp.map _).nodup_iff.2 h.distinct⟩

theorem Identified.map {items : List Json} (h : Identified items) {f : Json → Json}
    (hf : ∀ item, identityOf (f item) = identityOf item) : Identified (items.map f) := by
  refine ⟨fun item hi => ?_, ?_⟩
  · obtain ⟨original, ho, rfl⟩ := List.mem_map.1 hi
    obtain ⟨identity, hidentity⟩ := h.named original ho
    exact ⟨identity, (hf original).trans hidentity⟩
  · have hmap : identityOf ∘ f = identityOf := funext hf
    rw [List.map_map, hmap]
    exact h.distinct

/-! ### The sets of a document -/

def DistinctIdentities (items : List Json) : Prop := (items.filterMap identityOf).Nodup

instance (items : List Json) : Decidable (DistinctIdentities items) :=
  inferInstanceAs (Decidable (List.Nodup _))

structure DistinctSets (ir : Json) : Prop where
  types : DistinctIdentities (ir.members "types")
  occurrences : DistinctIdentities (ir.members "occurrences")
  extensions : DistinctIdentities (ir.members "extensions")
  lists : ∀ definition ∈ ir.members "types", ∀ name ∈ ["variants", "constraints", "relationships",
    "operations", "clauses", "extensions"], DistinctIdentities (definition.members name)
  fields : ∀ definition ∈ ir.members "types", ∀ field ∈ definition.members "fields",
    DistinctIdentities (field.members "extensions")
  params : ∀ definition ∈ ir.members "types", ∀ operation ∈ definition.members "operations",
    ∀ param ∈ operation.members "params", DistinctIdentities (param.members "extensions")

theorem identified_of_distinct {items : List Json} (hd : DistinctIdentities items)
    (hn : ∀ item ∈ items, HasIdentity item) : Identified items := by
  refine ⟨hn, Keyed.nodup_map_of_filterMap hd fun item hi => ?_⟩
  obtain ⟨identity, h⟩ := hn item hi
  rw [h, Option.isSome_some]

theorem array_of_each {node : Json} {name pointer what : String}
    {walk : Json → String → List Finding} (h : each (node.get name) pointer what walk = [])
    {value : Json} (hv : node.get name = some value) : value = .array (node.members name) := by
  rw [each, hv] at h
  cases value with
  | array items => rw [members, getArray, hv, Option.bind_some, asArray, Option.getD_some]
  | _ => simp [whenSome, expectArray] at h

theorem fits_list {place : Place} (ha : place.isArray = true) {node : Json}
    {name pointer what : String} {walk : Json → String → List Finding}
    (h : each (node.get name) pointer what walk = [])
    (hi : place.isSet = true → Identified (node.members name))
    (hf : ∀ item ∈ node.members name, Fits place.item item) :
    ∀ value, node.get name = some value → Fits place value := by
  intro value hv
  rw [array_of_each h hv]
  exact Fits.array place _ ha hi hf

theorem fits_set {node : Json} {name pointer what : String}
    {walk : Json → String → List Finding} (h : each (node.get name) pointer what walk = [])
    (hw : ∀ item at', walk item at' = [] → HasIdentity item)
    (hd : DistinctIdentities (node.members name)) :
    ∀ value, node.get name = some value → Fits .set value := by
  have hn : ∀ item ∈ node.members name, HasIdentity item := by
    intro item hi
    obtain ⟨at', hitem⟩ := each_eq_nil h item hi
    exact hw item at' hitem
  exact fits_list rfl h (fun _ => identified_of_distinct hd hn) fun item _ => .leaf item

theorem member_eq_leaf {place : Place} {name : String} (h : ∀ row ∈ place.rows, row.1 ≠ name) :
    place.member name = .leaf := by
  have hnone : (place.rows.find? fun row => row.1 == name) = none := by
    rw [List.find?_eq_none]
    intro row hr
    rw [beq_iff_eq]
    exact h row hr
  rw [Place.member, hnone]
  rfl

theorem fits_object {place : Place} (ho : place.isArray = false) {node : Json} {at' : String}
    (hobject : node.asObject.isSome = true) (hextra : forbidExtra node at' place.names = [])
    (hrows : ∀ row ∈ place.rows, ∀ value, node.get row.1 = some value → Fits row.2 value) :
    Fits place node := by
  cases node with
  | object members =>
    refine Fits.object place members ho ?_ ?_
    · intro name value hv
      have hm := List.flatMap_eq_nil_iff.1 hextra (name, value) (mem_of_lookup hv)
      rw [pushIf_eq_nil, Bool.not_eq_false', List.contains_iff_mem] at hm
      exact hm
    · intro name value hv
      by_cases hrow : ∃ row ∈ place.rows, row.1 = name
      · cases hf : place.rows.find? fun row => row.1 == name with
        | none =>
          obtain ⟨row, hr, hn⟩ := hrow
          have := List.find?_eq_none.1 hf row hr
          rw [beq_iff_eq] at this
          exact absurd hn this
        | some row =>
          have hn : row.1 = name := by simpa using List.find?_some hf
          have hplace : place.member name = row.2 := by
            rw [Place.member, hf]
            rfl
          rw [hplace]
          exact hrows row (List.mem_of_find?_eq_some hf) value (hn ▸ hv)
      · rw [member_eq_leaf fun row hr hn => hrow ⟨row, hr, hn⟩]
        exact Fits.leaf value
  | _ => simp [asObject] at hobject

/-! ### What the schema says of the places -/

theorem extension_identity {extension : Json} {at' : String}
    (h : extensionSchema extension at' = []) : HasIdentity extension := by
  simp only [extensionSchema, expectObject_eq_nil, List.append_eq_nil_iff] at h
  obtain ⟨-, ⟨⟨⟨⟨hr, -⟩, hi⟩, -⟩, -⟩, -⟩ := h
  exact hasIdentity_of_schema (by decide) hr hi

theorem occurrence_identity {occurrence : Json} {at' : String}
    (h : occurrenceSchema occurrence at' = []) : HasIdentity occurrence := by
  simp only [occurrenceSchema, expectObject_eq_nil, List.append_eq_nil_iff] at h
  obtain ⟨-, ⟨⟨hr, -⟩, hi⟩, -⟩ := h
  exact hasIdentity_of_schema (by decide) hr (identityMembers_eq_nil hi (by decide))

theorem fits_extensions {node : Json} {at' : String} (h : extensionArray node at' = [])
    (hd : DistinctIdentities (node.members "extensions")) :
    ∀ value, node.get "extensions" = some value → Fits .set value :=
  fits_set h (fun _ _ => extension_identity) hd

theorem fits_field {specialAliases : List String} {field : Json} {at' : String}
    (h : fieldSchema specialAliases field at' = [])
    (hd : DistinctIdentities (field.members "extensions")) : Fits .field field := by
  simp only [fieldSchema, expectObject_eq_nil, List.append_eq_nil_iff] at h
  obtain ⟨hobject, hf⟩ := h
  obtain ⟨⟨⟨⟨⟨hf, hextensions⟩, -⟩, -⟩, -⟩, -⟩ := hf
  obtain ⟨⟨⟨⟨⟨hf, -⟩, -⟩, -⟩, -⟩, -⟩ := hf
  obtain ⟨⟨⟨⟨⟨⟨⟨⟨-, hextra⟩, -⟩, -⟩, -⟩, -⟩, -⟩, -⟩, -⟩ := hf
  apply fits_object rfl hobject hextra
  intro row hr
  rw [List.mem_singleton.1 hr]
  exact fits_extensions hextensions hd

theorem fits_operation {specialAliases : List String} {operation : Json} {at' : String}
    (h : operationSchema specialAliases operation at' = [])
    (hd : ∀ param ∈ operation.members "params", DistinctIdentities (param.members "extensions")) :
    Fits .operation operation := by
  simp only [operationSchema, expectObject_eq_nil, List.append_eq_nil_iff] at h
  obtain ⟨hobject, ⟨⟨⟨⟨⟨⟨⟨⟨-, hextra⟩, -⟩, -⟩, hparams⟩, -⟩, -⟩, -⟩, -⟩, -⟩ := h
  apply fits_object rfl hobject hextra
  intro row hr
  rw [List.mem_singleton.1 hr]
  apply fits_list rfl hparams (fun hs : Place.fields.isSet = true => absurd hs Bool.false_ne_true)
  intro param hp
  obtain ⟨paramAt, hparam⟩ := each_eq_nil hparams param hp
  exact fits_field hparam (hd param hp)

theorem fits_type {specialAliases : List String} {table : ConstructTable} {definition : Json}
    {at' : String} (h : typeFindings specialAliases table definition at' = [])
    (hlistsDistinct : ∀ name ∈ ["variants", "constraints", "relationships", "operations",
      "clauses", "extensions"], DistinctIdentities (definition.members name))
    (hfields : ∀ field ∈ definition.members "fields", DistinctIdentities (field.members "extensions"))
    (hparams : ∀ operation ∈ definition.members "operations",
      ∀ param ∈ operation.members "params", DistinctIdentities (param.members "extensions")) :
    Fits .type definition := by
  simp only [typeFindings, expectObject_eq_nil, List.append_eq_nil_iff] at h
  obtain ⟨hobject, ⟨⟨⟨⟨⟨hf, -⟩, -⟩, -⟩, -⟩, -⟩, hlists⟩ := h
  obtain ⟨⟨⟨⟨⟨⟨⟨⟨hf, -⟩, -⟩, -⟩, -⟩, -⟩, -⟩, -⟩, -⟩ := hf
  obtain ⟨⟨⟨⟨⟨⟨⟨⟨hf, -⟩, -⟩, -⟩, -⟩, hconstraints⟩, hextensions⟩, -⟩, -⟩ := hf
  obtain ⟨⟨⟨⟨-, hextra⟩, -⟩, -⟩, -⟩ := hf
  have hlist : ∀ list ∈ [("fields", fieldSchema specialAliases), ("variants", variantSchema),
      ("relationships", relationshipSchema), ("operations", operationSchema specialAliases),
      ("clauses", clauseSchema)],
      each (definition.get list.1) (child at' list.1) list.1 list.2 = [] :=
    List.flatMap_eq_nil_iff.1 hlists
  have hvariants : ∀ value, definition.get "variants" = some value → Fits .set value :=
    fits_set (hlist _ (.tail _ (.head _))) (fun _ _ => variant_identity)
      (hlistsDistinct _ (by decide))
  have hrelationships : ∀ value, definition.get "relationships" = some value → Fits .set value :=
    fits_set (hlist _ (.tail _ (.tail _ (.head _)))) (fun _ _ => relationship_identity)
      (hlistsDistinct _ (by decide))
  have hclauses : ∀ value, definition.get "clauses" = some value → Fits .set value :=
    fits_set (hlist _ (.tail _ (.tail _ (.tail _ (.tail _ (.head _))))))
      (fun _ _ => clause_identity) (hlistsDistinct _ (by decide))
  have hconstraints : ∀ value, definition.get "constraints" = some value → Fits .set value :=
    fits_set hconstraints (fun _ _ => constraint_identity) (hlistsDistinct _ (by decide))
  have hextensions : ∀ value, definition.get "extensions" = some value → Fits .set value :=
    fits_extensions hextensions (hlistsDistinct _ (by decide))
  have hoperations : ∀ value, definition.get "operations" = some value →
      Fits .operations value := by
    have heach := hlist _ (.tail _ (.tail _ (.tail _ (.head _))))
    have hn : ∀ operation ∈ definition.members "operations", HasIdentity operation := by
      intro operation ho
      obtain ⟨operationAt, hoperation⟩ := each_eq_nil heach operation ho
      exact (operation_checked hoperation).identity
    refine fits_list rfl heach
      (fun _ => identified_of_distinct (hlistsDistinct _ (by decide)) hn) ?_
    intro operation ho
    obtain ⟨operationAt, hoperation⟩ := each_eq_nil heach operation ho
    exact fits_operation hoperation (hparams operation ho)
  have hfields : ∀ value, definition.get "fields" = some value → Fits .fields value := by
    have heach := hlist _ (.head _)
    apply fits_list rfl heach (fun hs : Place.fields.isSet = true => absurd hs Bool.false_ne_true)
    intro field hf
    obtain ⟨fieldAt, hfield⟩ := each_eq_nil heach field hf
    exact fits_field hfield (hfields field hf)
  apply fits_object rfl hobject hextra
  simp only [Place.rows, List.forall_mem_cons]
  exact ⟨hvariants, hconstraints, hrelationships, hoperations, hclauses, hextensions, hfields,
    fun row hr => absurd hr List.not_mem_nil⟩

theorem fits_types {ir : Json} {at' : String} {table : ConstructTable}
    (h : (typesSchema ir at' table).1 = []) (hd : DistinctSets ir) :
    ∀ value, ir.get "types" = some value → Fits .types value := by
  intro value hv
  rw [typesSchema, hv] at h
  cases value with
  | array items =>
    have hitems : ir.members "types" = items := by
      rw [members, getArray, hv, Option.bind_some, asArray, Option.getD_some]
    simp only [List.append_eq_nil_iff] at h
    have hwalk := (@walkItems_eq_nil _ (fun _ => True) (fun _ _ _ _ _ => trivial) _ _ _ trivial
      h.2).1
    have hdefinition : ∀ item ∈ items, ∃ table definitionAt,
        typeFindings (specialAliasIdentities items ir) table item definitionAt = [] := by
      intro item hi
      obtain ⟨i, hlt, rfl⟩ := List.getElem_of_mem hi
      have hm : (items[i], i) ∈ items.zipIdx := by
        rw [List.mk_mem_zipIdx_iff_getElem?]
        exact List.getElem?_eq_getElem hlt
      obtain ⟨table, definitionAt, -, hfindings⟩ := hwalk _ hm
      exact ⟨table, definitionAt, hfindings⟩
    refine Fits.array .types items rfl (fun _ => identified_of_distinct (hitems ▸ hd.types) ?_) ?_
    · intro item hi
      obtain ⟨table, definitionAt, hfindings⟩ := hdefinition item hi
      exact (type_checked hfindings).identity
    · intro item hi
      obtain ⟨table, definitionAt, hfindings⟩ := hdefinition item hi
      have hm : item ∈ ir.members "types" := hitems ▸ hi
      exact fits_type hfindings (hd.lists item hm) (hd.fields item hm) (hd.params item hm)
  | _ => simp at h

theorem fits_document {ir : Json} {at' : String} (h : semanticIr ir at' = [])
    (hd : DistinctSets ir) : Fits .root ir := by
  simp only [semanticIr, expectObject_eq_nil, List.append_eq_nil_iff] at h
  obtain ⟨hobject, ⟨⟨⟨⟨⟨⟨h, htypes⟩, -⟩, -⟩, -⟩, hoccurrences⟩, hextensions⟩⟩ := h
  obtain ⟨⟨⟨⟨⟨⟨⟨-, hextra⟩, -⟩, -⟩, -⟩, -⟩, -⟩, -⟩ := h
  have hset : ∀ value, ir.get "occurrences" = some value → Fits .set value :=
    fits_set hoccurrences (fun _ _ => occurrence_identity) hd.occurrences
  apply fits_object rfl hobject hextra
  simp only [Place.rows, List.forall_mem_cons]
  exact ⟨fits_types htypes hd, hset, fits_extensions hextensions hd.extensions,
    fun row hr => absurd hr List.not_mem_nil⟩

end FilamentCore.SemanticIr
