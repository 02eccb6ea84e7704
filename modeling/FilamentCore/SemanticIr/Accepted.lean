import FilamentCore.Library.KeyedList
import FilamentCore.SemanticIr.Verdict

/-!
# Accepted documents

What the schema and the rules leave of a document they accept: the nodes of a type each carry
their identity, and no identity is declared twice.
-/

namespace FilamentCore.SemanticIr
open FilamentCore.Library

/-! ### What the schema says of a node -/

def HasIdentity (node : Json) : Prop := ∃ identity, identityOf node = some identity

theorem hasIdentity_of_schema {node : Json} {at' : String} {names : List String}
    (hn : "identity" ∈ names) (hr : requireMembers node at' names = [])
    (hi : identityMember node at' "identity" = []) : HasIdentity node := by
  obtain ⟨identity, h, -⟩ := getStr_of_identityMember (requireMembers_eq_nil.1 hr _ hn) hi
  exact ⟨identity, h⟩

theorem ne_empty_of_identityMember {node : Json} {at' name : String}
    (h : identityMember node at' name = []) : node.getStr name ≠ some "" := by
  intro he
  have hh : node.has name = true := by
    rw [Json.getStr] at he
    obtain ⟨v, hv, -⟩ := Option.bind_eq_some_iff.1 he
    rw [Json.has, hv, Option.isSome_some]
  obtain ⟨identity, hi, hok⟩ := getStr_of_identityMember hh h
  rw [he, Option.some.injEq] at hi
  exact absurd hok (by rw [← hi]; decide)

theorem identityMembers_eq_nil {node : Json} {at' : String} {names : List String}
    (h : (names.flatMap fun name => identityMember node at' name) = []) {name : String}
    (hn : name ∈ names) : identityMember node at' name = [] :=
  List.flatMap_eq_nil_iff.1 h name hn

theorem constraint_identity {constraint : Json} {at' : String}
    (h : constraintSchema constraint at' = []) : HasIdentity constraint := by
  simp only [constraintSchema, expectObject_eq_nil, List.append_eq_nil_iff] at h
  obtain ⟨-, ⟨⟨⟨⟨hr, -⟩, hi⟩, -⟩, -⟩, -⟩ := h
  exact hasIdentity_of_schema (by decide) hr (identityMembers_eq_nil hi (by decide))

structure FieldChecked (field : Json) : Prop where
  identity : HasIdentity field
  required : ∀ name ∈ fieldRequired, field.has name = true
  typeRef : ∃ typeRef, field.getStr "typeRef" = some typeRef
  presence : ∃ presence ∈ presences, field.getStr "presence" = some presence
  nullable : ∃ nullable, field.getBool "nullable" = some nullable
  multiplicity : ∃ members, field.get "multiplicity" = some (.object members)
  constraints : ∀ constraint ∈ field.members "constraints", HasIdentity constraint

theorem getStr_of_expectEnum {value : Json} {name pointer what : String} {allowed : List String}
    (hh : value.has name = true) (h : expectEnum (value.get name) pointer allowed what = []) :
    ∃ text ∈ allowed, value.getStr name = some text := by
  obtain ⟨v, hv⟩ := Option.isSome_iff_exists.1 hh
  have h := whenSome_eq_nil.1 h v hv
  cases ht : v.asStr with
  | none => simp [ht] at h
  | some text =>
    simp only [ht, pushIf_eq_nil, Bool.not_eq_false'] at h
    exact ⟨text, by simpa using h, by rw [Json.getStr, hv]; exact ht⟩

theorem getBool_of_expectBool {value : Json} {name pointer what : String}
    (hh : value.has name = true) (h : expectBool (value.get name) pointer what = []) :
    ∃ flag, value.getBool name = some flag := by
  obtain ⟨v, hv⟩ := Option.isSome_iff_exists.1 hh
  have h := pushIf_eq_nil.1 (whenSome_eq_nil.1 h v hv)
  cases hb : v.asBool with
  | none => simp [hb] at h
  | some flag => exact ⟨flag, by rw [Json.getBool, hv]; exact hb⟩

theorem object_of_multiplicityMember {node : Json} {at' : String}
    (hh : node.has "multiplicity" = true) (h : multiplicityMember node at' = []) :
    ∃ members, node.get "multiplicity" = some (.object members) := by
  obtain ⟨v, hv⟩ := Option.isSome_iff_exists.1 hh
  have h := whenSome_eq_nil.1 h v hv
  rw [multiplicitySchema, expectObject_eq_nil] at h
  cases v with
  | object members => exact ⟨members, hv⟩
  | _ => simp [Json.asObject] at h

theorem field_checked {specialAliases : List String} {field : Json} {at' : String}
    (h : fieldSchema specialAliases field at' = []) : FieldChecked field := by
  simp only [fieldSchema, expectObject_eq_nil, List.append_eq_nil_iff] at h
  obtain ⟨-, hf⟩ := h
  obtain ⟨hf, hconstraints⟩ := hf
  obtain ⟨⟨⟨hf, hm⟩, -⟩, -⟩ := hf
  obtain ⟨⟨⟨⟨⟨⟨hf, hpresence⟩, hnullable⟩, -⟩, -⟩, -⟩, -⟩ := hf
  obtain ⟨⟨⟨⟨⟨⟨⟨⟨hr, -⟩, -⟩, -⟩, -⟩, hmult⟩, hi⟩, ht⟩, -⟩ := hf
  have hreq := requireMembers_eq_nil.1 hr
  obtain ⟨typeRef, htypeRef, -⟩ := getStr_of_identityMember (hreq "typeRef" (by decide)) ht
  exact
    { identity := hasIdentity_of_schema (by decide) hr hi
      required := hreq
      typeRef := ⟨typeRef, htypeRef⟩
      presence := getStr_of_expectEnum (hreq "presence" (by decide)) hpresence
      nullable := getBool_of_expectBool (hreq "nullable" (by decide)) hnullable
      multiplicity := object_of_multiplicityMember (by simpa [pushIf_eq_nil] using hmult) hm
      constraints := fun constraint hc => by
        obtain ⟨_, h⟩ := each_eq_nil hconstraints constraint hc
        exact constraint_identity h }

theorem variant_identity {variant : Json} {at' : String} (h : variantSchema variant at' = []) :
    HasIdentity variant := by
  simp only [variantSchema, expectObject_eq_nil, List.append_eq_nil_iff] at h
  obtain ⟨-, ⟨⟨⟨⟨hr, -⟩, hi⟩, -⟩, -⟩, -⟩ := h
  exact hasIdentity_of_schema (by decide) hr hi

theorem relationship_identity {relationship : Json} {at' : String}
    (h : relationshipSchema relationship at' = []) : HasIdentity relationship := by
  simp only [relationshipSchema, expectObject_eq_nil, List.append_eq_nil_iff] at h
  obtain ⟨-, ⟨⟨⟨⟨⟨⟨⟨hr, -⟩, hi⟩, -⟩, -⟩, -⟩, -⟩, -⟩, -⟩ := h
  exact hasIdentity_of_schema (by decide) hr hi

theorem clause_identity {clause : Json} {at' : String} (h : clauseSchema clause at' = []) :
    HasIdentity clause := by
  simp only [clauseSchema, expectObject_eq_nil, List.append_eq_nil_iff] at h
  obtain ⟨-, ⟨⟨⟨⟨hr, -⟩, hi⟩, -⟩, -⟩, -⟩ := h
  exact hasIdentity_of_schema (by decide) hr hi

theorem position_identity {position : Json} {at' : String}
    (h : positionSchema position at' = []) : HasIdentity position := by
  simp only [positionSchema, expectObject_eq_nil, List.append_eq_nil_iff] at h
  obtain ⟨-, ⟨⟨hr, -⟩, hi⟩, -⟩ := h
  exact hasIdentity_of_schema (by decide) hr (identityMembers_eq_nil hi (by decide))

structure OperationChecked (operation : Json) : Prop where
  identity : HasIdentity operation
  params : ∀ param ∈ operation.members "params", FieldChecked param

theorem operation_checked {specialAliases : List String} {operation : Json} {at' : String}
    (h : operationSchema specialAliases operation at' = []) : OperationChecked operation := by
  simp only [operationSchema, expectObject_eq_nil, List.append_eq_nil_iff] at h
  obtain ⟨-, ⟨⟨⟨⟨⟨⟨⟨⟨hr, -⟩, hi⟩, -⟩, hparams⟩, -⟩, -⟩, -⟩, -⟩, -⟩ := h
  refine ⟨hasIdentity_of_schema (by decide) hr hi, fun param hp => ?_⟩
  obtain ⟨_, h⟩ := each_eq_nil hparams param hp
  exact field_checked h

/-! ### What the schema says of a type -/

structure TypeChecked (specialAliases : List String) (table : ConstructTable)
    (definition : Json) : Prop where
  identity : HasIdentity definition
  named : identityOf definition ≠ some ""
  required : ∀ name ∈ typeRequired, definition.has name = true
  kind : ∃ at', kindFindings definition at' = []
  requiredMember : ∃ at', requiredMember definition at' ((definition.getStr "kind").getD "") = []
  optionMembers : ∃ at', optionSchema definition at' ((definition.getStr "kind").getD "") = []
  construct : ∃ at', constructFindings table definition at'
    ((definition.getStr "kind").getD "") = []
  references : ∀ name ∈ ["target", "items", "values"], ∃ at',
    identityMember definition at' name = []
  constraints : ∀ constraint ∈ definition.members "constraints", HasIdentity constraint
  fields : ∀ field ∈ definition.members "fields", FieldChecked field
  variants : ∀ variant ∈ definition.members "variants", HasIdentity variant
  positions : ∀ position ∈ definition.members "positions", HasIdentity position
  relationships : ∀ relationship ∈ definition.members "relationships", HasIdentity relationship
  operations : ∀ operation ∈ definition.members "operations", OperationChecked operation
  clauses : ∀ clause ∈ definition.members "clauses", HasIdentity clause

theorem listed_eq_nil {node : Json} {at' : String}
    {lists : List (String × (Json → String → List Finding))}
    (h : (lists.flatMap fun list =>
      each (node.get list.1) (child at' list.1) list.1 list.2) = [])
    {name : String} {schema : Json → String → List Finding} (hl : (name, schema) ∈ lists) :
    ∀ item ∈ node.members name, ∃ itemAt, schema item itemAt = [] :=
  each_eq_nil (List.flatMap_eq_nil_iff.1 h _ hl)

theorem type_checked {specialAliases : List String} {table : ConstructTable} {definition : Json}
    {at' : String} (h : typeFindings specialAliases table definition at' = []) :
    TypeChecked specialAliases table definition := by
  simp only [typeFindings, expectObject_eq_nil, List.append_eq_nil_iff] at h
  obtain ⟨-, ⟨⟨⟨⟨⟨hf, hconstructs⟩, -⟩, -⟩, -⟩, hreferences⟩, hlists⟩ := h
  obtain ⟨⟨⟨⟨⟨⟨⟨⟨hf, hconstruct⟩, -⟩, -⟩, -⟩, -⟩, -⟩, -⟩, -⟩ := hf
  obtain ⟨⟨⟨⟨⟨⟨⟨⟨hf, hkind⟩, -⟩, -⟩, -⟩, hconstraints⟩, -⟩, hrequired⟩, hoption⟩ := hf
  obtain ⟨⟨⟨⟨hr, -⟩, -⟩, hi⟩, -⟩ := hf
  exact
    { identity := hasIdentity_of_schema (by decide) hr hi
      named := ne_empty_of_identityMember hi
      required := requireMembers_eq_nil.1 hr
      kind := ⟨_, hkind⟩
      requiredMember := ⟨_, hrequired⟩
      optionMembers := ⟨_, hoption⟩
      construct := ⟨_, hconstruct⟩
      references := fun name hn => ⟨_, identityMembers_eq_nil hreferences hn⟩
      constraints := fun constraint hc =>
        constraint_identity (each_eq_nil hconstraints constraint hc).choose_spec
      fields := fun field hf =>
        field_checked (listed_eq_nil hlists (.head _) field hf).choose_spec
      variants := fun variant hv =>
        variant_identity (listed_eq_nil hlists (.tail _ (.head _)) variant hv).choose_spec
      positions := fun position hp =>
        position_identity (listed_eq_nil hconstructs (.tail _ (.tail _ (.tail _ (.head _))))
          position hp).choose_spec
      relationships := fun relationship hr => relationship_identity
        (listed_eq_nil hlists (.tail _ (.tail _ (.head _))) relationship hr).choose_spec
      operations := fun operation ho => operation_checked
        (listed_eq_nil hlists (.tail _ (.tail _ (.tail _ (.head _)))) operation ho).choose_spec
      clauses := fun clause hc => clause_identity
        (listed_eq_nil hlists (.tail _ (.tail _ (.tail _ (.tail _ (.head _))))) clause hc).choose_spec }

/-! ### The types of a bundle -/

theorem walkItems_eq_nil {walk : ConstructTable → Json → String → List Finding × ConstructTable}
    {keeps : ConstructTable → Prop}
    (hk : ∀ table value at', keeps table → (walk table value at').1 = [] →
      keeps (walk table value at').2)
    {pointer : String} {table : ConstructTable} {items : List (Json × ℕ)} (h0 : keeps table)
    (h : (walkItems walk pointer table items).1 = []) :
    (∀ item ∈ items, ∃ table at', keeps table ∧ (walk table item.1 at').1 = []) ∧
      keeps (walkItems walk pointer table items).2 := by
  induction items generalizing table with
  | nil => exact ⟨by simp, h0⟩
  | cons item items ih =>
    obtain ⟨value, position⟩ := item
    simp only [walkItems, List.append_eq_nil_iff] at h ⊢
    obtain ⟨hrest, hlast⟩ := ih (hk table value _ h0 h.1) h.2
    refine ⟨?_, hlast⟩
    rintro other (_ | ⟨_, hm⟩)
    · exact ⟨table, _, h0, h.1⟩
    · exact hrest other hm

variable {bundle : Json} {d : Document}

theorem document_of_readWith {depth : Option ℕ} (hr : Document.readWith bundle depth = some d) :
    bundle.get "ir" = some d.ir ∧ d.bundle = bundle ∧ d.types = d.ir.members "types" ∧
      d.aliasDepth = depth := by
  simp only [Document.readWith, Option.map_eq_some_iff] at hr
  obtain ⟨ir, hir, rfl⟩ := hr
  exact ⟨hir, rfl, rfl, rfl⟩

theorem Accepted.document (ha : Accepted bundle d) :
    bundle.get "ir" = some d.ir ∧ d.bundle = bundle ∧ d.types = d.ir.members "types" ∧
      d.aliasDepth = none := document_of_readWith ha.read

theorem semanticIr_of_bundleSchema {ir : Json} (hir : bundle.get "ir" = some ir)
    (hs : bundleSchema bundle = []) : semanticIr ir "/ir" = [] := by
  simp only [bundleSchema, List.append_eq_nil_iff] at hs
  obtain ⟨⟨⟨⟨⟨⟨⟨-, -⟩, hs⟩, -⟩, -⟩, -⟩, -⟩, -⟩ := hs
  exact whenSome_eq_nil.1 hs _ hir

/-! ### The table of constructs -/

/-- An entry of `constructs` that the table holds: its kind, and the declaration it reads as. -/
def Declares (constructs : List Json) (found : ConstructEntry) : Prop :=
  ∃ entry ∈ constructs, (entry.get "kind").bind constructKind = some (found.module, found.name) ∧
    ∃ construct declaration, entry.get "construct" = some construct ∧
      Declaration.read construct = .ok declaration ∧ found.declaration = some declaration

/-- Every entry of the table is declared, and every declared kind of `constructs` is held by one
entry. -/
structure TableOf (constructs : List Json) (table : ConstructTable) : Prop where
  declared : ∀ found ∈ table.entries, Declares constructs found
  kinds : (constructs.filterMap fun entry => (entry.get "kind").bind constructKind) =
    table.entries.map fun found => (found.module, found.name)
  distinct : (table.entries.map fun found => (found.module, found.name)).Nodup

theorem TableOf.use {constructs : List Json} {table : ConstructTable}
    (h : TableOf constructs table) (kind : Option (String × String)) :
    TableOf constructs (table.use kind) := by
  cases kind with
  | none => exact h
  | some kind =>
    have hkinds : (table.use (some kind)).entries.map (fun found => (found.module, found.name)) =
        table.entries.map fun found => (found.module, found.name) := by
      simp only [ConstructTable.use, List.map_map]
      apply List.map_congr_left
      intro found _
      simp only [Function.comp_apply]
      split <;> rfl
    refine ⟨?_, hkinds ▸ h.kinds, hkinds ▸ h.distinct⟩
    intro found hf
    simp only [ConstructTable.use, List.mem_map] at hf
    obtain ⟨entry, he, rfl⟩ := hf
    have hd := h.declared entry he
    split <;> exact hd

theorem find_none_iff {table : ConstructTable} {kind : String × String} :
    table.find kind = none ↔ kind ∉ table.entries.map fun found => (found.module, found.name) := by
  simp only [ConstructTable.find, List.find?_eq_none, Bool.and_eq_true, beq_iff_eq,
    List.mem_map, not_exists, not_and, Prod.ext_iff]

theorem constructKind_of_findings {kind : Json} {at' : String}
    (h : constructKindFindings kind at' = []) :
    ∃ module name, kind.getStr "module" = some module ∧ kind.getStr "name" = some name ∧
      constructKind kind = some (module, name) := by
  simp only [constructKindFindings, expectObject_eq_nil, List.append_eq_nil_iff] at h
  obtain ⟨-, ⟨⟨hr, -⟩, hm⟩, hn⟩ := h
  have hreq := requireMembers_eq_nil.1 hr
  obtain ⟨m, hgm⟩ := Option.isSome_iff_exists.1 (hreq "module" (by decide))
  obtain ⟨n, hgn⟩ := Option.isSome_iff_exists.1 (hreq "name" (by decide))
  obtain ⟨module, hmodule, hmok⟩ := expectShape_eq_nil.1 hm m hgm
  obtain ⟨name, hname, hnok⟩ := expectShape_eq_nil.1 hn n hgn
  have hgm : kind.getStr "module" = some module := by rw [Json.getStr, hgm]; exact hmodule
  have hgn : kind.getStr "name" = some name := by rw [Json.getStr, hgn]; exact hname
  refine ⟨module, name, hgm, hgn, ?_⟩
  simp [constructKind, hgm, hgn, hmok, hnok]

theorem readConstruct_eq_nil {entry : Json} {at' : String} (hh : entry.has "construct" = true)
    (h : (readConstruct entry at').1 = []) :
    ∃ construct declaration, entry.get "construct" = some construct ∧
      Declaration.read construct = .ok declaration ∧
      (readConstruct entry at').2 = some declaration := by
  obtain ⟨construct, hc⟩ := Option.isSome_iff_exists.1 hh
  cases hd : Declaration.read construct with
  | error refused => simp [readConstruct, hc, hd] at h
  | ok declaration => exact ⟨construct, declaration, hc, hd, by simp [readConstruct, hc, hd]⟩

theorem constructsEntry_eq_nil {table : ConstructTable} {entry : Json} {at' : String}
    (h : (constructsEntry table entry at').1 = []) :
    ∃ kind construct declaration, (entry.get "kind").bind constructKind = some kind ∧
      entry.get "construct" = some construct ∧ Declaration.read construct = .ok declaration ∧
      table.find kind = none ∧
      (constructsEntry table entry at').2.entries =
        table.entries ++ [⟨kind.1, kind.2, some declaration, false⟩] := by
  cases entry with
  | object members =>
    simp only [constructsEntry] at h ⊢
    generalize Json.object members = entry at h ⊢
    cases hk : (entry.get "kind").bind constructKind with
    | none =>
      simp only [hk, List.append_eq_nil_iff] at h
      obtain ⟨⟨⟨⟨⟨hr, -⟩, -⟩, -⟩, -⟩, hkind⟩ := h
      obtain ⟨kind, hgk⟩ := Option.isSome_iff_exists.1
        (requireMembers_eq_nil.1 hr "kind" (by decide))
      obtain ⟨module, name, -, -, hck⟩ :=
        constructKind_of_findings (whenSome_eq_nil.1 hkind kind hgk)
      simp [hgk, hck] at hk
    | some kind =>
      simp only [hk] at h ⊢
      split at h
      · simp at h
      · rename_i hnew
        simp only [List.append_eq_nil_iff] at h
        obtain ⟨⟨⟨⟨⟨hr, -⟩, -⟩, hread⟩, -⟩, -⟩ := h
        obtain ⟨construct, declaration, hc, hd, hs⟩ :=
          readConstruct_eq_nil (requireMembers_eq_nil.1 hr "construct" (by decide)) hread
        refine ⟨kind, construct, declaration, rfl, hc, hd, by simpa using hnew, ?_⟩
        simp only [hnew, Bool.false_eq_true, if_false, hs]
  | _ => simp [constructsEntry] at h

theorem TableOf.entry {constructs : List Json} {table : ConstructTable} {entry : Json}
    {at' : String} (h : TableOf constructs table)
    (hf : (constructsEntry table entry at').1 = []) :
    TableOf (constructs ++ [entry]) (constructsEntry table entry at').2 := by
  obtain ⟨kind, construct, declaration, hk, hc, hd, hnew, he⟩ := constructsEntry_eq_nil hf
  constructor
  · intro found hm
    rw [he, List.mem_append, List.mem_singleton] at hm
    rcases hm with hm | rfl
    · obtain ⟨e, hm, hrest⟩ := h.declared found hm
      exact ⟨e, List.mem_append_left _ hm, hrest⟩
    · exact ⟨entry, by simp, hk, construct, declaration, hc, hd, rfl⟩
  · rw [he, List.filterMap_append, h.kinds]
    simp [hk]
  · rw [he, List.map_append]
    refine List.Nodup.append h.distinct (List.nodup_singleton _) ?_
    rw [List.map_singleton, List.disjoint_singleton]
    exact find_none_iff.1 hnew

theorem TableOf.walk {pointer : String} {items : List (Json × ℕ)} {constructs : List Json}
    {table : ConstructTable} (h : TableOf constructs table)
    (hf : (walkItems constructsEntry pointer table items).1 = []) :
    TableOf (constructs ++ items.map Prod.fst)
      (walkItems constructsEntry pointer table items).2 := by
  induction items generalizing constructs table with
  | nil => simpa [walkItems] using h
  | cons item items ih =>
    simp only [walkItems, List.append_eq_nil_iff] at hf ⊢
    have := ih (h.entry hf.1) hf.2
    simpa using this

theorem constructsSchema_table {constructs : Json} {at' : String}
    (h : (constructsSchema constructs at').1 = []) :
    TableOf (constructs.asArray.getD []) (constructsSchema constructs at').2 := by
  cases constructs with
  | array items =>
    have h0 : TableOf [] ⟨[]⟩ := ⟨by simp, rfl, by simp⟩
    have := h0.walk h
    simpa [constructsSchema, Json.asArray, List.zipIdx_map_fst] using this
  | _ => simp [constructsSchema] at h

/-! ### Types and their kinds -/

theorem constructs_checked {ir : Json} {at' : String} (h : semanticIr ir at' = []) :
    ∃ constructs, ir.get "constructs" = some constructs ∧
      (constructsSchema constructs (child at' "constructs")).1 = [] := by
  simp only [semanticIr, expectObject_eq_nil, List.append_eq_nil_iff] at h
  obtain ⟨-, ⟨⟨⟨⟨h, -⟩, -⟩, -⟩, -⟩, -⟩ := h
  obtain ⟨⟨⟨-, hrc⟩, hc⟩, -⟩ := h
  obtain ⟨constructs, hgc⟩ := Option.isSome_iff_exists.1
    (show ir.has "constructs" = true by simpa [pushIf_eq_nil] using hrc)
  simp only [hgc] at hc
  exact ⟨constructs, hgc, hc⟩

theorem types_findings {ir : Json} {at' : String} (h : semanticIr ir at' = []) :
    ∃ specialAliases, ∀ definition ∈ ir.members "types",
      ∃ table, TableOf (ir.members "constructs") table ∧
        ∃ typeAt, typeFindings specialAliases table definition typeAt = [] := by
  obtain ⟨constructs, hgc, hc⟩ := constructs_checked h
  simp only [semanticIr, expectObject_eq_nil, List.append_eq_nil_iff] at h
  obtain ⟨-, ⟨⟨⟨⟨h, -⟩, -⟩, -⟩, -⟩, -⟩ := h
  obtain ⟨-, ht⟩ := h
  simp only [hgc] at ht
  have htable : TableOf (ir.members "constructs") (constructsSchema constructs
      (child at' "constructs")).2 := by
    simpa [Json.members, Json.getArray, hgc] using constructsSchema_table hc
  cases hgt : ir.get "types" with
  | none => exact ⟨[], by simp [Json.members, Json.getArray, hgt]⟩
  | some types =>
    cases types with
    | array items =>
      simp only [typesSchema, hgt, List.append_eq_nil_iff] at ht
      have hkeeps : ∀ table value at', TableOf (ir.members "constructs") table →
          (typeDefinition (specialAliasIdentities items ir) table value at').1 = [] →
          TableOf (ir.members "constructs")
            (typeDefinition (specialAliasIdentities items ir) table value at').2 :=
        fun _ value _ h _ => h.use (construct value)
      obtain ⟨hitems, -⟩ := walkItems_eq_nil hkeeps htable ht.2
      refine ⟨specialAliasIdentities items ir, fun definition hm => ?_⟩
      have hm : definition ∈ items := by simpa [Json.members, Json.getArray, hgt, Json.asArray]
        using hm
      rw [← List.zipIdx_map_fst 0 items] at hm
      obtain ⟨item, hi, rfl⟩ := List.mem_map.1 hm
      obtain ⟨table, typeAt, hkept, hchecked⟩ := hitems item hi
      exact ⟨table, hkept, typeAt, hchecked⟩
    | _ => simp [typesSchema, hgt] at ht

theorem Accepted.types (ha : Accepted bundle d) : ∃ specialAliases, ∀ definition ∈ d.types,
    ∃ table, TableOf (d.ir.members "constructs") table ∧
      TypeChecked specialAliases table definition := by
  obtain ⟨specialAliases, h⟩ :=
    types_findings (semanticIr_of_bundleSchema ha.document.1 ha.schema)
  refine ⟨specialAliases, fun definition hm => ?_⟩
  obtain ⟨table, htable, typeAt, hchecked⟩ := h definition (ha.document.2.2.1 ▸ hm)
  exact ⟨table, htable, type_checked hchecked⟩

theorem kind_cases {definition : Json} {at' : String} (hh : definition.has "kind" = true)
    (h : kindFindings definition at' = []) :
    (∃ kind ∈ coreKinds, definition.get "kind" = some (.str kind)) ∨
      ∃ members module name, definition.get "kind" = some (.object members) ∧
        (Json.object members).getStr "module" = some module ∧
        (Json.object members).getStr "name" = some name ∧
        SemanticIr.construct definition = some (module, name) := by
  obtain ⟨kind, hk⟩ := Option.isSome_iff_exists.1 hh
  simp only [kindFindings, hk] at h
  cases kind with
  | object members =>
    obtain ⟨module, name, hm, hn, hc⟩ := constructKind_of_findings h
    exact .inr ⟨members, module, name, hk, hm, hn, by simpa [construct, hk] using hc⟩
  | str kind =>
    simp only [expectEnum, whenSome, Json.asStr, pushIf_eq_nil, Bool.not_eq_false'] at h
    exact .inl ⟨kind, by simpa using h, hk⟩
  | _ => simp [expectEnum, whenSome, Json.asStr] at h

theorem TableOf.declaration {constructs : List Json} {table : ConstructTable}
    (h : TableOf constructs table) {found : ConstructEntry} {kind : String × String}
    (hf : table.find kind = some found) :
    ∃ entry ∈ constructs, (entry.get "kind").bind constructKind = some kind ∧
      ∃ construct declaration, entry.get "construct" = some construct ∧
        Declaration.read construct = .ok declaration ∧ found.declaration = some declaration := by
  have hm := List.mem_of_find?_eq_some hf
  have hk := List.find?_some hf
  simp only [Bool.and_eq_true, beq_iff_eq] at hk
  obtain ⟨entry, he, hek, hrest⟩ := h.declared found hm
  refine ⟨entry, he, ?_, hrest⟩
  rw [hek, hk.1, hk.2]

theorem TableOf.entry_unique {constructs : List Json} {table : ConstructTable}
    (h : TableOf constructs table) {entry other : Json} {kind : String × String}
    (he : entry ∈ constructs) (ho : other ∈ constructs)
    (hek : (entry.get "kind").bind constructKind = some kind)
    (hok : (other.get "kind").bind constructKind = some kind) : entry = other := by
  have hd : (constructs.filterMap fun entry => (entry.get "kind").bind constructKind).Nodup :=
    h.kinds ▸ h.distinct
  exact Keyed.eq_of_some_key hd he ho hek hok

/-! ### What a declaration that reads says -/

theorem bind_eq_ok {ε α β : Type} {x : Except ε α} {f : α → Except ε β} {b : β} :
    (x >>= f) = .ok b ↔ ∃ a, x = .ok a ∧ f a = .ok b := by
  cases x with
  | error e => simp [bind, Except.bind]
  | ok a => simp [bind, Except.bind]

namespace Declaration

theorem read_ok {value : Json} {d : Declaration} (h : read value = .ok d) :
    term Shape (value.get "shape") "/shape" "shape" = .ok d.shape ∧ d.checkConsistency = .ok () := by
  simp only [read] at h
  split at h
  · obtain ⟨_, he, -⟩ := bind_eq_ok.1 h
    cases he
  · obtain ⟨_, -, h⟩ := bind_eq_ok.1 h
    obtain ⟨_, -, h⟩ := bind_eq_ok.1 h
    obtain ⟨identity, -, h⟩ := bind_eq_ok.1 h
    obtain ⟨shape, hshape, h⟩ := bind_eq_ok.1 h
    obtain ⟨members, -, h⟩ := bind_eq_ok.1 h
    have hlast : ∀ declaration : Declaration, declaration.shape = shape →
        (do declaration.checkConsistency; return declaration) = Except.ok d →
        term Shape (value.get "shape") "/shape" "shape" = .ok d.shape ∧
          d.checkConsistency = .ok () := by
      intro declaration hd hr
      obtain ⟨_, hc, hr⟩ := bind_eq_ok.1 hr
      cases hr
      exact ⟨hd ▸ hshape, hc⟩
    split at h <;> obtain ⟨references, -, h⟩ := bind_eq_ok.1 h <;>
    split at h <;> obtain ⟨rules, -, h⟩ := bind_eq_ok.1 h <;>
    split at h <;> obtain ⟨meaning, -, h⟩ := bind_eq_ok.1 h <;>
    split at h <;> obtain ⟨immutable, -, h⟩ := bind_eq_ok.1 h <;>
    exact hlast _ rfl h

theorem consistent_target {d : Declaration} (h : d.checkConsistency = .ok ()) :
    d.presence .target = if d.shape = .alias then .required else .forbidden := by
  simp only [checkConsistency] at h
  obtain ⟨_, -, h⟩ := bind_eq_ok.1 h
  obtain ⟨_, hs, h⟩ := bind_eq_ok.1 h
  obtain ⟨_, -, h⟩ := bind_eq_ok.1 h
  obtain ⟨_, -, h⟩ := bind_eq_ok.1 h
  split at h
  · cases h
  · rename_i hne
    by_cases ha : d.shape = .alias
    · rw [ha] at hs
      simp only [declares, Shape.requires] at hs
      split at hs
      · rename_i hp
        rw [if_pos ha]
        exact hp
      · cases hs
    · rw [if_neg ha]
      by_contra hp
      exact hne ⟨ha, hp⟩

end Declaration

theorem shape_of_term {value : Option Json} {pointer what : String} {shape : Shape}
    (h : Declaration.term Shape value pointer what = .ok shape) :
    value.bind Json.asStr = some (Vocabulary.name shape) := by
  unfold Declaration.term at h
  split at h
  · cases h
  · rename_i text ht
    split at h
    · cases h
    · rename_i parsed hp
      cases h
      have := List.find?_some hp
      rw [ht, ← eq_of_beq this]

/-! ### Aliases -/

theorem constructSchema_target {definition : Json} {at' kind : String} {declaration : Declaration}
    (h : constructSchema definition at' kind declaration = [])
    (hc : declaration.checkConsistency = .ok ()) :
    definition.has "target" = true ↔ declaration.shape = .alias := by
  have hp := Declaration.consistent_target hc
  simp only [constructSchema, List.append_eq_nil_iff] at h
  obtain ⟨⟨⟨-, hm⟩, -⟩, -⟩ := h
  have ht := List.flatMap_eq_nil_iff.1 hm Member.target (by decide)
  by_cases ha : declaration.shape = .alias
  · rw [if_pos ha] at hp
    simp only [hp, pushIf_eq_nil, Bool.not_eq_false'] at ht
    exact ⟨fun _ => ha, fun _ => ht⟩
  · rw [if_neg ha] at hp
    simp only [hp, pushIf_eq_nil] at ht
    constructor
    · intro hh
      exact absurd hh (by rw [show "target" = Member.target.name from rfl, ht]; decide)
    · exact fun h => absurd h ha

theorem mem_aliasKinds {ir : Json} {kind : String × String} :
    kind ∈ aliasKinds ir ↔ ∃ entry ∈ ir.members "constructs",
      (entry.get "construct").bind (·.getStr "shape") = some "alias" ∧
        ∃ declared, entry.get "kind" = some declared ∧
          declared.getStr "module" = some kind.1 ∧ declared.getStr "name" = some kind.2 := by
  obtain ⟨module, name⟩ := kind
  simp only [aliasKinds, List.mem_filterMap]
  apply exists_congr
  intro entry
  apply and_congr_right
  intro _
  split
  · rename_i hs
    simp [hs, Option.bind_eq_some_iff, Prod.ext_iff]
  · rename_i hs
    simp [hs]

theorem constructKind_some {declared : Json} {kind : String × String}
    (h : constructKind declared = some kind) :
    declared.getStr "module" = some kind.1 ∧ declared.getStr "name" = some kind.2 ∧
      (isPackageIdentity kind.1 && isConstructName kind.2) = true := by
  simp only [constructKind, Option.bind_eq_bind, Option.bind_eq_some_iff] at h
  obtain ⟨module, hm, name, hn, h⟩ := h
  split at h
  · rename_i hok
    cases h
    exact ⟨hm, hn, hok⟩
  · cases h

theorem constructKind_of_parts {declared : Json} {kind : String × String}
    (hm : declared.getStr "module" = some kind.1) (hn : declared.getStr "name" = some kind.2)
    (hok : (isPackageIdentity kind.1 && isConstructName kind.2) = true) :
    constructKind declared = some kind := by
  simp only [constructKind, hm, hn, Option.bind_eq_bind, Option.bind_some, hok, if_true]

theorem construct_alias_iff {specialAliases : List String} {table : ConstructTable} {ir : Json}
    {definition : Json} {kind : String × String}
    (htable : TableOf (ir.members "constructs") table)
    (hchecked : TypeChecked specialAliases table definition)
    (hk : construct definition = some kind) :
    kind ∈ aliasKinds ir ↔ definition.has "target" = true := by
  obtain ⟨at', hfound⟩ := hchecked.construct
  simp only [constructFindings, hk] at hfound
  cases hf : table.find kind with
  | none => simp [hf] at hfound
  | some found =>
    obtain ⟨entry, he, hek, construct, declaration, hc, hd, hfd⟩ := htable.declaration hf
    obtain ⟨hterm, hcons⟩ := Declaration.read_ok hd
    simp only [hf, hfd] at hfound
    rw [constructSchema_target hfound hcons, mem_aliasKinds]
    have hshape : construct.getStr "shape" = some (Vocabulary.name declaration.shape) :=
      shape_of_term hterm
    obtain ⟨declared, hed, hdk⟩ := Option.bind_eq_some_iff.1 hek
    obtain ⟨hm, hn, hok⟩ := constructKind_some hdk
    constructor
    · rintro ⟨other, ho, hs, od, hod, hom, hon⟩
      have heq : entry = other := htable.entry_unique he ho hek
        (by rw [hod]; exact constructKind_of_parts hom hon hok)
      subst heq
      rw [hc, Option.bind_some, hshape, Option.some.injEq] at hs
      revert hs
      cases declaration.shape <;> decide
    · intro ha
      refine ⟨entry, he, ?_, declared, hed, hm, hn⟩
      rw [hc, Option.bind_some, hshape, ha]
      rfl

/-- An alias is a type that carries a `target` and is no reference. -/
theorem alias_iff_target {specialAliases : List String} {table : ConstructTable}
    {definition : Json} (htable : TableOf (d.ir.members "constructs") table)
    (hchecked : TypeChecked specialAliases table definition) :
    (Document.isCoreAlias definition || d.isConstructAlias definition) = true ↔
      definition.has "target" = true ∧ definition.getStr "kind" ≠ some "reference" := by
  obtain ⟨kindAt, hkind⟩ := hchecked.kind
  have hhas := hchecked.required "kind" (by decide)
  rcases kind_cases hhas hkind with ⟨kind, hcore, hk⟩ | ⟨members, module, name, hk, hm, hn, hc⟩
  · have hstr : definition.getStr "kind" = some kind := by simp [Json.getStr, hk, Json.asStr]
    have hconstruct : d.isConstructAlias definition = false := by
      simp only [Document.isConstructAlias, hk, show (Json.str kind).getStr "module" = none from rfl]
    have hnone : SemanticIr.construct definition = none := by
      simp only [SemanticIr.construct, hk]
    obtain ⟨at', hr⟩ := hchecked.requiredMember
    obtain ⟨at'', hm⟩ := hchecked.construct
    simp only [hstr, Option.getD_some] at hr hm
    simp only [Document.isCoreAlias, hstr, hconstruct, Bool.or_false, beq_iff_eq,
      Option.some.injEq, ne_eq]
    constructor
    · rintro rfl
      exact ⟨by simpa [SemanticIr.requiredMember, kindRequires, pushIf_eq_nil] using hr,
        by decide⟩
    · rintro ⟨hht, hne⟩
      by_contra hna
      simp only [constructFindings, hnone, coreKindMembers] at hm
      have ht := List.flatMap_eq_nil_iff.1 hm Member.target (by decide)
      have hneither : ¬ (Member.target = .target ∧ (kind = "alias" ∨ kind = "reference")) := by
        simp [hna, hne]
      rw [if_neg hneither, pushIf_eq_nil] at ht
      exact absurd hht (by rw [show "target" = Member.target.name from rfl, ht]; decide)
  · have hstr : definition.getStr "kind" = none := by simp [Json.getStr, hk, Json.asStr]
    rw [← construct_alias_iff htable hchecked hc]
    simp [Document.isCoreAlias, Document.isConstructAlias, hstr, hk, hm, hn]

/-! ### Bundles of given types -/

namespace Sample

def origin : Json :=
  .object [("generated", .object [("generatorIdentity", .str "ix://a/generator"),
    ("generatorVersion", .str "1.0.0"), ("inputIdentities", .array [.str "ix://a/input"])])]

def document (types extensions : List Json) : Json :=
  .object [("ir", .object [("contractVersion", .str "2.0.0"),
    ("canonicalization", .object [("algorithm", .str "rfc8785-v1")]),
    ("source", .object [("identity", .str "ix://a/source"), ("version", .str "1"),
      ("dialect", .str "typespec")]),
    ("package", .object [("identity", .str "a/b"), ("version", .str "1"),
      ("mappingVersions", .array []), ("profileVersions", .array [])]),
    ("types", .array types), ("occurrences", .array []), ("extensions", .array extensions),
    ("constructs", .array [])])]

def type (identity kind : String) (constraints : List Json) (more : List (String × Json)) :
    Json :=
  .object ([("identity", .str identity), ("displayName", .str "T"), ("kind", .str kind),
    ("roles", .array []), ("origin", origin), ("constraints", .array constraints),
    ("extensions", .array []), ("unknownPolicy", .str "reject")] ++ more)

def scalar (identity scalar : String) : Json :=
  type identity "scalar" [] [("scalar", .str scalar)]

theorem one_valid : (readNumber "1").isSome = true := by decide +kernel

/-- A multiplicity of exactly one. -/
def one : Json :=
  .object [("lower", .number ⟨"1", one_valid⟩), ("upper", .number ⟨"1", one_valid⟩),
    ("ordered", .bool false), ("unique", .bool false)]

def field (identity name typeRef presence : String) (more : List (String × Json)) : Json :=
  .object ([("identity", .str identity), ("name", .str name), ("typeRef", .str typeRef),
    ("presence", .str presence), ("nullable", .bool false), ("defaultKind", .str "none"),
    ("origin", origin), ("multiplicity", one)] ++ more)

def extension (identity : String) (required : Bool) : Json :=
  .object [("identity", .str identity), ("version", .str "1.0.0"), ("required", .bool required),
    ("payload", .null)]

end Sample
end FilamentCore.SemanticIr
