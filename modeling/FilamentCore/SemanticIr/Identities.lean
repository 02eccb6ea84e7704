import FilamentCore.SemanticIr.Accepted

/-!
# Identities of an accepted document

No identity is declared twice, so each list of a type, the types and the features are read by
identity, and no identity names a type and a feature.
-/

namespace FilamentCore.SemanticIr
open FilamentCore.Library

variable {bundle : Json} {d : Document}

/-! ### Distinct declarations -/

theorem Issue.emitIf_eq_nil {wrong : Bool} {pointer : String} {code : Code} {message : String} :
    Issue.emitIf wrong pointer code message = [] ↔ wrong = false := by
  cases wrong <;> simp [Issue.emitIf]

theorem duplicates_eq_nil {seen : List String} {declarations : List (String × String)}
    (h : Rules.duplicates seen declarations = []) :
    (declarations.map Prod.snd).Nodup ∧ ∀ identity ∈ declarations.map Prod.snd, identity ∉ seen := by
  induction declarations generalizing seen with
  | nil => simp
  | cons declaration declarations ih =>
    obtain ⟨pointer, identity⟩ := declaration
    by_cases hs : identity ∈ seen
    · simp [Rules.duplicates, hs] at h
    · simp only [Rules.duplicates, List.contains_eq_mem, hs, decide_false, Bool.false_eq_true,
        if_false] at h
      obtain ⟨hn, hnew⟩ := ih h
      simp only [List.map_cons, List.nodup_cons, List.mem_cons, forall_eq_or_imp]
      refine ⟨⟨fun hm => hnew _ hm (List.mem_cons_self ..), hn⟩, hs, ?_⟩
      exact fun other ho hos => hnew other ho (List.mem_cons_of_mem _ hos)

theorem duplicates_emitted {seen : List String} {declarations : List (String × String)} :
    ∀ issue ∈ Rules.duplicates seen declarations, issue.advisory = false := by
  induction declarations generalizing seen with
  | nil => simp [Rules.duplicates]
  | cons declaration declarations ih =>
    simp only [Rules.duplicates]
    split
    · rintro issue (_ | ⟨_, hm⟩)
      · rfl
      · exact ih issue hm
    · exact ih

theorem eq_nil_of_emitted {issues : List Issue} (he : ∀ issue ∈ issues, issue.advisory = false)
    (ha : ∀ issue ∈ issues, issue.advisory = true) : issues = [] := by
  cases issues with
  | nil => rfl
  | cons issue issues =>
    have := he issue (List.mem_cons_self ..)
    rw [ha issue (List.mem_cons_self ..)] at this
    cases this

theorem Accepted.identities_nodup (ha : Accepted bundle d) : d.declaredIdentities.Nodup := by
  have hd : Rules.duplicateIdentities d = [] := by
    apply eq_nil_of_emitted duplicates_emitted
    intro issue hi
    apply ha.rules
    simp only [Rules.documentIssues, List.mem_append]
    tauto
  exact (duplicates_eq_nil hd).1

/-! ### The declarations of a type -/

def identitiesOf (placed : List Placed) : List String :=
  placed.filterMap fun p => identityOf p.node

theorem placedItems_nodes (node : Json) (at' name : String) :
    (placedItems node at' name).map Placed.node = node.members name := by
  simp [placedItems, Function.comp_def]

theorem placedTypes_nodes : d.placedTypes.map Placed.node = d.types := by
  simp [Document.placedTypes, Function.comp_def]

theorem declaredIdentities_eq : d.declaredIdentities =
    identitiesOf (d.placedTypes.flatMap Document.declarationsOf ++
      placedItems d.ir "/ir" "populations" ++ placedItems d.ir "/ir" "occurrences") := by
  simp only [Document.declaredIdentities, Document.identityDeclarations, identitiesOf, identityOf,
    List.map_filterMap, Option.map_map, Function.comp_def, Option.map_id']

theorem nodup_of_sublist (hn : d.declaredIdentities.Nodup) {placed : List Placed}
    (hs : List.Sublist placed (d.placedTypes.flatMap Document.declarationsOf)) :
    (identitiesOf placed).Nodup := by
  rw [declaredIdentities_eq, List.append_assoc] at hn
  exact hn.sublist ((hs.trans (List.sublist_append_left ..)).filterMap _)

theorem Accepted.nodup_sublist (ha : Accepted bundle d) {placed : List Placed}
    (hs : List.Sublist placed (d.placedTypes.flatMap Document.declarationsOf)) :
    (identitiesOf placed).Nodup := nodup_of_sublist ha.identities_nodup hs

/-- The lists of a type whose items declare identities. -/
def declaringLists : List String :=
  ["constraints", "fields", "variants", "positions", "relationships"] ++ ["operations"] ++
    ["clauses", "states", "transitions", "steps"]

theorem sublist_declarationsOf (definition : Placed) {name : String}
    (hn : name ∈ declaringLists) :
    List.Sublist (placedItems definition.node definition.pointer name)
      (Document.declarationsOf definition) := by
  have hflat : ∀ {names : List String}, name ∈ names → List.Sublist
      (placedItems definition.node definition.pointer name)
      (names.flatMap (placedItems definition.node definition.pointer)) := by
    intro names hm
    exact List.sublist_flatten_of_mem (List.mem_map_of_mem hm)
  apply List.Sublist.cons
  simp only [declaringLists, List.mem_append] at hn
  rcases hn with (hn | hn) | hn
  · exact ((hflat hn).trans (List.sublist_append_left ..)).trans (List.sublist_append_left ..)
  · rw [List.mem_singleton.1 hn]
    refine .trans ?_ (List.sublist_append_left ..)
    refine .trans ?_ (List.sublist_append_right ..)
    have hsingle := List.Sublist.flatMap_right
      (placedItems definition.node definition.pointer "operations")
      (f := fun p => [p]) (g := fun operation =>
        operation :: placedItems operation.node operation.pointer "params")
      fun p _ => List.Sublist.cons_cons p (List.nil_sublist _)
    simpa using hsingle
  · exact (hflat hn).trans (List.sublist_append_right ..)

theorem featuresOf_sublist (definition : Placed) :
    List.Sublist (definition :: Document.featuresOf definition)
      (Document.declarationsOf definition) := by
  apply List.Sublist.cons_cons
  refine .trans (List.Sublist.append ?_ ?_) (List.sublist_append_left ..)
  · exact List.sublist_flatten_of_mem (List.mem_map_of_mem (by decide))
  · exact List.Sublist.flatMap_right _ fun operation _ => List.sublist_cons_self ..

/-! ### Reading by identity -/

theorem Accepted.checked (ha : Accepted bundle d) : ∃ specialAliases, ∀ definition ∈ d.types,
    ∃ table, TypeChecked specialAliases table definition := by
  obtain ⟨specialAliases, h⟩ := ha.types
  refine ⟨specialAliases, fun definition hm => ?_⟩
  obtain ⟨table, -, hc⟩ := h definition hm
  exact ⟨table, hc⟩

theorem Accepted.checkedType (ha : Accepted bundle d)
    {definition : Json} (hm : definition ∈ d.types) : ∃ specialAliases table,
      TableOf (d.ir.members "constructs") table ∧
        TypeChecked specialAliases table definition := by
  obtain ⟨specialAliases, h⟩ := ha.types
  obtain ⟨table, ht, hc⟩ := h definition hm
  exact ⟨specialAliases, table, ht, hc⟩

theorem Accepted.type_identity (ha : Accepted bundle d) {definition : Json}
    (hm : definition ∈ d.types) : HasIdentity definition := by
  obtain ⟨_, h⟩ := ha.checked
  obtain ⟨_, hc⟩ := h definition hm
  exact hc.identity

theorem types_identities_nodup (hn : d.declaredIdentities.Nodup) :
    (d.types.filterMap identityOf).Nodup := by
  have hs : List.Sublist d.placedTypes (d.placedTypes.flatMap Document.declarationsOf) := by
    have hsingle := List.Sublist.flatMap_right d.placedTypes (f := fun p => [p])
      (g := Document.declarationsOf) fun p _ => List.Sublist.cons_cons p (List.nil_sublist _)
    simpa using hsingle
  have hnodup := nodup_of_sublist hn hs
  rwa [identitiesOf, ← Function.comp_def, ← List.filterMap_map, placedTypes_nodes] at hnodup

theorem Accepted.types_nodup (ha : Accepted bundle d) : (d.types.map identityOf).Nodup :=
  Keyed.nodup_map_of_filterMap (types_identities_nodup ha.identities_nodup) fun _ hm =>
    Option.isSome_iff_exists.2 (ha.type_identity hm)

theorem position_of_typeOf {name : String} {t : Json} (h : d.typeOf name = some t) :
    ∃ i, d.byPosition name = some i ∧ d.types[i]? = some t := by
  rw [Document.typeOf, List.find?_eq_some_iff_getElem] at h
  obtain ⟨hp, i, hi, rfl, hbefore⟩ := h
  refine ⟨i, List.findIdx?_eq_some_iff_getElem.2 ⟨hi, hp, fun j hj => ?_⟩,
    List.getElem?_eq_getElem hi⟩
  simpa using hbefore j hj

theorem typeOf_eq_first (identity : String) :
    d.typeOf identity = Keyed.first identityOf (some identity) d.types := rfl

theorem Accepted.typeOf_iff (ha : Accepted bundle d) {identity : String} {definition : Json} :
    d.typeOf identity = some definition ↔
      definition ∈ d.types ∧ identityOf definition = some identity :=
  Keyed.first_iff ha.types_nodup

theorem mem_placedTypes {definition : Json} (hm : definition ∈ d.types) :
    ∃ placed ∈ d.placedTypes, placed.node = definition := by
  rw [← placedTypes_nodes] at hm
  exact List.mem_map.1 hm

theorem Accepted.list_nodup (ha : Accepted bundle d) {definition : Json}
    (hm : definition ∈ d.types) {name : String} (hn : name ∈ declaringLists) :
    ((definition.members name).filterMap identityOf).Nodup := by
  obtain ⟨placed, hp, rfl⟩ := mem_placedTypes hm
  have hs := (sublist_declarationsOf placed hn).trans
    (List.sublist_flatten_of_mem (List.mem_map_of_mem hp))
  have hnodup := ha.nodup_sublist hs
  rwa [identitiesOf, ← Function.comp_def, ← List.filterMap_map, placedItems_nodes] at hnodup

theorem Accepted.params_nodup (ha : Accepted bundle d) {definition operation : Json}
    (hm : definition ∈ d.types) (ho : operation ∈ definition.members "operations") :
    ((operation.members "params").filterMap identityOf).Nodup := by
  obtain ⟨placed, hp, rfl⟩ := mem_placedTypes hm
  rw [← placedItems_nodes placed.node placed.pointer] at ho
  obtain ⟨item, hi, rfl⟩ := List.mem_map.1 ho
  have hs : List.Sublist (placedItems item.node item.pointer "params")
      (Document.featuresOf placed) := by
    refine .trans ?_ (List.sublist_append_right ..)
    exact List.sublist_flatten_of_mem (List.mem_map_of_mem hi)
  have hnodup := ha.nodup_sublist (((hs.trans (List.sublist_cons_self ..)).trans
    (featuresOf_sublist placed)).trans (List.sublist_flatten_of_mem (List.mem_map_of_mem hp)))
  rwa [identitiesOf, ← Function.comp_def, ← List.filterMap_map, placedItems_nodes] at hnodup

/-! ### Features -/

theorem mem_features {feature : Placed} (hf : feature ∈ d.features) :
    ∃ definition ∈ d.types, feature.node ∈ definition.members "fields" ∨
      ∃ operation ∈ definition.members "operations", feature.node ∈ operation.members "params" := by
  obtain ⟨placed, hp, hf⟩ := List.mem_flatMap.1 hf
  refine ⟨placed.node, placedTypes_nodes (d := d) ▸ List.mem_map_of_mem hp, ?_⟩
  rcases List.mem_append.1 hf with hf | hf
  · exact .inl (placedItems_nodes placed.node placed.pointer "fields" ▸ List.mem_map_of_mem hf)
  · obtain ⟨operation, ho, hf⟩ := List.mem_flatMap.1 hf
    refine .inr ⟨operation.node, ?_, ?_⟩
    · exact placedItems_nodes placed.node placed.pointer "operations" ▸ List.mem_map_of_mem ho
    · exact placedItems_nodes operation.node operation.pointer "params" ▸ List.mem_map_of_mem hf

theorem exists_feature {definition feature : Json} (hm : definition ∈ d.types)
    (hf : feature ∈ definition.members "fields" ∨
      ∃ operation ∈ definition.members "operations", feature ∈ operation.members "params") :
    ∃ placed ∈ d.features, placed.node = feature := by
  obtain ⟨owner, ho, rfl⟩ := mem_placedTypes hm
  have hlisted : ∃ placed ∈ Document.featuresOf owner, placed.node = feature := by
    rcases hf with hf | ⟨operation, hop, hf⟩
    · rw [← placedItems_nodes owner.node owner.pointer] at hf
      obtain ⟨placed, hp, rfl⟩ := List.mem_map.1 hf
      exact ⟨placed, List.mem_append_left _ hp, rfl⟩
    · rw [← placedItems_nodes owner.node owner.pointer] at hop
      obtain ⟨item, hi, rfl⟩ := List.mem_map.1 hop
      rw [← placedItems_nodes item.node item.pointer] at hf
      obtain ⟨placed, hp, rfl⟩ := List.mem_map.1 hf
      exact ⟨placed, List.mem_append_right _ (List.mem_flatMap.2 ⟨item, hi, hp⟩), rfl⟩
  obtain ⟨placed, hp, heq⟩ := hlisted
  exact ⟨placed, List.mem_flatMap.2 ⟨owner, ho, hp⟩, heq⟩

theorem Accepted.feature_checked (ha : Accepted bundle d) {feature : Placed}
    (hf : feature ∈ d.features) : FieldChecked feature.node := by
  obtain ⟨_, h⟩ := ha.checked
  obtain ⟨definition, hm, hf⟩ := mem_features hf
  obtain ⟨_, hc⟩ := h definition hm
  rcases hf with hf | ⟨operation, ho, hf⟩
  · exact hc.fields _ hf
  · exact (hc.operations operation ho).params _ hf

theorem declared_sublist : List.Sublist
    (d.placedTypes.flatMap fun p => p :: Document.featuresOf p)
    (d.placedTypes.flatMap Document.declarationsOf) :=
  List.Sublist.flatMap_right _ fun p _ => featuresOf_sublist p

theorem Accepted.features_nodup (ha : Accepted bundle d) :
    (d.features.map fun p => identityOf p.node).Nodup := by
  have hs : List.Sublist d.features (d.placedTypes.flatMap fun p => p :: Document.featuresOf p) :=
    List.Sublist.flatMap_right _ fun p _ => List.sublist_cons_self ..
  exact Keyed.nodup_map_of_filterMap (ha.nodup_sublist (hs.trans declared_sublist))
    fun p hp => Option.isSome_iff_exists.2 (ha.feature_checked hp).identity

theorem fieldOf_eq_first (identity : String) :
    d.fieldOf identity = Keyed.first (fun p => identityOf p.node) (some identity) d.features := rfl

theorem Accepted.type_not_feature (ha : Accepted bundle d) {identity : String} {definition : Json}
    (ht : d.typeOf identity = some definition) : d.fieldOf identity = none := by
  rw [fieldOf_eq_first, Keyed.first_none_iff]
  intro hf
  obtain ⟨feature, hf, hi⟩ := List.mem_map.1 hf
  obtain ⟨hm, hti⟩ := ha.typeOf_iff.1 ht
  obtain ⟨placed, hp, rfl⟩ := mem_placedTypes hm
  have hn : (identitiesOf (d.placedTypes ++ d.features)).Nodup := by
    refine (List.Perm.nodup_iff ?_).1 (ha.nodup_sublist declared_sublist)
    apply List.Perm.filterMap
    have := List.flatMap_append_perm d.placedTypes (fun p => [p]) Document.featuresOf
    simpa [Document.features] using this.symm
  rw [identitiesOf, List.filterMap_append] at hn
  exact List.disjoint_of_nodup_append hn (List.mem_filterMap.2 ⟨placed, hp, hti⟩)
    (List.mem_filterMap.2 ⟨feature, hf, hi⟩)

end FilamentCore.SemanticIr
