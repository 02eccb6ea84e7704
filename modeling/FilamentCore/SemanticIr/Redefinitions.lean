import FilamentCore.Library.Succeeding
import FilamentCore.SemanticIr.Identities
import FilamentCore.SemanticIr.SupertypeAnalysis

/-!
# Redefinitions (crates/semantic-ir/src/constructs.rs)

What the features of a document that reports no unresolved and no invalid redefinition hold: a
feature that redefines another, through any number of redefinitions, stands below it in the
supertype graph and admits no number of values that the other excludes.
-/

namespace FilamentCore.SemanticIr
namespace Constructs

open FilamentCore.Library

/-! ### Multiplicities -/

def Admits (node : Json) (count : ℕ) : Prop :=
  ∃ multiplicity lower, node.get "multiplicity" = some multiplicity ∧
    (multiplicity.get "lower").bind Json.asF64 = some lower ∧ lower ≤ count ∧
    ∀ upper, (multiplicity.get "upper").bind Json.asF64 = some upper → (count : ℚ) ≤ upper

def Returns (operation : Json) (count : ℕ) : Prop :=
  match operation.get "returns" with
  | some returns => Admits returns count
  | none => count = 0

structure Bounded (node multiplicity : Json) (lower : ℤ) : Prop where
  given : node.get "multiplicity" = some multiplicity
  least : multiplicity.getI64 "lower" = some lower
  most : ∀ value, multiplicity.get "upper" = some value → ∃ upper, value.asI64 = some upper

theorem asI64_spec {n : Number} {i : ℤ} (h : n.asI64 = some i) : n.value = i := by
  unfold Number.asI64 at h
  split at h
  · rename_i hint
    rw [← Option.some.inj h, Rat.coe_int_num_of_den_eq_one hint.1]
  · cases h

theorem asF64_of_asI64 {value : Json} {i : ℤ} (h : value.asI64 = some i) :
    value.asF64 = some (i : ℚ) := by
  cases value with
  | number n => exact congrArg some (asI64_spec h)
  | _ => cases h

theorem integer_of_expectInteger {value : Json} {pointer what : String} {least : ℤ}
    (h : expectInteger (some value) pointer least what = []) : ∃ i, value.asI64 = some i := by
  have hi := pushIf_eq_nil.1 (whenSome_eq_nil.1 h value rfl)
  cases hv : value.asI64 with
  | none => simp [hv] at hi
  | some i => exact ⟨i, rfl⟩

theorem bounded_of_schema {node : Json} {at' : String} (hh : node.has "multiplicity" = true)
    (h : multiplicityMember node at' = []) :
    ∃ multiplicity lower, Bounded node multiplicity lower := by
  obtain ⟨multiplicity, hm⟩ := Option.isSome_iff_exists.1 hh
  have h := whenSome_eq_nil.1 h multiplicity hm
  simp only [multiplicitySchema, expectObject_eq_nil, List.append_eq_nil_iff] at h
  obtain ⟨-, ⟨⟨⟨⟨hr, -⟩, hlower⟩, hupper⟩, -⟩, -⟩ := h
  obtain ⟨value, hv⟩ := Option.isSome_iff_exists.1 (requireMembers_eq_nil.1 hr "lower" (by decide))
  rw [hv] at hlower
  obtain ⟨lower, hl⟩ := integer_of_expectInteger hlower
  refine ⟨multiplicity, lower, hm, by rw [Json.getI64, hv]; exact hl, fun value hu => ?_⟩
  rw [hu] at hupper
  exact integer_of_expectInteger hupper

theorem Bounded.bounds_eq {node multiplicity : Json} {lower : ℤ}
    (h : Bounded node multiplicity lower) :
    bounds node = (lower, multiplicity.getI64 "upper") := by
  simp only [bounds, h.given, Option.bind_some, h.least, Option.getD_some]

theorem Bounded.admits_iff {node multiplicity : Json} {lower : ℤ}
    (h : Bounded node multiplicity lower) {count : ℕ} :
    Admits node count ↔ (bounds node).1 ≤ count ∧
      ∀ upper, (bounds node).2 = some upper → (count : ℤ) ≤ upper := by
  obtain ⟨value, hv, hl⟩ := Option.bind_eq_some_iff.1 h.least
  have hlower : (multiplicity.get "lower").bind Json.asF64 = some (lower : ℚ) := by
    rw [hv]
    exact asF64_of_asI64 hl
  have hupper : (multiplicity.get "upper").bind Json.asF64 =
      (multiplicity.getI64 "upper").map fun i : ℤ => (i : ℚ) := by
    rw [Json.getI64]
    cases hu : multiplicity.get "upper" with
    | none => rfl
    | some value =>
      obtain ⟨upper, hi⟩ := h.most value hu
      rw [Option.bind_some, Option.bind_some, hi]
      exact asF64_of_asI64 hi
  rw [h.bounds_eq]
  constructor
  · rintro ⟨m, l, hm, hml, hle, hbound⟩
    obtain rfl : multiplicity = m := Option.some.inj (h.given.symm.trans hm)
    rw [hlower, Option.some.injEq] at hml
    refine ⟨by rw [← hml] at hle; exact_mod_cast hle, fun upper hu => ?_⟩
    have hu : multiplicity.getI64 "upper" = some upper := hu
    have hle := hbound upper (by rw [hupper, hu]; rfl)
    exact_mod_cast hle
  · rintro ⟨hle, hbound⟩
    refine ⟨multiplicity, lower, h.given, hlower, by exact_mod_cast hle, fun q hq => ?_⟩
    rw [hupper, Option.map_eq_some_iff] at hq
    obtain ⟨upper, hu, rfl⟩ := hq
    exact_mod_cast hbound upper hu

theorem narrows_iff {field redefined : Json} :
    narrows field redefined = true ↔ (bounds redefined).1 ≤ (bounds field).1 ∧
      ∀ outer, (bounds redefined).2 = some outer →
        ∃ upper, (bounds field).2 = some upper ∧ upper ≤ outer := by
  unfold narrows
  obtain ⟨lower, upper⟩ := bounds field
  obtain ⟨outerLower, outerUpper⟩ := bounds redefined
  cases outerUpper with
  | none => simp
  | some outer => cases upper <;> simp

theorem admits_of_narrows {field redefined m m' : Json} {l l' : ℤ} (hf : Bounded field m l)
    (hr : Bounded redefined m' l') (h : narrows field redefined = true) {count : ℕ}
    (ha : Admits field count) : Admits redefined count := by
  obtain ⟨hlower, hupper⟩ := narrows_iff.1 h
  obtain ⟨hle, hbound⟩ := hf.admits_iff.1 ha
  refine hr.admits_iff.2 ⟨hlower.trans hle, fun outer ho => ?_⟩
  obtain ⟨upper, hu, hleu⟩ := hupper outer ho
  exact (hbound upper hu).trans hleu

/-! ### What the schema says of features -/

theorem fields_bounded {specialAliases : List String} {table : ConstructTable}
    {definition : Json} {at' : String} (h : typeFindings specialAliases table definition at' = []) :
    ∀ field ∈ definition.members "fields", ∃ m l, Bounded field m l := by
  intro field hf
  simp only [typeFindings, expectObject_eq_nil, List.append_eq_nil_iff] at h
  obtain ⟨-, -, hlists⟩ := h
  obtain ⟨_, hs⟩ := listed_eq_nil hlists (.head _) field hf
  simp only [fieldSchema, expectObject_eq_nil, List.append_eq_nil_iff] at hs
  obtain ⟨-, ⟨⟨⟨hs, hm⟩, -⟩, -⟩, -⟩ := hs
  obtain ⟨⟨⟨⟨⟨⟨⟨⟨⟨⟨-, hmult⟩, -⟩, -⟩, -⟩, -⟩, -⟩, -⟩, -⟩, -⟩, -⟩ := hs
  exact bounded_of_schema (by simpa [pushIf_eq_nil] using hmult) hm

theorem returns_bounded {specialAliases : List String} {table : ConstructTable}
    {definition : Json} {at' : String} (h : typeFindings specialAliases table definition at' = []) :
    ∀ operation ∈ definition.members "operations", ∀ returns,
      operation.get "returns" = some returns → ∃ m l, Bounded returns m l := by
  intro operation ho returns hr
  simp only [typeFindings, expectObject_eq_nil, List.append_eq_nil_iff] at h
  obtain ⟨-, -, hlists⟩ := h
  obtain ⟨_, hs⟩ := listed_eq_nil hlists (.tail _ (.tail _ (.tail _ (.head _)))) operation ho
  simp only [operationSchema, expectObject_eq_nil, List.append_eq_nil_iff] at hs
  obtain ⟨-, ⟨-, hs⟩, -⟩ := hs
  have hs := whenSome_eq_nil.1 hs returns hr
  simp only [returnsSchema, expectObject_eq_nil, List.append_eq_nil_iff] at hs
  obtain ⟨-, ⟨⟨⟨⟨hreq, -⟩, -⟩, -⟩, -⟩, hm⟩ := hs
  exact bounded_of_schema (requireMembers_eq_nil.1 hreq _ (by decide)) hm

theorem returns_of_returnsWithin {operation redefined : Json}
    (ho : ∀ returns, operation.get "returns" = some returns → ∃ m l, Bounded returns m l)
    (hr : ∀ returns, redefined.get "returns" = some returns → ∃ m l, Bounded returns m l)
    (h : returnsWithin operation redefined = true) {count : ℕ} (hc : Returns operation count) :
    Returns redefined count := by
  unfold Returns at hc ⊢
  unfold returnsWithin at h
  cases hinner : operation.get "returns" with
  | none =>
    rw [hinner] at h hc
    cases houter : redefined.get "returns" with
    | none => exact hc
    | some outer => simp [houter] at h
  | some inner =>
    rw [hinner] at h hc
    cases houter : redefined.get "returns" with
    | none => simp [houter] at h
    | some outer =>
      rw [houter] at h
      obtain ⟨m, l, hi⟩ := ho inner hinner
      obtain ⟨m', l', ho⟩ := hr outer houter
      exact admits_of_narrows hi ho h hc

/-! ### What the rules say of a redefinition -/

/-- A feature and the type that declares it. -/
structure Feature where
  owner : Json
  node : Json

def declaredFeatures (d : Document) (list : String) : List Feature :=
  d.types.flatMap fun t => (t.members list).map (Feature.mk t)

/-- A declared feature redefines the one whose identity it names. -/
def Redefines (d : Document) (list : String) (f g : Feature) : Prop :=
  f ∈ declaredFeatures d list ∧ g ∈ declaredFeatures d list ∧
    ∃ name, f.node.getStr "redefines" = some name ∧ identityOf g.node = some name

def narrowingCodes : List Code := [.unresolvedFeatureRef, .invalidRedefinition, .supertypeCycle]

variable {d : Document} {list : String}

theorem mem_declaredFeatures {f : Feature} :
    f ∈ declaredFeatures d list ↔ f.owner ∈ d.types ∧ f.node ∈ f.owner.members list := by
  simp only [declaredFeatures, List.mem_flatMap, List.mem_map]
  constructor
  · rintro ⟨t, ht, node, hnode, rfl⟩
    exact ⟨ht, hnode⟩
  · rintro ⟨ht, hnode⟩
    exact ⟨f.owner, ht, f.node, hnode, rfl⟩

theorem declaredFeatures_nodup (hn : d.declaredIdentities.Nodup) (hl : list ∈ declaringLists) :
    ((declaredFeatures d list).filterMap fun f => identityOf f.node).Nodup := by
  have hs : List.Sublist (d.placedTypes.flatMap fun p => placedItems p.node p.pointer list)
      (d.placedTypes.flatMap Document.declarationsOf) :=
    List.Sublist.flatMap_right _ fun p _ => sublist_declarationsOf p hl
  have hnodup := nodup_of_sublist hn hs
  have heq : (declaredFeatures d list).map Feature.node =
      (d.placedTypes.flatMap fun p => placedItems p.node p.pointer list).map Placed.node := by
    simp only [declaredFeatures, List.map_flatMap, placedItems_nodes, List.map_map,
      Function.comp_def, List.map_id']
    rw [← placedTypes_nodes, List.flatMap_map]
  rw [identitiesOf, ← Function.comp_def, ← List.filterMap_map, ← heq, List.filterMap_map] at hnodup
  exact hnodup

theorem declared_of_nodup (hn : d.declaredIdentities.Nodup) {t : Json} (ht : t ∈ d.types) :
    Declared d t := by
  intro i hi
  obtain ⟨u, hu⟩ : ∃ u, Keyed.first identityOf (some i) d.types = some u :=
    Keyed.exists_first ht hi
  obtain ⟨hm, hui⟩ := typeOf_spec hu
  rw [Keyed.eq_of_some_key (types_identities_nodup hn) ht hm hi hui]
  exact hu

theorem inherited_iff (hn : d.declaredIdentities.Nodup) (hl : list ∈ declaringLists) {t : Json}
    {name : String} {node : Json}
    (h : inheritedNamed ((ancestors d t).flatMap (·.members list)) name = some node)
    {g : Feature} (hg : g ∈ declaredFeatures d list) (hi : identityOf g.node = some name) :
    g.owner ∈ ancestors d t ∧ g.node = node := by
  have hm := List.mem_of_find?_eq_some h
  have hnode : identityOf node = some name := by simpa using List.find?_some h
  obtain ⟨owner, ho, hnm⟩ := List.mem_flatMap.1 hm
  have htypes : owner ∈ d.types := by
    obtain ⟨x, -, n, -, -, hu⟩ := Relation.TransGen.tail'_iff.1 (mem_ancestors.1 ho)
    exact (typeOf_spec hu).1
  have hdistinct : ((declaredFeatures d list).filterMap fun f : Feature =>
      identityOf f.node).Nodup := declaredFeatures_nodup hn hl
  have heq : g = ⟨owner, node⟩ :=
    Keyed.eq_of_some_key hdistinct hg (mem_declaredFeatures.2 ⟨htypes, hnm⟩) hi hnode
  rw [heq]
  exact ⟨ho, rfl⟩

theorem declarations_read {at' : String} (h : semanticIr d.ir at' = []) :
    ∃ declarations, Declarations.read d = .ok declarations := by
  obtain ⟨constructs, hget, hc⟩ := constructs_checked h
  cases constructs with
  | array items =>
    have hwalk := @walkItems_eq_nil constructsEntry (fun _ => True)
      (fun _ _ _ _ _ => trivial) _ _ _ trivial hc
    refine Library.Succeeding.exists_mapM_ok fun entry he => ?_
    have hm : entry.node ∈ items := by
      have hnodes := List.mem_map_of_mem (f := Placed.node) he
      rw [placedItems_nodes] at hnodes
      simpa [Json.members, Json.getArray, hget, Json.asArray] using hnodes
    rw [← List.zipIdx_map_fst 0 items] at hm
    obtain ⟨item, hi, heq⟩ := List.mem_map.1 hm
    obtain ⟨table, entryAt, -, hentry⟩ := hwalk.1 item hi
    obtain ⟨kind, construct, declaration, hk, hgc, hd, -, -⟩ := constructsEntry_eq_nil hentry
    obtain ⟨declared, hgk, -⟩ := Option.bind_eq_some_iff.1 hk
    rw [heq] at hgk hgc
    exact ⟨(declared, declaration), by simp only [readEntry, hgk, hgc, hd]⟩
  | _ => simp [constructsSchema] at hc

theorem mem_decide {declarations : Declarations} (hread : Declarations.read d = .ok declarations)
    {definition : Placed × ℕ} (hd : definition ∈ d.placedTypes.zipIdx) {issue : Issue}
    (h : issue ∈ typeIssues d declarations (typesOnASupertypeCycle d) definition) :
    issue ∈ decide d := by
  simp only [decide, hread, List.mem_append]
  exact .inl (.inl (List.mem_flatMap.2 ⟨definition, hd, h⟩))

theorem mem_decide_features {declarations : Declarations}
    (hread : Declarations.read d = .ok declarations) {placed : Placed}
    (hp : placed ∈ d.placedTypes) {issue : Issue} (h : issue ∈ features d placed) :
    issue ∈ decide d := by
  rw [← List.zipIdx_map_fst 0 d.placedTypes] at hp
  obtain ⟨definition, hd, rfl⟩ := List.mem_map.1 hp
  refine mem_decide hread hd ?_
  simp only [typeIssues, List.mem_append]
  exact .inl (.inl (.inl (.inr h)))

/-- A document that passes its schema, declares no identity twice, and on which the redefinition
and supertype rules report nothing. -/
structure Narrowing (d : Document) : Prop where
  checked : ∃ specialAliases, ∀ t ∈ d.types, ∃ table at',
    typeFindings specialAliases table t at' = []
  distinct : d.declaredIdentities.Nodup
  silent : ∃ declarations, Declarations.read d = .ok declarations ∧
    ∀ issue ∈ decide d, issue.code ∉ narrowingCodes

theorem fieldFeature_silent {inherited : List Json} {field : Placed} {name : String}
    (hname : field.node.getStr "redefines" = some name)
    (h : ∀ issue ∈ fieldFeature inherited field, issue.code ∉ narrowingCodes) :
    ∃ redefined, inheritedNamed inherited name = some redefined ∧
      narrows field.node redefined = true := by
  simp only [fieldFeature, hname, List.mem_append] at h
  cases hfind : inheritedNamed inherited name with
  | none =>
    rw [hfind] at h
    have hreported := h _ (.inr (List.mem_singleton_self _))
    simp [Issue.emit, narrowingCodes] at hreported
  | some redefined =>
    refine ⟨redefined, rfl, ?_⟩
    cases hn : narrows field.node redefined with
    | true => rfl
    | false =>
      simp only [hfind, hn] at h
      have hreported := h _ (.inr (List.mem_singleton_self _))
      simp [Issue.emit, narrowingCodes] at hreported

theorem operationFeature_silent {inherited : List Json} {operation : Placed} {name : String}
    (hname : operation.node.getStr "redefines" = some name)
    (h : ∀ issue ∈ operationFeature inherited operation, issue.code ∉ narrowingCodes) :
    ∃ redefined, inheritedNamed inherited name = some redefined ∧
      returnsWithin operation.node redefined = true := by
  simp only [operationFeature, hname] at h
  cases hfind : inheritedNamed inherited name with
  | none =>
    rw [hfind] at h
    have hreported := h _ (List.mem_singleton_self _)
    simp [Issue.emit, narrowingCodes] at hreported
  | some redefined =>
    refine ⟨redefined, rfl, ?_⟩
    cases hn : returnsWithin operation.node redefined with
    | true => rfl
    | false =>
      simp only [hfind, hn] at h
      have hreported := h _ (List.mem_singleton_self _)
      simp [Issue.emit, narrowingCodes] at hreported

section Run

variable {rule : List Json → Placed → List Issue} {within : Json → Json → Bool}

theorem Narrowing.step (h : Narrowing d) (hl : list ∈ declaringLists)
    (hrule : ∀ placed item issue, item ∈ placedItems placed.node placed.pointer list →
      issue ∈ rule ((ancestors d placed.node).flatMap (·.members list)) item →
      issue ∈ features d placed)
    (hsilent : ∀ inherited item name, item.node.getStr "redefines" = some name →
      (∀ issue ∈ rule inherited item, issue.code ∉ narrowingCodes) →
      ∃ redefined, inheritedNamed inherited name = some redefined ∧
        within item.node redefined = true)
    {f g : Feature} (hr : Redefines d list f g) :
    g.owner ∈ ancestors d f.owner ∧ within f.node g.node = true := by
  obtain ⟨hf, hg, name, hname, hi⟩ := hr
  obtain ⟨declarations, hread, hquiet⟩ := h.silent
  obtain ⟨howner, hnode⟩ := mem_declaredFeatures.1 hf
  obtain ⟨placed, hp, heq⟩ := mem_placedTypes howner
  rw [← heq, ← placedItems_nodes placed.node placed.pointer] at hnode
  obtain ⟨item, hitem, hnode⟩ := List.mem_map.1 hnode
  rw [← hnode] at hname ⊢
  obtain ⟨redefined, hfind, hwithin⟩ := hsilent _ item name hname fun issue hissue =>
    hquiet issue (mem_decide_features hread hp (hrule placed item issue hitem hissue))
  obtain ⟨hancestor, hrnode⟩ := inherited_iff h.distinct hl hfind hg hi
  rw [← heq, hrnode]
  exact ⟨hancestor, hwithin⟩

end Run

/-! ### Chains of redefinitions -/

theorem specializes_of_supertype {i : ℕ} {t u : Json} (ht : d.types[i]? = some t)
    (h : Relation.ReflTransGen (Supertype d) t u) :
    ∃ j, Relation.ReflTransGen (Specializes d) i j ∧ d.types[j]? = some u := by
  induction h with
  | refl => exact ⟨i, .refl, ht⟩
  | tail _ hedge ih =>
    obtain ⟨j, hij, hj⟩ := ih
    obtain ⟨name, hname, hu⟩ := hedge
    obtain ⟨k, hk, htk⟩ := position_of_typeOf hu
    exact ⟨k, hij.tail ⟨_, hj, name, hname, hk⟩, htk⟩

theorem Narrowing.acyclic (h : Narrowing d) (t : Json) :
    ¬ Relation.TransGen (Supertype d) t t := by
  intro hcycle
  obtain ⟨x, hx, name, hname, hto⟩ := Relation.TransGen.tail'_iff.1 hcycle
  -- the walk starts at the place its last reference leads to
  obtain ⟨i, hi, ht⟩ := position_of_typeOf hto
  obtain ⟨j, hij, hj⟩ := specializes_of_supertype ht hx
  have hself : Relation.TransGen (Specializes d) i i :=
    Relation.TransGen.tail' hij ⟨x, hj, name, hname, hi⟩
  obtain ⟨declarations, hread, hquiet⟩ := h.silent
  have hplaced : (⟨index "/ir/types" i, t⟩, i) ∈ d.placedTypes.zipIdx := by
    rw [List.mk_mem_zipIdx_iff_getElem?]
    simp [Document.placedTypes, List.getElem?_zipIdx, ht]
  have hreported : Issue.emit (child (index "/ir/types" i) "supertypes") .supertypeCycle
      "the generalization graph is acyclic and this type is its own supertype" ∈ decide d :=
    mem_decide hread hplaced (by
      have hcyclic : (typesOnASupertypeCycle d).contains i = true :=
        List.contains_iff_mem.2 ((mem_typesOnASupertypeCycle d).2 hself)
      simp only [typeIssues, supertypes, hcyclic, Issue.emitIf, if_true, List.mem_append]
      exact .inl (.inl (.inl (.inl (.inr (List.mem_singleton_self _))))))
  have hno := hquiet _ hreported
  simp [Issue.emit, narrowingCodes] at hno

section Chain

variable {admits : Json → ℕ → Prop}

/-- What holds of each redefinition holds of a chain of them. -/
theorem Narrowing.chain (h : Narrowing d)
    (hstep : ∀ f g, Redefines d list f g → g.owner ∈ ancestors d f.owner ∧
      ∀ count, admits f.node count → admits g.node count)
    {f g : Feature} (hr : Relation.TransGen (Redefines d list) f g) :
    Relation.TransGen (Supertype d) f.owner g.owner ∧ g.owner ≠ f.owner ∧
      ∀ count, admits f.node count → admits g.node count := by
  have hup : ∀ f g, Redefines d list f g →
      Relation.TransGen (Supertype d) f.owner g.owner := by
    intro f g hfg
    have hdeclared := declared_of_nodup h.distinct (mem_declaredFeatures.1 hfg.1).1
    exact ((mem_ancestors_of_declared hdeclared).1 (hstep f g hfg).1).1
  have hall : Relation.TransGen (Supertype d) f.owner g.owner ∧
      ∀ count, admits f.node count → admits g.node count := by
    induction hr with
    | single hfg => exact ⟨hup _ _ hfg, (hstep _ _ hfg).2⟩
    | tail _ hgk ih =>
      exact ⟨ih.1.trans (hup _ _ hgk), fun count hc => (hstep _ _ hgk).2 count (ih.2 count hc)⟩
  refine ⟨hall.1, fun heq => ?_, hall.2⟩
  have hcycle := hall.1
  rw [heq] at hcycle
  exact h.acyclic _ hcycle

end Chain

theorem narrowing_of_checked {bundle : Json} {depth : Option ℕ}
    (hr : Document.readWith bundle depth = some d) (hs : bundleSchema bundle = [])
    (hi : Rules.duplicateIdentities d = [])
    (hc : ∀ issue ∈ decide d, issue.code ∉ narrowingCodes) : Narrowing d := by
  obtain ⟨hir, -, htypes, -⟩ := document_of_readWith hr
  have hsem := semanticIr_of_bundleSchema hir hs
  obtain ⟨specialAliases, hchecked⟩ := types_findings hsem
  obtain ⟨declarations, hread⟩ := declarations_read hsem
  refine ⟨⟨specialAliases, fun t ht => ?_⟩, (duplicates_eq_nil hi).1, declarations, hread, hc⟩
  obtain ⟨table, -, at', h⟩ := hchecked t (htypes ▸ ht)
  exact ⟨table, at', h⟩

theorem Narrowing.fields (h : Narrowing d) {f g : Feature} (hr : Redefines d "fields" f g) :
    g.owner ∈ ancestors d f.owner ∧ ∀ count, Admits f.node count → Admits g.node count := by
  obtain ⟨hancestor, hnarrows⟩ : _ ∧ narrows f.node g.node = true := h.step (by decide)
    (fun placed item issue hitem hissue =>
      List.mem_append_left _ (List.mem_flatMap.2 ⟨item, hitem, hissue⟩))
    (fun _ _ _ => fieldFeature_silent) hr
  refine ⟨hancestor, fun count ha => ?_⟩
  have hbounded : ∀ f ∈ declaredFeatures d "fields", ∃ m l, Bounded f.node m l := by
    intro f hf
    obtain ⟨ht, hnode⟩ := mem_declaredFeatures.1 hf
    obtain ⟨specialAliases, hchecked⟩ := h.checked
    obtain ⟨table, at', hfindings⟩ := hchecked f.owner ht
    exact fields_bounded hfindings f.node hnode
  obtain ⟨m, l, hf⟩ := hbounded f hr.1
  obtain ⟨m', l', hg⟩ := hbounded g hr.2.1
  exact admits_of_narrows hf hg hnarrows ha

theorem Narrowing.operations (h : Narrowing d) {f g : Feature}
    (hr : Redefines d "operations" f g) :
    g.owner ∈ ancestors d f.owner ∧ ∀ count, Returns f.node count → Returns g.node count := by
  obtain ⟨hancestor, hwithin⟩ : _ ∧ returnsWithin f.node g.node = true := h.step (by decide)
    (fun placed item issue hitem hissue =>
      List.mem_append_right _ (List.mem_flatMap.2 ⟨item, hitem, hissue⟩))
    (fun _ _ _ => operationFeature_silent) hr
  refine ⟨hancestor, fun count hc => ?_⟩
  have hbounded : ∀ f ∈ declaredFeatures d "operations", ∀ returns,
      f.node.get "returns" = some returns → ∃ m l, Bounded returns m l := by
    intro f hf
    obtain ⟨ht, hnode⟩ := mem_declaredFeatures.1 hf
    obtain ⟨specialAliases, hchecked⟩ := h.checked
    obtain ⟨table, at', hfindings⟩ := hchecked f.owner ht
    exact returns_bounded hfindings f.node hnode
  exact returns_of_returnsWithin (hbounded f hr.1) (hbounded g hr.2.1) hwithin hc

/-- Of a document that passes its schema, declares no identity twice, and on which the redefinition
and supertype rules report nothing: a feature that redefines another, through any number of
redefinitions, is declared below it and admits no number of values that the other excludes. -/
theorem redefinitions_narrow {bundle : Json} {depth : Option ℕ}
    (hr : Document.readWith bundle depth = some d) (hs : bundleSchema bundle = [])
    (hi : Rules.duplicateIdentities d = [])
    (hc : ∀ issue ∈ decide d, issue.code ∉ narrowingCodes) :
    (∀ f g, Relation.TransGen (Redefines d "fields") f g →
      Relation.TransGen (Supertype d) f.owner g.owner ∧ g.owner ≠ f.owner ∧
        ∀ count, Admits f.node count → Admits g.node count) ∧
    ∀ f g, Relation.TransGen (Redefines d "operations") f g →
      Relation.TransGen (Supertype d) f.owner g.owner ∧ g.owner ≠ f.owner ∧
        ∀ count, Returns f.node count → Returns g.node count := by
  have h := narrowing_of_checked hr hs hi hc
  exact ⟨fun _ _ hfg => h.chain (fun _ _ => h.fields) hfg,
    fun _ _ hfg => h.chain (fun _ _ => h.operations) hfg⟩

/-! ### Bundles of redefinitions -/

def readIr (bundle : Json) : Document := (Document.read bundle).getD (holding [])

theorem zero_valid : (readNumber "0").isSome = true := by decide +kernel

theorem two_valid : (readNumber "2").isSome = true := by decide +kernel

def upTo (upper : Number) : Json :=
  .object [("lower", .number ⟨"0", zero_valid⟩), ("upper", .number upper),
    ("ordered", .bool false), ("unique", .bool false)]

def sized (identity : String) (multiplicity : Json) (more : List (String × Json)) : Json :=
  .object ([("identity", .str identity), ("name", .str "n"), ("typeRef", .str "ix://a/b/A"),
    ("presence", .str "required"), ("nullable", .bool false), ("defaultKind", .str "none"),
    ("origin", Sample.origin), ("multiplicity", multiplicity)] ++ more)

def recording (identity : String) (supertypes : List String) (field : Json) : Json :=
  Sample.type identity "record" []
    [("supertypes", .array (supertypes.map Json.str)), ("fields", .array [field])]

def outermost : Json := sized "ix://a/b/A/h" (upTo ⟨"2", two_valid⟩) []
def middle : Json :=
  sized "ix://a/b/B/g" (upTo ⟨"1", Sample.one_valid⟩) [("redefines", .str "ix://a/b/A/h")]
def innermost : Json := sized "ix://a/b/C/f" Sample.one [("redefines", .str "ix://a/b/B/g")]

def recordA : Json := recording "ix://a/b/A" [] outermost
def recordB : Json := recording "ix://a/b/B" ["ix://a/b/A"] middle
def recordC : Json := recording "ix://a/b/C" ["ix://a/b/B"] innermost

def redefinedTwice : Json := Sample.document [recordA, recordB, recordC] []

theorem redefinitions_narrow_twice :
    Relation.TransGen (Supertype (readIr redefinedTwice)) recordC recordA ∧
      Admits outermost 1 := by
  have hfg : Redefines (readIr redefinedTwice) "fields" ⟨recordC, innermost⟩
      ⟨recordB, middle⟩ :=
    ⟨mem_declaredFeatures.2 (by decide +kernel), mem_declaredFeatures.2 (by decide +kernel),
      "ix://a/b/B/g", by decide +kernel⟩
  have hgh : Redefines (readIr redefinedTwice) "fields" ⟨recordB, middle⟩
      ⟨recordA, outermost⟩ :=
    ⟨mem_declaredFeatures.2 (by decide +kernel), mem_declaredFeatures.2 (by decide +kernel),
      "ix://a/b/A/h", by decide +kernel⟩
  have hread : Document.readWith redefinedTwice none = some (readIr redefinedTwice) := rfl
  have hnarrow := (redefinitions_narrow hread (by decide +kernel) (by decide +kernel)
    (by decide +kernel)).1 _ _ (.tail (.single hfg) hgh)
  have hone : (Json.number ⟨"1", Sample.one_valid⟩).asF64 = some 1 := by decide +kernel
  refine ⟨hnarrow.1, hnarrow.2.2 1 ⟨Sample.one, 1, rfl, hone, by norm_num, fun upper hu => ?_⟩⟩
  obtain rfl : 1 = upper := Option.some.inj (hone.symm.trans hu)
  norm_num

/-- Two types that declare one identity, of which a third type redefines the first. -/
def declaredBeside : Json :=
  Sample.document
    [recording "ix://a/b/A" [] (sized "ix://a/b/g" Sample.one []),
      recording "ix://a/b/B" [] (sized "ix://a/b/g" (upTo ⟨"0", zero_valid⟩) []),
      recording "ix://a/b/C" ["ix://a/b/A", "ix://a/b/B"]
        (sized "ix://a/b/C/f" Sample.one [("redefines", .str "ix://a/b/g")])] []

/-- The rules compare the field with the first of the two, and the second excludes what it
admits. -/
theorem redefinitions_widen_declaredBeside :
    bundleSchema declaredBeside = [] ∧ decide (readIr declaredBeside) = [] ∧
    ∃ f g, Redefines (readIr declaredBeside) "fields" f g ∧ Admits f.node 1 ∧
      ¬ Admits g.node 1 := by
  have hone : (Json.number ⟨"1", Sample.one_valid⟩).asF64 = some 1 := by decide +kernel
  have hzero : (Json.number ⟨"0", zero_valid⟩).asF64 = some 0 := by decide +kernel
  refine ⟨by decide +kernel, by decide +kernel,
    ⟨recording "ix://a/b/C" ["ix://a/b/A", "ix://a/b/B"]
      (sized "ix://a/b/C/f" Sample.one [("redefines", .str "ix://a/b/g")]),
      sized "ix://a/b/C/f" Sample.one [("redefines", .str "ix://a/b/g")]⟩,
    ⟨recording "ix://a/b/B" [] (sized "ix://a/b/g" (upTo ⟨"0", zero_valid⟩) []),
      sized "ix://a/b/g" (upTo ⟨"0", zero_valid⟩) []⟩,
    ⟨mem_declaredFeatures.2 (by decide +kernel), mem_declaredFeatures.2 (by decide +kernel),
      "ix://a/b/g", by decide +kernel⟩,
    ⟨Sample.one, 1, rfl, hone, by norm_num, fun upper hu => ?_⟩, ?_⟩
  · obtain rfl : 1 = upper := Option.some.inj (hone.symm.trans hu)
    norm_num
  · rintro ⟨multiplicity, lower, hm, -, -, hupper⟩
    obtain rfl : upTo ⟨"0", zero_valid⟩ = multiplicity := Option.some.inj hm
    have hle := hupper 0 hzero
    norm_num at hle

end Constructs
end FilamentCore.SemanticIr
