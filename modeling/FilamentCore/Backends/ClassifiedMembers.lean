import FilamentCore.Backends.TypescriptClassify
import FilamentCore.Compiler.SilentChanges
import FilamentCore.SemanticIr.Accepted
import FilamentCore.SemanticIr.NormalForm

/-!
# What a patch says of the nodes both documents have
(src/compiler/backends/typescript-v1/classify.mjs)

Where every change is a patch, the members that a rule or the residue compares agree. What is left
to ask are the members that neither compares.
-/

namespace FilamentCore.Backends.TypescriptV1
open FilamentCore.SemanticIr
open FilamentCore.SemanticIr.Json
open FilamentCore.Compiler.Diff (Disposition mostRestrictive strictEq items)

/-- The members other than `except` have the same value. -/
def Agree (except : List String) (a b : Json) : Prop :=
  ∀ name ∉ except, sameBytes (a.get name) (b.get name) = true

def Same (a b : Json) : Prop := sameBytes (some a) (some b) = true

/-- `r` holds of the two nodes of each identity that both lists have. -/
def SharedNodes (r : Json → Json → Prop) (before after : Option Json) : Prop :=
  ∀ identity a b, entryOf (byIdentity before) identity = some a →
    entryOf (byIdentity after) identity = some b → r a.node b.node

/-- The same value up to `names`, for members that are objects. -/
def SameBut (names : List String) (left right : Option Json) : Prop :=
  sameBytes (left.map (without names)) (right.map (without names)) = true

/-! ### Agreement of the nodes -/

/-- A field or a parameter: all but its origin and its reference. -/
structure FieldAgrees (a b : Json) : Prop where
  members : Agree ["origin", "typeRef", "extensions"] a b
  extensions : SharedNodes Same (a.get "extensions") (b.get "extensions")

structure OperationAgrees (a b : Json) : Prop where
  members : Agree ["origin", "params"] a b
  params : SharedNodes FieldAgrees (a.get "params") (b.get "params")

structure TypeAgrees (a b : Json) : Prop where
  members : Agree ["origin", "extensions", "constraints", "fields", "variants", "relationships",
    "operations"] a b
  extensions : SharedNodes Same (a.get "extensions") (b.get "extensions")
  constraints : SharedNodes Same (a.get "constraints") (b.get "constraints")
  fields : SharedNodes FieldAgrees (a.get "fields") (b.get "fields")
  variants : SharedNodes (Agree ["origin"]) (a.get "variants") (b.get "variants")
  relationships : SharedNodes Same (a.get "relationships") (b.get "relationships")
  operations : SharedNodes OperationAgrees (a.get "operations") (b.get "operations")

/-- Two normalized documents differ in provenance and references alone, on what both have. -/
structure DocumentAgrees (a b : Json) : Prop where
  envelope : Agree ["contractVersion", "source", "package", "extensions", "types"] a b
  source : SameBut ["version", "dialect"] (a.get "source") (b.get "source")
  package : SameBut ["version", "mappingVersions", "profileVersions"] (a.get "package")
    (b.get "package")
  extensions : SharedNodes Same (a.get "extensions") (b.get "extensions")
  types : SharedNodes TypeAgrees (a.get "types") (b.get "types")

/-! ### What neither a rule nor the residue compares -/

def FieldUnexamined (a b : Json) : Prop :=
  SameBut ["upper", "ordered", "unique"] (a.get "multiplicity") (b.get "multiplicity")

structure ParamUnexamined (a b : Json) : Prop where
  multiplicity : FieldUnexamined a b
  members : Agree strippedOfField a b

structure OperationUnexamined (a b : Json) : Prop where
  members : Agree ["identity", "name", "params", "returns", "pre", "post", "origin"] a b
  params : SharedNodes ParamUnexamined (a.get "params") (b.get "params")

structure TypeUnexamined (a b : Json) : Prop where
  fields : SharedNodes FieldUnexamined (a.get "fields") (b.get "fields")
  variants : SharedNodes (Agree ["identity", "name", "payloadType", "origin"]) (a.get "variants")
    (b.get "variants")
  operations : SharedNodes OperationUnexamined (a.get "operations") (b.get "operations")

def DocumentUnexamined (a b : Json) : Prop :=
  SharedNodes TypeUnexamined (a.get "types") (b.get "types")

/-- The identities of the types, and of the fields of each, are distinct. -/
structure DistinctNodes (document : Json) : Prop where
  types : ((identified (document.get "types")).map Prod.fst).Nodup
  fields : ∀ e ∈ identified (document.get "types"),
    ((identified (e.2.node.get "fields")).map Prod.fst).Nodup

/-! ### Members -/

theorem sameBytes_iff {left right : Option Json} :
    sameBytes left right = true ↔ left.map canonical = right.map canonical := beq_iff_eq

theorem sameBytes_of_strictEq {left right : Option Json} (h : (!strictEq left right) = false) :
    sameBytes left right = true := by
  rw [Bool.not_eq_eq_eq_not, Bool.not_false] at h
  rw [sameBytes_iff]
  cases left with
  | none =>
    cases right with
    | none => rfl
    | some right => exact absurd h (by simp [strictEq])
  | some left =>
    cases right with
    | none => exact absurd h (by simp [strictEq])
    | some right =>
      cases left with
      | null =>
        cases right with
        | null => rfl
        | _ => exact absurd h (by simp [strictEq])
      | bool value =>
        cases right with
        | bool other => rw [show value = other from eq_of_beq h]
        | _ => exact absurd h (by simp [strictEq])
      | number n =>
        cases right with
        | number m =>
          have hvalue : n.value = m.value := eq_of_beq h
          rw [Option.map_some, Option.map_some, canonical, canonical, hvalue]
        | _ => exact absurd h (by simp [strictEq])
      | str value =>
        cases right with
        | str other => rw [show value = other from eq_of_beq h]
        | _ => exact absurd h (by simp [strictEq])
      | _ => cases right <;> exact absurd h (by simp [strictEq])

theorem get_without (names : List String) (name : String) (value : Json) :
    (without names value).get name = if name ∈ names then none else value.get name := by
  cases value with
  | object members =>
    show lookup name (members.filter _) = if name ∈ names then none else lookup name members
    induction members with
    | nil => simp [lookup_nil]
    | cons m members ih =>
      rw [List.filter_cons]
      by_cases hm : m.1 ∈ names
      · rw [if_neg (by simpa using hm), ih, lookup_cons]
        by_cases hn : name ∈ names
        · simp [hn]
        · have hne : m.1 ≠ name := fun he => hn (he ▸ hm)
          simp [hn, hne]
      · rw [if_pos (by simpa using hm), lookup_cons, ih, lookup_cons]
        by_cases hn : name ∈ names
        · have hne : m.1 ≠ name := fun he => hm (he ▸ hn)
          simp [hn, hne]
        · simp [hn]
  | _ => simp [without, Json.get]

theorem agree_of_without {names : List String} {a b : Json}
    (h : sameBytes (some (without names a)) (some (without names b)) = true) :
    Agree names a b := by
  intro name hn
  have hget := get_of_canonical (Option.some.inj (sameBytes_iff.1 h)) name
  rw [get_without, get_without, if_neg hn, if_neg hn] at hget
  exact sameBytes_iff.2 hget

theorem Agree.mono {except names : List String} {a b : Json} (h : Agree except a b)
    (hn : except ⊆ names) : Agree names a b := fun name hname => h name fun hm => hname (hn hm)

theorem canonical_object_iff {l m : List (String × Json)} :
    canonical (object l) = canonical (object m) ↔
      ∀ key, (lookup key l).map canonical = (lookup key m).map canonical :=
  ⟨fun h key => get_of_canonical h key, canonical_object_eq⟩

theorem canonical_without {names : List String} {x y : Json}
    (h : ∀ name ∈ names, sameBytes (x.get name) (y.get name) = true) :
    canonical (without names x) = canonical (without names y) ↔ canonical x = canonical y := by
  have hmixed : ∀ {u v : Json}, opener u ≠ opener v → canonical u ≠ canonical v :=
    fun ho hc => ho (opener_eq_of_canonical hc)
  have hobject : ∀ {members : List (String × Json)} {v : Json}, (∀ ms, v ≠ object ms) →
      opener (object members) ≠ opener v := by
    intro members v hv
    cases v with
    | object ms => exact absurd rfl (hv ms)
    | bool value => cases value <;> simp [opener]
    | _ => simp [opener]
  cases x with
  | object l =>
    cases y with
    | object m =>
      rw [canonical_object_iff]
      constructor
      · intro hw key
        by_cases hk : key ∈ names
        · exact sameBytes_iff.1 (h key hk)
        · have hget := get_of_canonical hw key
          rwa [get_without, get_without, if_neg hk, if_neg hk] at hget
      · intro hw
        refine canonical_object_eq fun key => ?_
        have hl := get_without names key (object l)
        have hm := get_without names key (object m)
        simp only [without, Json.get] at hl hm
        rw [hl, hm]
        split_ifs
        · rfl
        · exact hw key
    | _ => exact iff_of_false (hmixed (hobject (by simp [without]))) (hmixed (hobject (by simp)))
  | _ =>
    cases y with
    | object m =>
      exact iff_of_false (hmixed (hobject (by simp [without])).symm) (hmixed (hobject (by simp)).symm)
    | _ => exact Iff.rfl

theorem sameBut_iff {names : List String} {left right : Option Json}
    (h : ∀ name ∈ names, sameBytes (left.bind (·.get name)) (right.bind (·.get name)) = true) :
    SameBut names left right ↔ sameBytes left right = true := by
  rw [SameBut, sameBytes_iff, sameBytes_iff]
  cases left with
  | none => cases right <;> simp
  | some x =>
    cases right with
    | none => simp
    | some y =>
      simp only [Option.map_some, Option.some.injEq]
      exact canonical_without h

theorem get_objectOf (value : Option Json) (name : String) :
    (objectOf value).get name = value.bind (·.get name) := by
  cases value with
  | none => rfl
  | some value => cases value <;> rfl

/-! ### Nodes -/

theorem entryOf_mem {index : List (String × Entry)} {identity : String} {entry : Entry}
    (h : entryOf index identity = some entry) : (identity, entry) ∈ index := by
  obtain ⟨e, he, rfl⟩ := Option.map_eq_some_iff.1 h
  have hkey := List.find?_some he
  rw [beq_iff_eq] at hkey
  rw [← hkey]
  exact List.mem_of_find?_eq_some he

theorem mem_insertNew {index : List (String × Entry)} {e f : String × Entry}
    (h : f ∈ insertNew index e) : f ∈ index ∨ f = e := by
  rw [insertNew] at h
  split_ifs at h
  · exact Or.inl h
  · simpa using h

theorem mem_identified_of_byIdentity {nodes : Option Json} {e : String × Entry}
    (h : e ∈ byIdentity nodes) : e ∈ identified nodes := by
  have hfold : ∀ entries index : List (String × Entry), e ∈ entries.foldl insertNew index →
      e ∈ index ∨ e ∈ entries := by
    intro entries
    induction entries with
    | nil => exact fun _ he => Or.inl he
    | cons f entries ih =>
      intro index he
      obtain he | he := ih _ he
      · obtain he | rfl := mem_insertNew he
        · exact Or.inl he
        · exact Or.inr (.head _)
      · exact Or.inr (.tail _ he)
  obtain he | he := hfold _ _ h
  · exact absurd he List.not_mem_nil
  · exact he

theorem identity_of_entry {nodes : Option Json} {identity : String} {entry : Entry}
    (h : entryOf (byIdentity nodes) identity = some entry) :
    entry.node.get "identity" = some (.str identity) := by
  have hm := mem_identified_of_byIdentity (entryOf_mem h)
  obtain ⟨⟨node, position⟩, -, he⟩ := List.mem_filterMap.1 hm
  obtain ⟨i, hi, hp⟩ := Option.map_eq_some_iff.1 he
  obtain ⟨rfl, rfl⟩ := Prod.mk.inj hp
  cases node with
  | object members =>
    obtain ⟨value, hv, hs⟩ := Option.bind_eq_some_iff.1 hi
    cases value with
    | str text =>
      cases hs
      exact hv
    | _ => cases hs
  | _ => cases hi

theorem identities_same {before after : Option Json} {identity : String} {a b : Entry}
    (ha : entryOf (byIdentity before) identity = some a)
    (hb : entryOf (byIdentity after) identity = some b) :
    sameBytes (a.node.get "identity") (b.node.get "identity") = true := by
  rw [identity_of_entry ha, identity_of_entry hb, sameBytes_iff]

theorem sharedNodes_congr {r s : Json → Json → Prop} {before after : Option Json}
    (h : ∀ identity a b, entryOf (byIdentity before) identity = some a →
      entryOf (byIdentity after) identity = some b → (r a.node b.node ↔ s a.node b.node)) :
    SharedNodes r before after ↔ SharedNodes s before after :=
  forall_congr' fun identity => forall_congr' fun a => forall_congr' fun b =>
    forall_congr' fun ha => forall_congr' fun hb => h identity a b ha hb

/-! ### Changes that are all patches -/

def Patches (changes : List Change) : Prop :=
  ∀ change ∈ changes, change.classification = .patch

theorem patches_append {l m : List Change} : Patches (l ++ m) ↔ Patches l ∧ Patches m :=
  List.forall_mem_append

theorem Patches.of_mem {α : Type} {l : List α} {f : α → List Change} (h : Patches (l.flatMap f))
    {a : α} (ha : a ∈ l) : Patches (f a) :=
  fun change hc => h change (List.mem_flatMap.2 ⟨a, ha, hc⟩)

theorem Patches.not_recorded {condition : Bool} {change : Change}
    (h : Patches (changeIf condition change)) (hc : change.classification ≠ .patch) :
    condition = false := by
  cases condition with
  | false => rfl
  | true => exact absurd (h change (List.mem_singleton_self _)) hc

theorem Patches.kept {before after : Option Json} {removed added : String → Entry → List Change}
    {kept : String → Entry → Entry → List Change}
    (h : Patches (classifyNodes before after removed added kept)) {identity : String} {a b : Entry}
    (ha : entryOf (byIdentity before) identity = some a)
    (hb : entryOf (byIdentity after) identity = some b) : Patches (kept identity a b) := by
  simp only [classifyNodes, patches_append] at h
  have hk := h.2.of_mem (entryOf_mem ha)
  simp only [hb] at hk
  exact hk

theorem sameBytes_of_recorded {left right : Option Json} {change : Change}
    (h : Patches (changeIf (!sameBytes left right) change))
    (hc : change.classification ≠ .patch) : sameBytes left right = true := by
  have hn := h.not_recorded hc
  rwa [Bool.not_eq_eq_eq_not, Bool.not_false] at hn

theorem same_of_strictEq {left right : Option Json} {change : Change}
    (h : Patches (changeIf (!strictEq left right) change))
    (hc : change.classification ≠ .patch) : sameBytes left right = true :=
  sameBytes_of_strictEq (h.not_recorded hc)

theorem extensions_same {before after : Option Json} {pointer owner : String}
    (h : Patches (classifyExtensions before after pointer owner)) :
    SharedNodes Same before after := by
  intro identity a b ha hb
  have hk := h.kept ha hb
  by_contra hn
  rw [Same] at hn
  simp only [hn, Bool.false_eq_true, if_false] at hk
  have hc := hk _ (List.mem_singleton_self _)
  simp only at hc
  split_ifs at hc

theorem constraints_same {before after : Option Json} {pointer : String}
    (h : Patches (classifyConstraints before after pointer)) : SharedNodes Same before after :=
  fun _ _ _ ha hb => sameBytes_of_recorded (h.kept ha hb) (by simp)

theorem relationships_same {before after : Json} {pointer : String}
    (h : Patches (classifyRelationships before after pointer)) :
    SharedNodes Same (before.get "relationships") (after.get "relationships") :=
  fun _ _ _ ha hb => sameBytes_of_recorded (h.kept ha hb) (by simp)

/-! ### What the rules compare -/

theorem multiplicity_same {a b : Json} {pointer noun : String}
    (h : Patches (classifyMultiplicity a b pointer noun)) :
    FieldUnexamined a b ↔ sameBytes (a.get "multiplicity") (b.get "multiplicity") = true := by
  simp only [classifyMultiplicity, patches_append] at h
  obtain ⟨hupper, hflags⟩ := h
  have hn := hflags.not_recorded (by simp)
  rw [Bool.or_eq_false_iff] at hn
  have hu := same_of_strictEq hupper (by simp)
  have ho := sameBytes_of_strictEq hn.1
  have hq := sameBytes_of_strictEq hn.2
  rw [get_objectOf, get_objectOf] at hu ho hq
  refine sameBut_iff fun name hname => ?_
  simp only [List.mem_cons, List.not_mem_nil, or_false] at hname
  obtain rfl | rfl | rfl := hname
  · exact hu
  · exact ho
  · exact hq

theorem field_agrees {beforeTypes afterTypes : List (String × Entry)} {a b : Json}
    {pointer noun : String} (h : Patches (classifyField beforeTypes afterTypes a b pointer noun))
    (hid : sameBytes (a.get "identity") (b.get "identity") = true) :
    FieldAgrees a b ↔ ParamUnexamined a b := by
  simp only [classifyField, patches_append] at h
  obtain ⟨⟨⟨⟨⟨⟨⟨⟨hpresence, hnullable⟩, hdefault⟩, hunit⟩, hname⟩, -⟩, hmultiplicity⟩, -⟩, hext⟩ := h
  have hm := multiplicity_same hmultiplicity
  constructor
  · intro ha
    exact ⟨hm.2 (ha.members _ (by decide)), ha.members.mono (by decide)⟩
  · intro hu
    refine ⟨fun name hn => ?_, extensions_same hext⟩
    by_cases hs : name ∈ strippedOfField
    · have hd := hdefault.not_recorded (by simp)
      rw [Bool.or_eq_false_iff] at hd
      have hp : sameBytes (a.get "presence") (b.get "presence") = true := by
        refine same_of_strictEq hpresence ?_
        show (if _ then Disposition.breaking else .additive) ≠ .patch
        split_ifs <;> decide
      simp only [strippedOfField, List.mem_cons, List.not_mem_nil, or_false] at hs hn
      obtain rfl | rfl | rfl | rfl | rfl | rfl | rfl | rfl | rfl | rfl | rfl := hs
      · exact hid
      · exact same_of_strictEq hname (by simp)
      · exact absurd (Or.inr (Or.inl rfl)) hn
      · exact hp
      · exact same_of_strictEq hnullable (by simp)
      · exact sameBytes_of_strictEq hd.1
      · have hv := hd.2
        rwa [Bool.not_eq_eq_eq_not, Bool.not_false] at hv
      · exact same_of_strictEq hunit (by simp)
      · exact absurd (Or.inl rfl) hn
      · exact hm.1 hu.multiplicity
      · exact absurd (Or.inr (Or.inr rfl)) hn
    · exact hu.members name hs

theorem params_agree {addition : Disposition} {beforeTypes afterTypes : List (String × Entry)}
    {before after : Option Json} {pointer noun : String}
    (h : Patches (classifyFieldList addition beforeTypes afterTypes before after pointer noun)) :
    SharedNodes FieldAgrees before after ↔ SharedNodes ParamUnexamined before after :=
  sharedNodes_congr fun _ _ _ ha hb => field_agrees (h.kept ha hb) (identities_same ha hb)

theorem variant_agrees {addition : Disposition} {before after : Json} {pointer : String}
    (h : Patches (classifyVariants addition before after pointer)) :
    SharedNodes (Agree ["origin"]) (before.get "variants") (after.get "variants") ↔
      SharedNodes (Agree ["identity", "name", "payloadType", "origin"]) (before.get "variants")
        (after.get "variants") := by
  refine sharedNodes_congr fun identity a b ha hb => ?_
  have hk := h.kept ha hb
  rw [patches_append] at hk
  constructor
  · exact fun hm => hm.mono (by decide)
  · intro hu name hn
    by_cases hs : name ∈ ["identity", "name", "payloadType", "origin"]
    · simp only [List.mem_cons, List.not_mem_nil, or_false] at hs hn
      obtain rfl | rfl | rfl | rfl := hs
      · exact identities_same ha hb
      · exact same_of_strictEq hk.2 (by simp)
      · exact same_of_strictEq hk.1 (by simp)
      · exact absurd rfl hn
    · exact hu name hs

theorem operation_agrees {addition : Disposition} {beforeTypes afterTypes : List (String × Entry)}
    {identity : String} {a b : Json} {pointer : String}
    (h : Patches (classifyOperation addition beforeTypes afterTypes identity a b pointer))
    (hid : sameBytes (a.get "identity") (b.get "identity") = true) :
    OperationAgrees a b ↔ OperationUnexamined a b := by
  simp only [classifyOperation, patches_append] at h
  obtain ⟨⟨⟨hparams, hreturns⟩, hrest⟩, -⟩ := h
  have hp := params_agree hparams
  have hr := hrest.not_recorded (by simp)
  rw [Bool.or_eq_false_iff, Bool.or_eq_false_iff] at hr
  obtain ⟨⟨hname, hpre⟩, hpost⟩ := hr
  rw [Bool.not_eq_eq_eq_not, Bool.not_false] at hpre hpost
  constructor
  · intro ha
    exact ⟨ha.members.mono (by decide), hp.1 ha.params⟩
  · intro hu
    refine ⟨fun name hn => ?_, hp.2 hu.params⟩
    by_cases hs : name ∈ ["identity", "name", "params", "returns", "pre", "post", "origin"]
    · simp only [List.mem_cons, List.not_mem_nil, or_false] at hs hn
      obtain rfl | rfl | rfl | rfl | rfl | rfl | rfl := hs
      · exact hid
      · exact sameBytes_of_strictEq hname
      · exact absurd (Or.inr rfl) hn
      · exact sameBytes_of_recorded hreturns (by simp)
      · exact hpre
      · exact hpost
      · exact absurd (Or.inl rfl) hn
    · exact hu.members name hs

/-! ### What the residue compares -/

theorem byIdentity_of_nodup {nodes : Option Json}
    (hn : ((identified nodes).map Prod.fst).Nodup) : byIdentity nodes = identified nodes := by
  have hfold : ∀ entries index : List (String × Entry), ((index ++ entries).map Prod.fst).Nodup →
      entries.foldl insertNew index = index ++ entries := by
    intro entries
    induction entries with
    | nil => exact fun index _ => (List.append_nil index).symm
    | cons e entries ih =>
      intro index hn
      have hnot : ¬ (index.any fun f => f.1 == e.1) = true := by
        rw [List.map_append, List.map_cons, List.nodup_append] at hn
        rw [List.any_eq_true]
        intro hf
        obtain ⟨f, hf, he⟩ := hf
        exact hn.2.2 f.1 (List.mem_map_of_mem hf) e.1 (.head _) (eq_of_beq he)
      have happend := List.append_assoc index [e] entries
      rw [List.foldl_cons, insertNew, if_neg hnot, ih _ (by rwa [happend]), happend]
      rfl
  exact hfold _ [] hn

theorem residual_of_entry {nodes : Option Json} (hn : ((identified nodes).map Prod.fst).Nodup)
    {identity : String} {entry : Entry} (h : entryOf (byIdentity nodes) identity = some entry) :
    (identity, entry.node) ∈ residualNodes nodes ∧
      residual (residualNodes nodes) identity = some entry.node := by
  have hres : residualNodes nodes = (identified nodes).map fun e => (e.1, e.2.node) := by
    refine resolvedMembers_of_nodup ?_
    rw [List.map_map]
    exact hn
  rw [byIdentity_of_nodup hn] at h
  rw [hres]
  refine ⟨List.mem_map_of_mem (entryOf_mem h), ?_⟩
  obtain ⟨e, he, rfl⟩ := Option.map_eq_some_iff.1 h
  rw [residual, List.find?_map]
  have hp : (fun m : String × Json => m.1 == identity) ∘
      (fun e : String × Entry => (e.1, e.2.node)) = fun e => e.1 == identity := rfl
  rw [hp, he]
  rfl

structure Residual (a b : Json) : Prop where
  members : Agree strippedOfType a b
  fields : SharedNodes (Agree strippedOfField) (a.get "fields") (b.get "fields")

theorem residue_types {left right : Json} (hl : DistinctNodes left) (hr : DistinctNodes right)
    (h : Patches (classifyResidue left right)) :
    SharedNodes Residual (left.get "types") (right.get "types") := by
  intro identity a b ha hb
  have ha' := residual_of_entry hl.types ha
  have hb' := residual_of_entry hr.types hb
  have hfields : ∀ {document : Json}, DistinctNodes document → ∀ {entry : Entry},
      entryOf (byIdentity (document.get "types")) identity = some entry →
        ((identified (entry.node.get "fields")).map Prod.fst).Nodup :=
    fun hd _ he => hd.fields _ (mem_identified_of_byIdentity (entryOf_mem he))
  rw [classifyResidue, patches_append] at h
  have ht := h.2.of_mem ha'.1
  simp only [hb'.2, patches_append] at ht
  obtain ⟨htype, hrest⟩ := ht
  refine ⟨agree_of_without (sameBytes_of_recorded htype (by simp)), ?_⟩
  intro field c d hc hd
  have hc' := residual_of_entry (hfields hl ha) hc
  have hd' := residual_of_entry (hfields hr hb) hd
  have hf := hrest.of_mem hc'.1
  simp only [hd'.2] at hf
  exact agree_of_without (sameBytes_of_recorded hf (by simp))

theorem type_agrees {addition variant : Disposition} {beforeTypes afterTypes : List (String × Entry)}
    {a b : Json} {pointer : String}
    (h : Patches (classifyType addition variant beforeTypes afterTypes a b pointer))
    (hid : sameBytes (a.get "identity") (b.get "identity") = true) (hr : Residual a b) :
    TypeAgrees a b ↔ TypeUnexamined a b := by
  simp only [classifyType, patches_append] at h
  obtain ⟨⟨⟨⟨⟨⟨⟨⟨⟨⟨hkind, hshape⟩, hname⟩, hpolicy⟩, -⟩, hext⟩, hcon⟩, hfields⟩, hvariants⟩, hrel⟩,
    hops⟩ := h
  have hf : SharedNodes FieldAgrees (a.get "fields") (b.get "fields") ↔
      SharedNodes FieldUnexamined (a.get "fields") (b.get "fields") := by
    refine (params_agree hfields).trans (sharedNodes_congr fun identity c d hc hd => ?_)
    exact ⟨fun hu => hu.multiplicity, fun hu => ⟨hu, hr.fields identity c d hc hd⟩⟩
  have hv := variant_agrees hvariants
  have ho : SharedNodes OperationAgrees (a.get "operations") (b.get "operations") ↔
      SharedNodes OperationUnexamined (a.get "operations") (b.get "operations") :=
    sharedNodes_congr fun _ _ _ hc hd => operation_agrees (hops.kept hc hd) (identities_same hc hd)
  constructor
  · intro ha
    exact ⟨hf.1 ha.fields, hv.1 ha.variants, ho.1 ha.operations⟩
  · intro hu
    refine ⟨fun name hn => ?_, extensions_same hext, constraints_same hcon, hf.2 hu.fields,
      hv.2 hu.variants, relationships_same hrel, ho.2 hu.operations⟩
    by_cases hs : name ∈ strippedOfType
    · have hp : sameBytes (a.get "unknownPolicy") (b.get "unknownPolicy") = true := by
        refine same_of_strictEq hpolicy ?_
        show (if _ then Disposition.breaking else .conditional) ≠ .patch
        split_ifs <;> decide
      have hmember : ∀ member ∈ ["scalar", "target", "items", "values"],
          sameBytes (a.get member) (b.get member) = true :=
        fun member hm => same_of_strictEq (hshape.of_mem hm) (by simp)
      simp only [strippedOfType, List.mem_cons, List.not_mem_nil, or_false] at hs
      obtain rfl | rfl | rfl | rfl | rfl | rfl | rfl | rfl | hs := hs
      · exact hid
      · exact same_of_strictEq hname (by simp)
      · exact same_of_strictEq hkind (by simp)
      · exact hmember _ (by simp)
      · exact hmember _ (by simp)
      · exact hmember _ (by simp)
      · exact hmember _ (by simp)
      · exact hp
      · refine absurd ?_ hn
        obtain rfl | rfl | rfl | rfl | rfl | rfl | rfl := hs <;> decide
    · exact hr.members name hs

/-! ### The envelope -/

theorem without_without (names more : List String) (value : Json) :
    without names (without more value) = without (names ++ more) value := by
  cases value with
  | object members =>
    rw [without, without, without, List.filter_filter]
    congr 2
    funext m
    simp
  | _ => rfl

theorem sameBut_of_more {names more : List String} {left right : Option Json}
    (h : SameBut (names ++ more) left right)
    (hn : ∀ name ∈ names, sameBytes (left.bind (·.get name)) (right.bind (·.get name)) = true) :
    SameBut more left right := by
  have hmap : ∀ value : Option Json, (value.map (without more)).map (without names) =
      value.map (without (names ++ more)) := by
    intro value
    rw [Option.map_map]
    exact congrArg (Option.map · value) (funext (without_without names more))
  have hget : ∀ (value : Option Json) (name : String), (value.map (without more)).bind (·.get name) =
      if name ∈ more then none else value.bind (·.get name) := by
    intro value name
    cases value with
    | none => simp
    | some value => exact get_without more name value
  refine (@sameBut_iff names _ _ fun name hname => ?_).1 ?_
  · rw [hget, hget]
    split_ifs
    · rfl
    · exact hn name hname
  · rw [SameBut, hmap, hmap]
    exact h

theorem get_withoutIn (name : String) (names : List String) (document : Json) (key : String) :
    (withoutIn name names document).get key =
      if name = key then (document.get name).map (without names) else document.get key := by
  cases document with
  | object members =>
    simp only [withoutIn, Json.get]
    cases hv : lookup name members with
    | none =>
      by_cases hk : name = key
      · rw [if_pos hk, ← hk]
        exact hv
      · rw [if_neg hk]
    | some value =>
      cases value with
      | object inner =>
        simp only [lookup_setMember]
        rfl
      | _ =>
        by_cases hk : name = key
        · rw [if_pos hk, ← hk]
          exact hv
        · rw [if_neg hk]
  | _ => by_cases hk : name = key <;> simp [withoutIn, Json.get, hk]

theorem get_residualEnvelope (document : Json) (key : String) :
    (residualEnvelope document).get key =
      if key ∈ ["contractVersion", "extensions", "types"] then none
      else if key = "package" then (document.get "package").map
        (without ["identity", "version", "mappingVersions", "profileVersions"])
      else if key = "source" then (document.get "source").map
        (without ["identity", "version", "dialect"])
      else document.get key := by
  rw [residualEnvelope, get_without, get_withoutIn, get_withoutIn, get_withoutIn]
  simp only [eq_comm (a := "package") (b := key), eq_comm (a := "source") (b := key)]
  rfl

theorem envelope_agrees {left right : Json} (he : Patches (classifyEnvelope left right))
    (hr : sameBytes (some (residualEnvelope left)) (some (residualEnvelope right)) = true) :
    Agree ["contractVersion", "source", "package", "extensions", "types"] left right ∧
      SameBut ["version", "dialect"] (left.get "source") (right.get "source") ∧
      SameBut ["version", "mappingVersions", "profileVersions"] (left.get "package")
        (right.get "package") := by
  simp only [classifyEnvelope, patches_append] at he
  obtain ⟨⟨⟨hsource, -⟩, hpackage⟩, -⟩ := he
  have hget : ∀ key, sameBytes ((residualEnvelope left).get key) ((residualEnvelope right).get key) =
      true := fun key =>
    sameBytes_iff.2 (get_of_canonical (Option.some.inj (sameBytes_iff.1 hr)) key)
  have hid : ∀ name, ∀ {change : Change}, change.classification ≠ .patch →
      Patches (changeIf (!strictEq ((objectOf (left.get name)).get "identity")
        ((objectOf (right.get name)).get "identity")) change) →
      ∀ member ∈ ["identity"], sameBytes ((left.get name).bind (·.get member))
        ((right.get name).bind (·.get member)) = true := by
    intro name change hc hp member hm
    have hs := same_of_strictEq hp hc
    rw [get_objectOf, get_objectOf] at hs
    rw [List.mem_singleton.1 hm]
    exact hs
  refine ⟨fun name hn => ?_, sameBut_of_more ?_ (hid "source" (by simp) hsource),
    sameBut_of_more ?_ (hid "package" (by simp) hpackage)⟩
  · have hk := hget name
    simp only [List.mem_cons, List.not_mem_nil, or_false, not_or] at hn
    rw [get_residualEnvelope, get_residualEnvelope] at hk
    simpa [hn] using hk
  · have hk := hget "source"
    rwa [get_residualEnvelope, get_residualEnvelope] at hk
  · have hk := hget "package"
    rwa [get_residualEnvelope, get_residualEnvelope] at hk

/-! ### The answer -/

theorem recorded_patches {before after : Json} {options : Options}
    (hb : options.beforeInvalid = false) (ha : options.afterInvalid = false)
    (hp : (classifySurface before after options).classification = .patch) :
    Patches (recorded options.consumerPolicy (normalizeIr before) (normalizeIr after)) := by
  intro change hc
  simp only [classifySurface, hb, ha, Bool.or_false, Bool.false_eq_true, if_false] at hp
  have hrank := (congrArg Disposition.rank hp).le
  refine Disposition.eq_patch (Compiler.Diff.rank_mostRestrictive_le.1 hrank _ ?_)
  exact List.mem_map_of_mem ((List.perm_insertionSort _ _).mem_iff.2 hc)

/-- Where every change is a patch, the nodes of both documents agree exactly where the members that
neither a rule nor the residue compares do. -/
theorem residue_complete_iff (before after : Json) (options : Options)
    (hb : options.beforeInvalid = false) (ha : options.afterInvalid = false)
    (hp : (classifySurface before after options).classification = .patch)
    (hl : DistinctNodes (normalizeIr before)) (hr : DistinctNodes (normalizeIr after)) :
    DocumentAgrees (normalizeIr before) (normalizeIr after) ↔
      DocumentUnexamined (normalizeIr before) (normalizeIr after) := by
  have h := recorded_patches hb ha hp
  simp only [recorded, patches_append] at h
  obtain ⟨⟨⟨henvelope, htypes⟩, hext⟩, hresidue⟩ := h
  have hrest := residue_types hl hr hresidue
  have hsame := sameBytes_of_recorded (patches_append.1 hresidue).1 (by simp)
  obtain ⟨hmembers, hsource, hpackage⟩ := envelope_agrees henvelope hsame
  have htype : SharedNodes TypeAgrees ((normalizeIr before).get "types")
      ((normalizeIr after).get "types") ↔
        DocumentUnexamined (normalizeIr before) (normalizeIr after) :=
    sharedNodes_congr fun identity a b hc hd =>
      type_agrees (htypes.kept hc hd) (identities_same hc hd) (hrest identity a b hc hd)
  constructor
  · exact fun hd => htype.1 hd.types
  · exact fun hu => ⟨hmembers, hsource, hpackage, extensions_same hext, htype.2 hu⟩

theorem two_valid : (readNumber "2").isSome = true := by decide +kernel

/-- A document of one record whose field holds at least so many texts. -/
def taggedNote (atLeast : Number) : Json :=
  ((Sample.document [Sample.type "ix://a/b/Note" "record" [] [("fields", .array [
    .object [("identity", .str "ix://a/b/Note/tags"), ("name", .str "tags"),
      ("typeRef", .str "ix://quire/native/String"), ("presence", .str "required"),
      ("nullable", .bool false), ("defaultKind", .str "none"), ("origin", Sample.origin),
      ("multiplicity", .object [("lower", .number atLeast), ("ordered", .bool false),
        ("unique", .bool false)])]])]] []).get "ir").getD .null

def valid : Options := ⟨.null, false, false⟩

theorem unexamined_self (document : Json) : DocumentUnexamined document document := by
  have hsame : ∀ value : Option Json, sameBytes value value = true :=
    fun value => beq_self_eq_true _
  have hshared : ∀ {r : Json → Json → Prop}, (∀ node, r node node) → ∀ nodes,
      SharedNodes r nodes nodes := by
    intro r hr nodes identity a b ha hb
    rw [Option.some.inj (ha.symm.trans hb)]
    exact hr b.node
  refine hshared (fun type => ?_) _
  refine ⟨hshared (fun _ => hsame _) _, hshared (fun _ _ _ => hsame _) _, hshared ?_ _⟩
  intro operation
  exact ⟨fun _ _ => hsame _, hshared (fun _ => ⟨hsame _, fun _ _ => hsame _⟩) _⟩

theorem taggedNote_distinct {atLeast : Number} : DistinctNodes (normalizeIr (taggedNote atLeast)) := by
  have htypes : (identified ((normalizeIr (taggedNote atLeast)).get "types")).map
      (fun e => (e.1, (identified (e.2.node.get "fields")).map Prod.fst)) =
        [("ix://a/b/Note", ["ix://a/b/Note/tags"])] := by rfl
  constructor
  · have hkeys := congrArg (List.map Prod.fst) htypes
    rw [List.map_map] at hkeys
    show ((identified _).map Prod.fst).Nodup
    rw [show (identified ((normalizeIr (taggedNote atLeast)).get "types")).map Prod.fst =
      ["ix://a/b/Note"] from hkeys]
    exact List.nodup_singleton _
  · intro e he
    have hm := List.mem_map_of_mem (f := fun e : String × Entry =>
      (e.1, (identified (e.2.node.get "fields")).map Prod.fst)) he
    rw [htypes, List.mem_singleton] at hm
    rw [(Prod.mk.inj hm).2]
    exact List.nodup_singleton _

theorem taggedNote_agrees :
    DocumentAgrees (normalizeIr (taggedNote ⟨"1", Sample.one_valid⟩))
      (normalizeIr (taggedNote ⟨"1", Sample.one_valid⟩)) :=
  (residue_complete_iff (taggedNote ⟨"1", Sample.one_valid⟩) (taggedNote ⟨"1", Sample.one_valid⟩)
    valid rfl rfl (by decide +kernel) taggedNote_distinct taggedNote_distinct).2
      (unexamined_self _)

/-- A field that has to hold two texts and not one is a patch. -/
theorem raisedLower_patch :
    (classifySurface (taggedNote ⟨"1", Sample.one_valid⟩)
      (taggedNote ⟨"2", two_valid⟩) valid).classification = .patch ∧
    (classifySurface (taggedNote ⟨"1", Sample.one_valid⟩)
      (taggedNote ⟨"2", two_valid⟩) valid).changes = [] ∧
    ¬ DocumentAgrees (normalizeIr (taggedNote ⟨"1", Sample.one_valid⟩))
      (normalizeIr (taggedNote ⟨"2", two_valid⟩)) := by
  have hsurface : ∀ result, result = classifySurface (taggedNote ⟨"1", Sample.one_valid⟩)
      (taggedNote ⟨"2", two_valid⟩) valid →
      (result.classification, result.changes) = (.patch, []) := by
    rintro _ rfl
    decide +kernel
  obtain ⟨hclass, hchanges⟩ := Prod.mk.inj (hsurface _ rfl)
  refine ⟨hclass, hchanges, fun hd => ?_⟩
  have hfield := (hd.types "ix://a/b/Note" _ _ rfl rfl).fields "ix://a/b/Note/tags" _ _ rfl rfl
  exact absurd (hfield.members "multiplicity" (by decide)) (by decide +kernel)

end FilamentCore.Backends.TypescriptV1
