import FilamentCore.Library.Memo
import FilamentCore.SemanticIr.ResolutionChains
import FilamentCore.SemanticIr.Rules

/-!
# Decimal policies (crates/semantic-ir/src/rules.rs)

The memo of `decimal_policy_suffix`, and the policies it counts against the nodes that `resolve`
goes over.
-/

namespace FilamentCore.SemanticIr
open FilamentCore.Library
open FilamentCore.Library.Following

/-! ### The memo -/

/-- How many policies a walk crosses, and the one nearest to its end. -/
structure DecimalPolicySummary where
  count : ℕ
  first : Option Placed

namespace DecimalPolicySummary

def empty : DecimalPolicySummary := ⟨0, none⟩

def prepend (summary : DecimalPolicySummary) (origin : Option Placed) : DecimalPolicySummary :=
  match origin with
  | none => summary
  | some origin => ⟨summary.count + 1, summary.first.or (some origin)⟩

/-- The summary of the policies crossed, the nearest to the reference first. -/
def of (policies : List Placed) : DecimalPolicySummary := ⟨policies.length, policies.getLast?⟩

end DecimalPolicySummary

abbrev PolicyCache := Memo String DecimalPolicySummary

def policyOrigin (node : Placed) : Option Placed :=
  if node.node.has "decimal" then some node else none

namespace Document

variable (d : Document) (cache : PolicyCache)

def placedTypeOf (identity : String) : Option Placed :=
  (d.byPosition identity).bind fun position => d.placedTypes[position]?

/-- The walk of `decimal_policy_suffix`: its summary, and what is kept on the way back. -/
def policyWalk : ℕ → List String → String → DecimalPolicySummary × PolicyCache
  | 0, _, _ => (.empty, [])
  | steps + 1, seen, current =>
    let through := fun (node : Placed) (next : String) =>
      let (suffix, kept) := policyWalk steps (current :: seen) next
      let summary := suffix.prepend (policyOrigin node)
      (summary, (current, summary) :: kept)
    match cache.get current with
    | some known => (known, [])
    | none =>
      if (nativeScalar current).isSome || seen.contains current then (.empty, [])
      else
        match d.fieldOf current with
        | some field =>
          match field.node.getStr "typeRef" with
          | none => (.empty, [])
          | some typeRef => through field typeRef
        | none =>
          match d.placedTypeOf current with
          | none => (.empty, [])
          | some definition =>
            if isCoreAlias definition.node then
              match definition.node.getStr "target" with
              | none => (.empty, [])
              | some target => through definition target
            else (DecimalPolicySummary.empty.prepend (policyOrigin definition), [])

/-- `decimal_policy_suffix`, with the memo that it leaves. -/
def policySuffixCached (identity : String) : DecimalPolicySummary × PolicyCache :=
  match cache.get identity with
  | some known => (known, cache)
  | none =>
    let (summary, kept) := d.policyWalk cache (d.features.length + d.types.length + 2) [] identity
    (summary, (identity, summary) :: (kept ++ cache))

/-- The memo after some references were asked for. -/
def afterPolicies (asked : List String) : PolicyCache :=
  asked.foldl (fun cache identity => (d.policySuffixCached cache identity).2) []

/-! ### The steps of the walk -/

/-- The node that the walk crosses at an identity, and where it goes on. -/
def policyStep (identity : String) : Option (Placed × Option String) :=
  if (nativeScalar identity).isSome then none
  else
    match d.fieldOf identity with
    | some field => (field.node.getStr "typeRef").map fun typeRef => (field, some typeRef)
    | none => (d.placedTypeOf identity).bind fun definition =>
        if isCoreAlias definition.node then
          (definition.node.getStr "target").map fun target => (definition, some target)
        else some (definition, none)

def nextPolicy (identity : String) : Option String := (d.policyStep identity).bind Prod.snd

def policiesOn (path : List String) : List Placed :=
  path.flatMap fun identity => (d.policyStep identity).toList.flatMap fun step => ownPolicy step.1

end Document

variable {d : Document} {cache : PolicyCache}

@[simp] theorem of_nil : DecimalPolicySummary.of [] = .empty := rfl

theorem prepend_of (node : Placed) (policies : List Placed) :
    (DecimalPolicySummary.of policies).prepend (policyOrigin node) =
      .of (Document.ownPolicy node ++ policies) := by
  unfold policyOrigin Document.ownPolicy
  split
  · simp [DecimalPolicySummary.prepend, DecimalPolicySummary.of, List.getLast?_cons]
  · rfl

/-! ### One step -/

section Step

variable {steps : ℕ} {seen : List String} {a : String}

theorem policySuffix_succ (hseen : a ∉ seen) :
    d.policySuffix (steps + 1) seen a =
      match d.policyStep a with
      | none => []
      | some (node, none) => Document.ownPolicy node
      | some (node, some next) => Document.ownPolicy node ++ d.policySuffix steps (a :: seen) next := by
  have hcontains : seen.contains a = false := by simpa using hseen
  rw [Document.policySuffix, Document.policyStep, hcontains, Bool.or_false]
  by_cases hnative : (nativeScalar a).isSome = true
  · rw [if_pos hnative, if_pos hnative]
  · rw [if_neg hnative, if_neg hnative]
    cases d.fieldOf a with
    | some field =>
      simp only
      cases field.node.getStr "typeRef" <;> rfl
    | none =>
      rw [← Document.placedTypeOf]
      cases d.placedTypeOf a with
      | none => rfl
      | some definition =>
        simp only [Option.bind_some]
        cases Document.isCoreAlias definition.node with
        | false => rfl
        | true => cases definition.node.getStr "target" <;> rfl

theorem policyWalk_succ (hget : cache.get a = none) (hseen : a ∉ seen) :
    d.policyWalk cache (steps + 1) seen a =
      match d.policyStep a with
      | none => (.empty, [])
      | some (node, none) => (DecimalPolicySummary.empty.prepend (policyOrigin node), [])
      | some (node, some next) =>
        let found := d.policyWalk cache steps (a :: seen) next
        let summary := found.1.prepend (policyOrigin node)
        (summary, (a, summary) :: found.2) := by
  have hcontains : seen.contains a = false := by simpa using hseen
  rw [Document.policyWalk, hget, Document.policyStep, hcontains, Bool.or_false]
  by_cases hnative : (nativeScalar a).isSome = true
  · rw [if_pos hnative]
    simp only [hnative, if_true]
  · rw [if_neg hnative]
    simp only [hnative, Bool.false_eq_true, if_false]
    cases d.fieldOf a with
    | some field =>
      simp only
      cases field.node.getStr "typeRef" <;> rfl
    | none =>
      cases d.placedTypeOf a with
      | none => rfl
      | some definition =>
        simp only [Option.bind_some]
        cases Document.isCoreAlias definition.node with
        | false => rfl
        | true => cases definition.node.getStr "target" <;> rfl

end Step

/-! ### Whole walks -/

theorem nextPolicy_none {a : String} (hn : d.nextPolicy a = none) :
    d.policyStep a = none ∨ ∃ node, d.policyStep a = some (node, none) := by
  unfold Document.nextPolicy at hn
  cases hstep : d.policyStep a with
  | none => exact .inl rfl
  | some step =>
    rw [hstep, Option.bind_some] at hn
    exact .inr ⟨step.1, by rw [← hn]⟩

theorem nextPolicy_some {a next : String} (hn : d.nextPolicy a = some next) :
    ∃ node, d.policyStep a = some (node, some next) := by
  unfold Document.nextPolicy at hn
  obtain ⟨step, hstep, hnext⟩ := Option.bind_eq_some_iff.1 hn
  exact ⟨step.1, by rw [hstep, ← hnext]⟩

theorem chain_policies_length {a : String} {path : List String}
    (h : Chain d.nextPolicy a path) : path.length ≤ d.features.length + d.types.length + 1 := by
  let names := (d.features.filterMap fun feature => feature.node.getStr "identity") ++
    d.types.filterMap fun definition => definition.getStr "identity"
  have hle := @Chain.length_le _ _ _ _ names h fun x y hs => ?_
  · have hfeatures := List.length_filterMap_le
      (fun feature : Placed => feature.node.getStr "identity") d.features
    have htypes := List.length_filterMap_le
      (fun definition : Json => definition.getStr "identity") d.types
    simp only [names, List.length_append] at hle
    omega
  · obtain ⟨node, hstep⟩ := nextPolicy_some hs
    unfold Document.policyStep at hstep
    split at hstep
    · cases hstep
    · cases hfield : d.fieldOf x with
      | some field =>
        have hidentity := List.find?_some hfield
        exact List.mem_append_left _ (List.mem_filterMap.2
          ⟨field, List.mem_of_find?_eq_some hfield, by simpa using hidentity⟩)
      | none =>
        simp only [hfield] at hstep
        obtain ⟨definition, hplaced, -⟩ := Option.bind_eq_some_iff.1 hstep
        obtain ⟨position, hposition, -⟩ := Option.bind_eq_some_iff.1 hplaced
        obtain ⟨hlt, hidentity, -⟩ := List.findIdx?_eq_some_iff_getElem.1 hposition
        exact List.mem_append_right _ (List.mem_filterMap.2
          ⟨d.types[position], List.getElem_mem hlt, by simpa using hidentity⟩)

theorem policySuffix_chain {steps : ℕ} {seen path : List String} {a : String}
    (hc : Chain d.nextPolicy a path) (hlength : path.length ≤ steps)
    (hseen : ∀ x ∈ path, x ∉ seen) : d.policySuffix steps seen a = d.policiesOn path := by
  induction steps generalizing seen path a with
  | zero =>
    obtain ⟨rest, rfl⟩ := hc.head
    cases hlength
  | succ steps ih =>
    have hnodup := hc.nodup
    obtain ⟨rest, rfl⟩ := hc.head
    rw [policySuffix_succ (hseen a (List.mem_cons_self ..))]
    cases hn : d.nextPolicy a with
    | none =>
      rw [chain_stop hn, List.cons.injEq] at hc
      rw [hc.2, Document.policiesOn, List.flatMap_singleton]
      rcases nextPolicy_none hn with hstep | ⟨node, hstep⟩
      · rw [hstep]; rfl
      · rw [hstep]; simp
    | some next =>
      obtain ⟨node, hstep⟩ := nextPolicy_some hn
      obtain ⟨rest', heq, hrest⟩ := (chain_next hn).1 hc
      obtain rfl := (List.cons.inj heq).2
      rw [hstep, Document.policiesOn, List.flatMap_cons, hstep, ← Document.policiesOn]
      simp only
      rw [ih hrest (by simpa using hlength) fun x hx hm => ?_]
      · simp
      · rcases List.mem_cons.1 hm with rfl | hm
        · exact (List.nodup_cons.1 hnodup).1 hx
        · exact hseen x (List.mem_cons_of_mem _ hx) hm

theorem decimalPolicySuffix_chain {a : String} {path : List String}
    (hc : Chain d.nextPolicy a path) : d.decimalPolicySuffix a = d.policiesOn path := by
  have hlength := chain_policies_length hc
  exact policySuffix_chain hc (by omega) (by simp)

/-- What the memo keeps of an identity whose walk has an end. -/
def KeepsPolicies (d : Document) (identity : String) (summary : DecimalPolicySummary) : Prop :=
  ∀ path, Chain d.nextPolicy identity path → summary = .of (d.policiesOn path)

theorem policyWalk_chain (hcache : cache.Holds (KeepsPolicies d)) {steps : ℕ}
    {seen path : List String} {a : String} (hc : Chain d.nextPolicy a path)
    (hlength : path.length ≤ steps) (hseen : ∀ x ∈ path, x ∉ seen) :
    (d.policyWalk cache steps seen a).1 = .of (d.policiesOn path) ∧
      ∀ entry ∈ (d.policyWalk cache steps seen a).2, KeepsPolicies d entry.1 entry.2 := by
  induction steps generalizing seen path a with
  | zero =>
    obtain ⟨rest, rfl⟩ := hc.head
    cases hlength
  | succ steps ih =>
    have hnodup := hc.nodup
    obtain ⟨rest, rfl⟩ := hc.head
    cases hget : cache.get a with
    | some known =>
      have hwalk : d.policyWalk cache (steps + 1) seen a = (known, []) := by
        rw [Document.policyWalk, hget]
      rw [hwalk]
      exact ⟨hcache a known hget _ hc, by simp⟩
    | none =>
      rw [policyWalk_succ hget (hseen a (List.mem_cons_self ..))]
      cases hn : d.nextPolicy a with
      | none =>
        rw [chain_stop hn, List.cons.injEq] at hc
        rw [hc.2, Document.policiesOn, List.flatMap_singleton]
        rcases nextPolicy_none hn with hstep | ⟨node, hstep⟩
        · rw [hstep]
          exact ⟨rfl, by simp⟩
        · rw [hstep, ← of_nil]
          simp only [prepend_of]
          exact ⟨by simp, by simp⟩
      | some next =>
        obtain ⟨node, hstep⟩ := nextPolicy_some hn
        obtain ⟨rest', heq, hrest⟩ := (chain_next hn).1 hc
        obtain rfl := (List.cons.inj heq).2
        have hfresh : ∀ x ∈ rest, x ∉ a :: seen := by
          intro x hx hm
          rcases List.mem_cons.1 hm with rfl | hm
          · exact (List.nodup_cons.1 hnodup).1 hx
          · exact hseen x (List.mem_cons_of_mem _ hx) hm
        obtain ⟨hresult, hkept⟩ := ih hrest (by simpa using hlength) hfresh
        have hsummary : (d.policyWalk cache steps (a :: seen) next).1.prepend
            (policyOrigin node) = .of (d.policiesOn (a :: rest)) := by
          rw [hresult, prepend_of, Document.policiesOn, Document.policiesOn, List.flatMap_cons,
            hstep]
          simp
        rw [hstep]
        refine ⟨hsummary, fun entry hentry => ?_⟩
        rcases List.mem_cons.1 hentry with rfl | hentry
        · exact fun path hpath => by rw [hpath.unique hc, hsummary]
        · exact hkept entry hentry

theorem policyWalk_reaches {steps : ℕ} {seen : List String} {a : String}
    {entry : String × DecimalPolicySummary} (h : entry ∈ (d.policyWalk cache steps seen a).2) :
    Reaches d.nextPolicy a entry.1 := by
  induction steps generalizing seen a with
  | zero => cases h
  | succ steps ih =>
    cases hget : cache.get a with
    | some known =>
      rw [Document.policyWalk, hget] at h
      cases h
    | none =>
      by_cases hseen : a ∈ seen
      · rw [Document.policyWalk, hget, List.contains_eq_mem] at h
        simp [hseen] at h
      · rw [policyWalk_succ hget hseen] at h
        cases hn : d.nextPolicy a with
        | none =>
          rcases nextPolicy_none hn with hstep | ⟨node, hstep⟩
          · rw [hstep] at h
            cases h
          · rw [hstep] at h
            cases h
        | some next =>
          obtain ⟨node, hstep⟩ := nextPolicy_some hn
          rw [hstep] at h
          rcases List.mem_cons.1 h with rfl | h
          · exact .refl
          · exact .head hn (ih h)

theorem policySuffixCached_keeps (hcache : cache.Holds (KeepsPolicies d)) (a : String) :
    KeepsPolicies d a (d.policySuffixCached cache a).1 ∧
      (d.policySuffixCached cache a).2.Holds (KeepsPolicies d) := by
  unfold Document.policySuffixCached
  cases hget : cache.get a with
  | some known => exact ⟨hcache a known hget, hcache⟩
  | none =>
    have hsummary : KeepsPolicies d a
        (d.policyWalk cache (d.features.length + d.types.length + 2) [] a).1 := by
      intro path hc
      have hlength := chain_policies_length hc
      exact (policyWalk_chain hcache hc (by omega) (by simp)).1
    refine ⟨hsummary, Memo.Holds.cons (hcache.append fun entry hentry path hpath => ?_) hsummary⟩
    obtain ⟨e, -, hends⟩ := hpath.ends
    obtain ⟨whole, hc, -⟩ := ((ends_reaches (policyWalk_reaches hentry)).2 hends).chain
    have hlength := chain_policies_length hc
    exact (policyWalk_chain hcache hc (by omega) (by simp)).2 entry hentry path hpath

theorem policySuffixCached_eq {a : String} {path : List String} (hc : Chain d.nextPolicy a path)
    (asked : List String) : (d.policySuffixCached (d.afterPolicies asked) a).1 =
      .of (d.decimalPolicySuffix a) := by
  have hkept : (d.afterPolicies asked).Holds (KeepsPolicies d) :=
    Memo.Holds.nil.foldl fun _ identity h => (policySuffixCached_keeps h identity).2
  rw [(policySuffixCached_keeps hkept a).1 path hc, decimalPolicySuffix_chain hc]

/-! ### What the resolver goes over -/

/-- What `resolve` goes over: features, and the aliases after them with the definition at their
end. -/
inductive Followed (d : Document) (a : String) : List String → List String → Prop
  | scalar {features : List String} {last : String} :
    Chain d.nextFeature a (features ++ [last]) → (nativeScalar last).isSome →
    Followed d a features []
  | along {features aliases : List String} {last : String} :
    Chain d.nextFeature a (features ++ [last]) → Plain d last →
    Chain d.nextAlias last aliases → (aliases.getLast?.bind d.aliasEnd).isSome →
    Followed d a features aliases

namespace Document

variable (d : Document)

def featurePolicies (identity : String) : List Placed :=
  (d.fieldOf identity).toList.flatMap ownPolicy

def typePolicies (identity : String) : List Placed :=
  (d.placedTypeOf identity).toList.flatMap ownPolicy

def followedPolicies (features aliases : List String) : List Placed :=
  features.flatMap d.featurePolicies ++ aliases.flatMap d.typePolicies

def coreAliases : List String → List String
  | [] => []
  | identity :: rest =>
    identity :: if (d.typeOf identity).any isCoreAlias then coreAliases rest else []

end Document

theorem exists_followed {a : String} {r : Resolved} (h : d.resolve a = some r) :
    ∃ features aliases, Followed d a features aliases := by
  rcases resolve_iff.1 h with ⟨hc, hlast, hscalar, -⟩ | ⟨hc, hlast, hplain, hca, -, -, hend⟩
  · rename_i features last scalar
    rw [← List.dropLast_append_getLast? last hlast] at hc
    exact ⟨_, [], .scalar hc (by rw [hscalar]; rfl)⟩
  · rename_i features aliases last
    rw [← List.dropLast_append_getLast? last hlast] at hc
    exact ⟨_, aliases, .along hc hplain hca (by rw [hend]; rfl)⟩

theorem Followed.unique {a : String} {features features' aliases aliases' : List String}
    (h : Followed d a features aliases) (h' : Followed d a features' aliases') :
    features = features' ∧ aliases = aliases' := by
  cases h with
  | scalar hc hscalar =>
    cases h' with
    | scalar hc' _ => exact ⟨(List.append_inj' (hc.unique hc') rfl).1, rfl⟩
    | along hc' hplain _ _ =>
      have hlast := (List.append_inj' (hc.unique hc') rfl).2
      rw [List.cons.injEq] at hlast
      rw [hlast.1, hplain.notNative] at hscalar
      cases hscalar
  | along hc hplain hca _ =>
    cases h' with
    | scalar hc' hscalar =>
      have hlast := (List.append_inj' (hc.unique hc') rfl).2
      rw [List.cons.injEq] at hlast
      rw [← hlast.1, hplain.notNative] at hscalar
      cases hscalar
    | along hc' _ hca' _ =>
      obtain ⟨hfeatures, hlast⟩ := List.append_inj' (hc.unique hc') rfl
      rw [List.cons.injEq] at hlast
      rw [hlast.1] at hca
      exact ⟨hfeatures, hca.unique hca'⟩

theorem placedTypeOf_node (identity : String) :
    (d.placedTypeOf identity).map Placed.node = d.typeOf identity := by
  have hplaced : ∀ position : ℕ, (d.placedTypes[position]?).map Placed.node =
      d.types[position]? := by
    intro position
    rw [← List.getElem?_map, placedTypes_nodes]
  unfold Document.placedTypeOf
  rw [Option.map_bind]
  cases htype : d.typeOf identity with
  | some definition =>
    obtain ⟨position, hposition, hget⟩ := position_of_typeOf htype
    rw [hposition, Option.bind_some, Function.comp, hplaced, hget]
  | none =>
    have hnone : d.byPosition identity = none := by
      unfold Document.byPosition
      rw [List.findIdx?_eq_none_iff]
      unfold Document.typeOf at htype
      rw [List.find?_eq_none] at htype
      exact fun x hx => Bool.eq_false_iff.2 (htype x hx)
    rw [hnone]
    rfl

theorem coreAliases_policies (aliases : List String) (policies : String → List Placed) :
    (d.coreAliases aliases).flatMap policies = aliases.flatMap policies ↔
      ∀ before x rest, aliases = before ++ x :: rest →
        (d.typeOf x).any Document.isCoreAlias = false → rest.flatMap policies = [] := by
  induction aliases with
  | nil => simp [Document.coreAliases]
  | cons y aliases ih =>
    rw [Document.coreAliases, List.flatMap_cons, List.flatMap_cons, List.append_cancel_left_eq]
    cases hcore : (d.typeOf y).any Document.isCoreAlias with
    | true =>
      rw [if_pos rfl, ih]
      constructor
      · intro h before x rest heq hx
        cases before with
        | nil =>
          obtain ⟨rfl, -⟩ := List.cons.inj heq
          rw [hcore] at hx
          cases hx
        | cons z before => exact h before x rest (List.cons.inj heq).2 hx
      · intro h before x rest heq hx
        exact h (y :: before) x rest (by rw [heq, List.cons_append]) hx
    | false =>
      rw [if_neg Bool.false_ne_true, List.flatMap_nil]
      constructor
      · intro h before x rest heq _
        cases before with
        | nil => rw [← (List.cons.inj heq).2, ← h]
        | cons z before =>
          have htail : aliases = before ++ x :: rest := (List.cons.inj heq).2
          rw [htail, List.flatMap_append, List.flatMap_cons] at h
          exact (List.append_eq_nil_iff.1 (List.append_eq_nil_iff.1 h.symm).2).2
      · intro h
        exact (h [] y aliases rfl hcore).symm

/-! ### The walk against the resolver -/

theorem policyStep_native {a : String} (h : (nativeScalar a).isSome) : d.policyStep a = none := by
  unfold Document.policyStep
  rw [if_pos h]

theorem policyStep_feature {a b : String} (h : d.nextFeature a = some b) : ∃ field,
    d.fieldOf a = some field ∧ d.policyStep a = some (field, some b) := by
  unfold Document.nextFeature at h
  split at h
  · cases h
  · rename_i hspecial
    obtain ⟨field, hfield, htype⟩ := Option.bind_eq_some_iff.1 h
    unfold Document.policyStep
    rw [if_neg fun hn => hspecial (.inr hn)]
    simp only [hfield, htype]
    exact ⟨field, rfl, rfl⟩

theorem policyStep_plain {a : String} (hplain : Plain d a) {current : Json}
    (htype : d.typeOf a = some current) : ∃ placed, d.typePolicies a = Document.ownPolicy placed ∧
      d.policyStep a =
        if Document.isCoreAlias current then
          (current.getStr "target").map fun target => (placed, some target)
        else some (placed, none) := by
  have hnode := placedTypeOf_node (d := d) a
  rw [htype] at hnode
  obtain ⟨placed, hplaced, rfl⟩ := Option.map_eq_some_iff.1 hnode
  refine ⟨placed, by simp [Document.typePolicies, hplaced], ?_⟩
  unfold Document.policyStep
  rw [if_neg (by simp [hplain.notNative])]
  simp only [hplain.notFeature, hplaced, Option.bind_some]

theorem policiesOn_cons {a : String} {placed : Placed} {next : Option String}
    (hstep : d.policyStep a = some (placed, next)) (path : List String) :
    d.policiesOn (a :: path) = Document.ownPolicy placed ++ d.policiesOn path := by
  rw [Document.policiesOn, List.flatMap_cons, hstep, ← Document.policiesOn]
  simp

theorem coreAlias_isAlias {definition : Json} (h : Document.isCoreAlias definition = true) :
    d.isAlias definition = true := by
  rw [Document.isAlias, h, Bool.true_or]

theorem policies_aliases {a : String} {aliases : List String} (hc : Chain d.nextAlias a aliases)
    (hplain : Plain d a) (hend : (aliases.getLast?.bind d.aliasEnd).isSome)
    (hfeatures : ∀ x ∈ aliases.tail, d.fieldOf x = none) : ∃ path,
      Chain d.nextPolicy a path ∧
        d.policiesOn path = (d.coreAliases aliases).flatMap d.typePolicies := by
  induction hc with
  | @stop a hn =>
    obtain ⟨r, hr⟩ := Option.isSome_iff_exists.1 hend
    rw [List.getLast?_singleton, Option.bind_some, Document.aliasEnd] at hr
    obtain ⟨current, htype, hr⟩ := Option.bind_eq_some_iff.1 hr
    obtain ⟨placed, hpolicies, hstep⟩ := policyStep_plain hplain htype
    have hone : (d.coreAliases [a]).flatMap d.typePolicies = Document.ownPolicy placed := by
      rw [Document.coreAliases, Document.coreAliases, ite_self, List.flatMap_singleton, hpolicies]
    rw [hone]
    cases hcore : Document.isCoreAlias current with
    | true =>
      rw [coreAlias_isAlias hcore, if_pos rfl] at hr
      obtain ⟨scalar, hscalar, -⟩ := Option.map_eq_some_iff.1 hr
      obtain ⟨target, htarget, hscalar⟩ := Option.bind_eq_some_iff.1 hscalar
      rw [hcore, if_pos rfl, htarget, Option.map_some] at hstep
      have hnative : d.policyStep target = none := policyStep_native (by rw [hscalar]; rfl)
      refine ⟨[a, target], .step (by rw [Document.nextPolicy, hstep]; rfl)
        (.stop (by rw [Document.nextPolicy, hnative]; rfl)), ?_⟩
      rw [policiesOn_cons hstep, Document.policiesOn, List.flatMap_singleton, hnative]
      simp
    | false =>
      rw [hcore, if_neg Bool.false_ne_true] at hstep
      refine ⟨[a], .stop (by rw [Document.nextPolicy, hstep]; rfl), ?_⟩
      rw [policiesOn_cons hstep]
      exact List.append_nil _
  | @step a b rest hs hrest ih =>
    obtain ⟨current, htype, -, htarget, hclock, hnative⟩ := nextAlias_eq_some.1 hs
    obtain ⟨placed, hpolicies, hstep⟩ := policyStep_plain hplain htype
    obtain ⟨rest', rfl⟩ := hrest.head
    rw [Document.coreAliases, htype, Option.any_some, List.flatMap_cons, hpolicies]
    cases hcore : Document.isCoreAlias current with
    | true =>
      rw [hcore, if_pos rfl, htarget, Option.map_some] at hstep
      obtain ⟨path, hpath, hon⟩ := ih
        ⟨hclock, hnative, hfeatures b (List.mem_cons_self ..)⟩
        (by rwa [List.getLast?_cons_cons] at hend)
        fun x hx => hfeatures x (List.mem_cons_of_mem _ hx)
      refine ⟨a :: path, .step (by rw [Document.nextPolicy, hstep]; rfl) hpath, ?_⟩
      rw [policiesOn_cons hstep, hon, if_pos rfl]
    | false =>
      rw [hcore, if_neg Bool.false_ne_true] at hstep
      refine ⟨[a], .stop (by rw [Document.nextPolicy, hstep]; rfl), ?_⟩
      rw [policiesOn_cons hstep, if_neg Bool.false_ne_true]
      rfl

theorem policies_features {a last : String} {features path : List String}
    (hc : Chain d.nextFeature a (features ++ [last])) (hpath : Chain d.nextPolicy last path) :
    Chain d.nextPolicy a (features ++ path) ∧
      d.policiesOn (features ++ path) =
        features.flatMap d.featurePolicies ++ d.policiesOn path := by
  induction features generalizing a with
  | nil =>
    obtain ⟨rest, heq⟩ := hc.head
    rw [List.nil_append, List.cons.injEq] at heq
    rw [← heq.1]
    exact ⟨hpath, rfl⟩
  | cons x features ih =>
    obtain ⟨rest, heq⟩ := hc.head
    rw [List.cons_append, List.cons.injEq] at heq
    obtain ⟨rfl, -⟩ := heq
    have hnext := @Chain.next_isSome _ _ _ _ [] _ _ hc rfl
    obtain ⟨b, hb⟩ : ∃ b, (features ++ [last]).head? = some b := by
      cases features with
      | nil => exact ⟨last, rfl⟩
      | cons y features => exact ⟨y, rfl⟩
    obtain ⟨rest, heq, hrest⟩ := (chain_next (hnext.trans hb)).1 hc
    obtain rfl := (List.cons.inj heq).2
    obtain ⟨field, hfield, hstep⟩ := policyStep_feature (hnext.trans hb)
    obtain ⟨hwhole, hon⟩ := ih hrest
    refine ⟨.step (by rw [Document.nextPolicy, hstep]; rfl) hwhole, ?_⟩
    rw [List.cons_append, policiesOn_cons hstep, hon, List.flatMap_cons, List.append_assoc]
    simp [Document.featurePolicies, hfield]

theorem Followed.policies {a : String} {features aliases : List String}
    (h : Followed d a features aliases) (hfeatures : ∀ x ∈ aliases.tail, d.fieldOf x = none) :
    ∃ path, Chain d.nextPolicy a path ∧ d.policiesOn path =
      features.flatMap d.featurePolicies ++ (d.coreAliases aliases).flatMap d.typePolicies := by
  cases h with
  | @scalar last hc hscalar =>
    have hnative : d.policyStep last = none := policyStep_native hscalar
    obtain ⟨hwhole, hon⟩ := policies_features hc
      (.stop (by rw [Document.nextPolicy, hnative]; rfl))
    refine ⟨_, hwhole, ?_⟩
    rw [hon, Document.policiesOn, List.flatMap_singleton, hnative]
    rfl
  | along hc hplain hca hend =>
    obtain ⟨path, hpath, hon⟩ := policies_aliases hca hplain hend hfeatures
    obtain ⟨hwhole, hwholeOn⟩ := policies_features hc hpath
    exact ⟨_, hwhole, by rw [hwholeOn, hon]⟩

theorem coreAliases_prefix (aliases : List String) : d.coreAliases aliases <+: aliases := by
  induction aliases with
  | nil => exact List.prefix_rfl
  | cons x aliases ih =>
    rw [Document.coreAliases]
    split
    · exact List.cons_prefix_cons.2 ⟨rfl, ih⟩
    · exact List.cons_prefix_cons.2 ⟨rfl, List.nil_prefix⟩

/-- The aliases that the walk and the resolver go over alike: no target names a feature, and past
the first alias that is no core alias no node carries a policy. -/
structure FollowedAlike (d : Document) (aliases : List String) : Prop where
  features : ∀ x ∈ aliases.tail, d.fieldOf x = none
  policies : ∀ before x rest, aliases = before ++ x :: rest →
    (d.typeOf x).any Document.isCoreAlias = false → rest.flatMap d.typePolicies = []

theorem FollowedAlike.suffix {a : String} {features aliases : List String}
    (h : FollowedAlike d aliases) (hf : Followed d a features aliases) :
    d.decimalPolicySuffix a = d.followedPolicies features aliases := by
  obtain ⟨path, hc, hon⟩ := hf.policies h.features
  rw [decimalPolicySuffix_chain hc, hon, (coreAliases_policies aliases _).2 h.policies,
    Document.followedPolicies]

/-- The policies of a position: its owner's beside those gone over from its reference, unless the
owner is where they end. -/
def Document.positionPolicies (owner : Placed) (policies : List Placed) : List Placed :=
  if policies.getLast?.any fun first => first.pointer == owner.pointer then policies
  else ownPolicy owner ++ policies

def aliasedDecimal (kind : Json) : Document where
  bundle := .null
  ir := .object [("constructs", .array [.object [
    ("kind", .object [("module", .str "acme"), ("name", .str "renaming")]),
    ("construct", .object [("shape", .str "alias")])]])]
  types := [
    .object [("identity", .str "ix://acme/pkg/A"), ("kind", kind),
      ("target", .str "ix://acme/pkg/B")],
    .object [("identity", .str "ix://acme/pkg/B"), ("kind", .str "alias"),
      ("target", .str "ix://quire/native/Decimal"),
      ("decimal", .object [("precision", .number ⟨"18", by decide +kernel⟩),
        ("scale", .number ⟨"2", by decide +kernel⟩)])]]
  aliasDepth := none

def coreDecimal : Document := aliasedDecimal (.str "alias")

def constructDecimal : Document :=
  aliasedDecimal (.object [("module", .str "acme"), ("name", .str "renaming")])

theorem followed_pair {d : Document} {a b : String} (ha : Plain d a)
    (hab : d.nextAlias a = some b) (hb : d.nextAlias b = none) (hend : (d.aliasEnd b).isSome) :
    Followed d a [] [a, b] :=
  .along (.stop ha.nextFeature) ha (.step hab (.stop hb)) hend

theorem constructDecimal_followed :
    Followed constructDecimal "ix://acme/pkg/A" [] ["ix://acme/pkg/A", "ix://acme/pkg/B"] := by
  refine followed_pair ⟨by decide, by decide, ?_⟩ (by decide +kernel) (by decide +kernel)
    (by decide +kernel)
  exact Option.isNone_iff_eq_none.1 (by decide +kernel)

theorem coreDecimal_followed :
    Followed coreDecimal "ix://acme/pkg/A" [] ["ix://acme/pkg/A", "ix://acme/pkg/B"] := by
  refine followed_pair ⟨by decide, by decide, ?_⟩ (by decide +kernel) (by decide +kernel)
    (by decide +kernel)
  exact Option.isNone_iff_eq_none.1 (by decide +kernel)

end FilamentCore.SemanticIr
