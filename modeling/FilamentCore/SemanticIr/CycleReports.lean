import FilamentCore.Library.KeyedList
import FilamentCore.SemanticIr.GraphCycles

/-!
# What the cycle rules report (crates/semantic-ir/src/rules.rs)

`composite_graph` and `package_cycle` walk a list of nodes whose edges are names: a name leads
to the first node that has it. A cycle is reported when there is one among all the nodes, and
the order they are listed in does not matter as long as no name is given twice.
-/

namespace FilamentCore.SemanticIr

namespace Rules

/-! ### Nodes that name each other -/

section Named

variable (name : Json → Option String) (targets : Json → List (Option String)) (items : List Json)

def namedEdges (node : ℕ) : List (Option ℕ) :=
  (((items[node]?).map targets).getD []).map fun target =>
    target.bind fun t => items.findIdx? fun item => name item == some t

/-- A node of one name lists another, which is the name of a node. -/
def Names (a b : String) : Prop :=
  ∃ x ∈ items, name x = some a ∧ some b ∈ targets x ∧ ∃ y ∈ items, name y = some b

variable {name targets items}

theorem leads_named {i j : ℕ} : Leads (namedEdges name targets items) i j ↔
    ∃ x t, items[i]? = some x ∧ some t ∈ targets x ∧
      items.findIdx? (fun item => name item == some t) = some j := by
  unfold Leads namedEdges
  cases hx : items[i]? with
  | none => simp
  | some x =>
    simp only [Option.map_some, Option.getD_some, List.mem_map, Option.some.injEq,
      exists_and_left, exists_eq_left']
    constructor
    · rintro ⟨target, ht, hj⟩
      obtain ⟨t, rfl, hj⟩ := Option.bind_eq_some_iff.1 hj
      exact ⟨t, ht, hj⟩
    · rintro ⟨t, ht, hj⟩
      exact ⟨some t, ht, hj⟩

theorem leads_named_lt {i j : ℕ} (h : Leads (namedEdges name targets items) i j) :
    j < items.length := by
  obtain ⟨x, t, -, -, hj⟩ := leads_named.1 h
  exact (List.findIdx?_eq_some_iff_getElem.1 hj).1

/-- The node at a place has a name. -/
def Named (name : Json → Option String) (items : List Json) (i : ℕ) (s : String) : Prop :=
  ∃ x, items[i]? = some x ∧ name x = some s

theorem named_of_findIdx {i : ℕ} {s : String}
    (h : items.findIdx? (fun item => name item == some s) = some i) : Named name items i s := by
  obtain ⟨hlt, hname, -⟩ := List.findIdx?_eq_some_iff_getElem.1 h
  exact ⟨items[i], List.getElem?_eq_getElem hlt, by simpa using hname⟩

theorem Named.unique {i : ℕ} {s t : String} (hs : Named name items i s)
    (ht : Named name items i t) : s = t := by
  obtain ⟨x, hx, hs⟩ := hs
  obtain ⟨y, hy, ht⟩ := ht
  rw [hx, Option.some.injEq] at hy
  rw [← hy, hs, Option.some.injEq] at ht
  exact ht

theorem names_of_leads {i j : ℕ} (h : Relation.TransGen (Leads (namedEdges name targets items)) i j)
    {s : String} (hs : Named name items i s) :
    ∃ t, Named name items j t ∧ Relation.TransGen (Names name targets items) s t := by
  have hstep : ∀ {i j : ℕ} {s : String}, Leads (namedEdges name targets items) i j →
      Named name items i s → ∃ t, Named name items j t ∧ Names name targets items s t := by
    intro i j s h hs
    obtain ⟨x, t, hx, ht, hj⟩ := leads_named.1 h
    obtain ⟨x', hx', hname⟩ := hs
    rw [hx, Option.some.injEq] at hx'
    obtain ⟨y, hy, hnamey⟩ := named_of_findIdx hj
    exact ⟨t, ⟨y, hy, hnamey⟩, x, List.mem_of_getElem? hx, hx' ▸ hname, ht, y,
      List.mem_of_getElem? hy, hnamey⟩
  induction h with
  | single h =>
    obtain ⟨t, hj, ht⟩ := hstep h hs
    exact ⟨t, hj, .single ht⟩
  | tail _ h ih =>
    obtain ⟨u, hu, hsu⟩ := ih
    obtain ⟨t, hj, ht⟩ := hstep h hu
    exact ⟨t, hj, hsu.tail ht⟩

theorem findIdx_of_distinct (hd : (items.filterMap name).Nodup) {i : ℕ} {x : Json} {s : String}
    (hx : items[i]? = some x) (hs : name x = some s) :
    items.findIdx? (fun item => name item == some s) = some i := by
  obtain ⟨hlt, rfl⟩ := List.getElem?_eq_some_iff.1 hx
  rw [List.findIdx?_eq_some_iff_getElem]
  refine ⟨hlt, by simpa using hs, fun j hj heq => ?_⟩
  rw [List.Nodup, List.pairwise_filterMap, List.pairwise_iff_getElem] at hd
  exact hd j i (hj.trans hlt) hlt hj s (by simpa using heq) s hs rfl

theorem cycle_iff_names (hd : (items.filterMap name).Nodup) :
    (∃ i, Relation.TransGen (Leads (namedEdges name targets items)) i i) ↔
      ∃ s, Relation.TransGen (Names name targets items) s s := by
  constructor
  · rintro ⟨i, hi⟩
    obtain ⟨j, -, hlast⟩ := Relation.TransGen.tail'_iff.1 hi
    obtain ⟨x, t, -, -, hfound⟩ := leads_named.1 hlast
    have ht := named_of_findIdx hfound
    obtain ⟨u, hu, htu⟩ := names_of_leads hi ht
    exact ⟨t, hu.unique ht ▸ htu⟩
  · rintro ⟨s, hs⟩
    let place := fun s => (items.findIdx? fun item => name item == some s).getD 0
    have hplace : ∀ {s : String} {i : ℕ} {x : Json}, items[i]? = some x → name x = some s →
        place s = i := by
      intro s i x hx hname
      show (items.findIdx? fun item => name item == some s).getD 0 = i
      rw [findIdx_of_distinct hd hx hname, Option.getD_some]
    refine ⟨place s, hs.lift place fun a b hab => ?_⟩
    obtain ⟨x, hx, ha, hb, y, hy, hname⟩ := hab
    obtain ⟨i, hi⟩ := List.mem_iff_getElem?.1 hx
    obtain ⟨j, hj⟩ := List.mem_iff_getElem?.1 hy
    show Leads (namedEdges name targets items) (place a) (place b)
    rw [hplace hi ha, hplace hj hname]
    exact leads_named.2 ⟨x, b, hi, hb, findIdx_of_distinct hd hj hname⟩

theorem names_congr {items' : List Json}
    (h : ∀ x ∈ items, ∃ y ∈ items', name y = name x ∧ ∀ t, t ∈ targets x → t ∈ targets y)
    {a b : String} (hab : Names name targets items a b) : Names name targets items' a b := by
  obtain ⟨x, hx, ha, hb, y, hy, hname⟩ := hab
  obtain ⟨x', hx', hxname, hxtargets⟩ := h x hx
  obtain ⟨y', hy', hyname, -⟩ := h y hy
  exact ⟨x', hx', hxname.trans ha, hxtargets _ hb, y', hy', hyname.trans hname⟩

end Named

/-- The same nodes in another order, each with a member listed in another order. -/
def Reordered (member : String) (items items' : List Json) : Prop :=
  ∃ shuffled, items.Perm shuffled ∧ List.Forall₂ (fun x y =>
    y.get "identity" = x.get "identity" ∧ (x.members member).Perm (y.members member))
    shuffled items'

section Order

variable {name : Json → Option String} {targets : Json → List (Option String)}
variable {member : String} {items items' : List Json}

theorem Reordered.names_perm (h : Reordered member items items')
    (hname : ∀ x y : Json, y.get "identity" = x.get "identity" → name y = name x) :
    (items.filterMap name).Perm (items'.filterMap name) := by
  obtain ⟨shuffled, hperm, hsame⟩ := h
  refine (hperm.filterMap name).trans (List.Perm.of_eq ?_)
  clear hperm
  induction hsame with
  | nil => rfl
  | cons hxy _ ih => rw [List.filterMap_cons, List.filterMap_cons, hname _ _ hxy.1, ih]

theorem Reordered.cycle_iff (h : Reordered member items items')
    (hname : ∀ x y : Json, y.get "identity" = x.get "identity" → name y = name x)
    (htargets : ∀ x y : Json, (x.members member).Perm (y.members member) →
      (targets x).Perm (targets y))
    (hd : (items.filterMap name).Nodup) :
    (∃ i, Relation.TransGen (Leads (namedEdges name targets items)) i i) ↔
      ∃ i, Relation.TransGen (Leads (namedEdges name targets items')) i i := by
  rw [cycle_iff_names hd, cycle_iff_names ((h.names_perm hname).nodup_iff.1 hd)]
  obtain ⟨shuffled, hperm, hsame⟩ := h
  have hto : ∀ x ∈ items, ∃ y ∈ items', name y = name x ∧ ∀ t, t ∈ targets x → t ∈ targets y := by
    intro x hx
    obtain ⟨y, hy, hid, hmember⟩ := Library.Related.exists_right hsame (hperm.mem_iff.1 hx)
    exact ⟨y, hy, hname x y hid, fun t ht => (htargets x y hmember).mem_iff.1 ht⟩
  have hfrom : ∀ y ∈ items', ∃ x ∈ items, name x = name y ∧ ∀ t, t ∈ targets y → t ∈ targets x := by
    intro y hy
    obtain ⟨x, hx, hid, hmember⟩ := Library.Related.exists_left hsame hy
    exact ⟨x, hperm.mem_iff.2 hx, (hname x y hid).symm,
      fun t ht => (htargets x y hmember).mem_iff.2 ht⟩
  have hrel : Names name targets items = Names name targets items' := by
    funext a b
    exact propext ⟨names_congr hto, names_congr hfrom⟩
  rw [hrel]

end Order

/-! ### Composite relationships -/

variable (d : Document)

/-- The relationship at `member` of the type at `a` is composite and leads to the type
at `b`. -/
def ContainsBy (a member b : ℕ) : Prop :=
  ∃ definition relationship target, d.types[a]? = some definition ∧
    (definition.members "relationships")[member]? = some relationship ∧
    relationship.getBool "composite" = some true ∧
    endType relationship "targetEnd" = some target ∧ d.byPosition target = some b

def Contains (a b : ℕ) : Prop := ∃ member, ContainsBy d a member b

def compositeTarget (relationship : Json) : Option String :=
  if relationship.getBool "composite" = some true then endType relationship "targetEnd" else none

def compositeTargets (definition : Json) : List (Option String) :=
  (definition.members "relationships").map compositeTarget

theorem compositeEdges_eq :
    compositeEdges d = namedEdges (·.getStr "identity") compositeTargets d.types := by
  funext node
  unfold compositeEdges namedEdges compositeTargets
  cases d.types[node]? with
  | none => rfl
  | some definition =>
    simp only [Option.map_some, Option.getD_some, List.map_map]
    refine List.map_congr_left fun relationship _ => ?_
    rw [Function.comp_apply, compositeTarget]
    split <;> rfl

theorem containsBy_iff {a member b : ℕ} :
    ContainsBy d a member b ↔ (compositeEdges d a)[member]? = some (some b) := by
  unfold ContainsBy compositeEdges
  cases d.types[a]? with
  | none => simp
  | some definition =>
    simp only [Option.map_some, Option.getD_some, List.getElem?_map, Option.some.injEq,
      exists_and_left, exists_eq_left']
    cases hr : (definition.members "relationships")[member]? with
    | none => simp
    | some relationship =>
      by_cases hc : relationship.getBool "composite" = some true
      · simp [hc, Option.bind_eq_some_iff]
      · simp [hc]

theorem contains_eq : Contains d = Leads (compositeEdges d) := by
  funext a b
  refine propext ?_
  unfold Contains Leads
  rw [List.mem_iff_getElem?]
  exact exists_congr fun member => containsBy_iff d

theorem compositeEdges_lt {a b : ℕ} (h : Leads (compositeEdges d) a b) : b < d.types.length := by
  rw [compositeEdges_eq] at h
  exact leads_named_lt h

def compositePointer (a member : ℕ) : String :=
  child (child (index (child (index "/ir/types" a) "relationships") member) "targetEnd") "type"

theorem compositeGraph_ne_nil :
    compositeGraph d ≠ [] ↔ ∃ a, Relation.TransGen (Contains d) a a := by
  have hsome := graphCycle_isSome fun a b => compositeEdges_lt d (a := a) (b := b)
  rw [contains_eq, ← hsome, compositeGraph]
  cases graphCycle (compositeEdges d) d.types.length with
  | none => simp
  | some found => simp

theorem compositeGraph_pointer {issue : Issue} (h : issue ∈ compositeGraph d) :
    ∃ a member b, issue.pointer = compositePointer a member ∧ issue.code = .compositeCycle ∧
      ContainsBy d a member b ∧ Relation.ReflTransGen (Contains d) b a := by
  unfold compositeGraph at h
  cases hfound : graphCycle (compositeEdges d) d.types.length with
  | none =>
    rw [hfound] at h
    cases h
  | some found =>
    rw [hfound] at h
    obtain ⟨b, hb, hr⟩ := graphCycle_onCycle (fun a b => compositeEdges_lt d) hfound
    obtain rfl := List.mem_singleton.1 h
    refine ⟨found.1, found.2, b, rfl, rfl, (containsBy_iff d).2 hb, ?_⟩
    rwa [contains_eq]

/-! ### Package imports -/

/-- The package at `a` imports the one at `b`, the first that has the name it imports. -/
def Imports (graph : Json) (a b : ℕ) : Prop :=
  ∃ package dependency, (graph.members "packages")[a]? = some package ∧
    Json.str dependency ∈ package.members "imports" ∧
    (graph.members "packages").findIdx?
      (fun other => (identityOf other).getD "" == dependency) = some b

/-- A package that has no identity is looked up by the empty text. -/
def packageName (package : Json) : Option String := some ((identityOf package).getD "")

def packageTargets (package : Json) : List (Option String) :=
  (package.members "imports").map Json.asStr

theorem packageEdges_eq (packages : List Json) :
    packageEdges packages = namedEdges packageName packageTargets packages := by
  funext node
  unfold packageEdges namedEdges packageTargets
  cases packages[node]? with
  | none => rfl
  | some package =>
    simp only [Option.map_some, Option.getD_some, List.map_map]
    refine List.map_congr_left fun dependency _ => ?_
    simp only [Function.comp_apply, packageName, Option.some_beq_some]

theorem imports_eq (graph : Json) :
    Imports graph = Leads (packageEdges (graph.members "packages")) := by
  funext a b
  refine propext ?_
  rw [packageEdges_eq, leads_named]
  unfold Imports packageName packageTargets
  simp only [Option.some_beq_some, List.mem_map, Json.asStr_eq_some, exists_eq_right]

theorem packageEdges_lt {packages : List Json} {a b : ℕ} (h : Leads (packageEdges packages) a b) :
    b < packages.length := by
  rw [packageEdges_eq] at h
  exact leads_named_lt h

theorem packageCycle_isSome (graph : Json) :
    (packageCycle graph).isSome ↔ ∃ a, Relation.TransGen (Imports graph) a a := by
  rw [imports_eq, packageCycle, Option.isSome_map]
  exact graphCycle_isSome fun a b => packageEdges_lt

theorem packageCycle_pointer {graph : Json} {pointer : String}
    (h : packageCycle graph = some pointer) :
    ∃ a b, pointer = child (index "/packageGraph/packages" a) "imports" ∧ Imports graph a b ∧
      Relation.ReflTransGen (Imports graph) b a := by
  obtain ⟨found, hfound, rfl⟩ := Option.map_eq_some_iff.1 h
  obtain ⟨b, hb, hr⟩ := graphCycle_onCycle (fun a b => packageEdges_lt) hfound
  rw [imports_eq]
  exact ⟨found.1, b, rfl, List.mem_of_getElem? hb, hr⟩

/-! ### What is reported -/

def identities (items : List Json) : List String := items.filterMap (·.getStr "identity")

theorem compositeGraph_reordered {d' : Document} (h : Reordered "relationships" d.types d'.types)
    (hd : (identities d.types).Nodup) : compositeGraph d ≠ [] ↔ compositeGraph d' ≠ [] := by
  rw [compositeGraph_ne_nil, compositeGraph_ne_nil, contains_eq, contains_eq, compositeEdges_eq,
    compositeEdges_eq]
  refine h.cycle_iff (fun x y hid => ?_) (fun x y hperm => hperm.map _) hd
  rw [Json.getStr, Json.getStr, hid]

theorem packageCycle_reordered {graph graph' : Json}
    (h : Reordered "imports" (graph.members "packages") (graph'.members "packages"))
    (hd : ((graph.members "packages").filterMap packageName).Nodup) :
    (packageCycle graph).isSome ↔ (packageCycle graph').isSome := by
  rw [packageCycle_isSome, packageCycle_isSome, imports_eq, imports_eq, packageEdges_eq,
    packageEdges_eq]
  refine h.cycle_iff (fun x y hid => ?_) (fun x y hperm => hperm.map _) hd
  rw [packageName, packageName, identityOf, identityOf, Json.getStr, Json.getStr, hid]

/-- A composite cycle is reported when the types have one, at a relationship of it, and a package
cycle when the packages have one, at the imports of a package on it. Neither depends on the order
of the nodes or of what they list while no identity is declared twice. -/
theorem cycles_reported :
    (∀ d : Document,
      (compositeGraph d ≠ [] ↔ ∃ a, Relation.TransGen (Contains d) a a) ∧
      (∀ issue ∈ compositeGraph d, ∃ a member b, issue.pointer = compositePointer a member ∧
        issue.code = .compositeCycle ∧ ContainsBy d a member b ∧
          Relation.ReflTransGen (Contains d) b a) ∧
      ∀ d' : Document, Reordered "relationships" d.types d'.types → (identities d.types).Nodup →
        (compositeGraph d ≠ [] ↔ compositeGraph d' ≠ [])) ∧
    ∀ graph : Json,
      ((packageCycle graph).isSome ↔ ∃ a, Relation.TransGen (Imports graph) a a) ∧
      (∀ pointer, packageCycle graph = some pointer →
        ∃ a b, pointer = child (index "/packageGraph/packages" a) "imports" ∧ Imports graph a b ∧
          Relation.ReflTransGen (Imports graph) b a) ∧
      ∀ graph' : Json, Reordered "imports" (graph.members "packages") (graph'.members "packages") →
        ((graph.members "packages").filterMap packageName).Nodup →
          ((packageCycle graph).isSome ↔ (packageCycle graph').isSome) :=
  ⟨fun d => ⟨compositeGraph_ne_nil d, fun _ => compositeGraph_pointer d,
      fun _ => compositeGraph_reordered d⟩,
    fun graph => ⟨packageCycle_isSome graph, fun _ => packageCycle_pointer,
      fun _ => packageCycle_reordered⟩⟩

/-- A type with one composite relationship. -/
def part (identity target : String) : Json :=
  .object [("identity", .str identity), ("relationships", .array [.object
    [("composite", .bool true), ("targetEnd", .object [("type", .str target)])]])]

def listing (types : List Json) : Document :=
  { bundle := .object [], ir := .object [], types := types, aliasDepth := none }

def twoParts : List Json := [part "x/a" "x/b", part "x/b" "x/a"]

theorem cycles_reported_twoParts : compositeGraph (listing twoParts.reverse) ≠ [] := by
  have horder := (cycles_reported.1 (listing twoParts)).2.2 (listing twoParts.reverse)
    ⟨twoParts.reverse, (List.reverse_perm _).symm,
      List.forall₂_same.2 fun x _ => ⟨rfl, List.Perm.refl _⟩⟩ (by decide)
  exact horder.1 (by decide)

def packageNode (identity : String) (imports : List String) : Json :=
  .object [("identity", .str identity), ("imports", .array (imports.map Json.str))]

/-- The root package imports nothing, and two others import each other. -/
def strayCycle : Json :=
  .object [("rootPackage", .str "x/a"), ("packages", .array
    [packageNode "x/a" [], packageNode "x/b" ["x/c"], packageNode "x/c" ["x/b"]])]

def rootPosition (graph : Json) : Option ℕ :=
  (graph.getStr "rootPackage").bind fun root =>
    (graph.members "packages").findIdx? fun package => packageName package == some root

/-- Types that declare one identity are reported in one order and not in the other; a package
cycle the root does not reach is reported. -/
theorem cycles_order_root :
    (compositeGraph (listing [part "x/a" "x/a", part "x/a" "x/b"]) ≠ [] ∧
      compositeGraph (listing [part "x/a" "x/b", part "x/a" "x/a"]) = []) ∧
    (packageCycle strayCycle).isSome ∧ rootPosition strayCycle = some 0 ∧
      ∀ a, Relation.ReflTransGen (Imports strayCycle) 0 a →
        ¬ Relation.TransGen (Imports strayCycle) a a := by
  have hnone : ∀ b, ¬ Imports strayCycle 0 b := by
    rintro b ⟨package, dependency, hp, hd, -⟩
    have hroot : package = packageNode "x/a" [] := (Option.some.inj hp).symm
    rw [hroot] at hd
    cases hd
  refine ⟨⟨by decide, by decide⟩, by decide, by decide, fun a ha hc => ?_⟩
  rcases Relation.ReflTransGen.cases_head ha with rfl | ⟨b, hb, -⟩
  · obtain ⟨b, hb, -⟩ := Relation.TransGen.head'_iff.1 hc
    exact hnone b hb
  · exact hnone b hb

end Rules
end FilamentCore.SemanticIr
