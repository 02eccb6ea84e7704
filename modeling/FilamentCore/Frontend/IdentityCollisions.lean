import FilamentCore.Frontend.Constraints
import FilamentCore.Frontend.LiftNormalForm
import FilamentCore.SemanticIr.Identities

/-!
# Colliding identities (crates/extraction-frontend/src/{lower,identity,envelope}.rs)

`identity_collisions` walks the lowered types before they are assembled. The reader walks the document
they are assembled to, where the node lists are sorted. What the second walk finds twice, the first has
found twice.
-/

namespace FilamentCore.Frontend.Document.Collisions
open FilamentCore.SemanticIr
open FilamentCore.SemanticIr.Json
open FilamentCore.Frontend.Constraints (PackageIdentity Reported Unsluggable idSegment slug join
  asciiUpper)

/-! ### Minted identities -/

def memberSegment (name : String) : Except Unsluggable String :=
  if startsAndRuns isAlpha (fun c => isAlphanumeric c || c == '_') name.toList then .ok name
  else .error ⟨name, .memberName⟩

/-- A character is its own upper case unless it is a lower case letter: a slug is ASCII. -/
def capitalizedSlug (field : String) : Except Unsluggable String := do
  match (← slug field).toList with
  | c :: rest => return String.ofList (asciiUpper c :: rest)
  | [] => return ""

/-- The names that a node of each kind takes its identity from. -/
inductive Source where
  | definition (id : String)
  | alias' (id field : String)
  | constraint (record field keyword : String)
  | typeConstraint (id keyword : String)
  | relationship (record verb target : String)
  | variant (enumeration value : String)
  | member (owner name : String)
  | param (record operation name : String)
  | transition (machine : String) (position : ℕ)

section Minting

variable (p : PackageIdentity)

def typeIdentity (id : String) : Except Unsluggable String := do
  return "ix://" ++ p.org ++ "/" ++ p.name ++ "/" ++ (← idSegment id)

/-- Fields, operations, clauses, states and steps. -/
def memberIdentity (owner name : String) : Except Unsluggable String := do
  return (← typeIdentity p owner) ++ "/" ++ (← memberSegment name)

def nodeIdentity (segment tail : String) : String :=
  "ix://" ++ p.org ++ "/" ++ p.name ++ "/" ++ segment ++ "/" ++ tail

def aliasIdentity (id field : String) : Except Unsluggable String := do
  return "ix://" ++ p.org ++ "/" ++ p.name ++ "/" ++ (← idSegment id) ++ (← capitalizedSlug field)

def typeConstraintIdentity (id keyword : String) : Except Unsluggable String := do
  return nodeIdentity p "constraint" ((← idSegment id) ++ "/" ++ (← slug keyword))

def relationshipIdentity (record verb target : String) : Except Unsluggable String := do
  let target ← idSegment target
  return nodeIdentity p "relationship" ((← join record [verb]) ++ "-" ++ target)

def variantIdentity (enumeration value : String) : Except Unsluggable String := do
  return nodeIdentity p "variant" (← join enumeration [value])

def mint : Source → Except Unsluggable String
  | .definition id => typeIdentity p id
  | .alias' id field => aliasIdentity p id field
  | .constraint record field keyword => p.constraintIdentity record field keyword
  | .typeConstraint id keyword => typeConstraintIdentity p id keyword
  | .relationship record verb target => relationshipIdentity p record verb target
  | .variant enumeration value => variantIdentity p enumeration value
  | .member owner name => memberIdentity p owner name
  | .param record operation name => do
    return (← memberIdentity p record operation) ++ "/" ++ (← memberSegment name)
  | .transition machine position => memberIdentity p machine ("transition" ++ toString position)

end Minting

/-! ### The walk over the lowered types -/

/-- A node's identity, and where it comes from. -/
abbrev Minted := String × Locus

def constraintNodes (constraints : List ConstraintNode) : List Minted :=
  constraints.map fun c => (c.identity, c.origin)

def identitiesOf (t : TypeDefinition) : List Minted :=
  (t.identity, t.origin) :: (constraintNodes t.constraints ++
  ((t.fields.getD []).flatMap fun f => (f.identity, f.origin) :: constraintNodes f.constraints) ++
  (t.variants.getD []).map (fun v => (v.identity, v.origin)) ++
  (t.positions.getD []).map (fun p => (p.identity, p.origin)) ++
  (t.relationships.getD []).map (fun r => (r.identity, r.origin)) ++
  ((t.operations.getD []).flatMap fun o =>
    (o.identity, o.origin) :: o.params.map fun p => (p.identity, p.origin)) ++
  (t.clauses.getD []).map (fun c => (c.identity, c.origin)) ++
  (t.construct.states.getD []).map (fun s => (s.identity, s.origin)) ++
  (t.construct.transitions.getD []).map (fun s => (s.identity, s.origin)) ++
  (t.construct.steps.getD []).map fun s => (s.identity, s.origin))

/-- The diagnostic at a node whose identity an earlier one has. -/
def collision (node : Minted) (first : Locus) : Reported :=
  ⟨.withDisposition .duplicateIdentity .frontend
    ("identity `" ++ node.1 ++ "` is already minted by an earlier node") (some node.2), some first⟩

def collisionsFrom (seen : List Minted) : List Minted → List Reported
  | [] => []
  | node :: nodes =>
    match seen.lookup node.1 with
    | some first => collision node first :: collisionsFrom seen nodes
    | none => collisionsFrom (node :: seen) nodes

def identityCollisions (types : List TypeDefinition) : List Reported :=
  collisionsFrom [] (types.flatMap identitiesOf)

/-- The blocks are those of the bundle; a lift emits no occurrence and no extension. -/
def Envelope.new (source : SourceBlock) (package : PackageBlock) : Envelope :=
  ⟨source, package, [], []⟩

/-! ### Every later node of an identity is reported -/

theorem lookup_isSome {identity : String} {seen : List Minted} :
    (seen.lookup identity).isSome = true ↔ identity ∈ seen.map Prod.fst := by
  rw [List.lookup_isSome_iff, List.mem_map]
  simp only [beq_iff_eq, @eq_comm _ identity]

theorem collisionsFrom_seen {seen nodes : List Minted} {node : Minted}
    (hs : node.1 ∈ seen.map Prod.fst) (hn : node ∈ nodes) :
    ∃ first, collision node first ∈ collisionsFrom seen nodes := by
  induction nodes generalizing seen with
  | nil => exact absurd hn List.not_mem_nil
  | cons other nodes ih =>
    rw [collisionsFrom]
    obtain heq | hm := List.mem_cons.1 hn
    · obtain ⟨first, hf⟩ := Option.isSome_iff_exists.1 (lookup_isSome.2 hs)
      rw [← heq, hf]
      exact ⟨first, List.mem_cons_self ..⟩
    · cases hl : seen.lookup other.1 with
      | none => exact ih (List.mem_cons_of_mem _ hs) hm
      | some first =>
        obtain ⟨found, hf⟩ := ih hs hm
        exact ⟨found, List.mem_cons_of_mem _ hf⟩

theorem collisionsFrom_pair (seen : List Minted) {nodes : List Minted} {a b : Minted}
    (he : a.1 = b.1) (h : List.Sublist [a, b] nodes) :
    ∃ first, collision b first ∈ collisionsFrom seen nodes := by
  induction nodes generalizing seen with
  | nil => exact absurd h (by simp)
  | cons other nodes ih =>
    rw [collisionsFrom]
    cases hl : seen.lookup other.1 with
    | none =>
      cases h with
      | cons _ h => exact ih _ h
      | cons_cons _ h =>
        exact collisionsFrom_seen (he ▸ List.mem_cons_self ..) (List.singleton_sublist.1 h)
    | some first =>
      have hfound : ∃ found, collision b found ∈ collisionsFrom seen nodes := by
        cases h with
        | cons _ h => exact ih _ h
        | cons_cons _ h =>
          have hseen : a.1 ∈ seen.map Prod.fst := lookup_isSome.1 (by rw [hl, Option.isSome_some])
          exact collisionsFrom_seen (he ▸ hseen) (List.singleton_sublist.1 h)
      obtain ⟨found, hf⟩ := hfound
      exact ⟨found, List.mem_cons_of_mem _ hf⟩

theorem collisionsFrom_subperm {nodes walked : List Minted} {a b : Minted} (he : a.1 = b.1)
    (h : List.Sublist [a, b] nodes) (hp : nodes.Perm walked) :
    ∃ first, collision a first ∈ collisionsFrom [] walked ∨
      collision b first ∈ collisionsFrom [] walked := by
  obtain ⟨pair, hpair, hs⟩ := h.subperm.trans hp.subperm
  obtain rfl | rfl := List.perm_pair.1 hpair
  · obtain ⟨first, hf⟩ := collisionsFrom_pair [] he hs
    exact ⟨first, .inr hf⟩
  · obtain ⟨first, hf⟩ := collisionsFrom_pair [] he.symm hs
    exact ⟨first, .inl hf⟩

theorem collisionsFrom_twice {identities : List String} {walked : List Minted} {identity : String}
    (hs : List.Subperm identities (walked.map Prod.fst)) (hc : 2 ≤ identities.count identity) :
    ∃ node first, node.1 = identity ∧ collision node first ∈ collisionsFrom [] walked := by
  have htwice : List.Sublist [identity, identity] (walked.map Prod.fst) :=
    List.replicate_sublist_iff.2 (hc.trans (hs.count_le identity))
  obtain ⟨pair, hpair, he⟩ := List.sublist_map_iff.1 htwice
  obtain ⟨a, b, rfl⟩ : ∃ a b, pair = [a, b] := by
    have hl : pair.length = 2 := by rw [← List.length_map Prod.fst, ← he]; rfl
    exact List.length_eq_two.1 hl
  simp only [List.map_cons, List.map_nil, List.cons.injEq, and_true] at he
  obtain ⟨first, hf⟩ := collisionsFrom_pair [] (he.1.symm.trans he.2) hpair
  exact ⟨b, first, he.2.symm, hf⟩

/-! ### What the reader finds in a definition -/

/-- The nodes of a definition that the reader asks for an identity. -/
def declaredBy (v : Json) : List Json :=
  v :: (["constraints", "fields", "variants", "positions", "relationships"].flatMap v.members ++
    ((v.members "operations").flatMap fun operation => operation :: operation.members "params") ++
    ["clauses", "states", "transitions", "steps"].flatMap v.members)

theorem declarationsOf_nodes (p : Placed) :
    (Document.declarationsOf p).map Placed.node = declaredBy p.node := by
  simp only [Document.declarationsOf, declaredBy, List.map_cons, List.map_append, List.map_flatMap,
    placedItems_nodes]
  rw [← placedItems_nodes p.node p.pointer "operations", List.flatMap_map]

theorem declared_eq (d : Document) (hp : d.ir.members "populations" = [])
    (ho : d.ir.members "occurrences" = []) :
    d.declaredIdentities = d.types.flatMap fun v => (declaredBy v).filterMap identityOf := by
  have hnone : ∀ {name}, d.ir.members name = [] → placedItems d.ir "/ir" name = [] := by
    intro name h
    rw [placedItems, h]
    rfl
  rw [declaredIdentities_eq, hnone hp, hnone ho, List.append_nil, List.append_nil,
    SemanticIr.identitiesOf,
    ← Function.comp_def, ← List.filterMap_map, List.map_flatMap]
  simp only [declarationsOf_nodes]
  rw [← placedTypes_nodes (d := d), List.filterMap_flatMap, List.flatMap_map]

/-! ### Sorting keeps the identities -/

theorem identityOf_updateMember {name : String} {f : Json → Json} (hn : name ≠ "identity")
    (v : Json) : identityOf (onMembers (updateMember name f) v) = identityOf v := by
  cases v with
  | object members =>
    change ((lookup "identity" (updateMember name f members)).bind asStr) = _
    have hl := lookup_map "identity" (fun key v => if key = name then f v else v) members
    rw [updateMember, hl]
    simp only [hn.symm, if_false, Option.map_id']
    rfl
  | _ => rfl

theorem members_updateMember {name key : String} {f : Json → Json} (v : Json) :
    (onMembers (updateMember name f) v).members key =
      if key = name then ((v.get key).map f).bind asArray |>.getD [] else v.members key := by
  cases v with
  | object members =>
    have hl := lookup_map key (fun key v => if key = name then f v else v) members
    change ((lookup key (updateMember name f members)).bind asArray).getD [] = _
    rw [updateMember, hl]
    split
    · rfl
    · rw [Option.map_id']
      rfl
  | _ => simp [onMembers, Json.members, getArray, Json.get]

theorem members_sortDefinition (v : Json) (name : String) :
    (sortDefinition v).members name =
      (((v.get name).map (sortTypeMember name)).bind asArray).getD [] := by
  cases v with
  | object members =>
    rw [sortDefinition_members]
    change ((lookup name _).bind asArray).getD [] = _
    rw [lookup_map name sortTypeMember]
    rfl
  | _ => rfl

theorem identities_sortByIdentity (v : Json) :
    ((((sortByIdentity v).asArray).getD []).filterMap identityOf).Perm
      ((v.asArray.getD []).filterMap identityOf) := by
  cases v with
  | array items => exact (List.perm_insertionSort _ items).filterMap _
  | _ => exact .refl _

theorem identities_mapItems {f : Json → Json} (hf : ∀ v, identityOf (f v) = identityOf v)
    (v : Json) : (((mapItems f v).asArray).getD []).filterMap identityOf =
      (v.asArray.getD []).filterMap identityOf := by
  cases v with
  | array items =>
    change (items.map f).filterMap identityOf = items.filterMap identityOf
    rw [List.filterMap_map]
    exact List.filterMap_congr fun item _ => hf item
  | _ => rfl

theorem identityOf_sortField (v : Json) : identityOf (sortField v) = identityOf v :=
  identityOf_updateMember (by decide) v

theorem identityOf_sortOperation (v : Json) : identityOf (sortOperation v) = identityOf v :=
  identityOf_updateMember (by decide) v

theorem identities_members (v : Json) {name : String} (hn : name ≠ "operations") :
    (((sortDefinition v).members name).filterMap identityOf).Perm
      ((v.members name).filterMap identityOf) := by
  rw [members_sortDefinition, Json.members, getArray]
  cases v.get name with
  | none => exact .refl _
  | some list =>
    change (((sortTypeMember name list).asArray).getD [] |>.filterMap identityOf).Perm
      ((list.asArray.getD []).filterMap identityOf)
    rw [sortTypeMember, if_neg hn]
    split
    · exact .of_eq (identities_mapItems identityOf_sortField list)
    · split
      · exact identities_sortByIdentity list
      · exact .refl _

theorem identities_sortOperation (v : Json) :
    (sortOperation v :: (sortOperation v).members "params").filterMap identityOf =
      (v :: v.members "params").filterMap identityOf := by
  have hparams : ((sortOperation v).members "params").filterMap identityOf =
      (v.members "params").filterMap identityOf := by
    rw [sortOperation, members_updateMember, if_pos rfl, Json.members, getArray]
    cases v.get "params" with
    | none => rfl
    | some params => exact identities_mapItems identityOf_sortField params
  rw [List.filterMap_cons, List.filterMap_cons, identityOf_sortOperation, hparams]

theorem identities_operations (v : Json) :
    ((((sortDefinition v).members "operations").flatMap fun operation =>
      operation :: operation.members "params").filterMap identityOf).Perm
    (((v.members "operations").flatMap fun operation =>
      operation :: operation.members "params").filterMap identityOf) := by
  rw [members_sortDefinition, Json.members, getArray]
  cases v.get "operations" with
  | none => exact .refl _
  | some list =>
    cases list with
    | array items =>
      change ((((items.insertionSort _).map sortOperation).flatMap _).filterMap _).Perm
        ((items.flatMap _).filterMap _)
      rw [List.flatMap_map, List.filterMap_flatMap, List.filterMap_flatMap]
      simp only [identities_sortOperation]
      exact (List.perm_insertionSort _ items).flatMap_right _
    | _ => exact .refl _

theorem identityOf_sortDefinition (v : Json) : identityOf (sortDefinition v) = identityOf v := by
  cases v with
  | object members =>
    have hid : sortTypeMember "identity" = id := by
      rw [sortTypeMember, if_neg (by decide), if_neg (by decide), if_neg (by decide)]
    rw [sortDefinition_members]
    change (lookup "identity" _).bind asStr = (lookup "identity" members).bind asStr
    rw [lookup_map "identity" sortTypeMember, hid, Option.map_id_fun, id]
  | _ => rfl

theorem identities_declaredBy (v : Json) :
    ((declaredBy (sortDefinition v)).filterMap identityOf).Perm
      ((declaredBy v).filterMap identityOf) := by
  have hlists : ∀ names : List String, "operations" ∉ names →
      ((names.flatMap (sortDefinition v).members).filterMap identityOf).Perm
        ((names.flatMap v.members).filterMap identityOf) := by
    intro names hn
    rw [List.filterMap_flatMap, List.filterMap_flatMap]
    exact .flatMap_left _ fun name hm => identities_members v fun he => hn (he ▸ hm)
  simp only [declaredBy, List.filterMap_cons, List.filterMap_append,
    identityOf_sortDefinition]
  cases identityOf v
  · exact ((hlists _ (by decide)).append (identities_operations v)).append (hlists _ (by decide))
  · exact (((hlists _ (by decide)).append (identities_operations v)).append
      (hlists _ (by decide))).cons _

/-! ### The lists of a lowered type -/

theorem lookup_optional (key name : String) (value : Option Json) :
    lookup key (optional name value) = if name = key then value else none := by
  cases value with
  | none => rw [optional, Option.map_none, Option.toList_none, lookup_nil, ite_self]
  | some v =>
    rw [optional, Option.map_some, Option.toList_some, lookup_cons, lookup_nil, Option.none_or]

theorem members_listed {α : Type} (toValue : α → Json) (nodes : Option (List α)) :
    ((listed toValue nodes).bind asArray).getD [] = (nodes.getD []).map toValue := by
  cases nodes <;> rfl

structure Lists (t : TypeDefinition) (v : Json) : Prop where
  constraints : v.members "constraints" = t.constraints.map ConstraintNode.toValue
  fields : v.members "fields" = (t.fields.getD []).map Field.toValue
  variants : v.members "variants" = (t.variants.getD []).map Variant.toValue
  positions : v.members "positions" = (t.positions.getD []).map Position.toValue
  relationships : v.members "relationships" = (t.relationships.getD []).map Relationship.toValue
  operations : v.members "operations" = (t.operations.getD []).map Operation.toValue
  clauses : v.members "clauses" = (t.clauses.getD []).map Clause.toValue
  states : v.members "states" = (t.construct.states.getD []).map State.toValue
  transitions : v.members "transitions" =
    (t.construct.transitions.getD []).map Transition.toValue
  steps : v.members "steps" = (t.construct.steps.getD []).map Step.toValue

theorem members_of_get {α : Type} {toValue : α → Json} {v : Json} {name : String}
    {nodes : Option (List α)} (h : v.get name = listed toValue nodes) :
    v.members name = (nodes.getD []).map toValue := by
  rw [Json.members, getArray, h, members_listed]

theorem lists_type (t : TypeDefinition) : Lists t t.toValue := by
  have hget : ∀ key, t.toValue.get key = lookup key _ := fun key => rfl
  unfold ConstructMembers.toMembers at hget
  refine ⟨?_, members_of_get ?_, members_of_get ?_, members_of_get ?_, members_of_get ?_,
    members_of_get ?_, members_of_get ?_, members_of_get ?_, members_of_get ?_, members_of_get ?_⟩
  · rw [Json.members, getArray, hget]
    simp only [lookup_append, lookup_optional, lookup_cons, lookup_nil, String.reduceEq, if_false,
      if_true, Option.or_none, Option.none_or]
    rfl
  all_goals
    rw [hget]
    simp only [lookup_append, lookup_optional, lookup_cons, lookup_nil, String.reduceEq, if_false,
      if_true, Option.or_none, Option.none_or]

theorem members_params (o : Operation) :
    o.toValue.members "params" = o.params.map Field.toValue := by
  have hget : o.toValue.get "params" = some (array (o.params.map Field.toValue)) := by
    simp only [Operation.toValue, Json.get, lookup_append, lookup_optional, lookup_cons, lookup_nil,
      String.reduceEq, if_false, if_true, Option.or_none, Option.none_or]
  rw [Json.members, getArray, hget]
  rfl

theorem identities_map {α : Type} {toValue : α → Json} {identity : α → String}
    (h : ∀ node, identityOf (toValue node) = some (identity node)) (nodes : List α) :
    (nodes.map toValue).filterMap identityOf = nodes.map identity := by
  rw [List.filterMap_map, ← List.filterMap_eq_map]
  exact List.filterMap_congr fun node _ => h node

theorem identityOf_field (f : Field) : identityOf f.toValue = some f.identity := by
  rw [Field.toValue, List.append_assoc, List.append_assoc, identityOf_append]
  · rfl
  · refine forall_append (ne_of_optional (by decide)) (forall_append (ne_of_optional (by decide)) ?_)
    intro m hm
    split at hm
    · exact absurd hm List.not_mem_nil
    · rw [List.mem_singleton.1 hm]
      exact (by decide : "constraints" ≠ "identity")

theorem identityOf_constraint (c : ConstraintNode) :
    identityOf c.toValue = some c.identity := rfl

theorem identityOf_position (p : Position) : identityOf p.toValue = some p.identity := rfl

theorem identityOf_relationship (r : Relationship) :
    identityOf r.toValue = some r.identity := rfl

theorem identityOf_clause (c : Clause) : identityOf c.toValue = some c.identity := rfl

theorem identityOf_state (s : State) : identityOf s.toValue = some s.identity := rfl

theorem identityOf_step (s : Step) : identityOf s.toValue = some s.identity := rfl

theorem identityOf_variant (v : Variant) : identityOf v.toValue = some v.identity :=
  identityOf_append (ne_of_optional (by decide))

theorem identityOf_operation (o : Operation) : identityOf o.toValue = some o.identity :=
  identityOf_append (ne_of_optional (by decide))

theorem identityOf_transition (t : Transition) : identityOf t.toValue = some t.identity :=
  identityOf_append (ne_of_optional (by decide))

/-- The identities that the reader finds in a definition. -/
def declared (t : TypeDefinition) : List String :=
  t.identity :: (t.constraints.map (fun c => c.identity) ++
  (t.fields.getD []).map (fun f => f.identity) ++ (t.variants.getD []).map (fun v => v.identity) ++
  (t.positions.getD []).map (fun p => p.identity) ++
  (t.relationships.getD []).map (fun r => r.identity) ++
  ((t.operations.getD []).flatMap fun o => o.identity :: o.params.map fun p => p.identity) ++
  (t.clauses.getD []).map (fun c => c.identity) ++
  (t.construct.states.getD []).map (fun s => s.identity) ++
  (t.construct.transitions.getD []).map (fun s => s.identity) ++
  (t.construct.steps.getD []).map fun s => s.identity)

theorem declaredBy_toValue (t : TypeDefinition) :
    (declaredBy t.toValue).filterMap identityOf = declared t := by
  have hl := lists_type t
  have hoperations : (((t.operations.getD []).map Operation.toValue).flatMap fun operation =>
      operation :: operation.members "params").filterMap identityOf =
      (t.operations.getD []).flatMap fun o => o.identity :: o.params.map fun p => p.identity := by
    rw [List.flatMap_map, List.filterMap_flatMap]
    congr 1
    funext o
    rw [members_params, List.filterMap_cons, identityOf_operation, identities_map identityOf_field]
  rw [declaredBy, List.filterMap_cons, identityOf_type]
  simp only [List.flatMap_cons, List.flatMap_nil, List.append_nil, List.filterMap_append,
    hl.constraints, hl.fields, hl.variants, hl.positions, hl.relationships, hl.operations,
    hl.clauses, hl.states, hl.transitions, hl.steps, hoperations, identities_map identityOf_field,
    identities_map identityOf_variant, identities_map identityOf_transition,
    identities_map identityOf_constraint, identities_map identityOf_position,
    identities_map identityOf_relationship, identities_map identityOf_clause,
    identities_map identityOf_state, identities_map identityOf_step, declared, List.append_assoc]

theorem map_sublist_flatMap {α β : Type} (head : α → β) (rest : α → List β) (l : List α) :
    List.Sublist (l.map head) (l.flatMap fun a => head a :: rest a) := by
  rw [← List.flatMap_pure_eq_map]
  exact List.Sublist.flatMap_right l fun a _ => List.Sublist.cons_cons _ (List.nil_sublist _)

theorem declared_sublist (t : TypeDefinition) :
    List.Sublist (declared t) ((identitiesOf t).map Prod.fst) := by
  simp only [declared, identitiesOf, constraintNodes, List.map_cons, List.map_append, List.map_map,
    List.map_flatMap, Function.comp_def]
  refine .cons_cons _ ?_
  repeat' refine List.Sublist.append ?_ (.refl _)
  exact .append (.refl _) (map_sublist_flatMap _ _ _)

/-! ### The nodes of a lowered type -/

/-- Parameters are lowered without constraints. -/
def Lowered (t : TypeDefinition) : Prop :=
  ∀ operation ∈ t.operations.getD [], ∀ param ∈ operation.params, param.constraints = []

/-- Every node of a type that has an identity, kind by kind. -/
def sourceNodes (t : TypeDefinition) : List Minted :=
  let fields := t.fields.getD []
  let operations := t.operations.getD []
  let params := operations.flatMap fun o => o.params
  (t.identity, t.origin) :: (constraintNodes t.constraints ++
  (fields.map (fun f => (f.identity, f.origin)) ++
    fields.flatMap fun f => constraintNodes f.constraints) ++
  (t.variants.getD []).map (fun v => (v.identity, v.origin)) ++
  (t.positions.getD []).map (fun p => (p.identity, p.origin)) ++
  (t.relationships.getD []).map (fun r => (r.identity, r.origin)) ++
  (operations.map (fun o => (o.identity, o.origin)) ++
    params.map (fun p => (p.identity, p.origin)) ++
    params.flatMap fun p => constraintNodes p.constraints) ++
  (t.clauses.getD []).map (fun c => (c.identity, c.origin)) ++
  (t.construct.states.getD []).map (fun s => (s.identity, s.origin)) ++
  (t.construct.transitions.getD []).map (fun s => (s.identity, s.origin)) ++
  (t.construct.steps.getD []).map fun s => (s.identity, s.origin))

theorem map_append_flatMap {α β : Type} (head : α → β) (rest : α → List β) (l : List α) :
    (l.map head ++ l.flatMap rest).Perm (l.flatMap fun a => head a :: rest a) := by
  rw [← List.flatMap_pure_eq_map]
  exact List.flatMap_append_perm l _ rest

theorem sourceNodes_perm {t : TypeDefinition} (h : Lowered t) :
    (sourceNodes t).Perm (identitiesOf t) := by
  have hnone : (((t.operations.getD []).flatMap fun o => o.params).flatMap fun p =>
      constraintNodes p.constraints) = [] := by
    rw [List.flatMap_eq_nil_iff]
    intro param hm
    obtain ⟨operation, ho, hp⟩ := List.mem_flatMap.1 hm
    rw [h operation ho param hp]
    rfl
  simp only [sourceNodes, identitiesOf, hnone, List.append_nil, List.map_flatMap]
  refine .cons _ ?_
  repeat' refine List.Perm.append ?_ (.refl _)
  refine .append ?_ (map_append_flatMap _ _ _)
  repeat' refine List.Perm.append ?_ (.refl _)
  exact .append (.refl _) (map_append_flatMap _ _ _)

/-! ### The document -/

theorem types_assemble (envelope : Envelope) (types : List TypeDefinition)
    (constructs : List Construct) :
    ((assemble envelope types constructs).members "types").Perm
      (types.map fun t => sortDefinition t.toValue) := by
  have h : (assemble envelope types constructs).members "types" =
      ((types.map TypeDefinition.toValue).map sortDefinition).insertionSort
        fun a b => identityKeyOf a ≤ identityKeyOf b := rfl
  rw [h, List.map_map]
  exact List.perm_insertionSort _ _

theorem occurrences_assemble (source : SourceBlock) (package : PackageBlock)
    (types : List TypeDefinition) (constructs : List Construct) :
    (assemble (Envelope.new source package) types constructs).members "occurrences" = [] := rfl

theorem populations_assemble (envelope : Envelope) (types : List TypeDefinition)
    (constructs : List Construct) :
    (assemble envelope types constructs).members "populations" = [] := rfl

theorem declared_assemble {source : SourceBlock} {package : PackageBlock}
    {types : List TypeDefinition} {constructs : List Construct} {d : Document}
    (hd : d.ir = assemble (Envelope.new source package) types constructs)
    (ht : d.types = d.ir.members "types") :
    d.declaredIdentities.Perm (types.flatMap declared) := by
  rw [declared_eq d (hd ▸ populations_assemble _ types constructs)
    (hd ▸ occurrences_assemble source package types constructs), ht, hd]
  refine ((types_assemble _ types constructs).flatMap_right _).trans ?_
  rw [List.flatMap_map]
  refine .flatMap_left _ fun t _ => ?_
  rw [← declaredBy_toValue]
  exact identities_declaredBy t.toValue

theorem duplicates_of_nodup {seen : List String} {declarations : List (String × String)}
    (hn : (declarations.map Prod.snd).Nodup)
    (hs : ∀ identity ∈ declarations.map Prod.snd, identity ∉ seen) :
    Rules.duplicates seen declarations = [] := by
  induction declarations generalizing seen with
  | nil => rfl
  | cons declaration declarations ih =>
    obtain ⟨hnew, hn⟩ := List.nodup_cons.1 hn
    have hfresh : declaration.2 ∉ seen := hs _ (List.mem_cons_self ..)
    rw [Rules.duplicates, List.contains_eq_mem, decide_eq_false hfresh, if_neg (by decide)]
    apply ih hn
    intro identity hm hseen
    obtain rfl | hold := List.mem_cons.1 hseen
    · exact hnew hm
    · exact hs identity (List.mem_cons_of_mem _ hm) hold

/-- An identity that the reader declares twice is reported at a node that has it, a lift without such
a report is not refused for a duplicate, and of two nodes at different places that have one identity
one is reported. -/
theorem identityCollisions_complete (source : SourceBlock) (package : PackageBlock)
    (types : List TypeDefinition) (constructs : List Construct) (hl : ∀ t ∈ types, Lowered t) :
    ∃ d, Document.read (object [("ir",
        assemble (Envelope.new source package) types constructs)]) = some d ∧
      (∀ identity, 2 ≤ d.declaredIdentities.count identity → ∃ node first, node.1 = identity ∧
        collision node first ∈ identityCollisions types) ∧
      (identityCollisions types = [] → Rules.duplicateIdentities d = []) ∧
      ∀ a b : Minted, List.Sublist [a, b] (types.flatMap sourceNodes) → a.1 = b.1 →
        ∃ first, collision a first ∈ identityCollisions types ∨
          collision b first ∈ identityCollisions types := by
  let ir := assemble (Envelope.new source package) types constructs
  let d : SemanticIr.Document := ⟨object [("ir", ir)], ir, ir.members "types", none⟩
  have hperm : d.declaredIdentities.Perm (types.flatMap declared) := declared_assemble rfl rfl
  have hsub : List.Sublist (types.flatMap declared)
      ((types.flatMap identitiesOf).map Prod.fst) := by
    rw [List.map_flatMap]
    exact List.Sublist.flatMap_right _ fun t _ => declared_sublist t
  have htwice : ∀ identity, 2 ≤ d.declaredIdentities.count identity → ∃ node first,
      node.1 = identity ∧ collision node first ∈ identityCollisions types := fun identity hc =>
    collisionsFrom_twice (hperm.subperm.trans hsub.subperm) hc
  refine ⟨d, rfl, htwice, fun hnone => ?_, fun a b hs he => ?_⟩
  · refine duplicates_of_nodup (List.nodup_iff_count_le_one.2 fun identity => ?_) (by simp)
    by_contra hc
    obtain ⟨node, first, -, hf⟩ := htwice identity (by
      change 2 ≤ (d.identityDeclarations.map Prod.snd).count identity
      omega)
    rw [hnone] at hf
    exact absurd hf List.not_mem_nil
  · exact collisionsFrom_subperm he hs (.flatMap_left _ fun t ht => sourceNodes_perm (hl t ht))

def related (id verb target : String) : TypeDefinition :=
  let p : PackageIdentity := ⟨"o", "n"⟩
  let origin : Locus := ⟨"ix://o/n/spec", id ++ ".md", 1, 1⟩
  let identity := ((relationshipIdentity p id verb target).toOption).getD ""
  { identity := ((typeIdentity p id).toOption).getD "", displayName := id, kind := .record,
    roles := [], origin, constraints := [], extensions := [], unknownPolicy := .reject,
    scalar := none, decimal := none, target := none, inner := none, fields := some [],
    variants := none, positions := none,
    relationships := some [⟨identity, str "association", false, .sourceToTarget,
      ⟨some verb, null, ""⟩, ⟨none, null, ""⟩, origin⟩],
    operations := some [], clauses := some [],
    construct := ⟨none, none, none, none, none, none, none, none, none, none, none, none, none,
      none, none, none, none, none, none, none, none⟩ }

/-- Two edges of distinct records and verbs have one identity. -/
theorem identityCollisions_complete_joined : ∃ first,
    collision ("ix://o/n/relationship/A-b-c-D", ⟨"ix://o/n/spec", "A.md", 1, 1⟩) first ∈
        identityCollisions [related "A" "b c" "D", related "A-b" "c" "D"] ∨
      collision ("ix://o/n/relationship/A-b-c-D", ⟨"ix://o/n/spec", "A-b.md", 1, 1⟩) first ∈
        identityCollisions [related "A" "b c" "D", related "A-b" "c" "D"] := by
  have hl : ∀ t ∈ [related "A" "b c" "D", related "A-b" "c" "D"], Lowered t := by
    intro t ht operation ho
    simp only [List.mem_cons, List.not_mem_nil, or_false] at ht
    obtain rfl | rfl := ht <;> exact absurd ho List.not_mem_nil
  obtain ⟨d, -, -, -, hpair⟩ := identityCollisions_complete ⟨"", "", ""⟩ ⟨"", "", [], []⟩
    [related "A" "b c" "D", related "A-b" "c" "D"] [] hl
  refine hpair _ _ ?_ rfl
  have hnodes : [related "A" "b c" "D", related "A-b" "c" "D"].flatMap sourceNodes =
      [("ix://o/n/A", ⟨"ix://o/n/spec", "A.md", 1, 1⟩),
        ("ix://o/n/relationship/A-b-c-D", ⟨"ix://o/n/spec", "A.md", 1, 1⟩),
        ("ix://o/n/A-b", ⟨"ix://o/n/spec", "A-b.md", 1, 1⟩),
        ("ix://o/n/relationship/A-b-c-D", ⟨"ix://o/n/spec", "A-b.md", 1, 1⟩)] := by
    decide +kernel
  rw [hnodes]
  exact .cons _ (.cons_cons _ (.cons _ (.cons_cons _ .slnil)))

/-! ### Nodes that mint one identity -/

theorem pair_sublist {α : Type} {l : List α} {i j : ℕ} (hij : i < j) (hj : j < l.length) :
    List.Sublist [l[i], l[j]] l := by
  have hfirst : l[i] ∈ l.take j := List.mem_take_iff_getElem.2 ⟨i, by omega, rfl⟩
  have hsecond : l[j] ∈ l.drop j := by
    rw [List.drop_eq_getElem_cons hj]
    exact List.mem_cons_self ..
  have h := (List.singleton_sublist.2 hfirst).append (List.singleton_sublist.2 hsecond)
  rwa [List.take_append_drop] at h

/-- Whatever the nodes are minted from, two sources of one identity are reported. -/
theorem minted_reported {p : PackageIdentity} {types : List TypeDefinition}
    (hl : ∀ t ∈ types, Lowered t) {sources : List Source}
    (hm : List.Forall₂ (fun source node => mint p source = .ok node.1) sources
      (types.flatMap sourceNodes)) {i j : ℕ} (hij : i < j) (hj : j < sources.length)
    (he : mint p sources[i] = mint p sources[j]) : ∃ node first,
      mint p sources[i] = .ok node.1 ∧ collision node first ∈ identityCollisions types := by
  have hlength := hm.length_eq
  have hi := hm.get (i := i) (by omega) (by omega)
  have hk := hm.get hj (by omega)
  simp only [List.get_eq_getElem] at hi hk
  have hsame : (types.flatMap sourceNodes)[i].1 = (types.flatMap sourceNodes)[j].1 := by
    rw [hi, hk] at he
    injection he
  obtain ⟨first, hf | hf⟩ := collisionsFrom_subperm hsame (pair_sublist hij (by omega))
    (.flatMap_left _ fun t ht => sourceNodes_perm (hl t ht))
  · exact ⟨_, first, hi, hf⟩
  · exact ⟨_, first, he.trans hk, hf⟩

example : (mint ⟨"o", "n"⟩ (.relationship "A-b" "c" "D")).toOption =
    (mint ⟨"o", "n"⟩ (.relationship "A" "b c" "D")).toOption := by decide +kernel

end FilamentCore.Frontend.Document.Collisions
