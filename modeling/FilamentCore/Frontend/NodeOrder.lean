import FilamentCore.Compiler.CanonicalIr
import FilamentCore.Frontend.Document
import FilamentCore.SemanticIr.Arrangement
import FilamentCore.SemanticIr.AsciiText

/-!
# The order of the node lists (crates/extraction-frontend/src/canonical.rs)

The node lists of a lift are sorted where the compiler's identity sets are, and nowhere else.
-/

namespace FilamentCore.Frontend.Document
open FilamentCore.Library
open FilamentCore.SemanticIr
open FilamentCore.SemanticIr.Json
open FilamentCore.Compiler.Canonical (sortKey sortKey_eq identitySets atPlace atPlace_item
  atPlace_member contains_atPlace)

/-! ### The order of the identity sets -/

def orderSet (items : List Json) : List Json :=
  items.insertionSort fun a b => utf16Le (sortKey a) (sortKey b) = true

/-- The arrays at the paths of `sets` by identity, every other one as it is. -/
def pathOrder (sets : List String) : Arrangement String where
  item path := path ++ "/*"
  member path name := path ++ "/" ++ name
  order path items := if sets.contains path then orderSet items else items

def placeOrder : Arrangement Place where
  item := Place.item
  member := Place.member
  order place items := if place.isSet then orderSet items else items

theorem arrange_leaf (v : Json) : arrange placeOrder .leaf v = v := by
  induction v using nested_induction with
  | array items ih =>
    have hitems : items.map (arrange placeOrder .leaf) = items := by
      have hid := List.map_congr_left ih
      rwa [List.map_id'] at hid
    rw [arrange_array]
    exact congrArg Json.array hitems
  | object members ih =>
    have hmembers : members.map (fun m => (m.1, arrange placeOrder .leaf m.2)) = members := by
      have hid : members.map (fun m => (m.1, arrange placeOrder .leaf m.2)) = members.map id := by
        apply List.map_congr_left
        intro m hm
        rw [ih m hm, id]
      rwa [List.map_id] at hid
    rw [arrange_object]
    exact congrArg Json.object hmembers
  | _ => rfl

/-! ### Lifted values -/

structure SemanticSet (identities : List String) : Prop where
  distinct : identities.Nodup
  semantic : ∀ identity ∈ identities, isSemanticIdentity identity = true

/-- A value with the members of its place, whose sets hold nodes of distinct identities. -/
inductive Lifted : Place → Json → Prop
  | leaf (value : Json) : Lifted .leaf value
  | object (place : Place) (members : List (String × Json)) (ho : place.isArray = false)
      (closed : ∀ m ∈ members, m.1 ∈ place.names)
      (each : ∀ m ∈ members, Lifted (place.member m.1) m.2) : Lifted place (object members)
  | array (place : Place) (items : List Json) (ha : place.isArray = true)
      (set : place.isSet = true →
        ∃ identities, SemanticSet identities ∧ items.map identityOf = identities.map some)
      (each : ∀ item ∈ items, Lifted place.item item) : Lifted place (array items)

theorem semantic_of_set {items : List Json} {identities : List String}
    (h : SemanticSet identities) (hi : items.map identityOf = identities.map some) :
    ∀ item ∈ items, ∃ identity, identityOf item = some identity ∧
      isSemanticIdentity identity = true := by
  intro item hm
  have hmem : identityOf item ∈ identities.map some := hi ▸ List.mem_map_of_mem hm
  obtain ⟨identity, hidentity, he⟩ := List.mem_map.1 hmem
  exact ⟨identity, he.symm, h.semantic identity hidentity⟩

theorem sortByIdentity_eq {items : List Json} (h : ∀ item ∈ items, ∃ identity,
    identityOf item = some identity ∧ isSemanticIdentity identity = true) :
    sortByIdentity (array items) = array (orderSet items) := by
  rw [sortByIdentity, orderSet]
  congr 1
  apply insertionSort_congr
  intro a ha b hb
  obtain ⟨i, hi, hsi⟩ := h a ha
  obtain ⟨j, hj, hsj⟩ := h b hb
  have hki : identityKeyOf a = i := by
    change (identityOf a).getD "" = i
    rw [hi, Option.getD_some]
  have hkj : identityKeyOf b = j := by
    change (identityOf b).getD "" = j
    rw [hj, Option.getD_some]
  rw [hki, hkj, sortKey_eq hi, sortKey_eq hj,
    utf16Le_ascii (ascii_of_identity hsi) (ascii_of_identity hsj)]

theorem map_orderSet {items : List Json} {f : Json → Json}
    (h : ∀ item ∈ items, ∃ identity, identityOf item = some identity)
    (hf : ∀ item, identityOf (f item) = identityOf item) :
    (orderSet items).map f = orderSet (items.map f) := by
  apply List.map_insertionSort
  intro a ha b hb
  obtain ⟨i, hi⟩ := h a ha
  obtain ⟨j, hj⟩ := h b hb
  rw [sortKey_eq hi, sortKey_eq hj, sortKey_eq ((hf a).trans hi), sortKey_eq ((hf b).trans hj)]

/-! ### The hand-written sorts -/

theorem sort_set {v : Json} (h : Lifted .set v) : sortByIdentity v = arrange placeOrder .set v := by
  cases h with
  | object _ _ ho => exact absurd ho (by decide)
  | array _ items _ hset _ =>
    obtain ⟨identities, hs, hi⟩ := hset rfl
    have hitems : items.map (arrange placeOrder .leaf) = items := by
      have hid := List.map_congr_left fun item (_ : item ∈ items) => arrange_leaf item
      rwa [List.map_id'] at hid
    rw [sortByIdentity_eq (semantic_of_set hs hi), arrange_array]
    change _ = array (orderSet (items.map (arrange placeOrder .leaf)))
    rw [hitems]

theorem arrange_members {place : Place} {members : List (String × Json)} {f : String × Json → Json}
    (h : ∀ m ∈ members, f m = arrange placeOrder (place.member m.1) m.2) :
    object (members.map fun m => (m.1, f m)) = arrange placeOrder place (object members) := by
  rw [arrange_object]
  congr 1
  apply List.map_congr_left
  intro m hm
  rw [h m hm]
  rfl

theorem arrange_other {place : Place} {name : String} (h : ∀ row ∈ place.rows, row.1 ≠ name)
    (v : Json) : v = arrange placeOrder (place.member name) v := by
  rw [member_eq_leaf h, arrange_leaf]

theorem sortField_eq {v : Json} (h : Lifted .field v) :
    sortField v = arrange placeOrder .field v := by
  cases h with
  | array _ _ ha => exact absurd ha (by decide)
  | object _ members _ _ heach =>
    apply arrange_members
    intro m hm
    have hlifted := heach m hm
    by_cases hn : m.1 = "extensions"
    · rw [hn] at hlifted ⊢
      exact sort_set hlifted
    · rw [if_neg hn]
      exact arrange_other (fun row hr => by rw [List.mem_singleton.1 hr]; exact Ne.symm hn) m.2

theorem sortFields_eq {v : Json} (h : Lifted .fields v) :
    mapItems sortField v = arrange placeOrder .fields v := by
  cases h with
  | object _ _ ho => exact absurd ho (by decide)
  | array _ items _ _ heach =>
    rw [mapItems, arrange_array]
    exact congrArg Json.array (List.map_congr_left fun item hi => sortField_eq (heach item hi))

theorem sortOperation_eq {v : Json} (h : Lifted .operation v) :
    sortOperation v = arrange placeOrder .operation v := by
  cases h with
  | array _ _ ha => exact absurd ha (by decide)
  | object _ members _ _ heach =>
    apply arrange_members
    intro m hm
    have hlifted := heach m hm
    by_cases hn : m.1 = "params"
    · rw [hn] at hlifted ⊢
      exact sortFields_eq hlifted
    · rw [if_neg hn]
      exact arrange_other (fun row hr => by rw [List.mem_singleton.1 hr]; exact Ne.symm hn) m.2

theorem sortOperations_eq {v : Json} (h : Lifted .operations v) :
    mapItems sortOperation (sortByIdentity v) = arrange placeOrder .operations v := by
  cases h with
  | object _ _ ho => exact absurd ho (by decide)
  | array _ items _ hset heach =>
    obtain ⟨identities, hs, hi⟩ := hset rfl
    have hsemantic := semantic_of_set hs hi
    have hsorted : (orderSet items).map sortOperation =
        (orderSet items).map (arrange placeOrder .operation) := by
      apply List.map_congr_left
      intro item hm
      exact sortOperation_eq (heach item ((List.mem_insertionSort _).1 hm))
    have hnamed : ∀ item ∈ items, ∃ identity, identityOf item = some identity := by
      intro item hm
      obtain ⟨identity, hidentity, -⟩ := hsemantic item hm
      exact ⟨identity, hidentity⟩
    rw [sortByIdentity_eq hsemantic, mapItems, hsorted,
      map_orderSet hnamed (identityOf_arrange placeOrder .operation), arrange_array]
    rfl

/-- What `sortDefinition` does to the member of each name. -/
def sortTypeMember (name : String) : Json → Json :=
  if name = "operations" then fun v => mapItems sortOperation (sortByIdentity v)
  else if name = "fields" then mapItems sortField
  else if name ∈ typeLists then sortByIdentity else id

theorem sortDefinition_members (members : List (String × Json)) :
    sortDefinition (object members) = object (members.map fun m => (m.1, sortTypeMember m.1 m.2)) := by
  rw [sortDefinition, onMembers]
  simp only [typeLists, List.foldl_cons, List.foldl_nil, updateMember, List.map_map]
  congr 1
  apply List.map_congr_left
  intro m _
  by_cases hm : m.1 ∈ "fields" :: typeLists
  · simp only [typeLists, List.mem_cons, List.not_mem_nil, or_false] at hm
    obtain hn | hn | hn | hn | hn | hn | hn := hm <;>
      simp [hn, sortTypeMember, typeLists]
  · simp only [typeLists, List.mem_cons, List.not_mem_nil, or_false, not_or] at hm
    obtain ⟨hf, hv, hc, hr, ho, hl, he⟩ := hm
    simp [sortTypeMember, typeLists, hf, hv, hc, hr, ho, hl, he]

theorem sortDefinition_eq {v : Json} (h : Lifted .type v) :
    sortDefinition v = arrange placeOrder .type v := by
  cases h with
  | array _ _ ha => exact absurd ha (by decide)
  | object _ members _ _ heach =>
    rw [sortDefinition_members]
    apply arrange_members
    intro m hm
    have hlifted := heach m hm
    by_cases ho : m.1 = "operations"
    · rw [ho] at hlifted ⊢
      exact sortOperations_eq hlifted
    by_cases hf : m.1 = "fields"
    · rw [hf] at hlifted ⊢
      exact sortFields_eq hlifted
    rw [sortTypeMember, if_neg ho, if_neg hf]
    have hplace : ∀ name ∈ typeLists, name ≠ "operations" → Place.type.member name = .set := by
      decide
    by_cases hl : m.1 ∈ typeLists
    · rw [if_pos hl]
      rw [hplace m.1 hl ho] at hlifted ⊢
      exact sort_set hlifted
    · rw [if_neg hl]
      have hrows : ∀ row ∈ Place.type.rows, row.1 ∈ "operations" :: "fields" :: typeLists := by
        decide
      refine arrange_other (fun row hr hn => ?_) m.2
      have hmem := hrows row hr
      rw [hn, List.mem_cons, List.mem_cons] at hmem
      exact hmem.elim ho fun hmem => hmem.elim hf hl

theorem sortTypes_eq {v : Json} (h : Lifted .types v) :
    sortByIdentity (mapItems sortDefinition v) = arrange placeOrder .types v := by
  cases h with
  | object _ _ ho => exact absurd ho (by decide)
  | array _ items _ hset heach =>
    obtain ⟨identities, hs, hi⟩ := hset rfl
    have hsorted : items.map sortDefinition = items.map (arrange placeOrder .type) :=
      List.map_congr_left fun item hm => sortDefinition_eq (heach item hm)
    have hnamed : (items.map (arrange placeOrder .type)).map identityOf = identities.map some := by
      rw [List.map_map, ← hi]
      exact List.map_congr_left fun item _ => identityOf_arrange placeOrder .type item
    rw [mapItems, hsorted, sortByIdentity_eq (semantic_of_set hs hnamed), arrange_array]
    rfl

theorem sortNodeLists_place {v : Json} (h : Lifted .root v) :
    sortNodeLists v = arrange placeOrder .root v := by
  cases h with
  | array _ _ ha => exact absurd ha (by decide)
  | object _ members _ _ heach =>
    rw [sortNodeLists, onMembers]
    simp only [updateMember, List.map_map]
    apply arrange_members
    intro m hm
    have hlifted := heach m hm
    simp only [Function.comp_apply]
    by_cases ht : m.1 = "types"
    · rw [ht] at hlifted ⊢
      simp only [String.reduceEq, reduceIte]
      exact sortTypes_eq hlifted
    by_cases ho : m.1 = "occurrences"
    · rw [ho] at hlifted ⊢
      simp only [String.reduceEq, reduceIte]
      exact sort_set hlifted
    by_cases he : m.1 = "extensions"
    · rw [he] at hlifted ⊢
      simp only [String.reduceEq, reduceIte]
      exact sort_set hlifted
    rw [if_neg he, if_neg ho, if_neg ht]
    apply arrange_other
    simp only [Place.rows, List.forall_mem_cons]
    exact ⟨Ne.symm ht, Ne.symm ho, Ne.symm he, fun row hr => absurd hr List.not_mem_nil⟩

/-- The hand-written sorts order the arrays at the paths of the identity sets, and no others. -/
theorem sortNodeLists_eq {v : Json} (h : Lifted .root v) :
    sortNodeLists v = arrange (pathOrder identitySets) "" v := by
  rw [sortNodeLists_place h]
  refine @arrange_congr _ _ _ _ (fun place path v => atPlace path place = true ∧ Lifted place v)
    ?_ ?_ ?_ v .root "" ⟨by decide, h⟩
  · intro place path items hr item hi
    obtain ⟨hat, hlifted⟩ := hr
    cases hlifted with
    | leaf => exact ⟨atPlace_item hat (.inr rfl), .leaf item⟩
    | array _ _ ha _ heach => exact ⟨atPlace_item hat (.inl ha), heach item hi⟩
  · intro place path members hr m hm
    obtain ⟨hat, hlifted⟩ := hr
    cases hlifted with
    | leaf => exact ⟨atPlace_member hat (.inr rfl), .leaf m.2⟩
    | object _ _ _ hclosed heach =>
      exact ⟨atPlace_member hat (.inl (hclosed m hm)), heach m hm⟩
  · intro place path items hr arranged
    simp only [placeOrder, pathOrder, contains_atPlace hr.1]

end FilamentCore.Frontend.Document
