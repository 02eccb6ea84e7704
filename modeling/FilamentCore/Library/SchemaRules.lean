import FilamentCore.Library.JsonSchema

/-!
# Rules of JSON Schema's meaning

What a schema accepts, keyword by keyword: an assertion read apart from the rest, a schema
whose keywords are all read alike, and a schema without applicators.
-/

namespace FilamentCore.Library.JsonSchema
open Json

variable {V : Vocabulary} {r r' : Reading} {v : Json}

/-! ### Outcomes -/

@[simp] theorem isSome_assert (b : Bool) : (assert b).isSome = b := by
  cases b <;> rfl

@[simp] theorem isSome_both (a b : Outcome) : (both a b).isSome = (a.isSome && b.isSome) := by
  cases a <;> cases b <;> rfl

theorem isSome_allOf (os : List Outcome) : (allOf os).isSome = os.all Option.isSome := by
  induction os with
  | nil => rfl
  | cons o os ih =>
    have hc : allOf (o :: os) = both o (allOf os) := rfl
    rw [hc, isSome_both, ih, List.all_cons]

/-! ### A keyword among the members -/

theorem lookup_entries (k : String) (ms : List (String × Json)) :
    OrderedMap.lookup k (entries V ms) =
      (OrderedMap.lookup k ms).map fun j => ⟨j, check V j, checks V j, namedChecks V j⟩ := by
  induction ms with
  | nil => simp [entries, OrderedMap.lookup]
  | cons m ms ih =>
    obtain ⟨n, j⟩ := m
    by_cases h : n = k
    · simp [entries, entry, OrderedMap.lookup, h]
    · simp [entries, entry, OrderedMap.lookup, h, ih]

theorem memberChecks_eq (ms : List (String × Json)) :
    memberChecks V ms = ms.map fun m => (m.1, check V m.2) := by
  induction ms with
  | nil => simp [memberChecks]
  | cons m ms ih =>
    obtain ⟨n, j⟩ := m
    simp [memberChecks, memberCheck, ih]

/-- The keywords of a schema object. -/
abbrev read (V : Vocabulary) (ms : List (String × Json)) : Reading := reading (entries V ms)

section
variable (ms : List (String × Json))

@[simp] theorem read_assertion (a : Assertion) :
    (read V ms).assertion a = OrderedMap.lookup a.keyword ms := by
  simp only [reading, lookup_entries, Option.map_map, Function.comp_def]
  exact Option.map_id'

@[simp] theorem read_operand (o : Operand) :
    (read V ms).operand o = OrderedMap.lookup o.keyword ms := by
  simp only [reading, lookup_entries, Option.map_map, Function.comp_def]
  exact Option.map_id'

@[simp] theorem read_schema (a : Applicator) :
    (read V ms).schema a = (OrderedMap.lookup a.keyword ms).map (check V) := by
  simp only [reading, lookup_entries, Option.map_map, Function.comp_def]

@[simp] theorem read_listed (a : ListApplicator) :
    (read V ms).listed a = ((OrderedMap.lookup a.keyword ms).map (checks V)).getD [] := by
  simp only [reading, lookup_entries, Option.map_map, Function.comp_def]

@[simp] theorem read_named (a : MapApplicator) :
    (read V ms).named a = ((OrderedMap.lookup a.keyword ms).map (namedChecks V)).getD [] := by
  simp only [reading, lookup_entries, Option.map_map, Function.comp_def]

end

theorem check_object (ms : List (String × Json)) :
    check V (.object ms) v = (read V ms).outcome V v := by
  rw [check]

theorem accepts_object (ms : List (String × Json)) :
    Accepts V (.object ms) v ↔ ((read V ms).outcome V v).isSome = true := by
  rw [Accepts, check_object]

/-- Schemas whose keywords read alike mean the same. -/
theorem Reading.ext_of (ha : ∀ a, r.assertion a = r'.assertion a)
    (ho : ∀ o, r.operand o = r'.operand o) (hs : ∀ a, r.schema a = r'.schema a)
    (hl : ∀ a, r.listed a = r'.listed a) (hn : ∀ a, r.named a = r'.named a) : r = r' := by
  obtain ⟨a, o, s, l, n⟩ := r
  obtain ⟨a', o', s', l', n'⟩ := r'
  obtain rfl : a = a' := funext ha
  obtain rfl : o = o' := funext ho
  obtain rfl : s = s' := funext hs
  obtain rfl : l = l' := funext hl
  obtain rfl : n = n' := funext hn
  rfl

/-! ### Assertions apart -/

def Reading.without (a : Assertion) (r : Reading) : Reading :=
  { r with assertion := fun b => if b = a then none else r.assertion b }

theorem Assertion.mem_all (a : Assertion) : a ∈ Assertion.all := by
  cases a <;> simp [Assertion.all]

theorem assertions_without {a : Assertion} {o : Json} (h : r.assertion a = some o) :
    Reading.assertions V r v =
      if holds V o v a then Reading.assertions V (r.without a) v else none := by
  have hsplit : (Assertion.all.all fun b => (r.assertion b).all fun o => holds V o v b) =
      (holds V o v a && Assertion.all.all fun b =>
        ((r.without a).assertion b).all fun o => holds V o v b) := by
    rw [Bool.eq_iff_iff, Bool.and_eq_true, List.all_eq_true, List.all_eq_true]
    constructor
    · intro hall
      refine ⟨by simpa [h] using hall a (Assertion.mem_all a), fun b hb => ?_⟩
      by_cases hba : b = a
      · simp [Reading.without, hba]
      · simpa [Reading.without, hba] using hall b hb
    · intro hall b hb
      by_cases hba : b = a
      · subst hba
        simpa [h] using hall.1
      · simpa [Reading.without, hba] using hall.2 b hb
  unfold Reading.assertions
  rw [hsplit]
  cases holds V o v a <;> simp [assert]

theorem outcome_without {a : Assertion} {o : Json} (h : r.assertion a = some o) :
    r.outcome V v = if holds V o v a then (r.without a).outcome V v else none := by
  have hadj : r.adjacent V v = if holds V o v a then (r.without a).adjacent V v else none := by
    unfold Reading.adjacent
    simp only [allOf, List.foldr_cons]
    rw [assertions_without h]
    by_cases hh : holds V o v a = true
    · rw [if_pos hh, if_pos hh]
      rfl
    · rw [if_neg hh, if_neg hh]
      rfl
  unfold Reading.outcome
  rw [hadj]
  by_cases hh : holds V o v a = true
  · rw [if_pos hh, if_pos hh]
    rfl
  · rw [if_neg hh, if_neg hh]
    rfl

/-! ### Schemas without applicators -/

/-- Nothing but assertions, and what applies to every member. -/
structure Reading.Plain (r : Reading) : Prop where
  operand : ∀ o, r.operand o = none
  schema : ∀ a, a ≠ .additionalProperties → r.schema a = none
  listed : ∀ a, r.listed a = []
  named : ∀ a, r.named a = []

theorem memberChecks_plain (h : r.Plain) (name : String) :
    Reading.memberChecks V r name = (r.schema .additionalProperties).toList := by
  simp [Reading.memberChecks, Reading.namedChecks, h.named, OrderedMap.lookup]

theorem objectMembers_plain (h : r.Plain) :
    (Reading.objectMembers V r v).isSome =
      v.members.all fun m => (r.schema .additionalProperties).all fun c => (c m.2).isSome := by
  unfold Reading.objectMembers
  simp only [memberChecks_plain h]
  have hall : (v.members.all fun m => (r.schema .additionalProperties).toList.all fun c =>
      (c m.2).isSome) =
      v.members.all fun m => (r.schema .additionalProperties).all fun c => (c m.2).isSome := by
    congr 1
    funext m
    cases r.schema .additionalProperties <;> simp
  rw [← hall]
  split
  · next hh => rw [hh]; rfl
  · next hh => rw [Bool.not_eq_true] at hh; rw [hh]; rfl

theorem arrayItems_plain (h : r.Plain) : (Reading.arrayItems r v).isSome = true := by
  have hitem : ∀ i, Reading.itemCheck r i = none := by
    intro i
    simp [Reading.itemCheck, h.listed, h.schema .items (by decide)]
  simp [Reading.arrayItems, hitem]

theorem accepts_plain (h : r.Plain) :
    (r.outcome V v).isSome = true ↔ (Reading.assertions V r v).isSome = true ∧
      ∀ m ∈ v.members, ∀ c, r.schema .additionalProperties = some c → (c m.2).isSome = true := by
  have hrest : (r.outcome V v).isSome = (r.adjacent V v).isSome := by
    unfold Reading.outcome Reading.remainingMembers Reading.remainingItems
    rw [h.schema .unevaluatedProperties (by decide), h.schema .unevaluatedItems (by decide)]
    cases r.adjacent V v <;> rfl
  rw [hrest, Reading.adjacent, isSome_allOf]
  simp only [List.all_cons, List.all_nil, Bool.and_true, Bool.and_eq_true]
  simp only [Reading.reference, h.operand, Option.bind_none, Reading.inPlace, h.listed, if_true,
    Reading.negation, h.schema .not (by decide), Reading.conditional, h.schema .if (by decide),
    Reading.dependent, h.named, List.map_nil, Reading.memberNames,
    h.schema .propertyNames (by decide), Reading.containedItems, h.schema .contains (by decide),
    objectMembers_plain h, arrayItems_plain h]
  cases r.schema .additionalProperties <;> simp [accept, allOf]

end FilamentCore.Library.JsonSchema
