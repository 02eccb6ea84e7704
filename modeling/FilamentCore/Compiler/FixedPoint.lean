import FilamentCore.Compiler.CanonicalIr
import FilamentCore.SemanticIr.NormalForm
import FilamentCore.SemanticIr.Normalize

/-!
# Documents in normal form (src/compiler/ir/normalize.mjs)

A document whose sets are ordered is read back from its canonical form, and the compiler writes
the same form of it again.
-/

namespace FilamentCore.Compiler.Canonical
open FilamentCore.SemanticIr
open FilamentCore.SemanticIr.Json
open FilamentCore.SemanticIr.Grammar (depth)

/-! ### Ordered documents -/

def Before (a b : Json) : Prop := utf16Le (identityKey a) (identityKey b) = true

inductive Ordered : Place → Json → Prop
  | leaf (value : Json) : Ordered .leaf value
  | object (place : Place) (members : List (String × Json)) (ho : place.isArray = false)
      (closed : ∀ name value, lookup name members = some value → name ∈ place.names)
      (each : ∀ name value, lookup name members = some value → Ordered (place.member name) value) :
      Ordered place (object members)
  | array (place : Place) (items : List Json) (ha : place.isArray = true)
      (set : place.isSet = true → Identified items ∧ items.Pairwise Before)
      (each : ∀ item ∈ items, Ordered place.item item) : Ordered place (array items)

theorem Ordered.fits {place : Place} {v : Json} (h : Ordered place v) : Fits place v := by
  induction h with
  | leaf value => exact .leaf value
  | object place members ho hclosed _ ih => exact .object place members ho hclosed ih
  | array place items ha hset _ ih => exact .array place items ha (fun hs => (hset hs).1) ih

theorem sortByIdentity_ordered {items : List Json} (h : items.Pairwise Before)
    {texts : List (Json × List Char)} (ht : texts.map Prod.fst = items) :
    sortByIdentity texts = texts := by
  have hp : texts.Pairwise fun a b => utf16Le (identityKey a.1) (identityKey b.1) = true := by
    rwa [← ht, List.pairwise_map] at h
  exact hp.insertionSort_eq

def plainEncoder : Encoder Unit where
  item _ _ := ()
  member _ _ := ()
  order _ texts := texts

theorem encode_ordered {place : Place} {v : Json} (h : Ordered place v) :
    encode identityEncoder place v = canonical v := by
  have hs : Simulates identityEncoder plainEncoder fun place _ v => Ordered place v := by
    refine ⟨?_, ?_, ?_⟩
    · intro place _ items hr i item hi
      cases hr with
      | leaf => exact .leaf item
      | array _ _ _ _ heach => exact heach item hi
    · intro place _ members hr name value hv
      cases hr with
      | leaf => exact .leaf value
      | object _ _ _ _ heach => exact heach name value hv
    · intro place _ items hr texts ht
      simp only [identityEncoder, plainEncoder]
      cases hr with
      | leaf => rfl
      | array _ _ _ hset _ =>
        split
        · next hp => exact sortByIdentity_ordered (hset hp).2 ht
        · rfl
  rw [encode_congr hs v place () h]
  exact encode_plain (fun _ _ => rfl) v ()

theorem canonicalIr_ordered {v : Json} (h : Ordered .root v) (hd : depth v ≤ maxDepth) :
    canonicalIr v = some (canonical v) := by
  rw [canonicalIr_eq h.fits hd, encode_ordered h]

/-! ### What keeps the order -/

theorem identityOf_normal (v : Json) : identityOf (normal v) = identityOf v := by
  cases v with
  | object members =>
    rw [normal_object]
    change (lookup "identity" (normalOf members)).bind asStr = (lookup "identity" members).bind asStr
    rw [lookup_normalOf]
    cases lookup "identity" members with
    | none => rfl
    | some value => cases value <;> rfl
  | _ => rfl

theorem ordered_map {place : Place} {items : List Json} (ha : place.isArray = true)
    (hset : place.isSet = true → Identified items ∧ items.Pairwise Before) {f : Json → Json}
    (hf : ∀ item, identityOf (f item) = identityOf item)
    (heach : ∀ item ∈ items, Ordered place.item (f item)) : Ordered place (array (items.map f)) := by
  refine .array place _ ha (fun hs => ?_) fun item hi => ?_
  · obtain ⟨hidentified, hpairwise⟩ := hset hs
    refine ⟨hidentified.map hf, ?_⟩
    rw [List.pairwise_map]
    refine hpairwise.imp fun h => ?_
    rw [Before, identityKey, identityKey] at h ⊢
    rwa [hf, hf]
  · obtain ⟨original, ho, rfl⟩ := List.mem_map.1 hi
    exact heach original ho

theorem ordered_normal {place : Place} {v : Json} (h : Ordered place v) :
    Ordered place (normal v) := by
  induction h with
  | leaf value => exact .leaf _
  | object place members ho hclosed _ ih =>
    rw [normal_object]
    refine .object place (normalOf members) ho ?_ ?_
    · intro name value hv
      rw [lookup_normalOf] at hv
      obtain ⟨original, hl, -⟩ := Option.map_eq_some_iff.1 hv
      exact hclosed name original hl
    · intro name value hv
      rw [lookup_normalOf] at hv
      obtain ⟨original, hl, rfl⟩ := Option.map_eq_some_iff.1 hv
      exact ih name original hl
  | array place items ha hset _ ih =>
    rw [normal_array]
    exact ordered_map ha hset identityOf_normal ih

/-! ### Materializing -/

theorem ordered_materializeField {v : Json} (h : Ordered .field v) :
    Ordered .field (Normalize.materializeField v) := by
  cases h with
  | array _ _ ha => exact absurd ha (by decide)
  | object _ members ho hclosed heach =>
    refine .object .field _ ho ?_ ?_
    · intro name value hv
      change lookup name (_ ++ [("nullable", bool (lookup "nullable" members == _))]) = _ at hv
      rw [Normalize.lookup_materializeField] at hv
      split at hv
      · next hn =>
        rw [← hn]
        decide
      · exact hclosed name value hv
    · intro name value hv
      change lookup name (_ ++ [("nullable", bool (lookup "nullable" members == _))]) = _ at hv
      rw [Normalize.lookup_materializeField] at hv
      split at hv
      · next hn =>
        rw [← hn]
        exact .leaf value
      · exact heach name value hv

theorem ordered_fields {v : Json} (h : Ordered .fields v) :
    Ordered .fields (Normalize.materializeFieldArray v) := by
  cases h with
  | object _ _ ho => exact absurd ho (by decide)
  | array _ items ha hset heach =>
    refine .array .fields _ ha (fun hs : Place.fields.isSet = true => absurd hs (by decide)) ?_
    intro item hi
    obtain ⟨original, hm, rfl⟩ := List.mem_map.1 hi
    exact ordered_materializeField (heach original hm)

theorem ordered_members {place : Place} {members : List (String × Json)}
    {f : String → Json → Json} (h : Ordered place (object members)) (hp : place ≠ .leaf)
    (hf : ∀ name value, Ordered (place.member name) value →
      Ordered (place.member name) (f name value)) :
    Ordered place (object (members.map fun m => (m.1, f m.1 m.2))) := by
  cases h with
  | leaf => exact absurd rfl hp
  | object _ _ ho hclosed heach =>
    refine .object place _ ho ?_ ?_
    · intro name value hv
      rw [lookup_map] at hv
      obtain ⟨original, hl, -⟩ := Option.map_eq_some_iff.1 hv
      exact hclosed name original hl
    · intro name value hv
      rw [lookup_map] at hv
      obtain ⟨original, hl, rfl⟩ := Option.map_eq_some_iff.1 hv
      exact hf name original (heach name original hl)

theorem ordered_materializeOperation {v : Json} (h : Ordered .operation v) :
    Ordered .operation (Normalize.materializeOperation v) := by
  cases v with
  | object members =>
    refine @ordered_members .operation members
      (fun name value => if name = "params" then Normalize.materializeFieldArray value else value)
      h (by decide) fun name value hv => ?_
    by_cases hn : name = "params"
    · rw [if_pos hn]
      subst hn
      exact ordered_fields hv
    · rwa [if_neg hn]
  | _ => exact h

theorem identityOf_members (f : String → Json → Json) (hf : ∀ value, f "identity" value = value)
    (members : List (String × Json)) :
    identityOf (object (members.map fun m => (m.1, f m.1 m.2))) = identityOf (object members) := by
  change (lookup "identity" _).bind asStr = (lookup "identity" members).bind asStr
  rw [lookup_map, funext hf]
  cases lookup "identity" members <;> rfl

theorem ordered_operations {v : Json} (h : Ordered .operations v) :
    Ordered .operations (Normalize.materializeOperations v) := by
  cases h with
  | object _ _ ho => exact absurd ho (by decide)
  | array _ items ha hset heach =>
    refine ordered_map ha hset (fun item => ?_) fun item hi =>
      ordered_materializeOperation (heach item hi)
    cases item with
    | object members =>
      exact identityOf_members (fun name value =>
        if name = "params" then Normalize.materializeFieldArray value else value)
        (fun _ => rfl) members
    | _ => rfl

theorem ordered_materializeType {v : Json} (h : Ordered .type v) :
    Ordered .type (Normalize.materializeType v) := by
  cases v with
  | object members =>
    refine @ordered_members .type members
      (fun name value => if name = "fields" then Normalize.materializeFieldArray value
        else if name = "operations" then Normalize.materializeOperations value else value)
      h (by decide) fun name value hv => ?_
    by_cases hf : name = "fields"
    · rw [if_pos hf]
      subst hf
      exact ordered_fields hv
    rw [if_neg hf]
    by_cases ho : name = "operations"
    · rw [if_pos ho]
      subst ho
      exact ordered_operations hv
    · rwa [if_neg ho]
  | _ => exact h

theorem ordered_types {v : Json} (h : Ordered .types v) :
    Ordered .types (Normalize.materializeTypes v) := by
  cases h with
  | object _ _ ho => exact absurd ho (by decide)
  | array _ items ha hset heach =>
    refine ordered_map ha hset (fun item => ?_) fun item hi =>
      ordered_materializeType (heach item hi)
    cases item with
    | object members =>
      exact identityOf_members (fun name value =>
        if name = "fields" then Normalize.materializeFieldArray value
        else if name = "operations" then Normalize.materializeOperations value else value)
        (fun _ => rfl) members
    | _ => rfl

theorem ordered_materializeIr {v : Json} (h : Ordered .root v) :
    Ordered .root (Normalize.materializeIr v) := by
  cases h with
  | array _ _ ha => exact absurd ha (by decide)
  | object _ members ho hclosed heach =>
    refine .object .root _ ho ?_ ?_
    · intro name value hv
      by_cases hc : name = "canonicalization"
      · subst hc
        decide
      · rw [Normalize.lookup_materializeMembers hc] at hv
        cases hl : lookup name members with
        | none => simp [hl] at hv
        | some original => exact hclosed name original hl
    · intro name value hv
      by_cases hc : name = "canonicalization"
      · subst hc
        exact .leaf value
      · rw [Normalize.lookup_materializeMembers hc] at hv
        split at hv
        · next ht =>
          subst ht
          obtain ⟨original, hl, rfl⟩ := Option.map_eq_some_iff.1 hv
          exact ordered_types (heach _ original hl)
        · exact heach name value hv

/-! ### The copy of a materialized document -/

theorem normal_descriptor : normal Normalize.descriptor = Normalize.descriptor := by
  decide +kernel

theorem materialize_normal (v : Json) : materialize (normal (Normalize.materializeField v)) =
    normal (Normalize.materializeField v) := by
  cases v with
  | object members =>
    have hobject : normal (Normalize.materializeField (object members)) =
        object (normalOf ((members.filter fun m => m.1 ≠ "nullable") ++
          [("nullable", bool (lookup "nullable" members == some (bool true)))])) := normal_object _
    have hnullable : lookup "nullable" (normalOf ((members.filter fun m => m.1 ≠ "nullable") ++
        [("nullable", bool (lookup "nullable" members == some (bool true)))])) =
        some (bool (lookup "nullable" members == some (bool true))) := by
      rw [lookup_normalOf, Normalize.lookup_materializeField, if_pos rfl]
      rfl
    rw [hobject, materialize, hnullable, setMember_self (nodup_normalOf _)]
    rw [hnullable]
    cases lookup "nullable" members == some (bool true) <;> decide +kernel
  | _ => rfl

theorem map_normal {f g : Json → Json} (hf : ∀ v, f (normal (g v)) = normal (g v))
    {members : List (String × Json)} {name : String} {original : Option Json}
    (hv : lookup name members = original.map (mapItems g)) {items : List Json}
    (h : lookup name (normalOf members) = some (array items)) : ∀ item ∈ items, f item = item := by
  intro item hi
  rw [lookup_normalOf, hv] at h
  cases original with
  | none => cases h
  | some value =>
    rw [Option.map_some, Option.map_some, Option.some.injEq] at h
    cases value with
    | array originals =>
      rw [mapItems, normal_array, array.injEq] at h
      rw [← h] at hi
      obtain ⟨mapped, hm, rfl⟩ := List.mem_map.1 hi
      obtain ⟨value, -, rfl⟩ := List.mem_map.1 hm
      exact hf value
    | object others =>
      have hobject : normal (mapItems g (object others)) = object (normalOf others) :=
        normal_object others
      rw [hobject] at h
      cases h
    | _ => cases h

theorem operation_normal (v : Json) :
    onMembers (mapMember "params" materialize) (normal (Normalize.materializeOperation v)) =
      normal (Normalize.materializeOperation v) := by
  cases v with
  | object members =>
    rw [Normalize.materializeOperation, normal_object, onMembers]
    congr 1
    have hlookup := lookup_map "params" (fun name value =>
      if name = "params" then Normalize.materializeFieldArray value else value) members
    exact mapMember_self (nodup_normalOf _) fun items hi =>
      map_normal materialize_normal hlookup hi
  | _ => rfl

theorem type_normal (v : Json) : onMembers materializeType (normal (Normalize.materializeType v)) =
    normal (Normalize.materializeType v) := by
  cases v with
  | object members =>
    rw [Normalize.materializeType, normal_object, onMembers]
    congr 1
    have hlookup := fun key => lookup_map key (fun name value =>
      if name = "fields" then Normalize.materializeFieldArray value
      else if name = "operations" then Normalize.materializeOperations value else value) members
    have hfields := @mapMember_self "fields" materialize _ (nodup_normalOf _) fun items hi =>
      map_normal materialize_normal (hlookup "fields") hi
    have hoperations := @mapMember_self "operations" (onMembers (mapMember "params" materialize)) _
      (nodup_normalOf _) fun items hi => map_normal operation_normal (hlookup "operations") hi
    rw [materializeType]
    exact (congrArg _ hfields).trans hoperations
  | _ => rfl

theorem copy_normal (members : List (String × Json)) :
    onMembers normalCopy (normal (Normalize.materializeIr (object members))) =
      normal (Normalize.materializeIr (object members)) := by
  rw [Normalize.materializeIr, normal_object, onMembers]
  congr 1
  have hlookup : lookup "types" (Normalize.materializeMembers false members) =
      (lookup "types" members).map (mapItems Normalize.materializeType) := by
    rw [Normalize.lookup_materializeMembers (by decide), if_pos rfl]
    rfl
  have hdescriptor : lookup "canonicalization" (normalOf (Normalize.materializeMembers false
      members)) = some Normalize.descriptor := by
    rw [lookup_normalOf, Normalize.lookup_descriptor, if_neg Bool.false_ne_true, Option.map_some,
      normal_descriptor]
  have hset := setMember_self (nodup_normalOf _) hdescriptor
  have htypes := @mapMember_self "types" (onMembers materializeType) _ (nodup_normalOf _)
    fun items hi => map_normal type_normal hlookup hi
  exact (congrArg _ hset).trans htypes

/-! ### The nesting limit -/

/-- A value with something nested `n` levels below it. -/
inductive Deep : ℕ → Json → Prop
  | here (value : Json) : Deep 0 value
  | array (n : ℕ) (items : List Json) (item : Json) (hi : item ∈ items) (h : Deep n item) :
      Deep (n + 1) (array items)
  | object (n : ℕ) (members : List (String × Json)) (name : String) (value : Json)
      (hv : lookup name members = some value) (h : Deep n value) : Deep (n + 1) (object members)

theorem itemsWithin_none {P : Type} {E : Encoder P} {p : P} {level : ℕ} {items : List Json}
    {item : Json} (hi : item ∈ items) (h : ∀ i, encodeWithin E maxDepth (E.item p i) level item = none)
    (i : ℕ) : itemsWithin E maxDepth p level i items = none := by
  induction items generalizing i with
  | nil => exact absurd hi List.not_mem_nil
  | cons first items ih =>
    rw [itemsWithin]
    obtain rfl | hi := List.mem_cons.1 hi
    · rw [h i, Option.bind_none]
    · rw [ih hi]
      cases encodeWithin E maxDepth (E.item p i) level first <;> rfl

theorem mapM_none {α β : Type} {f : α → Option β} {l : List α} {a : α} (ha : a ∈ l)
    (hf : f a = none) : l.mapM f = none := by
  induction l with
  | nil => exact absurd ha List.not_mem_nil
  | cons b l ih =>
    rw [List.mapM_cons]
    obtain rfl | ha := List.mem_cons.1 ha
    · rw [hf]
      rfl
    · rw [ih ha]
      cases f b <;> rfl

theorem membersWithin_map {P : Type} (E : Encoder P) (p : P) (level : ℕ)
    (members : List (String × Json)) : membersWithin E maxDepth p level members =
      members.map fun m => (m.1, encodeWithin E maxDepth (E.member p m.1) level m.2) := by
  induction members with
  | nil => rw [membersWithin, List.map_nil]
  | cons m members ih =>
    cases m
    rw [membersWithin, memberWithin, ih, List.map_cons]

theorem encodeWithin_deep {P : Type} (E : Encoder P) {n : ℕ} {v : Json} (h : Deep n v) (p : P)
    (level : ℕ) (hl : maxDepth < level + n) : encodeWithin E maxDepth p level v = none := by
  induction h generalizing p level with
  | here value =>
    have hlevel : maxDepth < level := hl
    cases value <;> simp only [encodeWithin, if_pos hlevel]
  | array n items item hi _ ih =>
    rw [encodeWithin]
    split
    · rfl
    · rw [itemsWithin_none hi fun i => ih (E.item p i) (level + 1) (by omega), Option.map_none]
  | object n members name value hv _ ih =>
    rw [encodeWithin]
    split
    · rfl
    · have hm : (name, value) ∈ sortedMembers members := by
        rw [← lookup_sortedMembers] at hv
        exact mem_of_lookup hv
      rw [joinMembers, membersWithin_map, sortedMembers_map fun name value =>
        encodeWithin E maxDepth (E.member p name) (level + 1) value]
      refine Option.map_eq_none_iff.2 (mapM_none (List.mem_map_of_mem hm) ?_)
      rw [withText, ih _ (level + 1) (by omega), Option.map_none]

theorem deep_of_depth (v : Json) (n : ℕ) (hn : n ≤ depth (normal v)) : Deep n (normal v) := by
  induction v using nested_induction generalizing n with
  | array items ih =>
    cases n with
    | zero => exact .here _
    | succ n =>
      rw [normal_array] at hn ⊢
      rw [depth] at hn
      by_contra hdeep
      have hle : Grammar.depthItems (items.map normal) ≤ n := by
        rw [depthItems_le]
        intro item hi
        obtain ⟨original, ho, rfl⟩ := List.mem_map.1 hi
        by_contra hlt
        exact hdeep (.array n _ _ hi (ih original ho n (by omega)))
      omega
  | object members ih =>
    cases n with
    | zero => exact .here _
    | succ n =>
      rw [normal_object] at hn ⊢
      rw [depth] at hn
      by_contra hdeep
      have hle : Grammar.depthMembers (normalOf members) ≤ n := by
        rw [depthMembers_le]
        intro m hm
        obtain ⟨original, ho, rfl⟩ := List.mem_map.1 hm
        by_contra hlt
        have hdepth : ¬ depth (normal original.2) + 1 ≤ n := hlt
        have hl := lookup_of_sorted ho
        refine hdeep (.object n (normalOf members) original.1 (normal original.2) ?_
          (ih original (mem_of_lookup hl) n (by omega)))
        rw [lookup_normalOf, hl, Option.map_some]
      change n + 1 ≤ Grammar.depthMembers (normalOf members) at hn
      omega
  | _ =>
    cases n with
    | zero => exact .here _
    | succ n => cases hn

/-- The compiler leaves the normal form of an ordered document as it is, or throws. -/
theorem normalizeIr_normal {members : List (String × Json)} (h : Ordered .root (object members)) :
    normalizeIr (normal (Normalize.materializeIr (object members))) =
      if depth (normal (Normalize.materializeIr (object members))) ≤ maxDepth then
        some (canonical (Normalize.materializeIr (object members)))
      else none := by
  rw [normalizeIr, copy_normal]
  split
  · next hd =>
    rw [canonicalIr_ordered (ordered_normal (ordered_materializeIr h)) hd, canonical_normal]
  · next hd =>
    have hdeep := deep_of_depth (Normalize.materializeIr (object members)) (maxDepth + 1) (by omega)
    exact encodeWithin_deep (encoder identitySets) hdeep "" 0 (by omega)

end FilamentCore.Compiler.Canonical
