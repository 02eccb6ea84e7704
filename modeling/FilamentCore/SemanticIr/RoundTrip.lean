import FilamentCore.SemanticIr.NormalForm

/-!
# The round trip of the canonical form (crates/semantic-ir/src/json.rs)

Reading a canonical form gives the normal form of the value, which differs from it in member order,
repeated names and the spelling of numbers alone; and the canonical form decides a value up to these.
-/

namespace FilamentCore.SemanticIr
open FilamentCore.Library
open Grammar

namespace Json

/-- Equal up to the order of members, to all but the last member of each name and to the spelling of
numbers. -/
inductive Equivalent : Json → Json → Prop where
  | null : Equivalent null null
  | bool (value : Bool) : Equivalent (bool value) (bool value)
  | number {n m : Number} : n.value = m.value → Equivalent (number n) (number m)
  | str (text : String) : Equivalent (str text) (str text)
  | emptyArray : Equivalent (array []) (array [])
  | array {v w : Json} {vs ws : List Json} : Equivalent v w → Equivalent (array vs) (array ws) →
      Equivalent (array (v :: vs)) (array (w :: ws))
  | object {ms ns : List (String × Json)} :
      (∀ key, (lookup key ms).isSome = (lookup key ns).isSome) →
      (∀ key v w, lookup key ms = some v → lookup key ns = some w → Equivalent v w) →
      Equivalent (object ms) (object ns)

/-- No object repeats a name, and each has its members in UTF-16 code-unit order. -/
inductive Ordered : Json → Prop where
  | null : Ordered null
  | bool (value : Bool) : Ordered (bool value)
  | number (n : Number) : Ordered (number n)
  | str (text : String) : Ordered (str text)
  | array {items : List Json} : (∀ item ∈ items, Ordered item) → Ordered (array items)
  | object {members : List (String × Json)} : (members.map Prod.fst).Nodup →
      members.Pairwise (fun l r => utf16Le l.1 r.1 = true) → (∀ m ∈ members, Ordered m.2) →
      Ordered (object members)

/-- Reading the canonical form of a value gives it back, ordered. -/
structure RoundTrips (v : Json) : Prop where
  valid : JsonText (canonical v) (normal v)
  reads : ∀ limits : ReadLimits, (String.ofList (canonical v)).utf8ByteSize ≤ limits.maxBytes →
    Reader.DepthOk limits.maxDepth (depth v) →
      parseWith (String.ofList (canonical v)) limits = .ok (normal v)
  ordered : Ordered (normal v)
  equivalent : Equivalent v (normal v)
  again : canonical (normal v) = canonical v

/-! ### The equivalence -/

namespace Equivalent

theorem array_of_forall {f : Json → Json} {items : List Json}
    (h : ∀ item ∈ items, Equivalent item (f item)) :
    Equivalent (Json.array items) (Json.array (items.map f)) := by
  induction items with
  | nil => exact .emptyArray
  | cons item items ih => exact .array (h item (.head _)) (ih fun other ho => h other (.tail _ ho))

theorem symm {v w : Json} (h : Equivalent v w) : Equivalent w v := by
  induction h with
  | null => exact .null
  | bool value => exact .bool value
  | number hn => exact .number hn.symm
  | str text => exact .str text
  | emptyArray => exact .emptyArray
  | array _ _ ihv ihvs => exact .array ihv ihvs
  | object hkeys _ ih =>
    refine .object (fun key => (hkeys key).symm) ?_
    exact fun key v w hv hw => ih key w v hw hv

theorem trans {u v w : Json} (h : Equivalent u v) (h' : Equivalent v w) : Equivalent u w := by
  induction h generalizing w with
  | number hn =>
    cases h' with
    | number hm => exact .number (hn.trans hm)
  | array _ _ ihv ihvs =>
    cases h' with
    | array hv hvs => exact .array (ihv hv) (ihvs hvs)
  | object hkeys _ ih =>
    cases h' with
    | object hkeys' hvalues =>
      refine .object (fun key => (hkeys key).trans (hkeys' key)) fun key v w hv hw => ?_
      have hsome := hkeys key
      rw [hv, Option.isSome_some, eq_comm, Option.isSome_iff_exists] at hsome
      obtain ⟨x, hx⟩ := hsome
      exact ih key v x hv hx (hvalues key x w hx hw)
  | _ => exact h'

theorem canonical_eq {v w : Json} (h : Equivalent v w) : canonical v = canonical w := by
  induction h with
  | number hn => rw [canonical, canonical, hn]
  | @array v w vs ws _ hvs ihv ihvs =>
    rw [canonical_array, canonical_array] at ihvs ⊢
    rw [List.map_cons, List.map_cons, ihv]
    cases hvs with
    | emptyArray => rfl
    | array _ _ =>
      rw [List.map_cons, List.map_cons] at ihvs ⊢
      have hrest := List.append_cancel_right (List.cons.inj ihvs).2
      rw [commaSeparated_cons, commaSeparated_cons, hrest]
  | @object ms ns hkeys _ ih =>
    refine canonical_object_eq fun key => ?_
    have hsome := hkeys key
    cases hv : lookup key ms with
    | none =>
      rw [hv, Option.isSome_none, eq_comm, Option.isSome_eq_false_iff,
        Option.isNone_iff_eq_none] at hsome
      rw [hsome]
    | some v =>
      rw [hv, Option.isSome_some, eq_comm, Option.isSome_iff_exists] at hsome
      obtain ⟨w, hw⟩ := hsome
      rw [hw, Option.map_some, Option.map_some, ih key v w hv hw]
  | _ => rfl

end Equivalent

/-! ### The normal form -/

theorem equivalent_normal (v : Json) : Equivalent v (normal v) := by
  induction v using nested_induction with
  | null => exact .null
  | bool value => exact .bool value
  | number n => exact .number n.normal_value.symm
  | str text => exact .str text
  | array items ih =>
    rw [normal_array]
    exact Equivalent.array_of_forall ih
  | object members ih =>
    rw [normal_object]
    have hlookup : ∀ key, lookup key (normalOf members) = (lookup key members).map normal :=
      fun key => lookup_normalOf key members
    refine .object (fun key => ?_) fun key v w hv hw => ?_
    · rw [← normalOf, hlookup, Option.isSome_map]
    · rw [← normalOf, hlookup, hv, Option.map_some, Option.some.injEq] at hw
      rw [← hw]
      exact ih _ (mem_of_lookup hv)

theorem ordered_normal (v : Json) : Ordered (normal v) := by
  induction v using nested_induction with
  | null => exact .null
  | bool value => exact .bool value
  | number n => exact .number n.normal
  | str text => exact .str text
  | array items ih =>
    rw [normal_array]
    refine .array fun item hi => ?_
    obtain ⟨original, ho, rfl⟩ := List.mem_map.1 hi
    exact ih original ho
  | object members ih =>
    rw [normal_object]
    refine .object (nodup_normalOf members) ?_ fun m hm => ?_
    · exact List.pairwise_map.2 (pairwise_sortedMembers members)
    · obtain ⟨original, ho, rfl⟩ := List.mem_map.1 hm
      exact ih original (mem_of_lookup (lookup_of_sorted ho))

theorem roundTrips (v : Json) : RoundTrips v := by
  have hvalid : JsonText (canonical v) (normal v) := jsonText_canonical.2 rfl
  refine ⟨hvalid, fun limits hbytes hdepth => ?_, ordered_normal v, equivalent_normal v,
    canonical_normal v⟩
  rw [parseWith_ok hbytes, String.toList_ofList]
  exact ⟨hvalid, hdepth.mono (depth_normal v)⟩

theorem equivalent_of_canonical {v w : Json} (h : canonical v = canonical w) : Equivalent v w := by
  have hvalid : JsonText (canonical v) (normal w) := by
    rw [h]
    exact jsonText_canonical.2 rfl
  have hnormal := equivalent_normal w
  rw [jsonText_canonical.1 hvalid] at hnormal
  exact (equivalent_normal v).trans hnormal.symm

/-- Every value comes back from its canonical form, which two values share exactly where they are
equivalent. -/
theorem canonical_round_trip : (∀ v : Json, RoundTrips v) ∧
    ∀ v w : Json, canonical v = canonical w ↔ Equivalent v w :=
  ⟨roundTrips, fun _ _ => ⟨equivalent_of_canonical, Equivalent.canonical_eq⟩⟩

end Json
end FilamentCore.SemanticIr
