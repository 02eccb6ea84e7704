import FilamentCore.Backends.TypescriptCanonical
import FilamentCore.Frontend.LiftNormalForm
import FilamentCore.Library.SortedPairs
import FilamentCore.SemanticIr.RoundTrip

/-!
# Documents with one normal form (src/compiler/ir/normalize.mjs)

Two documents are normalized to the same bytes where they differ in the order of members and of the
identity sets, in the descriptor and in `nullable` that is not true, and a normal form is
normalized to itself.
-/

namespace FilamentCore.Compiler.Canonical
open FilamentCore.Library
open FilamentCore.SemanticIr
open FilamentCore.SemanticIr.Json
open FilamentCore.SemanticIr.Grammar (depth JsonText)
open FilamentCore.Frontend.Document (placeOrder orderSet arrange_leaf perm_orderSet)

/-! ### The same document -/

/-- A member as documents are compared by it: the descriptor for nothing, and `nullable` for
whether it is true. -/
def counted (place : Place) (name : String) (value : Option Json) : Option Json :=
  if place = .root ∧ name = "canonicalization" then none
  else if place = .field ∧ name = "nullable" then some (.bool (value == some (.bool true)))
  else value

/-- Equal up to the order of members and of the identity sets, and what is not counted. -/
inductive SameAt : Place → Json → Json → Prop
  | leaf {v w : Json} (h : Equivalent v w) : SameAt .leaf v w
  | object {place : Place} {members others : List (String × Json)} (hp : place ≠ .leaf)
      (named : ∀ name, (counted place name (lookup name members)).isSome =
        (counted place name (lookup name others)).isSome)
      (same : ∀ name v w, counted place name (lookup name members) = some v →
        counted place name (lookup name others) = some w → SameAt (place.member name) v w) :
      SameAt place (object members) (object others)
  | list {place : Place} {items others : List Json} (ha : place.isArray = true)
      (hs : place.isSet = false) (hl : items.length = others.length)
      (each : ∀ v w, (v, w) ∈ items.zip others → SameAt place.item v w) :
      SameAt place (array items) (array others)
  | set {place : Place} {items arranged others : List Json} (hs : place.isSet = true)
      (hp : arranged.Perm others) (hl : items.length = arranged.length)
      (each : ∀ v w, (v, w) ∈ items.zip arranged → SameAt place.item v w) :
      SameAt place (array items) (array others)

/-! ### The copy -/

/-- What `normalizeIr` copies at each place. -/
def copyAt : Place → Json → Json
  | .root => onMembers normalCopy
  | .types => mapItems (onMembers materializeType)
  | .type => onMembers materializeType
  | .fields => mapItems materialize
  | .field => materialize
  | .operations => mapItems (onMembers (mapMember "params" materialize))
  | .operation => onMembers (mapMember "params" materialize)
  | .set => id
  | .leaf => id

theorem copyAt_array {place : Place} (ha : place.isArray = true) (items : List Json) :
    copyAt place (array items) = array (items.map (copyAt place.item)) := by
  cases place with
  | set =>
    change array items = array (items.map id)
    rw [List.map_id]
  | types => rfl
  | fields => rfl
  | operations => rfl
  | _ => cases ha

def copiedMember (place : Place) (name : String) (value : Option Json) : Option Json :=
  if place = .root ∧ name = "canonicalization" then some (.object [("algorithm", .str "rfc8785-v1")])
  else (counted place name value).map (copyAt (place.member name))

theorem copiedMember_eq {place : Place} {name : String}
    (hd : ¬ (place = .root ∧ name = "canonicalization"))
    (hn : ¬ (place = .field ∧ name = "nullable")) (value : Option Json) :
    copiedMember place name value = value.map (copyAt (place.member name)) := by
  rw [copiedMember, counted, if_neg hd, if_neg hd, if_neg hn]

theorem map_copyAt_leaf {place : Place} {name : String} (hn : place.member name = .leaf)
    (value : Option Json) : value.map (copyAt (place.member name)) = value := by
  rw [hn]
  exact Option.map_id'

theorem lookup_copyRoot (name : String) (members : List (String × Json)) :
    lookup name (normalCopy members) = copiedMember .root name (lookup name members) := by
  rw [normalCopy, lookup_mapMember, lookup_setMember]
  by_cases hc : name = "canonicalization"
  · subst hc
    rfl
  rw [if_neg (Ne.symm hc), copiedMember_eq (fun h => hc h.2) (fun h => absurd h.1 (by decide))]
  by_cases ht : name = "types"
  · subst ht
    rfl
  rw [if_neg (Ne.symm ht)]
  by_cases hset : name = "occurrences" ∨ name = "extensions"
  · have hplace : Place.root.member name = .set := by
      obtain rfl | rfl := hset <;> rfl
    rw [hplace]
    exact Option.map_id'.symm
  · rw [map_copyAt_leaf (member_eq_leaf ?_)]
    simp only [Place.rows, List.forall_mem_cons]
    exact ⟨Ne.symm ht, fun h => hset (.inl h.symm), fun h => hset (.inr h.symm),
      fun row hr => absurd hr List.not_mem_nil⟩

theorem lookup_copyType (name : String) (members : List (String × Json)) :
    lookup name (materializeType members) = copiedMember .type name (lookup name members) := by
  rw [materializeType, lookup_mapMember, lookup_mapMember,
    copiedMember_eq (fun h => absurd h.1 (by decide)) (fun h => absurd h.1 (by decide))]
  by_cases ho : name = "operations"
  · subst ho
    rfl
  rw [if_neg (Ne.symm ho)]
  by_cases hf : name = "fields"
  · subst hf
    rfl
  rw [if_neg (Ne.symm hf)]
  by_cases hset : name ∈ ["variants", "constraints", "relationships", "clauses", "extensions"]
  · have hplace : ∀ name ∈ ["variants", "constraints", "relationships", "clauses", "extensions"],
        Place.type.member name = .set := by decide
    rw [hplace name hset]
    exact Option.map_id'.symm
  · rw [map_copyAt_leaf (member_eq_leaf ?_)]
    simp only [List.mem_cons, not_or] at hset
    simp only [Place.rows, List.forall_mem_cons]
    exact ⟨Ne.symm hset.1, Ne.symm hset.2.1, Ne.symm hset.2.2.1, Ne.symm ho,
      Ne.symm hset.2.2.2.1, Ne.symm hset.2.2.2.2.1, Ne.symm hf,
      fun row hr => absurd hr List.not_mem_nil⟩

theorem lookup_copyOperation (name : String) (members : List (String × Json)) :
    lookup name (mapMember "params" materialize members) =
      copiedMember .operation name (lookup name members) := by
  rw [lookup_mapMember,
    copiedMember_eq (fun h => absurd h.1 (by decide)) (fun h => absurd h.1 (by decide))]
  by_cases hp : name = "params"
  · subst hp
    rfl
  · rw [if_neg (Ne.symm hp), map_copyAt_leaf (member_eq_leaf ?_)]
    intro row hr hn
    rw [List.mem_singleton.1 hr] at hn
    exact hp hn.symm

theorem lookup_copyField (name : String) (members : List (String × Json)) :
    lookup name (setMember "nullable"
        (.bool (lookup "nullable" members == some (.bool true))) members) =
      copiedMember .field name (lookup name members) := by
  rw [lookup_setMember]
  by_cases hn : name = "nullable"
  · subst hn
    rfl
  rw [if_neg (Ne.symm hn), copiedMember_eq (fun h => absurd h.1 (by decide)) (fun h => hn h.2)]
  by_cases he : name = "extensions"
  · subst he
    exact Option.map_id'.symm
  · rw [map_copyAt_leaf (member_eq_leaf ?_)]
    intro row hr hr'
    rw [List.mem_singleton.1 hr] at hr'
    exact he hr'.symm

theorem copyAt_object {place : Place} (hp : place ≠ .leaf) (ho : place.isArray = false)
    (members : List (String × Json)) : ∃ copied, copyAt place (object members) = object copied ∧
      ∀ name, lookup name copied = copiedMember place name (lookup name members) := by
  cases place with
  | leaf => exact absurd rfl hp
  | root => exact ⟨_, rfl, fun name => lookup_copyRoot name members⟩
  | type => exact ⟨_, rfl, fun name => lookup_copyType name members⟩
  | field => exact ⟨_, rfl, fun name => lookup_copyField name members⟩
  | operation => exact ⟨_, rfl, fun name => lookup_copyOperation name members⟩
  | _ => cases ho

/-! ### The form of a value at its place -/

def form (place : Place) (v : Json) : Json := arrange placeOrder place (copyAt place v)

theorem form_leaf (v : Json) : form .leaf v = v := arrange_leaf v

theorem form_array {place : Place} (ha : place.isArray = true) (items : List Json) :
    form place (array items) =
      array (placeOrder.order place (items.map (form place.item))) := by
  rw [form, copyAt_array ha, arrange_array, List.map_map]
  rfl

def formedMember (place : Place) (name : String) (value : Option Json) : Option Json :=
  if place = .root ∧ name = "canonicalization" then some Normalize.descriptor
  else (counted place name value).map (form (place.member name))

theorem form_object {place : Place} (hp : place ≠ .leaf) (ho : place.isArray = false)
    (members : List (String × Json)) : ∃ formed, form place (object members) = object formed ∧
      ∀ name, lookup name formed = formedMember place name (lookup name members) := by
  obtain ⟨copied, hcopied, hlookup⟩ := copyAt_object hp ho members
  rw [form, hcopied, arrange_object]
  refine ⟨_, rfl, fun name => ?_⟩
  rw [lookup_map name fun name v => arrange placeOrder (placeOrder.member place name) v,
    hlookup name, copiedMember, formedMember]
  by_cases hd : place = .root ∧ name = "canonicalization"
  · rw [if_pos hd, if_pos hd, hd.1, hd.2]
    exact congrArg some (arrange_leaf _)
  · rw [if_neg hd, if_neg hd, Option.map_map]
    rfl

/-! ### Equivalent forms -/

theorem equivalent_array_iff {vs ws : List Json} :
    Equivalent (array vs) (array ws) ↔ List.Forall₂ Equivalent vs ws := by
  constructor
  · intro h
    induction vs generalizing ws with
    | nil =>
      cases h
      exact .nil
    | cons v vs ih =>
      cases h with
      | array hv hvs => exact .cons hv (ih hvs)
  · intro h
    induction h with
    | nil => exact .emptyArray
    | cons hv _ ih => exact .array hv ih

theorem equivalent_object_iff {ms ns : List (String × Json)} :
    Equivalent (object ms) (object ns) ↔
      (∀ key, (lookup key ms).isSome = (lookup key ns).isSome) ∧
      ∀ key v w, lookup key ms = some v → lookup key ns = some w → Equivalent v w := by
  constructor
  · intro h
    cases h with
    | object hkeys hvalues => exact ⟨hkeys, hvalues⟩
  · exact fun h => .object h.1 h.2

theorem identityOf_equivalent {v w : Json} (h : Equivalent v w) {identity : String}
    (hv : identityOf v = some identity) : identityOf w = some identity := by
  obtain ⟨value, hvalue, htext⟩ := Option.bind_eq_some_iff.1 hv
  cases h with
  | @object ms ns hkeys hsame =>
    change lookup "identity" ms = some value at hvalue
    have hsome := hkeys "identity"
    rw [hvalue, Option.isSome_some, eq_comm, Option.isSome_iff_exists] at hsome
    obtain ⟨other, ho⟩ := hsome
    have hother := hsame _ _ _ hvalue ho
    change (lookup "identity" ns).bind asStr = some identity
    rw [ho, Option.bind_some]
    cases hother with
    | str text => exact htext
    | _ => cases htext
  | _ => cases hvalue

theorem identityOf_copyAt (place : Place) (v : Json) :
    identityOf (copyAt place v) = identityOf v := by
  cases v with
  | object members =>
    by_cases ho : place.isArray = true ∨ place = .leaf
    · cases place with
      | types => rfl
      | fields => rfl
      | operations => rfl
      | set => rfl
      | leaf => rfl
      | _ => simp [Place.isArray] at ho
    · rw [not_or, Bool.not_eq_true] at ho
      obtain ⟨copied, hcopied, hlookup⟩ := copyAt_object ho.2 ho.1 members
      have hleaf : place.member "identity" = .leaf := by
        cases place <;> decide
      have hidentity := hlookup "identity"
      rw [copiedMember_eq (fun h => absurd h.2 (by decide)) (fun h => absurd h.2 (by decide)),
        map_copyAt_leaf hleaf] at hidentity
      rw [hcopied]
      exact congrArg (fun value : Option Json => value.bind asStr) hidentity
  | _ => cases place <;> rfl

theorem identityOf_form (place : Place) (v : Json) : identityOf (form place v) = identityOf v := by
  rw [form, identityOf_arrange, identityOf_copyAt]

/-! ### One form -/

theorem sameAt_leaf {v w : Json} : SameAt .leaf v w ↔ Equivalent v w := by
  constructor
  · intro h
    cases h with
    | leaf h => exact h
    | object hp => exact absurd rfl hp
    | list ha => exact absurd ha (by decide)
    | set hs => exact absurd hs (by decide)
  · exact .leaf

theorem same_members {place : Place} (hp : place ≠ .leaf) {members others : List (String × Json)}
    (h : SameAt place (object members) (object others)) :
    (∀ name, (counted place name (lookup name members)).isSome =
      (counted place name (lookup name others)).isSome) ∧
    ∀ name v w, counted place name (lookup name members) = some v →
      counted place name (lookup name others) = some w → SameAt (place.member name) v w := by
  cases h with
  | leaf => exact absurd rfl hp
  | object _ hnamed hsame => exact ⟨hnamed, hsame⟩

theorem counted_some {place : Place} {name : String} {value : Option Json} {v : Json}
    (h : counted place name value = some v) : value = some v ∨ place.member name = .leaf := by
  rw [counted] at h
  split at h
  · cases h
  split at h
  · next hn =>
    rw [hn.1, hn.2]
    exact .inr rfl
  · exact .inl h

theorem sameAt_object_iff {place : Place} (hp : place ≠ .leaf) (ho : place.isArray = false)
    {members others : List (String × Json)}
    (ih : ∀ name v w, lookup name members = some v → lookup name others = some w →
      (SameAt (place.member name) v w ↔
        Equivalent (form (place.member name) v) (form (place.member name) w))) :
    SameAt place (object members) (object others) ↔
      Equivalent (form place (object members)) (form place (object others)) := by
  obtain ⟨formed, hformed, hlookup⟩ := form_object hp ho members
  obtain ⟨formed', hformed', hlookup'⟩ := form_object hp ho others
  have hcounted : ∀ name v w, counted place name (lookup name members) = some v →
      counted place name (lookup name others) = some w →
      (SameAt (place.member name) v w ↔
        Equivalent (form (place.member name) v) (form (place.member name) w)) := by
    intro name v w hv hw
    have hleaf : place.member name = .leaf → (SameAt (place.member name) v w ↔
        Equivalent (form (place.member name) v) (form (place.member name) w)) := by
      intro hl
      rw [hl, form_leaf, form_leaf]
      exact sameAt_leaf
    obtain hv | hl := counted_some hv
    · obtain hw | hl := counted_some hw
      · exact ih name v w hv hw
      · exact hleaf hl
    · exact hleaf hl
  rw [hformed, hformed', equivalent_object_iff]
  constructor
  · intro h
    obtain ⟨hnamed, hsame⟩ := same_members hp h
    refine ⟨fun name => ?_, fun name v w hv hw => ?_⟩
    · rw [hlookup, hlookup', formedMember, formedMember]
      split
      · rfl
      · rw [Option.isSome_map, Option.isSome_map, hnamed name]
    · rw [hlookup, formedMember] at hv
      rw [hlookup', formedMember] at hw
      split at hv
      · next hd =>
        rw [if_pos hd] at hw
        rw [← Option.some.inj hv, ← Option.some.inj hw]
        exact (equivalent_normal _).trans (equivalent_normal _).symm
      · next hd =>
        rw [if_neg hd] at hw
        obtain ⟨original, hm, rfl⟩ := Option.map_eq_some_iff.1 hv
        obtain ⟨other, ho, rfl⟩ := Option.map_eq_some_iff.1 hw
        exact (hcounted name original other hm ho).1 (hsame name original other hm ho)
  · rintro ⟨hnamed, hsame⟩
    have hregular : ∀ name, ¬ (place = .root ∧ name = "canonicalization") →
        lookup name formed = (counted place name (lookup name members)).map
          (form (place.member name)) ∧
        lookup name formed' = (counted place name (lookup name others)).map
          (form (place.member name)) := by
      intro name hd
      rw [hlookup, hlookup', formedMember, formedMember, if_neg hd, if_neg hd]
      exact ⟨rfl, rfl⟩
    refine .object hp (fun name => ?_) fun name v w hv hw => ?_
    · by_cases hd : place = .root ∧ name = "canonicalization"
      · rw [counted, counted, if_pos hd, if_pos hd]
      · obtain ⟨hm, ho⟩ := hregular name hd
        have heq := hnamed name
        rwa [hm, ho, Option.isSome_map, Option.isSome_map] at heq
    · have hd : ¬ (place = .root ∧ name = "canonicalization") := by
        intro hd
        rw [counted, if_pos hd] at hv
        cases hv
      obtain ⟨hm, ho⟩ := hregular name hd
      rw [hv, Option.map_some] at hm
      rw [hw, Option.map_some] at ho
      exact (hcounted name v w hv hw).2 (hsame name _ _ hm ho)

/-- The order that sorts a set. -/
def KeyLe (i j : String) : Prop := utf16Le i j = true

instance : DecidableRel KeyLe := fun i j => inferInstanceAs (Decidable (utf16Le i j = true))

instance : Std.Total KeyLe := ⟨utf16Le_total⟩

instance : IsTrans String KeyLe := ⟨fun _ _ _ => utf16Le_trans⟩

instance : Std.Antisymm KeyLe := ⟨fun _ _ => utf16Le_antisymm⟩

theorem map_sortBy (f : Json → Json) (items : List Json) :
    orderSet (items.map f) = (SortedPairs.sortBy KeyLe (fun v => sortKey (f v)) items).map f :=
  (List.map_insertionSort _ _ f items fun _ _ _ _ => Iff.rfl).symm

theorem sortKey_named {items : List Json} (h : Identified items) :
    ∀ v ∈ items, identityOf v = some (sortKey v) := by
  intro v hv
  obtain ⟨identity, hi⟩ := h.named v hv
  rw [hi, sortKey_eq hi]

theorem nodup_sortKey {items : List Json} (h : Identified items) : (items.map sortKey).Nodup := by
  have hmap : (items.map sortKey).map some = items.map identityOf := by
    rw [List.map_map]
    exact List.map_congr_left fun v hv => (sortKey_named h v hv).symm
  have hd := h.distinct
  rw [← hmap] at hd
  exact hd.of_map

theorem equivalent_sets {items others : List Json} (hi : Identified items)
    (ho : Identified others) {f : Json → Json} (hf : ∀ v, identityOf (f v) = identityOf v) :
    List.Forall₂ Equivalent (orderSet (items.map f)) (orderSet (others.map f)) ↔
      ∃ arranged, arranged.Perm others ∧
        List.Forall₂ (fun v w => Equivalent (f v) (f w)) items arranged := by
  have hkeep : ∀ v ∈ items, ∀ w, Equivalent (f v) (f w) → sortKey (f v) = sortKey (f w) := by
    intro v hv w hr
    have hnamed := sortKey_named (hi.map hf) _ (List.mem_map_of_mem hv)
    exact (sortKey_eq (identityOf_equivalent hr hnamed)).symm
  have hnodup := nodup_sortKey (ho.map hf)
  rw [List.map_map] at hnodup
  rw [map_sortBy, map_sortBy, List.forall₂_map_left_iff, List.forall₂_map_right_iff,
    SortedPairs.related_sortBy hkeep hnodup]

theorem sameAt_array_iff {place : Place} (ha : place.isArray = true) {items others : List Json}
    (hset : place.isSet = true → Identified items ∧ Identified others)
    (ih : ∀ v ∈ items, ∀ w ∈ others, (SameAt place.item v w ↔
      Equivalent (form place.item v) (form place.item w))) :
    SameAt place (array items) (array others) ↔
      Equivalent (form place (array items)) (form place (array others)) := by
  have hpairs : ∀ arranged : List Json, (∀ w ∈ arranged, w ∈ others) →
      ((items.length = arranged.length ∧
        ∀ v w, (v, w) ∈ items.zip arranged → SameAt place.item v w) ↔
      List.Forall₂ (fun v w => Equivalent (form place.item v) (form place.item w)) items
        arranged) := by
    intro arranged hm
    rw [List.forall₂_iff_zip]
    refine and_congr_right fun _ => forall₂_congr fun v w => ?_
    refine forall_congr' fun hz => ?_
    obtain ⟨hv, hw⟩ := List.of_mem_zip hz
    exact ih v hv w (hm w hw)
  rw [form_array ha, form_array ha, equivalent_array_iff]
  by_cases hs : place.isSet = true
  · obtain ⟨hitems, hothers⟩ := hset hs
    have horder : ∀ l : List Json, placeOrder.order place l = orderSet l := fun l => if_pos hs
    rw [horder, horder, equivalent_sets hitems hothers (identityOf_form place.item)]
    constructor
    · intro h
      cases h with
      | leaf => exact absurd ha (by decide)
      | list _ hno => exact absurd hs (by rw [hno]; decide)
      | @set _ _ arranged _ _ hp hl heach =>
        exact ⟨arranged, hp, (hpairs arranged fun w => hp.mem_iff.1).1 ⟨hl, heach⟩⟩
    · rintro ⟨arranged, hp, h⟩
      obtain ⟨hl, heach⟩ := (hpairs arranged fun w => hp.mem_iff.1).2 h
      exact .set hs hp hl heach
  · have horder : ∀ l : List Json, placeOrder.order place l = l := fun l => if_neg hs
    rw [horder, horder, List.forall₂_map_left_iff, List.forall₂_map_right_iff]
    constructor
    · intro h
      cases h with
      | leaf => exact absurd ha (by decide)
      | list _ _ hl heach => exact (hpairs others fun _ => id).1 ⟨hl, heach⟩
      | set hyes => exact absurd hyes hs
    · intro h
      obtain ⟨hl, heach⟩ := (hpairs others fun _ => id).2 h
      exact .list ha (Bool.not_eq_true _ ▸ hs) hl heach

theorem sameAt_iff {place : Place} {v w : Json} (hv : Fits place v) (hw : Fits place w) :
    SameAt place v w ↔ Equivalent (form place v) (form place w) := by
  induction hv generalizing w with
  | leaf v =>
    rw [form_leaf, form_leaf]
    exact sameAt_leaf
  | object place members ho hclosed heach ih =>
    by_cases hp : place = .leaf
    · subst hp
      rw [form_leaf, form_leaf]
      exact sameAt_leaf
    · cases hw with
      | leaf => exact absurd rfl hp
      | object _ others _ _ hothers =>
        exact sameAt_object_iff hp ho fun name v w hv hw => ih name v hv (hothers name w hw)
      | array _ _ ha => exact absurd ha (by rw [ho]; decide)
  | array place items ha hidentified heach ih =>
    cases hw with
    | leaf => exact absurd ha (by decide)
    | object _ _ ho => exact absurd ha (by rw [ho]; decide)
    | array _ others _ hidentified' hothers =>
      exact sameAt_array_iff ha (fun hs => ⟨hidentified hs, hidentified' hs⟩)
        fun v hv w hw => ih v hv (hothers w hw)

/-! ### The text of the form -/

theorem encodeItems_eq_map (place : Place) (i : ℕ) (items : List Json) :
    encodeItems identityEncoder place i items =
      items.map fun item => (item, encode identityEncoder place.item item) := by
  induction items generalizing i with
  | nil => rw [encodeItems, List.map_nil]
  | cons item items ih =>
    rw [encodeItems, ih, List.map_cons]
    rfl

theorem sortByIdentity_map {items : List Json} (h : Identified items) {f : Json → Json}
    (hf : ∀ v, identityOf (f v) = identityOf v) (text : Json → List Char) :
    (sortByIdentity (items.map fun v => (v, text (f v)))).map Prod.snd =
      (orderSet (items.map f)).map text := by
  have hsame : ∀ v ∈ items, identityKey v = sortKey (f v) := by
    intro v hv
    obtain ⟨identity, hi⟩ := h.named v hv
    rw [identityKey, hi, Option.getD_some, sortKey_eq ((hf v).trans hi)]
  have hsort : (items.insertionSort fun v w => utf16Le (identityKey v) (identityKey w) = true) =
      SortedPairs.sortBy KeyLe (fun v => sortKey (f v)) items := by
    apply insertionSort_congr
    intro v hv w hw
    rw [hsame v hv, hsame w hw]
    exact Iff.rfl
  have hmap : (items.insertionSort fun v w => utf16Le (identityKey v) (identityKey w) = true).map
      (fun v => (v, text (f v))) = sortByIdentity (items.map fun v => (v, text (f v))) :=
    List.map_insertionSort _ _ _ items fun _ _ _ _ => Iff.rfl
  rw [← hmap, hsort, map_sortBy, List.map_map, List.map_map]
  rfl

theorem encode_arrange {place : Place} {v : Json} (h : Fits place v) :
    encode identityEncoder place v = canonical (arrange placeOrder place v) := by
  induction h with
  | leaf value =>
    rw [arrange_leaf]
    exact encode_ordered (.leaf value)
  | object place members _ _ _ ih =>
    have hmembers : ∀ m ∈ sortedMembers members,
        writeString m.1 ++ ':' :: encode identityEncoder (place.member m.1) m.2 =
          writeString m.1 ++ ':' :: canonical (arrange placeOrder (place.member m.1) m.2) := by
      intro m hm
      rw [ih m.1 m.2 (lookup_of_sorted hm)]
    rw [encode_object, arrange_object, canonical_object_map,
      sortedMembers_map fun name v => arrange placeOrder (placeOrder.member place name) v,
      objectText, List.map_map, List.map_map]
    exact congrArg (fun texts => '\x7b' :: commaSeparated texts ++ ['\x7d'])
      (List.map_congr_left hmembers)
  | array place items ha hidentified _ ih =>
    have hitems : encodeItems identityEncoder place 0 items =
        items.map fun item => (item, canonical (arrange placeOrder place.item item)) := by
      rw [encodeItems_eq_map]
      exact List.map_congr_left fun item hi => by rw [ih item hi]
    have horder : (identityEncoder.order place (encodeItems identityEncoder place 0 items)).map
        Prod.snd =
          (placeOrder.order place (items.map (arrange placeOrder place.item))).map canonical := by
      rw [hitems]
      by_cases hs : place.isSet = true
      · have htexts : ∀ texts, identityEncoder.order place texts = sortByIdentity texts :=
          fun texts => if_pos hs
        have hset : ∀ l, placeOrder.order place l = orderSet l := fun l => if_pos hs
        rw [htexts, hset]
        exact sortByIdentity_map (hidentified hs) (identityOf_arrange placeOrder place.item) canonical
      · have htexts : ∀ texts, identityEncoder.order place texts = texts := fun texts => if_neg hs
        have hlist : ∀ l, placeOrder.order place l = l := fun l => if_neg hs
        rw [htexts, hlist, List.map_map, List.map_map]
        rfl
    rw [encode, horder, arrange_array, canonical_array]
    rfl

theorem fits_copyAt {place : Place} {v : Json} (h : Fits place v) : Fits place (copyAt place v) := by
  induction h with
  | leaf value => exact .leaf value
  | object place members ho hclosed hfits ih =>
    by_cases hp : place = .leaf
    · subst hp
      exact .leaf _
    obtain ⟨copied, hcopied, hlookup⟩ := copyAt_object hp ho members
    rw [hcopied]
    refine .object place copied ho (fun name value hv => ?_) fun name value hv => ?_
    · rw [hlookup, copiedMember, counted] at hv
      split at hv
      · next hd =>
        rw [hd.1, hd.2]
        decide
      split at hv
      · next hn =>
        rw [hn.1, hn.2]
        decide
      · obtain ⟨original, hl, -⟩ := Option.map_eq_some_iff.1 hv
        exact hclosed name original hl
    · rw [hlookup, copiedMember, counted] at hv
      split at hv
      · next hd =>
        rw [hd.1, hd.2]
        exact .leaf value
      split at hv
      · next hn =>
        rw [hn.1, hn.2]
        exact .leaf value
      · obtain ⟨original, hl, rfl⟩ := Option.map_eq_some_iff.1 hv
        exact ih name original hl
  | array place items ha hidentified _ ih =>
    rw [copyAt_array ha]
    refine .array place _ ha (fun hs => (hidentified hs).map (identityOf_copyAt place.item)) ?_
    intro item hi
    obtain ⟨original, ho, rfl⟩ := List.mem_map.1 hi
    exact ih original ho

/-! ### The normal form of a normal form -/

theorem fits_form {place : Place} {v : Json} (h : Fits place v) :
    Fits place (normal (form place v)) :=
  (ordered_normal (Frontend.Document.ordered_arrange (fits_copyAt h))).fits

theorem counted_formed {place : Place} {name : String} (value : Option Json)
    (hd : ¬ (place = .root ∧ name = "canonicalization")) :
    counted place name ((formedMember place name value).map normal) =
      (counted place name value).map fun v => normal (form (place.member name) v) := by
  rw [formedMember, if_neg hd, Option.map_map]
  by_cases hn : place = .field ∧ name = "nullable"
  · have hbool : ∀ b : Bool, (some (Json.bool b) == some (Json.bool true)) = b := by
      intro b
      cases b <;> decide +kernel
    rw [counted, counted, if_neg hd, if_neg hd, if_pos hn, if_pos hn, hn.1, hn.2]
    have hform : form (Place.field.member "nullable") = form .leaf := rfl
    rw [hform, Option.map_some, Option.map_some, Function.comp_apply, form_leaf]
    exact congrArg (fun b => some (Json.bool b)) (hbool _)
  · rw [counted, counted, if_neg hd, if_neg hd, if_neg hn, if_neg hn]
    rfl

/-- A document is the same as what its normal form spells. -/
theorem sameAt_form {place : Place} {v : Json} (h : Fits place v) :
    SameAt place v (normal (form place v)) := by
  have hleaf : ∀ v, SameAt .leaf v (normal (form .leaf v)) := by
    intro v
    rw [form_leaf]
    exact .leaf (equivalent_normal v)
  induction h with
  | leaf value => exact hleaf value
  | object place members ho hclosed hfits ih =>
    by_cases hp : place = .leaf
    · subst hp
      exact hleaf _
    obtain ⟨formed, hformed, hlookup⟩ := form_object hp ho members
    have hcounted : ∀ name, counted place name (lookup name (normalOf formed)) =
        (counted place name (lookup name members)).map
          fun v => normal (form (place.member name) v) := by
      intro name
      by_cases hd : place = .root ∧ name = "canonicalization"
      · rw [counted, counted, if_pos hd, if_pos hd]
        rfl
      · rw [lookup_normalOf, hlookup, counted_formed _ hd]
    rw [hformed, normal_object]
    refine .object hp (fun name => ?_) fun name v w hv hw => ?_
    · change _ = (counted place name (lookup name (normalOf formed))).isSome
      rw [hcounted, Option.isSome_map]
    · change counted place name (lookup name (normalOf formed)) = some w at hw
      rw [hcounted, hv, Option.map_some, Option.some.injEq] at hw
      subst hw
      obtain hl | hl := counted_some hv
      · exact ih name v hl
      · rw [hl]
        exact hleaf v
  | array place items ha hidentified _ ih =>
    have hpairs : ∀ v w, (v, w) ∈ items.zip (items.map fun v => normal (form place.item v)) →
        SameAt place.item v w := by
      have hrelated : List.Forall₂ (SameAt place.item) items
          (items.map fun v => normal (form place.item v)) := by
        rw [List.forall₂_map_right_iff, List.forall₂_same]
        exact ih
      exact fun v w hz => (List.forall₂_iff_zip.1 hrelated).2 hz
    have hl : items.length = (items.map fun v => normal (form place.item v)).length :=
      (List.length_map _).symm
    rw [form_array ha, normal_array]
    by_cases hs : place.isSet = true
    · have horder : ∀ l : List Json, placeOrder.order place l = orderSet l := fun l => if_pos hs
      rw [horder]
      refine .set hs ?_ hl hpairs
      have hp := ((perm_orderSet (items.map (form place.item))).map normal).symm
      rwa [List.map_map] at hp
    · have horder : ∀ l : List Json, placeOrder.order place l = l := fun l => if_neg hs
      rw [horder, List.map_map]
      exact .list ha (Bool.not_eq_true _ ▸ hs) hl hpairs

/-! ### The nesting of the form -/

theorem depth_arrange {P : Type} {A : Arrangement P}
    (hm : ∀ p l, ∀ item ∈ A.order p l, item ∈ l) (p : P) (v : Json) :
    depth (arrange A p v) ≤ depth v := by
  induction v using nested_induction generalizing p with
  | array items ih =>
    rw [arrange_array, depth, depth, depthItems_le]
    intro item hi
    obtain ⟨original, ho, rfl⟩ := List.mem_map.1 (hm _ _ item hi)
    have hle := depthItems_le.1 le_rfl original ho
    have harranged := ih original ho (A.item p)
    omega
  | object members ih =>
    rw [arrange_object, depth, depth, depthMembers_le]
    intro m hm
    obtain ⟨original, ho, rfl⟩ := List.mem_map.1 hm
    have hle := depthMembers_le.1 le_rfl original ho
    have harranged := ih original ho (A.member p original.1)
    show depth (arrange A (A.member p original.1) original.2) + 1 ≤ _
    omega
  | _ => exact le_rfl

theorem mem_placeOrder (place : Place) (l : List Json) :
    ∀ item ∈ placeOrder.order place l, item ∈ l := by
  intro item hi
  by_cases hs : place.isSet = true
  · rw [show placeOrder.order place l = orderSet l from if_pos hs] at hi
    exact (perm_orderSet l).mem_iff.1 hi
  · rwa [show placeOrder.order place l = l from if_neg hs] at hi

theorem depth_copy {a : Json} (h : depth a ≤ maxDepth) : depth (copyAt .root a) ≤ maxDepth :=
  Backends.TypescriptV1.depth_normalizeIr h (by decide)

theorem depth_form {a : Json} (h : depth a ≤ maxDepth) : depth (form .root a) ≤ maxDepth :=
  (depth_arrange mem_placeOrder .root _).trans (depth_copy h)

/-! ### One normal form -/

theorem normalizeIr_eq {a : Json} (h : Fits .root a) (hd : depth a ≤ maxDepth) :
    normalizeIr a = some (canonical (form .root a)) :=
   (canonicalIr_eq (fits_copyAt h) (depth_copy hd)).trans
    (congrArg some (encode_arrange (fits_copyAt h)))

/-- Two documents are normalized to the same bytes exactly where they are the same, and what a
normal form spells is normalized to it again. -/
theorem normalForms {a b : Json} (ha : Fits .root a) (hb : Fits .root b)
    (hda : depth a ≤ maxDepth) (hdb : depth b ≤ maxDepth) :
    (normalizeIr a = normalizeIr b ↔ SameAt .root a b) ∧
      ∃ text document, normalizeIr a = some text ∧ JsonText text document ∧
        normalizeIr document = some text := by
  refine ⟨?_, canonical (form .root a), normal (form .root a), normalizeIr_eq ha hda,
    jsonText_canonical.2 rfl, ?_⟩
  · rw [normalizeIr_eq ha hda, normalizeIr_eq hb hdb, Option.some.injEq, canonical_round_trip.2,
      sameAt_iff ha hb]
  · have hdepth : depth (normal (form .root a)) ≤ maxDepth :=
      (depth_normal _).trans (depth_form hda)
    have hsame := (sameAt_iff ha (fits_form ha)).1 (sameAt_form ha)
    rw [normalizeIr_eq (fits_form ha) hdepth, Equivalent.canonical_eq hsame]

/-- A document of one type and two extensions. -/
def extended (first second : String) : Json :=
  ((Sample.document [Sample.scalar "ix://a/T" "string"]
    [Sample.extension first true, Sample.extension second true]).get "ir").getD .null

theorem normalForms_extended :
    SameAt .root (extended "ix://a/y" "ix://a/x") (extended "ix://a/x" "ix://a/y") ∧
    ∃ text document, normalizeIr (extended "ix://a/y" "ix://a/x") = some text ∧
      JsonText text document ∧ normalizeIr document = some text := by
  have hy : Fits .root (extended "ix://a/y" "ix://a/x") := by
    refine @fits_document _ "/ir" (by decide +kernel) ?_
    constructor <;> decide +kernel
  have hx : Fits .root (extended "ix://a/x" "ix://a/y") := by
    refine @fits_document _ "/ir" (by decide +kernel) ?_
    constructor <;> decide +kernel
  obtain ⟨hsame, hform⟩ := normalForms hy hx (by decide +kernel) (by decide +kernel)
  exact ⟨hsame.1 (by decide +kernel), hform⟩

end FilamentCore.Compiler.Canonical
