import FilamentCore.SemanticIr.Reflexivity

/-!
# Order of types and of their lists

Documents that hold the same types, whose identified lists hold the same items, in any order:
each identity is read as before, so a classification does not change.
-/

namespace FilamentCore.SemanticIr
open FilamentCore.Library
open Classification (worst worst_le worst_congr noteIf mem_noteIf)

def setLists : List String := ["fields", "variants", "constraints", "extensions", "relationships"]

/-- Two types that differ in the order of such lists only. -/
structure SameType (t u : Json) : Prop where
  rest : ∀ name ∉ setLists, t.get name = u.get name
  lists : ∀ name ∈ setLists, (t.members name).Perm (u.members name)

def SameTypes (ts us : List Json) : Prop := ∃ vs, List.Forall₂ SameType ts vs ∧ vs.Perm us

/-- Two bundles whose documents differ in the order of types and of their lists only. -/
structure Reordered (bundle other : Json) : Prop where
  rest : ∀ name, name ≠ "ir" → bundle.get name = other.get name
  ir : ∃ i j, bundle.get "ir" = some i ∧ other.get "ir" = some j ∧
    (∀ name, name ≠ "types" → i.get name = j.get name) ∧
    SameTypes (i.members "types") (j.members "types")

namespace SameType

variable {t u : Json}

theorem refl (t : Json) : SameType t t := ⟨fun _ _ => rfl, fun _ _ => .refl _⟩

theorem identity (h : SameType t u) : identityOf t = identityOf u := by
  rw [identityOf, identityOf, Json.getStr, Json.getStr, h.rest _ (by decide)]

theorem members (h : SameType t u) {name : String} (hn : name ∉ setLists) :
    t.members name = u.members name := by
  rw [Json.members, Json.members, Json.getArray, Json.getArray, h.rest _ hn]

theorem getStr (h : SameType t u) {name : String} (hn : name ∉ setLists) :
    t.getStr name = u.getStr name := by
  rw [Json.getStr, Json.getStr, h.rest _ hn]

end SameType

/-! ### Reading in another order -/

/-- Two documents that differ in the order of types and of their lists only. -/
structure SameDocument (d e : Document) : Prop where
  bundle : ∀ name, name ≠ "ir" → d.bundle.get name = e.bundle.get name
  ir : ∀ name, name ≠ "types" → d.ir.get name = e.ir.get name
  types : SameTypes d.types e.types
  aliasDepth : d.aliasDepth = e.aliasDepth

/-- Types and features are read by identity. -/
structure Distinct (d : Document) : Prop where
  types : (d.types.map identityOf).Nodup
  features : ((d.features.map Placed.node).map identityOf).Nodup
  lists : ∀ t ∈ d.types, ∀ name ∈ setLists, name ≠ "extensions" →
    ((t.members name).map Compat.identityOr).Nodup

theorem Accepted.distinct {bundle : Json} {d : Document} (ha : Accepted bundle d) :
    Distinct d := by
  refine ⟨ha.types_nodup, by simpa [Function.comp_def] using ha.features_nodup, ?_⟩
  intro t ht name hn hne
  obtain ⟨_, hchecked⟩ := ha.checked
  obtain ⟨_, hc⟩ := hchecked t ht
  simp only [setLists, List.mem_cons, List.not_mem_nil, or_false] at hn
  apply Compat.nodup_identityOr
  · apply ha.list_nodup ht
    rcases hn with rfl | rfl | rfl | rfl | rfl
    all_goals first | exact absurd rfl hne | decide
  · rcases hn with rfl | rfl | rfl | rfl | rfl
    · exact fun f hf => (hc.fields f hf).identity
    · exact hc.variants
    · exact hc.constraints
    · exact absurd rfl hne
    · exact hc.relationships

namespace SameDocument

variable {d e : Document}

theorem irMembers (h : SameDocument d e) {name : String} (hn : name ≠ "types") :
    d.ir.members name = e.ir.members name := by
  rw [Json.members, Json.members, Json.getArray, Json.getArray, h.ir _ hn]

theorem types_length (h : SameDocument d e) : d.types.length = e.types.length := by
  obtain ⟨vs, hf, hp⟩ := h.types
  rw [hf.length_eq, hp.length_eq]

theorem exists_same (h : SameDocument d e) {t : Json} (ht : t ∈ d.types) :
    ∃ u ∈ e.types, SameType t u := by
  obtain ⟨vs, hf, hp⟩ := h.types
  obtain ⟨u, hu, hs⟩ := Related.exists_right hf ht
  exact ⟨u, hp.mem_iff.1 hu, hs⟩

theorem exists_same_left (h : SameDocument d e) {u : Json} (hu : u ∈ e.types) :
    ∃ t ∈ d.types, SameType t u := by
  obtain ⟨vs, hf, hp⟩ := h.types
  obtain ⟨t, ht, hs⟩ := Related.exists_left hf (hp.mem_iff.2 hu)
  exact ⟨t, ht, hs⟩

theorem identities_perm (h : SameDocument d e) :
    (d.types.map identityOf).Perm (e.types.map identityOf) := by
  obtain ⟨vs, hf, hp⟩ := h.types
  rw [Related.map_eq (fun _ _ hs => SameType.identity hs) hf]
  exact hp.map _

theorem typeOf_rel (h : SameDocument d e) (hd : Distinct d) (identity : String) :
    Option.Rel SameType (d.typeOf identity) (e.typeOf identity) := by
  have he : (e.types.map identityOf).Nodup := h.identities_perm.nodup_iff.1 hd.types
  cases ht : d.typeOf identity with
  | none =>
    have hnone : e.typeOf identity = none := by
      rw [typeOf_eq_first, Keyed.first_none_iff] at ht ⊢
      rwa [← h.identities_perm.mem_iff]
    rw [hnone]
    exact .none
  | some t =>
    obtain ⟨hm, hi⟩ := Keyed.first_some (typeOf_eq_first identity ▸ ht)
    obtain ⟨u, hu, hs⟩ := h.exists_same hm
    have hsome : e.typeOf identity = some u :=
      (Keyed.first_iff he).2 ⟨hu, hs.identity ▸ hi⟩
    rw [hsome]
    exact .some hs

theorem features_perm (h : SameDocument d e) :
    (d.features.map Placed.node).Perm (e.features.map Placed.node) := by
  have hnodes : ∀ c : Document, c.features.map Placed.node = c.types.flatMap fun t =>
      t.members "fields" ++ (t.members "operations").flatMap (·.members "params") := by
    intro c
    rw [← placedTypes_nodes, List.flatMap_map, Document.features, List.map_flatMap]
    congr 1
    funext placed
    rw [Document.featuresOf, List.map_append, List.map_flatMap, placedItems_nodes,
      ← placedItems_nodes placed.node placed.pointer "operations", List.flatMap_map]
    simp only [placedItems_nodes]
  rw [hnodes, hnodes]
  obtain ⟨vs, hf, hp⟩ := h.types
  refine (Related.flatMap_perm ?_ hf).trans (hp.flatMap_right _)
  intro t u hs
  have hoperations : t.members "operations" = u.members "operations" :=
    hs.members (by decide)
  rw [hoperations]
  exact (hs.lists "fields" (by decide)).append_right _

theorem fieldOf_map (h : SameDocument d e) (hd : Distinct d) (identity : String) :
    (d.fieldOf identity).map Placed.node = (e.fieldOf identity).map Placed.node := by
  have hfirst : ∀ c : Document, (c.fieldOf identity).map Placed.node =
      Keyed.first identityOf (some identity) (c.features.map Placed.node) := by
    intro c
    rw [fieldOf_eq_first, Keyed.first, Keyed.first, List.find?_map]
    rfl
  rw [hfirst, hfirst]
  exact Keyed.first_perm hd.features h.features_perm _

/-! ### Resolution -/

theorem throughFeatures_eq (h : SameDocument d e) (hd : Distinct d) (steps : ℕ)
    (seen : List String) (identity : String) :
    d.throughFeatures steps seen identity = e.throughFeatures steps seen identity := by
  induction steps generalizing seen identity with
  | zero => rfl
  | succ steps ih =>
    have hf := h.fieldOf_map hd identity
    simp only [Document.throughFeatures]
    cases hd : d.fieldOf identity <;> cases he : e.fieldOf identity <;> simp only [hd, he] at hf
    · rfl
    · cases hf
    · cases hf
    · rename_i feature other
      have hnode : feature.node = other.node := by simpa using hf
      simp only [hnode, ih]

theorem isConstructAlias_eq (h : SameDocument d e) {t u : Json} (hs : SameType t u) :
    d.isConstructAlias t = e.isConstructAlias u := by
  have hkinds : aliasKinds d.ir = aliasKinds e.ir := by
    rw [aliasKinds, aliasKinds, h.irMembers (by decide)]
  rw [Document.isConstructAlias, Document.isConstructAlias, hs.rest "kind" (by decide),
    hkinds]

/-- Resolved to the same scalar, or to types that differ in the order of their lists only. -/
inductive SameResolved : Resolved → Resolved → Prop where
  | native (scalar : String) : SameResolved (.native scalar) (.native scalar)
  | node {t u : Json} (hs : SameType t u) : SameResolved (.node t) (.node u)

theorem throughAliases_rel (h : SameDocument d e) (hd : Distinct d) (steps hops : ℕ)
    (seen : List String) {t u : Json} (hs : SameType t u) :
    Option.Rel SameResolved (d.throughAliases steps hops seen t)
      (e.throughAliases steps hops seen u) := by
  induction steps generalizing hops seen t u with
  | zero => exact .none
  | succ steps ih =>
    have hcore : Document.isCoreAlias t = Document.isCoreAlias u := by
      rw [Document.isCoreAlias, Document.isCoreAlias, hs.getStr (by decide)]
    have htarget : t.getStr "target" = u.getStr "target" := hs.getStr (by decide)
    simp only [Document.throughAliases, hcore, h.isConstructAlias_eq hs, htarget, h.aliasDepth]
    split
    · exact .some (.node hs)
    · split
      · exact .none
      · rename_i target _
        split
        · exact .none
        · split
          · exact .some (.native _)
          · split
            · exact .none
            · have hrel := h.typeOf_rel hd target
              generalize d.typeOf target = found, e.typeOf target = other at hrel ⊢
              cases hrel with
              | none => exact .none
              | some hs => exact ih _ _ hs

theorem resolve_rel (h : SameDocument d e) (hd : Distinct d) (identity : String) :
    Option.Rel SameResolved (d.resolve identity) (e.resolve identity) := by
  have hlength : d.features.length = e.features.length := by
    have := h.features_perm.length_eq
    rwa [List.length_map, List.length_map] at this
  simp only [Document.resolve, ← h.throughFeatures_eq hd, hlength, h.types_length]
  split
  · exact .none
  · rename_i resolved _
    cases resolved with
    | native scalar => exact .some (.native scalar)
    | node t => exact .some (.node (.refl t))
  · rename_i target seen _
    have hrel := h.typeOf_rel hd target
    generalize d.typeOf target = found, e.typeOf target = other at hrel ⊢
    cases hrel with
    | none => exact .none
    | some hs => exact h.throughAliases_rel hd _ _ _ hs

theorem resolvedKey_eq (h : SameDocument d e) (hd : Distinct d) (identity : Option String) :
    Compat.resolvedKey d identity = Compat.resolvedKey e identity := by
  cases identity with
  | none => rfl
  | some identity =>
    have hr := h.resolve_rel hd identity
    simp only [Compat.resolvedKey]
    generalize d.resolve identity = found, e.resolve identity = other at hr ⊢
    cases hr with
    | none => rfl
    | some hr =>
      cases hr with
      | native scalar => rfl
      | node hs => simp only [hs.identity]

end SameDocument

namespace Compat

/-! ### Notes -/

theorem noteIf_congr {p q : Prop} [Decidable p] [Decidable q] (h : p ↔ q) (c : Classification) :
    noteIf p c = noteIf q c := by
  unfold noteIf
  split
  · rename_i hp
    rw [if_pos (h.1 hp)]
  · rename_i hp
    rw [if_neg (fun hq => hp (h.2 hq))]

theorem mem_compareLists_perm {before before' after after' : List Json}
    {removed n : Classification} {retained : Json → Json → List Classification}
    {addition : Json → List Classification} (hb : before.Perm before') (ha : after.Perm after')
    (hnb : (before.map identityOr).Nodup) (hna : (after.map identityOr).Nodup) :
    n ∈ compareLists before after removed retained addition ↔
      n ∈ compareLists before' after' removed retained addition := by
  have hcb : ∀ node, counterpart node before = counterpart node before' :=
    fun node => Keyed.first_perm hnb hb _
  have hca : ∀ node, counterpart node after = counterpart node after' :=
    fun node => Keyed.first_perm hna ha _
  simp only [mem_compareLists, hb.mem_iff, ha.mem_iff, hcb, hca]

variable {b b' a a' : Document}

theorem compareField_eq (hb : SameDocument b b') (ha : SameDocument a a') (db : Distinct b)
    (da : Distinct a) : compareField b a = compareField b' a' := by
  funext earlier later
  simp only [compareField, hb.resolvedKey_eq db, ha.resolvedKey_eq da]

theorem compareVariant_eq (hb : SameDocument b b') (ha : SameDocument a a') (db : Distinct b)
    (da : Distinct a) : compareVariant b a = compareVariant b' a' := by
  funext earlier later
  simp only [compareVariant, hb.resolvedKey_eq db, ha.resolvedKey_eq da]

theorem comparePosition_eq (hb : SameDocument b b') (ha : SameDocument a a') (db : Distinct b)
    (da : Distinct a) : comparePosition b a = comparePosition b' a' := by
  funext earlier later
  simp only [comparePosition, hb.resolvedKey_eq db, ha.resolvedKey_eq da]

theorem compareOperation_eq (hb : SameDocument b b') (ha : SameDocument a a') (db : Distinct b)
    (da : Distinct a) : compareOperation b a = compareOperation b' a' := by
  funext earlier later
  have hs : signatureChanged b a earlier later ↔ signatureChanged b' a' earlier later := by
    simp only [signatureChanged, compareField_eq hb ha db da]
  simp only [compareOperation, noteIf_congr hs]

theorem addedField_eq (ha : SameDocument a a') : addedField a.bundle = addedField a'.bundle := by
  funext field
  simp only [addedField, optionalAddition, ha.bundle "consumerPolicy" (by decide)]

theorem mem_compareType_iff (hb : SameDocument b b') (ha : SameDocument a a') (db : Distinct b)
    (da : Distinct a) {t t' u u' : Json} (ht : t ∈ b.types) (hu : u ∈ a.types)
    (hst : SameType t t') (hsu : SameType u u') {n : Classification} :
    n ∈ compareType b a t u ↔ n ∈ compareType b' a' t' u' := by
  have hlist : ∀ {removed : Classification} {retained : Json → Json → List Classification}
      {addition : Json → List Classification} (name : String), name ∈ setLists →
      name ≠ "extensions" →
      (n ∈ compareLists (t.members name) (u.members name) removed retained addition ↔
        n ∈ compareLists (t'.members name) (u'.members name) removed retained addition) := by
    intro removed retained addition name hn hne
    exact mem_compareLists_perm (hst.lists name hn) (hsu.lists name hn)
      (db.lists t ht name hn hne) (da.lists u hu name hn hne)
  have hget : ∀ name ∉ setLists, t.get name = t'.get name ∧ u.get name = u'.get name :=
    fun name hn => ⟨hst.rest name hn, hsu.rest name hn⟩
  have hstr : ∀ name ∉ setLists,
      t.getStr name = t'.getStr name ∧ u.getStr name = u'.getStr name :=
    fun name hn => ⟨hst.getStr hn, hsu.getStr hn⟩
  have hmembers : ∀ name ∉ setLists,
      t.members name = t'.members name ∧ u.members name = u'.members name :=
    fun name hn => ⟨hst.members hn, hsu.members hn⟩
  have hkinds : (["kind", "scalar"].flatMap fun member =>
      noteIf (t.get member ≠ u.get member) .breaking) = ["kind", "scalar"].flatMap fun member =>
      noteIf (t'.get member ≠ u'.get member) .breaking := by
    simp only [List.flatMap_cons, List.flatMap_nil, hget "kind" (by decide),
      hget "scalar" (by decide)]
  have hreferences : (["target", "items", "values"].flatMap fun member =>
      noteIf (resolvedKey b (t.getStr member) ≠ resolvedKey a (u.getStr member)) .breaking) =
      ["target", "items", "values"].flatMap fun member =>
      noteIf (resolvedKey b' (t'.getStr member) ≠ resolvedKey a' (u'.getStr member))
        .breaking := by
    simp only [List.flatMap_cons, List.flatMap_nil, hstr "target" (by decide),
      hstr "items" (by decide), hstr "values" (by decide),
      hb.resolvedKey_eq db, ha.resolvedKey_eq da]
  have hpolicy : comparePolicy t u = comparePolicy t' u' := by
    simp only [comparePolicy, hstr "unknownPolicy" (by decide)]
  have hpositions : comparePositions b a t u = comparePositions b' a' t' u' := by
    simp only [comparePositions, hmembers "positions" (by decide),
      comparePosition_eq hb ha db da]
  have hoperations : compareOperations b a t u = compareOperations b' a' t' u' := by
    simp only [compareOperations, hmembers "operations" (by decide),
      compareOperation_eq hb ha db da]
  have hclauses : compareClauses t u = compareClauses t' u' := by
    simp only [compareClauses, hmembers "clauses" (by decide)]
  have hconstraints : n ∈ compareConstraints t u ↔ n ∈ compareConstraints t' u' :=
    hlist "constraints" (by decide) (by decide)
  have hfields : n ∈ compareFields b a t u ↔ n ∈ compareFields b' a' t' u' := by
    rw [compareFields, compareFields, ← compareField_eq hb ha db da, ← addedField_eq ha]
    exact hlist "fields" (by decide) (by decide)
  have hvariants : n ∈ compareVariants b a t u ↔ n ∈ compareVariants b' a' t' u' := by
    rw [compareVariants, compareVariants, ← compareVariant_eq hb ha db da]
    exact hlist "variants" (by decide) (by decide)
  have hrelationships : n ∈ compareRelationships t u ↔ n ∈ compareRelationships t' u' :=
    hlist "relationships" (by decide) (by decide)
  simp only [compareType, List.mem_append, hkinds, hreferences, hpolicy, hpositions, hoperations,
    hclauses, hconstraints, hfields, hvariants, hrelationships]

theorem mem_compareDefinition_iff (hb : SameDocument b b') (ha : SameDocument a a')
    (db : Distinct b) (da : Distinct a) {t t' : Json} (ht : t ∈ b.types) (hs : SameType t t')
    {n : Classification} : n ∈ compareDefinition b a t ↔ n ∈ compareDefinition b' a' t' := by
  simp only [compareDefinition, ← hs.identity]
  cases hi : identityOf t with
  | none => rfl
  | some identity =>
    have hrel := ha.typeOf_rel da identity
    have hmem : ∀ u, a.typeOf identity = some u → u ∈ a.types :=
      fun u hu => (Keyed.first_some (typeOf_eq_first identity ▸ hu)).1
    dsimp only
    generalize a.typeOf identity = found, a'.typeOf identity = other at hrel hmem ⊢
    cases hrel with
    | none => rfl
    | some hsu => exact mem_compareType_iff hb ha db da ht (hmem _ rfl) hs hsu

theorem compareDocuments_worst (hb : SameDocument b b') (ha : SameDocument a a')
    (db : Distinct b) (da : Distinct a) :
    worst (compareDocuments b a) = worst (compareDocuments b' a') := by
  apply worst_congr
  intro n
  have hextensions : compareExtensions b a = compareExtensions b' a' := by
    simp only [compareExtensions, hb.irMembers (show "extensions" ≠ "types" by decide),
      ha.irMembers (show "extensions" ≠ "types" by decide)]
  simp only [compareDocuments, List.mem_append, hextensions,
    hb.ir "contractVersion" (by decide), ha.ir "contractVersion" (by decide)]
  apply or_congr_right
  simp only [List.mem_flatMap]
  constructor
  · rintro ⟨t, ht, hn⟩
    obtain ⟨t', ht', hs⟩ := hb.exists_same ht
    exact ⟨t', ht', (mem_compareDefinition_iff hb ha db da ht hs).1 hn⟩
  · rintro ⟨t', ht', hn⟩
    obtain ⟨t, ht, hs⟩ := hb.exists_same_left ht'
    exact ⟨t, ht, (mem_compareDefinition_iff hb ha db da ht hs).2 hn⟩

/-! ### Classifications -/

theorem read_reordered {bundle other : Json} {d : Document} (h : Document.read bundle = some d)
    (hr : Reordered bundle other) :
    ∃ e, Document.read other = some e ∧ SameDocument d e := by
  obtain ⟨i, j, hi, hj, hrest, htypes⟩ := hr.ir
  simp only [Document.read, Document.readWith, hi, Option.map_some, Option.some.injEq] at h
  subst h
  exact ⟨⟨other, j, j.members "types", none⟩, by simp [Document.read, Document.readWith, hj],
    hr.rest, hrest, htypes, rfl⟩

end Compat

def irOf (bundle : Json) : Json := (bundle.get "ir").getD .null

open Compat in
/-- An accepted document is a patch of itself exactly when its extensions agree; and no
classification depends on the order of types, or of the lists of a type that are sets. -/
theorem classify_reflexive_and_unordered {before after : Json} (hb : isValid before = true)
    (ha : isValid after = true) :
    (classify before before true true = .patch ↔ ExtensionsAgree (irOf before)) ∧
    ∀ before' after', Reordered before before' → Reordered after after' →
      ∀ beforeValid afterValid,
        classify before' after' beforeValid afterValid =
          classify before after beforeValid afterValid := by
  obtain ⟨b, hb⟩ := accepted_of_isValid hb
  obtain ⟨a, ha⟩ := accepted_of_isValid ha
  constructor
  · rw [classify_self hb, irOf, hb.document.1, Option.getD_some]
  · intro before' after' hrb hra beforeValid afterValid
    obtain ⟨b', hb', hsb⟩ := read_reordered hb.read hrb
    obtain ⟨a', ha', hsa⟩ := read_reordered ha.read hra
    simp only [classify, hb.read, ha.read, hb', ha',
      compareDocuments_worst hsb hsa hb.distinct ha.distinct]

/-- Two extensions of one identity, of which the first is required. -/
def extendedTwice : Json :=
  Sample.document [Sample.scalar "ix://a/T" "string"]
    [Sample.extension "ix://a/e" true, Sample.extension "ix://a/e" false]

theorem extendedTwice_not_patch : isValid extendedTwice = true ∧
    classify extendedTwice extendedTwice true true ≠ .patch := by
  constructor <;> decide +kernel

/-- A record of two fields, and their type. -/
def pairOf (f g : Json) : Json :=
  Sample.document [Sample.type "ix://a/R" "record" [] [("fields", .array [f, g])],
    Sample.scalar "ix://a/T" "string"] []

def pairFirst : Json := Sample.field "ix://a/R/f" "f" "ix://a/T" "required" []

def pairSecond : Json := Sample.field "ix://a/R/g" "g" "ix://a/T" "optional" []

theorem get_past {name other : String} (hne : other ≠ name) (v w : Json)
    (first rest : List (String × Json)) :
    (Json.object (first ++ (name, v) :: rest)).get other =
      (Json.object (first ++ (name, w) :: rest)).get other := by
  have hn : (name == other) = false := by simpa using hne.symm
  simp [Json.get, Json.lookup, List.find?_append, hn]

theorem pairOf_swap (f g : Json) : Reordered (pairOf f g) (pairOf g f) := by
  have hrest : ∀ name, name ≠ "fields" →
      (Sample.type "ix://a/R" "record" [] [("fields", .array [f, g])]).get name =
        (Sample.type "ix://a/R" "record" [] [("fields", .array [g, f])]).get name :=
    fun name hne => get_past hne _ _ _ []
  have hsame : SameType (Sample.type "ix://a/R" "record" [] [("fields", .array [f, g])])
      (Sample.type "ix://a/R" "record" [] [("fields", .array [g, f])]) := by
    refine ⟨fun name hn => hrest name (fun h => hn (h ▸ by decide)), fun name _ => ?_⟩
    by_cases hf : name = "fields"
    · subst hf
      exact List.Perm.swap g f []
    · rw [Json.members, Json.members, Json.getArray, Json.getArray, hrest name hf]
  refine ⟨fun name hne => get_past hne _ _ [] [], _, _, rfl, rfl, ?_, ?_⟩
  · exact fun name hne => get_past hne _ _ [_, _, _, _] [_, _, _]
  · exact ⟨_, .cons hsame (.cons (SameType.refl _) .nil), .refl _⟩

/-- A record is a patch of itself, in either order of its fields. -/
theorem pairOf_unordered :
    classify (pairOf pairFirst pairSecond) (pairOf pairFirst pairSecond) true true = .patch ∧
    classify (pairOf pairFirst pairSecond) (pairOf pairSecond pairFirst) true true =
      classify (pairOf pairFirst pairSecond) (pairOf pairFirst pairSecond) true true := by
  have hv : isValid (pairOf pairFirst pairSecond) = true := by decide +kernel
  obtain ⟨hself, horder⟩ := classify_reflexive_and_unordered hv hv
  refine ⟨hself.2 (by decide), horder _ _ ?_ (pairOf_swap _ _) true true⟩
  exact ⟨fun _ _ => rfl, _, _, rfl, rfl, fun _ _ => rfl,
    ⟨_, List.forall₂_same.2 fun t _ => SameType.refl t, .refl _⟩⟩

end FilamentCore.SemanticIr
