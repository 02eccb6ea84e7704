import FilamentCore.Backends.ClassifiedMembers
import FilamentCore.Library.Following

/-!
# References that are pointed elsewhere (src/compiler/backends/typescript-v1/classify.mjs)

Where the aliases of a reference end, what `resolveRepresentation` tells of the end, and when a
change of a reference is recorded as a patch.
-/

namespace FilamentCore.Backends.TypescriptV1
open FilamentCore.Library.Following
open FilamentCore.SemanticIr
open FilamentCore.SemanticIr.Json
open FilamentCore.Compiler.Diff (Disposition strictEq)

def isAliasNode (entry : Entry) : Bool := entry.node.get "kind" == some (.str "alias")

def aliasTarget (types : List (String × Entry)) (identity : String) : Option String :=
  (entryOf types identity).bind fun entry =>
    if isAliasNode entry then entry.node.getStr "target" else none

/-- The aliases from `identity` end at `last`, which is no alias of the document. -/
structure EndsAt (types : List (String × Entry)) (identity last : String) : Prop where
  ends : Ends (aliasTarget types) identity last
  noAlias : ∀ entry, entryOf types last = some entry → isAliasNode entry = false

def representationMembers : List String := ["kind", "scalar", "target", "items", "values"]

/-- Two references accept the same values: they end at one name that neither document declares, at
one type, or at two types that differ in identity, display name and origin alone. -/
def SameEnd (beforeTypes afterTypes : List (String × Entry)) (left right : String) : Prop :=
  ∃ e f, EndsAt beforeTypes left e ∧ EndsAt afterTypes right f ∧
    (e = f ∧ entryOf beforeTypes e = none ∧ entryOf afterTypes f = none ∨
      ∃ a b, entryOf beforeTypes e = some a ∧ entryOf afterTypes f = some b ∧
        (e = f ∨ SameBut ["identity", "displayName", "origin"] (some a.node) (some b.node)))

/-- Two references look alike: both end at names that are not declared, at types with the same five
members, or nowhere. -/
def AlikeEnds (beforeTypes afterTypes : List (String × Entry)) (left right : String) : Prop :=
  (∃ e f, EndsAt beforeTypes left e ∧ EndsAt afterTypes right f ∧
    (entryOf beforeTypes e = none ∧ entryOf afterTypes f = none ∨
      ∃ a b, entryOf beforeTypes e = some a ∧ entryOf afterTypes f = some b ∧
        ∀ member ∈ representationMembers,
          canonical ((a.node.get member).getD .null) =
            canonical ((b.node.get member).getD .null))) ∨
  ((¬ ∃ e, EndsAt beforeTypes left e) ∧ ¬ ∃ f, EndsAt afterTypes right f)

/-! ### Where the aliases end -/

def representationAt (types : List (String × Entry)) (last : String) : Json :=
  match entryOf types last with
  | none => .object [("kind", .str "unresolved"), ("scalar", .null)]
  | some entry => .object (representationMembers.map fun member =>
      (member, (entry.node.get member).getD .null))

def cyclic : Json := .object [("kind", .str "cyclic"), ("scalar", .null)]

section

variable {types : List (String × Entry)}

theorem aliasTarget_keys {identity target : String} (h : aliasTarget types identity = some target) :
    identity ∈ types.map Prod.fst := by
  obtain ⟨entry, he, -⟩ := Option.bind_eq_some_iff.1 h
  exact List.mem_map_of_mem (entryOf_mem he)

theorem EndsAt.unique {identity e f : String} (he : EndsAt types identity e)
    (hf : EndsAt types identity f) : e = f := he.ends.unique hf.ends

theorem endsAt_next {identity target last : String} (h : aliasTarget types identity = some target) :
    EndsAt types identity last ↔ EndsAt types target last :=
  ⟨fun he => ⟨(ends_next h).1 he.ends, he.noAlias⟩, fun he => ⟨(ends_next h).2 he.ends, he.noAlias⟩⟩

theorem get_of_getStr {value : Json} {name text : String} (h : value.getStr name = some text) :
    value.get name = some (.str text) := by
  obtain ⟨member, hm, hs⟩ := Option.bind_eq_some_iff.1 h
  cases member with
  | str other =>
    cases hs
    exact hm
  | _ => cases hs

theorem representationFrom_other (fuel : ℕ) (seen : List String) {value : Option Json}
    (h : ∀ text, value ≠ some (.str text)) : representationFrom types fuel seen value = cyclic := by
  cases fuel with
  | zero => rfl
  | succ fuel =>
    cases value with
    | none => rfl
    | some value =>
      cases value with
      | str text => exact absurd rfl (h text)
      | _ => rfl

/-- The walk tells the end, or that there is none; the types already seen lead to the current one
and are declared, so the fuel outlasts them. -/
theorem representationFrom_spec (fuel : ℕ) (seen : List String) (current : String)
    (hn : seen.Nodup) (hkeys : ∀ s ∈ seen, s ∈ types.map Prod.fst)
    (hseen : ∀ s ∈ seen, Relation.TransGen (fun a b => aliasTarget types a = some b) s current)
    (hfuel : types.length < fuel + seen.length) :
    (∃ e, EndsAt types current e ∧
        representationFrom types fuel seen (some (.str current)) = representationAt types e) ∨
      (¬ ∃ e, EndsAt types current e) ∧
        representationFrom types fuel seen (some (.str current)) = cyclic := by
  induction fuel generalizing seen current with
  | zero =>
    have hle := (hn.subperm hkeys).length_le
    rw [List.length_map] at hle
    omega
  | succ fuel ih =>
    rw [representationFrom]
    by_cases hmem : current ∈ seen
    · refine Or.inr ⟨fun he => ?_, by rw [if_pos hmem]; rfl⟩
      obtain ⟨e, he⟩ := he
      exact he.ends.acyclic (hseen current hmem)
    · rw [if_neg hmem]
      cases hentry : entryOf types current with
      | none =>
        refine Or.inl ⟨current, ⟨.stop (by simp [aliasTarget, hentry]), ?_⟩, ?_⟩
        · intro entry he
          rw [hentry] at he
          cases he
        · simp only [representationAt, hentry]
      | some entry =>
        by_cases ha : isAliasNode entry = true
        · have hkind : (entry.node.get "kind" == some (.str "alias")) = true := ha
          simp only [hkind, if_true]
          cases ht : entry.node.getStr "target" with
          | none =>
            have hnone : aliasTarget types current = none := by
              simp [aliasTarget, hentry, ha, ht]
            have hstop : ¬ ∃ e, EndsAt types current e := by
              intro he
              obtain ⟨e, he⟩ := he
              have heq : current = e := (Ends.stop hnone).unique he.ends
              rw [← heq] at he
              exact absurd (he.noAlias entry hentry) (by rw [ha]; decide)
            refine Or.inr ⟨hstop, representationFrom_other _ _ fun text hv => ?_⟩
            rw [Json.getStr, hv] at ht
            cases ht
          | some target =>
            have hnext : aliasTarget types current = some target := by
              simp [aliasTarget, hentry, ha, ht]
            rw [get_of_getStr ht]
            have hrest := ih (current :: seen) target (List.nodup_cons.2 ⟨hmem, hn⟩) ?_ ?_ ?_
            · simp only [endsAt_next hnext]
              exact hrest
            · exact List.forall_mem_cons.2 ⟨aliasTarget_keys hnext, hkeys⟩
            · refine List.forall_mem_cons.2 ⟨.single hnext, fun s hs => (hseen s hs).tail hnext⟩
            · rw [List.length_cons]
              omega
        · refine Or.inl ⟨current, ⟨.stop (by simp [aliasTarget, hentry, ha]), ?_⟩, ?_⟩
          · intro other he
            rw [hentry, Option.some.injEq] at he
            rw [← he]
            simpa using ha
          · have hkind : ¬ (entry.node.get "kind" == some (.str "alias")) = true := ha
            simp only [representationAt, hentry]
            rw [if_neg hkind]
            rfl

theorem resolveRepresentation_spec (identity : String) :
    (∃ e, EndsAt types identity e ∧
        resolveRepresentation types (some (.str identity)) = representationAt types e) ∨
      (¬ ∃ e, EndsAt types identity e) ∧
        resolveRepresentation types (some (.str identity)) = cyclic :=
  representationFrom_spec _ [] identity List.nodup_nil (fun _ hs => absurd hs List.not_mem_nil)
    (fun _ hs => absurd hs List.not_mem_nil) (Nat.lt_succ_self _)

end

/-! ### When two references look alike -/

theorem lookup_family (names : List String) (value : String → Json) (key : String) :
    lookup key (names.map fun name => (name, value name)) =
      if key ∈ names then some (value key) else none := by
  induction names with
  | nil => simp [lookup_nil]
  | cons name names ih =>
    rw [List.map_cons, lookup_cons, ih]
    by_cases hk : key ∈ names
    · simp [hk]
    · by_cases hn : name = key
      · simp [hn, hk]
      · simp [hn, hk, Ne.symm hn]

theorem canonical_family {names : List String} {value other : String → Json} :
    canonical (.object (names.map fun name => (name, value name))) =
        canonical (.object (names.map fun name => (name, other name))) ↔
      ∀ name ∈ names, canonical (value name) = canonical (other name) := by
  rw [canonical_object_iff]
  constructor
  · intro h name hn
    have hk := h name
    rw [lookup_family, lookup_family, if_pos hn, if_pos hn] at hk
    exact Option.some.inj hk
  · intro h key
    rw [lookup_family, lookup_family]
    split_ifs with hk
    · exact congrArg some (h key hk)
    · rfl

theorem canonical_ne_of_target {a b : Json} (ha : (a.get "target").isSome = true)
    (hb : b.get "target" = none) : canonical a ≠ canonical b := by
  intro h
  have hk := get_of_canonical h "target"
  rw [hb, Option.map_none, Option.map_eq_none_iff] at hk
  rw [hk] at ha
  cases ha

theorem unresolved_ne_cyclic :
    canonical (.object [("kind", .str "unresolved"), ("scalar", .null)]) ≠ canonical cyclic := by
  intro h
  have hk := getStr_of_canonical h "kind"
  exact absurd hk (by decide)

theorem represented_iff (beforeTypes afterTypes : List (String × Entry)) (left right : String) :
    sameBytes (some (resolveRepresentation beforeTypes (some (.str left))))
        (some (resolveRepresentation afterTypes (some (.str right)))) = true ↔
      AlikeEnds beforeTypes afterTypes left right := by
  rw [sameBytes_iff, Option.map_some, Option.map_some, Option.some.injEq]
  have htarget : ∀ {types : List (String × Entry)} {last : String} {entry : Entry},
      entryOf types last = some entry → ((representationAt types last).get "target").isSome = true := by
    intro types last entry he
    simp only [representationAt, he]
    rfl
  have hcyclic : ∀ {types : List (String × Entry)} {last : String},
      canonical (representationAt types last) ≠ canonical cyclic := by
    intro types last
    cases he : entryOf types last with
    | none =>
      simp only [representationAt, he]
      exact unresolved_ne_cyclic
    | some entry => exact canonical_ne_of_target (htarget he) rfl
  obtain ⟨e, he, hre⟩ | ⟨hne, hre⟩ := @resolveRepresentation_spec beforeTypes left
  · obtain ⟨f, hf, hrf⟩ | ⟨hnf, hrf⟩ := @resolveRepresentation_spec afterTypes right
    · rw [hre, hrf]
      have hends : AlikeEnds beforeTypes afterTypes left right ↔
          (entryOf beforeTypes e = none ∧ entryOf afterTypes f = none ∨
            ∃ a b, entryOf beforeTypes e = some a ∧ entryOf afterTypes f = some b ∧
              ∀ member ∈ representationMembers,
                canonical ((a.node.get member).getD .null) =
                  canonical ((b.node.get member).getD .null)) := by
        constructor
        · intro h
          obtain ⟨e', f', he', hf', h⟩ | ⟨h, -⟩ := h
          · rw [he.unique he', hf.unique hf']
            exact h
          · exact absurd ⟨e, he⟩ h
        · exact fun h => Or.inl ⟨e, f, he, hf, h⟩
      rw [hends]
      cases ha : entryOf beforeTypes e with
      | none =>
        cases hb : entryOf afterTypes f with
        | none => simp [representationAt, ha, hb]
        | some b =>
          refine iff_of_false (fun h => ?_) (by simp)
          exact canonical_ne_of_target (htarget hb) (by simp only [representationAt, ha]; rfl) h.symm
      | some a =>
        cases hb : entryOf afterTypes f with
        | none =>
          refine iff_of_false (fun h => ?_) (by simp)
          exact canonical_ne_of_target (htarget ha) (by simp only [representationAt, hb]; rfl) h
        | some b =>
          simp only [representationAt, ha, hb, canonical_family, reduceCtorEq, false_and, false_or,
            Option.some.injEq]
          constructor
          · exact fun h => ⟨a, b, rfl, rfl, h⟩
          · intro h
            obtain ⟨a', b', rfl, rfl, h⟩ := h
            exact h
    · rw [hre, hrf]
      refine iff_of_false hcyclic fun h => ?_
      obtain ⟨-, f, -, hf, -⟩ | ⟨h, -⟩ := h
      · exact hnf ⟨f, hf⟩
      · exact h ⟨e, he⟩
  · obtain ⟨f, hf, hrf⟩ | ⟨hnf, hrf⟩ := @resolveRepresentation_spec afterTypes right
    · rw [hre, hrf]
      refine iff_of_false (fun h => hcyclic h.symm) fun h => ?_
      obtain ⟨e, -, he, -⟩ | ⟨-, h⟩ := h
      · exact hne ⟨e, he⟩
      · exact h ⟨f, hf⟩
    · rw [hre, hrf]
      exact iff_of_true rfl (Or.inr ⟨hne, hnf⟩)

/-! ### The answer -/

/-- A field or a parameter that both documents have, with where it is classified and as what. -/
inductive Retained (left right : Json) : Json → Json → String → String → Prop where
  | field {type name : String} {t u f g : Entry} :
      entryOf (byIdentity (left.get "types")) type = some t →
      entryOf (byIdentity (right.get "types")) type = some u →
      entryOf (byIdentity (t.node.get "fields")) name = some f →
      entryOf (byIdentity (u.node.get "fields")) name = some g →
      Retained left right f.node g.node
        (place "" "types" u.position ++ "/fields" ++ "/" ++ toString g.position) "field"
  | param {type operation name : String} {t u o q f g : Entry} :
      entryOf (byIdentity (left.get "types")) type = some t →
      entryOf (byIdentity (right.get "types")) type = some u →
      entryOf (byIdentity (t.node.get "operations")) operation = some o →
      entryOf (byIdentity (u.node.get "operations")) operation = some q →
      entryOf (byIdentity (o.node.get "params")) name = some f →
      entryOf (byIdentity (q.node.get "params")) name = some g →
      Retained left right f.node g.node
        (place (place "" "types" u.position) "operations" q.position ++ "/params" ++ "/" ++
          toString g.position) "parameter"

theorem mem_classifyNodes {before after : Option Json}
    {removed added : String → Entry → List Change} {kept : String → Entry → Entry → List Change}
    {identity : String} {a b : Entry} {change : Change}
    (ha : entryOf (byIdentity before) identity = some a)
    (hb : entryOf (byIdentity after) identity = some b) (hc : change ∈ kept identity a b) :
    change ∈ classifyNodes before after removed added kept := by
  refine List.mem_append_right _ (List.mem_flatMap.2 ⟨_, entryOf_mem ha, ?_⟩)
  simp only [hb]
  exact hc

theorem mem_recorded {policy left right a b : Json} {pointer noun : String}
    (h : Retained left right a b pointer noun) {change : Change}
    (hc : change ∈ classifyField (byIdentity (left.get "types")) (byIdentity (right.get "types")) a b
      pointer noun) : change ∈ recorded policy left right := by
  have htypes : ∀ {change : Change}, change ∈ classifyTypes
      (if admitsUnknown policy then .additive else .conditional)
      (if admitsUnknown policy then .additive else .conditional) left right →
        change ∈ recorded policy left right := by
    intro change hm
    simp only [recorded, List.mem_append]
    exact Or.inl (Or.inl (Or.inr hm))
  apply htypes
  cases h with
  | field ht hu hf hg =>
    refine mem_classifyNodes ht hu ?_
    simp only [classifyType, List.mem_append]
    exact Or.inl (Or.inl (Or.inl (Or.inr (mem_classifyNodes hf hg hc))))
  | param ht hu ho hq hf hg =>
    refine mem_classifyNodes ht hu ?_
    simp only [classifyType, List.mem_append]
    refine Or.inr (mem_classifyNodes ho hq ?_)
    simp only [classifyOperation, List.mem_append]
    exact Or.inl (Or.inl (Or.inl (mem_classifyNodes hf hg hc)))

/-- The change of a reference is recorded, and as breaking unless it keeps its end. -/
structure RefClassified (answer : Answer) (beforeTypes afterTypes : List (String × Entry))
    (a b : Json) (pointer noun left right : String) : Prop where
  recorded : typeRefChange beforeTypes afterTypes a b pointer noun ∈ answer.changes
  breaking : ¬ SameEnd beforeTypes afterTypes left right →
    (typeRefChange beforeTypes afterTypes a b pointer noun).classification = .breaking

/-- A reference pointed elsewhere is a patch for the right reason exactly where references that look
alike end alike. -/
theorem repointed_iff (before after : Json) (options : Options)
    (hb : options.beforeInvalid = false) (ha : options.afterInvalid = false) (a b : Json)
    (pointer noun left right : String)
    (h : Retained (normalizeIr before) (normalizeIr after) a b pointer noun)
    (hl : a.get "typeRef" = some (.str left)) (hr : b.get "typeRef" = some (.str right))
    (hne : left ≠ right) :
    RefClassified (classifySurface before after options)
        (byIdentity ((normalizeIr before).get "types"))
        (byIdentity ((normalizeIr after).get "types")) a b pointer noun left right ↔
      (AlikeEnds (byIdentity ((normalizeIr before).get "types"))
          (byIdentity ((normalizeIr after).get "types")) left right →
        SameEnd (byIdentity ((normalizeIr before).get "types"))
          (byIdentity ((normalizeIr after).get "types")) left right) := by
  generalize hbt : byIdentity ((normalizeIr before).get "types") = beforeTypes
  generalize hat : byIdentity ((normalizeIr after).get "types") = afterTypes
  have hrecorded : typeRefChange beforeTypes afterTypes a b pointer noun ∈
      (classifySurface before after options).changes := by
    simp only [classifySurface, hb, ha, Bool.or_false, Bool.false_eq_true, if_false]
    refine (List.perm_insertionSort _ _).mem_iff.2 (mem_recorded h ?_)
    have hdiffer : (!strictEq (a.get "typeRef") (b.get "typeRef")) = true := by
      simpa [hl, hr, strictEq] using hne
    simp only [classifyField, List.mem_append]
    refine Or.inl (Or.inl (Or.inl (Or.inr ?_)))
    rw [hdiffer, hbt, hat]
    exact List.mem_singleton_self _
  have halike := represented_iff beforeTypes afterTypes left right
  have hpatch : AlikeEnds beforeTypes afterTypes left right →
      (typeRefChange beforeTypes afterTypes a b pointer noun).classification = .patch := by
    intro hs
    rw [typeRefChange, hl, hr, if_pos (halike.2 hs)]
  have hbreaking : ¬ AlikeEnds beforeTypes afterTypes left right →
      (typeRefChange beforeTypes afterTypes a b pointer noun).classification = .breaking := by
    intro hs
    rw [typeRefChange, hl, hr, if_neg fun hm => hs (halike.1 hm)]
  constructor
  · intro hc hs
    by_contra hn
    have hc := hc.breaking hn
    rw [hpatch hs] at hc
    cases hc
  · intro hc
    exact ⟨hrecorded, fun hn => hbreaking fun hs => hn (hc hs)⟩

/-- A document of an alias of texts and a record of one field. -/
def noteOf (typeRef : String) : Json :=
  ((Sample.document [Sample.type "ix://a/b/Name" "alias" [] [("target",
      .str "ix://quire/native/String")], Sample.type "ix://a/b/Note" "record" []
    [("fields", .array [Sample.field "ix://a/b/Note/text" "text" typeRef "required" []])]]
      []).get "ir").getD .null

def noteTypes (typeRef : String) : List (String × Entry) :=
  byIdentity ((normalizeIr (noteOf typeRef)).get "types")

theorem undeclared {types : List (String × Entry)} {name : String}
    (h : name ∉ types.map Prod.fst) : entryOf types name = none := by
  cases he : entryOf types name with
  | none => rfl
  | some entry => exact absurd (List.mem_map_of_mem (entryOf_mem he)) h

theorem undeclared_endsAt {types : List (String × Entry)} {name : String}
    (h : name ∉ types.map Prod.fst) : EndsAt types name name := by
  have hnone := undeclared h
  refine ⟨.stop (by rw [aliasTarget, hnone]; rfl), fun entry he => ?_⟩
  rw [hnone] at he
  cases he

/-- Where the field of the record is, and what it refers to. -/
def noteField (typeRef : String) : Option (ℕ × ℕ × Option Json) :=
  (entryOf (noteTypes typeRef) "ix://a/b/Note").bind fun type =>
    (entryOf (byIdentity (type.node.get "fields")) "ix://a/b/Note/text").map fun field =>
      (type.position, field.position, field.node.get "typeRef")

theorem note_retained {left right : String} (hl : noteField left = some (1, 0, some (.str left)))
    (hr : noteField right = some (1, 0, some (.str right))) : ∃ a b,
    Retained (normalizeIr (noteOf left)) (normalizeIr (noteOf right)) a b "/types/1/fields/0"
      "field" ∧ a.get "typeRef" = some (.str left) ∧ b.get "typeRef" = some (.str right) := by
  obtain ⟨t, ht, hf⟩ := Option.bind_eq_some_iff.1 hl
  obtain ⟨f, hf, hfield⟩ := Option.map_eq_some_iff.1 hf
  obtain ⟨u, hu, hg⟩ := Option.bind_eq_some_iff.1 hr
  obtain ⟨g, hg, hother⟩ := Option.map_eq_some_iff.1 hg
  simp only [Prod.mk.injEq] at hfield hother
  obtain ⟨-, -, hfield⟩ := hfield
  obtain ⟨hu', hg', hother⟩ := hother
  have hretained := Retained.field ht hu hf hg
  rw [hu', hg'] at hretained
  exact ⟨f.node, g.node, hretained, hfield, hother⟩

theorem aliasedNote_classified : ∃ a b, RefClassified
    (classifySurface (noteOf "ix://quire/native/String") (noteOf "ix://a/b/Name") valid)
    (noteTypes "ix://quire/native/String") (noteTypes "ix://a/b/Name") a b "/types/1/fields/0"
    "field" "ix://quire/native/String" "ix://a/b/Name" := by
  obtain ⟨a, b, h, ha, hb⟩ := @note_retained "ix://quire/native/String" "ix://a/b/Name"
    (by decide +kernel) (by decide +kernel)
  refine ⟨a, b, (repointed_iff _ _ valid rfl rfl a b _ _ _ _ h ha hb (by decide)).2 fun _ => ?_⟩
  have hbefore : "ix://quire/native/String" ∉
      (noteTypes "ix://quire/native/String").map Prod.fst := by decide +kernel
  have hafter : "ix://quire/native/String" ∉ (noteTypes "ix://a/b/Name").map Prod.fst := by
    decide +kernel
  have hname : aliasTarget (noteTypes "ix://a/b/Name") "ix://a/b/Name" =
      some "ix://quire/native/String" := by decide +kernel
  refine ⟨_, _, undeclared_endsAt hbefore, (endsAt_next hname).2 (undeclared_endsAt hafter), ?_⟩
  exact Or.inl ⟨rfl, undeclared hbefore, undeclared hafter⟩

/-- A field of texts that becomes one of integers is a patch. -/
theorem retypedNote_patch :
    (classifySurface (noteOf "ix://quire/native/String") (noteOf "ix://quire/native/Integer")
      valid).classification = .patch ∧
    (classifySurface (noteOf "ix://quire/native/String") (noteOf "ix://quire/native/Integer")
      valid).changes.map Change.kind = ["field-type-ref-rerepresented"] ∧
    ¬ SameEnd (noteTypes "ix://quire/native/String") (noteTypes "ix://quire/native/Integer")
      "ix://quire/native/String" "ix://quire/native/Integer" := by
  refine ⟨by decide +kernel, by decide +kernel, fun h => ?_⟩
  obtain ⟨e, f, he, hf, h⟩ := h
  have hbefore : "ix://quire/native/String" ∉
      (noteTypes "ix://quire/native/String").map Prod.fst := by decide +kernel
  have hafter : "ix://quire/native/Integer" ∉
      (noteTypes "ix://quire/native/Integer").map Prod.fst := by decide +kernel
  rw [he.unique (undeclared_endsAt hbefore), hf.unique (undeclared_endsAt hafter)] at h
  obtain ⟨heq, -⟩ | ⟨a, -, hentry, -⟩ := h
  · exact absurd heq (by decide)
  · rw [undeclared hbefore] at hentry
    cases hentry

end FilamentCore.Backends.TypescriptV1
