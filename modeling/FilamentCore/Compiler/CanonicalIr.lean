import FilamentCore.SemanticIr.IdentitySets
import FilamentCore.Library.ByteText

/-!
# The canonical form of the compiler

The canonicaliser (src/compiler/packages/canonical.mjs) and the normalized document
(src/compiler/ir/normalize.mjs). A JavaScript object has one member of each name, the last the
document spells; `JSON.stringify` of a number is ECMAScript's `Number::toString`.
-/

namespace FilamentCore.Compiler.Canonical
open FilamentCore.SemanticIr
open FilamentCore.SemanticIr.Json
open FilamentCore.SemanticIr.Grammar (depth)
open FilamentCore.Library.ByteText (bytesOf bytesOf_startsWith)

/-! ### `canonicalize` -/

mutual

/-- `String(value)`. -/
def jsString : Json → String
  | .null => "null"
  | .bool true => "true"
  | .bool false => "false"
  | .number n => String.ofList (ecmaNumberToString n.value)
  | .str text => text
  | .array items => ",".intercalate (jsStrings items)
  | .object _ => "[object Object]"

/-- What `join` makes of the items: null is empty. -/
def jsStrings : List Json → List String
  | [] => []
  | .null :: items => "" :: jsStrings items
  | item :: items => jsString item :: jsStrings items

end

/-- What an item of a set is sorted by: `String(identity ?? "")`, or the item itself. -/
def sortKey (item : Json) : String :=
  match item with
  | .object members =>
    match lookup "identity" members with
    | none => ""
    | some .null => ""
    | some identity => jsString identity
  | item => jsString item

/-- `[...node].sort(byCodeUnits)`, with the text of each item. -/
def sortSet (texts : List (Json × List Char)) : List (Json × List Char) :=
  texts.insertionSort fun left right => utf16Le (sortKey left.1) (sortKey right.1) = true

/-- `walk`: `*` stands for an item of an array. -/
def encoder (sets : List String) : Encoder String where
  item path _ := path ++ "/*"
  member path key := path ++ "/" ++ key
  order path texts := if sets.contains path then sortSet texts else texts

/-- `canonicalize(value, { sets, maxDepth })`; none where it throws. -/
def canonicalize (sets : List String) (maxDepth : ℕ) (value : Json) : Option (List Char) :=
  encodeWithin (encoder sets) maxDepth "" 0 value

/-! ### The documents -/

def identitySets : List String :=
  ["/types", "/types/*/variants", "/types/*/constraints", "/types/*/relationships",
    "/types/*/operations", "/types/*/clauses", "/types/*/extensions",
    "/types/*/fields/*/extensions", "/types/*/operations/*/params/*/extensions", "/occurrences",
    "/extensions"]

def maxDepth : ℕ := 128

def canonicalIr (document : Json) : Option (List Char) :=
  canonicalize identitySets maxDepth document

/-- `field.nullable = field.nullable === true`. -/
def materialize : Json → Json
  | .object field =>
    .object (setMember "nullable" (.bool (lookup "nullable" field == some (.bool true))) field)
  | field => field

def materializeType (definition : List (String × Json)) : List (String × Json) :=
  mapMember "operations" (onMembers (mapMember "params" materialize))
    (mapMember "fields" materialize definition)

/-- The copy that `normalizeIr` writes. -/
def normalCopy (document : List (String × Json)) : List (String × Json) :=
  mapMember "types" (onMembers materializeType)
    (setMember "canonicalization" (.object [("algorithm", .str "rfc8785-v1")]) document)

def normalizeIr (document : Json) : Option (List Char) :=
  canonicalIr (onMembers normalCopy document)

/-! ### The order of the sets -/

def paths : Place → List String
  | .root => [""]
  | .types => ["/types"]
  | .type => ["/types/*"]
  | .fields => ["/types/*/fields", "/types/*/operations/*/params"]
  | .field => ["/types/*/fields/*", "/types/*/operations/*/params/*"]
  | .operations => ["/types/*/operations"]
  | .operation => ["/types/*/operations/*"]
  | .set => ["/types/*/variants", "/types/*/constraints", "/types/*/relationships",
      "/types/*/clauses", "/types/*/extensions", "/types/*/fields/*/extensions",
      "/types/*/operations/*/params/*/extensions", "/occurrences", "/extensions"]
  | .leaf => []

def noSet (path : String) : Bool :=
  identitySets.all fun s => s != path && !(path ++ "/").toList.isPrefixOf s.toList

def atPlace (path : String) (place : Place) : Bool :=
  if place = .leaf then noSet path else (paths place).contains path

theorem noSet_below {path : String} (h : noSet path = true) (name : String) :
    noSet (path ++ "/" ++ name) = true := by
  rw [noSet, List.all_eq_true] at *
  intro s hs
  have hp := h s hs
  simp only [Bool.and_eq_true, bne_iff_ne, Bool.not_eq_true', ← Bool.not_eq_true,
    List.isPrefixOf_iff_prefix] at hp ⊢
  obtain ⟨-, hp⟩ := hp
  have hleading : ∀ a b : String, a.toList <+: (a ++ b).toList := by
    intro a b
    rw [String.toList_append]
    exact List.prefix_append _ _
  have hbelow := hleading (path ++ "/") name
  refine ⟨fun he => hp ?_, fun he => hp ?_⟩
  · rwa [he]
  · exact (hbelow.trans (hleading _ "/")).trans he

/-! A prefix of characters is one of bytes, which are cheaper to compare. -/

def noSetBytes (path : String) : Bool :=
  identitySets.all fun s => s != path && !(bytesOf (path ++ "/")).isPrefixOf (bytesOf s)

theorem noSet_of_bytes {path : String} (h : noSetBytes path = true) : noSet path = true := by
  rw [noSetBytes, List.all_eq_true] at h
  rw [noSet, List.all_eq_true]
  intro s hs
  have hp := h s hs
  simp only [Bool.and_eq_true, bne_iff_ne, Bool.not_eq_true', ← Bool.not_eq_true,
    List.isPrefixOf_iff_prefix] at hp ⊢
  exact ⟨hp.1, fun hstarts => hp.2 (bytesOf_startsWith hstarts)⟩

/-- `atPlace`, with the bytes of the path for a leaf. -/
def atPlaceBytes (path : String) (place : Place) : Bool :=
  if place = .leaf then noSetBytes path else (paths place).contains path

theorem atPlace_of_bytes {path : String} {place : Place} (h : atPlaceBytes path place = true) :
    atPlace path place = true := by
  rw [atPlaceBytes] at h
  rw [atPlace]
  split at h
  · rename_i hleaf
    rw [if_pos hleaf]
    exact noSet_of_bytes h
  · rename_i hleaf
    rwa [if_neg hleaf]

theorem atPlace_item {path : String} {place : Place} (h : atPlace path place = true)
    (hp : place.isArray = true ∨ place = .leaf) :
    atPlace (path ++ "/*") place.item = true := by
  have harray : ∀ place : Place, place.isArray = true → ∀ path ∈ paths place,
      atPlaceBytes (path ++ "/*") place.item = true := by
    intro place
    cases place <;> decide +kernel
  by_cases hl : place = .leaf
  · subst hl
    have hslash : path ++ "/*" = path ++ "/" ++ "*" := by
      rw [String.append_assoc]
      rfl
    rw [hslash]
    exact noSet_below h "*"
  · rw [atPlace, if_neg hl, List.contains_iff_mem] at h
    exact atPlace_of_bytes (harray place (hp.resolve_right hl) path h)

theorem atPlace_member {path name : String} {place : Place} (h : atPlace path place = true)
    (hp : name ∈ place.names ∨ place = .leaf) :
    atPlace (path ++ "/" ++ name) (place.member name) = true := by
  have hobject : ∀ place : Place, ∀ path ∈ paths place, ∀ name ∈ place.names,
      atPlaceBytes (path ++ "/" ++ name) (place.member name) = true := by
    intro place
    cases place <;> decide +kernel
  by_cases hl : place = .leaf
  · subst hl
    exact noSet_below h name
  · rw [atPlace, if_neg hl, List.contains_iff_mem] at h
    exact atPlace_of_bytes (hobject place path h name (hp.resolve_right hl))

theorem contains_atPlace {path : String} {place : Place} (h : atPlace path place = true) :
    identitySets.contains path = place.isSet := by
  have hplace : ∀ place : Place, ∀ path ∈ paths place,
      identitySets.contains path = place.isSet := by
    intro place
    cases place <;> decide
  by_cases hl : place = .leaf
  · subst hl
    have hset : Place.leaf.isSet = false := rfl
    rw [hset, ← Bool.not_eq_true, List.contains_iff_mem]
    intro hm
    have hs := List.all_eq_true.1 h path hm
    simp at hs
  · rw [atPlace, if_neg hl, List.contains_iff_mem] at h
    exact hplace place path h

theorem sortKey_eq {item : Json} {identity : String} (h : identityOf item = some identity) :
    sortKey item = identity := by
  obtain ⟨value, hv, ht⟩ := Option.bind_eq_some_iff.1 h
  cases item with
  | object members =>
    have hl : lookup "identity" members = some value := hv
    cases value with
    | str text =>
      rw [asStr, Option.some.injEq] at ht
      simp only [sortKey, hl, jsString, ht]
    | _ => cases ht
  | _ => cases hv

theorem sortSet_eq {items : List Json} (h : Identified items) {texts : List (Json × List Char)}
    (ht : texts.map Prod.fst = items) : sortSet texts = sortByIdentity texts := by
  refine h.sort_eq (fun a => utf16Le_refl _) ?_ ht
  intro a b i j hi hj _
  rw [sortKey_eq hi, sortKey_eq hj]

theorem simulates : Simulates (encoder identitySets) identityEncoder
    fun path place value => atPlace path place = true ∧ Fits place value where
  item path place items := by
    intro h i item hi
    obtain ⟨hat, hfits⟩ := h
    cases hfits with
    | leaf => exact ⟨atPlace_item hat (.inr rfl), .leaf item⟩
    | array _ _ ha _ hitems => exact ⟨atPlace_item hat (.inl ha), hitems item hi⟩
  member path place members := by
    intro h name value hv
    obtain ⟨hat, hfits⟩ := h
    cases hfits with
    | leaf => exact ⟨atPlace_member hat (.inr rfl), .leaf value⟩
    | object _ _ _ hclosed hmembers =>
      exact ⟨atPlace_member hat (.inl (hclosed name value hv)), hmembers name value hv⟩
  order path place items := by
    intro h texts ht
    obtain ⟨hat, hfits⟩ := h
    simp only [encoder, identityEncoder, contains_atPlace hat]
    cases hfits with
    | leaf => rfl
    | array _ _ _ hidentified _ =>
      by_cases hs : place.isSet = true
      · rw [if_pos hs, if_pos hs, sortSet_eq (hidentified hs) ht]
      · rw [if_neg hs, if_neg hs]

theorem canonicalIr_eq {ir : Json} (hf : Fits .root ir) (hd : depth ir ≤ maxDepth) :
    canonicalIr ir = some (encode identityEncoder .root ir) := by
  rw [canonicalIr, canonicalize, encodeWithin_eq ir "" 0 (by omega),
    encode_congr simulates ir "" .root ⟨by decide, hf⟩]

end FilamentCore.Compiler.Canonical
