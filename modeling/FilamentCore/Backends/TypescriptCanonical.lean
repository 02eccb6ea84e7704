import FilamentCore.Compiler.CanonicalIr
import FilamentCore.SemanticIr.Normalize

/-!
# The canonical form of the TypeScript backend (src/compiler/backends/typescript-v1/canonical.mjs)

A second canonicalizer and a second normalizer, and that they write what the compiler and the
reader write.
-/

namespace FilamentCore.Backends.TypescriptV1
open FilamentCore.SemanticIr
open FilamentCore.SemanticIr.Json
open FilamentCore.SemanticIr.Grammar (depth)

/-! ### `canonicalize` -/

/-- `SET_MATCHERS`: the segments of `IDENTITY_SET_PATHS`. -/
def setMatchers : List (List String) :=
  [["types"], ["types", "*", "variants"], ["types", "*", "constraints"],
    ["types", "*", "relationships"], ["types", "*", "operations"], ["types", "*", "clauses"],
    ["types", "*", "extensions"], ["types", "*", "fields", "*", "extensions"],
    ["types", "*", "operations", "*", "params", "*", "extensions"], ["occurrences"],
    ["extensions"]]

/-- Segments of the length of a matcher, each its own or under a `*`. -/
def matchesPath : List String → List String → Bool
  | [], [] => true
  | m :: matcher, segment :: segments => (m == "*" || m == segment) && matchesPath matcher segments
  | _, _ => false

def isIdentitySet (segments : List String) : Bool :=
  setMatchers.any fun matcher => matchesPath matcher segments

def maxCanonicalDepth : ℕ := 256

def identityOfMember (member : Json) : Option String :=
  match member with
  | .object members => (lookup "identity" members).bind asStr
  | _ => none

/-- `compareCodeUnits(left.text, right.text) <= 0`. -/
def textLe (left right : List Char) : Bool :=
  utf16Le (String.ofList left) (String.ofList right)

/-- The comparison of two members of a set is not greater; members that compare equal keep their
order. -/
def memberLe (left right : Json × List Char) : Bool :=
  match identityOfMember left.1, identityOfMember right.1 with
  | some leftIdentity, some rightIdentity =>
    if leftIdentity = rightIdentity then textLe left.2 right.2
    else utf16Le leftIdentity rightIdentity
  | some _, none => true
  | none, some _ => false
  | none, none => textLe left.2 right.2

def sortSet (members : List (Json × List Char)) : List (Json × List Char) :=
  members.insertionSort fun left right => memberLe left right = true

/-- `render`: the segments of a value are those of its array or object, and its index or name. -/
def renderer (sets : Bool) : Encoder (List String) where
  item segments index := segments ++ [toString index]
  member segments key := segments ++ [key]
  order segments members :=
    if sets && isIdentitySet segments then sortSet members else members

/-- `canonicalize(value, { sets })`; none where it throws. -/
def canonicalize (sets : Bool) (value : Json) : Option (List Char) :=
  encodeWithin (renderer sets) maxCanonicalDepth [] 0 value

/-! ### `normalizeIr` -/

/-- `{ ...field, nullable: field.nullable === true }`. -/
def materializeField : Json → Json
  | .object field =>
    .object (setMember "nullable" (.bool (lookup "nullable" field == some (.bool true))) field)
  | field => field

def normalizeOperation : Json → Json := onMembers (mapMember "params" materializeField)

def normalizeType : Json → Json :=
  onMembers fun type =>
    mapMember "operations" normalizeOperation (mapMember "fields" materializeField type)

def normalizeIr : Json → Json :=
  onMembers fun document =>
    mapMember "types" normalizeType
      (setMember "canonicalization" (.object [("algorithm", .str "rfc8785-v1")]) document)

def normalizeIrForTarget (document : Json) : Option (List Char) :=
  canonicalize false (normalizeIr document)

/-! ### The order of the sets -/

def advance (segment : String) (matchers : List (List String)) : List (List String) :=
  matchers.filterMap fun matcher =>
    match matcher with
    | [] => none
    | m :: rest => if m == "*" || m == segment then some rest else none

def remaining (segments : List String) : List (List String) :=
  segments.foldl (fun matchers segment => advance segment matchers) setMatchers

def matchersAt : Place → List (List String)
  | .root => setMatchers
  | .types => [[], ["*", "variants"], ["*", "constraints"], ["*", "relationships"],
      ["*", "operations"], ["*", "clauses"], ["*", "extensions"],
      ["*", "fields", "*", "extensions"], ["*", "operations", "*", "params", "*", "extensions"]]
  | .type => [["variants"], ["constraints"], ["relationships"], ["operations"], ["clauses"],
      ["extensions"], ["fields", "*", "extensions"],
      ["operations", "*", "params", "*", "extensions"]]
  | .fields => [["*", "extensions"]]
  | .field => [["extensions"]]
  | .operations => [[], ["*", "params", "*", "extensions"]]
  | .operation => [["params", "*", "extensions"]]
  | .set => [[]]
  | .leaf => []

theorem matchesPath_iff (matchers : List (List String)) (segments : List String) :
    (matchers.any fun matcher => matchesPath matcher segments) =
      (segments.foldl (fun matchers segment => advance segment matchers) matchers).contains [] := by
  induction segments generalizing matchers with
  | nil =>
    rw [Bool.eq_iff_iff, List.any_eq_true, List.contains_iff_mem]
    constructor
    · intro h
      obtain ⟨matcher, hm, hp⟩ := h
      cases matcher with
      | nil => exact hm
      | cons m rest => cases hp
    · intro h
      exact ⟨[], h, rfl⟩
  | cons segment segments ih =>
    rw [List.foldl_cons, ← ih, Bool.eq_iff_iff, List.any_eq_true, List.any_eq_true]
    constructor
    · intro h
      obtain ⟨matcher, hm, hp⟩ := h
      cases matcher with
      | nil => cases hp
      | cons m rest =>
        rw [matchesPath, Bool.and_eq_true] at hp
        exact ⟨rest, List.mem_filterMap.2 ⟨m :: rest, hm, if_pos hp.1⟩, hp.2⟩
    · intro h
      obtain ⟨rest, hr, hp⟩ := h
      obtain ⟨matcher, hm, hrest⟩ := List.mem_filterMap.1 hr
      cases matcher with
      | nil => cases hrest
      | cons m tail =>
        simp only [Option.ite_none_right_eq_some, Option.some.injEq] at hrest
        refine ⟨m :: tail, hm, ?_⟩
        rw [matchesPath, hrest.1, hrest.2, hp]
        rfl

theorem remaining_append (segments : List String) (segment : String) :
    remaining (segments ++ [segment]) = advance segment (remaining segments) := by
  rw [remaining, List.foldl_append]
  rfl

theorem isIdentitySet_eq {segments : List String} {place : Place}
    (h : remaining segments = matchersAt place) : isIdentitySet segments = place.isSet := by
  rw [isIdentitySet, matchesPath_iff]
  change (remaining segments).contains [] = _
  rw [h]
  cases place <;> decide

theorem remaining_item {segments : List String} {place : Place}
    (h : remaining segments = matchersAt place) (hp : place.isArray = true ∨ place = .leaf)
    (segment : String) : remaining (segments ++ [segment]) = matchersAt place.item := by
  rw [remaining_append, h]
  obtain hp | rfl := hp
  · cases place with
    | types => rfl
    | fields => rfl
    | operations => rfl
    | set => rfl
    | _ => cases hp
  · rfl

theorem remaining_member {segments : List String} {place : Place}
    (h : remaining segments = matchersAt place) {name : String}
    (hp : name ∈ place.names ∨ place = .leaf) :
    remaining (segments ++ [name]) = matchersAt (place.member name) := by
  have hobject : ∀ place : Place, ∀ name ∈ place.names,
      advance name (matchersAt place) = matchersAt (place.member name) := by
    intro place
    cases place <;> decide +kernel
  rw [remaining_append, h]
  obtain hp | rfl := hp
  · exact hobject place name hp
  · rfl

theorem identityOfMember_eq (member : Json) : identityOfMember member = identityOf member := by
  cases member <;> rfl

theorem sortSet_eq {items : List Json} (h : Identified items)
    {members : List (Json × List Char)} (hm : members.map Prod.fst = items) :
    sortSet members = sortByIdentity members := by
  refine h.sort_eq ?_ ?_ hm
  · intro a
    rw [memberLe]
    cases hi : identityOfMember a.1 with
    | none => exact utf16Le_refl _
    | some identity => exact (if_pos rfl).trans (utf16Le_refl _)
  · intro a b i j hi hj hij
    rw [memberLe, identityOfMember_eq, identityOfMember_eq, hi, hj]
    simp only [if_neg hij]

theorem simulates : Simulates (renderer true) identityEncoder
    fun segments place value => remaining segments = matchersAt place ∧ Fits place value where
  item segments place items := by
    intro h i item hi
    obtain ⟨hat, hfits⟩ := h
    cases hfits with
    | leaf => exact ⟨remaining_item hat (.inr rfl) _, .leaf item⟩
    | array _ _ ha _ hitems => exact ⟨remaining_item hat (.inl ha) _, hitems item hi⟩
  member segments place members := by
    intro h name value hv
    obtain ⟨hat, hfits⟩ := h
    cases hfits with
    | leaf => exact ⟨remaining_member hat (.inr rfl), .leaf value⟩
    | object _ _ _ hclosed hmembers =>
      exact ⟨remaining_member hat (.inl (hclosed name value hv)), hmembers name value hv⟩
  order segments place items := by
    intro h texts ht
    obtain ⟨hat, hfits⟩ := h
    simp only [renderer, identityEncoder, Bool.true_and, isIdentitySet_eq hat]
    cases hfits with
    | leaf => rfl
    | array _ _ _ hidentified _ =>
      by_cases hs : place.isSet = true
      · rw [if_pos hs, if_pos hs, sortSet_eq (hidentified hs) ht]
      · rw [if_neg hs, if_neg hs]

theorem canonicalize_sets {ir : Json} (hf : Fits .root ir) (hd : depth ir ≤ maxCanonicalDepth) :
    canonicalize true ir = some (encode identityEncoder .root ir) := by
  rw [canonicalize, encodeWithin_eq ir [] 0 (by omega),
    encode_congr simulates ir [] .root ⟨rfl, hf⟩]

theorem canonicalize_plain {value : Json} (hd : depth value ≤ maxCanonicalDepth) :
    canonicalize false value = some (canonical value) := by
  rw [canonicalize, encodeWithin_eq value [] 0 (by omega),
    encode_plain (fun _ _ => rfl) value []]

/-! ### The normalized document -/

theorem canonical_materializeField (field : Json) :
    canonical (Normalize.materializeField field) = canonical (materializeField field) := by
  cases field with
  | object members =>
    apply canonical_object_eq
    intro key
    rw [lookup_setMember]
    exact congrArg _ (Normalize.lookup_materializeField key members)
  | _ => rfl

theorem canonical_materializeOperation (operation : Json) :
    canonical (Normalize.materializeOperation operation) =
      canonical (normalizeOperation operation) := by
  cases operation with
  | object members =>
    apply canonical_object_eq
    intro key
    rw [lookup_map key fun name value =>
        if name = "params" then Normalize.materializeFieldArray value else value,
      lookup_mapMember]
    by_cases hk : key = "params"
    · rw [if_pos hk.symm, Option.map_map, Option.map_map]
      congr 1
      funext value
      rw [Function.comp_apply, if_pos hk]
      exact canonical_mapItems canonical_materializeField value
    · simp only [if_neg hk, if_neg (Ne.symm hk), Option.map_id']
  | _ => rfl

theorem canonical_materializeType (type : Json) :
    canonical (Normalize.materializeType type) = canonical (normalizeType type) := by
  cases type with
  | object members =>
    apply canonical_object_eq
    intro key
    rw [lookup_map key fun name value =>
        if name = "fields" then Normalize.materializeFieldArray value
        else if name = "operations" then Normalize.materializeOperations value else value,
      lookup_mapMember, lookup_mapMember]
    by_cases hf : key = "fields"
    · subst hf
      rw [if_neg (by decide), if_pos rfl, Option.map_map, Option.map_map]
      congr 1
      funext value
      exact canonical_mapItems canonical_materializeField value
    · by_cases ho : key = "operations"
      · subst ho
        rw [if_pos rfl, if_neg (by decide), Option.map_map, Option.map_map]
        congr 1
        funext value
        exact canonical_mapItems canonical_materializeOperation value
      · simp only [if_neg hf, if_neg ho, if_neg (Ne.symm hf), if_neg (Ne.symm ho),
          Option.map_id']
  | _ => rfl

/-- The reader and the backend normalize a document to one canonical form. -/
theorem canonical_materializeIr (ir : Json) :
    canonical (Normalize.materializeIr ir) = canonical (normalizeIr ir) := by
  cases ir with
  | object members =>
    apply canonical_object_eq
    intro key
    rw [lookup_mapMember, lookup_setMember]
    by_cases hc : key = "canonicalization"
    · subst hc
      rw [Normalize.lookup_descriptor]
      rfl
    · rw [Normalize.lookup_materializeMembers hc, if_neg (Ne.symm hc)]
      by_cases ht : "types" = key
      · rw [if_pos ht, if_pos ht, Option.map_map, Option.map_map]
        congr 1
        funext value
        exact canonical_mapItems canonical_materializeType value
      · rw [if_neg ht, if_neg ht]
  | _ => rfl

/-! ### The nesting of the normalized document -/

theorem depth_materializeField {field : Json} {n : ℕ} (h : depth field ≤ n) (hn : 1 ≤ n) :
    depth (materializeField field) ≤ n := by
  cases field with
  | object members => exact depthMembers_setMember h hn
  | _ => exact h

theorem depth_normalizeOperation {operation : Json} {n : ℕ} (h : depth operation ≤ n)
    (hn : 3 ≤ n) : depth (normalizeOperation operation) ≤ n := by
  cases operation with
  | object members =>
    apply depthMembers_mapMember h
    intro field hf
    have hle := depth_materializeField (Nat.le_sub_of_add_le hf) (by omega)
    omega
  | _ => exact h

theorem depth_normalizeType {type : Json} {n : ℕ} (h : depth type ≤ n) (hn : 5 ≤ n) :
    depth (normalizeType type) ≤ n := by
  cases type with
  | object members =>
    apply depthMembers_mapMember
    · apply depthMembers_mapMember h
      intro field hf
      have hle := depth_materializeField (Nat.le_sub_of_add_le hf) (by omega)
      omega
    · intro operation ho
      have hle := depth_normalizeOperation (Nat.le_sub_of_add_le ho) (by omega)
      omega
  | _ => exact h

theorem depth_normalizeIr {ir : Json} {n : ℕ} (h : depth ir ≤ n) (hn : 7 ≤ n) :
    depth (normalizeIr ir) ≤ n := by
  cases ir with
  | object members =>
    apply depthMembers_mapMember
    · apply depthMembers_setMember h
      have hdescriptor : depth (object [("algorithm", str "rfc8785-v1")]) = 1 := rfl
      omega
    · intro type ht
      have hle := depth_normalizeType (Nat.le_sub_of_add_le ht) (by omega)
      omega
  | _ => exact h

/-! ### The canonicalizers -/

theorem canonicalizers_agree {ir : Json} (hs : semanticIr ir "/ir" = []) (hd : DistinctSets ir)
    (hdepth : depth ir ≤ Compiler.Canonical.maxDepth) :
    (∃ text, Compiler.Canonical.canonicalIr ir = some text ∧ canonicalize true ir = some text) ∧
      ∃ text, normalizeIrForTarget ir = some text ∧
        Normalize.normalized (object [("ir", ir)]) = text := by
  have hf := fits_document hs hd
  have hlimit : depth ir ≤ maxCanonicalDepth := hdepth.trans (by decide)
  refine ⟨⟨_, Compiler.Canonical.canonicalIr_eq hf hdepth, canonicalize_sets hf hlimit⟩, _,
    canonicalize_plain (depth_normalizeIr hlimit (by decide)), ?_⟩
  exact canonical_materializeIr ir

/-- Types and extensions that are not in order. -/
def unorderedDocument : Json :=
  ((Sample.document [Sample.scalar "ix://a/T" "string",
    Sample.type "ix://a/R" "record" [] [("fields", .array [
      Sample.field "ix://a/R/f" "f" "ix://a/T" "required" [("extensions",
        .array [Sample.extension "ix://a/e" true, Sample.extension "ix://a/d" false])]])]]
    [Sample.extension "ix://a/y" true, Sample.extension "ix://a/x" false]).get "ir").getD .null

theorem unorderedDocument_agree :
    (∃ text, Compiler.Canonical.canonicalIr unorderedDocument = some text ∧
      canonicalize true unorderedDocument = some text) ∧
      ∃ text, normalizeIrForTarget unorderedDocument = some text ∧
        Normalize.normalized (object [("ir", unorderedDocument)]) = text := by
  apply canonicalizers_agree
  · decide +kernel
  · constructor <;> decide +kernel
  · decide +kernel

end FilamentCore.Backends.TypescriptV1
