import FilamentCore.SemanticIr.Findings
import FilamentCore.SemanticIr.Vocabulary

/-!
# Primitive shapes and generic checks (crates/semantic-ir/src/schema.rs)

The text shapes of `common.schema.json`, the closed vocabularies, and the checks every node
schema is made of. A check returns the findings it pushes, in order.
-/

namespace FilamentCore.SemanticIr

/-! ### Text shapes -/

/-- A decimal numeral without a leading zero. -/
def isCanonicalNumeral (cs : List Char) : Bool :=
  !cs.isEmpty && cs.all isAsciiDigit && (cs.length == 1 || cs.head? != some '0')

def isSemverTail (tail : Option (List Char)) : Bool :=
  tail.all fun cs => !cs.isEmpty && cs.all fun c => isAlphanumeric c || c == '.' || c == '-'

/-- A text before a separator, and what follows it when it is there. -/
def cutAt (separator : Char) (cs : List Char) : List Char × Option (List Char) :=
  match splitOnce separator cs with
  | some (head, tail) => (head, some tail)
  | none => (cs, none)

def isSemver (text : String) : Bool :=
  let (withoutBuild, build) := cutAt '+' text.toList
  let (core, pre) := cutAt '-' withoutBuild
  let parts := splitOn '.' core
  parts.length == 3 && parts.all isCanonicalNumeral && isSemverTail pre && isSemverTail build

def isPackageRevision (text : String) : Bool := isSemver text || isCanonicalNumeral text.toList

def isPackageSegment (cs : List Char) : Bool :=
  startsAndRuns isLowerOrDigit
    (fun c => isLowerOrDigit c || c == '.' || c == '_' || c == '-') cs

def isPackageIdentity (text : String) : Bool :=
  (splitOnce '/' text.toList).any fun parts =>
    isPackageSegment parts.1 && isPackageSegment parts.2

def isNamespacedName (text : String) : Bool :=
  (splitOnce ':' text.toList).any fun parts =>
    startsAndRuns isLowerOrDigit (fun c => isLowerOrDigit c || c == '.' || c == '-') parts.1 &&
      startsAndRuns isAlphanumeric
        (fun c => isAlphanumeric c || c == '.' || c == '_' || c == '-') parts.2

def isClauseLanguage (text : String) : Bool :=
  ["quire", "ocl", "sysml", "fretish"].contains text || isNamespacedName text

def isUnit (text : String) : Bool :=
  text != "" && text.toList.all fun c => '!' ≤ c && c ≤ '~'

def isConstructName (text : String) : Bool :=
  startsAndRuns isLower (fun c => isLowerOrDigit c || c == '_') text.toList

def isUnitName (cs : List Char) : Bool :=
  startsAndRuns isAlpha (fun c => isAlphanumeric c || c == '_') cs

def isQuantityTypeRef (identity : String) : Bool :=
  match stripPrefix "ix://quire/unit/".toList identity.toList with
  | none => false
  | some name =>
    match (splitOn '/' name).reverse with
    | [] => false
    | last :: parts =>
      isUnitName last && parts.all fun part => isUnitName part || isPackageSegment part

def isSpecialTypeRef (identity : String) : Bool :=
  identity == "ix://quire/native/Clock" || isQuantityTypeRef identity

/-! ### Closed vocabularies -/

def scalars : List String :=
  ["boolean", "integer", "decimal", "float32", "float64", "string", "bytes", "date", "datetime",
    "duration", "uuid", "any"]

def maxSafeInteger : ℤ := 9007199254740991

def coreKinds : List String :=
  ["scalar", "record", "enum", "union", "alias", "sequence", "map", "reference", "option"]

def stepKinds : List String := ["command", "event", "decision", "compensation", "wait"]

def unknownPolicies : List String := ["preserve", "reject", "surface"]

def categories : List String :=
  ["structural", "behavioral", "dataflow", "dependency", "realization", "governance",
    "traceability"]

def defaultKinds : List String := ["none", "semantic", "representation", "migration"]

def presences : List String := ["required", "optional"]

def textProfiles : List String :=
  ["unicode-scalars", "nfc", "nfd", "nfkc", "nfkd", "binary-utf8"]

def targets : List String :=
  ["json-schema", "rust", "typescript", "python-pydantic-v2", "python-dataclass"]

def representationFormats : List String :=
  ["markdown", "json", "postgresql", "protobuf", "avro", "arrow", "parquet", "csv", "tsv"]

def resultStates : List String :=
  ["success", "invalid", "unsupported", "unavailable", "partial", "lossy"]

def preservations : List String :=
  ["byte-lossless", "structure-lossless", "semantic-lossless", "declared-lossy", "one-way"]

def directions : List String := ["in", "out", "inout"]

def flowDirections : List String := ["source-to-target", "target-to-source", "bidirectional"]

def relationshipDirections : List String :=
  ["source-to-target", "target-to-source", "bidirectional", "undirected"]

/-! ### Generic checks -/

/-- `if wrong { f.push(pointer, message) }`. -/
def pushIf (wrong : Bool) (pointer message : String) : List Finding :=
  if wrong then [⟨pointer, message⟩] else []

/-- `if let Some(value) = value { .. }`. -/
def whenSome (value : Option Json) (walk : Json → List Finding) : List Finding :=
  match value with
  | none => []
  | some value => walk value

def requireMembers (value : Json) (pointer : String) (names : List String) : List Finding :=
  names.flatMap fun name =>
    pushIf (!value.has name) pointer ("a required member " ++ name ++ " is absent")

def notAdmitted (name : String) : String :=
  "the member " ++ name ++ " is not one this schema admits"

def forbidExtra (value : Json) (pointer : String) (allowed : List String) : List Finding :=
  (value.asObject.getD []).flatMap fun m =>
    pushIf (!allowed.contains m.1) pointer (notAdmitted m.1)

/-- `if !expect_object(..) { return }`, before what is said of an object. -/
def expectObject (value : Json) (pointer what : String) (walk : List Finding) : List Finding :=
  match value with
  | .object _ => walk
  | _ => [⟨pointer, what ++ " is an object"⟩]

def expectArray (value : Json) (pointer what : String) (walk : List Json → List Finding) :
    List Finding :=
  match value with
  | .array items => walk items
  | _ => [⟨pointer, what ++ " is an array"⟩]

def atItems (items : List Json) (pointer : String) (walk : Json → String → List Finding) :
    List Finding :=
  items.zipIdx.flatMap fun item => walk item.1 (index pointer item.2)

/-- `expect_array`, and then every item. -/
def each (value : Option Json) (pointer what : String) (walk : Json → String → List Finding) :
    List Finding :=
  whenSome value fun value => expectArray value pointer what fun items =>
    atItems items pointer walk

def expectEnum (value : Option Json) (pointer : String) (allowed : List String) (what : String) :
    List Finding :=
  whenSome value fun value =>
    match value.asStr with
    | some text => pushIf (!allowed.contains text) pointer
        (what ++ " is a closed enumeration and " ++ text ++ " is not a member")
    | none => [⟨pointer, what ++ " is a string from a closed set"⟩]

def expectString (value : Option Json) (pointer : String) (minLen : ℕ) (what : String) :
    List Finding :=
  whenSome value fun value =>
    pushIf (!value.asStr.any fun text => minLen ≤ text.utf8ByteSize) pointer
      (what ++ " is a non-empty string")

def expectBool (value : Option Json) (pointer what : String) : List Finding :=
  whenSome value fun value => pushIf value.asBool.isNone pointer (what ++ " is a boolean")

def expectShape (value : Option Json) (pointer : String) (ok : String → Bool) (what : String) :
    List Finding :=
  whenSome value fun value => pushIf (!value.asStr.any ok) pointer what

def expectInteger (value : Option Json) (pointer : String) (min : ℤ) (what : String) :
    List Finding :=
  whenSome value fun value =>
    pushIf (!value.asI64.any fun number => min ≤ number && number ≤ maxSafeInteger) pointer what

def identityText : String := "an identity is ix://<owner>/<name>"

def expectIdentity (value : Option Json) (pointer : String) : List Finding :=
  expectShape value pointer isSemanticIdentity identityText

/-- `expect_shape(value.get(name), &child(at, name), is_semantic_identity, ..)`. -/
def identityMember (value : Json) (at' name : String) : List Finding :=
  expectIdentity (value.get name) (child at' name)

def hasDuplicateFrom (seen : List String) : List Json → Bool
  | [] => false
  | item :: items =>
    match item.asStr with
    | some text => seen.contains text || hasDuplicateFrom (text :: seen) items
    | none => hasDuplicateFrom seen items

def hasDuplicateStrings (items : List Json) : Bool := hasDuplicateFrom [] items

def hasDuplicateItems (items : List Json) : Bool := !(items.map Json.canonical).Nodup

/-- An array of identities, with no uniqueness check. -/
def identityEntries (value : Option Json) (pointer what : String) : List Finding :=
  each value pointer what fun item itemAt => expectIdentity (some item) itemAt

def identityList (value : Option Json) (pointer what : String) : List Finding :=
  whenSome value fun value => expectArray value pointer what fun items =>
    (atItems items pointer fun item itemAt => expectIdentity (some item) itemAt) ++
      pushIf (hasDuplicateStrings items) pointer (what ++ " entries are unique")

def stringList (value : Option Json) (pointer what : String) : List Finding :=
  whenSome value fun value => expectArray value pointer what fun items =>
    pushIf (items.any fun item => item.asStr.isNone) pointer (what ++ " entries are strings")

/-! ### What no finding says -/

theorem pushIf_eq_nil {wrong : Bool} {pointer message : String} :
    pushIf wrong pointer message = [] ↔ wrong = false := by
  cases wrong <;> simp [pushIf]

theorem requireMembers_eq_nil {value : Json} {pointer : String} {names : List String} :
    requireMembers value pointer names = [] ↔ ∀ name ∈ names, value.has name = true := by
  simp only [requireMembers, List.flatMap_eq_nil_iff, pushIf_eq_nil, Bool.not_eq_false']

theorem whenSome_eq_nil {value : Option Json} {walk : Json → List Finding} :
    whenSome value walk = [] ↔ ∀ v ∈ value, walk v = [] := by
  cases value <;> simp [whenSome]

theorem expectObject_eq_nil {value : Json} {pointer what : String} {walk : List Finding} :
    expectObject value pointer what walk = [] ↔ value.asObject.isSome = true ∧ walk = [] := by
  cases value <;> simp [expectObject, Json.asObject]

theorem atItems_eq_nil {items : List Json} {pointer : String}
    {walk : Json → String → List Finding} (h : atItems items pointer walk = []) :
    ∀ item ∈ items, ∃ at', walk item at' = [] := by
  intro item hi
  obtain ⟨i, hlt, rfl⟩ := List.getElem_of_mem hi
  have hm : (items[i], i) ∈ items.zipIdx := by
    rw [List.mk_mem_zipIdx_iff_getElem?]
    exact List.getElem?_eq_getElem hlt
  exact ⟨_, List.flatMap_eq_nil_iff.1 h _ hm⟩

theorem each_eq_nil {value : Json} {name pointer what : String}
    {walk : Json → String → List Finding} (h : each (value.get name) pointer what walk = []) :
    ∀ item ∈ value.members name, ∃ at', walk item at' = [] := by
  intro item hi
  unfold Json.members Json.getArray at hi
  cases hv : value.get name with
  | none => simp [hv] at hi
  | some v =>
    cases v with
    | array items =>
      simp only [each, hv, whenSome, expectArray] at h
      exact atItems_eq_nil h item (by simpa [hv, Json.asArray] using hi)
    | _ => simp [hv, Json.asArray] at hi

theorem expectShape_eq_nil {value : Option Json} {pointer what : String} {ok : String → Bool} :
    expectShape value pointer ok what = [] ↔ ∀ v ∈ value, ∃ text ∈ v.asStr, ok text = true := by
  simp only [expectShape, whenSome_eq_nil, pushIf_eq_nil, Bool.not_eq_false', Option.any_eq_true]
  rfl

theorem getStr_of_identityMember {value : Json} {at' name : String}
    (hh : value.has name = true) (h : identityMember value at' name = []) :
    ∃ identity, value.getStr name = some identity ∧ isSemanticIdentity identity = true := by
  obtain ⟨v, hv⟩ := Option.isSome_iff_exists.1 hh
  obtain ⟨text, ht, hok⟩ := expectShape_eq_nil.1 h v hv
  refine ⟨text, ?_, hok⟩
  rw [Json.getStr, hv]
  exact ht

end FilamentCore.SemanticIr
