import FilamentCore.Backends.TypescriptCanonical
import FilamentCore.Compiler.ContractDiff

/-!
# The compatibility classifier of the TypeScript backend
(src/compiler/backends/typescript-v1/classify.mjs)

The changes that `classifySurface` records for two documents. An absent member is JavaScript's
`undefined`, and the canonical forms compared are those of values within `MAX_CANONICAL_DEPTH`.
-/

namespace FilamentCore.Backends.TypescriptV1
open FilamentCore.SemanticIr
open FilamentCore.SemanticIr.Json
open FilamentCore.Compiler.Diff (Disposition mostRestrictive strictEq text items)

/-! ### Records -/

def classificationName : Disposition → String
  | .patch => "patch"
  | .additive => "additive"
  | .conditional => "conditional"
  | .unknown => "unknown"
  | .breaking => "breaking"
  | .invalid => "invalid"

structure Change where
  classification : Disposition
  pointer : String
  message : String
  kind : String
  deriving DecidableEq

def changeIf (condition : Bool) (change : Change) : List Change :=
  if condition then [change] else []

/-! ### Members and nodes -/

/-- `consumerPolicy` admits members it does not know about. -/
def admitsUnknown (consumerPolicy : Json) : Bool :=
  consumerPolicy.get "unknownExtensions" == some (.str "preserve") ||
    consumerPolicy.get "unknownExtensions" == some (.str "surface")

def isObject (value : Option Json) : Bool :=
  match value with
  | some (.object _) => true
  | _ => false

def objectOf (value : Option Json) : Json := if isObject value then value.getD .null else .null

/-- An absent member and a null one differ. -/
def sameBytes (left right : Option Json) : Bool := left.map canonical == right.map canonical

/-- `delete copy[member]` for each of the members. -/
def without (names : List String) : Json → Json
  | .object members => .object (members.filter fun m => !names.contains m.1)
  | value => value

structure Entry where
  node : Json
  position : ℕ

def identified (nodes : Option Json) : List (String × Entry) :=
  (items nodes).zipIdx.filterMap fun (node, position) =>
    (identityOfMember node).map fun identity => (identity, ⟨node, position⟩)

/-- `if (!index.has(identity)) index.set(identity, entry)`. -/
def insertNew (index : List (String × Entry)) (e : String × Entry) : List (String × Entry) :=
  if index.any fun f => f.1 == e.1 then index else index ++ [e]

def byIdentity (nodes : Option Json) : List (String × Entry) :=
  (identified nodes).foldl insertNew []

/-- `index.get(identity)`. -/
def entryOf (index : List (String × Entry)) (identity : String) : Option Entry :=
  (index.find? fun e => e.1 == identity).map Prod.snd

def hasEntry (index : List (String × Entry)) (identity : String) : Bool :=
  (entryOf index identity).isSome

def place (pointer : String) (list : String) (position : ℕ) : String :=
  pointer ++ "/" ++ list ++ "/" ++ toString position

def classifyNodes (before after : Option Json) (removed added : String → Entry → List Change)
    (kept : String → Entry → Entry → List Change) : List Change :=
  let beforeIndex := byIdentity before
  let afterIndex := byIdentity after
  (beforeIndex.flatMap fun (identity, entry) =>
    if hasEntry afterIndex identity then [] else removed identity entry) ++
  (afterIndex.flatMap fun (identity, entry) =>
    if hasEntry beforeIndex identity then [] else added identity entry) ++
  beforeIndex.flatMap fun (identity, entry) =>
    match entryOf afterIndex identity with
    | none => []
    | some afterEntry => kept identity entry afterEntry

/-! ### References -/

/-- The walk of `resolveRepresentation`; each turn but the last meets a type not seen before. -/
def representationFrom (types : List (String × Entry)) : ℕ → List String → Option Json → Json
  | fuel + 1, seen, some (.str current) =>
    if current ∈ seen then .object [("kind", .str "cyclic"), ("scalar", .null)]
    else
      match entryOf types current with
      | none => .object [("kind", .str "unresolved"), ("scalar", .null)]
      | some entry =>
        if entry.node.get "kind" == some (.str "alias") then
          representationFrom types fuel (current :: seen) (entry.node.get "target")
        else
          .object [("kind", (entry.node.get "kind").getD .null),
            ("scalar", (entry.node.get "scalar").getD .null),
            ("target", (entry.node.get "target").getD .null),
            ("items", (entry.node.get "items").getD .null),
            ("values", (entry.node.get "values").getD .null)]
  | _, _, _ => .object [("kind", .str "cyclic"), ("scalar", .null)]

def resolveRepresentation (types : List (String × Entry)) (identity : Option Json) : Json :=
  representationFrom types (types.length + 1) [] identity

/-- What is recorded of a field whose reference changed. -/
def typeRefChange (beforeTypes afterTypes : List (String × Entry)) (before after : Json)
    (pointer noun : String) : Change :=
  if sameBytes (some (resolveRepresentation beforeTypes (before.get "typeRef")))
      (some (resolveRepresentation afterTypes (after.get "typeRef"))) then
    ⟨.patch, pointer ++ "/typeRef", "the " ++ noun ++ " was re-pointed at " ++
      text (after.get "typeRef") ++ ", which resolves to the same representation",
      "field-type-ref-rerepresented"⟩
  else
    ⟨.breaking, pointer ++ "/typeRef", "the " ++ noun ++ " was re-pointed from " ++
      text (before.get "typeRef") ++ " to " ++ text (after.get "typeRef") ++
      ", which resolves differently", "field-type-ref-retargeted"⟩

/-! ### The document envelope -/

def classifyEnvelope (before after : Json) : List Change :=
  let beforeSource := objectOf (before.get "source")
  let afterSource := objectOf (after.get "source")
  let beforePackage := objectOf (before.get "package")
  let afterPackage := objectOf (after.get "package")
  changeIf (!strictEq (beforeSource.get "identity") (afterSource.get "identity"))
    ⟨.breaking, "/source/identity", "the source identity changed", "source-identity-changed"⟩ ++
  changeIf (!strictEq (beforeSource.get "version") (afterSource.get "version"))
    ⟨.patch, "/source", "the source version changed", "source-provenance-changed"⟩ ++
  changeIf (!strictEq (beforePackage.get "identity") (afterPackage.get "identity"))
    ⟨.breaking, "/package/identity", "the package identity changed",
      "package-identity-changed"⟩ ++
  changeIf (!strictEq (beforePackage.get "version") (afterPackage.get "version") ||
      !sameBytes (beforePackage.get "mappingVersions") (afterPackage.get "mappingVersions") ||
      !sameBytes (beforePackage.get "profileVersions") (afterPackage.get "profileVersions"))
    ⟨.patch, "/package", "the package version or mapping and profile versions changed",
      "package-provenance-changed"⟩

/-! ### The nodes -/

def classifyExtensions (before after : Option Json) (pointer owner : String) : List Change :=
  classifyNodes before after
    (fun identity entry => [⟨.breaking, place pointer "extensions" entry.position,
      "the " ++ owner ++ " extension " ++ identity ++ " was removed", "extension-removed"⟩])
    (fun identity entry =>
      let required := entry.node.get "required" == some (.bool true)
      [⟨if required then .breaking else .additive, place pointer "extensions" entry.position,
        "a" ++ (if required then " required" else "n optional") ++ " " ++ owner ++
          " extension " ++ identity ++ " was added",
        if required then "extension-added-required" else "extension-added-optional"⟩])
    (fun identity before after =>
      if sameBytes (some before.node) (some after.node) then []
      else
        let becameRequired := before.node.get "required" != some (.bool true) &&
          after.node.get "required" == some (.bool true)
        [⟨if becameRequired then .breaking else .conditional,
          place pointer "extensions" after.position,
          "the " ++ owner ++ " extension " ++ identity ++ " changed", "extension-changed"⟩])

def classifyConstraints (before after : Option Json) (pointer : String) : List Change :=
  classifyNodes before after
    (fun identity entry => [⟨.conditional, place pointer "constraints" entry.position,
      "the constraint " ++ identity ++ " was removed", "constraint-removed"⟩])
    (fun identity entry => [⟨.conditional, place pointer "constraints" entry.position,
      "the constraint " ++ identity ++ " was added", "constraint-added"⟩])
    (fun identity before after =>
      changeIf (!sameBytes (some before.node) (some after.node))
        ⟨.conditional, place pointer "constraints" after.position,
          "the constraint " ++ identity ++ " changed", "constraint-operands-changed"⟩)

def classifyMultiplicity (before after : Json) (pointer noun : String) : List Change :=
  let leftBounds := objectOf (before.get "multiplicity")
  let rightBounds := objectOf (after.get "multiplicity")
  changeIf (!strictEq (leftBounds.get "upper") (rightBounds.get "upper"))
    ⟨.breaking, pointer ++ "/multiplicity/upper", "the " ++ noun ++ " cardinality changed",
      "field-cardinality-changed"⟩ ++
  changeIf (!strictEq (leftBounds.get "ordered") (rightBounds.get "ordered") ||
      !strictEq (leftBounds.get "unique") (rightBounds.get "unique"))
    ⟨.conditional, pointer ++ "/multiplicity", "the " ++ noun ++ " collection flags changed",
      "field-collection-flags-changed"⟩

def classifyField (beforeTypes afterTypes : List (String × Entry)) (before after : Json)
    (pointer noun : String) : List Change :=
  let required := after.get "presence" == some (.str "required")
  changeIf (!strictEq (before.get "presence") (after.get "presence"))
    ⟨if required then .breaking else .additive, pointer ++ "/presence",
      "the " ++ noun ++ " became " ++ (if required then "required" else "optional"),
      if required then "field-became-required" else "field-became-optional"⟩ ++
  changeIf (!strictEq (before.get "nullable") (after.get "nullable"))
    ⟨.breaking, pointer ++ "/nullable", "the " ++ noun ++ " nullability changed",
      "field-nullability-changed"⟩ ++
  changeIf (!strictEq (before.get "defaultKind") (after.get "defaultKind") ||
      !sameBytes (before.get "defaultValue") (after.get "defaultValue"))
    ⟨.conditional, pointer ++ "/defaultKind", "the " ++ noun ++ " default changed",
      "field-default-changed"⟩ ++
  changeIf (!strictEq (before.get "unit") (after.get "unit"))
    ⟨.breaking, pointer ++ "/unit", "the " ++ noun ++ " unit changed from " ++
      text (before.get "unit") ++ " to " ++ text (after.get "unit"), "field-unit-changed"⟩ ++
  changeIf (!strictEq (before.get "name") (after.get "name"))
    ⟨.breaking, pointer ++ "/name", "the " ++ noun ++ " name changed from " ++
      text (before.get "name") ++ " to " ++ text (after.get "name"), "field-name-changed"⟩ ++
  changeIf (!strictEq (before.get "typeRef") (after.get "typeRef"))
    (typeRefChange beforeTypes afterTypes before after pointer noun) ++
  classifyMultiplicity before after pointer noun ++
  changeIf (!sameBytes (before.get "origin") (after.get "origin"))
    ⟨.patch, pointer ++ "/origin", "the " ++ noun ++ " origin changed", "field-origin-changed"⟩ ++
  classifyExtensions (before.get "extensions") (after.get "extensions") pointer noun

def classifyFieldList (additionOfOptional : Disposition)
    (beforeTypes afterTypes : List (String × Entry)) (before after : Option Json)
    (pointer noun : String) : List Change :=
  classifyNodes before after
    (fun identity entry => [⟨.breaking, pointer ++ "/" ++ toString entry.position,
      "the " ++ noun ++ " " ++ identity ++ " was removed", "field-removed"⟩])
    (fun identity entry =>
      if entry.node.get "presence" != some (.str "optional") then
        [⟨.breaking, pointer ++ "/" ++ toString entry.position,
          "a required " ++ noun ++ " " ++ identity ++ " was added", "field-added-required"⟩]
      else
        [⟨additionOfOptional, pointer ++ "/" ++ toString entry.position,
          "an optional " ++ noun ++ " " ++ identity ++ " was added", "field-added-optional"⟩])
    (fun _ before after => classifyField beforeTypes afterTypes before.node after.node
      (pointer ++ "/" ++ toString after.position) noun)

def classifyVariants (additionOfVariant : Disposition) (before after : Json) (pointer : String) :
    List Change :=
  classifyNodes (before.get "variants") (after.get "variants")
    (fun identity entry => [⟨.breaking, place pointer "variants" entry.position,
      "the variant " ++ identity ++ " was removed", "variant-removed"⟩])
    (fun identity entry => [⟨additionOfVariant, place pointer "variants" entry.position,
      "the variant " ++ identity ++ " was added", "variant-added"⟩])
    (fun identity before after =>
      changeIf (!strictEq (before.node.get "payloadType") (after.node.get "payloadType"))
        ⟨.breaking, place pointer "variants" after.position ++ "/payloadType",
          "the payload of variant " ++ identity ++ " changed", "variant-payload-changed"⟩ ++
      changeIf (!strictEq (before.node.get "name") (after.node.get "name"))
        ⟨.breaking, place pointer "variants" after.position ++ "/name",
          "the name of variant " ++ identity ++ " changed", "variant-name-changed"⟩)

def classifyRelationships (before after : Json) (pointer : String) : List Change :=
  classifyNodes (before.get "relationships") (after.get "relationships")
    (fun identity entry => [⟨.breaking, place pointer "relationships" entry.position,
      "the relationship " ++ identity ++ " was removed", "relationship-removed"⟩])
    (fun identity entry => [⟨.conditional, place pointer "relationships" entry.position,
      "the relationship " ++ identity ++ " was added", "relationship-added"⟩])
    (fun identity before after =>
      changeIf (!sameBytes (some before.node) (some after.node))
        ⟨.breaking, place pointer "relationships" after.position,
          "the relationship " ++ identity ++ " changed", "relationship-changed"⟩)

def classifyOperation (additionOfOptional : Disposition)
    (beforeTypes afterTypes : List (String × Entry)) (identity : String) (before after : Json)
    (pointer : String) : List Change :=
  classifyFieldList additionOfOptional beforeTypes afterTypes (before.get "params")
    (after.get "params") (pointer ++ "/params") "parameter" ++
  changeIf (!sameBytes (before.get "returns") (after.get "returns"))
    ⟨.breaking, pointer ++ "/returns", "the return of operation " ++ identity ++ " changed",
      "operation-changed"⟩ ++
  changeIf (!strictEq (before.get "name") (after.get "name") ||
      !sameBytes (before.get "pre") (after.get "pre") ||
      !sameBytes (before.get "post") (after.get "post"))
    ⟨.breaking, pointer, "the operation " ++ identity ++ " changed", "operation-changed"⟩ ++
  changeIf (!sameBytes (before.get "origin") (after.get "origin"))
    ⟨.patch, pointer ++ "/origin", "the operation " ++ identity ++ " origin changed",
      "field-origin-changed"⟩

def classifyOperations (additionOfOptional : Disposition)
    (beforeTypes afterTypes : List (String × Entry)) (before after : Json) (pointer : String) :
    List Change :=
  classifyNodes (before.get "operations") (after.get "operations")
    (fun identity entry => [⟨.breaking, place pointer "operations" entry.position,
      "the operation " ++ identity ++ " was removed", "operation-removed"⟩])
    (fun identity entry => [⟨.additive, place pointer "operations" entry.position,
      "the operation " ++ identity ++ " was added", "operation-added"⟩])
    (fun identity before after => classifyOperation additionOfOptional beforeTypes afterTypes
      identity before.node after.node (place pointer "operations" after.position))

def classifyType (additionOfOptional additionOfVariant : Disposition)
    (beforeTypes afterTypes : List (String × Entry)) (before after : Json) (pointer : String) :
    List Change :=
  let rejects := after.get "unknownPolicy" == some (.str "reject")
  changeIf (!strictEq (before.get "kind") (after.get "kind"))
    ⟨.breaking, pointer ++ "/kind", "the structural kind changed from " ++
      text (before.get "kind") ++ " to " ++ text (after.get "kind"), "type-kind-changed"⟩ ++
  (["scalar", "target", "items", "values"].flatMap fun member =>
    changeIf (!strictEq (before.get member) (after.get member))
      ⟨.breaking, pointer ++ "/" ++ member, "the " ++ member ++ " changed from " ++
        text (before.get member) ++ " to " ++ text (after.get member),
        "type-representation-changed"⟩) ++
  changeIf (!strictEq (before.get "displayName") (after.get "displayName"))
    ⟨.breaking, pointer ++ "/displayName", "the display name changed from " ++
      text (before.get "displayName") ++ " to " ++ text (after.get "displayName"),
      "type-display-name-changed"⟩ ++
  changeIf (!strictEq (before.get "unknownPolicy") (after.get "unknownPolicy"))
    ⟨if rejects then .breaking else .conditional, pointer ++ "/unknownPolicy",
      if rejects then "the unknown policy tightened to reject"
      else "the unknown policy changed from " ++ text (before.get "unknownPolicy") ++ " to " ++
        text (after.get "unknownPolicy"),
      if rejects then "type-unknown-policy-tightened" else "type-unknown-policy-changed"⟩ ++
  changeIf (!sameBytes (before.get "origin") (after.get "origin"))
    ⟨.patch, pointer ++ "/origin", "the origin changed", "type-origin-changed"⟩ ++
  classifyExtensions (before.get "extensions") (after.get "extensions") pointer "type" ++
  classifyConstraints (before.get "constraints") (after.get "constraints") pointer ++
  classifyFieldList additionOfOptional beforeTypes afterTypes (before.get "fields")
    (after.get "fields") (pointer ++ "/fields") "field" ++
  classifyVariants additionOfVariant before after pointer ++
  classifyRelationships before after pointer ++
  classifyOperations additionOfOptional beforeTypes afterTypes before after pointer

def classifyTypes (additionOfOptional additionOfVariant : Disposition) (before after : Json) :
    List Change :=
  classifyNodes (before.get "types") (after.get "types")
    (fun identity entry => [⟨.breaking, place "" "types" entry.position,
      "the type " ++ identity ++ " was removed", "type-removed"⟩])
    (fun identity entry => [⟨.additive, place "" "types" entry.position,
      "the type " ++ identity ++ " was added", "type-added"⟩])
    (fun _ beforeEntry afterEntry => classifyType additionOfOptional additionOfVariant
      (byIdentity (before.get "types")) (byIdentity (after.get "types")) beforeEntry.node
      afterEntry.node (place "" "types" afterEntry.position))

/-! ### What no rule models -/

def strippedOfType : List String :=
  ["identity", "displayName", "kind", "scalar", "target", "items", "values", "unknownPolicy",
    "origin", "extensions", "constraints", "variants", "relationships", "operations", "fields"]

def strippedOfField : List String :=
  ["identity", "name", "typeRef", "presence", "nullable", "defaultKind", "defaultValue", "unit",
    "origin", "multiplicity", "extensions"]

/-- An object of the document without the members, where it is one. -/
def withoutIn (name : String) (names : List String) : Json → Json
  | .object members =>
    match lookup name members with
    | some (.object value) => .object (setMember name (without names (.object value)) members)
    | _ => .object members
  | document => document

/-- `residueOf(document).envelope`. -/
def residualEnvelope (document : Json) : Json :=
  without ["contractVersion", "extensions", "types"]
    (withoutIn "package" ["identity", "version", "mappingVersions", "profileVersions"]
      (withoutIn "source" ["identity", "version", "dialect"] document))

def residualNodes (nodes : Option Json) : List (String × Json) :=
  resolvedMembers ((identified nodes).map fun e => (e.1, e.2.node))

/-- `map.get(identity)`. -/
def residual (map : List (String × Json)) (identity : String) : Option Json :=
  (map.find? fun e => e.1 == identity).map Prod.snd

def classifyResidue (before after : Json) : List Change :=
  let afterTypes := residualNodes (after.get "types")
  changeIf (!sameBytes (some (residualEnvelope before)) (some (residualEnvelope after)))
    ⟨.unknown, "", "the document envelope differs in a member no classification rule models",
      "unmodelled"⟩ ++
  (residualNodes (before.get "types")).flatMap fun (identity, leftType) =>
    match residual afterTypes identity with
    | none => []
    | some rightType =>
      let rightFields := residualNodes (rightType.get "fields")
      changeIf (!sameBytes (some (without strippedOfType leftType))
          (some (without strippedOfType rightType)))
        ⟨.unknown, "/types", "the type " ++ identity ++
          " differs in a member no classification rule models", "unmodelled"⟩ ++
      (residualNodes (leftType.get "fields")).flatMap fun (fieldIdentity, leftField) =>
        match residual rightFields fieldIdentity with
        | none => []
        | some rightField =>
          changeIf (!sameBytes (some (without strippedOfField leftField))
              (some (without strippedOfField rightField)))
            ⟨.unknown, "/types", "the field " ++ fieldIdentity ++
              " differs in a member no classification rule models", "unmodelled"⟩

/-! ### The answer -/

structure Options where
  consumerPolicy : Json
  beforeInvalid : Bool
  afterInvalid : Bool

structure Answer where
  classification : Disposition
  changes : List Change

/-- The pointers, then the names of the classifications, then the messages, by code units. -/
def changeLe (left right : Change) : Bool :=
  if left.pointer = right.pointer then
    if left.classification = right.classification then utf16Le left.message right.message
    else utf16Le (classificationName left.classification) (classificationName right.classification)
  else utf16Le left.pointer right.pointer

/-- The changes of two normalized documents, in the order they are recorded in. -/
def recorded (consumerPolicy left right : Json) : List Change :=
  let addition := if admitsUnknown consumerPolicy then .additive else .conditional
  classifyEnvelope left right ++ classifyTypes addition addition left right ++
    classifyExtensions (left.get "extensions") (right.get "extensions") "" "document" ++
    classifyResidue left right

/-- `VARIANT_ADDITION_POLICY` is `corpus`: a variant is added as an optional field is. -/
def classifySurface (before after : Json) (options : Options) : Answer :=
  if options.beforeInvalid || options.afterInvalid then
    ⟨.invalid, [⟨.invalid, "",
      if options.beforeInvalid && options.afterInvalid then
        "both documents of the pair are inadmissible"
      else if options.beforeInvalid then "the earlier document of the pair is inadmissible"
      else "the later document of the pair is inadmissible", "pair-inadmissible"⟩]⟩
  else
    let changes := (recorded options.consumerPolicy (normalizeIr before)
      (normalizeIr after)).insertionSort fun left right => changeLe left right = true
    ⟨mostRestrictive (changes.map Change.classification), changes⟩

end FilamentCore.Backends.TypescriptV1
