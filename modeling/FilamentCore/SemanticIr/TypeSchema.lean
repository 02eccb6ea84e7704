import FilamentCore.SemanticIr.NodeSchema

/-!
# Type definitions and the document (crates/semantic-ir/src/schema.rs)

The `constructs` table, the schema of a type definition, which consults it, and
`semantic_ir`, which walks the document and asks that every construct is used.
-/

namespace FilamentCore.SemanticIr

/-! ### The constructs table -/

structure ConstructEntry where
  module : String
  name : String
  /-- The declaration, when the entry's `construct` reads as one. -/
  declaration : Option Declaration
  used : Bool

structure ConstructTable where
  entries : List ConstructEntry

namespace ConstructTable

def find (table : ConstructTable) (kind : String × String) : Option ConstructEntry :=
  table.entries.find? fun entry => entry.module == kind.1 && entry.name == kind.2

/-- `table.entries[found].used = true`, when a kind is found. -/
def use (table : ConstructTable) (kind : Option (String × String)) : ConstructTable :=
  match kind with
  | none => table
  | some kind =>
    ⟨table.entries.map fun entry =>
      if entry.module = kind.1 ∧ entry.name = kind.2 then { entry with used := true } else entry⟩

end ConstructTable

def constructKindMembers : List String := ["module", "name"]

/-- What `construct_kind` pushes. -/
def constructKindFindings (kind : Json) (at' : String) : List Finding :=
  expectObject kind at' "a construct kind" <|
    requireMembers kind at' constructKindMembers ++
    forbidExtra kind at' constructKindMembers ++
    expectShape (kind.get "module") (child at' "module") isPackageIdentity
      "a construct kind's module is a package identity <owner>/<name>" ++
    expectShape (kind.get "name") (child at' "name") isConstructName
      "a construct kind's name is lower-case snake case"

/-- What `construct_kind` returns: the pair, when it has that shape. -/
def constructKind (kind : Json) : Option (String × String) := do
  let module ← kind.getStr "module"
  let name ← kind.getStr "name"
  if isPackageIdentity module && isConstructName name then some (module, name) else none

def shown (kind : String × String) : String := kind.1 ++ "/" ++ kind.2

def constructEntryMembers : List String := ["kind", "moduleVersion", "construct"]

def readConstruct (entry : Json) (at' : String) : List Finding × Option Declaration :=
  match entry.get "construct" with
  | none => ([], none)
  | some construct =>
    match Declaration.read construct with
    | .error refused => ([⟨at' ++ refused.pointer, refused.message⟩], none)
    | .ok declaration => ([], some declaration)

def referenceRoles (declaration : Option Declaration) (at' : String) : List Finding :=
  match declaration with
  | none => []
  | some declaration =>
    declaration.references.flatMap fun reference =>
      reference.2.zipIdx.flatMap fun role =>
        pushIf (!isNamespacedName role.1)
          (index (child (child at' "references") reference.1.name) role.2) "a role is <ns>:<name>"

/-- One entry of `constructs`, after the entries in the table. -/
def constructsEntry (table : ConstructTable) (entry : Json) (at' : String) :
    List Finding × ConstructTable :=
  match entry with
  | .object _ =>
    let constructAt := child at' "construct"
    let kindAt := child at' "kind"
    let (refused, declaration) := readConstruct entry constructAt
    let findings :=
      requireMembers entry at' constructEntryMembers ++
      forbidExtra entry at' constructEntryMembers ++
      expectShape (entry.get "moduleVersion") (child at' "moduleVersion") isSemver
        "a module version is a semantic version" ++
      refused ++
      referenceRoles declaration constructAt ++
      whenSome (entry.get "kind") fun kind => constructKindFindings kind kindAt
    match (entry.get "kind").bind constructKind with
    | none => (findings, table)
    | some kind =>
      if (table.find kind).isSome then
        (findings ++ [⟨kindAt, "constructs declares the kind " ++ shown kind ++ " once"⟩], table)
      else (findings, ⟨table.entries ++ [⟨kind.1, kind.2, declaration, false⟩]⟩)
  | _ => ([⟨at', "a constructs entry is an object"⟩], table)

def walkItems (walk : ConstructTable → Json → String → List Finding × ConstructTable)
    (pointer : String) (table : ConstructTable) : List (Json × ℕ) → List Finding × ConstructTable
  | [] => ([], table)
  | (item, position) :: items =>
    let (findings, table) := walk table item (index pointer position)
    let (rest, table) := walkItems walk pointer table items
    (findings ++ rest, table)

def constructsSchema (constructs : Json) (at' : String) : List Finding × ConstructTable :=
  match constructs with
  | .array items => walkItems constructsEntry at' ⟨[]⟩ items.zipIdx
  | _ => ([⟨at', "constructs is an array"⟩], ⟨[]⟩)

/-! ### Aliases of clocks and quantities -/

/-- The kinds whose entry's declaration selects the alias shape. -/
def aliasKinds (ir : Json) : List (String × String) :=
  (ir.members "constructs").filterMap fun entry =>
    if (entry.get "construct").bind (·.getStr "shape") = some "alias" then do
      let kind ← entry.get "kind"
      return (← kind.getStr "module", ← kind.getStr "name")
    else none

def isAliasOf (kinds : List (String × String)) (definition : Json) : Bool :=
  match definition.get "kind" with
  | none => false
  | some kind =>
    kind.asStr == some "alias" ||
      match kind.getStr "module", kind.getStr "name" with
      | some module, some name => kinds.contains (module, name)
      | _, _ => false

/-- Each alias and its target; of two aliases of one identity the later counts. -/
def aliasTargets (types : List Json) (ir : Json) : List (String × String) :=
  let kinds := aliasKinds ir
  types.filterMap fun definition =>
    if isAliasOf kinds definition then do
      return (← definition.getStr "identity", ← definition.getStr "target")
    else none

def targetOf (targets : List (String × String)) (identity : String) : Option String :=
  (targets.reverse.find? fun t => t.1 == identity).map Prod.snd

/-- Whether the chain from an alias reaches a special reference. A chain of more steps than
there are targets has come back on its path. -/
def reachesSpecial (targets : List (String × String)) : ℕ → String → Bool
  | 0, _ => false
  | steps + 1, at' =>
    match targetOf targets at' with
    | none => false
    | some next => isSpecialTypeRef next || reachesSpecial targets steps next

def specialAliasIdentities (types : List Json) (ir : Json) : List String :=
  let targets := aliasTargets types ir
  (targets.map Prod.fst).filter (reachesSpecial targets targets.length)

/-! ### Type definitions -/

def typeMembers : List String :=
  ["identity", "displayName", "kind", "roles", "origin", "constraints", "extensions",
    "unknownPolicy", "scalar", "decimal", "fields", "variants", "target", "items", "values",
    "relationships", "operations", "clauses", "supertypes", "abstract", "textProfile",
    "identityFields", "owner", "members", "occurrenceField", "states", "transitions", "steps",
    "persists", "vocabulary", "direction", "interfaceType", "multiplicity", "declaredType",
    "flowDirection", "sourceEnd", "targetEnd", "sourceElement", "targetElement",
    "featureOrder", "positions", "inner"]

def typeRequired : List String :=
  ["identity", "displayName", "kind", "roles", "origin", "constraints", "extensions",
    "unknownPolicy"]

def isEmptyList (definition : Json) (name : String) : Bool :=
  (definition.getArray name).any List.isEmpty

def construct (definition : Json) : Option (String × String) :=
  match definition.get "kind" with
  | some (.object members) => constructKind (.object members)
  | _ => none

def kindFindings (definition : Json) (kindAt : String) : List Finding :=
  match definition.get "kind" with
  | some (.object members) => constructKindFindings (.object members) kindAt
  | other => expectEnum other kindAt coreKinds "kind"

def rolesSchema (definition : Json) (at' : String) : List Finding :=
  whenSome (definition.get "roles") fun roles =>
    let rolesAt := child at' "roles"
    expectArray roles rolesAt "roles" fun items =>
      (atItems items rolesAt fun role roleAt =>
        expectShape (some role) roleAt isNamespacedName "a role is <ns>:<name>") ++
      pushIf (hasDuplicateStrings items) rolesAt "roles are unique"

/-- The member a core kind requires, and the article its name takes. -/
def kindRequires (kind : String) : Option (String × String) :=
  if kind = "scalar" then some ("a", "scalar")
  else if kind = "record" then some ("a", "fields")
  else if kind = "enum" ∨ kind = "union" then some ("an", "variants")
  else if kind = "alias" ∨ kind = "reference" then some ("an", "target")
  else if kind = "sequence" then some ("a", "items")
  else if kind = "map" then some ("a", "values")
  else if kind = "option" then some ("an", "inner")
  else none

def requiredMember (definition : Json) (at' kind : String) : List Finding :=
  match kindRequires kind with
  | none => []
  | some (article, member) => pushIf (!definition.has member) at'
      (article ++ " " ++ kind ++ " type definition requires " ++ member)

def optionForeignMembers : List String :=
  ["fields", "supertypes", "items", "values", "variants", "clauses", "operations",
    "relationships"]

def optionSchema (definition : Json) (at' kind : String) : List Finding :=
  if kind ≠ "option" then
    pushIf (definition.has "inner") (child at' "inner") "inner is carried by an option type only"
  else
    expectShape (definition.get "inner") (child at' "inner") isSemanticIdentity
      "an option inner is one type identity ix://<owner>/<name>" ++
    (optionForeignMembers.flatMap fun name =>
      pushIf (definition.has name) (child at' name)
        ("an option type carries no " ++ name ++ ", only inner")) ++
    pushIf ((definition.getArray "constraints").any fun constraints => !constraints.isEmpty)
      (child at' "constraints") "an option type carries no constraints"

/-- What a type's construct declaration places on it: the presence of each member, and the
cardinality each `nonEmpty` rule states. -/
def constructSchema (definition : Json) (at' kind : String) (declaration : Declaration) :
    List Finding :=
  (if declaration.shape = .alias then
    expectShape (definition.get "target") (child at' "target") isSemanticIdentity
      "an alias target is a document or native type identity"
  else []) ++
  ((Vocabulary.all : List Member).flatMap fun member =>
    match declaration.presence member with
    | .required => pushIf (!definition.has member.name) at'
        ("a " ++ kind ++ " construct requires " ++ member.name)
    | .forbidden => pushIf (definition.has member.name) (child at' member.name)
        ("a " ++ kind ++ " construct carries no " ++ member.name)
    | .optional => []) ++
  ((declaration.rules.filter Rule.nonEmpty).flatMap fun rule =>
    let name := rule.requires.1.name
    pushIf (isEmptyList definition name) (child at' name)
      ("a " ++ kind ++ " construct declares at least one of " ++ name)) ++
  [("identityFields", "identityFields names at least one field"),
    ("featureOrder", "featureOrder names at least one feature"),
    ("positions", "a tuple declares at least one position")].flatMap fun list =>
    pushIf (isEmptyList definition list.1) (child at' list.1) list.2

def coreKindMembers (definition : Json) (at' kind : String) : List Finding :=
  ((Vocabulary.all : List Member).filter fun member =>
      member.defaultPresence = .forbidden).flatMap fun member =>
    if member = .target ∧ (kind = "alias" ∨ kind = "reference") then []
    else pushIf (definition.has member.name) (child at' member.name)
      (member.name ++ " is carried by a construct kind only")

def constructFindings (table : ConstructTable) (definition : Json) (at' kind : String) :
    List Finding :=
  match construct definition with
  | none => coreKindMembers definition at' kind
  | some kind =>
    match table.find kind with
    | none => [⟨child at' "kind", "the kind " ++ shown kind ++ " names no constructs entry"⟩]
    | some entry =>
      match entry.declaration with
      | none => []
      | some declaration => constructSchema definition at' kind.2 declaration

def textProfileSchema (definition : Json) (at' : String) : List Finding :=
  expectEnum (definition.get "textProfile") (child at' "textProfile") textProfiles
    "textProfile" ++
  pushIf (definition.has "textProfile" &&
      (definition.getStr "kind" != some "scalar" || definition.getStr "scalar" != some "string"))
    (child at' "textProfile")
    "a text profile is carried by a scalar type definition of scalar string only"

def typeFindings (specialAliases : List String) (table : ConstructTable) (definition : Json)
    (at' : String) : List Finding :=
  let kind := (definition.getStr "kind").getD ""
  expectObject definition at' "a type definition" <|
    requireMembers definition at' typeRequired ++
    forbidExtra definition at' typeMembers ++
    decimalMember definition at' ++
    identityMember definition at' "identity" ++
    expectString (definition.get "displayName") (child at' "displayName") 1 "a display name" ++
    kindFindings definition (child at' "kind") ++
    expectEnum (definition.get "unknownPolicy") (child at' "unknownPolicy") unknownPolicies
      "the unknown policy vocabulary" ++
    rolesSchema definition at' ++
    originMember definition at' ++
    constraintsMember definition at' ++
    extensionArray definition at' ++
    requiredMember definition at' kind ++
    optionSchema definition at' kind ++
    constructFindings table definition at' kind ++
    expectBool (definition.get "abstract") (child at' "abstract") "abstract" ++
    (["supertypes", "members", "persists", "identityFields", "featureOrder"].flatMap fun name =>
      identityList (definition.get name) (child at' name) name) ++
    expectEnum (definition.get "direction") (child at' "direction") directions "direction" ++
    expectEnum (definition.get "flowDirection") (child at' "flowDirection") flowDirections
      "flowDirection" ++
    multiplicityMember definition at' ++
    (["sourceEnd", "targetEnd"].flatMap fun name =>
      whenSome (definition.get name) fun connection => connectionEnd connection (child at' name)) ++
    (["owner", "occurrenceField", "interfaceType", "declaredType", "sourceElement",
        "targetElement"].flatMap fun name => identityMember definition at' name) ++
    constructLists definition at' ++
    (["relationships", "operations"].flatMap fun name =>
      pushIf ((definition.getStr "kind").isSome && kind != "record" && definition.has name)
        (child at' name) (name ++ " are carried by a record type definition only")) ++
    expectEnum (definition.get "scalar") (child at' "scalar") scalars "scalar" ++
    textProfileSchema definition at' ++
    (["target", "items", "values"].flatMap fun name => identityMember definition at' name) ++
    [("fields", fieldSchema specialAliases), ("variants", variantSchema),
      ("relationships", relationshipSchema), ("operations", operationSchema specialAliases),
      ("clauses", clauseSchema)].flatMap fun list =>
      each (definition.get list.1) (child at' list.1) list.1 list.2

def typeDefinition (specialAliases : List String) (table : ConstructTable) (definition : Json)
    (at' : String) : List Finding × ConstructTable :=
  (typeFindings specialAliases table definition at', table.use (construct definition))

/-! ### Populations, dimensions and units -/

def populationMembers : List String :=
  ["identity", "displayName", "kind", "members", "extent", "origin"]

def populationKind (table : ConstructTable) (population : Json) (kindAt : String) :
    List Finding :=
  whenSome (population.get "kind") fun kind =>
    constructKindFindings kind kindAt ++
    match constructKind kind with
    | none => []
    | some kind => pushIf (table.find kind).isNone kindAt
        ("the kind " ++ shown kind ++ " names no constructs entry")

def populationFindings (table : ConstructTable) (population : Json) (at' : String) :
    List Finding :=
  expectObject population at' "a population" <|
    requireMembers population at' populationMembers ++
    forbidExtra population at' (populationMembers ++ ["symmetric"]) ++
    expectBool (population.get "symmetric") (child at' "symmetric") "symmetric" ++
    identityMember population at' "identity" ++
    expectString (population.get "displayName") (child at' "displayName") 1 "a display name" ++
    populationKind table population (child at' "kind") ++
    identityList (population.get "members") (child at' "members") "members" ++
    expectEnum (population.get "extent") (child at' "extent") ["closed", "open"] "extent" ++
    originMember population at'

def populationSchema (table : ConstructTable) (population : Json) (at' : String) :
    List Finding × ConstructTable :=
  (populationFindings table population at',
    table.use ((population.get "kind").bind constructKind))

def dimensionTerm (term : Json) (at' : String) : List Finding :=
  expectObject term at' "a dimension term" <|
    requireMembers term at' ["dimension", "exponent"] ++
    forbidExtra term at' ["dimension", "exponent"] ++
    expectShape (term.get "dimension") (child at' "dimension") isSemanticIdentity
      "a dimension identity" ++
    expectString (term.get "exponent") (child at' "exponent") 0 "an exponent string"

/-- What dimensions and units share: members, identities, the name and the origin. -/
def unitNode (node : Json) (at' : String) (required allowed : List String) : List Finding :=
  requireMembers node at' required ++
  forbidExtra node at' allowed ++
  (["identity", "dimension", "target"].flatMap fun member =>
    expectShape (node.get member) (child at' member) isSemanticIdentity "a semantic identity") ++
  expectShape (node.get "name") (child at' "name") (fun name => isUnitName name.toList)
    "a dimension or unit name" ++
  originMember node at'

def dimensionSchema (node : Json) (at' : String) : List Finding :=
  let required := ["identity", "name", "base", "terms", "origin"]
  expectObject node at' "dimensions" <|
    unitNode node at' required required ++
    expectBool (node.get "base") (child at' "base") "base" ++
    each (node.get "terms") (child at' "terms") "terms" dimensionTerm

def unitSchema (node : Json) (at' : String) : List Finding :=
  let required := ["identity", "name", "dimension", "scale", "offset", "origin"]
  expectObject node at' "units" <|
    unitNode node at' required (required ++ ["target"]) ++
    ["scale", "offset"].flatMap fun member =>
      expectString (node.get member) (child at' member) 0 "a rational string"

def dimensionUnitSchema (ir : Json) (at' : String) : List Finding :=
  each (ir.get "dimensions") (child at' "dimensions") "dimensions" dimensionSchema ++
  each (ir.get "units") (child at' "units") "units" unitSchema

/-! ### The document -/

def sourceMembers : List String := ["identity", "version", "dialect"]

def revisionText : String :=
  "a revision is SemVer or a canonical non-negative integer string"

def irSource (source : Json) (at' : String) : List Finding :=
  expectObject source at' "the source envelope" <|
    requireMembers source at' sourceMembers ++
    forbidExtra source at' sourceMembers ++
    identityMember source at' "identity" ++
    expectShape (source.get "version") (child at' "version") isPackageRevision revisionText ++
    expectShape (source.get "dialect") (child at' "dialect")
      (fun text => ["typespec", "spec-bundle"].contains text)
      "a document declares a frontend dialect"

def packageIdentityText : String := "a package identity is <owner>/<name>"

def packageMembers : List String := ["identity", "version", "mappingVersions", "profileVersions"]

def irPackage (package : Json) (at' : String) : List Finding :=
  expectObject package at' "the package envelope" <|
    requireMembers package at' packageMembers ++
    forbidExtra package at' packageMembers ++
    expectShape (package.get "identity") (child at' "identity") isPackageIdentity
      packageIdentityText ++
    expectShape (package.get "version") (child at' "version") isPackageRevision revisionText ++
    ["mappingVersions", "profileVersions"].flatMap fun name =>
      each (package.get name) (child at' name) name fun version versionAt =>
        expectShape (some version) versionAt isSemver "a version is SemVer"

def irMembers : List String :=
  ["contractVersion", "canonicalization", "source", "package", "types", "occurrences",
    "extensions"]

def irOptionalMembers : List String :=
  irMembers ++ ["constructs", "populations", "dimensions", "units"]

def canonicalizationSchema (canonicalization : Json) (at' : String) : List Finding :=
  expectObject canonicalization at' "a normalized canonicalization descriptor" <|
    requireMembers canonicalization at' ["algorithm"] ++
    forbidExtra canonicalization at' ["algorithm"] ++
    expectEnum (canonicalization.get "algorithm") (child at' "algorithm") ["rfc8785-v1"]
      "the normalized canonicalization algorithm"

/-- `types`: the findings and the table the definitions leave. -/
def typesSchema (ir : Json) (at' : String) (table : ConstructTable) :
    List Finding × ConstructTable :=
  match ir.get "types" with
  | none => ([], table)
  | some (.array items) =>
    let specialAliases := specialAliasIdentities items ir
    let (findings, table) := walkItems (typeDefinition specialAliases) at' table items.zipIdx
    (pushIf items.isEmpty at' "a document declares at least one type" ++ findings, table)
  | some _ => ([⟨at', "types is an array"⟩], table)

def populationsSchema (ir : Json) (at' : String) (table : ConstructTable) :
    List Finding × ConstructTable :=
  match ir.get "populations" with
  | none => ([], table)
  | some (.array items) => walkItems populationSchema at' table items.zipIdx
  | some _ => ([⟨at', "populations is an array"⟩], table)

/-- An entry no type definition or population is of; one that declares the population meaning
needs no instance. -/
def unusedConstruct (table : ConstructTable) (entry : Json) (at' : String) : List Finding :=
  let kind := do
    let kind ← entry.get "kind"
    return (← kind.getStr "module", ← kind.getStr "name")
  match kind with
  | none => []
  | some kind =>
    pushIf ((table.find kind).any (fun found => !found.used) &&
        (entry.get "construct").bind (·.getStr "meaning") !=
          some "quire.meaning.model.population/v1")
      (child at' "kind")
      ("constructs declares " ++ shown kind ++
        ", and no type definition or population is of that kind")

def semanticIr (ir : Json) (at' : String) : List Finding :=
  expectObject ir at' "a semantic IR document" <|
    let constructsAt := child at' "constructs"
    let (constructs, declared) :=
      match ir.get "constructs" with
      | some constructs => constructsSchema constructs constructsAt
      | none => ([], ⟨[]⟩)
    let (types, typed) := typesSchema ir (child at' "types") declared
    let (populations, table) := populationsSchema ir (child at' "populations") typed
    requireMembers ir at' irMembers ++
    forbidExtra ir at' irOptionalMembers ++
    expectEnum (ir.get "contractVersion") (child at' "contractVersion") ["2.0.0"]
      "contractVersion" ++
    (whenSome (ir.get "canonicalization") fun canonicalization =>
      canonicalizationSchema canonicalization (child at' "canonicalization")) ++
    (whenSome (ir.get "source") fun source => irSource source (child at' "source")) ++
    (whenSome (ir.get "package") fun package => irPackage package (child at' "package")) ++
    pushIf (!ir.has "constructs") at' "a required member constructs is absent" ++
    constructs ++
    types ++
    dimensionUnitSchema ir at' ++
    populations ++
    atItems (ir.members "constructs") constructsAt (unusedConstruct table) ++
    each (ir.get "occurrences") (child at' "occurrences") "occurrences" occurrenceSchema ++
    extensionArray ir at'

end FilamentCore.SemanticIr
