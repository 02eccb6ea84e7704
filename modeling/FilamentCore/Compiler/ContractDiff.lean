import FilamentCore.Compiler.CanonicalIr
import FilamentCore.Compiler.NumericChange

/-!
# The compatibility classifier (src/compiler/compat/diff.mjs)

The changes that `diffSemanticContract` records for two documents. An absent member is
JavaScript's `undefined`; a value at a place the schema closes (a list that is no array, a node that
is no object) is read as absent, and the canonical forms that `same` compares are those of values
that nest at most `maxDepth` levels.
-/

namespace FilamentCore.Compiler.Diff
open FilamentCore.SemanticIr
open FilamentCore.SemanticIr.Json
open FilamentCore.Compiler.Canonical (jsString)

/-! ### Values -/

/-- `String(value)`. -/
def text (value : Option Json) : String := (value.map jsString).getD "undefined"

/-- `value ?? fallback`. -/
def nullish (value : Option Json) (fallback : Json) : Json :=
  match value with
  | none => fallback
  | some .null => fallback
  | some value => value

/-- `${value ?? "none"}`. -/
def orNone (value : Option Json) : String := jsString (nullish value (.str "none"))

/-- `canonicalize(value ?? null)` in a template. -/
def written (value : Option Json) : String := String.ofList (canonical (value.getD .null))

/-- `===` of members of two documents: no two arrays or objects are the same. -/
def strictEq : Option Json → Option Json → Bool
  | none, none => true
  | some .null, some .null => true
  | some (.bool a), some (.bool b) => a == b
  | some (.number a), some (.number b) => a.value == b.value
  | some (.str a), some (.str b) => a == b
  | _, _ => false

def same (left right : Option Json) : Bool :=
  canonical (left.getD .null) == canonical (right.getD .null)

def items (value : Option Json) : List Json :=
  match value with
  | some (.array items) => items
  | _ => []

/-- `byIdentity`: the last node of each identity, at the place of the first. -/
def byIdentity (list : Option Json) : List (String × Json) :=
  resolvedMembers ((items list).map fun entry => (text (entry.get "identity"), entry))

/-- `map.get(key)`. -/
def entry (map : List (String × Json)) (key : String) : Option Json :=
  (map.find? fun e => e.1 == key).map Prod.snd

def has (map : List (String × Json)) (key : String) : Bool := (entry map key).isSome

/-! ### Records -/

/-- `[identity, observed, disposition, rationale]` of a call of `record`. -/
structure Record where
  identity : String
  observed : String
  disposition : Disposition
  rationale : String
  deriving DecidableEq

def recordIf (condition : Bool) (record : Record) : List Record :=
  if condition then [record] else []

def recordSome (disposition : Option Disposition) (record : Disposition → Record) : List Record :=
  (disposition.map record).toList

inductive Evidence where
  | current | stale | unknown
  deriving DecidableEq, Repr

/-- `unknownExtensions` or `unknownModules` is `reject`. -/
def rejects (policy : Json) : Bool :=
  policy.get "unknownExtensions" == some (.str "reject") ||
    policy.get "unknownModules" == some (.str "reject")

def additionDisposition (consumerPolicies : List Json) (evidence : Evidence) : Disposition :=
  if evidence = .unknown then .unknown
  else if consumerPolicies.any rejects then .breaking
  else if evidence = .stale then .conditional
  else .additive

/-! ### Numeric subjects -/

def nativeNumeric : List (String × String) :=
  [("Integer", "integer"), ("Decimal", "decimal"), ("Float32", "float32"), ("Float64", "float64")]

/-- `NATIVE_NUMERIC.get` of what follows `ix://quire/native/`. -/
def nativeScalar (identity : String) : Option String :=
  (nativeNumeric.find? fun row => "ix://quire/native/" ++ row.1 == identity).map Prod.snd

def natural (value : Option Json) : Option ℕ :=
  match value with
  | some (.number n) =>
    if n.value.den = 1 ∧ 0 ≤ n.value.num then some n.value.num.toNat else none
  | _ => none

def policyOf (node : Json) : Option DecimalPolicy :=
  match natural ((node.get "decimal").bind (·.get "precision")),
    natural ((node.get "decimal").bind (·.get "scale")) with
  | some precision, some scale =>
    if h : 1 ≤ precision ∧ scale ≤ precision then some ⟨precision, scale, h.1, h.2⟩ else none
  | _, _ => none

def isAlias (node : Json) : Bool :=
  node.get "kind" == some (.str "alias") || node.get "kind" == some (.str "reference")

/-- The walk of `numericSubject`; each turn but the last meets a type not seen before. -/
def subjectFrom (types : List (String × Json)) :
    ℕ → List String → List Json → Option DecimalPolicy → Option Json → Subject
  | fuel + 1, seen, constraints, decimal, some (.str current) =>
    if current ∈ seen then ⟨none, constraints, decimal⟩
    else
      match entry types current with
      | none => ⟨nativeScalar current, constraints, decimal⟩
      | some type =>
        let constraints := constraints ++ items (type.get "constraints")
        let decimal := decimal.or (policyOf type)
        if type.get "kind" == some (.str "scalar") then
          ⟨type.getStr "scalar", constraints, decimal⟩
        else if isAlias type then
          subjectFrom types fuel (current :: seen) constraints decimal (type.get "target")
        else ⟨none, constraints, decimal⟩
  | _, _, constraints, decimal, _ => ⟨none, constraints, decimal⟩

def numericSubject (types : List (String × Json)) (identity : Option Json) : Subject :=
  subjectFrom types (types.length + 1) [] [] none identity

def inlineOf (field : Json) : Inline := ⟨items (field.get "constraints"), policyOf field⟩

def upperOf (multiplicity : Json) : Option ℚ :=
  match multiplicity.get "upper" with
  | some (.number n) => some n.value
  | _ => none

def lowerOf (multiplicity : Json) : ℚ :=
  match multiplicity.get "lower" with
  | some (.number n) => n.value
  | _ => 0

def multiplicityChange (before after : Option Json) : Option Disposition :=
  let old := before.getD .null
  let new := after.getD .null
  if same before after then none
  else if !strictEq (some (nullish (old.get "ordered") (.bool false)))
        (some (nullish (new.get "ordered") (.bool false))) ||
      !strictEq (some (nullish (old.get "unique") (.bool false)))
        (some (nullish (new.get "unique") (.bool false))) then some .breaking
  else
    let widened := decide (lowerOf new ≤ lowerOf old) &&
      match upperOf new, upperOf old with
      | none, _ => true
      | some _, none => false
      | some newUpper, some oldUpper => decide (oldUpper ≤ newUpper)
    some (if widened then .additive else .breaking)

/-! ### Lists of nodes -/

def boundKeywords : List String := ["min", "max", "exclusiveMin", "exclusiveMax"]

def isBound (constraint : Json) : Bool :=
  boundKeywords.any fun keyword => constraint.get "keyword" == some (.str keyword)

def numericScalar (beforeScalar afterScalar : Option String) : Bool :=
  beforeScalar == afterScalar && (afterScalar == some "integer" || afterScalar == some "decimal")

/-- `Object.keys(value ?? {}).length`. -/
def keyCount (value : Option Json) : ℕ :=
  match value with
  | some (.object members) => (resolvedMembers members).length
  | some (.array items) => items.length
  | _ => 0

def operandsDisposition (original constraint : Json) (beforeScalar afterScalar : Option String) :
    Disposition :=
  if numericScalar beforeScalar afterScalar &&
      strictEq (original.get "keyword") (constraint.get "keyword") && isBound constraint &&
      keyCount (original.get "operands") == 1 && keyCount (constraint.get "operands") == 1 then
    let direction := compareExactBounds (operandText original) (operandText constraint)
      (afterScalar.getD "")
    let lower := constraint.get "keyword" == some (.str "min") ||
      constraint.get "keyword" == some (.str "exclusiveMin")
    if direction = some .eq then .patch
    else if direction = some (if lower then .gt else .lt) then .conditional
    else .breaking
  else .breaking

def diffConstraints (previous next : Json) (beforeScalar afterScalar : Option String) :
    List Record :=
  let before := byIdentity (previous.get "constraints")
  let after := byIdentity (next.get "constraints")
  (before.flatMap fun (identity, constraint) =>
    recordIf (!has after identity) ⟨identity, "constraint",
      if numericScalar beforeScalar afterScalar && isBound constraint then .conditional
      else .breaking, "the " ++ text (constraint.get "keyword") ++ " constraint was removed"⟩) ++
  after.flatMap fun (identity, constraint) =>
    match entry before identity with
    | none => [⟨identity, "constraint", .breaking,
        "the " ++ text (constraint.get "keyword") ++ " constraint was added"⟩]
    | some original =>
      if same (original.get "operands") (constraint.get "operands") then
        recordIf (!same (some original) (some constraint)) ⟨identity, "constraint", .patch,
          "the constraint changed with no semantic operand change"⟩
      else [⟨identity, "constraint",
        operandsDisposition original constraint beforeScalar afterScalar,
        "the " ++ text (constraint.get "keyword") ++ " operands changed"⟩]

/-- What `diffFields` records of a field that both types have. -/
def diffField (oldTypes newTypes : List (String × Json)) (identity : String)
    (original field : Json) : List Record :=
  let oldSubject := numericSubject oldTypes (original.get "typeRef")
  let newSubject := numericSubject newTypes (field.get "typeRef")
  let nullable := field.get "nullable" == some (.bool true)
  recordIf (oldSubject.scalar == some "integer" && newSubject.scalar == some "integer" &&
      wideInteger (oldSubject.constraints ++ items (original.get "constraints")) !=
        wideInteger (newSubject.constraints ++ items (field.get "constraints")))
    ⟨identity, "type", .breaking,
      "the field's integer wire form changed between safe and wide"⟩ ++
  diffConstraints original field oldSubject.scalar newSubject.scalar ++
  recordSome (multiplicityChange (original.get "multiplicity") (field.get "multiplicity"))
    (⟨identity, "multiplicity", ·,
      "multiplicity changed from " ++ written (original.get "multiplicity") ++ " to " ++
        written (field.get "multiplicity")⟩) ++
  recordIf (!strictEq (some (nullish (original.get "unit") .null))
      (some (nullish (field.get "unit") .null)))
    ⟨identity, "unit", .breaking,
      "the unit changed from " ++ orNone (original.get "unit") ++ " to " ++
        orNone (field.get "unit")⟩ ++
  recordIf (!strictEq (original.get "typeRef") (field.get "typeRef"))
    ⟨identity, "type",
      numericRefDisposition (inlineOf original) (inlineOf field) oldSubject newSubject,
      "the field's type reference changed from " ++ text (original.get "typeRef") ++ " to " ++
        text (field.get "typeRef")⟩ ++
  recordSome (decimalPolicyChange (policyOf original) (policyOf field))
    (⟨identity, "type", ·, "the field's decimal policy changed"⟩) ++
  recordIf ((original.get "nullable" == some (.bool true)) != nullable)
    ⟨identity, "field", if nullable then .conditional else .breaking,
      "the field became " ++ if nullable then "nullable" else "non-nullable"⟩ ++
  recordIf (!strictEq (original.get "defaultKind") (field.get "defaultKind") ||
      !same (original.get "defaultValue") (field.get "defaultValue"))
    ⟨identity, "field", .conditional,
      "the default changed from " ++ text (original.get "defaultKind") ++ " to " ++
        text (field.get "defaultKind")⟩ ++
  recordIf (!strictEq (some (nullish (original.get "presence") .null))
      (some (nullish (field.get "presence") .null)))
    ⟨identity, "field",
      if field.get "presence" == some (.str "required") then .breaking else .additive,
      "presence changed from " ++ text (original.get "presence") ++ " to " ++
        text (field.get "presence")⟩ ++
  recordIf (!same (some (nullish (original.get "subsets") (.array [])))
      (some (nullish (field.get "subsets") (.array []))))
    ⟨identity, "subsets", .breaking, "the subsetted supertype fields changed"⟩ ++
  recordIf (!strictEq (some (nullish (original.get "redefines") .null))
      (some (nullish (field.get "redefines") .null)))
    ⟨identity, "redefines", .breaking,
      "the redefined field changed from " ++ orNone (original.get "redefines") ++ " to " ++
        orNone (field.get "redefines")⟩

def diffFields (consumerPolicies : List Json) (evidence : Evidence)
    (oldTypes newTypes : List (String × Json)) (previous next : Json) : List Record :=
  let before := byIdentity (previous.get "fields")
  let after := byIdentity (next.get "fields")
  (before.flatMap fun (identity, field) =>
    recordIf (!has after identity)
      ⟨identity, "field", .breaking, "the field " ++ text (field.get "name") ++ " was removed"⟩) ++
  (after.flatMap fun (identity, field) =>
    let required := field.get "presence" == some (.str "required")
    recordIf (!has before identity)
      ⟨identity, "field",
        if required then .breaking else additionDisposition consumerPolicies evidence,
        (if required then "the required field " else "the optional field ") ++
          text (field.get "name") ++ " was added"⟩) ++
  after.flatMap fun (identity, field) =>
    match entry before identity with
    | none => []
    | some original => diffField oldTypes newTypes identity original field

/-- The walk of `resolvedRef`. -/
def resolvedFrom (types : List (String × Json)) : ℕ → List String → Option Json → Option Json
  | fuel + 1, seen, some (.str current) =>
    match entry types current with
    | none => some (.str current)
    | some type =>
      if current ∈ seen then some (.str current)
      else
        let truthy := match type.get "target" with
          | none => false
          | some .null => false
          | some (.bool b) => b
          | some (.str t) => t != ""
          | some (.number n) => n.value != 0
          | some _ => true
        if isAlias type && truthy then resolvedFrom types fuel (current :: seen) (type.get "target")
        else some (.str current)
  | _, _, current => current

def resolvedRef (ref : Option Json) (types : List (String × Json)) : Option Json :=
  resolvedFrom types (types.length + 1) [] ref

def diffPositions (oldTypes newTypes : List (String × Json)) (previous next : Json) :
    List Record :=
  let before := items (previous.get "positions")
  let after := items (next.get "positions")
  if before.isEmpty && after.isEmpty then []
  else
    recordIf (before.length != after.length) ⟨text (next.get "identity"), "tuple", .breaking,
      "the tuple position count changed from " ++ toString before.length ++ " to " ++
        toString after.length⟩ ++
    ((before.zip after).zipIdx.flatMap fun ((old, current), index) =>
      recordIf (text (old.get "identity") != text (current.get "identity") ||
          !strictEq (resolvedRef (old.get "typeRef") oldTypes)
            (resolvedRef (current.get "typeRef") newTypes))
        ⟨text (current.get "identity"), "tuple", .breaking,
          "the tuple position " ++ toString index ++ " changed identity or type"⟩)

def diffVariants (consumerPolicies : List Json) (evidence : Evidence) (previous next : Json) :
    List Record :=
  let kind := if next.get "kind" == some (.str "union") then "union" else "enum"
  let before := byIdentity (previous.get "variants")
  let after := byIdentity (next.get "variants")
  (before.flatMap fun (identity, variant) =>
    recordIf (!has after identity)
      ⟨identity, kind, .breaking, "the variant " ++ text (variant.get "name") ++ " was removed"⟩) ++
  after.flatMap fun (identity, variant) =>
    match entry before identity with
    | some original =>
      recordIf (!same (original.get "payloadType") (variant.get "payloadType"))
        ⟨identity, kind, .breaking,
          "the variant payload changed from " ++ orNone (original.get "payloadType") ++ " to " ++
            orNone (variant.get "payloadType")⟩
    | none =>
      [⟨identity, kind,
        if kind = "enum" then
          if consumerPolicies.any rejects then .breaking
          else additionDisposition consumerPolicies evidence
        else .additive,
        "the variant " ++ text (variant.get "name") ++ " was added"⟩]

def diffNodes (previous next : Json) : List Record :=
  [("relationships", "relationship"), ("operations", "operation"), ("clauses", "clause")].flatMap
    fun (key, observed) =>
      let before := byIdentity (previous.get key)
      let after := byIdentity (next.get key)
      (before.flatMap fun (identity, _) =>
        recordIf (!has after identity)
          ⟨identity, observed, .breaking, "a " ++ observed ++ " was removed"⟩) ++
      after.flatMap fun (identity, node) =>
        match entry before identity with
        | none => [⟨identity, observed, .additive, "a " ++ observed ++ " was added"⟩]
        | some original =>
          recordIf (!same (some original) (some node))
            ⟨identity, observed, .breaking, "a " ++ observed ++ " changed"⟩

/-! ### The document -/

def joined (parts : List (Bool × String)) : List String :=
  (parts.filter Prod.fst).map Prod.snd

def diffPopulations (previous next : Json) : List Record :=
  let before := byIdentity (previous.get "populations")
  let after := byIdentity (next.get "populations")
  (before.flatMap fun (identity, _) =>
    recordIf (!has after identity)
      ⟨identity, "populations", .breaking, "a population was removed"⟩) ++
  after.flatMap fun (identity, population) =>
    match entry before identity with
    | none => [⟨identity, "populations", .additive, "a population was added"⟩]
    | some original =>
      let changed := joined
        [(!same (original.get "kind") (population.get "kind"), "kind"),
          (!same (some (nullish (original.get "members") (.array [])))
            (some (nullish (population.get "members") (.array []))), "members"),
          (!strictEq (original.get "extent") (population.get "extent"), "extent")]
      recordIf (!changed.isEmpty) ⟨identity, "populations", .breaking,
        "a population's " ++ ", ".intercalate changed ++ " changed"⟩

/-- `entry?.kind?.[name]` in a template. -/
def kindMember (entry : Json) (name : String) : String :=
  text ((entry.get "kind").bind (·.get name))

def constructKey (entry : Json) : String := 
  kindMember entry "module" ++ "/" ++ kindMember entry "name"

def constructIdentity (entry : Json) : String :=
  "ix://" ++ kindMember entry "module" ++ "/construct/" ++ kindMember entry "name"

def diffConstructs (previous next : Json) : List Record :=
  let table := fun document : Json => resolvedMembers
    ((items (document.get "constructs")).map fun entry => (constructKey entry, entry))
  let before := table previous
  let after := table next
  (before.flatMap fun (key, construct) =>
    recordIf (!has after key) ⟨constructIdentity construct, "construct", .breaking,
      "the construct " ++ key ++ " was removed"⟩) ++
  after.flatMap fun (key, construct) =>
    match entry before key with
    | none => [⟨constructIdentity construct, "construct", .additive,
        "the construct " ++ key ++ " was added"⟩]
    | some original =>
      let old := fun name => (original.get "construct").bind (·.get name)
      let new := fun name => (construct.get "construct").bind (·.get name)
      let changed := joined
        [(!strictEq (old "identity") (new "identity"), "identity"),
          (!strictEq (old "shape") (new "shape"), "shape"),
          (!same (some (nullish (old "members") (.object [])))
            (some (nullish (new "members") (.object []))), "members"),
          (!same (some (nullish (old "rules") (.array [])))
            (some (nullish (new "rules") (.array []))), "rules"),
          (!same (some (nullish (old "references") (.object [])))
            (some (nullish (new "references") (.object []))), "references"),
          (!strictEq (some (nullish (old "immutable") (.bool false)))
            (some (nullish (new "immutable") (.bool false))), "immutable"),
          (!strictEq (old "meaning") (new "meaning"), "meaning")]
      recordIf (!changed.isEmpty) ⟨constructIdentity construct, "construct", .breaking,
        "the construct " ++ key ++ "'s " ++ ", ".intercalate changed ++ " changed"⟩

def kindLabel (kind : Option Json) : String :=
  match kind with
  | some (.object members) =>
    text (lookup "module" members) ++ "/" ++ text (lookup "name" members)
  | kind => text kind

/-- `stripDocumentation`: the type and its fields without their documentation extensions. -/
def stripNode : List (String × Json) → List (String × Json) := fun members =>
  match lookup "extensions" members with
  | some (.array extensions) => setMember "extensions" (.array (extensions.filter fun extension =>
      !"/ext/doc".toList.isSuffixOf (text (extension.get "identity")).toList)) members
  | _ => members

def stripDocumentation : Json → Json :=
  onMembers fun type => mapMember "fields" (onMembers stripNode) (stripNode type)

/-- The part of the type loop that compares what a type resolves to. -/
def diffDomain (identity : String) (previous next : Json) (oldSubject newSubject : Subject) :
    List Record :=
  if kindLabel (previous.get "kind") != kindLabel (next.get "kind") then
    [⟨identity, "type", .breaking, "the structural kind changed from " ++
      kindLabel (previous.get "kind") ++ " to " ++ kindLabel (next.get "kind")⟩]
  else
    recordSome (scalarChange oldSubject.scalar newSubject.scalar)
      (⟨identity, "type", ·, "the scalar domain changed from " ++ text (previous.get "scalar") ++
        " to " ++ text (next.get "scalar")⟩) ++
    recordSome (decimalPolicyChange oldSubject.decimal newSubject.decimal)
      (⟨identity, "type", ·, "the decimal policy changed"⟩) ++
    recordIf (isAlias previous && !strictEq (previous.get "target") (next.get "target") &&
        numericScalar oldSubject.scalar newSubject.scalar)
      ⟨identity, "type", numericRefDisposition ⟨[], none⟩ ⟨[], none⟩ oldSubject newSubject,
        "the alias target changed its effective numeric domain"⟩ ++
    recordIf (oldSubject.scalar == some "integer" && newSubject.scalar == some "integer" &&
        wideInteger oldSubject.constraints != wideInteger newSubject.constraints)
      ⟨identity, "type", .breaking, "the integer wire form changed between safe and wide"⟩

def diffType (consumerPolicies : List Json) (evidence : Evidence)
    (oldTypes newTypes : List (String × Json)) (identity : String) (previous next : Json) :
    List Record :=
  let oldSubject := numericSubject oldTypes (some (.str identity))
  let newSubject := numericSubject newTypes (some (.str identity))
  let abstract := next.get "abstract" == some (.bool true)
  let tightened := previous.get "unknownPolicy" == some (.str "preserve") &&
    next.get "unknownPolicy" == some (.str "reject")
  diffDomain identity previous next oldSubject newSubject ++
  recordIf (!same (some (nullish (previous.get "supertypes") (.array [])))
      (some (nullish (next.get "supertypes") (.array []))))
    ⟨identity, "generalization", .breaking, "the supertypes changed"⟩ ++
  recordIf (!strictEq (some (nullish (previous.get "abstract") (.bool false)))
      (some (nullish (next.get "abstract") (.bool false))))
    ⟨identity, "abstract", if abstract then .breaking else .additive,
      if abstract then
        "the type became abstract, disallowing the direct instances it previously allowed"
      else "the type became concrete, allowing direct instances it previously disallowed"⟩ ++
  recordIf (!strictEq (previous.get "unknownPolicy") (next.get "unknownPolicy"))
    ⟨identity, "unknown-policy", if tightened then .breaking else .conditional,
      "the unknown policy changed from " ++ text (previous.get "unknownPolicy") ++ " to " ++
        text (next.get "unknownPolicy")⟩ ++
  diffFields consumerPolicies evidence oldTypes newTypes previous next ++
  diffVariants consumerPolicies evidence previous next ++
  diffPositions oldTypes newTypes previous next ++
  diffConstraints previous next oldSubject.scalar newSubject.scalar ++
  diffNodes previous next ++
  recordIf (!same (some (nullish (previous.get "roles") (.array [])))
      (some (nullish (next.get "roles") (.array []))))
    ⟨identity, "type", .conditional, "the declared roles changed"⟩ ++
  recordIf (same (some (stripDocumentation previous)) (some (stripDocumentation next)) &&
      !same (some previous) (some next))
    ⟨identity, "documentation", .patch,
      "only documentation changed; no semantic value moved"⟩

/-! ### The type graph -/

/-- The rationales of the type graph, and every other one as its text. -/
inductive Rationale where
  | identityChanged (displayName target : String)
  | typeRemoved (displayName : String)
  | typeAdded (displayName : String)
  | other (text : String)
  deriving DecidableEq

def Rationale.text : Rationale → String
  | identityChanged displayName target =>
    "the stable identity of " ++ displayName ++ " changed to " ++ target
  | typeRemoved displayName => "the type " ++ displayName ++ " was removed"
  | typeAdded displayName => "the type " ++ displayName ++ " was added"
  | other text => text

structure Change where
  identity : String
  observed : String
  disposition : Disposition
  rationale : Rationale
  deriving DecidableEq

def Record.change (record : Record) : Change :=
  ⟨record.identity, record.observed, record.disposition, .other record.rationale⟩

def displayName (type : Json) : String := text (type.get "displayName")

/-- The first new type of the display name that the old document does not have. -/
def renamed (oldTypes newTypes : List (String × Json)) (type : Json) : Option Json :=
  (newTypes.map Prod.snd).find? fun candidate =>
    displayName candidate == displayName type && !has oldTypes (text (candidate.get "identity"))

def removals (oldTypes newTypes : List (String × Json)) : List Change :=
  oldTypes.flatMap fun (identity, type) =>
    if has newTypes identity then []
    else
      match renamed oldTypes newTypes type with
      | some candidate => [⟨identity, "identity", .breaking,
          .identityChanged (displayName type) (text (candidate.get "identity"))⟩]
      | none => [⟨identity, "type", .breaking, .typeRemoved (displayName type)⟩]

def additions (oldTypes newTypes : List (String × Json)) : List Change :=
  newTypes.flatMap fun (identity, type) =>
    if has oldTypes identity then []
    else if oldTypes.any fun e => displayName e.2 == displayName type then []
    else [⟨identity, "type", .additive, .typeAdded (displayName type)⟩]

/-! ### The report -/

/-- A request. `targetResults` are the dispositions of the targets for an identity, `declared` what
is recorded of the profiles, mappings, reservations, vocabulary and generated names given. -/
structure Request where
  old : Json
  new : Json
  consumerPolicies : List Json
  evidence : Evidence
  targetResults : String → List Disposition
  declared : List Record

def Disposition.rank : Disposition → ℕ
  | patch => 0
  | additive => 1
  | conditional => 2
  | unknown => 3
  | breaking => 4
  | invalid => 5

def mostRestrictive (dispositions : List Disposition) : Disposition :=
  dispositions.foldl (fun worst disposition =>
    if worst.rank < disposition.rank then disposition else worst) .patch

/-- The disposition that `record` enters: unknown evidence is a floor. -/
def Request.floor (request : Request) (identity : String) (disposition : Disposition) :
    Disposition :=
  mostRestrictive ([disposition] ++ request.targetResults identity ++
    if request.evidence = .unknown then [.unknown] else [])

def Request.record (request : Request) (change : Change) : Change :=
  { change with disposition := request.floor change.identity change.disposition }

/-- The records other than those of added and removed types. -/
def Request.records (request : Request) : List Record :=
  let oldTypes := byIdentity (request.old.get "types")
  let newTypes := byIdentity (request.new.get "types")
  (newTypes.flatMap fun (identity, next) =>
    match entry oldTypes identity with
    | none => []
    | some previous =>
      diffType request.consumerPolicies request.evidence oldTypes newTypes identity previous
        next) ++
  diffPopulations request.old request.new ++ diffConstructs request.old request.new ++
  request.declared

/-- The changes in the order they are recorded in; two documents without one are a patch. -/
def Request.changes (request : Request) : List Change :=
  let oldTypes := byIdentity (request.old.get "types")
  let newTypes := byIdentity (request.new.get "types")
  let changes := removals oldTypes newTypes ++ additions oldTypes newTypes ++
    request.records.map Record.change
  let source := text (some (nullish ((request.new.get "source").bind (·.get "identity"))
    (.str "ix://agent-ix/unknown/source")))
  (if changes.isEmpty then [⟨source, "documentation", .patch,
    .other "the two contracts have no classified surface changes"⟩] else changes).map
      request.record

def changeLe (left right : Change) : Bool :=
  if left.identity = right.identity then utf16Le left.rationale.text right.rationale.text
  else utf16Le left.identity right.identity

structure Report where
  changes : List Change
  aggregateDisposition : Disposition

/-- A document of another contract version is refused. -/
def diffSemanticContract (request : Request) : Option Report :=
  if request.old.get "contractVersion" == some (.str "2.0.0") &&
      request.new.get "contractVersion" == some (.str "2.0.0") then
    let changes := request.changes.insertionSort fun left right => changeLe left right = true
    some ⟨changes, mostRestrictive (changes.map Change.disposition)⟩
  else none

end FilamentCore.Compiler.Diff
