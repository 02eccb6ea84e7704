import FilamentCore.SemanticIr.Constructs
import FilamentCore.SemanticIr.Regex262

/-!
# The cross-field rules (crates/semantic-ir/src/rules.rs)

Every rule over the types, the features and the constraints of a document, and the
package-context rules.
-/

namespace FilamentCore.SemanticIr
namespace Rules

/-! ### Numbers and identities -/

def exactNumbers (bundle : Json) : List Issue :=
  (inexactNumbers "" bundle).map fun found =>
    .emit found.1 found.2 "the JSON number is not an exact contract number"

/-- The second and later declarations of an identity. -/
def duplicates (seen : List String) : List (String × String) → List Issue
  | [] => []
  | (pointer, identity) :: declarations =>
    if seen.contains identity then
      .emit pointer .duplicateIdentity
        "the second declaration of an identity the document already carries" ::
        duplicates seen declarations
    else duplicates (identity :: seen) declarations

def duplicateIdentities (d : Document) : List Issue := duplicates [] d.identityDeclarations

variable (d : Document)

/-- An identity a type of the document declares, or a native reference. -/
def resolves (identity : String) : Bool :=
  (nativeScalar identity).isSome || (d.typeOf identity).isSome

/-! ### Type positions -/

def forbiddenMembers (member : Json) (clock : Bool) : List String :=
  (if clock && member.getBool "nullable" == some true then ["nullable"] else []) ++
  (if (member.getStr "defaultKind").any (· != "none") then ["defaultKind"] else []) ++
  (["defaultValue", "unit", "decimal", "textProfile"].filter member.has) ++
  if (member.getArray "constraints").any (!·.isEmpty) then ["constraints"] else []

def specialMemberShape (member : Json) (at' : String) (clock : Bool) : List Issue :=
  (forbiddenMembers member clock).map fun name =>
    .emit (child at' name) (if clock then .invalidClockMember else .invalidQuantityMember)
      "the member does not have the required Clock or quantity shape"

open Document (TypePosition TypePositionKind)

def checkDecimalPosition (position : TypePosition) : List Issue :=
  match d.resolve position.identity with
  | none => []
  | some resolved =>
    let count := (d.decimalPoliciesFrom position.identity (some position.subject)).length
    if resolved.scalar = "decimal" then
      if count = 0 then
        [.emit position.pointer .decimalPolicyMissing position.kind.missingMessage]
      else Issue.emitIf (1 < count) position.pointer .decimalPolicyConflict
        "a decimal resolution walk carries more than one policy"
    else Issue.emitIf (0 < count) position.pointer .decimalPolicyConflict
      "a decimal policy applies only to a decimal subject"

def specialPointer (position : TypePosition) : String :=
  if position.kind.isMember then child position.pointer "typeRef"
  else if position.kind = .constraintSubject then child position.pointer "appliesTo"
  else position.pointer

def specialPosition (position : TypePosition) : List Issue :=
  let quantity := isQuantityTypeRef position.identity
  let clock := position.identity == clockTypeRef
  (if !quantity && !clock then
    [.emit (specialPointer position) .unresolvedTypeRef
      "a quantity type reference must be well formed"]
  else Issue.emitIf (quantity && position.kind = .referenceTarget) (specialPointer position)
    .unresolvedTypeRef "a reference names an object and a quantity has no identity") ++
  if position.kind.isMember && (quantity || clock) then
    specialMemberShape position.subject.node position.pointer clock
  else []

def typePosition (position : TypePosition) : List Issue :=
  match d.specialOf position.identity with
  | some special =>
    if position.kind.isMember && !specialTypeRef position.identity then
      specialMemberShape position.subject.node position.pointer (special = .clock)
    else if specialTypeRef position.identity then specialPosition position
    else checkDecimalPosition d position
  | none =>
    if specialTypeRef position.identity then specialPosition position
    else checkDecimalPosition d position

/-! ### Alias chains -/

/-- What walking from an alias to the end of its chain found. -/
inductive Chain where
  | cycle
  | ends (steps : ℕ) (atType : Bool)
  deriving DecidableEq, Repr

def Chain.step : Chain → Chain
  | cycle => cycle
  | ends steps atType => ends (steps + 1) atType

/-- Per-alias results, by identity. -/
abbrev AliasMemo := List (String × Chain)

def AliasMemo.get (memo : AliasMemo) (identity : String) : Option Chain :=
  (memo.find? fun entry => entry.1 == identity).map Prod.snd

def aliasChain : ℕ → AliasMemo → List String → Json → Chain × AliasMemo
  | 0, memo, _, _ => (.cycle, memo)
  | steps + 1, memo, onPath, current =>
    let identity := (identityOf current).getD ""
    let record := fun (chain : Chain) (memo : AliasMemo) => (chain, (identity, chain) :: memo)
    match memo.get identity with
    | some known => (known, memo)
    | none =>
      if onPath.contains identity then (.cycle, memo)
      else
        match current.getStr "target" with
        | none => record (.ends 0 false) memo
        | some target =>
          match d.typeOf target with
          | none => record (.ends 1 false) memo
          | some next =>
            if !d.isAliasDefinition next then record (.ends 1 true) memo
            else
              let (chain, memo) := aliasChain steps memo (identity :: onPath) next
              record chain.step memo

/-- `walk_alias`, as the issue it leads to. -/
def aliasIssue (chain : Chain) (at' : String) : List Issue :=
  match chain with
  | .cycle => [.emit at' .aliasCycle "the alias chain closes on itself and resolves to no type"]
  | .ends steps true => Issue.emitIf (d.aliasDepth.any (· < steps)) at' .depthLimitExceeded
      "alias expansion exceeds the configured depth limit"
  | .ends _ false => []

def isOptionType (identity : String) : Bool :=
  match d.resolve identity with
  | some (.node definition) => definition.getStr "kind" == some "option"
  | _ => false

def targetIssues (memo : AliasMemo) (definition : Placed) : List Issue × AliasMemo :=
  let isAlias := d.isAliasDefinition definition.node
  let kind := (definition.node.getStr "kind").getD ""
  let at' := child definition.pointer "target"
  match definition.node.getStr "target" with
  | none => ([], memo)
  | some target =>
    if !isAlias && kind != "reference" then ([], memo)
    else if specialTypeRef target then ([], memo)
    else if !resolves d target then
      ([.emit at' .unresolvedTypeRef ("the " ++ (if isAlias then "alias" else kind) ++
        " target resolves to no declared type")], memo)
    else if !isAlias && d.specialOf target = some .quantity then
      ([.emit at' .unresolvedTypeRef "a reference names an object and a quantity has no identity"],
        memo)
    else if !isAlias && isOptionType d target then
      ([.emit at' .unresolvedTypeRef
        "a reference names an object and an option value type is not one"], memo)
    else if isAlias then
      let (chain, memo) := aliasChain d (d.types.length + 1) memo [] definition.node
      (aliasIssue d chain at', memo)
    else ([], memo)

/-! ### Elements and options -/

def optionInner (definition : Placed) : List Issue :=
  match definition.node.getStr "inner" with
  | none => []
  | some inner =>
    let at' := child definition.pointer "inner"
    if (stripPrefix nativePrefix.toList inner.toList).isSome && (nativeScalar inner).isNone &&
        inner != clockTypeRef then
      [.emit at' .invalidOptionInner "an option inner names a native value type of the library"]
    else if d.specialOf inner = some .clock then
      [.emit at' .invalidOptionInner
        "an option inner is never a clock: a clock place is optional by presence alone"]
    else if specialTypeRef inner || (nativeScalar inner).isSome then []
    else if !resolves d inner then
      [.emit at' .unresolvedOptionInner "the option inner resolves to no declared type"]
    else if isOptionType d inner then
      [.emit at' .invalidOptionInner ("an option inner never names an option value type: " ++
        "Option<Option<T>> has no spelling")]
    else
      match d.resolve inner with
      | some (.node node) =>
        Issue.emitIf ((shapeOf d node).any fun shape =>
            shape = .namespace ∨ shape = .stateMachine ∨ shape = .interface ∨ shape = .sequence)
          at' .invalidOptionInner ("an option inner names a value type, not a namespace, " ++
            "state machine, interface or process")
      | _ => []

/-- `!special_type_ref(reference) && !resolves(declared, reference)`. -/
def dangles (reference : String) : Bool := !specialTypeRef reference && !resolves d reference

def checkElement (definition : Placed) (member what : String) : List Issue :=
  Issue.emitIf ((definition.node.getStr member).any (dangles d)) (child definition.pointer member)
    .unresolvedElementType ("the " ++ what ++ " type resolves to no declared type")

def kindIssues (definition : Placed) : List Issue :=
  match definition.node.getStr "kind" with
  | some "option" => optionInner d definition
  | some "sequence" => checkElement d definition "items" "sequence element"
  | some "map" => checkElement d definition "values" "map value"
  | _ => []

def variantIssues (variant : Placed) : List Issue :=
  match variant.node.getStr "payloadType" with
  | none => []
  | some payload =>
    let at' := child variant.pointer "payloadType"
    Issue.emitIf (d.specialOf payload = some .clock) at' .invalidClockMember
      "a union variant payload is never a clock" ++
    Issue.emitIf (dangles d payload) at' .unresolvedVariantPayload
      "the union variant payload type resolves to no declared type"

def positionIssues (position : Placed) : List Issue :=
  Issue.emitIf ((position.node.getStr "typeRef").any (dangles d)) (child position.pointer "typeRef")
    .unresolvedPositionType "the tuple position type resolves to no declared type"

/-! ### Constraints -/

/-- The applicability table over the resolved kind. -/
def appliesTo (keyword kind scalar : String) : Bool :=
  if ["min", "max", "exclusiveMin", "exclusiveMax"].contains keyword then
    kind == "scalar" && ["integer", "decimal", "float32", "float64", "date", "datetime",
      "duration"].contains scalar
  else if ["minLength", "maxLength"].contains keyword then
    kind == "scalar" && ["string", "bytes"].contains scalar
  else if ["pattern", "format"].contains keyword then kind == "scalar" && scalar == "string"
  else if keyword = "enumValues" then ["scalar", "enum", "enumeration"].contains kind
  else if keyword = "nonEmpty" then
    (kind == "scalar" && ["string", "bytes"].contains scalar) || ["sequence", "map"].contains kind
  else if keyword = "unique" then ["sequence", "map"].contains kind
  else true

def spelled (value : Json) (scalar : String) (policy : Option (ℕ × ℕ)) : Bool :=
  if scalar = "integer" then (value.asStr.bind parseI128).isSome
  else if scalar = "decimal" then value.asStr.any fun text => policy.any (decimalWithinPolicy text)
  else if scalar = "float32" then value.asF64.any float32Exact
  else if scalar = "float64" then value.asF64.isSome
  else true

def validateValueSite (value : Json) (scalar : String) (policy : Option (ℕ × ℕ))
    (pointer : String) (default : Bool) : List Issue :=
  Issue.emitIf (!spelled value scalar policy) pointer
    (if default then .invalidDefaultValue else .invalidOperand)
    "the numeric value is not spelled for its subject scalar"

def validateDefaultValue (value : Json) (scalar : String) (policy : Option (ℕ × ℕ))
    (pointer : String) (field : Json) : List Issue :=
  let upper := (field.get "multiplicity").bind (·.get "upper")
  let collection := upper.all fun upper => upper.asI64.all fun value => 1 < value
  if field.getBool "nullable" = some true ∧ value = .null then []
  else if collection then
    match value with
    | .array items => items.zipIdx.flatMap fun item =>
        validateValueSite item.1 scalar policy (index pointer item.2) true
    | _ => [.emit pointer .invalidDefaultValue
        "a collection default is an array of values for its element scalar"]
  else validateValueSite value scalar policy pointer true

def tableKind (resolved : Resolved) : String :=
  match resolved with
  | .native _ => "scalar"
  | .node node =>
    match shapeOf d node with
    | some .enumeration => "enumeration"
    | some _ => if (node.getStr "scalar").getD "" ≠ "" then "scalar" else "construct"
    | none => (node.getStr "kind").getD ""

def boundIssues (operand : Option Json) (scalar : String) (policy : Option (ℕ × ℕ))
    (valueAt : String) : List Issue :=
  let refused := [Issue.emit valueAt .invalidOperand
    ("a numeric keyword takes an exact string for integer and decimal, or a JSON number for " ++
      "float32 and float64")]
  match operand with
  | some (.number number) =>
    if scalar = "float64" ∨ (scalar = "float32" ∧ float32Exact number.value = true) then []
    else refused
  | some (.str text) =>
    if scalar = "integer" ∧ isCanonicalInteger text = true then
      Issue.emitIf (parseI128 text).isNone valueAt .integerOutsideI128
        "the integer value lies outside i128"
    else if scalar = "decimal" ∧ policy.any (decimalWithinPolicy text) = true then []
    else refused
  | _ => refused

def enumIssues (constraint : Json) (at' scalar : String) (policy : Option (ℕ × ℕ)) :
    List Issue :=
  let valuesAt := child (child at' "operands") "values"
  (((constraint.get "operands").bind (·.getArray "values")).getD []).zipIdx.flatMap fun value =>
    validateValueSite value.1 scalar policy (index valuesAt value.2) false

def patternIssues (constraint : Json) (at' : String) : List Issue :=
  match (constraint.get "operands").bind (·.getStr "regex") with
  | none => []
  | some regex => Issue.emitIf (!Regex262.compiles regex) (child (child at' "operands") "regex")
      .invalidPattern "the regular expression does not compile under the declared dialect"

/-- A constraint whose subject is a clock or a quantity. -/
def specialConstraint (constraint : Json) (at' keyword : String) (special : Special) :
    List Issue :=
  if !(["min", "max", "exclusiveMin", "exclusiveMax", "minLength", "maxLength", "pattern",
      "format", "enumValues", "nonEmpty", "unique"].contains keyword) then []
  else if keyword ≠ "min" ∧ keyword ≠ "max" then
    [.emit (child at' "keyword") .constraintNotApplicable
      "only min and max state a bound on a clock or a quantity"]
  else
    let valueAt := child (child at' "operands") "value"
    let verdict : Except Code Bool := match (constraint.get "operands").bind (·.getStr "value") with
      | some text => rationalOperand text
      | none => .error .invalidOperand
    match verdict with
    | .ok negative => Issue.emitIf (negative && special = .clock) valueAt .invalidOperand
        "a clock bound is a non-negative canonical rational"
    | .error code => [.emit valueAt code "a bound is a canonical rational string within i128"]

/-- The keyword on what the subject resolves to; `none` when the table refuses it. -/
def resolvedConstraint (constraint : Json) (at' keyword : String) (applies : String)
    (resolved : Resolved) : Option (List Issue) :=
  let kind := tableKind d resolved
  let scalar := resolved.scalar
  if kind = "option" ∨ appliesTo keyword kind scalar = false then none
  else
    let operand := (constraint.get "operands").bind (·.get "value")
    let policy := d.decimalPolicy applies
    some <|
      (if ["min", "max", "exclusiveMin", "exclusiveMax"].contains keyword &&
          ["integer", "decimal", "float32", "float64"].contains scalar then
        boundIssues operand scalar policy (child (child at' "operands") "value")
      else []) ++
      if keyword = "enumValues" then enumIssues constraint at' scalar policy else []

def constraintRules (constraint : Json) (at' : String) : List Issue :=
  match constraint.getStr "keyword" with
  | none => []
  | some keyword =>
    let applies := constraint.getStr "appliesTo"
    let pattern := if keyword = "pattern" then patternIssues constraint at' else []
    match applies.bind d.specialOf with
    | some special => specialConstraint constraint at' keyword special
    | none =>
      if applies.any specialTypeRef then []
      else
        match applies.bind d.resolve with
        | none => pattern
        | some resolved =>
          match resolvedConstraint d constraint at' keyword (applies.getD "") resolved with
          | none => [.emit at' .constraintNotApplicable
              "the applicability table does not admit this keyword on this resolved kind"]
          | some issues => issues ++ pattern

def constraintIssues (node : Placed) : List Issue :=
  (placedItems node.node node.pointer "constraints").flatMap fun constraint =>
    constraintRules d constraint.node constraint.pointer

/-! ### Fields -/

def multiplicityIssues (field : Placed) : List Issue :=
  match field.node.get "multiplicity" with
  | none => []
  | some multiplicity =>
    match multiplicity.getI64 "lower", multiplicity.getI64 "upper" with
    | some lower, some upper => Issue.emitIf (upper < lower)
        (child (child field.pointer "multiplicity") "upper") .invalidMultiplicity
        "the upper bound is below the lower bound"
    | _, _ => []

def isText (resolved : Option Resolved) : Bool :=
  match resolved with
  | some (.native scalar) => scalar == "string"
  | some (.node node) => node.getStr "kind" == some "scalar" && node.getStr "scalar" == some "string"
  | none => true

/-- The rules of a field whose type is neither a clock nor a quantity. -/
def ordinaryField (field : Placed) : List Issue :=
  let typeRef := field.node.getStr "typeRef"
  let resolved := typeRef.bind d.resolve
  Issue.emitIf (field.node.has "unit" && !resolved.any fun r => r.kind == "scalar")
    (child field.pointer "unit") .unitOnNonScalar
    "a unit is carried only where the type reference resolves to a scalar" ++
  Issue.emitIf (field.node.has "textProfile" && !isText resolved)
    (child field.pointer "textProfile") .schemaViolation
    "a text profile is carried only where the type reference resolves to a text scalar" ++
  constraintIssues d field ++
  match field.node.get "defaultValue", resolved with
  | some value, some resolved =>
    validateDefaultValue value resolved.scalar ((identityOf field.node).bind d.decimalPolicy)
      (child field.pointer "defaultValue") field.node
  | _, _ => []

def fieldRule (field : Placed) : List Issue :=
  let typeRef := field.node.getStr "typeRef"
  Issue.emitIf (typeRef.any (dangles d)) (child field.pointer "typeRef") .unresolvedTypeRef
    "the field type reference resolves to no declared type" ++
  multiplicityIssues field ++
  Issue.emitIf (field.node.getStr "presence" == some "optional" &&
      (d.memberOption field.node).any fun option => option.2 = .type)
    (child field.pointer "presence") .invalidOptionPresence
    ("presence optional on a field of option value type with multiplicity [1, 1] is " ++
      "Option<Option<T>>") ++
  if (typeRef.bind d.specialOf).isSome then [] else ordinaryField d field

def fieldRules (fields : List Placed) : List Issue := fields.flatMap (fieldRule d)

def duplicateNames (code : Code) (what : String) (seen : List String) : List Placed → List Issue
  | [] => []
  | item :: items =>
    match item.node.getStr "name" with
    | none => duplicateNames code what seen items
    | some name =>
      Issue.emitIf (seen.contains name) (child item.pointer "name") code what ++
      duplicateNames code what (name :: seen) items

def fieldNames (fields : List Placed) : List Issue :=
  duplicateNames .duplicateFieldName "the second field of this record to carry the name" [] fields

def paramNames (params : List Placed) : List Issue :=
  duplicateNames .duplicateParam "the second parameter of this operation to carry the name" []
    params

/-! ### Relationships, clauses and operations -/

def graphExports : List String :=
  (((d.bundle.get "packageGraph").map (·.members "packages")).getD []).flatMap fun package =>
    (package.members "exports").filterMap Json.asStr

def endType (relationship : Json) (relationshipEnd : String) : Option String :=
  (relationship.get relationshipEnd).bind (·.getStr "type")

def relationshipIssues (owner : Option String) (relationship : Placed) : List Issue :=
  Issue.emitIf ((endType relationship.node "targetEnd").any fun target =>
      (d.typeOf target).isNone && !(graphExports d).contains target)
    (child (child relationship.pointer "targetEnd") "type") .unresolvedRelationshipTarget
    "a relationship target resolves to a document type or a selected package graph export" ++
  Issue.emitIf ((endType relationship.node "sourceEnd").any fun source => some source != owner)
    (child (child relationship.pointer "sourceEnd") "type") .invalidRelationshipSource
    "a relationship's source end names the type declaring it"

def clauseIssues (seen : List String) : List Placed → List Issue
  | [] => []
  | clause :: clauses =>
    let clauseId := clause.node.getStr "clauseId"
    Issue.emitIf (clauseId.any seen.contains) (child clause.pointer "clauseId") .duplicateClauseId
      "clauseId is unique per type and this is its second declaration" ++
    Issue.emitIf ((clause.node.get "origin").any (·.has "source") &&
        !clause.node.has "sourceSpan") (child clause.pointer "sourceSpan") .missingSourceSpan
      "a source-originated clause carries the span it was read from" ++
    clauseIssues (clauseId.toList ++ seen) clauses

/-- The clause ids `pre` or `post` binds to are declared by the type. -/
def bindingIssues (clauseIds : List String) (operation : Placed) (binding : String) :
    List Issue :=
  (placedItems operation.node operation.pointer binding).flatMap fun item =>
    Issue.emitIf (item.node.asStr.any fun clauseId => !clauseIds.contains clauseId) item.pointer
      .danglingClauseRef "pre and post bind by clauseId to a clause this type declares"

def operationIssues (clauseIds : List String) (operation : Placed) : List Issue :=
  let params := placedItems operation.node operation.pointer "params"
  fieldRules d params ++
  paramNames params ++
  Issue.emitIf (((operation.node.get "returns").bind (·.getStr "typeRef")).any (dangles d))
    (child (child operation.pointer "returns") "typeRef") .unresolvedTypeRef
    "the operation return type resolves to no declared type" ++
  ["pre", "post"].flatMap (bindingIssues clauseIds operation)

/-- Every rule of a type but the one about its target. -/
def typeIssues (definition : Placed) : List Issue :=
  let items := placedItems definition.node definition.pointer
  let clauseIds := (definition.node.members "clauses").filterMap (·.getStr "clauseId")
  kindIssues d definition ++
  (items "variants").flatMap (variantIssues d) ++
  (items "positions").flatMap (positionIssues d) ++
  constraintIssues d definition ++
  fieldRules d (items "fields") ++
  fieldNames (items "fields") ++
  (items "relationships").flatMap (relationshipIssues d (identityOf definition.node)) ++
  clauseIssues [] (items "clauses") ++
  (items "operations").flatMap (operationIssues d clauseIds)

def walkTypes (memo : AliasMemo) : List Placed → List Issue
  | [] => []
  | definition :: definitions =>
    let (target, memo) := targetIssues d memo definition
    target ++ typeIssues d definition ++ walkTypes memo definitions

def perType : List Issue :=
  d.typePositions.flatMap (typePosition d) ++ walkTypes d [] d.placedTypes

def occurrences : List Issue :=
  (placedItems d.ir "/ir" "occurrences").flatMap fun occurrence =>
    Issue.emitIf ((occurrence.node.getStr "definition").any fun definition =>
        (d.typeOf definition).isNone) (child occurrence.pointer "definition")
      .unresolvedOccurrenceDefinition
      ("definitions and occurrences remain separate and an occurrence names a declared " ++
        "definition")

/-! ### Cycles of composition and of packages -/

inductive Colour where
  | white | grey | black
  deriving DecidableEq, Repr

/-- A depth-first walk over frames of a node and its next edge: the first edge back to a node
on the path, and the colours the walk leaves. An edge that leads to no node is passed over. -/
def backEdge (edges : ℕ → List (Option ℕ)) :
    ℕ → (ℕ → Colour) → List (ℕ × ℕ) → Option (ℕ × ℕ) × (ℕ → Colour)
  | 0, colour, _ => (none, colour)
  | _ + 1, colour, [] => (none, colour)
  | steps + 1, colour, (at', next) :: path =>
    match (edges at')[next]? with
    | none => backEdge edges steps (Function.update colour at' .black) path
    | some none => backEdge edges steps colour ((at', next + 1) :: path)
    | some (some target) =>
      match colour target with
      | .grey => (some (at', next), colour)
      | .white => backEdge edges steps (Function.update colour target .grey)
          ((target, 0) :: (at', next + 1) :: path)
      | .black => backEdge edges steps colour ((at', next + 1) :: path)

def firstBackEdge (edges : ℕ → List (Option ℕ)) (steps : ℕ) :
    (ℕ → Colour) → List ℕ → Option (ℕ × ℕ)
  | _, [] => none
  | colour, start :: starts =>
    if colour start ≠ .white then firstBackEdge edges steps colour starts
    else
      match backEdge edges steps (Function.update colour start .grey) [(start, 0)] with
      | (some found, _) => some found
      | (none, colour) => firstBackEdge edges steps colour starts

/-- A walk over `count` nodes takes every edge once and leaves every node once. -/
def graphCycle (edges : ℕ → List (Option ℕ)) (count : ℕ) : Option (ℕ × ℕ) :=
  let steps := ((List.range count).map fun node => (edges node).length).sum + count + 1
  firstBackEdge edges steps (fun _ => .white) (List.range count)

/-- The types the composite relationships of a type lead to. -/
def compositeEdges (node : ℕ) : List (Option ℕ) :=
  (((d.types[node]?).map (·.members "relationships")).getD []).map fun relationship =>
    if relationship.getBool "composite" = some true then
      (endType relationship "targetEnd").bind d.byPosition
    else none

def compositeGraph : List Issue :=
  match graphCycle (compositeEdges d) d.types.length with
  | none => []
  | some (at', member) =>
    let relationshipAt := index (child (index "/ir/types" at') "relationships") member
    [.emit (child (child relationshipAt "targetEnd") "type") .compositeCycle
      "the composite relationship graph is required to be acyclic"]

def packageEdges (packages : List Json) (node : ℕ) : List (Option ℕ) :=
  (((packages[node]?).map (·.members "imports")).getD []).map fun dependency =>
    dependency.asStr.bind fun name =>
      packages.findIdx? fun package => (identityOf package).getD "" == name

def packageCycle (graph : Json) : Option String :=
  let packages := graph.members "packages"
  (graphCycle (packageEdges packages) packages.length).map fun found =>
    child (index "/packageGraph/packages" found.1) "imports"

/-! ### The package context -/

def importIssues (manifest graph : Json) : List Issue :=
  let resolved := (graph.members "packages").filterMap identityOf
  (placedItems manifest "/manifest" "imports").flatMap fun imported =>
    Issue.emitIf ((imported.node.getStr "packageIdentity").any fun i => !resolved.contains i)
      (child imported.pointer "packageIdentity") .unresolvedImport
      "the selected package graph does not resolve this import"

def graphIssues (graph : Json) : List Issue :=
  match packageCycle graph with
  | none => []
  | some pointer => [.emit pointer .packageCycle
      "package cycles are rejected; recursive type graphs are not package cycles"]

/-- A member of a mapping names an identity the document declares. -/
def mappingMember (node : Json) (at' member : String) : List Issue :=
  Issue.emitIf ((node.getStr member).any fun i => !d.declaredIdentities.contains i)
    (child at' member) .unknownMappingTarget
    "a mapping names a semantic identity the document declares"

def mappingIssues : List Issue :=
  (placedItems d.bundle "" "mappings").flatMap fun mapping =>
    (["sourceType", "targetType"].flatMap (mappingMember d mapping.node mapping.pointer)) ++
    (placedItems mapping.node mapping.pointer "correspondences").flatMap fun correspondence =>
      mappingMember d correspondence.node correspondence.pointer "sourceIdentity"

/-- `role.rsplit(':').next() == Some("entity")`. -/
def isEntityRole (role : String) : Bool :=
  (splitOn ':' role.toList).getLast? == some "entity".toList

/-- Every entity is exported or listed as omitted. -/
def lossIssues (manifest : Json) : List Issue :=
  let exported := (manifest.members "exports").filterMap (·.getStr "typeIdentity")
  let omitted := (((d.bundle.get "profile").map (·.members "allowedOmissions")).getD []).filterMap
    Json.asStr
  d.placedTypes.flatMap fun definition =>
    Issue.emitIf ((rolesOf definition.node).any isEntityRole &&
        (identityOf definition.node).any fun identity =>
          !exported.contains identity && !omitted.contains identity)
      (child definition.pointer "identity") .undeclaredLoss
      "declared loss lists every omitted identity and undeclared loss fails"

def extensionIssues (policy : Json) : List Issue :=
  let listed := (policy.members "exports").filterMap Json.asStr
  if policy.getStr "unknownExtensions" ≠ some "reject" then []
  else
    (placedItems d.ir "/ir" "extensions").flatMap fun extension =>
      Issue.emitIf (extension.node.getBool "required" == some true &&
          (identityOf extension.node).any fun identity => !listed.contains identity)
        (child extension.pointer "identity") .unknownRequiredExtension
        "the consumer policy rejects unknown extensions and does not list this one"

def packageContext : List Issue :=
  (match d.bundle.get "manifest", d.bundle.get "packageGraph" with
    | some manifest, some graph => importIssues manifest graph
    | _, _ => []) ++
  ((d.bundle.get "packageGraph").map graphIssues).getD [] ++
  mappingIssues d ++
  ((d.bundle.get "manifest").map (lossIssues d)).getD [] ++
  ((d.bundle.get "consumerPolicy").map (extensionIssues d)).getD []

/-! ### The rules -/

def documentIssues : List Issue :=
  exactNumbers d.bundle ++
  duplicateIdentities d ++
  perType d ++
  occurrences d ++
  compositeGraph d ++
  Constructs.decide d ++
  packageContext d

def decideWith (bundle : Json) (aliasDepth : Option ℕ) : List Located :=
  match Document.readWith bundle aliasDepth with
  | none => []
  | some d => (documentIssues d).map (Issue.locate bundle)

end Rules
end FilamentCore.SemanticIr
