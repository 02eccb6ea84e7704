import FilamentCore.SemanticIr.Shapes

/-!
# The nodes of a document (crates/semantic-ir/src/schema.rs)

The schemas of the nodes a type definition, an occurrence or a population holds.
-/

namespace FilamentCore.SemanticIr

/-! ### Origins and extensions -/

def locusMembers : List String :=
  ["sourceIdentity", "path", "startLine", "startColumn", "endLine", "endColumn"]

def sourceLocusSchema (locus : Json) (at' : String) : List Finding :=
  expectObject locus at' "a source locus" <|
    requireMembers locus at' ["sourceIdentity", "path", "startLine", "startColumn"] ++
    forbidExtra locus at' locusMembers ++
    identityMember locus at' "sourceIdentity" ++
    expectShape (locus.get "path") (child at' "path") isRelativePath
      ("a source path is relative, carries no drive letter, no backslash and no parent " ++
        "segment") ++
    ["startLine", "startColumn", "endLine", "endColumn"].flatMap fun name =>
      expectInteger (locus.get name) (child at' name) 1
        "a source locus counts lines and columns from one"

def generatedMembers : List String :=
  ["generatorIdentity", "generatorVersion", "inputIdentities"]

def generatedSchema (generated : Json) (at' : String) : List Finding :=
  expectObject generated at' "a generated origin" <|
    requireMembers generated at' generatedMembers ++
    forbidExtra generated at' generatedMembers ++
    identityMember generated at' "generatorIdentity" ++
    expectShape (generated.get "generatorVersion") (child at' "generatorVersion") isSemver
      "a version is SemVer" ++
    whenSome (generated.get "inputIdentities") fun inputs =>
      let inputsAt := child at' "inputIdentities"
      expectArray inputs inputsAt "inputIdentities" fun items =>
        pushIf items.isEmpty inputsAt "a generated origin names at least one input" ++
        atItems items inputsAt fun input inputAt => expectIdentity (some input) inputAt

def originSchema (origin : Json) (at' : String) : List Finding :=
  expectObject origin at' "an origin" <|
    if origin.has "source" = origin.has "generated" then
      [⟨at', "an origin carries exactly one of source and generated"⟩]
    else
      forbidExtra origin at' ["source", "generated"] ++
      if origin.has "source" then
        whenSome (origin.get "source") fun source => sourceLocusSchema source (child at' "source")
      else
        whenSome (origin.get "generated") fun generated =>
          generatedSchema generated (child at' "generated")

/-- `if let Some(origin) = node.get("origin") { .. }`. -/
def originMember (node : Json) (at' : String) : List Finding :=
  whenSome (node.get "origin") fun origin => originSchema origin (child at' "origin")

def extensionMembers : List String := ["identity", "version", "required", "capability", "payload"]

def extensionSchema (extension : Json) (at' : String) : List Finding :=
  expectObject extension at' "an extension" <|
    requireMembers extension at' ["identity", "version", "required", "payload"] ++
    forbidExtra extension at' extensionMembers ++
    identityMember extension at' "identity" ++
    expectShape (extension.get "version") (child at' "version") isSemver "a version is SemVer" ++
    expectBool (extension.get "required") (child at' "required") "required" ++
    expectString (extension.get "capability") (child at' "capability") 1 "a capability"

/-- `if let Some(extensions) = node.get("extensions") { extension_array(..) }`. -/
def extensionArray (node : Json) (at' : String) : List Finding :=
  each (node.get "extensions") (child at' "extensions") "extensions" extensionSchema

/-! ### Decimal policies and multiplicities -/

def decimalPolicySchema (policy : Json) (at' : String) : List Finding :=
  expectObject policy at' "a decimal policy" <|
    requireMembers policy at' ["precision", "scale"] ++
    forbidExtra policy at' ["precision", "scale"] ++
    expectInteger (policy.get "precision") (child at' "precision") 1
      "a decimal precision is a safe integer from 1 through 38" ++
    expectInteger (policy.get "scale") (child at' "scale") 0
      "a decimal scale is a safe non-negative integer" ++
    match policy.getI64 "precision" with
    | none => []
    | some precision =>
      pushIf (precision < 1 || 38 < precision) at' "a decimal precision is between 1 and 38" ++
      match policy.getI64 "scale" with
      | none => []
      | some scale =>
        pushIf (scale < 0 || 38 < scale || precision < scale) at'
          "a decimal scale is between zero and the precision"

/-- `if let Some(decimal) = node.get("decimal") { .. }`. -/
def decimalMember (node : Json) (at' : String) : List Finding :=
  whenSome (node.get "decimal") fun decimal => decimalPolicySchema decimal (child at' "decimal")

def multiplicityMembers : List String := ["lower", "upper", "ordered", "unique"]

def multiplicitySchema (multiplicity : Json) (at' : String) : List Finding :=
  expectObject multiplicity at' "a multiplicity" <|
    requireMembers multiplicity at' ["lower", "ordered", "unique"] ++
    forbidExtra multiplicity at' multiplicityMembers ++
    expectInteger (multiplicity.get "lower") (child at' "lower") 0
      "a lower bound is a non-negative integer" ++
    expectInteger (multiplicity.get "upper") (child at' "upper") 0
      "an upper bound is a non-negative integer" ++
    expectBool (multiplicity.get "ordered") (child at' "ordered") "ordered" ++
    expectBool (multiplicity.get "unique") (child at' "unique") "unique"

/-- `if let Some(multiplicity) = node.get("multiplicity") { .. }`. -/
def multiplicityMember (node : Json) (at' : String) : List Finding :=
  whenSome (node.get "multiplicity") fun multiplicity =>
    multiplicitySchema multiplicity (child at' "multiplicity")

/-! ### Constraints -/

def constraintMembers : List String :=
  ["identity", "keyword", "operands", "appliesTo", "diagnosticCode", "origin"]

def boundOperand (operands : Json) (at' : String) : List Finding :=
  forbidExtra operands at' ["value"] ++
  match operands.get "value" with
  | none => [⟨at', "this keyword takes a value operand"⟩]
  | some (.number _) => []
  | some (.str text) => pushIf (text == "") (child at' "value")
      "this keyword takes a number or a non-empty string operand"
  | some _ => [⟨child at' "value", "this keyword takes a number or a non-empty string operand"⟩]

def lengthOperand (operands : Json) (at' : String) : List Finding :=
  forbidExtra operands at' ["value"] ++
  match operands.get "value" with
  | none => [⟨at', "this keyword takes a value operand"⟩]
  | some value => expectInteger (some value) (child at' "value") 0
      "a length operand is a non-negative integer"

def patternOperands (operands : Json) (at' : String) : List Finding :=
  forbidExtra operands at' ["regex", "dialect"] ++
  requireMembers operands at' ["regex", "dialect"] ++
  expectString (operands.get "regex") (child at' "regex") 1 "a pattern operand" ++
  expectEnum (operands.get "dialect") (child at' "dialect") ["ecma-262"] "the pattern dialect"

def isEnumValue : Json → Bool
  | .str _ | .number _ | .bool _ => true
  | _ => false

def enumOperands (operands : Json) (at' : String) : List Finding :=
  forbidExtra operands at' ["values"] ++
  requireMembers operands at' ["values"] ++
  whenSome (operands.get "values") fun values =>
    let valuesAt := child at' "values"
    expectArray values valuesAt "enum values" fun items =>
      pushIf items.isEmpty valuesAt "enumValues carries at least one value" ++
      atItems items valuesAt fun value valueAt =>
        pushIf (!isEnumValue value) valueAt "an enum value is a string, a number or a boolean"

def formatOperand (operands : Json) (at' : String) : List Finding :=
  forbidExtra operands at' ["name"] ++
  requireMembers operands at' ["name"] ++
  expectShape (operands.get "name") (child at' "name") isNamespacedName
    "a format name is <ns>:<name>"

/-- What the keyword says of its operands; `constraintAt` is where the constraint stands. -/
def keywordOperands (keyword : String) (operands : Json) (at' constraintAt : String) :
    List Finding :=
  if ["min", "max", "exclusiveMin", "exclusiveMax"].contains keyword then boundOperand operands at'
  else if ["minLength", "maxLength"].contains keyword then lengthOperand operands at'
  else if keyword = "pattern" then patternOperands operands at'
  else if keyword = "enumValues" then enumOperands operands at'
  else if ["nonEmpty", "unique"].contains keyword then forbidExtra operands at' []
  else if keyword = "format" then formatOperand operands at'
  else [⟨constraintAt, "the constraint keyword vocabulary is closed and " ++ keyword ++
    " is not a member"⟩]

def constraintSchema (constraint : Json) (at' : String) : List Finding :=
  expectObject constraint at' "a constraint" <|
    requireMembers constraint at' constraintMembers ++
    forbidExtra constraint at' constraintMembers ++
    (["identity", "appliesTo"].flatMap fun name => identityMember constraint at' name) ++
    expectString (constraint.get "diagnosticCode") (child at' "diagnosticCode") 1
      "a diagnostic code" ++
    originMember constraint at' ++
    match constraint.getStr "keyword" with
    | none => [⟨at', "a constraint keyword is a member of the closed set"⟩]
    | some keyword =>
      let operandsAt := child at' "operands"
      match constraint.get "operands" with
      | none => []
      | some (.object members) => keywordOperands keyword (.object members) operandsAt at'
      | some _ => [⟨operandsAt, "constraint operands are an object"⟩]

/-- `if let Some(constraints) = node.get("constraints") { .. }`. -/
def constraintsMember (node : Json) (at' : String) : List Finding :=
  each (node.get "constraints") (child at' "constraints") "constraints" constraintSchema

/-! ### Fields -/

def fieldMembers : List String :=
  ["identity", "name", "typeRef", "decimal", "presence", "nullable", "defaultKind",
    "defaultValue", "origin", "extensions", "multiplicity", "unit", "subsets", "redefines",
    "textProfile", "constraints"]

def fieldRequired : List String :=
  ["identity", "name", "typeRef", "presence", "nullable", "defaultKind", "origin"]

/-- A member typed by a clock, a quantity, or an alias that reaches one. -/
def specialMemberShape (specialAliases : List String) (field : Json) : Bool :=
  (field.getStr "typeRef").any fun identity =>
    isSpecialTypeRef identity || specialAliases.contains identity

/-- A `defaultValue` stands beside every `defaultKind` but `none`. -/
def defaultSchema (field : Json) (at' : String) : List Finding :=
  match field.getStr "defaultKind" with
  | none => []
  | some kind =>
    if kind = "none" then
      pushIf (field.has "defaultValue") at'
        "a field whose defaultKind is none carries no defaultValue"
    else
      pushIf (!field.has "defaultValue") at'
        "a field whose defaultKind is not none carries a defaultValue"

def fieldSchema (specialAliases : List String) (field : Json) (at' : String) : List Finding :=
  expectObject field at' "a field" <|
    requireMembers field at' fieldRequired ++
    forbidExtra field at' fieldMembers ++
    decimalMember field at' ++
    identityList (field.get "subsets") (child at' "subsets") "subsets" ++
    identityMember field at' "redefines" ++
    pushIf (!field.has "multiplicity") at' "a field carries an explicit multiplicity" ++
    identityMember field at' "identity" ++
    identityMember field at' "typeRef" ++
    expectString (field.get "name") (child at' "name") 1 "a field name" ++
    expectEnum (field.get "presence") (child at' "presence") presences "presence" ++
    expectBool (field.get "nullable") (child at' "nullable") "nullable" ++
    expectEnum (field.get "defaultKind") (child at' "defaultKind") defaultKinds "defaultKind" ++
    (if specialMemberShape specialAliases field then [] else defaultSchema field at') ++
    originMember field at' ++
    extensionArray field at' ++
    multiplicityMember field at' ++
    expectShape (field.get "unit") (child at' "unit") isUnit
      "a unit is a non-empty run of printable ASCII" ++
    (if specialMemberShape specialAliases field then
      expectString (field.get "textProfile") (child at' "textProfile") 0 "a text profile string"
    else
      expectEnum (field.get "textProfile") (child at' "textProfile") textProfiles
        "textProfile") ++
    constraintsMember field at'

def variantMembers : List String := ["identity", "name", "payloadType", "origin"]

def variantSchema (variant : Json) (at' : String) : List Finding :=
  expectObject variant at' "a variant" <|
    requireMembers variant at' ["identity", "name", "origin"] ++
    forbidExtra variant at' variantMembers ++
    identityMember variant at' "identity" ++
    expectString (variant.get "name") (child at' "name") 1 "a variant name" ++
    identityMember variant at' "payloadType" ++
    originMember variant at'

/-! ### Ends and relationships -/

def connectionEnd (connection : Json) (at' : String) : List Finding :=
  expectObject connection at' "a connection end" <|
    requireMembers connection at' ["type"] ++
    forbidExtra connection at' ["type", "multiplicity"] ++
    identityMember connection at' "type" ++
    multiplicityMember connection at'

def relationshipEndSchema (relationshipEnd : Option Json) (at' : String)
    (required : List String) : List Finding :=
  match relationshipEnd with
  | none => [⟨at', "a relationship end is required"⟩]
  | some relationshipEnd =>
    expectObject relationshipEnd at' "a relationship end" <|
      requireMembers relationshipEnd at' required ++
      forbidExtra relationshipEnd at' ["role", "multiplicity", "type"] ++
      expectString (relationshipEnd.get "role") (child at' "role") 1 "a role" ++
      identityMember relationshipEnd at' "type" ++
      multiplicityMember relationshipEnd at'

def relationshipSourceEndSchema (relationshipEnd : Option Json) (at' : String) : List Finding :=
  relationshipEndSchema relationshipEnd at' ["role", "multiplicity", "type"]

def relationshipTargetEndSchema (relationshipEnd : Option Json) (at' : String) : List Finding :=
  relationshipEndSchema relationshipEnd at' ["multiplicity", "type"]

def relationshipMembers : List String :=
  ["identity", "category", "composite", "direction", "sourceEnd", "targetEnd", "origin"]

def relationshipSchema (relationship : Json) (at' : String) : List Finding :=
  expectObject relationship at' "a relationship" <|
    requireMembers relationship at' relationshipMembers ++
    forbidExtra relationship at' relationshipMembers ++
    identityMember relationship at' "identity" ++
    expectEnum (relationship.get "category") (child at' "category") categories
      "the edge category vocabulary" ++
    expectBool (relationship.get "composite") (child at' "composite") "composite" ++
    expectEnum (relationship.get "direction") (child at' "direction") relationshipDirections
      "the relationship direction vocabulary" ++
    relationshipSourceEndSchema (relationship.get "sourceEnd") (child at' "sourceEnd") ++
    relationshipTargetEndSchema (relationship.get "targetEnd") (child at' "targetEnd") ++
    originMember relationship at'

/-! ### Operations and clauses -/

def frameMembers : List String := ["modifies", "creates", "deletes"]

def frameReceiverMembers : List String :=
  ["modifies_receiver", "deletes_receiver", "deletes_parameters"]

/-- A frame reports an absent and an extra member at the member. -/
def frameSchema (frame : Json) (at' : String) : List Finding :=
  expectObject frame at' "a frame" <|
    (frameMembers.flatMap fun name =>
      pushIf (!frame.has name) (child at' name) ("a required member " ++ name ++ " is absent")) ++
    ((frame.asObject.getD []).flatMap fun m =>
      pushIf (!(frameMembers ++ frameReceiverMembers).contains m.1) (child at' m.1)
        (notAdmitted m.1)) ++
    (frameMembers.flatMap fun name => identityEntries (frame.get name) (child at' name) name) ++
    (["modifies_receiver", "deletes_parameters"].flatMap fun name =>
      stringList (frame.get name) (child at' name) name) ++
    expectBool (frame.get "deletes_receiver") (child at' "deletes_receiver") "deletes_receiver"

/-- The `text` and the `sourceSpan` of a clause. -/
def clauseBody (clause : Json) (at' : String) : List Finding :=
  (whenSome (clause.get "text") fun text =>
    pushIf text.asStr.isNone (child at' "text") "clause text is a string") ++
  (whenSome (clause.get "sourceSpan") fun span =>
    sourceLocusSchema span (child at' "sourceSpan")) ++
  originMember clause at'

def clauseLanguage (clause : Json) (at' : String) : List Finding :=
  expectShape (clause.get "language") (child at' "language") isClauseLanguage
    "a clause language is a core language or a namespaced name"

def inlineClauseSchema (clause : Json) (at' : String) : List Finding :=
  expectObject clause at' "an inline clause" <|
    requireMembers clause at' ["language", "text", "origin"] ++
    forbidExtra clause at' ["language", "text", "sourceSpan", "origin"] ++
    clauseLanguage clause at' ++
    clauseBody clause at'

/-- One `pre` or `post` item: a clause id, or an inline clause. -/
def contractItemSchema (item : Json) (at' : String) : List Finding :=
  match item with
  | .str text => expectString (some (.str text)) at' 1 "a clause id"
  | item => inlineClauseSchema item at'

def returnsSchema (returns : Json) (at' : String) : List Finding :=
  expectObject returns at' "a return" <|
    requireMembers returns at' ["typeRef", "multiplicity", "nullable"] ++
    forbidExtra returns at' ["typeRef", "decimal", "multiplicity", "nullable"] ++
    decimalMember returns at' ++
    identityMember returns at' "typeRef" ++
    expectBool (returns.get "nullable") (child at' "nullable") "nullable" ++
    multiplicityMember returns at'

def operationMembers : List String :=
  ["identity", "name", "params", "returns", "pre", "post", "origin", "redefines", "frame"]

def operationSchema (specialAliases : List String) (operation : Json) (at' : String) :
    List Finding :=
  expectObject operation at' "an operation" <|
    requireMembers operation at' ["identity", "name", "params", "pre", "post", "origin"] ++
    forbidExtra operation at' operationMembers ++
    identityMember operation at' "identity" ++
    expectString (operation.get "name") (child at' "name") 1 "an operation name" ++
    each (operation.get "params") (child at' "params") "params" (fieldSchema specialAliases) ++
    identityMember operation at' "redefines" ++
    (whenSome (operation.get "frame") fun frame => frameSchema frame (child at' "frame")) ++
    (["pre", "post"].flatMap fun name =>
      whenSome (operation.get name) fun bound => expectArray bound (child at' name) name
        fun items =>
          atItems items (child at' name) contractItemSchema ++
          pushIf (hasDuplicateItems items) (child at' name) (name ++ " entries are unique")) ++
    (whenSome (operation.get "returns") fun returns =>
      returnsSchema returns (child at' "returns")) ++
    originMember operation at'

def clauseMembers : List String :=
  ["identity", "language", "clauseId", "text", "sourceSpan", "origin"]

def clauseSchema (clause : Json) (at' : String) : List Finding :=
  expectObject clause at' "a clause" <|
    requireMembers clause at' ["identity", "language", "clauseId", "text", "origin"] ++
    forbidExtra clause at' clauseMembers ++
    identityMember clause at' "identity" ++
    clauseLanguage clause at' ++
    expectString (clause.get "clauseId") (child at' "clauseId") 1 "a clause id" ++
    clauseBody clause at'

/-! ### Occurrences -/

def occurrenceMembers : List String := ["identity", "definition", "observedAt", "value"]

def occurrenceSchema (occurrence : Json) (at' : String) : List Finding :=
  expectObject occurrence at' "an occurrence" <|
    requireMembers occurrence at' occurrenceMembers ++
    forbidExtra occurrence at' occurrenceMembers ++
    (["identity", "definition"].flatMap fun name => identityMember occurrence at' name) ++
    whenSome (occurrence.get "observedAt") fun observed =>
      pushIf observed.asStr.isNone (child at' "observedAt") "observedAt is a date-time string"

/-! ### Construct lists -/

/-- An object with `required` members, `extras`, an identity, an optional name and an
origin. -/
def namedNode (node : Json) (at' : String) (required extras : List String) (what : String)
    (walk : List Finding) : List Finding :=
  expectObject node at' what <|
    requireMembers node at' required ++
    forbidExtra node at' (required ++ extras) ++
    identityMember node at' "identity" ++
    expectString (node.get "name") (child at' "name") 1 "a name" ++
    originMember node at' ++
    walk

def stateSchema (state : Json) (at' : String) : List Finding :=
  namedNode state at' ["identity", "name", "origin"] [] "a state" []

def transitionSchema (transition : Json) (at' : String) : List Finding :=
  namedNode transition at' ["identity", "from", "to", "trigger", "emits", "origin"] ["guard"]
    "a transition" <|
    (["from", "to", "trigger"].flatMap fun name => identityMember transition at' name) ++
    expectString (transition.get "guard") (child at' "guard") 1 "a guard clause id" ++
    identityList (transition.get "emits") (child at' "emits") "emits"

def stepSchema (step : Json) (at' : String) : List Finding :=
  namedNode step at' ["identity", "name", "stepKind", "consumes", "emits", "origin"] [] "a step" <|
    expectEnum (step.get "stepKind") (child at' "stepKind") stepKinds
      "the step kind vocabulary" ++
    ["consumes", "emits"].flatMap fun name => identityList (step.get name) (child at' name) name

def positionMembers : List String := ["identity", "typeRef", "origin"]

def positionSchema (position : Json) (at' : String) : List Finding :=
  expectObject position at' "a position" <|
    requireMembers position at' positionMembers ++
    forbidExtra position at' positionMembers ++
    (["identity", "typeRef"].flatMap fun name => identityMember position at' name) ++
    originMember position at'

def termSchema (term : Json) (at' : String) : List Finding :=
  expectObject term at' "a term" <|
    requireMembers term at' ["term", "doc", "origin"] ++
    forbidExtra term at' ["term", "doc", "origin"] ++
    expectString (term.get "term") (child at' "term") 1 "a term" ++
    (whenSome (term.get "doc") fun doc =>
      pushIf doc.asStr.isNone (child at' "doc") "a term's doc is a string") ++
    originMember term at'

def constructLists (definition : Json) (at' : String) : List Finding :=
  [("states", stateSchema), ("transitions", transitionSchema), ("steps", stepSchema),
    ("positions", positionSchema), ("vocabulary", termSchema)].flatMap fun list =>
    each (definition.get list.1) (child at' list.1) list.1 list.2

end FilamentCore.SemanticIr
