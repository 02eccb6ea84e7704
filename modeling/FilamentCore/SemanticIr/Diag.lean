import FilamentCore.SemanticIr.Json

/-!
# Diagnostics and pointers (crates/semantic-ir/src/diag.rs)

The codes the reader raises, the diagnostic record, JSON pointers, and the rules that
decide the `owner` and the `locus` of a diagnostic.
-/

namespace FilamentCore.SemanticIr

/-! ### Codes -/

inductive Code where
  | invalidDocument | schemaViolation
  | invalidMultiplicity | unitOnNonScalar | unresolvedTypeRef | unresolvedElementType
  | unresolvedVariantPayload | unresolvedPositionType | invalidOptionInner
  | unresolvedOptionInner | invalidOptionPresence | unresolvedOccurrenceDefinition
  | aliasCycle | depthLimitExceeded | duplicateIdentity | duplicateFieldName
  | duplicateParam | duplicateClauseId | danglingClauseRef | missingSourceSpan
  | constraintNotApplicable | decimalPolicyMissing | decimalPolicyConflict
  | invalidOperand | invalidPattern | unresolvedRelationshipTarget
  | invalidRelationshipSource | compositeCycle | unresolvedImport | packageCycle
  | unknownMappingTarget | undeclaredLoss | unknownRequiredExtension
  | invalidClockMember | invalidQuantityMember | inexactInteger | inexactNumber
  | integerOutsideI128 | invalidDefaultValue
  | unresolvedConstructRef | constructTargetKind | invalidOccurrenceField
  | supertypeCycle | unresolvedFeatureRef | invalidRedefinition | unresolvedFramePath
  | multipleDomainMembership | clauseLanguageUnchecked | incompleteFeatureOrder
  | invalidTuple | invalidTuplePosition
  | invalidUnitGraph | unresolvedDimensionRef | unresolvedUnitRef
  deriving DecidableEq, Repr

/-- The name below `agent-ix.semantic-ir.`. -/
def Code.name : Code → String
  | .invalidDocument => "INVALID_DOCUMENT"
  | .schemaViolation => "SCHEMA_VIOLATION"
  | .invalidMultiplicity => "INVALID_MULTIPLICITY"
  | .unitOnNonScalar => "UNIT_ON_NON_SCALAR"
  | .unresolvedTypeRef => "UNRESOLVED_TYPE_REF"
  | .unresolvedElementType => "UNRESOLVED_ELEMENT_TYPE"
  | .unresolvedVariantPayload => "UNRESOLVED_VARIANT_PAYLOAD"
  | .unresolvedPositionType => "UNRESOLVED_POSITION_TYPE"
  | .invalidOptionInner => "INVALID_OPTION_INNER"
  | .unresolvedOptionInner => "UNRESOLVED_OPTION_INNER"
  | .invalidOptionPresence => "INVALID_OPTION_PRESENCE"
  | .unresolvedOccurrenceDefinition => "UNRESOLVED_OCCURRENCE_DEFINITION"
  | .aliasCycle => "ALIAS_CYCLE"
  | .depthLimitExceeded => "DEPTH_LIMIT_EXCEEDED"
  | .duplicateIdentity => "DUPLICATE_IDENTITY"
  | .duplicateFieldName => "DUPLICATE_FIELD_NAME"
  | .duplicateParam => "DUPLICATE_PARAM"
  | .duplicateClauseId => "DUPLICATE_CLAUSE_ID"
  | .danglingClauseRef => "DANGLING_CLAUSE_REF"
  | .missingSourceSpan => "MISSING_SOURCE_SPAN"
  | .constraintNotApplicable => "CONSTRAINT_NOT_APPLICABLE"
  | .decimalPolicyMissing => "DECIMAL_POLICY_MISSING"
  | .decimalPolicyConflict => "DECIMAL_POLICY_CONFLICT"
  | .invalidOperand => "INVALID_OPERAND"
  | .invalidPattern => "INVALID_PATTERN"
  | .unresolvedRelationshipTarget => "UNRESOLVED_RELATIONSHIP_TARGET"
  | .invalidRelationshipSource => "INVALID_RELATIONSHIP_SOURCE"
  | .compositeCycle => "COMPOSITE_CYCLE"
  | .unresolvedImport => "UNRESOLVED_IMPORT"
  | .packageCycle => "PACKAGE_CYCLE"
  | .unknownMappingTarget => "UNKNOWN_MAPPING_TARGET"
  | .undeclaredLoss => "UNDECLARED_LOSS"
  | .unknownRequiredExtension => "UNKNOWN_REQUIRED_EXTENSION"
  | .invalidClockMember => "INVALID_CLOCK_MEMBER"
  | .invalidQuantityMember => "INVALID_QUANTITY_MEMBER"
  | .inexactInteger => "INEXACT_INTEGER"
  | .inexactNumber => "INEXACT_NUMBER"
  | .integerOutsideI128 => "INTEGER_OUTSIDE_I128"
  | .invalidDefaultValue => "INVALID_DEFAULT_VALUE"
  | .unresolvedConstructRef => "UNRESOLVED_CONSTRUCT_REF"
  | .constructTargetKind => "CONSTRUCT_TARGET_KIND"
  | .invalidOccurrenceField => "INVALID_OCCURRENCE_FIELD"
  | .supertypeCycle => "SUPERTYPE_CYCLE"
  | .unresolvedFeatureRef => "UNRESOLVED_FEATURE_REF"
  | .invalidRedefinition => "INVALID_REDEFINITION"
  | .unresolvedFramePath => "UNRESOLVED_FRAME_PATH"
  | .multipleDomainMembership => "MULTIPLE_DOMAIN_MEMBERSHIP"
  | .clauseLanguageUnchecked => "CLAUSE_LANGUAGE_UNCHECKED"
  | .incompleteFeatureOrder => "INCOMPLETE_FEATURE_ORDER"
  | .invalidTuple => "INVALID_TUPLE"
  | .invalidTuplePosition => "INVALID_TUPLE_POSITION"
  | .invalidUnitGraph => "INVALID_UNIT_GRAPH"
  | .unresolvedDimensionRef => "UNRESOLVED_DIMENSION_REF"
  | .unresolvedUnitRef => "UNRESOLVED_UNIT_REF"

def Code.text (c : Code) : String := "agent-ix.semantic-ir." ++ c.name

inductive Severity where
  | info
  | warning
  | error
  deriving DecidableEq, Repr

structure Located where
  pointer : String
  code : Code
  severity : Severity
  message : String
  owner : String
  blocking : Bool
  locus : Option Json
  deriving DecidableEq

/-! ### Characters -/

def isLower (c : Char) : Bool := 'a' ≤ c && c ≤ 'z'
def isUpper (c : Char) : Bool := 'A' ≤ c && c ≤ 'Z'
def isAlpha (c : Char) : Bool := isLower c || isUpper c
def isAlphanumeric (c : Char) : Bool := isAlpha c || isAsciiDigit c
def isLowerOrDigit (c : Char) : Bool := isLower c || isAsciiDigit c

/-- A text whose first character meets `first` and every character meets `rest`. -/
def startsAndRuns (first rest : Char → Bool) (cs : List Char) : Bool :=
  cs.head?.any first && cs.all rest

/-- `text.strip_prefix(head)` over characters. -/
def stripPrefix : List Char → List Char → Option (List Char)
  | [], cs => some cs
  | _ :: _, [] => none
  | h :: hs, c :: cs => if h = c then stripPrefix hs cs else none

def splitOnce (separator : Char) : List Char → Option (List Char × List Char)
  | [] => none
  | c :: cs =>
    if c = separator then some ([], cs)
    else (splitOnce separator cs).map fun p => (c :: p.1, p.2)

/-- `text.split(separator)`. -/
def splitOn (separator : Char) : List Char → List (List Char)
  | [] => [[]]
  | c :: cs =>
    if c = separator then [] :: splitOn separator cs
    else match splitOn separator cs with
      | [] => [[c]]
      | s :: ss => (c :: s) :: ss

/-! ### Pointers -/

def escapeToken (c : Char) : List Char :=
  if c = '~' then ['~', '0'] else if c = '/' then ['~', '1'] else [c]

/-- `token(raw)`: one RFC 6901 reference token. -/
def token (raw : String) : String := String.ofList (raw.toList.flatMap escapeToken)

def child (pointer raw : String) : String := pointer ++ "/" ++ token raw

def index (pointer : String) (at' : ℕ) : String := pointer ++ "/" ++ toString at'

/-- `part.replace("~1", "/")`. -/
def unescapeSlash : List Char → List Char
  | '~' :: '1' :: cs => '/' :: unescapeSlash cs
  | c :: cs => c :: unescapeSlash cs
  | [] => []

/-- `part.replace("~0", "~")`. -/
def unescapeTilde : List Char → List Char
  | '~' :: '0' :: cs => '~' :: unescapeTilde cs
  | c :: cs => c :: unescapeTilde cs
  | [] => []

/-- `split(pointer)`: the reference tokens. -/
def split (pointer : String) : List String :=
  if pointer = "" then []
  else (splitOn '/' pointer.toList).tail.map fun part =>
    String.ofList (unescapeTilde (unescapeSlash part))

/-- `part.parse::<usize>()`. -/
def parseUsize (part : String) : Option ℕ :=
  let digits := match part.toList with
    | '+' :: ds => ds
    | ds => ds
  if digits = [] ∨ ¬ digits.all isAsciiDigit ∨ 2 ^ 64 ≤ decimalValue digits then none
  else some (decimalValue digits)

def step (node : Json) (part : String) : Option Json :=
  match node with
  | .object _ => node.get part
  | .array items => (parseUsize part).bind fun at' => items[at']?
  | _ => none

/-- The nodes `parts` walk through from `node`, deepest last. -/
def chainFrom (node : Json) : List String → List Json
  | [] => [node]
  | part :: parts =>
    match step node part with
    | none => [node]
    | some next => node :: chainFrom next parts

def chain (root : Json) (pointer : String) : List Json := chainFrom root (split pointer)

/-! ### Owners and loci -/

/-- `ix://`, an owner of lower-case letters, digits and `._-`, and a name of letters, digits
and `._~:-` and slashes, neither of which starts with punctuation. -/
def isSemanticIdentity (text : String) : Bool :=
  match (stripPrefix "ix://".toList text.toList).bind (splitOnce '/') with
  | none => false
  | some (owner, name) =>
    startsAndRuns isLowerOrDigit
        (fun c => isLowerOrDigit c || c == '.' || c == '_' || c == '-') owner &&
      startsAndRuns isAlphanumeric
        (fun c => isAlphanumeric c || c == '.' || c == '_' || c == '~' || c == ':' || c == '/' ||
          c == '-') name

/-- `is_relative_path`, and `is_relative_locus_path` of the schema layer. -/
def isRelativePath (path : String) : Bool :=
  let cs := path.toList
  let drive := match cs with
    | c :: ':' :: _ => isAlpha c
    | _ => false
  !(cs.isEmpty || cs.contains (Char.ofNat 0) || cs.contains '\\' || cs.head? == some '/' ||
    drive || (splitOn '/' cs).contains ['.', '.'])

def countsFromOne (value : Json) (name : String) : Bool :=
  (value.getI64 name).any fun line => 1 ≤ line

def isSourceLocus (value : Json) : Bool :=
  match value.asObject with
  | none => false
  | some members =>
    members.all (fun m => ["sourceIdentity", "path", "startLine", "startColumn", "endLine",
        "endColumn"].contains m.1) &&
      (value.getStr "sourceIdentity").any isSemanticIdentity &&
      (value.getStr "path").any isRelativePath &&
      ["startLine", "startColumn"].all (countsFromOne value) &&
      ["endLine", "endColumn"].all fun name => !value.has name || countsFromOne value name

/-- The identity a diagnostic carries when no declaration owns its node. -/
def oracleOwner : String := "ix://agent-ix/filament-core-data/conformance/oracle"

def ownerFor (root : Json) (pointer : String) : String :=
  ((chain root pointer).reverse.findSome? fun node =>
    (node.getStr "identity").filter isSemanticIdentity).getD oracleOwner

def locusFor (root : Json) (pointer : String) : Option Json :=
  (chain root pointer).reverse.findSome? fun node =>
    ((node.get "origin").bind (·.get "source")).filter isSourceLocus

end FilamentCore.SemanticIr
