import FilamentCore.Library.OrderedMap
import FilamentCore.Library.Sifting
import FilamentCore.SemanticIr.Vocabulary

/-!
# The bundle-wide construct pass (crates/extraction-frontend/src/constructs.rs)

Owners are assigned to the lowered artifacts, and the artifacts a rule refuses are dropped,
round after round, until a round refuses none.
-/

namespace FilamentCore.Frontend
open FilamentCore.Library
open FilamentCore.SemanticIr (Declaration Presence Member Rule)

/-! ### Diagnostics (crates/extraction-frontend/src/diagnostics.rs) -/

inductive Severity where
  | info | warning | error
  deriving DecidableEq, Repr

inductive SemanticSeverity where
  | advisory | warning | error
  deriving DecidableEq, Repr

/-- An engine severity: `advisory` is `info`. -/
def Severity.fromEngine : SemanticSeverity → Severity
  | .advisory => .info
  | .warning => .warning
  | .error => .error

inductive NotLoweredReason where
  | legacyForm | other
  deriving DecidableEq, Repr

inductive Disposition where
  | frontend
  | engine (severity : SemanticSeverity)
  | notLowered (reason : NotLoweredReason)
  deriving DecidableEq, Repr

inductive Code where
  | moduleWithoutSemanticBlock | moduleRefused | bundleUnidentified | duplicateArtifactId
  | unknownObjectType | unresolvedTypeToken | staleTypeToken | importUnsupported
  | kernelNameShadowed | unnameableArtifact | artifactNotLowered | duplicateTypeName
  | duplicateIdentity | duplicateConstraint | constraintNotApplicable | decimalPolicyMissing
  | declaredLoss | unresolvedRelationshipTarget | unknownEdgeVerb | unsluggableName
  | outputUnwritable | limitMaxDocuments | limitMaxDocumentBytes | limitMaxFieldsPerRecord
  | limitMaxClauseBytes | limitMaxDepth | engineDiagnostic | invalidIr
  deriving DecidableEq, Repr

def Code.severity : Code → Disposition → Severity
  | .declaredLoss, _ => .info
  | .kernelNameShadowed, _ => .warning
  | .artifactNotLowered, .notLowered .legacyForm => .warning
  | .engineDiagnostic, .engine severity => .fromEngine severity
  | _, _ => .error

def Code.blocking : Code → Disposition → Bool
  | .declaredLoss, _ | .kernelNameShadowed, _ => false
  | .artifactNotLowered, .notLowered .legacyForm => false
  | .engineDiagnostic, .engine severity => Severity.fromEngine severity == .error
  | _, _ => true

structure Locus where
  sourceIdentity : String
  path : String
  startLine : ℕ
  startColumn : ℕ
  deriving DecidableEq, Repr

structure Diagnostic where
  code : Code
  severity : Severity
  message : String
  owner : String
  locus : Option Locus
  blocking : Bool
  deriving DecidableEq, Repr

def diagnosticOwner : String := "ix://agent-ix/filament-core-data/extraction-frontend"

def Diagnostic.withDisposition (code : Code) (disposition : Disposition) (message : String)
    (locus : Option Locus) : Diagnostic :=
  { code, severity := code.severity disposition, message, owner := diagnosticOwner, locus,
    blocking := code.blocking disposition }

def refusal (id path object rule : String) (head : Locus) : Diagnostic :=
  .withDisposition .artifactNotLowered (.notLowered .other)
    ("artifact " ++ id ++ " (" ++ path ++ ") lowers to no `" ++ object ++ "` construct: " ++ rule)
    (some head)

/-! ### Lowered artifacts -/

structure RelationshipEnd where
  role : Option String
  typeRef : String
  deriving DecidableEq, Repr

structure Relationship where
  composite : Bool
  sourceEnd : RelationshipEnd
  targetEnd : RelationshipEnd
  deriving DecidableEq, Repr

structure Operation where
  identity : String
  deriving DecidableEq, Repr

structure Transition where
  emits : List String
  deriving DecidableEq, Repr

structure Step where
  consumes : List String
  emits : List String
  deriving DecidableEq, Repr

structure ConnectionEnd where
  typeRef : String
  deriving DecidableEq, Repr

structure ConstructMembers where
  owner : Option String
  transitions : Option (List Transition)
  steps : Option (List Step)
  supertypes : Option (List String)
  interfaceType : Option String
  declaredType : Option String
  sourceEnd : Option ConnectionEnd
  targetEnd : Option ConnectionEnd
  sourceElement : Option String
  targetElement : Option String
  sourceElementIsOperation : Bool
  deriving DecidableEq, Repr

structure TypeDefinition where
  identity : String
  roles : List String
  relationships : Option (List Relationship)
  operations : Option (List Operation)
  construct : ConstructMembers
  deriving DecidableEq, Repr

structure Lowering where
  definition : TypeDefinition
  diagnostics : List Diagnostic
  deriving DecidableEq, Repr

structure Construct where
  declaration : Declaration
  deriving DecidableEq, Repr

/-- One lowered artifact awaiting the bundle-wide pass. -/
structure Pending where
  id : String
  path : String
  object : String
  head : Locus
  lowering : Lowering
  construct : Option Construct
  ownerFromModel : Bool
  deriving DecidableEq, Repr

def relationships (definition : TypeDefinition) : List Relationship :=
  definition.relationships.getD []

def operations (definition : TypeDefinition) : List Operation := definition.operations.getD []

def forbids (declaration : Declaration) (member : Member) : Bool :=
  declaration.presence member == .forbidden

namespace Pending

def definition (item : Pending) : TypeDefinition := item.lowering.definition

def identity (item : Pending) : String := item.definition.identity

def owner (item : Pending) : Option String := item.definition.construct.owner

def setOwner (item : Pending) (owner : String) : Pending :=
  { item with lowering.definition.construct.owner := some owner }

end Pending

/-! ### Owners -/

/-- One type whose composite relationship targets another. -/
structure Owner where
  identity : String
  roles : List String
  deriving DecidableEq, Repr

def addOwner (definition : TypeDefinition) (owners : OrderedMap String (List Owner))
    (edge : Relationship) : OrderedMap String (List Owner) :=
  let list := (owners.get edge.targetEnd.typeRef).getD []
  owners.set edge.targetEnd.typeRef <|
    if list.any fun owner => owner.identity == definition.identity then list
    else list ++ [⟨definition.identity, definition.roles⟩]

/-- Every composite target, with the types whose composite relationships target it. -/
def compositeOwners (pending : List Pending) : OrderedMap String (List Owner) :=
  pending.foldl (fun owners item =>
    ((relationships item.definition).filter (·.composite)).foldl (addOwner item.definition) owners)
    .empty

/-! ### The rules -/

/-- The reference members that name a type, an owner the model gives among them. -/
def typeRefs (item : Pending) : List String :=
  let construct := item.definition.construct
  (construct.transitions.getD []).flatMap (·.emits)
    ++ (construct.steps.getD []).flatMap (fun s => s.consumes ++ s.emits)
    ++ construct.supertypes.getD []
    ++ (if item.ownerFromModel then construct.owner.toList else [])
    ++ construct.declaredType.toList
    ++ construct.interfaceType.toList
    ++ (construct.sourceEnd.map (·.typeRef)).toList
    ++ (construct.targetEnd.map (·.typeRef)).toList
    ++ construct.targetElement.toList

def droppedTarget (edge : Relationship) : String :=
  "its `" ++ edge.sourceEnd.role.getD "" ++ "` relationship targets " ++ edge.targetEnd.typeRef
    ++ ", which lowers to nothing"

def droppedReference (noun target : String) : String :=
  "a transition, step or reference member names the " ++ noun ++ " " ++ target
    ++ ", which lowers to nothing"

def notSingle (found : ℕ) : String :=
  toString found ++ " types contain it, and the construct has exactly one owner"

/-- The types that contain `item` and carry a role its declaration admits for `owner`. -/
def foundOwners (item : Pending) (declaration : Declaration)
    (owners : OrderedMap String (List Owner)) : List Owner :=
  ((owners.get item.identity).getD []).filter fun owner =>
    match declaration.roles .owner with
    | none => true
    | some admitted => owner.roles.any fun role => admitted.contains role

/-- The end of the pass over one artifact: its composite owner. -/
def ownerRule (item : Pending) (owners : OrderedMap String (List Owner)) : Except String Pending :=
  match item.construct with
  | none => .ok item
  | some ⟨declaration⟩ =>
    if forbids declaration .owner then .ok item
    else
      match foundOwners item declaration owners with
      | [owner] => .ok (item.setOwner owner.identity)
      | [] =>
        if declaration.presence .owner == .optional && !declaration.hasRule .singleOwner then .ok item
        else .error (notSingle 0)
      | found => .error (notSingle found.length)

/-- The artifact with its owner assigned, or the rule it breaks this round. -/
def refusalRule (owners : OrderedMap String (List Owner)) (refused lowered operations : Finset String)
    (item : Pending) : Except String Pending :=
  let construct := item.definition.construct
  match (relationships item.definition).find? (fun r => decide (r.targetEnd.typeRef ∈ refused)) with
  | some edge => .error (droppedTarget edge)
  | none =>
    match (typeRefs item).find? (fun t => decide (t ∉ lowered)) with
    | some target => .error (droppedReference "type" target)
    | none =>
      match construct.sourceElement.filter (fun t => decide (t ∉ lowered ∧ t ∉ operations)) with
      | some target =>
        .error (droppedReference (if construct.sourceElementIsOperation then "operation" else "type")
          target)
      | none => if item.ownerFromModel then .ok item else ownerRule item owners

/-! ### Rounds -/

def loweredIdentities (pending : List Pending) : Finset String :=
  (pending.map (·.identity)).toFinset

def operationIdentities (pending : List Pending) : Finset String :=
  (pending.flatMap fun item => (operations item.definition).map (·.identity)).toFinset

def review (pending : List Pending) (refused : Finset String) : Pending → Except String Pending :=
  refusalRule (compositeOwners pending) refused (loweredIdentities pending)
    (operationIdentities pending)

def noteRefused (refused : Finset String) (round : List (Pending × String)) : Finset String :=
  refused ∪ (round.map fun e => e.1.identity).toFinset

/-- A refused artifact's own diagnostics, before its refusal. -/
def report (e : Pending × String) : List Diagnostic :=
  e.1.lowering.diagnostics ++ [refusal e.1.id e.1.path e.1.object e.2 e.1.head]

/-- The artifacts the pass keeps, and the diagnostics of those it refuses. -/
def assignOwners (pending : List Pending) (refused : Finset String) :
    List Pending × List Diagnostic :=
  let settled := Sifting.run review noteRefused pending refused
  (settled.1, settled.2.flatMap report)

end FilamentCore.Frontend
