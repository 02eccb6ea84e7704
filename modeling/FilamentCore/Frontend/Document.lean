import FilamentCore.Frontend.Owners
import FilamentCore.SemanticIr.Normalize

/-!
# The assembled document (crates/extraction-frontend/src/{lower,edges,clauses,constructs}.rs,
document.rs, canonical.rs)

The nodes of a lift as `serde_json` serializes them, the document `assemble` makes of them, and its
canonical bytes. A value of `serde_json` is a JSON value whose numbers stand as they are displayed;
what the engine serializes itself (multiplicities, decimal policies, edge categories) is a value.
-/

namespace FilamentCore.Frontend.Document
open FilamentCore.SemanticIr
open FilamentCore.SemanticIr.Json

/-! ### Serialized members -/

/-- A member that is skipped when it is none. -/
def optional (name : String) (value : Option Json) : List (String × Json) :=
  (value.map fun value => (name, value)).toList

def strings (texts : List String) : Json := array (texts.map str)

/-- A `usize`: every one is in the range of the numbers. -/
def count (n : ℕ) : Json :=
  if h : (readNumber (toString n)).isSome = true then number ⟨toString n, h⟩ else null

def listed {α : Type} (toValue : α → Json) (nodes : Option (List α)) : Option Json :=
  nodes.map fun nodes => array (nodes.map toValue)

/-! ### Nodes -/

def locusValue (locus : Locus) : Json :=
  object [("sourceIdentity", str locus.sourceIdentity), ("path", str locus.path),
    ("startLine", count locus.startLine), ("startColumn", count locus.startColumn)]

/-- `Origin::Source`. -/
def originValue (origin : Locus) : Json := object [("source", locusValue origin)]

structure Extension where
  identity : String
  version : String
  required : Bool
  payload : Json

def Extension.toValue (e : Extension) : Json :=
  object [("identity", str e.identity), ("version", str e.version), ("required", bool e.required),
    ("payload", e.payload)]

structure ConstraintNode where
  identity : String
  keyword : String
  operands : List (String × Json)
  appliesTo : String
  diagnosticCode : String
  origin : Locus

def ConstraintNode.toValue (c : ConstraintNode) : Json :=
  object [("identity", str c.identity), ("keyword", str c.keyword), ("operands", object c.operands),
    ("appliesTo", str c.appliesTo), ("diagnosticCode", str c.diagnosticCode),
    ("origin", originValue c.origin)]

inductive FieldPresence where
  | required | optional

def FieldPresence.toValue : FieldPresence → Json
  | required => str "required"
  | optional => str "optional"

structure Field where
  identity : String
  name : String
  typeRef : String
  decimal : Option Json
  presence : FieldPresence
  nullable : Bool
  origin : Locus
  extensions : List Extension
  multiplicity : Json
  unit : Option String
  constraints : List ConstraintNode

/-- `defaultKind` is always `none`; `constraints` is skipped when it is empty. -/
def Field.toValue (f : Field) : Json :=
  object ([("identity", str f.identity), ("name", str f.name), ("typeRef", str f.typeRef),
    ("presence", f.presence.toValue), ("nullable", bool f.nullable), ("defaultKind", str "none"),
    ("origin", originValue f.origin),
    ("extensions", array (f.extensions.map Extension.toValue)),
    ("multiplicity", f.multiplicity)] ++
    optional "decimal" f.decimal ++ optional "unit" (f.unit.map str) ++
    if f.constraints = [] then []
    else [("constraints", array (f.constraints.map ConstraintNode.toValue))])

structure Variant where
  identity : String
  name : String
  payloadType : Option String
  origin : Locus

def Variant.toValue (v : Variant) : Json :=
  object ([("identity", str v.identity), ("name", str v.name), ("origin", originValue v.origin)] ++
    optional "payloadType" (v.payloadType.map str))

structure Position where
  identity : String
  typeRef : String
  origin : Locus

def Position.toValue (p : Position) : Json :=
  object [("identity", str p.identity), ("typeRef", str p.typeRef),
    ("origin", originValue p.origin)]

structure RelationshipEnd where
  role : Option String
  multiplicity : Json
  typeRef : String

def RelationshipEnd.toValue (e : RelationshipEnd) : Json :=
  object (optional "role" (e.role.map str) ++
    [("multiplicity", e.multiplicity), ("type", str e.typeRef)])

inductive Direction where
  | sourceToTarget | targetToSource | bidirectional | undirected

def Direction.toValue : Direction → Json
  | sourceToTarget => str "source-to-target"
  | targetToSource => str "target-to-source"
  | bidirectional => str "bidirectional"
  | undirected => str "undirected"

structure Relationship where
  identity : String
  category : Json
  composite : Bool
  direction : Direction
  sourceEnd : RelationshipEnd
  targetEnd : RelationshipEnd
  origin : Locus

def Relationship.toValue (r : Relationship) : Json :=
  object [("identity", str r.identity), ("category", r.category), ("composite", bool r.composite),
    ("direction", r.direction.toValue), ("sourceEnd", r.sourceEnd.toValue),
    ("targetEnd", r.targetEnd.toValue), ("origin", originValue r.origin)]

structure SourceSpan where
  start : Locus
  endLine : Option ℕ
  endColumn : Option ℕ

def SourceSpan.toValue (s : SourceSpan) : Json :=
  object ([("sourceIdentity", str s.start.sourceIdentity), ("path", str s.start.path),
    ("startLine", count s.start.startLine), ("startColumn", count s.start.startColumn)] ++
    optional "endLine" (s.endLine.map count) ++ optional "endColumn" (s.endColumn.map count))

structure Clause where
  identity : String
  language : String
  clauseId : String
  text : String
  sourceSpan : SourceSpan
  origin : Locus

def Clause.toValue (c : Clause) : Json :=
  object [("identity", str c.identity), ("language", str c.language), ("clauseId", str c.clauseId),
    ("text", str c.text), ("sourceSpan", c.sourceSpan.toValue), ("origin", originValue c.origin)]

structure Returns where
  typeRef : String
  decimal : Option Json
  multiplicity : Json
  nullable : Bool

def Returns.toValue (r : Returns) : Json :=
  object ([("typeRef", str r.typeRef), ("multiplicity", r.multiplicity),
    ("nullable", bool r.nullable)] ++ optional "decimal" r.decimal)

structure Operation where
  identity : String
  name : String
  params : List Field
  returns : Option Returns
  pre : List String
  post : List String
  origin : Locus

def Operation.toValue (o : Operation) : Json :=
  object ([("identity", str o.identity), ("name", str o.name),
    ("params", array (o.params.map Field.toValue)), ("pre", strings o.pre),
    ("post", strings o.post), ("origin", originValue o.origin)] ++
    optional "returns" (o.returns.map Returns.toValue))

/-! ### Construct members -/

structure State where
  identity : String
  name : String
  origin : Locus

def State.toValue (s : State) : Json :=
  object [("identity", str s.identity), ("name", str s.name), ("origin", originValue s.origin)]

structure Transition where
  identity : String
  source : String
  target : String
  trigger : String
  guard : Option String
  emits : List String
  origin : Locus

def Transition.toValue (t : Transition) : Json :=
  object ([("identity", str t.identity), ("from", str t.source), ("to", str t.target),
    ("trigger", str t.trigger), ("emits", strings t.emits), ("origin", originValue t.origin)] ++
    optional "guard" (t.guard.map str))

inductive StepKind where
  | command | event | decision | compensation | wait

def StepKind.toValue : StepKind → Json
  | command => str "command"
  | event => str "event"
  | decision => str "decision"
  | compensation => str "compensation"
  | wait => str "wait"

structure Step where
  identity : String
  name : String
  stepKind : StepKind
  consumes : List String
  emits : List String
  origin : Locus

def Step.toValue (s : Step) : Json :=
  object [("identity", str s.identity), ("name", str s.name), ("stepKind", s.stepKind.toValue),
    ("consumes", strings s.consumes), ("emits", strings s.emits), ("origin", originValue s.origin)]

structure Term where
  term : String
  doc : String
  origin : Locus

def Term.toValue (t : Term) : Json :=
  object [("term", str t.term), ("doc", str t.doc), ("origin", originValue t.origin)]

inductive PortDirection where
  | input | output | inout

def PortDirection.toValue : PortDirection → Json
  | input => str "in"
  | output => str "out"
  | inout => str "inout"

inductive FlowDirection where
  | sourceToTarget | targetToSource | bidirectional

def FlowDirection.toValue : FlowDirection → Json
  | sourceToTarget => str "source-to-target"
  | targetToSource => str "target-to-source"
  | bidirectional => str "bidirectional"

structure ConnectionEnd where
  typeRef : String
  multiplicity : Option Json

def ConnectionEnd.toValue (e : ConnectionEnd) : Json :=
  object ([("type", str e.typeRef)] ++ optional "multiplicity" e.multiplicity)

structure ConstructMembers where
  identityFields : Option (List String)
  owner : Option String
  members : Option (List String)
  occurrenceField : Option String
  states : Option (List State)
  transitions : Option (List Transition)
  steps : Option (List Step)
  persists : Option (List String)
  vocabulary : Option (List Term)
  supertypes : Option (List String)
  isAbstract : Option Bool
  direction : Option PortDirection
  interfaceType : Option String
  multiplicity : Option Json
  declaredType : Option String
  flowDirection : Option FlowDirection
  sourceEnd : Option ConnectionEnd
  targetEnd : Option ConnectionEnd
  sourceElement : Option String
  targetElement : Option String
  featureOrder : Option (List String)

def ConstructMembers.toMembers (c : ConstructMembers) : List (String × Json) :=
  optional "identityFields" (c.identityFields.map strings) ++ optional "owner" (c.owner.map str) ++
  optional "members" (c.members.map strings) ++
  optional "occurrenceField" (c.occurrenceField.map str) ++
  optional "states" (listed State.toValue c.states) ++
  optional "transitions" (listed Transition.toValue c.transitions) ++
  optional "steps" (listed Step.toValue c.steps) ++
  optional "persists" (c.persists.map strings) ++
  optional "vocabulary" (listed Term.toValue c.vocabulary) ++
  optional "supertypes" (c.supertypes.map strings) ++ optional "abstract" (c.isAbstract.map bool) ++
  optional "direction" (c.direction.map PortDirection.toValue) ++
  optional "interfaceType" (c.interfaceType.map str) ++ optional "multiplicity" c.multiplicity ++
  optional "declaredType" (c.declaredType.map str) ++
  optional "flowDirection" (c.flowDirection.map FlowDirection.toValue) ++
  optional "sourceEnd" (c.sourceEnd.map ConnectionEnd.toValue) ++
  optional "targetEnd" (c.targetEnd.map ConnectionEnd.toValue) ++
  optional "sourceElement" (c.sourceElement.map str) ++
  optional "targetElement" (c.targetElement.map str) ++
  optional "featureOrder" (c.featureOrder.map strings)

/-! ### Type definitions -/

structure ConstructKind where
  module : String
  name : String

def ConstructKind.toValue (k : ConstructKind) : Json :=
  object [("module", str k.module), ("name", str k.name)]

inductive Kind where
  | record | alias' | option
  | construct (kind : ConstructKind)

def Kind.toValue : Kind → Json
  | record => str "record"
  | alias' => str "alias"
  | option => str "option"
  | construct kind => kind.toValue

inductive UnknownPolicy where
  | preserve | reject

def UnknownPolicy.toValue : UnknownPolicy → Json
  | preserve => str "preserve"
  | reject => str "reject"

structure TypeDefinition where
  identity : String
  displayName : String
  kind : Kind
  roles : List String
  origin : Locus
  constraints : List ConstraintNode
  extensions : List Extension
  unknownPolicy : UnknownPolicy
  scalar : Option String
  decimal : Option Json
  target : Option String
  inner : Option String
  fields : Option (List Field)
  variants : Option (List Variant)
  positions : Option (List Position)
  relationships : Option (List Relationship)
  operations : Option (List Operation)
  clauses : Option (List Clause)
  construct : ConstructMembers

def TypeDefinition.toValue (t : TypeDefinition) : Json :=
  object ([("identity", str t.identity), ("displayName", str t.displayName),
    ("kind", t.kind.toValue), ("roles", strings t.roles), ("origin", originValue t.origin),
    ("constraints", array (t.constraints.map ConstraintNode.toValue)),
    ("extensions", array (t.extensions.map Extension.toValue)),
    ("unknownPolicy", t.unknownPolicy.toValue)] ++
    optional "scalar" (t.scalar.map str) ++ optional "decimal" t.decimal ++
    optional "target" (t.target.map str) ++ optional "inner" (t.inner.map str) ++
    optional "fields" (listed Field.toValue t.fields) ++
    optional "variants" (listed Variant.toValue t.variants) ++
    optional "positions" (listed Position.toValue t.positions) ++
    optional "relationships" (listed Relationship.toValue t.relationships) ++
    optional "operations" (listed Operation.toValue t.operations) ++
    optional "clauses" (listed Clause.toValue t.clauses) ++ t.construct.toMembers)

/-! ### The node lists -/

/-- `get_mut(name)`, and the value changed in place. -/
def updateMember (name : String) (f : Json → Json) (members : List (String × Json)) :
    List (String × Json) :=
  members.map fun m => (m.1, if m.1 = name then f m.2 else m.2)

/-- `identity_of`. -/
def identityKeyOf (node : Json) : String := (node.getStr "identity").getD ""

/-- `sort_by_identity`: the bytes of UTF-8 are in the order of the characters. -/
def sortByIdentity : Json → Json
  | .array items => .array (items.insertionSort fun a b => identityKeyOf a ≤ identityKeyOf b)
  | value => value

def typeLists : List String :=
  ["variants", "constraints", "relationships", "operations", "clauses", "extensions"]

def sortField : Json → Json := onMembers (updateMember "extensions" sortByIdentity)

def sortOperation : Json → Json := onMembers (updateMember "params" (mapItems sortField))

def sortDefinition : Json → Json :=
  onMembers fun definition =>
    updateMember "operations" (mapItems sortOperation)
      (updateMember "fields" (mapItems sortField)
        (typeLists.foldl (fun members list => updateMember list sortByIdentity members) definition))

def sortNodeLists : Json → Json :=
  onMembers fun document =>
    updateMember "extensions" sortByIdentity (updateMember "occurrences" sortByIdentity
      (updateMember "types" (fun types => sortByIdentity (mapItems sortDefinition types)) document))

/-! ### Assembling -/

structure SourceBlock where
  identity : String
  version : String
  dialect : String

structure PackageBlock where
  identity : String
  version : String
  mappingVersions : List String
  profileVersions : List String

structure Envelope where
  source : SourceBlock
  package : PackageBlock
  occurrences : List Json
  extensions : List Json

def SourceBlock.toValue (s : SourceBlock) : Json :=
  object [("identity", str s.identity), ("version", str s.version), ("dialect", str s.dialect)]

def PackageBlock.toValue (p : PackageBlock) : Json :=
  object [("identity", str p.identity), ("version", str p.version),
    ("mappingVersions", strings p.mappingVersions), ("profileVersions", strings p.profileVersions)]

/-- A construct kind, with the declaration as the reader renders it. -/
structure Construct where
  kind : ConstructKind
  moduleVersion : String
  declaration : Json

/-- `construct_entry`. -/
def Construct.entry (c : Construct) : Json :=
  object [("kind", c.kind.toValue), ("moduleVersion", str c.moduleVersion),
    ("construct", c.declaration)]

/-- The document before its lists are sorted. -/
def members (envelope : Envelope) (types : List TypeDefinition) (constructs : List Construct) :
    Json :=
  object [("contractVersion", str "2.0.0"),
    ("canonicalization", object [("algorithm", str "rfc8785-v1")]),
    ("source", envelope.source.toValue), ("package", envelope.package.toValue),
    ("types", array (types.map TypeDefinition.toValue)),
    ("occurrences", array envelope.occurrences), ("extensions", array envelope.extensions),
    ("constructs", array (constructs.map Construct.entry))]

def assemble (envelope : Envelope) (types : List TypeDefinition) (constructs : List Construct) :
    Json :=
  sortNodeLists (members envelope types constructs)

/-- `canonical_bytes`: `reader_json` keeps every value and every text of a number. -/
def canonicalBytes (value : Json) : List Char :=
  Normalize.normalized (object [("ir", value)])

end FilamentCore.Frontend.Document
