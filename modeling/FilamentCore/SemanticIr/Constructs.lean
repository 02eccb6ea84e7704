import FilamentCore.SemanticIr.UnitGraph

/-!
# The construct rules (crates/semantic-ir/src/constructs.rs)

The rules that need a second node of the document: what a reference member names, the targets
a declaration admits, and what ranges over several types.
-/

namespace FilamentCore.SemanticIr

def texts (value : Option Json) : List (String × ℕ) :=
  ((value.bind Json.asArray).getD []).zipIdx.filterMap fun item =>
    item.1.asStr.map fun text => (text, item.2)

def identityOf (node : Json) : Option String := node.getStr "identity"

def rolesOf (definition : Json) : List String :=
  (definition.members "roles").filterMap Json.asStr

/-! ### Kinds and declarations -/

/-- Equal core kinds, or equal `{module, name}` pairs. -/
def sameKind (left right : Json) : Bool :=
  match left.asStr, right.asStr with
  | some left, some right => left == right
  | none, none =>
    left.asObject.isSome && right.asObject.isSome &&
      left.getStr "module" == right.getStr "module" && left.getStr "name" == right.getStr "name"
  | _, _ => false

def kindLabel (definition : Json) : String :=
  match definition.get "kind" with
  | some (.str kind) => kind
  | some kind => (kind.getStr "module").getD "" ++ "/" ++ (kind.getStr "name").getD ""
  | none => ""

/-- The declared shape of a construct kind, read from the `constructs` table. -/
def shapeOf (d : Document) (definition : Json) : Option Shape := do
  let kind ← definition.get "kind"
  let _ ← kind.asObject
  let entries ← d.ir.getArray "constructs"
  let entry ← entries.find? fun entry =>
    (entry.get "kind").any fun declared => sameKind declared kind
  let shape ← (entry.get "construct").bind (·.getStr "shape")
  Vocabulary.parse Shape shape

/-- The document's construct declarations by kind. -/
abbrev Declarations := List (Json × Declaration)

def readEntry (entry : Json) (at' : String) : Except Issue (Json × Declaration) :=
  match entry.get "kind", entry.get "construct" with
  | none, _ => .error (.emit at' .schemaViolation "a constructs entry carries kind")
  | _, none => .error (.emit at' .schemaViolation "a constructs entry carries construct")
  | some kind, some construct =>
    match Declaration.read construct with
    | .ok declaration => .ok (kind, declaration)
    | .error refused => .error
        (.emit (child at' "construct" ++ refused.pointer) .schemaViolation refused.message)

def Declarations.read (d : Document) : Except Issue Declarations :=
  (placedItems d.ir "/ir" "constructs").mapM fun entry => readEntry entry.node entry.pointer

def Declarations.of (declarations : Declarations) (definition : Json) : Option Declaration := do
  let kind ← definition.get "kind"
  let _ ← kind.asObject
  let entry ← declarations.find? fun entry => sameKind entry.1 kind
  return entry.2

namespace Constructs

variable (d : Document)

/-! ### Supertypes -/

def freshNames (seen : List String) : List String → List String
  | [] => []
  | name :: names =>
    if seen.contains name then freshNames seen names
    else name :: freshNames (name :: seen) names

/-- The parents of the types on a frontier, nearest first, each once. -/
def ancestorsFrom : ℕ → List String → List Json → List Json → List Json
  | 0, _, out, _ => out
  | _ + 1, _, out, [] => out
  | steps + 1, seen, out, current :: frontier =>
    let names := freshNames seen ((texts (current.get "supertypes")).map Prod.fst)
    let parents := names.filterMap d.typeOf
    ancestorsFrom steps (names ++ seen) (out ++ parents) (parents.reverse ++ frontier)

/-- `ancestors`: no supertype is entered twice, so the walk ends within the types there
are. -/
def ancestors (definition : Json) : List Json :=
  ancestorsFrom d (d.types.length + 2) (identityOf definition).toList [] [definition]

def visibleFields (definition : Json) : List Json :=
  definition.members "fields" ++ (ancestors d definition).flatMap (·.members "fields")

/-- The state of the strongly-connected-components pass; a node is on the stack while it is
listed there. -/
structure Pass where
  order : ℕ → Option ℕ
  low : ℕ → ℕ
  stack : List ℕ
  nextOrder : ℕ
  cyclic : List ℕ

namespace Pass

def enter (p : Pass) (node : ℕ) : Pass :=
  { p with
    order := Function.update p.order node (some p.nextOrder)
    low := Function.update p.low node p.nextOrder
    stack := node :: p.stack
    nextOrder := p.nextOrder + 1 }

def lower (p : Pass) (node bound : ℕ) : Pass :=
  { p with low := Function.update p.low node (min (p.low node) bound) }

/-- Pops the component of a node that is its root. -/
def close (p : Pass) (edges : UnitGraph.Edges) (node : ℕ) : Pass :=
  let members := p.stack.takeWhile (· ≠ node) ++ [node]
  { p with
    stack := (p.stack.dropWhile (· ≠ node)).tail
    cyclic := if 1 < members.length ∨ (UnitGraph.targetsOf edges node).contains node then
        p.cyclic ++ members
      else p.cyclic }

def leave (p : Pass) (edges : UnitGraph.Edges) (node : ℕ) (frames : List (ℕ × ℕ)) : Pass :=
  let p := match frames with
    | (parent, _) :: _ => p.lower parent (p.low node)
    | [] => p
  if p.order node = some (p.low node) then p.close edges node else p

/-- One iteration a step, over frames of a node and the edges it has taken. -/
def walk (edges : UnitGraph.Edges) : ℕ → Pass → List (ℕ × ℕ) → Pass
  | 0, p, _ => p
  | _ + 1, p, [] => p
  | steps + 1, p, (node, taken) :: frames =>
    match (UnitGraph.targetsOf edges node)[taken]? with
    | some target =>
      match p.order target with
      | none => walk edges steps (p.enter target) ((target, 0) :: (node, taken + 1) :: frames)
      | some order =>
        let p := if p.stack.contains target then p.lower node order else p
        walk edges steps p ((node, taken + 1) :: frames)
    | none => walk edges steps (p.leave edges node frames) frames

end Pass

def supertypeEdges : UnitGraph.Edges :=
  d.types.map fun definition =>
    (texts (definition.get "supertypes")).filterMap fun name => d.byPosition name.1

def typesOnASupertypeCycle : List ℕ :=
  let edges := supertypeEdges d
  ((List.range d.types.length).foldl (fun (p : Pass) root =>
    if (p.order root).isSome then p
    else p.enter root |>.walk edges (UnitGraph.walkSteps edges) [(root, 0)])
    ⟨fun _ => none, fun _ => 0, [], 0, []⟩).cyclic

def supertypes (definition : Placed) (onCycle : Bool) : List Issue :=
  let at' := child definition.pointer "supertypes"
  ((texts (definition.node.get "supertypes")).flatMap fun name =>
    match d.typeOf name.1 with
    | none => [.emit (index at' name.2) .unresolvedConstructRef
        "a supertype names a type the document declares"]
    | some parent =>
      let same := match definition.node.get "kind", parent.get "kind" with
        | some own, some theirs => sameKind own theirs
        | _, _ => false
      Issue.emitIf (!same) (index at' name.2) .constructTargetKind
        "a supertype has the kind of the type that specializes it") ++
  Issue.emitIf onCycle at' .supertypeCycle
    "the generalization graph is acyclic and this type is its own supertype"

/-! ### Features -/

/-- A multiplicity's bounds, the lower `1` when there is none. -/
def bounds (node : Json) : ℤ × Option ℤ :=
  let multiplicity := node.get "multiplicity"
  ((multiplicity.bind (·.getI64 "lower")).getD 1, multiplicity.bind (·.getI64 "upper"))

/-- Whether a multiplicity lies within the one it redefines. -/
def narrows (field redefined : Json) : Bool :=
  let (lower, upper) := bounds field
  let (outerLower, outerUpper) := bounds redefined
  let upperWithin := match upper, outerUpper with
    | _, none => true
    | none, some _ => false
    | some upper, some outer => decide (upper ≤ outer)
  decide (outerLower ≤ lower) && upperWithin

def inheritedNamed (inherited : List Json) (name : String) : Option Json :=
  inherited.find? fun other => identityOf other == some name

def fieldFeature (inherited : List Json) (field : Placed) : List Issue :=
  ((texts (field.node.get "subsets")).flatMap fun name =>
    Issue.emitIf (inheritedNamed inherited name.1).isNone
      (index (child field.pointer "subsets") name.2) .unresolvedFeatureRef
      "a subsetted field is a field of a supertype") ++
  match field.node.getStr "redefines" with
  | none => []
  | some name =>
    let at' := child field.pointer "redefines"
    match inheritedNamed inherited name with
    | none => [.emit at' .unresolvedFeatureRef "a redefined field is a field of a supertype"]
    | some redefined => Issue.emitIf (!narrows field.node redefined) at' .invalidRedefinition
        "a redefinition keeps its multiplicity within the bounds of the field it redefines"

/-- An operation that declares no `returns` returns no value. -/
def returnsWithin (operation redefined : Json) : Bool :=
  match operation.get "returns", redefined.get "returns" with
  | some inner, some outer => narrows inner outer
  | none, none => true
  | _, _ => false

def operationFeature (inherited : List Json) (operation : Placed) : List Issue :=
  match operation.node.getStr "redefines" with
  | none => []
  | some name =>
    let at' := child operation.pointer "redefines"
    match inheritedNamed inherited name with
    | none => [.emit at' .unresolvedFeatureRef
        "a redefined operation is an operation of a supertype"]
    | some redefined => Issue.emitIf (!returnsWithin operation.node redefined) at'
        .invalidRedefinition
        ("a redefinition keeps its return multiplicity within the bounds of the operation it " ++
          "redefines, and an operation without returns returns no value")

def features (definition : Placed) : List Issue :=
  let parents := ancestors d definition.node
  (placedItems definition.node definition.pointer "fields").flatMap
    (fieldFeature (parents.flatMap (·.members "fields"))) ++
  (placedItems definition.node definition.pointer "operations").flatMap
    (operationFeature (parents.flatMap (·.members "operations")))

/-! ### Frames and inline clauses -/

def documentFeatures : List Json :=
  d.types.flatMap fun definition =>
    definition.members "fields" ++ definition.members "relationships"

def frame (operation : Placed) : List Issue :=
  match operation.node.get "frame" with
  | none => []
  | some frame =>
    let frameAt := child operation.pointer "frame"
    ((texts (frame.get "modifies")).flatMap fun name =>
      Issue.emitIf (!(documentFeatures d).any fun f => identityOf f == some name.1)
        (index (child frameAt "modifies") name.2) .unresolvedFramePath
        "a modifies entry names a field or relationship the document declares") ++
    ["creates", "deletes"].flatMap fun member =>
      (texts (frame.get member)).flatMap fun name =>
        Issue.emitIf (d.typeOf name.1).isNone (index (child frameAt member) name.2)
          .unresolvedFramePath "a creates or deletes entry names a type the document declares"

def frames (definition : Placed) : List Issue :=
  (placedItems definition.node definition.pointer "operations").flatMap (frame d)

/-- The advisory at an inline clause whose language no reader checks. -/
def inlineClauses (definition : Placed) : List Issue :=
  (placedItems definition.node definition.pointer "operations").flatMap fun operation =>
    ["pre", "post"].flatMap fun member =>
      (placedItems operation.node operation.pointer member).flatMap fun clause =>
        match clause.node.getStr "language" with
        | none => []
        | some language =>
          if language = "quire" then []
          else [.advise (child clause.pointer "language") .clauseLanguageUnchecked
            ("clause language " ++ language ++ " is carried unchecked")]

/-! ### Reference members -/

def itemEntries (item : Placed) (member : String) : List (String × String) :=
  let at' := child item.pointer member
  match item.node.getStr member with
  | some named => [(at', named)]
  | none => (texts (item.node.get member)).map fun named => (index at' named.2, named.1)

def referenceEntries (definition : Placed) (member : Member) : List (String × String) :=
  let name := member.name
  let memberAt := child definition.pointer name
  match member.referenceItems with
  | none => []
  | some [] =>
    match definition.node.get name with
    | some (.str named) => [(memberAt, named)]
    | value => (texts value).map fun named => (index memberAt named.2, named.1)
  | some itemMembers =>
    let own := match definition.node.get name with
      | some (.object members) => [⟨memberAt, .object members⟩]
      | _ => []
    (placedItems definition.node definition.pointer name ++ own).flatMap fun item =>
      itemMembers.flatMap (itemEntries item)

/-- The type a reference entry names; a source element may name an operation of it. -/
def referenced (member : Member) (name : String) : Option Json :=
  match d.typeOf name with
  | some found => some found
  | none => if member = .sourceElement then d.typeOfOperation name else none

def referenceIssues (member : Member) (admitted : Option (List String))
    (entry : String × String) : List Issue :=
  match referenced d member entry.2 with
  | none =>
    if member = .target && ((nativeScalar entry.2).isSome || specialTypeRef entry.2) then []
    else [.emit entry.1 .unresolvedConstructRef (if member = .sourceElement then
        "a construct member names a type the document declares, or an operation of one"
      else "a construct member names a type the document declares")]
  | some found =>
    match admitted with
    | none => []
    | some admitted =>
      Issue.emitIf (!admitted.any fun role => (rolesOf found).contains role) entry.1
        .constructTargetKind ("the named type is a " ++ kindLabel found ++
          " carrying none of the roles " ++ member.name ++ " admits: " ++
          ", ".intercalate admitted)

def references (definition : Placed) (member : Member) (admitted : Option (List String)) :
    List Issue :=
  (referenceEntries definition member).flatMap (referenceIssues d member admitted)

def membersNotNamespace (declarations : Declarations) (definition : Placed) : List Issue :=
  (referenceEntries definition .members).flatMap fun entry =>
    Issue.emitIf (((d.typeOf entry.2).bind declarations.of).any fun found =>
        found.shape = .namespace) entry.1 .constructTargetKind
      "a namespace groups its members and is not itself a member"

/-! ### Tuples -/

def tupleForeignMembers : List String :=
  ["fields", "identityFields", "operations", "supertypes", "clauses", "relationships",
    "variants"]

def isTupleName (cs : List Char) : Bool :=
  startsAndRuns isAlpha (fun c => isAlphanumeric c || c == '_') cs

/-- The identities of positions in order; a repeated one is left to the document-wide rule. -/
def positionIssues (tuple : Option String) (seen : List String) : List (Placed × ℕ) → List Issue
  | [] => []
  | (position, ordinal) :: positions =>
    let named := identityOf position.node
    (match tuple, named with
      | some tuple, some named =>
        Issue.emitIf (!seen.contains named && named != tuple ++ "/p" ++ toString ordinal)
          (child position.pointer "identity") .invalidTuplePosition
          ("the position at index " ++ toString ordinal ++
            " has the identity <tuple identity>/p" ++ toString ordinal)
      | _, _ => []) ++
    Issue.emitIf (position.node.getStr "typeRef" == some clockTypeRef)
      (child position.pointer "typeRef") .invalidTuplePosition
      "a tuple position is never a clock" ++
    positionIssues tuple (named.toList ++ seen) positions

def tuple (definition : Placed) : List Issue :=
  let identity := identityOf definition.node
  let package := (d.ir.get "package").bind (·.getStr "identity")
  (match identity with
    | none => []
    | some identity =>
      let named := (package.bind fun package =>
        stripPrefix ("ix://" ++ package ++ "/").toList identity.toList).any isTupleName
      Issue.emitIf (!named) (child definition.pointer "identity") .invalidTuple
        ("a tuple identity is ix://<package identity>/<name> with a name matching " ++
          "^[A-Za-z][A-Za-z0-9_]*$")) ++
  (tupleForeignMembers.flatMap fun member =>
    Issue.emitIf (definition.node.has member) (child definition.pointer member) .invalidTuple
      ("a tuple carries no " ++ member)) ++
  positionIssues identity []
    (placedItems definition.node definition.pointer "positions").zipIdx

/-! ### Fields, orders and transitions -/

def occurrenceField (definition : Placed) : List Issue :=
  let at' := child definition.pointer "occurrenceField"
  match definition.node.getStr "occurrenceField" with
  | none => []
  | some name =>
    match inheritedNamed (visibleFields d definition.node) name with
    | none => [.emit at' .unresolvedConstructRef
        "an occurrence field names a field of the type or a supertype"]
    | some field =>
      let datetime := ((field.getStr "typeRef").bind d.resolve).any fun resolved =>
        resolved.kind == "scalar" && resolved.scalar == "datetime"
      Issue.emitIf (!datetime) at' .invalidOccurrenceField
        "an occurrence field resolves to scalar datetime"

def transition (states operations clauseIds : List String) (transition : Placed) :
    List Issue :=
  (["from", "to"].flatMap fun stateEnd =>
    Issue.emitIf ((transition.node.getStr stateEnd).any fun state => !states.contains state)
      (child transition.pointer stateEnd) .unresolvedConstructRef
      "a transition's from and to name states of its type or a supertype") ++
  Issue.emitIf ((transition.node.getStr "trigger").any fun trigger => !operations.contains trigger)
    (child transition.pointer "trigger") .unresolvedConstructRef
    "a transition's trigger names an operation of its type or a supertype" ++
  Issue.emitIf ((transition.node.getStr "guard").any fun guard => !clauseIds.contains guard)
    (child transition.pointer "guard") .danglingClauseRef
    "a transition's guard binds by clauseId to a clause this type or a supertype declares"

def transitions (definition : Placed) : List Issue :=
  let visible := definition.node :: ancestors d definition.node
  let identities := fun name => (visible.flatMap (·.members name)).filterMap identityOf
  let clauseIds := (visible.flatMap (·.members "clauses")).filterMap (·.getStr "clauseId")
  (placedItems definition.node definition.pointer "transitions").flatMap
    (transition (identities "states") (identities "operations") clauseIds)

def identityFields (definition : Placed) : List Issue :=
  (texts (definition.node.get "identityFields")).flatMap fun name =>
    Issue.emitIf (inheritedNamed (visibleFields d definition.node) name.1).isNone
      (index (child definition.pointer "identityFields") name.2) .unresolvedConstructRef
      "an identity field names a field of this type or of a supertype"

def featureOrder (definition : Placed) : List Issue :=
  let at' := child definition.pointer "featureOrder"
  let own := (definition.node.members "fields" ++ definition.node.members "operations").filterMap
    identityOf
  let entries := texts (definition.node.get "featureOrder")
  (entries.flatMap fun name =>
    Issue.emitIf (own.count name.1 != 1) (index at' name.2) .unresolvedConstructRef
      "a featureOrder entry names exactly one field or operation this type declares") ++
  own.flatMap fun feature =>
    Issue.emitIf (!entries.any fun name => name.1 == feature) at' .incompleteFeatureOrder
      ("featureOrder names every field and operation of the type, and not " ++ feature)

/-! ### The document -/

/-- `if definition.has(member) { .. }`. -/
def whenHas (definition : Placed) (member : String) (issues : List Issue) : List Issue :=
  if definition.node.has member then issues else []

def declared (declarations : Declarations) (definition : Placed) : List Issue :=
  match declarations.of definition.node with
  | none => []
  | some declaration =>
    ((Vocabulary.all : List Member).flatMap fun member =>
      references d definition member (declaration.roles member)) ++
    (if declaration.shape = .tuple then tuple d definition else []) ++
    (if declaration.hasRule .membersNotNamespace then
      membersNotNamespace d declarations definition
    else []) ++
    whenHas definition "occurrenceField" (occurrenceField d definition) ++
    whenHas definition "transitions" (transitions d definition) ++
    whenHas definition "identityFields" (identityFields d definition) ++
    whenHas definition "featureOrder" (featureOrder definition)

/-- The members of the types of an exclusive-membership construct, after the memberships
seen: the named type and the first type naming it. -/
def membershipIssues (seen : List (String × ℕ)) (owner : ℕ) (at' : String) :
    List (String × ℕ) → List Issue × List (String × ℕ)
  | [] => ([], seen)
  | (name, slot) :: names =>
    match seen.find? fun membership => membership.1 == name with
    | none => membershipIssues (seen ++ [(name, owner)]) owner at' names
    | some (_, first) =>
      let (issues, seen) := membershipIssues seen owner at' names
      (Issue.emitIf (first != owner) (index at' slot) .multipleDomainMembership
        "a type is a member of at most one type of an exclusive-membership construct" ++ issues,
        seen)

def exclusiveMembership (declarations : Declarations) (seen : List (String × ℕ)) :
    List (Json × ℕ) → List Issue
  | [] => []
  | (definition, position) :: definitions =>
    if (declarations.of definition).any fun declaration =>
        declaration.hasRule .exclusiveMembership then
      let (issues, seen) := membershipIssues seen position
        (child (index "/ir/types" position) "members") (texts (definition.get "members"))
      issues ++ exclusiveMembership declarations seen definitions
    else exclusiveMembership declarations seen definitions

def populations : List Issue :=
  (placedItems d.ir "/ir" "populations").flatMap fun population =>
    (texts (population.node.get "members")).flatMap fun member =>
      Issue.emitIf (d.typeOf member.1).isNone (index (child population.pointer "members") member.2)
        .unresolvedTypeRef "a population member names a type the document declares"

def typeIssues (declarations : Declarations) (cyclic : List ℕ) (definition : Placed × ℕ) :
    List Issue :=
  supertypes d definition.1 (cyclic.contains definition.2) ++
  features d definition.1 ++
  frames d definition.1 ++
  inlineClauses definition.1 ++
  declared d declarations definition.1

def decide : List Issue :=
  match Declarations.read d with
  | .error unread => [unread]
  | .ok declarations =>
    (d.placedTypes.zipIdx.flatMap (typeIssues d declarations (typesOnASupertypeCycle d))) ++
    exclusiveMembership declarations [] d.types.zipIdx ++
    populations d

end Constructs
end FilamentCore.SemanticIr
