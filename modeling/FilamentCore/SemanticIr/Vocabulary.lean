import FilamentCore.SemanticIr.Diag

/-!
# Construct declarations (crates/semantic-ir/src/vocabulary.rs)

The closed vocabulary a module declares its construct kinds in, and the reading of a
declaration, which refuses at the first defect.
-/

namespace FilamentCore.SemanticIr

/-! ### Terms -/

/-- A closed vocabulary: its terms in order, and their spellings. -/
class Vocabulary (α : Type) where
  all : List α
  name : α → String

namespace Vocabulary

def parse (α : Type) [Vocabulary α] (text : String) : Option α :=
  (all : List α).find? fun term => name term == text

def names (α : Type) [Vocabulary α] : List String := (all : List α).map name

end Vocabulary

/-- How instances of a construct are told apart. -/
inductive Identity where
  | identified
  | value
  | none
  deriving DecidableEq, Repr

instance : Vocabulary Identity where
  all := [.identified, .value, .none]
  name
    | .identified => "identified"
    | .value => "value"
    | .none => "none"

/-- The structure a backend renders a construct as. -/
inductive Shape where
  | record | enumeration | interface | stateMachine | sequence | «namespace» | alias | tuple
  deriving DecidableEq, Repr

instance : Vocabulary Shape where
  all := [.record, .enumeration, .interface, .stateMachine, .sequence, .namespace, .alias, .tuple]
  name
    | .record => "record"
    | .enumeration => "enumeration"
    | .interface => "interface"
    | .stateMachine => "state_machine"
    | .sequence => "sequence"
    | .namespace => "namespace"
    | .alias => "alias"
    | .tuple => "tuple"

inductive Presence where
  | required | optional | forbidden
  deriving DecidableEq, Repr

instance : Vocabulary Presence where
  all := [.required, .optional, .forbidden]
  name
    | .required => "required"
    | .optional => "optional"
    | .forbidden => "forbidden"

/-- The type-definition members a declaration governs. -/
inductive Member where
  | fields | variants | relationships | operations | clauses | supertypes | abstract
  | identityFields | owner | members | occurrenceField | states | transitions | steps | persists
  | vocabulary | direction | interfaceType | multiplicity | declaredType | flowDirection
  | sourceEnd | targetEnd | sourceElement | targetElement | featureOrder | target | positions
  deriving DecidableEq, Repr

instance : Vocabulary Member where
  all := [.fields, .variants, .relationships, .operations, .clauses, .supertypes, .abstract,
    .identityFields, .owner, .members, .occurrenceField, .states, .transitions, .steps,
    .persists, .vocabulary, .direction, .interfaceType, .multiplicity, .declaredType,
    .flowDirection, .sourceEnd, .targetEnd, .sourceElement, .targetElement, .featureOrder,
    .target, .positions]
  name
    | .fields => "fields"
    | .variants => "variants"
    | .relationships => "relationships"
    | .operations => "operations"
    | .clauses => "clauses"
    | .supertypes => "supertypes"
    | .abstract => "abstract"
    | .identityFields => "identityFields"
    | .owner => "owner"
    | .members => "members"
    | .occurrenceField => "occurrenceField"
    | .states => "states"
    | .transitions => "transitions"
    | .steps => "steps"
    | .persists => "persists"
    | .vocabulary => "vocabulary"
    | .direction => "direction"
    | .interfaceType => "interfaceType"
    | .multiplicity => "multiplicity"
    | .declaredType => "declaredType"
    | .flowDirection => "flowDirection"
    | .sourceEnd => "sourceEnd"
    | .targetEnd => "targetEnd"
    | .sourceElement => "sourceElement"
    | .targetElement => "targetElement"
    | .featureOrder => "featureOrder"
    | .target => "target"
    | .positions => "positions"

/-- The named core rules a declaration selects. -/
inductive Rule where
  | identityFieldRequired | identityFieldForbidden | minClauses | occurrenceFieldRequired
  | noFields | noOperations | minOperations | singleOwner | exclusiveMembership
  | membersNotNamespace
  deriving DecidableEq, Repr

instance : Vocabulary Rule where
  all := [.identityFieldRequired, .identityFieldForbidden, .minClauses, .occurrenceFieldRequired,
    .noFields, .noOperations, .minOperations, .singleOwner, .exclusiveMembership,
    .membersNotNamespace]
  name
    | .identityFieldRequired => "identity_field_required"
    | .identityFieldForbidden => "identity_field_forbidden"
    | .minClauses => "min_clauses"
    | .occurrenceFieldRequired => "occurrence_field_required"
    | .noFields => "no_fields"
    | .noOperations => "no_operations"
    | .minOperations => "min_operations"
    | .singleOwner => "single_owner"
    | .exclusiveMembership => "exclusive_membership"
    | .membersNotNamespace => "members_not_namespace"

namespace Member

def name (m : Member) : String := Vocabulary.name m

def defaultPresence : Member → Presence
  | .fields | .variants | .relationships | .operations | .clauses | .supertypes | .abstract =>
    .optional
  | _ => .forbidden

/-- Where a reference member's entries name types: in the member itself, or in the listed
members of each item; `none` for a member that names no type. -/
def referenceItems : Member → Option (List String)
  | .owner | .members | .persists | .interfaceType | .declaredType | .sourceElement
  | .targetElement | .target => some []
  | .sourceEnd | .targetEnd => some ["type"]
  | .transitions => some ["emits"]
  | .steps => some ["consumes", "emits"]
  | _ => none

end Member

namespace Rule

def name (r : Rule) : String := Vocabulary.name r

def requires : Rule → Member × Presence
  | .identityFieldRequired => (.identityFields, .required)
  | .identityFieldForbidden => (.identityFields, .forbidden)
  | .minClauses => (.clauses, .required)
  | .occurrenceFieldRequired => (.occurrenceField, .required)
  | .noFields => (.fields, .forbidden)
  | .noOperations => (.operations, .forbidden)
  | .minOperations => (.operations, .required)
  | .singleOwner => (.owner, .required)
  | .exclusiveMembership | .membersNotNamespace => (.members, .required)

/-- Whether the rule also asks its list member for at least one item. -/
def nonEmpty : Rule → Bool
  | .minClauses | .minOperations => true
  | _ => false

end Rule

def Identity.requires : Identity → Option (Member × Presence)
  | .identified => some (.identityFields, .required)
  | .value | .none => Option.none

def Shape.requires : Shape → Option (Member × Presence)
  | .enumeration => some (.variants, .required)
  | .alias => some (.target, .required)
  | .tuple => some (.positions, .required)
  | _ => none

/-! ### Declarations -/

/-- A module's declaration of one construct kind. -/
structure Declaration where
  identity : Identity
  shape : Shape
  members : List (Member × Presence)
  references : List (Member × List String)
  rules : List Rule
  meaning : String
  immutable : Bool
  deriving DecidableEq, Repr

/-- Why a JSON value is not a declaration; the pointer is relative to it. -/
structure DeclarationError where
  pointer : String
  message : String
  deriving DecidableEq, Repr

namespace Declaration

def presence (d : Declaration) (member : Member) : Presence :=
  ((d.members.find? fun m => m.1 == member).map Prod.snd).getD member.defaultPresence

def hasRule (d : Declaration) (rule : Rule) : Bool := d.rules.contains rule

def roles (d : Declaration) (member : Member) : Option (List String) :=
  (d.references.find? fun m => m.1 == member).map Prod.snd

def declarationMembers : List String :=
  ["identity", "shape", "members", "references", "rules", "meaning", "immutable"]

def declarationRequired : List String := ["identity", "shape", "members", "meaning"]

/-- `names.join(", ")`. -/
def joined (names : List String) : String := ", ".intercalate names

def term (α : Type) [Vocabulary α] (value : Option Json) (pointer what : String) :
    Except DeclarationError α :=
  match value.bind Json.asStr with
  | none => .error ⟨pointer, what ++ " is one of " ++ joined (Vocabulary.names α)⟩
  | some text =>
    match Vocabulary.parse α text with
    | none => .error ⟨pointer, what ++ " is one of " ++ joined (Vocabulary.names α) ++ " and " ++
        text ++ " is not"⟩
    | some t => .ok t

/-- The first member of an object that is not allowed. -/
def only (value : Json) (pointer : String) (allowed : List String) :
    Except DeclarationError Unit :=
  match (value.asObject.getD []).find? fun m => !allowed.contains m.1 with
  | some m => .error ⟨pointer, "the member " ++ m.1 ++ " is not one a declaration admits"⟩
  | none => .ok ()

def required (value : Json) : List String → Except DeclarationError Unit
  | [] => .ok ()
  | name :: names =>
    if value.has name then required value names
    else .error ⟨"", "a required member " ++ name ++ " is absent"⟩

def pointerToken (name : String) : String := "/" ++ token name

def readMember (out : List (Member × Presence)) (entry : String × Json) :
    Except DeclarationError (List (Member × Presence)) := do
  let pointer := "/members" ++ pointerToken entry.1
  match Vocabulary.parse Member entry.1 with
  | none => .error ⟨pointer, "members names the core members only and " ++ entry.1 ++
      " is not one"⟩
  | some member =>
    if out.any fun m => m.1 == member then
      .error ⟨pointer, "members lists " ++ entry.1 ++ " once"⟩
    else
      let presence ← term Presence (some entry.2) pointer "a member presence"
      return out ++ [(member, presence)]

def readMembers (value : Option Json) : Except DeclarationError (List (Member × Presence)) :=
  match value.bind Json.asObject with
  | none => .error ⟨"/members", "members is an object"⟩
  | some entries => entries.foldlM readMember []

def readRole (name pointer : String) (out : List String) (item : Json × ℕ) :
    Except DeclarationError (List String) :=
  let itemAt := pointer ++ "/" ++ toString item.2
  match item.1.asStr.filter fun role => role ≠ "" && role ≠ "*" with
  | none => .error ⟨itemAt, "a role is a non-empty role name and not *"⟩
  | some role =>
    if out.contains role then .error ⟨itemAt, name ++ " admits the role " ++ role ++ " once"⟩
    else .ok (out ++ [role])

def readReference (out : List (Member × List String)) (entry : String × Json) :
    Except DeclarationError (List (Member × List String)) := do
  let pointer := "/references" ++ pointerToken entry.1
  match (Vocabulary.parse Member entry.1).filter fun m => m.referenceItems.isSome with
  | none => .error ⟨pointer, "references names core reference members only and " ++ entry.1 ++
      " is not one"⟩
  | some member =>
    if out.any fun m => m.1 == member then
      .error ⟨pointer, "references lists " ++ entry.1 ++ " once"⟩
    else
      match entry.2.asArray.filter fun items => !items.isEmpty with
      | none => .error ⟨pointer, "a reference admits a non-empty list of roles"⟩
      | some items =>
        let roles ← items.zipIdx.foldlM (readRole entry.1 pointer) []
        return out ++ [(member, roles)]

def readReferences (value : Json) : Except DeclarationError (List (Member × List String)) :=
  match value.asObject with
  | none => .error ⟨"/references", "references is an object"⟩
  | some entries => entries.foldlM readReference []

def readRule (out : List Rule) (item : Json × ℕ) : Except DeclarationError (List Rule) := do
  let pointer := "/rules/" ++ toString item.2
  let rule ← term Rule (some item.1) pointer "a rule"
  if out.contains rule then .error ⟨pointer, "rules selects " ++ rule.name ++ " once"⟩
  else return out ++ [rule]

def readRules (value : Json) : Except DeclarationError (List Rule) :=
  match value.asArray with
  | none => .error ⟨"/rules", "rules is an array"⟩
  | some items => items.zipIdx.foldlM readRule []

def declares (d : Declaration) (pointer message : String) :
    Option (Member × Presence) → Except DeclarationError Unit
  | none => .ok ()
  | some (member, presence) =>
    if d.presence member = presence then .ok ()
    else .error ⟨pointer, message ++ " requires " ++ member.name ++ " to be " ++
      Vocabulary.name presence⟩

def checkRules (d : Declaration) : List (Rule × ℕ) → Except DeclarationError Unit
  | [] => .ok ()
  | (rule, position) :: rules => do
    d.declares ("/rules/" ++ toString position) ("the rule " ++ rule.name) (some rule.requires)
    d.checkRules rules

def checkReferences (d : Declaration) : List (Member × List String) →
    Except DeclarationError Unit
  | [] => .ok ()
  | (reference, _) :: references =>
    if d.presence reference = .forbidden then
      .error ⟨"/references" ++ pointerToken reference.name,
        "the reference " ++ reference.name ++ " is to a member the declaration forbids"⟩
    else d.checkReferences references

def checkConsistency (d : Declaration) : Except DeclarationError Unit := do
  d.declares "/identity" ("a " ++ Vocabulary.name d.identity ++ " declaration")
    d.identity.requires
  d.declares "/shape" ("a " ++ Vocabulary.name d.shape ++ " declaration") d.shape.requires
  d.checkRules d.rules.zipIdx
  d.checkReferences d.references
  if d.shape ≠ .alias ∧ d.presence .target ≠ .forbidden then
    .error ⟨"/members/target", "only an alias construct may admit target"⟩

def read (value : Json) : Except DeclarationError Declaration := do
  if value.asObject.isNone then .error ⟨"", "a construct declaration is an object"⟩
  only value "" declarationMembers
  required value declarationRequired
  let identity ← term Identity (value.get "identity") "/identity" "identity"
  let shape ← term Shape (value.get "shape") "/shape" "shape"
  let members ← readMembers (value.get "members")
  let references ← match value.get "references" with
    | none => .ok []
    | some references => readReferences references
  let rules ← match value.get "rules" with
    | none => .ok []
    | some rules => readRules rules
  let meaning ← match (value.getStr "meaning").filter fun text => text ≠ "" with
    | none => .error ⟨"/meaning", "meaning is a non-empty Quire meaning id"⟩
    | some meaning => .ok meaning
  let immutable ← match value.get "immutable" with
    | none => .ok false
    | some (.bool flag) => .ok flag
    | some _ => .error ⟨"/immutable", "immutable is a boolean"⟩
  let declaration : Declaration :=
    ⟨identity, shape, members, references, rules, meaning, immutable⟩
  declaration.checkConsistency
  return declaration

end Declaration
end FilamentCore.SemanticIr
