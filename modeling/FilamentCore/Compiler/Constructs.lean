import FilamentCore.SemanticIr.Json
import FilamentCore.SemanticIr.Vocabulary

/-!
# Construct declarations in the compiler (src/compiler/constructs.mjs)

The reading of a declaration over the vocabulary of
`schema/semantic/v1/construct-vocabulary.json`, which refuses at the first defect.
-/

namespace FilamentCore.Compiler.Constructs
open FilamentCore.SemanticIr

/-! ### The vocabulary file -/

structure MemberEntry where
  name : String
  default : String
  referenceItems : Option (List String)
  deriving DecidableEq

structure Requirement where
  term : String
  member : String
  presence : String
  deriving DecidableEq

def identities : List String := ["identified", "value", "none"]

def shapes : List String :=
  ["record", "enumeration", "interface", "state_machine", "sequence", "namespace", "alias",
    "tuple"]

def presences : List String := ["required", "optional", "forbidden"]

def members : List MemberEntry :=
  [⟨"fields", "optional", none⟩, ⟨"variants", "optional", none⟩,
    ⟨"relationships", "optional", none⟩, ⟨"operations", "optional", none⟩,
    ⟨"clauses", "optional", none⟩, ⟨"supertypes", "optional", none⟩,
    ⟨"abstract", "optional", none⟩, ⟨"identityFields", "forbidden", none⟩,
    ⟨"owner", "forbidden", some []⟩, ⟨"members", "forbidden", some []⟩,
    ⟨"occurrenceField", "forbidden", none⟩, ⟨"states", "forbidden", none⟩,
    ⟨"transitions", "forbidden", some ["emits"]⟩,
    ⟨"steps", "forbidden", some ["consumes", "emits"]⟩, ⟨"persists", "forbidden", some []⟩,
    ⟨"vocabulary", "forbidden", none⟩, ⟨"direction", "forbidden", none⟩,
    ⟨"interfaceType", "forbidden", some []⟩, ⟨"multiplicity", "forbidden", none⟩,
    ⟨"declaredType", "forbidden", some []⟩, ⟨"flowDirection", "forbidden", none⟩,
    ⟨"sourceEnd", "forbidden", some ["type"]⟩, ⟨"targetEnd", "forbidden", some ["type"]⟩,
    ⟨"sourceElement", "forbidden", some []⟩, ⟨"targetElement", "forbidden", some []⟩,
    ⟨"featureOrder", "forbidden", none⟩, ⟨"target", "forbidden", some []⟩,
    ⟨"positions", "forbidden", none⟩]

/-- The rules, each as the member presence it asks for. -/
def rules : List Requirement :=
  [⟨"identity_field_required", "identityFields", "required"⟩,
    ⟨"identity_field_forbidden", "identityFields", "forbidden"⟩,
    ⟨"min_clauses", "clauses", "required"⟩,
    ⟨"occurrence_field_required", "occurrenceField", "required"⟩,
    ⟨"no_fields", "fields", "forbidden"⟩, ⟨"no_operations", "operations", "forbidden"⟩,
    ⟨"min_operations", "operations", "required"⟩, ⟨"single_owner", "owner", "required"⟩,
    ⟨"exclusive_membership", "members", "required"⟩,
    ⟨"members_not_namespace", "members", "required"⟩]

def identityRequirements : List Requirement := [⟨"identified", "identityFields", "required"⟩]

def shapeRequirements : List Requirement :=
  [⟨"enumeration", "variants", "required"⟩, ⟨"alias", "target", "required"⟩,
    ⟨"tuple", "positions", "required"⟩]

def flags : List (String × Bool) := [("immutable", false)]

def memberOf (name : String) : Option MemberEntry := members.find? fun m => m.name == name

def ruleOf (name : String) : Option Requirement := rules.find? fun r => r.term == name

/-! ### Objects -/

/-- A canonical array index below `2^32 - 1`, which a JavaScript object lists first. -/
def arrayIndex (name : String) : Option ℕ :=
  let cs := name.toList
  if cs.isEmpty || !cs.all isAsciiDigit || (cs.head? == some '0' && cs != ['0']) then none
  else if decimalValue cs < 2 ^ 32 - 1 then some (decimalValue cs) else none

/-- `Object.entries` of the object `JSON.parse` builds from authored members: the last value of a
name stands at its first place, and array indices come first, in ascending order. -/
def entries (authored : List (String × Json)) : List (String × Json) :=
  let parsed := Json.resolvedMembers authored
  (parsed.filter fun m => (arrayIndex m.1).isSome).mergeSort
      (fun a b => decide ((arrayIndex a.1).getD 0 ≤ (arrayIndex b.1).getD 0)) ++
    parsed.filter fun m => (arrayIndex m.1).isNone

/-! ### Declarations -/

structure Declaration where
  identity : String
  shape : String
  members : List (String × String)
  references : List (String × List String)
  rules : List String
  meaning : String
  flags : List (String × Bool)
  deriving DecidableEq

def refuse {α : Type} (pointer message : String) : Except DeclarationError α :=
  .error ⟨pointer, message⟩

/-- `term(text, pointer, names, what)`: the term, when it is one. -/
def term (value : Option Json) (pointer : String) (names : List String) (what : String) :
    Except DeclarationError String :=
  match value with
  | some (.str text) =>
    if names.contains text then .ok text
    else refuse pointer (what ++ " is one of " ++ ", ".intercalate names)
  | _ => refuse pointer (what ++ " is one of " ++ ", ".intercalate names)

def pointerToken (name : String) : String := "/" ++ token name

def allowed : List String :=
  ["identity", "shape", "members", "references", "rules", "meaning"] ++ flags.map Prod.fst

def checkNames (value : List (String × Json)) : Except DeclarationError Unit :=
  match (entries value).find? fun m => !allowed.contains m.1 with
  | some m => refuse "" ("the member " ++ m.1 ++ " is not one a declaration admits")
  | none => .ok ()

def checkPresent (value : Json) : List String → Except DeclarationError Unit
  | [] => .ok ()
  | name :: names =>
    if value.has name then checkPresent value names
    else refuse "" ("a required member " ++ name ++ " is absent")

def readMember (read : List (String × String)) (entry : String × Json) :
    Except DeclarationError (List (String × String)) := do
  let at' := "/members" ++ pointerToken entry.1
  if (memberOf entry.1).isNone then
    refuse at' ("members names the core members only and " ++ entry.1 ++ " is not one")
  else
    let presence ← term (some entry.2) at' presences "a member presence"
    return read ++ [(entry.1, presence)]

def readMembers (value : Option Json) : Except DeclarationError (List (String × String)) :=
  match value.bind Json.asObject with
  | none => refuse "/members" "members is an object"
  | some authored => (entries authored).foldlM readMember []

def readRole (name at' : String) (read : List String) (role : Json × ℕ) :
    Except DeclarationError (List String) :=
  let itemAt := at' ++ "/" ++ toString role.2
  match role.1 with
  | .str text =>
    if text = "" ∨ text = "*" then refuse itemAt "a role is a non-empty role name and not *"
    else if read.contains text then refuse itemAt (name ++ " admits the role " ++ text ++ " once")
    else .ok (read ++ [text])
  | _ => refuse itemAt "a role is a non-empty role name and not *"

def readReference (read : List (String × List String)) (entry : String × Json) :
    Except DeclarationError (List (String × List String)) := do
  let at' := "/references" ++ pointerToken entry.1
  if ((memberOf entry.1).bind MemberEntry.referenceItems).isNone then
    refuse at' ("references names core reference members only and " ++ entry.1 ++ " is not one")
  else
    match entry.2 with
    | .array roles =>
      if roles.isEmpty then refuse at' "a reference admits a non-empty list of roles"
      else
        let roles ← roles.zipIdx.foldlM (readRole entry.1 at') []
        return read ++ [(entry.1, roles)]
    | _ => refuse at' "a reference admits a non-empty list of roles"

def readReferences (value : Option Json) :
    Except DeclarationError (List (String × List String)) :=
  match value with
  | none => .ok []
  | some (.object authored) => (entries authored).foldlM readReference []
  | some _ => refuse "/references" "references is an object"

def readRule (read : List String) (rule : Json × ℕ) : Except DeclarationError (List String) := do
  let at' := "/rules/" ++ toString rule.2
  let name ← term (some rule.1) at' (rules.map Requirement.term) "a rule"
  if read.contains name then refuse at' ("rules selects " ++ name ++ " once")
  else return read ++ [name]

def readRules (value : Option Json) : Except DeclarationError (List String) :=
  match value with
  | none => .ok []
  | some (.array items) => items.zipIdx.foldlM readRule []
  | some _ => refuse "/rules" "rules is an array"

def readMeaning (value : Option Json) : Except DeclarationError String :=
  match value with
  | some (.str text) =>
    if text = "" then refuse "/meaning" "meaning is a non-empty Quire meaning id" else .ok text
  | _ => refuse "/meaning" "meaning is a non-empty Quire meaning id"

def readFlag (value : Json) (flag : String × Bool) : Except DeclarationError (String × Bool) :=
  match value.get flag.1 with
  | none => .ok flag
  | some (.bool given) => .ok (flag.1, given)
  | some _ => refuse ("/" ++ flag.1) (flag.1 ++ " is a boolean")

/-- `presenceOf(declaration, member)`: as listed, or the default of the vocabulary. -/
def presenceOf (declaration : Declaration) (member : String) : Option String :=
  ((declaration.members.find? fun m => m.1 == member).map Prod.snd).orElse fun _ =>
    (memberOf member).map MemberEntry.default

def checkRequirements (declaration : Declaration) (pointer term : String) :
    List Requirement → Except DeclarationError Unit
  | [] => .ok ()
  | requirement :: requirements =>
    if requirement.term != term then checkRequirements declaration pointer term requirements
    else if presenceOf declaration requirement.member != some requirement.presence then
      refuse pointer ("a " ++ term ++ " declaration requires " ++ requirement.member ++ " to be " ++
        requirement.presence)
    else checkRequirements declaration pointer term requirements

def checkRules (declaration : Declaration) : List (String × ℕ) → Except DeclarationError Unit
  | [] => .ok ()
  | (rule, position) :: selected =>
    -- Every selected rule is one of the table.
    match ruleOf rule with
    | none => .ok ()
    | some requirement =>
      if presenceOf declaration requirement.member != some requirement.presence then
        refuse ("/rules/" ++ toString position) ("the rule " ++ rule ++ " requires " ++
          requirement.member ++ " to be " ++ requirement.presence)
      else checkRules declaration selected

def checkReferences (declaration : Declaration) :
    List (String × List String) → Except DeclarationError Unit
  | [] => .ok ()
  | (member, _) :: references =>
    if presenceOf declaration member = some "forbidden" then
      refuse ("/references" ++ pointerToken member) ("the reference " ++ member ++
        " is to a member the declaration forbids")
    else checkReferences declaration references

def readDeclaration (value : Json) : Except DeclarationError Declaration := do
  match value with
  | .object authored =>
    checkNames authored
    checkPresent value ["identity", "shape", "members", "meaning"]
    let identity ← term (value.get "identity") "/identity" identities "identity"
    let shape ← term (value.get "shape") "/shape" shapes "shape"
    let members ← readMembers (value.get "members")
    let references ← readReferences (value.get "references")
    let rules ← readRules (value.get "rules")
    let meaning ← readMeaning (value.get "meaning")
    let flags ← flags.mapM (readFlag value)
    let declaration : Declaration := ⟨identity, shape, members, references, rules, meaning, flags⟩
    checkRequirements declaration "/identity" identity identityRequirements
    checkRequirements declaration "/shape" shape shapeRequirements
    checkRules declaration rules.zipIdx
    checkReferences declaration references
    return declaration
  | _ => refuse "" "a construct declaration is an object"

end FilamentCore.Compiler.Constructs
