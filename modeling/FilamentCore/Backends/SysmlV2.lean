import FilamentCore.Compiler.Diagnostics
import FilamentCore.SemanticIr.Json

/-!
# The SysML v2 textual target (src/compiler/backends/sysml-v2/index.mjs)

`sysmlBackend.generate` over the document of an admitted request: one package of the item, enum and
alias definitions its types have, or the diagnostics that refuse it.
-/

namespace FilamentCore.Backends.Sysml
open FilamentCore.Compiler (fragment)
open FilamentCore.Packages (codeUnits)
open FilamentCore.SemanticIr (Json)

/-! ### Documents -/

inductive Scalar where
  | boolean | integer | decimal | float32 | float64 | string
  | bytes | date | datetime | duration | uuid | any
  deriving DecidableEq, Repr

def Scalar.text : Scalar → String
  | boolean => "boolean"
  | integer => "integer"
  | decimal => "decimal"
  | float32 => "float32"
  | float64 => "float64"
  | string => "string"
  | bytes => "bytes"
  | date => "date"
  | datetime => "datetime"
  | duration => "duration"
  | uuid => "uuid"
  | any => "any"

/-- A kind of the schema; `other` has the text of a kind without a construct here. -/
inductive Kind where
  | scalar | record | enum | alias
  | other (text : String)
  deriving DecidableEq, Repr

inductive UnknownPolicy where
  | preserve | reject | surface
  deriving DecidableEq, Repr

inductive Presence where
  | required | optional
  deriving DecidableEq, Repr

inductive DefaultKind where
  | none | semantic | representation | migration
  deriving DecidableEq, Repr

/-- An origin and the source locus it gives, none where it is generated. -/
structure Origin where
  source : Option Json
  deriving DecidableEq

/-- A node that is refused where it stands. -/
structure Member where
  identity : Option String
  origin : Option Origin
  deriving DecidableEq

structure DecimalPolicy where
  precision : ℕ
  scale : ℕ
  deriving DecidableEq, Repr

structure Multiplicity where
  lower : ℕ
  upper : Option ℕ
  ordered : Bool
  unique : Bool
  deriving DecidableEq, Repr

structure Field where
  identity : String
  name : String
  typeRef : String
  decimal : Option DecimalPolicy
  presence : Presence
  nullable : Bool
  defaultKind : DefaultKind
  multiplicity : Multiplicity
  unit : Option String
  constraints : List Member
  extensions : List Member
  origin : Origin
  deriving DecidableEq

structure Variant where
  identity : String
  name : String
  payloadType : Option String
  origin : Origin
  deriving DecidableEq

structure TypeDefinition where
  identity : String
  displayName : String
  kind : Kind
  unknownPolicy : UnknownPolicy
  scalar : Option Scalar
  decimal : Option DecimalPolicy
  target : Option String
  fields : List Field
  variants : List Variant
  clauses : List Member
  constraints : List Member
  extensions : List Member
  operations : List Member
  relationships : List Member
  members : List Member
  isAbstract : Bool
  supertypes : List String
  identityFields : List String
  origin : Origin
  deriving DecidableEq

structure Document where
  contractVersion : String
  sourceIdentity : String
  packageIdentity : String
  types : List TypeDefinition
  extensions : List Member
  constructs : List Member
  occurrences : List Member

/-! ### Diagnostics -/

inductive Code where
  | declaredLoss | unsupportedConstruct
  deriving DecidableEq, Repr

def Code.blocking : Code → Bool
  | declaredLoss => false
  | unsupportedConstruct => true

structure Diagnostic where
  code : Code
  message : String
  locus : Option Json
  deriving DecidableEq

def sourceLocus (origin : Option Origin) : Option Json := origin.bind Origin.source

def unsupported (identity : Option String) (origin : Option Origin) (reason : String) :
    Diagnostic :=
  ⟨.unsupportedConstruct, fragment (identity.getD "node") ++ ": " ++ reason, sourceLocus origin⟩

/-- What is pushed on the way to a value that may be `null`. -/
abbrev Emitted (α : Type) := Option α × List Diagnostic

/-! ### Names -/

def quotable (name : String) : Bool :=
  name != "" && name.toList.all fun c => c != '\n' && c != '\r' && c != '\''

def nameRefusal (name : String) : String :=
  "name " ++ fragment name ++ " cannot be represented as a SysML unrestricted name"

/-- `'${name}'`, or the refusal of the node that should have it. -/
def identifier (name : String) (identity : Option String) (origin : Option Origin) :
    Emitted String :=
  if quotable name then (some ("'" ++ name ++ "'"), [])
  else (none, [unsupported identity origin (nameRefusal name)])

/-- `[A-Za-z0-9_]`. -/
def plainChar (c : Char) : Bool :=
  ('a' ≤ c && c ≤ 'z') || ('A' ≤ c && c ≤ 'Z') || ('0' ≤ c && c ≤ '9') || c == '_'

/-- The last segment, every code unit that is not plain replaced by `_`. -/
def packageShortName (identity : String) : String :=
  let tail := (identity.toList.reverse.takeWhile (· != '/')).reverse
  String.ofList (tail.flatMap fun c =>
    if plainChar c then [c] else List.replicate (codeUnits [c]).length '_')

def semanticShortName (identity fallback : String) : String :=
  if packageShortName identity = "" then fallback else packageShortName identity

def semanticIdentifier (identity fallback : String) (origin : Origin) : Emitted String :=
  if quotable fallback then
    identifier (semanticShortName identity fallback) (some identity) (some origin)
  else (none, [unsupported (some identity) (some origin) (nameRefusal fallback)])

/-- A node that has a name in some namespace. -/
structure Named where
  identity : String
  fallback : String
  origin : Origin
  deriving DecidableEq

def Named.shortName (node : Named) : String := semanticShortName node.identity node.fallback

def Named.refuse (node : Named) (reason : String) : Diagnostic :=
  unsupported (some node.identity) (some node.origin) reason

def TypeDefinition.named (type : TypeDefinition) : Named :=
  ⟨type.identity, type.displayName, type.origin⟩

def Field.named (field : Field) : Named := ⟨field.identity, field.name, field.origin⟩

def Variant.named (variant : Variant) : Named := ⟨variant.identity, variant.name, variant.origin⟩

def Named.identifier (node : Named) : Emitted String :=
  semanticIdentifier node.identity node.fallback node.origin

/-- The loop over one scope; `seen` holds the nodes by their names. -/
def scopeCollisions (scope : String) (seen : List Named) : List Named → List Diagnostic
  | [] => []
  | node :: nodes =>
    if node.shortName = "" then scopeCollisions scope seen nodes
    else
      match seen.find? fun prior => prior.shortName == node.shortName with
      | some prior =>
        if prior.identity = node.identity then scopeCollisions scope (node :: seen) nodes
        else
          let reason := "semantic identity tails " ++ fragment node.shortName ++ " collide in " ++
            scope
          prior.refuse reason :: node.refuse reason :: scopeCollisions scope seen nodes
      | none => scopeCollisions scope (node :: seen) nodes

def checkIdentityTailCollisions (types : List TypeDefinition) : List Diagnostic :=
  scopeCollisions "top-level type" []
    ((types.filter fun type => type.kind != .scalar).map TypeDefinition.named) ++
  ((types.filter fun type => type.kind == .record).flatMap fun type =>
    scopeCollisions ("fields of " ++ type.identity) [] (type.fields.map Field.named)) ++
  (types.filter fun type => type.kind == .enum).flatMap fun type =>
    scopeCollisions ("variants of " ++ type.identity) [] (type.variants.map Variant.named)

/-! ### Definitions -/

structure Attribute where
  identity : String
  name : String
  target : String
  cardinality : String
  deriving DecidableEq, Repr

inductive Definition where
  | item (identity name : String) (attributes : List Attribute)
  | enumeration (identity name : String) (literals : List String)
  | alias (identity name target : String)
  deriving DecidableEq, Repr

def identityDoc (identity : String) : String := "doc /* semantic identity: " ++ identity ++ " */"

def Attribute.lines (a : Attribute) : List String :=
  ["    " ++ identityDoc a.identity,
    "    attribute " ++ a.name ++ " : " ++ a.target ++ a.cardinality ++ ";"]

def Definition.text : Definition → String
  | item identity name attributes => "\n".intercalate
    (["  " ++ identityDoc identity, "  item def " ++ name ++ " \x7b"] ++
      attributes.flatMap Attribute.lines ++ ["  \x7d"])
  | enumeration identity name literals => "\n".intercalate
    (["  " ++ identityDoc identity, "  enum def " ++ name ++ " \x7b"] ++
      literals.map (fun literal => "    " ++ literal ++ ";") ++ ["  \x7d"])
  | .alias identity name target => "\n".intercalate
    ["  " ++ identityDoc identity, "  alias " ++ name ++ " for " ++ target ++ ";"]

/-- `SCALARS`. -/
def Scalar.sysml : Scalar → Option String
  | boolean => some "ScalarValues::Boolean"
  | integer => some "ScalarValues::Integer"
  | decimal => some "ScalarValues::Real"
  | float32 => some "ScalarValues::Real"
  | float64 => some "ScalarValues::Real"
  | string => some "ScalarValues::String"
  | _ => none

def scalarName (type : TypeDefinition) : Option String :=
  if type.kind = .scalar then type.scalar.bind Scalar.sysml else none

def refuseUnmappedMembers (origin : Option Origin) (lists : List (String × List Member)) :
    List Diagnostic :=
  lists.flatMap fun (name, members) => members.map fun member =>
    unsupported member.identity (member.origin.or origin) (name ++ " has no SysML mapping")

/-- `types.get(identity)`; a repeated identity has the last type. -/
def typeOf (types : List TypeDefinition) (identity : String) : Option TypeDefinition :=
  types.reverse.find? fun type => type.identity == identity

/-- What `ScalarValues::Real` does not carry of a scalar. -/
def lostOf (type : TypeDefinition) : Option String :=
  match type.scalar with
  | some .decimal => some ("decimal policy precision " ++
    ((type.decimal.map fun policy => toString policy.precision).getD "undefined") ++ ", scale " ++
    ((type.decimal.map fun policy => toString policy.scale).getD "undefined"))
  | some .float32 => some "float32 width 32"
  | some .float64 => some "float64 width 64"
  | _ => none

def fieldType (field : Field) (types : List TypeDefinition) : Emitted String :=
  match typeOf types field.typeRef with
  | none => (none, [field.named.refuse
    ("type " ++ fragment field.typeRef ++ " has no SysML mapping")])
  | some type =>
    match scalarName type with
    | some scalar =>
      (some scalar, (lostOf type).toList.map fun lost => ⟨.declaredLoss,
        "field " ++ fragment field.name ++ " maps " ++ ((type.scalar.map Scalar.text).getD "") ++
          " to ScalarValues::Real and loses " ++ lost, field.origin.source⟩)
    | none =>
      if type.kind = .record then
        (none, [field.named.refuse
          ("record-valued field " ++ fragment field.name ++ " has no SysML attribute mapping")])
      else if type.kind = .enum then type.named.identifier
      else (none, [field.named.refuse
        ("type " ++ fragment field.typeRef ++ " has no SysML field mapping")])

def cardinality (multiplicity : Multiplicity) : String :=
  if multiplicity.lower = 1 ∧ multiplicity.upper = some 1 then ""
  else " [" ++ toString multiplicity.lower ++ ".." ++
    ((multiplicity.upper.map toString).getD "*") ++ "]"

/-- One turn of the loop of `renderRecord`. -/
def renderField (field : Field) (types : List TypeDefinition) : Emitted Attribute :=
  let name := field.named.identifier
  let target := fieldType field types
  (name.1.bind fun name => target.1.map fun target =>
      ⟨field.identity, name, target, cardinality field.multiplicity⟩,
    refuseUnmappedMembers (some field.origin)
        [("constraints", field.constraints), ("extensions", field.extensions)] ++
      (if field.defaultKind ≠ .none ∨ field.nullable = true then
        [field.named.refuse "field default or nullability has no SysML mapping"] else []) ++
      name.2 ++ target.2)

def renderRecord (type : TypeDefinition) (types : List TypeDefinition) : Emitted Definition :=
  match type.named.identifier with
  | (none, diagnostics) => (none, diagnostics)
  | (some name, diagnostics) =>
    let fields := type.fields.map fun field => renderField field types
    (some (.item type.identity name (fields.filterMap Prod.fst)),
      diagnostics ++ fields.flatMap Prod.snd)

def renderEnum (type : TypeDefinition) : Emitted Definition :=
  match type.named.identifier with
  | (none, diagnostics) => (none, diagnostics)
  | (some name, diagnostics) =>
    let variants := type.variants.map fun variant => variant.named.identifier
    (some (.enumeration type.identity name (variants.filterMap Prod.fst)),
      diagnostics ++ variants.flatMap Prod.snd)

def renderAlias (type : TypeDefinition) (types : List TypeDefinition) : Emitted Definition :=
  let name := type.named.identifier
  match type.target.bind (typeOf types) with
  | none => (none, name.2 ++ [type.named.refuse ("alias target " ++
      fragment (type.target.getD "undefined") ++
        " names no declared type and has no SysML mapping")])
  | some target =>
    let targetName := match scalarName target with
      | some scalar => (some scalar, [])
      | none => target.named.identifier
    (name.1.bind fun name => targetName.1.map fun target => .alias type.identity name target,
      name.2 ++ targetName.2)

def Kind.label : Kind → String
  | scalar => "scalar"
  | record => "record"
  | enum => "enum"
  | .alias => "alias"
  | other text => text

/-- `renderType` after the members without a mapping are refused. -/
def renderKind (type : TypeDefinition) (types : List TypeDefinition) : Emitted Definition :=
  match type.kind with
  | .other text => (none, [type.named.refuse ("kind " ++ fragment text ++ " has no SysML mapping")])
  | kind =>
    if type.isAbstract then
      (none, [type.named.refuse "abstract type semantics have no SysML mapping"])
    else if type.supertypes ≠ [] then
      (none, [type.named.refuse "supertypes have no SysML mapping"])
    else if type.identityFields ≠ [] then
      (none, [type.named.refuse "identity fields have no SysML mapping"])
    else
      match kind with
      | .scalar => (none, if (scalarName type).isSome then [] else
        [type.named.refuse ("scalar " ++ fragment ((type.scalar.map Scalar.text).getD "undefined") ++
          " has no SysML mapping")])
      | .record => renderRecord type types
      | .enum => renderEnum type
      | _ => renderAlias type types

def renderType (type : TypeDefinition) (types : List TypeDefinition) : Emitted Definition :=
  let rendered := renderKind type types
  (rendered.1, refuseUnmappedMembers (some type.origin)
    [("clauses", type.clauses), ("constraints", type.constraints),
      ("extensions", type.extensions), ("operations", type.operations),
      ("relationships", type.relationships), ("members", type.members)] ++ rendered.2)

/-! ### The package -/

/-- The package that is written; its text is all of the file. -/
structure Package where
  name : String
  doc : String
  definitions : List Definition
  deriving DecidableEq, Repr

def Package.text (package : Package) : String :=
  "\n".intercalate (["package " ++ package.name ++ " \x7b", "  doc /* " ++ package.doc ++ " */"] ++
    package.definitions.map Definition.text ++ ["\x7d", ""])

inductive State where
  | success | unsupported
  deriving DecidableEq, Repr

structure File where
  path : String
  mediaType : String
  identities : List String
  text : String
  deriving DecidableEq, Repr

structure Result where
  state : State
  files : List File
  diagnostics : List Diagnostic
  deriving DecidableEq

def provenance (ir : Document) : String :=
  "source " ++ ir.sourceIdentity ++ "; digest undefined; contract " ++ ir.contractVersion ++
    "; generator ix://agent-ix/filament-core-data/sysml-target"

def rendered (ir : Document) : List (Emitted Definition) :=
  ir.types.map fun type => renderType type ir.types

def diagnosticsOf (ir : Document) : List Diagnostic :=
  refuseUnmappedMembers none [("extensions", ir.extensions), ("constructs", ir.constructs)] ++
    checkIdentityTailCollisions ir.types ++ (rendered ir).flatMap Prod.snd ++
    ir.occurrences.map fun occurrence =>
      unsupported occurrence.identity occurrence.origin "occurrence has no SysML mapping"

/-- The origin the package is located by: the first type with a source. -/
def packageOrigin (ir : Document) : Option Origin :=
  (ir.types.find? fun type => type.origin.source.isSome).map TypeDefinition.origin

/-- The package under a name, with the definitions that were rendered. -/
def packageOf (ir : Document) (name : String) : Package where
  name := name
  doc := "semantic identity: " ++ ir.packageIdentity ++ "; " ++ provenance ir
  definitions := (rendered ir).filterMap Prod.fst

def generate (ir : Document) : Result :=
  let diagnostics := diagnosticsOf ir
  if diagnostics.any fun entry => entry.code.blocking then ⟨.unsupported, [], diagnostics⟩
  else
    match identifier (packageShortName ir.packageIdentity) (some ir.packageIdentity)
      (packageOrigin ir) with
    | (none, refused) => ⟨.unsupported, [], diagnostics ++ refused⟩
    | (some name, _) => ⟨.success, [⟨"model.sysml", "text/x-sysml",
        (ir.types.filter fun type => type.kind != .scalar).map TypeDefinition.identity,
        (packageOf ir name).text⟩], diagnostics⟩

end FilamentCore.Backends.Sysml
