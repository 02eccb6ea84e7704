import FilamentCore.SemanticIr.TypeSchema

/-!
# The reading of a document (crates/semantic-ir/src/rules.rs)

What the cross-field rules and the classifier share: the types by identity, the features, what
a reference resolves to, and every position that holds a type reference. The source keeps
what a walk found per identity; each walk is taken anew here.
-/

namespace FilamentCore.SemanticIr

/-! ### Native references -/

def clockTypeRef : String := "ix://quire/native/Clock"

def nativePrefix : String := "ix://quire/native/"

def nativeScalars : List (String × String) :=
  [("UUID", "uuid"), ("Boolean", "boolean"), ("Integer", "integer"), ("Decimal", "decimal"),
    ("Float32", "float32"), ("Float64", "float64"), ("String", "string"),
    ("Timestamp", "datetime"), ("Duration", "duration"), ("Bytes", "bytes"),
    ("JsonObject", "any"), ("Text", "string")]

def nativeScalar (identity : String) : Option String := do
  let name ← stripPrefix nativePrefix.toList identity.toList
  (nativeScalars.find? fun entry => entry.1.toList == name).map Prod.snd

def specialTypeRef (identity : String) : Bool :=
  identity == clockTypeRef || (stripPrefix "ix://quire/unit/".toList identity.toList).isSome

inductive Special where
  | clock
  | quantity
  deriving DecidableEq, Repr

/-- What an identity resolves to: a type definition, or the scalar of a native reference. -/
inductive Resolved where
  | node (definition : Json)
  | native (scalar : String)
  deriving DecidableEq

namespace Resolved

def kind : Resolved → String
  | node definition => (definition.getStr "kind").getD ""
  | native _ => "scalar"

def scalar : Resolved → String
  | node definition => (definition.getStr "scalar").getD ""
  | native scalar => scalar

end Resolved

/-! ### The document -/

structure Document where
  bundle : Json
  ir : Json
  types : List Json
  /-- The most links an alias chain may hold. -/
  aliasDepth : Option ℕ

/-- A node and where it stands. -/
structure Placed where
  pointer : String
  node : Json

def placedItems (node : Json) (at' name : String) : List Placed :=
  (node.members name).zipIdx.map fun item => ⟨index (child at' name) item.2, item.1⟩

namespace Document

def readWith (bundle : Json) (aliasDepth : Option ℕ) : Option Document :=
  (bundle.get "ir").map fun ir => ⟨bundle, ir, ir.members "types", aliasDepth⟩

def read (bundle : Json) : Option Document := readWith bundle none

variable (d : Document)

def placedTypes : List Placed := d.types.zipIdx.map fun t => ⟨index "/ir/types" t.2, t.1⟩

def byPosition (identity : String) : Option ℕ :=
  d.types.findIdx? fun definition => definition.getStr "identity" == some identity

def typeOf (identity : String) : Option Json :=
  d.types.find? fun definition => definition.getStr "identity" == some identity

/-- The fields of a type and the parameters of its operations. -/
def featuresOf (definition : Placed) : List Placed :=
  placedItems definition.node definition.pointer "fields" ++
  (placedItems definition.node definition.pointer "operations").flatMap fun operation =>
    placedItems operation.node operation.pointer "params"

def features : List Placed := d.placedTypes.flatMap featuresOf

def fieldOf (identity : String) : Option Placed :=
  d.features.find? fun feature => feature.node.getStr "identity" == some identity

/-- A type whose construct kind is declared with the alias shape. -/
def isConstructAlias (definition : Json) : Bool :=
  match definition.get "kind" with
  | none => false
  | some kind =>
    match kind.getStr "module", kind.getStr "name" with
    | some module, some name => (aliasKinds d.ir).contains (module, name)
    | _, _ => false

def isCoreAlias (definition : Json) : Bool := definition.getStr "kind" == some "alias"

def isAliasDefinition (definition : Json) : Bool :=
  isCoreAlias definition ||
    ((definition.getStr "identity").bind d.typeOf).any d.isConstructAlias

def typeOfOperation (identity : String) : Option Json :=
  d.types.find? fun definition =>
    (definition.members "operations").any fun operation =>
      operation.getStr "identity" == some identity

/-! ### Resolution -/

/-- The walk through features: a result, or the identity of no feature it stops at and the
references it passed. -/
def throughFeatures : ℕ → List String → String → Option (Resolved ⊕ String × List String)
  | 0, _, _ => none
  | steps + 1, seen, identity =>
    if identity = clockTypeRef then none
    else
      match nativeScalar identity with
      | some scalar => some (.inl (.native scalar))
      | none =>
        match d.fieldOf identity with
        | none => some (.inr (identity, seen))
        | some field =>
          match field.node.getStr "typeRef" with
          | none => none
          | some typeRef =>
            if seen.contains typeRef then none
            else throughFeatures steps (typeRef :: seen) typeRef

/-- The walk along aliases from a type definition, `hops` links in. -/
def throughAliases : ℕ → ℕ → List String → Json → Option Resolved
  | 0, _, _, _ => none
  | steps + 1, hops, seen, current =>
    if !isCoreAlias current && !d.isConstructAlias current then some (.node current)
    else
      match current.getStr "target" with
      | none => none
      | some target =>
        if target = clockTypeRef then none
        else
          match nativeScalar target with
          | some scalar => some (.native scalar)
          | none =>
            if seen.contains target || d.aliasDepth.any (fun limit => limit < hops + 1) then none
            else
              match d.typeOf target with
              | none => none
              | some next => throughAliases steps (hops + 1) (target :: seen) next

/-- `resolve`. No walk passes a reference twice, so each ends within the features and the
types there are. -/
def resolve (identity : String) : Option Resolved :=
  match d.throughFeatures (d.features.length + 1) [identity] identity with
  | none => none
  | some (.inl resolved) => some resolved
  | some (.inr (identity, seen)) =>
    (d.typeOf identity).bind (d.throughAliases (d.types.length + 1) 0 seen)

/-- The `inner` of the option value type an identity names. -/
def optionInner (identity : String) : Option String :=
  match d.resolve identity with
  | some (.node definition) =>
    if definition.getStr "kind" = some "option" then definition.getStr "inner" else none
  | _ => none

inductive OptionSpelling where
  | type
  | presence
  deriving DecidableEq, Repr

/-- The `Option<T>` a member of multiplicity `[1, 1]` is: `T` and the spelling. -/
def memberOption (member : Json) : Option (String × OptionSpelling) :=
  let one := (member.get "multiplicity").any fun multiplicity =>
    multiplicity.getI64 "lower" == some 1 && multiplicity.getI64 "upper" == some 1
  match member.getStr "typeRef" with
  | none => none
  | some typeRef =>
    if !one then none
    else
      match d.optionInner typeRef with
      | some inner => some (inner, .type)
      | none =>
        if member.getStr "presence" = some "optional" then some (typeRef, .presence) else none

def specialWalk : ℕ → List String → String → Option Special
  | 0, _, _ => none
  | steps + 1, seen, at' =>
    if at' = clockTypeRef then some .clock
    else if isQuantityTypeRef at' then some .quantity
    else if seen.contains at' || (nativeScalar at').isSome then none
    else
      match d.fieldOf at' with
      | some field => (field.node.getStr "typeRef").bind (specialWalk steps (at' :: seen))
      | none =>
        match (d.typeOf at').filter d.isAliasDefinition with
        | none => none
        | some definition =>
          (definition.getStr "target").bind (specialWalk steps (at' :: seen))

/-- Whether an identity is, or reaches, a clock or a quantity reference. -/
def specialOf (identity : String) : Option Special :=
  d.specialWalk (d.features.length + d.types.length + 2) [] identity

/-! ### Decimal policies -/

/-- A node that carries a `decimal` member. -/
def ownPolicy (subject : Placed) : List Placed :=
  if subject.node.has "decimal" then [subject] else []

/-- The policies crossed from an identity to its terminal scalar, nearest first. -/
def policySuffix : ℕ → List String → String → List Placed
  | 0, _, _ => []
  | steps + 1, seen, current =>
    if (nativeScalar current).isSome || seen.contains current then []
    else
      match d.fieldOf current with
      | some field =>
        match field.node.getStr "typeRef" with
        | none => []
        | some typeRef => ownPolicy field ++ policySuffix steps (current :: seen) typeRef
      | none =>
        match (d.byPosition current).bind fun position => d.placedTypes[position]? with
        | none => []
        | some definition =>
          if isCoreAlias definition.node then
            match definition.node.getStr "target" with
            | none => []
            | some target => ownPolicy definition ++ policySuffix steps (current :: seen) target
          else ownPolicy definition

def decimalPolicySuffix (identity : String) : List Placed :=
  d.policySuffix (d.features.length + d.types.length + 2) [] identity

/-- The policies of a reference, the owner of the position first unless it is the one nearest to
the scalar, which is the one the source keeps as the first of the walk. -/
def decimalPoliciesFrom (identity : String) (owner : Option Placed) : List Placed :=
  let suffix := d.decimalPolicySuffix identity
  match owner with
  | none => suffix
  | some owner =>
    if suffix.getLast?.any fun first => first.pointer == owner.pointer then suffix
    else ownPolicy owner ++ suffix

/-- The precision and scale of the policy that the walk keeps. -/
def decimalPolicy (identity : String) : Option (ℕ × ℕ) := do
  let first ← (d.decimalPoliciesFrom identity none).getLast?
  let policy ← first.node.get "decimal"
  let precision ← policy.getI64 "precision"
  let scale ← policy.getI64 "scale"
  if precision < 0 ∨ scale < 0 then none
  else some (precision.toNat % 2 ^ 32, scale.toNat % 2 ^ 32)

/-! ### Type positions -/

inductive TypePositionKind where
  | fieldType | parameterType | operationReturn | constraintSubject | aliasTarget
  | referenceTarget | sequenceItems | mapValues | variantPayload | tuplePosition | optionInner
  deriving DecidableEq, Repr

namespace TypePositionKind

def missingMessage : TypePositionKind → String
  | fieldType => "a decimal field carries a decimal policy"
  | parameterType => "a decimal parameter carries a decimal policy"
  | operationReturn => "a decimal operation return carries a decimal policy"
  | constraintSubject => "a decimal constraint carries a decimal policy"
  | aliasTarget => "a decimal alias target carries a decimal policy"
  | referenceTarget => "a decimal reference target carries a decimal policy"
  | sequenceItems => "a decimal sequence item type carries a decimal policy"
  | mapValues => "a decimal map value type carries a decimal policy"
  | variantPayload => "a decimal variant payload type carries a decimal policy"
  | tuplePosition => "a decimal tuple position type carries a decimal policy"
  | optionInner => "a decimal option inner type carries a decimal policy"

/-- A field, a parameter or a return, whose subject may be a clock or a quantity member. -/
def isMember (kind : TypePositionKind) : Bool :=
  kind = fieldType ∨ kind = parameterType ∨ kind = operationReturn

end TypePositionKind

/-- A position that holds a type reference: the reference, the node that owns it, and where a
defect of it is reported. -/
structure TypePosition where
  kind : TypePositionKind
  identity : String
  subject : Placed
  pointer : String

def positionAt (kind : TypePositionKind) (subject : Placed) (member pointer : String) :
    List TypePosition :=
  match subject.node.getStr member with
  | none => []
  | some identity => [⟨kind, identity, subject, pointer⟩]

def constraintPositions (node : Json) (at' : String) : List TypePosition :=
  (placedItems node at' "constraints").flatMap fun constraint =>
    positionAt .constraintSubject constraint "appliesTo" constraint.pointer

/-- Fields or parameters; the constraints of a clock or quantity member hold no position. -/
def fieldPositions (kind : TypePositionKind) (fields : List Placed) : List TypePosition :=
  fields.flatMap fun field =>
    positionAt kind field "typeRef" field.pointer ++
    if ((field.node.getStr "typeRef").bind d.specialOf).isSome then []
    else constraintPositions field.node field.pointer

def kindPosition (definition : Placed) : List TypePosition :=
  let position := fun kind member =>
    positionAt kind definition member (child definition.pointer member)
  if d.isAliasDefinition definition.node then position .aliasTarget "target"
  else
    match definition.node.getStr "kind" with
    | some "reference" => position .referenceTarget "target"
    | some "sequence" => position .sequenceItems "items"
    | some "map" => position .mapValues "values"
    | some "option" => position .optionInner "inner"
    | _ => []

def operationPositions (operation : Placed) : List TypePosition :=
  d.fieldPositions .parameterType (placedItems operation.node operation.pointer "params") ++
  match operation.node.get "returns" with
  | none => []
  | some returns =>
    let returnsAt := child operation.pointer "returns"
    positionAt .operationReturn ⟨returnsAt, returns⟩ "typeRef" returnsAt

def positionsOf (definition : Placed) : List TypePosition :=
  d.kindPosition definition ++
  ((placedItems definition.node definition.pointer "variants").flatMap fun variant =>
    positionAt .variantPayload variant "payloadType" (child variant.pointer "payloadType")) ++
  ((placedItems definition.node definition.pointer "positions").flatMap fun position =>
    positionAt .tuplePosition position "typeRef" (child position.pointer "typeRef")) ++
  constraintPositions definition.node definition.pointer ++
  d.fieldPositions .fieldType (placedItems definition.node definition.pointer "fields") ++
  (placedItems definition.node definition.pointer "operations").flatMap d.operationPositions

def typePositions : List TypePosition := d.placedTypes.flatMap d.positionsOf

/-! ### Identity declarations -/

/-- The nodes of a definition that declare an identity, in document order. -/
def declarationsOf (definition : Placed) : List Placed :=
  let items := placedItems definition.node definition.pointer
  definition ::
    (["constraints", "fields", "variants", "positions", "relationships"].flatMap items ++
    ((items "operations").flatMap fun operation =>
      operation :: placedItems operation.node operation.pointer "params") ++
    ["clauses", "states", "transitions", "steps"].flatMap items)

def identityDeclarations : List (String × String) :=
  (d.placedTypes.flatMap declarationsOf ++ placedItems d.ir "/ir" "populations" ++
    placedItems d.ir "/ir" "occurrences").filterMap fun declaration =>
      (declaration.node.getStr "identity").map fun identity =>
        (child declaration.pointer "identity", identity)

def declaredIdentities : List String := d.identityDeclarations.map Prod.snd

end Document
end FilamentCore.SemanticIr
