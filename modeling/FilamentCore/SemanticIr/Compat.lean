import FilamentCore.SemanticIr.Verdict

/-!
# The compatibility classifier (crates/semantic-ir/src/compat.rs)

Every comparison returns the classifications it notes; the report keeps the worst of them.
-/

namespace FilamentCore.SemanticIr

inductive Classification where
  | patch | additive | conditional | unknown | breaking | invalid
  deriving DecidableEq, Repr

namespace Classification

def rank : Classification → ℕ
  | patch => 0
  | additive => 1
  | conditional => 2
  | unknown => 3
  | breaking => 4
  | invalid => 5

theorem rank_injective : Function.Injective rank := by
  intro a b h
  cases a <;> cases b <;> simp_all [rank]

/-- The declared order: the later, the more restrictive. -/
instance : LinearOrder Classification := LinearOrder.lift' rank rank_injective

def note (worst classification : Classification) : Classification :=
  if worst < classification then classification else worst

/-- The report of a run of notes. -/
def worst (notes : List Classification) : Classification := notes.foldl note patch

def noteIf (changed : Prop) [Decidable changed] (classification : Classification) :
    List Classification := if changed then [classification] else []

end Classification

open Classification (noteIf)

namespace Compat

def identityOr (node : Json) : String := (identityOf node).getD ""

def counterpart (node : Json) (others : List Json) : Option Json :=
  others.find? fun other => identityOr other == identityOr node

def added (before after : List Json) : List Json :=
  after.filter fun node => (counterpart node before).isNone

/-- What is noted of each earlier entry and its counterpart, and of each entry without one. -/
def compareLists (before after : List Json) (removed : Classification)
    (retained : Json → Json → List Classification) (addition : Json → List Classification) :
    List Classification :=
  (before.flatMap fun node =>
    match counterpart node after with
    | none => [removed]
    | some other => retained node other) ++
  (added before after).flatMap addition

/-- `to_canonical_string(left) == to_canonical_string(right)`. -/
def sameText (left right : Json) : Prop := left.canonical = right.canonical

instance (left right : Json) : Decidable (sameText left right) :=
  inferInstanceAs (Decidable (_ = _))

def stripOrigin (node : Json) : Json :=
  match node with
  | .object members => .object (members.filter fun m => m.1 ≠ "origin")
  | _ => node

/-! ### Extensions -/

def isRequired (extension : Json) : Bool := extension.getBool "required" == some true

def retainedExtension (extension other : Json) : List Classification :=
  if !isRequired extension && isRequired other then [.breaking]
  else if isRequired extension && !isRequired other then [.additive]
  else noteIf (¬ sameText extension other) .conditional

def addedExtension (extension : Json) : List Classification :=
  if isRequired extension then [.breaking] else [.additive]

def compareExtensions (before after : Document) : List Classification :=
  compareLists (before.ir.members "extensions") (after.ir.members "extensions") .breaking
    retainedExtension addedExtension

/-! ### Constraints -/

/-- A constraint operand read as a number. -/
inductive Bound where
  | integer (value : ℤ)
  | float (value : ℚ)
  deriving DecidableEq, Repr

namespace Bound

def of (value : Json) : Option Bound :=
  match value.asStr with
  | some text => (parseI128 text).map integer
  | none =>
    match value.asI64 with
    | some number => some (integer number)
    | none => value.asF64.map float

/-- `float(self)`; the nearest `f64` of an `i128`. -/
def toFloat : Bound → ℚ
  | integer number => (binary64 number).getD number
  | float number => number

def exceeds : Bound → Bound → Bool
  | integer left, integer right => right < left
  | left, right => right.toFloat < left.toFloat

end Bound

def operandOf (constraint : Json) : Option Bound :=
  ((constraint.get "operands").bind (·.get "value")).bind Bound.of

/-- Whether the later bound of a keyword is tighter; `none` for a keyword that is no bound. -/
def tightens (keyword : String) (before after : Bound) : Option Bool :=
  if ["min", "minLength", "exclusiveMin"].contains keyword then some (after.exceeds before)
  else if ["max", "maxLength", "exclusiveMax"].contains keyword then some (before.exceeds after)
  else none

def operandMove (earlier later : Json) : Classification :=
  let keyword := (earlier.getStr "keyword").getD ""
  if later.getStr "keyword" ≠ some keyword then .conditional
  else
    match operandOf earlier, operandOf later with
    | some before, some after =>
      match tightens keyword before after with
      | some false => .additive
      | _ => .conditional
    | _, _ => .conditional

def retainedConstraint (constraint other : Json) : List Classification :=
  if sameText constraint other then [] else [operandMove constraint other]

def compareConstraints (earlier later : Json) : List Classification :=
  compareLists (earlier.members "constraints") (later.members "constraints") .additive
    retainedConstraint fun _ => [.conditional]

/-! ### References -/

def resolvedKey (d : Document) (identity : Option String) : String :=
  match identity with
  | none => ""
  | some identity =>
    match d.resolve identity with
    | some (.node resolved) => (identityOf resolved).getD identity
    | _ => identity

/-! ### Fields -/

structure Effective where
  lower : ℤ
  upper : Option ℤ
  ordered : Bool
  unique : Bool
  deriving DecidableEq, Repr

/-- The declared multiplicity, or the one derived from `presence` when none is declared. -/
def effectiveMultiplicity (field : Json) : Effective :=
  match field.get "multiplicity" with
  | some (.object members) =>
    let multiplicity := Json.object members
    ⟨(multiplicity.getI64 "lower").getD 0, multiplicity.getI64 "upper",
      multiplicity.getBool "ordered" == some true, multiplicity.getBool "unique" == some true⟩
  | _ => ⟨if field.getStr "presence" = some "required" then 1 else 0, some 1, false, false⟩

def narrowed (before after : Effective) : Bool :=
  before.lower < after.lower ||
    match before.upper, after.upper with
    | none, some _ => true
    | some before, some after => after < before
    | _, _ => false

def widened (before after : Effective) : Bool :=
  after.lower < before.lower ||
    match before.upper, after.upper with
    | some _, none => true
    | some before, some after => before < after
    | _, _ => false

def compareField (before after : Document) (earlier later : Json) : List Classification :=
  let was := effectiveMultiplicity earlier
  let is := effectiveMultiplicity later
  noteIf (earlier.get "name" ≠ later.get "name") .breaking ++
  noteIf (resolvedKey before (earlier.getStr "typeRef") ≠
    resolvedKey after (later.getStr "typeRef")) .breaking ++
  noteIf ((earlier.getBool "nullable").getD false ≠ (later.getBool "nullable").getD false)
    .breaking ++
  noteIf (earlier.getStr "unit" ≠ later.getStr "unit") .breaking ++
  noteIf (was.ordered ≠ is.ordered ∨ was.unique ≠ is.unique) .breaking ++
  (if narrowed was is then [.breaking] else if widened was is then [.additive] else []) ++
  noteIf (earlier.get "defaultKind" ≠ later.get "defaultKind" ∨
    earlier.get "defaultValue" ≠ later.get "defaultValue") .conditional

/-- An optional field addition is `additive` only under a consumer policy that preserves or
surfaces unknown members. -/
def optionalAddition (bundle : Json) : Classification :=
  let policy := (bundle.get "consumerPolicy").bind (·.getStr "unknownExtensions")
  if policy = some "preserve" ∨ policy = some "surface" then .additive else .conditional

def addedField (bundle field : Json) : List Classification :=
  if 1 ≤ (effectiveMultiplicity field).lower then [.breaking] else [optionalAddition bundle]

def compareFields (before after : Document) (earlier later : Json) : List Classification :=
  compareLists (earlier.members "fields") (later.members "fields") .breaking
    (compareField before after) (addedField after.bundle)

/-! ### Variants, positions and relationships -/

def compareVariant (before after : Document) (variant other : Json) : List Classification :=
  noteIf (variant.get "name" ≠ other.get "name") .breaking ++
  noteIf (resolvedKey before (variant.getStr "payloadType") ≠
    resolvedKey after (other.getStr "payloadType")) .breaking

def compareVariants (before after : Document) (earlier later : Json) : List Classification :=
  compareLists (earlier.members "variants") (later.members "variants") .breaking
    (compareVariant before after) fun _ => [.conditional]

def comparePosition (before after : Document) (earlier later : Json) : List Classification :=
  noteIf (identityOr earlier ≠ identityOr later ∨
    resolvedKey before (earlier.getStr "typeRef") ≠ resolvedKey after (later.getStr "typeRef"))
    .breaking

/-- A tuple's positions are an ordered product. -/
def comparePositions (before after : Document) (earlier later : Json) : List Classification :=
  let was := earlier.members "positions"
  let is := later.members "positions"
  noteIf (was.length ≠ is.length) .breaking ++
  (was.zip is).flatMap fun pair => comparePosition before after pair.1 pair.2

def compareRelationships (earlier later : Json) : List Classification :=
  compareLists (earlier.members "relationships") (later.members "relationships") .breaking
    (fun relationship other =>
      noteIf (¬ sameText (stripOrigin relationship) (stripOrigin other)) .breaking)
    fun _ => [.conditional]

/-! ### Operations and clauses -/

/-- Parameters are compared in order; any note but `patch` changes the signature. -/
def signatureChanged (before after : Document) (operation other : Json) : Prop :=
  let was := operation.members "params"
  let is := other.members "params"
  was.length ≠ is.length ∨ ∃ pair ∈ was.zip is,
    identityOr pair.1 ≠ identityOr pair.2 ∨
      Classification.worst (compareField before after pair.1 pair.2) ≠ .patch

instance (before after : Document) (operation other : Json) :
    Decidable (signatureChanged before after operation other) :=
  inferInstanceAs (Decidable (_ ∨ ∃ pair ∈ _, _))

def compareOperation (before after : Document) (operation other : Json) :
    List Classification :=
  noteIf (signatureChanged before after operation other) .breaking ++
  noteIf (operation.get "name" ≠ other.get "name" ∨
    ¬ sameText ((operation.get "returns").getD .null) ((other.get "returns").getD .null))
    .breaking ++
  ["pre", "post"].flatMap fun binding =>
    noteIf (operation.get binding ≠ other.get binding) .conditional

def compareOperations (before after : Document) (earlier later : Json) : List Classification :=
  compareLists (earlier.members "operations") (later.members "operations") .breaking
    (compareOperation before after) fun _ => [.conditional]

/-- A clause carries text the IR never parses. -/
def compareClauses (earlier later : Json) : List Classification :=
  compareLists (earlier.members "clauses") (later.members "clauses") .unknown
    (fun clause other => noteIf (¬ sameText (stripOrigin clause) (stripOrigin other)) .unknown)
    fun _ => [.unknown]

/-! ### Types -/

def policyRank (policy : Option String) : ℤ :=
  if policy = some "preserve" then 0
  else if policy = some "surface" then 1
  else if policy = some "reject" then 2
  else -1

def comparePolicy (earlier later : Json) : List Classification :=
  let was := policyRank (earlier.getStr "unknownPolicy")
  let is := policyRank (later.getStr "unknownPolicy")
  if was < is then [.breaking] else if is < was then [.additive] else []

def compareType (before after : Document) (earlier later : Json) : List Classification :=
  (["kind", "scalar"].flatMap fun member =>
    noteIf (earlier.get member ≠ later.get member) .breaking) ++
  (["target", "items", "values"].flatMap fun member =>
    noteIf (resolvedKey before (earlier.getStr member) ≠ resolvedKey after (later.getStr member))
      .breaking) ++
  comparePolicy earlier later ++
  compareConstraints earlier later ++
  compareFields before after earlier later ++
  compareVariants before after earlier later ++
  comparePositions before after earlier later ++
  compareRelationships earlier later ++
  compareOperations before after earlier later ++
  compareClauses earlier later

def compareDefinition (before after : Document) (definition : Json) : List Classification :=
  match identityOf definition with
  | none => []
  | some identity =>
    match after.typeOf identity with
    | none => [.breaking]
    | some later => compareType before after definition later

def compareDocuments (before after : Document) : List Classification :=
  noteIf (before.ir.get "contractVersion" ≠ after.ir.get "contractVersion") .conditional ++
  compareExtensions before after ++
  before.types.flatMap (compareDefinition before after)

end Compat

def classify (before after : Json) (beforeValid afterValid : Bool) : Classification :=
  if !beforeValid || !afterValid then .invalid
  else
    match Document.read before, Document.read after with
    | some before, some after => Classification.worst (Compat.compareDocuments before after)
    | _, _ => .invalid

end FilamentCore.SemanticIr
