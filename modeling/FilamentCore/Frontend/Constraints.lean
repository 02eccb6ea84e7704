import FilamentCore.Frontend.Document

/-!
# The constraints of a field row (crates/extraction-frontend/src/{lower,identity}.rs)

`lower_constraints`: each constraint of a row becomes a node with an identity of its own, unless its
keyword or its diagnostic code is taken or it does not apply. A number of `serde_json` is an integer
or a finite double, and what it displays as is a parameter.
-/

namespace FilamentCore.Frontend.Constraints
open FilamentCore.SemanticIr
open FilamentCore.Frontend.Document (ConstraintNode)

/-! ### Identity segments -/

inductive UnsluggableReason where
  | slug
  | memberName

structure Unsluggable where
  name : String
  reason : UnsluggableReason

def Unsluggable.message (u : Unsluggable) : String :=
  match u.reason with
  | .slug => "name `" ++ u.name ++
      "` slugs to the empty string; no identity segment can be minted from it"
  | .memberName => "name `" ++ u.name ++ "` is not a member name; a field, operation, operation " ++
      "parameter, clause id, state name or step name matches ^[A-Za-z][A-Za-z0-9_]*$"

def Unsluggable.diagnostic (u : Unsluggable) (locus : Locus) : Diagnostic :=
  .withDisposition .unsluggableName .frontend u.message (some locus)

/-- One character of a slug: what is written so far, and whether a separator is due. -/
def slugStep (state : List Char × Bool) (c : Char) : List Char × Bool :=
  if isAlphanumeric c then
    (if state.2 ∧ state.1 ≠ [] then state.1 ++ ['-', c] else state.1 ++ [c], false)
  else (state.1, true)

def slug (name : String) : Except Unsluggable String :=
  let out := (name.toList.foldl slugStep ([], false)).1
  if out = [] then .error ⟨name, .slug⟩ else .ok (String.ofList out)

def idSegment (id : String) : Except Unsluggable String :=
  let admitted := id.toList.all fun c =>
    isAlphanumeric c || c == '.' || c == '_' || c == '~' || c == '-'
  if !admitted || !id.toList.any isAlphanumeric then .error ⟨id, .slug⟩ else .ok id

/-- The segment of an id, then the slugs of names, joined by `-`. -/
def join (id : String) (names : List String) : Except Unsluggable String := do
  let first ← idSegment id
  let rest ← names.mapM slug
  return "-".intercalate (first :: rest)

structure PackageIdentity where
  org : String
  name : String

def PackageIdentity.constraintIdentity (p : PackageIdentity) (record field keyword : String) :
    Except Unsluggable String := do
  let tail ← join record [field, keyword]
  return "ix://" ++ p.org ++ "/" ++ p.name ++ "/constraint/" ++ tail

/-! ### Diagnostic codes -/

def asciiLower (c : Char) : Char := if isUpper c then Char.ofNat (c.toNat + 32) else c
def asciiUpper (c : Char) : Char := if isLower c then Char.ofNat (c.toNat - 32) else c

/-- A slug in upper case with `_` for `-`; `none` where the source panics. -/
def screaming (name : String) : Option String :=
  match slug name with
  | .ok s => some (String.ofList (s.toList.map fun c => asciiUpper (if c = '-' then '_' else c)))
  | .error _ => none

def diagnosticCode (package : PackageIdentity) (record field keyword : String) : Option String := do
  let name ← match slug package.name with
    | .ok s => some (String.ofList (s.toList.map asciiLower))
    | .error _ => none
  let owner ← screaming (record ++ "-" ++ field)
  let word ← screaming keyword
  some ("agent-ix." ++ name ++ "." ++ owner ++ "_" ++ word)

/-! ### Applicability -/

inductive ResolvedKind where
  | scalar (name : String)
  | record
  | enum
  deriving DecidableEq

inductive Keyword where
  | min | max | exclusiveMin | exclusiveMax | minLength | maxLength | pattern | enumValues
  | nonEmpty | unique | format
  deriving DecidableEq

def Keyword.name : Keyword → String
  | min => "min"
  | max => "max"
  | exclusiveMin => "exclusiveMin"
  | exclusiveMax => "exclusiveMax"
  | minLength => "minLength"
  | maxLength => "maxLength"
  | pattern => "pattern"
  | enumValues => "enumValues"
  | nonEmpty => "nonEmpty"
  | unique => "unique"
  | format => "format"

def Keyword.isBound : Keyword → Bool
  | min | max | exclusiveMin | exclusiveMax => true
  | _ => false

/-- The `(kind, scalar)` pair that the applicability table is keyed by. -/
def ResolvedKind.pair : ResolvedKind → String × String
  | scalar name => ("scalar", name)
  | record => ("record", "")
  | enum => ("enumeration", "")

def appliesTo (keyword : Keyword) (kind : ResolvedKind) : Bool :=
  match keyword, kind with
  | .min, .scalar s | .max, .scalar s | .exclusiveMin, .scalar s | .exclusiveMax, .scalar s =>
    ["integer", "decimal", "float32", "float64", "date", "datetime", "duration"].contains s
  | .minLength, .scalar s | .maxLength, .scalar s | .nonEmpty, .scalar s =>
    ["string", "bytes"].contains s
  | .pattern, .scalar s | .format, .scalar s => s == "string"
  | .enumValues, .scalar _ | .enumValues, .enum => true
  | _, _ => false

/-! ### Numbers of `serde_json` -/

structure Double where
  negative : Bool
  magnitude : ℚ
  finite : binary64 magnitude = some magnitude
  nonneg : 0 ≤ magnitude

inductive SerdeNumber where
  | posInt (n : ℕ) (fits : n < 2 ^ 64)
  | negInt (z : ℤ) (fits : -2 ^ 63 ≤ z ∧ z < 0)
  | float (x : Double)

section Display

variable (display : Double → String)

/-- `number.to_string()`. -/
def SerdeNumber.text : SerdeNumber → String
  | posInt n _ => toString n
  | negInt z _ => toString z
  | float x => display x

/-- A value of `serde_json`: a number, or another one. -/
inductive Value where
  | number (n : SerdeNumber)
  | other (value : Json)

def Value.toJson : Value → Json
  | number n =>
    if h : (readNumber (n.text display)).isSome = true then .number ⟨n.text display, h⟩ else .null
  | other value => value

/-! ### Constraints -/

inductive Constraint where
  | min (value : Value)
  | max (value : Value)
  | exclusiveMin (value : Value)
  | exclusiveMax (value : Value)
  | minLength (value : SerdeNumber)
  | maxLength (value : SerdeNumber)
  | pattern (regex dialect : String)
  | enumValues (values : List Value)
  | nonEmpty
  | unique
  | format (name : String)

def keywordAndOperands : Constraint → Keyword × List (String × Value)
  | .min value => (.min, [("value", value)])
  | .max value => (.max, [("value", value)])
  | .exclusiveMin value => (.exclusiveMin, [("value", value)])
  | .exclusiveMax value => (.exclusiveMax, [("value", value)])
  | .minLength value => (.minLength, [("value", .number value)])
  | .maxLength value => (.maxLength, [("value", .number value)])
  | .pattern regex dialect =>
    (.pattern, [("regex", .other (.str regex)), ("dialect", .other (.str dialect))])
  | .enumValues values =>
    (.enumValues, [("values", .other (.array (values.map (Value.toJson display))))])
  | .nonEmpty => (.nonEmpty, [])
  | .unique => (.unique, [])
  | .format name => (.format, [("name", .other (.str name))])

/-- The operand `value` of a bound, spelled when it is a number. -/
def spellValue (operands : List (String × Value)) : List (String × Value) :=
  operands.map fun m =>
    match m with
    | ("value", .number n) => ("value", .other (.str (n.text display)))
    | m => m

/-- Decimal bounds, then integer bounds. -/
def exactOperands (kind : Option ResolvedKind) (keyword : Keyword)
    (operands : List (String × Value)) : List (String × Value) :=
  let operands := if kind = some (.scalar "decimal") ∧ keyword.isBound then
    spellValue display operands else operands
  if kind = some (.scalar "integer") ∧ keyword.isBound then spellValue display operands
  else operands

/-- A diagnostic, and the earlier node that `with_related` names. -/
structure Reported where
  diagnostic : Diagnostic
  related : Option Locus

/-- What the loop over the constraints of a row carries. -/
structure Row where
  keywords : List Keyword
  codes : List (String × Locus)
  out : List ConstraintNode
  diagnostics : List Reported

structure RowContext where
  package : PackageIdentity
  id : String
  displayName : String
  name : String
  fieldIdentity : String
  kind : Option ResolvedKind
  locus : Locus

def Row.report (row : Row) (diagnostic : Diagnostic) (related : Option Locus) : Row :=
  { row with diagnostics := row.diagnostics ++ [⟨diagnostic, related⟩] }

def Row.refuse (row : Row) (code : Code) (message : String) (locus : Locus)
    (related : Option Locus) : Row :=
  row.report (.withDisposition code .frontend message (some locus)) related

/-- What a kind and its scalar read as in a message. -/
def resolvedName (kind : ResolvedKind) : String :=
  let (k, s) := kind.pair
  if s = "" then k else k ++ " " ++ s

/-- One round of `lower_constraints`; `none` where the source panics. -/
def lowerConstraint (ctx : RowContext) (row : Row) (constraint : Constraint) : Option Row :=
  let (keyword, operands) := keywordAndOperands display constraint
  if keyword ∈ row.keywords then
    some (row.refuse .duplicateConstraint
      ("field " ++ ctx.name ++ " carries the constraint keyword `" ++ keyword.name ++ "` twice")
      ctx.locus none)
  else do
    let row := { row with keywords := keyword :: row.keywords }
    let code ← diagnosticCode ctx.package ctx.displayName ctx.name keyword.name
    match row.codes.lookup code with
    | some first =>
      some (row.refuse .duplicateConstraint
        ("constraint `" ++ keyword.name ++ "` of field " ++ ctx.name ++ " yields diagnosticCode " ++
          code ++ ", already minted at line " ++ toString first.startLine) ctx.locus (some first))
    | none =>
      match ctx.kind.filter fun kind => !appliesTo keyword kind with
      | some kind =>
        some (row.refuse .constraintNotApplicable
          ("constraint `" ++ keyword.name ++ "` does not apply to field " ++ ctx.name ++
            ", whose type resolves to " ++ resolvedName kind ++
            " (crates/semantic-ir/RULES.md applicability table)") ctx.locus none)
      | none =>
        match ctx.package.constraintIdentity ctx.id ctx.name keyword.name with
        | .error unsluggable => some (row.report (unsluggable.diagnostic ctx.locus) none)
        | .ok identity =>
          some { row with
            codes := (code, ctx.locus) :: row.codes
            out := row.out ++ [{
              identity
              keyword := keyword.name
              operands := (exactOperands display ctx.kind keyword operands).map fun m =>
                (m.1, m.2.toJson display)
              appliesTo := ctx.fieldIdentity
              diagnosticCode := code
              origin := ctx.locus }] }

/-- `lower_constraints`, with the codes that the record's earlier rows minted. -/
def lowerConstraints (ctx : RowContext) (codes : List (String × Locus))
    (constraints : List Constraint) : Option Row :=
  constraints.foldlM (lowerConstraint display ctx) ⟨[], codes, [], []⟩

end Display

end FilamentCore.Frontend.Constraints
