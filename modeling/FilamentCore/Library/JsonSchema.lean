import FilamentCore.Library.JsonValue

/-!
# The meaning of JSON Schema 2020-12

Whether a schema accepts a value, and which members and items of it the schema evaluated.
Regular expressions and the schemas references lead to are parameters. A keyword the
vocabularies do not name asserts nothing.
-/

namespace FilamentCore.Library.JsonSchema
open Json

/-! ### Outcomes -/

structure Evaluated where
  names : Finset String
  indices : Finset ℕ
deriving DecidableEq

namespace Evaluated

def none : Evaluated := ⟨∅, ∅⟩
def join (a b : Evaluated) : Evaluated := ⟨a.names ∪ b.names, a.indices ∪ b.indices⟩

end Evaluated

/-- What an accepted value had evaluated; `none` of a refused one. -/
abbrev Outcome := Option Evaluated
abbrev Check := Json → Outcome

def accept : Outcome := some Evaluated.none

def assert (holds : Bool) : Outcome := if holds then accept else none

def both (a b : Outcome) : Outcome := a.bind fun x => b.map fun y => x.join y

def allOf (outcomes : List Outcome) : Outcome := outcomes.foldr both accept

def anyOf (outcomes : List Outcome) : Outcome :=
  if outcomes.any Option.isSome then allOf (outcomes.filter Option.isSome) else none

def oneOf (outcomes : List Outcome) : Outcome :=
  if outcomes.countP Option.isSome = 1 then allOf (outcomes.filter Option.isSome) else none

/-! ### Keywords -/

inductive Assertion where
  | type | const | enum | multipleOf | maximum | exclusiveMaximum | minimum | exclusiveMinimum
  | maxLength | minLength | pattern | maxItems | minItems | uniqueItems | maxProperties
  | minProperties | required | dependentRequired
deriving DecidableEq

def Assertion.all : List Assertion :=
  [.type, .const, .enum, .multipleOf, .maximum, .exclusiveMaximum, .minimum, .exclusiveMinimum,
    .maxLength, .minLength, .pattern, .maxItems, .minItems, .uniqueItems, .maxProperties,
    .minProperties, .required, .dependentRequired]

def Assertion.keyword : Assertion → String
  | type => "type"
  | const => "const"
  | enum => "enum"
  | multipleOf => "multipleOf"
  | maximum => "maximum"
  | exclusiveMaximum => "exclusiveMaximum"
  | minimum => "minimum"
  | exclusiveMinimum => "exclusiveMinimum"
  | maxLength => "maxLength"
  | minLength => "minLength"
  | pattern => "pattern"
  | maxItems => "maxItems"
  | minItems => "minItems"
  | uniqueItems => "uniqueItems"
  | maxProperties => "maxProperties"
  | minProperties => "minProperties"
  | required => "required"
  | dependentRequired => "dependentRequired"

/-- Keywords whose operand is a number or a text the applicators read. -/
inductive Operand where
  | ref | dynamicRef | minContains | maxContains
deriving DecidableEq

def Operand.keyword : Operand → String
  | ref => "$ref"
  | dynamicRef => "$dynamicRef"
  | minContains => "minContains"
  | maxContains => "maxContains"

/-- Keywords whose operand is a schema. -/
inductive Applicator where
  | not | «if» | «then» | «else» | items | contains | additionalProperties | propertyNames
  | unevaluatedItems | unevaluatedProperties
deriving DecidableEq

def Applicator.keyword : Applicator → String
  | not => "not"
  | «if» => "if"
  | «then» => "then"
  | «else» => "else"
  | items => "items"
  | contains => "contains"
  | additionalProperties => "additionalProperties"
  | propertyNames => "propertyNames"
  | unevaluatedItems => "unevaluatedItems"
  | unevaluatedProperties => "unevaluatedProperties"

/-- Keywords whose operand is an array of schemas. -/
inductive ListApplicator where
  | allOf | anyOf | oneOf | prefixItems
deriving DecidableEq

def ListApplicator.keyword : ListApplicator → String
  | allOf => "allOf"
  | anyOf => "anyOf"
  | oneOf => "oneOf"
  | prefixItems => "prefixItems"

/-- Keywords whose operand is an object of schemas. -/
inductive MapApplicator where
  | properties | patternProperties | dependentSchemas
deriving DecidableEq

def MapApplicator.keyword : MapApplicator → String
  | properties => "properties"
  | patternProperties => "patternProperties"
  | dependentSchemas => "dependentSchemas"

/-- The vocabulary's keywords, those that only describe left out. -/
def keywords : List String :=
  Assertion.all.map Assertion.keyword ++
    [Operand.ref, .dynamicRef, .minContains, .maxContains].map Operand.keyword ++
    [Applicator.not, .if, .then, .else, .items, .contains, .additionalProperties, .propertyNames,
      .unevaluatedItems, .unevaluatedProperties].map Applicator.keyword ++
    [ListApplicator.allOf, .anyOf, .oneOf, .prefixItems].map ListApplicator.keyword ++
    [MapApplicator.properties, .patternProperties, .dependentSchemas].map MapApplicator.keyword

/-- What the keywords of one schema object hold. -/
structure Reading where
  assertion : Assertion → Option Json
  operand : Operand → Option Json
  schema : Applicator → Option Check
  listed : ListApplicator → List Check
  named : MapApplicator → List (String × Check)

/-! ### Assertions -/

/-- What a vocabulary takes from outside: whether a regular expression matches somewhere in a
text, and the schema a reference leads to. -/
structure Vocabulary where
  found : String → String → Bool
  refers : Operand → String → Check

def isInteger (j : Json) : Bool := j.number.any fun n => n.den = 1

def hasType : String → Json → Bool
  | "null", .null => true
  | "boolean", .bool _ => true
  | "integer", j => isInteger j
  | "number", j => j.number.isSome
  | "string", .str _ => true
  | "array", j => j.isArray
  | "object", j => j.isObject
  | _, _ => false

def limited (holds : ℚ → ℚ → Bool) (measure limit : Option ℚ) : Bool :=
  measure.all fun m => limit.all fun l => holds m l

def size : Json → Option ℚ
  | .array items => some items.length
  | _ => none

def width : Json → Option ℚ
  | .object members => some members.length
  | _ => none

def length (j : Json) : Option ℚ := j.text.map fun t => (t.length : ℚ)

def distinct : List Json → Bool
  | [] => true
  | j :: js => js.all (fun k => !alike number j k) && distinct js

def requires (names : List Json) (v : Json) : Bool :=
  !v.isObject || names.all fun n => n.text.all v.has

def holds (V : Vocabulary) (o v : Json) : Assertion → Bool
  | .type => if o.isArray then o.items.any fun t => t.text.any fun t => hasType t v
      else o.text.all fun t => hasType t v
  | .const => alike number o v
  | .enum => o.items.any fun i => alike number i v
  | .multipleOf => limited (fun m l => (m / l).den = 1) v.number o.number
  | .maximum => limited (· ≤ ·) v.number o.number
  | .exclusiveMaximum => limited (· < ·) v.number o.number
  | .minimum => limited (· ≥ ·) v.number o.number
  | .exclusiveMinimum => limited (· > ·) v.number o.number
  | .maxLength => limited (· ≤ ·) (length v) o.number
  | .minLength => limited (· ≥ ·) (length v) o.number
  | .pattern => o.text.all fun p => v.text.all (V.found p)
  | .maxItems => limited (· ≤ ·) (size v) o.number
  | .minItems => limited (· ≥ ·) (size v) o.number
  | .uniqueItems => !alike number o (.bool true) || distinct v.items
  | .maxProperties => limited (· ≤ ·) (width v) o.number
  | .minProperties => limited (· ≥ ·) (width v) o.number
  | .required => requires o.items v
  | .dependentRequired => o.members.all fun m => !v.has m.1 || requires m.2.items v

/-! ### Applicators -/

namespace Reading
variable (V : Vocabulary) (r : Reading) (v : Json)

def assertions : Outcome :=
  assert (Assertion.all.all fun a => (r.assertion a).all fun o => holds V o v a)

def reference (o : Operand) : Outcome :=
  match (r.operand o).bind text with
  | some t => V.refers o t v
  | none => accept

def inPlace (a : ListApplicator) (join : List Outcome → Outcome) : Outcome :=
  if r.listed a = [] then accept else join ((r.listed a).map fun c => c v)

def negation : Outcome :=
  match r.schema .not with
  | some c => assert (c v).isNone
  | none => accept

def optional (c : Option Check) : Outcome :=
  match c with
  | some c => c v
  | none => accept

def conditional : Outcome :=
  match r.schema .if with
  | some c =>
    match c v with
    | some e => both (some e) (optional v (r.schema .then))
    | none => optional v (r.schema .else)
  | none => accept

def dependent : Outcome :=
  allOf ((r.named .dependentSchemas).map fun d => if v.has d.1 then d.2 v else accept)

/-- The schemas `properties` and `patternProperties` apply to a member. -/
def namedChecks (name : String) : List Check :=
  (OrderedMap.lookup name (r.named .properties)).toList ++
    ((r.named .patternProperties).filter fun p => V.found p.1 name).map Prod.snd

def memberChecks (name : String) : List Check :=
  if namedChecks V r name = [] then (r.schema .additionalProperties).toList
  else namedChecks V r name

def objectMembers : Outcome :=
  if v.members.all fun m => (memberChecks V r m.1).all fun c => (c m.2).isSome then
    some ⟨(v.names.filter fun n => memberChecks V r n ≠ []).toFinset, ∅⟩
  else none

def memberNames : Outcome :=
  match r.schema .propertyNames with
  | some c => assert (v.names.all fun n => (c (.str n)).isSome)
  | none => accept

/-- The schema `prefixItems` and `items` apply to the item at an index. -/
def itemCheck (i : ℕ) : Option Check := (r.listed .prefixItems)[i]?.or (r.schema .items)

def arrayItems : Outcome :=
  if v.items.zipIdx.all fun m => (itemCheck r m.2).all fun c => (c m.1).isSome then
    some ⟨∅, ((List.range v.items.length).filter fun i => (itemCheck r i).isSome).toFinset⟩
  else none

def containedItems : Outcome :=
  match r.schema .contains with
  | some c =>
    let found := (v.items.zipIdx.filter fun m => (c m.1).isSome).map Prod.snd
    let least := ((r.operand .minContains).bind number).getD 1
    let most := (r.operand .maxContains).bind number
    if !v.isArray then accept
    else if least ≤ found.length ∧ most.all (fun m => (found.length : ℚ) ≤ m) then
      some ⟨∅, found.toFinset⟩
    else none
  | none => accept

/-- Every keyword that reads no annotation of a neighbour. -/
def adjacent : Outcome :=
  allOf [assertions V r v, reference V r v .ref, reference V r v .dynamicRef,
    inPlace r v .allOf JsonSchema.allOf, inPlace r v .anyOf JsonSchema.anyOf,
    inPlace r v .oneOf JsonSchema.oneOf, negation r v, conditional r v, dependent r v,
    objectMembers V r v, memberNames r v, arrayItems r v, containedItems r v]

/-- `unevaluatedProperties` applies to the members nothing beside it evaluated. -/
def remainingMembers (e : Evaluated) : Outcome :=
  match r.schema .unevaluatedProperties with
  | some c =>
    if v.members.all fun m => m.1 ∈ e.names ∨ (c m.2).isSome then
      some { e with names := e.names ∪ v.names.toFinset }
    else none
  | none => some e

def remainingItems (e : Evaluated) : Outcome :=
  match r.schema .unevaluatedItems with
  | some c =>
    if v.items.zipIdx.all fun m => m.2 ∈ e.indices ∨ (c m.1).isSome then
      some { e with indices := e.indices ∪ (List.range v.items.length).toFinset }
    else none
  | none => some e

def outcome : Outcome :=
  (adjacent V r v).bind fun e => (remainingMembers r v e).bind (remainingItems r v)

end Reading

/-! ### Schemas -/

/-- One keyword of a schema object, read in every way a keyword is. -/
structure Entry where
  json : Json
  schema : Check
  listed : List Check
  named : List (String × Check)

def reading (entries : List (String × Entry)) : Reading where
  assertion a := (OrderedMap.lookup a.keyword entries).map Entry.json
  operand o := (OrderedMap.lookup o.keyword entries).map Entry.json
  schema a := (OrderedMap.lookup a.keyword entries).map Entry.schema
  listed a := ((OrderedMap.lookup a.keyword entries).map Entry.listed).getD []
  named a := ((OrderedMap.lookup a.keyword entries).map Entry.named).getD []

mutual

def check (V : Vocabulary) : Json → Check
  | .bool false => fun _ => none
  | .object ms => fun v => (reading (entries V ms)).outcome V v
  | _ => fun _ => accept

def entries (V : Vocabulary) : List (String × Json) → List (String × Entry)
  | [] => []
  | m :: ms => entry V m :: entries V ms

def entry (V : Vocabulary) : String × Json → String × Entry
  | (keyword, j) => (keyword, ⟨j, check V j, checks V j, namedChecks V j⟩)

def checks (V : Vocabulary) : Json → List Check
  | .array js => itemChecks V js
  | _ => []

def itemChecks (V : Vocabulary) : List Json → List Check
  | [] => []
  | j :: js => check V j :: itemChecks V js

def namedChecks (V : Vocabulary) : Json → List (String × Check)
  | .object ms => memberChecks V ms
  | _ => []

def memberChecks (V : Vocabulary) : List (String × Json) → List (String × Check)
  | [] => []
  | m :: ms => memberCheck V m :: memberChecks V ms

def memberCheck (V : Vocabulary) : String × Json → String × Check
  | (name, j) => (name, check V j)

end

/-- The schema accepts the value. -/
def Accepts (V : Vocabulary) (s v : Json) : Prop := (check V s v).isSome = true

end FilamentCore.Library.JsonSchema
