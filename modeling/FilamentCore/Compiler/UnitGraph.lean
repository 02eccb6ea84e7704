import FilamentCore.SemanticIr.UnitShapes

/-!
# The compiler's dimension and unit graph (src/compiler/ir/unit-graph.mjs)

What `checkUnitGraph` raises over the semantic IR of a document.
-/

namespace FilamentCore.Compiler.Ir
open FilamentCore.SemanticIr
open FilamentCore.SemanticIr.UnitGraph (Edges targetsOf componentsFrom finishOrder text spellsInteger)

/-- What `emit` raises: the text is the pointer, `: ` and the message. -/
structure Raised where
  code : SemanticIr.Code
  pointer : String
  message : String
  source : Option Json

def Raised.text (raised : Raised) : String := raised.pointer ++ ": " ++ raised.message

def emit (code : SemanticIr.Code) (pointer message : String) (node : Json) : Raised :=
  ⟨code, pointer, message, (node.get "origin").bind (·.get "source")⟩

def emitIf (wrong : Bool) (code : SemanticIr.Code) (pointer message : String) (node : Json) :
    List Raised :=
  if wrong then [emit code pointer message node] else []

/-! ### Numerals -/

inductive Numeral where
  | invalid
  | outside
  | value (n : ℤ)
  deriving DecidableEq

def i128Min : ℤ := -(2 ^ 127)
def i128Max : ℤ := 2 ^ 127 - 1

/-- `BigInt(text)` of a text that spells an integer. -/
def bigInt (cs : List Char) : ℤ :=
  if cs.head? = some '-' then -(decimalValue (stripMinus cs) : ℤ) else decimalValue cs

/-- `integer(text)`: the pattern is `^(0|-?[1-9][0-9]*)(?![\s\S])`. -/
def integer (cs : List Char) : Numeral :=
  if !spellsInteger cs then .invalid
  else if 40 < cs.length then .outside
  else
    let value := bigInt cs
    if value < i128Min ∨ i128Max < value then .outside else .value value

def rational (cs : List Char) : Numeral :=
  match splitOn '/' cs with
  | [_] => integer cs
  | [numerator, denominator] =>
    match integer numerator, integer denominator with
    | .outside, _ => .outside
    | _, .outside => .outside
    | .invalid, _ => .invalid
    | _, .invalid => .invalid
    | .value n, .value d =>
      if n = 0 ∨ d < 2 then .invalid
      else if Nat.gcd n.natAbs d.natAbs = 1 then .value n
      else .invalid
  | _ => .invalid

/-- A value that is no string is invalid. -/
def numeral (read : List Char → Numeral) (value : Option Json) : Numeral :=
  match value with
  | some (.str text) => read text.toList
  | _ => .invalid

def Numeral.refused : Numeral → Option SemanticIr.Code
  | .invalid => some .invalidOperand
  | .outside => some .integerOutsideI128
  | .value _ => none

def refusedIssues (parsed : Numeral) (pointer message : String) (node : Json) : List Raised :=
  (parsed.refused.map fun code => emit code pointer message node).toList

/-! ### Components -/

/-- `components(edges)`: the two searches are those of the Rust reader, and the groups stay in the
order they are found in. -/
def components (edges : Edges) : List (List ℕ) :=
  componentsFrom edges [] (finishOrder edges).reverse

/-! ### Identities -/

/-- A map from identities to positions; the first entry of an identity stands. -/
abbrev Found := List (String × ℕ)

def Found.get (found : Found) (identity : Option String) : Option ℕ :=
  identity.bind fun identity => (found.find? fun entry => entry.1 == identity).map Prod.snd

/-- A member as a template prints it. -/
def printed (value : Option String) : String := value.getD "undefined"

def collection (label : String) : String := if label = "units" then "unit" else "dimension"

/-- `index(nodes, label)` from the nodes that remain. -/
def indexNodes (package : Option String) (label : String) (found : Found) :
    List (Json × ℕ) → List Raised × Found
  | [] => ([], found)
  | (node, position) :: nodes =>
    match node.asObject with
    | none => indexNodes package label found nodes
    | some _ =>
      let identity := text node "identity"
      let at' := child (SemanticIr.index ("/ir/" ++ label) position) "identity"
      let duplicate := (found.get identity).isSome
      let minted :=
        "ix://" ++ printed package ++ "/" ++ collection label ++ "/" ++ printed (text node "name")
      let found' := match duplicate, identity with
        | false, some identity => found ++ [(identity, position)]
        | _, _ => found
      let (raised, all) := indexNodes package label found' nodes
      (emitIf duplicate .duplicateIdentity at' "the identity is already declared" node ++
        emitIf (identity != some minted) .invalidUnitGraph at'
          "identity must name the package and declaration" node ++ raised, all)

/-! ### Dimensions -/

def truthy : Option Json → Bool
  | none => false
  | some .null => false
  | some (.bool b) => b
  | some (.number n) => n.value != 0
  | some (.str text) => text != ""
  | some _ => true

/-- `left >= right` of two texts; a comparison with `undefined` is false. -/
def notBelow (left right : Option String) : Bool :=
  match left, right with
  | some left, some right => Json.utf16Le right left
  | _, _ => false

def termRaised (ids : Found) (node : Json) (at' : String) (terms : List Json)
    (term : Json × ℕ) : List Raised :=
  match term.1.asObject with
  | none => []
  | some _ =>
    let termAt := SemanticIr.index (child at' "terms") term.2
    let parsed := numeral integer (term.1.get "exponent")
    emitIf (ids.get (text term.1 "dimension")).isNone .unresolvedDimensionRef
      (child termAt "dimension") "no dimension has this identity" node ++
    refusedIssues parsed (child termAt "exponent") "expected a canonical i128 integer" node ++
    emitIf (parsed == .value 0) .invalidUnitGraph (child termAt "exponent")
      "dimension exponents are nonzero" node ++
    emitIf (term.2 != 0 && notBelow ((terms[term.2 - 1]?).bind (text · "dimension"))
        (text term.1 "dimension")) .invalidUnitGraph termAt
      "dimension terms must be strictly ordered" node

def dimensionRaised (ids : Found) (dimension : Json × ℕ) : List Raised :=
  let node := dimension.1
  match node.asObject with
  | none => []
  | some _ =>
    let at' := SemanticIr.index "/ir/dimensions" dimension.2
    let terms := node.members "terms"
    emitIf (truthy (node.get "base") && !terms.isEmpty) .invalidUnitGraph (child at' "terms")
      "a base dimension has no terms" node ++
    terms.zipIdx.flatMap (termRaised ids node at' terms)

/-- The edges the terms push. -/
def dimensionTargets (ids : Found) (dimensions : List Json) : Edges :=
  dimensions.map fun node => (node.members "terms").filterMap fun term =>
    ids.get (text term "dimension")

/-- `findIndex`, printed: `-1` where no term is found. -/
def printedIndex (position : Option ℕ) : String :=
  match position with
  | some position => toString position
  | none => "-1"

def dimensionCycleRaised (ids : Found) (dimensions : List Json) (group : List ℕ) : Raised :=
  let first := group.headD 0
  let node := dimensions.getD first .null
  let offset := (node.members "terms").findIdx? fun term =>
    (ids.get (text term "dimension")).any group.contains
  let names := group.map fun position => printed (text (dimensions.getD position .null) "name")
  emit .invalidUnitGraph
    (child (SemanticIr.index "/ir/dimensions" first) "terms" ++ "/" ++ printedIndex offset)
    ("dimension cycle: " ++ ", ".intercalate names) node

/-! ### Units -/

def coefficientRaised (node : Json) (at' name : String) : List Raised :=
  refusedIssues (numeral rational (node.get name)) (child at' name)
    "expected a canonical i128 rational" node

def targetRaised (dimensionIds unitIds : Found) (units : List Json) (node : Json) (at' : String) :
    List Raised :=
  match unitIds.get (text node "target") with
  | none => [emit .unresolvedUnitRef (child at' "target") "no unit has this identity" node]
  | some target =>
    let dimension := text node "dimension"
    let other := text (units.getD target .null) "dimension"
    emitIf ((dimensionIds.get dimension).isSome && (dimensionIds.get other).isSome &&
        other != dimension) .invalidUnitGraph (child at' "target")
      ("unit dimensions differ: " ++ printed dimension ++ ", " ++ printed other) node

def isValue : Numeral → Bool
  | .value _ => true
  | _ => false

def rootRaised (roots : Found) (units : List Json) (node : Json) (at' : String) : List Raised :=
  (match roots.get (text node "dimension") with
    | none => []
    | some first => [emit .invalidUnitGraph at' ("dimension " ++ printed (text node "dimension") ++
        " already has root " ++ printed (text (units.getD first .null) "name")) node]) ++
  emitIf (text node "scale" != some "1" && text node "scale" != some "0" &&
      isValue (numeral rational (node.get "scale"))) .invalidUnitGraph (child at' "scale")
    "a root unit has scale 1" node ++
  emitIf (text node "offset" != some "0" && isValue (numeral rational (node.get "offset")))
    .invalidUnitGraph (child at' "offset") "a root unit has offset 0" node

def unitRaised (dimensionIds unitIds : Found) (units : List Json) (roots : Found) :
    List (Json × ℕ) → List Raised
  | [] => []
  | (node, position) :: rest =>
    match node.asObject with
    | none => unitRaised dimensionIds unitIds units roots rest
    | some _ =>
      let at' := SemanticIr.index "/ir/units" position
      let roots' := match node.get "target", text node "dimension" with
        | none, some dimension =>
          if (roots.get (some dimension)).isSome then roots else roots ++ [(dimension, position)]
        | _, _ => roots
      emitIf (dimensionIds.get (text node "dimension")).isNone .unresolvedDimensionRef
        (child at' "dimension") "no dimension has this identity" node ++
      coefficientRaised node at' "scale" ++
      coefficientRaised node at' "offset" ++
      emitIf (text node "scale" == some "0") .invalidUnitGraph (child at' "scale")
        "a unit scale is nonzero" node ++
      (match node.get "target" with
        | some _ => targetRaised dimensionIds unitIds units node at'
        | none => rootRaised roots units node at') ++
      unitRaised dimensionIds unitIds units roots' rest

def unitTargets (unitIds : Found) (units : List Json) : Edges :=
  units.map fun node => (unitIds.get (text node "target")).toList

/-- The names the cursor passes until it is back at the first unit; none when the loop is cut, or
reads a unit that is not there. -/
def cycleNames (units : List Json) (edges : Edges) (first : ℕ) : ℕ → ℕ → Option (List String)
  | 0, _ => none
  | steps + 1, cursor =>
    let name := printed (text (units.getD cursor .null) "name")
    match (targetsOf edges cursor).head? with
    | none => none
    | some next =>
      if next = first then some [name]
      else (cycleNames units edges first steps next).map (name :: ·)

def unitCycleRaised (units : List Json) (edges : Edges) (steps : ℕ) (group : List ℕ) :
    Option Raised :=
  let first := group.headD 0
  (cycleNames units edges first steps first).map fun names =>
    emit .invalidUnitGraph (child (SemanticIr.index "/ir/units" first) "target")
      ("unit cycle: " ++ ", ".intercalate names) (units.getD first .null)

/-! ### The document -/

/-- `checkUnitGraph(document, raise)`; `steps` bounds the loop that names a unit cycle. -/
def checkUnitGraph (document : Json) (steps : ℕ) : Option (List Raised) :=
  let package := (document.get "package").bind (text · "identity")
  let dimensions := document.members "dimensions"
  let units := document.members "units"
  let (dimensionIndex, dimensionIds) := indexNodes package "dimensions" [] dimensions.zipIdx
  let (unitIndex, unitIds) := indexNodes package "units" [] units.zipIdx
  let edges := unitTargets unitIds units
  ((components edges).mapM (unitCycleRaised units edges steps)).map fun unitCycles =>
    dimensionIndex ++ unitIndex ++
    dimensions.zipIdx.flatMap (dimensionRaised dimensionIds) ++
    (components (dimensionTargets dimensionIds dimensions)).map
      (dimensionCycleRaised dimensionIds dimensions) ++
    unitRaised dimensionIds unitIds units [] units.zipIdx ++ unitCycles

end FilamentCore.Compiler.Ir
