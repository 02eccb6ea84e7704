import FilamentCore.SemanticIr.Numerals
import FilamentCore.SemanticIr.BundleSchema

/-!
# Dimensions and units (crates/semantic-ir/src/unit_graph.rs)

The diagnostics of the dimension and unit graphs, and the strongly connected components they
are read from.
-/

namespace FilamentCore.SemanticIr

/-! ### Issues -/

/-- What a rule emits; the sink adds the owner and the locus. -/
structure Issue where
  pointer : String
  code : Code
  message : String
  advisory : Bool
  deriving DecidableEq, Repr

namespace Issue

def emit (pointer : String) (code : Code) (message : String) : Issue :=
  ⟨pointer, code, message, false⟩

def advise (pointer : String) (code : Code) (message : String) : Issue :=
  ⟨pointer, code, message, true⟩

def emitIf (wrong : Bool) (pointer : String) (code : Code) (message : String) : List Issue :=
  if wrong then [emit pointer code message] else []

def locate (bundle : Json) (issue : Issue) : Located :=
  { pointer := issue.pointer
    code := issue.code
    severity := if issue.advisory then .info else .error
    message := issue.message
    owner := ownerFor bundle issue.pointer
    blocking := !issue.advisory
    locus := locusFor bundle issue.pointer }

end Issue

namespace UnitGraph

/-! ### Strongly connected components -/

/-- The targets of each node. -/
abbrev Edges := List (List ℕ)

def targetsOf (edges : Edges) (node : ℕ) : List ℕ := edges.getD node []

/-- One depth-first walk over a stack of nodes and the next edge of each. -/
def finish (edges : Edges) :
    ℕ → List ℕ → List ℕ → List (ℕ × ℕ) → List ℕ × List ℕ
  | 0, visited, finished, _ => (visited, finished)
  | _ + 1, visited, finished, [] => (visited, finished)
  | steps + 1, visited, finished, (node, next) :: stack =>
    match (targetsOf edges node)[next]? with
    | some target =>
      if visited.contains target then finish edges steps visited finished ((node, next + 1) :: stack)
      else finish edges steps (target :: visited) finished ((target, 0) :: (node, next + 1) :: stack)
    | none => finish edges steps visited (finished ++ [node]) stack

/-- A walk takes every edge once and leaves every node once. -/
def walkSteps (edges : Edges) : ℕ := (edges.map List.length).sum + edges.length + 1

def finishOrder (edges : Edges) : List ℕ :=
  ((List.range edges.length).foldl (fun state root =>
    if state.1.contains root then state
    else finish edges (walkSteps edges) (root :: state.1) state.2 [(root, 0)]) ([], [])).2

def sourcesOf (edges : Edges) (node : ℕ) : List ℕ :=
  (List.range edges.length).flatMap fun source =>
    (targetsOf edges source).filterMap fun target => if target = node then some source else none

/-- The nodes not visited among `sources`, each pushed once. -/
def pushUnvisited (visited pending : List ℕ) : List ℕ → List ℕ × List ℕ
  | [] => (visited, pending)
  | source :: sources =>
    if visited.contains source then pushUnvisited visited pending sources
    else pushUnvisited (source :: visited) (source :: pending) sources

def collect (edges : Edges) : ℕ → List ℕ → List ℕ → List ℕ → List ℕ × List ℕ
  | 0, visited, component, _ => (visited, component)
  | _ + 1, visited, component, [] => (visited, component)
  | steps + 1, visited, component, node :: pending =>
    let (visited, pending) := pushUnvisited visited pending (sourcesOf edges node)
    collect edges steps visited (component ++ [node]) pending

def componentsFrom (edges : Edges) (visited : List ℕ) : List ℕ → List (List ℕ)
  | [] => []
  | root :: roots =>
    if visited.contains root then componentsFrom edges visited roots
    else
      let (visited, component) := collect edges (edges.length + 1) (root :: visited) [] [root]
      let rest := componentsFrom edges visited roots
      if 1 < component.length ∨ (targetsOf edges root).contains root then
        component.insertionSort (· ≤ ·) :: rest
      else rest

def cyclicComponents (edges : Edges) : List (List ℕ) :=
  (componentsFrom edges [] (finishOrder edges).reverse).insertionSort fun a b =>
    a.headD 0 ≤ b.headD 0

/-! ### Identities -/

def text (node : Json) (member : String) : Option String := node.getStr member

def positionOf (entries : List Json) (identity : String) : Option ℕ :=
  entries.findIdx? fun node => text node "identity" == some identity

def identityIssues (collection singular package : String) (seen : List String) :
    List (Json × ℕ) → List Issue
  | [] => []
  | (node, position) :: nodes =>
    match text node "identity" with
    | none => identityIssues collection singular package seen nodes
    | some identity =>
      let at' := child (index ("/ir/" ++ collection) position) "identity"
      Issue.emitIf (seen.contains identity) at' .duplicateIdentity
        ("the identity " ++ identity ++ " is already declared") ++
      (match text node "name" with
        | none => []
        | some name => Issue.emitIf
            (identity != "ix://" ++ package ++ "/" ++ singular ++ "/" ++ name) at'
            .invalidUnitGraph "the identity names its package and declaration") ++
      identityIssues collection singular package (identity :: seen) nodes

/-! ### Dimensions -/

def exponentIssues (term : Json) (termAt : String) : List Issue :=
  match text term "exponent" with
  | none => []
  | some exponent =>
    match canonicalInteger exponent.toList with
    | .ok value => Issue.emitIf (value == 0) (child termAt "exponent") .invalidUnitGraph
        "a dimension term has a nonzero exponent"
    | .error error => [.emit (child termAt "exponent") error.code
        "a dimension exponent is a canonical i128 integer"]

def termIssues (dimensions : List Json) (termsAt : String) (previous : Option String) :
    List (Json × ℕ) → List Issue
  | [] => []
  | (term, offset) :: terms =>
    let termAt := index termsAt offset
    (match text term "dimension" with
      | none => []
      | some target =>
        Issue.emitIf (positionOf dimensions target).isNone (child termAt "dimension")
          .unresolvedDimensionRef ("no dimension declares " ++ target) ++
        Issue.emitIf (notAfter previous target) termAt .invalidUnitGraph
          "dimension terms have strictly increasing identities") ++
    exponentIssues term termAt ++
    termIssues dimensions termsAt ((text term "dimension").orElse fun _ => previous) terms

def dimensionEdges (dimensions : List Json) : Edges :=
  dimensions.map fun dimension =>
    (dimension.members "terms").filterMap fun term =>
      (text term "dimension").bind (positionOf dimensions)

def dimensionIssues (dimensions : List Json) (dimension : Json) (at' : String) : List Issue :=
  let terms := dimension.members "terms"
  Issue.emitIf (dimension.getBool "base" == some true && !terms.isEmpty) (child at' "terms")
    .invalidUnitGraph "a base dimension carries no terms" ++
  termIssues dimensions (child at' "terms") none terms.zipIdx

/-- A cycle is reported at the first term of its first dimension that stays on it. -/
def dimensionCycle (dimensions : List Json) (component : List ℕ) : List Issue :=
  let first := component.headD 0
  let terms := (dimensions.getD first .null).members "terms"
  let onCycle := terms.findIdx? fun term =>
    ((text term "dimension").bind (positionOf dimensions)).any component.contains
  match onCycle with
  | none => []
  | some term =>
    let names := component.filterMap fun node => text (dimensions.getD node .null) "name"
    [.emit (index (child (index "/ir/dimensions" first) "terms") term) .invalidUnitGraph
      ("dimension cycle: " ++ ", ".intercalate names)]

def checkDimensions (dimensions : List Json) : List Issue :=
  (dimensions.zipIdx.flatMap fun dimension =>
    dimensionIssues dimensions dimension.1 (index "/ir/dimensions" dimension.2)) ++
  (cyclicComponents (dimensionEdges dimensions)).flatMap (dimensionCycle dimensions)

/-! ### Units -/

def coefficient (unit : Json) (member : String) : Option RationalKind :=
  match (text unit member).map canonicalRational with
  | some (.ok value) => some value
  | _ => none

def coefficientIssues (unit : Json) (at' member : String) : List Issue :=
  match (text unit member).map canonicalRational with
  | some (.error error) =>
    [.emit (child at' member) error.code "a unit coefficient is a canonical i128 rational"]
  | _ => []

def targetIssues (dimensions units : List Json) (unit : Json) (at' target : String) :
    List Issue :=
  match positionOf units target with
  | none => [.emit (child at' "target") .unresolvedUnitRef ("no unit declares " ++ target)]
  | some position =>
    match text unit "dimension", text (units.getD position .null) "dimension" with
    | some dimension, some targetDimension =>
      Issue.emitIf ((positionOf dimensions dimension).isSome &&
          (positionOf dimensions targetDimension).isSome && dimension != targetDimension)
        (child at' "target") .invalidUnitGraph
        ("unit dimensions differ: " ++ dimension ++ ", " ++ targetDimension)
    | _, _ => []

/-- A unit without a target is the root of its dimension; `roots` are those before it. -/
def rootIssues (units : List Json) (roots : List (String × ℕ)) (unit : Json) (at' : String) :
    List Issue :=
  (match text unit "dimension" with
    | none => []
    | some dimension =>
      match roots.find? fun root => root.1 == dimension with
      | none => []
      | some (_, first) => [.emit at' .invalidUnitGraph ("dimension " ++ dimension ++
          " already has root " ++ (text (units.getD first .null) "name").getD "")]) ++
  Issue.emitIf ((coefficient unit "scale").any (· != .one)) (child at' "scale")
    .invalidUnitGraph "a root unit has scale 1" ++
  Issue.emitIf ((coefficient unit "offset").any (· != .zero)) (child at' "offset")
    .invalidUnitGraph "a root unit has offset 0"

def unitIssues (dimensions units : List Json) (roots : List (String × ℕ)) :
    List (Json × ℕ) → List Issue
  | [] => []
  | (unit, position) :: rest =>
    let at' := index "/ir/units" position
    let dimension := text unit "dimension"
    let roots' := match text unit "target", dimension with
      | none, some dimension =>
        if roots.any fun root => root.1 == dimension then roots
        else roots ++ [(dimension, position)]
      | _, _ => roots
    (match dimension with
      | none => []
      | some identity => Issue.emitIf (positionOf dimensions identity).isNone
          (child at' "dimension") .unresolvedDimensionRef ("no dimension declares " ++ identity)) ++
    coefficientIssues unit at' "scale" ++
    coefficientIssues unit at' "offset" ++
    Issue.emitIf (coefficient unit "scale" == some .zero) (child at' "scale") .invalidUnitGraph
      "a unit scale is nonzero" ++
    (match text unit "target" with
      | some target => targetIssues dimensions units unit at' target
      | none => rootIssues units roots unit at') ++
    unitIssues dimensions units roots' rest

def unitEdges (units : List Json) : Edges :=
  units.map fun unit => ((text unit "target").bind (positionOf units)).toList

/-- The names met in as many steps along the targets as a cycle has units. -/
def cycleNames (units : List Json) (edges : Edges) : ℕ → ℕ → List String
  | 0, _ => []
  | steps + 1, current =>
    (text (units.getD current .null) "name").toList ++
      cycleNames units edges steps ((targetsOf edges current).headD current)

def unitCycle (units : List Json) (component : List ℕ) : List Issue :=
  let first := component.headD 0
  [.emit (child (index "/ir/units" first) "target") .invalidUnitGraph ("unit cycle: " ++
    ", ".intercalate (cycleNames units (unitEdges units) component.length first))]

def checkUnits (dimensions units : List Json) : List Issue :=
  unitIssues dimensions units [] units.zipIdx ++
  (cyclicComponents (unitEdges units)).flatMap (unitCycle units)

/-! ### The document -/

def distinct (seen : List (String × Code)) : List Issue → List Issue
  | [] => []
  | issue :: issues =>
    if seen.contains (issue.pointer, issue.code) then distinct seen issues
    else issue :: distinct ((issue.pointer, issue.code) :: seen) issues

def issues (bundle : Json) : List Issue :=
  match bundle.get "ir" with
  | none => []
  | some ir =>
    match (ir.get "package").bind (text · "identity") with
    | none => []
    | some package =>
      let dimensions := ir.members "dimensions"
      let units := ir.members "units"
      distinct [] <|
        identityIssues "dimensions" "dimension" package [] dimensions.zipIdx ++
        identityIssues "units" "unit" package [] units.zipIdx ++
        checkDimensions dimensions ++
        checkUnits dimensions units

def decide (bundle : Json) : List Located := (issues bundle).map (Issue.locate bundle)

end UnitGraph
end FilamentCore.SemanticIr
