import FilamentCore.Packages.Manifest
import FilamentCore.Library.OrderedMap

/-!
# Package graph resolution (src/compiler/packages/resolve.mjs)

`resolvePackageGraph`: discovery of candidates, the worklist that selects versions,
the conflict, cycle, export, import and profile checks, and the resolution returned.
Every `Map` of the source is an insertion-ordered map.
-/

namespace FilamentCore.Packages
open FilamentCore.Compiler FilamentCore.Library

/-! ### Candidates -/

/-- A manifest as a candidate or a selection holds it; `order` is the position of its
search directory, `-1` for the root. -/
structure Entry where
  order : ℤ
  packageRoot : String
  manifest : Manifest
  deriving DecidableEq, Repr

namespace Entry

def identity (e : Entry) : String := e.manifest.identity
def versionText (e : Entry) : String := e.manifest.versionText
def version (e : Entry) : Version := e.manifest.version

def locate (e : Entry) (pointer : String) : Locus :=
  ⟨sourceIdentityFor e.identity "manifest", pointer⟩

end Entry

/-- What `discoverCandidates` accumulates. -/
structure Discovery where
  candidates : OrderedMap String Entry
  rejected : List Diagnostic
  diagnostics : List Diagnostic

def candidateKey (m : Manifest) : String := m.identity ++ "@" ++ m.versionText

def discoverOffer (order : ℕ) (d : Discovery) : Offer → Discovery
  | .escapes name message =>
    { d with diagnostics := d.diagnostics ++ [diagnostic .pathEscape
        (fragment name ++ " in a declared search directory resolves outside it: "
          ++ fragment message) none] }
  | .rejected _ diagnostics => { d with rejected := d.rejected ++ diagnostics }
  | .readable packageRoot manifest =>
    -- the first directory that offers an identity and version keeps it
    match d.candidates.get (candidateKey manifest) with
    | some _ => d
    | none => { d with
        candidates := d.candidates.set (candidateKey manifest) ⟨order, packageRoot, manifest⟩ }

def discoverCandidates (searchPath : List (List Offer)) : Discovery :=
  searchPath.zipIdx.foldl (fun d dir => dir.1.foldl (discoverOffer dir.2) d)
    ⟨OrderedMap.empty, [], []⟩

/-- The comparator of `byIdentity`: highest version first, then declared order. -/
def entryBefore (left right : Entry) : Bool :=
  match compareVersions right.version left.version with
  | .lt => true
  | .gt => false
  | .eq => left.order ≤ right.order

def groupEntry (grouped : OrderedMap String (List Entry)) (e : Entry) :
    OrderedMap String (List Entry) :=
  grouped.set e.identity ((grouped.get e.identity).getD [] ++ [e])

/-- `byIdentity(candidates)`, read at one identity. -/
def byIdentity (candidates : OrderedMap String Entry) (identity : String) : List Entry :=
  (((candidates.values.foldl groupEntry OrderedMap.empty).get identity).getD []).insertionSort
    (fun l r => entryBefore l r = true)

/-! ### The worklist -/

/-- One recorded constraint on an identity. -/
structure Requirement where
  constraint : Constraint
  locus : Locus
  importer : String
  entry : Import
  deriving DecidableEq, Repr

structure Edge where
  target : String
  locus : Locus
  deriving DecidableEq, Repr

/-- The variables of the selection loop. -/
structure Worklist where
  selected : OrderedMap String Entry
  constraints : OrderedMap String (List Requirement)
  edges : OrderedMap String (List Edge)
  queue : List Entry
  diagnostics : List Diagnostic

namespace Worklist

def raise (w : Worklist) (d : Diagnostic) : Worklist :=
  { w with diagnostics := w.diagnostics ++ [d] }

/-- The constraints recorded on `identity`. -/
def required (w : Worklist) (identity : String) : List Requirement :=
  (w.constraints.get identity).getD []

/-- Records a constraint, and the edge it stands for. -/
def require (w : Worklist) (current : Entry) (r : Requirement) : Worklist :=
  { w with
    constraints := w.constraints.set r.entry.packageIdentity
      (w.required r.entry.packageIdentity ++ [r])
    edges := w.edges.set current.identity
      ((w.edges.get current.identity).getD [] ++ [⟨r.entry.packageIdentity, r.locus⟩]) }

/-- `selected.set(identity, chosen); queue.push(chosen)`. -/
def choose (w : Worklist) (identity : String) (chosen : Entry) : Worklist :=
  { w with selected := w.selected.set identity chosen, queue := w.queue ++ [chosen] }

/-- `edges.set(current.identity, [])`, the start of a manifest. -/
def openEdges (w : Worklist) (current : Entry) : Worklist :=
  { w with edges := w.edges.set current.identity [] }

end Worklist

def satisfiesAll (requirements : List Requirement) (e : Entry) : Bool :=
  requirements.all fun r => satisfies e.version r.constraint

/-- `select(identity, offered)`: the highest candidate satisfying every constraint
recorded so far. -/
def select (w : Worklist) (identity : String) (offered : List Entry) : Option Entry :=
  (offered.filter (satisfiesAll (w.required identity))).head?

def importLocus (current : Entry) (index : ℕ) : Locus :=
  current.locate ("/imports/" ++ toString index)

def requirementOf (current : Entry) (index : ℕ) (entry : Import) (c : Constraint) :
    Requirement :=
  ⟨c, importLocus current index, current.identity, entry⟩

/-- The end of one round of the import loop: what `select` chose takes the place of a
selection of another version. -/
def settle (w : Worklist) (identity : String) : Option Entry → Worklist
  | none => w
  | some chosen =>
    match w.selected.get identity with
    | none => w.choose identity chosen
    | some previous =>
      if previous.versionText ≠ chosen.versionText then w.choose identity chosen else w

/-- One round of the loop over `current.manifest.imports`. -/
def importStep (grouped : String → List Entry) (rejected : List Diagnostic) (current : Entry)
    (w : Worklist) (item : Import × ℕ) : Worklist :=
  let (entry, index) := item
  match parseConstraint entry.versionConstraint with
  | none =>
    w.raise (diagnostic .unsupportedVersionConstraint
      (fragment entry.versionConstraint ++ " is neither an exact version nor a caret range; "
        ++ "this compiler implements no other form")
      (some (current.locate ("/imports/" ++ toString index ++ "/versionConstraint"))))
  | some c =>
    let w := w.require current (requirementOf current index entry c)
    let offered := grouped entry.packageIdentity
    if offered = [] then
      w.raise { diagnostic .importNotFound
        ("no search directory supplies " ++ fragment entry.packageIdentity)
        (some (importLocus current index)) with causes := rejected.map (·.code) }
    else if offered.filter (fun e => satisfies e.version c) = [] then
      w.raise (diagnostic .importVersionUnsatisfied
        (fragment entry.packageIdentity ++ " " ++ fragment entry.versionConstraint
          ++ " is satisfied by none of "
          ++ fragment (", ".intercalate (offered.map (·.versionText))))
        (some (importLocus current index)))
    else settle w entry.packageIdentity (select w entry.packageIdentity offered)

/-- One manifest taken off the queue. -/
def processEntry (grouped : String → List Entry) (rejected : List Diagnostic) (w : Worklist)
    (current : Entry) : Worklist :=
  current.manifest.imports.zipIdx.foldl (importStep grouped rejected current)
    (w.openEdges current)

def limitReached (limits : Limits) (root : Entry) : Diagnostic :=
  diagnostic .limitMaxNodes
    ("package graph exceeds the maxNodes limit of " ++ toString limits.maxNodes)
    (some (root.locate "/package"))

/-- `while (queue.length > 0)`, at most `fuel` rounds. -/
def selectionLoop (limits : Limits) (root : Entry) (grouped : String → List Entry)
    (rejected : List Diagnostic) : ℕ → Worklist → Worklist
  | 0, w => w
  | fuel + 1, w =>
    match w.queue with
    | [] => w
    | current :: queue =>
      if limits.maxNodes < w.selected.size then w.raise (limitReached limits root)
      else
        selectionLoop limits root grouped rejected fuel
          (processEntry grouped rejected { w with queue } current)

/-! ### Conflicts -/

def sortByIdentity {α : Type} (key : α → String) (items : List α) : List α :=
  items.insertionSort (fun l r => byCodePoint (key l) (key r) ≠ .gt)

/-- The check that the single selected version of `identity` satisfies every
constraint recorded on it. -/
def conflictOf (w : Worklist) (identity : String) (list : List Requirement) :
    List Diagnostic :=
  match w.selected.get identity with
  | none => []
  | some chosen =>
    if satisfiesAll list chosen then []
    else
      let ordered := sortByIdentity (·.importer) list
      [{ diagnostic .importVersionConflict
          ("no single version of " ++ fragment identity ++ " satisfies every constraint on it: "
            ++ fragment (", ".intercalate (ordered.map (·.entry.versionConstraint))))
          (ordered.head?.map (·.locus)) with related := ordered.tail.map (·.locus) }]

def conflicts (w : Worklist) : List Diagnostic :=
  (sortByIdentity Prod.fst w.constraints.entries).flatMap fun e => conflictOf w e.1 e.2

/-! ### Cycles -/

inductive NodeState where
  | opened
  | done
  deriving DecidableEq, Repr

structure Search where
  state : OrderedMap String NodeState
  stack : List String
  reported : List String
  diagnostics : List Diagnostic

/-- The cycle from `target` to the top of the stack, starting at its least identity. -/
def rotatedCycle (stack : List String) (target : String) : List String :=
  let cycle := stack.drop (stack.idxOf target)
  let least := cycle.foldl (fun best item => if byCodePoint item best = .lt then item else best)
    target
  let offset := cycle.idxOf least
  cycle.drop offset ++ cycle.take offset

def cycleLoci (edges : OrderedMap String (List Edge)) (rotated : List String) : List Locus :=
  rotated.filterMap fun importer =>
    let next := rotated[(rotated.idxOf importer + 1) % rotated.length]?
    (((edges.get importer).getD []).find? fun item => some item.target == next).map (·.locus)

def reportCycle (edges : OrderedMap String (List Edge)) (target : String) (s : Search) :
    Search :=
  let rotated := rotatedCycle s.stack target
  let key := " -> ".intercalate rotated
  if key ∈ s.reported then s
  else
    let present := cycleLoci edges rotated
    { s with
      reported := s.reported ++ [key]
      diagnostics := s.diagnostics ++ [{ diagnostic .packageCycle
        ("package import cycle: " ++ fragment (key ++ " -> " ++ rotated.headD ""))
        present.head? with related := present.tail }] }

/-- `visit(node)`; `fuel` bounds the depth of the recursion. -/
def visit (edges : OrderedMap String (List Edge)) : ℕ → String → Search → Search
  | 0, _, s => s
  | fuel + 1, node, s =>
    let s := { s with state := s.state.set node .opened, stack := s.stack ++ [node] }
    let s := ((edges.get node).getD []).foldl (fun s edge =>
      match s.state.get edge.target with
      | some .opened => reportCycle edges edge.target s
      | some .done => s
      | none => visit edges fuel edge.target s) s
    { s with stack := s.stack.dropLast, state := s.state.set node .done }

/-- More identities than the edges mention. -/
def nodeBound (edges : OrderedMap String (List Edge)) : ℕ :=
  (edges.keys ++ (edges.values.flatMap id).map (·.target)).length + 1

def detectCycles (edges : OrderedMap String (List Edge)) : List Diagnostic :=
  ((sortByIdentity id edges.keys).foldl (fun (s : Search) node =>
    match s.state.get node with
    | some _ => s
    | none => visit edges (nodeBound edges) node s)
    ⟨OrderedMap.empty, [], [], []⟩).diagnostics

/-! ### Exports and imports -/

structure ExportRecord where
  owner : String
  visibility : Visibility
  name : String
  locus : Locus
  deriving DecidableEq, Repr

structure ExportCheck where
  exportsByIdentity : OrderedMap String ExportRecord
  diagnostics : List Diagnostic

def exportLocus (entry : Entry) (index : ℕ) : Locus :=
  entry.locate ("/exports/" ++ toString index)

/-- One round of the loop over `entry.manifest.exports`, with the identities and names
the manifest exported before it. -/
def exportStep (entry : Entry) (c : ExportCheck) (item : Export × ℕ) : ExportCheck :=
  let (exported, index) := item
  let before := entry.manifest.exports.take index
  let twoNames := if exported.typeIdentity ∈ before.map (·.typeIdentity) then
      [diagnostic .duplicateExport
        (fragment entry.identity ++ " exports " ++ fragment exported.typeIdentity
          ++ " under two names") (some (exportLocus entry index))]
    else []
  let twice := if exported.name ∈ before.map (·.name) then
      [diagnostic .duplicateExport
        (fragment entry.identity ++ " exports " ++ fragment exported.name ++ " twice")
        (some (exportLocus entry index))]
    else []
  match c.exportsByIdentity.get exported.typeIdentity with
  | some previous => { c with
      diagnostics := c.diagnostics ++ twoNames ++ twice ++ [{ diagnostic .duplicateExport
        (fragment exported.typeIdentity ++ " is exported by both " ++ fragment previous.owner
          ++ " and " ++ fragment entry.identity) (some (exportLocus entry index))
        with related := [previous.locus] }] }
  | none => {
      exportsByIdentity := c.exportsByIdentity.set exported.typeIdentity
        ⟨entry.identity, exported.visibility, exported.name, exportLocus entry index⟩
      diagnostics := c.diagnostics ++ twoNames ++ twice }

def checkExports (ordered : List Entry) : ExportCheck :=
  ordered.foldl (fun c entry => entry.manifest.exports.zipIdx.foldl (exportStep entry) c)
    ⟨OrderedMap.empty, []⟩

/-- `new Map(exports.map((value) => [value.name, value])).get(name)`: the last entry of
a name. -/
def declaredExport (target : Entry) (name : String) : Option Export :=
  target.manifest.exports.reverse.find? (·.name == name)

def checkImportedName (entry target : Entry) (index : ℕ) (item : Import) (name : String) :
    List Diagnostic :=
  let locus := some (entry.locate ("/imports/" ++ toString index ++ "/exports"))
  match declaredExport target name with
  | none => [diagnostic .importExportMissing
      (fragment item.packageIdentity ++ " declares no export named " ++ fragment name) locus]
  | some exported =>
    if exported.visibility = .internal then
      [diagnostic .importExportPrivate
        (fragment item.packageIdentity ++ " declares " ++ fragment name ++ " private") locus]
    else []

def checkCapability (entry target : Entry) (index : ℕ) (item : Import) (capability : String) :
    List Diagnostic :=
  if capability ∈ target.manifest.profiles.flatMap (·.capabilities) then []
  else [diagnostic .importCapabilityMissing
    ("no profile of " ++ fragment item.packageIdentity ++ " declares the capability "
      ++ fragment capability)
    (some (entry.locate ("/imports/" ++ toString index ++ "/capabilities")))]

def checkImport (selected : OrderedMap String Entry) (entry : Entry) (item : Import × ℕ) :
    List Diagnostic :=
  match selected.get item.1.packageIdentity with
  | none => []
  | some target =>
    item.1.exports.flatMap (checkImportedName entry target item.2 item.1) ++
      item.1.capabilities.flatMap (checkCapability entry target item.2 item.1)

def checkImports (selected : OrderedMap String Entry) (ordered : List Entry) :
    List Diagnostic :=
  ordered.flatMap fun entry => entry.manifest.imports.zipIdx.flatMap (checkImport selected entry)

/-! ### The profile -/

/-- The profile the caller names, or the only one. -/
def selectProfile (request : Request) (root : Entry) : Option Profile × List Diagnostic :=
  let declared := request.root.profiles
  let names := ", ".intercalate (declared.map (·.name))
  let locus := some (root.locate "/profiles")
  match request.profileName with
  | none =>
    match declared with
    | [] => (none, [])
    | [profile] => (some profile, [])
    | _ => (none, [diagnostic .ambiguousProfile
        ("the manifest declares " ++ toString declared.length ++ " profiles (" ++ fragment names
          ++ "); name one with --profile") locus])
  | some name =>
    match declared.find? (·.name == name) with
    | some profile => (some profile, [])
    | none => (none, [diagnostic .unknownProfile
        ("the manifest declares no profile named " ++ fragment name ++ "; it declares "
          ++ fragment (if names = "" then "none" else names)) locus])

structure Mapping where
  identity : String
  version : String
  deriving DecidableEq, Repr

/-- `identity.slice(identity.lastIndexOf("/") + 1)`. -/
def identityTail (identity : String) : String :=
  String.ofList (identity.toList.reverse.takeWhile (· ≠ '/')).reverse

def checkMapping (request : Request) (root : Entry) (profile : Profile) (index : ℕ)
    (item : String × ℕ) : Option Mapping × List Diagnostic :=
  let (identity, position) := item
  let locus := some (root.locate ("/profiles/" ++ toString index ++ "/mappings/"
    ++ toString position))
  let prose := "profile " ++ fragment profile.name ++ " selects " ++ fragment identity
  if identity ∉ request.root.mappings then
    (none, [diagnostic .unknownMapping
      (prose ++ ", which the manifest's mappings do not contain") locus])
  else
    match request.host.mappingDocument (identityTail identity) with
    | none => (none, [diagnostic .unknownMapping
        (prose ++ ", whose document is absent at mappings/" ++ fragment (identityTail identity)
          ++ ".json") locus])
    | some (.error diagnostics) => (none, diagnostics)
    | some (.ok document) =>
      (some ⟨identity, document.version⟩,
        if profile.compatibilityPosture = .strict ∧
            document.preservation = some "declared-lossy" then
          [diagnostic .undeclaredLoss
            ("profile " ++ fragment profile.name ++ " is strict, but mapping "
              ++ fragment identity ++ " declares lossy preservation")
            (some ⟨sourceIdentityFor request.root.identity "mapping",
              "/transformation/preservation"⟩)]
        else [])

def checkTarget (request : Request) (root : Entry) (profile : Profile) (index : ℕ)
    (item : String × ℕ) : List Diagnostic :=
  if item.1 ∈ request.root.targets then []
  else [diagnostic .unknownTarget
    ("profile " ++ fragment profile.name ++ " selects the target " ++ fragment item.1
      ++ ", which the manifest does not declare")
    (some (root.locate ("/profiles/" ++ toString index ++ "/targets/" ++ toString item.2)))]

/-- The mappings and the targets of the selected profile. -/
def checkProfile (request : Request) (root : Entry) (profile : Profile) :
    List Mapping × List Diagnostic :=
  let index := request.root.profiles.idxOf profile
  let document := match request.host.profileDocument profile.name with
    | some (.error diagnostics) => diagnostics
    | _ => []
  let mappings := profile.mappings.zipIdx.map (checkMapping request root profile index)
  (mappings.filterMap Prod.fst, document ++ mappings.flatMap Prod.snd ++
    profile.targets.zipIdx.flatMap (checkTarget request root profile index))

/-! ### The resolution -/

structure Package where
  identity : String
  version : String
  sourceFiles : List String
  sourceIdentity : String
  dependencies : List String
  packageRoot : String
  manifest : Manifest
  deriving DecidableEq, Repr

/-- `filesOf(entry)`: the source files, `[]` with a diagnostic when the host refuses. -/
def filesOf (request : Request) (entry : Entry) : List String × List Diagnostic :=
  match request.host.sourceFiles entry.packageRoot entry.manifest.sourceRoots with
  | .ok files => (files, [])
  | .error error => ([], [diagnostic (if error.canonicalLimit then .limitMaxDepth else .pathEscape)
      (fragment entry.identity ++ ": " ++ fragment error.message)
      (some (entry.locate "/sourceRoots"))])

def packageOf (request : Request) (entry : Entry) : Package where
  identity := entry.identity
  version := entry.versionText
  sourceFiles := (filesOf request entry).1
  sourceIdentity := sourceIdentityFor entry.identity "typespec"
  dependencies := sortByIdentity id (entry.manifest.imports.map (·.packageIdentity)).dedup
  packageRoot := entry.packageRoot
  manifest := entry.manifest

structure Resolution where
  packages : List Package
  profile : Option Profile
  mappings : List Mapping
  exportsByIdentity : OrderedMap String ExportRecord
  importedExports : List String
  diagnostics : List Diagnostic

def rootEntry (request : Request) : Entry := ⟨-1, request.packageRoot, request.root⟩

def initialWorklist (request : Request) : Worklist where
  selected := OrderedMap.empty.set request.root.identity (rootEntry request)
  constraints := OrderedMap.empty
  edges := OrderedMap.empty
  queue := [rootEntry request]
  diagnostics := []

/-- The worklist when the selection loop ends. A candidate is queued at most once, so
the loop makes at most one round for each candidate and one for the root. -/
def selection (request : Request) : Worklist :=
  let d := discoverCandidates request.searchPath
  selectionLoop request.limits (rootEntry request) (byIdentity d.candidates) d.rejected
    (d.candidates.size + 1) (initialWorklist request)

/-- `[...selected.values()].sort(...)`. -/
def orderedSelection (w : Worklist) : List Entry :=
  sortByIdentity (·.identity) w.selected.values

/-- `resolvePackageGraph(request)`; the `root` of the result is its package of the root
identity with the root manifest and directory put back. -/
def resolvePackageGraph (request : Request) : Resolution :=
  let w := selection request
  let ordered := orderedSelection w
  let exportCheck := checkExports ordered
  let (profile, profileDiagnostics) := selectProfile request (rootEntry request)
  let (mappings, mappingDiagnostics) := match profile with
    | none => ([], [])
    | some profile => checkProfile request (rootEntry request) profile
  { packages := ordered.map (packageOf request)
    profile
    mappings
    exportsByIdentity := exportCheck.exportsByIdentity
    importedExports := (exportCheck.exportsByIdentity.entries.filter
      (fun e => e.2.owner ≠ request.root.identity)).map Prod.fst
    diagnostics := (discoverCandidates request.searchPath).diagnostics ++ w.diagnostics ++
      conflicts w ++ detectCycles w.edges ++ exportCheck.diagnostics ++
      checkImports w.selected ordered ++ profileDiagnostics ++ mappingDiagnostics ++
      ordered.flatMap (fun entry => (filesOf request entry).2) }

end FilamentCore.Packages
