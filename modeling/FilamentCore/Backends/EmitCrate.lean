import FilamentCore.Backends.RustDiagnostics
import FilamentCore.Library.OrderedMap
import FilamentCore.SemanticIr.Json

/-!
# The crate emitter (src/compiler/backends/rust-serde/crate.mjs, mapping.mjs)

The stages of `emitCrate`, the diagnostics they collect, and what `finish` answers. How a type is
mapped and rendered is the generator's, of which only the diagnostics and the text it yields are
seen here.
-/

namespace FilamentCore.Backends.RustSerde
open FilamentCore.Library
open FilamentCore.Packages (byCodePoint)
open FilamentCore.SemanticIr (Json)

/-! ### The request -/

structure Limits where
  maxInputBytes : Option ℕ
  maxDepth : Option ℕ
  maxNodes : Option ℕ
  maxCollectionItems : Option ℕ
  maxDiagnostics : Option ℕ
  deriving DecidableEq, Repr

structure Request where
  ir : Json
  /-- `profile?.allowedOmissions`. -/
  allowedOmissions : Option (List String)
  /-- `backend?.identity`. -/
  backend : Option String
  outputRoot : Option String
  limits : Option Limits

def Request.maxDiagnostics (request : Request) : Option ℕ :=
  request.limits.bind (·.maxDiagnostics)

def Request.unlimited (request : Request) : Request :=
  { request with limits := request.limits.map fun limits => { limits with maxDiagnostics := none } }

/-! ### The limits on the input -/

/-- What `walk` counts. -/
structure Extent where
  nodes : ℕ
  deepest : ℕ
  widest : ℕ
  deriving DecidableEq, Repr

def Extent.join (a b : Extent) : Extent :=
  ⟨a.nodes + b.nodes, max a.deepest b.deepest, max a.widest b.widest⟩

mutual

/-- `walk(value, depth)`. -/
def extent (depth : ℕ) : Json → Extent
  | .array items => (extentItems (depth + 1) items).foldl Extent.join ⟨1, depth, items.length⟩
  | .object members =>
    (Json.resolvedMembers (extentMembers (depth + 1) members)).foldl
      (fun whole member => whole.join member.2) ⟨1, depth, 0⟩
  | _ => ⟨1, depth, 0⟩

def extentItems (depth : ℕ) : List Json → List Extent
  | [] => []
  | item :: items => extent depth item :: extentItems depth items

def extentMembers (depth : ℕ) : List (String × Json) → List (String × Extent)
  | [] => []
  | m :: ms => extentMember depth m :: extentMembers depth ms

def extentMember (depth : ℕ) : String × Json → String × Extent
  | (name, value) => (name, extent depth value)

end

/-- The UTF-8 length of `JSON.stringify(ir)`, which the order of members does not change. -/
def inputBytes (ir : Json) : ℕ := (String.ofList ir.canonical).utf8ByteSize

def exceeds (which : String) (measured : ℕ) (limit : Option ℕ) : List Diagnostic :=
  match limit with
  | none => []
  | some limit =>
    if limit < measured then
      [diagnostic .limitExceeded ("the input exceeds the declared limit `" ++ which ++
        "`: measured " ++ toString measured ++ ", limit " ++ toString limit) none]
    else []

def enforceLimits (ir : Json) (limits : Option Limits) : List Diagnostic :=
  match limits with
  | none => []
  | some limits =>
    let counted := extent 1 ir
    exceeds "maxInputBytes" (inputBytes ir) limits.maxInputBytes ++
      exceeds "maxNodes" counted.nodes limits.maxNodes ++
      exceeds "maxDepth" counted.deepest limits.maxDepth ++
      exceeds "maxCollectionItems" counted.widest limits.maxCollectionItems

/-! ### The output root -/

def isLineTerminator (c : Char) : Bool :=
  c = '\n' || c = '\r' || c.toNat = 0x2028 || c.toNat = 0x2029

/-- `/^[A-Za-z]:/`. -/
def startsWithDrive : List Char → Bool
  | c :: ':' :: _ => c.isAlpha
  | _ => false

def isTraversalFree (value : String) : Bool :=
  let text := value.toList
  text ≠ [] && !text.any (fun c => c.toNat = 0 || isLineTerminator c) && !text.contains '\\' &&
    text.head? ≠ some '/' && !startsWithDrive text && !(text.splitOn '/').contains ['.', '.']

def checkOutputRoot (outputRoot : String) : List Diagnostic :=
  if isTraversalFree outputRoot then []
  else [diagnostic .unsafeOutputRoot ("the request's outputRoot " ++ fragment outputRoot ++
    " is not traversal-free under the intended-language predicate") none]

/-! ### Mapping the document -/

/-- `String(document.package?.identity)`. -/
def packageIdentity (document : Json) : Option String :=
  (document.get "package").bind (·.getStr "identity")

def isPackageChar (c : Char) : Bool := c.isAlphanum || c = '_' || c = '-'

/-- `crateName`: `/^[A-Za-z0-9][A-Za-z0-9_-]*$/` of the identity with `-` for `/`. -/
def crateName (identity : String) : Except Diagnostic String :=
  let text := identity.toList.map fun c => if c = '/' then '-' else c
  if (text.head?.any (·.isAlphanum)) && text.all isPackageChar then .ok (String.ofList text)
  else .error (diagnostic .unrenderableName
    ("does not render a legal Cargo package name (" ++ fragment identity ++ ")") none)

/-- `definition.origin?.source`. -/
def sourceOf (definition : Json) : Option Locus := do
  let source ← (← definition.get "origin").get "source"
  return { sourceIdentity := (source.getStr "sourceIdentity").getD ""
           path := (source.getStr "path").getD ""
           startLine := ((source.getI64 "startLine").getD 0).toNat
           startColumn := ((source.getI64 "startColumn").getD 0).toNat }

/-- `byIdentity.get(identity)`: the last definition of an identity. -/
def definitionOf (definitions : List Json) (identity : String) : Option Json :=
  definitions.reverse.find? fun definition => definition.getStr "identity" = some identity

/-- The declared losses of the profile. -/
def declaredLoss (definitions : List Json) (omitted : List String) : List Diagnostic :=
  omitted.filterMap fun identity =>
    (definitionOf definitions identity).map fun definition =>
      diagnostic .declaredLoss ("the type " ++ fragment identity ++
        " is dropped from the generated crate because the profile lists it in allowedOmissions")
        (sourceOf definition)

/-- What the generator makes of a document: the rendering view, the model of the retained types with
the diagnostics of their mapping, and the text of every file. -/
structure Generator (Model TypeModel : Type) where
  renderingView : Json → Json
  mapTypes : Json → Json → List Json → List Diagnostic × Model
  crateFiles : Model → String → String → List (String × String)
  types : Model → List TypeModel
  moduleName : TypeModel → String
  identity : TypeModel → String
  renderType : TypeModel → Model → Json → List Diagnostic × Option String

variable {Model TypeModel : Type} (g : Generator Model TypeModel)

/-- `mapDocument(view, { allowedOmissions, authored })`: the diagnostics, and the model with its
crate name when none of them blocks. -/
def mapDocument (view ir : Json) (allowedOmissions : List String) :
    Except String (List Diagnostic × Option (String × Model)) :=
  if view.getStr "contractVersion" ≠ some "2.0.0" then
    .error ("mapDocument expects a document backends/seam.mjs already refused under " ++
      "agent-ix.compiler.UNKNOWN_CONTRACT_VERSION if it declared anything but 2.0.0; got " ++
      fragment ((view.getStr "contractVersion").getD "undefined"))
  else
    let definitions := view.members "types"
    let omitted := allowedOmissions.dedup
    let retained := definitions.filter fun definition =>
      (definition.getStr "identity").all fun identity => !omitted.contains identity
    let mapped := g.mapTypes view ir retained
    let raised := declaredLoss definitions omitted ++ mapped.1
    match crateName ((packageIdentity view).getD "undefined") with
    | .error refused => .ok (raised ++ [refused], none)
    | .ok name =>
      .ok (raised, if hasBlocking raised then none else some (name, mapped.2))

/-! ### The answer -/

inductive State where
  | success | invalid | unsupported
  deriving DecidableEq, Repr

/-- What a stage hands to `finish`. -/
structure Collected where
  files : List (String × String)
  diagnostics : List Diagnostic
  state : State
  identitiesByPath : List (String × String)
  package : Option String

/-- The types rendered one by one: their diagnostics, their files and whose file each is. -/
def renderTypes (model : Model) (view : Json) :
    List TypeModel → List Diagnostic × List (String × String) × List (String × String)
  | [] => ([], [], [])
  | type :: types =>
    let path := "src/types/" ++ g.moduleName type ++ ".rs"
    let rendered := g.renderType type model view
    let rest := renderTypes model view types
    match rendered.2 with
    | none => (rendered.1 ++ rest.1, rest.2)
    | some text =>
      (rendered.1 ++ rest.1, (path, text) :: rest.2.1, (path, g.identity type) :: rest.2.2)

/-- `emitCrate` up to the call of `finish`. -/
def collect (request : Request) (licenseText : String) : Except String Collected :=
  let checked := enforceLimits request.ir request.limits ++
    checkOutputRoot (request.outputRoot.getD "")
  if hasBlocking checked then .ok ⟨[], checked, .invalid, [], none⟩
  else
    let view := g.renderingView request.ir
    (mapDocument g view request.ir (request.allowedOmissions.getD [])).map fun mapped =>
      let diagnostics := checked ++ mapped.1
      match mapped.2 with
      | none => ⟨[], diagnostics, .unsupported, [], none⟩
      | some (name, model) =>
        let rendered := renderTypes g model view (g.types model)
        let diagnostics := diagnostics ++ rendered.1
        if hasBlocking diagnostics then ⟨[], diagnostics, .unsupported, [], none⟩
        else ⟨g.crateFiles model name licenseText ++ rendered.2.1, diagnostics, .success,
          rendered.2.2, packageIdentity view⟩

structure Entry where
  path : String
  mediaType : String
  semanticIdentities : List String
  deriving DecidableEq, Repr

structure Manifest where
  contractVersion : String
  backend : String
  state : State
  files : List Entry
  diagnostics : List Diagnostic

structure Output where
  files : List (String × String)
  diagnostics : List Diagnostic
  state : State
  manifest : Manifest

def mediaTypeOf (path : String) : String :=
  if path.endsWith ".rs" then "text/x-rust"
  else if path.endsWith ".toml" then "application/toml"
  else if path.endsWith ".md" then "text/markdown"
  else "text/plain"

/-- The files in the order of their paths, each path once. -/
def orderedFiles (files : List (String × String)) : List (String × String) :=
  ((files.insertionSort fun left right => (byCodePoint left.1 right.1).isLE = true).foldl
    (fun map file => map.set file.1 file.2) OrderedMap.empty).entries

def entryOf (collected : Collected) (package : String) (file : String × String) : Entry where
  path := file.1
  mediaType := mediaTypeOf file.1
  semanticIdentities :=
    match (collected.identitiesByPath.reverse.find? fun known => known.1 = file.1) with
    | none => [package]
    | some known => [known.2]

def finish (request : Request) (collected : Collected) : Output :=
  let limited := applyDiagnosticLimit collected.diagnostics request.maxDiagnostics
  let state := if hasBlocking limited then collected.state else .success
  let files := if hasBlocking limited then [] else orderedFiles collected.files
  let package := "ix://" ++
    (collected.package.getD ((packageIdentity request.ir).getD "unknown/unknown"))
  { files, diagnostics := limited, state
    manifest :=
      { contractVersion := "1.0.0"
        backend := request.backend.getD "ix://agent-ix/filament-core-data/rust-backend"
        state, files := files.map (entryOf collected package), diagnostics := limited } }

def emitCrate (request : Request) (licenseText : String) : Except String Output :=
  (collect g request licenseText).map (finish request)

/-! ### What the limit decides -/

variable {g} {request : Request} {licenseText : String} {collected : Collected}

/-- The answer apart from the reported list. -/
def Output.unreported (output : Output) : Output :=
  { output with diagnostics := [], manifest := { output.manifest with diagnostics := [] } }

theorem collect_unlimited : collect g request.unlimited licenseText = collect g request licenseText := by
  cases h : request.limits <;> simp only [collect, Request.unlimited, enforceLimits, h, Option.map]

theorem collect_blocked (h : collect g request licenseText = .ok collected)
    (hb : hasBlocking collected.diagnostics = true) :
    collected.state ≠ .success ∧ collected.files = [] := by
  unfold collect at h
  dsimp only at h
  split at h
  · cases h
    exact ⟨fun hs => (nomatch hs), rfl⟩
  · rename_i hchecked
    cases hm : mapDocument g (g.renderingView request.ir) request.ir
        (request.allowedOmissions.getD []) with
    | error e =>
      rw [hm] at h
      cases h
    | ok mapped =>
      rw [hm] at h
      obtain ⟨raised, model⟩ := mapped
      cases model with
      | none =>
        cases h
        exact ⟨fun hs => (nomatch hs), rfl⟩
      | some model =>
        obtain ⟨name, model⟩ := model
        simp only [Except.map] at h
        split at h
        · cases h
          exact ⟨fun hs => (nomatch hs), rfl⟩
        · rename_i hall
          cases h
          exact absurd hb hall

theorem hasBlocking_reported (max : Option ℕ) (list : List Diagnostic) :
    hasBlocking (applyDiagnosticLimit list max) = true ↔
      hasBlocking list = true ∧ ∀ n ∈ max, advisoryLead list < n := by
  have h := hasBlocking_limit list max
  cases hb : hasBlocking list with
  | false =>
    have hkept := h.2 fun hc => absurd (hb.symm.trans hc) Bool.false_ne_true
    simp [hkept, hb]
  | true =>
    rw [hb] at h
    simp [h]

theorem finish_state (request : Request) (collected : Collected) :
    (finish request collected).state =
      if hasBlocking (applyDiagnosticLimit collected.diagnostics request.maxDiagnostics) = true
      then collected.state else .success := rfl

/-- A request the limit does not decide: when a diagnostic that blocks was raised the answer is no
success and has no file, and apart from the reported list it is the answer without a limit. -/
structure Decided (g : Generator Model TypeModel) (request : Request) (licenseText : String) :
    Prop where
  refused : ∀ collected output, collect g request licenseText = .ok collected →
    emitCrate g request licenseText = .ok output → hasBlocking collected.diagnostics = true →
      output.state ≠ .success ∧ output.manifest.state ≠ .success ∧ output.files = [] ∧
        output.manifest.files = []
  unlimited : (emitCrate g request licenseText).map Output.unreported =
    (emitCrate g request.unlimited licenseText).map Output.unreported

theorem maxDiagnostics_unlimited (request : Request) : request.unlimited.maxDiagnostics = none := by
  cases h : request.limits <;> simp [Request.maxDiagnostics, Request.unlimited, h]

theorem unreported_eq {collected : Collected}
    (h : hasBlocking (applyDiagnosticLimit collected.diagnostics request.maxDiagnostics) =
      hasBlocking collected.diagnostics) :
    (finish request collected).unreported = (finish request.unlimited collected).unreported := by
  have hall : hasBlocking (applyDiagnosticLimit collected.diagnostics none) =
      hasBlocking collected.diagnostics := hasBlocking_sort collected.diagnostics
  have hir : request.unlimited.ir = request.ir := rfl
  have hbackend : request.unlimited.backend = request.backend := rfl
  simp only [finish, Output.unreported, maxDiagnostics_unlimited, hir, hbackend, h, hall]

theorem decided_iff (g : Generator Model TypeModel) (request : Request) (licenseText : String) :
    Decided g request licenseText ↔
      ∀ collected, collect g request licenseText = .ok collected →
        hasBlocking collected.diagnostics = true →
          ∀ max ∈ request.maxDiagnostics, advisoryLead collected.diagnostics < max := by
  constructor
  · intro h collected hc hb
    have hrun : emitCrate g request licenseText = .ok (finish request collected) := by
      rw [emitCrate, hc]
      rfl
    have hstate := (h.refused collected _ hc hrun hb).1
    rw [finish_state] at hstate
    have hreported : hasBlocking
        (applyDiagnosticLimit collected.diagnostics request.maxDiagnostics) = true := by
      by_contra hno
      exact hstate (if_neg hno)
    exact ((hasBlocking_reported _ _).1 hreported).2
  · intro h
    have hkept : ∀ collected, collect g request licenseText = .ok collected →
        hasBlocking (applyDiagnosticLimit collected.diagnostics request.maxDiagnostics) =
          hasBlocking collected.diagnostics :=
      fun collected hc => (hasBlocking_limit _ _).2 (h collected hc)
    constructor
    · intro collected output hc hrun hb
      rw [emitCrate, hc] at hrun
      cases hrun
      obtain ⟨hstate, _⟩ := collect_blocked hc hb
      have hreported := (hkept collected hc).trans hb
      simp only [finish, hreported, if_true]
      exact ⟨hstate, hstate, trivial, rfl⟩
    · rw [emitCrate, emitCrate, collect_unlimited]
      cases hc : collect g request licenseText with
      | error e => rfl
      | ok collected => exact congrArg Except.ok (unreported_eq (hkept collected hc))

theorem collect_within (h : enforceLimits request.ir request.limits = []) :
    collect g request licenseText = collect g { request with limits := none } licenseText := by
  rw [collect, h]
  rfl

/-! ### A limit that hides the refusal -/

/-- A generator as it answers a document that retains no type. -/
def bareGenerator : Generator Unit Unit where
  renderingView ir := ir
  mapTypes _ _ _ := ([], ())
  crateFiles _ _ _ := []
  types _ := []
  moduleName _ := ""
  identity _ := ""
  renderType _ _ _ := ([], none)

theorem one_valid : (SemanticIr.readNumber "1").isSome = true := by decide +kernel

def one : Json := .number ⟨"1", one_valid⟩

/-- A package whose name is no Cargo package name, and its one type. -/
def dottedPackage : Json :=
  .object [("contractVersion", .str "2.0.0"),
    ("canonicalization", .object [("algorithm", .str "rfc8785-v1")]),
    ("source", .object [("identity", .str "ix://agent-ix/source"), ("version", .str "1"),
      ("dialect", .str "typespec")]),
    ("package", .object [("identity", .str "agent-ix/my.types"), ("version", .str "1"),
      ("mappingVersions", .array []), ("profileVersions", .array [])]),
    ("types", .array [.object [("identity", .str "ix://agent-ix/my.types/T"),
      ("displayName", .str "T"), ("kind", .str "scalar"), ("scalar", .str "string"),
      ("roles", .array []), ("constraints", .array []), ("extensions", .array []),
      ("unknownPolicy", .str "reject"),
      ("origin", .object [("source", .object [("sourceIdentity", .str "ix://agent-ix/source"),
        ("path", .str "main.tsp"), ("startLine", one), ("startColumn", one)])])]]),
    ("occurrences", .array []), ("extensions", .array []), ("constructs", .array [])]

/-- The request drops the type, and reports one diagnostic at most. -/
def dottedRequest (max : ℕ) : Request where
  ir := dottedPackage
  allowedOmissions := some ["ix://agent-ix/my.types/T"]
  backend := none
  outputRoot := some "out"
  limits := some ⟨some 33554432, some 256, some 1000000, some 100000, some max⟩

theorem utf8ByteSize_le (cs : List Char) : (String.ofList cs).utf8ByteSize ≤ 4 * cs.length := by
  induction cs with
  | nil => exact Nat.zero_le _
  | cons c cs ih =>
    have hsize := c.utf8Size_le_four
    have hcons : String.ofList (c :: cs) = String.singleton c ++ String.ofList cs := by
      rw [← String.toList_inj, String.toList_append, String.toList_singleton, String.toList_ofList,
        String.toList_ofList, List.singleton_append]
    rw [hcons, String.utf8ByteSize_append, String.utf8ByteSize_singleton, List.length_cons]
    omega

theorem dottedRequest_within : enforceLimits (dottedRequest 1).ir (dottedRequest 1).limits = [] := by
  have hlength : dottedPackage.canonical.length < 8388608 := by decide +kernel
  have hbytes : ¬ 33554432 < inputBytes dottedPackage := by
    have hle := utf8ByteSize_le dottedPackage.canonical
    rw [inputBytes]
    omega
  have hfirst : exceeds "maxInputBytes" (inputBytes dottedPackage) (some 33554432) = [] := by
    rw [exceeds, if_neg hbytes]
  have hrest : exceeds "maxNodes" (extent 1 dottedPackage).nodes (some 1000000) ++
      exceeds "maxDepth" (extent 1 dottedPackage).deepest (some 256) ++
      exceeds "maxCollectionItems" (extent 1 dottedPackage).widest (some 100000) = [] := by
    decide +kernel
  rw [← hrest]
  show exceeds "maxInputBytes" (inputBytes dottedPackage) (some 33554432) ++ _ ++ _ ++ _ = _
  rw [hfirst]
  rfl

/-- The dropped type is reported, the refusal of the package name is cut, and the answer is a
success without files. -/
theorem dottedRequest_undecided : ¬Decided bareGenerator (dottedRequest 1) "" := by
  have hrun : ((collect bareGenerator (dottedRequest 1) "").toOption.any fun collected =>
      hasBlocking collected.diagnostics &&
        (finish (dottedRequest 1) collected).state == .success) = true := by
    rw [collect_within dottedRequest_within]
    decide +kernel
  intro h
  cases hc : collect bareGenerator (dottedRequest 1) "" with
  | error e =>
    rw [hc] at hrun
    cases hrun
  | ok collected =>
    rw [hc] at hrun
    obtain ⟨hb, hstate⟩ := Bool.and_eq_true_iff.1 hrun
    have hemit : emitCrate bareGenerator (dottedRequest 1) "" =
        .ok (finish (dottedRequest 1) collected) := by
      rw [emitCrate, hc]
      rfl
    exact (h.refused collected _ hc hemit hb).1 (beq_iff_eq.1 hstate)

end FilamentCore.Backends.RustSerde
