import FilamentCore.SemanticIr.TypeSchema

/-!
# The input bundle (crates/semantic-ir/src/schema.rs)

The schemas of the other members of a bundle, `decide`, and when the diagnostics it returns
account for every defect the walk found.
-/

namespace FilamentCore.SemanticIr

/-! ### The package manifest -/

def manifestMembers : List String :=
  ["contractVersion", "package", "schemaDialect", "sourceRoots", "exports", "imports",
    "profiles", "targets", "mappings", "extensions"]

def manifestPackage (package : Json) (at' : String) : List Finding :=
  expectObject package at' "a manifest package" <|
    requireMembers package at' ["identity", "version"] ++
    forbidExtra package at' ["identity", "version"] ++
    expectShape (package.get "identity") (child at' "identity") isPackageIdentity
      packageIdentityText ++
    expectShape (package.get "version") (child at' "version") isSemver "a version is SemVer"

def exportSchema (exported : Json) (at' : String) : List Finding :=
  let members := ["name", "typeIdentity", "visibility"]
  expectObject exported at' "an export" <|
    requireMembers exported at' members ++
    forbidExtra exported at' members ++
    expectString (exported.get "name") (child at' "name") 1 "a name" ++
    identityMember exported at' "typeIdentity" ++
    expectEnum (exported.get "visibility") (child at' "visibility") ["public", "private"]
      "visibility"

def importSchema (imported : Json) (at' : String) : List Finding :=
  let members := ["packageIdentity", "versionConstraint", "exports", "capabilities"]
  expectObject imported at' "an import" <|
    requireMembers imported at' members ++
    forbidExtra imported at' members ++
    expectShape (imported.get "packageIdentity") (child at' "packageIdentity") isPackageIdentity
      packageIdentityText ++
    expectString (imported.get "versionConstraint") (child at' "versionConstraint") 1
      "a version constraint"

def manifestTargets (value : Option Json) (at' : String) : List Finding :=
  each value at' "targets" fun target targetAt =>
    expectShape (some target) targetAt
      (fun text => targets.contains text || representationFormats.contains text)
      "a manifest target is a generated target or a representation format"

def namedProfileSchema (profile : Json) (at' : String) : List Finding :=
  let members := ["name", "version", "exports", "targets", "mappings", "options",
    "compatibilityPosture"]
  expectObject profile at' "a named profile" <|
    requireMembers profile at' members ++
    forbidExtra profile at' members ++
    expectEnum (profile.get "compatibilityPosture") (child at' "compatibilityPosture")
      ["strict", "additive", "declared-lossy"] "a compatibility posture" ++
    expectShape (profile.get "version") (child at' "version") isSemver "a version is SemVer" ++
    manifestTargets (profile.get "targets") (child at' "targets")

def packageManifest (manifest : Json) (at' : String) : List Finding :=
  expectObject manifest at' "a package manifest" <|
    requireMembers manifest at' manifestMembers ++
    forbidExtra manifest at' manifestMembers ++
    expectEnum (manifest.get "contractVersion") (child at' "contractVersion") ["1.0.0"]
      "a manifest contractVersion" ++
    expectEnum (manifest.get "schemaDialect") (child at' "schemaDialect")
      ["https://json-schema.org/draft/2020-12/schema"] "a manifest schemaDialect" ++
    (whenSome (manifest.get "package") fun package =>
      manifestPackage package (child at' "package")) ++
    each (manifest.get "exports") (child at' "exports") "exports" exportSchema ++
    each (manifest.get "imports") (child at' "imports") "imports" importSchema ++
    each (manifest.get "profiles") (child at' "profiles") "profiles" namedProfileSchema ++
    manifestTargets (manifest.get "targets") (child at' "targets") ++
    extensionArray manifest at'

/-! ### The resolved package graph -/

/-- `previous.is_some_and(|previous| previous >= identity)`. -/
def notAfter (previous : Option String) (identity : String) : Bool :=
  previous.any fun previous => decide (identity ≤ previous)

/-- The imports or exports of a package: identities of a shape, increasing. -/
def graphIdentities (shape : String → Bool) (name at' : String) (previous : Option String) :
    List (Json × ℕ) → List Finding
  | [] => []
  | (value, item) :: values =>
    (match value.asStr with
      | none => []
      | some identity => pushIf (notAfter previous identity) (index at' item)
          (name ++ " must increase by identity")) ++
    expectShape (some value) (index at' item) shape "an import or export identity" ++
    graphIdentities shape name at' (value.asStr.orElse fun _ => previous) values

def resolvedPackageMembers : List String := ["identity", "version", "imports", "exports"]

def resolvedPackage (package : Json) (at' : String) (previous : Option String) : List Finding :=
  expectObject package at' "a resolved package" <|
    (match package.getStr "identity" with
      | none => []
      | some identity => pushIf (notAfter previous identity) (child at' "identity")
          "package identities must increase") ++
    requireMembers package at' resolvedPackageMembers ++
    forbidExtra package at' resolvedPackageMembers ++
    expectShape (package.get "identity") (child at' "identity") isPackageIdentity
      packageIdentityText ++
    expectShape (package.get "version") (child at' "version") isSemver "a version is SemVer" ++
    [("imports", isPackageIdentity), ("exports", isSemanticIdentity)].flatMap fun list =>
      whenSome (package.get list.1) fun values =>
        expectArray values (child at' list.1) list.1 fun items =>
          graphIdentities list.2 list.1 (child at' list.1) none items.zipIdx

def resolvedPackages (at' : String) (previous : Option String) :
    List (Json × ℕ) → List Finding
  | [] => []
  | (package, position) :: packages =>
    resolvedPackage package (index at' position) previous ++
    resolvedPackages at' ((package.getStr "identity").orElse fun _ => previous) packages

def packageGraph (graph : Json) (at' : String) : List Finding :=
  expectObject graph at' "a resolved package graph" <|
    requireMembers graph at' ["rootPackage", "packages"] ++
    forbidExtra graph at' ["rootPackage", "packages"] ++
    expectShape (graph.get "rootPackage") (child at' "rootPackage") isPackageIdentity
      packageIdentityText ++
    whenSome (graph.get "packages") fun packages =>
      expectArray packages (child at' "packages") "packages" fun items =>
        resolvedPackages (child at' "packages") none items.zipIdx ++
        match graph.getStr "rootPackage" with
        | none => []
        | some root =>
          pushIf (items.countP (fun package => package.getStr "identity" == some root) != 1)
            (child at' "rootPackage") "root package must appear exactly once"

/-! ### Profiles, mappings and policies -/

def identityArray (value : Option Json) (at' : String) : List Finding :=
  identityEntries value at' "an identity list"

def profileRequired : List String :=
  ["contractVersion", "identity", "version", "authority", "editDirection", "roundTrip",
    "unknownPolicy", "allowedOmissions", "enrichment", "materializationLifetime"]

def profileMembers : List String := profileRequired ++ ["options", "extensions"]

def profileSchema (profile : Json) (at' : String) : List Finding :=
  expectObject profile at' "a profile" <|
    requireMembers profile at' profileRequired ++
    forbidExtra profile at' profileMembers ++
    expectEnum (profile.get "contractVersion") (child at' "contractVersion") ["1.0.0"]
      "a profile contractVersion" ++
    identityMember profile at' "identity" ++
    expectShape (profile.get "version") (child at' "version") isSemver "a version is SemVer" ++
    expectEnum (profile.get "authority") (child at' "authority")
      ["semantic-source", "authored-representation", "runtime-store", "derived-projection",
        "compatibility-bridge"] "a profile authority" ++
    expectEnum (profile.get "editDirection") (child at' "editDirection")
      ["read-only", "write-only", "bidirectional"] "an edit direction" ++
    expectEnum (profile.get "roundTrip") (child at' "roundTrip") preservations "a round trip" ++
    expectEnum (profile.get "unknownPolicy") (child at' "unknownPolicy") unknownPolicies
      "the unknown policy vocabulary" ++
    expectEnum (profile.get "materializationLifetime") (child at' "materializationLifetime")
      ["request", "run", "session", "durable"] "a materialization lifetime" ++
    expectBool (profile.get "enrichment") (child at' "enrichment") "enrichment" ++
    identityArray (profile.get "allowedOmissions") (child at' "allowedOmissions") ++
    extensionArray profile at'

def transformationMembers : List String :=
  ["kind", "purity", "deterministic", "externalReads", "externalWrites", "failureStates",
    "retryIdempotent", "preservation", "omittedIdentities", "getPutLaws", "conflictPolicy",
    "groupingKeys", "window", "ordering", "lateDataPolicy", "aggregateSemantics",
    "provenanceSources", "lifetime", "encoding", "decodePolicy", "selectedIdentities",
    "sourceLoci", "presentationMediaType"]

/-- The members each kind of transformation is obliged to carry. -/
def obligations : List (String × List String) :=
  [("codec", ["encoding", "decodePolicy"]),
    ("lens", ["getPutLaws", "conflictPolicy"]),
    ("projection", ["selectedIdentities", "preservation"]),
    ("extraction", ["sourceLoci", "preservation"]),
    ("rendering", ["presentationMediaType", "preservation"]),
    ("aggregation",
      ["groupingKeys", "window", "ordering", "lateDataPolicy", "aggregateSemantics"]),
    ("enrichment", ["provenanceSources"]),
    ("materialization", ["lifetime"])]

def obliged (kind : String) : List String :=
  ((obligations.find? fun o => o.1 == kind).map Prod.snd).getD []

def transformationSchema (transformation : Json) (at' : String) : List Finding :=
  let kind := (transformation.getStr "kind").getD ""
  expectObject transformation at' "a transformation" <|
    requireMembers transformation at' ["kind", "purity", "deterministic", "externalReads",
      "externalWrites", "failureStates", "retryIdempotent"] ++
    forbidExtra transformation at' transformationMembers ++
    expectEnum (transformation.get "kind") (child at' "kind")
      ["codec", "lens", "projection", "extraction", "rendering", "aggregation", "enrichment",
        "materialization"] "a transformation kind" ++
    expectEnum (transformation.get "purity") (child at' "purity") ["pure", "effectful"]
      "a transformation purity" ++
    expectBool (transformation.get "deterministic") (child at' "deterministic")
      "deterministic" ++
    expectBool (transformation.get "retryIdempotent") (child at' "retryIdempotent")
      "retryIdempotent" ++
    (each (transformation.get "failureStates") (child at' "failureStates") "failureStates"
      fun state stateAt => expectEnum (some state) stateAt resultStates "a result state") ++
    (["externalReads", "externalWrites", "omittedIdentities"].flatMap fun name =>
      identityArray (transformation.get name) (child at' name)) ++
    expectEnum (transformation.get "preservation") (child at' "preservation") preservations
      "a preservation" ++
    requireMembers transformation at' (obliged kind) ++
    (if transformation.getStr "purity" = some "effectful" then
      requireMembers transformation at' ["provenanceSources"]
    else []) ++
    if transformation.getStr "preservation" = some "declared-lossy" then
      requireMembers transformation at' ["omittedIdentities"]
    else []

def correspondenceSchema (correspondence : Json) (at' : String) : List Finding :=
  expectObject correspondence at' "a correspondence" <|
    requireMembers correspondence at' ["sourceIdentity", "targetLocus"] ++
    forbidExtra correspondence at' ["sourceIdentity", "targetLocus"] ++
    identityMember correspondence at' "sourceIdentity" ++
    expectString (correspondence.get "targetLocus") (child at' "targetLocus") 1 "a target locus"

def mappingMembers : List String :=
  ["contractVersion", "identity", "version", "sourceType", "targetType", "representation",
    "correspondences", "transformation"]

def mappingSchema (mapping : Json) (at' : String) : List Finding :=
  expectObject mapping at' "a mapping" <|
    requireMembers mapping at' mappingMembers ++
    forbidExtra mapping at' mappingMembers ++
    expectEnum (mapping.get "contractVersion") (child at' "contractVersion") ["1.0.0"]
      "a mapping contractVersion" ++
    (["identity", "sourceType", "targetType"].flatMap fun name =>
      identityMember mapping at' name) ++
    expectShape (mapping.get "version") (child at' "version") isSemver "a version is SemVer" ++
    expectString (mapping.get "representation") (child at' "representation") 1
      "a representation" ++
    (whenSome (mapping.get "correspondences") fun correspondences =>
      let correspondencesAt := child at' "correspondences"
      expectArray correspondences correspondencesAt "correspondences" fun items =>
        pushIf items.isEmpty correspondencesAt "a mapping carries at least one correspondence" ++
        atItems items correspondencesAt correspondenceSchema) ++
    whenSome (mapping.get "transformation") fun transformation =>
      transformationSchema transformation (child at' "transformation")

def policyMembers : List String :=
  ["contractVersion", "consumer", "mode", "exports", "unknownModules", "unknownExtensions",
    "identityPlanes"]

def consumerPolicy (policy : Json) (at' : String) : List Finding :=
  expectObject policy at' "a consumer policy" <|
    requireMembers policy at' policyMembers ++
    forbidExtra policy at' policyMembers ++
    expectEnum (policy.get "contractVersion") (child at' "contractVersion") ["1.0.0"]
      "a consumer policy contractVersion" ++
    identityMember policy at' "consumer" ++
    expectEnum (policy.get "mode") (child at' "mode") ["dynamic", "generated"]
      "a consumer mode" ++
    (["unknownModules", "unknownExtensions"].flatMap fun name =>
      expectEnum (policy.get name) (child at' name) unknownPolicies
        "the unknown policy vocabulary") ++
    identityArray (policy.get "exports") (child at' "exports") ++
    whenSome (policy.get "identityPlanes") fun planes =>
      let planesAt := child at' "identityPlanes"
      expectArray planes planesAt "identityPlanes" fun items =>
        pushIf (items.length != 6 || hasDuplicateStrings items) planesAt
          "the six identity planes are named exactly once" ++
        atItems items planesAt fun plane planeAt =>
          expectEnum (some plane) planeAt
            ["package", "type", "field", "profile", "mapping", "fingerprint"]
            "an identity plane"

/-! ### The bundle -/

def bundleMembers : List String :=
  ["ir", "manifest", "packageGraph", "profile", "mappings", "consumerPolicy"]

def bundleSchema (bundle : Json) : List Finding :=
  requireMembers bundle "" ["ir"] ++
  forbidExtra bundle "" bundleMembers ++
  (whenSome (bundle.get "ir") fun ir => semanticIr ir "/ir") ++
  (whenSome (bundle.get "manifest") fun manifest => packageManifest manifest "/manifest") ++
  (whenSome (bundle.get "packageGraph") fun graph => packageGraph graph "/packageGraph") ++
  (whenSome (bundle.get "profile") fun profile => profileSchema profile "/profile") ++
  each (bundle.get "mappings") "/mappings" "mappings" mappingSchema ++
  whenSome (bundle.get "consumerPolicy") fun policy => consumerPolicy policy "/consumerPolicy"

namespace Schema

def decide (bundle : Json) : List Located :=
  match bundle with
  | .object _ =>
    (Findings.deepest (bundleSchema bundle)).map fun finding =>
      { pointer := finding.pointer
        code := .schemaViolation
        severity := .error
        message := finding.message
        owner := ownerFor bundle finding.pointer
        blocking := true
        locus := locusFor bundle finding.pointer }
  | _ =>
    [{ pointer := ""
       code := .invalidDocument
       severity := .error
       message := "a conformance input bundle is a JSON object carrying an ir member"
       owner := oracleOwner
       blocking := true
       locus := none }]

/-! ### What is accounted for -/

/-- Every location the walk found a defect at is reported, or one strictly inside the value it
points at is. -/
def LocationsAccounted (bundle : Json) : Prop :=
  ∀ f ∈ bundleSchema bundle, ∃ l ∈ decide bundle,
    l.pointer = f.pointer ∨ Findings.Below l.pointer f.pointer

instance (bundle : Json) : Decidable (LocationsAccounted bundle) :=
  inferInstanceAs (Decidable (∀ f ∈ bundleSchema bundle, ∃ l ∈ decide bundle, _))

theorem exists_mem_decide {bundle : Json} {members : List (String × Json)}
    (hb : bundle = .object members) (at' : String → Prop) :
    (∃ l ∈ decide bundle, at' l.pointer) ↔
      ∃ k ∈ Findings.deepest (bundleSchema bundle), at' k.pointer := by
  subst hb
  simp only [decide, List.mem_map]
  constructor
  · rintro ⟨l, ⟨k, hk, rfl⟩, h⟩
    exact ⟨k, hk, h⟩
  · rintro ⟨k, hk, h⟩
    exact ⟨_, ⟨k, hk, rfl⟩, h⟩

theorem bundleSchema_of_not_object {bundle : Json} (hb : bundle.asObject = none)
    {f : Finding} (hf : f ∈ bundleSchema bundle) : f.pointer = "" := by
  cases bundle with
  | object members => simp [Json.asObject] at hb
  | _ =>
    simp [bundleSchema, requireMembers, forbidExtra, each, whenSome, pushIf, Json.has, Json.get,
      Json.asObject] at hf
    rw [hf]

theorem locationsAccounted_iff_nested (bundle : Json) :
    LocationsAccounted bundle ↔ Findings.Nested (bundleSchema bundle) := by
  cases hb : bundle.asObject with
  | some members =>
    have ho : bundle = .object members := by
      cases bundle <;> simp_all [Json.asObject]
    rw [← Findings.accounted_iff_nested]
    apply forall₂_congr
    intro f _
    exact exists_mem_decide ho fun p => p = f.pointer ∨ Findings.Below p f.pointer
  | none =>
    have hroot := fun f hf => bundleSchema_of_not_object (f := f) hb hf
    constructor
    · intro _ f hf g hg hne
      exact absurd ((hroot g hg).trans (hroot f hf).symm) hne
    · intro _ f hf
      cases bundle with
      | object members => simp [Json.asObject] at hb
      | _ => exact ⟨_, List.mem_cons_self .., .inl (hroot f hf).symm⟩

/-- A type whose `target` and `targetEnd` are both of the wrong shape. -/
def targetBesideTargetEnd : Json :=
  let five := Json.number ⟨"5", by decide +kernel⟩
  .object [("ir", .object [("types", .array [.object [("target", five), ("targetEnd", five)]])])]

theorem targetBesideTargetEnd_not_accounted : ¬ LocationsAccounted targetBesideTargetEnd := by
  decide +kernel

end Schema
end FilamentCore.SemanticIr
