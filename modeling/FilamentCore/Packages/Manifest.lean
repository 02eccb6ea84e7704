import FilamentCore.Compiler.Diagnostics

/-!
# Package manifests (schema/semantic/v1/package-manifest.schema.json)

The members of a manifest that package resolution reads, as `readDocument` returns
them once the published schema has accepted the document, and what the host answers
about the files beside it.
-/

namespace FilamentCore.Packages
open FilamentCore.Compiler

inductive Visibility where
  | exported
  | internal
  deriving DecidableEq, Repr

/-- The JSON spelling: `public` or `private`. -/
def Visibility.text : Visibility → String
  | .exported => "public"
  | .internal => "private"

structure Export where
  name : String
  typeIdentity : String
  visibility : Visibility
  deriving DecidableEq, Repr

structure Import where
  packageIdentity : String
  versionConstraint : String
  exports : List String
  capabilities : List String
  deriving DecidableEq, Repr

inductive CompatibilityPosture where
  | strict
  | additive
  | declaredLossy
  deriving DecidableEq, Repr

/-- `capabilities` is `options.capabilities`, `[]` when absent. -/
structure Profile where
  name : String
  version : String
  targets : List String
  mappings : List String
  capabilities : List String
  compatibilityPosture : CompatibilityPosture
  deriving DecidableEq, Repr

/-- A manifest the schema accepted: its version is a semantic version. -/
structure Manifest where
  identity : String
  versionText : String
  sourceRoots : List String
  exports : List Export
  imports : List Import
  profiles : List Profile
  targets : List String
  mappings : List String
  semver : (parseVersion versionText).isSome = true
  deriving DecidableEq, Repr

/-- `parseVersion(manifest.package.version)`. -/
def Manifest.version (m : Manifest) : Version := (parseVersion m.versionText).get m.semver

def sourceIdentityFor (identity kind : String) : String :=
  "ix://" ++ identity ++ "/source/" ++ kind

/-! ### The host -/

/-- One entry of a search directory that carries a `package-manifest.json`, or whose
real path leaves the directory; `readDir` lists the others, and they are skipped. -/
inductive Offer where
  | escapes (name message : String)
  | rejected (packageRoot : String) (diagnostics : List Diagnostic)
  | readable (packageRoot : String) (manifest : Manifest)
  deriving DecidableEq, Repr

structure MappingDocument where
  version : String
  /-- `transformation?.preservation`. -/
  preservation : Option String
  deriving DecidableEq, Repr

/-- Why `sourceFiles` threw: `CanonicalLimitError`, or anything else. -/
structure SourceError where
  canonicalLimit : Bool
  message : String
  deriving DecidableEq, Repr

/-- The reads resolution makes besides the manifests: `sourceFiles` over the declared
roots of a package, and the profile and mapping documents beside the root manifest,
`none` when the host has no such file and an error when the read refuses it. -/
structure Host where
  sourceFiles : String → List String → Except SourceError (List String)
  profileDocument : String → Option (Except (List Diagnostic) Unit)
  mappingDocument : String → Option (Except (List Diagnostic) MappingDocument)

/-- `{ host, packageRoot, searchPath, profileName, limits }`, with the root manifest
and the search directories as the host reads them. When the root manifest cannot be
read, its diagnostics are the whole result. -/
structure Request where
  host : Host
  packageRoot : String
  root : Manifest
  searchPath : List (List Offer)
  profileName : Option String
  limits : Limits

end FilamentCore.Packages
