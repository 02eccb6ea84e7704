import FilamentCore.Packages.Version

/-!
# Compiler diagnostics (src/compiler/diagnostics.mjs)

The registry entries package resolution raises, and the diagnostic record. Every
one of these codes is registered with severity `error` and `blocking: true`.
-/

namespace FilamentCore.Compiler
open FilamentCore.Packages (codeUnits)

inductive Code where
  | pathEscape
  | invalidManifest
  | invalidMapping
  | invalidProfile
  | unsupportedVersionConstraint
  | importNotFound
  | importVersionUnsatisfied
  | importVersionConflict
  | importExportMissing
  | importExportPrivate
  | importCapabilityMissing
  | packageCycle
  | duplicateExport
  | unknownProfile
  | unknownMapping
  | unknownTarget
  | undeclaredLoss
  | ambiguousProfile
  | limitMaxInputBytes
  | limitMaxDepth
  | limitMaxNodes
  deriving DecidableEq, Repr

/-- The registered wire name. -/
def Code.text : Code → String
  | .pathEscape => "agent-ix.compiler.PATH_ESCAPE"
  | .invalidManifest => "agent-ix.compiler.INVALID_MANIFEST"
  | .invalidMapping => "agent-ix.compiler.INVALID_MAPPING"
  | .invalidProfile => "agent-ix.compiler.INVALID_PROFILE"
  | .unsupportedVersionConstraint => "agent-ix.compiler.UNSUPPORTED_VERSION_CONSTRAINT"
  | .importNotFound => "agent-ix.compiler.IMPORT_NOT_FOUND"
  | .importVersionUnsatisfied => "agent-ix.compiler.IMPORT_VERSION_UNSATISFIED"
  | .importVersionConflict => "agent-ix.compiler.IMPORT_VERSION_CONFLICT"
  | .importExportMissing => "agent-ix.compiler.IMPORT_EXPORT_MISSING"
  | .importExportPrivate => "agent-ix.compiler.IMPORT_EXPORT_PRIVATE"
  | .importCapabilityMissing => "agent-ix.compiler.IMPORT_CAPABILITY_MISSING"
  | .packageCycle => "agent-ix.compiler.PACKAGE_CYCLE"
  | .duplicateExport => "agent-ix.compiler.DUPLICATE_EXPORT"
  | .unknownProfile => "agent-ix.compiler.UNKNOWN_PROFILE"
  | .unknownMapping => "agent-ix.compiler.UNKNOWN_MAPPING"
  | .unknownTarget => "agent-ix.compiler.UNKNOWN_TARGET"
  | .undeclaredLoss => "agent-ix.compiler.UNDECLARED_LOSS"
  | .ambiguousProfile => "agent-ix.compiler.AMBIGUOUS_PROFILE"
  | .limitMaxInputBytes => "agent-ix.compiler.LIMIT_MAX_INPUT_BYTES"
  | .limitMaxDepth => "agent-ix.compiler.LIMIT_MAX_DEPTH"
  | .limitMaxNodes => "agent-ix.compiler.LIMIT_MAX_NODES"

/-- `registry[name].blocking`: `blocking(COMPILER)` for every compiler code. -/
def Code.blocking (_ : Code) : Bool := true

/-- A source locus, named by the manifest and the JSON pointer it is looked up at;
the line and column are read from the manifest's text. -/
structure Locus where
  sourceIdentity : String
  pointer : String
  deriving DecidableEq, Repr

/-- `causes` are diagnostics themselves in the source; they are carried by code. -/
structure Diagnostic where
  code : Code
  message : String
  locus : Option Locus
  related : List Locus
  causes : List Code
  deriving DecidableEq, Repr

def diagnostic (code : Code) (message : String) (locus : Option Locus) : Diagnostic :=
  { code, message, locus, related := [], causes := [] }

/-- `/\s/`. -/
def isSpace (c : Char) : Bool :=
  (0x09 ≤ c.toNat && c.toNat ≤ 0x0D) || c.toNat == 0x20 || c.toNat == 0xA0 ||
    c.toNat == 0x1680 || (0x2000 ≤ c.toNat && c.toNat ≤ 0x200A) || c.toNat == 0x2028 ||
    c.toNat == 0x2029 || c.toNat == 0x202F || c.toNat == 0x205F || c.toNat == 0x3000 ||
    c.toNat == 0xFEFF

/-- `.replace(/\s+/g, " ")`; `inRun` says the character before was a space. -/
def collapseSpaces (inRun : Bool) : List Char → List Char
  | [] => []
  | c :: cs =>
    if isSpace c then
      if inRun then collapseSpaces true cs else ' ' :: collapseSpaces true cs
    else c :: collapseSpaces false cs

def maxMessageFragment : ℕ := 120

/-- The `while` loop of `fragment`, over the points in reverse. -/
def popPoints : List Char → List Char
  | [] => []
  | c :: cs =>
    if maxMessageFragment - 1 < (codeUnits (c :: cs)).length then popPoints cs else c :: cs

def fragment (value : String) : String :=
  let text := collapseSpaces false value.toList
  if (codeUnits text).length ≤ maxMessageFragment then String.ofList text
  else
    let points := (text.take (maxMessageFragment - 1)).reverse
    String.ofList ((popPoints points).reverse ++ ['…'])

structure Limits where
  maxInputBytes : ℕ := 16777216
  maxDepth : ℕ := 128
  maxNodes : ℕ := 100000
  maxCollectionItems : ℕ := 10000
  maxDiagnostics : ℕ := 1000
  deriving DecidableEq, Repr

end FilamentCore.Compiler
