import FilamentCore.Packages.Version
import FilamentCore.Compiler.Diagnostics
import FilamentCore.Packages.Manifest
import FilamentCore.Packages.Resolve
import FilamentCore.Packages.Selection
import FilamentCore.Packages.Soundness
import FilamentCore.Packages.Cycles
import FilamentCore.Packages.SettledRun
import FilamentCore.Packages.ImportOrder
import FilamentCore.SemanticIr.Number
import FilamentCore.SemanticIr.Json
import FilamentCore.SemanticIr.CanonicalText
import FilamentCore.SemanticIr.Diag
import FilamentCore.SemanticIr.Vocabulary
import FilamentCore.SemanticIr.Findings
import FilamentCore.SemanticIr.Shapes
import FilamentCore.SemanticIr.NodeSchema
import FilamentCore.SemanticIr.TypeSchema
import FilamentCore.SemanticIr.BundleSchema
import FilamentCore.SemanticIr.Document
import FilamentCore.SemanticIr.Numerals
import FilamentCore.SemanticIr.Regex262
import FilamentCore.SemanticIr.UnitGraph
import FilamentCore.SemanticIr.Constructs
import FilamentCore.SemanticIr.Rules
import FilamentCore.SemanticIr.Verdict
import FilamentCore.SemanticIr.Compat
import FilamentCore.SemanticIr.Accepted
import FilamentCore.SemanticIr.Identities
import FilamentCore.SemanticIr.Comparison
import FilamentCore.SemanticIr.Reflexivity
import FilamentCore.SemanticIr.Reordering
import FilamentCore.SemanticIr.Occurrences
import FilamentCore.SemanticIr.Resolution
import FilamentCore.SemanticIr.References
import FilamentCore.SemanticIr.HeldReferences
import FilamentCore.SemanticIr.Components
import FilamentCore.SemanticIr.UnitShapes
import FilamentCore.SemanticIr.UnitSoundness
import FilamentCore.SemanticIr.AsciiText
import FilamentCore.SemanticIr.Digits
import FilamentCore.Compiler.UnitGraph
import FilamentCore.Compiler.UnitAgreement
import FilamentCore.Compiler.Constructs
import FilamentCore.Compiler.ConstructAgreement
import FilamentCore.Frontend.Owners
import FilamentCore.Frontend.OwnerAssignment
import FilamentCore.SemanticIr.Reader
import FilamentCore.SemanticIr.Grammar
import FilamentCore.SemanticIr.ReaderNumbers
import FilamentCore.SemanticIr.ReaderStrings
import FilamentCore.SemanticIr.ReaderDocument
import FilamentCore.SemanticIr.Binary64
import FilamentCore.Frontend.WriteLift
import FilamentCore.Backends.RustDiagnostics
import FilamentCore.Backends.EmitCrate
import FilamentCore.Backends.Rendering
import FilamentCore.Backends.IntegerBounds
import FilamentCore.Backends.IntegerWire
import FilamentCore.Backends.FieldShape
import FilamentCore.SemanticIr.Encoding
import FilamentCore.SemanticIr.Assignment
import FilamentCore.SemanticIr.IdentitySets
import FilamentCore.SemanticIr.Normalize
import FilamentCore.Compiler.CanonicalIr
import FilamentCore.Backends.TypescriptCanonical
import FilamentCore.SemanticIr.ShortestDigits
import FilamentCore.SemanticIr.NumberLayout
import FilamentCore.SemanticIr.NormalForm
import FilamentCore.SemanticIr.Arrangement
import FilamentCore.Frontend.Document
import FilamentCore.Frontend.NodeOrder
import FilamentCore.Frontend.LiftNormalForm
import FilamentCore.Compiler.FixedPoint
import FilamentCore.Compiler.NumericChange
import FilamentCore.Compiler.NumericSets
import FilamentCore.Compiler.ContractDiff
import FilamentCore.Compiler.TypeAccounting
import FilamentCore.Compiler.EvidenceOrder
import FilamentCore.Backends.SysmlV2
import FilamentCore.Backends.SysmlProjection
import FilamentCore.Backends.SumForms
import FilamentCore.Compiler.SilentChanges
import FilamentCore.SemanticIr.RoundTrip
import FilamentCore.Backends.TypescriptClassify
import FilamentCore.Backends.ClassifiedMembers
import FilamentCore.Backends.RepointedReferences
import FilamentCore.PythonBackend.InspectSource
import FilamentCore.PythonBackend.Sanctioned
import FilamentCore.PythonBackend.Enforced
import FilamentCore.SemanticIr.GraphCycles
import FilamentCore.SemanticIr.CycleReports
import FilamentCore.SemanticIr.CyclePass
import FilamentCore.SemanticIr.SupertypeAnalysis
import FilamentCore.SemanticIr.DecimalText
import FilamentCore.Compiler.DecimalAgreement
import FilamentCore.SemanticIr.DeclarationJson
import FilamentCore.SemanticIr.Redefinitions
import FilamentCore.Compiler.EffectiveFields
import FilamentCore.SemanticIr.NormalizedNumber
import FilamentCore.SemanticIr.ExactNumbers
import FilamentCore.SemanticIr.ResolutionChains
import FilamentCore.SemanticIr.ResolveCache
import FilamentCore.SemanticIr.DecimalPolicies
import FilamentCore.Backends.CivilTime
import FilamentCore.Backends.CivilReading
import FilamentCore.SemanticIr.Patch
import FilamentCore.SemanticIr.PatchPlaces
import FilamentCore.SemanticIr.PatchFrame
import FilamentCore.SemanticIr.PatchConformance
import FilamentCore.Packages.Precedence
import FilamentCore.Compiler.ShapeAgreement
import FilamentCore.Frontend.Constraints
import FilamentCore.Frontend.BoundText
import FilamentCore.Frontend.IdentityCollisions
import FilamentCore.Compiler.JsonSyntax
import FilamentCore.Compiler.JsonLocus
import FilamentCore.Compiler.LocatedPointers
import FilamentCore.Backends.BytesWire
import FilamentCore.Backends.SourceLocusPath
import FilamentCore.Backends.IntegerPatterns
import FilamentCore.Backends.DecimalInstances
import FilamentCore.Backends.DecimalPatterns
import FilamentCore.Backends.TemporalBounds
import FilamentCore.SemanticIr.FloatFormat
import FilamentCore.SemanticIr.NumberForms
import FilamentCore.Backends.RustLiterals
import FilamentCore.Backends.TypescriptNames
import FilamentCore.Backends.TypescriptSurface
import FilamentCore.Backends.TypescriptDistinct
import FilamentCore.Compiler.CanonicalRationals
import FilamentCore.PythonBackend.Guard
import FilamentCore.PythonBackend.GuardedArguments
import FilamentCore.PythonBackend.ReferenceGuard
import FilamentCore.Backends.RustFormat
import FilamentCore.Backends.RustLayouts
import FilamentCore.Backends.RustArms
import FilamentCore.Compiler.Host
import FilamentCore.Compiler.HostWalk
import FilamentCore.Compiler.HostFaithful
import FilamentCore.PythonBackend.Refine
import FilamentCore.PythonBackend.RefineSpec
import FilamentCore.PythonBackend.ClassTable
import FilamentCore.PythonBackend.Hierarchy
import FilamentCore.SemanticIr.LayoutForms
import FilamentCore.SemanticIr.JsonStack
import FilamentCore.Compiler.CanonicalIdentity
import FilamentCore.Backends.PatternPrograms
import FilamentCore.Backends.PatternParser
import FilamentCore.Backends.RustGraph
import FilamentCore.SemanticIr.PatchUndo
