import FilamentCore.Compiler.Constructs
import FilamentCore.SemanticIr.Json

/-!
# Types as the backends read them (src/compiler/constructs.mjs)

What a type renders as: its core kind, or the rendering the shape of its construct selects. And
the native scalars a reference may name.
-/

namespace FilamentCore.Backends
open FilamentCore.SemanticIr (Json)
open FilamentCore.Compiler.Constructs (Declaration readDeclaration)

/-! ### Constructs -/

def kindKey (kind : Json) : Option String × Option String :=
  (kind.getStr "module", kind.getStr "name")

/-- The declaration the construct table holds for a kind: the first well-formed one. -/
def declarationAt (document kind : Json) : Option Declaration :=
  (document.members "constructs").findSome? fun entry =>
    (entry.get "kind").bind fun declared =>
      if declared.asObject.isSome ∧ kindKey declared = kindKey kind then
        (entry.get "construct").bind fun construct => (readDeclaration construct).toOption
      else none

/-- `declarationOf(type)`, for a type bound in the document. -/
def declarationOf (document type : Json) : Option Declaration :=
  (type.get "kind").bind fun kind =>
    if kind.asObject.isSome then declarationAt document kind else none

/-- `SHAPE_RENDERINGS`. -/
def shapeRendering : String → Option String
  | "record" => some "record"
  | "enumeration" => some "enum"
  | "interface" => some "interface"
  | "state_machine" => some "state_machine"
  | "sequence" => some "record"
  | "namespace" => some "namespace"
  | "alias" => some "alias"
  | "tuple" => some "tuple"
  | _ => none

def renderingOf (document type : Json) : Option String :=
  match declarationOf document type with
  | some declaration => shapeRendering declaration.shape
  | none => type.getStr "kind"

def isAliasShaped (document type : Json) : Bool := renderingOf document type = some "alias"

theorem renderingOf_core {document type : Json} {kind : String} (h : type.getStr "kind" = some kind) :
    renderingOf document type = some kind := by
  have hnone : declarationOf document type = none := by
    obtain ⟨value, hv, hs⟩ := Option.bind_eq_some_iff.1 h
    cases value <;> simp only [Json.asStr, reduceCtorEq] at hs
    rw [declarationOf, hv]
    rfl
  rw [renderingOf, hnone, h]

/-! ### Types and references -/

/-- `types.get(identity)`: a later definition replaces an earlier one. -/
def typeOf (document : Json) (identity : String) : Option Json :=
  (document.members "types").reverse.find? fun type => type.getStr "identity" = some identity

def nativePrefix : String := "ix://quire/native/"

def nativeScalars : List (String × String) :=
  [("UUID", "uuid"), ("Boolean", "boolean"), ("Integer", "integer"), ("Decimal", "decimal"),
    ("Float32", "float32"), ("Float64", "float64"), ("String", "string"),
    ("Timestamp", "datetime"), ("Duration", "duration"), ("Bytes", "bytes"), ("JsonObject", "any")]

def nativeScalar (reference : String) : Option String :=
  if nativePrefix.toList.isPrefixOf reference.toList then
    (nativeScalars.find? fun known =>
      known.1.toList = reference.toList.drop nativePrefix.toList.length).map Prod.snd
  else none

end FilamentCore.Backends
