import FilamentCore.SemanticIr.Components
import FilamentCore.SemanticIr.Identities

/-!
# The dimensions and units of a schema-valid document (crates/semantic-ir/src/schema.rs)

What the schema layer leaves of a dimension and of a unit, and the edges the unit graph reads
from them.
-/

namespace FilamentCore.SemanticIr
namespace UnitGraph

/-! ### Shapes -/

structure TermShaped (term : Json) : Prop where
  dimension : ∃ identity, text term "dimension" = some identity ∧
    isSemanticIdentity identity = true
  exponent : ∃ exponent, text term "exponent" = some exponent

structure DimensionShaped (node : Json) : Prop where
  identity : ∃ identity, text node "identity" = some identity
  name : ∃ name, text node "name" = some name
  base : ∃ base, node.getBool "base" = some base
  terms : ∀ term ∈ node.members "terms", TermShaped term

structure UnitShaped (node : Json) : Prop where
  identity : ∃ identity, text node "identity" = some identity
  name : ∃ name, text node "name" = some name
  dimension : ∃ identity, text node "dimension" = some identity
  scale : ∃ scale, text node "scale" = some scale
  offset : ∃ offset, text node "offset" = some offset
  target : node.get "target" = none ∨ ∃ identity, text node "target" = some identity

/-- What the schema layer promises of the two lists. -/
structure Shaped (dimensions units : List Json) : Prop where
  dimensions : ∀ node ∈ dimensions, DimensionShaped node
  units : ∀ node ∈ units, UnitShaped node

theorem getStr_of_shape {value : Json} {pointer name what : String} {ok : String → Bool}
    (hh : value.has name = true) (h : expectShape (value.get name) pointer ok what = []) :
    ∃ found, value.getStr name = some found ∧ ok found = true := by
  obtain ⟨v, hv⟩ := Option.isSome_iff_exists.1 hh
  obtain ⟨found, hfound, hok⟩ := expectShape_eq_nil.1 h v hv
  refine ⟨found, ?_, hok⟩
  rw [Json.getStr, hv]
  exact hfound

theorem getStr_of_expectString {value : Json} {pointer name what : String} {minLen : ℕ}
    (hh : value.has name = true) (h : expectString (value.get name) pointer minLen what = []) :
    ∃ found, value.getStr name = some found := by
  obtain ⟨v, hv⟩ := Option.isSome_iff_exists.1 hh
  simp only [Json.getStr, hv]
  rw [hv] at h
  cases v with
  | str found => exact ⟨found, rfl⟩
  | _ => simp [expectString, whenSome, pushIf, Json.asStr] at h

theorem getBool_of_expectBool {value : Json} {pointer name what : String}
    (hh : value.has name = true) (h : expectBool (value.get name) pointer what = []) :
    ∃ found, value.getBool name = some found := by
  obtain ⟨v, hv⟩ := Option.isSome_iff_exists.1 hh
  simp only [Json.getBool, hv]
  rw [hv] at h
  cases v with
  | bool found => exact ⟨found, rfl⟩
  | _ => simp [expectBool, whenSome, pushIf, Json.asBool] at h

theorem termShaped {term : Json} {at' : String} (h : dimensionTerm term at' = []) :
    TermShaped term := by
  simp only [dimensionTerm, expectObject_eq_nil, List.append_eq_nil_iff,
    requireMembers_eq_nil] at h
  obtain ⟨-, ⟨⟨hr, -⟩, hd⟩, he⟩ := h
  exact ⟨getStr_of_shape (hr _ (by simp)) hd, getStr_of_expectString (hr _ (by simp)) he⟩

theorem unitNode_eq_nil {node : Json} {at' : String} {required allowed : List String}
    (h : unitNode node at' required allowed = []) :
    (∀ name ∈ required, node.has name = true) ∧
      (∀ member ∈ ["identity", "dimension", "target"],
        ∀ v ∈ node.get member, ∃ identity ∈ v.asStr, isSemanticIdentity identity = true) ∧
      ∀ v ∈ node.get "name", ∃ name ∈ v.asStr, isUnitName name.toList = true := by
  simp only [unitNode, List.append_eq_nil_iff, List.flatMap_eq_nil_iff, requireMembers_eq_nil] at h
  obtain ⟨⟨⟨⟨hr, -⟩, hi⟩, hn⟩, -⟩ := h
  exact ⟨hr, fun member hm => expectShape_eq_nil.1 (hi member hm), expectShape_eq_nil.1 hn⟩

theorem text_of_has {node : Json} {name : String} {ok : String → Bool}
    (hh : node.has name = true)
    (h : ∀ v ∈ node.get name, ∃ found ∈ v.asStr, ok found = true) :
    ∃ found, text node name = some found := by
  obtain ⟨v, hv⟩ := Option.isSome_iff_exists.1 hh
  obtain ⟨found, hfound, -⟩ := h v hv
  refine ⟨found, ?_⟩
  rw [text, Json.getStr, hv]
  exact hfound

theorem dimensionShaped {node : Json} {at' : String} (h : dimensionSchema node at' = []) :
    DimensionShaped node := by
  simp only [dimensionSchema, expectObject_eq_nil, List.append_eq_nil_iff] at h
  obtain ⟨-, ⟨hnode, hbase⟩, hterms⟩ := h
  obtain ⟨hr, hi, hn⟩ := unitNode_eq_nil hnode
  refine ⟨?_, ?_, ?_, fun term hm => ?_⟩
  · exact text_of_has (hr _ (by simp)) (hi "identity" (by simp))
  · exact @text_of_has node "name" (fun name => isUnitName name.toList) (hr _ (by simp)) hn
  · exact getBool_of_expectBool (hr _ (by simp)) hbase
  · obtain ⟨termAt, hterm⟩ := each_eq_nil hterms term hm
    exact termShaped hterm

theorem unitShaped {node : Json} {at' : String} (h : unitSchema node at' = []) :
    UnitShaped node := by
  simp only [unitSchema, expectObject_eq_nil, List.append_eq_nil_iff,
    List.flatMap_eq_nil_iff] at h
  obtain ⟨-, hnode, hcoefficients⟩ := h
  obtain ⟨hr, hi, hn⟩ := unitNode_eq_nil hnode
  refine ⟨?_, ?_, ?_, ?_, ?_, ?_⟩
  · exact text_of_has (hr _ (by simp)) (hi "identity" (by simp))
  · exact @text_of_has node "name" (fun name => isUnitName name.toList) (hr _ (by simp)) hn
  · exact text_of_has (hr _ (by simp)) (hi "dimension" (by simp))
  · exact getStr_of_expectString (hr _ (by simp)) (hcoefficients "scale" (by simp))
  · exact getStr_of_expectString (hr _ (by simp)) (hcoefficients "offset" (by simp))
  · cases ht : node.get "target" with
    | none => exact .inl rfl
    | some v =>
      have hhas : node.has "target" = true := by simp [Json.has, ht]
      exact .inr (text_of_has hhas (hi "target" (by simp)))

/-! ### The document -/

theorem ir_schema {bundle ir : Json} (hir : bundle.get "ir" = some ir)
    (hs : Schema.decide bundle = []) : semanticIr ir "/ir" = [] := by
  have hbundle := schema_eq_nil hs
  simp only [bundleSchema, List.append_eq_nil_iff] at hbundle
  obtain ⟨⟨⟨⟨⟨⟨⟨-, -⟩, hwalk⟩, -⟩, -⟩, -⟩, -⟩, -⟩ := hbundle
  exact whenSome_eq_nil.1 hwalk _ hir

theorem shaped_of_schema {bundle ir : Json} (hir : bundle.get "ir" = some ir)
    (hs : Schema.decide bundle = []) :
    Shaped (ir.members "dimensions") (ir.members "units") ∧
      ∃ package, (ir.get "package").bind (text · "identity") = some package := by
  have h := ir_schema hir hs
  simp only [semanticIr, expectObject_eq_nil, List.append_eq_nil_iff] at h
  obtain ⟨-, ⟨⟨⟨⟨⟨⟨⟨⟨⟨⟨⟨⟨hr, -⟩, -⟩, -⟩, -⟩, hpackage⟩, -⟩, -⟩, -⟩, hgraph⟩, -⟩, -⟩, -⟩, -⟩ := h
  simp only [dimensionUnitSchema, List.append_eq_nil_iff] at hgraph
  obtain ⟨hdimensions, hunits⟩ := hgraph
  refine ⟨⟨fun node hm => ?_, fun node hm => ?_⟩, ?_⟩
  · obtain ⟨at', h⟩ := each_eq_nil hdimensions node hm
    exact dimensionShaped h
  · obtain ⟨at', h⟩ := each_eq_nil hunits node hm
    exact unitShaped h
  · obtain ⟨package, hp⟩ := Option.isSome_iff_exists.1
      (requireMembers_eq_nil.1 hr "package" (by simp [irMembers]))
    have hwalk := whenSome_eq_nil.1 hpackage package hp
    simp only [irPackage, expectObject_eq_nil, List.append_eq_nil_iff,
      requireMembers_eq_nil] at hwalk
    obtain ⟨-, ⟨⟨⟨hmembers, -⟩, hidentity⟩, -⟩, -⟩ := hwalk
    obtain ⟨identity, hi, -⟩ := getStr_of_shape (hmembers "identity" (by simp [packageMembers]))
      hidentity
    exact ⟨identity, by rw [hp]; exact hi⟩

/-! ### Positions and edges -/

theorem positionOf_spec {entries : List Json} {identity : String} {position : ℕ}
    (h : positionOf entries identity = some position) :
    position < entries.length ∧ text (entries.getD position .null) "identity" = some identity := by
  obtain ⟨hlt, hp, -⟩ := List.findIdx?_eq_some_iff_getElem.1 h
  refine ⟨hlt, ?_⟩
  rw [List.getD_eq_getElem _ _ hlt]
  simpa using hp

theorem exists_positionOf {entries : List Json} {node : Json} {identity : String}
    (hm : node ∈ entries) (hi : text node "identity" = some identity) :
    ∃ position, positionOf entries identity = some position := by
  apply Option.isSome_iff_exists.1
  rw [positionOf, List.findIdx?_isSome, List.any_eq_true]
  exact ⟨node, hm, by simp [hi]⟩

theorem targetsOf_map {entries : List Json} {targets : Json → List ℕ} {a b : ℕ} :
    Edge (entries.map targets) a b ↔ ∃ node, entries[a]? = some node ∧ b ∈ targets node := by
  unfold Edge targetsOf
  rw [List.getD_eq_getElem?_getD, List.getElem?_map]
  cases entries[a]? with
  | none => simp
  | some node => simp

theorem dimensionEdge_iff {dimensions : List Json} {a b : ℕ} :
    Edge (dimensionEdges dimensions) a b ↔ ∃ node, dimensions[a]? = some node ∧
      ∃ term ∈ node.members "terms", ∃ identity, text term "dimension" = some identity ∧
        positionOf dimensions identity = some b := by
  simp only [dimensionEdges, targetsOf_map, List.mem_filterMap, Option.bind_eq_some_iff]

theorem unitEdge_iff {units : List Json} {a b : ℕ} :
    Edge (unitEdges units) a b ↔ ∃ unit, units[a]? = some unit ∧
      ∃ identity, text unit "target" = some identity ∧ positionOf units identity = some b := by
  simp only [unitEdges, targetsOf_map, Option.mem_toList, Option.bind_eq_some_iff]

theorem dimensionEdges_closed (dimensions : List Json) : Closed (dimensionEdges dimensions) := by
  intro a b h
  obtain ⟨node, -, term, -, identity, -, hp⟩ := dimensionEdge_iff.1 h
  rw [dimensionEdges, List.length_map]
  exact (positionOf_spec hp).1

theorem unitEdges_closed (units : List Json) : Closed (unitEdges units) := by
  intro a b h
  obtain ⟨unit, -, identity, -, hp⟩ := unitEdge_iff.1 h
  rw [unitEdges, List.length_map]
  exact (positionOf_spec hp).1

theorem Cyclic.edge {edges : Edges} {component : List ℕ} (h : Cyclic edges component)
    (hne : component ≠ []) : component.headD 0 ∈ component ∧
      ∃ b ∈ component, Edge edges (component.headD 0) b := by
  match component, hne with
  | first :: rest, _ =>
    have hm : first ∈ first :: rest := List.mem_cons_self ..
    refine ⟨hm, ?_⟩
    obtain ⟨b, hab, hba⟩ := Relation.TransGen.head'_iff.1 (h.cycle first hm)
    exact ⟨b, (h.connected first hm b).2 ⟨.single hab, hba⟩, hab⟩

theorem exists_cycleTerm {dimensions : List Json} {component : List ℕ}
    (h : Cyclic (dimensionEdges dimensions) component) (hne : component ≠ []) :
    ∃ term, (((dimensions.getD (component.headD 0) .null).members "terms").findIdx? fun term =>
      ((text term "dimension").bind (positionOf dimensions)).any component.contains) =
        some term := by
  obtain ⟨-, b, hb, hedge⟩ := h.edge hne
  obtain ⟨node, hn, term, hm, identity, hi, hp⟩ := dimensionEdge_iff.1 hedge
  apply Option.isSome_iff_exists.1
  rw [List.findIdx?_isSome, List.any_eq_true]
  refine ⟨term, ?_, ?_⟩
  · rw [List.getD_eq_getElem?_getD, hn]
    exact hm
  · simp [hi, hp, hb]

/-! ### Integers -/

/-- `0`, or an optional `-` and digits of which the first is not `0`. -/
def spellsInteger (cs : List Char) : Bool :=
  cs == ['0'] ||
    match stripMinus cs with
    | [] => false
    | first :: rest => isAsciiDigit first && first != '0' && rest.all isAsciiDigit

theorem canonicalInteger_eq (cs : List Char) :
    canonicalInteger cs =
      if spellsInteger cs then
        match parseInt 128 cs with
        | some value => .ok value
        | none => .error .outsideI128
      else .error .noncanonical := by
  have h : canonicalInteger cs =
      if !spellsInteger cs then .error .noncanonical
      else
        match parseInt 128 cs with
        | some value => .ok value
        | none => .error .outsideI128 := rfl
  rw [h]
  cases spellsInteger cs <;> rfl

end UnitGraph

/-! ### A document with a unit graph -/

namespace Sample

def dimension (name : String) (base : Bool) (terms : List Json) : Json :=
  .object [("identity", .str ("ix://a/b/dimension/" ++ name)), ("name", .str name),
    ("base", .bool base), ("terms", .array terms), ("origin", origin)]

def unit (name dimension scale offset : String) (more : List (String × Json)) : Json :=
  .object ([("identity", .str ("ix://a/b/unit/" ++ name)), ("name", .str name),
    ("dimension", .str ("ix://a/b/dimension/" ++ dimension)), ("scale", .str scale),
    ("offset", .str offset), ("origin", origin)] ++ more)

/-- The semantic IR of a document with one type. -/
def graph (dimensions units : List Json) : Json :=
  .object [("contractVersion", .str "2.0.0"),
    ("canonicalization", .object [("algorithm", .str "rfc8785-v1")]),
    ("source", .object [("identity", .str "ix://a/source"), ("version", .str "1"),
      ("dialect", .str "typespec")]),
    ("package", .object [("identity", .str "a/b"), ("version", .str "1"),
      ("mappingVersions", .array []), ("profileVersions", .array [])]),
    ("types", .array [scalar "ix://a/b/T" "string"]), ("occurrences", .array []),
    ("extensions", .array []), ("constructs", .array []), ("dimensions", .array dimensions),
    ("units", .array units)]

/-- A dimension of time with its root unit, and one a thousandth of it. -/
def time : Json :=
  graph [dimension "Time" true []]
    [unit "s" "Time" "1" "0" [],
      unit "ms" "Time" "1/1000" "0" [("target", .str "ix://a/b/unit/s")]]

end Sample
end FilamentCore.SemanticIr
