import FilamentCore.SemanticIr.Rules

/-!
# Verdicts (crates/semantic-ir/src/lib.rs)

`decide`, which lets the schema layer speak alone when it has something to say, and what an
accepted bundle owes to each layer.
-/

namespace FilamentCore.SemanticIr

inductive ResultState where
  | success
  | invalid
  | lossy
  deriving DecidableEq, Repr

structure Verdict where
  resultState : ResultState
  diagnostics : List Located

namespace Verdict

def locusText (l : Located) : List Char := (l.locus.map Json.canonical).getD []

/-- By pointer, code, message and the canonical form of the locus. -/
def compareLocated (left right : Located) : Ordering :=
  (compare left.pointer right.pointer).then <|
    (compare left.code.text right.code.text).then <|
      (compare left.message right.message).then
        (compare (String.ofList (locusText left)) (String.ofList (locusText right)))

def order (diagnostics : List Located) : List Located :=
  diagnostics.insertionSort fun left right => compareLocated left right ≠ .gt

def stateOf (diagnostics : List Located) : ResultState :=
  if diagnostics.all fun diagnostic => diagnostic.severity = .info then .success
  else if diagnostics.any fun diagnostic => diagnostic.severity = .error then .invalid
  else .lossy

/-- What the layers emit, before it is ordered. -/
def collected (bundle : Json) (aliasDepth : Option ℕ) : List Located :=
  match Schema.decide bundle with
  | [] => Rules.decideWith bundle aliasDepth ++ UnitGraph.decide bundle
  | diagnostics => diagnostics

end Verdict

open Verdict

def decideWith (bundle : Json) (aliasDepth : Option ℕ) : Verdict :=
  let diagnostics := order (collected bundle aliasDepth)
  ⟨stateOf diagnostics, diagnostics⟩

def decide (bundle : Json) : Verdict := decideWith bundle none

def isValid (bundle : Json) : Bool := (decide bundle).resultState != .invalid

/-! ### Accepted bundles -/

theorem stateOf_ne_invalid (diagnostics : List Located) :
    stateOf diagnostics ≠ .invalid ↔ ∀ l ∈ diagnostics, l.severity ≠ .error := by
  unfold stateOf
  split
  · rename_i h
    simp only [List.all_eq_true, decide_eq_true_eq] at h
    simp only [ne_eq, reduceCtorEq, not_false_eq_true, true_iff]
    intro l hl he
    rw [h l hl] at he
    cases he
  · split <;> simp_all

theorem isValid_iff (bundle : Json) :
    isValid bundle = true ↔ ∀ l ∈ collected bundle none, l.severity ≠ .error := by
  simp only [isValid, decide, decideWith, bne_iff_ne, stateOf_ne_invalid, order,
    List.mem_insertionSort]

theorem schema_error {bundle : Json} {l : Located} (hl : l ∈ Schema.decide bundle) :
    l.severity = .error := by
  unfold Schema.decide at hl
  split at hl
  · obtain ⟨f, -, rfl⟩ := List.mem_map.1 hl
    rfl
  · rw [List.mem_singleton.1 hl]

structure Accepted (bundle : Json) (d : Document) : Prop where
  read : Document.read bundle = some d
  schema : bundleSchema bundle = []
  rules : ∀ issue ∈ Rules.documentIssues d, issue.advisory = true
  units : ∀ issue ∈ UnitGraph.issues bundle, issue.advisory = true

theorem schema_eq_nil {bundle : Json} (h : Schema.decide bundle = []) :
    bundleSchema bundle = [] := by
  cases bundle with
  | object members =>
    apply Findings.deepest_eq_nil
    simpa [Schema.decide] using h
  | _ => simp [Schema.decide] at h

theorem has_ir {bundle : Json} (h : bundleSchema bundle = []) :
    ∃ ir, bundle.get "ir" = some ir := by
  simp only [bundleSchema, List.append_eq_nil_iff] at h
  obtain ⟨⟨⟨⟨⟨⟨⟨hr, -⟩, -⟩, -⟩, -⟩, -⟩, -⟩, -⟩ := h
  exact Option.isSome_iff_exists.1 (requireMembers_eq_nil.1 hr "ir" (List.mem_singleton_self _))

theorem advisory_of_located {bundle : Json} {issue : Issue}
    (h : (issue.locate bundle).severity ≠ .error) : issue.advisory = true := by
  by_contra hadv
  exact h (by simp [Issue.locate, hadv])

theorem collected_of_isValid {bundle : Json} (h : isValid bundle = true) :
    Schema.decide bundle = [] ∧
      ∀ l ∈ Rules.decideWith bundle none ++ UnitGraph.decide bundle, l.severity ≠ .error := by
  rw [isValid_iff] at h
  unfold collected at h
  split at h
  · rename_i hs
    exact ⟨hs, h⟩
  · rename_i hs
    cases hd : Schema.decide bundle with
    | nil => exact absurd hd hs
    | cons l ls =>
      have hl : l ∈ Schema.decide bundle := by rw [hd]; exact List.mem_cons_self ..
      exact absurd (schema_error hl) (h l hl)

theorem accepted_of_isValid {bundle : Json} (h : isValid bundle = true) :
    ∃ d, Accepted bundle d := by
  obtain ⟨hs, hl⟩ := collected_of_isValid h
  have hschema := schema_eq_nil hs
  obtain ⟨ir, hir⟩ := has_ir hschema
  have hread : Document.read bundle = some ⟨bundle, ir, ir.members "types", none⟩ := by
    simp only [Document.read, Document.readWith, hir, Option.map_some]
  refine ⟨_, hread, hschema, ?_, ?_⟩
  · intro issue hi
    have hm : issue.locate bundle ∈ Rules.decideWith bundle none := by
      unfold Document.read at hread
      simp only [Rules.decideWith, hread]
      exact List.mem_map_of_mem hi
    exact advisory_of_located (hl _ (List.mem_append_left _ hm))
  · intro issue hi
    have hm : issue.locate bundle ∈ UnitGraph.decide bundle := List.mem_map_of_mem hi
    exact advisory_of_located (hl _ (List.mem_append_right _ hm))

end FilamentCore.SemanticIr
