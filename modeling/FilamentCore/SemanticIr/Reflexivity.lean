import FilamentCore.SemanticIr.Comparison

/-!
# A document compared with itself

Every list but `ir.extensions` is read by identities that are unique, so only an extension can
differ from the one its identity finds.
-/

namespace FilamentCore.SemanticIr
open FilamentCore.Library
open Classification (worst worst_le noteIf mem_noteIf)

namespace Compat

variable {bundle : Json} {d : Document}

theorem noteIf_false {changed : Prop} [Decidable changed] {c : Classification} (h : ¬ changed) :
    noteIf changed c = [] := if_neg h

theorem compareLists_self {items : List Json} {removed : Classification}
    {retained : Json → Json → List Classification} {addition : Json → List Classification}
    (hn : (items.filterMap identityOf).Nodup) (hs : ∀ item ∈ items, HasIdentity item)
    (hr : ∀ item ∈ items, retained item item = []) :
    compareLists items items removed retained addition = [] := by
  have hc : ∀ item ∈ items, counterpart item items = some item :=
    fun item hm => counterpart_of_mem (nodup_identityOr hn hs) hm rfl
  apply List.eq_nil_iff_forall_not_mem.2
  intro n h
  rcases mem_compareLists.1 h with ⟨item, hm, h, -⟩ | ⟨item, hm, other, h, hn⟩ | ⟨item, hm, h, -⟩
  · rw [hc item hm] at h
    cases h
  · rw [hc item hm] at h
    cases h
    rw [hr item hm] at hn
    cases hn
  · rw [hc item hm] at h
    cases h

theorem compareField_self (field : Json) : compareField d d field field = [] := by
  have hn : ∀ e : Effective, narrowed e e = false := by
    intro e
    cases hu : e.upper <;> simp [narrowed, hu]
  have hw : ∀ e : Effective, widened e e = false := by
    intro e
    cases hu : e.upper <;> simp [widened, hu]
  simp [compareField, noteIf, hn, hw]

theorem zip_self_eq {items : List Json} {pair : Json × Json} (h : pair ∈ items.zip items) :
    pair.1 = pair.2 := by
  induction items with
  | nil => cases h
  | cons item items ih =>
    rcases List.mem_cons.1 h with rfl | h
    · rfl
    · exact ih h

theorem signature_self (operation : Json) : ¬ signatureChanged d d operation operation := by
  rintro (h | ⟨pair, hp, h⟩)
  · exact h rfl
  · rw [zip_self_eq hp, compareField_self] at h
    simp [worst] at h

theorem comparePositions_self (definition : Json) :
    comparePositions d d definition definition = [] := by
  have hp : ∀ pair ∈ (definition.members "positions").zip (definition.members "positions"),
      comparePosition d d pair.1 pair.2 = [] := by
    intro pair hm
    rw [zip_self_eq hm]
    exact noteIf_false (by simp)
  simp only [comparePositions, ne_eq, not_true_eq_false, noteIf, if_false, List.nil_append]
  exact List.flatMap_eq_nil_iff.2 hp

theorem compareType_self (ha : Accepted bundle d) {definition : Json}
    (hm : definition ∈ d.types) : compareType d d definition definition = [] := by
  obtain ⟨_, hchecked⟩ := ha.checked
  obtain ⟨_, hc⟩ := hchecked definition hm
  have hlist : ∀ name ∈ declaringLists, ((definition.members name).filterMap identityOf).Nodup :=
    fun _ hn => ha.list_nodup hm hn
  have hconstraints : compareConstraints definition definition = [] :=
    compareLists_self (hlist _ (by decide)) hc.constraints
      fun _ _ => by simp [retainedConstraint, sameText]
  have hfields : compareFields d d definition definition = [] :=
    compareLists_self (hlist _ (by decide)) (fun f hf => (hc.fields f hf).identity)
      fun _ _ => compareField_self _
  have hvariants : compareVariants d d definition definition = [] :=
    compareLists_self (hlist _ (by decide)) hc.variants
      fun _ _ => by simp [compareVariant, noteIf]
  have hrelationships : compareRelationships definition definition = [] :=
    compareLists_self (hlist _ (by decide)) hc.relationships
      fun _ _ => noteIf_false (by simp [sameText])
  have hoperations : compareOperations d d definition definition = [] :=
    compareLists_self (hlist _ (by decide)) (fun o ho => (hc.operations o ho).identity)
      fun _ _ => by simp [compareOperation, noteIf, signature_self, sameText]
  have hclauses : compareClauses definition definition = [] :=
    compareLists_self (hlist _ (by decide)) hc.clauses
      fun _ _ => noteIf_false (by simp [sameText])
  simp [compareType, hconstraints, hfields, hvariants, hrelationships, hoperations, hclauses,
    comparePositions_self, comparePolicy, noteIf]

/-! ### Extensions -/

/-- No two extensions of the document share an identity and differ. -/
def ExtensionsAgree (ir : Json) : Prop :=
  ∀ extension ∈ ir.members "extensions", ∀ other ∈ ir.members "extensions",
    identityOr extension = identityOr other →
      isRequired extension = isRequired other ∧ sameText extension other

instance (ir : Json) : Decidable (ExtensionsAgree ir) :=
  inferInstanceAs (Decidable (∀ _ ∈ _, ∀ _ ∈ _, _))

theorem retainedExtension_eq_nil {extension other : Json} :
    retainedExtension extension other = [] ↔
      isRequired extension = isRequired other ∧ sameText extension other := by
  cases he : isRequired extension <;> cases ho : isRequired other <;>
    simp [retainedExtension, he, ho, noteIf]

theorem patch_not_mem_retainedExtension (extension other : Json) :
    .patch ∉ retainedExtension extension other := by
  unfold retainedExtension
  split
  · decide
  · split
    · decide
    · simp [mem_noteIf]

theorem compareExtensions_self :
    (∀ n ∈ compareExtensions d d, n ≤ .patch) ↔ ExtensionsAgree d.ir := by
  have hfound : ∀ extension ∈ d.ir.members "extensions", ∃ other,
      counterpart extension (d.ir.members "extensions") = some other :=
    fun extension he => Keyed.exists_first he rfl
  constructor
  · intro h
    have hfirst : ∀ extension ∈ d.ir.members "extensions", ∀ other,
        counterpart extension (d.ir.members "extensions") = some other →
          retainedExtension extension other = [] := by
      intro extension he other hc
      apply List.eq_nil_iff_forall_not_mem.2
      intro n hn
      have hle := h n (mem_compareLists.2 (.inr (.inl ⟨extension, he, other, hc, hn⟩)))
      rw [le_antisymm hle (Classification.patch_le n)] at hn
      exact patch_not_mem_retainedExtension _ _ hn
    intro extension he other ho hi
    obtain ⟨first, hc⟩ := hfound extension he
    have hco : counterpart other (d.ir.members "extensions") = some first := by
      rw [counterpart_eq_first, ← hi]
      exact hc
    have hef := retainedExtension_eq_nil.1 (hfirst extension he first hc)
    have hof := retainedExtension_eq_nil.1 (hfirst other ho first hco)
    exact ⟨hef.1.trans hof.1.symm, hef.2.trans hof.2.symm⟩
  · intro h n hn
    rcases mem_compareLists.1 hn with ⟨e, he, hc, -⟩ | ⟨e, he, other, hc, hn⟩ | ⟨e, he, hc, -⟩
    · obtain ⟨other, ho⟩ := hfound e he
      simp [hc] at ho
    · obtain ⟨hm, hi⟩ := Keyed.first_some hc
      rw [retainedExtension_eq_nil.2 (h e he other hm hi.symm)] at hn
      cases hn
    · obtain ⟨other, ho⟩ := hfound e he
      simp [hc] at ho

theorem classify_self (ha : Accepted bundle d) :
    classify bundle bundle true true = .patch ↔ ExtensionsAgree d.ir := by
  have hpatch : classify bundle bundle true true = .patch ↔
      classify bundle bundle true true ≤ .patch :=
    ⟨fun h => h.le, fun h => le_antisymm h (Classification.patch_le _)⟩
  rw [hpatch, classify_accepted ha ha, worst_le, ← compareExtensions_self]
  constructor
  · intro h n hn
    exact h n ((mem_compareDocuments ha ha).2 (.inr (.inl hn)))
  · intro h n hn
    rcases (mem_compareDocuments ha ha).1 hn with ⟨hne, -⟩ | hn | ⟨t, hm, hne, -⟩ | ⟨t, t', hr, hn⟩
    · exact absurd rfl hne
    · exact h n hn
    · exact absurd rfl (hne t hm)
    · have heq : t = t' := Keyed.eq_of_key ha.types_nodup hr.inBefore hr.inAfter hr.identity
      subst heq
      rw [compareType_self ha hr.inBefore] at hn
      cases hn

end Compat
end FilamentCore.SemanticIr
