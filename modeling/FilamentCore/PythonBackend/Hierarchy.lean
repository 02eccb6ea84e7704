import FilamentCore.PythonBackend.ClassTable

/-!
# The class hierarchy of a completed package

When every abstract class has a method resolution order, and `issubclass` is the declared
specialisation.
-/

namespace FilamentCore.PythonBackend.Refine
open Library Library.Linearization Relation

variable {documents : Documents} {files package : Files} {classes : Classes}
  {library : String → String → List (String × String)} {abcMeta : String → String → Prop}
  {identity i j : String} {found found' : String × String} {source : Module} {c : Class}

/-! ### The hierarchy of the classes -/

def AbstractlySpecializes (documents : Documents) (identity parent : String) : Prop :=
  parent ∈ abstractParents documents identity

def Writes (documents : Documents) (identity parent : String) : Prop :=
  parent ∈ writtenTypes documents identity

theorem AbstractlySpecializes.writes (h : AbstractlySpecializes documents i j) :
    Writes documents i j := by
  rw [Writes, writtenTypes, if_pos (mem_abstractParents.1 h).1]
  exact h

theorem AbstractlySpecializes.written (h : ReflTransGen (AbstractlySpecializes documents) i j) :
    ReflTransGen (Writes documents) i j := by
  induction h with
  | refl => exact .refl
  | tail _ hstep ih => exact ih.tail hstep.writes

theorem Writes.reaches (h : ReflTransGen (Writes documents) i j) :
    ReflTransGen (Specializes documents) i j := by
  induction h with
  | refl => exact .refl
  | tail _ hstep ih => exact ih.trans (writtenTypes_above hstep).1.to_reflTransGen

theorem Writes.abstractly (h : ReflTransGen (Writes documents) i j)
    (hi : isAbstractType documents i = true) :
    ReflTransGen (AbstractlySpecializes documents) i j := by
  induction h using ReflTransGen.head_induction_on with
  | refl => exact .refl
  | head hstep _ ih =>
    rw [Writes, writtenTypes, if_pos hi] at hstep
    exact .head hstep (ih (mem_abstractParents.1 hstep).2.2)

theorem root_mro : Mro (basesOf library package) abcClass [abcClass, objectClass] := by
  have hnone : basesOf library package objectClass = [] := by
    simp [basesOf, objectClass, abcClass]
  have hone : basesOf library package abcClass = [objectClass] := by
    simp [basesOf, abcClass]
  have hobject : Mro (basesOf library package) objectClass [objectClass] := by
    have hmerges : Merges ((basesOf library package objectClass).map (fun c => [c]) ++
        [basesOf library package objectClass]) [] := .done (by simp [hnone])
    refine .mk (fun b hb => ?_) hmerges
    rw [hnone] at hb
    simp at hb
  have hmerges : Merges ((basesOf library package abcClass).map (fun c => [c]) ++
      [basesOf library package abcClass]) [objectClass] := by
    rw [hone]
    exact merges_longest (by simp) (by simp) (by simp)
  refine .mk (fun b hb => ?_) hmerges
  rw [hone, List.mem_singleton] at hb
  subst hb
  exact hobject

namespace Complete

variable (h : Complete documents files classes package)

include h

theorem inherits_iff (hi : classes.byIdentity.get i = some found)
    (hj : classes.byIdentity.get j = some found') :
    Inherits (basesOf library package) (classObject classes i) (classObject classes j) ↔
      ReflTransGen (AbstractlySpecializes documents) i j := by
  constructor
  · intro hinherits
    generalize hc : classObject classes j = c at hinherits
    induction hinherits generalizing j found' with
    | refl => exact h.classObject_injective hi hj hc.symm ▸ .refl
    | tail _ hbase ih =>
      subst hc
      obtain ⟨k, ⟨found'', hk⟩, rfl, hjk⟩ := h.mem_bases hj hbase
      exact (ih hk rfl).tail hjk
  · intro hreach
    induction hreach using ReflTransGen.head_induction_on generalizing found with
    | refl => exact .refl
    | @head i k hstep _ ih =>
      obtain ⟨found'', hk⟩ := h.written_found hi (AbstractlySpecializes.writes hstep)
      refine .head ?_ (ih hk)
      rw [h.bases_abstract hi (mem_abstractParents.1 hstep).1]
      exact List.mem_append_left _ (List.mem_map_of_mem hstep)

theorem asks_iff (hj : classes.byIdentity.get j = some found') :
    Asks (basesOf library package) (Registers package) (Checks library abcMeta package)
        (classObject classes j) c ↔
      ∃ i, (∃ found, classes.byIdentity.get i = some found) ∧ Writes documents i j ∧
        c = classObject classes i := by
  constructor
  · intro hasks
    rcases hasks with hregisters | ⟨_, hbase⟩
    · obtain ⟨i, hi, _, k, hk, heq, rfl⟩ := h.registers_iff.1 hregisters
      obtain ⟨found, hfound⟩ := hi
      obtain ⟨found'', hfound''⟩ := h.written_found hfound hk
      obtain rfl := h.classObject_injective hj hfound'' heq
      exact ⟨i, ⟨found, hfound⟩, hk, rfl⟩
    · obtain ⟨i, hi, rfl, hparent⟩ := h.mem_bases hj hbase
      exact ⟨i, hi, AbstractlySpecializes.writes hparent, rfl⟩
  · intro hex
    obtain ⟨i, ⟨found, hi⟩, hwrites, rfl⟩ := hex
    cases habstract : isAbstractType documents i with
    | false => exact .inl (h.registers_iff.2 ⟨i, ⟨found, hi⟩, habstract, j, hwrites, rfl, rfl⟩)
    | true =>
      have hparent : j ∈ abstractParents documents i := by
        rw [Writes, writtenTypes, if_pos habstract] at hwrites
        exact hwrites
      refine .inr ⟨.inl (.single ?_), ?_⟩
      · rw [h.bases_abstract hj (writtenTypes_above hwrites).2]
        simp
      · rw [h.bases_abstract hi habstract]
        exact List.mem_append_left _ (List.mem_map_of_mem hparent)

/-- `issubclass` follows the names that the modules write. -/
theorem isSubclass_iff_writes (hi : classes.byIdentity.get i = some found)
    (hj : classes.byIdentity.get j = some found') :
    IsSubclass (basesOf library package) (Registers package) (Checks library abcMeta package)
        (classObject classes i) (classObject classes j) ↔
      ReflTransGen (Writes documents) i j := by
  rw [isSubclass_iff]
  constructor
  · intro hex
    obtain ⟨c, hasks, hinherits⟩ := hex
    have hdocument : ∃ k, (∃ found, classes.byIdentity.get k = some found) ∧
        ReflTransGen (Writes documents) k j ∧ c = classObject classes k := by
      clear hinherits
      induction hasks with
      | refl => exact ⟨j, ⟨found', hj⟩, .refl, rfl⟩
      | tail _ hask ih =>
        obtain ⟨k, ⟨found'', hk⟩, hreach, rfl⟩ := ih
        obtain ⟨l, hl, hwrites, rfl⟩ := (h.asks_iff hk).1 hask
        exact ⟨l, hl, .head hwrites hreach, rfl⟩
    obtain ⟨k, ⟨found'', hk⟩, hreach, rfl⟩ := hdocument
    have hup := (h.inherits_iff hi hk).1 hinherits
    exact (AbstractlySpecializes.written hup).trans hreach
  · intro hreach
    refine ⟨classObject classes i, ?_, .refl⟩
    induction hreach using ReflTransGen.head_induction_on generalizing found with
    | refl => exact .refl
    | @head i k hstep _ ih =>
      obtain ⟨found'', hk⟩ := h.written_found hi hstep
      exact (ih hk).tail ((h.asks_iff hk).2 ⟨i, ⟨found, hi⟩, hstep, rfl⟩)

theorem rooted : Rooted (abstractParents documents) (basesOf library package)
    (classObject classes)
    (fun i => isAbstractType documents i = true ∧ ∃ found, classes.byIdentity.get i = some found)
    abcClass [objectClass] := by
  refine ⟨?_, ?_, ?_, ?_, root_mro, by decide⟩
  · intro i hi
    obtain ⟨hi, found, hget⟩ := hi
    exact h.bases_abstract hget hi
  · intro i hi p hp
    obtain ⟨_, found, hget⟩ := hi
    exact ⟨(mem_abstractParents.1 hp).2.2,
      h.written_found hget (AbstractlySpecializes.writes hp)⟩
  · intro i j hi hj heq
    obtain ⟨_, found, hget⟩ := hi
    obtain ⟨_, found', hget'⟩ := hj
    exact h.classObject_injective hget hget' heq
  · intro i hi
    obtain ⟨_, found, hget⟩ := hi
    rw [classObject_of hget]
    simp [abcClass, objectClass]

theorem exists_order_iff (hi : isAbstractType documents i = true)
    (hget : classes.byIdentity.get i = some found) :
    (∃ order, Mro (basesOf library package) (classObject classes i) order) ↔
      Orderable (abstractParents documents) i := by
  rw [← exists_mro_iff]
  constructor
  · intro hex
    obtain ⟨order, horder⟩ := hex
    obtain ⟨r, hr, _⟩ := (h.rooted.mro_iff ⟨hi, found, hget⟩).1 horder
    exact ⟨r, hr⟩
  · intro hex
    obtain ⟨r, hr⟩ := hex
    exact ⟨_, (h.rooted.mro_iff ⟨hi, found, hget⟩).2 ⟨r, hr, rfl⟩⟩

theorem hasClass_abstract (hi : isAbstractType documents i = true)
    (hget : classes.byIdentity.get i = some found) : HasClass classes package i := by
  obtain ⟨_, source, _, hsource, hcomplete⟩ := h.own i found hget
  obtain ⟨⟨st, hst, _⟩, _⟩ := hcomplete.abstract hi
  exact ⟨found, source, st, hget, hsource, hst⟩

theorem faithful_iff (hacyclic : ∀ i, ¬ TransGen (Specializes documents) i i) :
    Faithful library abcMeta documents classes package ↔
      (∀ i found, isAbstractType documents i = true → classes.byIdentity.get i = some found →
        Orderable (abstractParents documents) i) ∧
      ∀ i j found found', isAbstractType documents i = true → isAbstractType documents j = true →
        classes.byIdentity.get i = some found → classes.byIdentity.get j = some found' →
        ReflTransGen (Specializes documents) i j →
        ReflTransGen (AbstractlySpecializes documents) i j := by
  refine and_congr ?_ ?_
  · constructor
    · intro horders i found hi hget
      exact (h.exists_order_iff hi hget).1 (horders i hi (h.hasClass_abstract hi hget))
    · intro horders i hi hclass
      obtain ⟨found, _, _, hget, _⟩ := hclass
      exact (h.exists_order_iff hi hget).2 (horders i found hi hget)
  · constructor
    · intro hsubclass i j found found' hi hj hget hget' hreach
      have his := (hsubclass i j (h.hasClass_abstract hi hget) (h.hasClass_abstract hj hget')
        hj).2 hreach
      exact Writes.abstractly ((h.isSubclass_iff_writes hget hget').1 his) hi
    · intro hlinked i j hclass hclass' hj
      obtain ⟨found, _, _, hget, _⟩ := hclass
      obtain ⟨found', _, _, hget', _⟩ := hclass'
      rw [h.isSubclass_iff_writes hget hget']
      refine ⟨Writes.reaches, fun hreach => ?_⟩
      cases hi : isAbstractType documents i with
      | true =>
        have hup := hlinked i j found found' hi hj hget hget' hreach
        exact AbstractlySpecializes.written hup
      | false =>
        rcases reflTransGen_iff_eq_or_transGen.1 hreach with rfl | hreach
        · simp [hi] at hj
        · refine .single ?_
          rw [Writes, writtenTypes, hi, if_neg (by simp), mem_sortedSet, List.mem_filter]
          exact ⟨(mem_ancestors hacyclic).2 hreach, hj⟩

end Complete

/-- `S` specialises the concrete `C`, and `C` the abstract `A`. -/
def mixedDocuments : Documents :=
  let type := fun name isAbstract supertypes =>
    Document.mk (some name) (some name) none isAbstract supertypes [] false []
  ⟨[("A.json", type "A" true []), ("C.json", type "C" false ["A"]),
    ("S.json", type "S" true ["C"])], by decide⟩

def modelModule (name : String) : Module :=
  { imports := [⟨some 0, "__future__", [⟨"annotations", "annotations"⟩]⟩,
      ⟨some 0, "pydantic", [⟨"BaseModel", "BaseModel"⟩]⟩],
    declared := [⟨name, true, ["BaseModel"], [], [], false, false, [], false⟩],
    registered := [] }

def mixedFiles : Files :=
  ⟨[("A.py", modelModule "A"), ("C.py", modelModule "C"), ("S.py", modelModule "S")], by decide⟩

def mixedClasses : Classes :=
  ⟨⟨[("A", "A", "A"), ("C", "C", "C"), ("S", "S", "S")], by decide⟩,
    ⟨[("A", "A"), ("C", "C"), ("S", "S")], by decide⟩⟩

theorem classesOf_mixed : classesOf mixedDocuments mixedFiles = .ok mixedClasses := by
  have hentries : ((classesOf mixedDocuments mixedFiles).toOption.map fun classes =>
      (classes.byIdentity.entries, classes.title.entries)) =
        some (mixedClasses.byIdentity.entries, mixedClasses.title.entries) := by decide +kernel
  cases h : classesOf mixedDocuments mixedFiles with
  | error e => simp [h, Except.toOption] at hentries
  | ok classes =>
    obtain ⟨⟨byIdentity, _⟩, ⟨title, _⟩⟩ := classes
    simp only [h, Except.toOption, Option.map_some, Option.some.injEq, Prod.mk.injEq] at hentries
    obtain ⟨rfl, rfl⟩ := hentries
    rfl

theorem refine_mixed : ∃ package, refine mixedDocuments mixedFiles = .ok package := by
  have hok : (refine mixedDocuments mixedFiles).isOk = true := by decide +kernel
  cases h : refine mixedDocuments mixedFiles with
  | ok package => exact ⟨package, rfl⟩
  | error e =>
    rw [h] at hok
    simp [Except.isOk, Except.toBool] at hok

theorem mem_mixedClasses (h : mixedClasses.byIdentity.get i = some found) :
    (i = "A" ∧ found = ("A", "A")) ∨ (i = "C" ∧ found = ("C", "C")) ∨
      i = "S" ∧ found = ("S", "S") := by
  simpa [mixedClasses, OrderedMap.get_eq_some_iff] using h

theorem mem_mixedFiles {module : String} (h : mixedFiles.get (path module) = some source) :
    ∃ name, (name = "A" ∨ name = "C" ∨ name = "S") ∧ module = name ∧ source = modelModule name := by
  rw [OrderedMap.get_eq_some_iff] at h
  have hname : ∀ name, path module = name ++ ".py" → module = name :=
    fun name heq => path_injective heq
  simp only [mixedFiles, List.mem_cons, List.not_mem_nil, or_false, Prod.mk.injEq] at h
  rcases h with ⟨heq, rfl⟩ | ⟨heq, rfl⟩ | ⟨heq, rfl⟩
  · exact ⟨"A", by simp, hname "A" heq, rfl⟩
  · exact ⟨"C", by simp, hname "C" heq, rfl⟩
  · exact ⟨"S", by simp, hname "S" heq, rfl⟩

theorem specializes_mixed : Specializes mixedDocuments i j ↔
    (i = "S" ∧ j = "C") ∨ i = "C" ∧ j = "A" := by
  rw [Specializes, supertypes]
  simp only [mixedDocuments, OrderedMap.values, List.map_cons, List.map_nil, List.find?_cons]
  by_cases hA : i = "A"
  · subst hA; simp
  · by_cases hC : i = "C"
    · subst hC; simp
    · by_cases hS : i = "S"
      · subst hS; simp
      · simp [hC, hS, beq_eq_false_iff_ne.2 (Ne.symm hA), beq_eq_false_iff_ne.2 (Ne.symm hC),
          beq_eq_false_iff_ne.2 (Ne.symm hS)]

theorem acyclic_mixed : ∀ i, ¬ TransGen (Specializes mixedDocuments) i i := by
  let rank : String → ℕ := fun i => if i = "S" then 2 else if i = "C" then 1 else 0
  have hstep : ∀ i j, Specializes mixedDocuments i j → rank j < rank i := by
    intro i j h
    rcases specializes_mixed.1 h with ⟨rfl, rfl⟩ | ⟨rfl, rfl⟩
    · decide
    · decide
  have hrun : ∀ i j, TransGen (Specializes mixedDocuments) i j → rank j < rank i := by
    intro i j h
    induction h with
    | single h => exact hstep _ _ h
    | tail _ h ih => exact (hstep _ _ h).trans ih
  exact fun i h => Nat.lt_irrefl _ (hrun i i h)

theorem free_modelModule {name : String} (hne : found.2 ≠ name) (hbase : found.2 ≠ "BaseModel")
    (hfuture : found.2 ≠ "annotations") (hhelper : found.2 ∉ helpers.map Prod.fst) :
    Free (modelModule name) found := by
  refine ⟨?_, ?_, ?_, hhelper⟩
  · simpa [modelModule, Module.names] using hne
  · simpa [modelModule] using hbase
  · simp [modelModule, Module.bindings, Import.bindings, hbase, hfuture]

theorem apart_mixed : Apart mixedDocuments mixedFiles mixedClasses := by
  refine ⟨by decide, ?_, ?_, ?_, ?_, ?_, ?_⟩
  · intro i j found found' hi hj heq
    rcases mem_mixedClasses hi with ⟨rfl, rfl⟩ | ⟨rfl, rfl⟩ | ⟨rfl, rfl⟩
    all_goals
      rcases mem_mixedClasses hj with ⟨rfl, rfl⟩ | ⟨rfl, rfl⟩ | ⟨rfl, rfl⟩
      all_goals first | rfl | simp at heq
  · intro module source st base hsource hst hbase
    obtain ⟨name, _, rfl, rfl⟩ := mem_mixedFiles hsource
    obtain rfl := List.mem_singleton.1 hst
    obtain rfl := List.mem_singleton.1 hbase
    refine ⟨fun i hi => ?_, fun target name => ?_⟩
    · rcases mem_mixedClasses hi with ⟨_, heq⟩ | ⟨_, heq⟩ | ⟨_, heq⟩
      all_goals simp at heq
    · simp [modelModule, Module.bindings, Import.bindings, Import.class]
  · intro module source hsource
    obtain ⟨name, _, _, rfl⟩ := mem_mixedFiles hsource
    rfl
  · intro i found source _ hi hsource
    obtain ⟨name, hname, _, rfl⟩ := mem_mixedFiles hsource
    refine ⟨?_, fun c hc => ?_⟩
    · rcases hname with rfl | rfl | rfl
      all_goals simp [modelModule, Module.names]
    · simp [modelModule, Module.bindings, Import.bindings] at hc
  · intro i j found found' source hi hj habove _ hsource
    obtain ⟨name, _, hmodule, rfl⟩ := mem_mixedFiles hsource
    have hne : i ≠ j := fun heq => acyclic_mixed j (heq ▸ habove)
    rcases mem_mixedClasses hi with ⟨rfl, rfl⟩ | ⟨rfl, rfl⟩ | ⟨rfl, rfl⟩
    all_goals
      subst hmodule
      rcases mem_mixedClasses hj with ⟨rfl, rfl⟩ | ⟨rfl, rfl⟩ | ⟨rfl, rfl⟩
      all_goals first
        | exact absurd rfl hne
        | exact free_modelModule (by decide) (by decide) (by decide) (by decide)
  · intro i j k found found' _ _ _ _ hj hk heq
    rcases mem_mixedClasses hj with ⟨rfl, rfl⟩ | ⟨rfl, rfl⟩ | ⟨rfl, rfl⟩
    all_goals
      rcases mem_mixedClasses hk with ⟨rfl, rfl⟩ | ⟨rfl, rfl⟩ | ⟨rfl, rfl⟩
      all_goals first | rfl | simp at heq

end FilamentCore.PythonBackend.Refine
