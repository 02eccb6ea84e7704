import FilamentCore.Library.Succeeding
import FilamentCore.PythonBackend.Refine

/-!
# What a completed module binds and declares

The imports, classes and registrations of a module after `refine`, from those before it.
-/

namespace FilamentCore.PythonBackend.Refine
open Library Library.Succeeding

/-! ### Class objects -/

/-- A class of a generated module, or one of another package. -/
inductive Class
  | generated (module name : String)
  | external (module name : String)
deriving DecidableEq

def Import.class (statement : Import) (one : ImportedName) : Class :=
  match statement.level with
  | some (_ + 1) => .generated statement.module one.name
  | _ => .external statement.module one.name

def Import.bindings (statement : Import) : List (String × Class) :=
  statement.names.map fun one => (one.bound, statement.class one)

def Module.bindings (source : Module) : List (String × Class) :=
  source.imports.flatMap Import.bindings

def Module.names (source : Module) : List String := source.declared.map Declared.name

/-- The class of a name below the statements `before`, of which the last binding counts. -/
def Module.resolve (source : Module) (module : String) (before : List Declared) (name : String) :
    Class :=
  if before.any (fun one => one.name == name) then .generated module name
  else
    match (source.bindings.filter fun b => b.1 == name).getLast? with
    | some b => b.2
    | none => .external "builtins" name

def abcClass : Class := .external "abc" "ABC"

/-- What a completion binds beside the parents' classes. -/
def helpers : List (String × Class) :=
  [("ABC", abcClass), ("abstractmethod", .external "abc" "abstractmethod"),
    ("to_json", .external "pydantic_core" "to_json"),
    ("ConfigDict", .external "pydantic" "ConfigDict")]

variable {source out : Module} {statement : Import} {name module : String} {b : String × Class}
  {before : List Declared} {f : Declared → Declared} {c : Class} {document : Document}

/-! ### Resolution -/

theorem resolve_declared (h : name ∈ before.map Declared.name) :
    source.resolve module before name = .generated module name := by
  obtain ⟨one, hone, rfl⟩ := List.mem_map.1 h
  have hany : before.any (fun other => other.name == one.name) = true :=
    List.any_eq_true.2 ⟨one, hone, beq_self_eq_true _⟩
  rw [Module.resolve, if_pos hany]

theorem resolve_cases (source : Module) (module : String) (before : List Declared)
    (name : String) :
    (name ∈ before.map Declared.name ∧
        source.resolve module before name = .generated module name) ∨
      (name, source.resolve module before name) ∈ source.bindings ∨
      source.resolve module before name = .external "builtins" name := by
  by_cases hd : name ∈ before.map Declared.name
  · exact .inl ⟨hd, resolve_declared hd⟩
  · have hany : ¬ before.any (fun one => one.name == name) = true := by
      intro hc
      obtain ⟨one, hone, heq⟩ := List.any_eq_true.1 hc
      exact hd (List.mem_map.2 ⟨one, hone, by simpa using heq⟩)
    rw [Module.resolve, if_neg hany]
    cases hl : (source.bindings.filter fun b => b.1 == name).getLast? with
    | none => exact .inr (.inr rfl)
    | some b =>
      have hmem := List.mem_filter.1 (List.mem_of_getLast? hl)
      have hname : b.1 = name := by simpa using hmem.2
      exact .inr (.inl (hname ▸ hmem.1))

theorem resolve_bound (hd : name ∉ before.map Declared.name) (hb : (name, c) ∈ source.bindings)
    (hone : ∀ d, (name, d) ∈ source.bindings → d = c) :
    source.resolve module before name = c := by
  have hany : ¬ before.any (fun one => one.name == name) = true := by
    intro hc
    obtain ⟨one, hone, heq⟩ := List.any_eq_true.1 hc
    exact hd (List.mem_map.2 ⟨one, hone, by simpa using heq⟩)
  rw [Module.resolve, if_neg hany]
  cases hl : (source.bindings.filter fun b => b.1 == name).getLast? with
  | none =>
    rw [List.getLast?_eq_none_iff, List.filter_eq_nil_iff] at hl
    exact absurd (beq_self_eq_true name) (hl _ hb)
  | some b =>
    have hmem := List.mem_filter.1 (List.mem_of_getLast? hl)
    have hname : b.1 = name := by simpa using hmem.2
    exact hone b.2 (hname ▸ hmem.1)

/-! ### Rewritten classes -/

/-- A rewriting that leaves a class a class of its name. -/
def KeepsClass (f : Declared → Declared) : Prop :=
  ∀ one : Declared, (f one).name = one.name ∧ (one.isClass = true → (f one).isClass = true)

theorem isClassNamed_iff {one : Declared} :
    one.isClassNamed name = true ↔ one.isClass = true ∧ one.name = name := by
  simp [Declared.isClassNamed]

theorem KeepsClass.isClassNamed (h : KeepsClass f) {one : Declared}
    (hone : one.isClassNamed name = true) : (f one).isClassNamed name = true := by
  obtain ⟨hclass, hname⟩ := isClassNamed_iff.1 hone
  exact isClassNamed_iff.2 ⟨(h one).2 hclass, (h one).1.trans hname⟩

theorem names_replaceFirst (h : KeepsClass f) (l : List Declared) :
    (replaceFirst name f l).map Declared.name = l.map Declared.name := by
  induction l with
  | nil => rfl
  | cons one rest ih =>
    rw [replaceFirst]
    split
    · rw [List.map_cons, List.map_cons, (h one).1]
    · rw [List.map_cons, List.map_cons, ih]

example : replaceFirst name f [] = [] := by rw [replaceFirst]

theorem mem_replaceFirst {l : List Declared} {one : Declared} (h : one ∈ replaceFirst name f l) :
    one ∈ l ∨ ∃ node ∈ l, node.isClassNamed name = true ∧ one = f node := by
  induction l with
  | nil => simp [replaceFirst] at h
  | cons first rest ih =>
    rw [replaceFirst] at h
    split at h
    · rename_i hfirst
      rcases List.mem_cons.1 h with rfl | h
      · exact .inr ⟨first, List.mem_cons_self .., hfirst, rfl⟩
      · exact .inl (List.mem_cons_of_mem _ h)
    · rcases List.mem_cons.1 h with rfl | h
      · exact .inl (List.mem_cons_self ..)
      · rcases ih h with h | ⟨node, hnode, hnamed, heq⟩
        · exact .inl (List.mem_cons_of_mem _ h)
        · exact .inr ⟨node, List.mem_cons_of_mem _ hnode, hnamed, heq⟩

theorem find_replaceFirst (h : KeepsClass f) {l : List Declared} {node : Declared}
    (hnode : l.find? (Declared.isClassNamed name) = some node) :
    (replaceFirst name f l).find? (Declared.isClassNamed name) = some (f node) := by
  induction l with
  | nil => simp at hnode
  | cons first rest ih =>
    rw [replaceFirst]
    by_cases hfirst : first.isClassNamed name = true
    · rw [List.find?_cons_of_pos hfirst] at hnode
      obtain rfl := Option.some.inj hnode
      rw [if_pos hfirst, List.find?_cons_of_pos (h.isClassNamed hfirst)]
    · rw [List.find?_cons_of_neg hfirst] at hnode
      rw [if_neg hfirst, List.find?_cons_of_neg hfirst, ih hnode]

theorem classOf_ok {node : Declared} (h : source.classOf name = .ok node) :
    source.declared.find? (Declared.isClassNamed name) = some node := by
  rw [Module.classOf] at h
  split at h
  · obtain rfl := Except.ok.inj h
    assumption
  · simp at h

/-! ### Added imports -/

/-- `out` is `source` with more names bound. -/
structure Binds (source out : Module) (added : List (String × Class)) : Prop where
  declared : out.declared = source.declared
  registered : out.registered = source.registered
  bindings : ∀ b, b ∈ out.bindings ↔ b ∈ source.bindings ∨ b ∈ added

theorem Binds.refl (source : Module) : Binds source source [] :=
  ⟨rfl, rfl, fun b => by simp⟩

theorem Binds.trans {middle : Module} {added added' : List (String × Class)}
    (h : Binds source middle added) (h' : Binds middle out added') :
    Binds source out (added ++ added') := by
  refine ⟨h'.declared.trans h.declared, h'.registered.trans h.registered, fun b => ?_⟩
  rw [h'.bindings, h.bindings, List.mem_append, or_assoc]

theorem mem_bindings : b ∈ source.bindings ↔ ∃ one ∈ source.imports, b ∈ one.bindings :=
  List.mem_flatMap

theorem binds_insert {before after : List Import} (h : source.imports = before ++ after) :
    Binds source { source with imports := before ++ statement :: after } statement.bindings := by
  refine ⟨rfl, rfl, fun b => ?_⟩
  rw [Module.bindings, Module.bindings, h, List.flatMap_append, List.flatMap_append,
    List.flatMap_cons]
  simp only [List.mem_append]
  tauto

theorem binds_present (h : statement ∈ source.imports) :
    Binds source source statement.bindings := by
  refine ⟨rfl, rfl, fun b => ⟨.inl, fun hb => hb.elim id fun hb => ?_⟩⟩
  exact mem_bindings.2 ⟨statement, h, hb⟩

theorem importLast_binds (h : importLast source statement = .ok out) :
    Binds source out statement.bindings := by
  rw [importLast] at h
  split at h
  · obtain rfl := Except.ok.inj h
    exact binds_present ‹_›
  · split at h
    · simp at h
    · obtain rfl := Except.ok.inj h
      exact binds_insert (List.takeWhile_append_dropWhile).symm

theorem importStandard_binds (h : importStandard source statement = .ok out) :
    Binds source out statement.bindings := by
  rw [importStandard] at h
  split at h
  · simp at h
  · rename_i future after hafter
    obtain rfl := Except.ok.inj h
    have hsplit : source.imports =
        ((source.imports.takeWhile fun one => !one.isFuture) ++ [future]) ++ after := by
      rw [List.append_assoc, List.singleton_append, ← hafter, List.takeWhile_append_dropWhile]
    have hbinds : Binds source _ statement.bindings := binds_insert hsplit
    rwa [List.append_assoc, List.singleton_append] at hbinds

theorem importAfterPydantic_binds (h : importAfterPydantic source statement = .ok out) :
    Binds source out statement.bindings := by
  rw [importAfterPydantic] at h
  split at h
  · obtain rfl := Except.ok.inj h
    exact binds_present ‹_›
  · dsimp only at h
    split at h
    · simp at h
    · obtain rfl := Except.ok.inj h
      refine binds_insert ?_
      rw [← List.reverse_append, List.takeWhile_append_dropWhile, List.reverse_reverse]

/-! ### Dropped imports -/

theorem kept_bindings {used : List String} :
    b ∈ ((statement.kept used).map Import.bindings).getD [] →
      b ∈ statement.bindings := by
  rw [Import.kept]
  split
  · exact id
  · split
    · simp
    · intro hb
      obtain ⟨one, hone, rfl⟩ := List.mem_map.1 hb
      exact List.mem_map.2 ⟨one, (List.mem_filter.1 hone).1, rfl⟩

theorem bindings_kept {used : List String} (hb : b ∈ statement.bindings) (hu : b.1 ∈ used) :
    ∃ one, statement.kept used = some one ∧ b ∈ one.bindings := by
  rw [Import.kept]
  split
  · exact ⟨statement, rfl, hb⟩
  · obtain ⟨one, hone, rfl⟩ := List.mem_map.1 hb
    have hmem : one ∈ statement.names.filter fun one => decide (one.bound ∈ used) :=
      List.mem_filter.2 ⟨hone, decide_eq_true hu⟩
    split
    · rename_i hnil
      rw [hnil] at hmem
      simp at hmem
    · exact ⟨_, rfl, List.mem_map.2 ⟨one, hmem, rfl⟩⟩

theorem bindings_dropUnused (hb : b ∈ (dropUnusedImports source).bindings) :
    b ∈ source.bindings := by
  obtain ⟨one, hone, hmem⟩ := mem_bindings.1 hb
  obtain ⟨statement, hstatement, hkept⟩ := List.mem_filterMap.1 hone
  have hbound : b ∈ ((statement.kept source.used).map Import.bindings).getD [] := by
    rw [hkept]
    exact hmem
  exact mem_bindings.2 ⟨statement, hstatement, kept_bindings hbound⟩

theorem dropUnused_bindings (hb : b ∈ source.bindings) (hu : b.1 ∈ source.used) :
    b ∈ (dropUnusedImports source).bindings := by
  obtain ⟨statement, hstatement, hmem⟩ := mem_bindings.1 hb
  obtain ⟨one, hkept, hone⟩ := bindings_kept hmem hu
  exact mem_bindings.2 ⟨one, List.mem_filterMap.2 ⟨statement, hstatement, hkept⟩, hone⟩

/-! ### One module -/

def parentBinding (found : String × String) : String × Class :=
  (found.2, .generated found.1 found.2)

theorem abcImport_helper (h : b ∈ abcImport.bindings) : b ∈ helpers := by
  simp only [abcImport, Import.bindings, Import.class, List.map_cons, List.map_nil,
    List.mem_cons, List.not_mem_nil, or_false] at h
  rcases h with rfl | rfl
  · simp [helpers, abcClass]
  · simp [helpers]

/-- The classes keep their names and bases, and only helper names are added. -/
structure Kept (source out : Module) : Prop where
  names : out.names = source.names
  bases : ∀ st ∈ out.declared, ∃ st' ∈ source.declared, st.bases = st'.bases
  registered : out.registered = source.registered
  bound : ∀ b ∈ out.bindings, b ∈ source.bindings ∨ b ∈ helpers

theorem Kept.refl (source : Module) : Kept source source :=
  ⟨rfl, fun st hst => ⟨st, hst, rfl⟩, rfl, fun _ hb => .inl hb⟩

theorem Kept.trans {middle : Module} (h : Kept source middle) (h' : Kept middle out) :
    Kept source out := by
  refine ⟨h'.names.trans h.names, fun st hst => ?_, h'.registered.trans h.registered,
    fun b hb => ?_⟩
  · obtain ⟨st', hst', hbases⟩ := h'.bases st hst
    obtain ⟨st₀, hst₀, hbases'⟩ := h.bases st' hst'
    exact ⟨st₀, hst₀, hbases.trans hbases'⟩
  · rcases h'.bound b hb with hb | hb
    · exact h.bound b hb
    · exact .inr hb

theorem Binds.kept {added : List (String × Class)} (h : Binds source out added)
    (hadded : ∀ b ∈ added, b ∈ helpers) : Kept source out := by
  refine ⟨by rw [Module.names, h.declared]; rfl, fun st hst => ?_, h.registered, fun b hb => ?_⟩
  · exact ⟨st, h.declared ▸ hst, rfl⟩
  · exact ((h.bindings b).1 hb).imp_right (hadded b)

theorem rewrite_kept (source : Module) (name : String) (hf : KeepsClass f)
    (hbases : ∀ one : Declared, (f one).bases = one.bases) :
    Kept source (source.rewrite name f) := by
  refine ⟨names_replaceFirst hf _, fun st hst => ?_, rfl, fun b hb => .inl hb⟩
  rcases mem_replaceFirst hst with hst | ⟨node, hnode, _, rfl⟩
  · exact ⟨st, hst, rfl⟩
  · exact ⟨node, hnode, hbases node⟩

theorem identityEquality_kept {fields : List String}
    (h : identityEquality source name fields = .ok out) : Kept source out := by
  obtain ⟨node, _, h⟩ := bind_ok.1 h
  split at h
  · simp at h
  · refine (rewrite_kept source name ?_ ?_).trans
      ((importAfterPydantic_binds h).kept fun b hb => ?_)
    · exact fun one => ⟨rfl, id⟩
    · exact fun one => rfl
    · obtain rfl := List.mem_singleton.1 hb
      simp [helpers, Import.class]

theorem configured_kept (h : configured source name = .ok out) : Kept source out := by
  refine (rewrite_kept source name ?_ ?_).trans
    ((importAfterPydantic_binds h).kept fun b hb => ?_)
  · exact fun one => ⟨rfl, id⟩
  · exact fun one => rfl
  · obtain rfl := List.mem_singleton.1 hb
    simp [helpers, Import.class]

theorem frozenClass_kept (h : frozenClass source name = .ok out) : Kept source out := by
  obtain ⟨node, _, h⟩ := bind_ok.1 h
  dsimp only at h
  have hfrozen : Kept source (source.rewrite name fun node => { node with frozen := true }) :=
    rewrite_kept source name (fun one => ⟨rfl, id⟩) fun one => rfl
  split at h
  · obtain rfl := Except.ok.inj h
    exact hfrozen
  · split at h
    · simp at h
    · split at h
      · obtain rfl := Except.ok.inj h
        exact hfrozen
      · exact hfrozen.trans (configured_kept h)

theorem comparedClass_kept (h : comparedClass document name source = .ok out) :
    Kept source out := by
  rw [comparedClass] at h
  split at h
  · exact identityEquality_kept h
  · obtain rfl := Except.ok.inj h
    exact Kept.refl _

theorem immutableClass_kept (h : immutableClass document name source = .ok out) :
    Kept source out := by
  rw [immutableClass] at h
  split at h
  · exact frozenClass_kept h
  · obtain rfl := Except.ok.inj h
    exact Kept.refl _

theorem abstractClass_spec {bases : List String} (h : abstractClass source name bases = .ok out) :
    out.names = source.names ∧
    (∃ node, out.declared.find? (Declared.isClassNamed name) = some (abstractOf bases node)) ∧
    (∀ st ∈ out.declared, st.name = name ∨ st ∈ source.declared) ∧
    out.registered = source.registered ∧
    (∀ b ∈ out.bindings, b ∈ source.bindings ∨ b ∈ helpers) ∧
    ("ABC", abcClass) ∈ out.bindings := by
  obtain ⟨node, hnode, h⟩ := bind_ok.1 h
  obtain ⟨middle, hmiddle, h⟩ := bind_ok.1 h
  obtain rfl := Except.ok.inj h
  have hfind := classOf_ok hnode
  have hkeeps : KeepsClass (abstractOf bases) := fun one => ⟨rfl, fun _ => rfl⟩
  have hbinds := importStandard_binds hmiddle
  have hdeclared : middle.declared = replaceFirst name (abstractOf bases) source.declared :=
    hbinds.declared
  have hfound := find_replaceFirst hkeeps hfind
  refine ⟨?_, ⟨node, ?_⟩, ?_, hbinds.registered, ?_, ?_⟩
  · show middle.declared.map Declared.name = source.declared.map Declared.name
    rw [hdeclared, names_replaceFirst hkeeps]
  · show middle.declared.find? (Declared.isClassNamed name) = some (abstractOf bases node)
    rw [hdeclared, hfound]
  · intro st hst
    have hst : st ∈ replaceFirst name (abstractOf bases) source.declared := hdeclared ▸ hst
    rcases mem_replaceFirst hst with hst | ⟨node, _, hnamed, rfl⟩
    · exact .inr hst
    · exact .inl (isClassNamed_iff.1 hnamed).2
  · intro b hb
    rcases (hbinds.bindings b).1 (bindings_dropUnused hb) with hb | hb
    · exact .inl hb
    · exact .inr (abcImport_helper hb)
  · refine dropUnused_bindings ((hbinds.bindings _).2 (.inr (List.mem_cons_self ..))) ?_
    refine List.mem_flatMap.2 ⟨abstractOf bases node, ?_, ?_⟩
    · rw [hdeclared]
      exact List.mem_of_find?_eq_some hfound
    · simp [Declared.used, abstractOf]

variable {documents : Documents} {classes : Classes} {parents : List String}

theorem importParents_spec (h : importParents classes source parents = .ok out) :
    ∃ added, Binds source out added ∧
      (∀ p ∈ parents, ∃ g, classes.byIdentity.get p = some g ∧ parentBinding g ∈ added) ∧
      ∀ b ∈ added, ∃ p ∈ parents, ∃ g,
        classes.byIdentity.get p = some g ∧ b = parentBinding g := by
  induction parents generalizing source with
  | nil =>
    obtain rfl := Except.ok.inj h
    exact ⟨[], Binds.refl _, by simp, by simp⟩
  | cons parent parents ih =>
    rw [importParents, List.foldlM_cons] at h
    obtain ⟨middle, hmiddle, h⟩ := bind_ok.1 h
    obtain ⟨g, hg, hmiddle⟩ := bind_ok.1 hmiddle
    obtain ⟨added, hbinds, hfound, hadded⟩ := ih h
    have hget : classes.byIdentity.get parent = some g := by
      rw [Classes.found] at hg
      split at hg
      · simp at hg
      · obtain rfl := Except.ok.inj hg
        assumption
    refine ⟨[parentBinding g] ++ added, (importLast_binds hmiddle).trans hbinds, ?_, ?_⟩
    · intro p hp
      rcases List.mem_cons.1 hp with rfl | hp
      · exact ⟨g, hget, List.mem_cons_self ..⟩
      · obtain ⟨g', hg', hmem⟩ := hfound p hp
        exact ⟨g', hg', List.mem_cons_of_mem _ hmem⟩
    · intro b hb
      rcases List.mem_cons.1 hb with rfl | hb
      · exact ⟨parent, List.mem_cons_self .., g, hget, rfl⟩
      · obtain ⟨p, hp, g', hg', heq⟩ := hadded b hb
        exact ⟨p, List.mem_cons_of_mem _ hp, g', hg', heq⟩

/-- The abstract types whose names a completion writes. -/
def written (documents : Documents) (abstract : List String) (document : Document)
    (identity : String) : List String :=
  if document.isAbstract then sortedSet (document.supertypes.filter (abstract.contains ·))
  else sortedSet ((ancestors documents identity).filter (abstract.contains ·))

/-- A module completed for its document. -/
structure Completed (classes : Classes) (isAbstract : Bool) (parents : List String)
    (name : String) (source out : Module) : Prop where
  names : out.names = source.names
  found : ∀ p ∈ parents, ∃ g, classes.byIdentity.get p = some g ∧ parentBinding g ∈ out.bindings
  bound : ∀ b ∈ out.bindings, b ∈ source.bindings ∨ b ∈ helpers ∨ ∃ p ∈ parents, ∃ g,
    classes.byIdentity.get p = some g ∧ b = parentBinding g
  bases : ∀ st ∈ out.declared, isAbstract = true ∧ st.name = name ∨
    ∃ st' ∈ source.declared, st.bases = st'.bases
  abstract : isAbstract = true →
    (∃ st, out.declared.find? (Declared.isClassNamed name) = some st ∧
      st.bases = parents.map classes.name ++ ["ABC"]) ∧
    ("ABC", abcClass) ∈ out.bindings
  registered : out.registered = source.registered ++
    if isAbstract then [] else parents.map fun p => (classes.name p, name)

theorem Kept.completed {middle : Module} (h : Kept source middle)
    (hout : importParents classes middle parents = .ok out) (name : String) :
    Completed classes false parents name source
      { out with registered := out.registered ++ parents.map fun p => (classes.name p, name) } := by
  obtain ⟨added, hbinds, hfound, hadded⟩ := importParents_spec hout
  refine ⟨?_, ?_, ?_, ?_, ?_, ?_⟩
  · show out.declared.map Declared.name = _
    rw [hbinds.declared]
    exact h.names
  · intro p hp
    obtain ⟨g, hg, hmem⟩ := hfound p hp
    exact ⟨g, hg, (hbinds.bindings _).2 (.inr hmem)⟩
  · intro b hb
    rcases (hbinds.bindings b).1 hb with hb | hb
    · exact (h.bound b hb).imp_right .inl
    · exact .inr (.inr (hadded b hb))
  · intro st hst
    exact .inr (h.bases st (hbinds.declared ▸ hst))
  · intro htrue
    simp at htrue
  · show out.registered ++ _ = _
    rw [hbinds.registered, h.registered]
    rfl

theorem refineModule_completed {abstract : List String} {identity : String}
    (h : refineModule documents classes abstract document identity name source = .ok out) :
    Completed classes document.isAbstract (written documents abstract document identity) name source
      out := by
  rw [refineModule] at h
  rw [written]
  cases hdocument : document.isAbstract with
  | true =>
    rw [hdocument, if_pos rfl] at h
    obtain ⟨middle, hmiddle, h⟩ := bind_ok.1 h
    obtain ⟨hnames, ⟨node, hnode⟩, hst, hregistered, hbound, habc⟩ := abstractClass_spec hmiddle
    obtain ⟨added, hbinds, hfound, hadded⟩ := importParents_spec h
    refine ⟨?_, ?_, ?_, ?_, ?_, ?_⟩
    · rw [Module.names, hbinds.declared]
      exact hnames
    · intro p hp
      obtain ⟨g, hg, hmem⟩ := hfound p hp
      exact ⟨g, hg, (hbinds.bindings _).2 (.inr hmem)⟩
    · intro b hb
      rcases (hbinds.bindings b).1 hb with hb | hb
      · exact (hbound b hb).imp_right .inl
      · exact .inr (.inr (hadded b hb))
    · intro st hmem
      rcases hst st (hbinds.declared ▸ hmem) with hname | hmem
      · exact .inl ⟨rfl, hname⟩
      · exact .inr ⟨st, hmem, rfl⟩
    · intro _
      exact ⟨⟨abstractOf _ node, by rw [hbinds.declared]; exact hnode, rfl⟩,
        (hbinds.bindings _).2 (.inl habc)⟩
    · rw [hbinds.registered, hregistered]
      exact (List.append_nil _).symm
  | false =>
    rw [hdocument] at h
    obtain ⟨first, hfirst, h⟩ := bind_ok.1 h
    obtain ⟨second, hsecond, h⟩ := bind_ok.1 h
    obtain ⟨third, hthird, h⟩ := bind_ok.1 h
    obtain rfl := Except.ok.inj h
    exact ((comparedClass_kept hfirst).trans (immutableClass_kept hsecond)).completed hthird name

/-! ### The classes of the documents -/

def identities (entries : List (String × Document)) : List String :=
  entries.filterMap fun entry => entry.2.semanticId

def Found (documents : Documents) (files : Files) (identity : String)
    (found : String × String) : Prop :=
  ∃ entry ∈ documents.entries, entry.2.semanticId = some identity ∧
    ∃ source, files.get (path found.1) = some source ∧ found.2 ∈ source.names

variable {files refined : Files} {entry : String × Document} {entries : List (String × Document)}

theorem add_cases {classes' : Classes} (h : classes.add files entry = .ok classes') :
    classes' = classes ∨ ∃ identity name, entry.2.semanticId = some identity ∧
      ((classes'.byIdentity = classes.byIdentity ∧
          classes'.title = classes.title.set identity name) ∨
        ∃ source chosen, files.get (path (moduleName entry.1)) = some source ∧
          chosen ∈ source.names ∧
          classes'.byIdentity = classes.byIdentity.set identity (moduleName entry.1, chosen) ∧
          classes'.title = (classes.title.set identity name).set identity chosen) := by
  rw [Classes.add] at h
  split at h
  · rename_i identity title hid _
    obtain ⟨name, _, h⟩ := bind_ok.1 h
    refine .inr ⟨identity, name, hid, ?_⟩
    split at h
    · obtain rfl := Except.ok.inj h
      exact .inl ⟨rfl, rfl⟩
    · rename_i source hsource
      split at h
      · obtain rfl := Except.ok.inj h
        exact .inl ⟨rfl, rfl⟩
      · rename_i chosen hchosen
        obtain rfl := Except.ok.inj h
        have hany := List.find?_some hchosen
        obtain ⟨one, hone, heq⟩ := List.any_eq_true.1 hany
        refine .inr ⟨source, chosen, hsource, ?_, rfl, rfl⟩
        exact List.mem_map.2 ⟨one, hone, by simpa using heq⟩
  · obtain rfl := Except.ok.inj h
    exact .inl rfl

theorem foldlM_add {classes' : Classes} (hes : entries ⊆ documents.entries)
    (hdistinct : (identities entries).Nodup)
    (hacc : ∀ identity found, classes.byIdentity.get identity = some found →
      Found documents files identity found ∧ classes.title.get identity = some found.2 ∧
        identity ∉ identities entries)
    (h : entries.foldlM (Classes.add files) classes = .ok classes') :
    ∀ identity found, classes'.byIdentity.get identity = some found →
      Found documents files identity found ∧ classes'.title.get identity = some found.2 := by
  induction entries generalizing classes with
  | nil =>
    obtain rfl := Except.ok.inj h
    exact fun identity found hget => ⟨(hacc identity found hget).1, (hacc identity found hget).2.1⟩
  | cons entry entries ih =>
    rw [List.foldlM_cons] at h
    obtain ⟨middle, hmiddle, h⟩ := bind_ok.1 h
    have hrest : identities entries ⊆ identities (entry :: entries) :=
      (List.sublist_cons_self entry entries).filterMap _ |>.subset
    have hentries : entries ⊆ documents.entries := fun e he => hes (List.mem_cons_of_mem _ he)
    have hnodup : (identities entries).Nodup :=
      hdistinct.sublist ((List.sublist_cons_self entry entries).filterMap _)
    refine ih hentries hnodup (fun identity found hget => ?_) h
    rcases add_cases hmiddle with rfl | ⟨id, name, hid, hcases⟩
    · obtain ⟨hfound, htitle, hnew⟩ := hacc identity found hget
      exact ⟨hfound, htitle, fun hmem => hnew (hrest hmem)⟩
    · have hids : identities (entry :: entries) = id :: identities entries := by
        rw [identities, List.filterMap_cons, hid]
        rfl
      have hold : identity ≠ id → classes.byIdentity.get identity = some found →
          Found documents files identity found ∧ classes.title.get identity = some found.2 ∧
            identity ∉ identities entries := by
        intro _ hget
        obtain ⟨hfound, htitle, hnew⟩ := hacc identity found hget
        exact ⟨hfound, htitle, fun hmem => hnew (hrest hmem)⟩
      rcases hcases with ⟨hby, htitles⟩ | ⟨source, chosen, hsource, hchosen, hby, htitles⟩
      · rw [hby] at hget
        have hne : identity ≠ id := by
          rintro rfl
          exact (hacc identity found hget).2.2 (hids ▸ List.mem_cons_self ..)
        rw [htitles, OrderedMap.get_set_ne _ _ hne]
        exact hold hne hget
      · rw [hby] at hget
        by_cases heq : identity = id
        · subst heq
          rw [OrderedMap.get_set, if_pos rfl] at hget
          obtain rfl := Option.some.inj hget
          refine ⟨⟨entry, hes (List.mem_cons_self ..), hid, source, hsource, hchosen⟩, ?_, ?_⟩
          · rw [htitles, OrderedMap.get_set, if_pos rfl]
          · rw [hids] at hdistinct
            exact (List.nodup_cons.1 hdistinct).1
        · rw [OrderedMap.get_set_ne _ _ heq] at hget
          rw [htitles, OrderedMap.get_set_ne _ _ heq, OrderedMap.get_set_ne _ _ heq]
          exact hold heq hget

theorem sortedItems_perm {ν : Type} (items : OrderedMap String ν) :
    (sortedItems items).Perm items.entries :=
  List.perm_insertionSort _ _

theorem classesOf_found (hdistinct : (identities documents.entries).Nodup)
    (h : classesOf documents files = .ok classes) {identity : String} {found : String × String}
    (hget : classes.byIdentity.get identity = some found) :
    Found documents files identity found ∧ classes.name identity = found.2 := by
  have hperm := sortedItems_perm documents
  have hnodup : (identities (sortedItems documents)).Nodup :=
    (hperm.filterMap _).nodup_iff.2 hdistinct
  obtain ⟨hfound, htitle⟩ := foldlM_add hperm.subset hnodup
    (fun identity found hget => by simp at hget) h identity found hget
  exact ⟨hfound, by rw [Classes.name, htitle]; rfl⟩

/-! ### The package -/

def Classed (classes : Classes) (entry : String × Document) (identity : String)
    (found : String × String) : Prop :=
  entry.2.semanticId = some identity ∧ classes.byIdentity.get identity = some found

variable {abstract : List String}

theorem path_injective : Function.Injective path := by
  intro a b h
  exact String.append_left_inj ".py" |>.1 h

/-- The module of a document with a class is completed, and no other is changed. -/
theorem refineDocument_spec {out : Files}
    (h : refineDocument documents classes abstract refined entry = .ok out) :
    (∀ module, (∀ identity found, Classed classes entry identity found → found.1 ≠ module) →
      out.get (path module) = refined.get (path module)) ∧
    ∀ identity found, Classed classes entry identity found →
      ∃ source source', refined.get (path found.1) = some source ∧
        out.get (path found.1) = some source' ∧
        Completed classes entry.2.isAbstract (written documents abstract entry.2 identity) found.2
          source source' := by
  rw [refineDocument] at h
  split at h
  · rename_i hid
    obtain rfl := Except.ok.inj h
    refine ⟨fun _ _ => rfl, fun identity found hclassed => ?_⟩
    have hsome := hid.symm.trans hclassed.1
    simp at hsome
  · rename_i identity hid
    split at h
    · rename_i hnone
      obtain rfl := Except.ok.inj h
      refine ⟨fun _ _ => rfl, fun other found hclassed => ?_⟩
      obtain rfl : identity = other := Option.some.inj (hid.symm.trans hclassed.1)
      have hsome := hnone.symm.trans hclassed.2
      simp at hsome
    · rename_i found hfound
      split at h
      · simp at h
      · rename_i source hsource
        obtain ⟨source', hsource', h⟩ := bind_ok.1 h
        obtain rfl := Except.ok.inj h
        refine ⟨fun module hne => ?_, fun other found' hclassed => ?_⟩
        · refine OrderedMap.get_set_ne _ _ fun heq => ?_
          exact hne identity found ⟨hid, hfound⟩ (path_injective heq.symm)
        · obtain rfl : identity = other := Option.some.inj (hid.symm.trans hclassed.1)
          obtain rfl : found = found' := Option.some.inj (hfound.symm.trans hclassed.2)
          refine ⟨source, source', hsource, ?_, refineModule_completed hsource'⟩
          rw [OrderedMap.get_set, if_pos rfl]

def Separate (classes : Classes) (entry entry' : String × Document) : Prop :=
  ∀ identity identity' found found', Classed classes entry identity found →
    Classed classes entry' identity' found' → found.1 ≠ found'.1

theorem foldlM_refine {out : Files} (hseparate : entries.Pairwise (Separate classes))
    (h : entries.foldlM (refineDocument documents classes abstract) refined = .ok out) :
    (∀ module, (∀ entry ∈ entries, ∀ identity found, Classed classes entry identity found →
      found.1 ≠ module) → out.get (path module) = refined.get (path module)) ∧
    ∀ entry ∈ entries, ∀ identity found, Classed classes entry identity found →
      ∃ source source', refined.get (path found.1) = some source ∧
        out.get (path found.1) = some source' ∧
        Completed classes entry.2.isAbstract (written documents abstract entry.2 identity) found.2
          source source' := by
  induction entries generalizing refined with
  | nil =>
    obtain rfl := Except.ok.inj h
    exact ⟨fun _ _ => rfl, by simp⟩
  | cons entry entries ih =>
    rw [List.foldlM_cons] at h
    obtain ⟨middle, hmiddle, h⟩ := bind_ok.1 h
    obtain ⟨hother, hown⟩ := refineDocument_spec hmiddle
    obtain ⟨hothers, howns⟩ := ih (List.pairwise_cons.1 hseparate).2 h
    have hapart := (List.pairwise_cons.1 hseparate).1
    refine ⟨fun module hne => ?_, fun e he identity found hclassed => ?_⟩
    · rw [hothers module fun e he => hne e (List.mem_cons_of_mem _ he)]
      exact hother module (hne entry (List.mem_cons_self ..))
    · rcases List.mem_cons.1 he with rfl | he
      · obtain ⟨source, source', hsource, hsource', hcompleted⟩ := hown identity found hclassed
        refine ⟨source, source', hsource, ?_, hcompleted⟩
        rw [hothers found.1 ?_, hsource']
        intro e' he' identity' found' hclassed'
        exact (hapart e' he' identity identity' found found' hclassed hclassed').symm
      · obtain ⟨source, source', hsource, hsource', hcompleted⟩ :=
          howns e he identity found hclassed
        refine ⟨source, source', ?_, hsource', hcompleted⟩
        rw [← hother found.1 ?_, hsource]
        intro identity' found' hclassed'
        exact hapart e he identity' identity found' found hclassed' hclassed

end FilamentCore.PythonBackend.Refine
