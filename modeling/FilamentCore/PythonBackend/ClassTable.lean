import FilamentCore.Library.KeyedList
import FilamentCore.Library.Linearization
import FilamentCore.PythonBackend.RefineSpec

/-!
# The classes of a completed package

What the base lists and registrations of a completed package name, where its class names keep
apart.
-/

namespace FilamentCore.PythonBackend.Refine
open Library Library.Linearization Library.Succeeding Relation

/-! ### Declared types -/

def isAbstractType (documents : Documents) (identity : String) : Bool :=
  documents.values.any fun document => document.isAbstract && document.semanticId == some identity

/-- One supertype reference. -/
def Specializes (documents : Documents) (identity parent : String) : Prop :=
  parent ∈ supertypes documents identity

/-- The direct abstract supertypes of an abstract type, in the order of its base list. -/
def abstractParents (documents : Documents) (identity : String) : List String :=
  if isAbstractType documents identity then
    sortedSet ((supertypes documents identity).filter (isAbstractType documents))
  else []

/-! ### Classes of a package -/

def objectClass : Class := .external "builtins" "object"

/-- The base classes, where those of other packages are the parameter's. -/
def basesOf (library : String → String → List (String × String)) (package : Files) :
    Class → List Class
  | .generated module name =>
    match package.get (path module) with
    | none => []
    | some source =>
      match source.declared.find? (Declared.isClassNamed name) with
      | none => []
      | some st =>
        if st.bases = [] then [objectClass]
        else st.bases.map (source.resolve module
          (source.declared.takeWhile fun one => !one.isClassNamed name))
  | .external module name =>
    if Class.external module name = abcClass then [objectClass]
    else if Class.external module name = objectClass then []
    else (library module name).map fun base => .external base.1 base.2

/-- `a.register(r)` is a statement of the package. -/
def Registers (package : Files) (a r : Class) : Prop :=
  ∃ module source, package.get (path module) = some source ∧ ∃ pair ∈ source.registered,
    source.resolve module source.declared pair.1 = a ∧
      source.resolve module source.declared pair.2 = r

/-- The metaclass is `ABCMeta`: it is for `ABC` and for other classes of the parameter. -/
def Checks (library : String → String → List (String × String)) (abcMeta : String → String → Prop)
    (package : Files) (c : Class) : Prop :=
  Inherits (basesOf library package) c abcClass ∨
    ∃ module name, abcMeta module name ∧
      Inherits (basesOf library package) c (.external module name)

def classObject (classes : Classes) (identity : String) : Class :=
  match classes.byIdentity.get identity with
  | some found => .generated found.1 found.2
  | none => .external "" identity

def HasClass (classes : Classes) (package : Files) (identity : String) : Prop :=
  ∃ found source st, classes.byIdentity.get identity = some found ∧
    package.get (path found.1) = some source ∧
    source.declared.find? (Declared.isClassNamed found.2) = some st

/-- Every abstract class has an order, and `issubclass` of an abstract class is to be declared a
specialisation of it. -/
def Faithful (library : String → String → List (String × String)) (abcMeta : String → String → Prop)
    (documents : Documents) (classes : Classes) (package : Files) : Prop :=
  (∀ identity, isAbstractType documents identity = true → HasClass classes package identity →
    ∃ order, Mro (basesOf library package) (classObject classes identity) order) ∧
  ∀ identity ancestor, HasClass classes package identity → HasClass classes package ancestor →
    isAbstractType documents ancestor = true →
    (IsSubclass (basesOf library package) (Registers package) (Checks library abcMeta package)
        (classObject classes identity) (classObject classes ancestor) ↔
      ReflTransGen (Specializes documents) identity ancestor)

/-! ### Names that stand for one class -/

/-- In a module nothing else has the name of a class of another module. -/
structure Free (source : Module) (found : String × String) : Prop where
  declared : found.2 ∉ source.names
  bases : ∀ st ∈ source.declared, found.2 ∉ st.bases
  imported : ∀ c, (found.2, c) ∈ source.bindings → c = .generated found.1 found.2
  helper : found.2 ∉ helpers.map Prod.fst

/-- The documents have their own identities and modules, no generated class has a base among
the classes of documents, and the name of an abstract class is free in every module below it. -/
structure Apart (documents : Documents) (files : Files) (classes : Classes) : Prop where
  identities : (identities documents.entries).Nodup
  modules : ∀ i j found found', classes.byIdentity.get i = some found →
    classes.byIdentity.get j = some found' → found.1 = found'.1 → i = j
  flat : ∀ module source st base, files.get (path module) = some source → st ∈ source.declared →
    base ∈ st.bases → (∀ i, classes.byIdentity.get i ≠ some (module, base)) ∧
      ∀ target name, (base, Class.generated target name) ∉ source.bindings
  unregistered : ∀ module source, files.get (path module) = some source → source.registered = []
  standard : ∀ i found source, isAbstractType documents i = true →
    classes.byIdentity.get i = some found → files.get (path found.1) = some source →
    "ABC" ∉ source.names ∧ ∀ c, ("ABC", c) ∈ source.bindings → c = abcClass
  free : ∀ i j found found' source, classes.byIdentity.get i = some found →
    classes.byIdentity.get j = some found' → TransGen (Specializes documents) i j →
    isAbstractType documents j = true → files.get (path found.1) = some source →
    Free source found'
  named : ∀ i j k found found', TransGen (Specializes documents) i j →
    TransGen (Specializes documents) i k → isAbstractType documents j = true →
    isAbstractType documents k = true → classes.byIdentity.get j = some found →
    classes.byIdentity.get k = some found' → found.2 = found'.2 → j = k

/-! ### The documents of identities -/

variable {documents : Documents} {files package : Files} {classes : Classes}
  {library : String → String → List (String × String)} {abcMeta : String → String → Prop}
  {entry : String × Document} {identity i j : String} {found : String × String}

theorem entry_unique (hdistinct : (identities documents.entries).Nodup)
    {entry' : String × Document} (h : entry ∈ documents.entries) (h' : entry' ∈ documents.entries)
    (hid : entry.2.semanticId = some identity) (hid' : entry'.2.semanticId = some identity) :
    entry = entry' :=
  Keyed.eq_of_some_key hdistinct h h' hid hid'

theorem isAbstractType_iff : isAbstractType documents identity = true ↔
    ∃ entry ∈ documents.entries, entry.2.isAbstract = true ∧
      entry.2.semanticId = some identity := by
  simp [isAbstractType, OrderedMap.values, List.any_eq_true]

theorem isAbstractType_eq (hdistinct : (identities documents.entries).Nodup)
    (h : entry ∈ documents.entries) (hid : entry.2.semanticId = some identity) :
    isAbstractType documents identity = entry.2.isAbstract := by
  cases habstract : entry.2.isAbstract with
  | true => exact isAbstractType_iff.2 ⟨entry, h, habstract, hid⟩
  | false =>
    rw [Bool.eq_false_iff]
    intro hc
    obtain ⟨entry', h', habstract', hid'⟩ := isAbstractType_iff.1 hc
    obtain rfl := entry_unique hdistinct h h' hid hid'
    rw [habstract] at habstract'
    simp at habstract'

theorem supertypes_eq (hdistinct : (identities documents.entries).Nodup)
    (h : entry ∈ documents.entries) (hid : entry.2.semanticId = some identity) :
    supertypes documents identity = entry.2.supertypes := by
  rw [supertypes]
  split
  · rename_i hnone
    rw [List.find?_eq_none] at hnone
    have := hnone entry.2 (List.mem_map_of_mem h)
    simp [hid] at this
  · rename_i document hsome
    have hid' : document.semanticId = some identity := by simpa using List.find?_some hsome
    obtain ⟨entry', h', rfl⟩ := List.mem_map.1 (List.mem_of_find?_eq_some hsome)
    rw [entry_unique hdistinct h h' hid hid']

theorem abstractIdentities_contains {abstract : List String}
    (h : abstractIdentities documents = .ok abstract) :
    (fun identity => abstract.contains identity) = isAbstractType documents := by
  funext identity
  have hmem : identity ∈ abstract ↔ isAbstractType documents identity = true := by
    rw [isAbstractType_iff]
    constructor
    · intro hmem
      obtain ⟨document, hdocument, hid⟩ := exists_of_mapM_ok h hmem
      split at hid
      · simp at hid
      · rename_i hsome
        obtain rfl := Except.ok.inj hid
        obtain ⟨hvalue, habstract⟩ := List.mem_filter.1 hdocument
        obtain ⟨entry, hentry, rfl⟩ := List.mem_map.1 hvalue
        exact ⟨entry, hentry, habstract, hsome⟩
    · intro hex
      obtain ⟨entry, hentry, habstract, hid⟩ := hex
      have hvalue : entry.2 ∈ documents.values.filter Document.isAbstract :=
        List.mem_filter.2 ⟨List.mem_map_of_mem hentry, habstract⟩
      obtain ⟨other, hother, hok⟩ := mem_of_mapM_ok h hvalue
      rw [hid] at hok
      obtain rfl := Except.ok.inj hok
      exact hother
  rw [Bool.eq_iff_iff, List.contains_iff_mem, hmem]

/-! ### Ancestors -/

theorem mem_sortedSet {names : List String} {name : String} :
    name ∈ sortedSet names ↔ name ∈ names := by
  rw [sortedSet, List.mem_insertionSort, List.mem_dedup]

theorem ancestorsFrom_specializes {fuel : ℕ} {seen : List String}
    (h : j ∈ ancestorsFrom documents fuel i seen) : TransGen (Specializes documents) i j := by
  induction fuel generalizing i seen with
  | zero => simp [ancestorsFrom] at h
  | succ fuel ih =>
    rw [ancestorsFrom, List.mem_flatMap] at h
    obtain ⟨parent, hparent, hj⟩ := h
    split at hj
    · simp at hj
    · rcases List.mem_cons.1 hj with rfl | hj
      · exact .single hparent
      · exact .head hparent (ih hj)

/-- Every supertype some document names. -/
def mentioned (documents : Documents) : List String :=
  documents.values.flatMap Document.supertypes

theorem specializes_mentioned (h : Specializes documents i j) : j ∈ mentioned documents := by
  rw [Specializes, supertypes] at h
  split at h
  · simp at h
  · rename_i document hsome
    exact List.mem_flatMap.2 ⟨document, List.mem_of_find?_eq_some hsome, h⟩

theorem unseen_lt {seen : List String} (hj : j ∈ mentioned documents) (hnew : j ∉ seen) :
    ((mentioned documents).filter fun one => decide (one ∉ j :: seen)).length <
      ((mentioned documents).filter fun one => decide (one ∉ seen)).length := by
  have hfilter : ((mentioned documents).filter fun one => decide (one ∉ j :: seen)) =
      ((mentioned documents).filter fun one => decide (one ∉ seen)).filter
        fun one => decide (one ≠ j) := by
    rw [List.filter_filter]
    refine List.filter_congr fun one _ => ?_
    simp [List.mem_cons, not_or]
  rw [hfilter, List.length_filter_lt_length_iff_exists]
  exact ⟨j, List.mem_filter.2 ⟨hj, decide_eq_true hnew⟩, by simp⟩

theorem specializes_ancestorsFrom (hacyclic : ∀ k, ¬ TransGen (Specializes documents) k k)
    {fuel : ℕ} {seen : List String}
    (hseen : ∀ k ∈ seen, ReflTransGen (Specializes documents) k i)
    (hfuel : ((mentioned documents).filter fun one => decide (one ∉ seen)).length < fuel)
    (h : TransGen (Specializes documents) i j) : j ∈ ancestorsFrom documents fuel i seen := by
  induction fuel generalizing i seen with
  | zero => omega
  | succ fuel ih =>
    obtain ⟨parent, hparent, hj⟩ := TransGen.head'_iff.1 h
    have hnew : parent ∉ seen := by
      intro hmem
      exact hacyclic parent (TransGen.tail' (hseen parent hmem) hparent)
    have hlt := unseen_lt (specializes_mentioned hparent) hnew
    rw [ancestorsFrom, List.mem_flatMap]
    refine ⟨parent, hparent, ?_⟩
    rw [if_neg hnew]
    rcases reflTransGen_iff_eq_or_transGen.1 hj with rfl | hj
    · exact List.mem_cons_self ..
    · refine List.mem_cons_of_mem _ (ih (fun k hk => ?_) (by omega) hj)
      rcases List.mem_cons.1 hk with rfl | hk
      · exact .refl
      · exact (hseen k hk).tail hparent

theorem mem_ancestors (hacyclic : ∀ k, ¬ TransGen (Specializes documents) k k) :
    j ∈ ancestors documents i ↔ TransGen (Specializes documents) i j := by
  refine ⟨ancestorsFrom_specializes, fun h => ?_⟩
  refine specializes_ancestorsFrom hacyclic (by simp) ?_ h
  have := List.length_filter_le (fun one => decide (one ∉ ([] : List String))) (mentioned documents)
  rw [mentioned] at this ⊢
  omega

/-! ### The completed package -/

def writtenTypes (documents : Documents) (identity : String) : List String :=
  if isAbstractType documents identity then abstractParents documents identity
  else sortedSet ((ancestors documents identity).filter (isAbstractType documents))

theorem mem_abstractParents : j ∈ abstractParents documents i ↔
    isAbstractType documents i = true ∧ Specializes documents i j ∧
      isAbstractType documents j = true := by
  rw [abstractParents]
  split
  · rename_i h
    rw [mem_sortedSet, List.mem_filter]
    exact ⟨fun hj => ⟨h, hj⟩, fun hj => hj.2⟩
  · rename_i h
    simp [h]

theorem writtenTypes_above (h : j ∈ writtenTypes documents i) :
    TransGen (Specializes documents) i j ∧ isAbstractType documents j = true := by
  rw [writtenTypes] at h
  split at h
  · obtain ⟨_, hspecializes, habstract⟩ := mem_abstractParents.1 h
    exact ⟨.single hspecializes, habstract⟩
  · rw [mem_sortedSet, List.mem_filter] at h
    exact ⟨ancestorsFrom_specializes h.1, h.2⟩

theorem written_eq (hdistinct : (identities documents.entries).Nodup) {abstract : List String}
    (habstract : abstractIdentities documents = .ok abstract) (h : entry ∈ documents.entries)
    (hid : entry.2.semanticId = some identity) :
    written documents abstract entry.2 identity = writtenTypes documents identity := by
  rw [written, writtenTypes, abstractParents, ← isAbstractType_eq hdistinct h hid,
    ← supertypes_eq hdistinct h hid, abstractIdentities_contains habstract]
  split
  · rfl
  · rfl

/-- A package that `refine` completed, whose classes keep apart. -/
structure Complete (documents : Documents) (files : Files) (classes : Classes) (package : Files) :
    Prop where
  apart : Apart documents files classes
  name : ∀ i found, classes.byIdentity.get i = some found → classes.name i = found.2
  declared : ∀ i found source, classes.byIdentity.get i = some found →
    files.get (path found.1) = some source → found.2 ∈ source.names
  others : ∀ module, (∀ i found, classes.byIdentity.get i = some found → found.1 ≠ module) →
    package.get (path module) = files.get (path module)
  own : ∀ i found, classes.byIdentity.get i = some found → ∃ source source',
    files.get (path found.1) = some source ∧ package.get (path found.1) = some source' ∧
      Completed classes (isAbstractType documents i) (writtenTypes documents i) found.2 source
        source'

theorem separate (hapart : Apart documents files classes) :
    (sortedItems documents).Pairwise (Separate classes) := by
  have hnodup : (identities (sortedItems documents)).Nodup :=
    ((sortedItems_perm documents).filterMap _).nodup_iff.2 hapart.identities
  have hpairs := List.pairwise_filterMap.1 hnodup
  refine hpairs.imp fun {e e'} hne => ?_
  intro identity identity' found found' hclassed hclassed' hmodule
  have hids := hne identity hclassed.1 identity' hclassed'.1
  exact hids (hapart.modules _ _ _ _ hclassed.2 hclassed'.2 hmodule)

theorem refine_complete (hclasses : classesOf documents files = .ok classes)
    (hrefine : refine documents files = .ok package) (hapart : Apart documents files classes) :
    Complete documents files classes package := by
  obtain ⟨classes', hclasses', hrefine⟩ := bind_ok.1 hrefine
  obtain rfl : classes = classes' := Except.ok.inj (hclasses.symm.trans hclasses')
  obtain ⟨abstract, habstract, hrefine⟩ := bind_ok.1 hrefine
  obtain ⟨_, _, hrefine⟩ := bind_ok.1 hrefine
  obtain ⟨hothers, hown⟩ := foldlM_refine (separate hapart) hrefine
  have hperm := sortedItems_perm documents
  have hdocument : ∀ i found, classes.byIdentity.get i = some found →
      ∃ entry ∈ documents.entries, entry.2.semanticId = some i := by
    intro i found hget
    obtain ⟨⟨entry, hentry, hid, _⟩, _⟩ := classesOf_found hapart.identities hclasses hget
    exact ⟨entry, hentry, hid⟩
  refine ⟨hapart, fun i found hget => (classesOf_found hapart.identities hclasses hget).2,
    fun i found source hget hsource => ?_, fun module hmodule => ?_, fun i found hget => ?_⟩
  · obtain ⟨⟨_, _, _, original, horiginal, hnamed⟩, _⟩ :=
      classesOf_found hapart.identities hclasses hget
    obtain rfl : source = original := Option.some.inj (hsource.symm.trans horiginal)
    exact hnamed
  · exact hothers module fun entry _ identity found hclassed => hmodule identity found hclassed.2
  · obtain ⟨entry, hentry, hid⟩ := hdocument i found hget
    obtain ⟨source, source', hsource, hsource', hcompleted⟩ :=
      hown entry (hperm.mem_iff.2 hentry) i found ⟨hid, hget⟩
    rw [written_eq hapart.identities habstract hentry hid,
      ← isAbstractType_eq hapart.identities hentry hid] at hcompleted
    exact ⟨source, source', hsource, hsource', hcompleted⟩

/-! ### Classes of documents -/

theorem classObject_of (hget : classes.byIdentity.get i = some found) :
    classObject classes i = .generated found.1 found.2 := by
  rw [classObject, hget]

variable {source : Module} {before : List Declared} {c a r : Class} {found' : String × String}

namespace Complete

variable (h : Complete documents files classes package)

include h

theorem classObject_injective (hi : classes.byIdentity.get i = some found)
    (hj : classes.byIdentity.get j = some found')
    (heq : classObject classes i = classObject classes j) : i = j := by
  rw [classObject_of hi, classObject_of hj, Class.generated.injEq] at heq
  exact h.apart.modules i j found found' hi hj heq.1

theorem written_found (hget : classes.byIdentity.get i = some found)
    (hj : j ∈ writtenTypes documents i) : ∃ found', classes.byIdentity.get j = some found' := by
  obtain ⟨_, _, _, _, hcompleted⟩ := h.own i found hget
  obtain ⟨found', hfound', _⟩ := hcompleted.found j hj
  exact ⟨found', hfound'⟩

theorem resolve_written (hget : classes.byIdentity.get i = some found)
    (hpackage : package.get (path found.1) = some source) (hj : j ∈ writtenTypes documents i)
    (hbefore : ∀ one ∈ before, one ∈ source.declared) :
    source.resolve found.1 before (classes.name j) = classObject classes j := by
  obtain ⟨original, completed, horiginal, hcompleted, hcomplete⟩ := h.own i found hget
  obtain rfl : source = completed := Option.some.inj (hpackage.symm.trans hcompleted)
  obtain ⟨found', hfound', hbound⟩ := hcomplete.found j hj
  obtain ⟨habove, habstract⟩ := writtenTypes_above hj
  have hfree := h.apart.free i j found found' original hget hfound' habove habstract horiginal
  rw [h.name j found' hfound', classObject_of hfound']
  refine resolve_bound (fun hmem => ?_) hbound fun d hd => ?_
  · obtain ⟨one, hone, hname⟩ := List.mem_map.1 hmem
    have hnames : found'.2 ∈ source.names := List.mem_map.2 ⟨one, hbefore one hone, hname⟩
    exact hfree.declared (hcomplete.names ▸ hnames)
  · rcases hcomplete.bound _ hd with hd | hd | ⟨k, hk, found'', hfound'', heq⟩
    · exact hfree.imported d hd
    · exact absurd (List.mem_map_of_mem hd) hfree.helper
    · obtain ⟨habove', habstract'⟩ := writtenTypes_above hk
      obtain ⟨hname, rfl⟩ := Prod.mk.inj heq
      obtain rfl := h.apart.named i j k found' found'' habove habove' habstract habstract' hfound'
        hfound'' hname
      obtain rfl := Option.some.inj (hfound'.symm.trans hfound'')
      rfl

theorem resolve_own (hget : classes.byIdentity.get i = some found)
    (hpackage : package.get (path found.1) = some source) :
    source.resolve found.1 source.declared found.2 = classObject classes i := by
  obtain ⟨original, completed, horiginal, hcompleted, hcomplete⟩ := h.own i found hget
  obtain rfl : source = completed := Option.some.inj (hpackage.symm.trans hcompleted)
  have hnames : found.2 ∈ source.names := by
    rw [hcomplete.names]
    exact h.declared i found original hget horiginal
  rw [classObject_of hget]
  exact resolve_declared hnames

theorem resolve_abc (hget : classes.byIdentity.get i = some found)
    (hi : isAbstractType documents i = true)
    (hpackage : package.get (path found.1) = some source)
    (hbefore : ∀ one ∈ before, one ∈ source.declared) :
    source.resolve found.1 before "ABC" = abcClass := by
  obtain ⟨original, completed, horiginal, hcompleted, hcomplete⟩ := h.own i found hget
  obtain rfl : source = completed := Option.some.inj (hpackage.symm.trans hcompleted)
  obtain ⟨hdeclared, himported⟩ := h.apart.standard i found original hi hget horiginal
  refine resolve_bound (fun hmem => ?_) (hcomplete.abstract hi).2 fun d hd => ?_
  · obtain ⟨one, hone, hname⟩ := List.mem_map.1 hmem
    have hnames : "ABC" ∈ source.names := List.mem_map.2 ⟨one, hbefore one hone, hname⟩
    exact hdeclared (hcomplete.names ▸ hnames)
  · rcases hcomplete.bound _ hd with hd | hd | ⟨k, hk, found', hfound', heq⟩
    · exact himported d hd
    · simpa [helpers] using hd
    · obtain ⟨habove, habstract⟩ := writtenTypes_above hk
      have hfree := h.apart.free i k found found' original hget hfound' habove habstract horiginal
      have hname : "ABC" = found'.2 := (Prod.mk.inj heq).1
      exact absurd (by simp [← hname, helpers]) hfree.helper

theorem bases_abstract (hget : classes.byIdentity.get i = some found)
    (hi : isAbstractType documents i = true) :
    basesOf library package (classObject classes i) =
      (abstractParents documents i).map (classObject classes) ++ [abcClass] := by
  obtain ⟨original, source, horiginal, hsource, hcomplete⟩ := h.own i found hget
  obtain ⟨⟨st, hst, hbases⟩, _⟩ := hcomplete.abstract hi
  have hwritten : writtenTypes documents i = abstractParents documents i := if_pos hi
  have hbefore : ∀ one ∈ source.declared.takeWhile fun one => !one.isClassNamed found.2,
      one ∈ source.declared := fun one hone => (List.takeWhile_sublist _).subset hone
  have hne : st.bases ≠ [] := by rw [hbases]; simp
  rw [classObject_of hget]
  simp only [basesOf, hsource, hst, if_neg hne]
  rw [hbases, List.map_append, List.map_map, hwritten, List.map_singleton,
    h.resolve_abc hget hi hsource hbefore]
  congr 1
  exact List.map_congr_left fun p hp =>
    h.resolve_written hget hsource (hwritten ▸ hp) hbefore

theorem base_original {module name : String} {st : Declared} {base : String}
    (hsource : package.get (path module) = some source)
    (hst : source.declared.find? (Declared.isClassNamed name) = some st) (hbase : base ∈ st.bases)
    (hj : classes.byIdentity.get j = some found')
    (hresolve : source.resolve module before base = classObject classes j) :
    ∃ i, isAbstractType documents i = true ∧ classes.byIdentity.get i = some (module, name) := by
  rw [classObject_of hj] at hresolve
  have hnamed := (isClassNamed_iff.1 (List.find?_some hst)).2
  have hmem := List.mem_of_find?_eq_some hst
  by_cases hmodule : ∃ i found, classes.byIdentity.get i = some found ∧ found.1 = module
  · obtain ⟨i, found, hget, rfl⟩ := hmodule
    obtain ⟨original, completed, horiginal, hcompleted, hcomplete⟩ := h.own i found hget
    obtain rfl : source = completed := Option.some.inj (hsource.symm.trans hcompleted)
    rcases hcomplete.bases st hmem with ⟨hi, hname⟩ | ⟨st', hst', heq⟩
    · refine ⟨i, hi, ?_⟩
      rw [hget, ← hnamed, hname]
    · exfalso
      rw [heq] at hbase
      obtain ⟨hdocument, himport⟩ := h.apart.flat found.1 original st' base horiginal hst' hbase
      rcases resolve_cases source found.1 before base with ⟨_, hcase⟩ | hcase | hcase
      · rw [hcase, Class.generated.injEq] at hresolve
        exact hdocument j (by rw [hj, hresolve.1, hresolve.2])
      · rw [hresolve] at hcase
        rcases hcomplete.bound _ hcase with hb | hb | ⟨k, hk, found'', hfound'', heq'⟩
        · exact himport _ _ hb
        · simp [helpers, abcClass] at hb
        · obtain ⟨habove, habstract⟩ := writtenTypes_above hk
          have hfree := h.apart.free i k found found'' original hget hfound'' habove habstract
            horiginal
          exact hfree.bases st' hst' ((Prod.mk.inj heq').1 ▸ hbase)
      · rw [hcase] at hresolve
        simp at hresolve
  · exfalso
    rw [h.others module fun i found hget heq => hmodule ⟨i, found, hget, heq⟩] at hsource
    obtain ⟨hdocument, himport⟩ := h.apart.flat module source st base hsource hmem hbase
    rcases resolve_cases source module before base with ⟨_, hcase⟩ | hcase | hcase
    · rw [hcase, Class.generated.injEq] at hresolve
      exact hdocument j (by rw [hj, hresolve.1, hresolve.2])
    · rw [hresolve] at hcase
      exact himport _ _ hcase
    · rw [hcase] at hresolve
      simp at hresolve

theorem mem_bases (hj : classes.byIdentity.get j = some found')
    (hmem : classObject classes j ∈ basesOf library package c) :
    ∃ i, (∃ found, classes.byIdentity.get i = some found) ∧ c = classObject classes i ∧
      j ∈ abstractParents documents i := by
  have hgenerated := classObject_of hj
  cases c with
  | external module name =>
    rw [basesOf, hgenerated] at hmem
    split at hmem
    · simp [objectClass] at hmem
    · split at hmem
      · simp at hmem
      · simp at hmem
  | generated module name =>
    have hstatement : ∃ i, isAbstractType documents i = true ∧
        classes.byIdentity.get i = some (module, name) := by
      have hlist := hmem
      rw [basesOf] at hlist
      split at hlist
      · simp at hlist
      · rename_i source hsource
        split at hlist
        · simp at hlist
        · rename_i st hst
          split at hlist
          · rw [hgenerated] at hlist
            simp [objectClass] at hlist
          · obtain ⟨base, hbase, hresolve⟩ := List.mem_map.1 hlist
            exact h.base_original hsource hst hbase hj hresolve
    obtain ⟨i, hi, hget⟩ := hstatement
    have hclass : Class.generated module name = classObject classes i := (classObject_of hget).symm
    refine ⟨i, ⟨_, hget⟩, hclass, ?_⟩
    rw [hclass, h.bases_abstract hget hi] at hmem
    rcases List.mem_append.1 hmem with hmem | hmem
    · obtain ⟨p, hp, heq⟩ := List.mem_map.1 hmem
      have hwritten : p ∈ writtenTypes documents i := by
        rw [writtenTypes, if_pos hi]
        exact hp
      obtain ⟨found, hfound⟩ := h.written_found hget hwritten
      exact h.classObject_injective hfound hj heq ▸ hp
    · rw [hgenerated] at hmem
      simp [abcClass] at hmem

theorem registers_iff : Registers package a r ↔
    ∃ i, (∃ found, classes.byIdentity.get i = some found) ∧ isAbstractType documents i = false ∧
      ∃ j ∈ writtenTypes documents i, a = classObject classes j ∧ r = classObject classes i := by
  constructor
  · intro hregisters
    obtain ⟨module, source, hsource, pair, hpair, rfl, rfl⟩ := hregisters
    by_cases hmodule : ∃ i found, classes.byIdentity.get i = some found ∧ found.1 = module
    · obtain ⟨i, found, hget, rfl⟩ := hmodule
      obtain ⟨original, completed, horiginal, hcompleted, hcomplete⟩ := h.own i found hget
      obtain rfl : source = completed := Option.some.inj (hsource.symm.trans hcompleted)
      rw [hcomplete.registered, h.apart.unregistered _ _ horiginal, List.nil_append] at hpair
      split at hpair
      · simp at hpair
      · rename_i hi
        obtain ⟨j, hj, rfl⟩ := List.mem_map.1 hpair
        refine ⟨i, ⟨found, hget⟩, by simpa using hi, j, hj, ?_, ?_⟩
        · exact h.resolve_written hget hsource hj fun one hone => hone
        · exact h.resolve_own hget hsource
    · rw [h.others module fun i found hget heq => hmodule ⟨i, found, hget, heq⟩] at hsource
      rw [h.apart.unregistered _ _ hsource] at hpair
      simp at hpair
  · intro hex
    obtain ⟨i, ⟨found, hget⟩, hi, j, hj, rfl, rfl⟩ := hex
    obtain ⟨original, source, horiginal, hsource, hcomplete⟩ := h.own i found hget
    refine ⟨found.1, source, hsource, (classes.name j, found.2), ?_, ?_, ?_⟩
    · rw [hcomplete.registered, hi]
      exact List.mem_append_right _ (List.mem_map.2 ⟨j, hj, rfl⟩)
    · exact h.resolve_written hget hsource hj fun one hone => hone
    · exact h.resolve_own hget hsource

end Complete

end FilamentCore.PythonBackend.Refine
