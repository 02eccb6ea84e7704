import FilamentCore.Library.Succeeding
import FilamentCore.PythonBackend.Sanctioned

/-!
# What an enforced inspection lets through

Every permissive attribute of a package the inspection returns for is attributed to a
sanctioned schema node, and every import its modules start from is carried.
-/

namespace FilamentCore.PythonBackend
open Library Library.JsonSchema Library.Succeeding Syntax

/-! ### Attribution -/

/-- A node whose properties and names the class has, or a document of the set for `root`. -/
def Owns (C : Characters) (documents : List (String × Members)) (cls : ClassDef) (attr : String)
    (owner : SchemaNode) : Prop :=
  (owner ∈ declaredNodes documents ∧
      sameNames (propertyNames owner.node) (attributeNames cls) = true ∧
      ∃ n ∈ namesFor C owner.pointer owner.node, n ∈ candidateNames C cls) ∨
    (attr = "root" ∧ ∃ d ∈ documents, owner.node = d.2)

/-- The schema of the owner's property, or the owner's own for `root`. -/
def StandsFor (owner : SchemaNode) (attr : String) (target : Json) : Prop :=
  (∃ ps, lookup "properties" owner.node = some (.object ps) ∧ lookup attr ps = some target) ∨
    (attr = "root" ∧ target = .object owner.node)

def Attributed (C : Characters) (documents : List (String × Members)) (cls : ClassDef)
    (attr : String) (target : Json) : Prop :=
  ∃ owner, Owns C documents cls attr owner ∧ StandsFor owner attr target

section
variable {P : Python} {classify : Json → Bool} {documents : List (String × Members)}
  {files : List File} {cls : ClassDef} {attr module : String}

theorem narrowed_subset {es kept : List SchemaNode} (h : narrowed attr es = .ok kept) :
    kept ⊆ es := by
  induction es generalizing kept with
  | nil =>
    cases h
    exact List.Subset.refl _
  | cons e es ih =>
    rw [narrowed] at h
    obtain ⟨typed, -, h⟩ := bind_ok.1 h
    obtain ⟨rest, hr, h⟩ := bind_ok.1 h
    obtain rfl := pure_ok.1 h
    have hsub := ih hr
    cases typed with
    | true => exact List.subset_cons_of_subset _ hsub
    | false => exact List.cons_subset_cons _ hsub

theorem candidatesFor_subset {nodes found : List SchemaNode} {C : Characters}
    (h : candidatesFor C nodes cls attr = .ok found) : found ⊆ corroborated C nodes cls := by
  rw [candidatesFor] at h
  split at h
  · cases h
    exact List.Subset.refl _
  · obtain ⟨kept, hn, h⟩ := bind_ok.1 h
    obtain rfl := pure_ok.1 h
    split
    · exact List.Subset.refl _
    · exact narrowed_subset hn

theorem owns_of_corroborated {C : Characters} {owner : SchemaNode}
    (h : owner ∈ corroborated C (declaredNodes documents) cls) :
    Owns C documents cls attr owner := by
  rw [corroborated, List.mem_filter, Bool.and_eq_true, List.any_eq_true] at h
  obtain ⟨hm, hs, n, hn, hc⟩ := h
  exact .inl ⟨hm, hs, n, hn, by simpa using hc⟩

theorem rootEntry_document {owner : SchemaNode}
    (h : rootEntry classify documents module = some owner) :
    ∃ d ∈ documents, owner.node = d.2 := by
  unfold rootEntry at h
  split at h
  · next d hd =>
    cases h
    exact ⟨d, List.mem_reverse.1 (List.mem_of_find?_eq_some hd), rfl⟩
  · split at h
    · next =>
      split at h
      · rw [Option.map_eq_some_iff] at h
        obtain ⟨n, -, rfl⟩ := h
        exact ⟨_, List.mem_cons_self, rfl⟩
      · cases h
    · cases h

theorem owns_of_ownerOf {C : Characters} {found : List SchemaNode} {owner : SchemaNode}
    (hf : candidatesFor C (declaredNodes documents) cls attr = .ok found)
    (h : ownerOf classify documents found module attr = some owner) :
    Owns C documents cls attr owner := by
  unfold ownerOf at h
  split at h
  · next o =>
    cases h
    exact owns_of_corroborated (candidatesFor_subset hf List.mem_cons_self)
  · split at h
    · next hroot => exact .inr ⟨by simpa using hroot, rootEntry_document h⟩
    · cases h

theorem standsFor_of_targetOf {owner : SchemaNode} {t : Json × String}
    (h : targetOf owner attr = some t) : StandsFor owner attr t.1 := by
  have hschema : ∀ {o : Option (Json × String)},
      o = (if attr == "root" then
        some (Json.object owner.node, owner.document ++ "#" ++ owner.pointer) else none) →
      o = some t → StandsFor owner attr t.1 := by
    intro o ho hs
    rw [hs] at ho
    split at ho
    · next hroot =>
      cases ho
      exact .inr ⟨by simpa using hroot, rfl⟩
    · cases ho
  unfold targetOf at h
  dsimp only at h
  split at h
  · next ps hps =>
    split at h
    · cases h
    · next target hl =>
      cases h
      exact .inl ⟨ps, hps, hl⟩
    · exact hschema rfl h
  · exact hschema rfl h

theorem attributed_of_finding {f : Finding} {body : AnnotatedName}
    (h : findingOf P classify documents module cls body = .ok f)
    (hs : f.classification = .sanctioned) :
    ∃ target, Attributed P.toCharacters documents cls body.target target ∧
      classify target = true := by
  rw [findingOf] at h
  obtain ⟨found, hf, h⟩ := bind_ok.1 h
  obtain rfl := pure_ok.1 h
  dsimp only at hs
  cases ho : ownerOf classify documents found module body.target with
  | none => simp [ho, classified] at hs
  | some owner =>
    cases ht : targetOf owner body.target with
    | none => simp [ho, ht, classified] at hs
    | some t =>
      simp only [ho, ht, Option.bind_some, classified] at hs
      split at hs
      · next hc =>
        exact ⟨t.1, ⟨owner, owns_of_ownerOf hf ho, standsFor_of_targetOf ht⟩, hc⟩
      · cases hs

/-! ### The package -/

/-- What an inspection in `enforce` mode returns: every module inspected, every finding
sanctioned. -/
theorem enforced_cases {report : InspectionReport}
    (h : inspectGenerated P classify documents files .enforce = .ok report) {f : File}
    (hf : f ∈ files) :
    ∃ findings, inspectModule P classify documents files .enforce f = .ok findings ∧
      ∀ x ∈ findings, x.classification = .sanctioned := by
  rw [inspectGenerated] at h
  obtain ⟨inspected, hi, h⟩ := bind_ok.1 h
  have hmem : f ∈ files.insertionSort fun a b => textLe a.name b.name = true :=
    (List.mem_insertionSort _).2 hf
  obtain ⟨findings, hm, hfi⟩ := mem_of_mapM_ok hi hmem
  refine ⟨findings, hfi, fun x hx => ?_⟩
  dsimp only at h
  split at h
  · cases h
  · next hnone =>
    by_contra hs
    have hin : x ∈ inspected.flatten.insertionSort fun a b => findingLe a b = true :=
      (List.mem_insertionSort _).2 (List.mem_flatten.2 ⟨findings, hm, hx⟩)
    cases hfind : (inspected.flatten.insertionSort fun a b => findingLe a b = true).find?
        fun f => f.classification != .sanctioned with
    | none =>
      rw [List.find?_eq_none] at hfind
      exact hfind x hin (by simpa using hs)
    | some first => exact hnone first rfl hfind

theorem enforced_parts {report : InspectionReport}
    (h : inspectGenerated P classify documents files .enforce = .ok report) {f : File}
    (hf : f ∈ files) (hpy : ".py".toList.isSuffixOf f.name.toList = true) :
    ∃ body, f.body = some body ∧ (∀ s ∈ body, statementRefusal files f.name s = none) ∧
      ∀ cls ∈ classes body, ∀ b ∈ permissiveAttributes cls,
        ∃ x, findingOf P classify documents f.name cls b = .ok x ∧
          x.classification = .sanctioned := by
  obtain ⟨findings, hi, hs⟩ := enforced_cases h hf
  rw [inspectModule, if_pos hpy] at hi
  cases hb : f.body with
  | none => simp [hb] at hi
  | some body =>
    simp only [hb] at hi
    obtain ⟨u, hforM, hi⟩ := bind_ok.1 hi
    obtain ⟨perClass, hm, hi⟩ := bind_ok.1 hi
    obtain rfl := pure_ok.1 hi
    refine ⟨body, rfl, fun s hms => ?_, fun cls hcls b hbm => ?_⟩
    · have hok := forM_ok hforM s hms
      unfold checkStatement at hok
      cases hr : statementRefusal files f.name s with
      | none => rfl
      | some message => simp [hr] at hok
    · obtain ⟨xs, hxs, hc⟩ := mem_of_mapM_ok hm hcls
      obtain ⟨x, hx, hfx⟩ := mem_of_mapM_ok hc hbm
      exact ⟨x, hfx, hs x (List.mem_flatten.2 ⟨xs, hxs, hx⟩)⟩

theorem carried_of_statement {s : Syntax} (h : statementRefusal files module s = none) :
    permittedForm s = true ∧ ∀ root ∈ importRoots s, carried files root = true := by
  unfold statementRefusal at h
  split at h
  · next hp =>
    refine ⟨hp, fun root hr => ?_⟩
    rw [Option.map_eq_none_iff, List.find?_eq_none] at h
    simpa using h root hr
  · cases h

end

/-- An inspection that returns lets through the attributes of sanctioned nodes, and modules of
the permitted forms whose imports are carried. -/
theorem inspectGenerated_enforced (V : Vocabulary) (P : Python)
    (documents : List (String × Members)) (files : List File) (report : InspectionReport)
    (h : inspectGenerated P unconstrained documents files .enforce = .ok report) :
    ∀ f ∈ files, ".py".toList.isSuffixOf f.name.toList = true →
      ∃ body, f.body = some body ∧
        (∀ cls ∈ classes body, ∀ b ∈ permissiveAttributes cls,
          ∃ target, Attributed P.toCharacters documents cls b.target target ∧
            Sanctioned V target) ∧
        ∀ s ∈ body, permittedForm s = true ∧ ∀ root ∈ importRoots s, carried files root = true := by
  intro f hf hpy
  obtain ⟨body, hb, hstatements, hattributes⟩ := enforced_parts h hf hpy
  refine ⟨body, hb, fun cls hcls b hbm => ?_, fun s hs => carried_of_statement (hstatements s hs)⟩
  obtain ⟨x, hx, hsanctioned⟩ := hattributes cls hcls b hbm
  obtain ⟨target, hat, hu⟩ := attributed_of_finding hx hsanctioned
  exact ⟨target, hat, sanctioned_of_unconstrained target hu⟩

/-! ### Mappings that refuse objects -/

/-- Objects without a member, objects of objects, and the object without members. -/
def sampleProperties : Members :=
  [("extra", .object [("type", .str "object"),
      ("not", .object [("required", .array [.str "forbidden"])])]),
    ("index", .object [("type", .str "object"),
      ("additionalProperties", .object [("type", .str "object")])]),
    ("empty", .object [("type", .str "object"), ("maxProperties", .integer 0)])]

def sampleDocument : Members :=
  [("title", .str "Doc"), ("type", .str "object"), ("properties", .object sampleProperties)]

def sampleDocuments : List (String × Members) := [("doc.json", sampleDocument)]

def mappingOfAny : Syntax := .subscript (.name "dict") (.other "Tuple" 6 [.name "str", .name "Any"])

/-- A class that imports a module of its own, and maps to any value. -/
def sampleClass : List Syntax :=
  [.importNames 5 ["os"], .annAssign 6 4 (.name "extra") mappingOfAny [],
    .annAssign 7 4 (.name "index") mappingOfAny [], .annAssign 8 4 (.name "empty") mappingOfAny []]

def sampleBody : List Syntax :=
  [.importFrom 1 (some "typing") 0, .importFrom 2 (some "pydantic") 0,
    .classDef 4 "Doc" [.name "BaseModel"] sampleClass []]

def sampleFiles : List File := [⟨"doc.py", some sampleBody⟩]

def samplePython : Python := ⟨⟨Char.isDigit, Char.isDigit⟩, fun _ => "dict[str, Any]"⟩

def sampleFinding (attr : String) (line : ℕ) : Finding :=
  ⟨"doc.py", "Doc", attr, "dict[str, Any]", line, 4, some ("doc.json#/properties/" ++ attr),
    .sanctioned, none⟩

def sampleReport : InspectionReport :=
  ⟨[sampleFinding "extra" 6, sampleFinding "index" 7, sampleFinding "empty" 8], []⟩

theorem inspect_sample : inspectGenerated samplePython unconstrained sampleDocuments sampleFiles
    .enforce = .ok sampleReport := by
  decide +kernel

def sampleVocabulary : Vocabulary := ⟨fun _ _ => false, fun _ _ _ => accept⟩

theorem inspectGenerated_enforced_sample : sampleFiles ≠ [] ∧
    ∀ f ∈ sampleFiles, ".py".toList.isSuffixOf f.name.toList = true →
      ∃ body, f.body = some body ∧
        (∀ cls ∈ classes body, ∀ b ∈ permissiveAttributes cls,
          ∃ target, Attributed samplePython.toCharacters sampleDocuments cls b.target target ∧
            Sanctioned sampleVocabulary target) ∧
        ∀ s ∈ body, permittedForm s = true ∧
          ∀ root ∈ importRoots s, carried sampleFiles root = true :=
  ⟨List.cons_ne_nil _ _, inspectGenerated_enforced sampleVocabulary samplePython sampleDocuments
    sampleFiles sampleReport inspect_sample⟩

/-- A schema a permissive annotation is exactly true to. -/
inductive Lossless (V : Vocabulary) : Json → Prop
  | everything {t : Json} (h : ∀ v, Accepts V t v) : Lossless V t
  | everyObject {node : Members} (ht : typedObject node = true)
      (h : ∀ v, v.isObject = true → Accepts V (.object node) v) : Lossless V (.object node)
  | union {node : Members} {key : String} {branches : List Json} {t : Json}
      (hk : key = "oneOf" ∨ key = "anyOf") (hl : lookup key node = some (.array branches))
      (hm : t ∈ branches) (h : Lossless V t) : Lossless V (.object node)

theorem not_lossless {V : Vocabulary} {node : Members} {v : Json} (hv : v.isObject = true)
    (hn : ¬ Accepts V (.object node) v) (hone : lookup "oneOf" node = none)
    (hany : lookup "anyOf" node = none) : ¬ Lossless V (.object node) := by
  intro h
  cases h with
  | everything h => exact hn (h v)
  | everyObject ht h => exact hn (h v hv)
  | union hk hl hm h =>
    rcases hk with rfl | rfl
    · rw [hone] at hl
      cases hl
    · rw [hany] at hl
      cases hl

theorem attributed_sample {cls : ClassDef} {attr : String} {target : Json} (hr : attr ≠ "root")
    (h : Attributed samplePython.toCharacters sampleDocuments cls attr target) :
    lookup attr sampleProperties = some target := by
  obtain ⟨owner, ho, hs⟩ := h
  have hdeclared : declaredNodes sampleDocuments = [⟨"doc.json", "", sampleDocument⟩] := rfl
  rcases ho with ⟨hm, -⟩ | ⟨hroot, -⟩
  · rw [hdeclared, List.mem_singleton] at hm
    subst hm
    rcases hs with ⟨ps, hps, ht⟩ | ⟨hroot, -⟩
    · have hsample : lookup "properties" sampleDocument = some (.object sampleProperties) := rfl
      rw [hsample, Option.some.injEq, Json.object.injEq] at hps
      rwa [← hps] at ht
    · exact absurd hroot hr
  · exact absurd hroot hr

theorem sample_lossy {attr : String} {target : Json} (ha : attr ∈ sampleProperties.map Prod.fst)
    (ht : lookup attr sampleProperties = some target) : ¬ Lossless sampleVocabulary target := by
  have hrefuses : ∀ {s v : Json}, (check sampleVocabulary s v).isSome = false →
      ¬ Accepts sampleVocabulary s v := by
    intro s v h ha
    rw [Accepts, h] at ha
    cases ha
  simp only [sampleProperties, List.map_cons, List.map_nil, List.mem_cons, List.not_mem_nil,
    or_false] at ha
  rcases ha with rfl | rfl | rfl
  · obtain rfl := Option.some.inj ht
    exact not_lossless (v := .object [("forbidden", .null)]) rfl (hrefuses (by decide +kernel))
      rfl rfl
  · obtain rfl := Option.some.inj ht
    exact not_lossless (v := .object [("key", .null)]) rfl (hrefuses (by decide +kernel)) rfl rfl
  · obtain rfl := Option.some.inj ht
    exact not_lossless (v := .object [("key", .null)]) rfl (hrefuses (by decide +kernel)) rfl rfl

theorem inspectGenerated_lossy :
    inspectGenerated samplePython unconstrained sampleDocuments sampleFiles .enforce =
        .ok sampleReport ∧
      (∃ cls ∈ classes sampleBody, (permissiveAttributes cls).length = 3 ∧
        ∀ b ∈ permissiveAttributes cls, ∀ target,
          Attributed samplePython.toCharacters sampleDocuments cls b.target target →
            ¬ Lossless sampleVocabulary target) ∧
      ∃ s ∈ (levelsOf sampleBody).flatten, ∃ root ∈ importRoots s,
        carried sampleFiles root = false := by
  have hclasses : classes sampleBody = [⟨"Doc", sampleClass⟩] := rfl
  have himport : Syntax.importNames 5 ["os"] ∈ (levelsOf sampleBody).flatten := by
    simp [levelsOf, levels, merge, sampleBody, sampleClass]
  refine ⟨inspect_sample, ⟨_, by rw [hclasses]; exact List.mem_cons_self, by decide +kernel,
    fun b hb target ht => ?_⟩, _, himport, "os", ?_, by decide +kernel⟩
  · have hb' : b.target ∈ sampleProperties.map Prod.fst := by
      have hin := (List.mem_filter.1 hb).1
      simp only [sampleClass, List.filterMap_cons, annotated, List.filterMap_nil, List.mem_cons,
        List.not_mem_nil, or_false] at hin
      rcases hin with rfl | rfl | rfl
      · decide
      · decide
      · decide
    have hr : b.target ≠ "root" := by
      intro hroot
      rw [hroot] at hb'
      exact absurd hb' (by decide)
    exact sample_lossy hb' (attributed_sample hr ht)
  · simp [importRoots, importRoot]

end FilamentCore.PythonBackend
