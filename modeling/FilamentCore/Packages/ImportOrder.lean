import FilamentCore.Packages.SettledRun

/-!
# Resolution and the order of imports

Two requests that differ in the order of `imports` arrays only. Where both runs settle
they end in the same packages, the same imported exports and the same diagnostic codes:
the manifests a settled run has behind it are a function of the set of imports.
-/

namespace FilamentCore.Packages
open FilamentCore.Compiler FilamentCore.Library

/-! ### Reordered requests -/

def Manifest.bare (m : Manifest) : Manifest := { m with imports := [] }

/-- `m'` is `m` with its imports in another order. -/
structure Manifest.Reordered (m m' : Manifest) : Prop where
  imports : m.imports.Perm m'.imports
  bare : m.bare = m'.bare

def Entry.bare (e : Entry) : Entry := { e with manifest := e.manifest.bare }

structure Entry.Reordered (e e' : Entry) : Prop where
  imports : e.manifest.imports.Perm e'.manifest.imports
  bare : e.bare = e'.bare

inductive Offer.Reordered : Offer → Offer → Prop where
  | escapes (name message : String) : Reordered (.escapes name message) (.escapes name message)
  | rejected (packageRoot : String) (diagnostics : List Diagnostic) :
    Reordered (.rejected packageRoot diagnostics) (.rejected packageRoot diagnostics)
  | readable (packageRoot : String) {m m' : Manifest} : m.Reordered m' →
    Reordered (.readable packageRoot m) (.readable packageRoot m')

/-- Both requests offer the same manifests, up to the order of their imports. -/
structure Request.Reordered (r r' : Request) : Prop where
  host : r.host = r'.host
  packageRoot : r.packageRoot = r'.packageRoot
  profileName : r.profileName = r'.profileName
  limits : r.limits = r'.limits
  root : r.root.Reordered r'.root
  searchPath : List.Forall₂ (List.Forall₂ Offer.Reordered) r.searchPath r'.searchPath

namespace Entry.Reordered

variable {e e' : Entry} (h : e.Reordered e')
include h

theorem identity : e.identity = e'.identity := congrArg (·.identity) h.bare
theorem version : e.version = e'.version := congrArg (·.version) h.bare
theorem order : e.order = e'.order := congrArg (·.order) h.bare

theorem exports : e.manifest.exports = e'.manifest.exports := by
  have hbare := congrArg (·.manifest.exports) h.bare
  exact hbare

theorem profiles : e.manifest.profiles = e'.manifest.profiles := by
  have hbare := congrArg (·.manifest.profiles) h.bare
  exact hbare

end Entry.Reordered

theorem rootEntry_reordered {r r' : Request} (h : r.Reordered r') :
    (rootEntry r).Reordered (rootEntry r') := by
  refine ⟨h.root.imports, ?_⟩
  simp only [Entry.bare, rootEntry, h.packageRoot, h.root.bare]

/-! ### Reordered candidates -/

/-- Both discoveries file the same candidates, up to the order of their imports. -/
structure Discovery.Reordered (d d' : Discovery) : Prop where
  candidates : d.candidates.Related Entry.Reordered d'.candidates
  rejected : d.rejected = d'.rejected
  diagnostics : d.diagnostics = d'.diagnostics

theorem discoverOffer_reordered (order : ℕ) {d d' : Discovery} (h : d.Reordered d')
    {o o' : Offer} (ho : o.Reordered o') :
    (discoverOffer order d o).Reordered (discoverOffer order d' o') := by
  cases ho with
  | escapes name message =>
    exact ⟨h.candidates, h.rejected, by simp [discoverOffer, h.diagnostics]⟩
  | rejected packageRoot diagnostics =>
    exact ⟨h.candidates, by simp [discoverOffer, h.rejected], h.diagnostics⟩
  | @readable packageRoot m m' hm =>
    have hkey : candidateKey m.bare = candidateKey m'.bare := by rw [hm.bare]
    have hentry : Entry.Reordered ⟨order, packageRoot, m⟩ ⟨order, packageRoot, m'⟩ :=
      ⟨hm.imports, by simp only [Entry.bare, hm.bare]⟩
    unfold discoverOffer
    dsimp only
    rw [show candidateKey m = candidateKey m' from hkey]
    have hget := h.candidates.get (candidateKey m')
    cases h₁ : d.candidates.get (candidateKey m') with
    | some e =>
      cases h₂ : d'.candidates.get (candidateKey m') with
      | some e' => exact h
      | none =>
        rw [h₁, h₂] at hget
        cases hget
    | none =>
      cases h₂ : d'.candidates.get (candidateKey m') with
      | some e' =>
        rw [h₁, h₂] at hget
        cases hget
      | none => exact ⟨h.candidates.set hentry _, h.rejected, h.diagnostics⟩

theorem discoverCandidates_reordered {r r' : Request} (h : r.Reordered r') :
    (discoverCandidates r.searchPath).Reordered (discoverCandidates r'.searchPath) := by
  have hdir (order : ℕ) : ∀ {os os' : List Offer}, List.Forall₂ Offer.Reordered os os' →
      ∀ {d d' : Discovery}, d.Reordered d' →
        (os.foldl (discoverOffer order) d).Reordered (os'.foldl (discoverOffer order) d') := by
    intro os os' hos
    induction hos with
    | nil => exact fun hd => hd
    | cons ho _ ih => exact fun hd => ih (discoverOffer_reordered order hd ho)
  have hdirs : ∀ {dirs dirs' : List (List Offer)},
      List.Forall₂ (List.Forall₂ Offer.Reordered) dirs dirs' → ∀ (n : ℕ) {d d' : Discovery},
        d.Reordered d' →
        ((dirs.zipIdx n).foldl (fun d dir => dir.1.foldl (discoverOffer dir.2) d) d).Reordered
          ((dirs'.zipIdx n).foldl (fun d dir => dir.1.foldl (discoverOffer dir.2) d) d') := by
    intro dirs dirs' hdirs
    induction hdirs with
    | nil => exact fun _ _ _ hd => hd
    | cons ho _ ih => exact fun n _ _ hd => ih (n + 1) (hdir n ho hd)
  exact hdirs h.searchPath 0 ⟨List.Forall₂.nil, rfl, rfl⟩

theorem entryBefore_reordered {l l' r r' : Entry} (hl : l.Reordered l') (hr : r.Reordered r') :
    entryBefore l r = entryBefore l' r' := by
  simp only [entryBefore, hl.version, hr.version, hl.order, hr.order]

theorem insertionSort_reordered {es es' : List Entry} (h : List.Forall₂ Entry.Reordered es es') :
    List.Forall₂ Entry.Reordered (es.insertionSort fun l r => entryBefore l r = true)
      (es'.insertionSort fun l r => entryBefore l r = true) := by
  have hinsert {e e' : Entry} (he : e.Reordered e') : ∀ {es es' : List Entry},
      List.Forall₂ Entry.Reordered es es' → List.Forall₂ Entry.Reordered
        (es.orderedInsert (fun l r => entryBefore l r = true) e)
        (es'.orderedInsert (fun l r => entryBefore l r = true) e') := by
    intro es es' hes
    induction hes with
    | nil => exact .cons he .nil
    | cons hb hes ih =>
      simp only [List.orderedInsert_cons, entryBefore_reordered he hb]
      split
      · exact .cons he (.cons hb hes)
      · exact .cons hb ih
  induction h with
  | nil => exact .nil
  | cons he _ ih =>
    simp only [List.insertionSort_cons]
    exact hinsert he ih

theorem offeredFor_reordered {r r' : Request} (h : r.Reordered r') (id : String) :
    List.Forall₂ Entry.Reordered (offeredFor r id) (offeredFor r' id) := by
  unfold offeredFor
  rw [byIdentity_eq, byIdentity_eq]
  refine insertionSort_reordered (List.rel_filter ?_ (discoverCandidates_reordered h).candidates.values)
  intro e e' he
  simp [he.identity]

/-! ### What reordered imports ask for -/

/-- The same manifests, up to the order of their imports. -/
def SameEntries (es es' : List Entry) : Prop :=
  (∀ e ∈ es, ∃ e' ∈ es', e.Reordered e') ∧ ∀ e' ∈ es', ∃ e ∈ es, e.Reordered e'

theorem SameEntries.asks_right {es es' : List Entry} (h : SameEntries es es') {e : Entry}
    {i : Import} (hm : (e, i) ∈ asks es) : ∃ e', (e', i) ∈ asks es' ∧ e.Reordered e' := by
  obtain ⟨he, hi⟩ := (mem_asks _ e i).1 hm
  obtain ⟨e', he', hr⟩ := h.1 e he
  exact ⟨e', (mem_asks _ e' i).2 ⟨he', hr.imports.mem_iff.1 hi⟩, hr⟩

theorem SameEntries.asks_left {es es' : List Entry} (h : SameEntries es es') {e' : Entry}
    {i : Import} (hm : (e', i) ∈ asks es') : ∃ e, (e, i) ∈ asks es ∧ e.Reordered e' := by
  obtain ⟨he, hi⟩ := (mem_asks _ e' i).1 hm
  obtain ⟨e, he', hr⟩ := h.2 e' he
  exact ⟨e, (mem_asks _ e i).2 ⟨he', hr.imports.mem_iff.2 hi⟩, hr⟩

theorem SameEntries.exists_ask {es es' : List Entry} (h : SameEntries es es')
    (Q : String → Import → Prop) :
    (∃ a ∈ asks es, Q a.1.identity a.2) ↔ ∃ a ∈ asks es', Q a.1.identity a.2 := by
  constructor
  · rintro ⟨⟨e, i⟩, hm, hq⟩
    obtain ⟨e', hm', hr⟩ := h.asks_right hm
    exact ⟨(e', i), hm', hr.identity ▸ hq⟩
  · rintro ⟨⟨e', i⟩, hm, hq⟩
    obtain ⟨e, hm', hr⟩ := h.asks_left hm
    exact ⟨(e, i), hm', hr.identity ▸ hq⟩

theorem SameEntries.mem_constraintsAsked {es es' : List Entry} (h : SameEntries es es')
    (id : String) (c : Constraint) :
    c ∈ constraintsAsked (asks es) id ↔ c ∈ constraintsAsked (asks es') id := by
  rw [Packages.mem_constraintsAsked, Packages.mem_constraintsAsked]
  exact h.exists_ask fun _ i => i.packageIdentity = id ∧ parseConstraint i.versionConstraint = some c

section Alike

variable {grouped grouped' : String → List Entry}
  (halike : ∀ id, List.Forall₂ Entry.Reordered (grouped id) (grouped' id))
include halike

theorem satisfiable_alike (id : String) (c : Constraint) :
    satisfiable grouped id c = satisfiable grouped' id c := by
  have hany {es es' : List Entry} (h : List.Forall₂ Entry.Reordered es es') :
      (es.any fun e => satisfies e.version c) = es'.any fun e => satisfies e.version c := by
    induction h with
    | nil => rfl
    | cons he _ ih => simp only [List.any_cons, he.version, ih]
  exact hany (halike id)

theorem importCode_alike (i : Import) : importCode grouped i = importCode grouped' i := by
  have hnil : grouped i.packageIdentity = [] ↔ grouped' i.packageIdentity = [] := by
    rw [← List.length_eq_zero_iff, (halike i.packageIdentity).length_eq, List.length_eq_zero_iff]
  unfold importCode
  simp only [hnil, satisfiable_alike halike]

theorem mem_wanted_alike {es es' : List Entry} (h : SameEntries es es') (id : String)
    (c : Constraint) :
    c ∈ wanted grouped (asks es) id ↔ c ∈ wanted grouped' (asks es') id := by
  unfold wanted
  rw [List.mem_filter, List.mem_filter, h.mem_constraintsAsked, satisfiable_alike halike]

theorem choice_alike {cs cs' : List Constraint} (hcs : ∀ c, c ∈ cs ↔ c ∈ cs') (id : String) :
    Option.Rel Entry.Reordered (choice grouped cs id) (choice grouped' cs' id) := by
  have hfilter := List.rel_filter (p := fun e : Entry => cs.all fun c => satisfies e.version c)
    (q := fun e : Entry => cs'.all fun c => satisfies e.version c)
    (fun e e' (he : e.Reordered e') => by simp [he.version, hcs]) (halike id)
  unfold choice
  revert hfilter
  generalize (grouped id).filter _ = es
  generalize (grouped' id).filter _ = es'
  intro hfilter
  cases hfilter with
  | nil => exact .none
  | cons he _ => exact .some he

variable {root root' : Entry} {P P' : List Entry} {w w' : Worklist}

theorem Firm.selected_alike (hroot : root.Reordered root')
    (hf : Firm root grouped (asks P) P w) (hf' : Firm root' grouped' (asks P') P' w')
    (h : SameEntries P P') (id : String) :
    Option.Rel Entry.Reordered (w.selected.get id) (w'.selected.get id) := by
  by_cases hid : id = root.identity
  · have hid' : id = root'.identity := hid.trans hroot.identity
    have hsel' := hf'.rooted
    rw [← hid'] at hsel'
    rw [hid] at hsel' ⊢
    rw [hf.rooted, hsel']
    exact .some hroot
  · rw [hf.selected id hid, hf'.selected id (fun h => hid (h.trans hroot.identity.symm))]
    have hmem := mem_wanted_alike halike h id
    have hnil : wanted grouped (asks P) id = [] ↔ wanted grouped' (asks P') id = [] := by
      simp only [List.eq_nil_iff_forall_not_mem, hmem]
    by_cases hw : wanted grouped (asks P) id = []
    · rw [if_pos hw, if_pos (hnil.1 hw)]
      exact .none
    · rw [if_neg hw, if_neg (fun h => hw (hnil.2 h))]
      exact choice_alike halike hmem id

theorem Firm.queued_alike (hroot : root.Reordered root')
    (hf : Firm root grouped (asks P) P w) (hf' : Firm root' grouped' (asks P') P' w')
    (h : SameEntries P P') : SameEntries (P ++ w.queue) (P' ++ w'.queue) := by
  have hsel := hf.selected_alike halike hroot hf' h
  constructor
  · intro e he
    have hget := hsel e.identity
    rw [(hf.queued e).1 he] at hget
    cases hs : w'.selected.get e.identity with
    | none =>
      rw [hs] at hget
      cases hget
    | some e' =>
      rw [hs] at hget
      cases hget with
      | some hr => exact ⟨e', (hf'.queued e').2 (hr.identity ▸ hs), hr⟩
  · intro e' he'
    have hget := hsel e'.identity
    rw [(hf'.queued e').1 he'] at hget
    cases hs : w.selected.get e'.identity with
    | none =>
      rw [hs] at hget
      cases hget
    | some e =>
      rw [hs] at hget
      cases hget with
      | some hr => exact ⟨e, (hf.queued e).2 (hr.identity.symm ▸ hs), hr⟩

theorem Firm.finished_alike (hroot : root.Reordered root')
    (hf : Firm root grouped (asks P) P w) (hf' : Firm root' grouped' (asks P') P' w')
    (h : SameEntries P P') (hq : w.queue = []) : w'.queue = [] := by
  refine List.eq_nil_iff_forall_not_mem.2 fun e' he' => ?_
  obtain ⟨e, he, hr⟩ := (hf.queued_alike halike hroot hf' h).2 e' (List.mem_append_right _ he')
  rw [hq, List.append_nil] at he
  obtain ⟨e'', he'', hr'⟩ := h.1 e he
  have hs := (hf'.queued e').1 (List.mem_append_right _ he')
  have hs' := (hf'.queued e'').1 (List.mem_append_left _ he'')
  rw [← hr'.identity, hr.identity, hs] at hs'
  rw [← Option.some.inj hs'] at he''
  exact List.disjoint_of_nodup_append hf'.nodup he'' he'

end Alike

/-! ### Both runs -/

section Runs

variable {r r' : Request}

/-- What two settled runs over reordered requests end in. -/
structure RunsAlike (r r' : Request) (P P' : List Entry) : Prop where
  same : SameEntries P P'
  left : Firm (rootEntry r) (offeredFor r) (asks P) P (selection r)
  right : Firm (rootEntry r') (offeredFor r') (asks P') P' (selection r')

/-- The runs get through the same manifests: what is queued behind the same manifests
is the same, and both runs get through what is queued. -/
theorem runs_alike (h : r.Reordered r') (hs : Settles r) (hs' : Settles r') :
    ∃ P P', RunsAlike r r' P P' := by
  have halike := offeredFor_reordered h
  have hroot := rootEntry_reordered h
  have hsync (n : ℕ) : ∃ P fuel w P' fuel' w', Point r P fuel w ∧ Point r' P' fuel' w' ∧
      SameEntries P P' ∧ (n ≤ P.length ∨ w.queue = []) := by
    induction n with
    | zero =>
      exact ⟨_, _, _, _, _, _, Point.start, Point.start, ⟨by simp, by simp⟩,
        Or.inl (Nat.zero_le _)⟩
    | succ n ih =>
      obtain ⟨P, fuel, w, P', fuel', w', hp, hp', hsame, hn⟩ := ih
      by_cases hq : w.queue = []
      · exact ⟨P, fuel, w, P', fuel', w', hp, hp', hsame, Or.inr hq⟩
      obtain ⟨f₁, w₁, hp₁, -⟩ := hp.drain hs w.queue [] (by simp)
      obtain ⟨f₁', w₁', hp₁', -⟩ := hp'.drain hs' w'.queue [] (by simp)
      refine ⟨_, f₁, w₁, _, f₁', w₁', hp₁, hp₁',
        (hp.firm hs).queued_alike halike hroot (hp'.firm hs') hsame, Or.inl ?_⟩
      have hpos := List.length_pos_of_ne_nil hq
      rw [List.length_append]
      have := hn.resolve_right hq
      omega
  obtain ⟨P, fuel, w, P', fuel', w', hp, hp', hsame, hn⟩ :=
    hsync ((discoverCandidates r.searchPath).candidates.size + 2)
  have hq : w.queue = [] := by
    refine hn.resolve_left fun hle => ?_
    have := (hp.rest hs).left
    omega
  have hq' := (hp.firm hs).finished_alike halike hroot (hp'.firm hs') hsame hq
  exact ⟨P, P', hsame, hp.finished hs hq ▸ hp.firm hs, hp'.finished hs' hq' ▸ hp'.firm hs'⟩

/-! ### What the checks read -/

/-- The request as the checks after the selection read it. -/
def Request.bare (r : Request) : Request := { r with root := r.root.bare, searchPath := [] }

theorem Request.Reordered.bare_eq (h : r.Reordered r') : r.bare = r'.bare := by
  simp only [Request.bare, h.host, h.packageRoot, h.profileName, h.limits, h.root.bare]

/-- What the profile and mapping checks raise. -/
def profileDiagnostics (request : Request) : List Diagnostic :=
  (selectProfile request (rootEntry request)).2 ++
    match (selectProfile request (rootEntry request)).1 with
    | none => []
    | some profile => (checkProfile request (rootEntry request) profile).2

theorem profileDiagnostics_bare (request : Request) :
    profileDiagnostics request = profileDiagnostics request.bare := rfl

theorem resolution_diagnostics (request : Request) :
    (resolvePackageGraph request).diagnostics =
      (discoverCandidates request.searchPath).diagnostics ++ (selection request).diagnostics ++
        conflicts (selection request) ++ detectCycles (selection request).edges ++
        (checkExports (orderedSelection (selection request))).diagnostics ++
        checkImports (selection request).selected (orderedSelection (selection request)) ++
        profileDiagnostics request ++
        (orderedSelection (selection request)).flatMap fun e => (filesOf request e).2 := by
  simp only [resolvePackageGraph, profileDiagnostics, List.append_assoc]
  cases (selectProfile request (rootEntry request)).1 <;> rfl

theorem checkExports_bare (es : List Entry) : checkExports (es.map Entry.bare) = checkExports es := by
  unfold checkExports
  rw [List.foldl_map]
  rfl

theorem filesOf_bare (request : Request) (e : Entry) :
    filesOf request.bare e.bare = filesOf request e := rfl

theorem checkImport_codes {selected selected' : OrderedMap String Entry} (e e' : Entry)
    (i : Import) (n n' : ℕ)
    (h : Option.Rel Entry.Reordered (selected.get i.packageIdentity)
      (selected'.get i.packageIdentity)) :
    (checkImport selected e (i, n)).map (·.code) =
      (checkImport selected' e' (i, n')).map (·.code) := by
  have hname (t t' : Entry) (ht : t.Reordered t') (name : String) :
      (checkImportedName e t n i name).map (·.code) =
        (checkImportedName e' t' n' i name).map (·.code) := by
    have hexports : declaredExport t name = declaredExport t' name := by
      unfold declaredExport
      rw [ht.exports]
    unfold checkImportedName
    dsimp only
    rw [hexports]
    cases declaredExport t' name with
    | none => rfl
    | some exported => dsimp only; split <;> rfl
  have hcapability (t t' : Entry) (ht : t.Reordered t') (capability : String) :
      (checkCapability e t n i capability).map (·.code) =
        (checkCapability e' t' n' i capability).map (·.code) := by
    unfold checkCapability
    rw [ht.profiles]
    split <;> rfl
  unfold checkImport
  dsimp only
  cases hs : selected.get i.packageIdentity with
  | none =>
    cases hs' : selected'.get i.packageIdentity with
    | none => rfl
    | some t' =>
      rw [hs, hs'] at h
      cases h
  | some t =>
    cases hs' : selected'.get i.packageIdentity with
    | none =>
      rw [hs, hs'] at h
      cases h
    | some t' =>
      rw [hs, hs'] at h
      cases h with
      | some ht =>
        simp only [List.map_append, List.map_flatMap, hname t t' ht, hcapability t t' ht]

theorem mem_conflicts_codes (w : Worklist) (c : Code) :
    c ∈ (conflicts w).map (·.code) ↔ c = .importVersionConflict ∧
      ∃ id e, w.selected.get id = some e ∧ ¬ meets ((w.required id).map (·.constraint)) e := by
  constructor
  · intro h
    obtain ⟨d, hd, rfl⟩ := List.mem_map.1 h
    obtain ⟨⟨id, list⟩, hl, hd⟩ := List.mem_flatMap.1 hd
    rw [sortByIdentity, List.mem_insertionSort] at hl
    have hget := (OrderedMap.get_eq_some_iff _ _ _).2 hl
    unfold conflictOf at hd
    cases hs : w.selected.get id with
    | none => simp [hs] at hd
    | some e =>
      simp only [hs] at hd
      split at hd
      · exact absurd hd List.not_mem_nil
      · rename_i hsat
        refine ⟨by rw [List.mem_singleton.1 hd]; rfl, id, e, hs, fun hm => hsat ?_⟩
        rw [Worklist.required, hget, Option.getD_some] at hm
        exact (satisfiesAll_iff _ _).2 hm
  · rintro ⟨rfl, id, e, hs, hm⟩
    by_contra hc
    have hnil : conflicts w = [] := by
      refine List.eq_nil_iff_forall_not_mem.2 fun d hd => hc ?_
      obtain ⟨kv, -, hd'⟩ := List.mem_flatMap.1 hd
      refine List.mem_map.2 ⟨d, hd, ?_⟩
      unfold conflictOf at hd'
      split at hd'
      · exact absurd hd' List.not_mem_nil
      · split at hd'
        · exact absurd hd' List.not_mem_nil
        · rw [List.mem_singleton.1 hd']
          rfl
    exact hm (conflicts_nil hnil hs)

/-! ### The result -/

theorem orderedSelection_bare (w : Worklist) :
    (orderedSelection w).map Entry.bare =
      sortByIdentity (·.identity) (w.selected.values.map Entry.bare) :=
  List.map_insertionSort _ _ _ _ fun _ _ _ _ => Iff.rfl

theorem sortByIdentity_congr {es es' : List Entry} (hn : (es.map (·.identity)).Nodup)
    (hn' : (es'.map (·.identity)).Nodup) (hmem : ∀ e, e ∈ es ↔ e ∈ es') :
    sortByIdentity (·.identity) es = sortByIdentity (·.identity) es' := by
  have hperm : es.Perm es' :=
    (List.perm_ext_iff_of_nodup (hn.of_map _) (hn'.of_map _)).2 hmem
  have : Std.Total fun l r : Entry => byCodePoint l.identity r.identity ≠ .gt :=
    ⟨fun l r => by
      simp only [byCodePoint_ne_gt_iff]
      exact le_total _ _⟩
  have : IsTrans Entry fun l r => byCodePoint l.identity r.identity ≠ .gt :=
    ⟨fun a b c hab hbc => by
      rw [byCodePoint_ne_gt_iff] at *
      exact hab.trans hbc⟩
  unfold sortByIdentity
  refine List.Perm.eq_of_pairwise (fun a b ha hb hab hba => ?_)
    (List.pairwise_insertionSort _ es) (List.pairwise_insertionSort _ es')
    (((List.perm_insertionSort _ es).trans hperm).trans (List.perm_insertionSort _ es').symm)
  rw [byCodePoint_ne_gt_iff] at hab hba
  have hid : a.identity = b.identity :=
    String.toList_inj.1 (codeUnits_injective (le_antisymm hab hba))
  rw [List.mem_insertionSort] at ha hb
  exact List.inj_on_of_nodup_map hn ha ((hmem b).2 hb) hid

/-- The same packages with the same versions, the same imported exports and the same
set of diagnostic codes. -/
structure SameResolution (a b : Resolution) : Prop where
  packages : a.packages.map (fun p => (p.identity, p.version)) =
    b.packages.map fun p => (p.identity, p.version)
  importedExports : a.importedExports = b.importedExports
  codes : ∀ c, c ∈ a.diagnostics.map (·.code) ↔ c ∈ b.diagnostics.map (·.code)

instance (a b : Resolution) : Decidable (SameResolution a b) :=
  decidable_of_iff (a.packages.map (fun p => (p.identity, p.version)) =
        b.packages.map (fun p => (p.identity, p.version)) ∧
      a.importedExports = b.importedExports ∧
      (a.diagnostics.map (·.code) ⊆ b.diagnostics.map (·.code) ∧
        b.diagnostics.map (·.code) ⊆ a.diagnostics.map (·.code)))
    ⟨fun h => ⟨h.1, h.2.1, fun _ => ⟨fun hc => h.2.2.1 hc, fun hc => h.2.2.2 hc⟩⟩,
      fun h => ⟨h.packages, h.importedExports, fun _ hc => (h.codes _).1 hc,
        fun _ hc => (h.codes _).2 hc⟩⟩

section Outcome

variable (h : r.Reordered r') {P P' : List Entry} (ha : RunsAlike r r' P P')
include h ha

theorem RunsAlike.selected (id : String) :
    Option.Rel Entry.Reordered ((selection r).selected.get id) ((selection r').selected.get id) :=
  ha.left.selected_alike (offeredFor_reordered h) (rootEntry_reordered h) ha.right ha.same id

theorem RunsAlike.selected_left {id : String} {e : Entry}
    (he : (selection r).selected.get id = some e) :
    ∃ e', (selection r').selected.get id = some e' ∧ e.Reordered e' := by
  have hrel := ha.selected h id
  rw [he] at hrel
  cases hs : (selection r').selected.get id with
  | none =>
    rw [hs] at hrel
    cases hrel
  | some e' =>
    rw [hs] at hrel
    cases hrel with
    | some hr => exact ⟨e', rfl, hr⟩

theorem RunsAlike.selected_right {id : String} {e' : Entry}
    (he : (selection r').selected.get id = some e') :
    ∃ e, (selection r).selected.get id = some e ∧ e.Reordered e' := by
  have hrel := ha.selected h id
  rw [he] at hrel
  cases hs : (selection r).selected.get id with
  | none =>
    rw [hs] at hrel
    cases hrel
  | some e =>
    rw [hs] at hrel
    cases hrel with
    | some hr => exact ⟨e, rfl, hr⟩

theorem RunsAlike.ordered :
    (orderedSelection (selection r)).map Entry.bare =
      (orderedSelection (selection r')).map Entry.bare := by
  rw [orderedSelection_bare, orderedSelection_bare]
  have hbare (es : List Entry) : (es.map Entry.bare).map (·.identity) = es.map (·.identity) := by
    rw [List.map_map]
    rfl
  refine sortByIdentity_congr ?_ ?_ fun b => ?_
  · rw [hbare]
    exact nodup_identities _ ha.left.home
  · rw [hbare]
    exact nodup_identities _ ha.right.home
  · simp only [List.mem_map, OrderedMap.mem_values_iff]
    constructor
    · rintro ⟨e, ⟨id, he⟩, rfl⟩
      obtain ⟨e', he', hr⟩ := ha.selected_left h he
      exact ⟨e', ⟨id, he'⟩, hr.bare.symm⟩
    · rintro ⟨e', ⟨id, he'⟩, rfl⟩
      obtain ⟨e, he, hr⟩ := ha.selected_right h he'
      exact ⟨e, ⟨id, he⟩, hr.bare⟩

theorem RunsAlike.exports : checkExports (orderedSelection (selection r)) =
    checkExports (orderedSelection (selection r')) := by
  rw [← checkExports_bare, ha.ordered h, checkExports_bare]

theorem RunsAlike.import_codes (c : Code) :
    c ∈ (selection r).diagnostics.map (·.code) ↔ c ∈ (selection r').diagnostics.map (·.code) := by
  rw [ha.left.codes, ha.right.codes, List.mem_filterMap, List.mem_filterMap]
  simp only [importCode_alike (offeredFor_reordered h)]
  exact ha.same.exists_ask fun _ i => importCode (offeredFor r') i = some c

theorem RunsAlike.conflict_codes (c : Code) :
    c ∈ (conflicts (selection r)).map (·.code) ↔
      c ∈ (conflicts (selection r')).map (·.code) := by
  rw [mem_conflicts_codes, mem_conflicts_codes]
  refine and_congr_right fun _ => ?_
  have hmeets (id : String) (e e' : Entry) (hr : e.Reordered e') :
      meets (((selection r).required id).map (·.constraint)) e ↔
        meets (((selection r').required id).map (·.constraint)) e' := by
    rw [ha.left.required, ha.right.required]
    simp only [meets, ha.same.mem_constraintsAsked, hr.version]
  constructor
  · rintro ⟨id, e, he, hm⟩
    obtain ⟨e', he', hr⟩ := ha.selected_left h he
    exact ⟨id, e', he', fun hm' => hm ((hmeets id e e' hr).2 hm')⟩
  · rintro ⟨id, e', he', hm⟩
    obtain ⟨e, he, hr⟩ := ha.selected_right h he'
    exact ⟨id, e, he, fun hm' => hm ((hmeets id e e' hr).1 hm')⟩

omit h in
theorem RunsAlike.cycle_codes (c : Code) :
    c ∈ (detectCycles (selection r).edges).map (·.code) ↔
      c ∈ (detectCycles (selection r').edges).map (·.code) := by
  have hcodes (edges : OrderedMap String (List Edge)) :
      c ∈ (detectCycles edges).map (·.code) ↔
        c = .packageCycle ∧ ∃ x, Relation.TransGen (Follows edges) x x := by
    rw [← detectCycles_ne_nil_iff]
    constructor
    · intro hc
      obtain ⟨d, hd, rfl⟩ := List.mem_map.1 hc
      exact ⟨detectCycles_code edges d hd, List.ne_nil_of_mem hd⟩
    · rintro ⟨rfl, hne⟩
      obtain ⟨d, hd⟩ := List.exists_mem_of_ne_nil _ hne
      exact List.mem_map.2 ⟨d, hd, detectCycles_code edges d hd⟩
  have hfollows : Follows (selection r).edges = Follows (selection r').edges := by
    funext a b
    rw [eq_iff_iff, ha.left.edges, ha.right.edges]
    exact ha.same.exists_ask fun importer i => importer = a ∧ i.packageIdentity = b ∧
      (parseConstraint i.versionConstraint).isSome
  rw [hcodes, hcodes, hfollows]

theorem RunsAlike.checkImports_codes (c : Code) :
    c ∈ (checkImports (selection r).selected (orderedSelection (selection r))).map (·.code) ↔
      c ∈ (checkImports (selection r').selected
        (orderedSelection (selection r'))).map (·.code) := by
  -- both sides: an import of a selected version has the code
  have hmem (q : Request) : c ∈ (checkImports (selection q).selected
      (orderedSelection (selection q))).map (·.code) ↔
      ∃ id e, (selection q).selected.get id = some e ∧ ∃ i ∈ e.manifest.imports,
        c ∈ (checkImport (selection q).selected e (i, 0)).map (·.code) := by
    have hrefl (i : Import) : Option.Rel Entry.Reordered
        ((selection q).selected.get i.packageIdentity)
        ((selection q).selected.get i.packageIdentity) := by
      cases (selection q).selected.get i.packageIdentity with
      | none => exact .none
      | some t => exact .some ⟨List.Perm.refl _, rfl⟩
    simp only [checkImports, List.map_flatMap, List.mem_flatMap, mem_orderedSelection]
    constructor
    · rintro ⟨e, ⟨id, he⟩, ⟨i, n⟩, hi, hc⟩
      refine ⟨id, e, he, i, (List.mem_zipIdx' hi).2 ▸ List.getElem_mem _, ?_⟩
      rwa [checkImport_codes e e i 0 n (hrefl i)]
    · rintro ⟨id, e, he, i, hi, hc⟩
      obtain ⟨n, hn, hget⟩ := List.getElem_of_mem hi
      refine ⟨e, ⟨id, he⟩, (i, n), List.mk_mem_zipIdx_iff_getElem?.2
        (by rw [List.getElem?_eq_getElem hn, hget]), ?_⟩
      rwa [checkImport_codes e e i n 0 (hrefl i)]
  rw [hmem, hmem]
  constructor
  · rintro ⟨id, e, he, i, hi, hc⟩
    obtain ⟨e', he', hr⟩ := ha.selected_left h he
    refine ⟨id, e', he', i, hr.imports.mem_iff.1 hi, ?_⟩
    rwa [← checkImport_codes e e' i 0 0 (ha.selected h i.packageIdentity)]
  · rintro ⟨id, e', he', i, hi, hc⟩
    obtain ⟨e, he, hr⟩ := ha.selected_right h he'
    refine ⟨id, e, he, i, hr.imports.mem_iff.2 hi, ?_⟩
    rwa [checkImport_codes e e' i 0 0 (ha.selected h i.packageIdentity)]

theorem RunsAlike.files :
    ((orderedSelection (selection r)).flatMap fun e => (filesOf r e).2) =
      (orderedSelection (selection r')).flatMap fun e => (filesOf r' e).2 := by
  have hbare (q : Request) (es : List Entry) : (es.flatMap fun e => (filesOf q e).2) =
      (es.map Entry.bare).flatMap fun e => (filesOf q.bare e).2 := by
    rw [List.flatMap_map]
    simp only [filesOf_bare]
  rw [hbare r, hbare r', ha.ordered h, h.bare_eq]

theorem RunsAlike.sameResolution :
    SameResolution (resolvePackageGraph r) (resolvePackageGraph r') := by
  refine ⟨?_, ?_, fun c => ?_⟩
  · have hbare (q : Request) : (resolvePackageGraph q).packages.map (fun p =>
        (p.identity, p.version)) = ((orderedSelection (selection q)).map Entry.bare).map
          fun e => (e.identity, e.versionText) := by
      simp only [resolvePackageGraph, List.map_map]
      rfl
    rw [hbare, hbare, ha.ordered h]
  · simp only [resolvePackageGraph, ha.exports h]
    rw [show r.root.identity = r'.root.identity from (rootEntry_reordered h).identity]
  · have hprofile : profileDiagnostics r = profileDiagnostics r' := by
      rw [profileDiagnostics_bare r, h.bare_eq, ← profileDiagnostics_bare r']
    rw [resolution_diagnostics, resolution_diagnostics]
    simp only [List.map_append, List.mem_append, ha.import_codes h, ha.conflict_codes h,
      ha.cycle_codes, ha.checkImports_codes h, ha.exports h, ha.files h,
      (discoverCandidates_reordered h).diagnostics, hprofile]

end Outcome

end Runs

/-! ### Two orders of the root's imports -/

theorem release_reordered {identity versionText : String} {imports imports' : List (String × String)}
    {semver : (parseVersion versionText).isSome = true} (h : imports.Perm imports') :
    (release identity versionText imports semver).Reordered
      (release identity versionText imports' semver) :=
  ⟨h.map _, rfl⟩

theorem bareRequest_reordered {root root' : Manifest} (h : root.Reordered root')
    (offered : List Manifest) :
    (bareRequest root offered).Reordered (bareRequest root' offered) := by
  refine ⟨rfl, rfl, rfl, rfl, h, .cons ?_ .nil⟩
  rw [List.forall₂_map_left_iff, List.forall₂_map_right_iff, List.forall₂_same]
  exact fun m _ => .readable _ ⟨List.Perm.refl _, rfl⟩

def diamondReleases : List Manifest :=
  [release "o/a" "1.2.0" [("o/c", "^1.0.0")] semver_1_2_0,
    release "o/b" "1.0.0" [("o/c", "^1.1.0"), ("o/d", "^2.0.0")] semver_1_0_0,
    release "o/c" "1.0.0" [] semver_1_0_0, release "o/c" "1.1.0" [] semver_1_1_0]

/-- `o/x` takes the latest `o/a`, which imports `o/c`; `o/b` takes the one before it. -/
def tightenedReleases : List Manifest :=
  [release "o/a" "1.0.0" [] semver_1_0_0,
    release "o/a" "1.1.0" [("o/c", "^1.0.0")] semver_1_1_0,
    release "o/b" "1.0.0" [("o/a", "1.0.0")] semver_1_0_0,
    release "o/c" "1.0.0" [] semver_1_0_0,
    release "o/x" "1.0.0" [("o/a", "^1.0.0")] semver_1_0_0]

def tightenedLast : Request :=
  bareRequest (release "o/r" "1.0.0" [("o/x", "^1.0.0"), ("o/b", "^1.0.0")] semver_1_0_0)
    tightenedReleases

def tightenedFirst : Request :=
  bareRequest (release "o/r" "1.0.0" [("o/b", "^1.0.0"), ("o/x", "^1.0.0")] semver_1_0_0)
    tightenedReleases

end FilamentCore.Packages
