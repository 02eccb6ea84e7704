import FilamentCore.Packages.Selection

/-!
# Soundness of package resolution

What a resolution without a blocking diagnostic is supposed to be, and the runs in
which it is that: those whose import rounds never put another version in the place of
a selected one. A replaced version leaves its imports in the graph; the exact
condition is that they ask for nothing the selected versions do not ask for.
-/

namespace FilamentCore.Packages
open FilamentCore.Compiler FilamentCore.Library

/-! ### The property -/

/-- `b` is imported by the package of identity `a`. -/
def Imports (packages : List Package) (a b : String) : Prop :=
  ∃ p ∈ packages, p.identity = a ∧ ∃ i ∈ p.manifest.imports, i.packageIdentity = b

/-- `id` is reached from the root through the imports of the selected versions. -/
def Reaches (request : Request) (packages : List Package) (id : String) : Prop :=
  Relation.ReflTransGen (Imports packages) request.root.identity id

/-- `e` is a candidate the search directories offer. -/
def Available (request : Request) (e : Entry) : Prop :=
  e ∈ (discoverCandidates request.searchPath).candidates.values

/-- `e` satisfies every constraint the packages put on its identity. -/
def Admissible (packages : List Package) (e : Entry) : Prop :=
  ∀ p ∈ packages, ∀ i ∈ p.manifest.imports, i.packageIdentity = e.identity →
    ∀ c, parseConstraint i.versionConstraint = some c → satisfies e.version c = true

structure Sound (request : Request) (r : Resolution) : Prop where
  reachable : ∀ id, id ∈ r.packages.map (·.identity) ↔ Reaches request r.packages id
  unique : (r.packages.map (·.identity)).Nodup
  imports : ∀ p ∈ r.packages, ∀ i ∈ p.manifest.imports,
    ∃ q ∈ r.packages, q.identity = i.packageIdentity ∧
      ∃ c, parseConstraint i.versionConstraint = some c ∧
        satisfies q.manifest.version c = true
  highest : ∀ q ∈ r.packages, q.identity ≠ request.root.identity →
    (∃ e, Available request e ∧ packageOf request e = q) ∧
      ∀ e, Available request e → e.identity = q.identity → Admissible r.packages e →
        compareVersions e.version q.manifest.version ≠ .gt
  root : ∀ q ∈ r.packages, q.identity = request.root.identity →
    q.manifest = request.root ∧ q.packageRoot = request.packageRoot

/-! ### The condition -/

/-- The rounds of manifests that the run replaced by another version. -/
def staleRounds (request : Request) : List Round :=
  (rounds request).filter fun r =>
    (selection request).selected.get r.current.identity ≠ some r.current

/-- The rounds of the selected versions. -/
def liveRounds (request : Request) : List Round :=
  (rounds request).filter fun r =>
    (selection request).selected.get r.current.identity = some r.current

/-- The root keeps its manifest and directory; and what a replaced version imports is
reached without it, and is given a version the replaced one accepts by the constraints
of the selected versions alone. -/
structure LeavesNoTrace (request : Request) : Prop where
  root : ∀ e, (selection request).selected.get request.root.identity = some e →
    e.manifest = request.root ∧ e.packageRoot = request.packageRoot
  reached : ∀ r ∈ staleRounds request,
    Reaches request (resolvePackageGraph request).packages r.target
  accepted : ∀ r ∈ staleRounds request, r.target ≠ request.root.identity →
    ∀ c, parseConstraint r.item.1.versionConstraint = some c →
      ∀ e, choice (offeredFor request) (constraintsOn (liveRounds request) r.target) r.target
        = some e → satisfies e.version c = true

/-! ### The order of candidates -/

theorem Version.key_eq {v w : Version} (h : v.key = w.key) :
    v.major = w.major ∧ v.minor = w.minor ∧ v.patch = w.patch ∧
      (v.prerelease = [] ↔ w.prerelease = []) := by
  simp only [Version.key, EmbeddingLike.apply_eq_iff_eq, Prod.mk.injEq] at h
  refine ⟨h.1, h.2.1, h.2.2.1, ?_⟩
  have hp := h.2.2.2
  unfold prereleaseKey at hp
  by_cases hv : v.prerelease = [] <;> by_cases hw : w.prerelease = [] <;> simp_all

theorem satisfies_congr {v w : Version} (h : v.key = w.key) (c : Constraint) :
    satisfies v c = satisfies w c := by
  have hcmp : compareVersions v c.version = compareVersions w c.version := by
    have hv := compareVersions_compares v c.version
    have hw := compareVersions_compares w c.version
    rw [h] at hv
    exact hv.inj hw
  obtain ⟨h₁, h₂, h₃, h₄⟩ := Version.key_eq h
  unfold satisfies
  cases c.kind with
  | exact => simp only [hcmp]
  | caret => simp only [hcmp, h₁, h₂, h₃, ne_eq, h₄]

section Order

variable {root : Entry} {pool : List Entry} {grouped : String → List Entry}

theorem choice_highest (hcand : Candidates root pool grouped) {cs : List Constraint}
    {id : String} {e e' : Entry} (h : choice grouped cs id = some e) (he' : e' ∈ grouped id)
    (hm : meets cs e') : e'.version.key ≤ e.version.key := by
  unfold choice at h
  have hs := (hcand.sorted id).filter fun e => cs.all fun c => satisfies e.version c
  have hmem : e' ∈ (grouped id).filter fun e => cs.all fun c => satisfies e.version c :=
    List.mem_filter.2 ⟨he', List.all_eq_true.2 hm⟩
  cases hl : (grouped id).filter fun e => cs.all fun c => satisfies e.version c with
  | nil => simp [hl] at h
  | cons a l =>
    rw [hl, List.head?_cons] at h
    rw [hl] at hs hmem
    rw [Option.some.inj h] at hs hmem
    rcases List.mem_cons.1 hmem with hmem | hmem
    · rw [hmem]
    · exact entryBefore_key_le ((List.pairwise_cons.1 hs).1 e' hmem)

end Order

/-! ### What a quiet run ends in -/

section Run

variable {request : Request}

theorem discoverCandidates_length (request : Request) :
    (discoverCandidates request.searchPath).candidates.values.length =
      (discoverCandidates request.searchPath).candidates.size := by
  simp [OrderedMap.values, OrderedMap.size]

theorem initial_kept (request : Request) :
    Kept (rootEntry request) (discoverCandidates request.searchPath).candidates.values
      (offeredFor request) [] [] (initialWorklist request) := by
  have hget (id : String) (e : Entry)
      (h : (initialWorklist request).selected.get id = some e) :
      id = request.root.identity ∧ e = rootEntry request := by
    simp only [initialWorklist, OrderedMap.get_set, OrderedMap.get_empty] at h
    split at h
    · rename_i hid
      exact ⟨hid, (Option.some.inj h).symm⟩
    · simp at h
  have hnot := (request_candidates request).fresh
  constructor
  · intro id
    rfl
  · intro id e h
    rw [(hget id e h).1, (hget id e h).2]
    rfl
  · exact ⟨rootEntry request, OrderedMap.get_set_self ..⟩
  · intro e he
    exact Or.inl (by simpa [initialWorklist] using he)
  · intro id e h
    rw [(hget id e h).2]
    simp [initialWorklist]
  · intro id e h hp
    rw [(hget id e h).2] at hp
    exact absurd hp hnot
  · intro e he hp
    rw [show e = rootEntry request by simpa [initialWorklist] using he] at hp
    exact absurd hp hnot
  · simp [initialWorklist]
  · intro _ r hr
    exact absurd hr List.not_mem_nil

/-- The manifests the run takes off the queue. -/
def processed (request : Request) : List Entry :=
  loopProcessed request.limits (offeredFor request)
    (discoverCandidates request.searchPath).rejected
    ((discoverCandidates request.searchPath).candidates.size + 1) (initialWorklist request)

theorem selection_kept
    (h : limitReached request.limits (rootEntry request) ∉ (selection request).diagnostics) :
    Kept (rootEntry request) (discoverCandidates request.searchPath).candidates.values
        (offeredFor request) (rounds request) (processed request) (selection request) ∧
      (selection request).queue = [] := by
  have hcand := request_candidates request
  have hrun := (initial_kept request).selectionLoop request.limits
    (discoverCandidates request.searchPath).rejected hcand
    ((discoverCandidates request.searchPath).candidates.size + 1)
  have hend := (initial_kept request).queue_empty request.limits
    (discoverCandidates request.searchPath).rejected hcand
    ((discoverCandidates request.searchPath).candidates.size + 1)
    (by rw [discoverCandidates_length]; simp)
  exact ⟨hrun.resolve_right h, hend.resolve_right h⟩

theorem exists_round {e : Entry} (he : e ∈ processed request) {i : Import}
    (hi : i ∈ e.manifest.imports) : ∃ r ∈ rounds request, r.current = e ∧ r.item.1 = i :=
  (loopRounds_mem _ _).2 e he i hi

theorem round_item {r : Round} (hr : r ∈ rounds request) :
    r.item.1 ∈ r.current.manifest.imports :=
  ((loopRounds_mem _ _).1 r hr).2

/-! ### A resolution without blocking diagnostics -/

/-- `resolvePackageGraph(request)` raises nothing that blocks. -/
def Accepted (request : Request) : Prop :=
  ∀ d ∈ (resolvePackageGraph request).diagnostics, d.code.blocking = false

instance : Decidable (Accepted request) :=
  inferInstanceAs (Decidable (∀ d ∈ (resolvePackageGraph request).diagnostics,
    d.code.blocking = false))

theorem Accepted.diagnostics_nil (h : Accepted request) :
    (resolvePackageGraph request).diagnostics = [] := by
  refine List.eq_nil_iff_forall_not_mem.2 fun d hd => ?_
  have hb := h d hd
  simp [Code.blocking] at hb

theorem Accepted.worklist_quiet (h : Accepted request) :
    (selection request).diagnostics = [] ∧ conflicts (selection request) = [] := by
  have hd := h.diagnostics_nil
  simp only [resolvePackageGraph, List.append_eq_nil_iff] at hd
  exact ⟨hd.1.1.1.1.1.1.1.2, hd.1.1.1.1.1.1.2⟩

theorem nodup_identities (selected : OrderedMap String Entry)
    (hhome : ∀ id e, selected.get id = some e → e.identity = id) :
    (selected.values.map (·.identity)).Nodup := by
  have hkeys : selected.values.map (·.identity) = selected.keys := by
    rw [OrderedMap.values, OrderedMap.keys, List.map_map]
    refine List.map_congr_left fun kv hkv => ?_
    exact hhome kv.1 kv.2 ((OrderedMap.get_eq_some_iff _ _ _).2 hkv)
  rw [hkeys]
  exact OrderedMap.nodup_keys _

theorem mem_orderedSelection (w : Worklist) (e : Entry) :
    e ∈ orderedSelection w ↔ ∃ id, w.selected.get id = some e := by
  rw [orderedSelection, sortByIdentity, List.mem_insertionSort, OrderedMap.mem_values_iff]

theorem mem_packages (request : Request) (p : Package) :
    p ∈ (resolvePackageGraph request).packages ↔
      ∃ id e, (selection request).selected.get id = some e ∧ packageOf request e = p := by
  simp only [resolvePackageGraph, List.mem_map, mem_orderedSelection]
  constructor
  · rintro ⟨e, ⟨id, he⟩, hp⟩
    exact ⟨id, e, he, hp⟩
  · rintro ⟨id, e, he, hp⟩
    exact ⟨e, ⟨id, he⟩, hp⟩

theorem conflicts_nil {w : Worklist} (h : conflicts w = []) {id : String} {e : Entry}
    (he : w.selected.get id = some e) : meets ((w.required id).map (·.constraint)) e := by
  cases hr : w.constraints.get id with
  | none => simp [Worklist.required, hr, meets]
  | some list =>
    have hmem : (id, list) ∈ sortByIdentity Prod.fst w.constraints.entries := by
      rw [sortByIdentity, List.mem_insertionSort]
      exact (OrderedMap.get_eq_some_iff _ _ _).1 hr
    have hnil : conflictOf w id list = [] := List.flatMap_eq_nil_iff.1 h (id, list) hmem
    rw [Worklist.required, hr, Option.getD_some, ← satisfiesAll_iff]
    simp only [conflictOf, he] at hnil
    by_contra hs
    simp [hs] at hnil

/-- What an accepted run ends in. -/
structure Settled (request : Request) : Prop where
  kept : Kept (rootEntry request) (discoverCandidates request.searchPath).candidates.values
    (offeredFor request) (rounds request) (processed request) (selection request)
  finished : (selection request).queue = []
  satisfied : ∀ id e, (selection request).selected.get id = some e →
    meets (constraintsOn (rounds request) id) e
  parsed : ∀ r ∈ rounds request, ∃ c, parseConstraint r.item.1.versionConstraint = some c
  found : ∀ r ∈ rounds request, ∃ e, (selection request).selected.get r.target = some e

theorem Accepted.settled (h : Accepted request) : Settled request := by
  obtain ⟨hd, hc⟩ := h.worklist_quiet
  obtain ⟨hk, hq⟩ := @selection_kept request (by rw [hd]; exact List.not_mem_nil)
  refine ⟨hk, hq, fun id e he => ?_, fun r hr => (hk.quiet hd r hr).1,
    fun r hr => (hk.quiet hd r hr).2⟩
  rw [← hk.required]
  exact conflicts_nil hc he

section Settled

variable (hs : Settled request)
include hs

theorem Settled.mem_processed {id : String} {e : Entry}
    (he : (selection request).selected.get id = some e) : e ∈ processed request := by
  have hm := hs.kept.queued id e he
  rwa [hs.finished, List.append_nil] at hm

theorem Settled.root_or_offered {id : String} {e : Entry}
    (he : (selection request).selected.get id = some e) :
    e = rootEntry request ∨ Available request e :=
  hs.kept.known e (List.mem_append_left _ (hs.mem_processed he))

theorem Settled.import_round {id : String} {e : Entry}
    (he : (selection request).selected.get id = some e) {i : Import}
    (hi : i ∈ e.manifest.imports) :
    ∃ r ∈ liveRounds request, r.current = e ∧ r.item.1 = i := by
  obtain ⟨r, hr, hcur, hitem⟩ := exists_round (hs.mem_processed he) hi
  refine ⟨r, List.mem_filter.2 ⟨hr, ?_⟩, hcur, hitem⟩
  rw [hcur, hs.kept.home id e he, decide_eq_true_iff]
  exact he

theorem Settled.mem_liveConstraints (id : String) (c : Constraint) :
    c ∈ constraintsOn (liveRounds request) id ↔
      ∃ p ∈ (resolvePackageGraph request).packages, ∃ i ∈ p.manifest.imports,
        i.packageIdentity = id ∧ parseConstraint i.versionConstraint = some c := by
  rw [mem_constraintsOn]
  constructor
  · rintro ⟨r, hr, htarget, hc⟩
    obtain ⟨hr, hlive⟩ := List.mem_filter.1 hr
    rw [decide_eq_true_iff] at hlive
    have hitem := round_item hr
    exact ⟨packageOf request r.current, (mem_packages request _).2 ⟨_, _, hlive, rfl⟩,
      r.item.1, hitem, htarget, hc⟩
  · rintro ⟨p, hp, i, hi, htarget, hc⟩
    obtain ⟨id', e, he, rfl⟩ := (mem_packages request p).1 hp
    obtain ⟨r, hr, hcur, hitem⟩ := hs.import_round he hi
    exact ⟨r, hr, by rw [Round.target, hitem, htarget], by rw [hitem, hc]⟩

theorem Settled.admissible_iff (e : Entry) :
    Admissible (resolvePackageGraph request).packages e ↔
      meets (constraintsOn (liveRounds request) e.identity) e := by
  constructor
  · intro h c hc
    obtain ⟨p, hp, i, hi, htarget, hparse⟩ := (hs.mem_liveConstraints _ c).1 hc
    exact h p hp i hi htarget c hparse
  · intro h p hp i hi htarget c hparse
    exact h c ((hs.mem_liveConstraints _ c).2 ⟨p, hp, i, hi, htarget, hparse⟩)

omit hs in
theorem mem_constraintsOn_rounds (id : String) (c : Constraint) :
    c ∈ constraintsOn (rounds request) id ↔
      c ∈ constraintsOn (liveRounds request) id ∨ c ∈ constraintsOn (staleRounds request) id := by
  simp only [mem_constraintsOn, liveRounds, staleRounds, List.mem_filter, decide_eq_true_iff]
  constructor
  · rintro ⟨r, hr, h⟩
    by_cases hl : (selection request).selected.get r.current.identity = some r.current
    · exact Or.inl ⟨r, ⟨hr, hl⟩, h⟩
    · exact Or.inr ⟨r, ⟨hr, hl⟩, h⟩
  · rintro (⟨r, ⟨hr, -⟩, h⟩ | ⟨r, ⟨hr, -⟩, h⟩)
    · exact ⟨r, hr, h⟩
    · exact ⟨r, hr, h⟩

theorem Settled.meets_live {id : String} {e : Entry}
    (he : (selection request).selected.get id = some e) :
    meets (constraintsOn (liveRounds request) id) e :=
  fun c hc => hs.satisfied id e he c ((mem_constraintsOn_rounds id c).2 (Or.inl hc))

theorem Settled.chosen {id : String} {e : Entry}
    (he : (selection request).selected.get id = some e) (ha : Available request e) :
    choice (offeredFor request) (constraintsOn (rounds request) id) id = some e :=
  hs.kept.chosen id e he ha (hs.satisfied id e he)

theorem Settled.available {id : String} {e : Entry}
    (he : (selection request).selected.get id = some e) (hid : id ≠ request.root.identity) :
    Available request e := by
  refine (hs.root_or_offered he).resolve_left fun hroot => hid ?_
  rw [← hs.kept.home id e he, hroot]
  rfl

theorem Settled.mem_identities (id : String) :
    id ∈ (resolvePackageGraph request).packages.map (·.identity) ↔
      ∃ e, (selection request).selected.get id = some e := by
  rw [List.mem_map]
  constructor
  · rintro ⟨p, hp, hid⟩
    obtain ⟨id', e, he, rfl⟩ := (mem_packages request p).1 hp
    have hid' : e.identity = id := hid
    exact ⟨e, by rwa [← hid', hs.kept.home id' e he]⟩
  · rintro ⟨e, he⟩
    exact ⟨packageOf request e, (mem_packages request _).2 ⟨id, e, he, rfl⟩, hs.kept.home id e he⟩

end Settled

/-! ### Steady runs -/

/-- No import round of the run puts another version in the place of a selected one. -/
def Steady (request : Request) : Prop :=
  ∀ r ∈ rounds request, r.replaces (offeredFor request) = false

instance : Decidable (Steady request) :=
  inferInstanceAs (Decidable (∀ r ∈ rounds request, r.replaces (offeredFor request) = false))

section Steady

variable {limits : Limits} {root : Entry} {pool : List Entry} {grouped : String → List Entry}
  {rejected : List Diagnostic}

variable (rejected) in
theorem importStep_keeps (hcand : Candidates root pool grouped) {current : Entry} {w : Worklist}
    {item : Import × ℕ} (hsteady : Round.replaces grouped ⟨w, current, item⟩ = false)
    {id : String} {e : Entry} (he : w.selected.get id = some e) :
    (importStep grouped rejected current w item).selected.get id = some e := by
  rcases importStep_queue rejected hcand current w item with
    ⟨-, hsel⟩ | ⟨e', -, -, hsel, hchosen, hother⟩
  · rw [hsel]
    exact he
  · rw [hsel, OrderedMap.get_set]
    split
    · rename_i hid
      have hprev : w.selected.get item.1.packageIdentity = some e := by rw [← hid, he]
      simp only [Round.replaces, Round.target, hprev, hchosen, decide_eq_false_iff_not] at hsteady
      exact absurd (hother e hprev) hsteady
    · exact he

variable (rejected) in
theorem imports_keep (hcand : Candidates root pool grouped) (current : Entry)
    (items : List (Import × ℕ)) (w : Worklist)
    (hsteady : ∀ r ∈ importRounds grouped rejected current w items, r.replaces grouped = false)
    (hqueue : ∀ e ∈ w.queue, w.selected.get e.identity = some e) :
    (∀ id e, w.selected.get id = some e →
      (items.foldl (importStep grouped rejected current) w).selected.get id = some e) ∧
    ∀ e ∈ (items.foldl (importStep grouped rejected current) w).queue,
      (items.foldl (importStep grouped rejected current) w).selected.get e.identity = some e := by
  induction items generalizing w with
  | nil => exact ⟨fun _ _ h => h, hqueue⟩
  | cons item items ih =>
    have hkeep (id : String) (e : Entry) (he : w.selected.get id = some e) :=
      importStep_keeps rejected hcand (hsteady _ (List.mem_cons_self ..)) he
    have hnext : ∀ e ∈ (importStep grouped rejected current w item).queue,
        (importStep grouped rejected current w item).selected.get e.identity = some e := by
      intro e he
      rcases importStep_queue rejected hcand current w item with
        ⟨hq, hsel⟩ | ⟨e', hid, hq, hsel, -⟩
      · rw [hq] at he
        rw [hsel]
        exact hqueue e he
      · rw [hq, List.mem_append, List.mem_singleton] at he
        rcases he with he | he
        · exact hkeep _ e (hqueue e he)
        · rw [he, hsel, hid, OrderedMap.get_set_self]
    obtain ⟨hk, hq⟩ := ih _ (fun r hr => hsteady r (List.mem_cons_of_mem _ hr)) hnext
    exact ⟨fun id e he => hk id e (hkeep id e he), hq⟩

variable (root) in
theorem loop_keeps (hcand : Candidates root pool grouped) (fuel : ℕ) (w : Worklist)
    (hsteady : ∀ r ∈ loopRounds limits grouped rejected fuel w, r.replaces grouped = false)
    (hqueue : ∀ e ∈ w.queue, w.selected.get e.identity = some e) :
    (∀ id e, w.selected.get id = some e →
      (selectionLoop limits root grouped rejected fuel w).selected.get id = some e) ∧
    ∀ e ∈ loopProcessed limits grouped rejected fuel w,
      (selectionLoop limits root grouped rejected fuel w).selected.get e.identity = some e := by
  induction fuel generalizing w with
  | zero => exact ⟨fun _ _ h => h, fun e he => absurd he List.not_mem_nil⟩
  | succ fuel ih =>
    unfold loopRounds at hsteady
    unfold loopProcessed selectionLoop
    cases hq : w.queue with
    | nil => exact ⟨fun _ _ h => h, fun e he => absurd he List.not_mem_nil⟩
    | cons current queue =>
      rw [hq] at hqueue
      by_cases hl : limits.maxNodes < w.selected.size
      · simp only [hl, if_true]
        exact ⟨fun _ _ h => h, fun e he => absurd he List.not_mem_nil⟩
      simp only [hl, if_false, hq] at hsteady ⊢
      obtain ⟨hkeep, hnext⟩ := imports_keep rejected hcand current
        current.manifest.imports.zipIdx ({ w with queue }.openEdges current)
        (fun r hr => hsteady r (List.mem_append_left _ hr))
        fun e he => hqueue e (List.mem_cons_of_mem _ he)
      obtain ⟨hk, hp⟩ := ih (processEntry grouped rejected { w with queue } current)
        (fun r hr => hsteady r (List.mem_append_right _ hr)) hnext
      refine ⟨fun id e he => hk id e (hkeep id e he), fun e he => ?_⟩
      rcases List.mem_cons.1 he with he | he
      · rw [he]
        exact hk _ _ (hkeep _ _ (hqueue current (List.mem_cons_self ..)))
      · exact hp e he

end Steady

theorem Steady.selected (h : Steady request) {e : Entry} (he : e ∈ processed request) :
    (selection request).selected.get e.identity = some e := by
  refine (loop_keeps (rootEntry request) (request_candidates request) _ _ h ?_).2 e he
  intro e he
  rw [show e = rootEntry request by simpa [initialWorklist] using he]
  exact OrderedMap.get_set_self ..

theorem Steady.leavesNoTrace (h : Steady request) : LeavesNoTrace request := by
  have hstale : staleRounds request = [] := by
    refine List.filter_eq_nil_iff.2 fun r hr => ?_
    rw [decide_eq_true_iff, not_not]
    exact h.selected ((loopRounds_mem _ _).1 r hr).1
  constructor
  · intro e he
    have hkeep := (loop_keeps (rootEntry request) (request_candidates request) _ _ h
      (fun e he => by
        rw [show e = rootEntry request by simpa [initialWorklist] using he]
        exact OrderedMap.get_set_self ..)).1 request.root.identity (rootEntry request)
      (OrderedMap.get_set_self ..)
    rw [← Option.some.inj (hkeep.symm.trans he)]
    exact ⟨rfl, rfl⟩
  · intro r hr
    rw [hstale] at hr
    exact absurd hr List.not_mem_nil
  · intro r hr
    rw [hstale] at hr
    exact absurd hr List.not_mem_nil

/-! ### The two directions -/

/-- Where the replaced versions leave no trace the resolution is sound. -/
theorem Settled.sound (hs : Settled request) (hl : LeavesNoTrace request) :
    Sound request (resolvePackageGraph request) := by
  obtain ⟨root, hroot⟩ := hs.kept.rooted
  have hreaches : ∀ e ∈ processed request,
      Reaches request (resolvePackageGraph request).packages e.identity := by
    refine loopProcessed_induction (request_candidates request)
      (Reaches request (resolvePackageGraph request).packages) _ _ ?_ ?_
    · intro e he
      rw [show e = rootEntry request by simpa [initialWorklist] using he]
      exact Relation.ReflTransGen.refl
    · intro r hr hcur
      by_cases hlive : (selection request).selected.get r.current.identity = some r.current
      · exact hcur.tail ⟨packageOf request r.current, (mem_packages request _).2 ⟨_, _, hlive, rfl⟩,
          rfl, r.item.1, round_item hr, rfl⟩
      · exact hl.reached r (List.mem_filter.2 ⟨hr, by simpa using hlive⟩)
  constructor
  · intro id
    constructor
    · intro hid
      obtain ⟨e, he⟩ := (hs.mem_identities id).1 hid
      rw [← hs.kept.home id e he]
      exact hreaches e (hs.mem_processed he)
    · intro hid
      induction hid with
      | refl => exact (hs.mem_identities _).2 ⟨root, hroot⟩
      | tail _ himports _ =>
        obtain ⟨p, hp, -, i, hi, htarget⟩ := himports
        obtain ⟨id', e, he, rfl⟩ := (mem_packages request p).1 hp
        obtain ⟨r, hr, -, hitem⟩ := hs.import_round he hi
        refine (hs.mem_identities _).2 ?_
        rw [← htarget, ← hitem]
        exact hs.found r (List.mem_filter.1 hr).1
  · have hperm : (resolvePackageGraph request).packages.map (·.identity) =
        (orderedSelection (selection request)).map (·.identity) := by
      simp [resolvePackageGraph, packageOf]
    rw [hperm]
    exact (((List.perm_insertionSort _ _).map _).nodup_iff).2
      (nodup_identities _ hs.kept.home)
  · intro p hp i hi
    obtain ⟨id, e, he, rfl⟩ := (mem_packages request p).1 hp
    obtain ⟨r, hr, -, hitem⟩ := hs.import_round he hi
    obtain ⟨c, hc⟩ := hs.parsed r (List.mem_filter.1 hr).1
    obtain ⟨t, ht⟩ := hs.found r (List.mem_filter.1 hr).1
    have hm := hs.satisfied _ t ht c ((mem_constraintsOn _ _ _).2
      ⟨r, (List.mem_filter.1 hr).1, rfl, hc⟩)
    rw [Round.target, hitem] at ht
    rw [hitem] at hc
    exact ⟨packageOf request t, (mem_packages request _).2 ⟨_, t, ht, rfl⟩,
      hs.kept.home _ t ht, c, hc, hm⟩
  · intro q hq hne
    obtain ⟨id, t, ht, rfl⟩ := (mem_packages request q).1 hq
    have hid : t.identity = id := hs.kept.home id t ht
    have hne' : id ≠ request.root.identity := fun h => hne (by rw [← h]; exact hid)
    have hoffered := hs.available ht hne'
    refine ⟨⟨t, hoffered, rfl⟩, fun e he heid hadm hgt => ?_⟩
    have hcand := request_candidates request
    have hmem : t ∈ offeredFor request id := (hcand.mem_iff id t).2 ⟨hoffered, hid⟩
    have heid' : e.identity = id := heid.trans hid
    have hemem : e ∈ offeredFor request id := (hcand.mem_iff id e).2 ⟨he, heid'⟩
    cases hb : choice (offeredFor request) (constraintsOn (liveRounds request) id) id with
    | none => exact choice_ne_none hmem (hs.meets_live ht) hb
    | some best =>
      have hbest := choice_eq_some hb
      have hall : meets (constraintsOn (rounds request) id) best := by
        intro c hc
        rcases (mem_constraintsOn_rounds id c).1 hc with hc | hc
        · exact hbest.2 c hc
        · obtain ⟨r, hr, htarget, hparse⟩ := (mem_constraintsOn _ _ _).1 hc
          exact hl.accepted r hr (by rw [htarget]; exact hne') c hparse best
            (by rw [htarget]; exact hb)
      have hle : e.version.key ≤ t.version.key := by
        have hlive : meets (constraintsOn (liveRounds request) id) e := by
          rw [← heid']
          exact (hs.admissible_iff e).1 hadm
        exact (choice_highest hcand hb hemem hlive).trans
          (choice_highest hcand (hs.chosen ht hoffered) hbest.1 hall)
      exact absurd ((compareVersions_gt_iff e.version t.version).1 hgt) (not_lt_of_ge hle)
  · intro q hq hid
    obtain ⟨id, t, ht, rfl⟩ := (mem_packages request q).1 hq
    have hid' : t.identity = request.root.identity := hid
    rw [← hs.kept.home id t ht, hid'] at ht
    exact hl.root t ht

/-- A sound resolution shows that the replaced versions leave no trace. -/
theorem Settled.leavesNoTrace (hs : Settled request)
    (h : Sound request (resolvePackageGraph request)) : LeavesNoTrace request := by
  constructor
  · intro e he
    exact h.root (packageOf request e) ((mem_packages request _).2 ⟨_, e, he, rfl⟩)
      (hs.kept.home _ e he)
  · intro r hr
    exact (h.reachable _).1 ((hs.mem_identities _).2 (hs.found r (List.mem_filter.1 hr).1))
  · intro r hr hne c hc best hb
    obtain ⟨t, ht⟩ := hs.found r (List.mem_filter.1 hr).1
    have hid : t.identity = r.target := hs.kept.home _ t ht
    have hcand := request_candidates request
    obtain ⟨hbmem, hbmeets⟩ := choice_eq_some hb
    obtain ⟨hbpool, hbid⟩ := (hcand.mem_iff _ best).1 hbmem
    have hoffered := hs.available ht hne
    have hupper : best.version.key ≤ t.version.key := by
      have hgt := (h.highest (packageOf request t) ((mem_packages request _).2 ⟨_, t, ht, rfl⟩)
        (by rw [show (packageOf request t).identity = r.target from hid]; exact hne)).2 best hbpool
        (hbid.trans hid.symm) ((hs.admissible_iff best).2 (by rw [hbid]; exact hbmeets))
      exact not_lt.1 fun hlt => hgt ((compareVersions_gt_iff best.version t.version).2 hlt)
    have hlower : t.version.key ≤ best.version.key :=
      choice_highest hcand hb ((hcand.mem_iff _ t).2 ⟨hoffered, hid⟩) (hs.meets_live ht)
    rw [satisfies_congr (le_antisymm hupper hlower) c]
    exact hs.satisfied _ t ht c ((mem_constraintsOn _ _ _).2
      ⟨r, (List.mem_filter.1 hr).1, rfl, hc⟩)

/-- When `resolvePackageGraph` raises nothing that blocks and no import round replaced a
selected version, the resolution is sound; in general it is sound exactly when the
replaced versions leave no trace. -/
theorem resolution_sound (h : Accepted request) :
    (Steady request → Sound request (resolvePackageGraph request)) ∧
      (Sound request (resolvePackageGraph request) ↔ LeavesNoTrace request) :=
  ⟨fun hs => h.settled.sound hs.leavesNoTrace, h.settled.leavesNoTrace, h.settled.sound⟩

end Run

/-! ### Requests of bare releases -/

/-- A host that lists the declared roots and has no profile and no mapping document. -/
def bareHost : Host := ⟨fun _ roots => .ok roots, fun _ => none, fun _ => none⟩

def release (identity versionText : String) (imports : List (String × String))
    (semver : (parseVersion versionText).isSome = true) : Manifest :=
  ⟨identity, versionText, ["src"], [], imports.map fun i => ⟨i.1, i.2, [], []⟩, [], [], [], semver⟩

theorem semver_1_0_0 : (parseVersion "1.0.0").isSome = true := by decide +kernel
theorem semver_1_1_0 : (parseVersion "1.1.0").isSome = true := by decide +kernel
theorem semver_1_2_0 : (parseVersion "1.2.0").isSome = true := by decide +kernel

/-- One search directory, every release in a directory of its identity and version. -/
def bareRequest (root : Manifest) (offered : List Manifest) : Request :=
  ⟨bareHost, "root", root, [offered.map fun m => .readable (candidateKey m) m], none, {}⟩

/-- The root imports `o/a` and `o/b`, which both import `o/c`; two versions of `o/c` are
offered. -/
def diamond : Request :=
  bareRequest (release "o/r" "1.0.0" [("o/a", "^1.0.0"), ("o/b", "1.0.0")] semver_1_0_0)
    [release "o/a" "1.2.0" [("o/c", "^1.0.0")] semver_1_2_0,
      release "o/b" "1.0.0" [("o/c", "^1.1.0")] semver_1_0_0,
      release "o/c" "1.0.0" [] semver_1_0_0, release "o/c" "1.1.0" [] semver_1_1_0]

theorem diamond_resolution_sound :
    (resolvePackageGraph diamond).packages.length = 4 ∧
      Sound diamond (resolvePackageGraph diamond) :=
  ⟨by decide +kernel, (@resolution_sound diamond (by decide +kernel)).1
    (by decide +kernel)⟩

/-- The root is imported back by `o/x`, and a later version of the root, which imports
nothing, is offered. -/
def rootReleasedAgain : Request :=
  bareRequest (release "o/r" "1.0.0" [("o/x", "^1.0.0")] semver_1_0_0)
    [release "o/r" "1.1.0" [] semver_1_1_0,
      release "o/x" "1.0.0" [("o/r", "^1.0.0")] semver_1_0_0]

/-- Nothing blocks, and the root's entry is the later version. -/
theorem rootReleasedAgain_not_sound :
    Accepted rootReleasedAgain ∧
      ¬ Sound rootReleasedAgain (resolvePackageGraph rootReleasedAgain) := by
  refine ⟨by decide +kernel, fun h => ?_⟩
  have hreplaced : ∃ q ∈ (resolvePackageGraph rootReleasedAgain).packages,
      q.identity = rootReleasedAgain.root.identity ∧ q.manifest ≠ rootReleasedAgain.root := by
    decide +kernel
  obtain ⟨q, hq, hid, hne⟩ := hreplaced
  exact hne (h.root q hq hid).1

end FilamentCore.Packages
