import FilamentCore.Packages.Cycles
import FilamentCore.Packages.Soundness

/-!
# Runs that settle

A run settles when every import round that can be satisfied is satisfied by the version
already selected, and the node limit is not reached. Such a run is determined by the
imports alone: the manifests behind and in the queue are those the constraints of the
manifests behind ask for.
-/

namespace FilamentCore.Packages
open FilamentCore.Compiler FilamentCore.Library

/-! ### The condition -/

def satisfiable (grouped : String → List Entry) (id : String) (c : Constraint) : Bool :=
  (grouped id).any fun e => satisfies e.version c

/-- The round has no candidate for its own constraint, or selects one, and not another
version than the one selected before it. -/
def Round.settles (grouped : String → List Entry) (r : Round) : Bool :=
  match parseConstraint r.item.1.versionConstraint with
  | none => true
  | some c =>
    !satisfiable grouped r.target c ||
      match r.chosen grouped, r.before.selected.get r.target with
      | none, _ => false
      | some _, none => true
      | some chosen, some previous => previous.versionText = chosen.versionText

section Loop

variable (limits : Limits) (grouped : String → List Entry) (rejected : List Diagnostic)

/-- The states in which `selectionLoop` takes a manifest off the queue, or stops at the
limit. -/
def loopStates : ℕ → Worklist → List Worklist
  | 0, _ => []
  | fuel + 1, w =>
    match w.queue with
    | [] => []
    | current :: queue =>
      if limits.maxNodes < w.selected.size then [w]
      else w :: loopStates fuel (processEntry grouped rejected { w with queue } current)

end Loop

def states (request : Request) : List Worklist :=
  let d := discoverCandidates request.searchPath
  loopStates request.limits (byIdentity d.candidates) d.rejected
    (d.candidates.size + 1) (initialWorklist request)

structure Settles (request : Request) : Prop where
  withinLimit : ∀ w ∈ states request, w.selected.size ≤ request.limits.maxNodes
  rounds : ∀ r ∈ rounds request, r.settles (offeredFor request) = true

instance (request : Request) : Decidable (Settles request) :=
  decidable_of_iff ((∀ w ∈ states request, w.selected.size ≤ request.limits.maxNodes) ∧
      ∀ r ∈ rounds request, r.settles (offeredFor request) = true)
    ⟨fun h => ⟨h.1, h.2⟩, fun h => ⟨h.1, h.2⟩⟩

/-! ### What the imports ask for -/

/-- The imports of `es`, each with its importer. -/
def asks (es : List Entry) : List (Entry × Import) :=
  es.flatMap fun e => e.manifest.imports.map fun i => (e, i)

theorem mem_asks (es : List Entry) (e : Entry) (i : Import) :
    (e, i) ∈ asks es ↔ e ∈ es ∧ i ∈ e.manifest.imports := by
  simp only [asks, List.mem_flatMap, List.mem_map, Prod.mk.injEq]
  constructor
  · rintro ⟨e', he', i', hi', rfl, rfl⟩
    exact ⟨he', hi'⟩
  · rintro ⟨he, hi⟩
    exact ⟨e, he, i, hi, rfl, rfl⟩

theorem asks_append (es es' : List Entry) : asks (es ++ es') = asks es ++ asks es' :=
  List.flatMap_append

def constraintsAsked (seen : List (Entry × Import)) (id : String) : List Constraint :=
  seen.filterMap fun a =>
    if a.2.packageIdentity = id then parseConstraint a.2.versionConstraint else none

/-- The constraints asked on `id` that some candidate satisfies. -/
def wanted (grouped : String → List Entry) (seen : List (Entry × Import)) (id : String) :
    List Constraint :=
  (constraintsAsked seen id).filter (satisfiable grouped id)

def importCode (grouped : String → List Entry) (i : Import) : Option Code :=
  match parseConstraint i.versionConstraint with
  | none => some .unsupportedVersionConstraint
  | some c =>
    if grouped i.packageIdentity = [] then some .importNotFound
    else if satisfiable grouped i.packageIdentity c then none
    else some .importVersionUnsatisfied

theorem mem_constraintsAsked (seen : List (Entry × Import)) (id : String) (c : Constraint) :
    c ∈ constraintsAsked seen id ↔ ∃ a ∈ seen, a.2.packageIdentity = id ∧
      parseConstraint a.2.versionConstraint = some c := by
  simp only [constraintsAsked, List.mem_filterMap]
  refine exists_congr fun a => and_congr_right fun _ => ?_
  split
  · rename_i h
    simp [h]
  · rename_i h
    simp [h]

theorem constraintsAsked_snoc (seen : List (Entry × Import)) (a : Entry × Import) (id : String) :
    constraintsAsked (seen ++ [a]) id = constraintsAsked seen id ++
      (if a.2.packageIdentity = id then (parseConstraint a.2.versionConstraint).toList else []) := by
  unfold constraintsAsked
  rw [List.filterMap_append]
  congr 1
  by_cases h : a.2.packageIdentity = id
  · simp only [List.filterMap_cons, List.filterMap_nil, h, if_true]
    cases parseConstraint a.2.versionConstraint <;> rfl
  · simp [h]

section Loop

variable {limits : Limits} {root : Entry} {pool : List Entry} {grouped : String → List Entry}
  {rejected : List Diagnostic}

/-! ### One round -/

theorem importStep_code (current : Entry) (w : Worklist) (item : Import × ℕ) :
    (importStep grouped rejected current w item).diagnostics.map (·.code) =
      w.diagnostics.map (·.code) ++ (importCode grouped item.1).toList := by
  have hsettle (w : Worklist) (id : String) (o : Option Entry) :
      (settle w id o).diagnostics = w.diagnostics := by
    unfold settle
    split
    · rfl
    · split
      · rfl
      · split <;> rfl
  unfold importStep importCode
  dsimp only
  cases hc : parseConstraint item.1.versionConstraint with
  | none => simp [diagnostic]
  | some c =>
    by_cases ho : grouped item.1.packageIdentity = []
    · simp [ho, diagnostic]
    by_cases hm : (grouped item.1.packageIdentity).filter (fun e => satisfies e.version c) = []
    · have hs : satisfiable grouped item.1.packageIdentity c = false := by
        refine List.any_eq_false.2 fun e he => ?_
        exact List.filter_eq_nil_iff.1 hm e he
      simp [ho, hm, hs, diagnostic]
    · have hs : satisfiable grouped item.1.packageIdentity c = true := by
        obtain ⟨e, he⟩ := List.exists_mem_of_ne_nil _ hm
        exact List.any_eq_true.2 ⟨e, (List.mem_filter.1 he).1, (List.mem_filter.1 he).2⟩
      simp [ho, hm, hs, hsettle]

theorem require_follows (current : Entry) (w : Worklist) (r : Requirement) (a b : String) :
    Follows (w.require current r).edges a b ↔
      Follows w.edges a b ∨ (a = current.identity ∧ b = r.entry.packageIdentity) := by
  unfold Follows Worklist.require
  by_cases h : a = current.identity
  · rw [h]
    simp only [OrderedMap.get_set_self, Option.getD_some, List.mem_append, List.mem_singleton,
      true_and]
    constructor
    · rintro ⟨edge, hedge | hedge, htarget⟩
      · exact Or.inl ⟨edge, hedge, htarget⟩
      · rw [hedge] at htarget
        exact Or.inr htarget.symm
    · rintro (⟨edge, hedge, htarget⟩ | htarget)
      · exact ⟨edge, Or.inl hedge, htarget⟩
      · exact ⟨_, Or.inr rfl, htarget.symm⟩
  · simp only [OrderedMap.get_set_ne _ _ h, h, false_and, or_false]

theorem settle_edges (w : Worklist) (id : String) (o : Option Entry) :
    (settle w id o).edges = w.edges := by
  unfold settle
  split
  · rfl
  · split
    · rfl
    · split <;> rfl

theorem importStep_follows (current : Entry) (w : Worklist) (item : Import × ℕ) (a b : String) :
    Follows (importStep grouped rejected current w item).edges a b ↔
      Follows w.edges a b ∨ (current.identity = a ∧ item.1.packageIdentity = b ∧
        (parseConstraint item.1.versionConstraint).isSome) := by
  obtain ⟨hc, d, hw⟩ | ⟨c, hc, ⟨⟨d, hw⟩, -⟩ | ⟨hw, -⟩⟩ :=
    importStep_cases grouped rejected current w item
  · rw [hw]
    simp [hc, Worklist.raise]
  · rw [hw]
    refine (require_follows current w (requirementOf current item.2 item.1 c) a b).trans ?_
    simp [hc, requirementOf, eq_comm]
  · rw [hw, settle_edges, require_follows]
    simp [hc, requirementOf, eq_comm]

/-! ### The invariant of a settled run -/

/-- What holds between two rounds of a settled run, `seen` being the imports read and
`processed` the manifests taken off the queue. -/
structure Firm (root : Entry) (grouped : String → List Entry) (seen : List (Entry × Import))
    (processed : List Entry) (w : Worklist) : Prop where
  required : ∀ id, (w.required id).map (·.constraint) = constraintsAsked seen id
  home : ∀ id e, w.selected.get id = some e → e.identity = id
  rooted : w.selected.get root.identity = some root
  selected : ∀ id, id ≠ root.identity → w.selected.get id =
    if wanted grouped seen id = [] then none else choice grouped (wanted grouped seen id) id
  queued : ∀ e, e ∈ processed ++ w.queue ↔ w.selected.get e.identity = some e
  nodup : (processed ++ w.queue).Nodup
  codes : w.diagnostics.map (·.code) = seen.filterMap fun a => importCode grouped a.2
  edges : ∀ a b, Follows w.edges a b ↔ ∃ p ∈ seen, p.1.identity = a ∧ p.2.packageIdentity = b ∧
    (parseConstraint p.2.versionConstraint).isSome

variable {seen : List (Entry × Import)} {processed : List Entry} {w : Worklist}
  {current : Entry} {item : Import × ℕ}

theorem wanted_snoc_ne (id : String) (h : item.1.packageIdentity ≠ id) :
    wanted grouped (seen ++ [(current, item.1)]) id = wanted grouped seen id := by
  simp [wanted, constraintsAsked_snoc, h]

variable (grouped seen current) in
theorem wanted_snoc_unsatisfiable (id : String)
    (h : ∀ c, parseConstraint item.1.versionConstraint = some c →
      satisfiable grouped item.1.packageIdentity c = false) :
    wanted grouped (seen ++ [(current, item.1)]) id = wanted grouped seen id := by
  by_cases hid : item.1.packageIdentity = id
  · unfold wanted
    rw [constraintsAsked_snoc, List.filter_append]
    simp only [hid, if_true]
    cases hc : parseConstraint item.1.versionConstraint with
    | none => simp
    | some c => simp [← hid, h c hc]
  · exact wanted_snoc_ne id hid

variable (grouped seen) in
theorem wanted_eq_asked {id : String} {e : Entry} (he : e ∈ grouped id)
    (hm : meets (constraintsAsked seen id) e) :
    wanted grouped seen id = constraintsAsked seen id :=
  List.filter_eq_self.2 fun c hc => List.any_eq_true.2 ⟨e, he, hm c hc⟩

theorem Firm.keeps (hf : Firm root grouped seen processed w)
    (hreq : ∀ id, ((importStep grouped rejected current w item).required id).map (·.constraint) =
      constraintsAsked (seen ++ [(current, item.1)]) id)
    (hsel : (importStep grouped rejected current w item).selected = w.selected)
    (hq : (importStep grouped rejected current w item).queue = w.queue)
    (hselected : ∀ id, id ≠ root.identity → w.selected.get id =
      if wanted grouped (seen ++ [(current, item.1)]) id = [] then none
      else choice grouped (wanted grouped (seen ++ [(current, item.1)]) id) id) :
    Firm root grouped (seen ++ [(current, item.1)]) processed
      (importStep grouped rejected current w item) := by
  refine ⟨hreq, ?_, ?_, ?_, ?_, ?_, ?_, ?_⟩
  · rw [hsel]
    exact hf.home
  · rw [hsel]
    exact hf.rooted
  · rw [hsel]
    exact hselected
  · rw [hsel, hq]
    exact hf.queued
  · rw [hq]
    exact hf.nodup
  · rw [importStep_code, hf.codes, List.filterMap_append]
    cases h : importCode grouped item.1 <;> simp [h]
  · intro a b
    rw [importStep_follows, hf.edges]
    simp [or_and_right, exists_or]

theorem Firm.required_constrained (hf : Firm root grouped seen processed w) {c : Constraint}
    (hc : parseConstraint item.1.versionConstraint = some c) (id : String) :
    ((w.require current (requirementOf current item.2 item.1 c)).required id).map
      (·.constraint) = constraintsAsked (seen ++ [(current, item.1)]) id := by
  rw [constraintsAsked_snoc, Worklist.require_required]
  by_cases h : item.1.packageIdentity = id
  · rw [if_pos (by simpa [requirementOf] using h), if_pos h, List.map_append, hf.required, hc]
    rfl
  · rw [if_neg (by simpa [requirementOf] using h), if_neg h, hf.required, List.append_nil]

variable (rejected) in
theorem Firm.round (hcand : Candidates root pool grouped)
    (hf : Firm root grouped seen processed w)
    (hround : Round.settles grouped ⟨w, current, item⟩ = true) :
    Firm root grouped (seen ++ [(current, item.1)]) processed
      (importStep grouped rejected current w item) := by
  obtain ⟨hc, d, hw⟩ | ⟨c, hc, ⟨⟨d, hw⟩, hnone⟩ | ⟨hw, e₀, he₀, hsat₀⟩⟩ :=
    importStep_cases grouped rejected current w item
  · have hwanted (id : String) := wanted_snoc_unsatisfiable grouped seen current
      id (fun c h => by rw [hc] at h; simp at h)
    refine hf.keeps (fun id => ?_) (by rw [hw]; rfl) (by rw [hw]; rfl) fun id hid => ?_
    · rw [hw, constraintsAsked_snoc, hc]
      simpa using hf.required id
    · rw [hwanted]
      exact hf.selected id hid
  · have hwanted (id : String) := wanted_snoc_unsatisfiable grouped seen current
      id (fun c' h => by
        rw [hc] at h
        refine List.any_eq_false.2 fun e he => ?_
        rw [← Option.some.inj h, hnone e he]
        simp)
    refine hf.keeps (fun id => ?_) (by rw [hw]; rfl) (by rw [hw]; rfl) fun id hid => ?_
    · rw [hw]
      exact hf.required_constrained hc id
    · rw [hwanted]
      exact hf.selected id hid
  -- some candidate satisfies the constraint, so the round selects one
  have hsat : satisfiable grouped item.1.packageIdentity c = true :=
    List.any_eq_true.2 ⟨e₀, he₀, hsat₀⟩
  have hchosen : (Round.mk w current item).chosen grouped =
      choice grouped (constraintsAsked (seen ++ [(current, item.1)]) item.1.packageIdentity)
        item.1.packageIdentity := by
    simp only [Round.chosen, hc, Option.bind_some, Round.constrained, Round.target]
    rw [select_eq_choice, hf.required_constrained hc]
  have hselect : select (w.require current (requirementOf current item.2 item.1 c))
      item.1.packageIdentity (grouped item.1.packageIdentity) =
        (Round.mk w current item).chosen grouped := by
    rw [hchosen, select_eq_choice, hf.required_constrained hc]
  simp only [Round.settles, hc, Round.target, hsat, Bool.not_true, Bool.false_or] at hround
  rw [hselect] at hw
  cases hch : (Round.mk w current item).chosen grouped with
  | none => rw [hch] at hround; simp at hround
  | some e =>
    rw [hch] at hround hw hchosen
    obtain ⟨hmem, hmeets⟩ := choice_eq_some hchosen.symm
    obtain ⟨hpool, hid⟩ := (hcand.mem_iff _ e).1 hmem
    have hwanted := wanted_eq_asked grouped _ hmem hmeets
    have hnil : wanted grouped (seen ++ [(current, item.1)]) item.1.packageIdentity ≠ [] := by
      rw [hwanted]
      refine List.ne_nil_of_mem (a := c) ((mem_constraintsAsked _ _ _).2
        ⟨(current, item.1), by simp, rfl, hc⟩)
    cases hprev : w.selected.get item.1.packageIdentity with
    | some previous =>
      rw [hprev] at hround
      have htext : previous.versionText = e.versionText := by simpa using hround
      have hstep : importStep grouped rejected current w item =
          w.require current (requirementOf current item.2 item.1 c) := by
        rw [hw, settle, Worklist.require_selected, hprev]
        simp only [htext, ne_eq, not_true_eq_false, if_false]
      refine hf.keeps (fun id => ?_) (by rw [hstep]; rfl) (by rw [hstep]; rfl) fun id hne => ?_
      · rw [hstep]
        exact hf.required_constrained hc id
      · by_cases ht : item.1.packageIdentity = id
        · subst ht
          rw [if_neg hnil, hwanted, ← hchosen, hprev]
          -- the version selected before is the candidate of the same version
          have hsel := hf.selected _ hne
          rw [hprev] at hsel
          split at hsel
          · simp at hsel
          · obtain ⟨hpool', hid'⟩ := (hcand.mem_iff _ _).1 (choice_eq_some hsel.symm).1
            rw [hcand.distinct _ hpool' _ hpool (hid'.trans hid.symm) htext]
        · rw [wanted_snoc_ne id ht]
          exact hf.selected id hne
    | none =>
      have hstep : importStep grouped rejected current w item =
          (w.require current (requirementOf current item.2 item.1 c)).choose
            item.1.packageIdentity e := by
        rw [hw, settle, Worklist.require_selected, hprev]
      have hroot : item.1.packageIdentity ≠ root.identity := by
        intro h
        rw [h, hf.rooted] at hprev
        simp at hprev
      have hfresh : e ∉ processed ++ w.queue := by
        intro h
        have hs := (hf.queued e).1 h
        rw [hid, hprev] at hs
        simp at hs
      have hget (id : String) : (importStep grouped rejected current w item).selected.get id =
          if id = item.1.packageIdentity then some e else w.selected.get id := by
        rw [hstep, Worklist.choose_selected, Worklist.require_selected, OrderedMap.get_set]
      have hqueue : (importStep grouped rejected current w item).queue = w.queue ++ [e] := by
        rw [hstep]
        rfl
      refine ⟨fun id => ?_, fun id e' h => ?_, ?_, fun id hne => ?_, fun e' => ?_, ?_, ?_, ?_⟩
      · rw [hstep]
        exact hf.required_constrained hc id
      · rw [hget] at h
        split at h
        · rename_i ht
          rw [← Option.some.inj h, hid, ht]
        · exact hf.home id e' h
      · rw [hget, if_neg (Ne.symm hroot)]
        exact hf.rooted
      · rw [hget]
        by_cases ht : id = item.1.packageIdentity
        · rw [if_pos ht, ht, if_neg hnil, hwanted, hchosen]
        · rw [if_neg ht, wanted_snoc_ne id (Ne.symm ht)]
          exact hf.selected id hne
      · rw [hqueue, ← List.append_assoc, List.mem_append, List.mem_singleton, hf.queued, hget]
        by_cases ht : e'.identity = item.1.packageIdentity
        · rw [if_pos ht, ht, hprev]
          simp [eq_comm]
        · rw [if_neg ht]
          refine or_iff_left fun h => ht ?_
          rw [h, hid]
      · rw [hqueue, ← List.append_assoc]
        exact List.nodup_append.2 ⟨hf.nodup, List.nodup_singleton e, fun a ha b hb => by
          rw [List.mem_singleton.1 hb]
          exact fun h => hfresh (h ▸ ha)⟩
      · rw [importStep_code, hf.codes, List.filterMap_append]
        cases h : importCode grouped item.1 <;> simp [h]
      · intro a b
        rw [importStep_follows, hf.edges]
        simp [or_and_right, exists_or]

variable (rejected) in
theorem Firm.imports (hcand : Candidates root pool grouped) (items : List (Import × ℕ))
    (hf : Firm root grouped seen processed w)
    (hrounds : ∀ r ∈ importRounds grouped rejected current w items,
      r.settles grouped = true) :
    Firm root grouped (seen ++ items.map fun item => (current, item.1)) processed
      (items.foldl (importStep grouped rejected current) w) := by
  induction items generalizing seen w with
  | nil => simpa using hf
  | cons item items ih =>
    have hstep := hf.round rejected hcand (hrounds _ (List.mem_cons_self ..))
    have h := ih hstep fun r hr => hrounds r (List.mem_cons_of_mem _ hr)
    rwa [List.append_assoc] at h

theorem Firm.dequeue (hf : Firm root grouped (asks processed) processed w) {queue : List Entry}
    (hq : w.queue = current :: queue) :
    Firm root grouped (asks processed) (processed ++ [current])
      ({ w with queue }.openEdges current) := by
  have hmem : (processed ++ [current]) ++ queue = processed ++ w.queue := by
    rw [hq, List.append_assoc, List.singleton_append]
  have hnew : ∀ p ∈ asks processed, p.1.identity ≠ current.identity := by
    rintro ⟨e, i⟩ hp hid
    have he : e ∈ processed := ((mem_asks _ e i).1 hp).1
    have hse := (hf.queued e).1 (List.mem_append_left _ he)
    have hsc := (hf.queued current).1 (List.mem_append_right _ (hq ▸ List.mem_cons_self ..))
    rw [show e.identity = current.identity from hid, hsc] at hse
    have hnd := hf.nodup
    rw [hq] at hnd
    exact (List.disjoint_of_nodup_append hnd) (Option.some.inj hse ▸ he) (List.mem_cons_self ..)
  refine ⟨hf.required, hf.home, hf.rooted, hf.selected, fun e => ?_, ?_, hf.codes, fun a b => ?_⟩
  · rw [Worklist.openEdges_queue, Worklist.openEdges_selected, hmem]
    exact hf.queued e
  · rw [Worklist.openEdges_queue, hmem]
    exact hf.nodup
  · by_cases ha : a = current.identity
    · subst ha
      constructor
      · rintro ⟨edge, hedge, -⟩
        simp [Worklist.openEdges] at hedge
      · rintro ⟨p, hp, hid, -⟩
        exact absurd hid (hnew p hp)
    · have hsame : Follows ({ w with queue }.openEdges current).edges a b ↔ Follows w.edges a b := by
        unfold Follows Worklist.openEdges
        simp only [OrderedMap.get_set_ne _ _ ha]
      rw [hsame]
      exact hf.edges a b

theorem Firm.processEntry (hcand : Candidates root pool grouped)
    (hf : Firm root grouped (asks processed) processed w) {queue : List Entry}
    (hq : w.queue = current :: queue)
    (hrounds : ∀ r ∈ importRounds grouped rejected current ({ w with queue }.openEdges current)
      current.manifest.imports.zipIdx, r.settles grouped = true) :
    Firm root grouped (asks (processed ++ [current])) (processed ++ [current])
      (processEntry grouped rejected { w with queue } current) := by
  have h := (hf.dequeue hq).imports rejected hcand _ hrounds
  have hasks : asks (processed ++ [current]) = asks processed ++
      current.manifest.imports.zipIdx.map fun item => (current, item.1) := by
    rw [asks_append]
    congr 1
    rw [← Function.comp_def (fun i => (current, i)) Prod.fst, ← List.map_map,
      List.zipIdx_map_fst]
    simp [asks]
  rw [hasks]
  exact h

variable (rejected) in
theorem processEntry_queue (hcand : Candidates root pool grouped) (w : Worklist)
    (current : Entry) :
    ∃ added, (Packages.processEntry grouped rejected w current).queue = w.queue ++ added := by
  refine List.foldlRecOn (motive := fun v : Worklist => ∃ added, v.queue = w.queue ++ added)
    _ _ ⟨[], by simp⟩ ?_
  rintro v ⟨added, hv⟩ item -
  rcases importStep_queue rejected hcand current v item with
    ⟨hq, -⟩ | ⟨e, -, hq, -⟩
  · exact ⟨added, hq.trans hv⟩
  · exact ⟨added ++ [e], by rw [hq, hv, List.append_assoc]⟩

end Loop

/-! ### The points of a run -/

/-- The states at the head of the loop: the manifests behind, and the rounds left. -/
inductive Point (request : Request) : List Entry → ℕ → Worklist → Prop where
  | start : Point request [] ((discoverCandidates request.searchPath).candidates.size + 1)
      (initialWorklist request)
  | next {processed : List Entry} {fuel : ℕ} {w : Worklist} {current : Entry}
      {queue : List Entry} : Point request processed (fuel + 1) w → w.queue = current :: queue →
      Point request (processed ++ [current]) fuel
        (processEntry (offeredFor request) (discoverCandidates request.searchPath).rejected
          { w with queue } current)

section Point

variable {request : Request} {processed : List Entry} {fuel : ℕ} {w : Worklist}

/-- What the run does from a point on is the end of what it does. -/
structure Rest (request : Request) (processed : List Entry) (fuel : ℕ) (w : Worklist) :
    Prop where
  rounds : ∀ r ∈ loopRounds request.limits (offeredFor request)
    (discoverCandidates request.searchPath).rejected fuel w, r ∈ rounds request
  states : ∀ v ∈ loopStates request.limits (offeredFor request)
    (discoverCandidates request.searchPath).rejected fuel w, v ∈ states request
  result : selection request = selectionLoop request.limits (rootEntry request)
    (offeredFor request) (discoverCandidates request.searchPath).rejected fuel w
  left : processed.length + fuel = (discoverCandidates request.searchPath).candidates.size + 1

theorem Rest.within (hset : Settles request) (h : Rest request processed (fuel + 1) w)
    {current : Entry} {queue : List Entry} (hq : w.queue = current :: queue) :
    ¬ request.limits.maxNodes < w.selected.size := by
  refine Nat.not_lt.2 (hset.withinLimit w (h.states w ?_))
  unfold loopStates
  rw [hq]
  dsimp only
  split <;> exact List.mem_cons_self ..

theorem Point.rest (hset : Settles request) (h : Point request processed fuel w) :
    Rest request processed fuel w := by
  induction h with
  | start => exact ⟨fun _ h => h, fun _ h => h, rfl, Nat.zero_add _⟩
  | @next processed fuel w current queue _ hq ih =>
    have hlimit := ih.within hset hq
    obtain ⟨hr, hs, hw, hl⟩ := ih
    unfold loopRounds at hr
    unfold loopStates at hs
    unfold selectionLoop at hw
    simp only [hq, hlimit, if_false] at hr hs hw
    refine ⟨fun r h => hr r (List.mem_append_right _ h), fun v h => hs v (List.mem_cons_of_mem _ h),
      hw, ?_⟩
    rw [List.length_append, List.length_singleton]
    omega

theorem initial_firm (request : Request) :
    Firm (rootEntry request) (offeredFor request) (asks []) [] (initialWorklist request) := by
  have hget (id : String) : (initialWorklist request).selected.get id =
      if id = request.root.identity then some (rootEntry request) else none := by
    simp only [initialWorklist, OrderedMap.get_set, OrderedMap.get_empty]
  refine ⟨fun _ => rfl, fun id e h => ?_, ?_, fun id h => ?_, fun e => ?_, ?_, rfl, fun a b => ?_⟩
  · rw [hget] at h
    split at h
    · rename_i hid
      rw [← Option.some.inj h, hid]
      rfl
    · simp at h
  · rw [hget]
    exact if_pos rfl
  · rw [hget, if_neg (show id ≠ request.root.identity from h)]
    rfl
  · rw [hget]
    simp only [initialWorklist, List.nil_append, List.mem_singleton]
    constructor
    · intro h
      rw [h]
      exact if_pos rfl
    · intro h
      split at h
      · exact (Option.some.inj h).symm
      · simp at h
  · simp [initialWorklist]
  · simp [Follows, initialWorklist, asks]

theorem Point.firm (hset : Settles request) (h : Point request processed fuel w) :
    Firm (rootEntry request) (offeredFor request) (asks processed) processed w := by
  induction h with
  | start => exact initial_firm request
  | @next processed fuel w current queue hpoint hq ih =>
    refine ih.processEntry (request_candidates request) hq fun r hr => hset.rounds r ?_
    refine (hpoint.rest hset).rounds r ?_
    have hlimit := (hpoint.rest hset).within hset hq
    unfold loopRounds
    simp only [hq, hlimit, if_false]
    exact List.mem_append_left _ hr

theorem Point.bounded (hset : Settles request) (h : Point request processed fuel w) :
    w.queue.length ≤ fuel := by
  have hf := h.firm hset
  have hcand := request_candidates request
  have hsub : processed ++ w.queue ⊆ rootEntry request ::
      (discoverCandidates request.searchPath).candidates.values := by
    intro e he
    have hsel := (hf.queued e).1 he
    by_cases hroot : e.identity = (rootEntry request).identity
    · rw [hroot, hf.rooted] at hsel
      rw [Option.some.inj hsel]
      exact List.mem_cons_self ..
    · rw [hf.selected _ hroot] at hsel
      split at hsel
      · simp at hsel
      · exact List.mem_cons_of_mem _ ((hcand.mem_iff _ e).1 (choice_eq_some hsel).1).1
  have hlen := (hf.nodup.subperm hsub).length_le
  have hleft := (h.rest hset).left
  rw [List.length_append, List.length_cons, discoverCandidates_length] at hlen
  omega

theorem Point.drain (hset : Settles request) (front rest : List Entry)
    (h : Point request processed fuel w) (hq : w.queue = front ++ rest) :
    ∃ fuel' w', Point request (processed ++ front) fuel' w' ∧
      ∃ added, w'.queue = rest ++ added := by
  induction front generalizing processed fuel w rest with
  | nil => exact ⟨fuel, w, by simpa using h, [], by simpa using hq⟩
  | cons current front ih =>
    have hfuel := h.bounded hset
    rw [hq] at hfuel
    cases fuel with
    | zero => simp at hfuel
    | succ fuel =>
      have hnext := Point.next h (by rw [hq, List.cons_append])
      obtain ⟨added, hadded⟩ := processEntry_queue
        (discoverCandidates request.searchPath).rejected
        (request_candidates request) { w with queue := front ++ rest } current
      obtain ⟨fuel', w', hp, more, hmore⟩ := ih (rest ++ added) hnext
        (by rw [hadded, List.append_assoc])
      exact ⟨fuel', w', by simpa using hp, added ++ more, by rw [hmore, List.append_assoc]⟩

theorem Point.finished (hset : Settles request) (h : Point request processed fuel w)
    (hq : w.queue = []) : selection request = w := by
  rw [(h.rest hset).result]
  cases fuel with
  | zero => rfl
  | succ fuel =>
    unfold selectionLoop
    rw [hq]

end Point

end FilamentCore.Packages
