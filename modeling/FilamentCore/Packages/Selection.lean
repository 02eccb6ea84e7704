import FilamentCore.Packages.Resolve

/-!
# What the selection loop keeps

The import rounds of a run, the facts about the candidates the loop reads, and the
invariant every round keeps: the constraints recorded are those of the rounds made so
far, a selected candidate is the first one satisfying them unless none of its rounds
could be satisfied, and no candidate is queued twice.
-/

namespace FilamentCore.Packages
open FilamentCore.Compiler FilamentCore.Library

/-! ### Rounds -/

/-- One round of the import loop: the state it starts in, the manifest and the import. -/
structure Round where
  before : Worklist
  current : Entry
  item : Import × ℕ

namespace Round

def target (r : Round) : String := r.item.1.packageIdentity

/-- The state in which the round calls `select`. -/
def constrained (r : Round) (c : Constraint) : Worklist :=
  r.before.require r.current (requirementOf r.current r.item.2 r.item.1 c)

/-- What `select` answers in the round. -/
def chosen (grouped : String → List Entry) (r : Round) : Option Entry :=
  (parseConstraint r.item.1.versionConstraint).bind fun c =>
    select (r.constrained c) r.target (grouped r.target)

/-- The round puts another version in the place of the one selected before it. -/
def replaces (grouped : String → List Entry) (r : Round) : Bool :=
  match r.before.selected.get r.target, r.chosen grouped with
  | some previous, some chosen => previous.versionText ≠ chosen.versionText
  | _, _ => false

end Round

section Loop

variable (limits : Limits) (grouped : String → List Entry)
  (rejected : List Diagnostic)

def importRounds (current : Entry) : Worklist → List (Import × ℕ) → List Round
  | _, [] => []
  | w, item :: items =>
    ⟨w, current, item⟩ :: importRounds current (importStep grouped rejected current w item) items

/-- The rounds of `selectionLoop`, in order. -/
def loopRounds : ℕ → Worklist → List Round
  | 0, _ => []
  | fuel + 1, w =>
    match w.queue with
    | [] => []
    | current :: queue =>
      if limits.maxNodes < w.selected.size then []
      else
        importRounds grouped rejected current ({ w with queue }.openEdges current)
            current.manifest.imports.zipIdx ++
          loopRounds fuel (processEntry grouped rejected { w with queue } current)

/-- The manifests `selectionLoop` takes off the queue, in order. -/
def loopProcessed : ℕ → Worklist → List Entry
  | 0, _ => []
  | fuel + 1, w =>
    match w.queue with
    | [] => []
    | current :: queue =>
      if limits.maxNodes < w.selected.size then []
      else current ::
        loopProcessed fuel (processEntry grouped rejected { w with queue } current)

end Loop

/-- The import rounds `resolvePackageGraph` makes. -/
def rounds (request : Request) : List Round :=
  let d := discoverCandidates request.searchPath
  loopRounds request.limits (byIdentity d.candidates) d.rejected
    (d.candidates.size + 1) (initialWorklist request)

/-- The candidates of an identity, in the order `select` tries them. -/
def offeredFor (request : Request) : String → List Entry :=
  byIdentity (discoverCandidates request.searchPath).candidates

/-! ### The candidates -/

/-- What the loop relies on in the candidates: `pool` is all of them. -/
structure Candidates (root : Entry) (pool : List Entry) (grouped : String → List Entry) :
    Prop where
  mem_iff : ∀ id e, e ∈ grouped id ↔ e ∈ pool ∧ e.identity = id
  distinct : ∀ e ∈ pool, ∀ e' ∈ pool, e.identity = e'.identity →
    e.versionText = e'.versionText → e = e'
  sorted : ∀ id, (grouped id).Pairwise fun l r => entryBefore l r = true
  fresh : root ∉ pool

theorem groupEntry_get (es : List Entry) (m : OrderedMap String (List Entry)) (id : String) :
    ((es.foldl groupEntry m).get id).getD [] =
      (m.get id).getD [] ++ es.filter (fun e => e.identity = id) := by
  induction es generalizing m with
  | nil => simp
  | cons e es ih =>
    rw [List.foldl_cons, ih]
    by_cases h : id = e.identity
    · subst h
      simp [groupEntry]
    · simp [groupEntry, OrderedMap.get_set_ne _ _ h, Ne.symm h]

theorem entryBefore_iff (l r : Entry) :
    entryBefore l r = true ↔
      r.version.key < l.version.key ∨ (r.version.key = l.version.key ∧ l.order ≤ r.order) := by
  unfold entryBefore
  have h := compareVersions_compares r.version l.version
  cases hc : compareVersions r.version l.version with
  | lt =>
    rw [hc] at h
    simp [show r.version.key < l.version.key from h]
  | eq =>
    rw [hc] at h
    have he : r.version.key = l.version.key := h
    simp [he]
  | gt =>
    rw [hc] at h
    have hg : l.version.key < r.version.key := h
    simp [not_lt_of_gt hg, ne_of_gt hg]

theorem entryBefore_total (l r : Entry) : entryBefore l r = true ∨ entryBefore r l = true := by
  rw [entryBefore_iff, entryBefore_iff]
  rcases lt_trichotomy r.version.key l.version.key with h | h | h
  · exact Or.inl (Or.inl h)
  · rcases le_total l.order r.order with ho | ho
    · exact Or.inl (Or.inr ⟨h, ho⟩)
    · exact Or.inr (Or.inr ⟨h.symm, ho⟩)
  · exact Or.inr (Or.inl h)

theorem entryBefore_trans (a b c : Entry) (hab : entryBefore a b = true)
    (hbc : entryBefore b c = true) : entryBefore a c = true := by
  rw [entryBefore_iff] at *
  rcases hab with hab | ⟨hab, ho⟩ <;> rcases hbc with hbc | ⟨hbc, ho'⟩
  · exact Or.inl (hbc.trans hab)
  · exact Or.inl (hbc ▸ hab)
  · exact Or.inl (hab ▸ hbc)
  · exact Or.inr ⟨hbc.trans hab, ho.trans ho'⟩

theorem entryBefore_key_le {l r : Entry} (h : entryBefore l r = true) :
    r.version.key ≤ l.version.key := by
  rcases (entryBefore_iff l r).1 h with h | ⟨h, -⟩
  · exact h.le
  · exact h.le

theorem byIdentity_eq (candidates : OrderedMap String Entry) (id : String) :
    byIdentity candidates id =
      (candidates.values.filter (fun e => e.identity = id)).insertionSort
        (fun l r => entryBefore l r = true) := by
  unfold byIdentity
  rw [groupEntry_get]
  simp

/-- A candidate is filed under its own identity and version, at a declared position. -/
structure Filed (candidates : OrderedMap String Entry) : Prop where
  key : ∀ k e, candidates.get k = some e → k = candidateKey e.manifest
  order : ∀ k e, candidates.get k = some e → 0 ≤ e.order

theorem discoverOffer_filed (order : ℕ) (d : Discovery) (o : Offer) (h : Filed d.candidates) :
    Filed (discoverOffer order d o).candidates := by
  cases o with
  | escapes name message => exact h
  | rejected packageRoot diagnostics => exact h
  | readable packageRoot manifest =>
    cases hg : d.candidates.get (candidateKey manifest) with
    | some e =>
      simp only [discoverOffer, hg]
      exact h
    | none =>
      simp only [discoverOffer, hg]
      constructor
      · intro k e hk
        rw [OrderedMap.get_set] at hk
        split at hk
        · rename_i hkk
          rw [← Option.some.inj hk, hkk]
        · exact h.key k e hk
      · intro k e hk
        rw [OrderedMap.get_set] at hk
        split at hk
        · rw [← Option.some.inj hk]
          exact Int.natCast_nonneg order
        · exact h.order k e hk

theorem discoverCandidates_filed (searchPath : List (List Offer)) :
    Filed (discoverCandidates searchPath).candidates := by
  have inner (order : ℕ) (offers : List Offer) (d : Discovery) (h : Filed d.candidates) :
      Filed (offers.foldl (discoverOffer order) d).candidates := by
    induction offers generalizing d with
    | nil => exact h
    | cons o os ih => exact ih _ (discoverOffer_filed order d o h)
  have outer (dirs : List (List Offer × ℕ)) (d : Discovery) (h : Filed d.candidates) :
      Filed (dirs.foldl (fun d dir => dir.1.foldl (discoverOffer dir.2) d) d).candidates := by
    induction dirs generalizing d with
    | nil => exact h
    | cons dir dirs ih => exact ih _ (inner dir.2 dir.1 d h)
  exact outer _ _ ⟨fun k e h => by simp at h, fun k e h => by simp at h⟩

theorem request_candidates (request : Request) :
    Candidates (rootEntry request) (discoverCandidates request.searchPath).candidates.values
      (offeredFor request) := by
  have hf := discoverCandidates_filed request.searchPath
  constructor
  · intro id e
    rw [offeredFor, byIdentity_eq, List.mem_insertionSort, List.mem_filter, decide_eq_true_iff]
  · intro e he e' he' hid htext
    obtain ⟨k, hk⟩ := (OrderedMap.mem_values_iff _ e).1 he
    obtain ⟨k', hk'⟩ := (OrderedMap.mem_values_iff _ e').1 he'
    have hkey : candidateKey e.manifest = candidateKey e'.manifest := by
      unfold candidateKey
      rw [show e.manifest.identity = e'.manifest.identity from hid,
        show e.manifest.versionText = e'.manifest.versionText from htext]
    rw [hf.key k e hk, hkey, ← hf.key k' e' hk'] at hk
    exact Option.some.inj (hk.symm.trans hk')
  · intro id
    rw [offeredFor, byIdentity_eq]
    have : Std.Total fun l r : Entry => entryBefore l r = true := ⟨entryBefore_total⟩
    have : IsTrans Entry fun l r => entryBefore l r = true := ⟨entryBefore_trans⟩
    exact List.pairwise_insertionSort _ _
  · intro hm
    obtain ⟨k, hk⟩ := (OrderedMap.mem_values_iff _ _).1 hm
    have h := hf.order k _ hk
    simp [rootEntry] at h

/-! ### Constraints of the rounds made so far -/

def constraintsOn (seen : List Round) (id : String) : List Constraint :=
  seen.filterMap fun r =>
    if r.target = id then parseConstraint r.item.1.versionConstraint else none

def meets (cs : List Constraint) (e : Entry) : Prop := ∀ c ∈ cs, satisfies e.version c = true

theorem satisfiesAll_iff (rs : List Requirement) (e : Entry) :
    satisfiesAll rs e = true ↔ meets (rs.map (·.constraint)) e := by
  simp [satisfiesAll, meets]

theorem meets_append (cs cs' : List Constraint) (e : Entry) :
    meets (cs ++ cs') e ↔ meets cs e ∧ meets cs' e := by
  simp only [meets, List.mem_append, or_imp, forall_and]

theorem constraintsOn_append (seen seen' : List Round) (id : String) :
    constraintsOn (seen ++ seen') id = constraintsOn seen id ++ constraintsOn seen' id := by
  simp [constraintsOn]

theorem mem_constraintsOn (seen : List Round) (id : String) (c : Constraint) :
    c ∈ constraintsOn seen id ↔ ∃ r ∈ seen, r.target = id ∧
      parseConstraint r.item.1.versionConstraint = some c := by
  simp only [constraintsOn, List.mem_filterMap]
  refine exists_congr fun r => and_congr_right fun _ => ?_
  split
  · rename_i h
    simp [h]
  · rename_i h
    simp [h]

/-! ### The updates of a worklist -/

namespace Worklist

@[simp] theorem raise_selected (w : Worklist) (d : Diagnostic) :
    (w.raise d).selected = w.selected := rfl
@[simp] theorem raise_queue (w : Worklist) (d : Diagnostic) : (w.raise d).queue = w.queue := rfl
@[simp] theorem raise_required (w : Worklist) (d : Diagnostic) (id : String) :
    (w.raise d).required id = w.required id := rfl
@[simp] theorem raise_diagnostics (w : Worklist) (d : Diagnostic) :
    (w.raise d).diagnostics = w.diagnostics ++ [d] := rfl
@[simp] theorem require_selected (w : Worklist) (current : Entry) (r : Requirement) :
    (w.require current r).selected = w.selected := rfl
@[simp] theorem require_diagnostics (w : Worklist) (current : Entry) (r : Requirement) :
    (w.require current r).diagnostics = w.diagnostics := rfl
@[simp] theorem choose_selected (w : Worklist) (id : String) (e : Entry) :
    (w.choose id e).selected = w.selected.set id e := rfl
@[simp] theorem choose_queue (w : Worklist) (id : String) (e : Entry) :
    (w.choose id e).queue = w.queue ++ [e] := rfl
@[simp] theorem choose_required (w : Worklist) (id id' : String) (e : Entry) :
    (w.choose id e).required id' = w.required id' := rfl
@[simp] theorem openEdges_selected (w : Worklist) (e : Entry) :
    (w.openEdges e).selected = w.selected := rfl
@[simp] theorem openEdges_queue (w : Worklist) (e : Entry) :
    (w.openEdges e).queue = w.queue := rfl
@[simp] theorem openEdges_required (w : Worklist) (e : Entry) (id : String) :
    (w.openEdges e).required id = w.required id := rfl

theorem require_required (w : Worklist) (current : Entry) (r : Requirement) (id : String) :
    (w.require current r).required id =
      if r.entry.packageIdentity = id then w.required id ++ [r] else w.required id := by
  by_cases h : r.entry.packageIdentity = id
  · subst h
    simp [required, require]
  · rw [if_neg h, required, require, OrderedMap.get_set_ne _ _ (Ne.symm h), required]

end Worklist

section Loop

variable {limits : Limits} {root : Entry} {pool : List Entry} {grouped : String → List Entry}
  {rejected : List Diagnostic}

variable (grouped rejected) in
/-- The three ends of an import round: the constraint is not one, `select` finds
nothing after a diagnostic, or what it finds is settled. -/
theorem importStep_cases (current : Entry) (w : Worklist) (item : Import × ℕ) :
    (parseConstraint item.1.versionConstraint = none ∧
      ∃ d, importStep grouped rejected current w item = w.raise d) ∨
    ∃ c, parseConstraint item.1.versionConstraint = some c ∧
      (((∃ d, importStep grouped rejected current w item =
            (w.require current (requirementOf current item.2 item.1 c)).raise d) ∧
          ∀ e ∈ grouped item.1.packageIdentity, satisfies e.version c = false) ∨
        (importStep grouped rejected current w item =
            settle (w.require current (requirementOf current item.2 item.1 c))
              item.1.packageIdentity
              (select (w.require current (requirementOf current item.2 item.1 c))
                item.1.packageIdentity (grouped item.1.packageIdentity)) ∧
          ∃ e ∈ grouped item.1.packageIdentity, satisfies e.version c = true)) := by
  obtain ⟨entry, index⟩ := item
  cases hc : parseConstraint entry.versionConstraint with
  | none => exact Or.inl ⟨rfl, _, by simp only [importStep, hc]; rfl⟩
  | some c =>
    refine Or.inr ⟨c, rfl, ?_⟩
    by_cases ho : grouped entry.packageIdentity = []
    · refine Or.inl ⟨⟨_, by simp only [importStep, hc, ho, if_true]; rfl⟩, fun e he => ?_⟩
      rw [ho] at he
      exact absurd he List.not_mem_nil
    by_cases hm : (grouped entry.packageIdentity).filter (fun e => satisfies e.version c) = []
    · refine Or.inl ⟨⟨_, by simp only [importStep, hc, ho, hm, if_true, if_false]; rfl⟩, fun e he => ?_⟩
      have hne := List.filter_eq_nil_iff.1 hm e he
      simpa using hne
    · refine Or.inr ⟨by simp only [importStep, hc, ho, hm, if_false], ?_⟩
      obtain ⟨e, he⟩ := List.exists_mem_of_ne_nil _ hm
      exact ⟨e, (List.mem_filter.1 he).1, (List.mem_filter.1 he).2⟩

/-- The first candidate of an identity that satisfies `cs`. -/
def choice (grouped : String → List Entry) (cs : List Constraint) (id : String) : Option Entry :=
  ((grouped id).filter fun e => cs.all fun c => satisfies e.version c).head?

theorem select_eq_choice (w : Worklist) (id : String) :
    select w id (grouped id) = choice grouped ((w.required id).map (·.constraint)) id := by
  unfold select choice satisfiesAll
  congr 2
  funext e
  rw [List.all_map]
  rfl

theorem choice_eq_some {cs : List Constraint} {id : String} {e : Entry}
    (h : choice grouped cs id = some e) : e ∈ grouped id ∧ meets cs e := by
  have hm := List.mem_of_head? h
  rw [List.mem_filter, List.all_eq_true] at hm
  exact hm

theorem choice_ne_none {cs : List Constraint} {id : String} {e : Entry} (he : e ∈ grouped id)
    (hm : meets cs e) : choice grouped cs id ≠ none := by
  intro h
  exact List.filter_eq_nil_iff.1 (List.head?_eq_none_iff.1 h) e he (List.all_eq_true.2 hm)

theorem choice_append {cs cs' : List Constraint} {id : String} {e : Entry}
    (h : choice grouped cs id = some e) (hm : meets cs' e) :
    choice grouped (cs ++ cs') id = some e := by
  have hf : (fun e : Entry => (cs ++ cs').all fun c => satisfies e.version c) =
      fun e => (cs'.all fun c => satisfies e.version c) &&
        (cs.all fun c => satisfies e.version c) := by
    funext e
    rw [List.all_append, Bool.and_comm]
  unfold choice at h ⊢
  rw [hf, ← List.filter_filter]
  cases hl : (grouped id).filter fun e => cs.all fun c => satisfies e.version c with
  | nil => simp [hl] at h
  | cons a l =>
    rw [hl, List.head?_cons] at h
    have hp : (cs'.all fun c => satisfies e.version c) = true := List.all_eq_true.2 hm
    rw [Option.some.inj h, List.filter_cons, if_pos hp, List.head?_cons]

/-! ### The invariant -/

/-- What holds between two rounds, `seen` being the rounds made and `processed` the
manifests taken off the queue. -/
structure Kept (root : Entry) (pool : List Entry) (grouped : String → List Entry)
    (seen : List Round) (processed : List Entry) (w : Worklist) : Prop where
  required : ∀ id, (w.required id).map (·.constraint) = constraintsOn seen id
  home : ∀ id e, w.selected.get id = some e → e.identity = id
  rooted : ∃ e, w.selected.get root.identity = some e
  known : ∀ e ∈ processed ++ w.queue, e = root ∨ e ∈ pool
  queued : ∀ id e, w.selected.get id = some e → e ∈ processed ++ w.queue
  chosen : ∀ id e, w.selected.get id = some e → e ∈ pool → meets (constraintsOn seen id) e →
    choice grouped (constraintsOn seen id) id = some e
  spent : ∀ e ∈ processed ++ w.queue, e ∈ pool → meets (constraintsOn seen e.identity) e →
    w.selected.get e.identity = some e
  nodup : (processed ++ w.queue).Nodup
  quiet : w.diagnostics = [] → ∀ r ∈ seen,
    (∃ c, parseConstraint r.item.1.versionConstraint = some c) ∧
      ∃ e, w.selected.get r.target = some e

theorem constraintsOn_round (seen : List Round) (r : Round) (id : String) :
    constraintsOn (seen ++ [r]) id = constraintsOn seen id ++
      (if r.target = id then (parseConstraint r.item.1.versionConstraint).toList else []) := by
  rw [constraintsOn_append]
  congr 1
  by_cases h : r.target = id
  · simp only [constraintsOn, List.filterMap_cons, List.filterMap_nil, h, if_true]
    cases parseConstraint r.item.1.versionConstraint <;> rfl
  · simp [constraintsOn, h]

variable {seen : List Round} {processed : List Entry} {w : Worklist}

theorem Kept.unparsed (hk : Kept root pool grouped seen processed w) (current : Entry)
    (item : Import × ℕ) (hc : parseConstraint item.1.versionConstraint = none) (d : Diagnostic) :
    Kept root pool grouped (seen ++ [⟨w, current, item⟩]) processed (w.raise d) := by
  have hcs (id : String) : constraintsOn (seen ++ [⟨w, current, item⟩]) id =
      constraintsOn seen id := by
    rw [constraintsOn_round]
    simp [hc]
  constructor
  · intro id
    rw [hcs]
    exact hk.required id
  · exact hk.home
  · exact hk.rooted
  · exact hk.known
  · exact hk.queued
  · intro id e he hp hm
    rw [hcs] at hm ⊢
    exact hk.chosen id e he hp hm
  · intro e he hp hm
    rw [hcs] at hm
    exact hk.spent e he hp hm
  · exact hk.nodup
  · intro h
    simp at h

section Constrained

variable {c : Constraint} {current : Entry} {item : Import × ℕ}

theorem Kept.required_constrained (hk : Kept root pool grouped seen processed w)
    (hc : parseConstraint item.1.versionConstraint = some c) (id : String) :
    ((w.require current (requirementOf current item.2 item.1 c)).required id).map
      (·.constraint) = constraintsOn (seen ++ [⟨w, current, item⟩]) id := by
  rw [constraintsOn_round, Worklist.require_required]
  by_cases h : item.1.packageIdentity = id
  · rw [if_pos (by simpa [requirementOf] using h), if_pos (by simpa [Round.target] using h),
      List.map_append, hk.required, hc]
    rfl
  · rw [if_neg (by simpa [requirementOf] using h), if_neg (by simpa [Round.target] using h),
      hk.required, List.append_nil]

theorem meets_round (hc : parseConstraint item.1.versionConstraint = some c) (id : String)
    (e : Entry) :
    meets (constraintsOn (seen ++ [⟨w, current, item⟩]) id) e ↔
      meets (constraintsOn seen id) e ∧
        (item.1.packageIdentity = id → satisfies e.version c = true) := by
  rw [constraintsOn_round, meets_append]
  refine and_congr_right fun _ => ?_
  by_cases h : item.1.packageIdentity = id
  · simp [Round.target, h, hc, meets]
  · simp [Round.target, h, meets]

theorem choice_round_ne (id : String) (h : item.1.packageIdentity ≠ id) :
    constraintsOn (seen ++ [⟨w, current, item⟩]) id = constraintsOn seen id := by
  rw [constraintsOn_round]
  simp [Round.target, h]

theorem Kept.unmet (hcand : Candidates root pool grouped)
    (hk : Kept root pool grouped seen processed w)
    (hc : parseConstraint item.1.versionConstraint = some c)
    (hnone : ∀ e ∈ grouped item.1.packageIdentity,
      ¬ meets (constraintsOn (seen ++ [⟨w, current, item⟩]) item.1.packageIdentity) e)
    (w' : Worklist) (hsel : w'.selected = w.selected) (hq : w'.queue = w.queue)
    (hreq : ∀ id, (w'.required id).map (·.constraint) =
      constraintsOn (seen ++ [⟨w, current, item⟩]) id)
    (hquiet : w'.diagnostics = [] → w.diagnostics = [] ∧
      ∃ e, w.selected.get item.1.packageIdentity = some e) :
    Kept root pool grouped (seen ++ [⟨w, current, item⟩]) processed w' := by
  constructor
  · exact hreq
  · rw [hsel]
    exact hk.home
  · rw [hsel]
    exact hk.rooted
  · rw [hq]
    exact hk.known
  · rw [hsel, hq]
    exact hk.queued
  · intro id e he hp hm
    rw [hsel] at he
    by_cases h : item.1.packageIdentity = id
    · subst h
      exact absurd hm (hnone e ((hcand.mem_iff _ e).2 ⟨hp, hk.home _ e he⟩))
    · rw [choice_round_ne id h] at hm ⊢
      exact hk.chosen id e he hp hm
  · intro e he hp hm
    rw [hq] at he
    rw [hsel]
    exact hk.spent e he hp ((meets_round hc _ e).1 hm).1
  · rw [hq]
    exact hk.nodup
  · intro hd r hr
    obtain ⟨hd', e, he⟩ := hquiet hd
    rw [hsel]
    rcases List.mem_append.1 hr with hr | hr
    · exact hk.quiet hd' r hr
    · rw [List.mem_singleton.1 hr]
      exact ⟨⟨c, hc⟩, e, he⟩

theorem Kept.stays (hcand : Candidates root pool grouped)
    (hk : Kept root pool grouped seen processed w)
    (hc : parseConstraint item.1.versionConstraint = some c) {e₁ previous : Entry}
    (h₁ : choice grouped (constraintsOn (seen ++ [⟨w, current, item⟩]) item.1.packageIdentity)
      item.1.packageIdentity = some e₁)
    (hprev : w.selected.get item.1.packageIdentity = some previous)
    (htext : previous.versionText = e₁.versionText) :
    Kept root pool grouped (seen ++ [⟨w, current, item⟩]) processed
      (w.require current (requirementOf current item.2 item.1 c)) := by
  constructor
  · exact hk.required_constrained hc
  · exact hk.home
  · exact hk.rooted
  · exact hk.known
  · exact hk.queued
  · intro id e he hp hm
    by_cases h : item.1.packageIdentity = id
    · subst h
      have hep : e = previous := Option.some.inj (he.symm.trans hprev)
      have hg := (hcand.mem_iff _ e₁).1 (choice_eq_some h₁).1
      have hid : e.identity = e₁.identity := (hk.home _ e he).trans hg.2.symm
      rw [hcand.distinct e hp e₁ hg.1 hid (hep ▸ htext)]
      exact h₁
    · rw [choice_round_ne id h] at hm ⊢
      exact hk.chosen id e he hp hm
  · intro e he hp hm
    exact hk.spent e he hp ((meets_round hc _ e).1 hm).1
  · exact hk.nodup
  · intro hd r hr
    rcases List.mem_append.1 hr with hr | hr
    · exact hk.quiet hd r hr
    · rw [List.mem_singleton.1 hr]
      exact ⟨⟨c, hc⟩, previous, hprev⟩

theorem Kept.chooses (hcand : Candidates root pool grouped)
    (hk : Kept root pool grouped seen processed w)
    (hc : parseConstraint item.1.versionConstraint = some c) {e₁ : Entry}
    (h₁ : choice grouped (constraintsOn (seen ++ [⟨w, current, item⟩]) item.1.packageIdentity)
      item.1.packageIdentity = some e₁)
    (hnew : w.selected.get item.1.packageIdentity ≠ some e₁) :
    Kept root pool grouped (seen ++ [⟨w, current, item⟩]) processed
      ((w.require current (requirementOf current item.2 item.1 c)).choose
        item.1.packageIdentity e₁) := by
  have hg := (hcand.mem_iff _ e₁).1 (choice_eq_some h₁).1
  have hmeets := ((meets_round hc _ e₁).1 (choice_eq_some h₁).2).1
  have hfresh : e₁ ∉ processed ++ w.queue := by
    intro hm
    have hs := hk.spent e₁ hm hg.1 (by rw [hg.2]; exact hmeets)
    rw [hg.2] at hs
    exact hnew hs
  constructor
  · exact hk.required_constrained hc
  · intro id e he
    rw [Worklist.choose_selected, OrderedMap.get_set] at he
    split at he
    · rename_i h
      rw [← Option.some.inj he, h]
      exact hg.2
    · exact hk.home id e he
  · rw [Worklist.choose_selected, OrderedMap.get_set]
    split
    · exact ⟨e₁, rfl⟩
    · exact hk.rooted
  · intro e he
    rw [Worklist.choose_queue, ← List.append_assoc, List.mem_append, List.mem_singleton] at he
    rcases he with he | he
    · exact hk.known e he
    · exact Or.inr (he ▸ hg.1)
  · intro id e he
    rw [Worklist.choose_queue, ← List.append_assoc, List.mem_append, List.mem_singleton]
    rw [Worklist.choose_selected, OrderedMap.get_set] at he
    split at he
    · exact Or.inr (Option.some.inj he).symm
    · exact Or.inl (hk.queued id e he)
  · intro id e he hp hm
    rw [Worklist.choose_selected, OrderedMap.get_set] at he
    split at he
    · rename_i h
      rw [h, ← Option.some.inj he]
      exact h₁
    · rename_i h
      rw [choice_round_ne id (Ne.symm h)] at hm ⊢
      exact hk.chosen id e he hp hm
  · intro e he hp hm
    rw [Worklist.choose_queue, ← List.append_assoc, List.mem_append, List.mem_singleton] at he
    rw [Worklist.choose_selected, OrderedMap.get_set]
    rcases he with he | he
    · have hs := hk.spent e he hp ((meets_round hc _ e).1 hm).1
      split
      · rename_i h
        -- `e` was the choice and still meets the constraints, so it is `e₁`
        have hch := hk.chosen _ e hs hp ((meets_round hc _ e).1 hm).1
        have hap : meets (parseConstraint item.1.versionConstraint).toList e := by
          rw [hc]
          simpa [meets] using ((meets_round hc _ e).1 hm).2 h.symm
        have heq := choice_append hch hap
        rw [h] at heq
        rw [constraintsOn_round, if_pos (by rfl), heq] at h₁
        rw [Option.some.inj h₁]
      · exact hs
    · rw [if_pos (by rw [he]; exact hg.2), he]
  · rw [Worklist.choose_queue, ← List.append_assoc, List.nodup_append]
    refine ⟨hk.nodup, List.nodup_singleton _, fun a ha b hb hab => ?_⟩
    rw [List.mem_singleton] at hb
    exact hfresh (hb ▸ hab ▸ ha)
  · intro hd r hr
    rw [Worklist.choose_selected, OrderedMap.get_set]
    rcases List.mem_append.1 hr with hr | hr
    · obtain ⟨hp, e, he⟩ := hk.quiet hd r hr
      refine ⟨hp, ?_⟩
      split
      · exact ⟨e₁, rfl⟩
      · exact ⟨e, he⟩
    · rw [List.mem_singleton.1 hr]
      exact ⟨⟨c, hc⟩, e₁, if_pos rfl⟩

end Constrained

/-- A round keeps the invariant. -/
theorem Kept.importStep (hcand : Candidates root pool grouped)
    (hk : Kept root pool grouped seen processed w) (current : Entry) (item : Import × ℕ) :
    Kept root pool grouped (seen ++ [⟨w, current, item⟩]) processed
      (importStep grouped rejected current w item) := by
  obtain ⟨hc, d, hw⟩ | ⟨c, hc, ⟨⟨d, hw⟩, hno⟩ | ⟨hw, e₀, he₀, hs₀⟩⟩ :=
    importStep_cases grouped rejected current w item
  · rw [hw]
    exact hk.unparsed current item hc d
  · rw [hw]
    refine hk.unmet hcand hc ?_ _ rfl rfl (hk.required_constrained hc) (fun h => by simp at h)
    intro e he hm
    have h := ((meets_round hc _ e).1 hm).2 rfl
    rw [hno e he] at h
    exact absurd h (by simp)
  rw [hw, select_eq_choice, hk.required_constrained hc]
  cases h₁ : choice grouped (constraintsOn (seen ++ [⟨w, current, item⟩])
      item.1.packageIdentity) item.1.packageIdentity with
  | none =>
    refine hk.unmet hcand hc (fun e he hm => choice_ne_none he hm h₁) _ rfl rfl
      (hk.required_constrained hc) fun hd => ⟨hd, ?_⟩
    -- with nothing recorded before, the candidate satisfying `c` would be chosen
    by_contra hsel
    have hempty : constraintsOn seen item.1.packageIdentity = [] := by
      refine List.eq_nil_iff_forall_not_mem.2 fun c' hc' => ?_
      obtain ⟨r, hr, ht, -⟩ := (mem_constraintsOn _ _ _).1 hc'
      exact hsel (ht ▸ (hk.quiet hd r hr).2)
    refine choice_ne_none he₀ ?_ h₁
    rw [meets_round hc, hempty]
    exact ⟨fun c' hc' => absurd hc' List.not_mem_nil, fun _ => hs₀⟩
  | some e₁ =>
    rw [settle]
    cases hprev : w.selected.get item.1.packageIdentity with
    | none =>
      rw [Worklist.require_selected, hprev]
      exact hk.chooses hcand hc h₁ (by rw [hprev]; simp)
    | some previous =>
      rw [Worklist.require_selected, hprev]
      by_cases ht : previous.versionText = e₁.versionText
      · simp only [ht, ne_eq, not_true_eq_false, if_false]
        exact hk.stays hcand hc h₁ hprev ht
      · simp only [ne_eq, ht, not_false_eq_true, if_true]
        refine hk.chooses hcand hc h₁ fun h => ht ?_
        rw [hprev] at h
        rw [Option.some.inj h]

variable (rejected) in
theorem Kept.imports (hcand : Candidates root pool grouped) (current : Entry)
    (items : List (Import × ℕ)) (hk : Kept root pool grouped seen processed w) :
    Kept root pool grouped (seen ++ importRounds grouped rejected current w items) processed
      (items.foldl (FilamentCore.Packages.importStep grouped rejected current) w) := by
  induction items generalizing seen w with
  | nil => simpa [importRounds] using hk
  | cons item items ih =>
    rw [importRounds, List.foldl_cons, ← List.singleton_append, ← List.append_assoc]
    exact ih (hk.importStep hcand current item)

theorem Kept.dequeue {current : Entry} {queue : List Entry}
    (hk : Kept root pool grouped seen processed w) (hq : w.queue = current :: queue) :
    Kept root pool grouped seen (processed ++ [current])
      ({ w with queue }.openEdges current) := by
  have hmove : (processed ++ [current]) ++ queue = processed ++ w.queue := by
    rw [hq, List.append_assoc, List.singleton_append]
  constructor
  · exact hk.required
  · exact hk.home
  · exact hk.rooted
  · intro e he
    exact hk.known e (hmove ▸ he)
  · intro id e he
    exact hmove.symm ▸ hk.queued id e he
  · exact hk.chosen
  · intro e he
    exact hk.spent e (hmove ▸ he)
  · exact hmove.symm ▸ hk.nodup
  · exact hk.quiet

variable (limits rejected) in
/-- The whole loop keeps the invariant, over the rounds and manifests of its run. -/
theorem Kept.selectionLoop (hcand : Candidates root pool grouped) (fuel : ℕ)
    (hk : Kept root pool grouped seen processed w) :
    Kept root pool grouped (seen ++ loopRounds limits grouped rejected fuel w)
        (processed ++ loopProcessed limits grouped rejected fuel w)
        (selectionLoop limits root grouped rejected fuel w) ∨
      limitReached limits root ∈ (selectionLoop limits root grouped rejected fuel w).diagnostics := by
  induction fuel generalizing seen processed w with
  | zero =>
    left
    simpa [loopRounds, loopProcessed, FilamentCore.Packages.selectionLoop] using hk
  | succ fuel ih =>
    unfold loopRounds loopProcessed FilamentCore.Packages.selectionLoop
    cases hq : w.queue with
    | nil =>
      left
      simpa using hk
    | cons current queue =>
      by_cases hl : limits.maxNodes < w.selected.size
      · right
        simp [hl]
      · simp only [hl, if_false]
        have hk' := Kept.imports rejected hcand current
          current.manifest.imports.zipIdx (hk.dequeue hq)
        have h := ih hk'
        rw [List.append_assoc, List.append_assoc, List.singleton_append] at h
        exact h

variable (limits rejected) in
theorem Kept.queue_empty (hcand : Candidates root pool grouped) (fuel : ℕ)
    (hfuel : pool.length + 1 ≤ fuel + processed.length)
    (hk : Kept root pool grouped seen processed w) :
    (FilamentCore.Packages.selectionLoop limits root grouped rejected fuel w).queue = [] ∨
      limitReached limits root ∈
        (FilamentCore.Packages.selectionLoop limits root grouped rejected fuel w).diagnostics := by
  induction fuel generalizing seen processed w with
  | zero =>
    left
    have hsub : processed ++ w.queue ⊆ root :: pool := by
      intro e he
      rcases hk.known e he with h | h
      · rw [h]
        exact List.mem_cons_self ..
      · exact List.mem_cons_of_mem _ h
    have hlen := (List.subperm_of_subset hk.nodup hsub).length_le
    rw [List.length_append, List.length_cons] at hlen
    have hz : w.queue.length = 0 := by omega
    exact List.length_eq_zero_iff.1 hz
  | succ fuel ih =>
    unfold FilamentCore.Packages.selectionLoop
    cases hq : w.queue with
    | nil => exact Or.inl hq
    | cons current queue =>
      by_cases hl : limits.maxNodes < w.selected.size
      · right
        simp [hl]
      · simp only [hl, if_false]
        refine ih ?_ (Kept.imports rejected hcand current
          current.manifest.imports.zipIdx (hk.dequeue hq))
        rw [List.length_append, List.length_singleton]
        omega

/-! ### The rounds of a run -/

variable (grouped rejected) in
theorem importRounds_mem (current : Entry) (items : List (Import × ℕ)) (w : Worklist) :
    (∀ r ∈ importRounds grouped rejected current w items, r.current = current ∧ r.item ∈ items) ∧
      ∀ item ∈ items, ∃ r ∈ importRounds grouped rejected current w items,
        r.current = current ∧ r.item = item := by
  induction items generalizing w with
  | nil => simp [importRounds]
  | cons item items ih =>
    obtain ⟨hs, hc⟩ := ih (importStep grouped rejected current w item)
    constructor
    · intro r hr
      rcases List.mem_cons.1 hr with hr | hr
      · rw [hr]
        exact ⟨rfl, List.mem_cons_self ..⟩
      · exact ⟨(hs r hr).1, List.mem_cons_of_mem _ (hs r hr).2⟩
    · intro item' hi
      rcases List.mem_cons.1 hi with hi | hi
      · exact ⟨_, List.mem_cons_self .., rfl, hi.symm⟩
      · obtain ⟨r, hr, h⟩ := hc item' hi
        exact ⟨r, List.mem_cons_of_mem _ hr, h⟩

theorem loopRounds_mem (fuel : ℕ) (w : Worklist) :
    (∀ r ∈ loopRounds limits grouped rejected fuel w,
      r.current ∈ loopProcessed limits grouped rejected fuel w ∧
        r.item.1 ∈ r.current.manifest.imports) ∧
      ∀ e ∈ loopProcessed limits grouped rejected fuel w, ∀ i ∈ e.manifest.imports,
        ∃ r ∈ loopRounds limits grouped rejected fuel w, r.current = e ∧ r.item.1 = i := by
  induction fuel generalizing w with
  | zero => simp [loopRounds, loopProcessed]
  | succ fuel ih =>
    unfold loopRounds loopProcessed
    cases hq : w.queue with
    | nil => simp
    | cons current queue =>
      by_cases hl : limits.maxNodes < w.selected.size
      · simp [hl]
      simp only [hl, if_false]
      obtain ⟨his, hic⟩ := importRounds_mem grouped rejected current
        current.manifest.imports.zipIdx ({ w with queue }.openEdges current)
      obtain ⟨hs, hc⟩ := ih (processEntry grouped rejected { w with queue } current)
      constructor
      · intro r hr
        rcases List.mem_append.1 hr with hr | hr
        · obtain ⟨hcur, hitem⟩ := his r hr
          refine ⟨hcur ▸ List.mem_cons_self .., ?_⟩
          rw [hcur]
          exact (List.mem_zipIdx' hitem).2 ▸ List.getElem_mem _
        · exact ⟨List.mem_cons_of_mem _ (hs r hr).1, (hs r hr).2⟩
      · intro e he i hi
        rcases List.mem_cons.1 he with he | he
        · rw [he] at hi ⊢
          obtain ⟨n, hn, hget⟩ := List.getElem_of_mem hi
          obtain ⟨r, hr, hcur, hitem⟩ := hic (i, n)
            (List.mk_mem_zipIdx_iff_getElem?.2 (by rw [List.getElem?_eq_getElem hn, hget]))
          exact ⟨r, List.mem_append_left _ hr, hcur, by rw [hitem]⟩
        · obtain ⟨r, hr, h⟩ := hc e he i hi
          exact ⟨r, List.mem_append_right _ hr, h⟩

variable (rejected) in
theorem importStep_queue (hcand : Candidates root pool grouped) (current : Entry) (w : Worklist)
    (item : Import × ℕ) :
    ((importStep grouped rejected current w item).queue = w.queue ∧
      (importStep grouped rejected current w item).selected = w.selected) ∨
    ∃ e, e.identity = item.1.packageIdentity ∧
      (importStep grouped rejected current w item).queue = w.queue ++ [e] ∧
      (importStep grouped rejected current w item).selected =
        w.selected.set item.1.packageIdentity e ∧
      (Round.mk w current item).chosen grouped = some e ∧
      ∀ previous, w.selected.get item.1.packageIdentity = some previous →
        previous.versionText ≠ e.versionText := by
  obtain ⟨-, d, hw⟩ | ⟨c, hc, ⟨⟨d, hw⟩, -⟩ | ⟨hw, -⟩⟩ :=
    importStep_cases grouped rejected current w item
  · exact Or.inl (by rw [hw]; exact ⟨rfl, rfl⟩)
  · exact Or.inl (by rw [hw]; exact ⟨rfl, rfl⟩)
  rw [hw]
  have hch : (Round.mk w current item).chosen grouped =
      select (w.require current (requirementOf current item.2 item.1 c))
        item.1.packageIdentity (grouped item.1.packageIdentity) := by
    simp only [Round.chosen, hc, Option.bind_some, Round.constrained, Round.target]
  cases hs : select (w.require current (requirementOf current item.2 item.1 c))
      item.1.packageIdentity (grouped item.1.packageIdentity) with
  | none => exact Or.inl ⟨rfl, rfl⟩
  | some e =>
    have hid : e.identity = item.1.packageIdentity := by
      rw [select_eq_choice] at hs
      exact ((hcand.mem_iff _ e).1 (choice_eq_some hs).1).2
    rw [settle, Worklist.require_selected]
    cases hprev : w.selected.get item.1.packageIdentity with
    | none =>
      exact Or.inr ⟨e, hid, rfl, rfl, hch.trans hs, fun previous h => by simp at h⟩
    | some previous =>
      by_cases ht : previous.versionText = e.versionText
      · simp only [ht, ne_eq, not_true_eq_false, if_false]
        exact Or.inl ⟨rfl, rfl⟩
      · simp only [ne_eq, ht, not_false_eq_true, if_true]
        refine Or.inr ⟨e, hid, rfl, rfl, hch.trans hs, fun previous' h => ?_⟩
        rw [← Option.some.inj h]
        exact ht

theorem loopProcessed_induction (hcand : Candidates root pool grouped) (Q : String → Prop)
    (fuel : ℕ) (w : Worklist) (hqueue : ∀ e ∈ w.queue, Q e.identity)
    (hround : ∀ r ∈ loopRounds limits grouped rejected fuel w, Q r.current.identity →
      Q r.target) :
    ∀ e ∈ loopProcessed limits grouped rejected fuel w, Q e.identity := by
  have himports (current : Entry) (hcur : Q current.identity) (items : List (Import × ℕ))
      (w : Worklist) (hqueue : ∀ e ∈ w.queue, Q e.identity)
      (hround : ∀ r ∈ importRounds grouped rejected current w items, Q r.current.identity →
        Q r.target) :
      ∀ e ∈ (items.foldl (importStep grouped rejected current) w).queue, Q e.identity := by
    induction items generalizing w with
    | nil => exact hqueue
    | cons item items ih =>
      refine ih _ ?_ fun r hr => hround r (List.mem_cons_of_mem _ hr)
      have htarget : Q item.1.packageIdentity :=
        hround ⟨w, current, item⟩ (List.mem_cons_self ..) hcur
      rcases importStep_queue rejected hcand current w item with
        ⟨hq, -⟩ | ⟨e, hid, hq, -⟩
      · rw [hq]
        exact hqueue
      · intro e' he'
        rw [hq, List.mem_append, List.mem_singleton] at he'
        rcases he' with he' | he'
        · exact hqueue e' he'
        · rw [he', hid]
          exact htarget
  induction fuel generalizing w with
  | zero => simp [loopProcessed]
  | succ fuel ih =>
    unfold loopProcessed
    unfold loopRounds at hround
    cases hq : w.queue with
    | nil => simp
    | cons current queue =>
      rw [hq] at hqueue
      by_cases hl : limits.maxNodes < w.selected.size
      · simp [hl]
      simp only [hl, if_false, hq] at hround ⊢
      have hcur : Q current.identity := hqueue current (List.mem_cons_self ..)
      intro e he
      rcases List.mem_cons.1 he with he | he
      · rw [he]
        exact hcur
      · refine ih _ ?_ (fun r hr => hround r (List.mem_append_right _ hr)) e he
        exact himports current hcur _ _
          (fun e' he' => hqueue e' (List.mem_cons_of_mem _ he'))
          fun r hr => hround r (List.mem_append_left _ hr)

end Loop

end FilamentCore.Packages
