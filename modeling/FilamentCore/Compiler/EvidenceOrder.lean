import FilamentCore.Compiler.TypeAccounting
import FilamentCore.Library.Families

/-!
# Weaker consumer evidence (src/compiler/compat/diff.mjs)

The same documents, policies and target results under current, stale and unknown evidence: which
dispositions follow the evidence, and when none becomes more favourable as it gets weaker.
-/

namespace FilamentCore.Compiler.Diff
open FilamentCore.Library
open FilamentCore.SemanticIr
open FilamentCore.SemanticIr.Json

def Evidence.weakness : Evidence → ℕ
  | .current => 0
  | .stale => 1
  | .unknown => 2

def Request.under (request : Request) (evidence : Evidence) : Request :=
  { request with evidence := evidence }

/-- The same change, with a disposition that is at least as severe. -/
structure Change.AtMost (change other : Change) : Prop where
  identity : change.identity = other.identity
  observed : change.observed = other.observed
  rationale : change.rationale = other.rationale
  rank : change.disposition.rank ≤ other.disposition.rank

structure Report.AtMost (report other : Report) : Prop where
  changes : List.Forall₂ Change.AtMost report.changes other.changes
  aggregate : report.aggregateDisposition.rank ≤ other.aggregateDisposition.rank

/-- Weaker evidence gives no more favourable report. -/
def Request.Monotone (request : Request) : Prop :=
  ∀ stronger weaker : Evidence, stronger.weakness ≤ weaker.weakness → ∀ report other,
    diffSemanticContract (request.under stronger) = some report →
      diffSemanticContract (request.under weaker) = some other → report.AtMost other

/-- The optional fields that `next` has and `previous` does not. -/
def optionalAdditions (previous next : Json) : Set String :=
  {identity | ∃ e ∈ byIdentity (next.get "fields"), e.1 = identity ∧
    has (byIdentity (previous.get "fields")) e.1 = false ∧
    e.2.get "presence" ≠ some (.str "required")}

/-- The optional fields that the types of both documents gain. -/
def Request.optionalAdditions (request : Request) : Set String :=
  {identity | ∃ e ∈ request.newTypes, ∃ previous, entry request.oldTypes e.1 = some previous ∧
    identity ∈ Diff.optionalAdditions previous e.2}

/-- Where a policy rejects, the target results of a gained optional field are breaking anyway. -/
def Request.AdditionsHeld (request : Request) : Prop :=
  request.consumerPolicies.any rejects = true → ∀ identity ∈ request.optionalAdditions,
    ∃ result ∈ request.targetResults identity, Disposition.breaking.rank ≤ result.rank

/-! ### Records that follow the evidence -/

def Follows (policies : List Json) (identity : String) (record : Evidence → Record) : Prop :=
  ∃ observed rationale, ∀ evidence,
    record evidence = ⟨identity, observed, additionDisposition policies evidence, rationale⟩

/-- A list of records in which exactly those of `identities` follow the evidence. -/
def Sketched (policies : List Json) (identities : Set String)
    (list : Evidence → List Record) : Prop :=
  ∃ records, Family.Of list records ∧
    (∀ record ∈ records, (∀ evidence other, record evidence = record other) ∨
      ∃ identity ∈ identities, Follows policies identity record) ∧
    ∀ identity ∈ identities, ∃ record ∈ records, Follows policies identity record

section

variable {policies : List Json} {identities others : Set String}
variable {list list' : Evidence → List Record}

theorem sketched_const (l : List Record) : Sketched policies ∅ fun _ => l := by
  refine ⟨_, Family.of_const l, ?_, fun _ h => absurd h (Set.notMem_empty _)⟩
  intro record hr
  obtain ⟨a, -, rfl⟩ := List.mem_map.1 hr
  exact Or.inl fun _ _ => rfl

theorem sketched_addition (identity observed rationale : String) :
    Sketched policies {identity} fun evidence =>
      [⟨identity, observed, additionDisposition policies evidence, rationale⟩] := by
  refine ⟨[fun evidence => ⟨identity, observed, additionDisposition policies evidence, rationale⟩],
    fun _ => rfl, ?_, ?_⟩
  · intro record hr
    rw [List.mem_singleton.1 hr]
    exact Or.inr ⟨identity, rfl, observed, rationale, fun _ => rfl⟩
  · intro i hi
    rw [Set.mem_singleton_iff.1 hi]
    exact ⟨_, List.mem_singleton_self _, observed, rationale, fun _ => rfl⟩

theorem Sketched.append (h : Sketched policies identities list)
    (h' : Sketched policies others list') :
    Sketched policies (identities ∪ others) fun evidence => list evidence ++ list' evidence := by
  obtain ⟨records, hof, hkind, hall⟩ := h
  obtain ⟨records', hof', hkind', hall'⟩ := h'
  refine ⟨_, hof.append hof', ?_, ?_⟩
  · intro record hr
    obtain hr | hr := List.mem_append.1 hr
    · refine (hkind record hr).imp id fun hf => ?_
      obtain ⟨i, hi, hf⟩ := hf
      exact ⟨i, Or.inl hi, hf⟩
    · refine (hkind' record hr).imp id fun hf => ?_
      obtain ⟨i, hi, hf⟩ := hf
      exact ⟨i, Or.inr hi, hf⟩
  · intro i hi
    obtain hi | hi := hi
    · obtain ⟨record, hr, hf⟩ := hall i hi
      exact ⟨record, List.mem_append_left _ hr, hf⟩
    · obtain ⟨record, hr, hf⟩ := hall' i hi
      exact ⟨record, List.mem_append_right _ hr, hf⟩

theorem Sketched.append_const (h : Sketched policies identities list) (l : List Record) :
    Sketched policies identities fun evidence => list evidence ++ l := by
  have ha := h.append (sketched_const l)
  rwa [Set.union_empty] at ha

theorem Sketched.const_append (l : List Record) (h : Sketched policies identities list) :
    Sketched policies identities fun evidence => l ++ list evidence := by
  have ha := (sketched_const l).append h
  rwa [Set.empty_union] at ha

theorem sketched_flatMap {γ : Type} (l : List γ) {list : γ → Evidence → List Record}
    {identities : γ → Set String} (h : ∀ c ∈ l, Sketched policies (identities c) (list c)) :
    Sketched policies {i | ∃ c ∈ l, i ∈ identities c}
      fun evidence => l.flatMap fun c => list c evidence := by
  induction l with
  | nil =>
    have hempty : {i | ∃ c ∈ ([] : List γ), i ∈ identities c} = ∅ := by simp
    rw [hempty]
    exact sketched_const []
  | cons c l ih =>
    have hcons : {i | ∃ d ∈ c :: l, i ∈ identities d} =
        identities c ∪ {i | ∃ d ∈ l, i ∈ identities d} := by
      ext i
      simp
    rw [hcons]
    exact (h c List.mem_cons_self).append (ih fun d hd => h d (List.mem_cons_of_mem _ hd))

theorem Sketched.congr (h : Sketched policies identities list)
    (hl : ∀ evidence, list' evidence = list evidence)
    (hi : ∀ identity, identity ∈ others ↔ identity ∈ identities) :
    Sketched policies others list' := by
  rwa [Set.ext hi, funext hl]

theorem sketched_of_const (h : ∀ evidence, list evidence = list .current) :
    Sketched policies ∅ list := (sketched_const (list .current)).congr h fun _ => Iff.rfl

theorem diffFields_sketched (policies : List Json) (oldTypes newTypes : List (String × Json))
    (previous next : Json) : Sketched policies (optionalAdditions previous next)
      fun evidence => diffFields policies evidence oldTypes newTypes previous next := by
  refine Sketched.append_const (Sketched.const_append _ ?_) _
  refine @sketched_flatMap policies _ (byIdentity (next.get "fields")) _
    (fun e => {i | e.1 = i ∧ has (byIdentity (previous.get "fields")) e.1 = false ∧
      e.2.get "presence" ≠ some (.str "required")}) ?_
  intro e _
  cases hb : has (byIdentity (previous.get "fields")) e.1 with
  | true =>
    refine (sketched_of_const fun evidence => ?_).congr (fun _ => rfl) fun i => by simp
    simp [recordIf, hb]
  | false =>
    by_cases hp : e.2.get "presence" = some (.str "required")
    · refine (sketched_of_const fun evidence => ?_).congr (fun _ => rfl) fun i => by simp [hp]
      simp [recordIf, hb, hp]
    · have hreq : (e.2.get "presence" == some (.str "required")) = false := by simpa using hp
      refine (sketched_addition e.1 "field" ("the optional field " ++ text (e.2.get "name") ++
        " was added")).congr (fun evidence => ?_) fun i => by simp [hp, eq_comm]
      simp only [recordIf, hb, hreq, Bool.not_false, if_true, Bool.false_eq_true, if_false]

theorem diffVariants_sketched (policies : List Json) (previous next : Json) :
    ∃ identities, (policies.any rejects = true → identities = ∅) ∧ Sketched policies identities
      fun evidence => diffVariants policies evidence previous next := by
  refine ⟨{i | ∃ e ∈ byIdentity (next.get "variants"), i ∈ {i | e.1 = i ∧
    policies.any rejects = false ∧ next.get "kind" ≠ some (.str "union") ∧
      entry (byIdentity (previous.get "variants")) e.1 = none}}, fun hr => by simp [hr], ?_⟩
  refine Sketched.const_append _ (sketched_flatMap _ ?_)
  intro e _
  cases hb : entry (byIdentity (previous.get "variants")) e.1 with
  | some original =>
    refine (sketched_of_const fun evidence => ?_).congr (fun _ => rfl) fun i => by simp
    simp [hb]
  | none =>
    by_cases hk : next.get "kind" = some (.str "union")
    · refine (sketched_of_const fun evidence => ?_).congr (fun _ => rfl) fun i => by simp [hk]
      simp [hb, hk]
    · cases hr : policies.any rejects with
      | true =>
        refine (sketched_of_const fun evidence => ?_).congr (fun _ => rfl) fun i => by simp
        simp [hb, hk]
      | false =>
        refine (sketched_addition e.1 "enum" ("the variant " ++ text (e.2.get "name") ++
          " was added")).congr (fun evidence => ?_) fun i => by simp [hk, eq_comm]
        simp [hb, hk]

theorem diffType_sketched (policies : List Json) (oldTypes newTypes : List (String × Json))
    (identity : String) (previous next : Json) :
    ∃ identities, (policies.any rejects = true → identities = optionalAdditions previous next) ∧
      Sketched policies identities
        fun evidence => diffType policies evidence oldTypes newTypes identity previous next := by
  obtain ⟨variants, hempty, hvariants⟩ := diffVariants_sketched policies previous next
  have hfields := diffFields_sketched policies oldTypes newTypes previous next
  refine ⟨optionalAdditions previous next ∪ variants, fun hr => ?_, ?_⟩
  · rw [hempty hr, Set.union_empty]
  · refine Sketched.append_const ?_ _
    refine Sketched.append_const ?_ _
    refine Sketched.append_const ?_ _
    refine Sketched.append_const ?_ _
    refine Sketched.append_const ?_ _
    exact (hfields.const_append _).append hvariants

end

/-! ### The report -/

variable {request : Request} {report : Report}

theorem records_sketched (request : Request) :
    ∃ identities, (request.consumerPolicies.any rejects = true →
        identities = request.optionalAdditions) ∧
      Sketched request.consumerPolicies identities
        fun evidence => (request.under evidence).records := by
  have htype : ∀ e ∈ request.newTypes, ∀ previous, ∃ identities : Set String,
      (request.consumerPolicies.any rejects = true →
        identities = optionalAdditions previous e.2) ∧
      Sketched request.consumerPolicies identities fun evidence =>
        diffType request.consumerPolicies evidence request.oldTypes request.newTypes e.1 previous
          e.2 := fun e _ previous => diffType_sketched _ _ _ _ _ _
  choose! identities hr hs using htype
  refine ⟨{i | ∃ e ∈ request.newTypes, i ∈ {i | ∃ previous,
    entry request.oldTypes e.1 = some previous ∧ i ∈ identities e previous}}, fun h => ?_, ?_⟩
  · ext i
    constructor
    · intro hi
      obtain ⟨e, he, previous, hp, hi⟩ := hi
      rw [hr e he previous h] at hi
      exact ⟨e, he, previous, hp, hi⟩
    · intro hi
      obtain ⟨e, he, previous, hp, hi⟩ := hi
      exact ⟨e, he, previous, hp, by rw [hr e he previous h]; exact hi⟩
  · refine Sketched.append_const ?_ request.declared
    refine Sketched.append_const ?_ (diffConstructs request.old request.new)
    refine Sketched.append_const ?_ (diffPopulations request.old request.new)
    refine sketched_flatMap request.newTypes ?_
    intro e he
    cases hp : entry request.oldTypes e.1 with
    | none =>
      refine (sketched_of_const fun evidence => ?_).congr (fun _ => rfl) fun i => by simp
      rw [Request.oldTypes] at hp
      simp only [Request.under, hp]
    | some previous =>
      refine (hs e he previous).congr (fun evidence => ?_) fun i => by simp
      rw [Request.oldTypes] at hp
      simp only [Request.under, hp]
      rfl

/-- A change that enters an addition of `identity` with the disposition the evidence gives it. -/
def IsAddition (request : Request) (identity : String) (change : Evidence → Change) : Prop :=
  ∃ observed rationale, ∀ evidence, change evidence =
    ⟨identity, observed, additionDisposition request.consumerPolicies evidence, rationale⟩

/-- The changes under every evidence before the target results and the floor are taken in. -/
structure Entered (request : Request) (changes : List (Evidence → Change)) : Prop where
  kind : ∀ change ∈ changes, (∀ evidence other, change evidence = change other) ∨
    ∃ identity, (request.consumerPolicies.any rejects = true →
      identity ∈ request.optionalAdditions) ∧ IsAddition request identity change
  additions : request.consumerPolicies.any rejects = true → ∀ identity ∈ request.optionalAdditions,
    ∃ change ∈ changes, IsAddition request identity change

theorem entered_types (request : Request) : ∃ changes, Entered request changes ∧
    Family.Of (fun evidence => (request.under evidence).typeChanges) changes := by
  obtain ⟨identities, hreject, records, hof, hkind, hall⟩ := records_sketched request
  refine ⟨_, ⟨?_, ?_⟩, (Family.of_const (removals request.oldTypes request.newTypes ++
    additions request.oldTypes request.newTypes)).append (hof.map fun _ => Record.change)⟩
  · intro change hc
    obtain hc | hc := List.mem_append.1 hc
    · obtain ⟨a, -, rfl⟩ := List.mem_map.1 hc
      exact Or.inl fun _ _ => rfl
    · obtain ⟨record, hr, rfl⟩ := List.mem_map.1 hc
      obtain hconst | ⟨i, hi, observed, rationale, hf⟩ := hkind record hr
      · exact Or.inl fun evidence other => by simp only [hconst evidence other]
      · refine Or.inr ⟨i, fun h => hreject h ▸ hi, observed, .other rationale, fun evidence => ?_⟩
        simp only [hf evidence]
        rfl
  · intro h identity hi
    obtain ⟨record, hr, observed, rationale, hf⟩ := hall identity (hreject h ▸ hi)
    refine ⟨_, List.mem_append_right _ (List.mem_map_of_mem hr), observed, .other rationale,
      fun evidence => ?_⟩
    simp only [hf evidence]
    rfl

theorem entered_changes (request : Request) : ∃ changes, Entered request changes ∧
    Family.Of (fun evidence => (request.under evidence).changes)
      (changes.map fun change evidence => (request.under evidence).record (change evidence)) := by
  obtain ⟨changes, hentered, hof⟩ := entered_types request
  by_cases he : changes = []
  · subst he
    have hempty : ∀ evidence, (request.under evidence).typeChanges = [] := fun evidence =>
      hof evidence
    refine ⟨[fun _ => request.unchanged], ⟨?_, ?_⟩, fun evidence => ?_⟩
    · intro change hc
      rw [List.mem_singleton.1 hc]
      exact Or.inl fun _ _ => rfl
    · intro h identity hi
      obtain ⟨change, hc, -⟩ := hentered.additions h identity hi
      exact absurd hc List.not_mem_nil
    · exact changes_of_none (hempty evidence)
  · refine ⟨changes, hentered, fun evidence => ?_⟩
    have htypes : (request.under evidence).typeChanges = changes.map fun change => change evidence :=
      hof evidence
    have hne : (request.under evidence).typeChanges ≠ [] := by
      rw [htypes]
      exact fun h => he (List.map_eq_nil_iff.1 h)
    show (request.under evidence).changes = _
    rw [changes_of_some hne, htypes, List.map_map, List.map_map]
    rfl

/-! ### Dispositions -/

theorem rank_mostRestrictive_le {dispositions : List Disposition} {n : ℕ} :
    (mostRestrictive dispositions).rank ≤ n ↔ ∀ d ∈ dispositions, d.rank ≤ n := by
  have hfold : ∀ (dispositions : List Disposition) (start : Disposition),
      (dispositions.foldl (fun worst disposition =>
        if worst.rank < disposition.rank then disposition else worst) start).rank ≤ n ↔
          start.rank ≤ n ∧ ∀ d ∈ dispositions, d.rank ≤ n := by
    intro dispositions
    induction dispositions with
    | nil => simp
    | cons d ds ih =>
      intro start
      rw [List.foldl_cons, ih, List.forall_mem_cons]
      split <;> constructor <;> intro h <;> refine ⟨?_, ?_⟩ <;> grind
  rw [mostRestrictive, hfold]
  exact and_iff_right (Nat.zero_le n)

theorem rank_floor_le {identity : String} {disposition : Disposition} {n : ℕ} :
    (request.floor identity disposition).rank ≤ n ↔ disposition.rank ≤ n ∧
      (∀ result ∈ request.targetResults identity, result.rank ≤ n) ∧
        (request.evidence = .unknown → Disposition.unknown.rank ≤ n) := by
  rw [Request.floor, rank_mostRestrictive_le]
  by_cases h : request.evidence = .unknown <;> simp [h, or_imp, forall_and]

theorem additionDisposition_mono {policies : List Json} (hr : policies.any rejects = false)
    {stronger weaker : Evidence} (h : stronger.weakness ≤ weaker.weakness) :
    (additionDisposition policies stronger).rank ≤ (additionDisposition policies weaker).rank := by
  cases stronger <;> cases weaker <;>
    simp [additionDisposition, hr, Disposition.rank, Evidence.weakness] at h ⊢

theorem additionDisposition_le {policies : List Json} (evidence : Evidence) :
    (additionDisposition policies evidence).rank ≤ Disposition.breaking.rank := by
  rw [additionDisposition]
  split_ifs <;> decide

theorem additionDisposition_reject {policies : List Json} (hr : policies.any rejects = true)
    {evidence : Evidence} (h : evidence ≠ .unknown) :
    additionDisposition policies evidence = .breaking := by
  rw [additionDisposition, if_neg h, if_pos hr]

theorem floor_mono {identity : String} {stronger weaker : Evidence}
    (hw : stronger.weakness ≤ weaker.weakness) {disposition other : Disposition}
    (h : disposition.rank ≤ other.rank ∨
      ∃ result ∈ request.targetResults identity, disposition.rank ≤ result.rank) :
    ((request.under stronger).floor identity disposition).rank ≤
      ((request.under weaker).floor identity other).rank := by
  have hle := (@rank_floor_le (request.under weaker) identity other _).1 le_rfl
  obtain ⟨hother, hresults, hunknown⟩ := hle
  refine rank_floor_le.2 ⟨?_, hresults, fun hs => hunknown ?_⟩
  · obtain h | ⟨result, hr, h⟩ := h
    · exact h.trans hother
    · exact h.trans (hresults result hr)
  · have hs' : stronger = .unknown := hs
    subst hs'
    cases weaker <;> simp [Evidence.weakness] at hw
    rfl

theorem held_of_floor {identity : String} (h : ((request.under .current).floor identity
    .breaking).rank ≤ ((request.under .unknown).floor identity .unknown).rank) :
    ∃ result ∈ request.targetResults identity, Disposition.breaking.rank ≤ result.rank := by
  by_contra hno
  have hle : ((request.under .unknown).floor identity .unknown).rank ≤ 3 := by
    refine rank_floor_le.2 ⟨le_rfl, fun result hr => ?_, fun _ => le_rfl⟩
    have hlt : ¬ Disposition.breaking.rank ≤ result.rank := fun hle => hno ⟨result, hr, hle⟩
    have hfour : Disposition.breaking.rank = 4 := rfl
    omega
  have hbreaking := ((rank_floor_le.1 le_rfl).1.trans h).trans hle
  exact absurd hbreaking (by decide)

theorem entered_mono {changes : List (Evidence → Change)} (he : Entered request changes) :
    (∀ stronger weaker : Evidence, stronger.weakness ≤ weaker.weakness → ∀ change ∈ changes,
      ((request.under stronger).record (change stronger)).AtMost
        ((request.under weaker).record (change weaker))) ↔ request.AdditionsHeld := by
  constructor
  · intro h hr identity hi
    obtain ⟨change, hc, observed, rationale, hadd⟩ := he.additions hr identity hi
    have hrank := (h .current .unknown (by decide) change hc).rank
    rw [hadd, hadd, additionDisposition_reject hr (by decide)] at hrank
    exact held_of_floor hrank
  · intro hheld stronger weaker hw change hc
    obtain hconst | ⟨identity, hi, observed, rationale, hadd⟩ := he.kind change hc
    · rw [hconst stronger weaker]
      exact ⟨rfl, rfl, rfl, floor_mono hw (Or.inl le_rfl)⟩
    · rw [hadd, hadd]
      refine ⟨rfl, rfl, rfl, floor_mono hw ?_⟩
      cases hr : request.consumerPolicies.any rejects with
      | false => exact Or.inl (additionDisposition_mono hr hw)
      | true =>
        obtain ⟨result, hm, hresult⟩ := hheld hr identity (hi hr)
        exact Or.inr ⟨result, hm, (additionDisposition_le stronger).trans hresult⟩

theorem entered_order {changes : List (Evidence → Change)} (he : Entered request changes)
    {change other : Evidence → Change} (hc : change ∈ changes) (ho : other ∈ changes)
    (evidence : Evidence) :
    changeLe (change .current) (other .current) = changeLe (change evidence) (other evidence) := by
  have hkept : ∀ change ∈ changes, (change .current).identity = (change evidence).identity ∧
      (change .current).rationale = (change evidence).rationale := by
    intro change hc
    obtain hconst | ⟨identity, -, observed, rationale, hadd⟩ := he.kind change hc
    · rw [hconst .current evidence]
      exact ⟨rfl, rfl⟩
    · rw [hadd, hadd]
      exact ⟨rfl, rfl⟩
  rw [changeLe, changeLe, (hkept change hc).1, (hkept other ho).1, (hkept change hc).2,
    (hkept other ho).2]

theorem reports_family (request : Request) : ∃ changes recorded : List (Evidence → Change),
    Entered request changes ∧
    recorded.Perm (changes.map fun change evidence =>
      (request.under evidence).record (change evidence)) ∧
    ∀ evidence report, diffSemanticContract (request.under evidence) = some report →
      report.changes = (recorded.map fun change => change evidence) ∧
      report.aggregateDisposition = mostRestrictive (report.changes.map Change.disposition) := by
  obtain ⟨changes, hentered, hof⟩ := entered_changes request
  have hsorted := hof.insertionSort (r := fun left right => changeLe left right = true) .current
    (by
      intro a ha b hb evidence
      obtain ⟨change, hc, rfl⟩ := List.mem_map.1 ha
      obtain ⟨other, ho, rfl⟩ := List.mem_map.1 hb
      exact iff_of_eq (congrArg (· = true) (entered_order hentered hc ho evidence)))
  refine ⟨changes, (changes.map fun change evidence =>
    (request.under evidence).record (change evidence)).insertionSort fun left right =>
      changeLe (left .current) (right .current) = true, hentered, List.perm_insertionSort _ _,
    fun evidence report h => ⟨(report_spec h).1.trans (hsorted evidence), (report_spec h).2⟩⟩

theorem aggregate_mono {changes others : List Change} (h : List.Forall₂ Change.AtMost changes others) :
    (mostRestrictive (changes.map Change.disposition)).rank ≤
      (mostRestrictive (others.map Change.disposition)).rank := by
  rw [rank_mostRestrictive_le]
  intro d hd
  induction h with
  | nil => exact absurd hd List.not_mem_nil
  | @cons change other changes others hle _ ih =>
    have hall := (@rank_mostRestrictive_le ((other :: others).map Change.disposition) _).1 le_rfl
    rw [List.map_cons, List.mem_cons] at hd
    obtain rfl | hd := hd
    · exact hle.rank.trans (hall _ List.mem_cons_self)
    · exact (ih hd).trans (rank_mostRestrictive_le.2 fun e he => hall e (List.mem_cons_of_mem _ he))

/-- No report becomes more favourable under weaker evidence exactly where a rejecting policy
makes no gained optional field breaking that its target results do not. -/
theorem evidenceMonotone_iff (request : Request) (report : Report)
    (h : diffSemanticContract request = some report) :
    request.Monotone ↔ request.AdditionsHeld := by
  obtain ⟨changes, recorded, hentered, hperm, hreports⟩ := reports_family request
  rw [← entered_mono hentered]
  have hadmitted : ∀ evidence, ∃ report,
      diffSemanticContract (request.under evidence) = some report := by
    intro evidence
    rw [diffSemanticContract] at h ⊢
    split at h
    · exact ⟨_, if_pos (by assumption)⟩
    · exact absurd h (by simp)
  constructor
  · intro hmono stronger weaker hw change hc
    obtain ⟨report, hreport⟩ := hadmitted stronger
    obtain ⟨other, hother⟩ := hadmitted weaker
    have hrel := (hmono stronger weaker hw report other hreport hother).changes
    rw [(hreports _ _ hreport).1, (hreports _ _ hother).1, List.forall₂_map_left_iff,
      List.forall₂_map_right_iff, List.forall₂_same] at hrel
    exact hrel _ (hperm.mem_iff.2 (List.mem_map_of_mem hc))
  · intro hmono stronger weaker hw report other hreport hother
    have hchanges : List.Forall₂ Change.AtMost report.changes other.changes := by
      rw [(hreports _ _ hreport).1, (hreports _ _ hother).1, List.forall₂_map_left_iff,
        List.forall₂_map_right_iff, List.forall₂_same]
      intro entry hm
      obtain ⟨change, hc, rfl⟩ := List.mem_map.1 (hperm.mem_iff.1 hm)
      exact hmono stronger weaker hw change hc
    refine ⟨hchanges, ?_⟩
    rw [(hreports _ _ hreport).2, (hreports _ _ hother).2]
    exact aggregate_mono hchanges

/-- A record type of which `next` has one more optional field, under a policy that rejects. -/
def gainedField (results : List Disposition) : Request where
  old := .object [("contractVersion", .str "2.0.0"), ("types", .array [.object
    [("identity", .str "ix://acme/pkg/type/Item"), ("kind", .str "record"),
      ("displayName", .str "Item"), ("fields", .array [])]])]
  new := .object [("contractVersion", .str "2.0.0"), ("types", .array [.object
    [("identity", .str "ix://acme/pkg/type/Item"), ("kind", .str "record"),
      ("displayName", .str "Item"), ("fields", .array [.object
        [("identity", .str "ix://acme/pkg/type/Item/field/note"), ("name", .str "note"),
          ("presence", .str "optional"), ("nullable", .bool false)]])]])]
  consumerPolicies := [.object [("consumer", .str "acme"), ("unknownExtensions", .str "reject")]]
  evidence := .current
  targetResults := fun _ => results
  declared := []

theorem gainedField_reported (results : List Disposition) (evidence : Evidence) :
    ∃ report, diffSemanticContract ((gainedField results).under evidence) = some report := by
  have hold : (gainedField results).old.get "contractVersion" = some (.str "2.0.0") := rfl
  have hnew : (gainedField results).new.get "contractVersion" = some (.str "2.0.0") := rfl
  rw [diffSemanticContract, Request.under, hold, hnew]
  exact ⟨_, if_pos (by simp)⟩

/-- With a breaking target result. -/
theorem gainedField_monotone : (gainedField [.breaking]).Monotone := by
  obtain ⟨report, h⟩ := gainedField_reported [.breaking] .current
  exact (evidenceMonotone_iff _ report h).2 fun _ _ _ => ⟨.breaking, List.mem_singleton_self _, le_rfl⟩

/-- Without one the report under unknown evidence is more favourable than under stale evidence. -/
theorem gainedField_relaxed : ∃ stale unknown,
    diffSemanticContract ((gainedField []).under .stale) = some stale ∧
    diffSemanticContract ((gainedField []).under .unknown) = some unknown ∧
    unknown.aggregateDisposition.rank < stale.aggregateDisposition.rank := by
  obtain ⟨stale, hs⟩ := gainedField_reported [] .stale
  obtain ⟨unknown, hu⟩ := gainedField_reported [] .unknown
  refine ⟨stale, unknown, hs, hu, ?_⟩
  have hranks : ∀ evidence, ((gainedField []).under evidence).changes.map
      (fun change => change.disposition.rank) = [if evidence = .unknown then 3 else 4] := by
    intro evidence
    cases evidence <;> decide +kernel
  have haggregate : ∀ {evidence report}, diffSemanticContract ((gainedField []).under evidence) =
      some report → ∀ n, report.aggregateDisposition.rank ≤ n ↔
        (if evidence = .unknown then 3 else 4) ≤ n := by
    intro evidence report h n
    obtain ⟨hsorted, haggregate⟩ := report_spec h
    have hmem : ∀ change, change ∈ report.changes ↔
        change ∈ ((gainedField []).under evidence).changes := by
      rw [hsorted]
      exact fun change => List.mem_insertionSort _
    rw [haggregate, rank_mostRestrictive_le, List.forall_mem_map]
    simp only [hmem]
    have hrank := hranks evidence
    rw [← List.forall_mem_map (f := fun change : Change => change.disposition.rank)
      (P := fun rank => rank ≤ n), hrank, List.forall_mem_singleton]
  have hstale := (haggregate hs 3).not.2 (by decide)
  have hunknown := (haggregate hu 3).2 (by decide)
  omega

end FilamentCore.Compiler.Diff
