import FilamentCore.Compiler.ContractDiff
import FilamentCore.Library.FirstMatch

/-!
# Which types the classifier accounts for (src/compiler/compat/diff.mjs)

A type that only one document has is in the changes as an addition, a removal or an end of a
rename. A new type whose display name an old one has is reported only as the target of a rename, so
this holds where display names tell which removed type became which new one.
-/

namespace FilamentCore.Compiler.Diff
open FilamentCore.Library
open FilamentCore.SemanticIr
open FilamentCore.SemanticIr.Json

def Request.oldTypes (request : Request) : List (String × Json) :=
  byIdentity (request.old.get "types")

def Request.newTypes (request : Request) : List (String × Json) :=
  byIdentity (request.new.get "types")

/-- The types of `types` whose identity `others` does not have. -/
def onlyIn (types others : List (String × Json)) : List (String × Json) :=
  types.filter fun e => !has others e.1

/-- The identity a renamed type has now. -/
def Rationale.target : Rationale → Option String
  | .identityChanged _ target => some target
  | _ => none

/-- The change reports `identity` as added, as removed or as an end of a rename. -/
def Change.mentions (change : Change) (identity : String) : Prop :=
  match change.rationale with
  | .identityChanged _ target => change.identity = identity ∨ target = identity
  | .typeRemoved _ => change.identity = identity
  | .typeAdded _ => change.identity = identity
  | .other _ => False

structure Report.Accounts (report : Report) (request : Request) : Prop where
  mentioned : ∀ identity, has request.oldTypes identity ≠ has request.newTypes identity →
    ∃ change ∈ report.changes, change.mentions identity
  targets_nodup : (report.changes.filterMap fun change => change.rationale.target).Nodup

/-- A new type with the display name of an old one is the only new type of that name, and exactly
one removed type has it. -/
def Request.NamesPair (request : Request) : Prop :=
  ∀ added ∈ onlyIn request.newTypes request.oldTypes,
    (∃ old ∈ request.oldTypes, displayName old.2 = displayName added.2) →
      (∃ removed ∈ onlyIn request.oldTypes request.newTypes,
        displayName removed.2 = displayName added.2 ∧
          ∀ other ∈ onlyIn request.oldTypes request.newTypes,
            displayName other.2 = displayName added.2 → other = removed) ∧
      ∀ other ∈ onlyIn request.newTypes request.oldTypes,
        displayName other.2 = displayName added.2 → other = added

/-! ### Nodes by identity -/

theorem byIdentity_nodup (list : Option Json) : ((byIdentity list).map Prod.fst).Nodup :=
  (resolvedMembers_spec _).1

theorem byIdentity_key {list : Option Json} {e : String × Json} (he : e ∈ byIdentity list) :
    text (e.2.get "identity") = e.1 := by
  obtain ⟨node, -, h⟩ := List.mem_map.1 (mem_of_mem_resolved he)
  rw [← h]

theorem has_iff {types : List (String × Json)} {identity : String} :
    has types identity = true ↔ ∃ e ∈ types, e.1 = identity := by
  simp only [has, entry, Option.isSome_map, List.find?_isSome, beq_iff_eq]

theorem mem_onlyIn {types others : List (String × Json)} {e : String × Json} :
    e ∈ onlyIn types others ↔ e ∈ types ∧ has others e.1 = false := by
  simp [onlyIn]

theorem onlyIn_nodup {types others : List (String × Json)} (hn : (types.map Prod.fst).Nodup) :
    ((onlyIn types others).map Prod.fst).Nodup :=
  hn.sublist (List.filter_sublist.map _)

/-! ### Removals and additions -/

theorem renamed_eq {newTypes : List (String × Json)} (oldTypes : List (String × Json))
    (hkey : ∀ e ∈ newTypes, text (e.2.get "identity") = e.1) (e : String × Json) :
    renamed oldTypes newTypes e.2 = (FirstMatch.partner (fun e => displayName e.2)
      (fun e => displayName e.2) (onlyIn newTypes oldTypes) e).map Prod.snd := by
  rw [renamed, List.find?_map, FirstMatch.partner, Keyed.first, onlyIn, List.find?_filter]
  congr 1
  apply List.find?_congr
  intro c hc
  simp only [Function.comp_apply, hkey c hc, Bool.decide_and, Bool.decide_eq_true]
  exact Bool.and_comm _ _

def removal (newTypes oldTypes : List (String × Json)) (e : String × Json) : Change :=
  match renamed oldTypes newTypes e.2 with
  | some candidate => ⟨e.1, "identity", .breaking,
      .identityChanged (displayName e.2) (text (candidate.get "identity"))⟩
  | none => ⟨e.1, "type", .breaking, .typeRemoved (displayName e.2)⟩

theorem removals_eq (oldTypes newTypes : List (String × Json)) :
    removals oldTypes newTypes = (onlyIn oldTypes newTypes).map (removal newTypes oldTypes) := by
  have hlist : ∀ types : List (String × Json),
      (types.flatMap fun e => if has newTypes e.1 then [] else [removal newTypes oldTypes e]) =
        (onlyIn types newTypes).map (removal newTypes oldTypes) := by
    intro types
    induction types with
    | nil => rfl
    | cons e types ih =>
      rw [List.flatMap_cons, ih]
      cases h : has newTypes e.1 <;> simp [onlyIn, h]
  rw [removals, ← hlist oldTypes]
  congr 1
  funext e
  obtain ⟨identity, type⟩ := e
  cases hnew : has newTypes identity
  · cases h : renamed oldTypes newTypes type <;> simp [removal, h, hnew]
  · simp [hnew]

theorem additions_eq (oldTypes newTypes : List (String × Json)) :
    additions oldTypes newTypes = ((onlyIn newTypes oldTypes).filter fun e =>
      !oldTypes.any fun old => displayName old.2 == displayName e.2).map fun e =>
        ⟨e.1, "type", .additive, .typeAdded (displayName e.2)⟩ := by
  have hlist : ∀ types : List (String × Json),
      additions oldTypes types = ((onlyIn types oldTypes).filter fun e =>
        !oldTypes.any fun old => displayName old.2 == displayName e.2).map fun e =>
          ⟨e.1, "type", .additive, .typeAdded (displayName e.2)⟩ := by
    intro types
    induction types with
    | nil => rfl
    | cons e types ih =>
      rw [additions, List.flatMap_cons, ← additions, ih]
      cases h : has oldTypes e.1
      · cases hn : oldTypes.any fun old => displayName old.2 == displayName e.2 <;>
          simp [onlyIn, h, hn]
      · simp [onlyIn, h]
  exact hlist newTypes

theorem removal_mentions (newTypes oldTypes : List (String × Json)) (e : String × Json) :
    (removal newTypes oldTypes e).mentions e.1 := by
  cases h : renamed oldTypes newTypes e.2 with
  | none => simp [removal, h, Change.mentions]
  | some candidate => simp [removal, h, Change.mentions]

section

variable {oldTypes newTypes : List (String × Json)}

/-- The new type that a removed one became. -/
def successor (oldTypes newTypes : List (String × Json)) (e : String × Json) :
    Option (String × Json) :=
  FirstMatch.partner (fun e => displayName e.2) (fun e => displayName e.2)
    (onlyIn newTypes oldTypes) e

theorem removal_target (hkey : ∀ e ∈ newTypes, text (e.2.get "identity") = e.1)
    (e : String × Json) : (removal newTypes oldTypes e).rationale.target =
      (successor oldTypes newTypes e).map Prod.fst := by
  have hr := renamed_eq oldTypes hkey e
  cases h : successor oldTypes newTypes e with
  | none =>
    rw [← successor, h] at hr
    simp only [removal, hr]
    rfl
  | some c =>
    rw [← successor, h] at hr
    have hc := hkey c (mem_onlyIn.1 (FirstMatch.partner_some h).1).1
    simp only [removal, hr, Option.map_some]
    rw [← hc]
    rfl

theorem removals_targets (hkey : ∀ e ∈ newTypes, text (e.2.get "identity") = e.1) :
    ((removals oldTypes newTypes).filterMap fun change => change.rationale.target) =
      ((onlyIn oldTypes newTypes).filterMap (successor oldTypes newTypes)).map Prod.fst := by
  rw [removals_eq, List.filterMap_map, List.map_filterMap]
  congr 1
  funext e
  exact removal_target hkey e

theorem removals_targets_nodup (hn : (newTypes.map Prod.fst).Nodup)
    (hkey : ∀ e ∈ newTypes, text (e.2.get "identity") = e.1) :
    ((removals oldTypes newTypes).filterMap fun change => change.rationale.target).Nodup ↔
      ((onlyIn oldTypes newTypes).filterMap (successor oldTypes newTypes)).Nodup := by
  rw [removals_targets hkey]
  have hmem : ∀ c ∈ (onlyIn oldTypes newTypes).filterMap (successor oldTypes newTypes),
      c ∈ onlyIn newTypes oldTypes := by
    intro c hc
    obtain ⟨e, -, h⟩ := List.mem_filterMap.1 hc
    exact (FirstMatch.partner_some h).1
  refine ⟨List.Nodup.of_map _, List.Nodup.map_on ?_⟩
  intro c hc d hd he
  exact Keyed.eq_of_key (onlyIn_nodup hn) (hmem c hc) (hmem d hd) he

theorem added_mentioned (hn : (newTypes.map Prod.fst).Nodup)
    (hkey : ∀ e ∈ newTypes, text (e.2.get "identity") = e.1) {records : List Record}
    {e : String × Json} (he : e ∈ onlyIn newTypes oldTypes) :
    (∃ change ∈ removals oldTypes newTypes ++ additions oldTypes newTypes ++
        records.map Record.change, change.mentions e.1) ↔
      ((∃ old ∈ oldTypes, displayName old.2 = displayName e.2) →
        ∃ removed ∈ onlyIn oldTypes newTypes, successor oldTypes newTypes removed = some e) := by
  have hold := (mem_onlyIn.1 he).2
  constructor
  · intro h hname
    obtain ⟨change, hm, hc⟩ := h
    rw [List.mem_append, List.mem_append] at hm
    obtain (hm | hm) | hm := hm
    · rw [removals_eq] at hm
      obtain ⟨removed, hr, rfl⟩ := List.mem_map.1 hm
      refine ⟨removed, hr, ?_⟩
      have hne : removed.1 ≠ e.1 := by
        intro heq
        rw [← heq] at hold
        exact absurd (has_iff.2 ⟨removed, (mem_onlyIn.1 hr).1, rfl⟩) (by rw [hold]; decide)
      have hr' := renamed_eq oldTypes hkey removed
      cases hs : successor oldTypes newTypes removed with
      | none =>
        rw [← successor, hs] at hr'
        simp only [removal, hr', Change.mentions, Option.map_none] at hc
        exact absurd hc hne
      | some c =>
        rw [← successor, hs] at hr'
        have hcm := (FirstMatch.partner_some hs).1
        simp only [removal, hr', Change.mentions, Option.map_some] at hc
        rw [hkey c (mem_onlyIn.1 hcm).1] at hc
        rw [Keyed.eq_of_key (onlyIn_nodup hn) hcm he (hc.resolve_left hne)]
    · rw [additions_eq] at hm
      obtain ⟨added, ha, rfl⟩ := List.mem_map.1 hm
      rw [List.mem_filter] at ha
      have hae : added = e := Keyed.eq_of_key (onlyIn_nodup hn) ha.1 he hc
      obtain ⟨old, ho, hn⟩ := hname
      have hnone := ha.2
      rw [hae, Bool.not_eq_true', List.any_eq_false] at hnone
      exact absurd (by rw [hn]; exact beq_self_eq_true _) (hnone old ho)
    · obtain ⟨record, -, rfl⟩ := List.mem_map.1 hm
      exact absurd hc id
  · intro h
    by_cases hname : ∃ old ∈ oldTypes, displayName old.2 = displayName e.2
    · obtain ⟨removed, hr, hs⟩ := h hname
      refine ⟨removal newTypes oldTypes removed, ?_, ?_⟩
      · rw [List.mem_append, List.mem_append, removals_eq]
        exact Or.inl (Or.inl (List.mem_map_of_mem hr))
      · have hr' := renamed_eq oldTypes hkey removed
        rw [← successor, hs] at hr'
        simp only [removal, hr', Change.mentions, Option.map_some]
        exact Or.inr (hkey e (mem_onlyIn.1 he).1)
    · refine ⟨⟨e.1, "type", .additive, .typeAdded (displayName e.2)⟩, ?_, rfl⟩
      rw [List.mem_append, List.mem_append, additions_eq]
      refine Or.inl (Or.inr (List.mem_map.2 ⟨e, ?_, rfl⟩))
      rw [List.mem_filter]
      refine ⟨he, ?_⟩
      rw [Bool.not_eq_true', List.any_eq_false]
      intro old ho heq
      exact hname ⟨old, ho, eq_of_beq heq⟩

end

/-! ### The report -/

def Request.typeChanges (request : Request) : List Change :=
  removals request.oldTypes request.newTypes ++ additions request.oldTypes request.newTypes ++
    request.records.map Record.change

theorem others_targets (records : List Record) :
    ((records.map Record.change).filterMap fun change => change.rationale.target) = [] := by
  rw [List.filterMap_map]
  exact List.filterMap_eq_nil_iff.2 fun record _ => rfl

theorem additions_targets (oldTypes newTypes : List (String × Json)) :
    ((additions oldTypes newTypes).filterMap fun change => change.rationale.target) = [] := by
  rw [additions_eq, List.filterMap_map]
  exact List.filterMap_eq_nil_iff.2 fun e _ => rfl

/-- What is recorded of two documents without a change. -/
def Request.unchanged (request : Request) : Change :=
  ⟨text (some (nullish ((request.new.get "source").bind (·.get "identity"))
    (.str "ix://agent-ix/unknown/source"))), "documentation", .patch,
    .other "the two contracts have no classified surface changes"⟩

variable {request : Request} {report : Report}

theorem changes_of_none (h : request.typeChanges = []) :
    request.changes = [request.record request.unchanged] := by
  show (if request.typeChanges.isEmpty then [request.unchanged] else request.typeChanges).map _ = _
  rw [h]
  rfl

theorem changes_of_some (h : request.typeChanges ≠ []) :
    request.changes = request.typeChanges.map request.record := by
  show (if request.typeChanges.isEmpty then [request.unchanged] else request.typeChanges).map _ = _
  rw [if_neg fun he => h (List.isEmpty_iff.1 he)]

/-- A report holds the recorded changes in another order, and their most restrictive
disposition. -/
theorem report_spec (h : diffSemanticContract request = some report) :
    report.changes = (request.changes.insertionSort fun left right => changeLe left right = true) ∧
      report.aggregateDisposition = mostRestrictive (report.changes.map Change.disposition) := by
  rw [diffSemanticContract] at h
  split at h
  · rw [← Option.some.inj h]
    exact ⟨rfl, rfl⟩
  · exact absurd h (by simp)

theorem report_perm (h : diffSemanticContract request = some report) :
    ∃ changes : List Change, report.changes.Perm (changes.map request.record) ∧
      (changes = request.typeChanges ∨
        request.typeChanges = [] ∧ ∃ source observed disposition text,
          changes = [⟨source, observed, disposition, .other text⟩]) := by
  have hperm : report.changes.Perm request.changes := by
    rw [(report_spec h).1]
    exact List.perm_insertionSort _ _
  by_cases he : request.typeChanges = []
  · refine ⟨[request.unchanged], ?_, Or.inr ⟨he, _, _, _, _, rfl⟩⟩
    rwa [List.map_singleton, ← changes_of_none he]
  · refine ⟨request.typeChanges, ?_, Or.inl rfl⟩
    rwa [← changes_of_some he]

theorem report_mentions (h : diffSemanticContract request = some report) (identity : String) :
    (∃ change ∈ report.changes, change.mentions identity) ↔
      ∃ change ∈ request.typeChanges, change.mentions identity := by
  obtain ⟨changes, hperm, hchanges⟩ := report_perm h
  have hmem : (∃ change ∈ report.changes, change.mentions identity) ↔
      ∃ change ∈ changes, change.mentions identity := by
    constructor
    · intro hm
      obtain ⟨change, hc, hi⟩ := hm
      obtain ⟨original, ho, rfl⟩ := List.mem_map.1 (hperm.mem_iff.1 hc)
      exact ⟨original, ho, hi⟩
    · intro hm
      obtain ⟨change, hc, hi⟩ := hm
      exact ⟨request.record change, hperm.mem_iff.2 (List.mem_map_of_mem hc), hi⟩
  rw [hmem]
  obtain heq | ⟨hempty, source, observed, disposition, text, heq⟩ := hchanges
  · rw [heq]
  · rw [heq, hempty]
    simp [Change.mentions]

theorem report_targets (h : diffSemanticContract request = some report) :
    (report.changes.filterMap fun change => change.rationale.target).Perm
      ((removals request.oldTypes request.newTypes).filterMap
        fun change => change.rationale.target) := by
  obtain ⟨changes, hperm, hchanges⟩ := report_perm h
  refine (hperm.filterMap _).trans ?_
  have htargets : (request.typeChanges.filterMap fun change => change.rationale.target) =
      (removals request.oldTypes request.newTypes).filterMap
        fun change => change.rationale.target := by
    rw [Request.typeChanges, List.filterMap_append, List.filterMap_append, others_targets,
      additions_targets, List.append_nil, List.append_nil]
  rw [List.filterMap_map, ← htargets]
  obtain heq | ⟨hempty, source, observed, disposition, text, heq⟩ := hchanges
  · rw [heq]
    exact List.Perm.refl _
  · rw [heq, hempty]
    exact List.Perm.refl _

theorem removed_mentioned {e : String × Json} (he : e ∈ onlyIn request.oldTypes request.newTypes) :
    ∃ change ∈ request.typeChanges, change.mentions e.1 := by
  refine ⟨removal request.newTypes request.oldTypes e, ?_, removal_mentions _ _ _⟩
  rw [Request.typeChanges, List.mem_append, List.mem_append, removals_eq]
  exact Or.inl (Or.inl (List.mem_map_of_mem he))

theorem accounts_iff_covers (h : diffSemanticContract request = some report) :
    report.Accounts request ↔
      (∀ e ∈ onlyIn request.newTypes request.oldTypes,
        (∃ old ∈ request.oldTypes, displayName old.2 = displayName e.2) →
          ∃ removed ∈ onlyIn request.oldTypes request.newTypes,
            successor request.oldTypes request.newTypes removed = some e) ∧
        ((onlyIn request.oldTypes request.newTypes).filterMap
          (successor request.oldTypes request.newTypes)).Nodup := by
  have hn : (request.newTypes.map Prod.fst).Nodup := byIdentity_nodup _
  have hkey : ∀ e ∈ request.newTypes, text (e.2.get "identity") = e.1 := fun e => byIdentity_key
  have hnodup := (report_targets h).nodup_iff.trans (removals_targets_nodup hn hkey)
  rw [← hnodup]
  constructor
  · intro ha
    refine ⟨fun e he => ?_, ha.targets_nodup⟩
    have hone : has request.oldTypes e.1 ≠ has request.newTypes e.1 := by
      rw [(mem_onlyIn.1 he).2, has_iff.2 ⟨e, (mem_onlyIn.1 he).1, rfl⟩]
      decide
    exact (added_mentioned hn hkey he).1 ((report_mentions h e.1).1 (ha.mentioned e.1 hone))
  · intro hc
    refine ⟨fun identity hone => (report_mentions h identity).2 ?_, hc.2⟩
    cases hold : has request.oldTypes identity with
    | true =>
      obtain ⟨e, he, rfl⟩ := has_iff.1 hold
      rw [hold] at hone
      exact removed_mentioned (mem_onlyIn.2 ⟨he, by simpa using hone.symm⟩)
    | false =>
      rw [hold] at hone
      obtain ⟨e, he, rfl⟩ := has_iff.1 (by simpa using hone.symm : has request.newTypes identity)
      have hadded : e ∈ onlyIn request.newTypes request.oldTypes := mem_onlyIn.2 ⟨he, hold⟩
      exact (added_mentioned hn hkey hadded).2 (hc.1 e hadded)

/-- The report accounts for every type of one document alone exactly where display names pair the
removed types with the new ones. -/
theorem typesAccounted_iff (request : Request) (report : Report)
    (h : diffSemanticContract request = some report) :
    report.Accounts request ↔ request.NamesPair := by
  have hn : (onlyIn request.oldTypes request.newTypes).Nodup :=
    List.Nodup.of_map _ (onlyIn_nodup (byIdentity_nodup _))
  have hold : ∀ e ∈ onlyIn request.oldTypes request.newTypes,
      ∃ old ∈ request.oldTypes, displayName old.2 = displayName e.2 :=
    fun e he => ⟨e, (mem_onlyIn.1 he).1, rfl⟩
  have hcovers := @FirstMatch.covers_iff _ _ _ _ _ (fun e : String × Json => displayName e.2) _
    (onlyIn request.newTypes request.oldTypes)
    (fun name => ∃ old ∈ request.oldTypes, displayName old.2 = name) hn hold
  rw [accounts_iff_covers h]
  refine hcovers.trans ?_
  refine forall_congr' fun e => forall_congr' fun he => forall_congr' fun hname => ?_
  exact ⟨fun hp => ⟨hp.exists_left, hp.alone⟩, fun hp => ⟨hp.1, hp.2⟩⟩

/-- A document of string types with these identities and display names. -/
def stringTypes (types : List (String × String)) : Json :=
  .object [("contractVersion", .str "2.0.0"), ("types", .array (types.map fun type =>
    .object [("identity", .str type.1), ("kind", .str "scalar"), ("scalar", .str "string"),
      ("displayName", .str type.2)]))]

def stringsRequest (old new : List (String × String)) : Request where
  old := stringTypes old
  new := stringTypes new
  consumerPolicies := []
  evidence := .current
  targetResults := fun _ => []
  declared := []

theorem stringsRequest_reported (old new : List (String × String)) :
    ∃ report, diffSemanticContract (stringsRequest old new) = some report := by
  have hversion : ∀ types, (stringTypes types).get "contractVersion" = some (.str "2.0.0") :=
    fun types => rfl
  rw [diffSemanticContract, stringsRequest, hversion, hversion]
  exact ⟨_, if_pos (by simp)⟩

theorem namesPair_of_single {removed added : String × Json}
    (hold : onlyIn request.oldTypes request.newTypes = [removed])
    (hnew : onlyIn request.newTypes request.oldTypes = [added])
    (hname : displayName removed.2 = displayName added.2) : request.NamesPair := by
  intro e he _
  rw [hnew, List.mem_singleton] at he
  subst he
  refine ⟨⟨removed, by rw [hold]; exact List.mem_singleton_self _, hname, ?_⟩, ?_⟩
  · intro other ho _
    rw [hold] at ho
    exact List.mem_singleton.1 ho
  · intro other ho _
    rw [hnew] at ho
    exact List.mem_singleton.1 ho

def renamedType : Request :=
  stringsRequest [("ix://acme/pkg/type/Old", "Name")] [("ix://acme/pkg/type/New", "Name")]

theorem renamedType_accounted : ∃ report, diffSemanticContract renamedType = some report ∧
    report.Accounts renamedType := by
  obtain ⟨report, hreport⟩ := stringsRequest_reported [("ix://acme/pkg/type/Old", "Name")]
    [("ix://acme/pkg/type/New", "Name")]
  refine ⟨report, hreport, (typesAccounted_iff _ _ hreport).2 ?_⟩
  exact namesPair_of_single rfl rfl rfl

/-- A new type beside an old one of the same display name. -/
def sharedName : Request :=
  stringsRequest [("ix://acme/pkg/type/Kept", "Name")]
    [("ix://acme/pkg/type/Kept", "Name"), ("ix://acme/pkg/type/New", "Name")]

/-- It is in no change of the report. -/
theorem sharedName_unreported : ∃ report, diffSemanticContract sharedName = some report ∧
    has sharedName.oldTypes "ix://acme/pkg/type/New" = false ∧
    has sharedName.newTypes "ix://acme/pkg/type/New" = true ∧
    ¬ ∃ change ∈ report.changes, change.mentions "ix://acme/pkg/type/New" := by
  obtain ⟨report, hreport⟩ := stringsRequest_reported [("ix://acme/pkg/type/Kept", "Name")]
    [("ix://acme/pkg/type/Kept", "Name"), ("ix://acme/pkg/type/New", "Name")]
  refine ⟨report, hreport, rfl, rfl, fun hm => ?_⟩
  obtain ⟨change, hc, hi⟩ := (report_mentions hreport _).1 hm
  have htypes : removals sharedName.oldTypes sharedName.newTypes ++
      additions sharedName.oldTypes sharedName.newTypes = [] := rfl
  rw [Request.typeChanges, ← sharedName, htypes, List.nil_append] at hc
  obtain ⟨record, -, rfl⟩ := List.mem_map.1 hc
  exact hi

end FilamentCore.Compiler.Diff
