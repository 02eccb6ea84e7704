import FilamentCore.Library.KeyedList
import FilamentCore.Frontend.Owners

/-!
# What the construct pass keeps

The last round refuses nothing: what its rules look at holds of every artifact kept. The order of
the artifacts changes neither what is kept nor the owners.
-/

namespace FilamentCore.Frontend
open FilamentCore.Library
open FilamentCore.SemanticIr (Declaration Presence Member Rule)

/-! ### Composite owners -/

/-- A composite relationship of `o` targets the type `t`. -/
def Pending.Contains (o : Pending) (t : String) : Prop :=
  ∃ r ∈ relationships o.definition, r.composite = true ∧ r.targetEnd.typeRef = t

instance (o : Pending) (t : String) : Decidable (o.Contains t) :=
  inferInstanceAs (Decidable (∃ r ∈ relationships o.definition, _ ∧ _))

def Pending.asOwner (o : Pending) : Owner := ⟨o.identity, o.definition.roles⟩

def ownersOf (owners : OrderedMap String (List Owner)) (t : String) : List Owner :=
  (owners.get t).getD []

theorem ownersOf_addOwner (d : TypeDefinition) (owners : OrderedMap String (List Owner))
    (edge : Relationship) (t : String) :
    ownersOf (addOwner d owners edge) t =
      if edge.targetEnd.typeRef = t ∧ d.identity ∉ (ownersOf owners t).map (·.identity) then
        ownersOf owners t ++ [⟨d.identity, d.roles⟩]
      else ownersOf owners t := by
  have hany : ∀ l : List Owner, (l.any fun owner => owner.identity == d.identity) = true ↔
      d.identity ∈ l.map (·.identity) := by
    intro l
    simp only [List.any_eq_true, List.mem_map, beq_iff_eq]
  simp only [ownersOf, addOwner, OrderedMap.get_set]
  by_cases ht : edge.targetEnd.typeRef = t
  · subst ht
    by_cases hd : d.identity ∈ (((owners.get edge.targetEnd.typeRef).getD []).map (·.identity))
    · simp [(hany _).2 hd, hd]
    · have hf := mt (hany _).1 hd
      simp [hf, hd]
  · simp [ht, Ne.symm ht]

theorem ownersOf_fold (d : TypeDefinition) (es : List Relationship)
    (owners : OrderedMap String (List Owner)) (t : String) :
    ownersOf (es.foldl (addOwner d) owners) t =
      if (∃ e ∈ es, e.targetEnd.typeRef = t) ∧
          d.identity ∉ (ownersOf owners t).map (·.identity) then
        ownersOf owners t ++ [⟨d.identity, d.roles⟩]
      else ownersOf owners t := by
  induction es generalizing owners with
  | nil => simp
  | cons e es ih =>
    rw [List.foldl_cons, ih, ownersOf_addOwner]
    by_cases ht : e.targetEnd.typeRef = t <;>
      by_cases hd : d.identity ∈ (ownersOf owners t).map (·.identity) <;> simp [ht, hd]

def addOwners (owners : OrderedMap String (List Owner)) (item : Pending) :
    OrderedMap String (List Owner) :=
  ((relationships item.definition).filter (·.composite)).foldl (addOwner item.definition) owners

theorem ownersOf_addOwners {owners : OrderedMap String (List Owner)} {item : Pending} {t : String}
    (hi : item.identity ∉ (ownersOf owners t).map (·.identity)) :
    ownersOf (addOwners owners item) t =
      ownersOf owners t ++ ([item].filter fun o => decide (o.Contains t)).map Pending.asOwner := by
  have hc : (∃ e ∈ (relationships item.definition).filter (·.composite),
      e.targetEnd.typeRef = t) ↔ item.Contains t := by
    simp only [List.mem_filter, Pending.Contains, and_assoc]
  rw [addOwners, ownersOf_fold]
  by_cases hcon : item.Contains t
  · rw [if_pos ⟨hc.2 hcon, hi⟩]
    simp [hcon, Pending.asOwner, Pending.identity]
  · rw [if_neg (fun h => hcon (hc.1 h.1))]
    simp [hcon]

theorem ownersOf_foldl {l : List Pending} (hn : (l.map (·.identity)).Nodup) {t : String}
    {owners : OrderedMap String (List Owner)}
    (ho : ∀ o ∈ l, o.identity ∉ (ownersOf owners t).map (·.identity)) :
    ownersOf (l.foldl addOwners owners) t =
      ownersOf owners t ++ (l.filter fun o => decide (o.Contains t)).map Pending.asOwner := by
  induction l generalizing owners with
  | nil => simp
  | cons item l ih =>
    have hadd := ownersOf_addOwners (ho item List.mem_cons_self)
    simp only [List.map_cons, List.nodup_cons] at hn
    rw [List.foldl_cons, ih hn.2, hadd, List.append_assoc, ← List.map_append, ← List.filter_append]
    · rfl
    · intro o hol
      rw [hadd, List.map_append, List.mem_append, not_or]
      refine ⟨ho o (List.mem_cons_of_mem _ hol), ?_⟩
      intro hm
      obtain ⟨w, hw, he⟩ := List.mem_map.1 hm
      obtain ⟨v, hv, rfl⟩ := List.mem_map.1 hw
      obtain rfl := List.mem_singleton.1 (List.mem_filter.1 hv).1
      have he' : v.identity = o.identity := he
      exact hn.1 (he' ▸ List.mem_map_of_mem hol)

theorem ownersOf_compositeOwners {p : List Pending} (hn : (p.map (·.identity)).Nodup) (t : String) :
    ownersOf (compositeOwners p) t =
      (p.filter fun o => decide (o.Contains t)).map Pending.asOwner := by
  have h := @ownersOf_foldl p hn t .empty (by simp [ownersOf])
  exact h

/-- The declaration of `item` admits an owner of these roles. -/
def Pending.Admits (item : Pending) (roles : List String) : Prop :=
  ∀ c ∈ item.construct, ∀ admitted ∈ c.declaration.roles .owner, ∃ role ∈ roles, role ∈ admitted

/-- `o` is an admitted composite owner of `item`. -/
def Pending.Owns (o item : Pending) : Prop :=
  o.Contains item.identity ∧ item.Admits o.definition.roles

instance (item : Pending) (roles : List String) : Decidable (item.Admits roles) :=
  inferInstanceAs (Decidable (∀ c ∈ item.construct, _))

instance (o item : Pending) : Decidable (o.Owns item) := inferInstanceAs (Decidable (_ ∧ _))

theorem foundOwners_eq {p : List Pending} (hn : (p.map (·.identity)).Nodup) {item : Pending}
    {d : Declaration} (hd : item.construct = some ⟨d⟩) :
    foundOwners item d (compositeOwners p) =
      (p.filter fun o => decide (o.Owns item)).map Pending.asOwner := by
  have ho := ownersOf_compositeOwners hn item.identity
  rw [ownersOf] at ho
  rw [foundOwners, ho, List.filter_map, List.filter_filter]
  congr 1
  apply List.filter_congr
  intro o _
  simp only [Function.comp, Pending.Owns, Pending.Admits, hd, Pending.asOwner, Bool.decide_and,
    Option.mem_def, Option.some.injEq, forall_eq']
  rw [Bool.and_comm]
  congr 1
  cases hr : d.roles .owner with
  | none => simp
  | some admitted =>
    rw [Bool.eq_iff_iff]
    simp

/-! ### One review -/

/-- What a round has checked of an artifact it keeps. -/
structure Passed (p : List Pending) (refused : Finset String) (item : Pending) : Prop where
  targets : ∀ r ∈ relationships item.definition, r.targetEnd.typeRef ∉ refused
  references : ∀ t ∈ typeRefs item, t ∈ p.map (·.identity)
  source : ∀ t ∈ item.definition.construct.sourceElement, t ∈ p.map (·.identity) ∨
    t ∈ p.flatMap fun o => (operations o.definition).map (·.identity)

theorem review_ok {p : List Pending} {refused : Finset String} {item item' : Pending} :
    review p refused item = .ok item' ↔ Passed p refused item ∧
      (if item.ownerFromModel then .ok item else ownerRule item (compositeOwners p)) =
        (.ok item' : Except String Pending) := by
  simp only [review, refusalRule]
  cases ht : (relationships item.definition).find? fun r =>
      decide (r.targetEnd.typeRef ∈ refused) with
  | some edge =>
    have hm := List.mem_of_find?_eq_some ht
    have hs := List.find?_some ht
    simp only [reduceCtorEq, false_iff, not_and]
    exact fun hp => absurd (of_decide_eq_true hs) (hp.targets edge hm)
  | none =>
    have htargets := List.find?_eq_none.1 ht
    cases hr : (typeRefs item).find? fun t => decide (t ∉ loweredIdentities p) with
    | some target =>
      have hm := List.mem_of_find?_eq_some hr
      have hs : target ∉ loweredIdentities p := by simpa using List.find?_some hr
      simp only [reduceCtorEq, false_iff, not_and]
      intro hp
      exact absurd (hp.references target hm) (by simpa [loweredIdentities] using hs)
    | none =>
      have hrefs := List.find?_eq_none.1 hr
      cases he : item.definition.construct.sourceElement.filter fun t =>
          decide (t ∉ loweredIdentities p ∧ t ∉ operationIdentities p) with
      | some target =>
        obtain ⟨hm, hs⟩ := Option.filter_eq_some_iff.1 he
        simp only [reduceCtorEq, false_iff, not_and]
        intro hp
        have hs := of_decide_eq_true hs
        simp only [loweredIdentities, operationIdentities, List.mem_toFinset] at hs
        exact absurd (hp.source target hm) (by tauto)
      | none =>
        have hsrc := Option.filter_eq_none_iff.1 he
        refine ⟨fun h => ⟨⟨?_, ?_, ?_⟩, h⟩, fun h => h.2⟩
        · intro r hr'
          simpa using htargets r hr'
        · intro t ht'
          simpa [loweredIdentities] using hrefs t ht'
        · intro t ht'
          have := hsrc t ht'
          simp only [loweredIdentities, operationIdentities, List.mem_toFinset,
            decide_eq_true_eq] at this
          tauto

/-- The declaration of `item` demands a single owner. -/
def Pending.DemandsOwner (item : Pending) : Prop :=
  ∃ c ∈ item.construct, c.declaration.presence .owner = .required ∨
    c.declaration.presence .owner = .optional ∧ c.declaration.hasRule .singleOwner = true

/-- `id` names an admitted composite owner of `item` among `p`. -/
def Owned (p : List Pending) (item : Pending) (id : String) : Prop :=
  ∃ o ∈ p, o.Owns item ∧ o.identity = id

/-- `id` names the one admitted composite owner of `item` among `p`. -/
def SoleOwner (p : List Pending) (item : Pending) (id : String) : Prop :=
  ∀ x, Owned p item x ↔ x = id

theorem ownerRule_ok {p : List Pending} (hn : (p.map (·.identity)).Nodup) {item item' : Pending}
    (h : ownerRule item (compositeOwners p) = .ok item') :
    (∃ id, SoleOwner p item id ∧ item' = item.setOwner id ∧
        ∃ c ∈ item.construct, forbids c.declaration .owner = false) ∨
      item' = item ∧ ¬ item.DemandsOwner ∧
        ((∀ id, ¬ Owned p item id) ∨ ∀ c ∈ item.construct, forbids c.declaration .owner = true) := by
  rw [ownerRule] at h
  cases hc : item.construct with
  | none =>
    simp only [hc] at h
    right
    refine ⟨(Except.ok.inj h).symm, ?_, .inr (by simp)⟩
    rintro ⟨c, hm, _⟩
    rw [hc] at hm
    cases hm
  | some c =>
    obtain ⟨d⟩ := c
    simp only [hc] at h
    by_cases hf : forbids d .owner = true
    · rw [if_pos hf] at h
      right
      refine ⟨(Except.ok.inj h).symm, ?_, .inr (by simpa using hf)⟩
      rintro ⟨c, hm, hd⟩
      obtain rfl := Option.some.inj (hc.symm.trans hm)
      have hp : d.presence .owner = .forbidden := by simpa [forbids] using hf
      simp [hp] at hd
    · rw [if_neg hf, foundOwners_eq hn hc] at h
      have hmem : ∀ o, o ∈ p.filter (fun o => decide (o.Owns item)) ↔ o ∈ p ∧ o.Owns item := by
        intro o
        simp
      cases hl : p.filter fun o => decide (o.Owns item) with
      | nil =>
        rw [hl] at h
        simp only [List.map_nil] at h
        split at h
        · rename_i hopt
          right
          refine ⟨(Except.ok.inj h).symm, ?_, .inl ?_⟩
          · rintro ⟨c, hm, hd⟩
            obtain rfl := Option.some.inj (hc.symm.trans hm)
            simp only [Bool.and_eq_true, beq_iff_eq, Bool.not_eq_true'] at hopt
            rcases hd with hd | ⟨_, hd⟩
            · rw [hopt.1] at hd
              cases hd
            · rw [hopt.2] at hd
              cases hd
          · rintro id ⟨o, ho, hown, _⟩
            have := (hmem o).2 ⟨ho, hown⟩
            rw [hl] at this
            cases this
        · cases h
      | cons o rest =>
        cases rest with
        | cons o' rest =>
          rw [hl] at h
          simp at h
        | nil =>
          rw [hl] at h
          simp only [List.map_cons, List.map_nil, Except.ok.injEq] at h
          left
          obtain ⟨ho, hown⟩ := (hmem o).1 (hl ▸ List.mem_singleton_self o)
          refine ⟨o.identity, fun x => ⟨?_, ?_⟩, h.symm, ⟨d⟩, rfl, by simpa using hf⟩
          · rintro ⟨o', ho', hown', rfl⟩
            have := (hmem o').2 ⟨ho', hown'⟩
            rw [hl] at this
            rw [List.mem_singleton.1 this]
          · rintro rfl
            exact ⟨o, ho, hown, rfl⟩

/-- A review changes nothing of an artifact but its owner. -/
def Pending.Reassigned (item item' : Pending) : Prop := item' = item ∨ ∃ id, item' = item.setOwner id

theorem review_reassigned {p : List Pending} {refused : Finset String} {item item' : Pending}
    (h : review p refused item = .ok item') : item.Reassigned item' := by
  obtain ⟨_, ho⟩ := review_ok.1 h
  split at ho
  · exact .inl (Except.ok.inj ho).symm
  · rw [ownerRule] at ho
    repeat' split at ho
    all_goals first
      | exact .inl (Except.ok.inj ho).symm
      | exact .inr ⟨_, (Except.ok.inj ho).symm⟩
      | cases ho

namespace Pending.Reassigned

variable {item item' : Pending}

theorem identity_eq (h : item.Reassigned item') : item'.identity = item.identity := by
  obtain rfl | ⟨id, rfl⟩ := h <;> rfl

theorem owns_iff (h : item.Reassigned item') (o : Pending) : o.Owns item' ↔ o.Owns item := by
  obtain rfl | ⟨id, rfl⟩ := h <;> rfl

theorem owner_owns_iff (h : item.Reassigned item') (o : Pending) : item'.Owns o ↔ item.Owns o := by
  obtain rfl | ⟨id, rfl⟩ := h <;> rfl

theorem operations_eq (h : item.Reassigned item') :
    operations item'.definition = operations item.definition := by
  obtain rfl | ⟨id, rfl⟩ := h <;> rfl

theorem trans {item'' : Pending} (h : item.Reassigned item') (h' : item'.Reassigned item'') :
    item.Reassigned item'' := by
  obtain rfl | ⟨id, rfl⟩ := h'
  · exact h
  · obtain rfl | ⟨id', rfl⟩ := h
    · exact .inr ⟨id, rfl⟩
    · exact .inr ⟨id, rfl⟩

end Pending.Reassigned

theorem owner_mem_typeRefs {item : Pending} (hm : item.ownerFromModel = true) {id : String}
    (h : id ∈ item.owner) : id ∈ typeRefs item := by
  have ho : id ∈ item.definition.construct.owner.toList := Option.mem_toList.2 h
  simp only [typeRefs, hm, if_true, List.mem_append]
  tauto

theorem typeRefs_setOwner {item : Pending} (hm : item.ownerFromModel = false) (id : String) :
    typeRefs (item.setOwner id) = typeRefs item := by
  have hm' : (item.setOwner id).ownerFromModel = false := hm
  simp only [typeRefs, hm, hm', Bool.false_eq_true, if_false]
  rfl

/-! ### The run -/

/-- The artifacts a bundle lowers to: no two mint one identity, and an artifact's owner is the
model's where there is one before the pass. -/
structure Batch where
  pending : List Pending
  distinct : (pending.map (·.identity)).Nodup
  captured : ∀ item ∈ pending, item.ownerFromModel = item.owner.isSome

/-- What each round finds: fewer of the artifacts, all others noted as refused, and composite
owners only where a declaration admits them. -/
structure Running (b : Batch) (refused : Finset String) (l : List Pending) (s : Finset String) :
    Prop where
  keys : (l.map (·.identity)).Sublist (b.pending.map (·.identity))
  origin : ∀ item ∈ l, ∃ item₀ ∈ b.pending, item₀.Reassigned item
  noted : ∀ x, x ∈ s ↔ x ∈ refused ∨
    x ∈ b.pending.map (·.identity) ∧ x ∉ l.map (·.identity)
  assigned : ∀ item ∈ l, item.ownerFromModel = false → item.owner.isSome = true →
    ∃ c ∈ item.construct, forbids c.declaration .owner = false

theorem running_start (b : Batch) (refused : Finset String) :
    Running b refused b.pending refused where
  keys := List.Sublist.refl _
  origin := fun item h => ⟨item, h, .inl rfl⟩
  noted := fun x => ⟨.inl, fun h => h.elim id fun h => absurd h.1 h.2⟩
  assigned := by
    intro item h hm ho
    rw [b.captured item h, ho] at hm
    cases hm

theorem review_assigned {p : List Pending} (hn : (p.map (·.identity)).Nodup) {s : Finset String}
    {item item' : Pending} (h : review p s item = .ok item')
    (ha : item.ownerFromModel = false → item.owner.isSome = true →
      ∃ c ∈ item.construct, forbids c.declaration .owner = false) :
    item'.ownerFromModel = false → item'.owner.isSome = true →
      ∃ c ∈ item'.construct, forbids c.declaration .owner = false := by
  obtain ⟨_, ho⟩ := review_ok.1 h
  split at ho
  · obtain rfl := Except.ok.inj ho
    exact ha
  · obtain ⟨id, _, rfl, hc⟩ | ⟨rfl, _, _⟩ := ownerRule_ok hn ho
    · exact fun _ _ => hc
    · exact ha

theorem running_round {b : Batch} {refused : Finset String} {l : List Pending} {s : Finset String}
    (h : Running b refused l s) :
    Running b refused (Sifting.kept (review l s) l)
      (noteRefused s (Sifting.refused (review l s) l)) := by
  have hn : (l.map (·.identity)).Nodup := h.keys.nodup b.distinct
  have hid : ∀ x y, review l s x = .ok y → y.identity = x.identity :=
    fun x y hxy => (review_reassigned hxy).identity_eq
  refine ⟨(Sifting.kept_keys hid).trans h.keys, ?_, ?_, ?_⟩
  · intro item' hi
    obtain ⟨item, hl, hr⟩ := Sifting.mem_kept.1 hi
    obtain ⟨item₀, h₀, hre⟩ := h.origin item hl
    exact ⟨item₀, h₀, hre.trans (review_reassigned hr)⟩
  · intro x
    have hround : x ∈ (Sifting.refused (review l s) l).map (fun e => e.1.identity) ↔
        x ∈ l.map (·.identity) ∧ x ∉ (Sifting.kept (review l s) l).map (·.identity) := by
      constructor
      · intro hx
        obtain ⟨e, he, rfl⟩ := List.mem_map.1 hx
        obtain ⟨hl, hr⟩ := Sifting.mem_refused.1 he
        refine ⟨List.mem_map_of_mem hl, fun hk => ?_⟩
        obtain ⟨y, hy, hey⟩ := List.mem_map.1 hk
        obtain ⟨z, hz, hzy⟩ := Sifting.mem_kept.1 hy
        have hze : z = e.1 := Keyed.eq_of_key hn hz hl ((hid z y hzy).symm.trans hey)
        rw [hze, hr] at hzy
        cases hzy
      · rintro ⟨hx, hk⟩
        obtain ⟨item, hl, rfl⟩ := List.mem_map.1 hx
        cases hr : review l s item with
        | ok item' =>
          have hm := Sifting.mem_kept.2 ⟨item, hl, hr⟩
          exact absurd (List.mem_map.2 ⟨item', hm, hid item item' hr⟩) hk
        | error rule =>
          exact List.mem_map.2 ⟨(item, rule), Sifting.mem_refused.2 ⟨hl, hr⟩, rfl⟩
    rw [noteRefused, Finset.mem_union, List.mem_toFinset, hround, h.noted]
    have hsub := (Sifting.kept_keys (l := l) hid).subset
    have hkl := fun hx => h.keys.subset (a := x) hx
    constructor
    · rintro ((hx | ⟨hp, hx⟩) | ⟨hl, hk⟩)
      · exact .inl hx
      · exact .inr ⟨hp, fun hk => hx (hsub hk)⟩
      · exact .inr ⟨hkl hl, hk⟩
    · rintro (hx | ⟨hp, hk⟩)
      · exact .inl (.inl hx)
      · by_cases hl : x ∈ l.map (·.identity)
        · exact .inr ⟨hl, hk⟩
        · exact .inl (.inr ⟨hp, hl⟩)
  · intro item' hi
    obtain ⟨item, hl, hr⟩ := Sifting.mem_kept.1 hi
    exact review_assigned hn hr (h.assigned item hl)

/-! ### The artifacts kept -/

/-- No relationship is left without its target, and no reference member without its type. -/
structure Consistent (pending : List Pending) (refused : Finset String) (kept : List Pending) :
    Prop where
  targets : ∀ item ∈ kept, ∀ r ∈ relationships item.definition, r.targetEnd.typeRef ∉ refused ∧
    (r.targetEnd.typeRef ∈ pending.map (·.identity) → r.targetEnd.typeRef ∈ kept.map (·.identity))
  references : ∀ item ∈ kept, ∀ t ∈ typeRefs item, t ∈ kept.map (·.identity)
  source : ∀ item ∈ kept, ∀ t ∈ item.definition.construct.sourceElement,
    t ∈ kept.map (·.identity) ∨
      t ∈ kept.flatMap fun o => (operations o.definition).map (·.identity)

/-- What the pass settles: owners of artifacts that demand none are promised where an admitted
composite owner is kept. -/
structure Settled (b : Batch) (refused : Finset String) : Prop where
  consistent : Consistent b.pending refused (assignOwners b.pending refused).1
  owners : ∀ item ∈ (assignOwners b.pending refused).1, ∀ id ∈ item.owner,
    (item.ownerFromModel = true ∨ item.DemandsOwner ∨
      ∃ x, Owned (assignOwners b.pending refused).1 item x) →
    id ∈ (assignOwners b.pending refused).1.map (·.identity)
  sole : ∀ item ∈ (assignOwners b.pending refused).1, item.ownerFromModel = false →
    item.DemandsOwner → ∃ id ∈ item.owner, SoleOwner (assignOwners b.pending refused).1 item id
  unordered : ∀ other : Batch, b.pending.Perm other.pending →
    (assignOwners b.pending refused).1.Perm (assignOwners other.pending refused).1

structure LastRound (b : Batch) (refused : Finset String) (l : List Pending) (s : Finset String) :
    Prop where
  running : Running b refused l s
  silent : Sifting.refused (review l s) l = []
  result : (assignOwners b.pending refused).1 = Sifting.kept (review l s) l

theorem exists_lastRound (b : Batch) (refused : Finset String) :
    ∃ l s, LastRound b refused l s := by
  obtain ⟨l, s, hi, hr, he⟩ : ∃ l s, Running b refused l s ∧
      Sifting.refused (review l s) l = [] ∧
      (Sifting.run review noteRefused b.pending refused).1 = Sifting.kept (review l s) l :=
    Sifting.run_rule (running_start b refused) fun l s h _ => running_round h
  exact ⟨l, s, hi, hr, he⟩

namespace LastRound

variable {b : Batch} {refused : Finset String} {l : List Pending} {s : Finset String}

theorem mem (h : LastRound b refused l s) {item' : Pending} :
    item' ∈ (assignOwners b.pending refused).1 ↔ ∃ item ∈ l, review l s item = .ok item' := by
  rw [h.result, Sifting.mem_kept]

theorem distinct (h : LastRound b refused l s) : (l.map (·.identity)).Nodup :=
  h.running.keys.nodup b.distinct

theorem identities (h : LastRound b refused l s) (x : String) :
    x ∈ (assignOwners b.pending refused).1.map (·.identity) ↔ x ∈ l.map (·.identity) := by
  simp only [List.mem_map, h.mem]
  constructor
  · rintro ⟨item', ⟨item, hl, hr⟩, rfl⟩
    exact ⟨item, hl, (review_reassigned hr).identity_eq.symm⟩
  · rintro ⟨item, hl, rfl⟩
    obtain ⟨item', hr⟩ := Sifting.refused_nil.1 h.silent item hl
    exact ⟨item', ⟨item, hl, hr⟩, (review_reassigned hr).identity_eq⟩

theorem operations_mem (h : LastRound b refused l s) (x : String) :
    x ∈ ((assignOwners b.pending refused).1.flatMap
        fun o => (operations o.definition).map (·.identity)) ↔
      x ∈ l.flatMap fun o => (operations o.definition).map (·.identity) := by
  simp only [List.mem_flatMap, h.mem]
  constructor
  · rintro ⟨item', ⟨item, hl, hr⟩, hx⟩
    exact ⟨item, hl, (review_reassigned hr).operations_eq ▸ hx⟩
  · rintro ⟨item, hl, hx⟩
    obtain ⟨item', hr⟩ := Sifting.refused_nil.1 h.silent item hl
    exact ⟨item', ⟨item, hl, hr⟩, (review_reassigned hr).operations_eq.symm ▸ hx⟩

theorem owned (h : LastRound b refused l s) {item item' : Pending} (hi : item.Reassigned item')
    (x : String) : Owned (assignOwners b.pending refused).1 item' x ↔ Owned l item x := by
  simp only [Owned, h.mem]
  constructor
  · rintro ⟨o', ⟨o, hl, hr⟩, hown, rfl⟩
    have ho := review_reassigned hr
    exact ⟨o, hl, (hi.owns_iff o).1 ((ho.owner_owns_iff item').1 hown), ho.identity_eq.symm⟩
  · rintro ⟨o, hl, hown, rfl⟩
    obtain ⟨o', hr⟩ := Sifting.refused_nil.1 h.silent o hl
    have ho := review_reassigned hr
    exact ⟨o', ⟨o, hl, hr⟩, (ho.owner_owns_iff item').2 ((hi.owns_iff o).2 hown), ho.identity_eq⟩

theorem consistent (h : LastRound b refused l s) :
    Consistent b.pending refused (assignOwners b.pending refused).1 := by
  refine ⟨?_, ?_, ?_⟩
  · intro item' hi r hr
    obtain ⟨item, hl, hrev⟩ := h.mem.1 hi
    have hp := (review_ok.1 hrev).1
    have hrel : r ∈ relationships item.definition := by
      obtain rfl | ⟨id, rfl⟩ := review_reassigned hrev <;> exact hr
    have ht := mt (h.running.noted _).2 (hp.targets r hrel)
    rw [not_or, not_and_not_right] at ht
    exact ⟨ht.1, fun hm => (h.identities _).2 (ht.2 hm)⟩
  · intro item' hi t ht
    obtain ⟨item, hl, hrev⟩ := h.mem.1 hi
    obtain ⟨hp, ho⟩ := review_ok.1 hrev
    apply (h.identities t).2
    apply hp.references t
    split at ho
    · rwa [Except.ok.inj ho]
    · rename_i hm
      obtain rfl | ⟨id, rfl⟩ := review_reassigned hrev
      · exact ht
      · rwa [typeRefs_setOwner (by simpa using hm)] at ht
  · intro item' hi t ht
    obtain ⟨item, hl, hrev⟩ := h.mem.1 hi
    have hp := (review_ok.1 hrev).1
    rw [h.identities, h.operations_mem]
    apply hp.source t
    obtain rfl | ⟨id, rfl⟩ := review_reassigned hrev <;> exact ht

theorem owner_cases (h : LastRound b refused l s) {item' : Pending}
    (hi : item' ∈ (assignOwners b.pending refused).1) :
    item'.ownerFromModel = true ∨
      (∃ id ∈ item'.owner, SoleOwner (assignOwners b.pending refused).1 item' id) ∨
      ¬ item'.DemandsOwner ∧
        ((∀ id, ¬ Owned (assignOwners b.pending refused).1 item' id) ∨ item'.owner = none) := by
  obtain ⟨item, hl, hrev⟩ := h.mem.1 hi
  obtain ⟨_, ho⟩ := review_ok.1 hrev
  have howned := h.owned (review_reassigned hrev)
  cases hm : item.ownerFromModel with
  | true =>
    rw [if_pos hm] at ho
    rw [← Except.ok.inj ho]
    exact .inl hm
  | false =>
    right
    rw [hm, if_neg Bool.false_ne_true] at ho
    obtain ⟨id, hs, rfl, _⟩ | ⟨rfl, hd, hnone⟩ := ownerRule_ok h.distinct ho
    · exact .inl ⟨id, rfl, fun x => (howned x).trans (hs x)⟩
    · right
      refine ⟨hd, hnone.imp (fun hn id hx => hn id ((howned id).1 hx)) fun hf => ?_⟩
      cases hown : item'.owner with
      | none => rfl
      | some id =>
        obtain ⟨c, hc, hf'⟩ := h.running.assigned item' hl hm (by rw [hown]; rfl)
        rw [hf c hc] at hf'
        cases hf'

end LastRound

/-! ### The order of the artifacts -/

theorem ownerRule_perm {p p' : List Pending} (hn : (p.map (·.identity)).Nodup) (hp : p.Perm p')
    (item : Pending) :
    ownerRule item (compositeOwners p) = ownerRule item (compositeOwners p') := by
  have hn' : (p'.map (·.identity)).Nodup := (hp.map _).nodup_iff.1 hn
  rw [ownerRule, ownerRule]
  cases hc : item.construct with
  | none => rfl
  | some c =>
    obtain ⟨d⟩ := c
    simp only [foundOwners_eq hn hc, foundOwners_eq hn' hc]
    have hfound := (hp.filter fun o => decide (o.Owns item)).map Pending.asOwner
    generalize (p.filter fun o => decide (o.Owns item)).map Pending.asOwner = found at hfound
    generalize (p'.filter fun o => decide (o.Owns item)).map Pending.asOwner = found' at hfound
    have hlen := hfound.length_eq
    match found, found', hfound with
    | [], found', hfound => rw [hfound.nil_eq]
    | [o], found', hfound => rw [List.singleton_perm.1 hfound]
    | _ :: _ :: _, [], _ => simp at hlen
    | _ :: _ :: _, [_], _ => simp at hlen
    | _ :: _ :: _, _ :: _ :: _, _ => simp only [hlen]

theorem review_perm {p p' : List Pending} (hn : (p.map (·.identity)).Nodup) (hp : p.Perm p')
    (refused : Finset String) : review p refused = review p' refused := by
  have hl : loweredIdentities p = loweredIdentities p' :=
    List.toFinset_eq_of_perm _ _ (hp.map _)
  have ho : operationIdentities p = operationIdentities p' :=
    List.toFinset_eq_of_perm _ _ (hp.flatMap_right _)
  funext item
  simp only [review, refusalRule, hl, ho, ownerRule_perm hn hp item]

theorem noteRefused_perm (s : Finset String) {e e' : List (Pending × String)} (h : e.Perm e') :
    noteRefused s e = noteRefused s e' := by
  rw [noteRefused, noteRefused, List.toFinset_eq_of_perm _ _ (h.map _)]

theorem assignOwners_perm {p p' : List Pending} (hn : (p.map (·.identity)).Nodup) (hp : p.Perm p')
    (refused : Finset String) :
    (assignOwners p refused).1.Perm (assignOwners p' refused).1 ∧
      (assignOwners p refused).2.Perm (assignOwners p' refused).2 := by
  have hkept : ∀ (l : List Pending) (s : Finset String), (l.map (·.identity)).Nodup →
      ((Sifting.kept (review l s) l).map (·.identity)).Nodup := by
    intro l s hl
    have hid : ∀ x y, review l s x = .ok y → y.identity = x.identity :=
      fun x y hxy => (review_reassigned hxy).identity_eq
    exact (Sifting.kept_keys hid).nodup hl
  have h : (Sifting.run review noteRefused p refused).1.Perm
        (Sifting.run review noteRefused p' refused).1 ∧
      (Sifting.run review noteRefused p refused).2.Perm
        (Sifting.run review noteRefused p' refused).2 :=
    Sifting.run_perm hn hp hkept (fun l l' s hl hperm => review_perm hl hperm s)
      fun s e e' he => noteRefused_perm s he
  exact ⟨h.1, h.2.flatMap_right _⟩

/-! ### The pass -/

theorem assignOwners_settled (b : Batch) (refused : Finset String) : Settled b refused := by
  obtain ⟨l, s, h⟩ := exists_lastRound b refused
  refine ⟨h.consistent, ?_, ?_, fun other hp => (assignOwners_perm b.distinct hp refused).1⟩
  · intro item hi id hid hcase
    cases hm : item.ownerFromModel with
    | true => exact h.consistent.references item hi id (owner_mem_typeRefs hm hid)
    | false =>
      rw [hm] at hcase
      obtain hm' | ⟨x, hx, hs⟩ | ⟨hd, hn⟩ := h.owner_cases hi
      · rw [hm] at hm'
        cases hm'
      · obtain rfl : x = id := Option.some.inj (hx.symm.trans hid)
        obtain ⟨o, ho, _, rfl⟩ := (hs x).2 rfl
        exact List.mem_map_of_mem ho
      · obtain hd' | ⟨x, hx⟩ := hcase.resolve_left Bool.false_ne_true
        · exact absurd hd' hd
        · obtain hn | hn := hn
          · exact absurd hx (hn x)
          · rw [hn] at hid
            cases hid
  · intro item hi hm hd
    obtain hm' | hs | ⟨hd', _⟩ := h.owner_cases hi
    · rw [hm] at hm'
      cases hm'
    · exact hs
    · exact absurd hd hd'

/-- Every owner, and a composite owner for every artifact that demands one. -/
structure SettledThroughout (b : Batch) (refused : Finset String) : Prop where
  consistent : Consistent b.pending refused (assignOwners b.pending refused).1
  owners : ∀ item ∈ (assignOwners b.pending refused).1, ∀ id ∈ item.owner,
    id ∈ (assignOwners b.pending refused).1.map (·.identity)
  sole : ∀ item ∈ (assignOwners b.pending refused).1, item.DemandsOwner →
    ∃ id ∈ item.owner, SoleOwner (assignOwners b.pending refused).1 item id
  unordered : ∀ other : Batch, b.pending.Perm other.pending →
    (assignOwners b.pending refused).1.Perm (assignOwners other.pending refused).1

namespace Sample

def members : ConstructMembers :=
  { owner := none, transitions := none, steps := none, supertypes := none, interfaceType := none,
    declaredType := none, sourceEnd := none, targetEnd := none, sourceElement := none,
    targetElement := none, sourceElementIsOperation := false }

def artifact (id object : String) (construct : ConstructMembers) (declaration : Option Declaration) :
    Pending :=
  { id, path := id ++ ".md", object, head := ⟨"ix://a/s", id ++ ".md", 1, 1⟩,
    lowering := ⟨⟨"ix://a/b/" ++ id, [], none, none, construct⟩, []⟩,
    construct := declaration.map Construct.mk, ownerFromModel := construct.owner.isSome }

/-- A systems part declaration that selects `single_owner`. -/
def partDeclaration : Declaration :=
  { identity := .none, shape := .record,
    members := [(.owner, .required), (.declaredType, .required), (.multiplicity, .required)],
    references := [], rules := [.singleOwner], meaning := "quire.meaning.systems.part/v1",
    immutable := false }

def car : Pending := artifact "CAR" "interface" members none

/-- The part of the car its systems row names as owner; no relationship contains it. -/
def engine : Pending :=
  artifact "ENG" "part"
    { members with owner := some "ix://a/b/CAR", declaredType := some "ix://a/b/CAR" }
    (some partDeclaration)

def batch : Batch where
  pending := [car, engine]
  distinct := by decide
  captured := by decide

theorem batch_kept : (assignOwners batch.pending ∅).1 = [car, engine] := by
  have hs : Sifting.refused (review batch.pending ∅) batch.pending = [] := by decide +kernel
  rw [assignOwners, Sifting.run_last hs]
  decide +kernel

end Sample

/-- An owner the systems row gives is not a composite one. -/
theorem modelOwner_not_composite : ¬ ∀ b refused, SettledThroughout b refused := by
  intro h
  have hsole := (h Sample.batch ∅).sole Sample.engine
  rw [Sample.batch_kept] at hsole
  obtain ⟨id, _, hs⟩ := hsole (by simp) ⟨_, rfl, .inl (by decide)⟩
  obtain ⟨o, ho, ⟨⟨r, hr, _⟩, _⟩, _⟩ := (hs id).2 rfl
  have hnone : ∀ o ∈ [Sample.car, Sample.engine], relationships o.definition = [] := by decide
  rw [hnone o ho] at hr
  cases hr

end FilamentCore.Frontend
