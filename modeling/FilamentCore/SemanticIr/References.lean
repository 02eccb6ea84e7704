import FilamentCore.SemanticIr.CanonicalText
import FilamentCore.SemanticIr.Occurrences
import FilamentCore.SemanticIr.Resolution

/-!
# Where references end in a later document

Of a pair that is not classified `breaking` every type and every feature is retained, and what
a retained feature or alias stands for is compared by its resolved key. So a reference still
ends where it did.
-/

namespace FilamentCore.SemanticIr
open FilamentCore.Library
open FilamentCore.Library.Following
open Classification (noteIf mem_noteIf)

namespace Compat

/-- Two accepted documents whose classification is below `breaking`. -/
structure Unbroken (beforeBundle afterBundle : Json) (before after : Document) : Prop where
  before : Accepted beforeBundle before
  after : Accepted afterBundle after
  classified : classify beforeBundle afterBundle true true < .breaking

variable {beforeBundle afterBundle : Json} {before after : Document}

theorem Unbroken.le_unknown (h : Unbroken beforeBundle afterBundle before after) :
    classify beforeBundle afterBundle true true ≤ .unknown := by
  have hlt := h.classified
  revert hlt
  cases classify beforeBundle afterBundle true true <;> decide

theorem Unbroken.note (h : Unbroken beforeBundle afterBundle before after)
    {earlier later : Json} (hr : Retained before after earlier later) {n : Classification}
    (hn : n ∈ compareType before after earlier later) : n ≠ .breaking := by
  rintro rfl
  exact absurd (compareType_le h.before h.after h.le_unknown hr _ hn) (by decide)

/-! ### What is retained -/

theorem Unbroken.retained (h : Unbroken beforeBundle afterBundle before after) {earlier : Json}
    (hm : earlier ∈ before.types) : ∃ later, Retained before after earlier later := by
  by_contra hno
  have hn : Classification.breaking ∈ compareDocuments before after := by
    refine (mem_compareDocuments h.before h.after).2 (.inr (.inr (.inl ⟨earlier, hm, ?_, rfl⟩)))
    intro later hl hi
    exact hno ⟨later, hm, hl, hi.symm⟩
  have hle := h.le_unknown
  rw [classify_accepted h.before h.after, Classification.worst_le] at hle
  exact absurd (hle _ hn) (by decide)

theorem exists_counterpart {was is : List Json}
    {retained : Json → Json → List Classification} {addition : Json → List Classification}
    (hn : ∀ n ∈ compareLists was is .breaking retained addition, n ≠ .breaking)
    (hw : ∀ item ∈ was, HasIdentity item) (hs : ∀ item ∈ is, HasIdentity item) {item : Json}
    (hi : item ∈ was) : ∃ other ∈ is, identityOf item = identityOf other ∧
      ∀ n ∈ retained item other, n ≠ .breaking := by
  cases hc : counterpart item is with
  | none => exact absurd rfl (hn _ (mem_compareLists.2 (.inl ⟨item, hi, hc, rfl⟩)))
  | some other =>
    obtain ⟨hm, heq⟩ := Keyed.first_some hc
    obtain ⟨identity, hid⟩ := hw item hi
    obtain ⟨identity', hid'⟩ := hs other hm
    rw [identityOr_of hid, identityOr_of hid'] at heq
    refine ⟨other, hm, by rw [hid, hid', heq], fun n hret => ?_⟩
    exact hn n (mem_compareLists.2 (.inr (.inl ⟨item, hi, other, hc, hret⟩)))

theorem eq_counterpart {was is : List Json}
    {retained : Json → Json → List Classification} {addition : Json → List Classification}
    (hn : ∀ n ∈ compareLists was is .breaking retained addition, n ≠ .breaking)
    (hs : ∀ item ∈ is, HasIdentity item) (hd : (is.filterMap identityOf).Nodup)
    {item other : Json} (hi : item ∈ was) (ho : other ∈ is)
    (heq : identityOf item = identityOf other) : ∀ n ∈ retained item other, n ≠ .breaking := by
  intro n hret
  have hc : counterpart item is = some other :=
    counterpart_of_mem (nodup_identityOr hd hs) ho (by rw [identityOr, identityOr, heq])
  exact hn n (mem_compareLists.2 (.inr (.inl ⟨item, hi, other, hc, hret⟩)))

theorem not_breaking {changed : Prop} [Decidable changed]
    (h : ∀ n ∈ noteIf changed .breaking, n ≠ .breaking) : ¬ changed :=
  fun hc => h _ (mem_noteIf.2 ⟨hc, rfl⟩) rfl

/-! ### Features -/

theorem key_of_field {field other : Json}
    (h : ∀ n ∈ compareField before after field other, n ≠ .breaking) :
    resolvedKey before (field.getStr "typeRef") = resolvedKey after (other.getStr "typeRef") := by
  have hn : ∀ n ∈ noteIf (resolvedKey before (field.getStr "typeRef") ≠
      resolvedKey after (other.getStr "typeRef")) .breaking, n ≠ Classification.breaking := by
    intro n hm
    apply h
    simp only [compareField, List.mem_append]
    tauto
  exact not_not.1 (not_breaking hn)

theorem params_of_operation {operation other : Json}
    (h : ∀ n ∈ compareOperation before after operation other, n ≠ .breaking) :
    List.Forall₂ (fun param param' => identityOr param = identityOr param' ∧
      ∀ n ∈ compareField before after param param', n ≠ .breaking)
      (operation.members "params") (other.members "params") := by
  have hn : ∀ n ∈ noteIf (signatureChanged before after operation other) .breaking,
      n ≠ Classification.breaking := by
    intro n hm
    apply h
    simp only [compareOperation, List.mem_append]
    tauto
  have hs := not_breaking hn
  simp only [signatureChanged, not_or, not_exists, not_and, not_not] at hs
  refine List.forall₂_iff_zip.2 ⟨hs.1, fun {param param'} hm => ?_⟩
  obtain ⟨hi, hp⟩ := hs.2 _ hm
  refine ⟨hi, fun n hn => ?_⟩
  have hle := Classification.worst_le.1 hp.le n hn
  rintro rfl
  exact absurd hle (by decide)

theorem fields_of_type {earlier later : Json} {n : Classification}
    (h : n ∈ compareFields before after earlier later) :
    n ∈ compareType before after earlier later := by
  simp only [compareType, List.mem_append]
  tauto

theorem operations_of_type {earlier later : Json} {n : Classification}
    (h : n ∈ compareOperations before after earlier later) :
    n ∈ compareType before after earlier later := by
  simp only [compareType, List.mem_append]
  tauto

theorem Unbroken.feature (h : Unbroken beforeBundle afterBundle before after) {identity : String}
    {feature : Placed} (hf : before.fieldOf identity = some feature) :
    ∃ other, after.fieldOf identity = some other ∧
      ∀ n ∈ compareField before after feature.node other.node, n ≠ .breaking := by
  obtain ⟨hm, hi⟩ := Keyed.first_some hf
  obtain ⟨earlier, he, hlisted⟩ := mem_features hm
  obtain ⟨later, hr⟩ := h.retained he
  obtain ⟨_, hbefore⟩ := h.before.checked
  obtain ⟨_, hafter⟩ := h.after.checked
  obtain ⟨_, hearlier⟩ := hbefore earlier he
  obtain ⟨_, hlater⟩ := hafter later hr.inAfter
  have hother : ∃ other, identityOf feature.node = identityOf other ∧
      (other ∈ later.members "fields" ∨ ∃ operation ∈ later.members "operations",
        other ∈ operation.members "params") ∧
      ∀ n ∈ compareField before after feature.node other, n ≠ .breaking := by
    rcases hlisted with hfield | ⟨operation, ho, hparam⟩
    · obtain ⟨other, ho, heq, hn⟩ := exists_counterpart
        (fun n hn => h.note hr (fields_of_type hn)) (fun f hf => (hearlier.fields f hf).identity)
        (fun f hf => (hlater.fields f hf).identity) hfield
      exact ⟨other, heq, .inl ho, hn⟩
    · obtain ⟨later', ho', -, hn⟩ := exists_counterpart
        (fun n hn => h.note hr (operations_of_type hn))
        (fun o ho => (hearlier.operations o ho).identity)
        (fun o ho => (hlater.operations o ho).identity) ho
      obtain ⟨other, hp, heq, hn⟩ := Related.exists_right (params_of_operation hn) hparam
      obtain ⟨i, hid⟩ := ((hearlier.operations operation ho).params _ hparam).identity
      obtain ⟨j, hjd⟩ := ((hlater.operations later' ho').params _ hp).identity
      rw [identityOr_of hid, identityOr_of hjd] at heq
      exact ⟨other, by rw [hid, hjd, heq], .inr ⟨later', ho', hp⟩, hn⟩
  obtain ⟨other, heq, hlisted, hn⟩ := hother
  obtain ⟨placed, hp, rfl⟩ := exists_feature hr.inAfter hlisted
  refine ⟨placed, ?_, hn⟩
  exact (Keyed.first_iff h.after.features_nodup).2 ⟨hp, heq ▸ hi⟩

/-! ### Aliases -/

theorem getStr_target {specialAliases : List String} {table : ConstructTable} {definition : Json}
    (hc : TypeChecked specialAliases table definition) (hh : definition.has "target" = true) :
    ∃ target, definition.getStr "target" = some target ∧ target ≠ "" := by
  obtain ⟨at', hi⟩ := hc.references "target" (by decide)
  obtain ⟨target, ht, -⟩ := getStr_of_identityMember hh hi
  exact ⟨target, ht, fun h => ne_empty_of_identityMember hi (h ▸ ht)⟩

theorem resolvedKey_ne_empty {bundle : Json} {d : Document} (ha : Accepted bundle d)
    {reference : String} (hr : reference ≠ "") : resolvedKey d (some reference) ≠ "" := by
  intro hk
  obtain ⟨-, heq | ⟨definition, hm, hi⟩⟩ := resolvedKey_reaches ha reference
  · exact hr (heq ▸ hk)
  · obtain ⟨_, _, -, hc⟩ := ha.checkedType hm
    exact hc.named (hk ▸ hi)

theorem has_target_iff {bundle : Json} {d : Document} (ha : Accepted bundle d)
    {definition : Json} (hm : definition ∈ d.types) :
    definition.has "target" = true ↔ resolvedKey d (definition.getStr "target") ≠ "" := by
  obtain ⟨_, _, -, hc⟩ := ha.checkedType hm
  constructor
  · intro hh
    obtain ⟨target, ht, hne⟩ := getStr_target hc hh
    rw [ht]
    exact resolvedKey_ne_empty ha hne
  · intro hk
    cases hh : definition.get "target" with
    | none => simp [Json.getStr, hh, resolvedKey] at hk
    | some target => rw [Json.has, hh, Option.isSome_some]

section
variable {earlier later : Json}

theorem Unbroken.kind_eq (h : Unbroken beforeBundle afterBundle before after)
    (hr : Retained before after earlier later) : earlier.get "kind" = later.get "kind" := by
  have hn : ∀ n ∈ noteIf (earlier.get "kind" ≠ later.get "kind") .breaking,
      n ≠ Classification.breaking := by
    intro n hm
    apply h.note hr
    simp only [compareType, List.mem_append, List.mem_flatMap]
    iterate 9 left
    exact ⟨"kind", List.mem_cons_self .., hm⟩
  exact not_not.1 (not_breaking hn)

theorem Unbroken.member_key (h : Unbroken beforeBundle afterBundle before after)
    (hr : Retained before after earlier later) {member : String}
    (hm : member ∈ ["target", "items", "values"]) :
    resolvedKey before (earlier.getStr member) = resolvedKey after (later.getStr member) := by
  have hn : ∀ n ∈ noteIf (resolvedKey before (earlier.getStr member) ≠
      resolvedKey after (later.getStr member)) .breaking, n ≠ Classification.breaking := by
    intro n hn
    apply h.note hr
    simp only [compareType, List.mem_append, List.mem_flatMap]
    iterate 8 left
    exact .inr ⟨member, hm, hn⟩
  exact not_not.1 (not_breaking hn)

theorem Unbroken.alias_iff (h : Unbroken beforeBundle afterBundle before after)
    (hr : Retained before after earlier later) :
    before.isAlias earlier = true ↔ after.isAlias later = true := by
  obtain ⟨_, _, ht, hc⟩ := h.before.checkedType hr.inBefore
  obtain ⟨_, _, ht', hc'⟩ := h.after.checkedType hr.inAfter
  rw [Document.isAlias, Document.isAlias, alias_iff_target ht hc, alias_iff_target ht' hc',
    has_target_iff h.before hr.inBefore, has_target_iff h.after hr.inAfter,
    h.member_key hr (List.mem_cons_self ..)]
  rw [show earlier.getStr "kind" = later.getStr "kind" by rw [Json.getStr, Json.getStr, h.kind_eq hr]]

end

/-! ### Ends of references -/

theorem designates_key {bundle : Json} {d : Document} (ha : Accepted bundle d)
    (reference : String) (x : Designation) :
    Designates d reference x ↔ Designates d (resolvedKey d (some reference)) x :=
  designates_reaches (resolvedKey_reaches ha reference).1 x

theorem Unbroken.meets (h : Unbroken beforeBundle afterBundle before after) (a b : String)
    (hs : before.standsFor a = some b) :
    ∃ b' c, after.standsFor a = some b' ∧ Reaches before.standsFor b c ∧
      Reaches after.standsFor b' c := by
  suffices hstep : ∃ b', after.standsFor a = some b' ∧
      resolvedKey before (some b) = resolvedKey after (some b') by
    obtain ⟨b', hs', hkey⟩ := hstep
    refine ⟨b', _, hs', (resolvedKey_reaches h.before b).1, ?_⟩
    rw [hkey]
    exact (resolvedKey_reaches h.after b').1
  unfold Document.standsFor at hs ⊢
  split at hs
  · cases hs
  · rename_i hterminal
    rw [if_neg hterminal]
    cases hf : before.fieldOf a with
    | some feature =>
      simp only [hf] at hs
      obtain ⟨other, ho, hn⟩ := h.feature hf
      obtain ⟨typeRef, ht⟩ := (h.after.feature_checked (Keyed.first_some ho).1).typeRef
      have hkey := key_of_field hn
      rw [hs, ht] at hkey
      exact ⟨typeRef, by simp only [ho, ht], hkey⟩
    | none =>
      simp only [hf] at hs
      obtain ⟨earlier, hfilter, htarget⟩ := Option.bind_eq_some_iff.1 hs
      obtain ⟨hty, halias⟩ := Option.filter_eq_some_iff.1 hfilter
      obtain ⟨hm, hi⟩ := h.before.typeOf_iff.1 hty
      obtain ⟨later, hr⟩ := h.retained hm
      have hlater : after.typeOf a = some later :=
        h.after.typeOf_iff.2 ⟨hr.inAfter, hr.identity ▸ hi⟩
      have halias' := (h.alias_iff hr).1 halias
      obtain ⟨_, _, ht, hc⟩ := h.after.checkedType hr.inAfter
      obtain ⟨target, htarget', -⟩ := getStr_target hc ((alias_iff_target ht hc).1 halias').1
      have hmember : "target" ∈ ["target", "items", "values"] := List.mem_cons_self ..
      have hkey := h.member_key hr hmember
      rw [htarget, htarget'] at hkey
      refine ⟨target, ?_, hkey⟩
      simp only [h.after.type_not_feature hlater, hlater, Option.filter_some, halias', if_true,
        Option.bind_some, htarget']

theorem Unbroken.designates (h : Unbroken beforeBundle afterBundle before after)
    {reference : String} {x : Designation}
    (hend : ∀ identity, Ends before.standsFor reference identity →
      after.standsFor identity = none) (hx : Designates before reference x) :
    Designates after reference x := by
  obtain ⟨identity, he, hx⟩ := hx
  exact ⟨identity, he.simulates h.meets (hend identity he), hx⟩

theorem Unbroken.designates_of_key (h : Unbroken beforeBundle afterBundle before after)
    {reference reference' : String} {x : Designation}
    (hkey : resolvedKey before (some reference) = resolvedKey after (some reference'))
    (hend : ∀ identity, Ends before.standsFor reference identity →
      after.standsFor identity = none) (hx : Designates before reference x) :
    Designates after reference' x := by
  rw [designates_key h.before] at hx
  rw [designates_key h.after, ← hkey]
  apply h.designates _ hx
  intro identity he
  exact hend identity ((ends_reaches (resolvedKey_reaches h.before reference).1).2 he)

theorem Unbroken.terminal (h : Unbroken beforeBundle afterBundle before after) {identity : String}
    (hs : before.standsFor identity = none)
    (hd : nativeScalar identity = none → before.typeOf identity = none →
      after.standsFor identity = none) : after.standsFor identity = none := by
  by_cases hnative : nativeScalar identity = none
  · cases ht : before.typeOf identity with
    | none => exact hd hnative ht
    | some earlier =>
      by_cases hclock : identity = clockTypeRef
      · rw [Document.standsFor, if_pos (.inl hclock)]
      · obtain ⟨hm, hi⟩ := h.before.typeOf_iff.1 ht
        obtain ⟨later, hr⟩ := h.retained hm
        have ht' : after.typeOf identity = some later :=
          h.after.typeOf_iff.2 ⟨hr.inAfter, hr.identity ▸ hi⟩
        have halias : before.isAlias earlier = false := by
          by_contra hne
          obtain ⟨_, _, htable, hc⟩ := h.before.checkedType hm
          have ha := (alias_iff_target htable hc).1 (Bool.not_eq_false _ ▸ hne)
          obtain ⟨target, htarget, -⟩ := getStr_target hc ha.1
          rw [(⟨hclock, hnative, h.before.type_not_feature ht⟩ : Plain before identity).standsFor,
            ht, Option.filter_some, if_pos (Bool.not_eq_false _ ▸ hne), Option.bind_some,
            htarget] at hs
          cases hs
        have halias' : after.isAlias later = false := by
          rw [← Bool.not_eq_true, ← h.alias_iff hr, halias]
          exact Bool.false_ne_true
        rw [(⟨hclock, hnative, h.after.type_not_feature ht'⟩ : Plain after identity).standsFor,
          ht', Option.filter_some, halias']
        rfl
  · rw [Document.standsFor, if_pos (.inr (Option.isSome_iff_ne_none.2 hnative))]

end Compat
end FilamentCore.SemanticIr
