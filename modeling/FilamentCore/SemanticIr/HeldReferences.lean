import FilamentCore.SemanticIr.References

/-!
# References of retained types

Every reference a retained type holds is compared by its resolved key or by its text, but for
the `inner` of an option, which no comparison reads.
-/

namespace FilamentCore.SemanticIr
open FilamentCore.Library
open FilamentCore.Library.Following
open Classification (noteIf)

namespace Compat

variable {beforeBundle afterBundle : Json} {before after : Document}

/-! ### References a type holds -/

/-- Where a type holds a reference; items of its lists are named by their identities. -/
inductive Slot where
  | member (name : String)
  | field (identity : String)
  | param (operation identity : String)
  | result (operation : String)
  | payload (variant : String)
  | position (identity : String)
  | relationship (identity : String)
  deriving DecidableEq, Repr

def referenceMembers : List String := ["target", "items", "values", "inner"]

inductive Holds (definition : Json) : Slot → String → Prop
  | member {name reference : String} : name ∈ referenceMembers →
      definition.getStr name = some reference → Holds definition (.member name) reference
  | field {field : Json} {identity reference : String} : field ∈ definition.members "fields" →
      identityOf field = some identity → field.getStr "typeRef" = some reference →
      Holds definition (.field identity) reference
  | param {operation param : Json} {owner identity reference : String} :
      operation ∈ definition.members "operations" → identityOf operation = some owner →
      param ∈ operation.members "params" → identityOf param = some identity →
      param.getStr "typeRef" = some reference → Holds definition (.param owner identity) reference
  | result {operation : Json} {owner reference : String} :
      operation ∈ definition.members "operations" → identityOf operation = some owner →
      (operation.get "returns").bind (·.getStr "typeRef") = some reference →
      Holds definition (.result owner) reference
  | payload {variant : Json} {identity reference : String} :
      variant ∈ definition.members "variants" → identityOf variant = some identity →
      variant.getStr "payloadType" = some reference → Holds definition (.payload identity) reference
  | position {position : Json} {identity reference : String} :
      position ∈ definition.members "positions" → identityOf position = some identity →
      position.getStr "typeRef" = some reference → Holds definition (.position identity) reference
  | relationship {relationship : Json} {identity reference : String} :
      relationship ∈ definition.members "relationships" →
      identityOf relationship = some identity →
      Rules.endType relationship "targetEnd" = some reference →
      Holds definition (.relationship identity) reference

/-- What two references of one slot share. -/
def SameReference (before after : Document) (reference reference' : String) : Prop :=
  resolvedKey before (some reference) = resolvedKey after (some reference') ∨
    reference = reference'

section
variable {earlier later : Json} {reference reference' : String}

theorem get_stripOrigin (node : Json) {key : String} (hk : key ≠ "origin") :
    (stripOrigin node).get key = node.get key := by
  cases node with
  | object members =>
    simp only [stripOrigin, Json.get, Json.lookup, ← List.filter_reverse, List.find?_filter]
    congr 2
    funext m
    by_cases hm : m.1 = key
    · simp [hm, hk]
    · simp [hm]
  | _ => rfl

theorem endType_of_sameText {relationship other : Json}
    (h : sameText (stripOrigin relationship) (stripOrigin other)) :
    Rules.endType relationship "targetEnd" = Rules.endType other "targetEnd" := by
  have hget := Json.get_of_canonical h "targetEnd"
  rw [get_stripOrigin _ (by decide), get_stripOrigin _ (by decide)] at hget
  unfold Rules.endType
  cases hr : relationship.get "targetEnd" <;> cases ho : other.get "targetEnd" <;>
    simp only [hr, ho, Option.map_some, Option.map_none, Option.some.injEq, reduceCtorEq] at hget
  · rfl
  · exact Json.getStr_of_canonical hget "type"

theorem returns_of_sameText {operation other : Json}
    (h : sameText ((operation.get "returns").getD .null) ((other.get "returns").getD .null)) :
    (operation.get "returns").bind (·.getStr "typeRef") =
      (other.get "returns").bind (·.getStr "typeRef") := by
  have hnull : ∀ returns : Option Json, returns.bind (·.getStr "typeRef") =
      (returns.getD .null).getStr "typeRef" := by
    intro returns
    cases returns <;> rfl
  rw [hnull, hnull]
  exact Json.getStr_of_canonical h "typeRef"

theorem Unbroken.operation (h : Unbroken beforeBundle afterBundle before after)
    (hr : Retained before after earlier later) {operation other : Json}
    (ho : operation ∈ earlier.members "operations") (ho' : other ∈ later.members "operations")
    (heq : identityOf operation = identityOf other) :
    ∀ n ∈ compareOperation before after operation other, n ≠ .breaking := by
  obtain ⟨_, _, -, hc⟩ := h.after.checkedType hr.inAfter
  exact eq_counterpart (fun n hn => h.note hr (operations_of_type hn))
    (fun o ho => (hc.operations o ho).identity)
    (h.after.list_nodup hr.inAfter (by decide)) ho ho' heq

theorem Unbroken.param (h : Unbroken beforeBundle afterBundle before after)
    (hr : Retained before after earlier later) {operation other param param' : Json}
    (ho : operation ∈ earlier.members "operations") (ho' : other ∈ later.members "operations")
    (heq : identityOf operation = identityOf other) (hp : param ∈ operation.members "params")
    (hp' : param' ∈ other.members "params") (hpeq : identityOf param = identityOf param') :
    resolvedKey before (param.getStr "typeRef") = resolvedKey after (param'.getStr "typeRef") := by
  obtain ⟨_, _, -, hc⟩ := h.before.checkedType hr.inBefore
  obtain ⟨_, _, -, hc'⟩ := h.after.checkedType hr.inAfter
  obtain ⟨paired, hm, hor, hn⟩ :=
    Related.exists_right (params_of_operation (h.operation hr ho ho' heq)) hp
  obtain ⟨i, hi⟩ := ((hc.operations operation ho).params param hp).identity
  obtain ⟨j, hj⟩ := ((hc'.operations other ho').params paired hm).identity
  rw [identityOr_of hi, identityOr_of hj] at hor
  have hsame : paired = param' := Keyed.eq_of_some_key (h.after.params_nodup hr.inAfter ho') hm hp'
    hj (by rw [← hpeq, hi, hor])
  exact hsame ▸ key_of_field hn

theorem Unbroken.position (h : Unbroken beforeBundle afterBundle before after)
    (hr : Retained before after earlier later) {position position' : Json}
    (hp : position ∈ earlier.members "positions") (hp' : position' ∈ later.members "positions")
    (heq : identityOf position = identityOf position') :
    resolvedKey before (position.getStr "typeRef") =
      resolvedKey after (position'.getStr "typeRef") := by
  obtain ⟨_, _, -, hc⟩ := h.before.checkedType hr.inBefore
  obtain ⟨_, _, -, hc'⟩ := h.after.checkedType hr.inAfter
  have hall : ∀ n ∈ comparePositions before after earlier later, n ≠ .breaking := by
    intro n hn
    apply h.note hr
    simp only [compareType, List.mem_append]
    tauto
  simp only [comparePositions, List.forall_mem_append] at hall
  have hlength := not_not.1 (not_breaking hall.1)
  have hpairs : List.Forall₂ (fun was is => identityOr was = identityOr is ∧
      resolvedKey before (was.getStr "typeRef") = resolvedKey after (is.getStr "typeRef"))
      (earlier.members "positions") (later.members "positions") := by
    refine List.forall₂_iff_zip.2 ⟨hlength, fun {was is} hm => ?_⟩
    have hn := not_breaking fun n hn => hall.2 n (List.mem_flatMap.2 ⟨(was, is), hm, hn⟩)
    simpa [not_or] using hn
  obtain ⟨paired, hm, hor, hkey⟩ := Related.exists_right hpairs hp
  obtain ⟨i, hi⟩ := hc.positions position hp
  obtain ⟨j, hj⟩ := hc'.positions paired hm
  rw [identityOr_of hi, identityOr_of hj] at hor
  have hsame : paired = position' := Keyed.eq_of_some_key
    (h.after.list_nodup hr.inAfter (by decide)) hm hp' hj (by rw [← heq, hi, hor])
  exact hsame ▸ hkey

theorem Unbroken.variant (h : Unbroken beforeBundle afterBundle before after)
    (hr : Retained before after earlier later) {variant other : Json}
    (hv : variant ∈ earlier.members "variants") (ho : other ∈ later.members "variants")
    (heq : identityOf variant = identityOf other) :
    resolvedKey before (variant.getStr "payloadType") =
      resolvedKey after (other.getStr "payloadType") := by
  obtain ⟨_, _, -, hc⟩ := h.after.checkedType hr.inAfter
  have hall : ∀ n ∈ compareVariants before after earlier later, n ≠ .breaking := by
    intro n hn
    apply h.note hr
    simp only [compareType, List.mem_append]
    tauto
  have hn := eq_counterpart hall hc.variants (h.after.list_nodup hr.inAfter (by decide))
    hv ho heq
  simp only [compareVariant, List.forall_mem_append] at hn
  exact not_not.1 (not_breaking hn.2)

theorem Unbroken.relationship (h : Unbroken beforeBundle afterBundle before after)
    (hr : Retained before after earlier later) {relationship other : Json}
    (hm : relationship ∈ earlier.members "relationships")
    (ho : other ∈ later.members "relationships")
    (heq : identityOf relationship = identityOf other) :
    Rules.endType relationship "targetEnd" = Rules.endType other "targetEnd" := by
  obtain ⟨_, _, -, hc⟩ := h.after.checkedType hr.inAfter
  have hall : ∀ n ∈ compareRelationships earlier later, n ≠ .breaking := by
    intro n hn
    apply h.note hr
    simp only [compareType, List.mem_append]
    tauto
  have hn := eq_counterpart hall hc.relationships
    (h.after.list_nodup hr.inAfter (by decide)) hm ho heq
  exact endType_of_sameText (not_not.1 (not_breaking hn))

theorem Unbroken.sameReference (h : Unbroken beforeBundle afterBundle before after)
    (hr : Retained before after earlier later) {slot : Slot} (hs : slot ≠ .member "inner")
    (he : Holds earlier slot reference) (hl : Holds later slot reference') :
    SameReference before after reference reference' := by
  cases he with
  | @member name _ hn hb =>
    cases hl with
    | member _ ha =>
      have hm : name ∈ ["target", "items", "values"] := by
        simp only [referenceMembers, List.mem_cons, List.not_mem_nil, or_false] at hn ⊢
        rcases hn with rfl | rfl | rfl | rfl
        · exact .inl rfl
        · exact .inr (.inl rfl)
        · exact .inr (.inr rfl)
        · exact absurd rfl hs
      have hkey := h.member_key hr hm
      rw [hb, ha] at hkey
      exact .inl hkey
  | field hf hi hb =>
    cases hl with
    | field hf' hi' ha =>
      obtain ⟨_, _, -, hc⟩ := h.after.checkedType hr.inAfter
      have hkey := key_of_field (eq_counterpart (fun n hn => h.note hr (fields_of_type hn))
        (fun f hf => (hc.fields f hf).identity)
        (h.after.list_nodup hr.inAfter (by decide)) hf hf' (hi.trans hi'.symm))
      rw [hb, ha] at hkey
      exact .inl hkey
  | param ho hoi hp hpi hb =>
    cases hl with
    | param ho' hoi' hp' hpi' ha =>
      have hkey := h.param hr ho ho' (hoi.trans hoi'.symm) hp hp' (hpi.trans hpi'.symm)
      rw [hb, ha] at hkey
      exact .inl hkey
  | result ho hoi hb =>
    cases hl with
    | result ho' hoi' ha =>
      have hn := h.operation hr ho ho' (hoi.trans hoi'.symm)
      simp only [compareOperation, List.forall_mem_append] at hn
      have htext := not_breaking hn.1.2
      simp only [not_or, not_not] at htext
      rw [returns_of_sameText htext.2, ha, Option.some.injEq] at hb
      exact .inr hb.symm
  | payload hv hi hb =>
    cases hl with
    | payload hv' hi' ha =>
      have hkey := h.variant hr hv hv' (hi.trans hi'.symm)
      rw [hb, ha] at hkey
      exact .inl hkey
  | position hp hi hb =>
    cases hl with
    | position hp' hi' ha =>
      have hkey := h.position hr hp hp' (hi.trans hi'.symm)
      rw [hb, ha] at hkey
      exact .inl hkey
  | relationship hm hi hb =>
    cases hl with
    | relationship hm' hi' ha =>
      rw [h.relationship hr hm hm' (hi.trans hi'.symm), ha, Option.some.injEq] at hb
      exact .inr hb.symm

end

/-! ### What a classification keeps -/

/-- Two references a type of both documents holds at one slot. -/
def RetainedReference (before after : Json) (slot : Slot) (reference reference' : String) : Prop :=
  ∃ earlier ∈ typesOf before, ∃ later ∈ typesOf after, identityOf earlier = identityOf later ∧
    Holds earlier slot reference ∧ Holds later slot reference'

def DesignationKept (before after : Json) (reference reference' : String) : Prop :=
  ∀ x, Designates (documentOf before) reference x → Designates (documentOf after) reference' x

/-- Every reference of a slot that a type of both documents holds keeps what it designated. -/
def DesignationsKept (before after : Json) (slots : Slot → Prop) : Prop :=
  ∀ slot reference reference', slots slot →
    RetainedReference before after slot reference reference' →
    DesignationKept before after reference reference'

/-- No identity where a reference of the earlier document ends, and that the document declares
no type of (a quantity, or an export of another package), is declared by the later document as
an alias or a feature. -/
def ForeignKept (before after : Json) : Prop :=
  ∀ slot reference reference', RetainedReference before after slot reference reference' →
    ∀ identity, Designates (documentOf before) reference (.named identity) →
      (documentOf before).typeOf identity = none →
      (documentOf after).standsFor identity = none

theorem Unbroken.designationKept
    (h : Unbroken beforeBundle afterBundle (documentOf beforeBundle) (documentOf afterBundle))
    (hforeign : ForeignKept beforeBundle afterBundle) {slot : Slot}
    {reference reference' : String} (hs : slot ≠ .member "inner")
    (hr : RetainedReference beforeBundle afterBundle slot reference reference') :
    DesignationKept beforeBundle afterBundle reference reference' := by
  obtain ⟨earlier, he, later, hl, hi, hheld, hheld'⟩ := hr
  have hend : ∀ identity, Ends (documentOf beforeBundle).standsFor reference identity →
      (documentOf afterBundle).standsFor identity = none := by
    intro identity hident
    apply h.terminal hident.next_eq_none
    intro hnative
    apply hforeign slot reference reference' ⟨earlier, he, later, hl, hi, hheld, hheld'⟩
    exact ⟨identity, hident, by rw [designationOf, hnative]⟩
  rcases h.sameReference ⟨he, hl, hi⟩ hs hheld hheld' with hkey | rfl
  · exact fun x hx => h.designates_of_key hkey hend hx
  · exact fun x hx => h.designates hend hx

/-- Of a pair that is not classified `breaking`, every reference a retained type holds keeps
what it designates exactly when the `inner` of each option does, and nothing a reference ends
at outside the earlier document is declared by the later one to stand for something else. -/
theorem designations_kept_iff {before after : Json} (hb : isValid before = true)
    (ha : isValid after = true) (hc : classify before after true true ≠ .breaking) :
    DesignationsKept before after (fun _ => True) ↔
      DesignationsKept before after (· = .member "inner") ∧ ForeignKept before after := by
  obtain ⟨b, hb⟩ := accepted_of_isValid hb
  obtain ⟨a, ha⟩ := accepted_of_isValid ha
  have hclassified := lt_of_le_of_ne (classify_le_breaking hb ha) hc
  obtain rfl := hb.eq_documentOf
  obtain rfl := ha.eq_documentOf
  have h : Unbroken before after (documentOf before) (documentOf after) := ⟨hb, ha, hclassified⟩
  constructor
  · intro hkept
    refine ⟨fun slot reference reference' _ => hkept slot reference reference' trivial, ?_⟩
    intro slot reference reference' hr identity hx _
    obtain ⟨last, hend, hlast⟩ := hkept slot reference reference' trivial hr _ hx
    obtain ⟨rfl, -⟩ := designationOf_named hlast.symm
    exact hend.next_eq_none
  · rintro ⟨hinner, hforeign⟩ slot reference reference' - hr
    by_cases hs : slot = .member "inner"
    · exact hinner slot reference reference' hs hr
    · exact h.designationKept hforeign hs hr

/-! ### An option of another type -/

/-- An option of a type, beside a text and an integer. -/
def optionOf (inner : String) : Json :=
  Sample.document [Sample.type "ix://a/O" "option" [] [("inner", .str inner)],
    Sample.scalar "ix://a/S" "string", Sample.scalar "ix://a/I" "integer"] []

/-- An option whose inner type is replaced is a patch. -/
theorem optionInner_is_patch : isValid (optionOf "ix://a/S") = true ∧
    isValid (optionOf "ix://a/I") = true ∧
    classify (optionOf "ix://a/S") (optionOf "ix://a/I") true true = .patch ∧
    RetainedReference (optionOf "ix://a/S") (optionOf "ix://a/I") (.member "inner") "ix://a/S"
      "ix://a/I" ∧
    ¬ DesignationKept (optionOf "ix://a/S") (optionOf "ix://a/I") "ix://a/S" "ix://a/I" := by
  refine ⟨by decide +kernel, by decide +kernel, by decide +kernel, ?_, ?_⟩
  · exact ⟨_, .head _, _, .head _, rfl, .member (by decide) (by decide),
      .member (by decide) (by decide)⟩
  · intro hkept
    have hS : (documentOf (optionOf "ix://a/S")).standsFor "ix://a/S" = none := by decide
    have hI : (documentOf (optionOf "ix://a/I")).standsFor "ix://a/I" = none := by decide
    obtain ⟨identity, he, hx⟩ := hkept _ ⟨"ix://a/S", .stop hS, rfl⟩
    rw [he.unique (.stop hI)] at hx
    exact absurd hx (by decide)

theorem optionOf_holds {inner reference : String} {definition : Json} {slot : Slot}
    (hm : definition ∈ typesOf (optionOf inner)) (h : Holds definition slot reference) :
    slot = .member "inner" ∧ reference = inner := by
  have hempty : ∀ name ∈ ["fields", "operations", "variants", "positions", "relationships"],
      definition.members name = [] := by
    intro name hn
    simp only [List.mem_cons, List.not_mem_nil, or_false] at hn
    rcases hm with _ | ⟨_, _ | ⟨_, _ | ⟨_, ⟨⟩⟩⟩⟩ <;> rcases hn with rfl | rfl | rfl | rfl | rfl <;> rfl
  cases h with
  | member hn hs =>
    simp only [referenceMembers, List.mem_cons, List.not_mem_nil, or_false] at hn
    rcases hm with _ | ⟨_, _ | ⟨_, _ | ⟨_, ⟨⟩⟩⟩⟩ <;> rcases hn with rfl | rfl | rfl | rfl <;> cases hs
    exact ⟨rfl, rfl⟩
  | field hf => rw [hempty "fields" (by decide)] at hf; cases hf
  | param ho => rw [hempty "operations" (by decide)] at ho; cases ho
  | result ho => rw [hempty "operations" (by decide)] at ho; cases ho
  | payload hv => rw [hempty "variants" (by decide)] at hv; cases hv
  | position hp => rw [hempty "positions" (by decide)] at hp; cases hp
  | relationship hm => rw [hempty "relationships" (by decide)] at hm; cases hm

theorem optionOf_kept : DesignationsKept (optionOf "ix://a/S") (optionOf "ix://a/S")
    (fun _ => True) := by
  have hvalid : isValid (optionOf "ix://a/S") = true := by decide +kernel
  refine (designations_kept_iff hvalid hvalid (by decide +kernel)).2 ⟨?_, ?_⟩
  · rintro slot reference reference' - ⟨_, he, _, hl, -, hheld, hheld'⟩ x hx
    have heq : reference' = reference :=
      (optionOf_holds hl hheld').2.trans (optionOf_holds he hheld).2.symm
    rwa [heq]
  · rintro slot reference reference' - identity ⟨last, hend, hlast⟩ -
    obtain ⟨rfl, -⟩ := designationOf_named hlast.symm
    exact hend.next_eq_none

end Compat
end FilamentCore.SemanticIr
