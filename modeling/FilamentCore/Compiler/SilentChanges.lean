import FilamentCore.Compiler.EvidenceOrder
import FilamentCore.Compiler.NumericSets
import FilamentCore.SemanticIr.Accepted

/-!
# What a report of patches says of the kept types (src/compiler/compat/diff.mjs)

Where every change is a patch, the members that the classifier compares agree. The members of a type
that it does not compare, and the part of a constraint beside its operands, are what is left to ask
of the two documents.
-/

namespace FilamentCore.Compiler.Diff
open FilamentCore.SemanticIr
open FilamentCore.SemanticIr.Json

/-- Members of one value: the same scalar, or values of one canonical text. -/
def alike (left right : Option Json) : Bool := strictEq left right || same left right

/-- The nodes of two lists have the same identities, and `r` holds of the two of each. -/
def Kept (r : Json → Json → Prop) (previous next : Option Json) : Prop :=
  ∀ identity, Option.Rel r (entry (byIdentity previous) identity) (entry (byIdentity next) identity)

/-- `r` holds of the two nodes of each identity that both lists have. -/
def Shared (r : Json → Json → Prop) (previous next : Option Json) : Prop :=
  ∀ identity a b, entry (byIdentity previous) identity = some a →
    entry (byIdentity next) identity = some b → r a b

/-- The operands of `constraint` state the bound `value`. -/
def BoundAt (scalar : String) (constraint : Json) (value : Decimal) : Prop :=
  ∃ bound, (operandText constraint).bind (exactBound · scalar) = some bound ∧ bound.decimal = value

structure ConstraintAgrees (original constraint : Json) : Prop where
  keyword : alike (original.get "keyword") (constraint.get "keyword") = true
  appliesTo : alike (original.get "appliesTo") (constraint.get "appliesTo") = true
  operands : same (original.get "operands") (constraint.get "operands") = true ∨
    ∃ scalar value, BoundAt scalar original value ∧ BoundAt scalar constraint value

structure FieldAgrees (original field : Json) : Prop where
  typeRef : alike (original.get "typeRef") (field.get "typeRef") = true
  presence : alike (original.get "presence") (field.get "presence") = true
  multiplicity : alike (original.get "multiplicity") (field.get "multiplicity") = true
  nullable : (original.get "nullable" == some (.bool true)) =
    (field.get "nullable" == some (.bool true))
  constraints : Kept ConstraintAgrees (original.get "constraints") (field.get "constraints")

/-- The two definitions of a type decide the same values and behaviour. -/
structure TypeAgrees (previous next : Json) : Prop where
  target : alike (previous.get "target") (next.get "target") = true
  members : ∀ name ∈ ["items", "values", "inner", "states", "transitions"],
    alike (previous.get name) (next.get name) = true
  fields : Kept FieldAgrees (previous.get "fields") (next.get "fields")
  variants : Kept (fun original variant =>
    alike (original.get "payloadType") (variant.get "payloadType") = true)
      (previous.get "variants") (next.get "variants")
  operations : Kept (fun original operation => same (some original) (some operation) = true)
    (previous.get "operations") (next.get "operations")
  constraints : Kept ConstraintAgrees (previous.get "constraints") (next.get "constraints")

/-- What `diffConstraints` does not compare of a constraint. -/
structure ConstraintUnexamined (original constraint : Json) : Prop where
  appliesTo : alike (original.get "appliesTo") (constraint.get "appliesTo") = true
  keyword : same (original.get "operands") (constraint.get "operands") = true →
    alike (original.get "keyword") (constraint.get "keyword") = true

/-- What no routine compares of a type agrees; the target of an alias is compared where both
documents resolve it to one integer or decimal scalar. -/
structure Unexamined (oldTypes newTypes : List (String × Json)) (identity : String)
    (previous next : Json) : Prop where
  target : isAlias previous = true ∧
      numericScalar (numericSubject oldTypes (some (.str identity))).scalar
        (numericSubject newTypes (some (.str identity))).scalar = true ∨
    alike (previous.get "target") (next.get "target") = true
  members : ∀ name ∈ ["items", "values", "inner", "states", "transitions"],
    alike (previous.get name) (next.get name) = true
  constraints : Shared ConstraintUnexamined (previous.get "constraints") (next.get "constraints")
  fields : Shared (fun original field =>
    Shared ConstraintUnexamined (original.get "constraints") (field.get "constraints"))
      (previous.get "fields") (next.get "fields")

/-! ### Records that are all patches -/

def Quiet (records : List Record) : Prop := ∀ record ∈ records, record.disposition = .patch

theorem quiet_append {l m : List Record} : Quiet (l ++ m) ↔ Quiet l ∧ Quiet m :=
  List.forall_mem_append

theorem Quiet.of_mem {α : Type} {l : List α} {f : α → List Record} (h : Quiet (l.flatMap f)) {a : α}
    (ha : a ∈ l) : Quiet (f a) := fun record hr => h record (List.mem_flatMap.2 ⟨a, ha, hr⟩)

theorem Quiet.not_recorded {condition : Bool} {record : Record}
    (h : Quiet (recordIf condition record)) (hd : record.disposition ≠ .patch) :
    condition = false := by
  cases condition with
  | false => rfl
  | true => exact absurd (h record (List.mem_singleton_self _)) hd

theorem Quiet.none_of_some {disposition : Option Disposition} {record : Disposition → Record}
    (h : Quiet (recordSome disposition record)) (hd : ∀ d, (record d).disposition = d)
    (hp : disposition ≠ some .patch) : disposition = none := by
  cases disposition with
  | none => rfl
  | some d =>
    have hrecord := h (record d) (List.mem_singleton_self _)
    rw [hd d] at hrecord
    exact absurd (congrArg some hrecord) hp

theorem Disposition.eq_patch {d : Disposition} (h : d.rank ≤ 0) : d = .patch := by
  cases d <;> first | rfl | exact absurd h (by decide)

variable {request : Request} {report : Report}

theorem records_quiet (h : diffSemanticContract request = some report)
    (hp : report.aggregateDisposition = .patch) : Quiet request.records := by
  intro record hr
  have hchange : record.change ∈ request.typeChanges :=
    List.mem_append_right _ (List.mem_map_of_mem hr)
  obtain ⟨changes, hperm, heq | ⟨hempty, -⟩⟩ := report_perm h
  · have hrank : (mostRestrictive (report.changes.map Change.disposition)).rank ≤ 0 := by
      rw [← (report_spec h).2, hp]
      exact Nat.le_refl 0
    have hmem : request.record record.change ∈ report.changes := by
      rw [hperm.mem_iff, heq]
      exact List.mem_map_of_mem hchange
    have hle := rank_mostRestrictive_le.1 hrank _ (List.mem_map_of_mem hmem)
    exact Disposition.eq_patch (rank_floor_le.1 hle).1
  · rw [hempty] at hchange
    exact absurd hchange List.not_mem_nil

/-! ### Members and nodes -/

theorem alike_of_strictEq {left right : Option Json} (h : (!strictEq left right) = false) :
    alike left right = true := by
  rw [Bool.not_eq_eq_eq_not, Bool.not_false] at h
  rw [alike, h, Bool.true_or]

theorem alike_of_same {left right : Option Json} (h : same left right = true) :
    alike left right = true := by
  rw [alike, h, Bool.or_true]

theorem canonical_nullish (value : Option Json) : (nullish value .null) = value.getD .null := by
  cases value with
  | none => rfl
  | some value => cases value <;> rfl

theorem alike_of_nullish {left right : Option Json}
    (h : (!strictEq (some (nullish left .null)) (some (nullish right .null))) = false) :
    alike left right = true := by
  rw [canonical_nullish, canonical_nullish] at h
  cases left with
  | none =>
    cases right with
    | none => rfl
    | some value => cases value <;> first | rfl | exact absurd h (by simp [strictEq])
  | some left =>
    cases right with
    | none => cases left <;> first | rfl | exact absurd h (by simp [strictEq])
    | some right => exact alike_of_strictEq h

theorem mem_of_entry {map : List (String × Json)} {key : String} {node : Json}
    (h : entry map key = some node) : (key, node) ∈ map := by
  obtain ⟨e, he, rfl⟩ := Option.map_eq_some_iff.1 h
  have hkey := List.find?_some he
  have hmem := List.mem_of_find?_eq_some he
  rw [beq_iff_eq] at hkey
  rw [← hkey]
  exact hmem

theorem Kept.shared {r : Json → Json → Prop} {previous next : Option Json}
    (h : Kept r previous next) : Shared r previous next := by
  intro identity a b ha hb
  have hrel := h identity
  rw [ha, hb] at hrel
  cases hrel with
  | some hr => exact hr

theorem Shared.imp {r s : Json → Json → Prop} {previous next : Option Json}
    (h : Shared r previous next) (hrs : ∀ a b, r a b → s a b) : Shared s previous next :=
  fun identity a b ha hb => hrs a b (h identity a b ha hb)

theorem kept_of_shared {r : Json → Json → Prop} {previous next : Option Json}
    (hremoved : ∀ e ∈ byIdentity previous, has (byIdentity next) e.1 = true)
    (hadded : ∀ e ∈ byIdentity next, has (byIdentity previous) e.1 = true)
    (hr : Shared r previous next) : Kept r previous next := by
  intro identity
  cases ha : entry (byIdentity previous) identity with
  | none =>
    cases hb : entry (byIdentity next) identity with
    | none => exact .none
    | some b =>
      have h := hadded _ (mem_of_entry hb)
      rw [has, ha] at h
      exact absurd h (by decide)
  | some a =>
    cases hb : entry (byIdentity next) identity with
    | none =>
      have h := hremoved _ (mem_of_entry ha)
      rw [has, hb] at h
      exact absurd h (by decide)
    | some b => exact .some (hr identity a b ha hb)

/-! ### What the routines compare -/

theorem boundAt_of_eq {original constraint : Json} {scalar : String}
    (h : compareExactBounds (operandText original) (operandText constraint) scalar = some .eq) :
    ∃ value, BoundAt scalar original value ∧ BoundAt scalar constraint value := by
  rw [compareExactBounds] at h
  cases hl : (operandText original).bind (exactBound · scalar) with
  | none =>
    rw [hl] at h
    exact absurd h (by simp)
  | some l =>
    cases hr : (operandText constraint).bind (exactBound · scalar) with
    | none =>
      rw [hl, hr] at h
      exact absurd h (by simp)
    | some r =>
      rw [hl, hr] at h
      have heq : compare l.decimal r.decimal = .eq := by
        rw [← compare_decimal]
        exact Option.some.inj h
      exact ⟨r.decimal, ⟨l, hl, compare_eq_iff_eq.1 heq⟩, ⟨r, hr, rfl⟩⟩

/-- Operands that changed are a patch only as two spellings of one bound. -/
theorem operandsDisposition_patch {original constraint : Json} {old new : Option String}
    (h : operandsDisposition original constraint old new = .patch) :
    alike (original.get "keyword") (constraint.get "keyword") = true ∧
      ∃ scalar value, BoundAt scalar original value ∧ BoundAt scalar constraint value := by
  simp only [operandsDisposition] at h
  split_ifs at h with hbound heq
  simp only [Bool.and_eq_true] at hbound
  obtain ⟨⟨⟨⟨-, hkeyword⟩, -⟩, -⟩, -⟩ := hbound
  refine ⟨alike_of_strictEq (by rw [hkeyword]; rfl), _, boundAt_of_eq heq⟩

theorem constraints_kept {previous next : Json} {old new : Option String}
    (h : Quiet (diffConstraints previous next old new)) :
    Kept ConstraintAgrees (previous.get "constraints") (next.get "constraints") ↔
      Shared ConstraintUnexamined (previous.get "constraints") (next.get "constraints") := by
  obtain ⟨hremoved, hafter⟩ := quiet_append.1 h
  constructor
  · intro hk
    exact hk.shared.imp fun _ _ ha => ⟨ha.appliesTo, fun _ => ha.keyword⟩
  · intro hs
    refine kept_of_shared ?_ ?_ ?_
    · intro e he
      have hr := (hremoved.of_mem he).not_recorded (by
        show (if _ then Disposition.conditional else .breaking) ≠ .patch
        split_ifs <;> decide)
      simpa using hr
    · intro e he
      have hq := hafter.of_mem he
      cases hb : entry (byIdentity (previous.get "constraints")) e.1 with
      | none =>
        simp only [hb] at hq
        exact absurd (hq _ (List.mem_singleton_self _)) (by simp)
      | some original => rw [has, hb]; rfl
    · intro identity a b ha hb
      have hu := hs identity a b ha hb
      have hq := hafter.of_mem (mem_of_entry hb)
      simp only [ha] at hq
      cases hops : same (a.get "operands") (b.get "operands") with
      | true => exact ⟨hu.keyword hops, hu.appliesTo, Or.inl hops⟩
      | false =>
        rw [hops] at hq
        have hpatch := operandsDisposition_patch (hq _ (List.mem_singleton_self _))
        exact ⟨hpatch.1, hu.appliesTo, Or.inr hpatch.2⟩

theorem multiplicityChange_none {before after : Option Json}
    (h : multiplicityChange before after = none) : same before after = true := by
  simp only [multiplicityChange] at h
  split_ifs at h with hs
  exact hs

theorem multiplicityChange_ne (before after : Option Json) :
    multiplicityChange before after ≠ some .patch := by
  simp only [multiplicityChange]
  split_ifs <;> simp

theorem numericRefDisposition_ne (original field : Inline) (old new : Subject) :
    numericRefDisposition original field old new ≠ .patch := by
  obtain h | h := numericRefDisposition_cases original field old new <;> simp [h]

theorem field_agrees {oldTypes newTypes : List (String × Json)} {identity : String}
    {original field : Json} (h : Quiet (diffField oldTypes newTypes identity original field)) :
    FieldAgrees original field ↔
      Shared ConstraintUnexamined (original.get "constraints") (field.get "constraints") := by
  simp only [diffField, quiet_append] at h
  obtain ⟨⟨⟨⟨⟨⟨⟨⟨⟨⟨-, hconstraints⟩, hmultiplicity⟩, -⟩, htype⟩, -⟩, hnullable⟩, -⟩, hpresence⟩, -⟩,
    -⟩ := h
  have hkept := constraints_kept hconstraints
  constructor
  · intro ha
    exact hkept.1 ha.constraints
  · intro hs
    refine ⟨?_, ?_, ?_, ?_, hkept.2 hs⟩
    · exact alike_of_strictEq (htype.not_recorded (numericRefDisposition_ne _ _ _ _))
    · refine alike_of_nullish (hpresence.not_recorded ?_)
      show (if _ then Disposition.breaking else .additive) ≠ .patch
      split_ifs <;> decide
    · exact alike_of_same (multiplicityChange_none
        (hmultiplicity.none_of_some (fun _ => rfl) (multiplicityChange_ne _ _)))
    · have hn := hnullable.not_recorded (by
        show (if _ then Disposition.conditional else .breaking) ≠ .patch
        split_ifs <;> decide)
      exact bne_eq_false_iff_eq.1 hn

theorem fields_kept {policies : List Json} {evidence : Evidence}
    {oldTypes newTypes : List (String × Json)} {previous next : Json}
    (h : Quiet (diffFields policies evidence oldTypes newTypes previous next)) :
    Kept FieldAgrees (previous.get "fields") (next.get "fields") ↔
      Shared (fun original field =>
        Shared ConstraintUnexamined (original.get "constraints") (field.get "constraints"))
          (previous.get "fields") (next.get "fields") := by
  simp only [diffFields, quiet_append] at h
  obtain ⟨⟨hremoved, hadded⟩, hboth⟩ := h
  have hfield : ∀ identity a b, entry (byIdentity (previous.get "fields")) identity = some a →
      entry (byIdentity (next.get "fields")) identity = some b →
        Quiet (diffField oldTypes newTypes identity a b) := by
    intro identity a b ha hb
    have hq := hboth.of_mem (mem_of_entry hb)
    simp only [ha] at hq
    exact hq
  constructor
  · intro hk identity a b ha hb
    exact (field_agrees (hfield identity a b ha hb)).1 (hk.shared identity a b ha hb)
  · intro hs
    refine kept_of_shared ?_ ?_ fun identity a b ha hb =>
      (field_agrees (hfield identity a b ha hb)).2 (hs identity a b ha hb)
    · intro e he
      have hr := (hremoved.of_mem he).not_recorded (by simp)
      simpa using hr
    · intro e he
      have hr := (hadded.of_mem he).not_recorded (by
        show (if _ then Disposition.breaking else additionDisposition _ _) ≠ .patch
        rw [additionDisposition]
        split_ifs <;> decide)
      simpa using hr

theorem variants_kept {policies : List Json} {evidence : Evidence} {previous next : Json}
    (h : Quiet (diffVariants policies evidence previous next)) :
    Kept (fun original variant =>
      alike (original.get "payloadType") (variant.get "payloadType") = true)
        (previous.get "variants") (next.get "variants") := by
  obtain ⟨hremoved, hafter⟩ := quiet_append.1 h
  refine kept_of_shared ?_ ?_ ?_
  · intro e he
    have hr := (hremoved.of_mem he).not_recorded (by simp)
    simpa using hr
  · intro e he
    have hq := hafter.of_mem he
    cases hb : entry (byIdentity (previous.get "variants")) e.1 with
    | none =>
      simp only [hb] at hq
      refine absurd (hq _ (List.mem_singleton_self _)) ?_
      rw [additionDisposition]
      split_ifs <;> decide
    | some original => rw [has, hb]; rfl
  · intro identity a b ha hb
    have hq := hafter.of_mem (mem_of_entry hb)
    simp only [ha] at hq
    have hn := hq.not_recorded (by simp)
    rw [Bool.not_eq_eq_eq_not, Bool.not_false] at hn
    exact alike_of_same hn

theorem operations_kept {previous next : Json} (h : Quiet (diffNodes previous next)) :
    Kept (fun original operation => same (some original) (some operation) = true)
      (previous.get "operations") (next.get "operations") := by
  obtain ⟨hremoved, hafter⟩ := quiet_append.1 (h.of_mem (a := ("operations", "operation"))
    (by decide))
  refine kept_of_shared ?_ ?_ ?_
  · intro e he
    have hr := (hremoved.of_mem he).not_recorded (by simp)
    simpa using hr
  · intro e he
    have hq := hafter.of_mem he
    cases hb : entry (byIdentity (previous.get "operations")) e.1 with
    | none =>
      simp only [hb] at hq
      exact absurd (hq _ (List.mem_singleton_self _)) (by simp)
    | some original => rw [has, hb]; rfl
  · intro identity a b ha hb
    have hq := hafter.of_mem (mem_of_entry hb)
    simp only [ha] at hq
    have hn := hq.not_recorded (by simp)
    rwa [Bool.not_eq_eq_eq_not, Bool.not_false] at hn

theorem target_examined {identity : String} {previous next : Json} {old new : Subject}
    (h : Quiet (diffDomain identity previous next old new)) (ha : isAlias previous = true)
    (hn : numericScalar old.scalar new.scalar = true) :
    alike (previous.get "target") (next.get "target") = true := by
  rw [diffDomain] at h
  split_ifs at h with hkind
  · exact absurd (h _ (List.mem_singleton_self _)) (by simp)
  · simp only [quiet_append] at h
    obtain ⟨⟨-, htarget⟩, -⟩ := h
    have ht := htarget.not_recorded (numericRefDisposition_ne _ _ _ _)
    rw [ha, hn, Bool.true_and, Bool.and_true] at ht
    exact alike_of_strictEq ht

theorem type_agrees {policies : List Json} {evidence : Evidence}
    {oldTypes newTypes : List (String × Json)} {identity : String} {previous next : Json}
    (h : Quiet (diffType policies evidence oldTypes newTypes identity previous next)) :
    TypeAgrees previous next ↔ Unexamined oldTypes newTypes identity previous next := by
  simp only [diffType, quiet_append] at h
  obtain ⟨⟨⟨⟨⟨⟨⟨⟨⟨⟨hdomain, -⟩, -⟩, -⟩, hfields⟩, hvariants⟩, -⟩, hconstraints⟩, hnodes⟩, -⟩, -⟩ := h
  have hf := fields_kept hfields
  have hc := constraints_kept hconstraints
  constructor
  · intro ha
    exact ⟨Or.inr ha.target, ha.members, hc.1 ha.constraints, hf.1 ha.fields⟩
  · intro hu
    refine ⟨?_, hu.members, hf.2 hu.fields, variants_kept hvariants, operations_kept hnodes,
      hc.2 hu.constraints⟩
    obtain ⟨ha, hn⟩ | ht := hu.target
    · exact target_examined hdomain ha hn
    · exact ht

/-! ### The report -/

def Request.TypesAgree (request : Request) : Prop :=
  ∀ identity previous next, entry request.oldTypes identity = some previous →
    entry request.newTypes identity = some next → TypeAgrees previous next

def Request.UnexaminedAgree (request : Request) : Prop :=
  ∀ identity previous next, entry request.oldTypes identity = some previous →
    entry request.newTypes identity = some next →
      Unexamined request.oldTypes request.newTypes identity previous next

/-- A report of patches means that the kept types agree exactly where the members that no routine
compares do. -/
theorem patch_agrees_iff (request : Request) (report : Report)
    (h : diffSemanticContract request = some report) (hp : report.aggregateDisposition = .patch) :
    request.TypesAgree ↔ request.UnexaminedAgree := by
  have hquiet := records_quiet h hp
  have htype : ∀ identity previous next, entry request.oldTypes identity = some previous →
      entry request.newTypes identity = some next → Quiet (diffType request.consumerPolicies
        request.evidence request.oldTypes request.newTypes identity previous next) := by
    intro identity previous next ho hn
    simp only [Request.records, quiet_append] at hquiet
    have hq := hquiet.1.1.1.of_mem (mem_of_entry hn)
    rw [← Request.oldTypes] at hq
    simp only [ho] at hq
    exact hq
  refine forall_congr' fun identity => forall_congr' fun previous => forall_congr' fun next =>
    forall_congr' fun ho => forall_congr' fun hn => ?_
  exact type_agrees (htype identity previous next ho hn)

/-- A document of one type, a sequence of `items`. -/
def sequenceOf (items : String) : Json :=
  ((Sample.document [Sample.type "ix://a/b/Names" "sequence" [] [("items", .str items)]]
    []).get "ir").getD .null

def sequenceRequest (before after : String) : Request where
  old := sequenceOf before
  new := sequenceOf after
  consumerPolicies := []
  evidence := .current
  targetResults := fun _ => []
  declared := []

theorem sequence_kept (items : String) : (sequenceRequest items items).UnexaminedAgree := by
  intro identity previous next hold hnew
  have heq : previous = next := Option.some.inj (hold.symm.trans hnew)
  subst heq
  have hself : ∀ value : Option Json, alike value value = true := fun value =>
    alike_of_same (beq_self_eq_true _)
  have hconstraint : ∀ list, Shared ConstraintUnexamined list list := by
    intro list key a b ha hb
    rw [Option.some.inj (ha.symm.trans hb)]
    exact ⟨hself _, fun _ => hself _⟩
  refine ⟨Or.inr (hself _), fun _ _ => hself _, hconstraint _, ?_⟩
  intro key a b ha hb
  rw [Option.some.inj (ha.symm.trans hb)]
  exact hconstraint _

theorem sequence_agrees : ∃ report, diffSemanticContract
    (sequenceRequest "ix://quire/native/String" "ix://quire/native/String") = some report ∧
      report.aggregateDisposition = .patch ∧
      (sequenceRequest "ix://quire/native/String" "ix://quire/native/String").TypesAgree := by
  have hpatch : (diffSemanticContract (sequenceRequest "ix://quire/native/String"
      "ix://quire/native/String")).map Report.aggregateDisposition = some .patch := by
    decide +kernel
  obtain ⟨report, hr, hp⟩ := Option.map_eq_some_iff.1 hpatch
  exact ⟨report, hr, hp, (patch_agrees_iff _ report hr hp).2 (sequence_kept _)⟩

/-- A sequence whose items become integers is a patch. -/
theorem repointedItems_patch : ∃ report, diffSemanticContract
    (sequenceRequest "ix://quire/native/String" "ix://quire/native/Integer") = some report ∧
      report.aggregateDisposition = .patch ∧
      ¬ (sequenceRequest "ix://quire/native/String" "ix://quire/native/Integer").TypesAgree := by
  have hpatch : (diffSemanticContract (sequenceRequest "ix://quire/native/String"
      "ix://quire/native/Integer")).map Report.aggregateDisposition = some .patch := by
    decide +kernel
  obtain ⟨report, hr, hp⟩ := Option.map_eq_some_iff.1 hpatch
  refine ⟨report, hr, hp, fun ha => ?_⟩
  have hitems := (ha "ix://a/b/Names" _ _ rfl rfl).members "items" (by decide)
  exact absurd hitems (by decide +kernel)

end FilamentCore.Compiler.Diff
