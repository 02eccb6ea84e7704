import FilamentCore.SemanticIr.Compat
import FilamentCore.SemanticIr.Identities

/-!
# What a classification says (crates/semantic-ir/src/compat.rs)

A classification is at most one when every note is, and the notes of a pair of accepted
documents are those of the types, and of the items of their lists, that have one identity.
-/

namespace FilamentCore.SemanticIr
open FilamentCore.Library

namespace Classification

theorem note_eq_max (a b : Classification) : note a b = max a b := by
  unfold note
  split
  · rename_i h
    exact (max_eq_right h.le).symm
  · rename_i h
    exact (max_eq_left (not_lt.1 h)).symm

theorem patch_le (c : Classification) : patch ≤ c := by cases c <;> decide

theorem foldl_note_le (start c : Classification) (notes : List Classification) :
    notes.foldl note start ≤ c ↔ start ≤ c ∧ ∀ n ∈ notes, n ≤ c := by
  induction notes generalizing start with
  | nil => simp
  | cons n notes ih =>
    rw [List.foldl_cons, ih, note_eq_max, max_le_iff, List.forall_mem_cons, and_assoc]

theorem worst_le {notes : List Classification} {c : Classification} :
    worst notes ≤ c ↔ ∀ n ∈ notes, n ≤ c := by
  rw [worst, foldl_note_le]
  exact and_iff_right (patch_le c)

theorem worst_congr {notes notes' : List Classification} (h : ∀ n, n ∈ notes ↔ n ∈ notes') :
    worst notes = worst notes' := by
  apply le_antisymm
  · exact worst_le.2 fun n hn => worst_le.1 le_rfl n ((h n).1 hn)
  · exact worst_le.2 fun n hn => worst_le.1 le_rfl n ((h n).2 hn)

theorem mem_noteIf {changed : Prop} [Decidable changed] {c n : Classification} :
    n ∈ noteIf changed c ↔ changed ∧ n = c := by
  unfold noteIf
  split <;> simp_all

theorem noteIf_le {changed : Prop} [Decidable changed] {c bound : Classification}
    (h : ∀ n ∈ noteIf changed c, n ≤ bound) (hlt : bound < c) : ¬ changed := by
  intro hc
  exact absurd (h c (mem_noteIf.2 ⟨hc, rfl⟩)) (not_le.2 hlt)

end Classification

open Classification (worst worst_le noteIf mem_noteIf)

namespace Compat

/-! ### Counterparts -/

theorem counterpart_eq_first (node : Json) (others : List Json) :
    counterpart node others = Keyed.first identityOr (identityOr node) others := rfl

theorem identityOr_of {node : Json} {identity : String} (h : identityOf node = some identity) :
    identityOr node = identity := by rw [identityOr, h, Option.getD_some]

theorem nodup_identityOr {items : List Json} (hn : (items.filterMap identityOf).Nodup)
    (hs : ∀ item ∈ items, HasIdentity item) : (items.map identityOr).Nodup := by
  have heq : items.map identityOr = items.filterMap identityOf := by
    clear hn
    induction items with
    | nil => rfl
    | cons item items ih =>
      obtain ⟨identity, hi⟩ := hs item (List.mem_cons_self ..)
      rw [List.map_cons, List.filterMap_cons_some hi, identityOr_of hi,
        ih fun item hm => hs item (List.mem_cons_of_mem _ hm)]
  rwa [heq]

theorem counterpart_of_mem {node other : Json} {others : List Json}
    (hn : (others.map identityOr).Nodup) (hm : other ∈ others)
    (hi : identityOr node = identityOr other) : counterpart node others = some other := by
  rw [counterpart_eq_first, hi]
  exact Keyed.first_of_mem hn hm

/-! ### Notes of lists -/

theorem mem_compareLists {before after : List Json} {removed n : Classification}
    {retained : Json → Json → List Classification} {addition : Json → List Classification} :
    n ∈ compareLists before after removed retained addition ↔
      (∃ node ∈ before, counterpart node after = none ∧ n = removed) ∨
      (∃ node ∈ before, ∃ other, counterpart node after = some other ∧
        n ∈ retained node other) ∨
      ∃ node ∈ after, counterpart node before = none ∧ n ∈ addition node := by
  simp only [compareLists, added, List.mem_append, List.mem_flatMap, List.mem_filter,
    Option.isNone_iff_eq_none]
  rw [← or_assoc]
  apply or_congr
  · constructor
    · rintro ⟨node, hm, h⟩
      cases hc : counterpart node after with
      | none => exact .inl ⟨node, hm, hc, by simpa [hc] using h⟩
      | some other => exact .inr ⟨node, hm, other, hc, by simpa [hc] using h⟩
    · rintro (⟨node, hm, hc, rfl⟩ | ⟨node, hm, other, hc, h⟩)
      · exact ⟨node, hm, by simp [hc]⟩
      · exact ⟨node, hm, by simpa [hc] using h⟩
  · simp only [and_assoc]

/-! ### Retained types -/

/-- Two definitions of one identity, one in each document. -/
structure Retained (before after : Document) (earlier later : Json) : Prop where
  inBefore : earlier ∈ before.types
  inAfter : later ∈ after.types
  identity : identityOf earlier = identityOf later

variable {beforeBundle afterBundle : Json} {before after : Document}

theorem classify_accepted (hb : Accepted beforeBundle before) (ha : Accepted afterBundle after) :
    classify beforeBundle afterBundle true true = worst (compareDocuments before after) := by
  simp [classify, hb.read, ha.read]

theorem typeOf_retained (ha : Accepted afterBundle after) {earlier later : Json}
    (hr : Retained before after earlier later) {identity : String}
    (hi : identityOf earlier = some identity) : after.typeOf identity = some later :=
  ha.typeOf_iff.2 ⟨hr.inAfter, hr.identity ▸ hi⟩

theorem mem_compareDocuments {n : Classification} (hb : Accepted beforeBundle before)
    (ha : Accepted afterBundle after) :
    n ∈ compareDocuments before after ↔
      (before.ir.get "contractVersion" ≠ after.ir.get "contractVersion" ∧ n = .conditional) ∨
      n ∈ compareExtensions before after ∨
      (∃ definition ∈ before.types, (∀ later ∈ after.types,
        identityOf later ≠ identityOf definition) ∧ n = .breaking) ∨
      ∃ earlier later, Retained before after earlier later ∧
        n ∈ compareType before after earlier later := by
  simp only [compareDocuments, List.mem_append, mem_noteIf, List.mem_flatMap, or_assoc]
  apply or_congr_right
  apply or_congr_right
  constructor
  · rintro ⟨definition, hm, h⟩
    obtain ⟨identity, hi⟩ := hb.type_identity hm
    cases ht : after.typeOf identity with
    | none =>
      refine .inl ⟨definition, hm, fun later hl hne => ?_, ?_⟩
      · rw [hi] at hne
        rw [ha.typeOf_iff.2 ⟨hl, hne⟩] at ht
        cases ht
      · simpa [compareDefinition, hi, ht] using h
    | some later =>
      obtain ⟨hl, hli⟩ := ha.typeOf_iff.1 ht
      exact .inr ⟨definition, later, ⟨hm, hl, hi.trans hli.symm⟩,
        by simpa [compareDefinition, hi, ht] using h⟩
  · rintro (⟨definition, hm, hne, rfl⟩ | ⟨earlier, later, hr, h⟩)
    · obtain ⟨identity, hi⟩ := hb.type_identity hm
      refine ⟨definition, hm, ?_⟩
      have ht : after.typeOf identity = none := by
        cases ht : after.typeOf identity with
        | none => rfl
        | some later =>
          obtain ⟨hl, hli⟩ := ha.typeOf_iff.1 ht
          exact absurd (hli.trans hi.symm) (hne later hl)
      simp [compareDefinition, hi, ht]
    · obtain ⟨identity, hi⟩ := hb.type_identity hr.inBefore
      refine ⟨earlier, hr.inBefore, ?_⟩
      simpa [compareDefinition, hi, typeOf_retained ha hr hi] using h

theorem compareType_le (hb : Accepted beforeBundle before) (ha : Accepted afterBundle after)
    {c : Classification} (hc : classify beforeBundle afterBundle true true ≤ c)
    {earlier later : Json} (hr : Retained before after earlier later) :
    ∀ n ∈ compareType before after earlier later, n ≤ c := by
  intro n hn
  rw [classify_accepted hb ha, worst_le] at hc
  exact hc n ((mem_compareDocuments hb ha).2 (.inr (.inr (.inr ⟨earlier, later, hr, hn⟩))))

/-! ### The worst there is -/

/-- No note is `invalid`. -/
def Bounded (notes : List Classification) : Prop := ∀ n ∈ notes, n ≠ .invalid

theorem bounded_append {notes notes' : List Classification} :
    Bounded (notes ++ notes') ↔ Bounded notes ∧ Bounded notes' := List.forall_mem_append

theorem bounded_noteIf {changed : Prop} [Decidable changed] {c : Classification}
    (h : c ≠ .invalid) : Bounded (noteIf changed c) := by
  intro n hn
  rw [(mem_noteIf.1 hn).2]
  exact h

theorem bounded_flatMap {α : Type} {l : List α} {f : α → List Classification}
    (h : ∀ a ∈ l, Bounded (f a)) : Bounded (l.flatMap f) := by
  intro n hn
  obtain ⟨a, ha, hn⟩ := List.mem_flatMap.1 hn
  exact h a ha n hn

theorem bounded_compareLists {was is : List Json} {removed : Classification}
    {retained : Json → Json → List Classification} {addition : Json → List Classification}
    (hremoved : removed ≠ .invalid) (hr : ∀ a b, Bounded (retained a b))
    (ha : ∀ a, Bounded (addition a)) : Bounded (compareLists was is removed retained addition) := by
  intro n hn
  rcases mem_compareLists.1 hn with ⟨a, -, -, rfl⟩ | ⟨a, -, b, -, h⟩ | ⟨a, -, -, h⟩
  · exact hremoved
  · exact hr a b n h
  · exact ha a n h

theorem bounded_singleton {c : Classification} (h : c ≠ .invalid) : Bounded [c] := by
  intro n hn
  rwa [List.mem_singleton.1 hn]

theorem bounded_nil : Bounded [] := fun _ hn => absurd hn List.not_mem_nil

theorem bounded_compareField (earlier later : Json) :
    Bounded (compareField before after earlier later) := by
  simp only [compareField, bounded_append]
  refine ⟨⟨⟨⟨⟨⟨?_, ?_⟩, ?_⟩, ?_⟩, ?_⟩, ?_⟩, ?_⟩
  case refine_6 =>
    split
    · exact bounded_singleton (by decide)
    · split
      · exact bounded_singleton (by decide)
      · exact bounded_nil
  all_goals exact bounded_noteIf (by decide)

theorem bounded_compareOperation (operation other : Json) :
    Bounded (compareOperation before after operation other) := by
  simp only [compareOperation, bounded_append]
  refine ⟨⟨?_, ?_⟩, bounded_flatMap fun binding _ => ?_⟩
  all_goals exact bounded_noteIf (by decide)

theorem operandMove_ne (earlier later : Json) : operandMove earlier later ≠ .invalid := by
  simp only [operandMove]
  repeat' split
  all_goals exact (by decide)

theorem bounded_retainedExtension (extension other : Json) :
    Bounded (retainedExtension extension other) := by
  unfold retainedExtension
  split
  · exact bounded_singleton (by decide)
  · split
    · exact bounded_singleton (by decide)
    · exact bounded_noteIf (by decide)

theorem bounded_compareConstraints (earlier later : Json) :
    Bounded (compareConstraints earlier later) := by
  refine bounded_compareLists (by decide) (fun constraint other => ?_)
    fun _ => bounded_singleton (by decide)
  unfold retainedConstraint
  split
  · exact bounded_nil
  · exact bounded_singleton (operandMove_ne _ _)

theorem bounded_compareFields (earlier later : Json) :
    Bounded (compareFields before after earlier later) := by
  refine bounded_compareLists (by decide) bounded_compareField fun field => ?_
  simp only [addedField, optionalAddition]
  repeat' split
  all_goals exact bounded_singleton (by decide)

theorem bounded_compareVariants (earlier later : Json) :
    Bounded (compareVariants before after earlier later) := by
  refine bounded_compareLists (by decide) (fun variant other => ?_)
    fun _ => bounded_singleton (by decide)
  rw [compareVariant, bounded_append]
  exact ⟨bounded_noteIf (by decide), bounded_noteIf (by decide)⟩

theorem bounded_comparePolicy (earlier later : Json) : Bounded (comparePolicy earlier later) := by
  simp only [comparePolicy]
  repeat' split
  · exact bounded_singleton (by decide)
  · exact bounded_singleton (by decide)
  · exact bounded_nil

theorem bounded_comparePositions (earlier later : Json) :
    Bounded (comparePositions before after earlier later) := by
  rw [comparePositions, bounded_append]
  exact ⟨bounded_noteIf (by decide),
    bounded_flatMap fun _ _ => bounded_noteIf (by decide)⟩

theorem bounded_compareRelationships (earlier later : Json) :
    Bounded (compareRelationships earlier later) :=
  bounded_compareLists (by decide) (fun _ _ => bounded_noteIf (by decide))
    fun _ => bounded_singleton (by decide)

theorem bounded_compareOperations (earlier later : Json) :
    Bounded (compareOperations before after earlier later) :=
  bounded_compareLists (by decide) bounded_compareOperation
    fun _ => bounded_singleton (by decide)

theorem bounded_compareClauses (earlier later : Json) : Bounded (compareClauses earlier later) :=
  bounded_compareLists (by decide) (fun _ _ => bounded_noteIf (by decide))
    fun _ => bounded_singleton (by decide)

theorem bounded_compareType (earlier later : Json) :
    Bounded (compareType before after earlier later) := by
  simp only [compareType, bounded_append]
  exact ⟨⟨⟨⟨⟨⟨⟨⟨⟨bounded_flatMap fun _ _ => bounded_noteIf (by decide),
    bounded_flatMap fun _ _ => bounded_noteIf (by decide)⟩,
    bounded_comparePolicy _ _⟩, bounded_compareConstraints _ _⟩, bounded_compareFields _ _⟩,
    bounded_compareVariants _ _⟩, bounded_comparePositions _ _⟩, bounded_compareRelationships _ _⟩,
    bounded_compareOperations _ _⟩, bounded_compareClauses _ _⟩

theorem bounded_compareExtensions : Bounded (compareExtensions before after) := by
  refine bounded_compareLists (by decide) bounded_retainedExtension fun extension => ?_
  simp only [addedExtension]
  split
  · exact bounded_singleton (by decide)
  · exact bounded_singleton (by decide)

theorem bounded_compareDefinition (definition : Json) :
    Bounded (compareDefinition before after definition) := by
  simp only [compareDefinition]
  split
  · exact bounded_nil
  · split
    · exact bounded_singleton (by decide)
    · exact bounded_compareType _ _

/-- A pair of valid documents is never `invalid`. -/
theorem classify_le_breaking (hb : Accepted beforeBundle before) (ha : Accepted afterBundle after) :
    classify beforeBundle afterBundle true true ≤ .breaking := by
  have hall : Bounded (compareDocuments before after) := by
    simp only [compareDocuments, bounded_append]
    exact ⟨⟨bounded_noteIf (by decide), bounded_compareExtensions⟩,
      bounded_flatMap fun definition _ => bounded_compareDefinition definition⟩
  rw [classify_accepted hb ha, worst_le]
  intro n hn
  have hne := hall n hn
  revert hne
  cases n <;> decide

end Compat
end FilamentCore.SemanticIr
