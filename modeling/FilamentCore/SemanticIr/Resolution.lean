import FilamentCore.Library.Following
import FilamentCore.SemanticIr.Comparison

/-!
# What a reference designates

A feature stands for its type and an alias for its target; what has no such step is where a
reference ends. `resolve` follows these steps, and so does the key the classifier compares.
-/

namespace FilamentCore.SemanticIr
open FilamentCore.Library
open FilamentCore.Library.Following

/-! ### Steps -/

namespace Document

variable (d : Document)

/-- An alias, as `resolve` follows it. -/
def isAlias (definition : Json) : Bool :=
  isCoreAlias definition || d.isConstructAlias definition

/-- The reference an identity stands for: the type of a feature, or the target of an alias. -/
def standsFor (identity : String) : Option String :=
  if identity = clockTypeRef ∨ (nativeScalar identity).isSome then none
  else
    match d.fieldOf identity with
    | some field => field.node.getStr "typeRef"
    | none => ((d.typeOf identity).filter d.isAlias).bind (·.getStr "target")

end Document

/-- A native scalar, or the identity where a reference ends: that of a type, of a clock or of a
quantity, or of an export of another package. -/
inductive Designation where
  | native (scalar : String)
  | named (identity : String)
  deriving DecidableEq, Repr

def designationOf (identity : String) : Designation :=
  match nativeScalar identity with
  | some scalar => .native scalar
  | none => .named identity

def Designates (d : Document) (reference : String) (designation : Designation) : Prop :=
  ∃ identity, Ends d.standsFor reference identity ∧ designation = designationOf identity

theorem designates_reaches {d : Document} {a b : String} (h : Reaches d.standsFor a b)
    (x : Designation) : Designates d a x ↔ Designates d b x := by
  unfold Designates
  exact exists_congr fun _ => and_congr_left' (ends_reaches h)

theorem designationOf_named {identity name : String} (h : designationOf identity = .named name) :
    identity = name ∧ nativeScalar name = none := by
  unfold designationOf at h
  split at h
  · cases h
  · rename_i hn
    cases h
    exact ⟨rfl, hn⟩

/-! ### The walks of `resolve` -/

variable {bundle : Json} {d : Document}

/-- An identity the walk along aliases may stand at. -/
structure Plain (d : Document) (identity : String) : Prop where
  notClock : identity ≠ clockTypeRef
  notNative : nativeScalar identity = none
  notFeature : d.fieldOf identity = none

theorem Plain.standsFor {identity : String} (h : Plain d identity) :
    d.standsFor identity = ((d.typeOf identity).filter d.isAlias).bind (·.getStr "target") := by
  simp [Document.standsFor, h.notClock, h.notNative, h.notFeature]

theorem throughFeatures_reaches {steps : ℕ} {seen seen' : List String} {start last : String}
    (h : d.throughFeatures steps seen start = some (.inr (last, seen'))) :
    Reaches d.standsFor start last ∧ Plain d last := by
  induction steps generalizing seen start with
  | zero => cases h
  | succ steps ih =>
    rw [Document.throughFeatures] at h
    split at h
    · cases h
    · rename_i hclock
      split at h
      · cases h
      · rename_i hnative
        split at h
        · rename_i hfield
          cases h
          exact ⟨.refl, hclock, hnative, hfield⟩
        · rename_i field hfield
          split at h
          · cases h
          · rename_i typeRef ht
            split at h
            · cases h
            · obtain ⟨hr, hp⟩ := ih h
              refine ⟨.head ?_ hr, hp⟩
              simp [Document.standsFor, hclock, hnative, hfield, ht]

theorem throughFeatures_native {steps : ℕ} {seen : List String} {start : String}
    {resolved : Resolved} (h : d.throughFeatures steps seen start = some (.inl resolved)) :
    ∃ scalar, resolved = .native scalar := by
  induction steps generalizing seen start with
  | zero => cases h
  | succ steps ih =>
    rw [Document.throughFeatures] at h
    split at h
    · cases h
    · split at h
      · rename_i scalar _
        cases h
        exact ⟨scalar, rfl⟩
      · split at h
        · cases h
        · split at h
          · cases h
          · split at h
            · cases h
            · exact ih h

theorem throughAliases_reaches (ha : Accepted bundle d) {steps hops : ℕ} {seen : List String}
    {identity : String} {current definition : Json} (hp : Plain d identity)
    (ht : d.typeOf identity = some current)
    (h : d.throughAliases steps hops seen current = some (.node definition)) :
    ∃ last, Reaches d.standsFor identity last ∧ d.typeOf last = some definition := by
  induction steps generalizing hops seen identity current with
  | zero => cases h
  | succ steps ih =>
    rw [Document.throughAliases] at h
    split at h
    · cases h
      exact ⟨identity, .refl, ht⟩
    · rename_i halias
      have halias : d.isAlias current = true := by
        rwa [← Bool.not_or, Bool.not_eq_true', Bool.not_eq_false] at halias
      split at h
      · cases h
      · rename_i target htarget
        split at h
        · cases h
        · rename_i hclock
          split at h
          · cases h
          · rename_i hnative
            split at h
            · cases h
            · split at h
              · cases h
              · rename_i next hnext
                have hplain : Plain d target := ⟨hclock, hnative, ha.type_not_feature hnext⟩
                obtain ⟨last, hr, hl⟩ := ih hplain hnext h
                refine ⟨last, .head ?_ hr, hl⟩
                rw [hp.standsFor, ht, Option.filter_some, if_pos halias, Option.bind_some, htarget]

theorem resolvedKey_reaches (ha : Accepted bundle d) (reference : String) :
    Reaches d.standsFor reference (Compat.resolvedKey d (some reference)) ∧
      (Compat.resolvedKey d (some reference) = reference ∨
        ∃ definition ∈ d.types,
          identityOf definition = some (Compat.resolvedKey d (some reference))) := by
  simp only [Compat.resolvedKey]
  split
  · rename_i definition hr
    rw [Document.resolve] at hr
    split at hr
    · cases hr
    · rename_i resolved hthrough
      obtain ⟨scalar, rfl⟩ := throughFeatures_native hthrough
      cases hr
    · rename_i start seen hthrough
      obtain ⟨hstart, hplain⟩ := throughFeatures_reaches hthrough
      obtain ⟨current, ht, hr⟩ := Option.bind_eq_some_iff.1 hr
      obtain ⟨last, hlast, hl⟩ := throughAliases_reaches ha hplain ht hr
      obtain ⟨hm, hi⟩ := ha.typeOf_iff.1 hl
      rw [hi, Option.getD_some]
      exact ⟨hstart.trans hlast, .inr ⟨definition, hm, hi⟩⟩
  · exact ⟨.refl, .inl rfl⟩

end FilamentCore.SemanticIr
