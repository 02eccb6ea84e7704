import Mathlib.Data.List.Perm.Basic
import Mathlib.Data.List.Sort

/-!
# Related lists in sorted order

Two lists sorted by a key are related item by item where one of them is related to an arrangement
of the other.
-/

namespace FilamentCore.Library.SortedPairs

variable {α β κ : Type} {le : κ → κ → Prop} {R : α → β → Prop}

theorem pairwise_of_related {key : α → κ} {key' : β → κ} {l : List α} {m : List β}
    (h : List.Forall₂ R l m) (hkeep : ∀ a ∈ l, ∀ b, R a b → key a = key' b)
    (hl : l.Pairwise fun a a' => le (key a) (key a')) :
    m.Pairwise fun b b' => le (key' b) (key' b') := by
  induction h with
  | nil => exact List.Pairwise.nil
  | @cons a b l m hab hrest ih =>
    rw [List.pairwise_cons] at hl ⊢
    refine ⟨fun b' hb' => ?_, ih (fun a ha => hkeep a (.tail _ ha)) hl.2⟩
    obtain ⟨i, hi, rfl⟩ := List.getElem_of_mem hb'
    have hi' : i < l.length := by rwa [hrest.length_eq]
    have hr : R l[i] m[i] := hrest.get hi' hi
    have hle := hl.1 l[i] (List.getElem_mem hi')
    rwa [hkeep a (.head _) b hab, hkeep l[i] (.tail _ (List.getElem_mem hi')) m[i] hr] at hle

def sortBy (le : κ → κ → Prop) [DecidableRel le] (key : α → κ) (l : List α) : List α :=
  l.insertionSort fun a a' => le (key a) (key a')

variable [DecidableRel le] {key : α → κ} {key' : β → κ}

theorem perm_sortBy (l : List α) : (sortBy le key l).Perm l := List.perm_insertionSort _ l

variable [Std.Total le] [IsTrans κ le]

theorem pairwise_sortBy (l : List α) :
    (sortBy le key l).Pairwise fun a a' => le (key a) (key a') := by
  have htotal : Std.Total fun a a' : α => le (key a) (key a') :=
    ⟨fun a a' => Std.Total.total (key a) (key a')⟩
  have htrans : IsTrans α fun a a' : α => le (key a) (key a') :=
    ⟨fun a a' a'' h h' => IsTrans.trans (key a) (key a') (key a'') h h'⟩
  exact List.pairwise_insertionSort _ l

variable [Std.Antisymm le]

theorem eq_sortBy {l m : List α} (hp : l.Perm m) (hl : l.Pairwise fun a a' => le (key a) (key a'))
    (hn : (m.map key).Nodup) : l = sortBy le key m := by
  have hperm : l.Perm (sortBy le key m) := hp.trans (perm_sortBy m).symm
  refine hperm.eq_of_pairwise ?_ hl (pairwise_sortBy m)
  intro a b ha hb hab hba
  have hkey : key a = key b := Std.Antisymm.antisymm _ _ hab hba
  exact List.inj_on_of_nodup_map hn (hp.mem_iff.1 ha) ((perm_sortBy m).mem_iff.1 hb) hkey

/-- Sorted lists are related item by item where the lists are, up to the order of one. -/
theorem related_sortBy {l : List α} {m : List β} (hkeep : ∀ a ∈ l, ∀ b, R a b → key a = key' b)
    (hn : (m.map key').Nodup) : List.Forall₂ R (sortBy le key l) (sortBy le key' m) ↔
      ∃ arranged, arranged.Perm m ∧ List.Forall₂ R l arranged := by
  constructor
  · intro h
    obtain ⟨arranged, hrelated, hp⟩ := List.perm_comp_forall₂ (perm_sortBy l).symm h
    exact ⟨arranged, hp.trans (perm_sortBy m), hrelated⟩
  · rintro ⟨arranged, hp, h⟩
    have hpl : (sortBy le key l).Perm l := perm_sortBy l
    obtain ⟨sorted, hrelated, hs⟩ := List.perm_comp_forall₂ hpl h
    have hsorted := pairwise_of_related hrelated
      (fun a ha => hkeep a (hpl.mem_iff.1 ha)) (pairwise_sortBy l)
    rwa [eq_sortBy (hs.trans hp) hsorted hn] at hrelated

end FilamentCore.Library.SortedPairs
