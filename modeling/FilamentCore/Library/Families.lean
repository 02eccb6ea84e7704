import Mathlib

/-!
# Lists that depend on a parameter

A list that has the same entries at every parameter, each with its own value there: how such lists
are put together and sorted.
-/

namespace FilamentCore.Library.Family

variable {ι α β : Type*}

/-- At every `i` the list holds what the entries are there. -/
def Of (list : ι → List α) (entries : List (ι → α)) : Prop :=
  ∀ i, list i = entries.map fun entry => entry i

theorem of_const (l : List α) : Of (fun _ : ι => l) (l.map fun a _ => a) := by
  intro i
  rw [List.map_map]
  exact (List.map_id l).symm

theorem Of.append {f g : ι → List α} {s t : List (ι → α)} (hf : Of f s) (hg : Of g t) :
    Of (fun i => f i ++ g i) (s ++ t) := by
  intro i
  show f i ++ g i = _
  rw [hf i, hg i, List.map_append]

theorem Of.map {f : ι → List α} {s : List (ι → α)} (hf : Of f s) (g : ι → α → β) :
    Of (fun i => (f i).map (g i)) (s.map fun entry i => g i (entry i)) := by
  intro i
  show (f i).map (g i) = _
  rw [hf i, List.map_map, List.map_map]
  rfl

theorem Of.insertionSort {f : ι → List α} {s : List (ι → α)} (hf : Of f s)
    {r : α → α → Prop} [DecidableRel r] (i₀ : ι)
    (hr : ∀ a ∈ s, ∀ b ∈ s, ∀ i, r (a i₀) (b i₀) ↔ r (a i) (b i)) :
    Of (fun i => (f i).insertionSort r) (s.insertionSort fun a b => r (a i₀) (b i₀)) := by
  intro i
  show (f i).insertionSort r = _
  rw [hf i]
  exact (List.map_insertionSort _ _ (fun entry => entry i) s fun a ha b hb => hr a ha b hb i).symm

end FilamentCore.Library.Family
