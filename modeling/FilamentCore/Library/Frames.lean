import Mathlib

/-!
# The frames of a depth-first walk

A walk keeps its path as frames: a node, and how many of the node's edges it has taken. What
reaches the top of a path, and how many steps a walk still takes.
-/

namespace FilamentCore.Library.Frames

section Paths

variable {α : Type*} {r : α → α → Prop}

theorem reach_top {path : List α} {top : α} (h : (top :: path).IsChain fun a b => r b a) {x : α}
    (hx : x ∈ top :: path) : Relation.ReflTransGen r x top := by
  induction path generalizing top with
  | nil =>
    rw [List.mem_singleton.1 hx]
  | cons next path ih =>
    obtain ⟨hedge, hrest⟩ := List.isChain_cons_cons.1 h
    rcases List.mem_cons.1 hx with rfl | hx
    · exact .refl
    · exact (ih hrest hx).tail hedge

theorem mem_of_reach (closed : α → Prop) (hclosed : ∀ a, closed a → ∀ b, r a b → closed b)
    {a b : α} (h : Relation.ReflTransGen r a b) (ha : closed a) : closed b := by
  induction h with
  | refl => exact ha
  | tail _ hedge ih => exact hclosed _ ih _ hedge

/-- What a place reaches without coming back to it is what else it reaches. -/
theorem transGen_leaving {root p : α} :
    Relation.TransGen (fun x y => r x y ∧ y ≠ root) root p ↔
      Relation.TransGen r root p ∧ p ≠ root := by
  constructor
  · intro h
    refine ⟨Relation.TransGen.mono (fun x y hxy => hxy.1) _ _ h, ?_⟩
    obtain ⟨x, -, hlast⟩ := Relation.TransGen.tail'_iff.1 h
    exact hlast.2
  · rintro ⟨h, hne⟩
    induction h with
    | single hedge => exact .single ⟨hedge, hne⟩
    | @tail x y _ hedge ih =>
      by_cases hx : x = root
      · subst hx
        exact .single ⟨hedge, hne⟩
      · exact (ih hx).tail ⟨hedge, hne⟩

end Paths

section Steps

variable {α β : Type*} (out : α → List β)

/-- The steps still taken: one for each edge, and one to leave each node. -/
def remaining (unseen : Finset α) (frames : List (α × ℕ)) : ℕ :=
  (∑ v ∈ unseen, ((out v).length + 1)) +
    (frames.map fun frame => (out frame.1).length - frame.2 + 1).sum

variable (unseen : Finset α) (frames : List (α × ℕ))

theorem remaining_leave (node : α) (taken : ℕ) :
    remaining out unseen frames + 1 ≤ remaining out unseen ((node, taken) :: frames) := by
  simp only [remaining, List.map_cons, List.sum_cons]
  omega

theorem remaining_take {node : α} {taken : ℕ} (h : taken < (out node).length) :
    remaining out unseen ((node, taken + 1) :: frames) + 1 =
      remaining out unseen ((node, taken) :: frames) := by
  simp only [remaining, List.map_cons, List.sum_cons]
  omega

variable {unseen} in
theorem remaining_enter [DecidableEq α] {target : α} (h : target ∈ unseen) :
    remaining out (unseen.erase target) ((target, 0) :: frames) = remaining out unseen frames := by
  have hsum := Finset.add_sum_erase unseen (fun v => (out v).length + 1) h
  simp only [remaining, List.map_cons, List.sum_cons]
  omega

variable {unseen} in
theorem remaining_mono {less : Finset α} (h : less ⊆ unseen) :
    remaining out less frames ≤ remaining out unseen frames := by
  have hle := Finset.sum_le_sum_of_subset (f := fun v => (out v).length + 1) h
  simp only [remaining]
  omega

theorem remaining_range (edges : ℕ → List β) (count : ℕ) :
    remaining edges (Finset.range count) [] =
      ((List.range count).map fun node => (edges node).length).sum + count := by
  have hsum : ((List.range count).map fun node => (edges node).length).sum =
      ∑ v ∈ Finset.range count, (edges v).length := rfl
  rw [remaining, hsum, Finset.sum_add_distrib]
  simp

end Steps

end FilamentCore.Library.Frames
