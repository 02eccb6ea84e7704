import Mathlib

/-!
# Sifting a list to a fixed point

A review looks at each entry of a list in the light of the whole list and of a record of what was
refused before. Rounds of it drop the entries it refuses, note them, and stop with the round
that refuses none.
-/

namespace FilamentCore.Library.Sifting

variable {α ρ σ κ : Type*}

/-! ### One round -/

def kept (review : α → Except ρ α) (l : List α) : List α := l.filterMap fun a => (review a).toOption

def refusalOf (review : α → Except ρ α) (a : α) : Option (α × ρ) :=
  match review a with
  | .ok _ => none
  | .error r => some (a, r)

/-- What it refuses, with the rule each entry breaks. -/
def refused (review : α → Except ρ α) (l : List α) : List (α × ρ) := l.filterMap (refusalOf review)

variable {review : α → Except ρ α} {l l' : List α}

theorem mem_kept {b : α} : b ∈ kept review l ↔ ∃ a ∈ l, review a = .ok b := by
  simp only [kept, List.mem_filterMap]
  refine exists_congr fun a => and_congr_right fun _ => ?_
  cases review a <;> simp [Except.toOption]

theorem mem_refused {e : α × ρ} : e ∈ refused review l ↔ e.1 ∈ l ∧ review e.1 = .error e.2 := by
  simp only [refused, List.mem_filterMap, refusalOf]
  constructor
  · rintro ⟨a, ha, he⟩
    cases hr : review a with
    | ok b => simp [hr] at he
    | error r =>
      rw [hr] at he
      obtain rfl := Option.some.inj he
      exact ⟨ha, hr⟩
  · rintro ⟨ha, hr⟩
    exact ⟨e.1, ha, by rw [hr]⟩

theorem refused_nil : refused review l = [] ↔ ∀ a ∈ l, ∃ b, review a = .ok b := by
  rw [List.eq_nil_iff_forall_not_mem]
  constructor
  · intro h a ha
    cases hr : review a with
    | ok b => exact ⟨b, rfl⟩
    | error r => exact absurd (mem_refused.2 ⟨ha, hr⟩) (h (a, r))
  · intro h e he
    obtain ⟨ha, hr⟩ := mem_refused.1 he
    obtain ⟨b, hb⟩ := h e.1 ha
    rw [hb] at hr
    cases hr

theorem kept_cons (a : α) (l : List α) :
    kept review (a :: l) = (review a).toOption.toList ++ kept review l := by
  rw [kept, List.filterMap_cons]
  cases (review a).toOption <;> rfl

theorem refused_cons (a : α) (l : List α) :
    refused review (a :: l) = (refusalOf review a).toList ++ refused review l := by
  rw [refused, List.filterMap_cons]
  cases refusalOf review a <;> rfl

theorem kept_length : (kept review l).length + (refused review l).length = l.length := by
  induction l with
  | nil => rfl
  | cons a l ih =>
    rw [kept_cons, refused_cons, refusalOf]
    simp only [List.length_append, List.length_cons]
    cases review a <;> simp only [Except.toOption, Option.toList, List.length_cons,
      List.length_nil] <;> omega

theorem kept_lt (h : refused review l ≠ []) : (kept review l).length < l.length := by
  have hl := @kept_length _ _ review l
  have hp := List.length_pos_iff.2 h
  omega

theorem kept_perm (h : l.Perm l') : (kept review l).Perm (kept review l') := h.filterMap _

theorem refused_perm (h : l.Perm l') : (refused review l).Perm (refused review l') := h.filterMap _

/-- A review that leaves the key of an entry as it was keeps a sublist of the keys. -/
theorem kept_keys {key : α → κ} (hk : ∀ a b, review a = .ok b → key b = key a) :
    ((kept review l).map key).Sublist (l.map key) := by
  induction l with
  | nil => exact List.Sublist.refl _
  | cons a l ih =>
    rw [kept_cons]
    cases hr : review a with
    | ok b =>
      rw [List.map_append, List.map_cons, ← hk a b hr]
      exact ih.cons_cons _
    | error r => exact ih.cons _

/-! ### Rounds -/

variable {view : List α → σ → α → Except ρ α} {note : σ → List (α × ρ) → σ} {s s' : σ}

/-- The entries the last round leaves, and every refusal in the order it was made. -/
def run (view : List α → σ → α → Except ρ α) (note : σ → List (α × ρ) → σ) (l : List α) (s : σ) :
    List α × List (α × ρ) :=
  let round := refused (view l s) l
  if round = [] then (kept (view l s) l, [])
  else
    let rest := run view note (kept (view l s) l) (note s round)
    (rest.1, round ++ rest.2)
termination_by l.length
decreasing_by exact kept_lt ‹_›

theorem run_last (h : refused (view l s) l = []) : run view note l s = (kept (view l s) l, []) := by
  rw [run]
  exact if_pos h

theorem run_round (h : refused (view l s) l ≠ []) :
    run view note l s =
      ((run view note (kept (view l s) l) (note s (refused (view l s) l))).1,
        refused (view l s) l ++
          (run view note (kept (view l s) l) (note s (refused (view l s) l))).2) := by
  rw [run]
  exact if_neg h

/-- What holds at the start and survives a round holds before the last round, which refuses
nothing. -/
theorem run_rule {inv : List α → σ → Prop} (hs : inv l s)
    (hstep : ∀ l s, inv l s → refused (view l s) l ≠ [] →
      inv (kept (view l s) l) (note s (refused (view l s) l))) :
    ∃ l' s', inv l' s' ∧ refused (view l' s') l' = [] ∧ (run view note l s).1 = kept (view l' s') l' := by
  induction hn : l.length using Nat.strong_induction_on generalizing l s with
  | _ n ih =>
    by_cases h : refused (view l s) l = []
    · exact ⟨l, s, hs, h, by rw [run_last h]⟩
    · obtain ⟨l', s', hi, hr, he⟩ := ih _ (hn ▸ kept_lt h) (hstep l s hs h) rfl
      exact ⟨l', s', hi, hr, by rw [run_round h, he]⟩

/-- Views that agree on lists equal up to order, and a record that forgets the order of a round,
sift both lists to the same entries. -/
theorem run_perm {inv : List α → σ → Prop} (hs : inv l s) (hl : l.Perm l')
    (hstep : ∀ l s, inv l s → inv (kept (view l s) l) (note s (refused (view l s) l)))
    (hview : ∀ l l' s, inv l s → l.Perm l' → view l s = view l' s)
    (hnote : ∀ s e e', e.Perm e' → note s e = note s e') :
    (run view note l s).1.Perm (run view note l' s).1 ∧
      (run view note l s).2.Perm (run view note l' s).2 := by
  induction hn : l.length using Nat.strong_induction_on generalizing l l' s with
  | _ n ih =>
    have hv := hview l l' s hs hl
    have hr : (refused (view l s) l).Perm (refused (view l' s) l') := hv ▸ refused_perm hl
    have hk : (kept (view l s) l).Perm (kept (view l' s) l') := hv ▸ kept_perm hl
    by_cases h : refused (view l s) l = []
    · have h' : refused (view l' s) l' = [] := (h ▸ hr).nil_eq.symm
      rw [run_last h, run_last h']
      exact ⟨hk, List.Perm.refl _⟩
    · have h' : refused (view l' s) l' ≠ [] := fun h0 => h ((h0 ▸ hr).eq_nil)
      obtain ⟨hi, he⟩ := ih _ (hn ▸ kept_lt h) (hstep l s hs) hk rfl
      rw [run_round h, run_round h', ← hnote s _ _ hr]
      exact ⟨hi, hr.append he⟩

end FilamentCore.Library.Sifting
