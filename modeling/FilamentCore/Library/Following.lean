import Mathlib

/-!
# Following a partial step

Where following a step to its end leads, and when another step leads to the same end.
-/

namespace FilamentCore.Library.Following

variable {α : Type*} {next next' : α → Option α}

/-- Some number of steps leads from one place to another. -/
abbrev Reaches (next : α → Option α) : α → α → Prop :=
  Relation.ReflTransGen fun a b => next a = some b

inductive Ends (next : α → Option α) : α → α → Prop
  | stop {a : α} : next a = none → Ends next a a
  | step {a b e : α} : next a = some b → Ends next b e → Ends next a e

theorem Ends.next_eq_none {a e : α} (h : Ends next a e) : next e = none := by
  induction h with
  | stop h => exact h
  | step _ _ ih => exact ih

theorem ends_next {a b e : α} (h : next a = some b) : Ends next a e ↔ Ends next b e := by
  constructor
  · rintro (hn | ⟨hs, he⟩)
    · rw [h] at hn
      cases hn
    · rw [h] at hs
      cases hs
      exact he
  · exact Ends.step h

theorem ends_reaches {a b e : α} (h : Reaches next a b) : Ends next a e ↔ Ends next b e := by
  induction h with
  | refl => exact Iff.rfl
  | tail _ hs ih => exact ih.trans (ends_next hs)

theorem Ends.unique {a e f : α} (he : Ends next a e) (hf : Ends next a f) : e = f := by
  induction he with
  | stop hn =>
    cases hf with
    | stop _ => rfl
    | step hs _ =>
      rw [hn] at hs
      cases hs
  | step hs _ ih => exact ih ((ends_next hs).1 hf)

theorem Ends.acyclic {a e : α} (h : Ends next a e) :
    ¬ Relation.TransGen (fun a b => next a = some b) a a := by
  induction h with
  | stop hn =>
    intro hc
    obtain ⟨b, hs, -⟩ := Relation.TransGen.head'_iff.1 hc
    rw [hn] at hs
    cases hs
  | step hs _ ih =>
    intro hc
    obtain ⟨b, hs', hr⟩ := Relation.TransGen.head'_iff.1 hc
    rw [hs, Option.some.injEq] at hs'
    subst hs'
    exact ih (Relation.TransGen.tail' hr hs)

theorem reaches_cases {a c : α} (h : Reaches next a c) :
    c = a ∨ ∃ b, next a = some b ∧ Reaches next b c := by
  rcases Relation.ReflTransGen.cases_head h with rfl | ⟨b, hs, hr⟩
  · exact .inl rfl
  · exact .inr ⟨b, hs, hr⟩

/-- Another step has the same end when each of its steps meets one of the first, and its end is
one of both. -/
theorem Ends.simulates {a e : α} (h : Ends next a e)
    (hmeet : ∀ a b, next a = some b → ∃ b' c, next' a = some b' ∧ Reaches next b c ∧
      Reaches next' b' c)
    (hend : next' e = none) : Ends next' a e := by
  suffices hall : ∀ c, Reaches next a c → Ends next' c e by exact hall a .refl
  induction h with
  | stop hn =>
    intro c hc
    rcases reaches_cases hc with rfl | ⟨b, hs, -⟩
    · exact .stop hend
    · rw [hn] at hs
      cases hs
  | @step a b e hs _ ih =>
    have hrest := ih hend
    intro c hc
    rcases reaches_cases hc with rfl | ⟨b₁, hs₁, hr⟩
    · obtain ⟨b', c, hs', hc, hc'⟩ := hmeet c b hs
      exact .step hs' ((ends_reaches hc').2 (hrest c hc))
    · rw [hs] at hs₁
      cases hs₁
      exact hrest c hr

/-- Within finitely many places, steps that never come back have an end. -/
theorem exists_ends {s : Set α} (hs : s.Finite)
    (hstay : ∀ a ∈ s, ∀ b, next a = some b → b ∈ s)
    (hacyclic : ∀ a, ¬ Relation.TransGen (fun a b => next a = some b) a a) {a : α} (ha : a ∈ s) :
    ∃ e ∈ s, Ends next a e := by
  let later : α → α → Prop := fun b a => Relation.TransGen (fun a b => next a = some b) a b
  have : IsStrictOrder α later :=
    { irrefl := hacyclic
      trans := fun _ _ _ hab hbc => hbc.trans hab }
  have hwf : s.WellFoundedOn later := hs.wellFoundedOn
  apply hwf.induction (P := fun a => ∃ e ∈ s, Ends next a e) ha
  intro a ha ih
  cases hn : next a with
  | none => exact ⟨a, ha, .stop hn⟩
  | some b =>
    obtain ⟨e, he, hb⟩ := ih b (hstay a ha b hn) (.single hn)
    exact ⟨e, he, .step hn hb⟩

end FilamentCore.Library.Following
