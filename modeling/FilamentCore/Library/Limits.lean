import Mathlib.Order.Interval.Set.Basic
import Mathlib.Order.OrderDual

/-!
# One-sided limits

A bound of an order that may be missing, and may leave its own value out. A lower limit is looser
when it is lesser; an upper limit is a lower limit of the opposite order.
-/

namespace FilamentCore.Library

structure Limit (α : Type*) where
  value : α
  exclusive : Bool
  deriving DecidableEq

namespace Limit

section
variable {α : Type*} [LinearOrder α]

def Above (l : Option (Limit α)) (x : α) : Prop :=
  ∀ limit ∈ l, if limit.exclusive = true then limit.value < x else limit.value ≤ x

/-- The first limit admits whatever the second does. -/
def Looser : Option (Limit α) → Option (Limit α) → Prop
  | none, _ => True
  | some _, none => False
  | some l, some m =>
    l.value < m.value ∨ l.value = m.value ∧ (l.exclusive = true → m.exclusive = true)

theorem above_none (x : α) : Above none x := fun _ h => absurd h (Option.not_mem_none _)

theorem above_some {l : Limit α} {x : α} : Above (some l) x ↔
    if l.exclusive = true then l.value < x else l.value ≤ x :=
  ⟨fun h => h l rfl, fun h _ hl => (Option.some.inj hl) ▸ h⟩

theorem le_of_above {l : Limit α} {x : α} (h : Above (some l) x) : l.value ≤ x := by
  rw [above_some] at h
  split at h
  · exact h.le
  · exact h

theorem above_of_le {l : Option (Limit α)} {x y : α} (h : Above l x) (hxy : x ≤ y) : Above l y := by
  cases l with
  | none => exact above_none y
  | some l =>
    rw [above_some] at *
    by_cases he : l.exclusive = true
    · rw [if_pos he] at *
      exact h.trans_le hxy
    · rw [if_neg he] at *
      exact h.trans hxy

theorem Looser.above {l m : Option (Limit α)} (h : Looser l m) {x : α} (hx : Above m x) :
    Above l x := by
  cases l with
  | none => exact above_none x
  | some l =>
    cases m with
    | none => exact h.elim
    | some m =>
      have hle := le_of_above hx
      rw [above_some] at hx ⊢
      obtain hlt | ⟨heq, he⟩ := h
      · have hlx := hlt.trans_le hle
        split
        · exact hlx
        · exact hlx.le
      · rw [heq]
        by_cases hl : l.exclusive = true
        · rw [if_pos hl]
          rwa [if_pos (he hl)] at hx
        · rw [if_neg hl]
          exact hle

theorem looser_total (l m : Option (Limit α)) : Looser l m ∨ Looser m l := by
  cases l with
  | none => exact .inl trivial
  | some l =>
    cases m with
    | none => exact .inr trivial
    | some m =>
      obtain hlt | heq | hgt := lt_trichotomy l.value m.value
      · exact .inl (.inl hlt)
      · by_cases hm : m.exclusive = true
        · exact .inl (.inr ⟨heq, fun _ => hm⟩)
        · exact .inr (.inr ⟨heq.symm, fun h => absurd h hm⟩)
      · exact .inr (.inl hgt)

theorem looser_antisymm {l m : Option (Limit α)} (hlm : Looser l m) (hml : Looser m l) : l = m := by
  cases l with
  | none =>
    cases m with
    | none => rfl
    | some m => exact hml.elim
  | some l =>
    cases m with
    | none => exact hlm.elim
    | some m =>
      obtain hlt | ⟨heq, he⟩ := hlm
      · obtain hgt | ⟨heq, -⟩ := hml
        · exact absurd hlt hgt.asymm
        · exact absurd heq hlt.ne'
      · obtain hgt | ⟨-, he'⟩ := hml
        · exact absurd heq hgt.ne'
        · obtain ⟨v, e⟩ := l
          obtain ⟨w, f⟩ := m
          obtain rfl : v = w := heq
          have hef : e = f := Bool.eq_iff_iff.2 ⟨he, he'⟩
          rw [hef]

def compareLower : Option (Limit α) → Option (Limit α) → Ordering
  | none, none => .eq
  | none, some _ => .lt
  | some _, none => .gt
  | some l, some m =>
    if l.value < m.value then .lt
    else if m.value < l.value then .gt
    else if l.exclusive = m.exclusive then .eq
    else if l.exclusive = true then .gt else .lt

theorem compareLower_eq {l m : Option (Limit α)} : compareLower l m = .eq ↔ l = m := by
  cases l with
  | none => cases m <;> simp [compareLower]
  | some l =>
    cases m with
    | none => simp [compareLower]
    | some m =>
      obtain ⟨v, e⟩ := l
      obtain ⟨w, f⟩ := m
      obtain hlt | rfl | hgt := lt_trichotomy v w
      · simp [compareLower, hlt, hlt.ne]
      · cases e <;> cases f <;> simp [compareLower]
      · simp [compareLower, hgt, hgt.not_gt, hgt.ne']

theorem compareLower_gt {l m : Option (Limit α)} : compareLower l m = .gt ↔ ¬ Looser l m := by
  cases l with
  | none => cases m <;> simp [compareLower, Looser]
  | some l =>
    cases m with
    | none => simp [compareLower, Looser]
    | some m =>
      obtain ⟨v, e⟩ := l
      obtain ⟨w, f⟩ := m
      obtain hlt | rfl | hgt := lt_trichotomy v w
      · simp [compareLower, Looser, hlt]
      · cases e <;> cases f <;> simp [compareLower, Looser]
      · simp [compareLower, Looser, hgt, hgt.not_gt, hgt.ne']

theorem above_tighter (l e : Option (Limit α)) (x : α) :
    Above (if compareLower e l = .gt then e else l) x ↔ Above l x ∧ Above e x := by
  split
  · next h =>
    have hle := (looser_total l e).resolve_right (compareLower_gt.1 h)
    exact ⟨fun he => ⟨hle.above he, he⟩, fun h => h.2⟩
  · next h =>
    have hel : Looser e l := by
      by_contra hloose
      exact h (compareLower_gt.2 hloose)
    exact ⟨fun hl => ⟨hl, hel.above hl⟩, fun h => h.1⟩

/-- Below a value that it admits, a limit that is not looser leaves out something. -/
theorem exists_not_above [DenselyOrdered α] [NoMinOrder α] {l m : Option (Limit α)}
    (h : ¬ Looser m l) {y : α} (hy : Above l y) : ∃ x, x ≤ y ∧ Above l x ∧ ¬ Above m x := by
  by_cases hm : Above m y
  · cases m with
    | none => exact absurd trivial h
    | some m =>
      have hle := le_of_above hm
      cases l with
      | none =>
        obtain ⟨x, hx⟩ := exists_lt m.value
        exact ⟨x, hx.le.trans hle, above_none x, fun ha => (le_of_above ha).not_gt hx⟩
      | some l =>
        obtain hlt | hle' := lt_or_ge l.value m.value
        · obtain ⟨x, hlx, hxm⟩ := exists_between hlt
          refine ⟨x, hxm.le.trans hle, above_some.2 ?_, fun ha => (le_of_above ha).not_gt hxm⟩
          split
          · exact hlx
          · exact hlx.le
        · rw [Looser, not_or] at h
          obtain ⟨hnlt, hnand⟩ := h
          have heq : m.value = l.value := le_antisymm hle' (not_lt.1 hnlt)
          have hme : m.exclusive = true := by
            by_contra hme
            exact hnand ⟨heq, fun ht => absurd ht hme⟩
          have hle : l.exclusive ≠ true := fun hle => hnand ⟨heq, fun _ => hle⟩
          refine ⟨l.value, le_of_above hy, above_some.2 ?_, fun ha => ?_⟩
          · rw [if_neg hle]
          · rw [above_some, if_pos hme, heq] at ha
            exact absurd ha (lt_irrefl _)
  · exact ⟨y, le_rfl, hy, hm⟩

end

/-! ### Two sides -/

section
variable {α : Type*} [LinearOrder α]

def Below (u : Option (Limit α)) (x : α) : Prop :=
  @Above αᵒᵈ _ u x

def LooserUpper (u v : Option (Limit α)) : Prop := @Looser αᵒᵈ _ u v

def compareUpper (u v : Option (Limit α)) : Ordering := (@compareLower αᵒᵈ _ u v).swap

theorem compareUpper_some (l m : Limit α) : compareUpper (some l) (some m) =
    if l.value < m.value then .lt
    else if m.value < l.value then .gt
    else if l.exclusive = m.exclusive then .eq
    else if l.exclusive = true then .lt else .gt := by
  have hdual : compareUpper (some l) (some m) = (if m.value < l.value then .lt
      else if l.value < m.value then .gt
      else if l.exclusive = m.exclusive then .eq
      else if l.exclusive = true then .gt else .lt : Ordering).swap := rfl
  rw [hdual]
  obtain hlt | heq | hgt := lt_trichotomy l.value m.value
  · rw [if_neg hlt.not_gt, if_pos hlt, if_pos hlt]
    rfl
  · rw [heq, if_neg (lt_irrefl _), if_neg (lt_irrefl _), if_neg (lt_irrefl _),
      if_neg (lt_irrefl _)]
    split
    · rfl
    · split <;> rfl
  · rw [if_pos hgt, if_neg hgt.not_gt, if_pos hgt]
    rfl

theorem compareUpper_eq {u v : Option (Limit α)} : compareUpper u v = .eq ↔ u = v := by
  refine Iff.trans ?_ (@compareLower_eq αᵒᵈ _ u v)
  rw [compareUpper]
  cases @compareLower αᵒᵈ _ u v <;> decide

theorem compareUpper_lt {u v : Option (Limit α)} :
    compareUpper u v = .lt ↔ ¬ LooserUpper u v := by
  rw [LooserUpper, ← @compareLower_gt αᵒᵈ _ u v, compareUpper]
  cases @compareLower αᵒᵈ _ u v <;> decide

theorem below_tighter (u e : Option (Limit α)) (x : α) :
    Below (if compareUpper e u = .lt then e else u) x ↔ Below u x ∧ Below e x := by
  have hlt : compareUpper e u = .lt ↔ @compareLower αᵒᵈ _ e u = .gt :=
    compareUpper_lt.trans (@compareLower_gt αᵒᵈ _ e u).symm
  rw [if_congr hlt rfl rfl]
  exact @above_tighter αᵒᵈ _ u e x

/-- The values between two limits. -/
def between (l u : Option (Limit α)) : Set α := {x | Above l x ∧ Below u x}

variable [DenselyOrdered α] [NoMinOrder α] [NoMaxOrder α] {l l' u u' : Option (Limit α)}

theorem between_subset (hne : (between l u).Nonempty) :
    between l u ⊆ between l' u' ↔ Looser l' l ∧ LooserUpper u' u := by
  obtain ⟨y, hl, hu⟩ := hne
  constructor
  · intro h
    constructor
    · by_contra hloose
      obtain ⟨x, hxy, hx, hnot⟩ := exists_not_above hloose hl
      have hbelow : Below u x := @above_of_le αᵒᵈ _ u y x hu hxy
      exact hnot (h ⟨hx, hbelow⟩).1
    · by_contra hloose
      obtain ⟨x, hxy, hx, hnot⟩ := @exists_not_above αᵒᵈ _ _ _ _ _ hloose y hu
      have habove : Above l x := above_of_le hl hxy
      exact hnot (h ⟨habove, hx⟩).2
  · intro h x hx
    obtain ⟨hlower, hupper⟩ := h
    exact ⟨hlower.above hx.1, @Looser.above αᵒᵈ _ u' u hupper x hx.2⟩

theorem between_eq (hne : (between l u).Nonempty) (hne' : (between l' u').Nonempty) :
    between l u = between l' u' ↔ l = l' ∧ u = u' := by
  constructor
  · intro h
    obtain ⟨hl, hu⟩ := (between_subset hne).1 h.subset
    obtain ⟨hl', hu'⟩ := (between_subset hne').1 h.superset
    exact ⟨looser_antisymm hl' hl, @looser_antisymm αᵒᵈ _ _ _ hu' hu⟩
  · intro h
    obtain ⟨hl, hu⟩ := h
    rw [hl, hu]

end

end Limit
end FilamentCore.Library
