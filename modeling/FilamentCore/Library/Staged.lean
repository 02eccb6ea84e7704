import Mathlib

/-!
# Readers that refuse at the first defect

A reader that stops at its first error, against a function that places the first defect of its
input.
-/

namespace FilamentCore.Library.Staged

variable {E P : Type*} {α β : Type} {place : E → P}

def refusal (place : E → P) : Except E α → Option P
  | .error e => some (place e)
  | .ok _ => none

structure Stage (place : E → P) (read : Except E α) (defect : Option P) (good : α → Prop) :
    Prop where
  refused : ∀ p, defect = some p → ∃ e, read = .error e ∧ place e = p
  taken : defect = none → ∃ a, read = .ok a ∧ good a

theorem Stage.refusal_eq {read : Except E α} {defect : Option P} {good : α → Prop}
    (h : Stage place read defect good) : refusal place read = defect := by
  cases defect with
  | none =>
    obtain ⟨a, hr, -⟩ := h.taken rfl
    rw [hr]
    rfl
  | some p =>
    obtain ⟨e, hr, hp⟩ := h.refused p rfl
    rw [hr, refusal, hp]

theorem Stage.pure {a : α} {good : α → Prop} (h : good a) :
    Stage place (.ok a : Except E α) none good :=
  ⟨fun _ hp => (nomatch hp), fun _ => ⟨a, rfl, h⟩⟩

theorem Stage.refuse {e : E} {p : P} {good : α → Prop} (h : place e = p) :
    Stage place (.error e : Except E α) (some p) good :=
  ⟨fun _ hp => ⟨e, rfl, h.trans (Option.some.inj hp)⟩, fun hn => (nomatch hn)⟩

theorem Stage.bind {read : Except E α} {next : α → Except E β} {defect defect' : Option P}
    {good : α → Prop} {good' : β → Prop} (h : Stage place read defect good)
    (hnext : ∀ a, good a → Stage place (next a) defect' good') :
    Stage place (read >>= next) (defect.or defect') good' := by
  cases defect with
  | none =>
    obtain ⟨a, hr, ha⟩ := h.taken rfl
    rw [hr]
    exact hnext a ha
  | some p =>
    obtain ⟨e, hr, hp⟩ := h.refused p rfl
    rw [hr]
    exact Stage.refuse hp

theorem Stage.bind_or {read : Except E α} {next : α → Except E β} {defect defect' rest : Option P}
    {good : α → Prop} {good' : β → Prop} (h : Stage place read (defect.or defect') good)
    (hnext : ∀ a, good a → Stage place (next a) rest good') :
    Stage place (read >>= next) (defect.or (defect'.or rest)) good' := by
  rw [← Option.or_assoc]
  exact h.bind hnext

theorem Stage.map {read : Except E α} {f : α → β} {defect : Option P} {good : α → Prop}
    {good' : β → Prop} (h : Stage place read defect good) (hf : ∀ a, good a → good' (f a)) :
    Stage place (read >>= fun a => .ok (f a)) defect good' := by
  have hbind := h.bind fun a ha => @Stage.pure E P β place _ _ (hf a ha)
  rwa [Option.or_none] at hbind

theorem Stage.mono {read : Except E α} {defect : Option P} {good good' : α → Prop}
    (h : Stage place read defect good) (hgood : ∀ a, good a → good' a) :
    Stage place read defect good' := by
  refine ⟨h.refused, fun hd => ?_⟩
  obtain ⟨a, hr, ha⟩ := h.taken hd
  exact ⟨a, hr, hgood a ha⟩

/-! ### Lists -/

def firstDefect {κ : Type*} (defect : List κ → α → Option P) (key : α → κ) (seen : List κ) :
    List α → Option P
  | [] => none
  | a :: items => (defect seen a).or (firstDefect defect key (seen ++ [key a]) items)

theorem exists_of_firstDefect {κ : Type*} {defect : List κ → α → Option P} {key : α → κ}
    {seen : List κ} {items : List α} {p : P} (h : firstDefect defect key seen items = some p) :
    ∃ before a, a ∈ items ∧ defect before a = some p := by
  induction items generalizing seen with
  | nil => cases h
  | cons a items ih =>
    rw [firstDefect, Option.or_eq_some_iff] at h
    rcases h with h | ⟨-, h⟩
    · exact ⟨seen, a, List.mem_cons_self .., h⟩
    · obtain ⟨before, b, hm, hb⟩ := ih h
      exact ⟨before, b, List.mem_cons_of_mem _ hm, hb⟩

theorem firstDefect_const {κ : Type*} (defect : α → Option P) (key : α → κ) (seen : List κ)
    (items : List α) :
    firstDefect (fun _ a => defect a) key seen items = items.findSome? defect := by
  induction items generalizing seen with
  | nil => rfl
  | cons a items ih =>
    rw [firstDefect, ih, List.findSome?_cons]
    cases defect a <;> rfl

theorem Stage.fold {κ : Type*} {step : List β → α → Except E (List β)}
    {defect : List κ → α → Option P} {key : α → κ} {name : β → κ} {writes : β → α → Prop}
    (h : ∀ out a, Stage place (step out a) (defect (out.map name) a) fun out' =>
      ∃ b, writes b a ∧ name b = key a ∧ out' = out ++ [b]) (items : List α) (out : List β) :
    Stage place (items.foldlM step out) (firstDefect defect key (out.map name) items)
      fun out' => ∃ read, List.Forall₂ writes read items ∧ out' = out ++ read := by
  induction items generalizing out with
  | nil => exact Stage.pure ⟨[], .nil, (List.append_nil out).symm⟩
  | cons a items ih =>
    rw [List.foldlM_cons, firstDefect]
    apply (h out a).bind
    rintro _ ⟨b, hw, hk, rfl⟩
    have hrest := ih (out ++ [b])
    rw [List.map_append, List.map_singleton, hk] at hrest
    apply hrest.mono
    rintro _ ⟨read, hr, rfl⟩
    exact ⟨b :: read, .cons hw hr, by simp⟩

end FilamentCore.Library.Staged
