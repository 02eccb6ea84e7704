import Mathlib.Data.List.Infix

/-!
# Texts written around others

What is known of two texts from what stands before and after them, and of a text from the parts
it is joined of.
-/

namespace FilamentCore.Library

structure Affixes (α : Type*) where
  before : List α
  after : List α

namespace Affixes

variable {α : Type*}

def around (a : Affixes α) (text : List α) : List α := a.before ++ text ++ a.after

/-- The text could have been written with these affixes. -/
def Fits (a : Affixes α) (text : List α) : Prop := a.before <+: text ∧ a.after <:+ text

/-- Each affix of the one goes with that of the other. -/
def Compatible (a b : Affixes α) : Prop :=
  (a.before <+: b.before ∨ b.before <+: a.before) ∧ (a.after <:+ b.after ∨ b.after <:+ a.after)

instance [DecidableEq α] (a : Affixes α) (text : List α) : Decidable (a.Fits text) :=
  inferInstanceAs (Decidable (_ ∧ _))

instance [DecidableEq α] (a b : Affixes α) : Decidable (a.Compatible b) :=
  inferInstanceAs (Decidable (_ ∧ _))

theorem around_injective (a : Affixes α) : Function.Injective a.around := by
  intro s t h
  rw [around, around] at h
  exact List.append_cancel_left (List.append_cancel_right h)

theorem around_fits (a : Affixes α) (text : List α) : a.Fits (a.around text) :=
  ⟨by rw [around, List.append_assoc]; exact List.prefix_append _ _, List.suffix_append _ _⟩

theorem compatible_of_eq {a b : Affixes α} {s t : List α} (h : a.around s = b.around t) :
    a.Compatible b := by
  have hb := b.around_fits t
  rw [← h] at hb
  have ha := a.around_fits s
  exact ⟨List.prefix_or_prefix_of_prefix ha.1 hb.1, List.suffix_or_suffix_of_suffix ha.2 hb.2⟩

end Affixes

theorem infix_intercalate {α : Type*} {sep part : List α} {parts : List (List α)}
    (h : part ∈ parts) : part <:+: sep.intercalate parts := by
  induction parts with
  | nil => cases h
  | cons first rest ih =>
    cases rest with
    | nil =>
      rw [List.mem_singleton.1 h, List.intercalate_singleton]
    | cons second rest =>
      rw [List.intercalate_cons_cons]
      obtain rfl | hrest := List.mem_cons.1 h
      · rw [List.append_assoc]
        exact (List.prefix_append _ _).isInfix
      · exact (ih hrest).trans (List.suffix_append _ _).isInfix

end FilamentCore.Library
