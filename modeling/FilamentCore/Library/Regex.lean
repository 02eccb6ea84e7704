import Mathlib

/-!
# Regular expressions with anchors and lookaheads

The texts that a pattern of classes, groups, quantifiers, anchors and negative lookaheads is found
in. A match is given by what remains of the text before it and after it.
-/

namespace FilamentCore.Library

inductive Regex (α : Type) where
  | set (member : α → Bool)
  | empty
  | seq (first second : Regex α)
  | alt (first second : Regex α)
  | star (body : Regex α)
  | start
  | finish
  | ahead (body : Regex α)

namespace Regex

variable {α : Type}

/-- `whole` is the text, `s` what remains of it before the match and `t` after; `ahead` is a
negative lookahead. -/
def Leads (whole : List α) : Regex α → List α → List α → Prop
  | .set member, s, t => ∃ c, member c = true ∧ s = c :: t
  | .empty, s, t => s = t
  | .seq first second, s, t => ∃ u, Leads whole first s u ∧ Leads whole second u t
  | .alt first second, s, t => Leads whole first s t ∨ Leads whole second s t
  | .star body, s, t => Relation.ReflTransGen (Leads whole body) s t
  | .start, s, t => s = t ∧ s = whole
  | .finish, s, t => s = t ∧ s = []
  | .ahead body, s, t => s = t ∧ ¬ ∃ u, Leads whole body s u

/-- The pattern is found somewhere in the text. -/
def Found (r : Regex α) (whole : List α) : Prop := ∃ s t, s <:+ whole ∧ Leads whole r s t

/-! ### Derived patterns -/

def seqs : List (Regex α) → Regex α
  | [] => .empty
  | r :: rs => .seq r (seqs rs)

def opt (r : Regex α) : Regex α := .alt r .empty

def plus (r : Regex α) : Regex α := .seq r (.star r)

/-- A character that stands for itself. -/
def lit [DecidableEq α] (c : α) : Regex α := .set fun d => d == c

variable {whole s t : List α} {member : α → Bool}

theorem leads_seqs_nil : Leads whole (seqs []) s t ↔ s = t := Iff.rfl

theorem leads_seqs_cons {r : Regex α} {rs : List (Regex α)} :
    Leads whole (seqs (r :: rs)) s t ↔ ∃ u, Leads whole r s u ∧ Leads whole (seqs rs) u t := Iff.rfl

theorem leads_set : Leads whole (.set member) s t ↔ ∃ c, member c = true ∧ s = c :: t := Iff.rfl

theorem leads_lit [DecidableEq α] {c : α} : Leads whole (lit c) s t ↔ s = c :: t := by
  rw [lit, leads_set]
  constructor
  · rintro ⟨d, hd, hs⟩
    rw [hs, beq_iff_eq.1 hd]
  · rintro rfl
    exact ⟨c, beq_iff_eq.2 rfl, rfl⟩

theorem leads_opt {r : Regex α} : Leads whole (opt r) s t ↔ Leads whole r s t ∨ s = t := Iff.rfl

theorem leads_star_set : Leads whole (.star (.set member)) s t ↔
    ∃ run, (∀ c ∈ run, member c = true) ∧ s = run ++ t := by
  constructor
  · intro h
    induction h using Relation.ReflTransGen.head_induction_on with
    | refl => exact ⟨[], by simp, rfl⟩
    | head hstep _ ih =>
      obtain ⟨c, hc, rfl⟩ := hstep
      obtain ⟨run, hrun, rfl⟩ := ih
      refine ⟨c :: run, ?_, rfl⟩
      intro d hd
      rcases List.mem_cons.1 hd with rfl | hd
      · exact hc
      · exact hrun d hd
  · rintro ⟨run, hrun, rfl⟩
    induction run with
    | nil => exact Relation.ReflTransGen.refl
    | cons c run ih =>
      have hc := hrun c (List.mem_cons_self ..)
      exact Relation.ReflTransGen.head ⟨c, hc, rfl⟩
        (ih fun d hd => hrun d (List.mem_cons_of_mem _ hd))

theorem leads_plus_set : Leads whole (plus (.set member)) s t ↔
    ∃ run, run ≠ [] ∧ (∀ c ∈ run, member c = true) ∧ s = run ++ t := by
  have hplus : Leads whole (plus (.set member)) s t ↔ ∃ u, Leads whole (.set member) s u ∧
      Leads whole (.star (.set member)) u t := Iff.rfl
  rw [hplus]
  constructor
  · rintro ⟨u, ⟨c, hc, rfl⟩, hstar⟩
    obtain ⟨run, hrun, rfl⟩ := leads_star_set.1 hstar
    refine ⟨c :: run, List.cons_ne_nil _ _, ?_, rfl⟩
    intro d hd
    rcases List.mem_cons.1 hd with rfl | hd
    · exact hc
    · exact hrun d hd
  · rintro ⟨run, hne, hrun, rfl⟩
    cases run with
    | nil => exact absurd rfl hne
    | cons c run =>
      exact ⟨run ++ t, ⟨c, hrun c (List.mem_cons_self ..), rfl⟩,
        leads_star_set.2 ⟨run, fun d hd => hrun d (List.mem_cons_of_mem _ hd), rfl⟩⟩

theorem leads_text [DecidableEq α] {text : List α} {rs : List (Regex α)} :
    Leads whole (seqs (text.map lit ++ rs)) s t ↔
      ∃ u, s = text ++ u ∧ Leads whole (seqs rs) u t := by
  induction text generalizing s with
  | nil => simp
  | cons c text ih =>
    rw [List.map_cons, List.cons_append, leads_seqs_cons]
    simp only [leads_lit, ih]
    constructor
    · rintro ⟨u, rfl, v, rfl, h⟩
      exact ⟨v, rfl, h⟩
    · rintro ⟨v, rfl, h⟩
      exact ⟨text ++ v, rfl, v, rfl, h⟩

theorem leads_lit_cons [DecidableEq α] {c : α} {rs : List (Regex α)} :
    Leads whole (seqs (lit c :: rs)) s t ↔ ∃ u, s = c :: u ∧ Leads whole (seqs rs) u t := by
  rw [leads_seqs_cons]
  simp only [leads_lit]

theorem leads_finish : Leads whole (seqs [.finish]) s t ↔ s = [] ∧ t = [] := by
  rw [leads_seqs_cons]
  constructor
  · rintro ⟨u, ⟨rfl, hs⟩, hu⟩
    exact ⟨hs, by rw [← leads_seqs_nil.1 hu, hs]⟩
  · rintro ⟨rfl, rfl⟩
    exact ⟨[], ⟨rfl, rfl⟩, rfl⟩

theorem leads_ahead {r : Regex α} {rs : List (Regex α)} :
    Leads whole (seqs (.ahead r :: rs)) s t ↔
      (¬ ∃ u, Leads whole r s u) ∧ Leads whole (seqs rs) s t := by
  rw [leads_seqs_cons]
  constructor
  · rintro ⟨u, ⟨rfl, hnot⟩, h⟩
    exact ⟨hnot, h⟩
  · rintro ⟨hnot, h⟩
    exact ⟨s, ⟨rfl, hnot⟩, h⟩

theorem found_start {rs : List (Regex α)} :
    Found (seqs (.start :: rs)) whole ↔ ∃ t, Leads whole (seqs rs) whole t := by
  constructor
  · rintro ⟨s, t, -, u, ⟨rfl, rfl⟩, h⟩
    exact ⟨t, h⟩
  · rintro ⟨t, h⟩
    exact ⟨whole, t, List.suffix_refl _, whole, ⟨rfl, rfl⟩, h⟩

end Regex
end FilamentCore.Library
