import FilamentCore.Library.KeyedList

/-!
# Pairing two lists by the first match

Each entry of a list is paired with the first entry of another list that has its label. When the
pairing covers the second list and gives no entry of it twice.
-/

namespace FilamentCore.Library.FirstMatch

variable {α β κ : Type*} [DecidableEq κ] {name : α → κ} {label : β → κ}
variable {left : List α} {right : List β}

/-- The first of `right` with the name of `a`. -/
def partner (name : α → κ) (label : β → κ) (right : List β) (a : α) : Option β :=
  Keyed.first label (name a) right

theorem partner_some {a : α} {b : β} (h : partner name label right a = some b) :
    b ∈ right ∧ label b = name a := Keyed.first_some h

theorem exists_partner {a : α} {b : β} (hb : b ∈ right) (h : label b = name a) :
    ∃ c, partner name label right a = some c := Keyed.exists_first hb h

theorem partner_congr {a a' : α} (h : name a = name a') :
    partner name label right a = partner name label right a' := by
  rw [partner, h, partner]

/-- `b` and one entry of `left` have their label to themselves. -/
structure Paired (name : α → κ) (label : β → κ) (left : List α) (right : List β) (b : β) :
    Prop where
  exists_left : ∃ a ∈ left, name a = label b ∧ ∀ a' ∈ left, name a' = label b → a' = a
  alone : ∀ b' ∈ right, label b' = label b → b' = b

/-- Where the pairing covers what is asked of it and gives no entry twice. -/
theorem covers_iff {asked : κ → Prop} (hn : left.Nodup) (hasked : ∀ a ∈ left, asked (name a)) :
    ((∀ b ∈ right, asked (label b) → ∃ a ∈ left, partner name label right a = some b) ∧
      (left.filterMap (partner name label right)).Nodup) ↔
        ∀ b ∈ right, asked (label b) → Paired name label left right b := by
  have hdistinct : (left.filterMap (partner name label right)).Nodup ↔
      ∀ a ∈ left, ∀ a' ∈ left, ∀ b, partner name label right a = some b →
        partner name label right a' = some b → a = a' := by
    rw [List.Nodup, List.pairwise_filterMap]
    constructor
    · intro h a ha a' ha' b hb hb'
      by_contra hne
      have hsymm : Std.Symm fun a a' : α => ∀ b, partner name label right a = some b →
          ∀ b', partner name label right a' = some b' → b ≠ b' := by
        constructor
        intro x y hxy b hb b' hb' he
        exact hxy b' hb' b hb he.symm
      exact h.forall ha ha' hne b hb b hb' rfl
    · intro h
      refine hn.imp_of_mem ?_
      intro a a' ha ha' hne b hb b' hb' he
      subst he
      exact hne (h a ha a' ha' b hb hb')
  rw [hdistinct]
  constructor
  · intro h b hb hask
    obtain ⟨hcover, hinj⟩ := h
    obtain ⟨a, ha, hp⟩ := hcover b hb hask
    have hname : name a = label b := (partner_some hp).2.symm
    refine ⟨⟨a, ha, hname, ?_⟩, ?_⟩
    · intro a' ha' hname'
      refine hinj a' ha' a ha b ?_ hp
      rw [partner_congr (hname'.trans hname.symm), hp]
    · intro b' hb' hlabel
      obtain ⟨a', ha', hp'⟩ := hcover b' hb' (hlabel ▸ hask)
      have hname' : name a' = name a := by
        rw [← (partner_some hp').2, hlabel, hname]
      rw [partner_congr hname', hp] at hp'
      exact (Option.some.inj hp').symm
  · intro h
    constructor
    · intro b hb hask
      obtain ⟨⟨a, ha, hname, -⟩, halone⟩ := h b hb hask
      obtain ⟨c, hc⟩ := exists_partner hb hname.symm
      obtain ⟨hm, hlabel⟩ := partner_some hc
      rw [halone c hm (hlabel.trans hname)] at hc
      exact ⟨a, ha, hc⟩
    · intro a ha a' ha' b hb hb'
      obtain ⟨hm, hlabel⟩ := partner_some hb
      obtain ⟨⟨a₀, -, -, honly⟩, -⟩ := h b hm (hlabel ▸ hasked a ha)
      rw [honly a ha hlabel.symm, honly a' ha' (partner_some hb').2.symm]

end FilamentCore.Library.FirstMatch
