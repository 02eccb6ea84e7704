import Mathlib

/-!
# Lists read by key

The first entry of a key in a list, and what it is when no two entries share a key: then the
order of the list does not matter.
-/

namespace FilamentCore.Library.Keyed

variable {α κ : Type*} [BEq κ] [LawfulBEq κ] (key : α → κ)

def first (k : κ) (l : List α) : Option α := l.find? fun a => key a == k

variable {key}

theorem first_some {k : κ} {l : List α} {a : α} (h : first key k l = some a) :
    a ∈ l ∧ key a = k := by
  have hm := List.mem_of_find?_eq_some h
  have hk := List.find?_some h
  exact ⟨hm, by simpa using hk⟩

theorem first_none_iff {k : κ} {l : List α} : first key k l = none ↔ k ∉ l.map key := by
  simp only [first, List.find?_eq_none, beq_iff_eq, List.mem_map, not_exists, not_and]

theorem exists_first {k : κ} {l : List α} {a : α} (ha : a ∈ l) (hk : key a = k) :
    ∃ b, first key k l = some b := by
  cases hf : first key k l with
  | some b => exact ⟨b, rfl⟩
  | none => exact absurd (List.mem_map.2 ⟨a, ha, hk⟩) (first_none_iff.1 hf)

/-! ### Distinct keys -/

omit [BEq κ] [LawfulBEq κ] in
theorem eq_of_key {l : List α} (hn : (l.map key).Nodup) {a b : α} (ha : a ∈ l) (hb : b ∈ l)
    (h : key a = key b) : a = b := List.inj_on_of_nodup_map hn ha hb h

theorem first_iff {l : List α} (hn : (l.map key).Nodup) {k : κ} {a : α} :
    first key k l = some a ↔ a ∈ l ∧ key a = k := by
  constructor
  · exact first_some
  · rintro ⟨ha, hk⟩
    obtain ⟨b, hb⟩ := exists_first ha hk
    obtain ⟨hm, hkb⟩ := first_some hb
    rw [hb, eq_of_key hn hm ha (hkb.trans hk.symm)]

theorem first_of_mem {l : List α} (hn : (l.map key).Nodup) {a : α} (ha : a ∈ l) :
    first key (key a) l = some a := (first_iff hn).2 ⟨ha, rfl⟩

/-- Which entry a key has does not depend on the order. -/
theorem first_perm {l l' : List α} (hn : (l.map key).Nodup) (hp : l.Perm l') (k : κ) :
    first key k l = first key k l' := by
  have hn' : (l'.map key).Nodup := (hp.map key).nodup_iff.1 hn
  apply Option.ext
  intro a
  rw [first_iff hn, first_iff hn', hp.mem_iff]

/-! ### Partial keys -/

omit [BEq κ] [LawfulBEq κ] in
theorem eq_of_some_key {key : α → Option κ} {l : List α} (hn : (l.filterMap key).Nodup)
    {a b : α} (ha : a ∈ l) (hb : b ∈ l) {k : κ} (hka : key a = some k) (hkb : key b = some k) :
    a = b := by
  by_contra hne
  have hp := List.pairwise_filterMap.1 hn
  have : Std.Symm fun a a' => ∀ b, key a = some b → ∀ b', key a' = some b' → b ≠ b' :=
    ⟨fun _ _ h b hb b' hb' => (h b' hb' b hb).symm⟩
  exact hp.forall ha hb hne k hka k hkb rfl

omit [BEq κ] [LawfulBEq κ] in
theorem nodup_map_of_filterMap {key : α → Option κ} {l : List α}
    (hn : (l.filterMap key).Nodup) (hs : ∀ a ∈ l, (key a).isSome = true) :
    (l.map key).Nodup := by
  have heq : l.map key = (l.filterMap key).map some := by
    rw [List.map_filterMap]
    induction l with
    | nil => rfl
    | cons a l ih =>
      obtain ⟨k, hk⟩ := Option.isSome_iff_exists.1 (hs a (List.mem_cons_self ..))
      have hn : (l.filterMap key).Nodup := by
        rw [List.filterMap_cons_some hk] at hn
        exact (List.nodup_cons.1 hn).2
      rw [List.map_cons, List.filterMap_cons_some (b := some k) (by simp [hk]), hk,
        ih hn fun a ha => hs a (List.mem_cons_of_mem _ ha)]
  rw [heq]
  exact hn.map (Option.some_injective _)

end FilamentCore.Library.Keyed

namespace FilamentCore.Library.Related

/-! ### Lists related item by item -/

variable {α β γ : Type*} {r : α → β → Prop} {l : List α} {m : List β}

theorem exists_right (h : List.Forall₂ r l m) {a : α} (ha : a ∈ l) : ∃ b ∈ m, r a b := by
  induction h with
  | nil => cases ha
  | cons hr _ ih =>
    rcases List.mem_cons.1 ha with rfl | ha
    · exact ⟨_, List.mem_cons_self .., hr⟩
    · obtain ⟨b, hb, hr⟩ := ih ha
      exact ⟨b, List.mem_cons_of_mem _ hb, hr⟩

theorem exists_left (h : List.Forall₂ r l m) {b : β} (hb : b ∈ m) : ∃ a ∈ l, r a b :=
  exists_right h.flip hb

theorem map_eq {f : α → γ} {g : β → γ} (hfg : ∀ a b, r a b → f a = g b)
    (h : List.Forall₂ r l m) : l.map f = m.map g := by
  induction h with
  | nil => rfl
  | cons hr _ ih => rw [List.map_cons, List.map_cons, hfg _ _ hr, ih]

theorem flatMap_perm {f : α → List γ} {g : β → List γ} (hfg : ∀ a b, r a b → (f a).Perm (g b))
    (h : List.Forall₂ r l m) : (l.flatMap f).Perm (m.flatMap g) := by
  induction h with
  | nil => exact .refl _
  | cons hr _ ih => exact (hfg _ _ hr).append ih

end FilamentCore.Library.Related
