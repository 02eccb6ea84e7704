import FilamentCore.SemanticIr.Diag

/-!
# Findings of the schema layer (crates/semantic-ir/src/schema.rs)

`Findings.deepest`, which drops a finding when the text of another pointer is longer and
begins with it.
-/

namespace FilamentCore.SemanticIr

structure Finding where
  pointer : String
  message : String
  deriving DecidableEq, Repr

namespace Findings

def startsWith (next pointer : String) : Prop := pointer.toList <+: next.toList

instance (next pointer : String) : Decidable (startsWith next pointer) :=
  inferInstanceAs (Decidable (_ <+: _))

/-- The pointers in order, each once. -/
def sorted (items : List Finding) : List String :=
  ((items.map Finding.pointer).insertionSort (· ≤ ·)).destutter (· ≠ ·)

/-- The pointers of a sorted list that the next one begins with. -/
def shadowedIn : List String → List String
  | pointer :: next :: rest =>
    if startsWith next pointer then pointer :: shadowedIn (next :: rest)
    else shadowedIn (next :: rest)
  | _ => []

def keep (shadowed : List String) (seen : List String) : List Finding → List Finding
  | [] => []
  | finding :: items =>
    if shadowed.contains finding.pointer ∨ seen.contains finding.pointer then
      keep shadowed seen items
    else finding :: keep shadowed (finding.pointer :: seen) items

def deepest (items : List Finding) : List Finding := keep (shadowedIn (sorted items)) [] items

/-! ### What is kept -/

theorem mem_keep {shadowed seen : List String} {items : List Finding} {k : Finding}
    (hk : k ∈ keep shadowed seen items) : k ∈ items ∧ k.pointer ∉ shadowed := by
  induction items generalizing seen with
  | nil => simp [keep] at hk
  | cons finding items ih =>
    simp only [keep] at hk
    split at hk
    · have h := ih hk
      exact ⟨List.mem_cons_of_mem _ h.1, h.2⟩
    · rename_i hs
      rcases List.mem_cons.1 hk with rfl | hk
      · exact ⟨List.mem_cons_self .., fun h => hs (.inl (by simpa using h))⟩
      · have h := ih hk
        exact ⟨List.mem_cons_of_mem _ h.1, h.2⟩

theorem exists_mem_keep {shadowed seen : List String} {items : List Finding} {f : Finding}
    (hf : f ∈ items) (hs : f.pointer ∉ shadowed) (hn : f.pointer ∉ seen) :
    ∃ k ∈ keep shadowed seen items, k.pointer = f.pointer := by
  induction items generalizing seen with
  | nil => simp at hf
  | cons finding items ih =>
    simp only [keep]
    split
    · rename_i hd
      rcases List.mem_cons.1 hf with rfl | hf
      · simp only [List.contains_iff_mem] at hd
        exact absurd hd (by simp [hs, hn])
      · exact ih hf hn
    · by_cases hp : f.pointer = finding.pointer
      · exact ⟨finding, List.mem_cons_self .., hp.symm⟩
      · rcases List.mem_cons.1 hf with rfl | hf
        · exact absurd rfl hp
        · have hn' : f.pointer ∉ finding.pointer :: seen := by simp [hp, hn]
          obtain ⟨k, hk, hkp⟩ := ih hf hn'
          exact ⟨k, List.mem_cons_of_mem _ hk, hkp⟩

/-! ### What is shadowed -/

theorem prefix_between {p q r : List Char} (hpq : ¬ q < p) (hqr : ¬ r < q) (hpr : p <+: r) :
    p <+: q := by
  induction p generalizing q r with
  | nil => exact List.nil_prefix
  | cons c p ih =>
    obtain ⟨r, rfl⟩ : ∃ r', r = c :: r' := by
      obtain ⟨t, rfl⟩ := hpr
      exact ⟨p ++ t, rfl⟩
    cases q with
    | nil => exact absurd (List.nil_lt_cons c p) hpq
    | cons d q =>
      rw [List.cons_prefix_cons] at hpr ⊢
      rw [List.cons_lt_cons_iff] at hpq hqr
      have hcd : c = d := by
        apply le_antisymm
        · exact not_lt.1 fun h => hpq (.inl h)
        · exact not_lt.1 fun h => hqr (.inl h)
      subst hcd
      have hpq' : ¬ q < p := fun h => hpq (.inr ⟨rfl, h⟩)
      have hqr' : ¬ r < q := fun h => hqr (.inr ⟨rfl, h⟩)
      exact ⟨rfl, ih hpq' hqr' hpr.2⟩

theorem startsWith_between {p q r : String} (hpq : p ≤ q) (hqr : q ≤ r)
    (hrp : startsWith r p) : startsWith q p := by
  apply prefix_between _ _ hrp
  · rw [← String.lt_iff_toList_lt]
    exact not_lt.2 hpq
  · rw [← String.lt_iff_toList_lt]
    exact not_lt.2 hqr

theorem le_of_startsWith {p q : String} (hqp : startsWith q p) : p ≤ q := by
  obtain ⟨t, ht⟩ := hqp
  apply not_lt.1
  rw [String.lt_iff_toList_lt, ← ht]
  exact List.not_lt.2 List.le_append_left

theorem mem_shadowedIn {pointers : List String} (hs : pointers.Pairwise (· < ·)) (p : String) :
    p ∈ shadowedIn pointers ↔ p ∈ pointers ∧ ∃ q ∈ pointers, q ≠ p ∧ startsWith q p := by
  induction pointers with
  | nil => simp [shadowedIn]
  | cons pointer pointers ih =>
    cases pointers with
    | nil =>
      have h : ∀ q ∈ [pointer], p ∈ [pointer] → q = p := by
        intro q hq hp
        rw [List.mem_singleton.1 hq, List.mem_singleton.1 hp]
      constructor
      · intro hp
        simp [shadowedIn] at hp
      · rintro ⟨hp, q, hq, hne, -⟩
        exact absurd (h q hq hp) hne
    | cons next rest =>
      have hlt : ∀ q ∈ next :: rest, pointer < q := fun q hq => List.rel_of_pairwise_cons hs hq
      have hle : ∀ q ∈ next :: rest, next ≤ q := by
        intro q hq
        rcases List.mem_cons.1 hq with rfl | hq
        · exact le_refl q
        · exact le_of_lt (List.rel_of_pairwise_cons (List.Pairwise.of_cons hs) hq)
      have ih := ih (List.Pairwise.of_cons hs)
      have hstep : p ∈ shadowedIn (pointer :: next :: rest) ↔
          (p = pointer ∧ startsWith next pointer) ∨ p ∈ shadowedIn (next :: rest) := by
        simp only [shadowedIn]
        split
        · rename_i h
          simp [h]
        · rename_i h
          simp [h]
      rw [hstep, ih]
      constructor
      · rintro (⟨rfl, h⟩ | ⟨hp, q, hq, hne, h⟩)
        · exact ⟨List.mem_cons_self .., next, by simp,
            (hlt next (List.mem_cons_self ..)).ne', h⟩
        · exact ⟨List.mem_cons_of_mem _ hp, q, List.mem_cons_of_mem _ hq, hne, h⟩
      · rintro ⟨hp, q, hq, hne, h⟩
        rcases List.mem_cons.1 hp with rfl | hp'
        · rcases List.mem_cons.1 hq with rfl | hq
          · exact absurd rfl hne
          · have hnext : next ∈ next :: rest := List.mem_cons_self ..
            exact .inl ⟨rfl, startsWith_between (hlt next hnext).le (hle q hq) h⟩
        · rcases List.mem_cons.1 hq with rfl | hq
          · exact absurd (hlt p hp') (not_lt.2 (le_of_startsWith h))
          · exact .inr ⟨hp', q, hq, hne, h⟩

theorem mem_destutter' {l : List String} {a p : String} (hp : p ∈ a :: l) :
    p ∈ l.destutter' (· ≠ ·) a := by
  induction l generalizing a with
  | nil => simpa using hp
  | cons b l ih =>
    by_cases hab : a = b
    · subst hab
      rw [List.destutter'_cons_neg _ (by simp)]
      exact ih (by simpa using hp)
    · rw [List.destutter'_cons_pos _ hab]
      rcases List.mem_cons.1 hp with rfl | hp
      · exact List.mem_cons_self ..
      · exact List.mem_cons_of_mem _ (ih hp)

theorem mem_sorted (items : List Finding) (p : String) :
    p ∈ sorted items ↔ ∃ f ∈ items, f.pointer = p := by
  have h : p ∈ sorted items ↔ p ∈ (items.map Finding.pointer).insertionSort (· ≤ ·) := by
    refine ⟨fun h => (List.destutter_sublist _ _).subset h, fun h => ?_⟩
    unfold sorted
    cases hl : (items.map Finding.pointer).insertionSort (· ≤ ·) with
    | nil => simp [hl] at h
    | cons a l =>
      rw [hl] at h
      exact mem_destutter' h
  rw [h, List.mem_insertionSort, List.mem_map]

theorem isChain_lt {l : List String} (hle : l.Pairwise (· ≤ ·)) (hne : l.IsChain (· ≠ ·)) :
    l.IsChain (· < ·) := by
  induction l with
  | nil => exact .nil
  | cons a l ih =>
    cases l with
    | nil => exact .singleton a
    | cons b l =>
      rw [List.isChain_cons_cons] at hne ⊢
      have hab : a ≤ b := List.rel_of_pairwise_cons hle (List.mem_cons_self ..)
      exact ⟨lt_of_le_of_ne hab hne.1, ih (List.Pairwise.of_cons hle) hne.2⟩

theorem sorted_pairwise (items : List Finding) : (sorted items).Pairwise (· < ·) := by
  have hle : (sorted items).Pairwise (· ≤ ·) :=
    (List.pairwise_insertionSort _ _).sublist (List.destutter_sublist _ _)
  have hne : (sorted items).IsChain (· ≠ ·) := List.isChain_destutter _ _
  exact List.isChain_iff_pairwise.1 (isChain_lt hle hne)

theorem mem_shadowedIn_sorted (items : List Finding) (p : String) :
    p ∈ shadowedIn (sorted items) ↔
      (∃ f ∈ items, f.pointer = p) ∧ ∃ g ∈ items, g.pointer ≠ p ∧ startsWith g.pointer p := by
  rw [mem_shadowedIn (sorted_pairwise items), mem_sorted]
  apply and_congr_right
  intro _
  constructor
  · rintro ⟨q, hq, hne, h⟩
    obtain ⟨g, hg, rfl⟩ := (mem_sorted items q).1 hq
    exact ⟨g, hg, hne, h⟩
  · rintro ⟨g, hg, hne, h⟩
    exact ⟨g.pointer, (mem_sorted items g.pointer).2 ⟨g, hg, rfl⟩, hne, h⟩

/-! ### Descent, token by token -/

/-- The tokens of `below` go on after the tokens of `pointer`. -/
def Below (below pointer : String) : Prop :=
  split pointer <+: split below ∧ split pointer ≠ split below

instance (below pointer : String) : Decidable (Below below pointer) :=
  inferInstanceAs (Decidable (_ ∧ _))

theorem below_trans {p q r : String} (hqp : Below q p) (hrq : Below r q) : Below r p := by
  have hpr : split p <+: split r := hqp.1.trans hrq.1
  refine ⟨hpr, fun h => hqp.2 ?_⟩
  exact hqp.1.eq_of_length_le (h ▸ hrq.1.length_le)

theorem length_lt_of_below {p q : String} (h : Below q p) :
    (split p).length < (split q).length := by
  have hle := h.1.length_le
  have hne : (split p).length ≠ (split q).length := fun he => h.2 (h.1.eq_of_length he)
  omega

/-- The finding is reported, or one strictly inside the value it points at is. -/
def Accounted (items : List Finding) (f : Finding) : Prop :=
  ∃ k ∈ deepest items, k.pointer = f.pointer ∨ Below k.pointer f.pointer

/-- A pointer whose text another one goes on has a finding below it, token by token. -/
def Nested (items : List Finding) : Prop :=
  ∀ f ∈ items, ∀ g ∈ items, g.pointer ≠ f.pointer → startsWith g.pointer f.pointer →
    ∃ h ∈ items, Below h.pointer f.pointer

instance (items : List Finding) (f : Finding) : Decidable (Accounted items f) :=
  inferInstanceAs (Decidable (∃ k ∈ deepest items, _))

instance (items : List Finding) : Decidable (Nested items) :=
  inferInstanceAs (Decidable (∀ f ∈ items, ∀ g ∈ items, _ → _ → ∃ h ∈ items, _))

theorem not_shadowed_of_mem_deepest {items : List Finding} {k g : Finding}
    (hk : k ∈ deepest items) (hg : g ∈ items) (hne : g.pointer ≠ k.pointer) :
    ¬ startsWith g.pointer k.pointer := by
  have hk' := mem_keep hk
  intro h
  exact hk'.2 ((mem_shadowedIn_sorted items k.pointer).2 ⟨⟨k, hk'.1, rfl⟩, g, hg, hne, h⟩)

theorem exists_mem_deepest {items : List Finding} {f : Finding} (hf : f ∈ items)
    (h : ∀ g ∈ items, g.pointer ≠ f.pointer → ¬ startsWith g.pointer f.pointer) :
    ∃ k ∈ deepest items, k.pointer = f.pointer := by
  apply exists_mem_keep hf
  · rw [mem_shadowedIn_sorted]
    rintro ⟨-, g, hg, hne, hs⟩
    exact h g hg hne hs
  · simp

theorem deepest_eq_nil {items : List Finding} (h : deepest items = []) : items = [] := by
  cases hm : items.argmax (fun f => f.pointer.toList.length) with
  | none => exact List.argmax_eq_none.1 hm
  | some f =>
    have hlongest : ∀ g ∈ items, g.pointer ≠ f.pointer → ¬ startsWith g.pointer f.pointer := by
      intro g hg hne hs
      have hle := List.le_of_mem_argmax hg hm
      exact hne (String.toList_injective (hs.eq_of_length_le hle).symm)
    obtain ⟨k, hk, -⟩ := exists_mem_deepest (List.argmax_mem hm) hlongest
    rw [h] at hk
    exact absurd hk List.not_mem_nil

theorem exists_max_length (items : List Finding) :
    ∃ n, ∀ f ∈ items, (split f.pointer).length ≤ n := by
  induction items with
  | nil => exact ⟨0, by simp⟩
  | cons f items ih =>
    obtain ⟨n, hn⟩ := ih
    refine ⟨max n (split f.pointer).length, fun g hg => ?_⟩
    rcases List.mem_cons.1 hg with rfl | hg
    · exact le_max_right ..
    · exact (hn g hg).trans (le_max_left ..)

theorem accounted_of_nested {items : List Finding} (hn : Nested items) {f : Finding}
    (hf : f ∈ items) : Accounted items f := by
  obtain ⟨n, hmax⟩ := exists_max_length items
  -- Each step down is longer, and no pointer is longer than `n`.
  induction hd : n - (split f.pointer).length using Nat.strong_induction_on generalizing f with
  | _ d ih =>
    by_cases hs : ∀ g ∈ items, g.pointer ≠ f.pointer → ¬ startsWith g.pointer f.pointer
    · obtain ⟨k, hk, hkf⟩ := exists_mem_deepest hf hs
      exact ⟨k, hk, .inl hkf⟩
    · push Not at hs
      obtain ⟨g, hg, hne, hgf⟩ := hs
      obtain ⟨h, hh, hhf⟩ := hn f hf g hg hne hgf
      have hlt := length_lt_of_below hhf
      have hle := hmax h hh
      obtain ⟨k, hk, hkh⟩ := ih (n - (split h.pointer).length) (by omega) hh rfl
      rcases hkh with hkh | hkh
      · exact ⟨k, hk, .inr (hkh ▸ hhf)⟩
      · exact ⟨k, hk, .inr (below_trans hhf hkh)⟩

theorem nested_of_accounted {items : List Finding} (ha : ∀ f ∈ items, Accounted items f) :
    Nested items := by
  intro f hf g hg hne hgf
  obtain ⟨k, hk, hkf⟩ := ha f hf
  rcases hkf with hkf | hkf
  · rw [← hkf] at hne hgf
    exact absurd hgf (not_shadowed_of_mem_deepest hk hg hne)
  · exact ⟨k, (mem_keep hk).1, hkf⟩

theorem accounted_iff_nested (items : List Finding) :
    (∀ f ∈ items, Accounted items f) ↔ Nested items :=
  ⟨nested_of_accounted, fun h _ hf => accounted_of_nested h hf⟩

end Findings
end FilamentCore.SemanticIr
