import Mathlib

/-!
# Insertion-ordered maps

A map that lists its entries in the order their keys were first written, each key
once. Writing a key that is present replaces its value in place.
-/

namespace FilamentCore.Library

structure OrderedMap (κ ν : Type*) where
  entries : List (κ × ν)
  nodup : (entries.map Prod.fst).Nodup

namespace OrderedMap

variable {κ ν : Type*} [DecidableEq κ]

/-! ### Reading and writing an entry list -/

def lookup (k : κ) : List (κ × ν) → Option ν
  | [] => none
  | e :: es => if e.1 = k then some e.2 else lookup k es

def write (k : κ) (v : ν) : List (κ × ν) → List (κ × ν)
  | [] => [(k, v)]
  | e :: es => if e.1 = k then (k, v) :: es else e :: write k v es

theorem lookup_write_self (k : κ) (v : ν) (es : List (κ × ν)) :
    lookup k (write k v es) = some v := by
  induction es with
  | nil => simp only [write, lookup, if_true]
  | cons e es ih =>
    by_cases h : e.1 = k
    · simp only [write, h, if_true, lookup]
    · simp only [write, h, if_false, lookup, ih]

example : lookup 1 (write 1 'a' []) = some 'a' := by simp only [write, lookup, if_true]

theorem lookup_write_ne (k k' : κ) (v : ν) (es : List (κ × ν)) (hne : k' ≠ k) :
    lookup k' (write k v es) = lookup k' es := by
  induction es with
  | nil => simp only [write, lookup, Ne.symm hne, if_false]
  | cons e es ih =>
    by_cases h : e.1 = k
    · simp only [write, h, if_true, lookup, Ne.symm hne, if_false]
    · simp only [write, h, if_false, lookup, ih]

theorem mem_keys_write (k k' : κ) (v : ν) (es : List (κ × ν)) :
    k' ∈ (write k v es).map Prod.fst ↔ k' = k ∨ k' ∈ es.map Prod.fst := by
  induction es with
  | nil => simp [write]
  | cons e es ih =>
    by_cases h : e.1 = k
    · simp [write, h]
    · simp only [write, h, if_false, List.map_cons, List.mem_cons, ih]
      tauto

theorem nodup_write (k : κ) (v : ν) (es : List (κ × ν)) (hn : (es.map Prod.fst).Nodup) :
    ((write k v es).map Prod.fst).Nodup := by
  induction es with
  | nil => simp [write]
  | cons e es ih =>
    rw [List.map_cons, List.nodup_cons] at hn
    by_cases h : e.1 = k
    · simp only [write, h, if_true, List.map_cons, List.nodup_cons]
      exact ⟨h ▸ hn.1, hn.2⟩
    · rw [write, if_neg h, List.map_cons, List.nodup_cons, mem_keys_write]
      exact ⟨fun hm => hm.elim h hn.1, ih hn.2⟩

theorem lookup_eq_some_iff (k : κ) (v : ν) (es : List (κ × ν)) (hn : (es.map Prod.fst).Nodup) :
    lookup k es = some v ↔ (k, v) ∈ es := by
  induction es with
  | nil => simp [lookup]
  | cons e es ih =>
    rw [List.map_cons, List.nodup_cons] at hn
    obtain ⟨k', v'⟩ := e
    by_cases h : k' = k
    · subst h
      have hk : (k', v) ∉ es := fun hm => hn.1 (List.mem_map.2 ⟨_, hm, rfl⟩)
      simp [lookup, hk, eq_comm]
    · simp [lookup, h, Ne.symm h, ih hn.2]

theorem lookup_eq_none_iff (k : κ) (es : List (κ × ν)) :
    lookup k es = none ↔ k ∉ es.map Prod.fst := by
  induction es with
  | nil => simp [lookup]
  | cons e es ih =>
    by_cases h : e.1 = k
    · simp [lookup, h]
    · simp only [lookup, h, if_false, ih, List.map_cons, List.mem_cons, Ne.symm h, false_or]

theorem mem_of_lookup {k : κ} {v : ν} {es : List (κ × ν)} (h : lookup k es = some v) :
    (k, v) ∈ es := by
  induction es with
  | nil => simp [lookup] at h
  | cons e es ih =>
    obtain ⟨k', v'⟩ := e
    by_cases hk : k' = k
    · simp only [lookup, hk, if_true, Option.some.injEq] at h
      simp [hk, h]
    · simp only [lookup, hk, if_false] at h
      exact List.mem_cons_of_mem _ (ih h)

theorem lookup_filter {k : κ} {p : κ → Bool} {es : List (κ × ν)} (hp : p k = true) :
    lookup k (es.filter fun e => p e.1) = lookup k es := by
  induction es with
  | nil => rfl
  | cons e es ih =>
    by_cases hk : e.1 = k
    · simp [lookup, hk, hp]
    · by_cases hpe : p e.1 = true
      · simp [hpe, lookup, hk, ih]
      · simp [hpe, lookup, hk, ih]

/-! ### Maps -/

def empty : OrderedMap κ ν := ⟨[], List.nodup_nil⟩

def get (m : OrderedMap κ ν) (k : κ) : Option ν := lookup k m.entries

def set (m : OrderedMap κ ν) (k : κ) (v : ν) : OrderedMap κ ν :=
  ⟨write k v m.entries, nodup_write k v m.entries m.nodup⟩

omit [DecidableEq κ] in
def keys (m : OrderedMap κ ν) : List κ := m.entries.map Prod.fst

omit [DecidableEq κ] in
def values (m : OrderedMap κ ν) : List ν := m.entries.map Prod.snd

omit [DecidableEq κ] in
def size (m : OrderedMap κ ν) : ℕ := m.entries.length

@[simp] theorem get_empty (k : κ) : (empty : OrderedMap κ ν).get k = none := rfl

@[simp] theorem get_set_self (m : OrderedMap κ ν) (k : κ) (v : ν) : (m.set k v).get k = some v :=
  lookup_write_self k v m.entries

theorem get_set_ne (m : OrderedMap κ ν) {k k' : κ} (v : ν) (hne : k' ≠ k) :
    (m.set k v).get k' = m.get k' :=
  lookup_write_ne k k' v m.entries hne

theorem get_set (m : OrderedMap κ ν) (k k' : κ) (v : ν) :
    (m.set k v).get k' = if k' = k then some v else m.get k' := by
  by_cases h : k' = k
  · rw [if_pos h, h, get_set_self]
  · rw [if_neg h, get_set_ne m v h]

theorem get_eq_some_iff (m : OrderedMap κ ν) (k : κ) (v : ν) :
    m.get k = some v ↔ (k, v) ∈ m.entries :=
  lookup_eq_some_iff k v m.entries m.nodup

theorem get_eq_none_iff (m : OrderedMap κ ν) (k : κ) : m.get k = none ↔ k ∉ m.keys :=
  lookup_eq_none_iff k m.entries

theorem mem_keys_iff (m : OrderedMap κ ν) (k : κ) : k ∈ m.keys ↔ ∃ v, m.get k = some v := by
  rw [← not_iff_not, ← get_eq_none_iff, not_exists]
  cases h : m.get k <;> simp

theorem mem_values_iff (m : OrderedMap κ ν) (v : ν) : v ∈ m.values ↔ ∃ k, m.get k = some v := by
  simp only [values, List.mem_map, Prod.exists, exists_eq_right, get_eq_some_iff]

omit [DecidableEq κ] in
theorem nodup_keys (m : OrderedMap κ ν) : m.keys.Nodup := m.nodup

/-! ### Related maps -/

section Related

variable {μ : Type*} {R : ν → μ → Prop}

/-- Two maps with the same keys in the same order and related values. -/
def Related (R : ν → μ → Prop) (m : OrderedMap κ ν) (m' : OrderedMap κ μ) : Prop :=
  List.Forall₂ (fun e e' => e.1 = e'.1 ∧ R e.2 e'.2) m.entries m'.entries

theorem related_lookup {es : List (κ × ν)} {es' : List (κ × μ)}
    (h : List.Forall₂ (fun e e' => e.1 = e'.1 ∧ R e.2 e'.2) es es') (k : κ) :
    Option.Rel R (lookup k es) (lookup k es') := by
  induction h with
  | nil => exact .none
  | cons he _ ih =>
    simp only [lookup, he.1]
    split
    · exact .some he.2
    · exact ih

theorem related_write {es : List (κ × ν)} {es' : List (κ × μ)} {v : ν} {v' : μ}
    (h : List.Forall₂ (fun e e' => e.1 = e'.1 ∧ R e.2 e'.2) es es') (hv : R v v') (k : κ) :
    List.Forall₂ (fun e e' => e.1 = e'.1 ∧ R e.2 e'.2) (write k v es) (write k v' es') := by
  induction h with
  | nil => exact .cons ⟨rfl, hv⟩ .nil
  | cons he hes ih =>
    simp only [write, he.1]
    split
    · exact .cons ⟨rfl, hv⟩ hes
    · exact .cons he ih

theorem Related.get {m : OrderedMap κ ν} {m' : OrderedMap κ μ} (h : Related R m m') (k : κ) :
    Option.Rel R (m.get k) (m'.get k) :=
  related_lookup h k

theorem Related.set {m : OrderedMap κ ν} {m' : OrderedMap κ μ} (h : Related R m m') {v : ν}
    {v' : μ} (hv : R v v') (k : κ) : Related R (m.set k v) (m'.set k v') :=
  related_write h hv k

omit [DecidableEq κ] in
theorem Related.values {m : OrderedMap κ ν} {m' : OrderedMap κ μ} (h : Related R m m') :
    List.Forall₂ R m.values m'.values := by
  unfold OrderedMap.values
  rw [List.forall₂_map_left_iff, List.forall₂_map_right_iff]
  exact h.imp fun _ _ he => he.2

end Related

end OrderedMap
end FilamentCore.Library
