import Mathlib

/-!
# Backtracking search

A search keeps a stack of places and a number of steps it may still take. The place on top is
accepted, or the places that follow it go on the stack, or the search is stuck there.
-/

namespace FilamentCore.Library.Backtracking

inductive Turn (C : Type*) where
  | accept
  | follow (places : List C)
  | stuck

/-- How a search ends, with the steps that are left when every place has been tried. -/
inductive Ending where
  | accepted
  | exhausted (left : ℕ)
  | bounded
  | stuck
  deriving DecidableEq

variable {C : Type*} (turn : C → Turn C)

def search : ℕ → List C → Ending
  | left, [] => .exhausted left
  | 0, _ :: _ => .bounded
  | left + 1, c :: stack =>
    match turn c with
    | .accept => .accepted
    | .follow places => search left (places ++ stack)
    | .stuck => .stuck

/-- What a search goes on with when the places before are all tried. -/
def Ending.andThen (rest : ℕ → Ending) : Ending → Ending
  | .exhausted left => rest left
  | ending => ending

/-- A place that leads to an accepted one in so many steps. -/
inductive AcceptsIn : ℕ → C → Prop
  | here {c : C} {n : ℕ} (h : turn c = .accept) : AcceptsIn n c
  | there {c c' : C} {places : List C} {n : ℕ} (h : turn c = .follow places) (hc : c' ∈ places)
      (hn : AcceptsIn n c') : AcceptsIn (n + 1) c

def Accepts (c : C) : Prop := ∃ n, AcceptsIn turn n c

/-- A place from which every path ends, and never where the search is stuck. -/
inductive Settles : C → Prop
  | accept {c : C} (h : turn c = .accept) : Settles c
  | follow {c : C} {places : List C} (h : turn c = .follow places)
      (hall : ∀ c' ∈ places, Settles c') : Settles c

variable {turn} {c : C} {places stack : List C}

theorem search_nil (left : ℕ) : search turn left [] = .exhausted left := by
  cases left <;> rfl

theorem search_append (left : ℕ) (cs ds : List C) :
    search turn left (cs ++ ds) = (search turn left cs).andThen fun l => search turn l ds := by
  induction left generalizing cs with
  | zero =>
    cases cs with
    | nil => rw [List.nil_append, search_nil, Ending.andThen]
    | cons c cs => rfl
  | succ left ih =>
    cases cs with
    | nil => rw [List.nil_append, search_nil, Ending.andThen]
    | cons c cs =>
      rw [List.cons_append, search, search]
      cases turn c with
      | accept => rfl
      | stuck => rfl
      | follow places =>
        dsimp only
        rw [← List.append_assoc, ih]

/-! ### What an ending says -/

theorem accepts_follow (h : turn c = .follow places) :
    Accepts turn c ↔ ∃ c' ∈ places, Accepts turn c' := by
  refine ⟨fun hacc => ?_, fun hacc => ?_⟩
  · obtain ⟨n, hn⟩ := hacc
    cases hn with
    | here ha =>
      rw [h] at ha
      cases ha
    | there h' hc hn =>
      rw [h] at h'
      cases h'
      exact ⟨_, hc, _, hn⟩
  · obtain ⟨c', hc, n, hn⟩ := hacc
    exact ⟨n + 1, .there h hc hn⟩

theorem search_accepted (left : ℕ) (h : search turn left stack = .accepted) :
    ∃ c ∈ stack, Accepts turn c := by
  induction left generalizing stack with
  | zero => cases stack <;> cases h
  | succ left ih =>
    cases stack with
    | nil => cases h
    | cons c stack =>
      rw [search] at h
      cases hturn : turn c with
      | stuck =>
        rw [hturn] at h
        cases h
      | accept => exact ⟨c, List.mem_cons_self .., 0, .here hturn⟩
      | follow places =>
        rw [hturn] at h
        obtain ⟨c', hc', hacc⟩ := ih h
        rcases List.mem_append.1 hc' with hc' | hc'
        · exact ⟨c, List.mem_cons_self .., (accepts_follow hturn).2 ⟨c', hc', hacc⟩⟩
        · exact ⟨c', List.mem_cons_of_mem _ hc', hacc⟩

theorem search_exhausted (left : ℕ) {l : ℕ} (h : search turn left stack = .exhausted l) :
    ∀ c ∈ stack, ¬ Accepts turn c := by
  induction left generalizing stack with
  | zero =>
    cases stack with
    | nil => simp
    | cons c stack => cases h
  | succ left ih =>
    cases stack with
    | nil => simp
    | cons c stack =>
      rw [search] at h
      cases hturn : turn c with
      | stuck =>
        rw [hturn] at h
        cases h
      | accept =>
        rw [hturn] at h
        cases h
      | follow places =>
        rw [hturn] at h
        have hnone := ih h
        refine List.forall_mem_cons.2 ⟨?_, fun d hd => hnone d (List.mem_append_right _ hd)⟩
        intro hacc
        obtain ⟨d, hd, hacc⟩ := (accepts_follow hturn).1 hacc
        exact hnone d (List.mem_append_left _ hd) hacc

/-! ### How many steps are enough -/

/-- So many steps are enough to try the places. -/
def Within (turn : C → Turn C) (steps : ℕ) (stack : List C) : Prop :=
  ∀ left, steps ≤ left → search turn left stack = .accepted ∨
    ∃ l, search turn left stack = .exhausted l ∧ left ≤ l + steps

theorem Within.append {m n : ℕ} {cs ds : List C} (h : Within turn m cs) (h' : Within turn n ds) :
    Within turn (m + n) (cs ++ ds) := by
  intro left hleft
  rw [search_append]
  rcases h left (by omega) with hacc | ⟨l, hl, hle⟩
  · exact .inl (by rw [hacc]; rfl)
  · rw [hl, Ending.andThen]
    rcases h' l (by omega) with hacc | ⟨l', hl', hle'⟩
    · exact .inl hacc
    · exact .inr ⟨l', hl', by omega⟩

theorem Within.of_forall (h : ∀ c ∈ stack, ∃ n, Within turn n [c]) : ∃ n, Within turn n stack := by
  induction stack with
  | nil => exact ⟨0, fun left _ => .inr ⟨left, search_nil left, le_rfl⟩⟩
  | cons c stack ih =>
    obtain ⟨m, hm⟩ := h c (List.mem_cons_self ..)
    obtain ⟨n, hn⟩ := ih fun d hd => h d (List.mem_cons_of_mem _ hd)
    exact ⟨m + n, hm.append hn⟩

theorem Settles.within (h : Settles turn c) : ∃ n, Within turn n [c] := by
  induction h with
  | accept h =>
    refine ⟨1, fun left hleft => .inl ?_⟩
    obtain ⟨left, rfl⟩ := Nat.exists_eq_add_of_le' hleft
    rw [search, h]
  | @follow c places h _ ih =>
    obtain ⟨n, hn⟩ := Within.of_forall ih
    refine ⟨n + 1, fun left hleft => ?_⟩
    obtain ⟨left, rfl⟩ : ∃ l, left = l + 1 := ⟨left - 1, by omega⟩
    rw [search, h]
    dsimp only
    rw [List.append_nil]
    rcases hn left (by omega) with hacc | ⟨l, hl, hle⟩
    · exact .inl hacc
    · exact .inr ⟨l, hl, by omega⟩

/-- Where every place settles, a search with enough steps tells whether one is accepted. -/
theorem search_settles (h : ∀ c ∈ stack, Settles turn c) : ∃ n, ∀ left, n ≤ left →
    (search turn left stack = .accepted ∧ ∃ c ∈ stack, Accepts turn c) ∨
      ((∃ l, search turn left stack = .exhausted l) ∧ ∀ c ∈ stack, ¬ Accepts turn c) := by
  obtain ⟨n, hn⟩ := Within.of_forall fun c hc => (h c hc).within
  refine ⟨n, fun left hleft => ?_⟩
  rcases hn left hleft with hacc | ⟨l, hl, -⟩
  · exact .inl ⟨hacc, search_accepted left hacc⟩
  · exact .inr ⟨⟨l, hl⟩, search_exhausted left hl⟩

/-- A search through places that settle is never stuck. -/
theorem search_ne_stuck (left : ℕ) (h : ∀ c ∈ stack, Settles turn c) :
    search turn left stack ≠ .stuck := by
  induction left generalizing stack with
  | zero => cases stack <;> exact nofun
  | succ left ih =>
    cases stack with
    | nil => exact nofun
    | cons c stack =>
      obtain ⟨hc, hstack⟩ := List.forall_mem_cons.1 h
      rw [search]
      cases hc with
      | accept hturn =>
        rw [hturn]
        exact nofun
      | @follow _ places hturn hall =>
        rw [hturn]
        apply ih
        intro d hd
        rcases List.mem_append.1 hd with hd | hd
        · exact hall d hd
        · exact hstack d hd

end FilamentCore.Library.Backtracking
