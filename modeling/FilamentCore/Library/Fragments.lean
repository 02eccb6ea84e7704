import FilamentCore.Library.Backtracking

/-!
# Programs of a backtracking search

A program is a list of instructions over a state: an action, which fails or changes the state, a
split, a jump, and the acceptance. A fragment is code that is entered at its start and left at its
end; it denotes a relation between the states on the way in and on the way out, and the fragments
of a composition denote the composed relation.
-/

namespace FilamentCore.Library.Fragments

open Backtracking

inductive Inst (σ : Type*) where
  | act (action : σ → Option σ)
  | split (first second : ℕ)
  | jump (target : ℕ)
  | accept

variable {σ : Type*}

/-- The instruction in code that has moved. -/
def Inst.shift (delta : ℕ) : Inst σ → Inst σ
  | .split first second => .split (first + delta) (second + delta)
  | .jump target => .jump (target + delta)
  | inst => inst

/-- A split that tries `inner` first, or last when it is lazy. -/
def fork (lazy : Bool) (inner outer : ℕ) : Inst σ :=
  if lazy then .split outer inner else .split inner outer

def turn (program : List (Inst σ)) (place : ℕ × σ) : Turn (ℕ × σ) :=
  match program[place.1]? with
  | none => .stuck
  | some .accept => .accept
  | some (.act action) => .follow ((action place.2).toList.map fun s => (place.1 + 1, s))
  | some (.split first second) => .follow [(first, place.2), (second, place.2)]
  | some (.jump target) => .follow [(target, place.2)]

/-! ### Where code sits -/

/-- The program has the code, moved by `delta`, at an offset. -/
def Sits (program code : List (Inst σ)) (delta offset : ℕ) : Prop :=
  ∀ i inst, code[i]? = some inst → program[offset + i]? = some (inst.shift delta)

variable {program a b code : List (Inst σ)} {delta offset : ℕ} {inst : Inst σ}

theorem shift_shift (k delta : ℕ) (inst : Inst σ) :
    (inst.shift k).shift delta = inst.shift (k + delta) := by
  cases inst with
  | act action => rfl
  | accept => rfl
  | jump target => simp only [Inst.shift, Nat.add_assoc]
  | split first second => simp only [Inst.shift, Nat.add_assoc]

theorem sits_shift {k : ℕ} :
    Sits program (code.map (Inst.shift k)) delta offset ↔ Sits program code (k + delta) offset := by
  constructor
  · intro h i inst hi
    rw [← shift_shift]
    apply h
    rw [List.getElem?_map, hi, Option.map_some]
  · intro h i inst hi
    rw [List.getElem?_map, Option.map_eq_some_iff] at hi
    obtain ⟨inst, hi, rfl⟩ := hi
    rw [shift_shift]
    exact h i inst hi

theorem sits_append : Sits program (a ++ b) delta offset ↔
    Sits program a delta offset ∧ Sits program b delta (offset + a.length) := by
  constructor
  · intro h
    refine ⟨fun i inst hi => ?_, fun i inst hi => ?_⟩
    · have hlt := (List.getElem?_eq_some_iff.1 hi).1
      exact h i inst (by rwa [List.getElem?_append_left hlt])
    · rw [Nat.add_assoc]
      apply h
      rwa [List.getElem?_append_right (by omega), Nat.add_sub_cancel_left]
  · rintro ⟨ha, hb⟩ i inst hi
    rcases lt_or_ge i a.length with hlt | hge
    · rw [List.getElem?_append_left hlt] at hi
      exact ha i inst hi
    · rw [List.getElem?_append_right hge] at hi
      have hi := hb _ inst hi
      rwa [show offset + a.length + (i - a.length) = offset + i by omega] at hi

theorem sits_cons : Sits program (inst :: code) delta offset ↔
    program[offset]? = some (inst.shift delta) ∧ Sits program code delta (offset + 1) := by
  constructor
  · intro h
    refine ⟨h 0 inst rfl, fun i inst' hi => ?_⟩
    rw [Nat.add_assoc, Nat.add_comm 1]
    exact h (i + 1) inst' hi
  · rintro ⟨hhead, htail⟩ i inst' hi
    cases i with
    | zero =>
      obtain rfl : inst = inst' := by simpa using hi
      exact hhead
    | succ i =>
      rw [Nat.add_comm i, ← Nat.add_assoc]
      exact htail i inst' hi

theorem shift_zero (inst : Inst σ) : inst.shift 0 = inst := by
  cases inst <;> rfl

theorem sits_start (code rest : List (Inst σ)) : Sits (code ++ rest) code 0 0 := by
  intro i inst hi
  have hlt := (List.getElem?_eq_some_iff.1 hi).1
  rw [Nat.zero_add, List.getElem?_append_left hlt, hi, shift_zero]

/-! ### What an instruction does -/

section Turns

variable {pc x y n : ℕ} {s t : σ} {lazy : Bool}

theorem turn_fork (h : program[pc]? = some (fork lazy x y)) :
    ∃ places, turn program (pc, s) = .follow places ∧
      ∀ place, place ∈ places ↔ place = (x, s) ∨ place = (y, s) := by
  cases lazy with
  | false => exact ⟨[(x, s), (y, s)], by rw [turn, h]; rfl, by simp⟩
  | true => exact ⟨[(y, s), (x, s)], by rw [turn, h]; rfl, by simp [or_comm]⟩

theorem turn_jump (h : program[pc]? = some (.jump x)) :
    turn program (pc, s) = .follow [(x, s)] := by
  rw [turn, h]

theorem turn_act {action : σ → Option σ} (h : program[pc]? = some (.act action)) :
    ∃ places, turn program (pc, s) = .follow places ∧
      ∀ place, place ∈ places ↔ ∃ t, action s = some t ∧ place = (pc + 1, t) := by
  refine ⟨_, by rw [turn, h], fun place => ?_⟩
  simp [eq_comm]

theorem acceptsIn_follow {places : List (ℕ × σ)} (h : turn program (pc, s) = .follow places)
    (hn : AcceptsIn (turn program) n (pc, s)) :
    ∃ m < n, ∃ place ∈ places, AcceptsIn (turn program) m place := by
  cases hn with
  | here ha =>
    rw [h] at ha
    cases ha
  | @there _ c' _ n h' hc hn =>
    rw [h] at h'
    cases h'
    exact ⟨n, by omega, c', hc, hn⟩

theorem acceptsIn_fork (h : program[pc]? = some (fork lazy x y))
    (hn : AcceptsIn (turn program) n (pc, s)) :
    ∃ m < n, AcceptsIn (turn program) m (x, s) ∨ AcceptsIn (turn program) m (y, s) := by
  obtain ⟨places, hturn, hmem⟩ := turn_fork (s := s) h
  obtain ⟨m, hm, place, hplace, hacc⟩ := acceptsIn_follow hturn hn
  rcases (hmem place).1 hplace with rfl | rfl
  · exact ⟨m, hm, .inl hacc⟩
  · exact ⟨m, hm, .inr hacc⟩

theorem accepts_fork (h : program[pc]? = some (fork lazy x y)) :
    Accepts (turn program) (pc, s) ↔
      Accepts (turn program) (x, s) ∨ Accepts (turn program) (y, s) := by
  obtain ⟨places, hturn, hmem⟩ := turn_fork (s := s) h
  rw [accepts_follow hturn]
  constructor
  · rintro ⟨place, hplace, hacc⟩
    rcases (hmem place).1 hplace with rfl | rfl
    · exact .inl hacc
    · exact .inr hacc
  · rintro (hacc | hacc)
    · exact ⟨_, (hmem _).2 (.inl rfl), hacc⟩
    · exact ⟨_, (hmem _).2 (.inr rfl), hacc⟩

theorem settles_fork (h : program[pc]? = some (fork lazy x y))
    (hx : Settles (turn program) (x, s)) (hy : Settles (turn program) (y, s)) :
    Settles (turn program) (pc, s) := by
  obtain ⟨places, hturn, hmem⟩ := turn_fork (s := s) h
  refine .follow hturn fun place hplace => ?_
  rcases (hmem place).1 hplace with rfl | rfl
  · exact hx
  · exact hy

theorem acceptsIn_jump (h : program[pc]? = some (.jump x))
    (hn : AcceptsIn (turn program) n (pc, s)) : ∃ m < n, AcceptsIn (turn program) m (x, s) := by
  obtain ⟨m, hm, place, hplace, hacc⟩ := acceptsIn_follow (turn_jump h) hn
  rw [List.mem_singleton.1 hplace] at hacc
  exact ⟨m, hm, hacc⟩

theorem accepts_jump (h : program[pc]? = some (.jump x)) :
    Accepts (turn program) (pc, s) ↔ Accepts (turn program) (x, s) := by
  rw [accepts_follow (turn_jump h)]
  simp

theorem settles_jump (h : program[pc]? = some (.jump x))
    (hx : Settles (turn program) (x, s)) : Settles (turn program) (pc, s) :=
  .follow (turn_jump h) (by simpa using hx)

end Turns

/-! ### What code denotes -/

/-- Entered in a state, the code is left in the states of the relation, and it is left. -/
structure Denotes (code : List (Inst σ)) (R : σ → σ → Prop) : Prop where
  sound : ∀ program offset, Sits program code offset offset → ∀ n s,
    AcceptsIn (turn program) n (offset, s) →
      ∃ m ≤ n, ∃ t, R s t ∧ AcceptsIn (turn program) m (offset + code.length, t)
  complete : ∀ program offset, Sits program code offset offset → ∀ s t, R s t →
    Accepts (turn program) (offset + code.length, t) → Accepts (turn program) (offset, s)
  settles : ∀ program offset, Sits program code offset offset → ∀ s,
    (∀ t, R s t → Settles (turn program) (offset + code.length, t)) →
      Settles (turn program) (offset, s)

variable {R S : σ → σ → Prop} {lazy : Bool}

theorem Denotes.congr (h : Denotes code R) (hRS : ∀ s t, R s t ↔ S s t) : Denotes code S := by
  obtain rfl : R = S := funext fun s => funext fun t => propext (hRS s t)
  exact h

theorem denotes_nil : Denotes ([] : List (Inst σ)) Eq where
  sound _ _ _ n s hn := ⟨n, le_rfl, s, rfl, hn⟩
  complete _ _ _ _ _ hst ht := hst ▸ ht
  settles _ _ _ s h := h s rfl

theorem denotes_act (action : σ → Option σ) :
    Denotes [.act action] fun s t => action s = some t where
  sound program offset h n s hn := by
    obtain ⟨places, hturn, hmem⟩ := turn_act (s := s) ((sits_cons.1 h).1)
    obtain ⟨m, hm, place, hplace, hacc⟩ := acceptsIn_follow hturn hn
    obtain ⟨t, ht, rfl⟩ := (hmem place).1 hplace
    exact ⟨m, hm.le, t, ht, hacc⟩
  complete program offset h s t hst ht := by
    obtain ⟨places, hturn, hmem⟩ := turn_act (s := s) ((sits_cons.1 h).1)
    exact (accepts_follow hturn).2 ⟨_, (hmem _).2 ⟨t, hst, rfl⟩, ht⟩
  settles program offset h s hs := by
    obtain ⟨places, hturn, hmem⟩ := turn_act (s := s) ((sits_cons.1 h).1)
    refine .follow hturn fun place hplace => ?_
    obtain ⟨t, ht, rfl⟩ := (hmem place).1 hplace
    exact hs t ht

theorem Denotes.append (ha : Denotes a R) (hb : Denotes b S) :
    Denotes (a ++ b.map (Inst.shift a.length)) (Relation.Comp R S) := by
  have hsits : ∀ {program offset}, Sits program (a ++ b.map (Inst.shift a.length)) offset offset →
      Sits program a offset offset ∧ Sits program b (offset + a.length) (offset + a.length) := by
    intro program offset h
    rw [sits_append, sits_shift, Nat.add_comm a.length] at h
    exact h
  have hlength : ∀ offset, offset + (a ++ b.map (Inst.shift a.length)).length =
      offset + a.length + b.length := by
    intro offset
    rw [List.length_append, List.length_map, Nat.add_assoc]
  refine ⟨fun program offset h n s hn => ?_, fun program offset h s t hst ht => ?_,
    fun program offset h s hs => ?_⟩
  · obtain ⟨hsa, hsb⟩ := hsits h
    obtain ⟨m, hm, u, hu, hacc⟩ := ha.sound _ _ hsa n s hn
    obtain ⟨k, hk, t, ht, hacc⟩ := hb.sound _ _ hsb m u hacc
    exact ⟨k, hk.trans hm, t, ⟨u, hu, ht⟩, hlength offset ▸ hacc⟩
  · obtain ⟨hsa, hsb⟩ := hsits h
    obtain ⟨u, hsu, hut⟩ := hst
    rw [hlength] at ht
    exact ha.complete _ _ hsa s u hsu (hb.complete _ _ hsb u t hut ht)
  · obtain ⟨hsa, hsb⟩ := hsits h
    refine ha.settles _ _ hsa s fun u hu => hb.settles _ _ hsb u fun t ht => ?_
    rw [← hlength]
    exact hs t ⟨u, hu, ht⟩

/-! ### Choices and loops -/

theorem shift_fork (x y : ℕ) :
    (fork lazy x y : Inst σ).shift delta = fork lazy (x + delta) (y + delta) := by
  cases lazy <;> rfl

/-- The first, or else the second. -/
def alternation (a b : List (Inst σ)) : List (Inst σ) :=
  .split 1 (a.length + 2) :: (a.map (Inst.shift 1) ++
    .jump (a.length + 2 + b.length) :: b.map (Inst.shift (a.length + 2)))

def optional (lazy : Bool) (a : List (Inst σ)) : List (Inst σ) :=
  fork lazy 1 (a.length + 1) :: a.map (Inst.shift 1)

def star (lazy : Bool) (a : List (Inst σ)) : List (Inst σ) :=
  fork lazy 1 (a.length + 2) :: (a.map (Inst.shift 1) ++ [.jump 0])

def plus (lazy : Bool) (a : List (Inst σ)) : List (Inst σ) :=
  a ++ [fork lazy 0 (a.length + 1)]

theorem sits_alternation (h : Sits program (alternation a b) offset offset) :
    program[offset]? = some (fork false (offset + 1) (offset + a.length + 2)) ∧
      Sits program a (offset + 1) (offset + 1) ∧
      program[offset + 1 + a.length]? = some (.jump (offset + (alternation a b).length)) ∧
      Sits program b (offset + a.length + 2) (offset + a.length + 2) := by
  have hlength : (alternation a b).length = a.length + 2 + b.length := by
    simp only [alternation, List.length_cons, List.length_append, List.length_map]
    omega
  rw [hlength]
  rw [alternation, sits_cons, sits_append, sits_cons, sits_shift, sits_shift, List.length_map] at h
  obtain ⟨hsplit, ha, hjump, hb⟩ := h
  refine ⟨?_, ?_, ?_, ?_⟩
  · rw [hsplit, Inst.shift]
    exact congrArg some (congrArg₂ Inst.split (by omega) (by omega))
  · rwa [Nat.add_comm 1] at ha
  · rw [hjump, Inst.shift]
    exact congrArg some (congrArg Inst.jump (by omega))
  · rwa [show a.length + 2 + offset = offset + a.length + 2 by omega,
      show offset + 1 + a.length + 1 = offset + a.length + 2 by omega] at hb

theorem Denotes.alternation (ha : Denotes a R) (hb : Denotes b S) :
    Denotes (alternation a b) fun s t => R s t ∨ S s t := by
  have hlength : ∀ offset, offset + a.length + 2 + b.length =
      offset + (Fragments.alternation a b).length := by
    intro offset
    simp only [Fragments.alternation, List.length_cons, List.length_append, List.length_map]
    omega
  refine ⟨fun program offset h n s hn => ?_, fun program offset h s t hst ht => ?_,
    fun program offset h s hs => ?_⟩
  · obtain ⟨hfork, hsa, hjump, hsb⟩ := sits_alternation h
    obtain ⟨m, hm, hacc | hacc⟩ := acceptsIn_fork hfork hn
    · obtain ⟨k, hk, t, ht, hacc⟩ := ha.sound _ _ hsa m s hacc
      obtain ⟨l, hl, hacc⟩ := acceptsIn_jump hjump hacc
      exact ⟨l, by omega, t, .inl ht, hacc⟩
    · obtain ⟨k, hk, t, ht, hacc⟩ := hb.sound _ _ hsb m s hacc
      exact ⟨k, by omega, t, .inr ht, hlength offset ▸ hacc⟩
  · obtain ⟨hfork, hsa, hjump, hsb⟩ := sits_alternation h
    rw [accepts_fork hfork]
    rcases hst with hst | hst
    · exact .inl (ha.complete _ _ hsa s t hst ((accepts_jump hjump).2 ht))
    · exact .inr (hb.complete _ _ hsb s t hst (hlength offset ▸ ht))
  · obtain ⟨hfork, hsa, hjump, hsb⟩ := sits_alternation h
    apply settles_fork hfork
    · exact ha.settles _ _ hsa s fun t ht => settles_jump hjump (hs t (.inl ht))
    · exact hb.settles _ _ hsb s fun t ht => hlength offset ▸ hs t (.inr ht)

theorem sits_optional (h : Sits program (optional lazy a) offset offset) :
    program[offset]? = some (fork lazy (offset + 1) (offset + (optional lazy a).length)) ∧
      Sits program a (offset + 1) (offset + 1) ∧
      offset + 1 + a.length = offset + (optional lazy a).length := by
  have hlength : (optional lazy a).length = a.length + 1 := by
    rw [optional, List.length_cons, List.length_map]
  rw [hlength]
  rw [optional, sits_cons, sits_shift, shift_fork] at h
  obtain ⟨hfork, ha⟩ := h
  rw [Nat.add_comm 1 offset] at hfork ha
  exact ⟨by rw [hfork, Nat.add_comm (a.length + 1)], ha, by omega⟩

theorem Denotes.optional (ha : Denotes a R) :
    Denotes (optional lazy a) fun s t => s = t ∨ R s t := by
  refine ⟨fun program offset h n s hn => ?_, fun program offset h s t hst ht => ?_,
    fun program offset h s hs => ?_⟩
  · obtain ⟨hfork, hsa, hlength⟩ := sits_optional h
    obtain ⟨m, hm, hacc | hacc⟩ := acceptsIn_fork hfork hn
    · obtain ⟨k, hk, t, ht, hacc⟩ := ha.sound _ _ hsa m s hacc
      exact ⟨k, by omega, t, .inr ht, hlength ▸ hacc⟩
    · exact ⟨m, hm.le, s, .inl rfl, hacc⟩
  · obtain ⟨hfork, hsa, hlength⟩ := sits_optional h
    rw [accepts_fork hfork]
    rcases hst with rfl | hst
    · exact .inr ht
    · exact .inl (ha.complete _ _ hsa s t hst (hlength ▸ ht))
  · obtain ⟨hfork, hsa, hlength⟩ := sits_optional h
    apply settles_fork hfork
    · exact ha.settles _ _ hsa s fun t ht => hlength ▸ hs t (.inr ht)
    · exact hs s (.inl rfl)

theorem sits_star (h : Sits program (star lazy a) offset offset) :
    program[offset]? = some (fork lazy (offset + 1) (offset + (star lazy a).length)) ∧
      Sits program a (offset + 1) (offset + 1) ∧
      program[offset + 1 + a.length]? = some (.jump offset) := by
  have hlength : (star lazy a).length = a.length + 2 := by
    rw [star, List.length_cons, List.length_append, List.length_map, List.length_singleton]
  rw [hlength]
  rw [star, sits_cons, sits_append, sits_cons, sits_shift, shift_fork, List.length_map] at h
  obtain ⟨hfork, ha, hjump, -⟩ := h
  rw [Nat.add_comm 1 offset] at hfork ha
  refine ⟨by rw [hfork, Nat.add_comm (a.length + 2)], ha, ?_⟩
  rw [hjump, Inst.shift, Nat.zero_add]

/-- A body that goes down in a well-founded order is left after so many rounds. -/
theorem Denotes.star (ha : Denotes a R) (hwf : WellFounded fun t s => R s t) :
    Denotes (star lazy a) (Relation.ReflTransGen R) := by
  refine ⟨fun program offset h n => ?_, fun program offset h s t hst ht => ?_,
    fun program offset h s => ?_⟩
  · -- by the number of steps: a round takes some
    obtain ⟨hfork, hsa, hjump⟩ := sits_star h
    induction n using Nat.strong_induction_on with
    | _ n ih =>
      intro s hn
      obtain ⟨m, hm, hacc | hacc⟩ := acceptsIn_fork hfork hn
      · obtain ⟨k, hk, u, hu, hacc⟩ := ha.sound _ _ hsa m s hacc
        obtain ⟨l, hl, hacc⟩ := acceptsIn_jump hjump hacc
        obtain ⟨i, hi, t, ht, hacc⟩ := ih l (by omega) u hacc
        exact ⟨i, by omega, t, .head hu ht, hacc⟩
      · exact ⟨m, hm.le, s, .refl, hacc⟩
  · obtain ⟨hfork, hsa, hjump⟩ := sits_star h
    induction hst using Relation.ReflTransGen.head_induction_on with
    | refl => exact (accepts_fork hfork).2 (.inr ht)
    | @head s u hsu _ ih =>
      exact (accepts_fork hfork).2 (.inl (ha.complete _ _ hsa s u hsu ((accepts_jump hjump).2 ih)))
  · obtain ⟨hfork, hsa, hjump⟩ := sits_star h
    induction s using hwf.induction with
    | _ s ih =>
      intro hs
      apply settles_fork hfork
      · refine ha.settles _ _ hsa s fun u hu => settles_jump hjump (ih u hu fun t ht => ?_)
        exact hs t (.head hu ht)
      · exact hs s .refl

theorem sits_plus (h : Sits program (plus lazy a) offset offset) :
    Sits program a offset offset ∧
      program[offset + a.length]? = some (fork lazy offset (offset + (plus lazy a).length)) := by
  have hlength : (plus lazy a).length = a.length + 1 := by
    rw [plus, List.length_append, List.length_singleton]
  rw [hlength]
  rw [plus, sits_append, sits_cons, shift_fork] at h
  obtain ⟨ha, hfork, -⟩ := h
  exact ⟨ha, by rw [hfork, Nat.zero_add, Nat.add_comm (a.length + 1)]⟩

theorem Denotes.plus (ha : Denotes a R) (hwf : WellFounded fun t s => R s t) :
    Denotes (plus lazy a) (Relation.TransGen R) := by
  refine ⟨fun program offset h n => ?_, fun program offset h s t hst ht => ?_,
    fun program offset h s => ?_⟩
  · obtain ⟨hsa, hfork⟩ := sits_plus h
    induction n using Nat.strong_induction_on with
    | _ n ih =>
      intro s hn
      obtain ⟨m, hm, u, hu, hacc⟩ := ha.sound _ _ hsa n s hn
      obtain ⟨k, hk, hacc | hacc⟩ := acceptsIn_fork hfork hacc
      · obtain ⟨i, hi, t, ht, hacc⟩ := ih k (by omega) u hacc
        exact ⟨i, by omega, t, .head hu ht, hacc⟩
      · exact ⟨k, by omega, u, .single hu, hacc⟩
  · obtain ⟨hsa, hfork⟩ := sits_plus h
    induction hst using Relation.TransGen.head_induction_on with
    | @single s hst => exact ha.complete _ _ hsa s t hst ((accepts_fork hfork).2 (.inr ht))
    | @head s u hsu _ ih => exact ha.complete _ _ hsa s u hsu ((accepts_fork hfork).2 (.inl ih))
  · obtain ⟨hsa, hfork⟩ := sits_plus h
    induction s using hwf.induction with
    | _ s ih =>
      intro hs
      refine ha.settles _ _ hsa s fun u hu => settles_fork hfork ?_ (hs u (.single hu))
      exact ih u hu fun t ht => hs t (.head hu ht)

/-! ### Repetitions -/

/-- One state after another, so many times. -/
def times (R : σ → σ → Prop) : ℕ → σ → σ → Prop
  | 0 => Eq
  | n + 1 => Relation.Comp (times R n) R

theorem times_head (n : ℕ) : Relation.Comp R (times R n) = times R (n + 1) := by
  induction n with
  | zero => rw [times, times, times, Relation.comp_eq, Relation.eq_comp]
  | succ n ih =>
    rw [times, ← Relation.comp_assoc, ih]
    rfl

theorem times_add (m n : ℕ) : Relation.Comp (times R m) (times R n) = times R (m + n) := by
  induction n with
  | zero => rw [times, Relation.comp_eq, Nat.add_zero]
  | succ n ih => rw [times, ← Relation.comp_assoc, ih, ← Nat.add_assoc, times]

theorem reflTransGen_iff {s t : σ} : Relation.ReflTransGen R s t ↔ ∃ n, times R n s t := by
  constructor
  · intro h
    induction h with
    | refl => exact ⟨0, rfl⟩
    | tail _ hst ih =>
      obtain ⟨n, hn⟩ := ih
      exact ⟨n + 1, _, hn, hst⟩
  · rintro ⟨n, hn⟩
    induction n generalizing t with
    | zero => exact hn ▸ .refl
    | succ n ih =>
      obtain ⟨u, hu, hut⟩ := hn
      exact (ih hu).tail hut

theorem transGen_iff {s t : σ} : Relation.TransGen R s t ↔ ∃ n, times R (n + 1) s t := by
  rw [Relation.TransGen.tail'_iff]
  simp only [reflTransGen_iff, times, Relation.Comp]
  constructor
  · rintro ⟨u, ⟨n, hn⟩, hut⟩
    exact ⟨n, u, hn, hut⟩
  · rintro ⟨n, u, hn, hut⟩
    exact ⟨u, ⟨n, hn⟩, hut⟩

/-! ### A whole program -/

/-- The code of a program that accepts where the code is left. -/
theorem Denotes.accepts (h : Denotes code R) (s : σ) :
    (Accepts (turn (code ++ [.accept])) (0, s) ↔ ∃ t, R s t) ∧
      Settles (turn (code ++ [.accept])) (0, s) := by
  have hsits := sits_start code [Inst.accept]
  have haccept : ∀ t, turn (code ++ [.accept]) (0 + code.length, t) = .accept := by
    intro t
    rw [turn, Nat.zero_add, List.getElem?_append_right le_rfl, Nat.sub_self]
    rfl
  refine ⟨⟨?_, ?_⟩, h.settles _ _ hsits s fun t _ => .accept (haccept t)⟩
  · rintro ⟨n, hn⟩
    obtain ⟨m, -, t, ht, -⟩ := h.sound _ _ hsits n s hn
    exact ⟨t, ht⟩
  · rintro ⟨t, ht⟩
    exact h.complete _ _ hsits s t ht ⟨0, .here (haccept t)⟩

end FilamentCore.Library.Fragments
