import FilamentCore.Library.Fragments
import FilamentCore.Library.Succeeding

/-!
# Matcher programs (src/compiler/backends/rust-serde/patterns.mjs)

A pattern's tree is lowered to a program, which `runProgram` and the generated `run_matcher`
(src/compiler/backends/rust-serde/support-template.rs) run alike over the UTF-16 code units of a
subject. The verdict of a run that is not cut off is that of the tree.
-/

namespace FilamentCore.Backends.Patterns

open Library Library.Backtracking
open Library.Fragments (Denotes times times_head times_add denotes_nil denotes_act reflTransGen_iff
  transGen_iff)
open Library.Succeeding (bind_ok)

/-! ### Trees and programs -/

/-- A tree of the subset. A count is `none` where it is `Infinity`. -/
inductive Node where
  | char (unit : ℕ)
  | dot
  | cls (negated : Bool) (ranges : List (ℕ × ℕ))
  | bol
  | eol
  | seq (terms : List Node)
  | alt (alternatives : List Node)
  | repeated (atom : Node) (min max : Option ℕ) (lazy : Bool)

inductive Inst where
  | char (unit : ℕ)
  | any
  | cls (negated : Bool) (ranges : List (ℕ × ℕ))
  | bol
  | eol
  | split (x y : ℕ)
  | jump (x : ℕ)
  | match'
  deriving DecidableEq

/-- What the lowering throws: a refusal that names the construct, or an error of the host. -/
inductive Failure where
  | unsupported (construct : String) (offset : ℕ)
  | typeError
  deriving DecidableEq

mutual

def matchesEmpty : Node → Bool
  | .char _ | .dot | .cls _ _ => false
  | .bol | .eol => true
  | .seq terms => matchEmpty terms
  | .alt alternatives => someMatchesEmpty alternatives
  | .repeated atom min _ _ => min == some 0 || matchesEmpty atom

def matchEmpty : List Node → Bool
  | [] => true
  | term :: terms => matchesEmpty term && matchEmpty terms

def someMatchesEmpty : List Node → Bool
  | [] => false
  | branch :: branches => matchesEmpty branch || someMatchesEmpty branches

end

/-! ### The lowering -/

/-- `MAX_PROGRAM_LENGTH`. -/
def maxProgramLength : ℕ := 200000

/-- `shift`. -/
def Inst.shift (delta : ℕ) : Inst → Inst
  | .jump x => .jump (x + delta)
  | .split x y => .split (x + delta) (y + delta)
  | inst => inst

def shift (fragment : List Inst) (delta : ℕ) : List Inst := fragment.map (Inst.shift delta)

def tooLong : Failure :=
  .unsupported "a lowering longer than the declared 200000-instruction bound" 0

def guard (fragment : List Inst) : Except Failure (List Inst) :=
  if maxProgramLength < fragment.length then .error tooLong else .ok fragment

def star (body : List Inst) (lazy : Bool) : List Inst :=
  (if lazy then .split (1 + body.length + 1) 1 else .split 1 (1 + body.length + 1)) ::
    (shift body 1 ++ [.jump 0])

def plus (body : List Inst) (lazy : Bool) : List Inst :=
  body ++ [if lazy then .split (body.length + 1) 0 else .split 0 (body.length + 1)]

def opt (body : List Inst) (lazy : Bool) : List Inst :=
  (if lazy then .split (1 + body.length) 1 else .split 1 (1 + body.length)) :: shift body 1

def alternation (left right : List Inst) : List Inst :=
  .split 1 (1 + left.length + 1) :: (shift left 1 ++
    .jump (1 + left.length + 1 + right.length) :: shift right (1 + left.length + 1))

/-- `guard(out.concat(shift(code, out.length)))`. -/
def concat (out code : List Inst) : Except Failure (List Inst) :=
  guard (out ++ shift code out.length)

def copies (body : List Inst) : ℕ → List Inst → Except Failure (List Inst)
  | 0, out => .ok out
  | n + 1, out => do copies body n (← concat out body)

def optionals (body : List Inst) (lazy : Bool) : ℕ → List Inst → Except Failure (List Inst)
  | 0, inner => .ok inner
  | n + 1, inner => do
    optionals body lazy n (← guard (opt (body ++ shift inner body.length) lazy))

def compileRepeat (body : List Inst) (min max : Option ℕ) (lazy : Bool) :
    Except Failure (List Inst) :=
  match min with
  -- a loop without an end, up to the guard
  | none => .error tooLong
  | some least =>
    match max with
    | none =>
      match least with
      | 0 => .ok (star body lazy)
      | n + 1 => do concat (← copies body n []) (plus body lazy)
    | some most => do
      let out ← copies body least []
      concat out (← optionals body lazy (most - least) [])

mutual

def compile : Node → Except Failure (List Inst)
  | .char unit => .ok [.char unit]
  | .dot => .ok [.any]
  | .cls negated ranges => .ok [.cls negated ranges]
  | .bol => .ok [.bol]
  | .eol => .ok [.eol]
  | .seq terms => compileTerms [] terms
  | .alt alternatives => compileAlternatives alternatives
  | .repeated atom min max lazy => do guard (← compileRepeat (← compile atom) min max lazy)

def compileTerms (out : List Inst) : List Node → Except Failure (List Inst)
  | [] => .ok out
  | term :: terms => do compileTerms (← concat out (← compile term)) terms

def compileAlternatives : List Node → Except Failure (List Inst)
  | [] => .error .typeError
  | [head] => do
    let _ ← compile head
    .error .typeError
  | [head, last] => do
    let left ← compile head
    guard (alternation left (← compile last))
  | head :: rest => do
    let left ← compile head
    guard (alternation left (← compileAlternatives rest))

end

/-! ### The run -/

def lineTerminators : List ℕ := [0x000a, 0x000d, 0x2028, 0x2029]

def inside (ranges : List (ℕ × ℕ)) (unit : ℕ) : Bool :=
  ranges.any fun range => decide (range.1 ≤ unit) && decide (unit ≤ range.2)

variable (units : List ℕ)

def consume (pc place : ℕ) (admits : ℕ → Bool) : Turn (ℕ × ℕ) :=
  match units[place]? with
  | some unit => .follow (if admits unit then [(pc + 1, place + 1)] else [])
  | none => .follow []

/-- The frames that a frame pushes, the last one pushed first. -/
def turn (program : List Inst) (frame : ℕ × ℕ) : Turn (ℕ × ℕ) :=
  let (pc, place) := frame
  match program[pc]? with
  | none => .stuck
  | some .match' => .accept
  | some (.char unit) => consume units pc place fun c => c == unit
  | some .any => consume units pc place fun c => !lineTerminators.contains c
  | some (.cls negated ranges) => consume units pc place fun c => inside ranges c != negated
  | some .bol => .follow (if place = 0 then [(pc + 1, place)] else [])
  | some .eol => .follow (if place = units.length then [(pc + 1, place)] else [])
  | some (.split x y) => .follow [(x, place), (y, place)]
  | some (.jump x) => .follow [(x, place)]

def runFrom (program : List Inst) : ℕ → List ℕ → Ending
  | left, [] => .exhausted left
  | left, start :: starts =>
    (search (turn units program) left [(0, start)]).andThen fun left => runFrom program left starts

/-- `runProgram`, with so many steps. -/
def runProgram (program : List Inst) (stepBound : ℕ) : Ending :=
  runFrom units program stepBound (List.range (units.length + 1))

/-! ### What a tree reads -/

/-- One code unit of a class. -/
def One (admits : ℕ → Bool) (i j : ℕ) : Prop :=
  ∃ unit, units[i]? = some unit ∧ admits unit = true ∧ j = i + 1

mutual

/-- The tree reads the units from a place up to another one. -/
def Node.Reads : Node → ℕ → ℕ → Prop
  | .char unit => One units fun c => c == unit
  | .dot => One units fun c => !lineTerminators.contains c
  | .cls negated ranges => One units fun c => inside ranges c != negated
  | .bol => fun i j => i = j ∧ i = 0
  | .eol => fun i j => i = j ∧ i = units.length
  | .seq terms => ReadsAll terms
  | .alt alternatives => ReadsSome alternatives
  | .repeated atom min max _ => fun i j =>
    ∃ n, (∃ least, min = some least ∧ least ≤ n) ∧ (∀ most, max = some most → n ≤ most) ∧
      times atom.Reads n i j

def ReadsAll : List Node → ℕ → ℕ → Prop
  | [] => Eq
  | term :: terms => Relation.Comp term.Reads (ReadsAll terms)

def ReadsSome : List Node → ℕ → ℕ → Prop
  | [] => fun _ _ => False
  | branch :: branches => fun i j => branch.Reads i j ∨ ReadsSome branches i j

end

def Node.Matches (node : Node) : Prop := ∃ i ≤ units.length, ∃ j, node.Reads units i j

mutual

/-- What the parser grants: a repetition without an end has a body that reads something, and a
choice has at least two branches. -/
def Node.WellFormed : Node → Prop
  | .seq terms => AllWellFormed terms
  | .alt alternatives => 2 ≤ alternatives.length ∧ AllWellFormed alternatives
  | .repeated atom min max _ => atom.WellFormed ∧ (max = none → matchesEmpty atom = false) ∧
      ∀ most, max = some most → ∃ least, min = some least ∧ least ≤ most
  | _ => True

def AllWellFormed : List Node → Prop
  | [] => True
  | node :: nodes => node.WellFormed ∧ AllWellFormed nodes

end

/-! ### Progress -/

/-- What is read lies within the units, and is not empty unless `empty` says so. -/
structure Advances (empty : Bool) (i j : ℕ) : Prop where
  le : i ≤ j
  inside : i < j → j ≤ units.length
  strict : empty = false → i < j

variable {units} {i j k : ℕ}

theorem Advances.trans {a b : Bool} (h : Advances units a i k) (h' : Advances units b k j) :
    Advances units (a && b) i j := by
  have hle := h.le
  have hle' := h'.le
  refine ⟨hle.trans hle', fun hlt => ?_, fun hempty => ?_⟩
  · rcases hle'.lt_or_eq with hkj | rfl
    · exact h'.inside hkj
    · exact h.inside hlt
  · rcases Bool.and_eq_false_iff.1 hempty with ha | hb
    · have hlt := h.strict ha
      omega
    · have hlt := h'.strict hb
      omega

theorem Advances.mono {a b : Bool} (h : Advances units a i j) (hab : b = false → a = false) :
    Advances units b i j :=
  ⟨h.le, h.inside, fun hb => h.strict (hab hb)⟩

theorem One.advances {admits : ℕ → Bool} (h : One units admits i j) : Advances units false i j := by
  obtain ⟨unit, hunit, -, rfl⟩ := h
  have hlt := (List.getElem?_eq_some_iff.1 hunit).1
  exact ⟨by omega, fun _ => hlt, fun _ => by omega⟩

theorem times_advances {R : ℕ → ℕ → Prop} {empty : Bool}
    (h : ∀ i j, R i j → Advances units empty i j) (n : ℕ) (hn : times R n i j) :
    Advances units (n == 0 || empty) i j := by
  induction n generalizing j with
  | zero =>
    obtain rfl : i = j := hn
    exact ⟨le_rfl, fun hlt => absurd hlt (lt_irrefl _), fun hfalse => by cases hfalse⟩
  | succ n ih =>
    obtain ⟨k, hk, hkj⟩ := hn
    exact ((ih hk).trans (h k j hkj)).mono fun hempty => by simp at hempty; simp [hempty]

mutual

theorem reads_advances : (node : Node) → ∀ i j, node.Reads units i j →
    Advances units (matchesEmpty node) i j
  | .char _, _, _, h => One.advances h
  | .dot, _, _, h => One.advances h
  | .cls _ _, _, _, h => One.advances h
  | .bol, i, _, ⟨rfl, _⟩ => ⟨le_rfl, fun h => absurd h (lt_irrefl i), fun h => by cases h⟩
  | .eol, i, _, ⟨rfl, _⟩ => ⟨le_rfl, fun h => absurd h (lt_irrefl i), fun h => by cases h⟩
  | .seq terms, i, j, h => readsAll_advances terms i j h
  | .alt alternatives, i, j, h => readsSome_advances alternatives i j h
  | .repeated atom min max _, i, j, h => by
    obtain ⟨n, ⟨least, hmin, hleast⟩, -, hn⟩ := h
    refine (times_advances (reads_advances atom) n hn).mono fun hempty => ?_
    rw [matchesEmpty, Bool.or_eq_false_iff, hmin] at hempty
    have hne : least ≠ 0 := by
      rintro rfl
      cases hempty.1
    rw [hempty.2, Bool.or_false, beq_eq_false_iff_ne]
    omega

theorem readsAll_advances : (terms : List Node) → ∀ i j, ReadsAll units terms i j →
    Advances units (matchEmpty terms) i j
  | [], i, _, rfl => ⟨le_rfl, fun h => absurd h (lt_irrefl i), fun h => by cases h⟩
  | term :: terms, i, j, ⟨k, hk, hkj⟩ =>
    (reads_advances term i k hk).trans (readsAll_advances terms k j hkj)

theorem readsSome_advances : (branches : List Node) → ∀ i j, ReadsSome units branches i j →
    Advances units (someMatchesEmpty branches) i j
  | branch :: branches, i, j, h => by
    rw [someMatchesEmpty]
    rcases h with h | h
    · exact (reads_advances branch i j h).mono fun hempty => (Bool.or_eq_false_iff.1 hempty).1
    · exact (readsSome_advances branches i j h).mono fun hempty =>
        (Bool.or_eq_false_iff.1 hempty).2

end

theorem wellFounded_reads {node : Node} (h : matchesEmpty node = false) :
    WellFounded fun j i => node.Reads units i j := by
  refine Subrelation.wf (fun {j i} hread => ?_) (measure fun i => units.length - i).wf
  have hadv := reads_advances node i j hread
  have hlt := hadv.strict h
  have hle := hadv.inside hlt
  show units.length - j < units.length - i
  omega

/-! ### Instructions as actions -/

variable (units) in
def act (admits : ℕ → Bool) : Fragments.Inst ℕ :=
  .act fun place => (units[place]?).bind fun unit => if admits unit then some (place + 1) else none

variable (units) in
/-- The instruction as one of a program over the places of the subject. -/
def Inst.meaning : Inst → Fragments.Inst ℕ
  | .char unit => act units fun c => c == unit
  | .any => act units fun c => !lineTerminators.contains c
  | .cls negated ranges => act units fun c => inside ranges c != negated
  | .bol => .act fun place => if place = 0 then some place else none
  | .eol => .act fun place => if place = units.length then some place else none
  | .split x y => .split x y
  | .jump x => .jump x
  | .match' => .accept

theorem meaning_shift (delta : ℕ) (inst : Inst) :
    (inst.shift delta).meaning units = (inst.meaning units).shift delta := by
  cases inst <;> rfl

variable (units) in
/-- A fragment as one over the places of the subject. -/
def meanings (code : List Inst) : List (Fragments.Inst ℕ) := code.map (Inst.meaning units)

@[simp] theorem meanings_nil : meanings units [] = [] := rfl

@[simp] theorem meanings_cons (inst : Inst) (code : List Inst) :
    meanings units (inst :: code) = inst.meaning units :: meanings units code := rfl

@[simp] theorem meanings_append (a b : List Inst) :
    meanings units (a ++ b) = meanings units a ++ meanings units b := List.map_append

@[simp] theorem length_meanings (code : List Inst) : (meanings units code).length = code.length :=
  List.length_map _

@[simp] theorem meanings_shift (code : List Inst) (delta : ℕ) :
    meanings units (shift code delta) =
      (meanings units code).map (Fragments.Inst.shift delta) := by
  simp only [meanings, shift, List.map_map, Function.comp_def, meaning_shift]

theorem consume_eq (program : List (Fragments.Inst ℕ)) (pc place : ℕ) (admits : ℕ → Bool)
    (h : program[pc]? = some (act units admits)) :
    consume units pc place admits = Fragments.turn program (pc, place) := by
  rw [Fragments.turn, h, consume, act]
  dsimp only
  cases units[place]? with
  | none => rfl
  | some unit =>
    rw [Option.bind_some]
    by_cases hunit : admits unit = true
    · simp only [hunit, if_true, Option.toList_some, List.map_singleton]
    · simp only [hunit, Bool.false_eq_true, if_false, Option.toList_none, List.map_nil]

theorem turn_eq (program : List Inst) :
    turn units program = Fragments.turn (meanings units program) := by
  funext ⟨pc, place⟩
  have hmap : (meanings units program)[pc]? = (program[pc]?).map (Inst.meaning units) :=
    List.getElem?_map ..
  rw [turn]
  cases hinst : program[pc]? with
  | none =>
    rw [Fragments.turn, hmap, hinst]
    rfl
  | some inst =>
    rw [hinst, Option.map_some] at hmap
    cases inst with
    | char unit => exact consume_eq _ pc place _ hmap
    | any => exact consume_eq _ pc place _ hmap
    | cls negated ranges => exact consume_eq _ pc place _ hmap
    | bol =>
      rw [Fragments.turn, hmap]
      by_cases h : place = 0
      · simp [Inst.meaning, h]
      · simp [Inst.meaning, h]
    | eol =>
      rw [Fragments.turn, hmap]
      by_cases h : place = units.length
      · simp [Inst.meaning, h]
      · simp [Inst.meaning, h]
    | split x y =>
      rw [Fragments.turn, hmap]
      rfl
    | jump x =>
      rw [Fragments.turn, hmap]
      rfl
    | match' =>
      rw [Fragments.turn, hmap]
      rfl

theorem meanings_alternation (a b : List Inst) : meanings units (alternation a b) =
    Fragments.alternation (meanings units a) (meanings units b) := by
  simp [alternation, Fragments.alternation, Inst.meaning, Nat.add_comm, Nat.add_left_comm]

theorem meanings_opt (body : List Inst) (lazy : Bool) : meanings units (opt body lazy) =
    Fragments.optional lazy (meanings units body) := by
  cases lazy <;> simp [opt, Fragments.optional, Fragments.fork, Inst.meaning,
    Nat.add_comm]

theorem meanings_star (body : List Inst) (lazy : Bool) : meanings units (star body lazy) =
    Fragments.star lazy (meanings units body) := by
  cases lazy <;> simp [star, Fragments.star, Fragments.fork, Inst.meaning,
    Nat.add_comm, Nat.add_left_comm]

theorem meanings_plus (body : List Inst) (lazy : Bool) : meanings units (plus body lazy) =
    Fragments.plus lazy (meanings units body) := by
  cases lazy <;> simp [plus, Fragments.plus, Fragments.fork, Inst.meaning]

/-! ### What the lowering denotes -/

variable (units) in
def Lowered (code : List Inst) (R : ℕ → ℕ → Prop) : Prop := Denotes (meanings units code) R

variable {R S : ℕ → ℕ → Prop} {code out body : List Inst} {lazy : Bool}

theorem guard_ok {fragment : List Inst} (h : guard fragment = .ok code) : code = fragment := by
  unfold guard at h
  split at h
  · cases h
  · exact (Except.ok.inj h).symm

theorem lowered_act (inst : Inst) (admits : ℕ → Bool) (h : inst.meaning units = act units admits) :
    Lowered units [inst] (One units admits) := by
  rw [Lowered, meanings, List.map_singleton, h]
  refine (denotes_act _).congr fun i j => ?_
  simp only [One, Option.bind_eq_some_iff, Option.ite_none_right_eq_some, Option.some.injEq,
    @eq_comm _ j]

theorem lowered_assertion {holds : ℕ → Prop} [DecidablePred holds] (inst : Inst)
    (h : inst.meaning units = .act fun place => if holds place then some place else none) :
    Lowered units [inst] fun i j => i = j ∧ holds i := by
  rw [Lowered, meanings, List.map_singleton, h]
  refine (denotes_act _).congr fun i j => ?_
  simp only [Option.ite_none_right_eq_some, Option.some.injEq, and_comm]

theorem lowered_concat (h : concat out code = .ok body) (hout : Lowered units out R)
    (hcode : Lowered units code S) : Lowered units body (Relation.Comp R S) := by
  rw [guard_ok h, Lowered, meanings_append, meanings_shift, ← @length_meanings units]
  exact Denotes.append hout hcode

theorem lowered_copies (hbody : Lowered units body R) (n : ℕ) (h : copies body n out = .ok code)
    (hout : Lowered units out S) : Lowered units code (Relation.Comp S (times R n)) := by
  induction n generalizing out S with
  | zero =>
    cases h
    rwa [times, Relation.comp_eq]
  | succ n ih =>
    obtain ⟨next, hnext, h⟩ := bind_ok.1 h
    have hcode := ih h (lowered_concat hnext hout hbody)
    rwa [Relation.comp_assoc, times_head] at hcode

/-- At most so many times. -/
def upTo (R : ℕ → ℕ → Prop) (n : ℕ) (i j : ℕ) : Prop := ∃ k ≤ n, times R k i j

theorem upTo_succ (n i j : ℕ) :
    i = j ∨ Relation.Comp R (upTo R n) i j ↔ upTo R (n + 1) i j := by
  constructor
  · rintro (rfl | ⟨k, hk, l, hl, hj⟩)
    · exact ⟨0, by omega, rfl⟩
    · refine ⟨l + 1, by omega, ?_⟩
      rw [← times_head]
      exact ⟨k, hk, hj⟩
  · rintro ⟨k, hk, hj⟩
    cases k with
    | zero => exact .inl hj
    | succ k =>
      rw [← times_head] at hj
      obtain ⟨l, hl, hj⟩ := hj
      exact .inr ⟨l, hl, k, by omega, hj⟩

theorem lowered_optionals (hbody : Lowered units body R) (n m : ℕ) {inner : List Inst}
    (h : optionals body lazy n inner = .ok code) (hinner : Lowered units inner (upTo R m)) :
    Lowered units code (upTo R (m + n)) := by
  induction n generalizing inner m with
  | zero =>
    cases h
    exact hinner
  | succ n ih =>
    obtain ⟨next, hnext, h⟩ := bind_ok.1 h
    rw [← Nat.add_assoc, Nat.add_right_comm]
    apply ih (m + 1) h
    rw [guard_ok hnext, Lowered, meanings_opt, meanings_append, meanings_shift,
      ← @length_meanings units]
    exact (Denotes.append hbody hinner).optional.congr (upTo_succ m)

/-- The counted readings of a body. -/
def Counted (min max : Option ℕ) (R : ℕ → ℕ → Prop) (i j : ℕ) : Prop :=
  ∃ n, (∃ least, min = some least ∧ least ≤ n) ∧ (∀ most, max = some most → n ≤ most) ∧
    times R n i j

theorem lowered_repeat {min max : Option ℕ} (hbody : Lowered units body R)
    (hwf : max = none → WellFounded fun j i => R i j)
    (hle : ∀ most, max = some most → ∃ least, min = some least ∧ least ≤ most)
    (h : compileRepeat body min max lazy = .ok code) : Lowered units code (Counted min max R) := by
  cases min with
  | none => cases h
  | some least =>
    cases max with
    | none =>
      have hwf := hwf rfl
      cases least with
      | zero =>
        cases h
        rw [Lowered, meanings_star]
        refine (Denotes.star hbody hwf).congr fun i j => ?_
        simp [Counted, reflTransGen_iff]
      | succ least =>
        obtain ⟨first, hfirst, h⟩ := bind_ok.1 h
        have hcopies := lowered_copies hbody least hfirst denotes_nil
        have hplus : Lowered units (plus body lazy) (Relation.TransGen R) := by
          rw [Lowered, meanings_plus]
          exact Denotes.plus hbody hwf
        rw [Relation.eq_comp] at hcopies
        refine (lowered_concat h hcopies hplus).congr fun i j => ?_
        constructor
        · rintro ⟨k, hk, hj⟩
          obtain ⟨n, hn⟩ := transGen_iff.1 hj
          refine ⟨least + (n + 1), ⟨_, rfl, by omega⟩, by simp, ?_⟩
          rw [← times_add]
          exact ⟨k, hk, hn⟩
        · rintro ⟨n, ⟨_, heq, hn⟩, -, hj⟩
          obtain rfl := Option.some.inj heq
          obtain ⟨m, rfl⟩ := Nat.exists_eq_add_of_le hn
          rw [Nat.add_assoc, Nat.add_comm 1, ← times_add] at hj
          obtain ⟨k, hk, hj⟩ := hj
          exact ⟨k, hk, transGen_iff.2 ⟨m, hj⟩⟩
    | some most =>
      have hle : least ≤ most := by
        obtain ⟨_, heq, hle⟩ := hle most rfl
        rwa [Option.some.inj heq]
      obtain ⟨first, hfirst, h⟩ := bind_ok.1 h
      obtain ⟨last, hlast, h⟩ := bind_ok.1 h
      have hcopies := lowered_copies hbody least hfirst denotes_nil
      have hopt : Lowered units last (upTo R (0 + (most - least))) := by
        apply lowered_optionals hbody _ 0 hlast
        refine denotes_nil.congr fun i j => ?_
        simp [upTo, times]
      rw [Relation.eq_comp] at hcopies
      refine (lowered_concat h hcopies hopt).congr fun i j => ?_
      constructor
      · rintro ⟨k, hk, n, hn, hj⟩
        refine ⟨least + n, ⟨_, rfl, by omega⟩, fun m hm => ?_, ?_⟩
        · obtain rfl := Option.some.inj hm
          omega
        · rw [← times_add]
          exact ⟨k, hk, hj⟩
      · rintro ⟨n, ⟨_, heq, hn⟩, hmost, hj⟩
        obtain rfl := Option.some.inj heq
        have hmost := hmost most rfl
        obtain ⟨m, rfl⟩ := Nat.exists_eq_add_of_le hn
        rw [← times_add] at hj
        obtain ⟨k, hk, hj⟩ := hj
        exact ⟨k, hk, m, by omega, hj⟩

mutual

theorem lowered_compile : (node : Node) → node.WellFormed → ∀ code, compile node = .ok code →
    Lowered units code (node.Reads units)
  | .char _, _, _, h => by cases h; exact lowered_act _ _ rfl
  | .dot, _, _, h => by cases h; exact lowered_act _ _ rfl
  | .cls _ _, _, _, h => by cases h; exact lowered_act _ _ rfl
  | .bol, _, _, h => by cases h; exact lowered_assertion _ rfl
  | .eol, _, _, h => by cases h; exact lowered_assertion _ rfl
  | .seq terms, hwf, code, h => by
    have hterms := lowered_terms terms hwf [] code Eq h denotes_nil
    rwa [Relation.eq_comp] at hterms
  | .alt alternatives, hwf, code, h => lowered_alternatives alternatives hwf.2 code h
  | .repeated atom min max lazy, hwf, code, h => by
    obtain ⟨body, hbody, h⟩ := bind_ok.1 h
    obtain ⟨fragment, hfragment, h⟩ := bind_ok.1 h
    rw [guard_ok h]
    exact lowered_repeat (lowered_compile atom hwf.1 body hbody)
      (fun hmax => wellFounded_reads (hwf.2.1 hmax)) hwf.2.2 hfragment

theorem lowered_terms : (terms : List Node) → AllWellFormed terms → ∀ out code R,
    compileTerms out terms = .ok code → Lowered units out R →
    Lowered units code (Relation.Comp R (ReadsAll units terms))
  | [], _, out, code, R, h, hout => by
    cases h
    rwa [ReadsAll, Relation.comp_eq]
  | term :: terms, hwf, out, code, R, h, hout => by
    obtain ⟨body, hbody, h⟩ := bind_ok.1 h
    obtain ⟨next, hnext, h⟩ := bind_ok.1 h
    have hterm := lowered_compile term hwf.1 body hbody
    have hterms := lowered_terms terms hwf.2 next code _ h (lowered_concat hnext hout hterm)
    rwa [Relation.comp_assoc] at hterms

theorem lowered_alternatives : (branches : List Node) → AllWellFormed branches → ∀ code,
    compileAlternatives branches = .ok code → Lowered units code (ReadsSome units branches)
  | [], _, _, h => by cases h
  | [head], _, _, h => by
    obtain ⟨left, -, h⟩ := bind_ok.1 h
    cases h
  | [head, last], hwf, code, h => by
    obtain ⟨left, hleft, h⟩ := bind_ok.1 h
    obtain ⟨right, hright, h⟩ := bind_ok.1 h
    rw [guard_ok h, Lowered, meanings_alternation]
    refine (Denotes.alternation (lowered_compile head hwf.1 left hleft)
      (lowered_compile last hwf.2.1 right hright)).congr fun i j => ?_
    simp [ReadsSome]
  | head :: second :: third :: rest, hwf, code, h => by
    obtain ⟨left, hleft, h⟩ := bind_ok.1 h
    obtain ⟨right, hright, h⟩ := bind_ok.1 h
    rw [guard_ok h, Lowered, meanings_alternation]
    exact Denotes.alternation (lowered_compile head hwf.1 left hleft)
      (lowered_alternatives (second :: third :: rest) hwf.2 right hright)

end

/-! ### The verdict of a run -/

theorem runFrom_eq (program : List Inst) (left : ℕ) (starts : List ℕ) :
    runFrom units program left starts =
      search (turn units program) left (starts.map fun start => (0, start)) := by
  induction starts generalizing left with
  | nil => rw [runFrom, List.map_nil, search_nil]
  | cons start starts ih =>
    have happend := @search_append _ (turn units program) left [(0, start)]
      (starts.map fun start => (0, start))
    rw [List.singleton_append] at happend
    rw [runFrom, List.map_cons, happend]
    simp only [ih]

variable (units) in
/-- What a run says of the subject. -/
structure Decides (node : Node) (program : List Inst) : Prop where
  matched : ∀ bound, runProgram units program bound = .accepted → node.Matches units
  rejected : ∀ bound left, runProgram units program bound = .exhausted left → ¬ node.Matches units
  defined : ∀ bound, runProgram units program bound ≠ .stuck
  enough : ∃ steps, ∀ bound, steps ≤ bound → runProgram units program bound ≠ .bounded

/-- The program of a tree that the parser makes runs to the verdict of the tree, on every subject,
unless it is cut off; and it is not cut off at any bound from some number of steps on. -/
theorem compile_decides {node : Node} (hwf : node.WellFormed) (h : compile node = .ok code)
    (units : List ℕ) : Decides units node (code ++ [.match']) := by
  have hprogram := (@lowered_compile units node hwf code h).accepts
  have hturn : turn units (code ++ [.match']) =
      Fragments.turn (meanings units code ++ [.accept]) := by
    rw [turn_eq, meanings_append]
    rfl
  rw [← hturn] at hprogram
  have hsettles : ∀ frame ∈ (List.range (units.length + 1)).map fun start => (0, start),
      Settles (turn units (code ++ [.match'])) frame := by
    intro frame hframe
    obtain ⟨start, -, rfl⟩ := List.mem_map.1 hframe
    exact (hprogram start).2
  have hmatches : (∃ frame ∈ (List.range (units.length + 1)).map fun start => (0, start),
      Accepts (turn units (code ++ [.match'])) frame) ↔
        node.Matches units := by
    simp only [List.mem_map, exists_exists_and_eq_and, List.mem_range, Node.Matches,
      (hprogram _).1, Nat.lt_succ_iff]
  have hrun : ∀ bound, runProgram units (code ++ [.match']) bound =
      search (turn units (code ++ [.match'])) bound _ := fun bound => runFrom_eq _ bound _
  refine ⟨fun bound hb => ?_, fun bound left hb => ?_, fun bound => ?_, ?_⟩
  · rw [hrun] at hb
    exact hmatches.1 (search_accepted bound hb)
  · rw [hrun] at hb
    rw [← hmatches]
    rintro ⟨frame, hframe, hacc⟩
    exact search_exhausted bound hb frame hframe hacc
  · rw [hrun]
    exact search_ne_stuck bound hsettles
  · obtain ⟨steps, hsteps⟩ := search_settles hsettles
    refine ⟨steps, fun bound hbound hb => ?_⟩
    rw [hrun] at hb
    rcases hsteps bound hbound with ⟨hacc, -⟩ | ⟨⟨l, hl⟩, -⟩
    · rw [hb] at hacc
      cases hacc
    · rw [hb] at hl
      cases hl

end FilamentCore.Backends.Patterns
