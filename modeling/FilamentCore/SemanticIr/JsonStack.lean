import FilamentCore.SemanticIr.Json

/-!
# Walks over an explicit stack (crates/semantic-ir/src/json.rs)

`Clone` and `PartialEq` of a value, as loops over a stack on the heap.
-/

namespace FilamentCore.SemanticIr.Json

mutual

def nodes : Json → ℕ
  | null => 1
  | bool _ => 1
  | number _ => 1
  | str _ => 1
  | array items => nodesItems items + 1
  | object members => nodesMembers members + 1

def nodesItems : List Json → ℕ
  | [] => 0
  | a :: as => nodes a + nodesItems as

def nodesMembers : List (String × Json) → ℕ
  | [] => 0
  | a :: as => nodesMember a + nodesMembers as

def nodesMember : String × Json → ℕ
  | (_, a) => nodes a

end

/-! ### `Clone` -/

inductive Frame
  | enter (node : Json)
  | array (length : ℕ)
  | object (members : List (String × Json))

/-- `done.split_off(done.len() - length)`, none where the subtraction overflows. -/
def splitOff (done : List Json) (length : ℕ) : Option (List Json × List Json) :=
  if length ≤ done.length then
    some (done.take (done.length - length), done.drop (done.length - length))
  else none

/-- One frame of the loop. The top of `work` comes first, that of `done` last. -/
def cloneStep : Frame → List Frame → List Json → Option (List Frame × List Json)
  | .enter null, work, done => some (work, done ++ [null])
  | .enter (bool value), work, done => some (work, done ++ [bool value])
  | .enter (number lexeme), work, done => some (work, done ++ [number lexeme])
  | .enter (str text), work, done => some (work, done ++ [str text])
  | .enter (array items), work, done =>
    some (items.map Frame.enter ++ Frame.array items.length :: work, done)
  | .enter (object members), work, done =>
    some (members.map (fun member => Frame.enter member.2) ++ Frame.object members :: work, done)
  | .array length, work, done =>
    (splitOff done length).map fun split => (work, split.1 ++ [array split.2])
  | .object members, work, done =>
    (splitOff done members.length).map fun split =>
      (work, split.1 ++ [object ((members.zip split.2).map fun pair => (pair.1.1, pair.2))])

/-- The steps a frame still costs. -/
def Frame.weight : Frame → ℕ
  | .enter node => 2 * nodes node
  | .array _ => 1
  | .object _ => 1

def weights (work : List Frame) : ℕ := (work.map Frame.weight).sum

theorem weights_cons (frame : Frame) (work : List Frame) :
    weights (frame :: work) = frame.weight + weights work := by
  rw [weights, List.map_cons, List.sum_cons, weights]

theorem weights_items (items : List Json) (work : List Frame) :
    weights (items.map Frame.enter ++ work) = 2 * nodesItems items + weights work := by
  induction items with
  | nil => rw [nodesItems, Nat.mul_zero, Nat.zero_add]; rfl
  | cons a as ih =>
    rw [List.map_cons, List.cons_append, weights_cons, ih, nodesItems, Frame.weight]
    omega

theorem weights_members (members : List (String × Json)) (work : List Frame) :
    weights (members.map (fun member => Frame.enter member.2) ++ work) =
      2 * nodesMembers members + weights work := by
  induction members with
  | nil => rw [nodesMembers, Nat.mul_zero, Nat.zero_add]; rfl
  | cons a as ih =>
    rw [List.map_cons, List.cons_append, weights_cons, ih, nodesMembers, Frame.weight]
    obtain ⟨name, value⟩ := a
    rw [nodesMember]
    dsimp only
    omega

theorem cloneStep_lt {frame : Frame} {work : List Frame} {done : List Json}
    {next : List Frame × List Json} (h : cloneStep frame work done = some next) :
    weights next.1 < weights (frame :: work) := by
  rw [weights_cons]
  cases frame with
  | enter node =>
    cases node with
    | array items =>
      obtain rfl := Option.some.inj h
      rw [weights_items, weights_cons, Frame.weight, Frame.weight, nodes]
      omega
    | object members =>
      obtain rfl := Option.some.inj h
      rw [weights_members, weights_cons, Frame.weight, Frame.weight, nodes]
      omega
    | _ =>
      obtain rfl := Option.some.inj h
      simp only [Frame.weight, nodes]
      omega
  | array length =>
    obtain ⟨split, _, rfl⟩ := Option.map_eq_some_iff.1 h
    exact Nat.lt_add_of_pos_left Nat.one_pos
  | object members =>
    obtain ⟨split, _, rfl⟩ := Option.map_eq_some_iff.1 h
    exact Nat.lt_add_of_pos_left Nat.one_pos

/-- `while let Some(frame) = work.pop()`. -/
def cloneLoop : List Frame → List Json → Option (List Json)
  | [], done => some done
  | frame :: work, done =>
    match _h : cloneStep frame work done with
    | none => none
    | some next => cloneLoop next.1 next.2
termination_by work => weights work
decreasing_by exact cloneStep_lt _h

def clone (value : Json) : Option Json :=
  (cloneLoop [.enter value] []).map fun done => done.getLast?.getD null

theorem cloneLoop_cons (frame : Frame) (work : List Frame) (done : List Json) :
    cloneLoop (frame :: work) done =
      (cloneStep frame work done).bind fun next => cloneLoop next.1 next.2 := by
  rw [cloneLoop]
  split
  · rename_i h
    rw [h]
    rfl
  · rename_i next h
    rw [h]
    rfl

theorem splitOff_append (done items : List Json) :
    splitOff (done ++ items) items.length = some (done, items) := by
  have hle : items.length ≤ (done ++ items).length := by
    rw [List.length_append]
    omega
  have hat : (done ++ items).length - items.length = done.length := by
    rw [List.length_append]
    omega
  rw [splitOff, if_pos hle, hat, List.take_left, List.drop_left]

theorem zip_values (members : List (String × Json)) :
    (members.zip (members.map Prod.snd)).map (fun pair => (pair.1.1, pair.2)) = members := by
  induction members with
  | nil => rfl
  | cons a as ih => rw [List.map_cons, List.zip_cons_cons, List.map_cons, ih]

mutual

theorem cloneLoop_enter : ∀ (value : Json) (work : List Frame) (done : List Json),
    cloneLoop (.enter value :: work) done = cloneLoop work (done ++ [value])
  | null, work, done => by rw [cloneLoop_cons]; rfl
  | bool _, work, done => by rw [cloneLoop_cons]; rfl
  | number _, work, done => by rw [cloneLoop_cons]; rfl
  | str _, work, done => by rw [cloneLoop_cons]; rfl
  | array items, work, done => by
    rw [cloneLoop_cons, cloneStep, Option.bind_some, cloneLoop_items items, cloneLoop_cons,
      cloneStep, splitOff_append]
    rfl
  | object members, work, done => by
    have hlength : members.length = (members.map Prod.snd).length := List.length_map _ |>.symm
    rw [cloneLoop_cons, cloneStep, Option.bind_some, cloneLoop_members members, cloneLoop_cons,
      cloneStep, hlength, splitOff_append, Option.map_some, Option.bind_some, zip_values]

theorem cloneLoop_items : ∀ (items : List Json) (work : List Frame) (done : List Json),
    cloneLoop (items.map Frame.enter ++ work) done = cloneLoop work (done ++ items)
  | [], work, done => by rw [List.append_nil]; rfl
  | a :: as, work, done => by
    rw [List.map_cons, List.cons_append, cloneLoop_enter a, cloneLoop_items as, List.append_assoc]
    rfl

theorem cloneLoop_members : ∀ (members : List (String × Json)) (work : List Frame)
    (done : List Json),
    cloneLoop (members.map (fun member => Frame.enter member.2) ++ work) done =
      cloneLoop work (done ++ members.map Prod.snd)
  | [], work, done => by rw [List.map_nil, List.map_nil, List.append_nil]; rfl
  | (_, a) :: as, work, done => by
    rw [List.map_cons, List.cons_append, cloneLoop_enter a, cloneLoop_members as, List.map_cons,
      List.append_assoc]
    rfl

end

theorem clone_eq (value : Json) : clone value = some value := by
  rw [clone, cloneLoop_enter, cloneLoop]
  rfl

/-! ### `PartialEq` -/

/-- The values of the members, pushed in order, none at the first name that differs. -/
def pushMembers : List (String × Json) → List (String × Json) → List (Json × Json) →
    Option (List (Json × Json))
  | (leftName, leftValue) :: left, (rightName, rightValue) :: right, pairs =>
    if leftName ≠ rightName then none
    else pushMembers left right ((leftValue, rightValue) :: pairs)
  | _, _, pairs => some pairs

/-- One pair of the loop, none where it returns `false`. The top of `pairs` comes first. -/
def eqStep : Json × Json → List (Json × Json) → Option (List (Json × Json))
  | (null, null), pairs => some pairs
  | (bool left, bool right), pairs => if left == right then some pairs else none
  | (number left, number right), pairs => if left.lexeme == right.lexeme then some pairs else none
  | (str left, str right), pairs => if left == right then some pairs else none
  | (array left, array right), pairs =>
    if left.length = right.length then some ((left.zip right).reverse ++ pairs) else none
  | (object left, object right), pairs =>
    if left.length = right.length then pushMembers left right pairs else none
  | _, _ => none

def pairNodes (pairs : List (Json × Json)) : ℕ := (pairs.map fun pair => nodes pair.1).sum

theorem pairNodes_cons (pair : Json × Json) (pairs : List (Json × Json)) :
    pairNodes (pair :: pairs) = nodes pair.1 + pairNodes pairs := by
  rw [pairNodes, List.map_cons, List.sum_cons, pairNodes]

theorem pairNodes_items {left right : List Json} (h : left.length = right.length)
    (pairs : List (Json × Json)) :
    pairNodes ((left.zip right).reverse ++ pairs) = nodesItems left + pairNodes pairs := by
  induction left generalizing right pairs with
  | nil => rw [List.zip_nil_left, nodesItems, Nat.zero_add]; rfl
  | cons a as ih =>
    cases right with
    | nil => simp at h
    | cons b bs =>
      rw [List.zip_cons_cons, List.reverse_cons, List.append_assoc, List.singleton_append,
        ih (Nat.succ.inj h), pairNodes_cons, nodesItems]
      dsimp only
      omega

theorem pairNodes_members {left right : List (String × Json)} {pairs next : List (Json × Json)}
    (h : pushMembers left right pairs = some next) :
    pairNodes next ≤ nodesMembers left + pairNodes pairs := by
  induction left generalizing right pairs with
  | nil =>
    obtain rfl := Option.some.inj h
    omega
  | cons a as ih =>
    obtain ⟨leftName, leftValue⟩ := a
    cases right with
    | nil =>
      obtain rfl := Option.some.inj h
      omega
    | cons b bs =>
      obtain ⟨rightName, rightValue⟩ := b
      rw [pushMembers] at h
      split at h
      · simp at h
      · have hnext := ih h
        rw [pairNodes_cons] at hnext
        rw [nodesMembers, nodesMember]
        dsimp only at hnext
        omega

theorem nodes_pos (value : Json) : 0 < nodes value := by
  cases value with
  | array items => rw [nodes]; omega
  | object members => rw [nodes]; omega
  | _ => rw [nodes]; omega

theorem eqStep_lt {pair : Json × Json} {pairs next : List (Json × Json)}
    (h : eqStep pair pairs = some next) : pairNodes next < pairNodes (pair :: pairs) := by
  rw [pairNodes_cons]
  have hpos := nodes_pos pair.1
  unfold eqStep at h
  split at h
  · obtain rfl := Option.some.inj h
    omega
  · split at h
    · obtain rfl := Option.some.inj h
      omega
    · simp at h
  · split at h
    · obtain rfl := Option.some.inj h
      omega
    · simp at h
  · split at h
    · obtain rfl := Option.some.inj h
      omega
    · simp at h
  · split at h
    · rename_i hlength
      obtain rfl := Option.some.inj h
      rw [pairNodes_items hlength, nodes]
      omega
    · simp at h
  · split at h
    · have hle := pairNodes_members h
      rw [nodes]
      omega
    · simp at h
  · simp at h

/-- `while let Some((left, right)) = pairs.pop()`. -/
def eqLoop : List (Json × Json) → Bool
  | [] => true
  | pair :: pairs =>
    match _h : eqStep pair pairs with
    | none => false
    | some next => eqLoop next
termination_by pairs => pairNodes pairs
decreasing_by exact eqStep_lt _h

def eq (left right : Json) : Bool := eqLoop [(left, right)]

theorem eqLoop_cons (pair : Json × Json) (pairs : List (Json × Json)) :
    eqLoop (pair :: pairs) = (eqStep pair pairs).elim false eqLoop := by
  rw [eqLoop]
  split
  · rename_i h
    rw [h]
    rfl
  · rename_i next h
    rw [h]
    rfl

/-- Equality of a pair by structural recursion. -/
def samePair (pair : Json × Json) : Bool := same pair.1 pair.2

theorem sameItems_zip {left right : List Json} (h : left.length = right.length) :
    (left.zip right).all samePair = sameItems left right := by
  induction left generalizing right with
  | nil =>
    cases right with
    | nil => rw [sameItems]; rfl
    | cons b bs => simp at h
  | cons a as ih =>
    cases right with
    | nil => simp at h
    | cons b bs =>
      rw [List.zip_cons_cons, List.all_cons, ih (Nat.succ.inj h), sameItems]
      rfl

theorem sameItems_length {left right : List Json} (h : left.length ≠ right.length) :
    sameItems left right = false := by
  rw [Bool.eq_false_iff, Ne, sameItems_iff]
  intro heq
  exact h (congrArg List.length heq)

theorem sameMembers_length {left right : List (String × Json)} (h : left.length ≠ right.length) :
    sameMembers left right = false := by
  rw [Bool.eq_false_iff, Ne, sameMembers_iff]
  intro heq
  exact h (congrArg List.length heq)

theorem pushMembers_all {left right : List (String × Json)} (h : left.length = right.length)
    (pairs : List (Json × Json)) :
    (pushMembers left right pairs).elim false (fun next => next.all samePair) =
      (sameMembers left right && pairs.all samePair) := by
  induction left generalizing right pairs with
  | nil =>
    cases right with
    | nil => rw [sameMembers]; rfl
    | cons b bs => simp at h
  | cons a as ih =>
    cases right with
    | nil => simp at h
    | cons b bs =>
      obtain ⟨leftName, leftValue⟩ := a
      obtain ⟨rightName, rightValue⟩ := b
      rw [pushMembers, sameMembers, sameMember]
      by_cases hname : leftName = rightName
      · have hne : ¬ leftName ≠ rightName := fun hc => hc hname
        have hbeq : (leftName == rightName) = true := beq_iff_eq.2 hname
        rw [if_neg hne, ih (Nat.succ.inj h), List.all_cons, hbeq, Bool.true_and, samePair]
        exact Bool.and_left_comm _ _ _ |>.trans (Bool.and_assoc _ _ _).symm
      · have hbeq : (leftName == rightName) = false := beq_eq_false_iff_ne.2 hname
        rw [if_pos hname, hbeq]
        rfl

theorem same_number (left right : Number) :
    same (number left) (number right) = (left.lexeme == right.lexeme) := by
  rw [same, Bool.eq_iff_iff, beq_iff_eq, beq_iff_eq]
  constructor
  · intro h
    rw [h]
  · intro h
    cases left
    cases right
    subst h
    rfl

theorem eqStep_all (pair : Json × Json) (pairs : List (Json × Json)) :
    (eqStep pair pairs).elim false (fun next => next.all samePair) =
      (samePair pair && pairs.all samePair) := by
  have hleaf : ∀ b : Bool,
      (if b then some pairs else none).elim false (fun next => next.all samePair) =
        (b && pairs.all samePair) := by
    intro b
    cases b with
    | true => rfl
    | false => rfl
  obtain ⟨left, right⟩ := pair
  cases left with
  | null => cases right with
    | null => simp [eqStep, samePair, same]
    | _ => simp [eqStep, samePair, same]
  | bool left => cases right with
    | bool right => rw [eqStep, samePair, same, hleaf]
    | _ => simp [eqStep, samePair, same]
  | number left => cases right with
    | number right => rw [eqStep, samePair, same_number, hleaf]
    | _ => simp [eqStep, samePair, same]
  | str left => cases right with
    | str right => rw [eqStep, samePair, same, hleaf]
    | _ => simp [eqStep, samePair, same]
  | array left => cases right with
    | array right =>
      rw [eqStep, samePair, same]
      by_cases hlength : left.length = right.length
      · rw [if_pos hlength, Option.elim_some, List.all_append, List.all_reverse,
          sameItems_zip hlength]
      · rw [if_neg hlength, sameItems_length hlength]
        rfl
    | _ => simp [eqStep, samePair, same]
  | object left => cases right with
    | object right =>
      rw [eqStep, samePair, same]
      by_cases hlength : left.length = right.length
      · rw [if_pos hlength, pushMembers_all hlength]
      · rw [if_neg hlength, sameMembers_length hlength]
        rfl
    | _ => simp [eqStep, samePair, same]

/-- The loop holds exactly if every pair on the stack is equal. -/
theorem eqLoop_eq (pairs : List (Json × Json)) : eqLoop pairs = pairs.all samePair := by
  induction hn : pairNodes pairs using Nat.strong_induction_on generalizing pairs with
  | _ n ih =>
    cases pairs with
    | nil => rw [eqLoop]; rfl
    | cons pair pairs =>
      rw [eqLoop_cons, List.all_cons, ← eqStep_all]
      cases hstep : eqStep pair pairs with
      | none => rfl
      | some next =>
        have hlt := eqStep_lt hstep
        exact ih (pairNodes next) (hn ▸ hlt) next rfl

/-- The loops over stacks compute what structural recursion does. -/
theorem stack_walks (left right : Json) :
    clone left = some left ∧ eq left right = same left right := by
  refine ⟨clone_eq left, ?_⟩
  rw [eq, eqLoop_eq, List.all_cons, List.all_nil, Bool.and_true, samePair]

end FilamentCore.SemanticIr.Json
