import FilamentCore.Library.Succeeding
import FilamentCore.SemanticIr.PatchFrame

/-!
# Patch conformance

What RFC 6902 asks of one operation, and exactly when the dialect does it: a removed name is
repeated, a move follows what it left, and an index has a sign or a leading zero otherwise.
-/

namespace FilamentCore.SemanticIr
namespace Patch
open Json (lookup lookup_append lookup_cons lookup_nil)
open Library.Succeeding (bind_ok)

def pathOf (op : Json) : String := (op.getStr "path").getD ""
def sourceOf (op : Json) : String := (op.getStr "from").getD ""
def valueOf (op : Json) : Json := (op.get "value").getD .null
def templateOf (op : Json) : Json := (op.get "template").getD .null

/-! ### Frames of operations -/

/-- An operation that succeeds changes what it addresses, and nothing beside it. -/
inductive Framed (document op result : Json) : Prop
  | tested : op.getStr "op" = some "test" → result = document → Framed document op result
  | added : op.getStr "op" = some "add" → Inserted document (pathOf op) (valueOf op) result →
    Framed document op result
  | replaced : op.getStr "op" = some "replace" →
    Replaced document (pathOf op) (valueOf op) result → Framed document op result
  | removed : op.getStr "op" = some "remove" → Removed document (pathOf op) result →
    Framed document op result
  | copied {value : Json} : op.getStr "op" = some "copy" →
    resolve document (sourceOf op) = some value → Inserted document (pathOf op) value result →
    Framed document op result
  | moved {value without : Json} : op.getStr "op" = some "move" →
    resolve document (sourceOf op) = some value → Removed document (sourceOf op) without →
    Inserted without (pathOf op) value result → Framed document op result
  | repeated {states : ℕ → Json} {count : ℕ} : op.getStr "op" = some "x-repeat" →
    states 0 = document → states count = result →
    (∀ k < count, Inserted (states k) (pathOf op) (substitute k (templateOf op)) (states (k + 1))) →
    Framed document op result

theorem apply_singleton (document op : Json) : apply document [op] = applyOne document op := by
  rw [apply, List.foldlM_cons]
  cases applyOne document op <;> rfl

theorem read_ok {document : Json} {what source : String} {value : Json}
    (h : read document what source = .ok value) : resolve document source = some value := by
  unfold read at h
  split at h
  · rename_i found hfound
    cases h
    exact hfound
  · cases h

theorem copies_ok {path : String} {template : Json} (count : ℕ) {document result : Json}
    (h : (List.range count).foldlM
      (fun document copy => insert document path (substitute copy template)) document = .ok result) :
    ∃ states : ℕ → Json, states 0 = document ∧ states count = result ∧
      ∀ k < count, Inserted (states k) path (substitute k template) (states (k + 1)) := by
  induction count generalizing result with
  | zero =>
    cases h
    exact ⟨fun _ => document, rfl, rfl, fun k hk => absurd hk (Nat.not_lt_zero k)⟩
  | succ count ih =>
    rw [List.range_succ, List.foldlM_append] at h
    cases hbefore : (List.range count).foldlM
        (fun document copy => insert document path (substitute copy template)) document with
    | error message =>
      rw [hbefore] at h
      cases h
    | ok before =>
      have hlast : insert before path (substitute count template) = .ok result := by
        rw [hbefore] at h
        have hstep := h
        rw [bind_ok] at hstep
        obtain ⟨state, hstate, hfold⟩ := hstep
        cases hstate
        rw [List.foldlM_cons, bind_ok] at hfold
        obtain ⟨last, hinsert, hnil⟩ := hfold
        cases hnil
        exact hinsert
      obtain ⟨states, hzero, hcount, hstates⟩ := ih hbefore
      refine ⟨fun k => if k ≤ count then states k else result, by simpa using hzero,
        by simp, fun k hk => ?_⟩
      by_cases heq : k = count
      · subst heq
        simpa [hcount] using (insert_ok hlast).1
      · have hlt : k < count := by omega
        simpa [Nat.le_of_lt hlt, Nat.succ_le_of_lt hlt] using hstates k hlt

theorem applyOne_framed {document op result : Json} (h : applyOne document op = .ok result) :
    Framed document op result := by
  unfold applyOne at h
  split at h
  · cases h
  · rename_i name hname
    simp only at h
    split at h
    · rename_i htest
      subst htest
      split at h
      · cases h
      · split at h
        · cases h
        · cases h
          exact .tested hname rfl
    split at h
    · rename_i hadd
      subst hadd
      exact .added hname (insert_ok h).1
    split at h
    · rename_i hreplace
      subst hreplace
      split at h
      · cases h
      · exact .replaced hname (set_ok h)
    split at h
    · rename_i hremove
      subst hremove
      exact .removed hname (remove_ok h).1
    split at h
    · rename_i hcopy
      subst hcopy
      obtain ⟨value, hvalue, hinsert⟩ := bind_ok.1 h
      exact .copied hname (read_ok hvalue) (insert_ok hinsert).1
    split at h
    · rename_i hmove
      subst hmove
      obtain ⟨value, hvalue, hrest⟩ := bind_ok.1 h
      obtain ⟨without, hremove, hinsert⟩ := bind_ok.1 hrest
      exact .moved hname (read_ok hvalue) (remove_ok hremove).1 (insert_ok hinsert).1
    split at h
    · rename_i hrepeat
      subst hrepeat
      split at h
      · split at h
        · obtain ⟨states, hzero, hcount, hstates⟩ := copies_ok _ h
          exact .repeated hname hzero hcount hstates
        · cases h
      · cases h
    · cases h

theorem applyOne_add {op : Json} (hop : op.getStr "op" = some "add") (document : Json) :
    applyOne document op = insert document (pathOf op) (valueOf op) := by
  simp [applyOne, hop, pathOf, valueOf]

theorem applyOne_remove {op : Json} (hop : op.getStr "op" = some "remove") (document : Json) :
    applyOne document op = remove document (pathOf op) := by
  simp [applyOne, hop, pathOf]

theorem applyOne_move_ok {op : Json} (hop : op.getStr "op" = some "move")
    (document result : Json) : applyOne document op = .ok result ↔ ∃ value without,
      resolve document (sourceOf op) = some value ∧
      remove document (sourceOf op) = .ok without ∧
      insert without (pathOf op) value = .ok result := by
  have hread : ∀ value, read document "move" (sourceOf op) = .ok value ↔
      resolve document (sourceOf op) = some value := by
    intro value
    refine ⟨read_ok, fun h => ?_⟩
    rw [read, h]
  have hsteps : applyOne document op = (do
      let value ← read document "move" (sourceOf op)
      let document ← remove document (sourceOf op)
      insert document (pathOf op) value) := by
    simp [applyOne, hop, pathOf, sourceOf]
  rw [hsteps, bind_ok]
  constructor
  · rintro ⟨value, hvalue, h⟩
    obtain ⟨without, hremove, hinsert⟩ := bind_ok.1 h
    exact ⟨value, without, (hread value).1 hvalue, hremove, hinsert⟩
  · rintro ⟨value, without, hvalue, hremove, hinsert⟩
    exact ⟨value, (hread value).2 hvalue, bind_ok.2 ⟨without, hremove, hinsert⟩⟩

/-! ### Where a value can go -/

/-- A node that a value can be inserted in at a token. -/
def Accepts : Json → String → Prop
  | .object _, _ => True
  | .array items, last => last = "-" ∨ ∃ n, parseUsize last = some n ∧ n ≤ items.length
  | _, _ => False

theorem insertInto_succeeds {pointer last : String} {value parent : Json} :
    (∃ new, insertInto pointer last value parent = .ok new) ↔ Accepts parent last := by
  cases parent with
  | object members =>
    simp only [insertInto, Accepts, iff_true]
    cases rposition last members with
    | none => exact ⟨_, rfl⟩
    | some i => exact ⟨_, rfl⟩
  | array items =>
    simp only [insertInto, Accepts]
    by_cases hdash : last = "-"
    · simp [hdash]
    · cases hn : parseUsize last with
      | none => simp [hdash]
      | some n =>
        by_cases hle : n ≤ items.length
        · simp [hdash, hle]
        · simp [hdash, hle]
  | _ => simp [insertInto, Accepts]

theorem insert_succeeds {document : Json} (value : Json) {path last : String}
    {parents : List String} (hpath : split path = parents ++ [last]) :
    (∃ result, insert document path value = .ok result) ↔
      ∃ parent, resolveTokens document parents = some parent ∧ Accepts parent last := by
  have hinsert : insert document path value =
      editParent document path parents (insertInto path last value) := by
    rw [insert, hpath]
    simp
  rw [hinsert]
  constructor
  · rintro ⟨result, h⟩
    obtain ⟨place, parent, put, new, hlens, hedit, -⟩ := editParent_ok h
    exact ⟨parent, hlens.resolves, insertInto_succeeds.1 ⟨new, hedit⟩⟩
  · rintro ⟨parent, hparent, haccepts⟩
    obtain ⟨new, hedit⟩ := insertInto_succeeds.2 haccepts
    exact editParent_of_lens hparent hedit

/-- A node below which a value can be inserted. -/
def Takes (node : Json) (rest : List String) : Prop :=
  ∃ parents last parent, rest = parents ++ [last] ∧ resolveTokens node parents = some parent ∧
    Accepts parent last

/-! ### What follows a removed node -/

theorem removeFrom_of_following (pointer : String) {last : String} {parent next : Json}
    (h : Following parent last next) : ∃ new, removeFrom pointer last parent = .ok new := by
  cases h with
  | member hi _ =>
    simp only [removeFrom, hi]
    exact ⟨_, rfl⟩
  | element hn hnext =>
    have hlt := (List.getElem?_eq_some_iff.1 hnext).1
    simp only [removeFrom, hn]
    exact ⟨_, if_pos (by omega)⟩

theorem step_of_following {last : String} {parent next : Json} (h : Following parent last next) :
    ∃ node, step parent last = some node := by
  cases h with
  | member hi _ =>
    obtain ⟨before, value, after, rfl, -, hafter⟩ := rposition_eq_some hi
    exact ⟨value, by rw [step, Json.get, lookup_middle, hafter]; simp⟩
  | element hn hnext =>
    have hlt := (List.getElem?_eq_some_iff.1 hnext).1
    rw [step, hn, Option.bind_some]
    exact ⟨_, List.getElem?_eq_getElem (by omega)⟩

theorem remove_of_following {document parent next : Json} {path last : String}
    {parents : List String} (hpath : split path = parents ++ [last])
    (hparent : resolveTokens document parents = some parent) (h : Following parent last next) :
    ∃ result, remove document path = .ok result := by
  obtain ⟨new, hedit⟩ := removeFrom_of_following path h
  have hremove : remove document path =
      editParent document path parents (removeFrom path last) := by
    rw [remove, hpath]
    simp
  rw [hremove]
  exact editParent_of_lens hparent hedit

theorem remove_leaves {document parent result : Json} {path last : String} {parents : List String}
    (hpath : split path = parents ++ [last])
    (hparent : resolveTokens document parents = some parent)
    (h : remove document path = .ok result) (next : Json) :
    resolveTokens result (split path) = some next ↔ Following parent last next := by
  obtain ⟨-, parents', last', parent', hpath', hparent', hnext⟩ := remove_ok h
  obtain ⟨rfl, hlast⟩ := List.append_inj' (hpath.symm.trans hpath') rfl
  rw [hparent, Option.some.injEq] at hparent'
  rw [List.singleton_inj] at hlast
  subst hlast hparent'
  exact hnext next

theorem following_object {last : String} {members : List (String × Json)} :
    (∃ next, Following (.object members) last next) ↔ 2 ≤ (members.map Prod.fst).count last := by
  have habsent : ∀ part : List (String × Json), lookup last part = none ↔
      (part.map Prod.fst).count last = 0 := by
    intro part
    induction part with
    | nil => simp [lookup_nil]
    | cons m part ih =>
      rw [lookup_cons, List.map_cons, List.count_cons]
      by_cases hm : m.1 = last
      · simp [hm]
      · simp [hm, ih]
  cases hi : rposition last members with
  | none =>
    have hcount := (habsent members).1 (rposition_eq_none.1 hi)
    rw [hcount]
    constructor
    · rintro ⟨next, hnext⟩
      cases hnext with
      | member hi' _ => rw [hi] at hi'; cases hi'
    · intro h
      omega
  | some i =>
    obtain ⟨before, value, after, rfl, hlength, hafter⟩ := rposition_eq_some hi
    have hcount : ((before ++ (last, value) :: after).map Prod.fst).count last =
        (before.map Prod.fst).count last + 1 := by
      rw [List.map_append, List.map_cons, List.count_append, List.count_cons,
        (habsent after).1 hafter]
      simp
    have htake : (before ++ (last, value) :: after).take i = before := by
      rw [← hlength, List.take_left]
    rw [hcount]
    constructor
    · rintro ⟨next, hnext⟩
      cases hnext with
      | member hi' hlookup =>
        rw [hi, Option.some.injEq] at hi'
        subst hi'
        rw [htake] at hlookup
        have hne : (before.map Prod.fst).count last ≠ 0 := by
          intro hzero
          rw [(habsent before).2 hzero] at hlookup
          cases hlookup
        omega
    · intro h
      cases hbefore : lookup last before with
      | none =>
        have hzero := (habsent before).1 hbefore
        omega
      | some next => exact ⟨next, .member hi (by rw [htake]; exact hbefore)⟩

/-! ### Indices -/

/-- The array index of RFC 6901: a zero, or digits that do not begin with one. -/
def IsIndex : List Char → Prop
  | [] => False
  | d :: digits =>
    if d = '0' then digits = [] else isAsciiDigit d = true ∧ digits.all isAsciiDigit = true

/-- A text that begins with a sign, or with a zero that is not all of it. -/
def Loose : List Char → Prop
  | '+' :: _ => True
  | '0' :: _ :: _ => True
  | _ => False

theorem isIndex_of_parsed {part : String} {n : ℕ} (h : parseUsize part = some n) :
    IsIndex part.toList ↔ ¬ Loose part.toList := by
  have hdigits : ∀ digits : List Char, digits ≠ [] → digits.all isAsciiDigit = true →
      digits.head? ≠ some '+' → (IsIndex digits ↔ ¬ Loose digits) := by
    intro digits hne hall hplus
    cases digits with
    | nil => exact absurd rfl hne
    | cons d digits =>
      rw [List.all_cons, Bool.and_eq_true] at hall
      have hd : d ≠ '+' := fun heq => hplus (by rw [heq]; rfl)
      by_cases hzero : d = '0'
      · subst hzero
        cases digits <;> simp [IsIndex, Loose]
      · simp [IsIndex, Loose, hzero, hd, hall.1, hall.2]
  cases htext : part.toList with
  | nil =>
    rw [parseUsize, htext] at h
    simp at h
  | cons d digits =>
    by_cases hplus : d = '+'
    · subst hplus
      simp [IsIndex, Loose, isAsciiDigit]
    · have hsame : parseUsize part =
          if d :: digits = [] ∨ ¬ (d :: digits).all isAsciiDigit ∨
            2 ^ 64 ≤ decimalValue (d :: digits)
          then none else some (decimalValue (d :: digits)) := by
        simp only [parseUsize, htext]
        split
        · rename_i heq
          exact absurd (List.cons.inj heq).1 hplus
        · rfl
      rw [hsame] at h
      split at h
      · cases h
      · rename_i hok
        rw [not_or, not_or, not_not] at hok
        exact hdigits _ hok.1 hok.2.1 (by simpa using hplus)

/-- How an operation reads a pointer: to what is there, or to a gap. -/
inductive Use where
  | found
  | gap

inductive Reads (document op : Json) : Json → String → Use → Prop
  | path {name : String} : op.getStr "op" = some name → name ∈ ["test", "replace", "remove"] →
    Reads document op document (pathOf op) .found
  | gap {name : String} : op.getStr "op" = some name → name ∈ ["add", "copy"] →
    Reads document op document (pathOf op) .gap
  | source {name : String} : op.getStr "op" = some name → name ∈ ["copy", "move"] →
    Reads document op document (sourceOf op) .found
  | target {without : Json} : op.getStr "op" = some "move" →
    remove document (sourceOf op) = .ok without → Reads document op without (pathOf op) .gap
  | copies {k : ℕ} {state : Json} : op.getStr "op" = some "x-repeat" →
    (List.range k).foldlM (fun document copy =>
      insert document (pathOf op) (substitute copy (templateOf op))) document = .ok state →
    Reads document op state (pathOf op) .gap

/-- A token that stands at an array for one of its elements, or for the gap after them. -/
def Accepted (document : Json) (pointer : String) (use : Use) (part : String) : Prop :=
  ∃ before after items n, split pointer = before ++ part :: after ∧
    resolveTokens document before = some (.array items) ∧ parseUsize part = some n ∧
    (n < items.length ∨ use = .gap ∧ after = [] ∧ n = items.length)

/-! ### Conformance -/

/-- What RFC 6902 asks of an operation on a document. -/
structure Conforms (document op : Json) : Prop where
  frame : ∀ result, apply document [op] = .ok result → Framed document op result
  added : op.getStr "op" = some "add" → ∀ result, apply document [op] = .ok result →
    Added result (pathOf op) (valueOf op)
  removed : op.getStr "op" = some "remove" → ∀ parents last members,
    split (pathOf op) = parents ++ [last] →
    resolveTokens document parents = some (.object members) →
    ∀ result, apply document [op] = .ok result → resolve result (pathOf op) = none
  moved : op.getStr "op" = some "move" → split (sourceOf op) <+: split (pathOf op) →
    split (sourceOf op) ≠ split (pathOf op) → ∀ result, apply document [op] ≠ .ok result
  indices : ∀ state pointer use part, Reads document op state pointer use →
    Accepted state pointer use part → IsIndex part.toList

/-- No removed name is repeated, no move has what takes its path after what it moves, and no
index has a sign or a leading zero. -/
structure Plain (document op : Json) : Prop where
  single : op.getStr "op" = some "remove" → ∀ parents last members,
    split (pathOf op) = parents ++ [last] →
    resolveTokens document parents = some (.object members) →
    (members.map Prod.fst).count last ≤ 1
  alone : op.getStr "op" = some "move" → ∀ parents last rest parent next,
    split (sourceOf op) = parents ++ [last] → split (pathOf op) = split (sourceOf op) ++ rest →
    rest ≠ [] → resolveTokens document parents = some parent → Following parent last next →
    ¬ Takes next rest
  strict : ∀ state pointer use part, Reads document op state pointer use →
    Accepted state pointer use part → ¬ Loose part.toList

theorem move_inside_succeeds {document op : Json} (hop : op.getStr "op" = some "move")
    {rest : List String} (hpath : split (pathOf op) = split (sourceOf op) ++ rest)
    (hrest : rest ≠ []) : (∃ result, applyOne document op = .ok result) ↔
      ∃ parents last parent next, split (sourceOf op) = parents ++ [last] ∧
        resolveTokens document parents = some parent ∧ Following parent last next ∧
        Takes next rest := by
  obtain ⟨inner, final, rfl⟩ : ∃ inner final, rest = inner ++ [final] :=
    ⟨_, _, (List.dropLast_append_getLast hrest).symm⟩
  have hfinal : split (pathOf op) = (split (sourceOf op) ++ inner) ++ [final] := by
    rw [hpath, List.append_assoc]
  constructor
  · rintro ⟨result, h⟩
    obtain ⟨value, without, hvalue, hremove, hinsert⟩ := (applyOne_move_ok hop _ _).1 h
    obtain ⟨-, parents, last, parent, hsource, hparent, hnext⟩ := remove_ok hremove
    obtain ⟨node, hnode, haccepts⟩ := (insert_succeeds value hfinal).1 ⟨result, hinsert⟩
    rw [resolveTokens_append, Option.bind_eq_some_iff] at hnode
    obtain ⟨next, hsourceNext, hinner⟩ := hnode
    exact ⟨parents, last, parent, next, hsource, hparent, (hnext next).1 hsourceNext,
      inner, final, node, rfl, hinner, haccepts⟩
  · rintro ⟨parents, last, parent, next, hsource, hparent, hfollowing, htakes⟩
    obtain ⟨inner', final', node, hsame, hinner, haccepts⟩ := htakes
    obtain ⟨rfl, hlast⟩ := List.append_inj' hsame rfl
    rw [List.singleton_inj] at hlast
    subst hlast
    obtain ⟨found, hfound⟩ := step_of_following hfollowing
    have hvalue : resolve document (sourceOf op) = some found := by
      rw [resolve, hsource, resolveTokens_append, hparent, Option.bind_some, resolveTokens, hfound]
      rfl
    obtain ⟨without, hremove⟩ := remove_of_following hsource hparent hfollowing
    have hnode : resolveTokens without (split (sourceOf op) ++ inner) = some node := by
      rw [resolveTokens_append, (remove_leaves hsource hparent hremove next).2 hfollowing,
        Option.bind_some, hinner]
    obtain ⟨result, hinsert⟩ := (insert_succeeds found hfinal).2 ⟨node, hnode, haccepts⟩
    exact ⟨result, (applyOne_move_ok hop _ _).2 ⟨found, without, hvalue, hremove, hinsert⟩⟩

theorem conforms_iff (document op : Json) : Conforms document op ↔ Plain document op := by
  constructor
  · intro h
    constructor
    · intro hop parents last members hpath hparent
      by_contra hmany
      obtain ⟨next, hnext⟩ := following_object.2 (Nat.lt_of_not_le hmany)
      obtain ⟨result, hresult⟩ := remove_of_following hpath hparent hnext
      have happly : apply document [op] = .ok result := by
        rw [apply_singleton, applyOne_remove hop, hresult]
      have hnone := h.removed hop parents last members hpath hparent result happly
      rw [resolve, (remove_leaves hpath hparent hresult next).2 hnext] at hnone
      cases hnone
    · intro hop parents last rest parent next hsource hpath hrest hparent hnext htakes
      obtain ⟨result, hresult⟩ := (move_inside_succeeds hop hpath hrest).2
        ⟨parents, last, parent, next, hsource, hparent, hnext, htakes⟩
      refine h.moved hop ⟨rest, hpath.symm⟩ ?_ result (by rw [apply_singleton, hresult])
      intro hsame
      rw [← hsame] at hpath
      exact hrest (List.self_eq_append_right.1 hpath)
    · intro state pointer use part hreads haccepted
      have hindex := h.indices state pointer use part hreads haccepted
      obtain ⟨_, _, _, n, -, -, hn, -⟩ := haccepted
      exact (isIndex_of_parsed hn).1 hindex
  · intro h
    constructor
    · intro result hresult
      rw [apply_singleton] at hresult
      exact applyOne_framed hresult
    · intro hop result hresult
      rw [apply_singleton, applyOne_add hop] at hresult
      exact (insert_ok hresult).2
    · intro hop parents last members hpath hparent result hresult
      rw [apply_singleton, applyOne_remove hop] at hresult
      cases hnext : resolve result (pathOf op) with
      | none => rfl
      | some next =>
        have hfollowing := (remove_leaves hpath hparent hresult next).1 hnext
        have hmany := following_object.1 ⟨next, hfollowing⟩
        have hsingle := h.single hop parents last members hpath hparent
        omega
    · intro hop hstarts hne result hresult
      obtain ⟨rest, hrest⟩ := hstarts
      rw [apply_singleton] at hresult
      have hnil : rest ≠ [] := by
        intro heq
        rw [heq, List.append_nil] at hrest
        exact hne hrest
      obtain ⟨parents, last, parent, next, hsource, hparent, hnext, htakes⟩ :=
        (move_inside_succeeds hop hrest.symm hnil).1 ⟨result, hresult⟩
      exact h.alone hop parents last rest parent next hsource hrest.symm hnil hparent hnext htakes
    · intro state pointer use part hreads haccepted
      have hstrict := h.strict state pointer use part hreads haccepted
      obtain ⟨_, _, _, n, -, -, hn, -⟩ := haccepted
      exact (isIndex_of_parsed hn).2 hstrict

/-- A move below the element it moves, a removal of a name that is there twice, and an index
with a sign. -/
theorem conforms_not_always :
    ¬ Conforms (.array [.object [], .object []])
      (.object [("op", .str "move"), ("from", .str "/0"), ("path", .str "/0/x")]) ∧
    ¬ Conforms (.object [("a", .null), ("a", .bool true)])
      (.object [("op", .str "remove"), ("path", .str "/a")]) ∧
    ¬ Conforms (.array [.null]) (.object [("op", .str "remove"), ("path", .str "/+0")]) := by
  refine ⟨fun h => ?_, fun h => ?_, fun h => ?_⟩
  · have hlands : apply (.array [.object [], .object []])
        [.object [("op", .str "move"), ("from", .str "/0"), ("path", .str "/0/x")]] =
        .ok (.array [.object [("x", .object [])]]) := by
      rw [apply_singleton]
      rfl
    exact h.moved rfl ⟨["x"], rfl⟩ (by decide) _ hlands
  · have hremoves : apply (.object [("a", .null), ("a", .bool true)])
        [.object [("op", .str "remove"), ("path", .str "/a")]] = .ok (.object [("a", .null)]) := by
      rw [apply_singleton]
      rfl
    have hnone := h.removed rfl [] "a" _ rfl rfl _ hremoves
    cases hnone
  · have hindex := h.indices _ _ _ "+0" (.path rfl (by decide)) ⟨[], [], [.null], 0, rfl, rfl, rfl,
      .inl (by decide)⟩
    simp [IsIndex, isAsciiDigit] at hindex

end Patch
end FilamentCore.SemanticIr
