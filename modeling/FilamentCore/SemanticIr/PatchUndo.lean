import FilamentCore.SemanticIr.PatchFrame

/-!
# Taking an addition back

A `remove` at the pointer of an `add` gives the document back where the addition made room for its
value: a member of a new name, or an element at an index.
-/

namespace FilamentCore.SemanticIr
namespace Patch
open Json (lookup)

/-! ### The laws of a place -/

theorem set_rposition {name : String} {members : List (String × Json)} {i : ℕ}
    (h : rposition name members = some i) (value : Json) :
    rposition name (members.set i (name, value)) = some i := by
  obtain ⟨before, old, after, rfl, rfl, hafter⟩ := rposition_eq_some h
  have hset : (before ++ (name, old) :: after).set before.length (name, value) =
      before ++ (name, value) :: after := by simp
  rw [hset]
  clear h hset
  induction after using List.reverseRecOn with
  | nil => rw [rposition_concat, if_pos rfl]
  | append_singleton after m ih =>
    rw [Json.lookup_append, Option.or_eq_none_iff, Json.lookup_cons] at hafter
    have hm : m.1 ≠ name := by
      intro hm
      simp [hm] at hafter
    rw [← List.cons_append, ← List.append_assoc, rposition_concat, if_neg hm]
    exact ih hafter.2

/-- What is put in a place is found there, and replaced in its turn. -/
theorem resolveMut_put {parts : List String} {document node : Json} {put : Json → Json}
    (h : resolveMut parts document = some (node, put)) :
    put node = document ∧ ∀ new, resolveMut parts (put new) = some (new, put) := by
  induction parts generalizing document node put with
  | nil =>
    cases h
    exact ⟨rfl, fun _ => rfl⟩
  | cons part parts ih =>
    cases document with
    | object members =>
      simp only [resolveMut, Option.bind_eq_bind, Option.bind_eq_some_iff, Prod.exists,
        Option.some.injEq, Prod.mk.injEq] at h
      obtain ⟨i, hi, name, value, hm, node', put', hrest, rfl, rfl⟩ := h
      obtain ⟨hlt, hget⟩ := List.getElem?_eq_some_iff.1 hm
      obtain ⟨hself, hput⟩ := ih hrest
      have hname : name = part := by
        obtain ⟨before, old, after, rfl, rfl, -⟩ := rposition_eq_some hi
        simpa using congrArg Prod.fst hget.symm
      subst hname
      refine ⟨?_, fun new => ?_⟩
      · show Json.object (members.set i (name, put' node')) = _
        rw [hself, ← hget, List.set_getElem_self]
      · have hset : ∀ new' : Json, ((members.set i (name, put' new)).set i (name, new')) =
            members.set i (name, new') := fun new' => List.set_set ..
        simp only [resolveMut, set_rposition hi, Option.bind_eq_bind, Option.bind_some,
          List.getElem?_set_self hlt, hput, hset]
    | array items =>
      simp only [resolveMut, Option.bind_eq_bind, Option.bind_eq_some_iff, Prod.exists,
        Option.some.injEq, Prod.mk.injEq] at h
      obtain ⟨at', hat, item, hitem, node', put', hrest, rfl, rfl⟩ := h
      obtain ⟨hlt, hget⟩ := List.getElem?_eq_some_iff.1 hitem
      obtain ⟨hself, hput⟩ := ih hrest
      refine ⟨?_, fun new => ?_⟩
      · show Json.array (items.set at' (put' node')) = _
        rw [hself, ← hget, List.set_getElem_self]
      · simp only [resolveMut, hat, Option.bind_eq_bind, Option.bind_some,
          List.getElem?_set_self hlt, hput, List.set_set]
    | _ => cases h

/-! ### Room for a value -/

theorem parseUsize_dash : parseUsize "-" = none := by decide

/-- Where a token makes room below a node: at a new name, or at an index of the array. -/
inductive Room : Json → String → Prop
  | member {members : List (String × Json)} {last : String} :
    lookup last members = none → Room (.object members) last
  | element {items : List Json} {last : String} {n : ℕ} :
    parseUsize last = some n → n ≤ items.length → Room (.array items) last

theorem Room.insertInto {parent : Json} {last : String} (h : Room parent last)
    (pointer : String) (value : Json) : ∃ new, insertInto pointer last value parent = .ok new := by
  cases h with
  | member hnone => exact ⟨_, by rw [Patch.insertInto, rposition_eq_none.2 hnone]⟩
  | element hn hle =>
    have hdash : last ≠ "-" := by
      rintro rfl
      rw [parseUsize_dash] at hn
      cases hn
    exact ⟨_, by simp only [Patch.insertInto, if_neg hdash, hn, if_pos hle]; rfl⟩

theorem removeFrom_insertInto {pointer last : String} {value parent new : Json}
    (h : insertInto pointer last value parent = .ok new) :
    removeFrom pointer last new = .ok parent ↔ Room parent last := by
  cases parent with
  | object members =>
    simp only [insertInto] at h
    cases hi : rposition last members with
    | none =>
      rw [hi] at h
      cases h
      have hremoved : (members ++ [(last, value)]).eraseIdx members.length = members := by
        rw [List.eraseIdx_append_of_length_le le_rfl, Nat.sub_self, List.eraseIdx_cons_zero,
          List.append_nil]
      simp only [removeFrom, rposition_concat, if_true, hremoved, true_iff]
      exact .member (rposition_eq_none.1 hi)
    | some i =>
      rw [hi] at h
      cases h
      have hlt : i < members.length := by
        obtain ⟨before, old, after, rfl, rfl, -⟩ := rposition_eq_some hi
        simp
      simp only [removeFrom, set_rposition hi, Except.ok.injEq, Json.object.injEq]
      constructor
      · intro heq
        have hlength := congrArg List.length heq
        rw [List.length_eraseIdx, List.length_set, if_pos hlt] at hlength
        omega
      · rintro ⟨hnone⟩
        rw [rposition_eq_none.2 hnone] at hi
        cases hi
  | array items =>
    simp only [insertInto] at h
    split at h
    · rename_i hdash
      subst hdash
      cases h
      simp only [removeFrom, parseUsize_dash]
      refine ⟨fun h => (by cases h), ?_⟩
      rintro (_ | ⟨hn, -⟩)
      rw [parseUsize_dash] at hn
      cases hn
    · split at h
      · rename_i n hn
        split at h
        · rename_i hle
          cases h
          have hlt : n < (items.insertIdx n value).length := by
            rw [List.length_insertIdx_of_le_length hle]
            omega
          simp only [removeFrom, hn, if_pos hlt, List.eraseIdx_insertIdx_self, true_iff]
          exact .element hn hle
        · cases h
      · cases h
  | _ => cases h

/-- A pointer at which an addition makes room for its value. -/
def Fresh (document : Json) (path : String) : Prop :=
  ∃ last parent, (split path).getLast? = some last ∧
    resolveTokens document (split path).dropLast = some parent ∧ Room parent last

theorem Fresh.insert {document : Json} {path : String} (h : Fresh document path) (value : Json) :
    ∃ result, insert document path value = .ok result := by
  obtain ⟨last, parent, hlast, hparent, hroom⟩ := h
  obtain ⟨new, hnew⟩ := hroom.insertInto path value
  obtain ⟨result, hresult⟩ := @editParent_of_lens _ _ path _ _ _ hparent hnew
  exact ⟨result, by simpa only [Patch.insert, hlast] using hresult⟩

theorem remove_insert {document value result : Json} {path : String}
    (h : insert document path value = .ok result) :
    remove result path = .ok document ↔ Fresh document path := by
  simp only [Patch.insert] at h
  simp only [remove, Fresh]
  cases hlast : (split path).getLast? with
  | none => simp
  | some last =>
    simp only [hlast] at h
    rw [editParent] at h
    have hresolves := resolveMut_resolves (split path).dropLast document
    cases hmut : resolveMut (split path).dropLast document with
    | none =>
      rw [hmut] at h
      cases h
    | some found =>
      obtain ⟨parent, put⟩ := found
      rw [hmut] at h hresolves
      simp only at h
      obtain ⟨hself, hput⟩ := resolveMut_put hmut
      cases hedit : insertInto path last value parent with
      | error message =>
        rw [hedit] at h
        cases h
      | ok new =>
        rw [hedit] at h
        cases h
        have hroom := removeFrom_insertInto hedit
        have hinjective : ∀ other, put other = document ↔ other = parent := by
          intro other
          refine ⟨fun heq => ?_, fun heq => heq ▸ hself⟩
          have hother := hput other
          rw [heq, hmut, Option.some.injEq, Prod.mk.injEq] at hother
          exact hother.1.symm
        simp only [editParent, hput, Option.some.injEq, ← hresolves, Option.map_some]
        rw [show (∃ last' parent', last = last' ∧ parent = parent' ∧ Room parent' last') ↔
          Room parent last by simp, ← hroom]
        cases removeFrom path last new with
        | error message => exact ⟨fun h => (by cases h), fun h => (by cases h)⟩
        | ok other => simp only [Except.map, Except.ok.injEq, hinjective]

/-! ### Patches -/

def addition (path : String) (value : Json) : Json :=
  .object [("op", .str "add"), ("path", .str path), ("value", value)]

def removal (path : String) : Json := .object [("op", .str "remove"), ("path", .str path)]

theorem applyOne_addition (document : Json) (path : String) (value : Json) :
    applyOne document (addition path value) = insert document path value := rfl

theorem applyOne_removal (document : Json) (path : String) :
    applyOne document (removal path) = remove document path := rfl

/-- An addition is taken back by a removal exactly where it made room for its value. -/
theorem addition_undone_iff (document value : Json) (path : String) :
    apply document [addition path value, removal path] = .ok document ↔ Fresh document path := by
  rw [apply, List.foldlM_cons, applyOne_addition]
  cases h : insert document path value with
  | error message =>
    refine ⟨nofun, fun hfresh => ?_⟩
    obtain ⟨result, hresult⟩ := hfresh.insert value
    rw [h] at hresult
    cases hresult
  | ok result =>
    rw [← remove_insert h, ← applyOne_removal]
    show (applyOne result (removal path) >>= pure) = _ ↔ _
    rw [bind_pure]

/-- Additions that each make room for their value, in the document that those before them leave. -/
def AllFresh : Json → List (String × Json) → Prop
  | _, [] => True
  | document, (path, value) :: additions => Fresh document path ∧
    ∀ result, insert document path value = .ok result → AllFresh result additions

/-- A patch of additions that make room is taken back by their removals in reverse order. -/
theorem additions_undone {document : Json} {additions : List (String × Json)}
    (h : AllFresh document additions) : ∃ result,
      apply document (additions.map fun a => addition a.1 a.2) = .ok result ∧
        apply result (additions.reverse.map fun a => removal a.1) = .ok document := by
  induction additions generalizing document with
  | nil => exact ⟨document, rfl, rfl⟩
  | cons a additions ih =>
    obtain ⟨path, value⟩ := a
    obtain ⟨hfresh, hrest⟩ := h
    obtain ⟨middle, hmiddle⟩ := hfresh.insert value
    obtain ⟨result, hadded, hremoved⟩ := ih (hrest middle hmiddle)
    refine ⟨result, ?_, ?_⟩
    · rw [List.map_cons, apply, List.foldlM_cons, applyOne_addition, hmiddle]
      exact hadded
    · rw [List.reverse_cons, List.map_append, apply, List.foldlM_append]
      rw [apply] at hremoved
      rw [hremoved]
      show (applyOne middle (removal path) >>= pure) = _
      rw [bind_pure, applyOne_removal, remove_insert hmiddle]
      exact hfresh

theorem additions_undone_nested : ∃ result,
    apply (.object []) [addition "/a" (.array []), addition "/a/0" .null] = .ok result ∧
      apply result [removal "/a/0", removal "/a"] = .ok (.object []) := by
  have hfirst : insert (.object []) "/a" (.array []) = .ok (.object [("a", .array [])]) := by
    rfl
  have hfresh : AllFresh (.object []) [("/a", .array []), ("/a/0", .null)] := by
    refine ⟨⟨"a", .object [], rfl, rfl, .member rfl⟩, fun result h => ⟨?_, fun _ _ => trivial⟩⟩
    rw [hfirst] at h
    cases h
    exact ⟨"0", .array [], rfl, rfl, .element (n := 0) rfl le_rfl⟩
  exact additions_undone hfresh

end Patch
end FilamentCore.SemanticIr
