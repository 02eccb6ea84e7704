import FilamentCore.SemanticIr.Assignment
import FilamentCore.SemanticIr.Patch

/-!
# The places a patch addresses

A place is the path of members and elements that the tokens of a pointer lead through. Putting a
node in a place leaves what is at every other place.
-/

namespace FilamentCore.SemanticIr
namespace Patch
open Json (lookup lookup_append lookup_cons lookup_nil)

/-! ### Places -/

/-- A step down a document: to the last member of a name, or to an element. -/
inductive Step where
  | member (name : String)
  | element (at' : ℕ)
  deriving DecidableEq

def down : Json → Step → Option Json
  | .object members, .member name => lookup name members
  | .array items, .element at' => items[at']?
  | _, _ => none

def nodeAt : Json → List Step → Option Json
  | document, [] => some document
  | document, s :: place => (down document s).bind fun next => nodeAt next place

/-- The step that a token is at a node. -/
def readStep : Json → String → Option Step
  | .object _, part => some (.member part)
  | .array _, part => (parseUsize part).map .element
  | _, _ => none

def placeOf : Json → List String → Option (List Step)
  | _, [] => some []
  | document, part :: parts => do
    let s ← readStep document part
    let next ← down document s
    let place ← placeOf next parts
    some (s :: place)

theorem step_eq (document : Json) (part : String) :
    step document part = (readStep document part).bind (down document) := by
  cases document with
  | object members => rfl
  | array items =>
    rw [step, readStep]
    cases parseUsize part <;> rfl
  | _ => rfl

theorem resolveTokens_eq (document : Json) (parts : List String) :
    resolveTokens document parts = (placeOf document parts).bind (nodeAt document) := by
  induction parts generalizing document with
  | nil => rfl
  | cons part parts ih =>
    rw [resolveTokens, placeOf, step_eq]
    cases readStep document part with
    | none => rfl
    | some s =>
      simp only [Option.bind_eq_bind, Option.bind_some]
      cases hdown : down document s with
      | none => rfl
      | some next =>
        simp only [Option.bind_some, ih]
        cases placeOf next parts with
        | none => rfl
        | some place => simp only [Option.bind_some, nodeAt, hdown]

theorem resolveTokens_append (document : Json) (a b : List String) :
    resolveTokens document (a ++ b) =
      (resolveTokens document a).bind fun next => resolveTokens next b := by
  induction a generalizing document with
  | nil => rfl
  | cons part a ih =>
    rw [List.cons_append, resolveTokens, resolveTokens, Option.bind_assoc]
    congr 1
    funext next
    exact ih next

theorem nodeAt_append (document : Json) (p q : List Step) :
    nodeAt document (p ++ q) = (nodeAt document p).bind fun next => nodeAt next q := by
  induction p generalizing document with
  | nil => rfl
  | cons s p ih =>
    rw [List.cons_append, nodeAt, nodeAt, Option.bind_assoc]
    congr 1
    funext next
    exact ih next

theorem placeOf_append (document : Json) (a b : List String) :
    placeOf document (a ++ b) = (placeOf document a).bind fun place =>
      (nodeAt document place).bind fun node => (placeOf node b).map (place ++ ·) := by
  induction a generalizing document with
  | nil =>
    simp only [List.nil_append, placeOf, nodeAt, Option.bind_some]
    cases placeOf document b <;> rfl
  | cons part a ih =>
    simp only [List.cons_append, placeOf, Option.bind_eq_bind]
    cases readStep document part with
    | none => rfl
    | some s =>
      simp only [Option.bind_some]
      cases hdown : down document s with
      | none => rfl
      | some next =>
        simp only [Option.bind_some, ih]
        cases placeOf next a with
        | none => rfl
        | some place =>
          simp only [Option.bind_some, nodeAt, hdown]
          cases nodeAt next place with
          | none => rfl
          | some node =>
            simp only [Option.bind_some]
            cases placeOf node b <;> rfl

/-! ### Members by position -/

theorem rposition_concat (name : String) (members : List (String × Json)) (m : String × Json) :
    rposition name (members ++ [m]) =
      if m.1 = name then some members.length else rposition name members := by
  unfold rposition
  rw [List.reverse_append, List.reverse_singleton, List.singleton_append, List.findIdx?_cons,
    List.length_append, List.length_singleton]
  by_cases hm : m.1 = name
  · simp [hm]
  · have hfalse : (m.1 == name) = false := by simpa using hm
    rw [if_neg hm]
    simp only [hfalse, Bool.false_eq_true, if_false, Option.map_map]
    congr 1
    funext i
    simp only [Function.comp_apply]
    omega

theorem rposition_eq_some {name : String} {members : List (String × Json)} {i : ℕ}
    (h : rposition name members = some i) : ∃ before value after,
      members = before ++ (name, value) :: after ∧ before.length = i ∧
        lookup name after = none := by
  induction members using List.reverseRecOn with
  | nil => cases h
  | append_singleton members m ih =>
    rw [rposition_concat] at h
    split at h
    · rename_i hm
      obtain rfl := Option.some.inj h
      exact ⟨members, m.2, [], by rw [← hm], rfl, rfl⟩
    · rename_i hm
      obtain ⟨before, value, after, rfl, hlength, hafter⟩ := ih h
      refine ⟨before, value, after ++ [m], by simp, hlength, ?_⟩
      rw [lookup_append, lookup_cons, hafter, lookup_nil, if_neg hm]
      rfl

theorem rposition_eq_none {name : String} {members : List (String × Json)} :
    rposition name members = none ↔ lookup name members = none := by
  induction members using List.reverseRecOn with
  | nil => simp [rposition, lookup_nil]
  | append_singleton members m ih =>
    rw [rposition_concat, lookup_append, lookup_cons, lookup_nil]
    by_cases hm : m.1 = name
    · simp [hm]
    · simp [hm, ih]

theorem lookup_middle (name key : String) (value : Json) (before after : List (String × Json)) :
    lookup key (before ++ (name, value) :: after) =
      (lookup key after).or ((if name = key then some value else none).or (lookup key before)) := by
  rw [lookup_append, lookup_cons, Option.or_assoc]

/-! ### Putting a node in a place -/

structure Lens (document : Json) (parts : List String) (place : List Step) (node : Json)
    (put : Json → Json) : Prop where
  placed : placeOf document parts = some place
  found : nodeAt document place = some node
  inside : ∀ new q, nodeAt (put new) (place ++ q) = nodeAt new q
  outside : ∀ new q, ¬ q <+: place → ¬ place <+: q → nodeAt (put new) q = nodeAt document q
  again : ∀ new rest, resolveTokens (put new) (parts ++ rest) = resolveTokens new rest

theorem Lens.step {document next : Json} {part : String} {parts : List String} {s : Step}
    {place : List Step} {node : Json} {put put' : Json → Json} (h : Lens next parts place node put)
    (hread : readStep document part = some s) (hdown : down document s = some next)
    (hread' : ∀ new, readStep (put' new) part = some s)
    (hself : ∀ new, down (put' new) s = some (put new))
    (hother : ∀ new s', s' ≠ s → down (put' new) s' = down document s') :
    Lens document (part :: parts) (s :: place) node put' := by
  constructor
  · simp only [placeOf, hread, Option.bind_eq_bind, Option.bind_some, hdown, h.placed]
  · rw [nodeAt, hdown, Option.bind_some, h.found]
  · intro new q
    rw [List.cons_append, nodeAt, hself, Option.bind_some, h.inside]
  · intro new q hq hplace
    cases q with
    | nil => exact absurd (List.nil_prefix) hq
    | cons s' q =>
      rw [nodeAt, nodeAt]
      by_cases hs : s' = s
      · subst hs
        rw [hself, hdown, Option.bind_some, Option.bind_some]
        refine h.outside new q ?_ ?_
        · exact fun hp => hq (List.prefix_cons_inj s' |>.2 hp)
        · exact fun hp => hplace (List.prefix_cons_inj s' |>.2 hp)
      · rw [hother new s' hs]
  · intro new rest
    rw [List.cons_append, resolveTokens, step_eq, hread', Option.bind_some, hself, Option.bind_some,
      h.again]

theorem resolveMut_lens {parts : List String} {document node : Json} {put : Json → Json}
    (h : resolveMut parts document = some (node, put)) :
    ∃ place, Lens document parts place node put := by
  induction parts generalizing document node put with
  | nil =>
    cases h
    exact ⟨[], rfl, rfl, fun _ _ => rfl, fun _ q _ hp => absurd (List.nil_prefix) hp,
      fun _ _ => rfl⟩
  | cons part parts ih =>
    cases document with
    | object members =>
      simp only [resolveMut, Option.bind_eq_bind, Option.bind_eq_some_iff, Prod.exists,
        Option.some.injEq, Prod.mk.injEq] at h
      obtain ⟨i, hi, name, value, hm, node', put', hrest, rfl, rfl⟩ := h
      obtain ⟨before, value', after, rfl, rfl, hafter⟩ := rposition_eq_some hi
      rw [List.getElem?_append_right (Nat.le_refl _), Nat.sub_self, List.getElem?_cons_zero,
        Option.some.injEq, Prod.mk.injEq] at hm
      obtain ⟨rfl, rfl⟩ := hm
      obtain ⟨place, hlens⟩ := ih hrest
      have hset : ∀ new : Json, (before ++ (part, value') :: after).set before.length (part, new) =
          before ++ (part, new) :: after := by
        intro new
        simp
      refine ⟨.member part :: place, hlens.step rfl ?_ (fun _ => rfl) ?_ ?_⟩
      · rw [down, lookup_middle, hafter]
        simp
      · intro new
        rw [hset, down, lookup_middle, hafter]
        simp
      · intro new s' hs
        rw [hset]
        cases s' with
        | element at' => rfl
        | member key =>
          have hne : part ≠ key := fun heq => hs (by rw [heq])
          rw [down, down, lookup_middle, lookup_middle, if_neg hne, if_neg hne]
    | array items =>
      simp only [resolveMut, Option.bind_eq_bind, Option.bind_eq_some_iff, Prod.exists,
        Option.some.injEq, Prod.mk.injEq] at h
      obtain ⟨at', hat, item, hitem, node', put', hrest, rfl, rfl⟩ := h
      obtain ⟨place, hlens⟩ := ih hrest
      have hlt : at' < items.length := (List.getElem?_eq_some_iff.1 hitem).1
      refine ⟨.element at' :: place, hlens.step (by rw [readStep, hat]; rfl) hitem
        (fun _ => by rw [readStep, hat]; rfl) ?_ ?_⟩
      · intro new
        rw [down, List.getElem?_set_self hlt]
      · intro new s' hs
        cases s' with
        | member key => rfl
        | element j =>
          have hne : at' ≠ j := fun heq => hs (by rw [heq])
          rw [down, down, List.getElem?_set_ne hne]
    | _ => cases h

theorem resolveMut_resolves (parts : List String) (document : Json) :
    (resolveMut parts document).map Prod.fst = resolveTokens document parts := by
  induction parts generalizing document with
  | nil => rfl
  | cons part parts ih =>
    cases document with
    | object members =>
      rw [resolveTokens, step, Json.get]
      cases hi : rposition part members with
      | none =>
        rw [rposition_eq_none.1 hi]
        simp [resolveMut, hi]
      | some i =>
        obtain ⟨before, value, after, rfl, rfl, hafter⟩ := rposition_eq_some hi
        rw [lookup_middle, hafter]
        simp only [resolveMut, hi, Option.bind_eq_bind, Option.bind_some, Option.map_bind,
          List.getElem?_append_right (Nat.le_refl _), Nat.sub_self, List.getElem?_cons_zero,
          Option.none_or, if_true, Option.some_or, ← ih]
        cases resolveMut parts value <;> rfl
    | array items =>
      rw [resolveTokens, step]
      cases hat : parseUsize part with
      | none => simp [resolveMut, hat]
      | some at' =>
        cases hitem : items[at']? with
        | none => simp [resolveMut, hat, hitem]
        | some item =>
          simp only [resolveMut, hat, hitem, Option.bind_eq_bind, Option.bind_some, ← ih]
          cases resolveMut parts item <;> rfl
    | _ => rfl

end Patch
end FilamentCore.SemanticIr
