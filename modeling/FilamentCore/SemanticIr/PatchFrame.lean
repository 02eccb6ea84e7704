import FilamentCore.SemanticIr.PatchPlaces

/-!
# What a patch operation leaves unchanged

What RFC 6902 asks of an operation, and exactly when the operations of the dialect do it.
-/

namespace FilamentCore.SemanticIr
namespace Patch
open Json (lookup lookup_append lookup_cons lookup_nil)

/-! ### Gaps -/

/-- Where a step leads once a gap is open at another: only later elements move on. -/
def shiftStep : Step → Step → Step
  | .element n, .element m => if n ≤ m then .element (m + 1) else .element m
  | _, s => s

@[simp] theorem shiftStep_member (name : String) (s : Step) :
    shiftStep (.member name) s = s := by
  cases s <;> rfl

def shift (parent : List Step) (s : Step) (place : List Step) : List Step :=
  if parent <+: place then
    match place.drop parent.length with
    | s' :: rest => parent ++ shiftStep s s' :: rest
    | [] => place
  else place

/-- A place that is not on the way to a gap, and not below the member that is edited. -/
def Apart (parent : List Step) (s : Step) (place : List Step) : Prop :=
  ¬ place <+: parent ∧ ∀ name, s = .member name → ¬ parent ++ [s] <+: place

/-- One document is the other with a node more at a step of a parent. -/
def Opened (small large : Json) (parent : List Step) (s : Step) : Prop :=
  ∀ place, Apart parent s place → nodeAt large (shift parent s place) = nodeAt small place

theorem shift_below (parent : List Step) (s s' : Step) (rest : List Step) :
    shift parent s (parent ++ s' :: rest) = parent ++ shiftStep s s' :: rest := by
  rw [shift, if_pos (List.prefix_append ..), List.drop_left]

theorem shift_beside {parent place : List Step} (s : Step) (h : ¬ parent <+: place) :
    shift parent s place = place := if_neg h

def OpenedNode (small large : Json) (s : Step) : Prop :=
  ∀ s', (∀ name, s = .member name → s' ≠ s) → down large (shiftStep s s') = down small s'

theorem Lens.opened {document : Json} {parts : List String} {place : List Step} {node : Json}
    {put : Json → Json} (h : Lens document parts place node put) {new : Json} {s : Step} :
    (OpenedNode node new s → Opened document (put new) place s) ∧
      (OpenedNode new node s → Opened (put new) document place s) := by
  have hdocument : ∀ q, nodeAt document (place ++ q) = nodeAt node q := by
    intro q
    rw [nodeAt_append, h.found, Option.bind_some]
  have hsplit : ∀ q, Apart place s q → ¬ place <+: q ∨ ∃ s' rest, q = place ++ s' :: rest ∧
      ∀ name, s = .member name → s' ≠ s := by
    intro q hq
    by_cases hp : place <+: q
    · obtain ⟨tail, rfl⟩ := hp
      cases tail with
      | nil => exact absurd (by rw [List.append_nil]) hq.1
      | cons s' rest =>
        refine .inr ⟨s', rest, rfl, fun name hs heq => hq.2 name hs ?_⟩
        exact ⟨rest, by rw [heq, List.append_assoc, List.singleton_append]⟩
    · exact .inl hp
  constructor
  · intro hnode q hq
    rcases hsplit q hq with hp | ⟨s', rest, rfl, hs'⟩
    · rw [shift_beside s hp, h.outside new q hq.1 hp]
    · rw [shift_below, h.inside, hdocument, nodeAt, nodeAt, hnode s' hs']
  · intro hnode q hq
    rcases hsplit q hq with hp | ⟨s', rest, rfl, hs'⟩
    · rw [shift_beside s hp, h.outside new q hq.1 hp]
    · rw [shift_below, h.inside, hdocument, nodeAt, nodeAt, hnode s' hs']

/-! ### Edits of a parent -/

/-- The step at which a token inserts. -/
def gapStep : Json → String → Option Step
  | .object _, last => some (.member last)
  | .array items, last =>
    if last = "-" then some (.element items.length) else (parseUsize last).map .element
  | _, _ => none

theorem insertInto_ok {pointer last : String} {value parent new : Json}
    (h : insertInto pointer last value parent = .ok new) : ∃ s, gapStep parent last = some s ∧
      down new s = some value ∧ OpenedNode parent new s ∧
      (step new last = some value ∨ ∃ items, last = "-" ∧ new = .array (items ++ [value])) := by
  cases parent with
  | object members =>
    have hmember : ∀ before after old, lookup last after = none →
        members = before ++ (last, old) :: after →
        OpenedNode (.object members) (.object (before ++ (last, value) :: after)) (.member last) := by
      intro before after old hafter hmembers s' hs'
      cases s' with
      | element n => rfl
      | member key =>
        have hne : last ≠ key := fun heq => hs' last rfl (by rw [heq])
        rw [shiftStep_member, down, down, hmembers, lookup_middle, lookup_middle, if_neg hne, if_neg hne]
    refine ⟨.member last, rfl, ?_⟩
    simp only [insertInto] at h
    cases hi : rposition last members with
    | some i =>
      obtain ⟨before, old, after, hmembers, rfl, hafter⟩ := rposition_eq_some hi
      have hset : members.set before.length (last, value) = before ++ (last, value) :: after := by
        rw [hmembers]
        simp
      simp only [hi, hset, Except.ok.injEq] at h
      subst h
      have hself : lookup last (before ++ (last, value) :: after) = some value := by
        rw [lookup_middle, hafter]
        simp
      exact ⟨hself, hmember before after old hafter hmembers, .inl hself⟩
    | none =>
      simp only [hi, Except.ok.injEq] at h
      subst h
      have hself : lookup last (members ++ [(last, value)]) = some value := by
        rw [lookup_middle, lookup_nil]
        simp
      refine ⟨hself, fun s' hs' => ?_, .inl hself⟩
      cases s' with
      | element n => rfl
      | member key =>
        have hne : last ≠ key := fun heq => hs' last rfl (by rw [heq])
        rw [shiftStep_member, down, down, lookup_middle, lookup_nil, if_neg hne]
        rfl
  | array items =>
    have hopened : ∀ n, n ≤ items.length →
        OpenedNode (.array items) (.array (items.insertIdx n value)) (.element n) := by
      intro n hn s' _
      cases s' with
      | member key => rfl
      | element m =>
        rw [shiftStep]
        split
        · rename_i hle
          rw [down, down, List.getElem?_insertIdx_of_gt (by omega)]
          rfl
        · rename_i hlt
          rw [down, down, List.getElem?_insertIdx_of_lt (by omega)]
    simp only [insertInto] at h
    by_cases hdash : last = "-"
    · rw [if_pos hdash, Except.ok.injEq] at h
      subst h
      have hinsert : items ++ [value] = items.insertIdx items.length value :=
        (List.insertIdx_length_self ..).symm
      refine ⟨.element items.length, by rw [gapStep, if_pos hdash], ?_, ?_,
        .inr ⟨items, hdash, rfl⟩⟩
      · rw [down, List.getElem?_append_right (Nat.le_refl _), Nat.sub_self]
        rfl
      · rw [hinsert]
        exact hopened items.length (Nat.le_refl _)
    · rw [if_neg hdash] at h
      cases hn : parseUsize last with
      | none => simp [hn] at h
      | some n =>
        simp only [hn] at h
        split at h
        · rename_i hle
          rw [Except.ok.injEq] at h
          subst h
          have hself : (items.insertIdx n value)[n]? = some value := by
            rw [List.getElem?_insertIdx_self, if_pos hle]
          refine ⟨.element n, by rw [gapStep, if_neg hdash, hn]; rfl, hself, hopened n hle, .inl ?_⟩
          rw [step, hn]
          exact hself
        · cases h
  | _ => cases h

/-- What stands at a token of a node once the node there is removed. -/
inductive Following : Json → String → Json → Prop
  | member {members : List (String × Json)} {last : String} {i : ℕ} {node : Json} :
    rposition last members = some i → lookup last (members.take i) = some node →
    Following (.object members) last node
  | element {items : List Json} {last : String} {n : ℕ} {node : Json} :
    parseUsize last = some n → items[n + 1]? = some node → Following (.array items) last node

theorem removeFrom_ok {pointer last : String} {parent new : Json}
    (h : removeFrom pointer last parent = .ok new) : ∃ s node, readStep parent last = some s ∧
      down parent s = some node ∧ OpenedNode new parent s ∧
      ∀ next, step new last = some next ↔ Following parent last next := by
  cases parent with
  | object members =>
    simp only [removeFrom] at h
    cases hi : rposition last members with
    | none => simp [hi] at h
    | some i =>
      obtain ⟨before, value, after, rfl, rfl, hafter⟩ := rposition_eq_some hi
      have herase : (before ++ (last, value) :: after).eraseIdx before.length = before ++ after := by
        rw [List.eraseIdx_append_of_length_le (Nat.le_refl _), Nat.sub_self, List.eraseIdx_cons_zero]
      simp only [hi, herase, Except.ok.injEq] at h
      subst h
      refine ⟨.member last, value, rfl, ?_, fun s' hs' => ?_, fun next => ?_⟩
      · rw [down, lookup_middle, hafter]
        simp
      · cases s' with
        | element n => rfl
        | member key =>
          have hne : last ≠ key := fun heq => hs' last rfl (by rw [heq])
          rw [shiftStep_member, down, down, lookup_middle, lookup_append, if_neg hne, Option.none_or]
      · have hstep : step (.object (before ++ after)) last = lookup last before := by
          rw [step, Json.get, lookup_append, hafter, Option.none_or]
        rw [hstep]
        constructor
        · exact fun hn => .member hi (by rw [List.take_left]; exact hn)
        · intro hf
          cases hf with
          | member hi' hn =>
            rw [hi, Option.some.injEq] at hi'
            rwa [← hi', List.take_left] at hn
  | array items =>
    simp only [removeFrom] at h
    cases hn : parseUsize last with
    | none => simp [hn] at h
    | some n =>
      simp only [hn] at h
      split at h
      · rename_i hlt
        rw [Except.ok.injEq] at h
        subst h
        refine ⟨.element n, items[n], by rw [readStep, hn]; rfl, List.getElem?_eq_getElem hlt,
          fun s' _ => ?_, fun next => ?_⟩
        · cases s' with
          | member key => rfl
          | element m =>
            rw [shiftStep]
            split
            · rename_i hle
              rw [down, down, List.getElem?_eraseIdx_of_ge hle]
            · rename_i hlt'
              rw [down, down, List.getElem?_eraseIdx_of_lt (by omega)]
        · rw [step, hn, Option.bind_some, List.getElem?_eraseIdx_of_ge (Nat.le_refl _)]
          constructor
          · exact fun hnext => .element hn hnext
          · intro hf
            cases hf with
            | element hn' hnext =>
              rw [hn, Option.some.injEq] at hn'
              rw [hn']
              exact hnext
      · cases h
  | _ => cases h

/-! ### Edits of a document -/

inductive Inserted (document : Json) (path : String) (value result : Json) : Prop
  | whole : split path = [] → result = value → Inserted document path value result
  | beside {parents : List String} {last : String} {place : List Step} {parent : Json} {s : Step} :
    split path = parents ++ [last] → placeOf document parents = some place →
    nodeAt document place = some parent → gapStep parent last = some s →
    nodeAt result (place ++ [s]) = some value → Opened document result place s →
    Inserted document path value result

/-- The node at a pointer removed, and nothing beside it. -/
inductive Removed (document : Json) (path : String) (result : Json) : Prop
  | beside {parents : List String} {last : String} {place : List Step} {s : Step} :
    split path = parents ++ [last] → placeOf document (parents ++ [last]) = some (place ++ [s]) →
    Opened result document place s → Removed document path result

/-- The node at a pointer replaced, and nothing beside it. -/
inductive Replaced (document : Json) (path : String) (value result : Json) : Prop
  | beside {place : List Step} : placeOf document (split path) = some place →
    nodeAt result place = some value →
    (∀ q, ¬ q <+: place → ¬ place <+: q → nodeAt result q = nodeAt document q) →
    Replaced document path value result

/-- The pointer resolves to the value, or ends in `-` and the value is the last element. -/
def Added (result : Json) (path : String) (value : Json) : Prop :=
  resolve result path = some value ∨ ∃ parents items, split path = parents ++ ["-"] ∧
    resolveTokens result parents = some (.array (items ++ [value]))

theorem editParent_ok {document : Json} {pointer : String} {parents : List String}
    {edit : Json → Except String Json} {result : Json}
    (h : editParent document pointer parents edit = .ok result) : ∃ place parent put new,
      Lens document parents place parent put ∧ edit parent = .ok new ∧ result = put new := by
  unfold editParent at h
  split at h
  · cases h
  · rename_i parent put hmut
    obtain ⟨place, hlens⟩ := resolveMut_lens hmut
    cases hedit : edit parent with
    | error message =>
      rw [hedit] at h
      cases h
    | ok new =>
      rw [hedit] at h
      cases h
      exact ⟨place, parent, put, new, hlens, hedit, rfl⟩

theorem editParent_of_lens {document parent : Json} {pointer : String} {parents : List String}
    {edit : Json → Except String Json} {new : Json}
    (hparent : resolveTokens document parents = some parent) (hedit : edit parent = .ok new) :
    ∃ result, editParent document pointer parents edit = .ok result := by
  rw [← resolveMut_resolves] at hparent
  obtain ⟨⟨node, put⟩, hmut, rfl⟩ := Option.map_eq_some_iff.1 hparent
  exact ⟨put new, by simp only [editParent, hmut, hedit]; rfl⟩

theorem Lens.resolves {document node : Json} {parts : List String} {place : List Step}
    {put : Json → Json} (h : Lens document parts place node put) :
    resolveTokens document parts = some node := by
  rw [resolveTokens_eq, h.placed, Option.bind_some, h.found]

theorem insert_ok {document value result : Json} {path : String}
    (h : insert document path value = .ok result) :
    Inserted document path value result ∧ Added result path value := by
  unfold insert at h
  simp only at h
  split at h
  · rename_i hlast
    have hnil := List.getLast?_eq_none_iff.1 hlast
    cases h
    exact ⟨.whole hnil rfl, .inl (by rw [resolve, hnil]; rfl)⟩
  · rename_i last hlast
    have htokens : split path = (split path).dropLast ++ [last] :=
      (List.dropLast_append_getLast? last hlast).symm
    obtain ⟨place, parent, put, new, hlens, hedit, rfl⟩ := editParent_ok h
    obtain ⟨s, hgap, hself, hopened, hadded⟩ := insertInto_ok hedit
    have hvalue : nodeAt (put new) (place ++ [s]) = some value := by
      rw [hlens.inside, nodeAt, hself]
      rfl
    refine ⟨.beside htokens hlens.placed hlens.found hgap hvalue (hlens.opened.1 hopened), ?_⟩
    rcases hadded with hstep | ⟨items, hdash, hitems⟩
    · left
      rw [resolve, htokens, hlens.again, resolveTokens, hstep]
      rfl
    · right
      refine ⟨_, items, by rw [← hdash]; exact htokens, ?_⟩
      have hput := hlens.again new []
      rw [List.append_nil] at hput
      rw [hput, hitems]
      rfl

theorem remove_ok {document result : Json} {path : String} (h : remove document path = .ok result) :
    Removed document path result ∧ ∃ parents last parent, split path = parents ++ [last] ∧
      resolveTokens document parents = some parent ∧
      ∀ next, resolveTokens result (split path) = some next ↔ Following parent last next := by
  unfold remove at h
  simp only at h
  split at h
  · cases h
  · rename_i last hlast
    have htokens : split path = (split path).dropLast ++ [last] :=
      (List.dropLast_append_getLast? last hlast).symm
    obtain ⟨place, parent, put, new, hlens, hedit, rfl⟩ := editParent_ok h
    obtain ⟨s, node, hread, hdown, hopened, hnext⟩ := removeFrom_ok hedit
    have hplaced : placeOf document ((split path).dropLast ++ [last]) = some (place ++ [s]) := by
      have hone : placeOf parent [last] = some [s] := by
        simp only [placeOf, hread, Option.bind_eq_bind, Option.bind_some, hdown]
      rw [placeOf_append, hlens.placed, Option.bind_some, hlens.found, Option.bind_some, hone]
      rfl
    refine ⟨.beside htokens hplaced (hlens.opened.2 hopened), _, last, parent, htokens,
      hlens.resolves, fun next => ?_⟩
    rw [htokens, hlens.again, ← hnext, resolveTokens]
    cases step new last <;> simp [resolveTokens]

theorem set_ok {document value result : Json} {path : String}
    (h : set document path value = .ok result) : Replaced document path value result := by
  unfold set at h
  split at h
  · rename_i node put hmut
    obtain ⟨place, hlens⟩ := resolveMut_lens hmut
    cases h
    refine .beside hlens.placed ?_ (hlens.outside value)
    have hinside := hlens.inside value []
    rwa [List.append_nil] at hinside
  · cases h

end Patch
end FilamentCore.SemanticIr
