import FilamentCore.SemanticIr.Assignment

/-!
# The normalized document (crates/semantic-ir/src/normalize.rs)

The document with its canonicalization descriptor and `nullable` materialized, and what the members
of each materialized object are.
-/

namespace FilamentCore.SemanticIr
open Json

namespace Normalize

def descriptor : Json := object [("algorithm", str "rfc8785-v1")]

def materializeField (field : Json) : Json :=
  match field with
  | object members =>
    let nullable := field.get "nullable" == some (bool true)
    object ((members.filter fun m => m.1 ≠ "nullable") ++ [("nullable", bool nullable)])
  | field => field

def materializeFieldArray (fields : Json) : Json := mapItems materializeField fields

def materializeOperation : Json → Json
  | object members => object (members.map fun m =>
      (m.1, if m.1 = "params" then materializeFieldArray m.2 else m.2))
  | operation => operation

def materializeOperations (operations : Json) : Json := mapItems materializeOperation operations

def materializeType : Json → Json
  | object members => object (members.map fun m =>
      (m.1, if m.1 = "fields" then materializeFieldArray m.2
        else if m.1 = "operations" then materializeOperations m.2 else m.2))
  | definition => definition

def materializeTypes (types : Json) : Json := mapItems materializeType types

/-- The members of a document, the descriptor once, at its first place or at the end. -/
def materializeMembers (emitted : Bool) : List (String × Json) → List (String × Json)
  | [] => if emitted then [] else [("canonicalization", descriptor)]
  | (name, value) :: members =>
    if name = "canonicalization" then
      if emitted then materializeMembers emitted members
      else (name, descriptor) :: materializeMembers true members
    else if name = "types" then
      (name, materializeTypes value) :: materializeMembers emitted members
    else (name, value) :: materializeMembers emitted members

def materializeIr : Json → Json
  | object members => object (materializeMembers false members)
  | ir => ir

def normalized (bundle : Json) : List Char :=
  match bundle.get "ir" with
  | some ir => canonical (materializeIr ir)
  | none => canonical null

/-! ### The members of the materialized objects -/

theorem lookup_materializeField (key : String) (members : List (String × Json)) :
    lookup key ((members.filter fun m => m.1 ≠ "nullable") ++
      [("nullable", bool (lookup "nullable" members == some (bool true)))]) =
      if "nullable" = key then some (bool (lookup "nullable" members == some (bool true)))
      else lookup key members := by
  rw [lookup_append, lookup_filter, lookup_cons, lookup_nil, Option.none_or]
  by_cases hk : "nullable" = key
  · rw [if_pos hk, if_pos hk, Option.some_or]
  · rw [if_neg hk, if_neg hk, if_neg (Ne.symm hk), Option.none_or]

theorem lookup_descriptor (emitted : Bool) (members : List (String × Json)) :
    lookup "canonicalization" (materializeMembers emitted members) =
      if emitted then none else some descriptor := by
  induction members generalizing emitted with
  | nil => cases emitted <;> rfl
  | cons m members ih =>
    obtain ⟨name, value⟩ := m
    rw [materializeMembers]
    by_cases hn : name = "canonicalization"
    · rw [if_pos hn]
      cases emitted with
      | true => exact ih true
      | false => rw [if_neg Bool.false_ne_true, lookup_cons, ih true, if_pos hn]; rfl
    · rw [if_neg hn]
      split <;> rw [lookup_cons, ih, if_neg hn, Option.or_none]

theorem lookup_materializeMembers {key : String} (hk : key ≠ "canonicalization") (emitted : Bool)
    (members : List (String × Json)) :
    lookup key (materializeMembers emitted members) =
      if "types" = key then (lookup key members).map materializeTypes else lookup key members := by
  induction members generalizing emitted with
  | nil =>
    have hnil : lookup key (materializeMembers emitted []) = none := by
      rw [materializeMembers]
      cases emitted with
      | true => rfl
      | false => rw [if_neg Bool.false_ne_true, lookup_cons, if_neg (Ne.symm hk)]; rfl
    rw [hnil, lookup_nil]
    split <;> rfl
  | cons m members ih =>
    obtain ⟨name, value⟩ := m
    rw [materializeMembers, lookup_cons]
    by_cases hn : name = "canonicalization"
    · have hne : name ≠ key := fun h => hk (h ▸ hn)
      rw [if_pos hn, if_neg hne, Option.or_none]
      cases emitted with
      | true => exact ih true
      | false => rw [if_neg Bool.false_ne_true, lookup_cons, ih true, if_neg hne, Option.or_none]
    · rw [if_neg hn]
      by_cases ht : "types" = key
      · subst ht
        by_cases hname : name = "types"
        · rw [if_pos hname, lookup_cons, ih, if_pos rfl, if_pos rfl, if_pos hname, if_pos hname,
            Option.map_or]
          rfl
        · rw [if_neg hname, lookup_cons, ih, if_pos rfl, if_pos rfl, if_neg hname, Option.or_none,
            Option.or_none]
      · rw [if_neg ht] at ih ⊢
        by_cases hname : name = "types"
        · have hne : name ≠ key := fun h => ht (hname ▸ h)
          rw [if_pos hname, lookup_cons, ih, if_neg hne, if_neg hne]
        · rw [if_neg hname, lookup_cons, ih]

end Normalize
end FilamentCore.SemanticIr
