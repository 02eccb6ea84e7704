import FilamentCore.SemanticIr.IdentitySets
import FilamentCore.SemanticIr.NormalForm

/-!
# Documents with their arrays arranged

A value with the items of each array in the order of its place, and the values a canonicalizer
writes as they stand.
-/

namespace FilamentCore.SemanticIr
open FilamentCore.Library

namespace Json

/-- How arrays are arranged, by place. -/
structure Arrangement (P : Type) where
  item : P → P
  member : P → String → P
  order : P → List Json → List Json

section
variable {P Q : Type}

mutual

/-- Every array in its order, the inner ones first. -/
def arrange (A : Arrangement P) (p : P) : Json → Json
  | array items => array (A.order p (arrangeItems A (A.item p) items))
  | object members => object (arrangeMembers A p members)
  | value => value

def arrangeItems (A : Arrangement P) (p : P) : List Json → List Json
  | [] => []
  | item :: items => arrange A p item :: arrangeItems A p items

def arrangeMembers (A : Arrangement P) (p : P) : List (String × Json) → List (String × Json)
  | [] => []
  | m :: members => arrangeMember A p m :: arrangeMembers A p members

def arrangeMember (A : Arrangement P) (p : P) : String × Json → String × Json
  | (name, value) => (name, arrange A (A.member p name) value)

end

variable (A : Arrangement P) (p : P)

theorem arrange_array (items : List Json) :
    arrange A p (array items) = array (A.order p (items.map (arrange A (A.item p)))) := by
  have hitems : arrangeItems A (A.item p) items = items.map (arrange A (A.item p)) := by
    induction items with
    | nil => rw [arrangeItems, List.map_nil]
    | cons item items ih => rw [arrangeItems, ih, List.map_cons]
  rw [arrange, hitems]

theorem arrange_object (members : List (String × Json)) : arrange A p (object members) =
    object (members.map fun m => (m.1, arrange A (A.member p m.1) m.2)) := by
  have hmembers : arrangeMembers A p members =
      members.map fun m => (m.1, arrange A (A.member p m.1) m.2) := by
    induction members with
    | nil => rw [arrangeMembers, List.map_nil]
    | cons m members ih =>
      have hm : arrangeMember A p m = (m.1, arrange A (A.member p m.1) m.2) := by
        cases m
        rw [arrangeMember]
      rw [arrangeMembers, hm, ih, List.map_cons]
  rw [arrange, hmembers]

theorem asStr_arrange (v : Json) : (arrange A p v).asStr = v.asStr := by
  cases v with
  | array items =>
    rw [arrange_array]
    rfl
  | object members =>
    rw [arrange_object]
    rfl
  | _ => rfl

theorem identityOf_arrange (v : Json) : identityOf (arrange A p v) = identityOf v := by
  cases v with
  | object members =>
    rw [arrange_object]
    change (lookup "identity" _).bind asStr = (lookup "identity" members).bind asStr
    rw [lookup_map "identity" fun name value => arrange A (A.member p name) value]
    cases lookup "identity" members with
    | none => rfl
    | some value => exact asStr_arrange A _ value
  | array items =>
    rw [arrange_array]
    rfl
  | _ => rfl

variable {A p}

theorem arrange_congr {B : Arrangement Q} {R : P → Q → Json → Prop}
    (hitem : ∀ p q items, R p q (array items) → ∀ item ∈ items, R (A.item p) (B.item q) item)
    (hmember : ∀ p q members, R p q (object members) → ∀ m ∈ members,
      R (A.member p m.1) (B.member q m.1) m.2)
    (horder : ∀ p q items, R p q (array items) →
      ∀ arranged, A.order p arranged = B.order q arranged)
    (v : Json) (p : P) (q : Q) (h : R p q v) : arrange A p v = arrange B q v := by
  induction v using nested_induction generalizing p q with
  | array items ih =>
    have hitems : items.map (arrange A (A.item p)) = items.map (arrange B (B.item q)) :=
      List.map_congr_left fun item hi => ih item hi _ _ (hitem p q items h item hi)
    rw [arrange_array, arrange_array, horder p q items h, hitems]
  | object members ih =>
    have hmembers : members.map (fun m => (m.1, arrange A (A.member p m.1) m.2)) =
        members.map fun m => (m.1, arrange B (B.member q m.1) m.2) := by
      apply List.map_congr_left
      intro m hm
      rw [ih m hm _ _ (hmember p q members h m hm)]
    rw [arrange_object, arrange_object, hmembers]
  | _ => rfl

end

end Json
end FilamentCore.SemanticIr
