import FilamentCore.Library.OrderedMap

/-!
# JSON values as a reader of documents holds them

Numbers written without fraction or exponent are integers, and every other number is the
rational it denotes. An object lists its members, each name once.
-/

namespace FilamentCore.Library.JsonSchema

inductive Json where
  | null
  | bool (value : Bool)
  | integer (value : ℤ)
  | decimal (value : ℚ)
  | str (text : String)
  | array (items : List Json)
  | object (members : List (String × Json))

namespace Json

/-! ### Reading -/

def get (j : Json) (name : String) : Option Json :=
  match j with
  | object members => OrderedMap.lookup name members
  | _ => none

def has (j : Json) (name : String) : Bool := (j.get name).isSome

def number : Json → Option ℚ
  | integer value => some value
  | decimal value => some value
  | _ => none

def text : Json → Option String
  | str text => some text
  | _ => none

def items : Json → List Json
  | array items => items
  | _ => []

def members : Json → List (String × Json)
  | object members => members
  | _ => []

def names (j : Json) : List String := j.members.map Prod.fst

def isObject : Json → Bool
  | object _ => true
  | _ => false

def isArray : Json → Bool
  | array _ => true
  | _ => false

/-! ### Equality -/

mutual

/-- Equality of values: numbers by `number`, objects by the members they have. -/
def alike (number : Json → Option ℚ) (a b : Json) : Bool :=
  (number a).any (fun n => number b == some n) ||
    match a with
    | null => match b with | null => true | _ => false
    | bool x => match b with | bool y => x == y | _ => false
    | str x => match b with | str y => x == y | _ => false
    | array xs => match b with | array ys => alikeItems number xs ys | _ => false
    | object xs =>
      match b with
      | object ys => xs.length == ys.length && alikeMembers number xs ys
      | _ => false
    | _ => false

def alikeItems (number : Json → Option ℚ) : List Json → List Json → Bool
  | [], [] => true
  | a :: as, b :: bs => alike number a b && alikeItems number as bs
  | _, _ => false

def alikeMembers (number : Json → Option ℚ) : List (String × Json) → List (String × Json) → Bool
  | [], _ => true
  | a :: as, bs => alikeMember number a bs && alikeMembers number as bs

def alikeMember (number : Json → Option ℚ) : String × Json → List (String × Json) → Bool
  | (name, a), bs =>
    match OrderedMap.lookup name bs with
    | some b => alike number a b
    | none => false

end

end Json
end FilamentCore.Library.JsonSchema
