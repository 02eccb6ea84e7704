import FilamentCore.SemanticIr.Number
import FilamentCore.Packages.Version

/-!
# JSON values (crates/semantic-ir/src/json.rs)

Values that keep number lexemes, member order and duplicate members, the accessors, and
the canonical form.
-/

namespace FilamentCore.SemanticIr
open FilamentCore.Packages (codeUnits)

inductive Json where
  | null
  | bool (value : Bool)
  | number (number : Number)
  | str (text : String)
  | array (items : List Json)
  | object (members : List (String × Json))

namespace Json

/-! ### Equality -/

mutual

/-- `PartialEq`: the same lexemes, and the same members in the same order. -/
def same : Json → Json → Bool
  | null, null => true
  | bool a, bool b => a == b
  | number a, number b => a == b
  | str a, str b => a == b
  | array a, array b => sameItems a b
  | object a, object b => sameMembers a b
  | _, _ => false

def sameItems : List Json → List Json → Bool
  | [], [] => true
  | a :: as, b :: bs => same a b && sameItems as bs
  | _, _ => false

def sameMembers : List (String × Json) → List (String × Json) → Bool
  | [], [] => true
  | a :: as, b :: bs => sameMember a b && sameMembers as bs
  | _, _ => false

def sameMember : String × Json → String × Json → Bool
  | (n, a), (m, b) => n == m && same a b

end

mutual

theorem same_iff : ∀ a b : Json, same a b = true ↔ a = b
  | null, b => by cases b <;> simp [same]
  | bool a, b => by cases b <;> simp [same]
  | number a, b => by cases b <;> simp [same]
  | str a, b => by cases b <;> simp [same]
  | array a, b => by
    cases b with
    | array b => simp only [same, sameItems_iff a b, array.injEq]
    | _ => simp [same]
  | object a, b => by
    cases b with
    | object b => simp only [same, sameMembers_iff a b, object.injEq]
    | _ => simp [same]

theorem sameItems_iff : ∀ a b : List Json, sameItems a b = true ↔ a = b
  | [], b => by cases b <;> simp [sameItems]
  | a :: as, b => by
    cases b with
    | nil => simp [sameItems]
    | cons b bs =>
      simp only [sameItems, Bool.and_eq_true, same_iff a b, sameItems_iff as bs, List.cons.injEq]

theorem sameMembers_iff : ∀ a b : List (String × Json), sameMembers a b = true ↔ a = b
  | [], b => by cases b <;> simp [sameMembers]
  | a :: as, b => by
    cases b with
    | nil => simp [sameMembers]
    | cons b bs =>
      simp only [sameMembers, Bool.and_eq_true, sameMember_iff a b, sameMembers_iff as bs,
        List.cons.injEq]

theorem sameMember_iff : ∀ a b : String × Json, sameMember a b = true ↔ a = b
  | (n, a), (m, b) => by
    simp only [sameMember, Bool.and_eq_true, beq_iff_eq, same_iff a b, Prod.mk.injEq]

end

instance : DecidableEq Json := fun a b => decidable_of_iff _ (same_iff a b)

/-! ### Accessors -/

/-- The value of the last member of the name. -/
def lookup (key : String) (members : List (String × Json)) : Option Json :=
  (members.reverse.find? fun m => m.1 == key).map Prod.snd

def get (j : Json) (key : String) : Option Json :=
  match j with
  | object members => lookup key members
  | _ => none

def asStr : Json → Option String
  | str text => some text
  | _ => none

def asBool : Json → Option Bool
  | bool value => some value
  | _ => none

def asArray : Json → Option (List Json)
  | array items => some items
  | _ => none

def asObject : Json → Option (List (String × Json))
  | object members => some members
  | _ => none

def asF64 : Json → Option ℚ
  | number n => some n.value
  | _ => none

def asI64 : Json → Option ℤ
  | number n => n.asI64
  | _ => none

def has (j : Json) (key : String) : Bool := (j.get key).isSome

/-- `get(key).and_then(Json::as_str)`, and so on. -/
def getStr (j : Json) (key : String) : Option String := (j.get key).bind asStr
def getBool (j : Json) (key : String) : Option Bool := (j.get key).bind asBool
def getI64 (j : Json) (key : String) : Option ℤ := (j.get key).bind asI64
def getArray (j : Json) (key : String) : Option (List Json) := (j.get key).bind asArray

/-- `get(key).and_then(Json::as_array).unwrap_or(&[])`. -/
def members (j : Json) (key : String) : List Json := (j.getArray key).getD []

theorem asStr_eq_some {v : Json} {text : String} : v.asStr = some text ↔ v = str text := by
  cases v <;> simp [asStr]

theorem asArray_eq_some {v : Json} {items : List Json} : v.asArray = some items ↔ v = array items := by
  cases v <;> simp [asArray]

theorem asObject_eq_some {v : Json} {members : List (String × Json)} :
    v.asObject = some members ↔ v = object members := by
  cases v <;> simp [asObject]

/-! ### The canonical form -/

def hexDigit (n : ℕ) : Char := Char.ofNat (if n < 10 then 48 + n else 87 + n)

/-- One character as `write_string` writes it. -/
def escapeChar (c : Char) : List Char :=
  if c = '"' then ['\\', '"']
  else if c = '\\' then ['\\', '\\']
  else if c = Char.ofNat 8 then ['\\', 'b']
  else if c = Char.ofNat 12 then ['\\', 'f']
  else if c = '\n' then ['\\', 'n']
  else if c = '\r' then ['\\', 'r']
  else if c = '\t' then ['\\', 't']
  else if c.toNat < 0x20 then
    ['\\', 'u', '0', '0', hexDigit (c.toNat / 16), hexDigit (c.toNat % 16)]
  else [c]

def writeString (text : String) : List Char := '"' :: (text.toList.flatMap escapeChar) ++ ['"']

/-- `resolved_members`: the last value of a name, at the place of its first. -/
def resolveMember {α : Type} (resolved : List (String × α)) (m : String × α) :
    List (String × α) :=
  match resolved with
  | [] => [m]
  | r :: rs => if r.1 = m.1 then m :: rs else r :: resolveMember rs m

def resolvedMembers {α : Type} (members : List (String × α)) : List (String × α) :=
  members.foldl resolveMember []

/-- `compare_utf16` is not greater. -/
def utf16Le (left right : String) : Bool := codeUnits left.toList ≤ codeUnits right.toList

def sortedMembers {α : Type} (members : List (String × α)) : List (String × α) :=
  (resolvedMembers members).insertionSort fun l r => utf16Le l.1 r.1 = true

def commaSeparated : List (List Char) → List Char
  | [] => []
  | [t] => t
  | t :: ts => t ++ ',' :: commaSeparated ts

mutual

/-- `to_canonical_string`. -/
def canonical : Json → List Char
  | null => "null".toList
  | bool true => "true".toList
  | bool false => "false".toList
  | number n => ecmaNumberToString n.value
  | str text => writeString text
  | array items => '[' :: commaSeparated (canonicalItems items) ++ [']']
  | object members => '{' :: commaSeparated ((sortedMembers (canonicalMembers members)).map
      fun m => writeString m.1 ++ ':' :: m.2) ++ ['}']

def canonicalItems : List Json → List (List Char)
  | [] => []
  | item :: items => canonical item :: canonicalItems items

def canonicalMembers : List (String × Json) → List (String × List Char)
  | [] => []
  | m :: ms => canonicalMember m :: canonicalMembers ms

def canonicalMember : String × Json → String × List Char
  | (name, value) => (name, canonical value)

end

end Json
end FilamentCore.SemanticIr
