import FilamentCore.SemanticIr.Diag

/-!
# Patches (crates/semantic-ir/src/patch.rs)

The patch dialect of the corpus: the operations of RFC 6902 and `x-repeat`. A `&mut` into the
document is the node with what the document becomes when another node stands in its place.
-/

namespace FilamentCore.SemanticIr
namespace Patch
open Json (lookup)

/-! ### Pointers -/

def resolveTokens : Json → List String → Option Json
  | document, [] => some document
  | document, part :: parts => (step document part).bind fun next => resolveTokens next parts

/-- `resolve`: the node a pointer addresses. -/
def resolve (document : Json) (pointer : String) : Option Json :=
  resolveTokens document (split pointer)

/-- `members.iter().rposition(|(name, _)| name == part)`. -/
def rposition (name : String) (members : List (String × Json)) : Option ℕ :=
  (members.reverse.findIdx? fun m => m.1 == name).map fun i => members.length - 1 - i

def resolveMut : List String → Json → Option (Json × (Json → Json))
  | [], document => some (document, id)
  | part :: parts, .object members => do
    let position ← rposition part members
    let member ← members[position]?
    let (node, put) ← resolveMut parts member.2
    some (node, fun new => .object (members.set position (member.1, put new)))
  | part :: parts, .array items => do
    let at' ← parseUsize part
    let item ← items[at']?
    let (node, put) ← resolveMut parts item
    some (node, fun new => .array (items.set at' (put new)))
  | _ :: _, _ => none

/-! ### Edits -/

/-- What `insert` makes of the parent. -/
def insertInto (pointer last : String) (value : Json) : Json → Except String Json
  | .object members =>
    match rposition last members with
    | some position => .ok (.object (members.set position (last, value)))
    | none => .ok (.object (members ++ [(last, value)]))
  | .array items =>
    let past := Except.error ("a patch op addresses " ++ pointer ++ ", which is past the array")
    if last = "-" then .ok (.array (items ++ [value]))
    else
      match parseUsize last with
      | some at' => if at' ≤ items.length then .ok (.array (items.insertIdx at' value)) else past
      | none => past
  | _ => .error ("a patch op addresses " ++ pointer ++ ", whose parent is a scalar")

/-- What `remove` makes of the parent. -/
def removeFrom (pointer last : String) : Json → Except String Json
  | .object members =>
    match rposition last members with
    | some position => .ok (.object (members.eraseIdx position))
    | none => .error ("a patch op removes " ++ pointer ++ ", which is absent")
  | .array items =>
    let past := Except.error ("a patch op removes " ++ pointer ++ ", which is past the array")
    match parseUsize last with
    | some at' => if at' < items.length then .ok (.array (items.eraseIdx at')) else past
    | none => past
  | _ => .error ("a patch op addresses " ++ pointer ++ ", whose parent is a scalar")

def editParent (document : Json) (pointer : String) (parents : List String)
    (edit : Json → Except String Json) : Except String Json :=
  match resolveMut parents document with
  | none => .error ("a patch op addresses " ++ pointer ++ ", whose parent is absent")
  | some (parent, put) => (edit parent).map put

def insert (document : Json) (pointer : String) (value : Json) : Except String Json :=
  let tokens := split pointer
  match tokens.getLast? with
  | none => .ok value
  | some last => editParent document pointer tokens.dropLast (insertInto pointer last value)

def set (document : Json) (pointer : String) (value : Json) : Except String Json :=
  match resolveMut (split pointer) document with
  | some (_, put) => .ok (put value)
  | none => .error ("a replace op addresses " ++ pointer ++ ", which is absent")

def remove (document : Json) (pointer : String) : Except String Json :=
  let tokens := split pointer
  match tokens.getLast? with
  | none => .error "a patch op removes the whole document"
  | some last => editParent document pointer tokens.dropLast (removeFrom pointer last)

/-! ### Templates -/

/-- `value.replace(pattern, by)` for a pattern of two characters. -/
def replacePair (a b : Char) (by' : List Char) : List Char → List Char
  | c :: d :: cs =>
    if c = a ∧ d = b then by' ++ replacePair a b by' cs else c :: replacePair a b by' (d :: cs)
  | cs => cs

/-- `$i` is the copy index, and `$n` its successor. -/
def substituteText (copy : ℕ) (value : String) : String :=
  String.ofList (replacePair '$' 'n' (toString (copy + 1)).toList
    (replacePair '$' 'i' (toString copy).toList value.toList))

mutual

def substitute (copy : ℕ) : Json → Json
  | .str value => .str (substituteText copy value)
  | .array items => .array (substituteItems copy items)
  | .object members => .object (substituteMembers copy members)
  | other => other

def substituteItems (copy : ℕ) : List Json → List Json
  | [] => []
  | item :: items => substitute copy item :: substituteItems copy items

def substituteMembers (copy : ℕ) : List (String × Json) → List (String × Json)
  | [] => []
  | member :: members => substituteMember copy member :: substituteMembers copy members

def substituteMember (copy : ℕ) : String × Json → String × Json
  | (name, value) => (substituteText copy name, substitute copy value)

end

/-! ### Operations -/

/-- The node a `copy` or a `move` reads. -/
def read (document : Json) (what source : String) : Except String Json :=
  match resolve document source with
  | some value => .ok value
  | none => .error ("a " ++ what ++ " op reads " ++ source ++ ", which is absent")

def applyOne (document op : Json) : Except String Json :=
  match op.getStr "op" with
  | none => .error "a patch operation names no op"
  | some name =>
    let path := (op.getStr "path").getD ""
    let source := (op.getStr "from").getD ""
    let value := (op.get "value").getD .null
    if name = "test" then
      match resolve document path with
      | none => .error ("a test op addresses " ++ path ++ ", which the document does not carry")
      | some found =>
        if found.canonical ≠ value.canonical then .error ("a test op at " ++ path ++ " did not hold")
        else .ok document
    else if name = "add" then insert document path value
    else if name = "replace" then
      if (resolve document path).isNone then
        .error ("a replace op addresses " ++ path ++ ", which is absent")
      else set document path value
    else if name = "remove" then remove document path
    else if name = "copy" then do
      let value ← read document "copy" source
      insert document path value
    else if name = "move" then do
      let value ← read document "move" source
      let document ← remove document source
      insert document path value
    else if name = "x-repeat" then
      match op.getI64 "count" with
      | some count =>
        if 1 ≤ count ∧ count ≤ 512 then
          let template := (op.get "template").getD .null
          (List.range count.toNat).foldlM
            (fun document copy => insert document path (substitute copy template)) document
        else .error "an x-repeat op carries a count between 1 and 512"
      | none => .error "an x-repeat op carries a count between 1 and 512"
    else .error ("the patch dialect does not carry the op " ++ name)

def apply (document : Json) (ops : List Json) : Except String Json := ops.foldlM applyOne document

end Patch
end FilamentCore.SemanticIr
