import FilamentCore.Library.LabelledTree
import FilamentCore.SemanticIr.Grammar

/-!
# JSON texts of ECMAScript

A text is a list of UTF-16 code units. A node is one way to spell a value, with the whitespace around
it; `JSON.parse` takes from it a value whose objects keep the last member of each name.
-/

namespace FilamentCore.Compiler.JsonText
open FilamentCore.Library
open FilamentCore.SemanticIr

abbrev Text := List ℕ

def code (c : Char) : ℕ := c.toNat

def units (cs : List Char) : Text := cs.map code

def isBlank (u : ℕ) : Bool := u == 32 || u == 9 || u == 10 || u == 13

def Blank (text : Text) : Prop := ∀ u ∈ text, isBlank u = true

/-! ### Strings -/

/-- What an escape of one character stands for. -/
def simpleEscapes : List (ℕ × ℕ) :=
  [(code '"', code '"'), (code '\\', code '\\'), (code '/', code '/'), (code 'b', 8),
    (code 'f', 12), (code 'n', 10), (code 'r', 13), (code 't', 9)]

def hexValue (u : ℕ) : Option ℕ :=
  if 48 ≤ u ∧ u ≤ 57 then some (u - 48)
  else if 97 ≤ u ∧ u ≤ 102 then some (u - 87)
  else if 65 ≤ u ∧ u ≤ 70 then some (u - 55)
  else none

/-- A code unit of a string, as it is spelled. -/
inductive Piece where
  | plain (u : ℕ)
  | simple (escape : ℕ)
  | hex (a b c d : ℕ)

def Piece.text : Piece → Text
  | plain u => [u]
  | simple escape => [code '\\', escape]
  | hex a b c d => [code '\\', code 'u', a, b, c, d]

def Piece.Valid : Piece → Prop
  | plain u => 32 ≤ u ∧ u ≠ code '"' ∧ u ≠ code '\\'
  | simple escape => (simpleEscapes.lookup escape).isSome = true
  | hex a b c d => ∀ u ∈ [a, b, c, d], (hexValue u).isSome = true

instance (p : Piece) : Decidable p.Valid :=
  match p with
  | .plain u => inferInstanceAs (Decidable (32 ≤ u ∧ u ≠ code '"' ∧ u ≠ code '\\'))
  | .simple escape => inferInstanceAs (Decidable ((simpleEscapes.lookup escape).isSome = true))
  | .hex a b c d => inferInstanceAs (Decidable (∀ u ∈ [a, b, c, d], (hexValue u).isSome = true))

def hexNumber (digits : Text) : ℕ := digits.foldl (fun n u => n * 16 + (hexValue u).getD 0) 0

def Piece.meaning : Piece → ℕ
  | plain u => u
  | simple escape => (simpleEscapes.lookup escape).getD 0
  | hex a b c d => hexNumber [a, b, c, d]

def stringText (pieces : List Piece) : Text :=
  code '"' :: (pieces.flatMap Piece.text ++ [code '"'])

def stringValue (pieces : List Piece) : Text := pieces.map Piece.meaning

/-! ### Nodes -/

/-- A member name, with the whitespace around it. -/
structure Key where
  before : Text
  pieces : List Piece
  after : Text

def Key.text (key : Key) : Text := key.before ++ (stringText key.pieces ++ key.after)

def Key.name (key : Key) : Text := stringValue key.pieces

structure Key.Valid (key : Key) : Prop where
  before : Blank key.before
  pieces : ∀ p ∈ key.pieces, p.Valid
  after : Blank key.after

/-- A number, `true`, `false` or `null`. -/
def IsPrimitive (text : Text) : Prop :=
  ∃ cs, text = units cs ∧
    (cs ∈ [['t', 'r', 'u', 'e'], ['f', 'a', 'l', 's', 'e'], ['n', 'u', 'l', 'l']] ∨
      Grammar.NumberText cs)

/-- A value as it is spelled; `inner` is the whitespace of brackets that hold nothing. -/
inductive Node where
  | primitive (before text after : Text)
  | string (before : Text) (pieces : List Piece) (after : Text)
  | array (before inner : Text) (items : List Node) (after : Text)
  | object (before inner : Text) (members : List (Key × Node)) (after : Text)

namespace Node

def before : Node → Text
  | primitive before _ _ | string before _ _ | array before _ _ _ | object before _ _ _ => before

def after : Node → Text
  | primitive _ _ after | string _ _ after | array _ _ _ after | object _ _ _ after => after

/-- The comma that a next item or member follows. -/
def comma {α : Type} (rest : List α) : Text := if rest.isEmpty then [] else [code ',']

mutual

def text : Node → Text
  | primitive before text after => before ++ (text ++ after)
  | string before pieces after => before ++ (stringText pieces ++ after)
  | array before inner items after =>
    before ++ (code '[' :: ((if items.isEmpty then inner else []) ++ (itemsText items ++ after)))
  | object before inner members after =>
    before ++ (code '\x7b' :: ((if members.isEmpty then inner else []) ++
      (membersText members ++ after)))

/-- The items and the commas between them, with the bracket that closes them. -/
def itemsText : List Node → Text
  | [] => [code ']']
  | item :: items => text item ++ (comma items ++ itemsText items)

def membersText : List (Key × Node) → Text
  | [] => [code '\x7d']
  | m :: members => memberText m ++ (comma members ++ membersText members)

def memberText : Key × Node → Text
  | (key, node) => key.text ++ (code ':' :: text node)

end

mutual

def Valid : Node → Prop
  | primitive before text after => Blank before ∧ IsPrimitive text ∧ Blank after
  | string before pieces after => Blank before ∧ (∀ p ∈ pieces, p.Valid) ∧ Blank after
  | array before inner items after => Blank before ∧ Blank inner ∧ ItemsValid items ∧ Blank after
  | object before inner members after =>
    Blank before ∧ Blank inner ∧ MembersValid members ∧ Blank after

def ItemsValid : List Node → Prop
  | [] => True
  | item :: items => Valid item ∧ ItemsValid items

def MembersValid : List (Key × Node) → Prop
  | [] => True
  | m :: members => MemberValid m ∧ MembersValid members

def MemberValid : Key × Node → Prop
  | (key, node) => key.Valid ∧ Valid node

end

mutual

/-- The names of each object are distinct. -/
def Distinct : Node → Prop
  | primitive .. | string .. => True
  | array _ _ items _ => ItemsDistinct items
  | object _ _ members _ => (members.map fun m => m.1.name).Nodup ∧ MembersDistinct members

def ItemsDistinct : List Node → Prop
  | [] => True
  | item :: items => Distinct item ∧ ItemsDistinct items

def MembersDistinct : List (Key × Node) → Prop
  | [] => True
  | m :: members => MemberDistinct m ∧ MembersDistinct members

def MemberDistinct : Key × Node → Prop
  | (_, node) => Distinct node

end

@[elab_as_elim]
theorem nested_induction {motive : Node → Prop} (node : Node)
    (primitive : ∀ before text after, motive (primitive before text after))
    (string : ∀ before pieces after, motive (string before pieces after))
    (array : ∀ before inner items after, (∀ item ∈ items, motive item) →
      motive (array before inner items after))
    (object : ∀ before inner members after, (∀ m ∈ members, motive m.2) →
      motive (object before inner members after)) : motive node :=
  @Node.rec motive (fun items => ∀ item ∈ items, motive item)
    (fun members => ∀ m ∈ members, motive m.2) (fun m => motive m.2) primitive string array object
    (fun _ hm => absurd hm List.not_mem_nil)
    (fun _ _ hitem hitems => List.forall_mem_cons.2 ⟨hitem, hitems⟩)
    (fun _ hm => absurd hm List.not_mem_nil)
    (fun _ _ hmember hmembers => List.forall_mem_cons.2 ⟨hmember, hmembers⟩)
    (fun _ _ hvalue => hvalue) node

end Node

namespace Node

theorem itemsValid_iff {items : List Node} : ItemsValid items ↔ ∀ item ∈ items, Valid item := by
  induction items with
  | nil => simp [ItemsValid]
  | cons item items ih => rw [ItemsValid, ih, List.forall_mem_cons]

theorem membersValid_iff {members : List (Key × Node)} :
    MembersValid members ↔ ∀ m ∈ members, m.1.Valid ∧ Valid m.2 := by
  induction members with
  | nil => simp [MembersValid]
  | cons m members ih => rw [MembersValid, ih, List.forall_mem_cons, MemberValid]

theorem Valid.after {node : Node} (h : node.Valid) : Blank node.after := by
  cases node <;> rw [Valid] at h
  · exact h.2.2
  · exact h.2.2
  · exact h.2.2.2
  · exact h.2.2.2

end Node

/-! ### `JSON.parse` -/

/-- What `JSON.parse` returns; the properties of an object are in no order. -/
inductive Value where
  | primitive (text : Text)
  | string (value : Text)
  | array (items : List Value)
  | object (members : List (Text × Value))

/-- The decimal digits of an index. -/
def digits (n : ℕ) : Text := units (toString n).toList

namespace Node

mutual

def parse : Node → Value
  | primitive _ text _ => .primitive text
  | string _ pieces _ => .string (stringValue pieces)
  | array _ _ items _ => .array (parseItems items)
  | object _ _ members _ => .object (parseMembers members)

def parseItems : List Node → List Value
  | [] => []
  | item :: items => parse item :: parseItems items

/-- A property that a later member defines again is not there. -/
def parseMembers : List (Key × Node) → List (Text × Value)
  | [] => []
  | m :: members =>
    if m.1.name ∈ members.map fun other => other.1.name then parseMembers members
    else parseMember m :: parseMembers members

def parseMember : Key × Node → Text × Value
  | (key, node) => (key.name, parse node)

end

end Node

namespace Value

mutual

def entries (path : List Text) : Value → List (List Text × Value)
  | primitive text => [(path, primitive text)]
  | string value => [(path, string value)]
  | array items => (path, array items) :: itemEntries path 0 items
  | object members => (path, object members) :: memberEntries path members

def itemEntries (path : List Text) (position : ℕ) : List Value → List (List Text × Value)
  | [] => []
  | item :: items =>
    entries (path ++ [digits position]) item ++ itemEntries path (position + 1) items

def memberEntries (path : List Text) : List (Text × Value) → List (List Text × Value)
  | [] => []
  | m :: members => memberEntry path m ++ memberEntries path members

def memberEntry (path : List Text) : Text × Value → List (List Text × Value)
  | (name, value) => entries (path ++ [name]) value

end

end Value

/-! ### Where the values stand -/

/-- The offsets of a value's token and of the member name before it, with the node they are of. -/
structure Spot where
  value : ℕ
  key : Option ℕ
  source : Node

namespace Node

mutual

def spots (offset : ℕ) (key : Option ℕ) : Node → LabelledTree Text Spot
  | primitive before text after =>
    .node ⟨offset + before.length, key, primitive before text after⟩ []
  | string before pieces after =>
    .node ⟨offset + before.length, key, string before pieces after⟩ []
  | array before inner items after =>
    .node ⟨offset + before.length, key, array before inner items after⟩
      (itemSpots (offset + before.length + 1 + (if items.isEmpty then inner else []).length) 0
        items)
  | object before inner members after =>
    .node ⟨offset + before.length, key, object before inner members after⟩
      (memberSpots (offset + before.length + 1 + (if members.isEmpty then inner else []).length)
        members)

def itemSpots (offset position : ℕ) : List Node → List (Text × LabelledTree Text Spot)
  | [] => []
  | item :: items => (digits position, spots offset none item) ::
      itemSpots (offset + item.text.length + 1) (position + 1) items

def memberSpots (offset : ℕ) : List (Key × Node) → List (Text × LabelledTree Text Spot)
  | [] => []
  | m :: members => memberSpot offset m ::
      memberSpots (offset + (memberText m).length + 1) members

def memberSpot (offset : ℕ) : Key × Node → Text × LabelledTree Text Spot
  | (key, node) => (key.name,
      spots (offset + key.text.length + 1) (some (offset + key.before.length)) node)

end

end Node

end FilamentCore.Compiler.JsonText
