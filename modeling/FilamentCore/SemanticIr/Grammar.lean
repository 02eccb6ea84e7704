import FilamentCore.SemanticIr.Json

/-!
# The JSON grammar of RFC 8259

Which texts spell which value. The number of a text is in the binary64 range, and a string is a
sequence of characters, so no escape of a lone surrogate spells one. Members stand in the order
of the text, repeated names and all.
-/

namespace FilamentCore.SemanticIr
namespace Grammar

/-! ### Whitespace, numbers, strings -/

/-- `ws`. -/
def Blank (text : List Char) : Prop :=
  ∀ c ∈ text, c = ' ' ∨ c = '\t' ∨ c = '\n' ∨ c = '\r'

def Digits (text : List Char) : Prop := text ≠ [] ∧ ∀ c ∈ text, isAsciiDigit c = true

/-- `int`: no digit follows a leading zero. -/
def IntegerText (text : List Char) : Prop := Digits text ∧ (text.head? = some '0' → text = ['0'])

/-- `[ frac ]`. -/
def FractionText (text : List Char) : Prop := text = [] ∨ ∃ ds, Digits ds ∧ text = '.' :: ds

/-- `[ exp ]`. -/
def ExponentText (text : List Char) : Prop :=
  text = [] ∨ ∃ e sign ds, (e = 'e' ∨ e = 'E') ∧ (sign = [] ∨ sign = ['+'] ∨ sign = ['-']) ∧
    Digits ds ∧ text = e :: (sign ++ ds)

/-- `number`. -/
def NumberText (text : List Char) : Prop :=
  ∃ sign whole fraction exponent, (sign = [] ∨ sign = ['-']) ∧ IntegerText whole ∧
    FractionText fraction ∧ ExponentText exponent ∧ text = sign ++ whole ++ fraction ++ exponent

inductive HexDigit : Char → ℕ → Prop where
  | digit (n : ℕ) : n < 10 → HexDigit (Char.ofNat (48 + n)) n
  | lower (n : ℕ) : n < 6 → HexDigit (Char.ofNat (97 + n)) (10 + n)
  | upper (n : ℕ) : n < 6 → HexDigit (Char.ofNat (65 + n)) (10 + n)

/-- `4HEXDIG`. -/
def HexText (text : List Char) (n : ℕ) : Prop :=
  ∃ a b c d i j k l, text = [a, b, c, d] ∧ HexDigit a i ∧ HexDigit b j ∧ HexDigit c k ∧
    HexDigit d l ∧ n = i * 16 ^ 3 + j * 16 ^ 2 + k * 16 + l

/-- The characters a backslash may stand before, and what they stand for. -/
def escapes : List (Char × Char) :=
  [('"', '"'), ('\\', '\\'), ('/', '/'), ('b', Char.ofNat 8), ('f', Char.ofNat 12), ('n', '\n'),
    ('r', '\r'), ('t', '\t')]

/-- `char`: one character of a string. -/
inductive CharText : List Char → Char → Prop where
  | unescaped {c : Char} : 0x20 ≤ c.toNat → c ≠ '"' → c ≠ '\\' → CharText [c] c
  | escaped {e c : Char} : (e, c) ∈ escapes → CharText ['\\', e] c
  | unicode {text : List Char} {c : Char} : HexText text c.toNat → CharText ('\\' :: 'u' :: text) c
  | pair {high low : List Char} {i j : ℕ} {c : Char} : HexText high (0xD800 + i) →
      HexText low (0xDC00 + j) → i < 0x400 → j < 0x400 → c.toNat = 0x10000 + i * 0x400 + j →
      CharText ('\\' :: 'u' :: high ++ '\\' :: 'u' :: low) c

inductive CharsText : List Char → List Char → Prop where
  | nil : CharsText [] []
  | cons {text rest cs : List Char} {c : Char} : CharText text c → CharsText rest cs →
      CharsText (text ++ rest) (c :: cs)

/-- `string`. -/
def StringText (text : List Char) (s : String) : Prop :=
  ∃ body, CharsText body s.toList ∧ text = '"' :: (body ++ ['"'])

/-! ### Values -/

/-- What a text may spell: a value, or what follows the first of some values or members up to the
closing bracket. -/
inductive Part where
  | value (v : Json)
  | items (vs : List Json)
  | members (ms : List (String × Json))

inductive Spells : List Char → Part → Prop where
  | null : Spells ['n', 'u', 'l', 'l'] (.value .null)
  | true : Spells ['t', 'r', 'u', 'e'] (.value (.bool true))
  | false : Spells ['f', 'a', 'l', 's', 'e'] (.value (.bool false))
  | number {n : Number} : NumberText n.lexeme.toList →
      Spells n.lexeme.toList (.value (.number n))
  | str {text : List Char} {s : String} : StringText text s → Spells text (.value (.str s))
  | emptyArray {w : List Char} : Blank w → Spells ('[' :: (w ++ [']'])) (.value (.array []))
  | array {w text rest : List Char} {v : Json} {vs : List Json} : Blank w →
      Spells text (.value v) → Spells rest (.items vs) →
      Spells ('[' :: (w ++ text ++ rest)) (.value (.array (v :: vs)))
  | lastItem {w : List Char} : Blank w → Spells (w ++ [']']) (.items [])
  | nextItem {w w' text rest : List Char} {v : Json} {vs : List Json} : Blank w → Blank w' →
      Spells text (.value v) → Spells rest (.items vs) →
      Spells (w ++ ',' :: (w' ++ text ++ rest)) (.items (v :: vs))
  | emptyObject {w : List Char} : Blank w → Spells ('\x7b' :: (w ++ ['\x7d'])) (.value (.object []))
  | object {w name w₁ w₂ text rest : List Char} {key : String} {v : Json}
      {ms : List (String × Json)} : Blank w → StringText name key → Blank w₁ → Blank w₂ →
      Spells text (.value v) → Spells rest (.members ms) →
      Spells ('\x7b' :: (w ++ name ++ w₁ ++ ':' :: (w₂ ++ text ++ rest)))
        (.value (.object ((key, v) :: ms)))
  | lastMember {w : List Char} : Blank w → Spells (w ++ ['\x7d']) (.members [])
  | nextMember {w w' name w₁ w₂ text rest : List Char} {key : String} {v : Json}
      {ms : List (String × Json)} : Blank w → Blank w' → StringText name key → Blank w₁ →
      Blank w₂ → Spells text (.value v) → Spells rest (.members ms) →
      Spells (w ++ ',' :: (w' ++ name ++ w₁ ++ ':' :: (w₂ ++ text ++ rest)))
        (.members ((key, v) :: ms))

def JsonText (text : List Char) (v : Json) : Prop :=
  ∃ w body w', Blank w ∧ Spells body (.value v) ∧ Blank w' ∧ text = w ++ body ++ w'

/-! ### Depth -/

mutual

/-- The most arrays and objects that enclose one value of `v`. -/
def depth : Json → ℕ
  | .array items => depthItems items
  | .object members => depthMembers members
  | _ => 0

def depthItems : List Json → ℕ
  | [] => 0
  | item :: items => max (depth item + 1) (depthItems items)

def depthMembers : List (String × Json) → ℕ
  | [] => 0
  | m :: ms => max (depthMember m + 1) (depthMembers ms)

def depthMember : String × Json → ℕ
  | (_, value) => depth value

end

end Grammar
end FilamentCore.SemanticIr
