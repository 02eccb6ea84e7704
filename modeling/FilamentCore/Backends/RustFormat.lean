import Mathlib
import FilamentCore.Library.Tokens

/-!
# The layouts of the emitted Rust (src/compiler/backends/rust-serde/rust-format.mjs)

What `renderValue`, `constItem`, `callLines`, `matchArm` and `callArm` write, line by line.
-/

namespace FilamentCore.Backends.RustFormat

/-! ### Texts -/

abbrev Text := List Char

/-- The length of a JavaScript string. -/
def width (text : Text) : ℕ := (text.map fun c => if c.toNat < 0x10000 then 1 else 2).sum

def maxWidth : ℕ := 100
def structLitWidth : ℕ := 18
def arrayWidth : ℕ := 60
def fnCallWidth : ℕ := 60

def indentation : Text := "    ".toList

/-- `INDENT.repeat(depth)`. -/
def pad (depth : ℕ) : Text := (List.replicate depth indentation).flatten

/-- `texts.join(", ")`. -/
def joined (texts : List Text) : Text := [',', ' '].intercalate texts

/-- What stands before the last `c` and after it. -/
def cutLast (c : Char) : Text → Option (Text × Text)
  | [] => none
  | d :: text =>
    match cutLast c text with
    | some (before, rest) => some (d :: before, rest)
    | none => if d = c then some ([], text) else none

/-- `line` in the place of the first or of the last line. -/
def onHead (f : Text → Text) : List Text → List Text
  | [] => []
  | line :: lines => f line :: lines

def onLast (f : Text → Text) : List Text → List Text
  | [] => []
  | [line] => [f line]
  | line :: lines => line :: onLast f lines

/-! ### Calls -/

/-- `${head}(${args.join(", ")})${suffix}`. -/
def callText (head : Text) (args : List Text) (suffix : Text) : Text :=
  head ++ '(' :: (joined args ++ ')' :: suffix)

def inlineCall (indent head : Text) (args : List Text) (suffix : Text) : Text :=
  indent ++ callText head args suffix

def brokenCall (indent head : Text) (args : List Text) (suffix : Text) : List Text :=
  (indent ++ head ++ ['(']) :: args.map (fun argument => indent ++ indentation ++ argument ++ [','])
    ++ [indent ++ ')' :: suffix]

/-- What `callLines` measures of the call within another one. -/
def enclosing (head : Text) (args : List Text) : Text :=
  match cutLast '(' head with
  | none => []
  | some (_, path) => callText path args []

def callFits (indent head : Text) (args : List Text) (suffix : Text) : Bool :=
  decide (width (joined args) ≤ fnCallWidth) && decide (width (enclosing head args) ≤ fnCallWidth)
    && decide (width (inlineCall indent head args suffix) ≤ maxWidth)

/-- The outer call broken and the inner one whole on a line of its own. -/
def flattenedCall (indent head : Text) (args : List Text) (suffix : Text) : Option (List Text) :=
  match cutLast '(' head with
  | none => none
  | some (outer, path) =>
    let inner := callText path args [',']
    if width (joined args) ≤ fnCallWidth ∧ maxWidth < width (indent ++ head ++ ['(']) ∧
        width (indent ++ indentation ++ inner) ≤ maxWidth then
      some [indent ++ outer ++ ['('], indent ++ indentation ++ inner,
        indent ++ ')' :: (if suffix.head? = some ')' then suffix.tail else suffix)]
    else none

def callLines (indent head : Text) (args : List Text) (suffix : Text) : List Text :=
  if callFits indent head args suffix then [inlineCall indent head args suffix]
  else (flattenedCall indent head args suffix).getD (brokenCall indent head args suffix)

/-! ### Values -/

inductive Value
  | atom (text : Text)
  | call (path : Text) (value : Value)
  | struct (path : Text) (fields : List (Text × Value))
  | slice (items : List Value)

mutual

def inlineOf : Value → Text
  | .atom text => text
  | .call path value => path ++ '(' :: (inlineOf value ++ [')'])
  | .struct path fields =>
    if fields.isEmpty then path ++ " {}".toList
    else path ++ " \x7b ".toList ++ (joined (inlineFields fields) ++ " \x7d".toList)
  | .slice items => "&[".toList ++ (joined (inlineItems items) ++ [']'])

def inlineItems : List Value → List Text
  | [] => []
  | item :: items => inlineOf item :: inlineItems items

def inlineFields : List (Text × Value) → List Text
  | [] => []
  | field :: fields => inlineField field :: inlineFields fields

def inlineField : Text × Value → Text
  | (name, value) => name ++ ": ".toList ++ inlineOf value

end

/-- The widths that `structFitsInline` compares. -/
def structWithin (path : Text) (fields : List (Text × Value)) (column trail : ℕ) : Bool :=
  decide (width (joined (inlineFields fields)) ≤ structLitWidth) &&
    decide (column + width (inlineOf (.struct path fields)) + trail ≤ maxWidth)

mutual

def nestedFitsInline : Value → Bool
  | .atom _ => true
  | .call _ value => nestedFitsInline value
  | .struct path fields => structWithin path fields 0 0 && nestedFieldsFit fields
  | .slice items => nestedItemsFit items

def nestedItemsFit : List Value → Bool
  | [] => true
  | item :: items => nestedFitsInline item && nestedItemsFit items

def nestedFieldsFit : List (Text × Value) → Bool
  | [] => true
  | field :: fields => nestedFieldFits field && nestedFieldsFit fields

def nestedFieldFits : Text × Value → Bool
  | (_, value) => nestedFitsInline value

end

def structFitsInline (path : Text) (fields : List (Text × Value)) (column trail : ℕ) : Bool :=
  structWithin path fields column trail && nestedFieldsFit fields

def valueCallFits (path : Text) (inner : Value) (column trail : ℕ) : Bool :=
  match inner with
  | .atom _ => decide (column + width (inlineOf (.call path inner)) + trail ≤ maxWidth)
  | .slice _ => nestedFitsInline inner &&
      decide (column + width (inlineOf (.call path inner)) + trail ≤ maxWidth)
  | .struct innerPath fields =>
      structFitsInline innerPath fields (column + width path + 1) (trail + 1)
  | .call _ _ => false

def sliceFits (items : List Value) (column trail : ℕ) : Bool :=
  let inline := inlineOf (.slice items)
  decide (column + width inline + trail ≤ maxWidth) && nestedFitsInline (.slice items) &&
    (decide (items.length < 2) || decide (width inline - 3 ≤ arrayWidth))

def wideAtom (value : Value) (fieldColumn : ℕ) : Option Text :=
  match value with
  | .atom text => if maxWidth < fieldColumn + width text + 1 then some text else none
  | _ => none

mutual

def renderValue (depth column trail : ℕ) : Value → List Text
  | .atom text => [text]
  | .call path inner =>
    if valueCallFits path inner column trail then [inlineOf (.call path inner)]
    else onLast (· ++ [')']) (onHead (fun line => path ++ '(' :: line)
      (renderValue depth (column + width path + 1) (trail + 1) inner))
  | .struct path fields =>
    if structFitsInline path fields column trail then [inlineOf (.struct path fields)]
    else (path ++ " \x7b".toList) :: renderFields depth fields ++ [pad depth ++ ['}']]
  | .slice items =>
    if sliceFits items column trail then [inlineOf (.slice items)]
    else
      match items with
      | [item] => onLast (· ++ [']']) (onHead (fun line => "&[".toList ++ line)
          (renderValue depth (column + 2) (trail + 1) item))
      | items => "&[".toList :: renderItems depth items ++ [pad depth ++ [']']]

def renderItems (depth : ℕ) : List Value → List Text
  | [] => []
  | item :: items =>
    onLast (· ++ [',']) (onHead (fun line => pad depth ++ indentation ++ line)
      (renderValue (depth + 1) (width (pad depth) + width indentation) 1 item)) ++
      renderItems depth items

def renderFields (depth : ℕ) : List (Text × Value) → List Text
  | [] => []
  | field :: fields => renderField depth field ++ renderFields depth fields

def renderField (depth : ℕ) : Text × Value → List Text
  | (name, value) =>
    let fieldColumn := width (pad depth) + width indentation + width name + 2
    let inner := match wideAtom value fieldColumn with
      | some text => [[], pad depth ++ indentation ++ indentation ++ text]
      | none => renderValue (depth + 1) fieldColumn 1 value
    onLast (· ++ [',']) (onHead (fun line => pad depth ++ indentation ++ name ++ [':'] ++
      (if line.isEmpty then [] else ' ' :: line)) inner)

end

/-! ### Items and arms -/

/-- `text.trimEnd()` of a text without other whitespace than spaces at its end. -/
def trimEnd (text : Text) : Text := (text.reverse.dropWhile (· == ' ')).reverse

/-- `${visibility}const ${name}: ${type} = `. -/
def constPrefix (visibility name type : Text) : Text :=
  visibility ++ "const ".toList ++ name ++ ": ".toList ++ type ++ " = ".toList

def constItem (visibility name type : Text) (value : Value) : List Text :=
  let before := constPrefix visibility name type
  match renderValue 0 (width before) 0 value with
  | [line] =>
    if width before + width line + 1 ≤ maxWidth then [before ++ line ++ [';']]
    else [visibility ++ "const ".toList ++ name ++ ": ".toList ++ type ++ " =".toList,
      indentation ++ line ++ [';']]
  | lines =>
    if maxWidth < width before + width (lines.headD []) then
      trimEnd before :: onLast (· ++ [';']) (lines.map (indentation ++ ·))
    else onLast (· ++ [';']) (onHead (before ++ ·) lines)

def matchArm (indent pattern body : Text) : List Text :=
  let inline := indent ++ pattern ++ " => ".toList ++ body ++ [',']
  if width inline ≤ maxWidth then [inline]
  else if maxWidth < width (indent ++ indentation ++ body) then [inline]
  else [indent ++ pattern ++ " => \x7b".toList, indent ++ indentation ++ body, indent ++ ['}']]

def withoutComma (suffix : Text) : Text :=
  if suffix.getLast? = some ',' then suffix.dropLast else suffix

def callArm (indent pattern head : Text) (args : List Text) (suffix : Text) : List Text :=
  let onArm := callLines indent (pattern ++ " => ".toList ++ head) args suffix
  if onArm.length = 1 then onArm
  else
    let body := callLines (indent ++ indentation) head args (withoutComma suffix)
    if body.length = 1 then
      (indent ++ pattern ++ " => \x7b".toList) :: body ++ [indent ++ ['}']]
    else onArm

end FilamentCore.Backends.RustFormat
