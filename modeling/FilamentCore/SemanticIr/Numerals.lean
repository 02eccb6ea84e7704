import FilamentCore.SemanticIr.Document

/-!
# Numerals (crates/semantic-ir/src/rules.rs and unit_graph.rs)

Which numbers of a document are exact, and the canonical spellings of integers, decimals and
rationals in operands and defaults.
-/

namespace FilamentCore.SemanticIr

/-! ### Signed integers -/

def stripMinus : List Char → List Char
  | '-' :: cs => cs
  | cs => cs

def stripSign : List Char → List Char
  | '-' :: cs => cs
  | '+' :: cs => cs
  | cs => cs

/-- The integer a run of digits with an optional sign spells, when the width holds it. -/
def parseInt (width : ℕ) (cs : List Char) : Option ℤ :=
  let digits := stripSign cs
  if digits.isEmpty || !digits.all isAsciiDigit then none
  else
    let value : ℤ := if cs.head? = some '-' then -(decimalValue digits : ℤ) else decimalValue digits
    if -(2 ^ (width - 1) : ℤ) ≤ value ∧ value < 2 ^ (width - 1) then some value else none

/-- A text before its exponent marker, and what follows the marker. -/
def cutExponent : List Char → List Char × Option (List Char)
  | [] => ([], none)
  | c :: cs =>
    if c = 'e' ∨ c = 'E' then ([], some cs)
    else
      let (mantissa, exponent) := cutExponent cs
      (c :: mantissa, exponent)

def cutPoint (cs : List Char) : List Char × List Char :=
  match splitOnce '.' cs with
  | some parts => parts
  | none => (cs, [])

/-! ### Exact numbers -/

def maxExactExpansion : ℤ := 4096

def expansionWouldExceedBudget (lexeme : List Char) : Bool :=
  let (mantissa, exponent) := cutExponent (stripSign lexeme)
  match exponent with
  | none => false
  | some exponent =>
    if (mantissa.filter (· ≠ '.')).all (· == '0') then false
    else
      match parseInt 128 exponent with
      | none => true
      | some exponent =>
        let decimalAt := ((cutPoint mantissa).1.length : ℤ) + exponent
        decide (decimalAt < -maxExactExpansion ∨ maxExactExpansion < decimalAt)

def hugeExponentIsInteger (lexeme : List Char) : Bool :=
  let (mantissa, exponent) := cutExponent (stripSign lexeme)
  match exponent with
  | none => false
  | some exponent =>
    match parseInt 128 exponent with
    | some value => ((cutPoint mantissa).2.length : ℤ) ≤ value
    | none => exponent.head? != some '-'

/-- Digits without leading zeros, one at least. -/
def trimLeading : List Char → List Char
  | '0' :: c :: cs => trimLeading (c :: cs)
  | cs => cs

def trimTrailing (cs : List Char) : List Char := (cs.reverse.dropWhile (· == '0')).reverse

def placePoint (digits : List Char) (decimalAt : ℤ) : List Char × List Char :=
  if decimalAt ≤ 0 then (['0'], List.replicate (-decimalAt).toNat '0' ++ digits)
  else if digits.length ≤ decimalAt.toNat then
    (digits ++ List.replicate (decimalAt.toNat - digits.length) '0', [])
  else (digits.take decimalAt.toNat, digits.drop decimalAt.toNat)

/-- Whether the number is negative, its canonical digits, and whether it is whole. -/
def normalizedNumber (lexeme : List Char) : Option (Bool × List Char × Bool) := do
  let (mantissa, marked) := cutExponent (stripSign lexeme)
  let exponent ← match marked with
    | none => some 0
    | some exponent => parseInt 64 exponent
  let (whole, fraction) := cutPoint mantissa
  if whole.isEmpty || !fraction.all isAsciiDigit || !whole.all isAsciiDigit then none
  let digits := whole ++ fraction
  if digits.all (· == '0') then some (false, ['0'], true)
  else
    let (integer, rest) := placePoint digits (whole.length + exponent)
    let integer := trimLeading integer
    let rest := trimTrailing rest
    some (lexeme.head? == some '-', if rest.isEmpty then integer else integer ++ '.' :: rest,
      rest.isEmpty)

def signed (negative : Bool) (cs : List Char) : List Char := if negative then '-' :: cs else cs

def exactNumberKind (n : Number) : Option Code :=
  let lexeme := n.lexeme.toList
  if expansionWouldExceedBudget lexeme then
    some (if hugeExponentIsInteger lexeme then .inexactInteger else .inexactNumber)
  else
    match normalizedNumber lexeme with
    | none => none
    | some (negative, normalized, whole) =>
      let magnitude := (cutPoint normalized).1.dropWhile (· == '0')
      if whole && (16 < magnitude.length ||
          (magnitude.length == 16 && decide ("9007199254740992" < String.ofList magnitude))) then
        some .inexactInteger
      else
        match normalizedNumber (ecmaNumberToString n.value) with
        | none => none
        | some (minus, rendered, _) =>
          if signed negative normalized = signed minus rendered then none
          else some .inexactNumber

mutual

/-- The pointers and codes of the numbers of a value that are not exact, in document order. -/
def inexactNumbers (pointer : String) : Json → List (String × Code)
  | .number n => ((exactNumberKind n).map fun code => (pointer, code)).toList
  | .array items => inexactItems pointer 0 items
  | .object members => inexactMembers pointer members
  | _ => []

def inexactItems (pointer : String) (position : ℕ) : List Json → List (String × Code)
  | [] => []
  | item :: items =>
    inexactNumbers (index pointer position) item ++ inexactItems pointer (position + 1) items

def inexactMembers (pointer : String) : List (String × Json) → List (String × Code)
  | [] => []
  | m :: ms => inexactMember pointer m ++ inexactMembers pointer ms

def inexactMember (pointer : String) : String × Json → List (String × Code)
  | (name, item) => inexactNumbers (child pointer name) item

end

/-! ### Canonical spellings -/

/-- `0`, or an optional `-` and digits with no leading zero. -/
def isCanonicalInteger (text : String) : Bool :=
  match stripMinus text.toList with
  | [] => false
  | ['0'] => text.toList.head? != some '-'
  | first :: rest => isAsciiDigit first && first != '0' && rest.all isAsciiDigit

def parseI128 (text : String) : Option ℤ :=
  if isCanonicalInteger text then parseInt 128 text.toList else none

def isCanonicalDecimal (text : String) : Bool :=
  let unsigned := stripMinus text.toList
  let (whole, fraction) := cutPoint unsigned
  !(text.toList.head? == some '-' && unsigned == ['0']) &&
    !(whole.isEmpty || !whole.all isAsciiDigit || (1 < whole.length && whole.head? == some '0')) &&
    (fraction.isEmpty || (fraction.all isAsciiDigit && fraction.getLast? != some '0'))

/-- The lengths are cast to `u32`. -/
def decimalWithinPolicy (text : String) (policy : ℕ × ℕ) : Bool :=
  let (whole, fraction) := cutPoint (stripMinus text.toList)
  let integerDigits := if whole = ['0'] then 0 else whole.length % 2 ^ 32
  isCanonicalDecimal text && decide (integerDigits ≤ policy.1 - policy.2) &&
    decide (fraction.length % 2 ^ 32 ≤ policy.2)

/-- `value as f32` is finite and the same value. -/
def float32Exact (value : ℚ) : Bool :=
  let e := max (floorLog2 value.num.natAbs value.den - 23) (-149)
  let s := scaled 2 value.num.natAbs value.den e
  value == 0 || (s.1 % s.2 == 0 && decide (value.num.natAbs < 2 ^ 128 * value.den))

/-! ### Canonical rationals -/

inductive NumericError where
  | noncanonical
  | outsideI128
  deriving DecidableEq, Repr

def NumericError.code : NumericError → Code
  | noncanonical => .invalidOperand
  | outsideI128 => .integerOutsideI128

def canonicalInteger (cs : List Char) : Except NumericError ℤ :=
  let canonical := cs == ['0'] ||
    match stripMinus cs with
    | [] => false
    | first :: rest => isAsciiDigit first && first != '0' && rest.all isAsciiDigit
  if !canonical then .error .noncanonical
  else
    match parseInt 128 cs with
    | some value => .ok value
    | none => .error .outsideI128

inductive RationalKind where
  | zero
  | one
  | other
  deriving DecidableEq, Repr

def canonicalRational (text : String) : Except NumericError RationalKind :=
  match splitOnce '/' text.toList with
  | none => (canonicalInteger text.toList).map fun value =>
      if value = 0 then .zero else if value = 1 then .one else .other
  | some (numerator, denominator) =>
    if denominator.contains '/' then .error .noncanonical
    else
      match canonicalInteger numerator, canonicalInteger denominator with
      | .error .outsideI128, _ => .error .outsideI128
      | _, .error .outsideI128 => .error .outsideI128
      | .error e, _ => .error e
      | _, .error e => .error e
      | .ok numerator, .ok denominator =>
        if numerator = 0 ∨ denominator < 2 then .error .noncanonical
        else if Nat.gcd numerator.natAbs denominator.natAbs = 1 then .ok .other
        else .error .noncanonical

def rationalOperand (text : String) : Except Code Bool :=
  match canonicalRational text with
  | .ok _ => .ok (text.toList.head? == some '-')
  | .error e => .error e.code

end FilamentCore.SemanticIr
