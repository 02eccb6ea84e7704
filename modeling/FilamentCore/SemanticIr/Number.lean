import Mathlib

/-!
# Numbers (crates/semantic-ir/src/json.rs and number.rs)

The number grammar of the reader, the `f64` a lexeme parses to, as an exact rational,
and `ecma_number_to_string`.
-/

namespace FilamentCore.SemanticIr

/-! ### binary64 -/

/-- `n / d` to the nearest integer, ties to even. -/
def roundHalfEven (n d : ℕ) : ℕ :=
  let q := n / d
  let r := n % d
  if d < 2 * r ∨ (d = 2 * r ∧ q % 2 = 1) then q + 1 else q

/-- Numerator and denominator of `n / d / b ^ e`. -/
def scaled (b n d : ℕ) (e : ℤ) : ℕ × ℕ :=
  if 0 ≤ e then (n, d * b ^ e.toNat) else (n * b ^ (-e).toNat, d)

def power (b : ℕ) (e : ℤ) : ℚ :=
  if 0 ≤ e then ((b ^ e.toNat : ℕ) : ℚ) else mkRat 1 (b ^ (-e).toNat)

def floorLog2 (n d : ℕ) : ℤ :=
  let k : ℤ := (n.log2 : ℤ) - d.log2
  let s := scaled 2 n d k
  if s.1 < s.2 then k - 1 else k

/-- The nearest binary64 value, ties to even; `none` from `2^1024` on. -/
def binary64 (q : ℚ) : Option ℚ :=
  if q = 0 then some 0
  else
    let n := q.num.natAbs
    let e := max (floorLog2 n q.den - 52) (-1074)
    let s := scaled 2 n q.den e
    let v := (roundHalfEven s.1 s.2 : ℚ) * power 2 e
    if power 2 1024 ≤ v then none else some (if q < 0 then -v else v)

/-! ### Lexemes -/

def isAsciiDigit (c : Char) : Bool := '0' ≤ c && c ≤ '9'

/-- The integer a run of decimal digits spells. -/
def decimalValue (ds : List Char) : ℕ :=
  ds.foldl (fun acc c => 10 * acc + (c.toNat - '0'.toNat)) 0

/-- The fraction digits after `.`, and what follows them. -/
def readFraction : List Char → Option (List Char × List Char)
  | '.' :: rest =>
    let digits := rest.takeWhile isAsciiDigit
    if digits = [] then none else some (digits, rest.dropWhile isAsciiDigit)
  | rest => some ([], rest)

def readExponentDigits (sign : ℤ) (rest : List Char) : Option ℤ :=
  if rest ≠ [] ∧ rest.all isAsciiDigit then some (sign * decimalValue rest) else none

/-- The exponent a lexeme ends in, `0` when it has none. -/
def readExponent : List Char → Option ℤ
  | [] => some 0
  | e :: rest =>
    if e = 'e' ∨ e = 'E' then
      match rest with
      | '+' :: digits => readExponentDigits 1 digits
      | '-' :: digits => readExponentDigits (-1) digits
      | digits => readExponentDigits 1 digits
    else none

/-- The exact value of a number of the JSON grammar without its sign. -/
def readUnsigned (cs : List Char) : Option ℚ := do
  let whole := cs.takeWhile isAsciiDigit
  if whole = [] ∨ (1 < whole.length ∧ whole.head? = some '0') then none
  let (fraction, rest) ← readFraction (cs.dropWhile isAsciiDigit)
  let exponent ← readExponent rest
  return (decimalValue (whole ++ fraction) : ℚ) * power 10 (exponent - fraction.length)

/-- `lexeme.parse::<f64>()` of a number the reader admits: the JSON grammar, and a finite
value. -/
def readNumber (lexeme : String) : Option ℚ :=
  match lexeme.toList with
  | '-' :: cs => (readUnsigned cs).bind fun q => binary64 (-q)
  | cs => (readUnsigned cs).bind binary64

structure Number where
  lexeme : String
  valid : (readNumber lexeme).isSome = true
  deriving DecidableEq

namespace Number

/-- `as_f64`. -/
def value (n : Number) : ℚ := (readNumber n.lexeme).get n.valid

/-- `as_i64`: an integer below `2^53` in magnitude. -/
def asI64 (n : Number) : Option ℤ :=
  if n.value.den = 1 ∧ |n.value.num| < 2 ^ 53 then some n.value.num else none

end Number

/-! ### `ecma_number_to_string` -/

/-- The least `n` with `a / d < 10 ^ n`. -/
def decimalPoint (a d : ℕ) : ℤ :=
  let k : ℤ := ((toString a).length : ℤ) - (toString d).length
  let s := scaled 10 a d k
  if s.1 < s.2 then k else k + 1

/-- The `k`-digit decimals next to `a / d` that read back as the same value, the nearer
first. -/
def roundTrips (a d : ℕ) (point : ℤ) (k : ℕ) : List ℕ :=
  let s := scaled 10 a d (point - k)
  let low := s.1 / s.2
  let candidates := if 2 * (s.1 % s.2) ≤ s.2 then [low, low + 1] else [low + 1, low]
  candidates.filter fun c =>
    binary64 ((c : ℚ) * power 10 (point - k)) = some (mkRat a d)

/-- The shortest digits that read back as `a / d`, and where the point stands. -/
def shortestDigits (a d : ℕ) : List Char × ℤ :=
  let point := decimalPoint a d
  match (List.range 17).findSome? fun k => (roundTrips a d point (k + 1)).head?.map (·, k + 1) with
  | some (c, k) =>
    let spelled := (toString c).toList
    ((spelled.reverse.dropWhile (· = '0')).reverse, point + spelled.length - k)
  | none => ([], 0)

def layout (digits : List Char) (k n : ℤ) : List Char :=
  if k ≤ n ∧ n ≤ 21 then digits ++ List.replicate (n - k).toNat '0'
  else if 0 < n ∧ n ≤ 21 then digits.take n.toNat ++ '.' :: digits.drop n.toNat
  else if -6 < n ∧ n ≤ 0 then '0' :: '.' :: List.replicate (-n).toNat '0' ++ digits
  else
    let e := n - 1
    (if k = 1 then digits else digits.take 1 ++ '.' :: digits.drop 1) ++
      'e' :: (if 0 ≤ e then '+' else '-') :: (toString e.natAbs).toList

def ecmaNumberToString (q : ℚ) : List Char :=
  if q = 0 then ['0']
  else
    let (digits, n) := shortestDigits q.num.natAbs q.den
    (if q < 0 then ['-'] else []) ++ layout digits digits.length n

end FilamentCore.SemanticIr
