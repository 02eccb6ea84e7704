import FilamentCore.Backends.IntegerBounds
import FilamentCore.Library.Limits
import FilamentCore.SemanticIr.Numerals

/-!
# Changes of a numeric domain (src/compiler/compat/diff.mjs)

The comparison of two numeric subjects: the range of an integer, the bounds and the policy of a
decimal, and what a reference that is pointed at another type amounts to.
-/

namespace FilamentCore.Compiler.Diff
open FilamentCore.Library
open FilamentCore.SemanticIr (Json isAsciiDigit decimalValue stripMinus cutPoint)
open FilamentCore.Backends (Bounds boundStep boundsOf integerText operandOf safeInteger
  effectiveRange)

inductive Disposition where
  | patch | additive | conditional | unknown | breaking | invalid
  deriving DecidableEq, Repr

/-! ### Integers -/

def integerRange (constraints : List Json) : Bounds :=
  constraints.foldl (boundStep
    (fun range bound =>
      if range.lowerExplicit && decide (bound < range.lower) then range.lower else bound)
    (fun range bound =>
      if range.upperExplicit && decide (range.upper < bound) then range.upper else bound))
    .missing

def wideInteger (constraints : List Json) : Bool :=
  let range := integerRange constraints
  decide (range.lower < -safeInteger) || decide (safeInteger < range.lower) ||
    decide (range.upper < -safeInteger) || decide (safeInteger < range.upper)

def integerDomainWidened (before after : List Json) : Bool :=
  let oldRange := integerRange before
  let newRange := integerRange after
  decide (newRange.lower ≤ oldRange.lower) && decide (oldRange.upper ≤ newRange.upper) &&
    (decide (newRange.lower < oldRange.lower) || decide (oldRange.upper < newRange.upper))

/-! ### Exact bounds -/

structure ExactBound where
  coefficient : ℤ
  scale : ℕ
  deriving DecidableEq, Repr

/-- Digits that end in one other than `0`. -/
def fractionText (digits : List Char) : Bool :=
  digits.all isAsciiDigit && digits.getLast?.any fun c => c != '0'

/-- Digits that begin with one other than `0`. -/
def wholeText (digits : List Char) : Bool :=
  digits.all isAsciiDigit && digits.head?.any fun c => c != '0'

/-- `/^(0|-?(0\.[0-9]*[1-9]|[1-9][0-9]*(\.[0-9]*[1-9])?))$/`. -/
def decimalText (value : String) : Bool :=
  let (whole, fraction) := cutPoint (stripMinus value.toList)
  if '.' ∈ value.toList then
    (whole == ['0'] || wholeText whole) && fractionText fraction
  else value == "0" || wholeText whole

def exactBound (value : String) (scalar : String) : Option ExactBound :=
  if scalar = "integer" then (integerText value).map fun coefficient => ⟨coefficient, 0⟩
  else if scalar = "decimal" then
    if decimalText value then
      let (whole, fraction) := cutPoint (stripMinus value.toList)
      let digits := decimalValue (whole ++ fraction)
      some ⟨if value.toList.head? = some '-' then -digits else digits, fraction.length⟩
    else none
  else none

def compareExactBounds (before after : Option String) (scalar : String) : Option Ordering :=
  match before.bind (exactBound · scalar), after.bind (exactBound · scalar) with
  | some left, some right =>
    let scale := max left.scale right.scale
    some (compare (left.coefficient * 10 ^ (scale - left.scale))
      (right.coefficient * 10 ^ (scale - right.scale)))
  | _, _ => none

/-! ### Decimals -/

inductive Side where
  | lower | upper
  deriving DecidableEq, Repr

/-- A bound with the text of its operand. -/
structure Entry where
  value : String
  exclusive : Bool
  deriving DecidableEq, Repr

def compareLimit (left right : Option Entry) (scalar : String) (side : Side) : Option Ordering :=
  match left, right with
  | none, none => some .eq
  | none, some _ => some (if side = .lower then .lt else .gt)
  | some _, none => some (if side = .lower then .gt else .lt)
  | some l, some r =>
    match compareExactBounds (some l.value) (some r.value) scalar with
    | none => none
    | some .eq =>
      if l.exclusive = r.exclusive then some .eq
      else if side = .lower then some (if l.exclusive then .gt else .lt)
      else some (if l.exclusive then .lt else .gt)
    | some ordering => some ordering

structure DecimalLimits where
  lower : Option Entry
  upper : Option Entry
  deriving DecidableEq, Repr

def operandText (constraint : Json) : Option String :=
  (constraint.get "operands").bind (·.getStr "value")

/-- One constraint of `decimalLimits`. -/
def limitStep (limits : DecimalLimits) (constraint : Json) : DecimalLimits :=
  match constraint.getStr "keyword", operandText constraint with
  | some keyword, some value =>
    if keyword ∈ ["min", "exclusiveMin", "max", "exclusiveMax"] ∧
        (exactBound value "decimal").isSome = true then
      let entry : Entry := ⟨value, "exclusive".toList.isPrefixOf keyword.toList⟩
      if "Min".toList.isSuffixOf keyword.toList || keyword == "min" then
        if limits.lower = none ∨ compareLimit (some entry) limits.lower "decimal" .lower = some .gt
        then { limits with lower := some entry } else limits
      else if limits.upper = none ∨
          compareLimit (some entry) limits.upper "decimal" .upper = some .lt
        then { limits with upper := some entry } else limits
    else limits
  | _, _ => limits

def decimalLimits (constraints : List Json) : DecimalLimits :=
  constraints.foldl limitStep ⟨none, none⟩

def numericBoundChange (before after : List Json) (scalar : String) : Option Disposition :=
  if scalar = "integer" then
    let oldRange := integerRange before
    let newRange := integerRange after
    if oldRange.lower = newRange.lower ∧ oldRange.upper = newRange.upper then none
    else some (if integerDomainWidened before after then .conditional else .breaking)
  else if scalar ≠ "decimal" then none
  else
    let oldRange := decimalLimits before
    let newRange := decimalLimits after
    let lower := compareLimit newRange.lower oldRange.lower "decimal" .lower
    let upper := compareLimit newRange.upper oldRange.upper "decimal" .upper
    if lower = some .eq ∧ upper = some .eq then none
    else if (lower = some .lt ∨ lower = some .eq) ∧ (upper = some .gt ∨ upper = some .eq) then
      some .conditional
    else some .breaking

structure DecimalPolicy where
  precision : ℕ
  scale : ℕ
  positive : 1 ≤ precision
  within : scale ≤ precision
  deriving DecidableEq, Repr

def decimalPolicyChange (before after : Option DecimalPolicy) : Option Disposition :=
  if before = after then none
  else
    match before, after with
    | some before, some after =>
      if before.scale ≤ after.scale ∧
          before.precision - before.scale ≤ after.precision - after.scale then some .conditional
      else some .breaking
    | _, _ => some .breaking

/-! ### References -/

def widenings : List String := ["date>datetime", "float32>float64"]

def scalarChange (before after : Option String) : Option Disposition :=
  if before = after then none
  else if before.getD "undefined" ++ ">" ++ after.getD "undefined" ∈ widenings then
    some .conditional
  else some .breaking

/-- What a type resolves to. -/
structure Subject where
  scalar : Option String
  constraints : List Json
  decimal : Option DecimalPolicy

/-- What a field says of its values beside its reference. -/
structure Inline where
  constraints : List Json
  decimal : Option DecimalPolicy

def numericRefDisposition (original field : Inline) (oldSubject newSubject : Subject) :
    Disposition :=
  if oldSubject.scalar ≠ newSubject.scalar then
    (scalarChange oldSubject.scalar newSubject.scalar).getD .breaking
  else
    let before := oldSubject.constraints ++ original.constraints
    let after := newSubject.constraints ++ field.constraints
    if oldSubject.scalar = some "integer" then
      if wideInteger before != wideInteger after then .breaking
      else (numericBoundChange before after "integer").getD .breaking
    else if oldSubject.scalar = some "decimal" then
      let policy := decimalPolicyChange (original.decimal.or oldSubject.decimal)
        (field.decimal.or newSubject.decimal)
      let bounds := numericBoundChange before after "decimal"
      if policy = some .breaking ∨ bounds = some .breaking then .breaking
      else if policy = some .conditional ∨ bounds = some .conditional then .conditional
      else .breaking
    else .breaking

end FilamentCore.Compiler.Diff
