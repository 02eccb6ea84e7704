import FilamentCore.Library.ByteText
import FilamentCore.SemanticIr.Digits

/-!
# Dates and date-times (rust-serde/constraints.mjs, rust-serde/support-template.rs)

The instants of RFC 3339 texts, as the generator reads them and as the generated support module
reads them, against the calendar.
-/

namespace FilamentCore.Backends.CivilTime
open FilamentCore.Library
open FilamentCore.SemanticIr (isAsciiDigit decimalValue)

/-! ### The calendar -/

def isLeap (year : ℕ) : Bool := (year % 4 == 0 && year % 100 != 0) || year % 400 == 0

def yearLength (year : ℕ) : ℕ := if isLeap year then 366 else 365

def monthLength (year month : ℕ) : ℕ :=
  [31, if isLeap year then 29 else 28, 31, 30, 31, 30, 31, 31, 30, 31, 30, 31].getD (month - 1) 0

/-- The days from the first of January of the year 0 to a date. -/
def daysBefore (year month day : ℕ) : ℕ :=
  ((List.range year).map yearLength).sum +
    ((List.range (month - 1)).map fun before => monthLength year (before + 1)).sum + (day - 1)

def dayNumber (year month day : ℕ) : ℤ := daysBefore year month day - daysBefore 1970 1 1

/-! ### The generator -/

namespace Constraints

def daysFromCivil (year month day : ℤ) : ℤ :=
  let y := year - if month ≤ 2 then 1 else 0
  let era := y / 400
  let yoe := y - era * 400
  let doy := (153 * (month + if month > 2 then -3 else 9) + 2) / 5 + day - 1
  let doe := yoe * 365 + yoe / 4 - yoe / 100 + doy
  era * 146097 + doe - 719468

def validCivil (year month day : ℤ) : Bool :=
  if month < 1 ∨ month > 12 ∨ day < 1 then false
  else
    let leap := (year.tmod 4 == 0 && year.tmod 100 != 0) || year.tmod 400 == 0
    let lengths : List ℤ :=
      [31, if leap then 29 else 28, 31, 30, 31, 30, 31, 31, 30, 31, 30, 31]
    day ≤ lengths.getD (month - 1).toNat 0

/-- `\d{count}`: that many digits, and what follows them. -/
def digitsOf (count : ℕ) (cs : List Char) : Option (List Char × List Char) :=
  let run := cs.take count
  if run.length = count ∧ run.all isAsciiDigit = true then some (run, cs.drop count) else none

/-- One of some characters, and what follows it. -/
def oneOf (allowed : List Char) : List Char → Option (Char × List Char)
  | [] => none
  | c :: cs => if c ∈ allowed then some (c, cs) else none

/-- The year, the month and the day of a text that begins with a date. -/
def dateGroups (cs : List Char) : Option ((List Char × List Char × List Char) × List Char) := do
  let (year, cs) ← digitsOf 4 cs
  let (_, cs) ← oneOf ['-'] cs
  let (month, cs) ← digitsOf 2 cs
  let (_, cs) ← oneOf ['-'] cs
  let (day, cs) ← digitsOf 2 cs
  some ((year, month, day), cs)

/-- `(?:\.(\d+))?`. The run is taken whole: no zone begins with a digit. -/
def fractionGroup : List Char → Option (Option (List Char) × List Char)
  | '.' :: cs =>
    let run := cs.takeWhile isAsciiDigit
    if run = [] then none else some (some run, cs.dropWhile isAsciiDigit)
  | cs => some (none, cs)

/-- The sign, the hour and the minute of an offset. -/
abbrev Zone := Char × List Char × List Char

/-- `(?:[Zz]|([+-])(\d{2}):(\d{2}))$`. -/
def zoneGroup (cs : List Char) : Option (Option Zone) := do
  let (sign, cs) ← oneOf ['Z', 'z', '+', '-'] cs
  if sign = 'Z' ∨ sign = 'z' then
    if cs = [] then some none else none
  else
    let (hour, cs) ← digitsOf 2 cs
    let (_, cs) ← oneOf [':'] cs
    let (minute, cs) ← digitsOf 2 cs
    if cs = [] then some (some (sign, hour, minute)) else none

/-- What `DATE_TIME` captures. -/
structure Groups where
  year : List Char
  month : List Char
  day : List Char
  hour : List Char
  minute : List Char
  second : List Char
  fraction : Option (List Char)
  zone : Option Zone
  deriving DecidableEq

def dateTimeGroups (cs : List Char) : Option Groups := do
  let ((year, month, day), cs) ← dateGroups cs
  let (_, cs) ← oneOf ['T', 't'] cs
  let (hour, cs) ← digitsOf 2 cs
  let (_, cs) ← oneOf [':'] cs
  let (minute, cs) ← digitsOf 2 cs
  let (_, cs) ← oneOf [':'] cs
  let (second, cs) ← digitsOf 2 cs
  let (fraction, cs) ← fractionGroup cs
  let zone ← zoneGroup cs
  some ⟨year, month, day, hour, minute, second, fraction, zone⟩

/-- `Number` of a run of digits. -/
def number (cs : List Char) : ℤ := decimalValue cs

def dateInstant (text : List Char) : Option ℤ :=
  match dateGroups text with
  | some ((y, m, d), []) =>
    if validCivil (number y) (number m) (number d) then
      some (daysFromCivil (number y) (number m) (number d) * 86400000000000)
    else none
  | _ => none

/-- `(match[7] ?? "").slice(0, 9).padEnd(9, "0")`. -/
def fractionText (fraction : Option (List Char)) : List Char :=
  let kept := (fraction.getD []).take 9
  kept ++ List.replicate (9 - kept.length) '0'

def instantOf (g : Groups) : Option ℤ :=
  let year := number g.year
  let month := number g.month
  let day := number g.day
  let hour := number g.hour
  let minute := number g.minute
  let second := number g.second
  if !validCivil year month day then none
  else if hour > 23 ∨ minute > 59 ∨ second > 59 then none
  else
    let nanos := daysFromCivil year month day * 86400000000000 + hour * 3600000000000 +
      minute * 60000000000 + second * 1000000000 + number (fractionText g.fraction)
    match g.zone with
    | none => some nanos
    | some (sign, offsetHour, offsetMinute) =>
      if number offsetHour > 23 ∨ number offsetMinute > 59 then none
      else
        let offset := (number offsetHour * 3600 + number offsetMinute * 60) * 1000000000
        some (if sign = '+' then nanos - offset else nanos + offset)

def dateTimeInstant (text : List Char) : Option ℤ := (dateTimeGroups text).bind instantOf

end Constraints

/-! ### The generated support -/

namespace Support

/-- How a body ends without a value: by `return None`, or by a panic. -/
inductive Stop where
  | none
  | panic
  deriving DecidableEq

abbrev Run (α : Type) := Except Stop α

/-- `?` on an option. -/
def orNone {α : Type} : Option α → Run α
  | some value => .ok value
  | Option.none => .error .none

/-- `&text[start..stop]`: an offset inside a character panics. -/
def slice (text : List Char) (start stop : ℕ) : Run (List Char) :=
  match ByteText.slice text start stop with
  | some part => .ok part
  | Option.none => .error .panic

/-- `&text[start..]`. -/
def suffix (text : List Char) (start : ℕ) : Run (List Char) :=
  slice text start (ByteText.bytes text).length

/-- `div_euclid` is `/` here, and the truncating `/` is `tdiv`. -/
def daysFromCivil (year month day : ℤ) : ℤ :=
  let y := year - if month ≤ 2 then 1 else 0
  let era := y / 400
  let yoe := y - era * 400
  let doy := (153 * (month + if month > 2 then -3 else 9) + 2).tdiv 5 + day - 1
  let doe := yoe * 365 + yoe.tdiv 4 - yoe.tdiv 100 + doy
  era * 146097 + doe - 719468

def isValidCivil (year month day : ℤ) : Bool :=
  if !(1 ≤ month && month ≤ 12) || day < 1 then false
  else
    let leap := (year.tmod 4 == 0 && year.tmod 100 != 0) || year.tmod 400 == 0
    let lengths : List ℤ :=
      [31, if leap then 29 else 28, 31, 30, 31, 30, 31, 31, 30, 31, 30, 31]
    day ≤ lengths.getD (month - 1).toNat 0

/-- `byte.is_ascii_digit()`. -/
def isDigitByte (byte : UInt8) : Bool := 48 ≤ byte && byte ≤ 57

/-- `text.parse::<i64>().ok()` on a run of digits. -/
def parseI64 (text : List Char) : Option ℤ :=
  if decimalValue text < 2 ^ 63 then some (decimalValue text) else Option.none

def digits (text : List Char) : Option ℤ :=
  if text.isEmpty || !(ByteText.bytes text).all isDigitByte then Option.none else parseI64 text

def byteIs (text : List Char) (at' : ℕ) (c : Char) : Bool :=
  (ByteText.bytes text)[at']? == some c.val.toUInt8

def dateInstant (text : List Char) : Run ℤ :=
  if (ByteText.bytes text).length ≠ 10 ∨ byteIs text 4 '-' = false ∨ byteIs text 7 '-' = false then
    .error .none
  else do
    let year ← orNone (digits (← slice text 0 4))
    let month ← orNone (digits (← slice text 5 7))
    let day ← orNone (digits (← slice text 8 10))
    if !isValidCivil year month day then .error .none
    else .ok (daysFromCivil year month day * 86400000000000)

/-- The nanoseconds of the digits after a `.`, and what follows them. -/
def fraction : List Char → Run (ℤ × List Char)
  | '.' :: stripped =>
    let stop := ((ByteText.bytes stripped).takeWhile isDigitByte).length
    if stop = 0 then .error .none
    else do
      let kept ← slice stripped 0 (min stop 9)
      let scaled ← orNone (digits kept)
      let rest ← suffix stripped stop
      .ok (scaled * 10 ^ (9 - (ByteText.bytes kept).length), rest)
  | rest => .ok (0, rest)

/-- `match rest.as_bytes().first()`. -/
def signOf (rest : List Char) : Option ℤ :=
  if byteIs rest 0 '+' then some 1 else if byteIs rest 0 '-' then some (-1) else Option.none

/-- The nanoseconds of the zone. -/
def offset (rest : List Char) : Run ℤ :=
  if rest = ['Z'] ∨ rest = ['z'] then .ok 0
  else do
    let sign ← orNone (signOf rest)
    if (ByteText.bytes rest).length ≠ 6 ∨ byteIs rest 3 ':' = false then .error .none
    else do
      let offsetHour ← orNone (digits (← slice rest 1 3))
      let offsetMinute ← orNone (digits (← slice rest 4 6))
      if offsetHour > 23 ∨ offsetMinute > 59 then .error .none
      else .ok (sign * (offsetHour * 3600 + offsetMinute * 60) * 1000000000)

def dateTimeInstant (text : List Char) : Run ℤ :=
  if (ByteText.bytes text).length < 20 then .error .none
  else if byteIs text 10 'T' = false ∧ byteIs text 10 't' = false then .error .none
  else do
    let date ← dateInstant (← slice text 0 10)
    if byteIs text 13 ':' = false ∨ byteIs text 16 ':' = false then .error .none
    else do
      let hour ← orNone (digits (← slice text 11 13))
      let minute ← orNone (digits (← slice text 14 16))
      let second ← orNone (digits (← slice text 17 19))
      if hour > 23 ∨ minute > 59 ∨ second > 59 then .error .none
      else do
        let (nanos, rest) ← fraction (← suffix text 19)
        let offset ← offset rest
        .ok (date + hour * 3600000000000 + minute * 60000000000 + second * 1000000000 + nanos -
          offset)

end Support

/-! ### Days -/

def leapDays (year : ℤ) : ℤ := year / 4 - year / 100 + year / 400

def leapDay (year : ℕ) : ℤ := if isLeap year then 1 else 0

theorem leapDays_step (year : ℕ) : leapDays year = leapDays (year - 1) + leapDay year := by
  unfold leapDays leapDay
  split
  · rename_i h
    simp [isLeap] at h
    omega
  · rename_i h
    simp [isLeap] at h
    omega

theorem years_sum (year : ℕ) : (((List.range year).map yearLength).sum : ℤ) =
    365 * year + leapDays (year - 1) + 1 := by
  induction year with
  | zero => rfl
  | succ year ih =>
    have hstep := leapDays_step year
    have hlength : (yearLength year : ℤ) = 365 + leapDay year := by
      unfold yearLength leapDay
      split <;> rfl
    have hlast : ((year + 1 : ℕ) : ℤ) - 1 = year := by omega
    rw [List.range_succ, List.map_append, List.sum_append, List.map_singleton, List.sum_singleton,
      Nat.cast_add, ih, hlength, hlast, Nat.cast_add, Nat.cast_one]
    omega

theorem months_sum (year : ℕ) {month : ℕ} (hm : 1 ≤ month ∧ month ≤ 12) :
    (((List.range (month - 1)).map fun before => monthLength year (before + 1)).sum : ℤ) =
      (153 * ((month : ℤ) + if (month : ℤ) > 2 then -3 else 9) + 2) / 5 +
        if (month : ℤ) > 2 then 59 + leapDay year else -306 := by
  obtain ⟨hlow, hhigh⟩ := hm
  unfold monthLength leapDay
  cases isLeap year <;> interval_cases month <;> rfl

theorem era_days (y : ℤ) : y / 400 * 146097 + ((y - y / 400 * 400) * 365 +
    (y - y / 400 * 400) / 4 - (y - y / 400 * 400) / 100) = 365 * y + leapDays y := by
  unfold leapDays
  omega

theorem daysBefore_epoch : daysBefore 1970 1 1 = 719528 := by decide +kernel

theorem Constraints.daysFromCivil_eq {year month day : ℕ} (hm : 1 ≤ month ∧ month ≤ 12)
    (hd : 1 ≤ day) : Constraints.daysFromCivil year month day = dayNumber year month day := by
  have hyears := years_sum year
  have hmonths := months_sum year hm
  have hstep := leapDays_step year
  have hera := era_days (year - if (month : ℤ) ≤ 2 then 1 else 0)
  have hday : ((day - 1 : ℕ) : ℤ) = day - 1 := by omega
  rw [dayNumber, daysBefore_epoch, daysBefore, Nat.cast_add, Nat.cast_add, hyears, hmonths, hday,
    Constraints.daysFromCivil]
  split at hera
  · rename_i hle
    have hgt : ¬ (month : ℤ) > 2 := by omega
    simp only [if_pos hle, if_neg hgt]
    omega
  · rename_i hle
    have hgt : (month : ℤ) > 2 := by omega
    rw [sub_zero] at hera
    simp only [if_neg hle, if_pos hgt, sub_zero]
    omega

theorem Support.daysFromCivil_eq {year month day : ℤ} (hm : 1 ≤ month) :
    Support.daysFromCivil year month day = Constraints.daysFromCivil year month day := by
  unfold Support.daysFromCivil Constraints.daysFromCivil
  have hdoy : 0 ≤ 153 * (month + if month > 2 then -3 else 9) + 2 := by
    split <;> omega
  have hyoe : ∀ y : ℤ, 0 ≤ y - y / 400 * 400 := by
    intro y
    omega
  simp only [Int.tdiv_eq_ediv_of_nonneg hdoy, Int.tdiv_eq_ediv_of_nonneg (hyoe _)]

theorem Support.isValidCivil_eq (year month day : ℤ) :
    Support.isValidCivil year month day = Constraints.validCivil year month day := by
  unfold Support.isValidCivil Constraints.validCivil
  have hiff : (!(decide (1 ≤ month) && decide (month ≤ 12)) || decide (day < 1)) = true ↔
      month < 1 ∨ month > 12 ∨ day < 1 := by
    simp only [Bool.or_eq_true, Bool.not_eq_true', Bool.and_eq_false_iff, decide_eq_false_iff_not,
      decide_eq_true_eq]
    omega
  simp only [hiff]

theorem Constraints.month_of_valid {year month day : ℤ}
    (h : Constraints.validCivil year month day = true) : 1 ≤ month ∧ month ≤ 12 ∧ 1 ≤ day := by
  unfold Constraints.validCivil at h
  split at h
  · cases h
  · omega

end FilamentCore.Backends.CivilTime
