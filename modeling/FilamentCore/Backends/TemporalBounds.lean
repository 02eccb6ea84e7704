import FilamentCore.Backends.CivilReading

/-!
# Bounds of dates and date-times

The checks of `min`, `max`, `exclusiveMin` and `exclusiveMax` on a date or a date-time: the Rust
package compares nanoseconds (rust-serde/crate.mjs, renderCheck), the TypeScript package what
`Date.parse` gives (typescript-v1/validators.mjs, orderedCondition).
-/

namespace FilamentCore.Backends.TemporalBounds
open FilamentCore.SemanticIr (isAsciiDigit decimalValue)
open CivilTime
open Constraints (Groups utcSeconds zoneOffset)

inductive Scalar where
  | date
  | datetime
  deriving DecidableEq

inductive Keyword where
  | min
  | max
  | exclusiveMin
  | exclusiveMax
  deriving DecidableEq

/-! ### The Rust package -/

/-- `COMPARISONS`: what of a value and its bound is refused. -/
def Keyword.fails (value bound : ℤ) : Keyword → Bool
  | .min => value < bound
  | .max => value > bound
  | .exclusiveMin => value ≤ bound
  | .exclusiveMax => value ≥ bound

/-- The instant of a bound, where the generator admits it. -/
def planInstant : Scalar → List Char → Option ℤ
  | .date, value => Constraints.dateInstant value
  | .datetime, value => Constraints.dateTimeInstant value

def instantReader : Scalar → List Char → Support.Run ℤ
  | .date, text => Support.dateInstant text
  | .datetime, text => Support.dateTimeInstant text

/-- Whether the rendered check lets a text pass; a text without an instant is refused. -/
def renderCheck (scalar : Scalar) (keyword : Keyword) (bound : ℤ) (text : List Char) :
    Support.Run Bool :=
  match instantReader scalar text with
  | .ok value => .ok (!keyword.fails value bound)
  | .error .none => .ok false
  | .error .panic => .error .panic

/-! ### The TypeScript package -/

/-- The operator of `constraintCondition`. -/
def Keyword.operator (value bound : ℤ) : Keyword → Bool
  | .min => value ≥ bound
  | .max => value ≤ bound
  | .exclusiveMin => value > bound
  | .exclusiveMax => value < bound

instance (year month day : ℕ) : Decidable (OnCalendar year month day) :=
  inferInstanceAs (Decidable (_ ∧ _))

def OnClock (hour minute : ℕ) : Prop := hour ≤ 23 ∧ minute ≤ 59

instance (hour minute : ℕ) : Decidable (OnClock hour minute) :=
  inferInstanceAs (Decidable (_ ∧ _))

def ZoneOnClock : Option Constraints.Zone → Prop
  | none => True
  | some (_, hour, minute) => OnClock (decimalValue hour) (decimalValue minute)

instance : (zone : Option Constraints.Zone) → Decidable (ZoneOnClock zone)
  | none => .isTrue trivial
  | some (_, hour, minute) =>
    inferInstanceAs (Decidable (OnClock (decimalValue hour) (decimalValue minute)))

/-- The fields of an RFC 3339 date-time; the second may be a leap second. -/
def InRange (g : Groups) : Prop :=
  OnCalendar (decimalValue g.year) (decimalValue g.month) (decimalValue g.day) ∧
    OnClock (decimalValue g.hour) (decimalValue g.minute) ∧ ZoneOnClock g.zone ∧
    decimalValue g.second ≤ 60

instance (g : Groups) : Decidable (InRange g) := inferInstanceAs (Decidable (_ ∧ _))

/-- The seconds from 1970-01-01T00:00:00Z that a text names; none for a leap second. -/
def exactInstant : Scalar → List Char → Option ℚ
  | .date, text => do
    let ((year, month, day), rest) ← Constraints.dateGroups text
    let (y, m, d) := (decimalValue year, decimalValue month, decimalValue day)
    if rest = [] ∧ OnCalendar y m d then some (dayNumber y m d * 86400) else none
  | .datetime, text => do
    let g ← Constraints.dateTimeGroups text
    if InRange g ∧ decimalValue g.second ≠ 60 then some (utcSeconds g) else none

/-- An RFC 3339 `full-date` or `date-time`. -/
def Rfc3339 : Scalar → List Char → Prop
  | .date, text => ∃ year month day, Constraints.dateGroups text = some ((year, month, day), []) ∧
      OnCalendar (decimalValue year) (decimalValue month) (decimalValue day)
  | .datetime, text => ∃ g, Constraints.dateTimeGroups text = some g ∧ InRange g

/-- The date-times of the format of ECMAScript: separators in upper case, and milliseconds or no
fraction. -/
def InFormat (text : List Char) : Prop :=
  (exactInstant .datetime text).isSome = true ∧ 't' ∉ text ∧ 'z' ∉ text ∧
    ∀ g run, Constraints.dateTimeGroups text = some g → g.fraction = some run → run.length = 3

/-- What an implementation of `Date.parse` reads: every text of the format, and what else of
RFC 3339 it has a form for. -/
structure Engine where
  reads : List Char → Bool
  reads_date : ∀ text, Rfc3339 .date text → reads text = true
  reads_format : ∀ text, InFormat text → reads text = true

/-- `Date.parse` on an RFC 3339 text: the instant cut to milliseconds, none for NaN. -/
def Engine.dateParse (engine : Engine) (scalar : Scalar) (text : List Char) : Option ℤ :=
  if engine.reads text then (exactInstant scalar text).map fun seconds => ⌊seconds * 10 ^ 3⌋
  else none

/-- Whether the condition holds: no comparison with NaN does. -/
def orderedCondition (engine : Engine) (scalar : Scalar) (keyword : Keyword)
    (bound text : List Char) : Bool :=
  match engine.dateParse scalar text, engine.dateParse scalar bound with
  | some value, some bound => keyword.operator value bound
  | _, _ => false

/-! ### Instants -/

theorem zoneOffset_isSome (zone : Option Constraints.Zone) :
    (zoneOffset zone).isSome = true ↔ ZoneOnClock zone := by
  cases zone with
  | none => exact iff_of_true rfl trivial
  | some zone =>
    obtain ⟨sign, hour, minute⟩ := zone
    rw [zoneOffset, ZoneOnClock, OnClock]
    unfold Constraints.number
    split
    · rename_i h
      refine iff_of_false Bool.false_ne_true fun hclock => ?_
      omega
    · rename_i h
      refine iff_of_true rfl ?_
      omega

theorem instantOf_isSome (g : Groups) : (Constraints.instantOf g).isSome = true ↔
    InRange g ∧ decimalValue g.second ≠ 60 := by
  have hvalid : Constraints.validCivil (Constraints.number g.year) (Constraints.number g.month)
      (Constraints.number g.day) = true ↔ _ := Constraints.validCivil_iff _ _ _
  have hzone := zoneOffset_isSome g.zone
  rw [Constraints.instantOf_eq, InRange, OnClock, ← hvalid, ← hzone]
  have hnumber : ∀ cs, Constraints.number cs = decimalValue cs := fun cs => rfl
  have hhour := hnumber g.hour
  have hminute := hnumber g.minute
  have hsecond := hnumber g.second
  split
  · rename_i h
    refine iff_of_false Bool.false_ne_true ?_
    rintro ⟨⟨hcalendar, hclock, -, hlast⟩, hleap⟩
    rw [hcalendar] at h
    simp only [Bool.true_eq_false, false_or] at h
    omega
  · rename_i h
    rw [not_or, Bool.not_eq_false] at h
    rw [Option.isSome_map]
    constructor
    · intro hsome
      exact ⟨⟨h.1, by omega, hsome, by omega⟩, by omega⟩
    · intro hrange
      exact hrange.1.2.2.1

/-- The generator's instant is the exact one, cut to nanoseconds. -/
theorem planInstant_eq (scalar : Scalar) (text : List Char) : planInstant scalar text =
    (exactInstant scalar text).map fun seconds => ⌊seconds * 10 ^ 9⌋ := by
  cases scalar with
  | date =>
    rw [planInstant, Constraints.dateInstant, exactInstant]
    cases hgroups : Constraints.dateGroups text with
    | none => rfl
    | some found =>
      obtain ⟨⟨year, month, day⟩, rest⟩ := found
      simp only [Option.bind_eq_bind, Option.bind_some]
      have hvalid : Constraints.validCivil (Constraints.number year) (Constraints.number month)
          (Constraints.number day) = true ↔ _ := Constraints.validCivil_iff _ _ _
      cases rest with
      | cons c cs => rw [if_neg (fun h => List.cons_ne_nil c cs h.1)]; rfl
      | nil =>
        simp only [hvalid, true_and]
        split
        · rename_i hcalendar
          have hdays : Constraints.daysFromCivil (Constraints.number year)
              (Constraints.number month) (Constraints.number day) = _ :=
            Constraints.daysFromCivil_eq ⟨hcalendar.1, hcalendar.2.1⟩ hcalendar.2.2.1
          have hwhole : ((dayNumber (decimalValue year) (decimalValue month)
              (decimalValue day) : ℚ) * 86400 * 10 ^ 9) = ((dayNumber (decimalValue year)
              (decimalValue month) (decimalValue day) * 86400000000000 : ℤ) : ℚ) := by
            push_cast
            ring
          rw [Option.map_some, hwhole, Int.floor_intCast, hdays]
        · rfl
  | datetime =>
    rw [planInstant, exactInstant]
    cases hgroups : Constraints.dateTimeGroups text with
    | none =>
      rw [Constraints.dateTimeInstant, hgroups]
      rfl
    | some g =>
      have hinstant : Constraints.dateTimeInstant text = Constraints.instantOf g := by
        rw [Constraints.dateTimeInstant, hgroups, Option.bind_some]
      have hsome := instantOf_isSome g
      simp only [Option.bind_eq_bind, Option.bind_some]
      cases hvalue : Constraints.instantOf g with
      | none =>
        rw [hvalue] at hsome
        rw [hinstant, hvalue, if_neg (fun h => Bool.false_ne_true (hsome.2 h))]
        rfl
      | some value =>
        rw [hvalue] at hsome
        obtain ⟨g', hgroups', -, hexact⟩ :=
          Constraints.dateTimeInstant_exact (hinstant.trans hvalue)
        rw [hgroups, Option.some.injEq] at hgroups'
        rw [hinstant, hvalue, if_pos (hsome.1 rfl), Option.map_some, hexact, hgroups']

theorem instantReader_eq {scalar : Scalar} {text : List Char} (h : Rfc3339 scalar text) :
    instantReader scalar text = Support.orNone (planInstant scalar text) := by
  cases scalar with
  | date => exact Support.dateInstant_eq text
  | datetime =>
    obtain ⟨g, hgroups, -⟩ := h
    obtain ⟨t, rest, rest', hrun, -, -⟩ := Constraints.dateTimeGroups_iff.1 hgroups
    exact Support.dateTimeInstant_run hrun

theorem floor_millis (seconds : ℚ) :
    ⌊seconds * 10 ^ 3⌋ = ⌊seconds * 10 ^ 9⌋ / 1000000 := by
  have hscale : seconds * 10 ^ 9 = seconds * 10 ^ 3 * ((1000000 : ℤ) : ℚ) := by
    push_cast
    ring
  rw [hscale, Int.mul_cast_floor_div_cancel_of_pos (by decide)]

/-! ### Verdicts -/

/-- A clock of milliseconds gives the verdicts of one of nanoseconds: the two are one instant or
in different milliseconds. -/
def Resolved (value bound : ℚ) : Prop :=
  ⌊value * 10 ^ 9⌋ = ⌊bound * 10 ^ 9⌋ ∨ ⌊value * 10 ^ 3⌋ ≠ ⌊bound * 10 ^ 3⌋

theorem operators_iff (value bound : ℚ) :
    (∀ keyword : Keyword, (!keyword.fails ⌊value * 10 ^ 9⌋ ⌊bound * 10 ^ 9⌋) =
      keyword.operator ⌊value * 10 ^ 3⌋ ⌊bound * 10 ^ 3⌋) ↔ Resolved value bound := by
  rw [Resolved, floor_millis, floor_millis]
  generalize ⌊value * 10 ^ 9⌋ = v
  generalize ⌊bound * 10 ^ 9⌋ = b
  constructor
  · intro h
    have hmin := h .min
    have hmax := h .max
    simp only [Keyword.fails, Keyword.operator, ← decide_not, decide_eq_decide] at hmin hmax
    omega
  · intro h keyword
    cases keyword <;>
      simp only [Keyword.fails, Keyword.operator, ← decide_not, decide_eq_decide] <;> omega

theorem operators_pass (v b : ℤ) : ¬ ∀ keyword : Keyword, (!keyword.fails v b) = false := by
  intro h
  have hmin := h .min
  have hmax := h .max
  simp only [Keyword.fails, Bool.not_eq_false', decide_eq_true_eq] at hmin hmax
  omega

/-- What the two packages need to agree on: a text that names an instant is read by `Date.parse`,
as its bound is, and the milliseconds tell them apart. -/
def Settled (engine : Engine) (scalar : Scalar) (bound text : List Char) : Prop :=
  ∀ value limit, exactInstant scalar text = some value → exactInstant scalar bound = some limit →
    engine.reads text = true ∧ engine.reads bound = true ∧ Resolved value limit

theorem resolved_of_whole {value limit : ℚ} {m m' : ℤ} (h : value * 10 ^ 3 = m)
    (h' : limit * 10 ^ 3 = m') : Resolved value limit := by
  rw [Resolved, h, h', Int.floor_intCast, Int.floor_intCast]
  by_cases hm : m = m'
  · left
    have heq : value = limit := by
      rw [hm, ← h'] at h
      exact mul_right_cancel₀ (by norm_num) h
    rw [heq]
  · exact .inr hm

theorem date_whole {text : List Char} {value : ℚ} (h : exactInstant .date text = some value) :
    Rfc3339 .date text ∧ ∃ m : ℤ, value * 10 ^ 3 = m := by
  obtain ⟨⟨⟨year, month, day⟩, rest⟩, hgroups, hvalue⟩ := Option.bind_eq_some_iff.1 h
  dsimp only at hvalue
  split at hvalue
  · rename_i hcalendar
    obtain ⟨rfl, hcalendar⟩ := hcalendar
    refine ⟨⟨year, month, day, hgroups, hcalendar⟩, dayNumber (decimalValue year)
      (decimalValue month) (decimalValue day) * 86400 * 10 ^ 3, ?_⟩
    rw [← Option.some.inj hvalue]
    push_cast
    rfl
  · cases hvalue

/-- Dates are ordered the same in both packages, whatever else `Date.parse` reads. -/
theorem settled_date (engine : Engine) (bound text : List Char) :
    Settled engine .date bound text := by
  intro value limit hvalue hlimit
  obtain ⟨htext, m, hm⟩ := date_whole hvalue
  obtain ⟨hbound, m', hm'⟩ := date_whole hlimit
  exact ⟨engine.reads_date _ htext, engine.reads_date _ hbound, resolved_of_whole hm hm'⟩

theorem datetime_whole {text : List Char} {value : ℚ} (hformat : InFormat text)
    (h : exactInstant .datetime text = some value) : ∃ m : ℤ, value * 10 ^ 3 = m := by
  obtain ⟨g, hgroups, hvalue⟩ := Option.bind_eq_some_iff.1 h
  split at hvalue
  · obtain ⟨-, -, -, hthree⟩ := hformat
    have hfraction : ∃ f : ℤ, Constraints.fractionOf g.fraction * 10 ^ 3 = f := by
      cases hrun : g.fraction with
      | none => exact ⟨0, by rw [Constraints.fractionOf, zero_mul, Int.cast_zero]⟩
      | some run =>
        refine ⟨decimalValue run, ?_⟩
        rw [Constraints.fractionOf, hthree g run hgroups hrun, div_mul_cancel₀ _ (by norm_num)]
        rfl
    have hahead : ∃ a : ℤ, Constraints.aheadOf g.zone = a := by
      cases g.zone with
      | none => exact ⟨0, Int.cast_zero.symm⟩
      | some zone =>
        obtain ⟨sign, hour, minute⟩ := zone
        refine ⟨(if sign = '+' then 1 else -1) *
          (decimalValue hour * 3600 + decimalValue minute * 60), ?_⟩
        rw [Constraints.aheadOf]
        push_cast
        rfl
    obtain ⟨f, hf⟩ := hfraction
    obtain ⟨a, ha⟩ := hahead
    refine ⟨(dayNumber (decimalValue g.year) (decimalValue g.month) (decimalValue g.day) * 86400 +
      decimalValue g.hour * 3600 + decimalValue g.minute * 60 + decimalValue g.second - a) *
        10 ^ 3 + f, ?_⟩
    rw [← Option.some.inj hvalue, utcSeconds, ha]
    push_cast
    rw [← hf]
    ring
  · cases hvalue

theorem settled_format (engine : Engine) {bound text : List Char} (hbound : InFormat bound)
    (htext : InFormat text) : Settled engine .datetime bound text := by
  intro value limit hvalue hlimit
  obtain ⟨m, hm⟩ := datetime_whole htext hvalue
  obtain ⟨m', hm'⟩ := datetime_whole hbound hlimit
  exact ⟨engine.reads_format _ htext, engine.reads_format _ hbound, resolved_of_whole hm hm'⟩

theorem temporal_bounds_agree_iff (engine : Engine) (scalar : Scalar) (bound text : List Char)
    (instant : ℤ) (hbound : planInstant scalar bound = some instant) (htext : Rfc3339 scalar text) :
    (∀ keyword, renderCheck scalar keyword instant text =
      .ok (orderedCondition engine scalar keyword bound text)) ↔
      Settled engine scalar bound text := by
  rw [planInstant_eq, Option.map_eq_some_iff] at hbound
  obtain ⟨limit, hlimit, rfl⟩ := hbound
  have hreader := instantReader_eq htext
  rw [planInstant_eq] at hreader
  unfold renderCheck orderedCondition Settled
  rw [hreader]
  cases hvalue : exactInstant scalar text with
  | none =>
    have hnan : engine.dateParse scalar text = none := by
      rw [Engine.dateParse, hvalue, Option.map_none, ite_self]
    refine iff_of_true (fun keyword => ?_) fun value limit h => absurd h.symm (by simp)
    rw [hnan]
    rfl
  | some value =>
    have hparse : ∀ {cs seconds}, exactInstant scalar cs = some seconds →
        engine.dateParse scalar cs = if engine.reads cs then some ⌊seconds * 10 ^ 3⌋ else none := by
      intro cs seconds h
      rw [Engine.dateParse, h, Option.map_some]
    rw [hparse hvalue, hparse hlimit]
    simp only [Option.map_some, Support.orNone, Except.ok.injEq, hlimit, Option.some.injEq]
    have hsettled : (∀ v l, value = v → limit = l → engine.reads text = true ∧
        engine.reads bound = true ∧ Resolved v l) ↔ engine.reads text = true ∧
          engine.reads bound = true ∧ Resolved value limit :=
      ⟨fun h => h value limit rfl rfl, fun h v l hv hl => hv ▸ hl ▸ h⟩
    rw [hsettled]
    cases htextRead : engine.reads text with
    | false =>
      refine iff_of_false (fun h => ?_) fun h => Bool.false_ne_true h.1
      exact operators_pass _ _ h
    | true =>
      cases hboundRead : engine.reads bound with
      | false =>
        refine iff_of_false (fun h => ?_) fun h => Bool.false_ne_true h.2.1
        exact operators_pass _ _ h
      | true =>
        rw [and_iff_right rfl, and_iff_right rfl]
        exact operators_iff value limit

/-- The engine that has a form for every text of RFC 3339. -/
def lenient : Engine := ⟨fun _ => true, fun _ _ => rfl, fun _ _ => rfl⟩

theorem temporal_bounds_agree_offset :
    planInstant .datetime "1970-01-01T00:00:00.500Z".toList = some 500000000 ∧ ∀ keyword,
      renderCheck .datetime keyword 500000000 "1970-01-01T01:00:00.500+01:00".toList =
        .ok (orderedCondition lenient .datetime keyword "1970-01-01T00:00:00.500Z".toList
          "1970-01-01T01:00:00.500+01:00".toList) := by
  have hthree : ∀ {text : List Char} {found : Groups},
      Constraints.dateTimeGroups text = some found → found.fraction = some "500".toList →
        ∀ g run, Constraints.dateTimeGroups text = some g → g.fraction = some run →
          run.length = 3 := by
    intro text found hfound hfraction g run hgroups hrun
    rw [hfound, Option.some.injEq] at hgroups
    rw [← hgroups, hfraction, Option.some.injEq] at hrun
    rw [← hrun]
    rfl
  have hbound : InFormat "1970-01-01T00:00:00.500Z".toList :=
    ⟨by decide, by decide, by decide, hthree (by rfl) (by rfl)⟩
  have htext : InFormat "1970-01-01T01:00:00.500+01:00".toList :=
    ⟨by decide, by decide, by decide, hthree (by rfl) (by rfl)⟩
  have hinstant : planInstant .datetime "1970-01-01T00:00:00.500Z".toList = some 500000000 := by
    decide
  exact ⟨hinstant, (temporal_bounds_agree_iff lenient .datetime "1970-01-01T00:00:00.500Z".toList
    "1970-01-01T01:00:00.500+01:00".toList 500000000 hinstant ⟨_, by rfl, by decide⟩).2
      (settled_format lenient hbound htext)⟩

theorem dateParse_of_instant (engine : Engine) {scalar : Scalar} {text : List Char} {n : ℤ}
    (h : planInstant scalar text = some n) : engine.dateParse scalar text =
      if engine.reads text then some (n / 1000000) else none := by
  rw [planInstant_eq, Option.map_eq_some_iff] at h
  obtain ⟨seconds, hseconds, rfl⟩ := h
  rw [Engine.dateParse, hseconds, Option.map_some, floor_millis]

/-- A tenth of a millisecond after the bound: the Rust package lets it pass, the TypeScript one
does not, whatever its `Date.parse` reads. -/
theorem temporal_bounds_disagree :
    planInstant .datetime "1970-01-01T00:00:00.0005Z".toList = some 500000 ∧
      Rfc3339 .datetime "1970-01-01T00:00:00.0006Z".toList ∧
      renderCheck .datetime .exclusiveMin 500000 "1970-01-01T00:00:00.0006Z".toList = .ok true ∧
      ∀ engine, orderedCondition engine .datetime .exclusiveMin
        "1970-01-01T00:00:00.0005Z".toList "1970-01-01T00:00:00.0006Z".toList = false := by
  have hbound : planInstant .datetime "1970-01-01T00:00:00.0005Z".toList = some 500000 := by decide
  have htext : planInstant .datetime "1970-01-01T00:00:00.0006Z".toList = some 600000 := by decide
  refine ⟨hbound, ⟨_, by rfl, by decide⟩, by decide, fun engine => ?_⟩
  rw [orderedCondition, dateParse_of_instant engine hbound, dateParse_of_instant engine htext]
  cases engine.reads "1970-01-01T00:00:00.0005Z".toList <;>
    cases engine.reads "1970-01-01T00:00:00.0006Z".toList <;> rfl

end FilamentCore.Backends.TemporalBounds
