import FilamentCore.Backends.CivilTime

/-!
# The generated readers of dates

The generated readers against the generator's: where a text reads, where the generated body stops,
and the one slice that can panic. What is read is the UTC instant, cut to nanoseconds.
-/

namespace FilamentCore.Backends.CivilTime
open FilamentCore.Library
open FilamentCore.SemanticIr (isAsciiDigit decimalValue)

/-! ### Runs of digits -/

def IsRun (count : ℕ) (cs : List Char) : Prop := cs.length = count ∧ cs.all isAsciiDigit = true

theorem utf8Size_digit {c : Char} (h : isAsciiDigit c = true) : c.utf8Size = 1 := by
  have hbounds := SemanticIr.digit_bounds h
  rw [Char.utf8Size_eq_one_iff, UInt32.le_iff_toNat_le]
  exact hbounds.2.trans (by decide)

theorem length_bytes_digits {cs : List Char} (h : cs.all isAsciiDigit = true) :
    (ByteText.bytes cs).length = cs.length :=
  ByteText.length_bytes_of_forall fun c hc => utf8Size_digit (List.all_eq_true.1 h c hc)

theorem IsRun.length_bytes {count : ℕ} {cs : List Char} (h : IsRun count cs) :
    (ByteText.bytes cs).length = count := by rw [length_bytes_digits h.2, h.1]

theorem decimalValue_lt (cs : List Char) (h : cs.all isAsciiDigit = true) :
    decimalValue cs < 10 ^ cs.length := by
  induction cs with
  | nil => decide
  | cons c cs ih =>
    rw [List.all_cons, Bool.and_eq_true] at h
    have hbounds := SemanticIr.digit_bounds h.1
    have hrest := ih h.2
    have hzero : '0'.toNat = 48 := rfl
    rw [SemanticIr.decimalValue_cons, List.length_cons, pow_succ]
    have hle : (c.toNat - '0'.toNat) * 10 ^ cs.length ≤ 9 * 10 ^ cs.length :=
      Nat.mul_le_mul_right _ (by omega)
    omega

namespace Constraints

theorem digitsOf_iff {count : ℕ} {cs run rest : List Char} :
    digitsOf count cs = some (run, rest) ↔ cs = run ++ rest ∧ IsRun count run := by
  unfold digitsOf IsRun
  constructor
  · intro h
    simp only at h
    split at h
    · rename_i hrun
      cases h
      exact ⟨(List.take_append_drop count cs).symm, hrun⟩
    · cases h
  · rintro ⟨rfl, hlength, hdigits⟩
    rw [List.take_left' hlength, List.drop_left' hlength]
    exact if_pos ⟨hlength, hdigits⟩

theorem oneOf_iff {allowed cs rest : List Char} {c : Char} :
    oneOf allowed cs = some (c, rest) ↔ cs = c :: rest ∧ c ∈ allowed := by
  cases cs with
  | nil => simp [oneOf]
  | cons x xs =>
    rw [oneOf]
    constructor
    · intro h
      split at h
      · rename_i hx
        cases h
        exact ⟨rfl, hx⟩
      · cases h
    · rintro ⟨h, hc⟩
      cases h
      exact if_pos hc

theorem dateGroups_iff {cs year month day rest : List Char} :
    dateGroups cs = some ((year, month, day), rest) ↔
      cs = year ++ '-' :: (month ++ '-' :: (day ++ rest)) ∧
        IsRun 4 year ∧ IsRun 2 month ∧ IsRun 2 day := by
  simp only [dateGroups, Option.bind_eq_bind, Option.bind_eq_some_iff, Prod.exists, digitsOf_iff,
    oneOf_iff, List.mem_singleton, Option.some.injEq, Prod.mk.injEq]
  constructor
  · rintro ⟨y, r₁, ⟨rfl, hy⟩, c, r₂, ⟨rfl, rfl⟩, m, r₃, ⟨rfl, hm⟩, c', r₄, ⟨rfl, rfl⟩, d, r₅,
      ⟨rfl, hd⟩, ⟨rfl, rfl, rfl⟩, rfl⟩
    exact ⟨rfl, hy, hm, hd⟩
  · rintro ⟨rfl, hy, hm, hd⟩
    exact ⟨year, _, ⟨rfl, hy⟩, '-', _, ⟨rfl, rfl⟩, month, _, ⟨rfl, hm⟩, '-', _, ⟨rfl, rfl⟩, day,
      _, ⟨rfl, hd⟩, ⟨rfl, rfl, rfl⟩, rfl⟩

structure UpToSecond (text : List Char) (g : Groups) (t : Char) (rest : List Char) : Prop where
  text_eq : text = g.year ++ '-' :: (g.month ++ '-' :: (g.day ++ t ::
    (g.hour ++ ':' :: (g.minute ++ ':' :: (g.second ++ rest)))))
  separator : t ∈ ['T', 't']
  year : IsRun 4 g.year
  month : IsRun 2 g.month
  day : IsRun 2 g.day
  hour : IsRun 2 g.hour
  minute : IsRun 2 g.minute
  second : IsRun 2 g.second

theorem dateTimeGroups_iff {text : List Char} {g : Groups} :
    dateTimeGroups text = some g ↔ ∃ t rest rest', UpToSecond text g t rest ∧
      fractionGroup rest = some (g.fraction, rest') ∧ zoneGroup rest' = some g.zone := by
  simp only [dateTimeGroups, Option.bind_eq_bind, Option.bind_eq_some_iff, Prod.exists,
    dateGroups_iff, digitsOf_iff, oneOf_iff, List.mem_singleton, Option.some.injEq]
  constructor
  · rintro ⟨y, m, d, r₁, ⟨rfl, hy, hm, hd⟩, t, r₂, ⟨rfl, ht⟩, h, r₃, ⟨rfl, hh⟩, c, r₄, ⟨rfl, rfl⟩,
      mi, r₅, ⟨rfl, hmi⟩, c', r₆, ⟨rfl, rfl⟩, s, r₇, ⟨rfl, hs⟩, f, r₈, hf, z, hz, rfl⟩
    exact ⟨t, r₇, r₈, ⟨rfl, ht, hy, hm, hd, hh, hmi, hs⟩, hf, hz⟩
  · rintro ⟨t, rest, rest', h, hf, hz⟩
    exact ⟨g.year, g.month, g.day, _, ⟨h.text_eq, h.year, h.month, h.day⟩, t, _, ⟨rfl, h.separator⟩,
      g.hour, _, ⟨rfl, h.hour⟩, ':', _, ⟨rfl, rfl⟩, g.minute, _, ⟨rfl, h.minute⟩, ':', _, ⟨rfl, rfl⟩,
      g.second, rest, ⟨rfl, h.second⟩, g.fraction, rest', hf, g.zone, hz, rfl⟩

end Constraints

namespace Support

theorem isDigitByte_iff {c : Char} : (String.utf8EncodeChar c).all isDigitByte = true ↔
    isAsciiDigit c = true := by
  have h57 : (57 : UInt8).toNat = 57 := rfl
  have h48 : (48 : UInt8).toNat = 48 := rfl
  have h127 : (127 : UInt32).toNat = 127 := rfl
  constructor
  · intro h
    obtain ⟨x, xs, hx⟩ := List.exists_cons_of_ne_nil (@String.utf8EncodeChar_ne_nil c)
    have hmem : x ∈ String.utf8EncodeChar c := by rw [hx]; exact List.mem_cons_self ..
    have hdigit := List.all_eq_true.1 h x hmem
    simp only [isDigitByte, Bool.and_eq_true, decide_eq_true_eq, UInt8.le_iff_toNat_le] at hdigit
    obtain ⟨hsize, heq⟩ := ByteText.byte_of_char hmem (by omega)
    have hle := UInt32.le_iff_toNat_le.1 (Char.utf8Size_eq_one_iff.1 hsize)
    rw [heq, UInt32.toNat_toUInt8] at hdigit
    simp only [isAsciiDigit, Bool.and_eq_true, decide_eq_true_eq, Char.le_def,
      UInt32.le_iff_toNat_le]
    have hzero : ('0' : Char).val.toNat = 48 := rfl
    have hnine : ('9' : Char).val.toNat = 57 := rfl
    omega
  · intro h
    have hbounds := SemanticIr.digit_bounds h
    rw [String.utf8EncodeChar_eq_singleton (utf8Size_digit h)]
    have hval : c.val.toNat = c.toNat := rfl
    simp only [List.all_cons, List.all_nil, Bool.and_true, isDigitByte, Bool.and_eq_true,
      decide_eq_true_eq, UInt8.le_iff_toNat_le, UInt32.toNat_toUInt8]
    omega

theorem all_isDigitByte (cs : List Char) :
    (ByteText.bytes cs).all isDigitByte = cs.all isAsciiDigit := by
  induction cs with
  | nil => rfl
  | cons c cs ih =>
    rw [ByteText.bytes_cons, List.all_append, List.all_cons, ih]
    have hiff := @isDigitByte_iff c
    cases h : isAsciiDigit c with
    | true => rw [hiff.2 h]
    | false =>
      rw [h] at hiff
      rw [Bool.eq_false_iff.2 fun hc => Bool.false_ne_true (hiff.1 hc)]

theorem digits_run {count : ℕ} {cs : List Char} (h : IsRun count cs) (hpos : 0 < count)
    (hle : count ≤ 18) : digits cs = some (Constraints.number cs) := by
  have hempty : cs.isEmpty = false := by
    cases cs with
    | nil => simp [IsRun] at h; omega
    | cons c cs => rfl
  have hlt := decimalValue_lt cs h.2
  have hpow : 10 ^ cs.length ≤ 10 ^ 18 := Nat.pow_le_pow_right (by omega) (by rw [h.1]; exact hle)
  have hbound : decimalValue cs < 2 ^ 63 := by omega
  rw [digits, hempty, all_isDigitByte, h.2, Bool.not_true, Bool.false_or, parseI64, if_pos hbound]
  rfl

theorem run_of_digits {count : ℕ} {cs : List Char} {value : ℤ} (h : digits cs = some value)
    (hlength : (ByteText.bytes cs).length = count) : IsRun count cs := by
  rw [digits] at h
  split at h
  · cases h
  · rename_i hguard
    rw [Bool.or_eq_true, not_or, Bool.not_eq_true', Bool.not_eq_false, all_isDigitByte] at hguard
    exact ⟨by rw [← length_bytes_digits hguard.2, hlength], hguard.2⟩

end Support

/-! ### Full dates -/

namespace Support

theorem byteIs_iff {text : List Char} {n : ℕ} {c : Char} (hc : c.utf8Size = 1) :
    byteIs text n c = true ↔
      ∃ a b, text = a ++ c :: b ∧ (ByteText.bytes a).length = n := by
  rw [byteIs, beq_iff_eq, ByteText.byte_iff hc]

theorem byteIs_append {a b : List Char} {k n : ℕ} {c : Char} (hk : (ByteText.bytes a).length = k) :
    byteIs (a ++ b) (k + n) c = byteIs b n c := by
  rw [byteIs, byteIs, ByteText.bytes_append, List.getElem?_append_right (by omega)]
  congr 3
  omega

theorem slice_ok {text mid : List Char} {start stop : ℕ} (a b : List Char)
    (htext : text = a ++ (mid ++ b)) (hstart : (ByteText.bytes a).length = start)
    (hstop : start + (ByteText.bytes mid).length = stop) : slice text start stop = .ok mid := by
  rw [slice, ByteText.slice_iff.2 ⟨a, b, htext, hstart, hstop⟩]

theorem length_ascii {c : Char} (hc : c.utf8Size = 1) (cs : List Char) :
    (ByteText.bytes (c :: cs)).length = (ByteText.bytes cs).length + 1 := by
  rw [ByteText.length_bytes_cons, hc, Nat.add_comm]

theorem size_dash : '-'.utf8Size = 1 := by decide

theorem size_colon : ':'.utf8Size = 1 := by decide

theorem dateInstant_run {year month day : List Char} (hy : IsRun 4 year) (hm : IsRun 2 month)
    (hd : IsRun 2 day) : dateInstant (year ++ '-' :: (month ++ '-' :: day)) =
      orNone (Constraints.dateInstant (year ++ '-' :: (month ++ '-' :: day))) := by
  have hgroups : Constraints.dateGroups (year ++ '-' :: (month ++ '-' :: day)) =
      some ((year, month, day), []) :=
    Constraints.dateGroups_iff.2 ⟨by rw [List.append_nil], hy, hm, hd⟩
  have hyl := hy.length_bytes
  have hml := hm.length_bytes
  have hdl := hd.length_bytes
  have hlength : (ByteText.bytes (year ++ '-' :: (month ++ '-' :: day))).length = 10 := by
    simp only [ByteText.bytes_append, List.length_append, length_ascii size_dash]
    omega
  have hfirst : byteIs (year ++ '-' :: (month ++ '-' :: day)) 4 '-' = true :=
    (byteIs_iff size_dash).2 ⟨year, _, rfl, hyl⟩
  have hsecond : byteIs (year ++ '-' :: (month ++ '-' :: day)) 7 '-' = true := by
    refine (byteIs_iff size_dash).2 ⟨year ++ '-' :: month, day, by simp, ?_⟩
    simp only [ByteText.bytes_append, List.length_append, length_ascii size_dash]
    omega
  have hyear : slice (year ++ '-' :: (month ++ '-' :: day)) 0 4 = .ok year :=
    slice_ok [] _ rfl rfl (by omega)
  have hmonth : slice (year ++ '-' :: (month ++ '-' :: day)) 5 7 = .ok month := by
    refine slice_ok (year ++ ['-']) ('-' :: day) (by simp) ?_ (by omega)
    simp only [ByteText.bytes_append, List.length_append, length_ascii size_dash,
      ByteText.bytes_nil, List.length_nil]
    omega
  have hday : slice (year ++ '-' :: (month ++ '-' :: day)) 8 10 = .ok day := by
    refine slice_ok (year ++ '-' :: (month ++ ['-'])) [] (by simp) ?_ (by omega)
    simp only [ByteText.bytes_append, List.length_append, length_ascii size_dash,
      ByteText.bytes_nil, List.length_nil]
    omega
  rw [dateInstant, Constraints.dateInstant, hgroups, hlength, hfirst, hsecond, hyear, hmonth, hday]
  simp only [ne_eq, not_true_eq_false, Bool.true_eq_false, or_self, if_false, bind, Except.bind,
    digits_run hy (by decide) (by decide), digits_run hm (by decide) (by decide),
    digits_run hd (by decide) (by decide), orNone, isValidCivil_eq]
  cases hvalid : Constraints.validCivil (Constraints.number year) (Constraints.number month)
      (Constraints.number day) with
  | false => rfl
  | true => simp [daysFromCivil_eq (Constraints.month_of_valid hvalid).1]

theorem dateInstant_cases (text : List Char) : dateInstant text = .error .none ∨
    ∃ year month day, text = year ++ '-' :: (month ++ '-' :: day) ∧
      IsRun 4 year ∧ IsRun 2 month ∧ IsRun 2 day := by
  by_cases hguard : (ByteText.bytes text).length ≠ 10 ∨ byteIs text 4 '-' = false ∨
      byteIs text 7 '-' = false
  · exact .inl (if_pos hguard)
  · have hbody := hguard
    simp only [not_or, not_not, Bool.not_eq_false] at hguard
    obtain ⟨hlength, hfirst, hsecond⟩ := hguard
    obtain ⟨year, rest, rfl, hyl⟩ := (byteIs_iff size_dash).1 hfirst
    have hhead : (ByteText.bytes (year ++ ['-'])).length = 5 := by
      simp only [ByteText.bytes_append, List.length_append, length_ascii size_dash,
        ByteText.bytes_nil, List.length_nil]
      omega
    have hsplit : year ++ '-' :: rest = (year ++ ['-']) ++ rest := by simp
    rw [hsplit, byteIs_append (n := 2) hhead] at hsecond
    obtain ⟨month, day, rfl, hml⟩ := (byteIs_iff size_dash).1 hsecond
    have hdl : (ByteText.bytes day).length = 2 := by
      simp only [ByteText.bytes_append, List.length_append, length_ascii size_dash] at hlength
      omega
    have hyear : slice (year ++ '-' :: (month ++ '-' :: day)) 0 4 = .ok year :=
      slice_ok [] _ rfl rfl (by omega)
    have hmonth : slice (year ++ '-' :: (month ++ '-' :: day)) 5 7 = .ok month :=
      slice_ok (year ++ ['-']) ('-' :: day) (by simp) hhead (by omega)
    have hday : slice (year ++ '-' :: (month ++ '-' :: day)) 8 10 = .ok day := by
      refine slice_ok (year ++ '-' :: (month ++ ['-'])) [] (by simp) ?_ (by omega)
      simp only [ByteText.bytes_append, List.length_append, length_ascii size_dash,
        ByteText.bytes_nil, List.length_nil]
      omega
    rw [dateInstant, if_neg hbody, hyear, hmonth, hday]
    simp only [bind, Except.bind]
    cases hy : digits year with
    | none => exact .inl rfl
    | some y =>
      cases hm : digits month with
      | none => exact .inl rfl
      | some m =>
        cases hd : digits day with
        | none => exact .inl rfl
        | some d => exact .inr ⟨year, month, day, rfl, run_of_digits hy hyl, run_of_digits hm hml,
            run_of_digits hd hdl⟩

theorem groups_of_dateInstant {text : List Char} {value : ℤ}
    (h : Constraints.dateInstant text = some value) : ∃ year month day,
      text = year ++ '-' :: (month ++ '-' :: day) ∧ IsRun 4 year ∧ IsRun 2 month ∧ IsRun 2 day := by
  unfold Constraints.dateInstant at h
  split at h
  · rename_i y m d hgroups
    obtain ⟨htext, hruns⟩ := Constraints.dateGroups_iff.1 hgroups
    rw [List.append_nil] at htext
    exact ⟨y, m, d, htext, hruns⟩
  · cases h

/-- The generated `date_instant` never panics, and gives what the generator gives. -/
theorem dateInstant_eq (text : List Char) :
    dateInstant text = orNone (Constraints.dateInstant text) := by
  rcases dateInstant_cases text with hnone | ⟨year, month, day, rfl, hy, hm, hd⟩
  · cases hvalue : Constraints.dateInstant text with
    | none => exact hnone
    | some value =>
      obtain ⟨year, month, day, rfl, hy, hm, hd⟩ := groups_of_dateInstant hvalue
      rw [dateInstant_run hy hm hd, hvalue]
  · exact dateInstant_run hy hm hd

end Support

/-! ### Fractions -/

theorem takeWhile_bytes (cs : List Char) :
    ((ByteText.bytes cs).takeWhile Support.isDigitByte).length =
      (cs.takeWhile isAsciiDigit).length := by
  induction cs with
  | nil => rfl
  | cons c cs ih =>
    rw [ByteText.bytes_cons]
    have hiff := @Support.isDigitByte_iff c
    cases h : isAsciiDigit c with
    | true =>
      have hone := String.utf8EncodeChar_eq_singleton (utf8Size_digit h)
      have hbyte := hiff.2 h
      rw [hone, List.all_cons, List.all_nil, Bool.and_true] at hbyte
      rw [hone, List.singleton_append, List.takeWhile_cons_of_pos hbyte,
        List.takeWhile_cons_of_pos h, List.length_cons, List.length_cons, ih]
    | false =>
      obtain ⟨x, xs, hx⟩ := List.exists_cons_of_ne_nil (@String.utf8EncodeChar_ne_nil c)
      have hbyte : Support.isDigitByte x = false := by
        by_contra hne
        rw [Bool.not_eq_false] at hne
        have h57 : (57 : UInt8).toNat = 57 := rfl
        have hle := hne
        simp only [Support.isDigitByte, Bool.and_eq_true, decide_eq_true_eq,
          UInt8.le_iff_toNat_le] at hle
        have hmem : x ∈ String.utf8EncodeChar c := by rw [hx]; exact List.mem_cons_self ..
        obtain ⟨hsize, heq⟩ := ByteText.byte_of_char hmem (by omega)
        rw [String.utf8EncodeChar_eq_singleton hsize, List.all_cons, List.all_nil, Bool.and_true,
          ← heq] at hiff
        rw [hiff.1 hne] at h
        cases h
      rw [hx, List.cons_append, List.takeWhile_cons_of_neg (by simp [hbyte]),
        List.takeWhile_cons_of_neg (by simp [h])]
      rfl

theorem all_takeWhile (cs : List Char) : (cs.takeWhile isAsciiDigit).all isAsciiDigit = true :=
  List.all_eq_true.2 fun _ hc => List.mem_takeWhile_imp hc

theorem number_append (a b : List Char) :
    Constraints.number (a ++ b) = Constraints.number a * 10 ^ b.length + Constraints.number b := by
  unfold Constraints.number decimalValue
  rw [List.foldl_append, SemanticIr.foldl_digits]
  push_cast
  rfl

theorem number_zeros (count : ℕ) : Constraints.number (List.replicate count '0') = 0 := by
  induction count with
  | zero => rfl
  | succ count ih =>
    rw [List.replicate_succ']
    rw [number_append, ih]
    rfl

namespace Support

theorem fraction_eq (rest : List Char) : fraction rest =
    match Constraints.fractionGroup rest with
    | none => .error .none
    | some (group, rest') => .ok (Constraints.number (Constraints.fractionText group), rest') := by
  unfold fraction Constraints.fractionGroup
  split
  · rename_i stripped
    simp only [takeWhile_bytes]
    set run := stripped.takeWhile isAsciiDigit
    have hdigits : run.all isAsciiDigit = true := all_takeWhile stripped
    have hlength := length_bytes_digits hdigits
    have hsplit : stripped = run ++ stripped.dropWhile isAsciiDigit :=
      (List.takeWhile_append_dropWhile).symm
    by_cases hnil : run = []
    · rw [hnil]
      rfl
    · have hpos := List.length_pos_iff.2 hnil
      rw [if_neg (by omega), if_neg hnil]
      have hkept : IsRun (min run.length 9) (run.take 9) :=
        ⟨by rw [List.length_take, Nat.min_comm],
          List.all_eq_true.2 fun c hc => List.all_eq_true.1 hdigits c (List.mem_of_mem_take hc)⟩
      have hslice : slice stripped 0 (min run.length 9) = .ok (run.take 9) := by
        refine slice_ok [] (run.drop 9 ++ stripped.dropWhile isAsciiDigit) ?_ rfl ?_
        · rw [List.nil_append, ← List.append_assoc, List.take_append_drop, ← hsplit]
        · rw [hkept.length_bytes, Nat.zero_add]
      have hsuffix : suffix stripped run.length = .ok (stripped.dropWhile isAsciiDigit) := by
        refine slice_ok run [] (by rw [List.append_nil]; exact hsplit) hlength ?_
        conv_rhs => rw [hsplit]
        rw [ByteText.bytes_append, List.length_append, hlength]
      rw [hslice, hsuffix]
      simp only [bind, Except.bind, digits_run hkept (by omega) (by omega), orNone,
        hkept.length_bytes, Constraints.fractionText, Option.getD_some]
      rw [number_append, number_zeros, List.length_replicate, add_zero, hkept.1]
  · rfl

end Support

/-! ### Zones -/

namespace Constraints

/-- The nanoseconds of a zone, east of Greenwich. -/
def zoneOffset : Option Zone → Option ℤ
  | none => some 0
  | some (sign, hour, minute) =>
    if number hour > 23 ∨ number minute > 59 then none
    else
      let offset := (number hour * 3600 + number minute * 60) * 1000000000
      some (if sign = '+' then offset else -offset)

theorem zoneGroup_iff {cs : List Char} {zone : Option Zone} : zoneGroup cs = some zone ↔
    (cs = ['Z'] ∨ cs = ['z']) ∧ zone = none ∨
    ∃ sign hour minute, cs = sign :: (hour ++ ':' :: minute) ∧ (sign = '+' ∨ sign = '-') ∧
      IsRun 2 hour ∧ IsRun 2 minute ∧ zone = some (sign, hour, minute) := by
  simp only [zoneGroup, Option.bind_eq_bind, Option.bind_eq_some_iff, Prod.exists, oneOf_iff]
  constructor
  · rintro ⟨sign, rest, ⟨rfl, hsign⟩, h⟩
    split at h
    · rename_i hz
      split at h
      · rename_i hrest
        cases h
        rw [hrest]
        rcases hz with rfl | rfl
        · exact .inl ⟨.inl rfl, rfl⟩
        · exact .inl ⟨.inr rfl, rfl⟩
      · cases h
    · rename_i hz
      simp only [Option.bind_eq_some_iff, Prod.exists, oneOf_iff, digitsOf_iff,
        List.mem_singleton] at h
      obtain ⟨hour, r₁, ⟨rfl, hh⟩, c, r₂, ⟨rfl, rfl⟩, minute, r₃, ⟨rfl, hm⟩, h⟩ := h
      split at h
      · rename_i hrest
        cases h
        have hpm : sign = '+' ∨ sign = '-' := by
          simp only [List.mem_cons, List.not_mem_nil, or_false] at hsign
          tauto
        exact .inr ⟨sign, hour, minute, by rw [hrest, List.append_nil], hpm, hh, hm, rfl⟩
      · cases h
  · rintro (⟨rfl | rfl, rfl⟩ | ⟨sign, hour, minute, rfl, hsign, hh, hm, rfl⟩)
    · exact ⟨'Z', [], ⟨rfl, by decide⟩, rfl⟩
    · exact ⟨'z', [], ⟨rfl, by decide⟩, rfl⟩
    · have hmem : sign ∈ ['Z', 'z', '+', '-'] := by
        rcases hsign with rfl | rfl <;> decide
      have hz : ¬ (sign = 'Z' ∨ sign = 'z') := by
        rcases hsign with rfl | rfl <;> decide
      refine ⟨sign, _, ⟨rfl, hmem⟩, ?_⟩
      rw [if_neg hz]
      simp only [Option.bind_eq_some_iff, Prod.exists, oneOf_iff, digitsOf_iff, List.mem_singleton]
      exact ⟨hour, _, ⟨rfl, hh⟩, ':', _, ⟨rfl, rfl⟩, minute, [], ⟨by rw [List.append_nil], hm⟩,
        if_pos rfl⟩

end Constraints

namespace Support

theorem size_plus : '+'.utf8Size = 1 := by decide

theorem signOf_eq_some {rest : List Char} {value : ℤ} (h : signOf rest = some value) :
    ∃ sign tail, rest = sign :: tail ∧ (sign = '+' ∨ sign = '-') ∧
      value = if sign = '+' then 1 else -1 := by
  have hhead : ∀ {c : Char}, c.utf8Size = 1 → byteIs rest 0 c = true → ∃ tail, rest = c :: tail := by
    intro c hc hbyte
    obtain ⟨a, b, rfl, ha⟩ := (byteIs_iff hc).1 hbyte
    cases a with
    | nil => exact ⟨b, rfl⟩
    | cons x xs =>
      have hpos := x.utf8Size_pos
      rw [ByteText.length_bytes_cons] at ha
      omega
  unfold signOf at h
  split at h
  · rename_i hplus
    obtain ⟨tail, rfl⟩ := hhead size_plus hplus
    exact ⟨'+', tail, rfl, .inl rfl, (Option.some.inj h).symm⟩
  · split at h
    · rename_i hminus
      obtain ⟨tail, rfl⟩ := hhead size_dash hminus
      exact ⟨'-', tail, rfl, .inr rfl, (Option.some.inj h).symm⟩
    · cases h

theorem signOf_cons {sign : Char} {tail : List Char} (h : sign = '+' ∨ sign = '-') :
    signOf (sign :: tail) = some (if sign = '+' then 1 else -1) := by
  rcases h with rfl | rfl
  · have hplus : byteIs ('+' :: tail) 0 '+' = true := (byteIs_iff size_plus).2 ⟨[], tail, rfl, rfl⟩
    rw [signOf, hplus, if_pos rfl, if_pos rfl]
  · have hplus : byteIs ('-' :: tail) 0 '+' = false := by
      rw [byteIs, ByteText.bytes_cons, String.utf8EncodeChar_eq_singleton size_dash]
      rfl
    have hminus : byteIs ('-' :: tail) 0 '-' = true := (byteIs_iff size_dash).2 ⟨[], tail, rfl, rfl⟩
    rw [signOf, hplus, hminus, if_neg Bool.false_ne_true, if_pos rfl, if_neg (by decide)]

theorem offset_pieces {sign : Char} {hour minute : List Char} (hsign : sign.utf8Size = 1)
    (hh : (ByteText.bytes hour).length = 2) (hm : (ByteText.bytes minute).length = 2) :
    (ByteText.bytes (sign :: (hour ++ ':' :: minute))).length = 6 ∧
      byteIs (sign :: (hour ++ ':' :: minute)) 3 ':' = true ∧
      slice (sign :: (hour ++ ':' :: minute)) 1 3 = .ok hour ∧
      slice (sign :: (hour ++ ':' :: minute)) 4 6 = .ok minute := by
  have hlength : ∀ a : List Char, (ByteText.bytes (sign :: (hour ++ ':' :: a))).length =
      4 + (ByteText.bytes a).length := by
    intro a
    rw [length_ascii hsign, ByteText.bytes_append, List.length_append, length_ascii size_colon]
    omega
  refine ⟨by rw [hlength, hm], (byteIs_iff size_colon).2 ⟨sign :: hour, minute, rfl, ?_⟩, ?_, ?_⟩
  · rw [length_ascii hsign, hh]
  · exact slice_ok [sign] (':' :: minute) rfl (by rw [length_ascii hsign]; rfl) (by omega)
  · exact slice_ok (sign :: (hour ++ [':'])) [] (by simp) (by rw [hlength]; rfl) (by omega)

theorem sign_size {sign : Char} (h : sign = '+' ∨ sign = '-') : sign.utf8Size = 1 := by
  rcases h with rfl | rfl
  · exact size_plus
  · exact size_dash

theorem offset_run {sign : Char} {hour minute : List Char} (hsign : sign = '+' ∨ sign = '-')
    (hh : IsRun 2 hour) (hm : IsRun 2 minute) : offset (sign :: (hour ++ ':' :: minute)) =
      orNone (Constraints.zoneOffset (some (sign, hour, minute))) := by
  obtain ⟨hlength, hcolon, hhour, hminute⟩ :=
    offset_pieces (sign_size hsign) hh.length_bytes hm.length_bytes
  have hz : ¬ (sign :: (hour ++ ':' :: minute) = ['Z'] ∨ sign :: (hour ++ ':' :: minute) = ['z']) := by
    simp
  rw [offset, if_neg hz, signOf_cons hsign, hlength, hcolon, hhour, hminute]
  simp only [bind, Except.bind, orNone, ne_eq, not_true_eq_false, Bool.true_eq_false, or_self,
    if_false, digits_run hh (by decide) (by decide), digits_run hm (by decide) (by decide),
    Constraints.zoneOffset]
  split
  · rfl
  · rcases hsign with rfl | rfl
    · simp
    · rw [if_neg (by decide), if_neg (by decide), neg_one_mul, neg_mul]

theorem offset_cases (rest : List Char) : offset rest = .error .none ∨
    rest = ['Z'] ∨ rest = ['z'] ∨ ∃ sign hour minute, rest = sign :: (hour ++ ':' :: minute) ∧
      (sign = '+' ∨ sign = '-') ∧ IsRun 2 hour ∧ IsRun 2 minute := by
  by_cases hz : rest = ['Z'] ∨ rest = ['z']
  · tauto
  · cases hvalue : signOf rest with
    | none =>
      left
      rw [offset, if_neg hz, hvalue]
      rfl
    | some value =>
      obtain ⟨sign, tail, rfl, hsign, -⟩ := signOf_eq_some hvalue
      by_cases hguard : (ByteText.bytes (sign :: tail)).length ≠ 6 ∨
          byteIs (sign :: tail) 3 ':' = false
      · left
        rw [offset, if_neg hz, hvalue]
        simp only [bind, Except.bind, orNone, if_pos hguard]
      · have hbody := hguard
        simp only [not_or, not_not, Bool.not_eq_false] at hguard
        obtain ⟨hlength, hcolon⟩ := hguard
        have hone : (ByteText.bytes [sign]).length = 1 := by
          rw [length_ascii (sign_size hsign)]
          rfl
        have hsplit : sign :: tail = [sign] ++ tail := rfl
        rw [hsplit, byteIs_append (n := 2) hone] at hcolon
        obtain ⟨hour, minute, rfl, hhl⟩ := (byteIs_iff size_colon).1 hcolon
        have hml : (ByteText.bytes minute).length = 2 := by
          rw [length_ascii (sign_size hsign), ByteText.bytes_append, List.length_append,
            length_ascii size_colon] at hlength
          omega
        obtain ⟨-, -, hhour, hminute⟩ := offset_pieces (sign_size hsign) hhl hml
        rw [offset, if_neg hz, hvalue]
        simp only [bind, Except.bind, orNone, if_neg hbody, hhour, hminute]
        cases hh : digits hour with
        | none => exact .inl rfl
        | some h =>
          cases hm : digits minute with
          | none => exact .inl rfl
          | some m => exact .inr (.inr (.inr ⟨sign, hour, minute, rfl, hsign, run_of_digits hh hhl,
              run_of_digits hm hml⟩))

theorem offset_eq (rest : List Char) :
    offset rest = orNone ((Constraints.zoneGroup rest).bind Constraints.zoneOffset) := by
  have hrun : ∀ {sign : Char} {hour minute : List Char}, (sign = '+' ∨ sign = '-') →
      IsRun 2 hour → IsRun 2 minute → offset (sign :: (hour ++ ':' :: minute)) =
      orNone ((Constraints.zoneGroup (sign :: (hour ++ ':' :: minute))).bind
        Constraints.zoneOffset) := by
    intro sign hour minute hsign hh hm
    rw [offset_run hsign hh hm, Constraints.zoneGroup_iff.2
      (.inr ⟨sign, hour, minute, rfl, hsign, hh, hm, rfl⟩)]
    rfl
  rcases offset_cases rest with hnone | rfl | rfl | ⟨sign, hour, minute, rfl, hsign, hh, hm⟩
  · cases hgroup : Constraints.zoneGroup rest with
    | none => exact hnone
    | some zone =>
      rcases Constraints.zoneGroup_iff.1 hgroup with
        ⟨rfl | rfl, rfl⟩ | ⟨sign, hour, minute, rfl, hsign, hh, hm, rfl⟩
      · rfl
      · rfl
      · rw [← hgroup]
        exact hrun hsign hh hm
  · rfl
  · rfl
  · exact hrun hsign hh hm

end Support

/-! ### Date-times -/

namespace Constraints

theorem dateInstant_groups {text : List Char} {g : Groups} {t : Char} {rest : List Char}
    (h : UpToSecond text g t rest) : dateInstant (g.year ++ '-' :: (g.month ++ '-' :: g.day)) =
      if validCivil (number g.year) (number g.month) (number g.day) = true then
        some (daysFromCivil (number g.year) (number g.month) (number g.day) * 86400000000000)
      else none := by
  have hgroups : dateGroups (g.year ++ '-' :: (g.month ++ '-' :: g.day)) =
      some ((g.year, g.month, g.day), []) :=
    dateGroups_iff.2 ⟨by rw [List.append_nil], h.year, h.month, h.day⟩
  rw [dateInstant, hgroups]

theorem instantOf_eq (g : Groups) : instantOf g =
    if validCivil (number g.year) (number g.month) (number g.day) = false ∨ number g.hour > 23 ∨
      number g.minute > 59 ∨ number g.second > 59 then none
    else (zoneOffset g.zone).map fun offset =>
      daysFromCivil (number g.year) (number g.month) (number g.day) * 86400000000000 +
        number g.hour * 3600000000000 + number g.minute * 60000000000 +
        number g.second * 1000000000 + number (fractionText g.fraction) - offset := by
  unfold instantOf
  cases hvalid : validCivil (number g.year) (number g.month) (number g.day) with
  | false => simp only [hvalid, Bool.not_false, if_true, true_or]
  | true =>
    simp only [hvalid, Bool.not_true, Bool.false_eq_true, if_false, Bool.true_eq_false, false_or]
    split
    · rfl
    · cases g.zone with
      | none => simp [zoneOffset]
      | some zone =>
        obtain ⟨sign, hour, minute⟩ := zone
        simp only [zoneOffset]
        split
        · rfl
        · rw [Option.map_some, Option.some.injEq]
          split
          · rfl
          · rw [sub_neg_eq_add]

end Constraints

namespace Support

/-- The two bytes of the second end inside a character, and everything before them is read. -/
def Overruns (text : List Char) : Prop :=
  ∃ date t hour minute rest, text = date ++ t :: (hour ++ ':' :: (minute ++ ':' :: rest)) ∧
    (Constraints.dateInstant date).isSome = true ∧ (t = 'T' ∨ t = 't') ∧ IsRun 2 hour ∧
    IsRun 2 minute ∧ 3 ≤ (ByteText.bytes rest).length ∧ ByteText.splitAt 2 rest = none

theorem dateTime_pieces {date hour minute rest : List Char} {t : Char}
    (ht : t = 'T' ∨ t = 't') (hd : (ByteText.bytes date).length = 10)
    (hh : (ByteText.bytes hour).length = 2) (hm : (ByteText.bytes minute).length = 2)
    {text : List Char} (htext : text = date ++ t :: (hour ++ ':' :: (minute ++ ':' :: rest))) :
    (ByteText.bytes text).length = 17 + (ByteText.bytes rest).length ∧
      ¬ (byteIs text 10 'T' = false ∧ byteIs text 10 't' = false) ∧
      slice text 0 10 = .ok date ∧ byteIs text 13 ':' = true ∧ byteIs text 16 ':' = true ∧
      slice text 11 13 = .ok hour ∧ slice text 14 16 = .ok minute ∧
      (∀ start stop, slice text (17 + start) (17 + stop) = slice rest start stop) := by
  have hsize : t.utf8Size = 1 := by rcases ht with rfl | rfl <;> decide
  have hfirst : (ByteText.bytes (date ++ [t])).length = 11 := by
    rw [ByteText.bytes_append, List.length_append, length_ascii hsize, hd]
    rfl
  have hsecond : (ByteText.bytes (date ++ t :: hour)).length = 13 := by
    rw [ByteText.bytes_append, List.length_append, length_ascii hsize, hd, hh]
  have hthird : (ByteText.bytes (date ++ t :: (hour ++ [':']))).length = 14 := by
    rw [ByteText.bytes_append, List.length_append, length_ascii hsize, ByteText.bytes_append,
      List.length_append, length_ascii size_colon, hd, hh]
    rfl
  have hfourth : (ByteText.bytes (date ++ t :: (hour ++ ':' :: minute))).length = 16 := by
    rw [ByteText.bytes_append, List.length_append, length_ascii hsize, ByteText.bytes_append,
      List.length_append, length_ascii size_colon, hd, hh, hm]
  have hfifth : (ByteText.bytes (date ++ t :: (hour ++ ':' :: (minute ++ [':'])))).length = 17 := by
    rw [ByteText.bytes_append, List.length_append, length_ascii hsize, ByteText.bytes_append,
      List.length_append, length_ascii size_colon, ByteText.bytes_append, List.length_append,
      length_ascii size_colon, hd, hh, hm]
    rfl
  have hsplit : text = (date ++ t :: (hour ++ ':' :: (minute ++ [':']))) ++ rest := by
    rw [htext]
    simp
  refine ⟨?_, ?_, slice_ok [] (t :: (hour ++ ':' :: (minute ++ ':' :: rest))) htext rfl
    (by rw [hd]), (byteIs_iff size_colon).2 ⟨_, minute ++ ':' :: rest, by rw [htext]; simp, hsecond⟩,
    (byteIs_iff size_colon).2 ⟨_, rest, by rw [htext]; simp, hfourth⟩,
    slice_ok _ (':' :: (minute ++ ':' :: rest)) (by rw [htext]; simp) hfirst (by rw [hh]),
    slice_ok _ (':' :: rest) (by rw [htext]; simp) hthird (by rw [hm]), ?_⟩
  · rw [hsplit, ByteText.bytes_append, List.length_append, hfifth]
  · rcases ht with rfl | rfl
    · rw [(byteIs_iff (by decide)).2 ⟨date, _, htext, hd⟩]
      simp
    · rw [(byteIs_iff (c := 't') (by decide)).2 ⟨date, _, htext, hd⟩]
      simp
  · intro start stop
    rw [hsplit, slice, slice, ByteText.slice_append_right hfifth]

end Support

namespace Support

theorem slice_split (rest : List Char) : slice rest 0 2 = match ByteText.splitAt 2 rest with
    | some (head, _) => .ok head
    | none => .error .panic := by
  unfold slice ByteText.slice
  cases ByteText.splitAt 2 rest with
  | none => rfl
  | some parts =>
    have hzero : ByteText.splitAt 0 parts.1 = some ([], parts.1) :=
      ByteText.splitAt_append [] parts.1
    simp only [Option.bind_eq_bind, Option.bind_some, hzero]

theorem upToSecond_eq {text : List Char} {g : Constraints.Groups} {t : Char} {rest : List Char}
    (h : Constraints.UpToSecond text g t rest) :
    text = (g.year ++ '-' :: (g.month ++ '-' :: g.day)) ++
      t :: (g.hour ++ ':' :: (g.minute ++ ':' :: (g.second ++ rest))) := by
  rw [h.text_eq]
  simp

theorem length_date {year month day : List Char} (hy : IsRun 4 year) (hm : IsRun 2 month)
    (hd : IsRun 2 day) :
    (ByteText.bytes (year ++ '-' :: (month ++ '-' :: day))).length = 10 := by
  simp only [ByteText.bytes_append, List.length_append, length_ascii size_dash, hy.length_bytes,
    hm.length_bytes, hd.length_bytes]

theorem dateTimeGroups_run {text : List Char} {g : Constraints.Groups} {t : Char}
    {rest : List Char} (h : Constraints.UpToSecond text g t rest) :
    Constraints.dateTimeGroups text = (Constraints.fractionGroup rest).bind fun found =>
      (Constraints.zoneGroup found.2).map fun zone =>
        { g with fraction := found.1, zone := zone } := by
  have hdate := Constraints.dateGroups_iff.2 ⟨h.text_eq, h.year, h.month, h.day⟩
  have hone : ∀ {allowed cs : List Char} {c : Char}, c ∈ allowed →
      Constraints.oneOf allowed (c :: cs) = some (c, cs) :=
    fun hc => Constraints.oneOf_iff.2 ⟨rfl, hc⟩
  have hrun : ∀ {run cs : List Char}, IsRun 2 run →
      Constraints.digitsOf 2 (run ++ cs) = some (run, cs) :=
    fun hr => Constraints.digitsOf_iff.2 ⟨rfl, hr⟩
  rw [Constraints.dateTimeGroups, hdate]
  simp only [Option.bind_eq_bind, Option.bind_some, hone h.separator, hrun h.hour, hrun h.minute,
    hrun h.second, hone (List.mem_singleton_self ':')]
  cases Constraints.fractionGroup rest with
  | none => rfl
  | some found =>
    simp only [Option.bind_some]
    cases Constraints.zoneGroup found.2 <;> rfl

theorem dateTimeInstant_run {text : List Char} {g : Constraints.Groups} {t : Char}
    {rest : List Char} (h : Constraints.UpToSecond text g t rest) :
    dateTimeInstant text = orNone (Constraints.dateTimeInstant text) := by
  have ht : t = 'T' ∨ t = 't' := by simpa using h.separator
  obtain ⟨hlength, hseparator, hdate, hfirst, hsecond, hhour, hminute, hslice⟩ :=
    dateTime_pieces ht (length_date h.year h.month h.day) h.hour.length_bytes
      h.minute.length_bytes (upToSecond_eq h)
  rw [ByteText.bytes_append, List.length_append, h.second.length_bytes] at hlength
  have hsec : slice text 17 19 = .ok g.second :=
    (hslice 0 2).trans (slice_ok [] rest rfl rfl (by rw [h.second.length_bytes]))
  have hrest : suffix text 19 = .ok rest := by
    rw [suffix, hlength]
    exact (hslice 2 (2 + (ByteText.bytes rest).length)).trans
      (slice_ok g.second [] (by rw [List.append_nil]) h.second.length_bytes rfl)
  have hdigits : ∀ {run : List Char}, IsRun 2 run → digits run = some (Constraints.number run) :=
    fun hr => digits_run hr (by decide) (by decide)
  rw [Constraints.dateTimeInstant, dateTimeGroups_run h]
  by_cases hshort : (ByteText.bytes text).length < 20
  · have hempty : rest = [] := by
      cases rest with
      | nil => rfl
      | cons c cs =>
        have hpos := c.utf8Size_pos
        rw [ByteText.length_bytes_cons] at hlength
        omega
    rw [dateTimeInstant, if_pos hshort, hempty]
    rfl
  · rw [dateTimeInstant, if_neg hshort, if_neg hseparator, hdate, hfirst, hsecond, hhour, hminute,
      hsec, hrest]
    simp only [bind, Except.bind, dateInstant_eq, Constraints.dateInstant_groups h,
      Bool.true_eq_false, or_self, if_false, hdigits h.hour, hdigits h.minute, hdigits h.second,
      fraction_eq, offset_eq]
    have hinstant : ∀ {f zone}, Constraints.instantOf { g with fraction := f, zone := zone } = _ :=
      Constraints.instantOf_eq _
    by_cases hguard : Constraints.validCivil (Constraints.number g.year)
        (Constraints.number g.month) (Constraints.number g.day) = false ∨
        Constraints.number g.hour > 23 ∨ Constraints.number g.minute > 59 ∨
        Constraints.number g.second > 59
    · have hnone : ((Constraints.fractionGroup rest).bind fun found =>
          (Constraints.zoneGroup found.2).map fun zone =>
            { g with fraction := found.1, zone := zone }).bind Constraints.instantOf = none := by
        rw [Option.bind_eq_none_iff]
        intro groups hgroups
        obtain ⟨found, -, hzone⟩ := Option.bind_eq_some_iff.1 hgroups
        obtain ⟨zone, -, rfl⟩ := Option.map_eq_some_iff.1 hzone
        rw [hinstant, if_pos hguard]
      rw [hnone]
      cases hvalid : Constraints.validCivil (Constraints.number g.year)
          (Constraints.number g.month) (Constraints.number g.day) with
      | false => rfl
      | true =>
        rw [hvalid] at hguard
        simp only [orNone, if_true, if_pos (hguard.resolve_left (by simp))]
    · have hrange := hguard
      rw [not_or, Bool.not_eq_false] at hrange
      simp only [hrange.1, if_true, orNone, if_neg hrange.2]
      cases Constraints.fractionGroup rest with
      | none => rfl
      | some found =>
        simp only [Option.bind_some]
        cases Constraints.zoneGroup found.2 with
        | none => rfl
        | some zone =>
          simp only [Option.map_some, Option.bind_some, hinstant, if_neg hguard]
          cases Constraints.zoneOffset zone <;> rfl

end Support

namespace Support

theorem dateTimeInstant_cases (text : List Char) : dateTimeInstant text = .error .none ∨
    (Overruns text ∧ dateTimeInstant text = .error .panic) ∨
    ∃ g t rest, Constraints.UpToSecond text g t rest := by
  by_cases hshort : (ByteText.bytes text).length < 20
  · exact .inl (if_pos hshort)
  by_cases hseparator : byteIs text 10 'T' = false ∧ byteIs text 10 't' = false
  · exact .inl (by rw [dateTimeInstant, if_neg hshort, if_pos hseparator])
  have hsplit : ∃ date t rest, text = date ++ t :: rest ∧ (ByteText.bytes date).length = 10 ∧
      (t = 'T' ∨ t = 't') := by
    rw [not_and_or, Bool.not_eq_false, Bool.not_eq_false] at hseparator
    rcases hseparator with hbyte | hbyte
    · obtain ⟨date, rest, htext, hlength⟩ := (byteIs_iff (by decide)).1 hbyte
      exact ⟨date, 'T', rest, htext, hlength, .inl rfl⟩
    · obtain ⟨date, rest, htext, hlength⟩ := (byteIs_iff (by decide)).1 hbyte
      exact ⟨date, 't', rest, htext, hlength, .inr rfl⟩
  obtain ⟨date, t, rest, rfl, hdl, ht⟩ := hsplit
  have hsize : t.utf8Size = 1 := by rcases ht with rfl | rfl <;> decide
  have hdate : slice (date ++ t :: rest) 0 10 = .ok date :=
    slice_ok [] (t :: rest) rfl rfl (by rw [hdl])
  rw [dateTimeInstant, if_neg hshort, if_neg hseparator, hdate]
  simp only [bind, Except.bind, dateInstant_eq]
  cases hvalue : Constraints.dateInstant date with
  | none => exact .inl rfl
  | some day =>
    simp only [orNone]
    by_cases hcolons : byteIs (date ++ t :: rest) 13 ':' = false ∨
        byteIs (date ++ t :: rest) 16 ':' = false
    · exact .inl (if_pos hcolons)
    · rw [if_neg hcolons]
      rw [not_or, Bool.not_eq_false, Bool.not_eq_false] at hcolons
      obtain ⟨hfirst, hsecond⟩ := hcolons
      have hhead : (ByteText.bytes (date ++ [t])).length = 11 := by
        rw [ByteText.bytes_append, List.length_append, length_ascii hsize, hdl]
        rfl
      have hassoc : ∀ cs, date ++ t :: cs = (date ++ [t]) ++ cs := by
        intro cs
        simp
      rw [hassoc, byteIs_append (n := 2) hhead] at hfirst
      rw [hassoc, byteIs_append (n := 5) hhead] at hsecond
      obtain ⟨hour, rest, rfl, hhl⟩ := (byteIs_iff size_colon).1 hfirst
      have hcolon : (ByteText.bytes (hour ++ [':'])).length = 3 := by
        rw [ByteText.bytes_append, List.length_append, length_ascii size_colon, hhl]
        rfl
      have hassoc' : hour ++ ':' :: rest = (hour ++ [':']) ++ rest := by simp
      rw [hassoc', byteIs_append (n := 2) hcolon] at hsecond
      obtain ⟨minute, rest, rfl, hml⟩ := (byteIs_iff size_colon).1 hsecond
      obtain ⟨hlength, -, -, -, -, hhour, hminute, hslice⟩ := dateTime_pieces ht hdl hhl hml rfl
      have hsec := (hslice 0 2).trans (slice_split rest)
      rw [hhour, hminute, hsec]
      simp only
      cases hh : digits hour with
      | none => exact .inl rfl
      | some h =>
        cases hm : digits minute with
        | none => exact .inl rfl
        | some m =>
          have hhr := run_of_digits hh hhl
          have hmr := run_of_digits hm hml
          cases hcut : ByteText.splitAt 2 rest with
          | none =>
            refine .inr (.inl ⟨⟨date, t, hour, minute, rest, rfl, ?_, ht, hhr, hmr, by omega, hcut⟩,
              rfl⟩)
            rw [hvalue, Option.isSome_some]
          | some parts =>
            obtain ⟨second, tail⟩ := parts
            obtain ⟨hrest, hsl⟩ := ByteText.splitAt_iff.1 hcut
            simp only
            cases hs : digits second with
            | none => exact .inl rfl
            | some s =>
              obtain ⟨year, month, day, hdate, hy, hmo, hd⟩ := groups_of_dateInstant hvalue
              refine .inr (.inr ⟨⟨year, month, day, hour, minute, second, none, none⟩, t, tail,
                ?_, by simpa using ht, hy, hmo, hd, hhr, hmr, run_of_digits hs hsl⟩)
              rw [hdate, hrest]
              simp

theorem dateTimeInstant_overruns {text : List Char} (h : Overruns text) :
    dateTimeInstant text = .error .panic := by
  obtain ⟨date, t, hour, minute, rest, rfl, hvalue, ht, hh, hm, hthree, hcut⟩ := h
  obtain ⟨day, hday⟩ := Option.isSome_iff_exists.1 hvalue
  obtain ⟨year, month, d, hdate, hy, hmo, hd⟩ := groups_of_dateInstant hday
  have hdl : (ByteText.bytes date).length = 10 := by
    rw [hdate]
    exact length_date hy hmo hd
  obtain ⟨hlength, hseparator, hdate, hfirst, hsecond, hhour, hminute, hslice⟩ :=
    dateTime_pieces ht hdl hh.length_bytes hm.length_bytes rfl
  have hsec := (hslice 0 2).trans (slice_split rest)
  rw [hcut] at hsec
  rw [dateTimeInstant, if_neg (by omega), if_neg hseparator, hdate, hfirst, hsecond, hhour, hminute,
    hsec]
  simp only [bind, Except.bind, dateInstant_eq, hday, orNone, Bool.true_eq_false, or_self, if_false,
    digits_run hh (by decide) (by decide), digits_run hm (by decide) (by decide)]

/-- The generated `date_time_instant` gives what the generator gives unless a character runs over
the end of the second. -/
theorem dateTimeInstant_iff (text : List Char) :
    dateTimeInstant text = orNone (Constraints.dateTimeInstant text) ↔ ¬ Overruns text := by
  constructor
  · intro h hover
    rw [dateTimeInstant_overruns hover] at h
    revert h
    cases Constraints.dateTimeInstant text <;> simp [orNone]
  · intro hover
    rcases dateTimeInstant_cases text with hnone | ⟨hyes, -⟩ | ⟨g, t, rest, hrun⟩
    · cases hvalue : Constraints.dateTimeInstant text with
      | none => exact hnone
      | some value =>
        obtain ⟨g, hgroups, -⟩ := Option.bind_eq_some_iff.1 hvalue
        obtain ⟨t, rest, rest', hrun, -, -⟩ := Constraints.dateTimeGroups_iff.1 hgroups
        rw [dateTimeInstant_run hrun, hvalue]
    · exact absurd hyes hover
    · exact dateTimeInstant_run hrun

end Support

/-! ### Instants -/

namespace Constraints

def fractionOf : Option (List Char) → ℚ
  | none => 0
  | some run => decimalValue run / 10 ^ run.length

/-- The seconds by which the clock of a zone is ahead of UTC. -/
def aheadOf : Option Zone → ℚ
  | none => 0
  | some (sign, hour, minute) =>
    (if sign = '+' then 1 else -1) * (decimalValue hour * 3600 + decimalValue minute * 60)

/-- The seconds from 1970-01-01T00:00:00Z. -/
def utcSeconds (g : Groups) : ℚ :=
  dayNumber (decimalValue g.year) (decimalValue g.month) (decimalValue g.day) * 86400 +
    decimalValue g.hour * 3600 + decimalValue g.minute * 60 + decimalValue g.second +
    fractionOf g.fraction - aheadOf g.zone

end Constraints

def OnCalendar (year month day : ℕ) : Prop :=
  1 ≤ month ∧ month ≤ 12 ∧ 1 ≤ day ∧ day ≤ monthLength year month

namespace Constraints

theorem validCivil_iff (year month day : ℕ) :
    validCivil year month day = true ↔ OnCalendar year month day := by
  have hleap : ((year : ℤ).tmod 4 == 0 && (year : ℤ).tmod 100 != 0 || (year : ℤ).tmod 400 == 0) =
      isLeap year := by
    have hmod : ∀ k : ℕ, ((year : ℤ).tmod k == 0) = (year % k == 0) := by
      intro k
      rw [Int.tmod_eq_emod_of_nonneg (by omega), Bool.eq_iff_iff, beq_iff_eq, beq_iff_eq]
      omega
    rw [isLeap, bne, bne, ← hmod 4, ← hmod 100, ← hmod 400]
    rfl
  unfold validCivil OnCalendar
  simp only [hleap]
  by_cases hmonth : 1 ≤ month ∧ month ≤ 12
  · obtain ⟨hlow, hhigh⟩ := hmonth
    by_cases hday : 1 ≤ day
    · rw [if_neg (by omega)]
      unfold monthLength
      cases isLeap year <;> interval_cases month <;> simp [hday]
    · rw [if_pos (by omega)]
      refine iff_of_false (by simp) fun h => hday h.2.2.1
  · rw [if_pos (by omega)]
    refine iff_of_false (by simp) fun h => hmonth ⟨h.1, h.2.1⟩

theorem fractionGroup_digits {cs run rest : List Char}
    (h : fractionGroup cs = some (some run, rest)) : run.all isAsciiDigit = true := by
  unfold fractionGroup at h
  split at h
  · simp only at h
    split at h
    · cases h
    · cases h
      exact all_takeWhile _
  · cases h

theorem fractionText_floor {fraction : Option (List Char)}
    (h : ∀ run, fraction = some run → run.all isAsciiDigit = true) :
    number (fractionText fraction) = ⌊fractionOf fraction * 10 ^ 9⌋ := by
  cases fraction with
  | none =>
    have hzero : number (fractionText none) = 0 := number_zeros 9
    rw [hzero, fractionOf, zero_mul, Int.floor_zero]
  | some run =>
    have hdigits := h run rfl
    have hrun : run.take 9 ++ run.drop 9 = run := List.take_append_drop 9 run
    have hkept : (run.take 9).length = min 9 run.length := List.length_take
    have hleft : (run.drop 9).length = run.length - 9 := List.length_drop
    have hvalue : (decimalValue run : ℤ) =
        number (run.take 9) * 10 ^ (run.drop 9).length + number (run.drop 9) := by
      rw [← number_append, hrun]
      rfl
    have hlast : decimalValue (run.drop 9) < 10 ^ (run.drop 9).length :=
      decimalValue_lt _ (List.all_eq_true.2 fun c hc =>
        List.all_eq_true.1 hdigits c (List.mem_of_mem_drop hc))
    have hnumber : number (fractionText (some run)) =
        number (run.take 9) * 10 ^ (9 - (run.take 9).length) := by
      rw [fractionText, Option.getD_some, number_append, number_zeros, List.length_replicate,
        add_zero]
    generalize number (run.take 9) = kept at hvalue hnumber
    have hdropped : number (run.drop 9) = (decimalValue (run.drop 9) : ℕ) := rfl
    rw [hdropped] at hvalue
    generalize decimalValue (run.drop 9) = dropped at hvalue hlast
    rw [hleft] at hvalue hlast
    have hvalueQ : (decimalValue run : ℚ) = kept * 10 ^ (run.length - 9) + dropped := by
      exact_mod_cast hvalue
    rw [hnumber, hkept, fractionOf, hvalueQ, eq_comm, Int.floor_eq_iff]
    push_cast
    by_cases hlong : run.length ≤ 9
    · have hsub : run.length - 9 = 0 := by omega
      rw [hsub] at hlast ⊢
      have hdrop : dropped = 0 := by omega
      have hpow : (10 : ℚ) ^ (9 - min 9 run.length) * 10 ^ run.length = 10 ^ 9 := by
        rw [← pow_add]
        congr 1
        omega
      have hne : (10 : ℚ) ^ run.length ≠ 0 := by positivity
      have heq : (kept * 10 ^ 0 + (dropped : ℚ)) / 10 ^ run.length * 10 ^ 9 =
          kept * 10 ^ (9 - min 9 run.length) := by
        rw [hdrop, ← hpow]
        field_simp
        simp
      rw [heq]
      exact ⟨le_rfl, lt_add_one _⟩
    · have hpow : (10 : ℚ) ^ run.length = 10 ^ (run.length - 9) * 10 ^ 9 := by
        rw [← pow_add]
        congr 1
        omega
      have hmin : 9 - min 9 run.length = 0 := by omega
      have hpos : (0 : ℚ) < 10 ^ (run.length - 9) := by positivity
      have heq : (kept * 10 ^ (run.length - 9) + (dropped : ℚ)) / 10 ^ run.length * 10 ^ 9 =
          kept + dropped / 10 ^ (run.length - 9) := by
        rw [hpow]
        field_simp
      rw [heq, hmin, pow_zero, mul_one]
      refine ⟨le_add_of_nonneg_right (by positivity), ?_⟩
      have hone : (dropped : ℚ) / 10 ^ (run.length - 9) < 1 := by
        rw [div_lt_one hpos]
        exact_mod_cast hlast
      linarith

/-- What the generator reads is the UTC instant, cut to nanoseconds. -/
theorem dateTimeInstant_exact {text : List Char} {n : ℤ} (h : dateTimeInstant text = some n) :
    ∃ g, dateTimeGroups text = some g ∧
      OnCalendar (decimalValue g.year) (decimalValue g.month) (decimalValue g.day) ∧
      n = ⌊utcSeconds g * 10 ^ 9⌋ := by
  obtain ⟨g, hgroups, hinstant⟩ := Option.bind_eq_some_iff.1 h
  refine ⟨g, hgroups, ?_⟩
  obtain ⟨t, rest, rest', hrun, hf, hz⟩ := dateTimeGroups_iff.1 hgroups
  rw [instantOf_eq] at hinstant
  split at hinstant
  · cases hinstant
  · rename_i hguard
    rw [not_or, Bool.not_eq_false] at hguard
    have hcalendar := (validCivil_iff _ _ _).1 hguard.1
    refine ⟨hcalendar, ?_⟩
    obtain ⟨hlow, hhigh, hday, -⟩ := hcalendar
    obtain ⟨offset, hoffset, rfl⟩ := Option.map_eq_some_iff.1 hinstant
    have hdays : daysFromCivil (number g.year) (number g.month) (number g.day) = _ :=
      daysFromCivil_eq ⟨hlow, hhigh⟩ hday
    have hfraction : number (fractionText g.fraction) = ⌊fractionOf g.fraction * 10 ^ 9⌋ := by
      apply fractionText_floor
      intro run heq
      rw [heq] at hf
      exact fractionGroup_digits hf
    have hahead : (offset : ℚ) = aheadOf g.zone * 10 ^ 9 := by
      cases hzone : g.zone with
      | none =>
        rw [hzone] at hoffset
        cases hoffset
        simp [aheadOf]
      | some zone =>
        obtain ⟨sign, hour, minute⟩ := zone
        rw [hzone, zoneOffset] at hoffset
        split at hoffset
        · cases hoffset
        · cases hoffset
          unfold number
          simp only [aheadOf]
          by_cases hsign : sign = '+'
          · rw [if_pos hsign, if_pos hsign]
            push_cast
            ring
          · rw [if_neg hsign, if_neg hsign]
            push_cast
            ring
    have hsum : utcSeconds g * 10 ^ 9 = ((dayNumber (decimalValue g.year) (decimalValue g.month)
        (decimalValue g.day) * 86400000000000 + number g.hour * 3600000000000 +
        number g.minute * 60000000000 + number g.second * 1000000000 - offset : ℤ) : ℚ) +
        fractionOf g.fraction * 10 ^ 9 := by
      unfold utcSeconds number
      push_cast
      rw [hahead]
      ring
    rw [hsum, Int.floor_intCast_add, ← hfraction, hdays]
    ring

theorem dateInstant_exact {text : List Char} {n : ℤ} (h : dateInstant text = some n) :
    ∃ year month day, text = year ++ '-' :: (month ++ '-' :: day) ∧ IsRun 4 year ∧ IsRun 2 month ∧
      IsRun 2 day ∧ OnCalendar (decimalValue year) (decimalValue month) (decimalValue day) ∧
      n = dayNumber (decimalValue year) (decimalValue month) (decimalValue day) * 86400 * 10 ^ 9 := by
  unfold dateInstant at h
  split at h
  · rename_i y m d hgroups
    split at h
    · rename_i hvalid
      cases h
      obtain ⟨htext, hy, hm, hd⟩ := dateGroups_iff.1 hgroups
      rw [List.append_nil] at htext
      have hcalendar := (validCivil_iff _ _ _).1 hvalid
      have hdays : daysFromCivil (number y) (number m) (number d) = _ :=
        daysFromCivil_eq ⟨hcalendar.1, hcalendar.2.1⟩ hcalendar.2.2.1
      refine ⟨y, m, d, htext, hy, hm, hd, hcalendar, ?_⟩
      rw [hdays]
      ring
    · cases h
  · cases h

end Constraints

/-- The generated readers give what the generator gives, the instant cut to nanoseconds, and never
panic, unless a character runs over the end of the second. -/
theorem instants_iff (text : List Char) :
    (Support.dateInstant text = Support.orNone (Constraints.dateInstant text) ∧
      Support.dateTimeInstant text = Support.orNone (Constraints.dateTimeInstant text) ∧
      (∀ n, Constraints.dateInstant text = some n → ∃ year month day,
        text = year ++ '-' :: (month ++ '-' :: day) ∧ IsRun 4 year ∧ IsRun 2 month ∧
          IsRun 2 day ∧ OnCalendar (decimalValue year) (decimalValue month) (decimalValue day) ∧
          n = dayNumber (decimalValue year) (decimalValue month) (decimalValue day) * 86400 *
            10 ^ 9) ∧
      ∀ n, Constraints.dateTimeInstant text = some n → ∃ g, Constraints.dateTimeGroups text = some g ∧
        OnCalendar (decimalValue g.year) (decimalValue g.month) (decimalValue g.day) ∧
        n = ⌊Constraints.utcSeconds g * 10 ^ 9⌋) ↔
      ¬ Support.Overruns text := by
  rw [← Support.dateTimeInstant_iff]
  constructor
  · exact fun h => h.2.1
  · exact fun h => ⟨Support.dateInstant_eq text, h, fun n hn => Constraints.dateInstant_exact hn,
      fun n hn => Constraints.dateTimeInstant_exact hn⟩

/-- A letter of two bytes in the place of the second's last digit. -/
theorem instants_accent :
    Support.dateTimeInstant "2020-01-01T00:00:0é".toList = .error .panic ∧
      Constraints.dateTimeInstant "2020-01-01T00:00:0é".toList = none := by
  decide +kernel

end FilamentCore.Backends.CivilTime
