import FilamentCore.Library.Pattern
import FilamentCore.SemanticIr.DecimalText

/-!
# The patterns of wide integers

The integers of the JSON Schema backend (src/compiler/backends/json-schema-v1/index.mjs): a range
within the safe integers is a number with bounds, any other one is a text with a pattern that is
assembled digit by digit.
-/

namespace FilamentCore.Backends.IntegerPatterns
open FilamentCore.Library FilamentCore.Library.Regex
open FilamentCore.SemanticIr

/-! ### The patterns -/

/-- `[0-9]{n}`. -/
def anyDigits (n : ℕ) : Pattern := .counted (.range '0' '9') n

/-- `Number(text[position])`. -/
def digitAt (text : List Char) (position : ℕ) : ℕ := (text.getD position '0').toNat - '0'.toNat

/-- The numerals of as many digits that agree with a text up to a position and are smaller there. -/
def smallerAt (text : List Char) (position : ℕ) : Option Pattern :=
  let digit := digitAt text position
  if digit = 0 then none
  else
    let range := .range (if position = 0 then '1' else '0') (Nat.digitChar (digit - 1))
    if 1 < digit ∨ 0 < position then
      some (.followed (.word (text.take position))
        (.followed range (anyDigits (text.length - position - 1))))
    else none

/-- `parts`, for the text of a number that is not negative. -/
def parts (text : List Char) : List Pattern :=
  let shorter := (List.range (text.length - 1)).map fun n =>
    .followed (.range '1' '9') (anyDigits n)
  let smaller := (List.range text.length).filterMap (smallerAt text)
  .char '0' :: (shorter ++ (smaller ++ [.word text]))

def unsignedAtMost (max : ℤ) : Pattern :=
  if max < 0 then .notAhead .empty else .group (.alts (parts (toString max).toList))

def rangeAlternatives (lower upper : ℤ) : List Pattern :=
  (if lower < 0 then
    let minAbs := if upper < 0 then -upper else 1
    [.followed (.char '-') (.followed (.notAhead (.followed (unsignedAtMost (minAbs - 1)) .finish))
      (unsignedAtMost (-lower)))]
  else []) ++
  (if 0 ≤ upper then
    if 0 < lower then
      [.followed (.notAhead (.followed (.group (unsignedAtMost (lower - 1))) .finish))
        (unsignedAtMost upper)]
    else [unsignedAtMost upper]
  else [])

def integerPattern (lower upper : ℤ) : Pattern :=
  .cat [.start, .group (.alts (rangeAlternatives lower upper)), .finish]

/-! ### Numerals by their digits -/

variable {w m : List Char}

theorem decimalValue_lt_iff (hw : ∀ c ∈ w, isAsciiDigit c = true)
    (hm : ∀ c ∈ m, isAsciiDigit c = true) (hlength : w.length = m.length) :
    decimalValue w < decimalValue m ↔ ∃ front c d wrest mrest, w = front ++ c :: wrest ∧
      m = front ++ d :: mrest ∧ c.toNat < d.toNat := by
  constructor
  · intro h
    induction w generalizing m with
    | nil =>
      rw [List.eq_nil_of_length_eq_zero hlength.symm] at h
      exact absurd h (lt_irrefl _)
    | cons c cs ih =>
      cases m with
      | nil => cases hlength
      | cons d ds =>
        rw [List.forall_mem_cons] at hw hm
        have hl : cs.length = ds.length := Nat.succ.inj hlength
        obtain hlt | heq | hgt := lt_trichotomy c.toNat d.toNat
        · exact ⟨[], c, d, cs, ds, rfl, rfl, hlt⟩
        · rw [decimalValue_cons, decimalValue_cons, heq, hl, Nat.add_lt_add_iff_left] at h
          obtain ⟨front, c', d', wrest, mrest, rfl, rfl, hlt⟩ := ih hw.2 hm.2 hl h
          exact ⟨c :: front, c', d', wrest, mrest, rfl, by
            rw [char_eq_of_toNat heq, List.cons_append], hlt⟩
        · have hdlt := decimalValue_lt hm.2
          have hbounds := digit_bounds hm.1
          have hzero : '0'.toNat = 48 := rfl
          have hstep : (d.toNat - '0'.toNat + 1) * 10 ^ ds.length ≤
              (c.toNat - '0'.toNat) * 10 ^ ds.length := Nat.mul_le_mul_right _ (by omega)
          rw [decimalValue_cons, decimalValue_cons, hl] at h
          rw [Nat.add_mul, Nat.one_mul] at hstep
          omega
  · rintro ⟨front, c, d, wrest, mrest, rfl, rfl, hlt⟩
    have hl : wrest.length = mrest.length := by
      simp only [List.length_append, List.length_cons] at hlength
      omega
    rw [List.forall_mem_append, List.forall_mem_cons] at hw hm
    have hwlt := decimalValue_lt hw.2.2
    have hbounds := digit_bounds hw.2.1
    have hzero : '0'.toNat = 48 := rfl
    have hstep : (c.toNat - '0'.toNat + 1) * 10 ^ mrest.length ≤
        (d.toNat - '0'.toNat) * 10 ^ mrest.length := Nat.mul_le_mul_right _ (by omega)
    rw [Nat.add_mul, Nat.one_mul] at hstep
    rw [decimalValue_append, decimalValue_append, decimalValue_cons, decimalValue_cons,
      List.length_cons, List.length_cons, hl]
    rw [hl] at hwlt
    omega

/-! ### One alternative -/

theorem mem_range {low high : Char} {n : Set ℕ} : w ∈ runs (fun c => low ≤ c && c ≤ high) n ↔
    w.length ∈ n ∧ ∀ c ∈ w, low.toNat ≤ c.toNat ∧ c.toNat ≤ high.toNat := by
  rw [mem_runs]
  simp only [Bool.and_eq_true, decide_eq_true_eq, Char.le_def, UInt32.le_iff_toNat_le]
  rfl

theorem isAsciiDigit_iff {c : Char} : isAsciiDigit c = true ↔ 48 ≤ c.toNat ∧ c.toNat ≤ 57 := by
  simp only [isAsciiDigit, Bool.and_eq_true, decide_eq_true_eq, Char.le_def,
    UInt32.le_iff_toNat_le]
  rfl

theorem reads_anyDigits (n : ℕ) :
    Reads (anyDigits n).regex (runs isAsciiDigit {n}) := reads_times_set n

/-- A first digit of a class and a number of digits. -/
def leading (low high : Char) (n : ℕ) : Language Char :=
  {w | ∃ c cs, w = c :: cs ∧ low.toNat ≤ c.toNat ∧ c.toNat ≤ high.toNat ∧ cs.length = n ∧
    ∀ d ∈ cs, isAsciiDigit d = true}

theorem reads_leading (low high : Char) (n : ℕ) :
    Reads (Pattern.followed (.range low high) (anyDigits n)).regex (leading low high n) := by
  have hreads : Reads (Pattern.followed (.range low high) (anyDigits n)).regex
      (runs (fun c => low ≤ c && c ≤ high) {1} * runs isAsciiDigit {n}) :=
    reads_seq reads_set (reads_anyDigits n)
  have hlanguage : runs (fun c => low ≤ c && c ≤ high) {1} * runs isAsciiDigit {n} =
      leading low high n := by
    ext w
    rw [Language.mem_mul]
    constructor
    · rintro ⟨a, ha, b, ⟨hb, hdigits⟩, rfl⟩
      obtain ⟨hone, hclass⟩ := mem_range.1 ha
      obtain ⟨c, rfl⟩ := List.length_eq_one_iff.1 hone
      have hc := hclass c (List.mem_singleton_self c)
      exact ⟨c, b, rfl, hc.1, hc.2, hb, hdigits⟩
    · rintro ⟨c, cs, rfl, hlow, hhigh, hlength, hdigits⟩
      exact ⟨[c], mem_range.2 ⟨rfl, by simpa using ⟨hlow, hhigh⟩⟩, cs, ⟨hlength, hdigits⟩, rfl⟩
  rwa [hlanguage] at hreads

theorem reads_prefixed (front : List Char) (low high : Char) (n : ℕ) :
    Reads (Pattern.followed (.word front) (.followed (.range low high) (anyDigits n))).regex
      ({front} * leading low high n) :=
  reads_seq (Pattern.reads_word front) (reads_leading low high n)

theorem mem_prefixed {front : List Char} {low high : Char} {n : ℕ} :
    w ∈ {front} * leading low high n ↔ ∃ c cs, w = front ++ c :: cs ∧ low.toNat ≤ c.toNat ∧
      c.toNat ≤ high.toNat ∧ cs.length = n ∧ ∀ d ∈ cs, isAsciiDigit d = true := by
  rw [Language.mem_mul]
  constructor
  · rintro ⟨a, rfl, b, ⟨c, cs, rfl, hrest⟩, rfl⟩
    exact ⟨c, cs, rfl, hrest⟩
  · rintro ⟨c, cs, rfl, hrest⟩
    exact ⟨front, rfl, _, ⟨c, cs, rfl, hrest⟩, rfl⟩

theorem digitChar_pred {d : Char} (hd : isAsciiDigit d = true) (hpos : d.toNat - '0'.toNat ≠ 0) :
    (Nat.digitChar (d.toNat - '0'.toNat - 1)).toNat = d.toNat - 1 := by
  have hbounds := digit_bounds hd
  have hzero : '0'.toNat = 48 := rfl
  have hall : ∀ n < 9, (Nat.digitChar n).toNat = 48 + n := by decide
  rw [hall _ (by omega)]
  omega

theorem mem_smallerAt (hm : WholePart m) {position : ℕ} (hp : position < m.length) :
    (∃ p, smallerAt m position = some p ∧ w ∈ language p.regex) ↔
      ∃ c d wrest mrest, w = m.take position ++ c :: wrest ∧ m = m.take position ++ d :: mrest ∧
        c.toNat < d.toNat ∧ isAsciiDigit c = true ∧ (position = 0 → c ≠ '0') ∧
          wrest.length = mrest.length ∧ ∀ x ∈ wrest, isAsciiDigit x = true := by
  have hsplit : m = m.take position ++ m[position] :: m.drop (position + 1) := by
    rw [List.cons_getElem_drop_succ, List.take_append_drop]
  have hdigit : isAsciiDigit m[position] = true := hm.digit _ (List.getElem_mem hp)
  have hbounds := digit_bounds hdigit
  have hzero : '0'.toNat = 48 := rfl
  have hone : '1'.toNat = 49 := rfl
  have hat : digitAt m position = m[position].toNat - '0'.toNat := by
    rw [digitAt, List.getD_eq_getElem _ _ hp]
  have hlength : (m.drop (position + 1)).length = m.length - position - 1 := by
    rw [List.length_drop]
    omega
  have hsame : ∀ d mrest, m = m.take position ++ d :: mrest → d = m[position] ∧
      mrest = m.drop (position + 1) := by
    intro d mrest h
    have hcons := List.append_cancel_left (h.symm.trans hsplit)
    exact List.cons.inj hcons
  rw [smallerAt, hat]
  constructor
  · rintro ⟨p, hsome, hw⟩
    dsimp only at hsome
    by_cases hnone : m[position].toNat - '0'.toNat = 0
    · rw [if_pos hnone] at hsome
      cases hsome
    rw [if_neg hnone] at hsome
    by_cases hfirst : 1 < m[position].toNat - '0'.toNat ∨ 0 < position
    · rw [if_pos hfirst] at hsome
      obtain rfl := Option.some.inj hsome
      rw [(reads_prefixed _ _ _ _).language_eq, mem_prefixed, digitChar_pred hdigit hnone] at hw
      obtain ⟨c, cs, rfl, hlow, hhigh, hcs, hdigits⟩ := hw
      have hclow : 48 ≤ c.toNat := by
        split_ifs at hlow <;> omega
      refine ⟨c, m[position], cs, m.drop (position + 1), rfl, hsplit, by omega, ?_, ?_,
        by rw [hcs, hlength], hdigits⟩
      · rw [isAsciiDigit_iff]
        omega
      · intro hp0 hc
        rw [if_pos hp0, hc] at hlow
        omega
    · rw [if_neg hfirst] at hsome
      cases hsome
  · rintro ⟨c, d, wrest, mrest, rfl, hmd, hlt, hc, hlead, hrest, hdigits⟩
    obtain ⟨rfl, rfl⟩ := hsame d mrest hmd
    have hcbounds := digit_bounds hc
    have hnone : m[position].toNat - '0'.toNat ≠ 0 := by omega
    have hfirst : 1 < m[position].toNat - '0'.toNat ∨ 0 < position := by
      by_cases hp0 : position = 0
      · left
        have hne : c.toNat ≠ '0'.toNat := fun h => hlead hp0 (char_eq_of_toNat h)
        omega
      · exact .inr (Nat.pos_of_ne_zero hp0)
    refine ⟨_, by rw [if_neg hnone, if_pos hfirst], ?_⟩
    rw [(reads_prefixed _ _ _ _).language_eq, mem_prefixed, digitChar_pred hdigit hnone]
    refine ⟨c, wrest, rfl, ?_, by omega, by rw [hrest, hlength], hdigits⟩
    split_ifs with hp0
    · have hne : c.toNat ≠ '0'.toNat := fun h => hlead hp0 (char_eq_of_toNat h)
      omega
    · omega

/-! ### Numerals up to a bound -/

def numeralsUpTo (max : ℤ) : Language Char := {w | WholePart w ∧ (decimalValue w : ℤ) ≤ max}

theorem numeral_le_iff (hm : WholePart m) : WholePart w ∧ decimalValue w ≤ decimalValue m ↔
    w = ['0'] ∨
      (∃ c cs, w = c :: cs ∧ isAsciiDigit c = true ∧ c ≠ '0' ∧ cs.length < m.length - 1 ∧
        ∀ d ∈ cs, isAsciiDigit d = true) ∨
      (∃ position < m.length, ∃ c d wrest mrest, w = m.take position ++ c :: wrest ∧
        m = m.take position ++ d :: mrest ∧ c.toNat < d.toNat ∧ isAsciiDigit c = true ∧
          (position = 0 → c ≠ '0') ∧ wrest.length = mrest.length ∧
            ∀ x ∈ wrest, isAsciiDigit x = true) ∨ w = m := by
  constructor
  · rintro ⟨hw, hle⟩
    by_cases hw0 : w = ['0']
    · exact .inl hw0
    right
    obtain ⟨c, cs, rfl, hc⟩ := hw.lead.resolve_left hw0
    have hdigits := hw.digit
    rw [List.forall_mem_cons] at hdigits
    have hlow := hw.value_pos hw0
    have hmlt := decimalValue_lt hm.digit
    have hlt := (hlow.trans hle).trans_lt hmlt
    have hpow := (Nat.pow_lt_pow_iff_right (by norm_num : 1 < 10)).1 hlt
    rw [List.length_cons, Nat.add_sub_cancel] at hpow
    by_cases hshort : cs.length < m.length - 1
    · exact .inl ⟨c, cs, rfl, hdigits.1, hc, hshort, hdigits.2⟩
    right
    have hlength : (c :: cs).length = m.length := by
      rw [List.length_cons]
      omega
    obtain heq | hlt := hle.eq_or_lt
    · exact .inr (decimalValue_injective hw.digit hm.digit hlength heq)
    · left
      obtain ⟨front, x, d, wrest, mrest, hwx, hmd, hxd⟩ :=
        (decimalValue_lt_iff hw.digit hm.digit hlength).1 hlt
      have htake : m.take front.length = front := by rw [hmd, List.take_left]
      have hwdigit := hw.digit
      rw [hwx, List.forall_mem_append, List.forall_mem_cons] at hwdigit
      refine ⟨front.length, ?_, x, d, wrest, mrest, by rw [htake, hwx], by rw [htake, ← hmd], hxd,
        hwdigit.2.1, ?_, ?_, hwdigit.2.2⟩
      · rw [hmd, List.length_append, List.length_cons]
        omega
      · intro hfront
        rw [List.length_eq_zero_iff.1 hfront, List.nil_append] at hwx
        rw [← (List.cons.inj hwx).1]
        exact hc
      · rw [hwx, hmd] at hlength
        simp only [List.length_append, List.length_cons] at hlength
        omega
  · rintro (rfl | ⟨c, cs, rfl, hdigit, hc, hshort, hdigits⟩ | ⟨position, hp, c, d, wrest, mrest, hw,
      hmd, hlt, hdigit, hlead, hlength, hdigits⟩ | rfl)
    · exact ⟨.zero, Nat.zero_le _⟩
    · have hw : WholePart (c :: cs) :=
        ⟨List.forall_mem_cons.2 ⟨hdigit, hdigits⟩, .inr ⟨c, cs, rfl, hc⟩⟩
      refine ⟨hw, ?_⟩
      have hm0 : m ≠ ['0'] := by
        rintro rfl
        exact absurd hshort (Nat.not_lt_zero _)
      calc decimalValue (c :: cs) ≤ 10 ^ (c :: cs).length := (decimalValue_lt hw.digit).le
        _ ≤ 10 ^ (m.length - 1) := Nat.pow_le_pow_right (by norm_num) hshort
        _ ≤ decimalValue m := hm.value_pos hm0
    · have hmdigit := hm.digit
      rw [hmd, List.forall_mem_append] at hmdigit
      have hwdigit : ∀ x ∈ w, isAsciiDigit x = true := by
        rw [hw]
        exact List.forall_mem_append.2 ⟨hmdigit.1, List.forall_mem_cons.2 ⟨hdigit, hdigits⟩⟩
      have hvalue : decimalValue w < decimalValue m := by
        rw [decimalValue_lt_iff hwdigit hm.digit]
        · exact ⟨_, c, d, wrest, mrest, hw, hmd, hlt⟩
        · rw [hw]
          conv_rhs => rw [hmd]
          simp only [List.length_append, List.length_cons, hlength]
      refine ⟨⟨hwdigit, ?_⟩, hvalue.le⟩
      right
      cases position with
      | zero => exact ⟨c, wrest, hw, hlead rfl⟩
      | succ n =>
        obtain ⟨e, es, hme, he⟩ : ∃ e es, m = e :: es ∧ e ≠ '0' := by
          obtain h0 | hlead := hm.lead
          · rw [h0] at hp
            exact absurd hp (by simp)
          · exact hlead
        rw [hme, List.take_succ_cons, List.cons_append] at hw
        exact ⟨e, _, hw, he⟩
    · exact ⟨hm, le_rfl⟩

theorem toString_numeral {max : ℤ} (h : 0 ≤ max) :
    WholePart (toString max).toList ∧ (decimalValue (toString max).toList : ℤ) = max := by
  obtain ⟨n, rfl⟩ := Int.eq_ofNat_of_zero_le h
  exact ⟨toString_whole n, congrArg _ (decimalValue_toString n)⟩

theorem reads_smallerAt {position : ℕ} {p : Pattern} (h : smallerAt m position = some p) :
    ∃ L, Reads p.regex L := by
  rw [smallerAt] at h
  dsimp only at h
  by_cases hnone : digitAt m position = 0
  · rw [if_pos hnone] at h
    cases h
  rw [if_neg hnone] at h
  by_cases hfirst : 1 < digitAt m position ∨ 0 < position
  · rw [if_pos hfirst] at h
    rw [← Option.some.inj h]
    exact ⟨_, reads_prefixed _ _ _ _⟩
  · rw [if_neg hfirst] at h
    cases h

theorem mem_parts {p : Pattern} : p ∈ parts m ↔ p = .char '0' ∨
    (∃ n < m.length - 1, p = .followed (.range '1' '9') (anyDigits n)) ∨
      (∃ position < m.length, smallerAt m position = some p) ∨ p = .word m := by
  simp only [parts, List.mem_cons, List.mem_append, List.mem_map, List.mem_range,
    List.mem_filterMap, List.not_mem_nil, or_false, eq_comm]

theorem anyOf_parts (hm : WholePart m) :
    w ∈ Pattern.anyOf (parts m) ↔ WholePart w ∧ decimalValue w ≤ decimalValue m := by
  have hshorter : ∀ n, w ∈ language (Pattern.followed (.range '1' '9') (anyDigits n)).regex ↔
      ∃ c cs, w = c :: cs ∧ isAsciiDigit c = true ∧ c ≠ '0' ∧ cs.length = n ∧
        ∀ d ∈ cs, isAsciiDigit d = true := by
    intro n
    rw [(reads_leading '1' '9' n).language_eq]
    have hclass : ∀ c : Char, '1'.toNat ≤ c.toNat ∧ c.toNat ≤ '9'.toNat ↔
        isAsciiDigit c = true ∧ c ≠ '0' := by
      intro c
      have hone : '1'.toNat = 49 := rfl
      have hnine : '9'.toNat = 57 := rfl
      have hne : c ≠ '0' ↔ c.toNat ≠ 48 :=
        not_congr ⟨fun h => by rw [h]; rfl, char_eq_of_toNat (d := '0')⟩
      rw [isAsciiDigit_iff, hne]
      omega
    constructor
    · rintro ⟨c, cs, rfl, hlow, hhigh, hrest⟩
      obtain ⟨hdigit, hne⟩ := (hclass c).1 ⟨hlow, hhigh⟩
      exact ⟨c, cs, rfl, hdigit, hne, hrest⟩
    · rintro ⟨c, cs, rfl, hdigit, hne, hrest⟩
      obtain ⟨hlow, hhigh⟩ := (hclass c).2 ⟨hdigit, hne⟩
      exact ⟨c, cs, rfl, hlow, hhigh, hrest⟩
  rw [numeral_le_iff hm, Pattern.mem_anyOf]
  constructor
  · rintro ⟨p, hp, hw⟩
    obtain rfl | ⟨n, hn, rfl⟩ | ⟨position, hposition, hsome⟩ | rfl := mem_parts.1 hp
    · rw [show (Pattern.char '0').regex = lit '0' from rfl, (reads_lit '0').language_eq] at hw
      exact .inl hw
    · obtain ⟨c, cs, rfl, hdigit, hne, rfl, hdigits⟩ := (hshorter n).1 hw
      exact .inr (.inl ⟨c, cs, rfl, hdigit, hne, hn, hdigits⟩)
    · obtain hfirst := (mem_smallerAt hm hposition).1 ⟨p, hsome, hw⟩
      exact .inr (.inr (.inl ⟨position, hposition, hfirst⟩))
    · rw [(Pattern.reads_word m).language_eq] at hw
      exact .inr (.inr (.inr hw))
  · rintro (rfl | ⟨c, cs, rfl, hdigit, hne, hn, hdigits⟩ | ⟨position, hposition, hfirst⟩ | rfl)
    · exact ⟨.char '0', mem_parts.2 (.inl rfl), (reads_lit '0').language_eq ▸ rfl⟩
    · exact ⟨_, mem_parts.2 (.inr (.inl ⟨cs.length, hn, rfl⟩)),
        (hshorter cs.length).2 ⟨c, cs, rfl, hdigit, hne, rfl, hdigits⟩⟩
    · obtain ⟨p, hsome, hw⟩ := (mem_smallerAt hm hposition).2 hfirst
      exact ⟨p, mem_parts.2 (.inr (.inr (.inl ⟨position, hposition, hsome⟩))), hw⟩
    · exact ⟨.word w, mem_parts.2 (.inr (.inr (.inr rfl))),
        (Pattern.reads_word w).language_eq ▸ rfl⟩

theorem reads_unsignedAtMost (max : ℤ) : Reads (unsignedAtMost max).regex (numeralsUpTo max) := by
  by_cases hneg : max < 0
  · rw [unsignedAtMost, if_pos hneg]
    intro whole s t
    constructor
    · rintro ⟨-, hnot⟩
      exact absurd ⟨s, rfl⟩ hnot
    · rintro ⟨w, ⟨-, hle⟩, -⟩
      omega
  · obtain ⟨hm, hvalue⟩ := toString_numeral (not_lt.1 hneg)
    rw [unsignedAtMost, if_neg hneg]
    have hlanguage : Pattern.anyOf (parts (toString max).toList) = numeralsUpTo max := by
      ext w
      rw [anyOf_parts hm, numeralsUpTo, ← Nat.cast_le (α := ℤ), hvalue]
      rfl
    rw [← hlanguage]
    apply Pattern.reads_alts (List.cons_ne_nil _ _)
    intro p hp
    obtain rfl | ⟨n, -, rfl⟩ | ⟨position, -, hsome⟩ | rfl := mem_parts.1 hp
    · exact ⟨_, reads_lit '0'⟩
    · exact ⟨_, reads_leading _ _ n⟩
    · exact reads_smallerAt hsome
    · exact ⟨_, Pattern.reads_word _⟩

/-! ### The texts of a range -/

theorem numeral_text (hw : WholePart w) : w = (toString (decimalValue w : ℤ)).toList :=
  hw.unique (toString_whole _) (decimalValue_toString _).symm

theorem text_neg {n : ℤ} (h : n < 0) : (toString n).toList = '-' :: (toString (-n)).toList := by
  obtain ⟨k, rfl⟩ := Int.eq_negSucc_of_lt_zero h
  have htext : toString (Int.negSucc k) = "-" ++ toString (k + 1) := rfl
  rw [htext, String.toList_append]
  rfl

/-- The texts of some integers. -/
def spelled (P : ℤ → Prop) : Language Char := {w | ∃ n, P n ∧ w = (toString n).toList}

theorem mem_spelled {P : ℤ → Prop} : w ∈ spelled P ↔ ∃ n, P n ∧ w = (toString n).toList := Iff.rfl

theorem numerals_without {low high : ℤ} :
    without (numeralsUpTo high) (numeralsUpTo (low - 1)) =
      spelled fun n => 0 ≤ n ∧ low ≤ n ∧ n ≤ high := by
  ext w
  rw [mem_without, mem_spelled]
  constructor
  · rintro ⟨⟨hw, hle⟩, hnot⟩
    refine ⟨decimalValue w, ⟨Int.natCast_nonneg _, ?_, hle⟩, numeral_text hw⟩
    by_contra hlt
    exact hnot ⟨hw, by omega⟩
  · rintro ⟨n, ⟨hn, hlow, hhigh⟩, rfl⟩
    obtain ⟨hw, hvalue⟩ := toString_numeral hn
    refine ⟨⟨hw, by omega⟩, ?_⟩
    rintro ⟨-, hle⟩
    omega

theorem minus_spelled {low high : ℤ} (hlow : 1 ≤ low) :
    {['-']} * spelled (fun n => 0 ≤ n ∧ low ≤ n ∧ n ≤ high) =
      spelled fun n => -high ≤ n ∧ n ≤ -low := by
  ext w
  rw [Language.mem_mul, mem_spelled]
  constructor
  · rintro ⟨a, rfl, b, ⟨n, ⟨hn, hle, hge⟩, rfl⟩, rfl⟩
    refine ⟨-n, ⟨by omega, by omega⟩, ?_⟩
    rw [text_neg (n := -n) (by omega), neg_neg]
    rfl
  · rintro ⟨n, ⟨hle, hge⟩, rfl⟩
    refine ⟨['-'], rfl, _, ⟨-n, ⟨by omega, by omega, by omega⟩, rfl⟩, ?_⟩
    rw [text_neg (n := n) (by omega)]
    rfl

theorem ends_negative (lower : ℤ) {minAbs : ℤ} (h : 1 ≤ minAbs) :
    Ends (Pattern.followed (.char '-')
      (.followed (.notAhead (.followed (unsignedAtMost (minAbs - 1)) .finish))
        (unsignedAtMost (-lower)))).regex (spelled fun n => lower ≤ n ∧ n ≤ -minAbs) := by
  have hends := ends_seq (reads_lit '-') (ends_notAhead (reads_unsignedAtMost (minAbs - 1)).ends
    (reads_unsignedAtMost (-lower)).ends)
  rw [numerals_without, minus_spelled h, neg_neg] at hends
  exact hends

theorem ends_positive (lower upper : ℤ) :
    Ends (if 0 < lower then
        Pattern.followed (.notAhead (.followed (.group (unsignedAtMost (lower - 1))) .finish))
          (unsignedAtMost upper)
      else unsignedAtMost upper).regex (spelled fun n => 0 ≤ n ∧ lower ≤ n ∧ n ≤ upper) := by
  split
  · have hends := ends_notAhead (reads_unsignedAtMost (lower - 1)).ends
      (reads_unsignedAtMost upper).ends
    rw [numerals_without] at hends
    exact hends
  · rename_i hlower
    have hends := (reads_unsignedAtMost upper).ends
    have hlanguage : numeralsUpTo upper = spelled fun n => 0 ≤ n ∧ lower ≤ n ∧ n ≤ upper := by
      ext w
      rw [mem_spelled]
      constructor
      · rintro ⟨hw, hle⟩
        exact ⟨decimalValue w, ⟨Int.natCast_nonneg _, by omega, hle⟩, numeral_text hw⟩
      · rintro ⟨n, ⟨hn, -, hhigh⟩, rfl⟩
        obtain ⟨hw, hvalue⟩ := toString_numeral hn
        exact ⟨hw, by omega⟩
    rwa [hlanguage] at hends

theorem ends_rangeAlternatives {lower upper : ℤ} (h : ¬ (0 ≤ lower ∧ upper < 0)) :
    Ends (Pattern.alts (rangeAlternatives lower upper)).regex
      (spelled fun n => lower ≤ n ∧ n ≤ upper) := by
  have hminAbs : 1 ≤ if upper < 0 then -upper else 1 := by
    split <;> omega
  have hnegative := ends_negative lower hminAbs
  have hpositive := ends_positive lower upper
  by_cases hlower : lower < 0
  · by_cases hupper : 0 ≤ upper
    · have hboth := ends_alt hnegative hpositive
      have hlanguage : (spelled fun n => lower ≤ n ∧ n ≤ -if upper < 0 then -upper else 1) +
          (spelled fun n => 0 ≤ n ∧ lower ≤ n ∧ n ≤ upper) =
            spelled fun n => lower ≤ n ∧ n ≤ upper := by
        ext w
        rw [Language.mem_add, mem_spelled, mem_spelled, mem_spelled, ← exists_or]
        refine exists_congr fun n => ?_
        rw [← or_and_right, if_neg (not_lt.2 hupper)]
        refine and_congr_left fun _ => ?_
        omega
      rw [hlanguage] at hboth
      rw [rangeAlternatives, if_pos hlower, if_pos hupper]
      have hlow : ¬ 0 < lower := by omega
      rw [if_neg hlow]
      rw [if_neg hlow] at hboth
      exact hboth
    · rw [rangeAlternatives, if_pos hlower, if_neg hupper, List.append_nil]
      rw [if_pos (not_le.1 hupper)] at hnegative ⊢
      rw [neg_neg] at hnegative
      exact hnegative
  · by_cases hupper : 0 ≤ upper
    · have hlanguage : (spelled fun n => 0 ≤ n ∧ lower ≤ n ∧ n ≤ upper) =
          spelled fun n => lower ≤ n ∧ n ≤ upper := by
        ext w
        refine exists_congr fun n => and_congr_left fun _ => ?_
        omega
      rw [hlanguage] at hpositive
      rw [rangeAlternatives, if_neg hlower, if_pos hupper, List.nil_append]
      split <;> rename_i hlow
      · rw [if_pos hlow] at hpositive
        exact hpositive
      · rw [if_neg hlow] at hpositive
        exact hpositive
    · omega

theorem found_integerPattern {lower upper : ℤ} (h : ¬ (0 ≤ lower ∧ upper < 0)) (text : List Char) :
    Found (integerPattern lower upper).regex text ↔
      ∃ n : ℤ, (lower ≤ n ∧ n ≤ upper) ∧ text = (toString n).toList :=
  Pattern.found_anchored (p := .group (.alts (rangeAlternatives lower upper)))
    (ends_rangeAlternatives h) text

theorem found_integerPattern_none {lower upper : ℤ} (h : 0 ≤ lower ∧ upper < 0)
    (text : List Char) : Found (integerPattern lower upper).regex text ↔ text = [] := by
  have hnone : rangeAlternatives lower upper = [] := by
    rw [rangeAlternatives, if_neg (not_lt.2 h.1), if_neg (not_le.2 h.2)]
    rfl
  rw [integerPattern, hnone]
  exact (Pattern.found_anchored (p := .group .empty) reads_empty.ends text).trans (Language.mem_one text)

/-! ### The range of the constraints -/

/-- `2n ** 53n - 1n`. -/
def safeInteger : ℤ := 2 ^ 53 - 1

/-- A constraint of a field: its keyword, and its operand where that is a text. -/
structure Bound where
  keyword : String
  value : Option (List Char)

def integerSpellings : Pattern :=
  .alts [.char '0',
    .followed (.optional (.char '-')) (.followed (.range '1' '9') (.many (.range '0' '9')))]

/-- `/^(0|-?[1-9][0-9]*)$/`. -/
def canonicalInteger : Pattern := .cat [.start, .group integerSpellings, .finish]

/-- What `canonicalInteger` is found in. -/
def isCanonicalInteger (text : List Char) : Bool :=
  text == ['0'] || ((stripMinus text).head?.any (fun c => c != '0') &&
    (stripMinus text).all isAsciiDigit)

/-- `BigInt(value)`, where the text is a canonical integer. -/
def integerValue (one : Bound) : Option ℤ := do
  let text ← one.value
  if isCanonicalInteger text then
    let magnitude := (decimalValue (stripMinus text) : ℤ)
    some (if text.head? == some '-' then -magnitude else magnitude)
  else none

structure Range where
  lower : ℤ
  upper : ℤ
  lowerExplicit : Bool
  upperExplicit : Bool

def Range.raise (r : Range) (bound : ℤ) : Range :=
  { r with
    lower := if r.lowerExplicit = true ∧ bound < r.lower then r.lower else bound
    lowerExplicit := true }

def Range.cap (r : Range) (bound : ℤ) : Range :=
  { r with
    upper := if r.upperExplicit = true ∧ r.upper < bound then r.upper else bound
    upperExplicit := true }

def Range.step (r : Range) (one : Bound) : Range :=
  match integerValue one with
  | none => r
  | some parsed =>
    if one.keyword = "min" then r.raise parsed
    else if one.keyword = "exclusiveMin" then r.raise (parsed + 1)
    else if one.keyword = "max" then r.cap parsed
    else if one.keyword = "exclusiveMax" then r.cap (parsed - 1)
    else r

def integerRange (constraints : List Bound) : Range :=
  constraints.foldl Range.step ⟨-safeInteger, safeInteger, false, false⟩

inductive IntegerSchema where
  | number (minimum maximum : ℤ)
  | text (pattern : Pattern)

/-- `Number(n)` of an integer. -/
def numberOf (n : ℤ) : ℤ := n.sign * Packages.nearestDouble n.natAbs

def integerSchema (constraints : List Bound) : IntegerSchema :=
  let range := integerRange constraints
  if -safeInteger ≤ range.lower ∧ range.upper ≤ safeInteger then
    .number (numberOf range.lower) (numberOf range.upper)
  else .text (integerPattern range.lower range.upper)

/-! ### What the constraints ask for -/

def Bound.IsLower (one : Bound) : Prop := one.keyword = "min" ∨ one.keyword = "exclusiveMin"

def Bound.IsUpper (one : Bound) : Prop := one.keyword = "max" ∨ one.keyword = "exclusiveMax"

/-- A constraint with a canonical operand, as its keyword reads. -/
structure Bound.Meets (one : Bound) (n v : ℤ) : Prop where
  min : one.keyword = "min" → v ≤ n
  exclusiveMin : one.keyword = "exclusiveMin" → v < n
  max : one.keyword = "max" → n ≤ v
  exclusiveMax : one.keyword = "exclusiveMax" → n < v

/-- The effective range: every constraint is met, and a side without one is that of the safe
integers. -/
structure InRange (constraints : List Bound) (n : ℤ) : Prop where
  meets : ∀ one ∈ constraints, ∀ v, integerValue one = some v → one.Meets n v
  lower : (¬ ∃ one ∈ constraints, one.IsLower ∧ (integerValue one).isSome = true) → -safeInteger ≤ n
  upper : (¬ ∃ one ∈ constraints, one.IsUpper ∧ (integerValue one).isSome = true) → n ≤ safeInteger

inductive Instance where
  | number (q : ℚ)
  | text (cs : List Char)
  | other

def IntegerSchema.Admits : IntegerSchema → Instance → Prop
  | .number minimum maximum, .number q => (∃ n : ℤ, q = n) ∧ minimum ≤ q ∧ q ≤ maximum
  | .text pattern, .text cs => Found pattern.regex cs
  | _, _ => False

def IntegerSchema.wire (schema : IntegerSchema) (n : ℤ) : Instance :=
  match schema with
  | .number _ _ => .number n
  | .text _ => .text (toString n).toList

theorem mem_nonzero_digits {cs : List Char} :
    cs ∈ runs (fun c => '1' ≤ c && c ≤ '9') {1} * runs isAsciiDigit Set.univ ↔
      cs.head?.any (fun c => c != '0') = true ∧ cs.all isAsciiDigit = true := by
  rw [Language.mem_mul]
  constructor
  · rintro ⟨a, ha, b, ⟨-, hb⟩, rfl⟩
    obtain ⟨hone, hclass⟩ := mem_range.1 ha
    obtain ⟨c, rfl⟩ := List.length_eq_one_iff.1 hone
    have hc := hclass c (List.mem_singleton_self c)
    have hlow : 49 ≤ c.toNat := hc.1
    have hhigh : c.toNat ≤ 57 := hc.2
    refine ⟨?_, ?_⟩
    · rw [List.singleton_append, List.head?_cons, Option.any_some, bne_iff_ne]
      rintro rfl
      exact absurd hlow (by decide)
    · rw [List.singleton_append, List.all_cons, Bool.and_eq_true, List.all_eq_true,
        isAsciiDigit_iff]
      exact ⟨⟨by omega, hhigh⟩, hb⟩
  · rintro ⟨hhead, hall⟩
    cases cs with
    | nil => cases hhead
    | cons c cs =>
      rw [List.head?_cons, Option.any_some, bne_iff_ne] at hhead
      rw [List.all_cons, Bool.and_eq_true, List.all_eq_true, isAsciiDigit_iff] at hall
      have hne : c.toNat ≠ 48 := fun h => hhead (char_eq_of_toNat (d := '0') h)
      refine ⟨[c], mem_range.2 ⟨rfl, fun d hd => ?_⟩, cs, ⟨trivial, hall.2⟩, rfl⟩
      rw [List.mem_singleton.1 hd]
      have hlow : '1'.toNat = 49 := rfl
      have hhigh : '9'.toNat = 57 := rfl
      omega

theorem isCanonicalInteger_found (text : List Char) :
    isCanonicalInteger text = true ↔ Found canonicalInteger.regex text := by
  have hreads : Reads integerSpellings.regex ({['0']} + ({['-']} + 1) *
      (runs (fun c => '1' ≤ c && c ≤ '9') {1} * runs isAsciiDigit Set.univ)) :=
    reads_alt (reads_lit '0') (reads_seq (reads_alt (reads_lit '-') reads_empty)
      (reads_seq reads_set reads_star_set))
  rw [canonicalInteger, Pattern.found_anchored (p := .group integerSpellings) hreads.ends, isCanonicalInteger, Bool.or_eq_true,
    Bool.and_eq_true, ← mem_nonzero_digits, beq_iff_eq, Language.mem_add]
  refine or_congr Iff.rfl ?_
  constructor
  · intro h
    apply Language.mem_mul.2
    have hsigned := signed_stripMinus text
    by_cases hminus : (text.head? == some '-') = true
    · rw [hminus] at hsigned
      exact ⟨['-'], .inl rfl, _, h, hsigned⟩
    · rw [Bool.not_eq_true] at hminus
      rw [hminus] at hsigned
      exact ⟨[], .inr rfl, _, h, hsigned⟩
  · intro h
    obtain ⟨a, ha, b, hb, rfl⟩ := Language.mem_mul.1 h
    have hb0 : b.head? ≠ some '-' := by
      intro hhead
      obtain ⟨rest, rfl⟩ := List.head?_eq_some_iff.1 hhead
      have hall := (mem_nonzero_digits.1 hb).2
      cases hall
    obtain rfl | ha := ha
    · exact hb
    · obtain rfl := (Language.mem_one a).1 ha
      change stripMinus b ∈ _
      have hplain := (stripMinus_signed (n := false) hb0).1
      rw [show signed false b = b from rfl] at hplain
      rwa [hplain]

theorem integerValue_toString (keyword : String) (n : ℤ) :
    integerValue ⟨keyword, some (toString n).toList⟩ = some n := by
  -- the digits of an integer other than zero do not begin with one
  have hdigits : ∀ m : ℤ, 0 < m → (toString m).toList.head?.any (fun c => c != '0') = true ∧
      (toString m).toList.all isAsciiDigit = true := by
    intro m hm
    obtain ⟨hwhole, hvalue⟩ := toString_numeral hm.le
    refine ⟨?_, List.all_eq_true.2 hwhole.digit⟩
    rcases hwhole.lead with hzero | ⟨c, cs, heq, hc⟩
    · rw [hzero] at hvalue
      exact absurd hvalue hm.ne
    · rw [heq, List.head?_cons, Option.any_some]
      exact bne_iff_ne.2 hc
  rw [integerValue, Option.bind_eq_bind, Option.bind_some, isCanonicalInteger]
  rcases lt_trichotomy n 0 with hn | rfl | hn
  · obtain ⟨hhead, hall⟩ := hdigits (-n) (by omega)
    obtain ⟨-, hvalue⟩ := toString_numeral (show 0 ≤ -n by omega)
    rw [text_neg hn]
    simp only [stripMinus, hhead, hall, Bool.and_self, Bool.or_true, if_true, hvalue,
      List.head?_cons, beq_self_eq_true, neg_neg]
  · rfl
  · obtain ⟨hhead, hall⟩ := hdigits n hn
    obtain ⟨hwhole, hvalue⟩ := toString_numeral hn.le
    obtain ⟨hstrip, hplain⟩ := @stripMinus_signed false (toString n).toList
      (by simpa only [List.append_nil] using hwhole.head_ne_minus [])
    rw [show signed false (toString n).toList = (toString n).toList from rfl] at hstrip hplain
    simp only [hstrip, hplain, hhead, hall, Bool.and_self, Bool.or_true, if_true, hvalue,
      Bool.false_eq_true, if_false]

/-- The canonical integers are the texts of the integers, and each is read as its integer. -/
theorem canonicalInteger_reads (text : List Char) :
    (Found canonicalInteger.regex text ↔ ∃ n : ℤ, text = (toString n).toList) ∧
      ∀ keyword n, text = (toString n).toList → integerValue ⟨keyword, some text⟩ = some n := by
  refine ⟨?_, fun keyword n h => h ▸ integerValue_toString keyword n⟩
  rw [← isCanonicalInteger_found]
  constructor
  · intro h
    rw [isCanonicalInteger, Bool.or_eq_true, beq_iff_eq, Bool.and_eq_true] at h
    rcases h with rfl | ⟨hhead, hall⟩
    · exact ⟨0, rfl⟩
    · have hwhole : WholePart (stripMinus text) := by
        refine ⟨List.all_eq_true.1 hall, .inr ?_⟩
        cases hdigits : stripMinus text with
        | nil =>
          rw [hdigits] at hhead
          cases hhead
        | cons c cs =>
          rw [hdigits, List.head?_cons, Option.any_some, bne_iff_ne] at hhead
          exact ⟨c, cs, rfl, hhead⟩
      have hnumeral := numeral_text hwhole
      rw [← signed_stripMinus text]
      cases text.head? == some '-' with
      | false => exact ⟨_, hnumeral⟩
      | true =>
        refine ⟨-decimalValue (stripMinus text), ?_⟩
        have hpos := hwhole.value_pos fun hzero => by
          rw [hzero] at hhead
          cases hhead
        have hten := Nat.one_le_pow ((stripMinus text).length - 1) 10 (by decide)
        rw [text_neg (by omega), neg_neg, ← hnumeral]
        rfl
  · rintro ⟨n, rfl⟩
    by_contra hnot
    have hvalue := integerValue_toString "" n
    rw [integerValue, Option.bind_eq_bind, Option.bind_some, if_neg hnot] at hvalue
    cases hvalue

/-! ### One constraint after another -/

def Range.Above (r : Range) (n : ℤ) : Prop := r.lowerExplicit = true → r.lower ≤ n

def Range.Below (r : Range) (n : ℤ) : Prop := r.upperExplicit = true → n ≤ r.upper

theorem Range.raise_above (r : Range) (bound n : ℤ) :
    (r.raise bound).Above n ↔ r.Above n ∧ bound ≤ n := by
  simp only [Above, raise, true_implies]
  by_cases hexplicit : r.lowerExplicit = true
  · by_cases hlt : bound < r.lower
    · rw [if_pos ⟨hexplicit, hlt⟩]
      exact ⟨fun h => ⟨fun _ => h, by omega⟩, fun h => h.1 hexplicit⟩
    · rw [if_neg fun h => hlt h.2]
      exact ⟨fun h => ⟨fun _ => by omega, h⟩, fun h => h.2⟩
  · rw [if_neg fun h => hexplicit h.1]
    exact ⟨fun h => ⟨fun he => absurd he hexplicit, h⟩, fun h => h.2⟩

theorem Range.cap_below (r : Range) (bound n : ℤ) :
    (r.cap bound).Below n ↔ r.Below n ∧ n ≤ bound := by
  simp only [Below, cap, true_implies]
  by_cases hexplicit : r.upperExplicit = true
  · by_cases hlt : r.upper < bound
    · rw [if_pos ⟨hexplicit, hlt⟩]
      exact ⟨fun h => ⟨fun _ => h, by omega⟩, fun h => h.1 hexplicit⟩
    · rw [if_neg fun h => hlt h.2]
      exact ⟨fun h => ⟨fun _ => by omega, h⟩, fun h => h.2⟩
  · rw [if_neg fun h => hexplicit h.1]
    exact ⟨fun h => ⟨fun he => absurd he hexplicit, h⟩, fun h => h.2⟩

theorem step_cases (r : Range) (one : Bound) :
    (r.step one = r ∧ ((integerValue one).isSome = true → ¬ one.IsLower ∧ ¬ one.IsUpper) ∧
        ∀ n v, integerValue one = some v → one.Meets n v) ∨
      (∃ bound, r.step one = r.raise bound ∧ one.IsLower ∧ ¬ one.IsUpper ∧
        (integerValue one).isSome = true ∧
          ∀ n v, integerValue one = some v → (one.Meets n v ↔ bound ≤ n)) ∨
        ∃ bound, r.step one = r.cap bound ∧ one.IsUpper ∧ ¬ one.IsLower ∧
          (integerValue one).isSome = true ∧
            ∀ n v, integerValue one = some v → (one.Meets n v ↔ n ≤ bound) := by
  rw [Range.step]
  cases hvalue : integerValue one with
  | none => exact .inl ⟨rfl, fun h => absurd h (by simp), fun n v h => absurd h (by simp)⟩
  | some parsed =>
    have hmeets : ∀ n v, some parsed = some v → (one.Meets n v ↔ one.Meets n parsed) := by
      intro n v h
      rw [Option.some.inj h]
    simp only [Bound.IsLower, Bound.IsUpper]
    by_cases hmin : one.keyword = "min"
    · right; left
      refine ⟨parsed, by rw [if_pos hmin], .inl hmin, by simp [hmin], rfl, fun n v h => ?_⟩
      rw [hmeets n v h]
      exact ⟨fun h => h.min hmin, fun h => ⟨fun _ => h, by simp [hmin], by simp [hmin],
        by simp [hmin]⟩⟩
    by_cases hexclusiveMin : one.keyword = "exclusiveMin"
    · right; left
      refine ⟨parsed + 1, by rw [if_neg hmin, if_pos hexclusiveMin], .inr hexclusiveMin,
        by simp [hexclusiveMin], rfl, fun n v h => ?_⟩
      rw [hmeets n v h]
      exact ⟨fun h => h.exclusiveMin hexclusiveMin, fun h => ⟨by simp [hexclusiveMin], fun _ => h,
        by simp [hexclusiveMin], by simp [hexclusiveMin]⟩⟩
    by_cases hmax : one.keyword = "max"
    · right; right
      refine ⟨parsed, by rw [if_neg hmin, if_neg hexclusiveMin, if_pos hmax], .inl hmax,
        by simp [hmax], rfl, fun n v h => ?_⟩
      rw [hmeets n v h]
      exact ⟨fun h => h.max hmax, fun h => ⟨by simp [hmax], by simp [hmax], fun _ => h,
        by simp [hmax]⟩⟩
    by_cases hexclusiveMax : one.keyword = "exclusiveMax"
    · right; right
      refine ⟨parsed - 1, by rw [if_neg hmin, if_neg hexclusiveMin, if_neg hmax,
        if_pos hexclusiveMax], .inr hexclusiveMax, by simp [hexclusiveMax], rfl, fun n v h => ?_⟩
      rw [hmeets n v h]
      constructor
      · intro h
        have hlt := h.exclusiveMax hexclusiveMax
        omega
      · intro h
        exact ⟨by simp [hexclusiveMax], by simp [hexclusiveMax], by simp [hexclusiveMax],
          fun _ => by omega⟩
    · left
      refine ⟨by rw [if_neg hmin, if_neg hexclusiveMin, if_neg hmax, if_neg hexclusiveMax],
        fun _ => ⟨by simp [hmin, hexclusiveMin], by simp [hmax, hexclusiveMax]⟩, fun n v _ => ?_⟩
      exact ⟨fun h => absurd h hmin, fun h => absurd h hexclusiveMin, fun h => absurd h hmax,
        fun h => absurd h hexclusiveMax⟩

structure Tracks (r r' : Range) (constraints : List Bound) : Prop where
  meets : ∀ n, r'.Above n ∧ r'.Below n ↔ (r.Above n ∧ r.Below n) ∧
    ∀ one ∈ constraints, ∀ v, integerValue one = some v → one.Meets n v
  lowerExplicit : r'.lowerExplicit = true ↔ r.lowerExplicit = true ∨
    ∃ one ∈ constraints, one.IsLower ∧ (integerValue one).isSome = true
  upperExplicit : r'.upperExplicit = true ↔ r.upperExplicit = true ∨
    ∃ one ∈ constraints, one.IsUpper ∧ (integerValue one).isSome = true
  lower : ¬ r'.lowerExplicit = true → r'.lower = r.lower
  upper : ¬ r'.upperExplicit = true → r'.upper = r.upper

theorem step_tracks (r : Range) (one : Bound) : Tracks r (r.step one) [one] := by
  have hone : ∀ n, (∀ o ∈ [one], ∀ v, integerValue o = some v → o.Meets n v) ↔
      ∀ v, integerValue one = some v → one.Meets n v := fun n => List.forall_mem_singleton
  have hex : ∀ P : Bound → Prop, (∃ o ∈ [one], P o) ↔ P one := by simp
  obtain ⟨hstep, hnone, hmeets⟩ | ⟨bound, hstep, hlower, hupper, hsome, hmeets⟩ |
    ⟨bound, hstep, hupper, hlower, hsome, hmeets⟩ := step_cases r one
  · rw [hstep]
    refine ⟨fun n => ?_, ?_, ?_, fun _ => rfl, fun _ => rfl⟩
    · rw [hone, and_iff_left (hmeets n)]
    · rw [hex, or_iff_left]
      exact fun h => (hnone h.2).1 h.1
    · rw [hex, or_iff_left]
      exact fun h => (hnone h.2).2 h.1
  · obtain ⟨v, hv⟩ := Option.isSome_iff_exists.1 hsome
    rw [hstep]
    refine ⟨fun n => ?_, ?_, ?_, fun h => absurd rfl h, fun _ => rfl⟩
    · have hbelow : (r.raise bound).Below n ↔ r.Below n := Iff.rfl
      have hall : (∀ v, integerValue one = some v → one.Meets n v) ↔ bound ≤ n :=
        ⟨fun h => (hmeets n v hv).1 (h v hv), fun h v hv => (hmeets n v hv).2 h⟩
      rw [hone, hall, r.raise_above, hbelow]
      exact and_right_comm
    · rw [hex]
      exact ⟨fun _ => .inr ⟨hlower, hsome⟩, fun _ => rfl⟩
    · rw [hex, or_iff_left fun h => hupper h.1]
      rfl
  · obtain ⟨v, hv⟩ := Option.isSome_iff_exists.1 hsome
    rw [hstep]
    refine ⟨fun n => ?_, ?_, ?_, fun _ => rfl, fun h => absurd rfl h⟩
    · have habove : (r.cap bound).Above n ↔ r.Above n := Iff.rfl
      have hall : (∀ v, integerValue one = some v → one.Meets n v) ↔ n ≤ bound :=
        ⟨fun h => (hmeets n v hv).1 (h v hv), fun h v hv => (hmeets n v hv).2 h⟩
      rw [hone, hall, r.cap_below, habove, and_assoc]
    · rw [hex, or_iff_left fun h => hlower h.1]
      rfl
    · rw [hex]
      exact ⟨fun _ => .inr ⟨hupper, hsome⟩, fun _ => rfl⟩

theorem foldl_tracks (r : Range) (constraints : List Bound) :
    Tracks r (constraints.foldl Range.step r) constraints := by
  induction constraints generalizing r with
  | nil => exact ⟨by simp, by simp, by simp, fun _ => rfl, fun _ => rfl⟩
  | cons one constraints ih =>
    have hstep := step_tracks r one
    have hrest := ih (r.step one)
    rw [List.foldl_cons]
    refine ⟨fun n => ?_, ?_, ?_, fun h => ?_, fun h => ?_⟩
    · rw [hrest.meets, hstep.meets, List.forall_mem_singleton, List.forall_mem_cons, and_assoc]
    · rw [hrest.lowerExplicit, hstep.lowerExplicit, List.exists_mem_cons_iff, or_assoc]
      simp
    · rw [hrest.upperExplicit, hstep.upperExplicit, List.exists_mem_cons_iff, or_assoc]
      simp
    · rw [hrest.lower h]
      exact hstep.lower fun he => h (hrest.lowerExplicit.2 (.inl he))
    · rw [hrest.upper h]
      exact hstep.upper fun he => h (hrest.upperExplicit.2 (.inl he))

theorem integerRange_iff (constraints : List Bound) (n : ℤ) :
    ((integerRange constraints).lower ≤ n ∧ n ≤ (integerRange constraints).upper) ↔
      InRange constraints n := by
  obtain ⟨hmeets, hlowerExplicit, hupperExplicit, hlower, hupper⟩ :=
    foldl_tracks ⟨-safeInteger, safeInteger, false, false⟩ constraints
  change ∀ n, (integerRange constraints).Above n ∧ (integerRange constraints).Below n ↔ _ at hmeets
  change (integerRange constraints).lowerExplicit = true ↔ _ at hlowerExplicit
  change (integerRange constraints).upperExplicit = true ↔ _ at hupperExplicit
  change ¬ (integerRange constraints).lowerExplicit = true →
    (integerRange constraints).lower = -safeInteger at hlower
  change ¬ (integerRange constraints).upperExplicit = true →
    (integerRange constraints).upper = safeInteger at hupper
  have hstart : ∀ n, Range.Above ⟨-safeInteger, safeInteger, false, false⟩ n ∧
      Range.Below ⟨-safeInteger, safeInteger, false, false⟩ n :=
    fun n => ⟨fun h => absurd h Bool.false_ne_true, fun h => absurd h Bool.false_ne_true⟩
  simp only [and_iff_right (hstart _)] at hmeets
  simp only [Bool.false_eq_true, false_or] at hlowerExplicit hupperExplicit
  constructor
  · rintro ⟨hlow, hhigh⟩
    refine ⟨(hmeets n).1 ⟨fun _ => hlow, fun _ => hhigh⟩, fun h => ?_, fun h => ?_⟩
    · rw [← hlower fun he => h (hlowerExplicit.1 he)]
      exact hlow
    · rw [← hupper fun he => h (hupperExplicit.1 he)]
      exact hhigh
  · intro h
    obtain ⟨habove, hbelow⟩ := (hmeets n).2 h.meets
    constructor
    · by_cases he : (integerRange constraints).lowerExplicit = true
      · exact habove he
      · rw [hlower he]
        exact h.lower fun hex => he (hlowerExplicit.2 hex)
    · by_cases he : (integerRange constraints).upperExplicit = true
      · exact hbelow he
      · rw [hupper he]
        exact h.upper fun hex => he (hupperExplicit.2 hex)

/-! ### What a schema admits -/

theorem numberOf_safe {n : ℤ} (h : |n| ≤ safeInteger) : numberOf n = n := by
  have hlt : n.natAbs < 2 ^ 53 := by
    rw [safeInteger, Int.abs_eq_natAbs] at h
    omega
  rw [numberOf, Packages.nearestDouble, if_pos hlt]
  exact Int.sign_mul_natAbs n

theorem le_nearestDouble {n : ℕ} (h : 2 ^ 53 ≤ n) : 2 ^ 53 ≤ Packages.nearestDouble n := by
  have hn : n ≠ 0 := by
    rintro rfl
    exact absurd h (by norm_num)
  have hlog : 53 ≤ n.log2 := (Nat.le_log2 hn).2 h
  have hpow : 2 ^ 53 ≤ 2 ^ 52 * 2 ^ (n.log2 - 52) := by
    rw [← pow_add]
    exact Nat.pow_le_pow_right (by norm_num) (by omega)
  have hquot : 2 ^ 52 ≤ n / 2 ^ (n.log2 - 52) := by
    rw [Nat.le_div_iff_mul_le (by positivity), ← pow_add]
    calc 2 ^ (52 + (n.log2 - 52)) = 2 ^ n.log2 := by congr 1; omega
      _ ≤ n := Nat.log2_self_le hn
  rw [Packages.nearestDouble, if_neg (not_lt.2 h)]
  refine Nat.le_min.2 ⟨?_, pow_le_pow_right₀ one_le_two (by omega)⟩
  refine hpow.trans (Nat.mul_le_mul_right _ ?_)
  split
  · exact hquot.trans (Nat.le_succ _)
  · exact hquot

theorem numberOf_bounds {n : ℤ} (h : safeInteger < n) : safeInteger < numberOf n := by
  have hle : 2 ^ 53 ≤ n.natAbs := by
    rw [safeInteger] at h
    omega
  have hdouble := le_nearestDouble hle
  have hpos : 0 < n := by
    rw [safeInteger] at h
    omega
  rw [numberOf, Int.sign_eq_one_of_pos hpos, one_mul, safeInteger]
  omega

theorem numberOf_neg (n : ℤ) : numberOf (-n) = -numberOf n := by
  rw [numberOf, numberOf, Int.sign_neg, Int.natAbs_neg, neg_mul]

theorem numberOf_le_iff {lower upper n : ℤ} (hlower : -safeInteger ≤ lower)
    (hupper : upper ≤ safeInteger) :
    (numberOf lower ≤ n ∧ n ≤ numberOf upper) ↔ (lower ≤ n ∧ n ≤ upper) := by
  have hlow : numberOf lower = lower ∨ safeInteger < lower ∧ safeInteger < numberOf lower := by
    by_cases h : safeInteger < lower
    · exact .inr ⟨h, numberOf_bounds h⟩
    · exact .inl (numberOf_safe (abs_le.2 ⟨hlower, not_lt.1 h⟩))
  have hhigh : numberOf upper = upper ∨ upper < -safeInteger ∧ numberOf upper < -safeInteger := by
    by_cases h : safeInteger < -upper
    · have hbound := numberOf_bounds h
      rw [numberOf_neg] at hbound
      exact .inr ⟨by omega, by omega⟩
    · exact .inl (numberOf_safe (abs_le.2 ⟨by omega, hupper⟩))
  have hpos : (0 : ℤ) ≤ safeInteger := by decide
  obtain hlow | hlow := hlow <;> obtain hhigh | hhigh := hhigh
  · rw [hlow, hhigh]
  · omega
  · omega
  · omega

/-- The schema of an integer admits the effective range of its constraints in the form it asks
for. -/
theorem integerSchema_admits (constraints : List Bound) (v : Instance) :
    (integerSchema constraints).Admits v ↔
      ∃ n, InRange constraints n ∧ v = (integerSchema constraints).wire n := by
  simp only [← integerRange_iff]
  rw [integerSchema]
  by_cases hsafe : -safeInteger ≤ (integerRange constraints).lower ∧
      (integerRange constraints).upper ≤ safeInteger
  · rw [if_pos hsafe]
    simp only [IntegerSchema.wire, ← numberOf_le_iff hsafe.1 hsafe.2]
    cases v with
    | number q =>
      constructor
      · rintro ⟨⟨n, rfl⟩, hlow, hhigh⟩
        exact ⟨n, ⟨Int.cast_le.1 hlow, Int.cast_le.1 hhigh⟩, rfl⟩
      · rintro ⟨n, ⟨hlow, hhigh⟩, heq⟩
        obtain rfl := Instance.number.inj heq
        exact ⟨⟨n, rfl⟩, Int.cast_le.2 hlow, Int.cast_le.2 hhigh⟩
    | text cs =>
      refine ⟨fun h => h.elim, ?_⟩
      rintro ⟨n, -, heq⟩
      cases heq
    | other =>
      refine ⟨fun h => h.elim, ?_⟩
      rintro ⟨n, -, heq⟩
      cases heq
  · rw [if_neg hsafe]
    have hsome : ¬ (0 ≤ (integerRange constraints).lower ∧
        (integerRange constraints).upper < 0) := by
      rintro ⟨hlow, hhigh⟩
      have hpos : (0 : ℤ) ≤ safeInteger := by decide
      exact hsafe ⟨by omega, by omega⟩
    cases v with
    | text cs =>
      refine (found_integerPattern hsome cs).trans ?_
      refine exists_congr fun n => and_congr_right fun _ => ?_
      rw [IntegerSchema.wire, Instance.text.injEq]
    | number q =>
      refine ⟨fun h => h.elim, ?_⟩
      rintro ⟨n, -, heq⟩
      cases heq
    | other =>
      refine ⟨fun h => h.elim, ?_⟩
      rintro ⟨n, -, heq⟩
      cases heq

/-! ### Both together -/

theorem integers_admitted (lower upper : ℤ) :
    (¬ (0 ≤ lower ∧ upper < 0) → ∀ text, Found (integerPattern lower upper).regex text ↔
      ∃ n : ℤ, (lower ≤ n ∧ n ≤ upper) ∧ text = (toString n).toList) ∧
    ∀ constraints v, (integerSchema constraints).Admits v ↔
      ∃ n, InRange constraints n ∧ v = (integerSchema constraints).wire n :=
  ⟨found_integerPattern, integerSchema_admits⟩

theorem integers_admitted_wide : Found (integerPattern (-12) (2 ^ 70)).regex "-12".toList :=
  ((integers_admitted (-12) (2 ^ 70)).1 (by decide) "-12".toList).2 ⟨-12, by decide, rfl⟩

/-- A range with a lower bound of zero and a negative upper one has no alternative. -/
theorem integerPattern_empty : Found (integerPattern 0 (-1)).regex [] ∧
    ¬ ∃ n : ℤ, (0 ≤ n ∧ n ≤ -1) ∧ ([] : List Char) = (toString n).toList := by
  refine ⟨(found_integerPattern_none (by decide) []).2 rfl, ?_⟩
  rintro ⟨n, hn, -⟩
  omega

example : (integerPattern (-3) 20).text =
    "^(?:-(?!(?:0|0)$)(?:0|[1-2][0-9]{0}|3)|(?:0|[1-9][0-9]{0}|[1-1][0-9]{1}|20))$".toList := by
  decide

end FilamentCore.Backends.IntegerPatterns
