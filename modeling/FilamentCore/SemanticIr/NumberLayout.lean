import FilamentCore.SemanticIr.ReaderNumbers
import FilamentCore.SemanticIr.ShortestDigits

/-!
# The text of a number reads back (crates/semantic-ir/src/number.rs)

Each layout of the digits is a number of the grammar, and its value is theirs.
-/

namespace FilamentCore.SemanticIr
open Grammar
open Reader (NoDigit)

/-! ### Spellings -/

/-- The fraction digits after their point, when there are any. -/
def pointed : List Char → List Char
  | [] => []
  | d :: ds => '.' :: d :: ds

/-- A number by its parts: the whole digits, the fraction digits and the exponent. -/
structure Spelling (text ws fs tail : List Char) (e : ℤ) : Prop where
  eq : text = ws ++ (pointed fs ++ tail)
  whole : IntegerText ws
  fraction : ∀ c ∈ fs, isAsciiDigit c = true
  exponent : ExponentText tail
  value : readExponent tail = some e

theorem exponentText_head {tail : List Char} (h : ExponentText tail) :
    ∀ c ∈ tail.head?, c = 'e' ∨ c = 'E' := by
  intro c hc
  obtain rfl | ⟨e, sign, ds, he, -, -, rfl⟩ := h
  · cases hc
  · cases hc
    exact he

theorem noDigit_exponent {tail : List Char} (h : ExponentText tail) : NoDigit tail := by
  intro c hc
  obtain rfl | rfl := exponentText_head h c hc <;> decide

theorem takeWhile_digits {ds rest : List Char} (hd : ∀ c ∈ ds, isAsciiDigit c = true)
    (hr : NoDigit rest) : (ds ++ rest).takeWhile isAsciiDigit = ds ∧
      (ds ++ rest).dropWhile isAsciiDigit = rest := by
  have htake : rest.takeWhile isAsciiDigit = [] ∧ rest.dropWhile isAsciiDigit = rest := by
    cases rest with
    | nil => exact ⟨rfl, rfl⟩
    | cons c cs =>
      have hc : ¬ isAsciiDigit c = true := by
        rw [hr c rfl]
        exact Bool.false_ne_true
      exact ⟨List.takeWhile_cons_of_neg hc, List.dropWhile_cons_of_neg hc⟩
  rw [List.takeWhile_append_of_pos hd, List.dropWhile_append_of_pos hd, htake.1, htake.2,
    List.append_nil]
  exact ⟨rfl, rfl⟩

namespace Spelling

variable {text ws fs tail : List Char} {e : ℤ}

theorem noDigit_rest (h : Spelling text ws fs tail e) : NoDigit (pointed fs ++ tail) := by
  cases fs with
  | nil => exact noDigit_exponent h.exponent
  | cons d ds =>
    intro c hc
    cases hc
    decide

theorem readFraction_eq (h : Spelling text ws fs tail e) :
    readFraction (pointed fs ++ tail) = some (fs, tail) := by
  cases fs with
  | nil =>
    have hhead := exponentText_head h.exponent
    cases tail with
    | nil => rfl
    | cons c cs => obtain rfl | rfl := hhead c rfl <;> rfl
  | cons d ds =>
    have hsplit := takeWhile_digits h.fraction (noDigit_exponent h.exponent)
    have hcons : pointed (d :: ds) ++ tail = '.' :: (d :: ds ++ tail) := rfl
    rw [hcons, readFraction, hsplit.1, hsplit.2, if_neg (List.cons_ne_nil d ds)]

theorem readUnsigned_eq (h : Spelling text ws fs tail e) :
    readUnsigned text = some (decimalValue (ws ++ fs) * power 10 (e - fs.length)) := by
  obtain ⟨⟨hne, hdigits⟩, hzero⟩ := h.whole
  obtain ⟨htake, hdrop⟩ := takeWhile_digits hdigits h.noDigit_rest
  have hguard : ¬ (ws = [] ∨ (1 < ws.length ∧ ws.head? = some '0')) := by
    rintro (hnil | ⟨hlength, hhead⟩)
    · exact hne hnil
    · rw [hzero hhead, List.length_singleton] at hlength
      omega
  rw [h.eq, readUnsigned, htake, hdrop]
  simp only [if_neg hguard, h.readFraction_eq, Option.bind_eq_bind, Option.bind_some, h.value]
  rfl

theorem numberText (h : Spelling text ws fs tail e) : NumberText text := by
  refine ⟨[], ws, pointed fs, tail, .inl rfl, h.whole, ?_, h.exponent, ?_⟩
  · cases fs with
    | nil => exact .inl rfl
    | cons d ds => exact .inr ⟨d :: ds, ⟨List.cons_ne_nil d ds, h.fraction⟩, rfl⟩
  · rw [h.eq, List.nil_append, List.append_assoc]

end Spelling

/-! ### Layouts -/

theorem exponent_spelling (e : ℤ) :
    ExponentText ('e' :: (if 0 ≤ e then '+' else '-') :: (toString e.natAbs).toList) ∧
      readExponent ('e' :: (if 0 ≤ e then '+' else '-') :: (toString e.natAbs).toList) =
        some e := by
  have hdigits := Json.toString_digits e.natAbs
  have hvalue := decimalValue_toString e.natAbs
  have hne : (toString e.natAbs).toList ≠ [] := by
    rw [toList_toString]
    exact Nat.toDigits_ne_nil
  have hread : ∀ sign : ℤ, readExponentDigits sign (toString e.natAbs).toList =
      some (sign * e.natAbs) := by
    intro sign
    rw [readExponentDigits, if_pos ⟨hne, List.all_eq_true.2 hdigits⟩, hvalue]
  by_cases he : 0 ≤ e
  · rw [if_pos he]
    refine ⟨.inr ⟨'e', ['+'], _, .inl rfl, .inr (.inl rfl), ⟨hne, hdigits⟩, rfl⟩, ?_⟩
    have h := hread 1
    rw [one_mul, Int.natAbs_of_nonneg he] at h
    exact h
  · rw [if_neg he]
    refine ⟨.inr ⟨'e', ['-'], _, .inl rfl, .inr (.inr rfl), ⟨hne, hdigits⟩, rfl⟩, ?_⟩
    have h := hread (-1)
    rw [show -1 * (e.natAbs : ℤ) = e by omega] at h
    exact h

/-- Digits of which the first is no zero. -/
structure Leading (digits : List Char) : Prop where
  digit : ∀ c ∈ digits, isAsciiDigit c = true
  head : ∃ c, digits.head? = some c ∧ c ≠ '0'

theorem Leading.integerText {digits : List Char} (h : Leading digits) : IntegerText digits := by
  obtain ⟨c, hc, hz⟩ := h.head
  refine ⟨⟨?_, h.digit⟩, fun h0 => ?_⟩
  · rintro rfl
    cases hc
  · rw [hc, Option.some.injEq] at h0
    exact absurd h0 hz

theorem Leading.append {digits : List Char} (h : Leading digits) {more : List Char}
    (hm : ∀ c ∈ more, isAsciiDigit c = true) : Leading (digits ++ more) := by
  obtain ⟨c, hc, hz⟩ := h.head
  refine ⟨fun d hd => (List.mem_append.1 hd).elim (h.digit d) (hm d), c, ?_, hz⟩
  rw [List.head?_append, hc]
  rfl

theorem Leading.take {digits : List Char} (h : Leading digits) {n : ℕ} (hn : 0 < n) :
    Leading (digits.take n) := by
  obtain ⟨c, hc, hz⟩ := h.head
  refine ⟨fun d hd => h.digit d (List.mem_of_mem_take hd), c, ?_, hz⟩
  rw [List.head?_take, if_neg hn.ne', hc]

theorem zeros_digit (n : ℕ) : ∀ c ∈ List.replicate n '0', isAsciiDigit c = true := by
  intro c hc
  rw [List.eq_of_mem_replicate hc]
  decide

theorem pointed_of_ne {fs : List Char} (h : fs ≠ []) : pointed fs = '.' :: fs := by
  cases fs with
  | nil => exact absurd rfl h
  | cons d ds => rfl

theorem layout_spelling {digits : List Char} (h : Leading digits) (n : ℤ) :
    ∃ ws fs tail e, Spelling (layout digits digits.length n) ws fs tail e ∧
      (decimalValue (ws ++ fs) : ℚ) * 10 ^ (e - fs.length) =
        decimalValue digits * 10 ^ (n - digits.length) ∧ (tail = [] ∨ e = n - 1) := by
  have hnone : readExponent [] = some 0 := rfl
  rw [layout]
  split
  · rename_i hn
    refine ⟨digits ++ List.replicate (n - digits.length).toNat '0', [], [], 0,
      ⟨(List.append_nil _).symm, (h.append (zeros_digit _)).integerText,
        fun c hc => absurd hc List.not_mem_nil, .inl rfl, hnone⟩, ?_, .inl rfl⟩
    obtain ⟨z, hz⟩ := Int.eq_ofNat_of_zero_le (show 0 ≤ n - digits.length by omega)
    rw [hz, Int.toNat_natCast, List.append_nil, decimalValue_append, decimalValue_replicate,
      List.length_replicate, List.length_nil, zpow_natCast]
    push_cast
    ring
  · rename_i hn
    split
    · rename_i hn'
      obtain ⟨p, hp⟩ := Int.eq_ofNat_of_zero_le hn'.1.le
      subst hp
      rw [Int.toNat_natCast]
      have hlt : p < digits.length := by omega
      have hne : digits.drop p ≠ [] := by
        rw [Ne, List.drop_eq_nil_iff]
        omega
      refine ⟨digits.take p, digits.drop p, [], 0, ⟨?_, (h.take (by omega)).integerText,
        fun c hc => h.digit c (List.mem_of_mem_drop hc), .inl rfl, hnone⟩, ?_, .inl rfl⟩
      · rw [pointed_of_ne hne, List.append_nil]
      · rw [List.take_append_drop, List.length_drop]
        congr 2
        omega
    · split
      · rename_i hn'
        obtain ⟨z, hz⟩ := Int.eq_ofNat_of_zero_le (show 0 ≤ -n by omega)
        rw [hz, Int.toNat_natCast]
        have hne : List.replicate z '0' ++ digits ≠ [] := by
          intro hnil
          exact h.integerText.1.1 (List.append_eq_nil_iff.1 hnil).2
        refine ⟨['0'], List.replicate z '0' ++ digits, [], 0, ⟨?_, ?_, ?_, .inl rfl, hnone⟩, ?_,
          .inl rfl⟩
        · rw [pointed_of_ne hne, List.append_nil]
          rfl
        · exact ⟨⟨List.cons_ne_nil _ _, zeros_digit 1⟩, fun _ => rfl⟩
        · exact fun c hc => (List.mem_append.1 hc).elim (zeros_digit z c) (h.digit c)
        · rw [← List.append_assoc, decimalValue_append, decimalValue_append,
            decimalValue_replicate, List.length_append, List.length_replicate]
          have hzero : decimalValue ['0'] = 0 := rfl
          rw [hzero, zero_mul, add_zero, zero_mul, zero_add]
          congr 2
          push_cast
          omega
      · obtain ⟨hexponent, hvalue⟩ := exponent_spelling (n - 1)
        simp only
        split
        · rename_i hk
          refine ⟨digits, [], _, n - 1, ⟨rfl, h.integerText,
            fun c hc => absurd hc List.not_mem_nil, hexponent, hvalue⟩, ?_, .inr rfl⟩
          rw [List.append_nil, hk, List.length_nil, Nat.cast_zero, sub_zero]
        · rename_i hk
          have hpos : digits.length ≠ 0 := by
            rw [Ne, List.length_eq_zero_iff]
            exact h.integerText.1.1
          have hne : digits.drop 1 ≠ [] := by
            rw [Ne, List.drop_eq_nil_iff]
            omega
          refine ⟨digits.take 1, digits.drop 1, _, n - 1, ⟨?_, (h.take Nat.one_pos).integerText,
            fun c hc => h.digit c (List.mem_of_mem_drop hc), hexponent, hvalue⟩, ?_, .inr rfl⟩
          · rw [pointed_of_ne hne, List.append_assoc]
          · rw [List.take_append_drop, List.length_drop]
            congr 2
            omega

/-! ### The text of a value -/

theorem readNumber_cons {c : Char} {cs : List Char} (hc : c ≠ '-') :
    readNumber (String.ofList (c :: cs)) = (readUnsigned (c :: cs)).bind binary64 := by
  rw [readNumber, String.toList_ofList]
  split
  · rename_i heq
    exact absurd (List.cons.inj heq).1 hc
  · rfl

theorem readNumber_minus (cs : List Char) :
    readNumber (String.ofList ('-' :: cs)) = (readUnsigned cs).bind fun q => binary64 (-q) := by
  rw [readNumber, String.toList_ofList]
  rfl

/-- The digits of a value, without its sign. -/
def unsignedText (q : ℚ) : List Char :=
  layout (shortestDigits q.num.natAbs q.den).1 (shortestDigits q.num.natAbs q.den).1.length
    (shortestDigits q.num.natAbs q.den).2

theorem ecma_pos {q : ℚ} (hq : 0 < q) : ecmaNumberToString q = unsignedText q := by
  rw [ecmaNumberToString, if_neg hq.ne', unsignedText, if_neg hq.not_gt]
  generalize shortestDigits q.num.natAbs q.den = found
  rfl

theorem ecma_neg {q : ℚ} (hq : q < 0) : ecmaNumberToString q = '-' :: unsignedText (-q) := by
  rw [ecmaNumberToString, if_neg hq.ne, unsignedText, Rat.neg_num, Int.natAbs_neg, Rat.neg_den,
    if_pos hq]
  generalize shortestDigits q.num.natAbs q.den = found
  rfl

/-- What the digits of a positive value of the format are. -/
structure ReadsBack (q : ℚ) (text : List Char) : Prop where
  number : NumberText text
  digit : ∃ c cs, text = c :: cs ∧ isAsciiDigit c = true
  value : ∃ value, readUnsigned text = some value ∧ binary64 value = some q

theorem unsignedText_reads {q : ℚ} {m : ℕ} {e : ℤ} (hq : IsBinary q m e) (hpos : 0 < q) :
    ReadsBack q (unsignedText q) := by
  have h := shortestDigits_spec hq hpos
  rw [unsignedText]
  generalize shortestDigits q.num.natAbs q.den = found at h ⊢
  obtain ⟨ws, fs, tail, e, hspelling, hvalue, -⟩ := layout_spelling ⟨h.digit, h.head⟩ found.2
  refine ⟨hspelling.numberText, ?_, _, hspelling.readUnsigned_eq, ?_⟩
  · obtain ⟨⟨hne, hdigits⟩, -⟩ := hspelling.whole
    cases ws with
    | nil => exact absurd rfl hne
    | cons c cs => exact ⟨c, _, hspelling.eq, hdigits c (.head _)⟩
  · rw [power_eq, Nat.cast_ofNat, hvalue]
    exact h.reads

theorem ReadsBack.minus {q : ℚ} {text : List Char} (h : ReadsBack q text) :
    NumberText ('-' :: text) := by
  obtain ⟨sign, whole, fraction, exponent, hsign, hwhole, hfraction, hexponent, heq⟩ := h.number
  obtain rfl | rfl := hsign
  · refine ⟨['-'], whole, fraction, exponent, .inr rfl, hwhole, hfraction, hexponent, ?_⟩
    rw [heq]
    rfl
  · obtain ⟨c, cs, htext, hc⟩ := h.digit
    rw [htext] at heq
    cases heq
    cases hc

theorem round_cases {x q : ℚ} (h : binary64 x = some q) :
    q = 0 ∨ (∃ m e, 0 < q ∧ IsBinary q m e) ∨ ∃ m e, q < 0 ∧ IsBinary (-q) m e := by
  have hpositive : ∀ {q : ℚ} {m : ℕ} {e : ℤ}, IsBinary q m e → 0 < q := by
    intro q m e hq
    have hm : (0 : ℚ) < m := by exact_mod_cast hq.pos
    rw [hq.eq]
    positivity
  by_cases hq : q = 0
  · exact .inl hq
  · right
    obtain hx | rfl | hx := lt_trichotomy x 0
    · have hneg := binary64_neg x
      rw [h, Option.map_some] at hneg
      obtain ⟨m, e, hm⟩ := isBinary_of_round (neg_pos.2 hx) hneg (neg_ne_zero.2 hq)
      exact .inr ⟨m, e, neg_pos.1 (hpositive hm), hm⟩
    · rw [binary64_zero, Option.some.injEq] at h
      exact absurd h.symm hq
    · obtain ⟨m, e, hm⟩ := isBinary_of_round hx h hq
      exact .inl ⟨m, e, hpositive hm, hm⟩

/-- The text of a value of the format is a number of the grammar, and reads back as it. -/
theorem ecmaNumberToString_reads {x q : ℚ} (h : binary64 x = some q) :
    readNumber (String.ofList (ecmaNumberToString q)) = some q ∧
      NumberText (ecmaNumberToString q) := by
  obtain rfl | ⟨m, e, hpos, hq⟩ | ⟨m, e, hneg, hq⟩ := round_cases h
  · refine ⟨by decide +kernel, [], ['0'], [], [], .inl rfl, ?_, .inl rfl, .inl rfl, rfl⟩
    exact ⟨⟨List.cons_ne_nil _ _, zeros_digit 1⟩, fun _ => rfl⟩
  · have hreads := unsignedText_reads hq hpos
    rw [ecma_pos hpos]
    refine ⟨?_, hreads.number⟩
    obtain ⟨c, cs, htext, hc⟩ := hreads.digit
    obtain ⟨value, hvalue, hround⟩ := hreads.value
    have hminus : c ≠ '-' := by
      rintro rfl
      cases hc
    rw [htext] at hvalue ⊢
    rw [readNumber_cons hminus, hvalue, Option.bind_some, hround]
  · have hreads := unsignedText_reads hq (neg_pos.2 hneg)
    rw [ecma_neg hneg]
    refine ⟨?_, hreads.minus⟩
    obtain ⟨value, hvalue, hround⟩ := hreads.value
    rw [readNumber_minus, hvalue, Option.bind_some, binary64_neg, hround, Option.map_some, neg_neg]

end FilamentCore.SemanticIr
