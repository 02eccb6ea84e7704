import FilamentCore.SemanticIr.Grammar
import FilamentCore.SemanticIr.Reader

/-!
# Whitespace, words and numbers as the reader reads them

Each scanner takes a text of the grammar off the front of the document, and takes all of it where
what follows does not go on with it.
-/

namespace FilamentCore.SemanticIr
namespace Reader
open Grammar

/-! ### Whitespace -/

theorem isWhitespace_iff {c : Char} :
    isWhitespace c = true ↔ c = ' ' ∨ c = '\t' ∨ c = '\n' ∨ c = '\r' := by
  simp only [isWhitespace, Bool.or_eq_true, decide_eq_true_eq, or_assoc]

theorem skipWhitespace_blank {w : List Char} (hw : Blank w) (rest : List Char) :
    skipWhitespace (w ++ rest) = skipWhitespace rest :=
  List.dropWhile_append_of_pos fun c hc => isWhitespace_iff.2 (hw c hc)

theorem exists_blank (rest : List Char) : ∃ w, Blank w ∧ rest = w ++ skipWhitespace rest := by
  refine ⟨rest.takeWhile isWhitespace, ?_, (List.takeWhile_append_dropWhile ..).symm⟩
  intro c hc
  exact isWhitespace_iff.1 (List.mem_takeWhile_imp hc)

theorem skipWhitespace_of_head {rest : List Char} (h : ∀ c ∈ rest.head?, isWhitespace c = false) :
    skipWhitespace rest = rest := by
  cases rest with
  | nil => rfl
  | cons c rest => rw [skipWhitespace, List.dropWhile_cons, h c rfl]; rfl

theorem skipWhitespace_twice (rest : List Char) :
    skipWhitespace (skipWhitespace rest) = skipWhitespace rest := by
  obtain ⟨w, hw, he⟩ := exists_blank rest
  have h := skipWhitespace_blank hw (skipWhitespace rest)
  rw [← he] at h
  exact h.symm

/-! ### Words -/

theorem literal_ok {word : String} {value v : Json} {rest after : List Char} :
    literal word value rest = .ok (v, after) ↔ v = value ∧ rest = word.toList ++ after := by
  rw [literal]
  split_ifs with h
  · obtain ⟨tail, rfl⟩ := List.isPrefixOf_iff_prefix.1 h
    rw [← String.length_toList, List.drop_left]
    simp only [Except.ok.injEq, Prod.mk.injEq, List.append_cancel_left_eq]
    exact and_congr_left fun _ => eq_comm
  · simp only [err, reduceCtorEq, false_iff, not_and]
    rintro - rfl
    exact h (List.isPrefixOf_iff_prefix.2 (List.prefix_append _ _))

/-! ### Digits -/

def NoDigit (rest : List Char) : Prop := ∀ c ∈ rest.head?, isAsciiDigit c = false

theorem skipDigits_append {ds rest : List Char} (hd : ∀ c ∈ ds, isAsciiDigit c = true)
    (hr : NoDigit rest) : skipDigits (ds ++ rest) = rest := by
  rw [skipDigits, List.dropWhile_append_of_pos hd]
  cases rest with
  | nil => rfl
  | cons c rest => rw [List.dropWhile_cons, hr c rfl]; rfl

theorem startsWithDigit_append {ds : List Char} (hd : Digits ds) (rest : List Char) :
    startsWithDigit (ds ++ rest) = true := by
  obtain ⟨hne, hall⟩ := hd
  cases ds with
  | nil => exact absurd rfl hne
  | cons c ds => exact hall c (List.mem_cons_self ..)

theorem exists_digits {rest : List Char} (h : startsWithDigit rest = true) :
    ∃ ds, Digits ds ∧ ds.head? = rest.head? ∧ rest = ds ++ skipDigits rest := by
  refine ⟨rest.takeWhile isAsciiDigit, ⟨?_, fun c hc => List.mem_takeWhile_imp hc⟩, ?_,
    (List.takeWhile_append_dropWhile ..).symm⟩
  · cases rest with
    | nil => cases h
    | cons c rest =>
      have hc : isAsciiDigit c = true := h
      simp [hc]
  · cases rest with
    | nil => rfl
    | cons c rest =>
      have hc : isAsciiDigit c = true := h
      simp [hc]

/-! ### The parts of a number -/

theorem skipMinus_sound (rest : List Char) :
    ∃ sign, (sign = [] ∨ sign = ['-']) ∧ rest = sign ++ skipMinus rest := by
  unfold skipMinus
  split
  · exact ⟨['-'], .inr rfl, rfl⟩
  · exact ⟨[], .inl rfl, rfl⟩

theorem skipMinus_complete {sign rest : List Char} (hs : sign = [] ∨ sign = ['-'])
    (hr : rest.head? ≠ some '-') : skipMinus (sign ++ rest) = rest := by
  obtain rfl | rfl := hs
  · cases rest with
    | nil => rfl
    | cons c rest =>
      rw [List.nil_append, skipMinus]
      rintro tail h
      exact hr (congrArg List.head? h)
  · rfl

theorem skipInteger_sound {rest after : List Char} (h : skipInteger rest = .ok after) :
    ∃ whole, IntegerText whole ∧ rest = whole ++ after := by
  rw [skipInteger] at h
  split_ifs at h with hz hd
  · cases h
    have hdigit : ∀ c ∈ ['0'], isAsciiDigit c = true := by simp [isAsciiDigit]
    exact ⟨['0'], ⟨⟨List.cons_ne_nil _ _, hdigit⟩, fun _ => rfl⟩, List.eq_cons_of_mem_head? hz⟩
  · cases h
    obtain ⟨ds, hds, hhead, he⟩ := exists_digits hd
    exact ⟨ds, ⟨hds, fun h0 => absurd (hhead ▸ h0) hz⟩, he⟩
  · cases h

theorem skipInteger_complete {whole rest : List Char} (hw : IntegerText whole) (hr : NoDigit rest) :
    skipInteger (whole ++ rest) = .ok rest := by
  obtain ⟨hd, hzero⟩ := hw
  have hhead : (whole ++ rest).head? = whole.head? := List.head?_append_of_ne_nil _ hd.1
  rw [skipInteger, hhead]
  split_ifs with hz hs
  · rw [hzero hz]
    rfl
  · rw [skipDigits_append hd.2 hr]
  · exact absurd (startsWithDigit_append hd rest) hs

theorem skipFraction_sound {rest after : List Char} (h : skipFraction rest = .ok after) :
    ∃ fraction, FractionText fraction ∧ rest = fraction ++ after := by
  rw [skipFraction] at h
  split_ifs at h with hp hd
  · cases h
    obtain ⟨ds, hds, -, he⟩ := exists_digits hd
    refine ⟨'.' :: ds, .inr ⟨ds, hds, rfl⟩, ?_⟩
    rw [List.cons_append, ← he]
    exact List.eq_cons_of_mem_head? hp
  · cases h
  · cases h
    exact ⟨[], .inl rfl, rfl⟩

theorem skipFraction_complete {fraction rest : List Char} (hf : FractionText fraction)
    (hr : NoDigit rest) (hp : rest.head? ≠ some '.') :
    skipFraction (fraction ++ rest) = .ok rest := by
  obtain rfl | ⟨ds, hds, rfl⟩ := hf
  · rw [skipFraction, List.nil_append, if_neg hp]
  · rw [skipFraction, List.cons_append, List.head?_cons, if_pos rfl, List.tail_cons,
      if_pos (startsWithDigit_append hds rest), skipDigits_append hds.2 hr]

theorem skipSign_sound (rest : List Char) :
    ∃ sign, (sign = [] ∨ sign = ['+'] ∨ sign = ['-']) ∧ rest = sign ++ skipSign rest := by
  rw [skipSign]
  split_ifs with h
  · obtain h | h := h
    · exact ⟨['+'], .inr (.inl rfl), List.eq_cons_of_mem_head? h⟩
    · exact ⟨['-'], .inr (.inr rfl), List.eq_cons_of_mem_head? h⟩
  · exact ⟨[], .inl rfl, rfl⟩

theorem skipSign_complete {sign ds rest : List Char}
    (hs : sign = [] ∨ sign = ['+'] ∨ sign = ['-']) (hd : Digits ds) :
    skipSign (sign ++ ds ++ rest) = ds ++ rest := by
  obtain rfl | rfl | rfl := hs
  · have hc := startsWithDigit_append hd rest
    rw [skipSign, List.nil_append, if_neg]
    rintro (h | h) <;> rw [startsWithDigit, h] at hc <;> revert hc <;> decide
  · rfl
  · rfl

theorem skipExponent_sound {rest after : List Char} (h : skipExponent rest = .ok after) :
    ∃ exponent, ExponentText exponent ∧ rest = exponent ++ after := by
  rw [skipExponent] at h
  split_ifs at h with he hd
  · cases h
    obtain ⟨sign, hs, hrest⟩ := skipSign_sound rest.tail
    obtain ⟨ds, hds, -, hdigits⟩ := exists_digits hd
    cases rest with
    | nil => simp at he
    | cons c rest =>
      have hc : c = 'e' ∨ c = 'E' := he.imp Option.some.inj Option.some.inj
      refine ⟨c :: (sign ++ ds), .inr ⟨c, sign, ds, hc, hs, hds, rfl⟩, ?_⟩
      rw [List.cons_append, List.append_assoc, ← hdigits, ← hrest, List.tail_cons]
  · cases h
  · cases h
    exact ⟨[], .inl rfl, rfl⟩

theorem skipExponent_complete {exponent rest : List Char} (he : ExponentText exponent)
    (hr : NoDigit rest) (hne : rest.head? ≠ some 'e' ∧ rest.head? ≠ some 'E') :
    skipExponent (exponent ++ rest) = .ok rest := by
  obtain rfl | ⟨e, sign, ds, he, hs, hd, rfl⟩ := he
  · rw [skipExponent, List.nil_append, if_neg (not_or.2 hne)]
  · have hsign := @skipSign_complete sign ds rest hs hd
    have hhead : (e :: (sign ++ ds ++ rest)).head? = some 'e' ∨
        (e :: (sign ++ ds ++ rest)).head? = some 'E' :=
      he.imp (congrArg some) (congrArg some)
    rw [List.cons_append, skipExponent, if_pos hhead, List.tail_cons, hsign,
      if_pos (startsWithDigit_append hd rest), skipDigits_append hd.2 hr]

/-! ### Numbers -/

/-- What follows a value: the end of the document, whitespace, a comma or a closing bracket. -/
def Ends (rest : List Char) : Prop :=
  ∀ c ∈ rest.head?, isWhitespace c = true ∨ c = ',' ∨ c = ']' ∨ c = '\x7d'

theorem Ends.ne {rest : List Char} (h : Ends rest) {c : Char} (hw : isWhitespace c = false)
    (hc : c ≠ ',' ∧ c ≠ ']' ∧ c ≠ '\x7d') : rest.head? ≠ some c := by
  intro hh
  obtain hs | hs | hs | hs := h c hh
  · rw [hw] at hs
    cases hs
  · exact hc.1 hs
  · exact hc.2.1 hs
  · exact hc.2.2 hs

theorem Ends.noDigit {rest : List Char} (h : Ends rest) : NoDigit rest := by
  intro c hc
  obtain hs | rfl | rfl | rfl := h c hc
  · obtain rfl | rfl | rfl | rfl := isWhitespace_iff.1 hs <;> decide
  all_goals decide

theorem skipNumber_sound {rest after : List Char} (h : skipNumber rest = .ok after) :
    ∃ text, NumberText text ∧ rest = text ++ after := by
  rw [skipNumber] at h
  obtain ⟨mid, hi, h⟩ := bind_ok.1 h
  obtain ⟨mid', hf, he⟩ := bind_ok.1 h
  obtain ⟨sign, hs, hrest⟩ := skipMinus_sound rest
  obtain ⟨whole, hw, hi⟩ := skipInteger_sound hi
  obtain ⟨fraction, hfrac, hf⟩ := skipFraction_sound hf
  obtain ⟨exponent, hexp, he⟩ := skipExponent_sound he
  refine ⟨_, ⟨sign, whole, fraction, exponent, hs, hw, hfrac, hexp, rfl⟩, ?_⟩
  rw [hrest, hi, hf, he]
  simp only [List.append_assoc]

theorem skipNumber_complete {text rest : List Char} (h : NumberText text) (hr : Ends rest) :
    skipNumber (text ++ rest) = .ok rest := by
  obtain ⟨sign, whole, fraction, exponent, hs, hw, hf, he, rfl⟩ := h
  have hexpEnd : NoDigit (exponent ++ rest) ∧ (exponent ++ rest).head? ≠ some '.' := by
    obtain rfl | ⟨e, sgn, ds, hee, -, -, rfl⟩ := he
    · exact ⟨hr.noDigit, hr.ne (by decide) (by decide)⟩
    · obtain rfl | rfl := hee
      · exact ⟨fun c hc => by cases hc; decide, by simp⟩
      · exact ⟨fun c hc => by cases hc; decide, by simp⟩
  have hfracEnd : NoDigit (fraction ++ (exponent ++ rest)) := by
    obtain rfl | ⟨ds, -, rfl⟩ := hf
    · exact hexpEnd.1
    · exact fun c hc => by cases hc; decide
  have hminus : (whole ++ (fraction ++ (exponent ++ rest))).head? ≠ some '-' := by
    rw [List.head?_append_of_ne_nil _ hw.1.1]
    intro hh
    have hc := hw.1.2 '-' (List.mem_of_mem_head? hh)
    revert hc
    decide
  simp only [List.append_assoc]
  rw [skipNumber, skipMinus_complete hs hminus, skipInteger_complete hw hfracEnd]
  simp only [Except.bind]
  rw [skipFraction_complete hf hexpEnd.1 hexpEnd.2]
  exact skipExponent_complete he hr.noDigit
    ⟨hr.ne (by decide) (by decide), hr.ne (by decide) (by decide)⟩

theorem number_sound {rest after : List Char} {v : Json} (h : number rest = .ok (v, after)) :
    ∃ n, v = .number n ∧ NumberText n.lexeme.toList ∧ rest = n.lexeme.toList ++ after := by
  rw [number] at h
  obtain ⟨mid, hs, h⟩ := bind_ok.1 h
  obtain ⟨text, ht, rfl⟩ := skipNumber_sound hs
  dsimp only at h
  split_ifs at h with hv
  · cases h
    refine ⟨_, rfl, ?_⟩
    simp [ht]
  · cases h

theorem number_complete {n : Number} {rest : List Char} (h : NumberText n.lexeme.toList)
    (hr : Ends rest) : number (n.lexeme.toList ++ rest) = .ok (.number n, rest) := by
  have hlexeme : String.ofList ((n.lexeme.toList ++ rest).take
      ((n.lexeme.toList ++ rest).length - rest.length)) = n.lexeme := by
    rw [List.length_append, Nat.add_sub_cancel, List.take_left', String.ofList_toList]
    rfl
  rw [number, skipNumber_complete h hr]
  simp only [Except.bind]
  rw [dif_pos (by rw [hlexeme]; exact n.valid)]
  congr 3
  cases n
  simp only [Number.mk.injEq]
  exact hlexeme

end Reader
end FilamentCore.SemanticIr
