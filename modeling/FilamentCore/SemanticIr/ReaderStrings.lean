import FilamentCore.SemanticIr.ReaderNumbers

/-!
# Strings as the reader reads them

A character of the grammar ends where it ends, whatever follows it, and the reader takes exactly
that.
-/

namespace FilamentCore.SemanticIr
namespace Reader
open Grammar

/-! ### Hex digits -/

theorem hexDigit_of_value {c : Char} {n : ℕ} (h : hexDigitValue c = some n) : HexDigit c n := by
  have hc := Char.ofNat_toNat c
  rw [hexDigitValue] at h
  split_ifs at h with hd hl hu
  · obtain rfl := Option.some.inj h
    have h0 : 48 ≤ c.toNat := hd.1
    have h9 : c.toNat ≤ 57 := hd.2
    have hk := HexDigit.digit (c.toNat - 48) (by omega)
    rwa [Nat.add_sub_cancel' h0, hc] at hk
  · obtain rfl := Option.some.inj h
    have ha : 97 ≤ c.toNat := hl.1
    have hf : c.toNat ≤ 102 := hl.2
    have hk := HexDigit.lower (c.toNat - 97) (by omega)
    rw [Nat.add_sub_cancel' ha, hc, Nat.add_comm] at hk
    exact hk
  · obtain rfl := Option.some.inj h
    have ha : 65 ≤ c.toNat := hu.1
    have hf : c.toNat ≤ 70 := hu.2
    have hk := HexDigit.upper (c.toNat - 65) (by omega)
    rw [Nat.add_sub_cancel' ha, hc, Nat.add_comm] at hk
    exact hk

theorem value_of_hexDigit {c : Char} {n : ℕ} (h : HexDigit c n) : hexDigitValue c = some n := by
  cases h with
  | digit n hn => interval_cases n <;> rfl
  | lower n hn => interval_cases n <;> rfl
  | upper n hn => interval_cases n <;> rfl

theorem hexDigitValue_iff {c : Char} {n : ℕ} : hexDigitValue c = some n ↔ HexDigit c n :=
  ⟨hexDigit_of_value, value_of_hexDigit⟩

theorem hexValue4_iff {text : List Char} {n : ℕ} : hexValue4 text = some n ↔ HexText text n := by
  constructor
  · intro h
    unfold hexValue4 at h
    split at h
    · rename_i a b c d
      simp only [Option.bind_eq_bind, Option.bind_eq_some_iff, Option.pure_def,
        Option.some.injEq] at h
      obtain ⟨i, hi, j, hj, k, hk, l, hl, rfl⟩ := h
      refine ⟨a, b, c, d, i, j, k, l, rfl, hexDigitValue_iff.1 hi, hexDigitValue_iff.1 hj,
        hexDigitValue_iff.1 hk, hexDigitValue_iff.1 hl, by ring⟩
    · cases h
  · rintro ⟨a, b, c, d, i, j, k, l, rfl, hi, hj, hk, hl, rfl⟩
    simp only [hexValue4, hexDigitValue_iff.2 hi, hexDigitValue_iff.2 hj, hexDigitValue_iff.2 hk,
      hexDigitValue_iff.2 hl, Option.bind_eq_bind, Option.bind_some, Option.pure_def]
    congr 1
    ring

theorem hexText_length {text : List Char} {n : ℕ} (h : HexText text n) : text.length = 4 := by
  obtain ⟨a, b, c, d, _, _, _, _, rfl, _⟩ := h
  rfl

theorem length_le_byteLength (text : List Char) : text.length ≤ byteLength text := by
  induction text with
  | nil => exact le_refl _
  | cons c text ih =>
    have hc := Char.utf8Size_pos c
    simp only [byteLength, List.map_cons, List.sum_cons, List.length_cons] at ih ⊢
    omega

theorem hex4_ok {rest after : List Char} {n : ℕ} :
    hex4 rest = .ok (n, after) ↔ ∃ text, HexText text n ∧ rest = text ++ after := by
  constructor
  · intro h
    rw [hex4] at h
    split_ifs at h
    · cases h
    · split at h
      · rename_i hv
        cases h
        exact ⟨rest.take 4, hexValue4_iff.1 hv, (List.take_append_drop 4 rest).symm⟩
      · cases h
  · rintro ⟨text, ht, rfl⟩
    have hl := hexText_length ht
    have hb := length_le_byteLength (text ++ after)
    rw [List.length_append] at hb
    rw [hex4, if_neg (by omega), ← hl, List.take_left, List.drop_left, hexValue4_iff.2 ht]

/-! ### Escapes -/

theorem charFromU32_ok {n : ℕ} {c : Char} : charFromU32 n = some c ↔ c.toNat = n := by
  rw [charFromU32]
  split_ifs with hv
  · rw [Option.some.injEq]
    constructor
    · rintro rfl
      rw [Char.toNat_ofNat, if_pos hv]
    · rintro rfl
      exact Char.ofNat_toNat c
  · simp only [false_iff]
    rintro rfl
    exact hv c.valid

theorem toNat_not_surrogate (c : Char) :
    isHighSurrogate c.toNat = false ∧ isLowSurrogate c.toNat = false := by
  have hv : c.toNat.isValidChar := c.valid
  simp only [Nat.isValidChar] at hv
  simp only [isHighSurrogate, isLowSurrogate, Bool.and_eq_false_iff, decide_eq_false_iff_not]
  omega

theorem unicodeEscape_sound {rest after : List Char} {c : Char}
    (h : unicodeEscape rest = .ok (c, after)) :
    ∃ text, CharText ('\\' :: 'u' :: text) c ∧ rest = text ++ after := by
  rw [unicodeEscape, bind_ok] at h
  obtain ⟨⟨first, mid⟩, hh, h⟩ := h
  obtain ⟨high, hhigh, hrest⟩ := hex4_ok.1 hh
  dsimp only at h hrest
  split_ifs at h with hs hl
  · rw [surrogatePair] at h
    split_ifs at h with hp
    · rw [bind_ok] at h
      obtain ⟨⟨second, mid'⟩, hh', h⟩ := h
      obtain ⟨low, hlow, he⟩ := hex4_ok.1 hh'
      have hmid : mid = '\\' :: 'u' :: low ++ mid' := by
        obtain ⟨tail, rfl⟩ := List.isPrefixOf_iff_prefix.1 hp
        exact congrArg (['\\', 'u'] ++ ·) he
      dsimp only at h
      split_ifs at h with hl
      · split at h
        · rename_i hc
          cases h
          simp only [isHighSurrogate, isLowSurrogate, Bool.and_eq_true, decide_eq_true_eq] at hs hl
          refine ⟨high ++ '\\' :: 'u' :: low, ?_, by rw [hrest, hmid, List.append_assoc]⟩
          apply CharText.pair (i := first - 0xD800) (j := second - 0xDC00)
          · rwa [Nat.add_sub_cancel' hs.1]
          · rwa [Nat.add_sub_cancel' hl.1]
          · omega
          · omega
          · exact charFromU32_ok.1 hc
        · cases h
      · cases h
    · cases h
  · cases h
  · split at h
    · rename_i hc
      cases h
      exact ⟨high, .unicode (charFromU32_ok.1 hc ▸ hhigh), hrest⟩
    · cases h

theorem unicodeEscape_plain {text : List Char} {c : Char} (ht : HexText text c.toNat)
    (after : List Char) : unicodeEscape (text ++ after) = .ok (c, after) := by
  obtain ⟨hh, hl⟩ := toNat_not_surrogate c
  rw [unicodeEscape, hex4_ok.2 ⟨text, ht, rfl⟩]
  simp only [Except.bind, hh, hl, Bool.false_eq_true, if_false, charFromU32_ok.2 rfl]

theorem unicodeEscape_pair {high low : List Char} {i j : ℕ} {c : Char}
    (hh : HexText high (0xD800 + i)) (hl : HexText low (0xDC00 + j)) (hi : i < 0x400)
    (hj : j < 0x400) (hc : c.toNat = 0x10000 + i * 0x400 + j) (after : List Char) :
    unicodeEscape (high ++ '\\' :: 'u' :: low ++ after) = .ok (c, after) := by
  have hhigh : isHighSurrogate (0xD800 + i) = true := by
    simp only [isHighSurrogate, Bool.and_eq_true, decide_eq_true_eq]
    omega
  have hlow : isLowSurrogate (0xDC00 + j) = true := by
    simp only [isLowSurrogate, Bool.and_eq_true, decide_eq_true_eq]
    omega
  have hchar : charFromU32 (0x10000 + (0xD800 + i - 0xD800) * 2 ^ 10 + (0xDC00 + j - 0xDC00)) =
      some c := by
    rw [charFromU32_ok, hc, Nat.add_sub_cancel_left, Nat.add_sub_cancel_left]
    norm_num
  have hfirst := hex4_ok.2 ⟨high, hh, List.append_assoc high ('\\' :: 'u' :: low) after⟩
  have hsecond : hex4 (low ++ after) = .ok (0xDC00 + j, after) := hex4_ok.2 ⟨low, hl, rfl⟩
  rw [unicodeEscape, hfirst]
  simp only [Except.bind, hhigh, if_true]
  have hstarts : ['\\', 'u'].isPrefixOf ('\\' :: 'u' :: low ++ after) = true :=
    List.isPrefixOf_iff_prefix.2 ⟨low ++ after, rfl⟩
  rw [surrogatePair, if_pos hstarts]
  have hdrop : ('\\' :: 'u' :: low ++ after).drop 2 = low ++ after := rfl
  rw [hdrop, hsecond]
  simp only [Except.bind, hlow, if_true, hchar]

theorem simpleEscape_iff {e c : Char} : simpleEscape e = some c ↔ (e, c) ∈ escapes := by
  constructor
  · intro h
    unfold simpleEscape at h
    split at h <;> first
      | (obtain rfl := Option.some.inj h; decide)
      | cases h
  · intro h
    simp only [escapes, List.mem_cons, Prod.mk.injEq, List.not_mem_nil, or_false] at h
    rcases h with ⟨rfl, rfl⟩ | ⟨rfl, rfl⟩ | ⟨rfl, rfl⟩ | ⟨rfl, rfl⟩ | ⟨rfl, rfl⟩ | ⟨rfl, rfl⟩ |
      ⟨rfl, rfl⟩ | ⟨rfl, rfl⟩ <;> rfl

theorem escape_sound {rest after : List Char} {c : Char} (h : escape rest = .ok (c, after)) :
    ∃ text, CharText ('\\' :: text) c ∧ rest = text ++ after := by
  unfold escape at h
  split at h
  · cases h
  · obtain ⟨text, ht, rfl⟩ := unicodeEscape_sound h
    exact ⟨'u' :: text, ht, rfl⟩
  · rename_i e tail _
    split at h
    · rename_i hs
      cases h
      exact ⟨[e], .escaped (simpleEscape_iff.1 hs), rfl⟩
    · cases h

theorem stringTurn_sound {rest after : List Char} {c : Char}
    (h : stringTurn rest = .ok (some c, after)) : ∃ text, CharText text c ∧ rest = text ++ after := by
  unfold stringTurn at h
  split at h
  · cases h
  · rename_i d tail
    split_ifs at h with hq hb hc
    · cases h
    · obtain ⟨⟨c', mid⟩, he, h⟩ := map_ok.1 h
      cases h
      obtain ⟨text, ht, rfl⟩ := escape_sound he
      exact ⟨'\\' :: text, ht, by rw [hb]; rfl⟩
    · cases h
    · cases h
      exact ⟨[c], .unescaped (by omega) hq hb, rfl⟩

theorem stringTurn_end {rest after : List Char} :
    stringTurn rest = .ok (none, after) ↔ rest = '"' :: after := by
  constructor
  · intro h
    unfold stringTurn at h
    split at h
    · cases h
    · split_ifs at h with hq hb hc
      · cases h
        rw [hq]
      · obtain ⟨⟨c', mid⟩, he, h⟩ := map_ok.1 h
        cases h
      · cases h
      · cases h
  · rintro rfl
    rfl

theorem stringTurn_complete {text : List Char} {c : Char} (h : CharText text c)
    (after : List Char) : stringTurn (text ++ after) = .ok (some c, after) := by
  have hescape : ∀ {tail : List Char} (_ : escape (tail ++ after) = .ok (c, after)),
      stringTurn ('\\' :: tail ++ after) = .ok (some c, after) := by
    intro tail ht
    rw [List.cons_append, stringTurn, if_neg (by decide), if_pos rfl, ht]
    rfl
  cases h with
  | unescaped hle hq hb =>
    rw [List.singleton_append, stringTurn, if_neg hq, if_neg hb, if_neg (by omega)]
  | @escaped e _ he =>
    apply hescape
    have hs := simpleEscape_iff.2 he
    rw [List.singleton_append, escape]
    · rw [hs]
    · rintro rfl
      cases hs
  | unicode ht => exact hescape (unicodeEscape_plain ht after)
  | pair hh hl hi hj hc => exact hescape (unicodeEscape_pair hh hl hi hj hc after)

/-! ### Runs of characters -/

theorem stringRun_end {out rest after : List Char} (h : stringTurn rest = .ok (none, after)) :
    stringRun out rest = .ok (String.ofList out, after) := by
  rw [stringRun]
  split <;> rename_i ht <;> rw [h] at ht <;> cases ht
  rfl

theorem stringRun_next {out rest after : List Char} {c : Char}
    (h : stringTurn rest = .ok (some c, after)) :
    stringRun out rest = stringRun (out ++ [c]) after := by
  rw [stringRun]
  split <;> rename_i ht <;> rw [h] at ht <;> cases ht
  rfl

theorem stringRun_complete {body cs : List Char} (h : CharsText body cs) (out after : List Char) :
    stringRun out (body ++ '"' :: after) = .ok (String.ofList (out ++ cs), after) := by
  induction h generalizing out with
  | nil =>
    rw [List.nil_append, stringRun_end (stringTurn_end.2 rfl), List.append_nil]
  | @cons text rest cs c hc hrest ih =>
    rw [List.append_assoc, stringRun_next (stringTurn_complete hc _), ih, List.append_assoc,
      List.singleton_append]

theorem stringRun_sound {out rest after : List Char} {s : String}
    (h : stringRun out rest = .ok (s, after)) :
    ∃ body cs, CharsText body cs ∧ rest = body ++ '"' :: after ∧ s = String.ofList (out ++ cs) := by
  induction hn : rest.length using Nat.strong_induction_on generalizing out rest with
  | _ n ih =>
    rw [stringRun] at h
    split at h
    · cases h
    · rename_i ht
      cases h
      exact ⟨[], [], .nil, stringTurn_end.1 ht, by rw [List.append_nil]⟩
    · rename_i c mid ht
      obtain ⟨text, hc, rfl⟩ := stringTurn_sound ht
      obtain ⟨body, cs, hb, rfl, rfl⟩ := ih _ (hn ▸ stringTurn_length ht) h rfl
      refine ⟨text ++ body, c :: cs, .cons hc hb, by rw [List.append_assoc], ?_⟩
      rw [List.append_assoc, List.singleton_append]

theorem string_ok {rest after : List Char} {s : String} (hq : rest.head? = some '"') :
    string rest = .ok (s, after) ↔ ∃ text, StringText text s ∧ rest = text ++ after := by
  have hrest := List.eq_cons_of_mem_head? hq
  constructor
  · intro h
    obtain ⟨body, cs, hb, ht, rfl⟩ := stringRun_sound h
    refine ⟨'"' :: (body ++ ['"']), ⟨body, by simpa using hb, rfl⟩, ?_⟩
    rw [hrest, ht]
    simp
  · rintro ⟨text, ⟨body, hb, rfl⟩, rfl⟩
    have h := stringRun_complete hb [] after
    rw [string, List.cons_append, List.tail_cons, List.append_assoc, List.singleton_append, h,
      List.nil_append, String.ofList_toList]

theorem stringText_head {text : List Char} {s : String} (h : StringText text s)
    (rest : List Char) : (text ++ rest).head? = some '"' := by
  obtain ⟨body, -, rfl⟩ := h
  rfl

end Reader
end FilamentCore.SemanticIr
