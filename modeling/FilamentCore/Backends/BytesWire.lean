import FilamentCore.Library.ByteText
import FilamentCore.Library.Regex
import FilamentCore.SemanticIr.AsciiText

/-!
# The wire form of bytes

The base64 of the generated Rust package (src/compiler/backends/rust-serde/support-template.rs) and
of the TypeScript validators (src/compiler/backends/typescript-v1/validators.mjs). A Rust text is
read by its UTF-8 bytes and a JavaScript one by its UTF-16 units.
-/

namespace FilamentCore.Backends.BytesWire
open FilamentCore.Library FilamentCore.Library.Regex
open FilamentCore.Packages (codeUnits)
open FilamentCore.SemanticIr (IsAscii)
open ByteText (bytes)

/-! ### The Rust package -/

def base64Alphabet : List Char :=
  "ABCDEFGHIJKLMNOPQRSTUVWXYZabcdefghijklmnopqrstuvwxyz0123456789+/".toList

def alphabetAt (index : UInt8) : Char := base64Alphabet.getD index.toNat '='

def base64Digit (byte : UInt8) : Option UInt8 :=
  if 65 ≤ byte ∧ byte ≤ 90 then some (byte - 65)
  else if 97 ≤ byte ∧ byte ≤ 122 then some (byte - 97 + 26)
  else if 48 ≤ byte ∧ byte ≤ 57 then some (byte - 48 + 52)
  else if byte = 43 then some 62
  else if byte = 47 then some 63
  else none

/-- `b'='`. -/
def padByte : UInt8 := 61

/-- The loop over the groups of four; a group is the last one where nothing follows. -/
def decodeGroups : List UInt8 → Option (List UInt8)
  | [] => some []
  | a :: b :: c :: d :: rest => do
    let first ← base64Digit a
    let second ← base64Digit b
    let octet := first <<< 2 ||| second >>> 4
    if c = padByte then
      if rest ≠ [] ∨ d ≠ padByte ∨ second &&& 0x0f ≠ 0 then none else return [octet]
    else
      let third ← base64Digit c
      let next := second <<< 4 ||| third >>> 2
      if d = padByte then
        if rest ≠ [] ∨ third &&& 0x03 ≠ 0 then none else return [octet, next]
      else
        let fourth ← base64Digit d
        let octets ← decodeGroups rest
        return octet :: next :: (third <<< 6 ||| fourth) :: octets
  | _ => none

def decodeBytesWire (text : List Char) : Option (List UInt8) :=
  if (bytes text).length % 4 ≠ 0 then none else decodeGroups (bytes text)

/-- The four characters of a group of at most three octets. -/
def encodeGroup (first : UInt8) (second third : Option UInt8) : List Char :=
  [alphabetAt (first >>> 2), alphabetAt ((first &&& 0x03) <<< 4 ||| second.getD 0 >>> 4),
    match second with
    | some second => alphabetAt ((second &&& 0x0f) <<< 2 ||| third.getD 0 >>> 6)
    | none => '=',
    match third with
    | some third => alphabetAt (third &&& 0x3f)
    | none => '=']

def encodeBytesWire : List UInt8 → List Char
  | [] => []
  | [a] => encodeGroup a none none
  | [a, b] => encodeGroup a (some b) none
  | a :: b :: c :: rest => encodeGroup a (some b) (some c) ++ encodeBytesWire rest

/-! ### The TypeScript validators -/

/-- `[A-Za-z0-9+/]`. -/
def isDigitUnit (u : ℕ) : Bool :=
  (65 ≤ u && u ≤ 90) || (97 ≤ u && u ≤ 122) || (48 ≤ u && u ≤ 57) || u == 43 || u == 47

/-- `/^[A-Za-z0-9+/]*={0,2}$/`. -/
def digitsAndPadding : Regex ℕ :=
  seqs [.start, .star (.set isDigitUnit), opt (lit 61), opt (lit 61), .finish]

/-- `/=[^=]/`. -/
def strayPadding : Regex ℕ := seqs [lit 61, .set fun u => u != 61]

def IsBase64 (value : List ℕ) : Prop :=
  value.length % 4 = 0 ∧ Found digitsAndPadding value ∧ ¬ Found strayPadding value

/-! ### Digits -/

set_option maxRecDepth 4000 in
theorem base64Digit_alphabetAt (index : UInt8) (h : index.toNat < 64) :
    (alphabetAt index).utf8Size = 1 ∧ alphabetAt index ≠ '=' ∧
      base64Digit (alphabetAt index).val.toUInt8 = some index := by
  have hall : ∀ i : Fin 64, (base64Alphabet.getD i '=').utf8Size = 1 ∧
      base64Alphabet.getD i '=' ≠ '=' ∧
      base64Digit (base64Alphabet.getD i '=').val.toUInt8 = some (UInt8.ofNat i) := by decide
  have hi := hall ⟨index.toNat, h⟩
  rwa [UInt8.ofNat_toNat] at hi

theorem base64Digit_ranges {byte digit : UInt8} (h : base64Digit byte = some digit) :
    (65 ≤ byte.toNat ∧ byte.toNat ≤ 90 ∧ digit.toNat + 65 = byte.toNat) ∨
      (97 ≤ byte.toNat ∧ byte.toNat ≤ 122 ∧ digit.toNat + 71 = byte.toNat) ∨
        (48 ≤ byte.toNat ∧ byte.toNat ≤ 57 ∧ digit.toNat = byte.toNat + 4) ∨
          (byte.toNat = 43 ∧ digit.toNat = 62) ∨ byte.toNat = 47 ∧ digit.toNat = 63 := by
  simp only [base64Digit, UInt8.le_iff_toNat_le, ← UInt8.toNat_inj] at h
  have hlt := byte.toNat_lt
  split at h
  · rename_i hr
    left
    have hr1 : (65 : ℕ) ≤ byte.toNat := hr.1
    have hr2 : byte.toNat ≤ (90 : ℕ) := hr.2
    have hd : (byte - 65).toNat = byte.toNat - 65 :=
      UInt8.toNat_sub_of_le _ _ (UInt8.le_iff_toNat_le.2 hr.1)
    rw [← Option.some.inj h, hd]
    omega
  split at h
  · rename_i hr
    right; left
    have hr1 : (97 : ℕ) ≤ byte.toNat := hr.1
    have hr2 : byte.toNat ≤ (122 : ℕ) := hr.2
    have hd : (byte - 97).toNat = byte.toNat - 97 :=
      UInt8.toNat_sub_of_le _ _ (UInt8.le_iff_toNat_le.2 hr.1)
    have h26 : (26 : UInt8).toNat = 26 := rfl
    rw [← Option.some.inj h, UInt8.toNat_add, hd, h26]
    omega
  split at h
  · rename_i hr
    right; right; left
    have hr1 : (48 : ℕ) ≤ byte.toNat := hr.1
    have hr2 : byte.toNat ≤ (57 : ℕ) := hr.2
    have hd : (byte - 48).toNat = byte.toNat - 48 :=
      UInt8.toNat_sub_of_le _ _ (UInt8.le_iff_toNat_le.2 hr.1)
    have h52 : (52 : UInt8).toNat = 52 := rfl
    rw [← Option.some.inj h, UInt8.toNat_add, hd, h52]
    omega
  split at h
  · rename_i hr
    right; right; right; left
    exact ⟨hr, by rw [← Option.some.inj h]; rfl⟩
  split at h
  · rename_i hr
    right; right; right; right
    exact ⟨hr, by rw [← Option.some.inj h]; rfl⟩
  · cases h

theorem base64Digit_inj {a b digit : UInt8} (ha : base64Digit a = some digit)
    (hb : base64Digit b = some digit) : a = b := by
  have hra := base64Digit_ranges ha
  have hrb := base64Digit_ranges hb
  apply UInt8.toNat_inj.1
  omega

theorem base64Digit_lt {byte digit : UInt8} (h : base64Digit byte = some digit) :
    digit.toNat < 64 ∧ byte.toNat < 128 ∧ byte ≠ padByte := by
  have hr := base64Digit_ranges h
  refine ⟨by omega, by omega, ?_⟩
  rintro rfl
  have hpad : padByte.toNat = 61 := rfl
  omega

theorem byte_eq {byte digit : UInt8} (h : base64Digit byte = some digit) :
    byte = (alphabetAt digit).val.toUInt8 :=
  base64Digit_inj h (base64Digit_alphabetAt digit (base64Digit_lt h).1).2.2

set_option maxRecDepth 4000 in
theorem isDigitUnit_iff (byte : UInt8) :
    isDigitUnit byte.toNat = true ↔ (base64Digit byte).isSome = true := by
  have hall : ∀ n : Fin 256, isDigitUnit n = (base64Digit (UInt8.ofNat n)).isSome := by decide
  have hb := hall ⟨byte.toNat, byte.toNat_lt⟩
  rw [UInt8.ofNat_toNat] at hb
  rw [← hb]

/-! ### Octets of digits and digits of octets -/

theorem toNat_shift_or {a b : UInt8} {n : ℕ} (hn : n < 8) (hb : b.toNat < 2 ^ n) :
    (a <<< UInt8.ofNat n ||| b).toNat = a.toNat % 2 ^ (8 - n) * 2 ^ n + b.toNat := by
  have hshift : (UInt8.ofNat n).toNat % 8 = n := by
    rw [UInt8.toNat_ofNat']
    omega
  have hpow : 2 ^ 8 = 2 ^ (8 - n) * 2 ^ n := by
    rw [← pow_add, Nat.sub_add_cancel hn.le]
  rw [UInt8.toNat_or, UInt8.toNat_shiftLeft, hshift, Nat.shiftLeft_eq, hpow,
    Nat.mul_mod_mul_right, ← Nat.shiftLeft_eq, Nat.shiftLeft_add_eq_or_of_lt hb]

theorem toNat_shiftRight {a : UInt8} {n : ℕ} (hn : n < 8) :
    (a >>> UInt8.ofNat n).toNat = a.toNat / 2 ^ n := by
  have hshift : (UInt8.ofNat n).toNat % 8 = n := by
    rw [UInt8.toNat_ofNat']
    omega
  rw [UInt8.toNat_shiftRight, hshift, Nat.shiftRight_eq_div_pow]

theorem toNat_mask {a : UInt8} {n : ℕ} (hn : n < 8) :
    (a &&& UInt8.ofNat (2 ^ n - 1)).toNat = a.toNat % 2 ^ n := by
  have hlt : 2 ^ n - 1 < 256 := by
    have hpow := Nat.pow_lt_pow_right (a := 2) (by omega) hn
    omega
  rw [UInt8.toNat_and, UInt8.toNat_ofNat', Nat.mod_eq_of_lt hlt, Nat.and_two_pow_sub_one_eq_mod]

section Octets

variable (a b : UInt8)

theorem toNat_high (hb : b.toNat < 64) :
    (a <<< 2 ||| b >>> 4).toNat = a.toNat % 64 * 4 + b.toNat / 16 := by
  have hright : (b >>> 4).toNat = b.toNat / 16 := toNat_shiftRight (n := 4) (by omega)
  have hor : (a <<< 2 ||| b >>> 4).toNat = a.toNat % 64 * 4 + (b >>> 4).toNat :=
    toNat_shift_or (n := 2) (by omega) (by rw [hright]; omega)
  rw [hor, hright]

theorem toNat_middle (hb : b.toNat < 64) :
    (a <<< 4 ||| b >>> 2).toNat = a.toNat % 16 * 16 + b.toNat / 4 := by
  have hright : (b >>> 2).toNat = b.toNat / 4 := toNat_shiftRight (n := 2) (by omega)
  have hor : (a <<< 4 ||| b >>> 2).toNat = a.toNat % 16 * 16 + (b >>> 2).toNat :=
    toNat_shift_or (n := 4) (by omega) (by rw [hright]; omega)
  rw [hor, hright]

theorem toNat_low (hb : b.toNat < 64) : (a <<< 6 ||| b).toNat = a.toNat % 4 * 64 + b.toNat :=
  toNat_shift_or (n := 6) (by omega) hb

theorem toNat_first : (a >>> 2).toNat = a.toNat / 4 := toNat_shiftRight (n := 2) (by omega)

theorem toNat_second :
    ((a &&& 0x03) <<< 4 ||| b >>> 4).toNat = a.toNat % 4 * 16 + b.toNat / 16 := by
  have hmask : (a &&& 0x03).toNat = a.toNat % 4 := toNat_mask (n := 2) (by omega)
  have hright : (b >>> 4).toNat = b.toNat / 16 := toNat_shiftRight (n := 4) (by omega)
  have hlt := b.toNat_lt
  have hor : ((a &&& 0x03) <<< 4 ||| b >>> 4).toNat =
      (a &&& 0x03).toNat % 16 * 16 + (b >>> 4).toNat :=
    toNat_shift_or (n := 4) (by omega) (by rw [hright]; omega)
  rw [hor, hmask, hright]
  omega

theorem toNat_third : ((a &&& 0x0f) <<< 2 ||| b >>> 6).toNat = a.toNat % 16 * 4 + b.toNat / 64 := by
  have hmask : (a &&& 0x0f).toNat = a.toNat % 16 := toNat_mask (n := 4) (by omega)
  have hright : (b >>> 6).toNat = b.toNat / 64 := toNat_shiftRight (n := 6) (by omega)
  have hlt := b.toNat_lt
  have hor : ((a &&& 0x0f) <<< 2 ||| b >>> 6).toNat =
      (a &&& 0x0f).toNat % 64 * 4 + (b >>> 6).toNat :=
    toNat_shift_or (n := 2) (by omega) (by rw [hright]; omega)
  rw [hor, hmask, hright]
  omega

theorem toNat_fourth : (a &&& 0x3f).toNat = a.toNat % 64 := toNat_mask (n := 6) (by omega)

theorem mask_eq_zero_iff {n : ℕ} (hn : n < 8) :
    a &&& UInt8.ofNat (2 ^ n - 1) ≠ 0 ↔ a.toNat % 2 ^ n ≠ 0 := by
  rw [ne_eq, ← UInt8.toNat_inj, toNat_mask hn]
  rfl

theorem unused_four : a &&& 0x0f ≠ 0 ↔ a.toNat % 16 ≠ 0 := mask_eq_zero_iff a (n := 4) (by omega)

theorem unused_two : a &&& 0x03 ≠ 0 ↔ a.toNat % 4 ≠ 0 := mask_eq_zero_iff a (n := 2) (by omega)

end Octets

/-! ### One group -/

def byteOf (c : Char) : UInt8 := c.val.toUInt8

theorem bytes_ascii {cs : List Char} (h : ∀ c ∈ cs, c.utf8Size = 1) : bytes cs = cs.map byteOf := by
  induction cs with
  | nil => rfl
  | cons c cs ih =>
    rw [List.forall_mem_cons] at h
    rw [ByteText.bytes_cons, String.utf8EncodeChar_eq_singleton h.1, ih h.2]
    rfl

variable {a b c d first second third fourth : UInt8} (rest : List UInt8)

theorem decodeGroups_full (ha : base64Digit a = some first) (hb : base64Digit b = some second)
    (hc : base64Digit c = some third) (hd : base64Digit d = some fourth) :
    decodeGroups (a :: b :: c :: d :: rest) = (decodeGroups rest).map fun octets =>
      (first <<< 2 ||| second >>> 4) :: (second <<< 4 ||| third >>> 2) ::
        (third <<< 6 ||| fourth) :: octets := by
  have hcp := (base64Digit_lt hc).2.2
  have hdp := (base64Digit_lt hd).2.2
  rw [decodeGroups, ha, hb]
  simp only [Option.bind_eq_bind, Option.bind_some, if_neg hcp, if_neg hdp, hc, hd]
  cases decodeGroups rest <;> rfl

theorem decodeGroups_one (ha : base64Digit a = some first) (hb : base64Digit b = some second) :
    decodeGroups (a :: b :: padByte :: d :: rest) =
      if rest ≠ [] ∨ d ≠ padByte ∨ second &&& 0x0f ≠ 0 then none
      else some [first <<< 2 ||| second >>> 4] := by
  rw [decodeGroups, ha, hb]
  simp only [Option.bind_eq_bind, Option.bind_some, if_pos]
  rfl

theorem decodeGroups_two (ha : base64Digit a = some first) (hb : base64Digit b = some second)
    (hc : base64Digit c = some third) :
    decodeGroups (a :: b :: c :: padByte :: rest) =
      if rest ≠ [] ∨ third &&& 0x03 ≠ 0 then none
      else some [first <<< 2 ||| second >>> 4, second <<< 4 ||| third >>> 2] := by
  have hcp := (base64Digit_lt hc).2.2
  rw [decodeGroups, ha, hb]
  simp only [Option.bind_eq_bind, Option.bind_some, if_neg hcp, if_pos, hc]
  rfl

theorem decode_group (x : UInt8) (y z : Option UInt8) (hz : y = none → z = none)
    (hrest : z = none → rest = []) :
    decodeGroups ((encodeGroup x y z).map byteOf ++ rest) =
      (decodeGroups rest).map fun octets => x :: (y.toList ++ (z.toList ++ octets)) := by
  have hx := x.toNat_lt
  have hfirst : (x >>> 2).toNat < 64 := by rw [toNat_first]; omega
  have hsecond : ∀ v : UInt8, ((x &&& 0x03) <<< 4 ||| v >>> 4).toNat < 64 := by
    intro v
    have hv := v.toNat_lt
    rw [toNat_second]
    omega
  have ha := (base64Digit_alphabetAt _ hfirst).2.2
  have hb := fun v => (base64Digit_alphabetAt _ (hsecond v)).2.2
  have houter : ∀ v : UInt8, (x >>> 2) <<< 2 ||| ((x &&& 0x03) <<< 4 ||| v >>> 4) >>> 4 = x := by
    intro v
    have hv := v.toNat_lt
    rw [← UInt8.toNat_inj, toNat_high _ _ (hsecond v), toNat_first, toNat_second]
    omega
  cases y with
  | none =>
    rw [hrest (hz rfl), hz rfl]
    have hclear : ¬ (([] : List UInt8) ≠ [] ∨ padByte ≠ padByte ∨
        ((x &&& 0x03) <<< 4 ||| (0 : UInt8) >>> 4) &&& 0x0f ≠ 0) := by
      rw [unused_four, toNat_second]
      rintro (h | h | h)
      · exact h rfl
      · exact h rfl
      · exact h (by simp only [UInt8.toNat_zero]; omega)
    have hone := decodeGroups_one (d := padByte) [] ha (hb 0)
    rw [if_neg hclear, houter] at hone
    exact hone
  | some y =>
    have hy := y.toNat_lt
    have hthird : ∀ v : UInt8, ((y &&& 0x0f) <<< 2 ||| v >>> 6).toNat < 64 := by
      intro v
      have hv := v.toNat_lt
      rw [toNat_third]
      omega
    have hc := fun v => (base64Digit_alphabetAt _ (hthird v)).2.2
    have hinner : ∀ v : UInt8, ((x &&& 0x03) <<< 4 ||| y >>> 4) <<< 4 |||
        ((y &&& 0x0f) <<< 2 ||| v >>> 6) >>> 2 = y := by
      intro v
      have hv := v.toNat_lt
      rw [← UInt8.toNat_inj, toNat_middle _ _ (hthird v), toNat_second, toNat_third]
      omega
    cases z with
    | none =>
      rw [hrest rfl]
      have hclear : ¬ (([] : List UInt8) ≠ [] ∨
          ((y &&& 0x0f) <<< 2 ||| (0 : UInt8) >>> 6) &&& 0x03 ≠ 0) := by
        rw [unused_two, toNat_third]
        rintro (h | h)
        · exact h rfl
        · exact h (by simp only [UInt8.toNat_zero]; omega)
      have htwo := decodeGroups_two [] ha (hb y) (hc 0)
      rw [if_neg hclear, houter, hinner] at htwo
      exact htwo
    | some z =>
      have hz := z.toNat_lt
      have hfourth : (z &&& 0x3f).toNat < 64 := by rw [toNat_fourth]; omega
      have hd := (base64Digit_alphabetAt _ hfourth).2.2
      have hlast : ((y &&& 0x0f) <<< 2 ||| z >>> 6) <<< 6 ||| (z &&& 0x3f) = z := by
        rw [← UInt8.toNat_inj, toNat_low _ _ hfourth, toNat_third, toNat_fourth]
        omega
      have hfull := decodeGroups_full rest ha (hb y) (hc z) hd
      rw [houter, hinner, hlast] at hfull
      exact hfull

/-! ### What is encoded is decoded -/

theorem encodeGroup_ascii (x : UInt8) (y z : Option UInt8) :
    (∀ c ∈ encodeGroup x y z, c.utf8Size = 1) ∧ (encodeGroup x y z).length = 4 := by
  have hx := x.toNat_lt
  have hpad : ('=' : Char).utf8Size = 1 := by decide
  have hfirst := (base64Digit_alphabetAt (x >>> 2) (by rw [toNat_first]; omega)).1
  have hsecond : ∀ v : UInt8, (alphabetAt ((x &&& 0x03) <<< 4 ||| v >>> 4)).utf8Size = 1 := by
    intro v
    have hv := v.toNat_lt
    exact (base64Digit_alphabetAt _ (by rw [toNat_second]; omega)).1
  have hthird : ∀ y v : UInt8, (alphabetAt ((y &&& 0x0f) <<< 2 ||| v >>> 6)).utf8Size = 1 := by
    intro y v
    have hv := v.toNat_lt
    exact (base64Digit_alphabetAt _ (by rw [toNat_third]; omega)).1
  have hfourth : ∀ z : UInt8, (alphabetAt (z &&& 0x3f)).utf8Size = 1 :=
    fun z => (base64Digit_alphabetAt _ (by rw [toNat_fourth]; omega)).1
  refine ⟨?_, rfl⟩
  simp only [encodeGroup, List.forall_mem_cons, hfirst, hsecond, true_and]
  cases y with
  | none =>
    cases z with
    | none => exact ⟨hpad, hpad, fun c hc => absurd hc List.not_mem_nil⟩
    | some z => exact ⟨hpad, hfourth z, fun c hc => absurd hc List.not_mem_nil⟩
  | some y =>
    cases z with
    | none => exact ⟨hthird y _, hpad, fun c hc => absurd hc List.not_mem_nil⟩
    | some z => exact ⟨hthird y _, hfourth z, fun c hc => absurd hc List.not_mem_nil⟩

theorem encodeBytesWire_ascii (octets : List UInt8) :
    (∀ c ∈ encodeBytesWire octets, c.utf8Size = 1) ∧ (encodeBytesWire octets).length % 4 = 0 := by
  induction octets using encodeBytesWire.induct with
  | case1 => exact ⟨fun c hc => absurd hc List.not_mem_nil, rfl⟩
  | case2 a =>
    obtain ⟨hc, hl⟩ := encodeGroup_ascii a none none
    exact ⟨hc, by rw [encodeBytesWire, hl]⟩
  | case3 a b =>
    obtain ⟨hc, hl⟩ := encodeGroup_ascii a (some b) none
    exact ⟨hc, by rw [encodeBytesWire, hl]⟩
  | case4 a b c rest ih =>
    obtain ⟨hc, hl⟩ := encodeGroup_ascii a (some b) (some c)
    rw [encodeBytesWire, List.length_append, hl]
    exact ⟨List.forall_mem_append.2 ⟨hc, ih.1⟩, by omega⟩

theorem decodeGroups_encode (octets : List UInt8) :
    decodeGroups ((encodeBytesWire octets).map byteOf) = some octets := by
  induction octets using encodeBytesWire.induct with
  | case1 => rfl
  | case2 a =>
    have hgroup := decode_group [] a none none (fun _ => rfl) fun _ => rfl
    rw [List.append_nil] at hgroup
    exact hgroup
  | case3 a b =>
    have hgroup := decode_group [] a (some b) none (fun _ => rfl) fun _ => rfl
    rw [List.append_nil] at hgroup
    exact hgroup
  | case4 a b c rest ih =>
    rw [encodeBytesWire, List.map_append, decode_group _ a (some b) (some c) (fun h => by cases h)
      (fun h => by cases h), ih]
    rfl

theorem decode_encode (octets : List UInt8) :
    decodeBytesWire (encodeBytesWire octets) = some octets := by
  obtain ⟨hascii, hlength⟩ := encodeBytesWire_ascii octets
  rw [decodeBytesWire, bytes_ascii hascii, List.length_map, if_neg (not_not.2 hlength),
    decodeGroups_encode]

/-! ### What is decoded is encoded -/

theorem decodeGroups_cases {octets : List UInt8}
    (h : decodeGroups (a :: b :: c :: d :: rest) = some octets) :
    ∃ first second, base64Digit a = some first ∧ base64Digit b = some second ∧
      ((c = padByte ∧ d = padByte ∧ rest = [] ∧ second.toNat % 16 = 0 ∧
          octets = [first <<< 2 ||| second >>> 4]) ∨
        ∃ third, base64Digit c = some third ∧
          ((d = padByte ∧ rest = [] ∧ third.toNat % 4 = 0 ∧
              octets = [first <<< 2 ||| second >>> 4, second <<< 4 ||| third >>> 2]) ∨
            ∃ fourth tail, base64Digit d = some fourth ∧ decodeGroups rest = some tail ∧
              octets = (first <<< 2 ||| second >>> 4) :: (second <<< 4 ||| third >>> 2) ::
                (third <<< 6 ||| fourth) :: tail)) := by
  rw [decodeGroups] at h
  obtain ⟨first, hfirst, h⟩ := Option.bind_eq_some_iff.1 h
  obtain ⟨second, hsecond, h⟩ := Option.bind_eq_some_iff.1 h
  refine ⟨first, second, hfirst, hsecond, ?_⟩
  by_cases hc : c = padByte
  · left
    simp only [if_pos hc] at h
    split at h
    · cases h
    · next hok =>
      rw [not_or, not_or, unused_four, not_not, not_not, not_not] at hok
      exact ⟨hc, hok.2.1, hok.1, hok.2.2, (Option.some.inj h).symm⟩
  · right
    simp only [if_neg hc] at h
    obtain ⟨third, hthird, h⟩ := Option.bind_eq_some_iff.1 h
    refine ⟨third, hthird, ?_⟩
    by_cases hd : d = padByte
    · left
      simp only [if_pos hd] at h
      split at h
      · cases h
      · next hok =>
        rw [not_or, unused_two, not_not, not_not] at hok
        exact ⟨hd, hok.1, hok.2, (Option.some.inj h).symm⟩
    · right
      simp only [if_neg hd] at h
      obtain ⟨fourth, hfourth, h⟩ := Option.bind_eq_some_iff.1 h
      obtain ⟨tail, htail, h⟩ := Option.bind_eq_some_iff.1 h
      exact ⟨fourth, tail, hfourth, htail, (Option.some.inj h).symm⟩

theorem alphabetAt_eq {index digit : UInt8} (h : index.toNat = digit.toNat) :
    alphabetAt index = alphabetAt digit := by rw [UInt8.toNat_inj.1 h]

/-- The bytes that are decoded are those of the text the octets are encoded to. -/
theorem encode_decodeGroups {bs octets : List UInt8} (h : decodeGroups bs = some octets) :
    bs = (encodeBytesWire octets).map byteOf := by
  induction bs using decodeGroups.induct generalizing octets with
  | case1 => rw [← Option.some.inj h]; rfl
  | case2 a b c d rest ih =>
    obtain ⟨first, second, ha, hb, hgroup⟩ := decodeGroups_cases _ h
    have hfirst := (base64Digit_lt ha).1
    have hsecond := (base64Digit_lt hb).1
    have hoctet : ((first <<< 2 ||| second >>> 4) >>> 2).toNat = first.toNat := by
      rw [toNat_first, toNat_high _ _ hsecond]
      omega
    obtain ⟨rfl, rfl, rfl, hunused, rfl⟩ | ⟨third, hc, hgroup⟩ := hgroup
    · have hlast : (((first <<< 2 ||| second >>> 4) &&& 0x03) <<< 4 ||| (0 : UInt8) >>> 4).toNat =
          second.toNat := by
        rw [toNat_second, toNat_high _ _ hsecond, UInt8.toNat_zero]
        omega
      have hgroup : encodeBytesWire [first <<< 2 ||| second >>> 4] =
          [alphabetAt first, alphabetAt second, '=', '='] := by
        rw [← alphabetAt_eq hoctet, ← alphabetAt_eq hlast]
        rfl
      rw [hgroup, byte_eq ha, byte_eq hb]
      rfl
    · have hthird := (base64Digit_lt hc).1
      have hmiddle : (((first <<< 2 ||| second >>> 4) &&& 0x03) <<< 4 |||
          (second <<< 4 ||| third >>> 2) >>> 4).toNat = second.toNat := by
        rw [toNat_second, toNat_high _ _ hsecond, toNat_middle _ _ hthird]
        omega
      obtain ⟨rfl, rfl, hunused, rfl⟩ | ⟨fourth, tail, hd, htail, rfl⟩ := hgroup
      · have hlast : (((second <<< 4 ||| third >>> 2) &&& 0x0f) <<< 2 |||
            (0 : UInt8) >>> 6).toNat = third.toNat := by
          rw [toNat_third, toNat_middle _ _ hthird, UInt8.toNat_zero]
          omega
        have hgroup : encodeBytesWire [first <<< 2 ||| second >>> 4, second <<< 4 ||| third >>> 2] =
            [alphabetAt first, alphabetAt second, alphabetAt third, '='] := by
          rw [← alphabetAt_eq hoctet, ← alphabetAt_eq hmiddle, ← alphabetAt_eq hlast]
          rfl
        rw [hgroup, byte_eq ha, byte_eq hb, byte_eq hc]
        rfl
      · have hfourth := (base64Digit_lt hd).1
        have hnext : (((second <<< 4 ||| third >>> 2) &&& 0x0f) <<< 2 |||
            (third <<< 6 ||| fourth) >>> 6).toNat = third.toNat := by
          rw [toNat_third, toNat_middle _ _ hthird, toNat_low _ _ hfourth]
          omega
        have hlast : ((third <<< 6 ||| fourth) &&& 0x3f).toNat = fourth.toNat := by
          rw [toNat_fourth, toNat_low _ _ hfourth]
          omega
        have hgroup : encodeBytesWire ((first <<< 2 ||| second >>> 4) ::
            (second <<< 4 ||| third >>> 2) :: (third <<< 6 ||| fourth) :: tail) =
            [alphabetAt first, alphabetAt second, alphabetAt third, alphabetAt fourth] ++
              encodeBytesWire tail := by
          rw [← alphabetAt_eq hoctet, ← alphabetAt_eq hmiddle, ← alphabetAt_eq hnext,
            ← alphabetAt_eq hlast]
          rfl
        rw [hgroup, List.map_append, ← ih htail, byte_eq ha, byte_eq hb, byte_eq hc, byte_eq hd]
        rfl
  | case3 bs hnil hcons =>
    rw [decodeGroups] at h
    · cases h
    · exact hnil
    · exact hcons

theorem ascii_of_bytes {text : List Char} (h : ∀ x ∈ bytes text, x.toNat < 128) :
    ∀ c ∈ text, c.utf8Size = 1 := by
  intro c hc
  have hmem : ∀ x ∈ String.utf8EncodeChar c, x ∈ bytes text :=
    fun x hx => List.mem_flatMap.2 ⟨c, hc, hx⟩
  have hne : String.utf8EncodeChar c ≠ [] := by
    have hlength := String.length_utf8EncodeChar c
    have hpos := c.utf8Size_pos
    rintro hnil
    rw [hnil, List.length_nil] at hlength
    omega
  obtain ⟨x, xs, hcons⟩ := List.exists_cons_of_ne_nil hne
  have hx : x ∈ String.utf8EncodeChar c := by rw [hcons]; exact List.mem_cons_self ..
  exact (ByteText.byte_of_char hx (h x (hmem x hx))).1

theorem byteOf_inj {cs ds : List Char} (hc : ∀ c ∈ cs, c.utf8Size = 1)
    (hd : ∀ d ∈ ds, d.utf8Size = 1) (h : cs.map byteOf = ds.map byteOf) : cs = ds := by
  induction cs generalizing ds with
  | nil => exact (List.map_eq_nil_iff.1 h.symm).symm
  | cons c cs ih =>
    cases ds with
    | nil => cases h
    | cons d ds =>
      rw [List.forall_mem_cons] at hc hd
      rw [List.map_cons, List.map_cons, List.cons.injEq] at h
      rw [ByteText.toUInt8_inj hc.1 hd.1 h.1, ih hc.2 hd.2 h.2]

theorem byteOf_lt {c : Char} (h : c.utf8Size = 1) : (byteOf c).toNat < 128 := by
  have hle := UInt32.le_iff_toNat_le.1 (Char.utf8Size_eq_one_iff.1 h)
  have hval : (byteOf c).toNat = c.val.toNat % 256 := UInt32.toNat_toUInt8 _
  have hbound : c.val.toNat ≤ 127 := hle
  omega

theorem encode_decode {text : List Char} {octets : List UInt8}
    (h : decodeBytesWire text = some octets) : encodeBytesWire octets = text := by
  rw [decodeBytesWire] at h
  split at h
  · cases h
  · have hbytes := encode_decodeGroups h
    obtain ⟨hascii, -⟩ := encodeBytesWire_ascii octets
    have htext : ∀ c ∈ text, c.utf8Size = 1 := by
      apply ascii_of_bytes
      intro x hx
      rw [hbytes] at hx
      obtain ⟨c, hc, rfl⟩ := List.mem_map.1 hx
      exact byteOf_lt (hascii c hc)
    rw [bytes_ascii htext] at hbytes
    exact byteOf_inj hascii htext hbytes.symm

/-! ### The texts of base64 -/

/-- Digits and then at most two padding characters, in whole groups. -/
structure Spelled (digits : List UInt8) (padding : ℕ) (text : List Char) : Prop where
  lt : ∀ digit ∈ digits, digit.toNat < 64
  padding_le : padding ≤ 2
  whole : text.length % 4 = 0
  eq : text = digits.map alphabetAt ++ List.replicate padding '='

/-- Some of the bits of the last digit are not of an octet, and one of them is set. -/
def UnusedBits (text : List Char) : Prop :=
  ∃ digits last padding, Spelled (digits ++ [last]) padding text ∧ last.toNat % 4 ^ padding ≠ 0

theorem unit_of_digit {u : ℕ} (h : isDigitUnit u = true) :
    ∃ digit : UInt8, digit.toNat < 64 ∧ (alphabetAt digit).toNat = u := by
  have hu : u < 256 := by
    rw [isDigitUnit] at h
    simp only [Bool.or_eq_true, Bool.and_eq_true, decide_eq_true_eq, beq_iff_eq] at h
    omega
  have hbyte : (UInt8.ofNat u).toNat = u := by
    rw [UInt8.toNat_ofNat']
    omega
  rw [← hbyte, isDigitUnit_iff] at h
  obtain ⟨digit, hdigit⟩ := Option.isSome_iff_exists.1 h
  have hlt := (base64Digit_lt hdigit).1
  refine ⟨digit, hlt, ?_⟩
  have hone := Char.utf8Size_eq_one_iff.1 (base64Digit_alphabetAt digit hlt).1
  have hle : (alphabetAt digit).toNat ≤ 127 := UInt32.le_iff_toNat_le.1 hone
  have hmod : ((alphabetAt digit).val.toUInt8).toNat = (alphabetAt digit).toNat % 256 :=
    UInt32.toNat_toUInt8 _
  rw [byte_eq hdigit] at hbyte
  omega

theorem digit_unit {digit : UInt8} (h : digit.toNat < 64) :
    (alphabetAt digit).toNat < 128 ∧ isDigitUnit (alphabetAt digit).toNat = true := by
  obtain ⟨hone, -, hdigit⟩ := base64Digit_alphabetAt digit h
  have hle : (alphabetAt digit).toNat ≤ 127 :=
    UInt32.le_iff_toNat_le.1 (Char.utf8Size_eq_one_iff.1 hone)
  have hmod : ((alphabetAt digit).val.toUInt8).toNat = (alphabetAt digit).toNat % 256 :=
    UInt32.toNat_toUInt8 _
  have hunit : isDigitUnit ((alphabetAt digit).val.toUInt8).toNat = true := by
    rw [isDigitUnit_iff, hdigit]
    rfl
  rw [hmod, Nat.mod_eq_of_lt (by omega)] at hunit
  exact ⟨by omega, hunit⟩

theorem digits_of_units {units : List ℕ} (h : ∀ u ∈ units, isDigitUnit u = true) :
    ∃ digits : List UInt8, (∀ digit ∈ digits, digit.toNat < 64) ∧
      (digits.map alphabetAt).map Char.toNat = units := by
  induction units with
  | nil => exact ⟨[], fun digit hdigit => absurd hdigit List.not_mem_nil, rfl⟩
  | cons u units ih =>
    rw [List.forall_mem_cons] at h
    obtain ⟨digit, hlt, hunit⟩ := unit_of_digit h.1
    obtain ⟨digits, hdigits, hunits⟩ := ih h.2
    exact ⟨digit :: digits, List.forall_mem_cons.2 ⟨hlt, hdigits⟩, by
      rw [List.map_cons, List.map_cons, hunit, hunits]⟩

theorem found_digitsAndPadding (value : List ℕ) : Found digitsAndPadding value ↔
    ∃ run padding, (∀ u ∈ run, isDigitUnit u = true) ∧ padding ≤ 2 ∧
      value = run ++ List.replicate padding 61 := by
  rw [digitsAndPadding, found_start]
  simp only [leads_seqs_cons, leads_star_set, leads_opt, leads_lit]
  constructor
  · rintro ⟨t, s, ⟨run, hrun, rfl⟩, u, hu, v, hv, w, hend⟩
    obtain ⟨rfl, -⟩ := leads_finish.1 ⟨w, hend⟩
    obtain rfl | rfl := hu
    · obtain rfl | rfl := hv
      · exact ⟨run, 2, hrun, le_rfl, rfl⟩
      · exact ⟨run, 1, hrun, by omega, rfl⟩
    · obtain rfl | rfl := hv
      · exact ⟨run, 1, hrun, by omega, rfl⟩
      · exact ⟨run, 0, hrun, by omega, rfl⟩
  · rintro ⟨run, padding, hrun, hle, rfl⟩
    have hcases : padding = 0 ∨ padding = 1 ∨ padding = 2 := by omega
    have hend : ∀ whole : List ℕ, Leads whole (seqs [.finish]) [] [] :=
      fun whole => leads_finish.2 ⟨rfl, rfl⟩
    obtain rfl | rfl | rfl := hcases
    · exact ⟨[], [], ⟨run, hrun, rfl⟩, [], .inr rfl, [], .inr rfl, hend _⟩
    · exact ⟨[], [61], ⟨run, hrun, rfl⟩, [], .inl rfl, [], .inr rfl, hend _⟩
    · exact ⟨[], [61, 61], ⟨run, hrun, rfl⟩, [61], .inl rfl, [], .inl rfl, hend _⟩

theorem not_strayPadding {run : List ℕ} {padding : ℕ} (hrun : ∀ u ∈ run, isDigitUnit u = true) :
    ¬ Found strayPadding (run ++ List.replicate padding 61) := by
  rintro ⟨s, t, hs, hleads⟩
  obtain ⟨u, hu, v, hv, -⟩ := hleads
  rw [leads_lit] at hu
  obtain ⟨c, hc, rfl⟩ := hv
  obtain ⟨front, hfront⟩ := hs
  rw [hu] at hfront
  have hpad : ∀ u ∈ List.replicate padding 61, u = 61 := fun u hu => List.eq_of_mem_replicate hu
  have hc61 : c ≠ 61 := by simpa using hc
  obtain ⟨more, hmore, htail⟩ | ⟨more, hmore, htail⟩ := List.append_eq_append_iff.1 hfront
  · cases more with
    | nil =>
      rw [List.nil_append] at htail
      exact hc61 (hpad c (by rw [← htail]; simp))
    | cons x more =>
      rw [List.cons_append, List.cons.injEq] at htail
      have hx := hrun x (by rw [hmore]; simp)
      rw [← htail.1] at hx
      exact absurd hx (by decide)
  · exact hc61 (hpad c (by rw [htail]; simp))

theorem Spelled.ascii {digits : List UInt8} {padding : ℕ} {text : List Char}
    (h : Spelled digits padding text) : IsAscii text := by
  intro c hc
  rw [h.eq, List.mem_append, List.mem_map] at hc
  obtain ⟨digit, hdigit, rfl⟩ | hc := hc
  · exact (digit_unit (h.lt digit hdigit)).1
  · rw [List.eq_of_mem_replicate hc]
    decide

theorem Spelled.units {digits : List UInt8} {padding : ℕ} {text : List Char}
    (h : Spelled digits padding text) : codeUnits text =
      (digits.map alphabetAt).map Char.toNat ++ List.replicate padding 61 := by
  rw [SemanticIr.codeUnits_ascii h.ascii, h.eq, List.map_append, List.map_replicate]
  rfl

theorem isBase64_iff (value : List ℕ) : IsBase64 value ↔
    ∃ text digits padding, codeUnits text = value ∧ Spelled digits padding text := by
  constructor
  · rintro ⟨hwhole, hfound, -⟩
    obtain ⟨run, padding, hrun, hle, rfl⟩ := (found_digitsAndPadding value).1 hfound
    obtain ⟨digits, hdigits, rfl⟩ := digits_of_units hrun
    rw [List.length_append, List.length_map, List.length_replicate] at hwhole
    have hspelled : Spelled digits padding
        (digits.map alphabetAt ++ List.replicate padding '=') :=
      ⟨hdigits, hle, by rwa [List.length_append, List.length_replicate], rfl⟩
    exact ⟨_, digits, padding, hspelled.units, hspelled⟩
  · rintro ⟨text, digits, padding, rfl, hspelled⟩
    have hrun : ∀ u ∈ (digits.map alphabetAt).map Char.toNat, isDigitUnit u = true := by
      intro u hu
      rw [List.map_map, List.mem_map] at hu
      obtain ⟨digit, hdigit, rfl⟩ := hu
      exact (digit_unit (hspelled.lt digit hdigit)).2
    have hwhole := hspelled.whole
    have hunits := hspelled.units
    refine ⟨?_, ?_, ?_⟩
    · rwa [SemanticIr.codeUnits_ascii hspelled.ascii, List.length_map]
    · rw [hunits, found_digitsAndPadding]
      exact ⟨_, padding, hrun, hspelled.padding_le, rfl⟩
    · rw [hunits]
      exact not_strayPadding hrun

/-! ### How many octets a text has -/

theorem decodeGroups_digits {digits : List UInt8} (h : ∀ digit ∈ digits, digit.toNat < 64) {n : ℕ}
    (hn : digits.length = 4 * n) : ∃ octets : List UInt8, octets.length = 3 * n ∧ ∀ tail,
      decodeGroups ((digits.map alphabetAt).map byteOf ++ tail) =
        (decodeGroups tail).map fun more => octets ++ more := by
  induction n generalizing digits with
  | zero =>
    rw [List.length_eq_zero_iff.1 hn]
    exact ⟨[], rfl, fun tail => by simp⟩
  | succ n ih =>
    obtain ⟨a, b, c, d, rest, rfl⟩ : ∃ a b c d rest, digits = a :: b :: c :: d :: rest := by
      rcases digits with _ | ⟨a, _ | ⟨b, _ | ⟨c, _ | ⟨d, rest⟩⟩⟩⟩
      · exact absurd hn (by simp)
      · exact absurd hn (by simp only [List.length_cons, List.length_nil]; omega)
      · exact absurd hn (by simp only [List.length_cons, List.length_nil]; omega)
      · exact absurd hn (by simp only [List.length_cons, List.length_nil]; omega)
      · exact ⟨a, b, c, d, rest, rfl⟩
    simp only [List.forall_mem_cons] at h
    obtain ⟨ha, hb, hc, hd, hrest⟩ := h
    have hlength : rest.length = 4 * n := by
      simp only [List.length_cons] at hn
      omega
    obtain ⟨octets, hoctets, hdecode⟩ := ih hrest hlength
    refine ⟨(a <<< 2 ||| b >>> 4) :: (b <<< 4 ||| c >>> 2) :: (c <<< 6 ||| d) :: octets, ?_, ?_⟩
    · simp only [List.length_cons, hoctets]
      omega
    · intro tail
      have hfull := decodeGroups_full ((rest.map alphabetAt).map byteOf ++ tail)
        (base64Digit_alphabetAt a ha).2.2 (base64Digit_alphabetAt b hb).2.2
        (base64Digit_alphabetAt c hc).2.2 (base64Digit_alphabetAt d hd).2.2
      rw [hdecode tail, Option.map_map] at hfull
      exact hfull

theorem Spelled.split {digits : List UInt8} {padding : ℕ} {text : List Char}
    (h : Spelled digits padding text) : ∃ n front back, digits = front ++ back ∧
      front.length = 4 * n ∧ text.length = 4 * n + back.length + padding ∧
        (back = [] ∧ padding = 0 ∨ (∃ a b c, back = [a, b, c]) ∧ padding = 1 ∨
          (∃ a b, back = [a, b]) ∧ padding = 2) := by
  have hwhole := h.whole
  have hle := h.padding_le
  have htext : text.length = digits.length + padding := by
    rw [h.eq, List.length_append, List.length_map, List.length_replicate]
  have hback : (digits.drop (4 * (digits.length / 4))).length = digits.length % 4 := by
    rw [List.length_drop]
    omega
  refine ⟨digits.length / 4, digits.take (4 * (digits.length / 4)),
    digits.drop (4 * (digits.length / 4)), (List.take_append_drop _ _).symm, ?_, ?_, ?_⟩
  · rw [List.length_take]
    omega
  · omega
  · rw [htext] at hwhole
    generalize digits.drop (4 * (digits.length / 4)) = back at hback
    have hcases : digits.length % 4 = 0 ∧ padding = 0 ∨ digits.length % 4 = 3 ∧ padding = 1 ∨
        digits.length % 4 = 2 ∧ padding = 2 := by omega
    obtain ⟨hmod, hpadding⟩ | ⟨hmod, hpadding⟩ | ⟨hmod, hpadding⟩ := hcases
    · exact .inl ⟨List.length_eq_zero_iff.1 (by rw [hback, hmod]), hpadding⟩
    · exact .inr (.inl ⟨List.length_eq_three.1 (by rw [hback, hmod]), hpadding⟩)
    · exact .inr (.inr ⟨List.length_eq_two.1 (by rw [hback, hmod]), hpadding⟩)

theorem decode_spelled {digits : List UInt8} {padding : ℕ} {text : List Char}
    (h : Spelled digits padding text) :
    (∃ octets, decodeBytesWire text = some octets ∧ octets.length + padding = text.length / 4 * 3 ∧
        ∀ front last, digits = front ++ [last] → last.toNat % 4 ^ padding = 0) ∨
      decodeBytesWire text = none ∧
        ∃ front last, digits = front ++ [last] ∧ last.toNat % 4 ^ padding ≠ 0 := by
  obtain ⟨n, front, back, rfl, hfront, hlength, hback⟩ := h.split
  have hlt := h.lt
  rw [List.forall_mem_append] at hlt
  obtain ⟨octets, hoctets, hdecode⟩ := decodeGroups_digits hlt.1 hfront
  have hascii : ∀ c ∈ text, c.utf8Size = 1 := by
    intro c hc
    have hc := h.ascii c hc
    exact Char.utf8Size_eq_one_iff.2 (UInt32.le_iff_toNat_le.2 (Nat.le_of_lt_succ hc))
  have htext : decodeBytesWire text = (decodeGroups ((back.map alphabetAt).map byteOf ++
      List.replicate padding padByte)).map fun more => octets ++ more := by
    have hwhole := h.whole
    rw [decodeBytesWire, bytes_ascii hascii, List.length_map, if_neg (not_not.2 hwhole), h.eq,
      ← hdecode, List.map_append, List.map_append, List.map_append, List.map_replicate,
      List.append_assoc]
    rfl
  obtain ⟨rfl, rfl⟩ | ⟨⟨a, b, c, rfl⟩, rfl⟩ | ⟨⟨a, b, rfl⟩, rfl⟩ := hback
  · left
    refine ⟨octets, ?_, ?_, fun _ last _ => by rw [pow_zero, Nat.mod_one]⟩
    · rw [htext]
      exact congrArg some (List.append_nil octets)
    · rw [hlength, List.length_nil]
      omega
  · simp only [List.forall_mem_cons] at hlt
    obtain ⟨-, ha, hb, hc, -⟩ := hlt
    have hgroup := decodeGroups_two [] (base64Digit_alphabetAt a ha).2.2
      (base64Digit_alphabetAt b hb).2.2 (base64Digit_alphabetAt c hc).2.2
    have hlast : front ++ [a, b, c] = (front ++ [a, b]) ++ [c] := by simp
    have hgroup' : decodeBytesWire text = _ := htext.trans (congrArg _ hgroup)
    by_cases hunused : c.toNat % 4 = 0
    · left
      rw [if_neg (by simp only [unused_two, hunused]; simp)] at hgroup'
      refine ⟨_, hgroup', ?_, ?_⟩
      · simp only [List.length_append, List.length_cons, List.length_nil, hoctets, hlength]
        omega
      · intro before last heq
        rw [hlast] at heq
        have hsame := (List.append_inj' heq rfl).2
        rw [← (List.cons.inj hsame).1, pow_one, hunused]
    · right
      rw [if_pos (.inr ((unused_two c).2 hunused))] at hgroup'
      exact ⟨hgroup', _, c, hlast, by rwa [pow_one]⟩
  · simp only [List.forall_mem_cons] at hlt
    obtain ⟨-, ha, hb, -⟩ := hlt
    have hgroup := decodeGroups_one (d := padByte) [] (base64Digit_alphabetAt a ha).2.2
      (base64Digit_alphabetAt b hb).2.2
    have hlast : front ++ [a, b] = (front ++ [a]) ++ [b] := by simp
    have hgroup' : decodeBytesWire text = _ := htext.trans (congrArg _ hgroup)
    by_cases hunused : b.toNat % 16 = 0
    · left
      rw [if_neg (by simp only [unused_four, hunused]; simp)] at hgroup'
      refine ⟨_, hgroup', ?_, ?_⟩
      · simp only [List.length_append, List.length_cons, List.length_nil, hoctets, hlength]
        omega
      · intro before last heq
        rw [hlast] at heq
        have hsame := (List.append_inj' heq rfl).2
        rw [← (List.cons.inj hsame).1]
        exact hunused
    · right
      rw [if_pos (.inr (.inr ((unused_four b).2 hunused)))] at hgroup'
      exact ⟨hgroup', _, b, hlast, hunused⟩

theorem encode_spelled (octets : List UInt8) :
    ∃ digits padding, Spelled digits padding (encodeBytesWire octets) := by
  have hfirst : ∀ x : UInt8, (x >>> 2).toNat < 64 := by
    intro x
    have hx := x.toNat_lt
    rw [toNat_first]
    omega
  have hsecond : ∀ x y : UInt8, ((x &&& 0x03) <<< 4 ||| y >>> 4).toNat < 64 := by
    intro x y
    have hy := y.toNat_lt
    rw [toNat_second]
    omega
  have hthird : ∀ y z : UInt8, ((y &&& 0x0f) <<< 2 ||| z >>> 6).toNat < 64 := by
    intro y z
    have hz := z.toNat_lt
    rw [toNat_third]
    omega
  have hfourth : ∀ z : UInt8, (z &&& 0x3f).toNat < 64 := by
    intro z
    rw [toNat_fourth]
    omega
  induction octets using encodeBytesWire.induct with
  | case1 => exact ⟨[], 0, fun digit h => absurd h List.not_mem_nil, by omega, rfl, rfl⟩
  | case2 a =>
    refine ⟨[a >>> 2, (a &&& 0x03) <<< 4 ||| (0 : UInt8) >>> 4], 2, ?_, by omega,
      (encodeBytesWire_ascii [a]).2, rfl⟩
    simp only [List.forall_mem_cons]
    exact ⟨hfirst a, hsecond a 0, fun digit h => absurd h List.not_mem_nil⟩
  | case3 a b =>
    refine ⟨[a >>> 2, (a &&& 0x03) <<< 4 ||| b >>> 4, (b &&& 0x0f) <<< 2 ||| (0 : UInt8) >>> 6], 1,
      ?_, by omega, (encodeBytesWire_ascii [a, b]).2, rfl⟩
    simp only [List.forall_mem_cons]
    exact ⟨hfirst a, hsecond a b, hthird b 0, fun digit h => absurd h List.not_mem_nil⟩
  | case4 a b c rest ih =>
    obtain ⟨digits, padding, h⟩ := ih
    have hwhole := (encodeBytesWire_ascii (a :: b :: c :: rest)).2
    refine ⟨(a >>> 2) :: ((a &&& 0x03) <<< 4 ||| b >>> 4) :: ((b &&& 0x0f) <<< 2 ||| c >>> 6) ::
      (c &&& 0x3f) :: digits, padding, ?_, h.padding_le, hwhole, ?_⟩
    · simp only [List.forall_mem_cons]
      exact ⟨hfirst a, hsecond a b, hthird b c, hfourth c, h.lt⟩
    · rw [encodeBytesWire, h.eq]
      rfl

theorem decode_isSome_iff (text : List Char) : (decodeBytesWire text).isSome = true ↔
    (∃ digits padding, Spelled digits padding text) ∧ ¬ UnusedBits text := by
  constructor
  · intro h
    obtain ⟨octets, hoctets⟩ := Option.isSome_iff_exists.1 h
    obtain ⟨digits, padding, hspelled⟩ := encode_spelled octets
    rw [encode_decode hoctets] at hspelled
    refine ⟨⟨digits, padding, hspelled⟩, ?_⟩
    rintro ⟨front, last, padding', hlast, hunused⟩
    obtain ⟨-, -, -, hzero⟩ | ⟨hnone, -⟩ := decode_spelled hlast
    · exact hunused (hzero front last rfl)
    · rw [hoctets] at hnone
      cases hnone
  · rintro ⟨⟨digits, padding, hspelled⟩, hused⟩
    obtain ⟨octets, hoctets, -, -⟩ | ⟨-, front, last, rfl, hunused⟩ := decode_spelled hspelled
    · rw [hoctets]
      rfl
    · exact absurd ⟨front, last, padding, hspelled, hunused⟩ hused

/-! ### The length that is constrained -/

instance (value : List ℕ) : Decidable (IsBase64 value) :=
  decidable_of_iff (value.length % 4 = 0 ∧
      (value.dropWhile isDigitUnit).length ≤ 2 ∧ ∀ u ∈ value.dropWhile isDigitUnit, u = 61) <| by
    constructor
    · rintro ⟨hwhole, hle, hpad⟩
      have hrun : ∀ u ∈ value.takeWhile isDigitUnit, isDigitUnit u = true :=
        fun u hu => List.mem_takeWhile_imp hu
      have hvalue : value.takeWhile isDigitUnit ++
          List.replicate (value.dropWhile isDigitUnit).length 61 = value := by
        rw [← List.eq_replicate_iff.2 ⟨rfl, hpad⟩, List.takeWhile_append_dropWhile]
      refine ⟨hwhole, (found_digitsAndPadding value).2 ⟨_, _, hrun, hle, hvalue.symm⟩, ?_⟩
      rw [← hvalue]
      exact not_strayPadding hrun
    · rintro ⟨hwhole, hfound, -⟩
      obtain ⟨run, padding, hrun, hle, rfl⟩ := (found_digitsAndPadding value).1 hfound
      have hdrop : (run ++ List.replicate padding 61).dropWhile isDigitUnit =
          List.replicate padding 61 := by
        rw [List.dropWhile_append_of_pos hrun]
        cases padding <;> rfl
      rw [hdrop, List.length_replicate]
      exact ⟨hwhole, hle, fun u hu => List.eq_of_mem_replicate hu⟩

/-- `value.endsWith("==") ? 2 : value.endsWith("=") ? 1 : 0`. -/
def endPadding (value : List ℕ) : ℕ :=
  if [61, 61] <:+ value then 2 else if [61] <:+ value then 1 else 0

def base64OctetLength (value : List ℕ) : ℤ :=
  if ¬ IsBase64 value then -1 else value.length / 4 * 3 - endPadding value

theorem endPadding_replicate {run : List ℕ} {padding : ℕ} (hle : padding ≤ 2) (hrun : 61 ∉ run) :
    endPadding (run ++ List.replicate padding 61) = padding := by
  have hone : ¬ [61] <:+ run := fun h => hrun (h.mem (List.mem_singleton_self 61))
  have hcases : padding = 0 ∨ padding = 1 ∨ padding = 2 := by omega
  obtain rfl | rfl | rfl := hcases
  · have htwo : ¬ [61, 61] <:+ run := fun h => hrun (h.mem (List.mem_cons_self ..))
    rw [List.replicate_zero, List.append_nil, endPadding, if_neg htwo, if_neg hone]
  · have htwo : ¬ [61, 61] <:+ run ++ List.replicate 1 61 := by
      rintro ⟨front, hfront⟩
      have hsplit : (front ++ [61]) ++ [61] = run ++ [61] := by
        rw [List.append_assoc]
        exact hfront
      have hlast := (List.append_inj' hsplit rfl).1
      exact hrun (by rw [← hlast]; simp)
    rw [endPadding, if_neg htwo, if_pos ⟨run, rfl⟩]
  · rw [endPadding, if_pos ⟨run, rfl⟩]

theorem Spelled.octetLength {digits : List UInt8} {padding : ℕ} {text : List Char}
    (h : Spelled digits padding text) :
    base64OctetLength (codeUnits text) = text.length / 4 * 3 - padding := by
  have hvalid := (isBase64_iff (codeUnits text)).2 ⟨text, digits, padding, rfl, h⟩
  have hrun : 61 ∉ (digits.map alphabetAt).map Char.toNat := by
    intro hmem
    rw [List.map_map, List.mem_map] at hmem
    obtain ⟨digit, hdigit, heq⟩ := hmem
    have hunit := (digit_unit (h.lt digit hdigit)).2
    rw [show (alphabetAt digit).toNat = 61 from heq] at hunit
    exact absurd hunit (by decide)
  have hlength : (codeUnits text).length = text.length := by
    rw [SemanticIr.codeUnits_ascii h.ascii, List.length_map]
  rw [base64OctetLength, if_neg (not_not.2 hvalid), hlength, h.units,
    endPadding_replicate h.padding_le hrun]

/-! ### The two packages -/

/-- The two packages agree on a text, and what one of them decodes it encodes to the same text. -/
structure Agree (text : List Char) : Prop where
  respelled : ∀ octets, decodeBytesWire text = some octets → encodeBytesWire octets = text
  accepts : IsBase64 (codeUnits text) ↔ (decodeBytesWire text).isSome = true
  length : ∀ octets, decodeBytesWire text = some octets →
    base64OctetLength (codeUnits text) = octets.length

/-- Every octets are decoded from what they are encoded to; the packages agree on a text exactly
when it is not base64 with a bit set that no octet uses. -/
theorem bytes_agree_iff (text : List Char) :
    ((∀ octets, decodeBytesWire (encodeBytesWire octets) = some octets) ∧ Agree text) ↔
      ¬ UnusedBits text := by
  constructor
  · rintro ⟨-, h⟩ hunused
    obtain ⟨digits, last, padding, hspelled, -⟩ := id hunused
    have hvalid := (isBase64_iff (codeUnits text)).2 ⟨text, _, padding, rfl, hspelled⟩
    exact ((decode_isSome_iff text).1 (h.accepts.1 hvalid)).2 hunused
  · intro hused
    refine ⟨decode_encode, fun octets => encode_decode, ?_, ?_⟩
    · rw [decode_isSome_iff, isBase64_iff]
      constructor
      · rintro ⟨text', digits, padding, hunits, hspelled⟩
        rw [Packages.codeUnits_injective hunits] at hspelled
        exact ⟨⟨digits, padding, hspelled⟩, hused⟩
      · rintro ⟨⟨digits, padding, hspelled⟩, -⟩
        exact ⟨text, digits, padding, rfl, hspelled⟩
    · intro octets hoctets
      have hsome : (decodeBytesWire text).isSome = true := by
        rw [hoctets]
        rfl
      obtain ⟨⟨digits, padding, hspelled⟩, -⟩ := (decode_isSome_iff text).1 hsome
      rw [hspelled.octetLength]
      obtain ⟨octets', hoctets', hlength, -⟩ | ⟨hnone, -⟩ := decode_spelled hspelled
      · rw [Option.some.inj (hoctets.symm.trans hoctets')]
        omega
      · rw [hoctets] at hnone
        cases hnone

/-- The second digit of `AB==` has a bit set that the octet does not use. -/
theorem bytes_disagree : IsBase64 (codeUnits "AB==".toList) ∧
    base64OctetLength (codeUnits "AB==".toList) = 1 ∧ decodeBytesWire "AB==".toList = none ∧
      ¬ Agree "AB==".toList := by
  have hvalid : IsBase64 (codeUnits "AB==".toList) := by decide
  have hnone : decodeBytesWire "AB==".toList = none := by decide
  refine ⟨hvalid, by decide, hnone, ?_⟩
  intro h
  have hsome := h.accepts.1 hvalid
  rw [hnone] at hsome
  cases hsome

end FilamentCore.Backends.BytesWire
