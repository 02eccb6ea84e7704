import Mathlib

/-!
# Texts read by byte offsets

A text is its characters, and an offset counts the bytes of their encodings. An offset inside a
character splits nothing.
-/

namespace FilamentCore.Library.ByteText

def bytes (cs : List Char) : List UInt8 := cs.flatMap String.utf8EncodeChar

def splitAt (offset : ℕ) : List Char → Option (List Char × List Char)
  | [] => if offset = 0 then some ([], []) else none
  | c :: cs =>
    if offset = 0 then some ([], c :: cs)
    else if offset < c.utf8Size then none
    else (splitAt (offset - c.utf8Size) cs).map fun parts => (c :: parts.1, parts.2)

/-- `&text[start..stop]`, when both offsets are between characters. -/
def slice (cs : List Char) (start stop : ℕ) : Option (List Char) := do
  let head ← splitAt stop cs
  let parts ← splitAt start head.1
  some parts.2

/-! ### Lengths -/

@[simp] theorem bytes_nil : bytes [] = [] := rfl

@[simp] theorem bytes_append (a b : List Char) : bytes (a ++ b) = bytes a ++ bytes b :=
  List.flatMap_append

theorem bytes_cons (c : Char) (cs : List Char) :
    bytes (c :: cs) = String.utf8EncodeChar c ++ bytes cs := List.flatMap_cons

theorem length_bytes_cons (c : Char) (cs : List Char) :
    (bytes (c :: cs)).length = c.utf8Size + (bytes cs).length := by
  rw [bytes_cons, List.length_append, String.length_utf8EncodeChar]

/-! ### Splitting -/

theorem splitAt_iff {n : ℕ} {cs a b : List Char} :
    splitAt n cs = some (a, b) ↔ cs = a ++ b ∧ (bytes a).length = n := by
  induction cs generalizing n a with
  | nil =>
    rw [splitAt]
    constructor
    · intro h
      split at h
      · rename_i hn
        cases h
        exact ⟨rfl, hn.symm⟩
      · cases h
    · intro h
      obtain ⟨ha, hb⟩ := List.append_eq_nil_iff.1 h.1.symm
      rw [ha, bytes_nil, List.length_nil] at h
      rw [ha, hb, if_pos h.2.symm]
  | cons c cs ih =>
    rw [splitAt]
    cases a with
    | nil =>
      split
      · rename_i hn
        simp [hn, eq_comm]
      · rename_i hn
        refine iff_of_false ?_ fun h => hn h.2.symm
        split <;> simp
    | cons x a =>
      have hlength := length_bytes_cons x a
      split
      · rename_i hn
        refine iff_of_false (by simp) fun h => ?_
        have := x.utf8Size_pos
        omega
      · split
        · rename_i hlt
          refine iff_of_false (by simp) fun h => ?_
          obtain ⟨hcs, hn⟩ := h
          rw [List.cons_append, List.cons.injEq] at hcs
          rw [hcs.1] at hlt
          omega
        · rename_i hge
          rw [Option.map_eq_some_iff]
          constructor
          · rintro ⟨parts, hparts, heq⟩
            cases heq
            obtain ⟨hcs, hn⟩ := ih.1 hparts
            refine ⟨by rw [List.cons_append, ← hcs], ?_⟩
            omega
          · rintro ⟨hcs, hn⟩
            rw [List.cons_append, List.cons.injEq] at hcs
            obtain ⟨rfl, hcs⟩ := hcs
            exact ⟨(a, b), ih.2 ⟨hcs, by omega⟩, rfl⟩

theorem splitAt_append (a b : List Char) : splitAt (bytes a).length (a ++ b) = some (a, b) :=
  splitAt_iff.2 ⟨rfl, rfl⟩

theorem slice_iff {cs mid : List Char} {start stop : ℕ} :
    slice cs start stop = some mid ↔
      ∃ a b, cs = a ++ (mid ++ b) ∧ (bytes a).length = start ∧
        start + (bytes mid).length = stop := by
  simp only [slice, Option.bind_eq_bind, Option.bind_eq_some_iff, Option.some.injEq, Prod.exists]
  constructor
  · rintro ⟨head, b, hhead, a, m, hparts, rfl⟩
    obtain ⟨hcs, hstop⟩ := splitAt_iff.1 hhead
    obtain ⟨rfl, hstart⟩ := splitAt_iff.1 hparts
    refine ⟨a, b, by rw [hcs, List.append_assoc], hstart, ?_⟩
    rw [bytes_append, List.length_append] at hstop
    omega
  · rintro ⟨a, b, hcs, hstart, hstop⟩
    refine ⟨a ++ mid, b, splitAt_iff.2 ⟨by rw [hcs, List.append_assoc], ?_⟩, a, mid,
      splitAt_iff.2 ⟨rfl, hstart⟩, rfl⟩
    rw [bytes_append, List.length_append]
    omega

/-! ### Characters of one byte -/

theorem byte_of_char {c : Char} {x : UInt8} (hx : x ∈ String.utf8EncodeChar c)
    (hlt : x.toNat < 128) : c.utf8Size = 1 ∧ x = c.val.toUInt8 := by
  have hor : ∀ y m : UInt8, 128 ≤ m.toNat → 128 ≤ (y ||| m).toNat := by
    intro y m hm
    rw [UInt8.toNat_or]
    exact hm.trans Nat.right_le_or
  rcases c.utf8Size_eq with h | h | h | h
  · rw [String.utf8EncodeChar_eq_singleton h, List.mem_singleton] at hx
    exact ⟨h, hx⟩
  · rw [String.utf8EncodeChar_eq_cons_cons h] at hx
    simp only [List.mem_cons, List.not_mem_nil, or_false] at hx
    exfalso
    rcases hx with rfl | rfl <;> exact absurd hlt (Nat.not_lt.2 (hor _ _ (by decide)))
  · rw [String.utf8EncodeChar_eq_cons_cons_cons h] at hx
    simp only [List.mem_cons, List.not_mem_nil, or_false] at hx
    exfalso
    rcases hx with rfl | rfl | rfl <;> exact absurd hlt (Nat.not_lt.2 (hor _ _ (by decide)))
  · rw [String.utf8EncodeChar_eq_cons_cons_cons_cons h] at hx
    simp only [List.mem_cons, List.not_mem_nil, or_false] at hx
    exfalso
    rcases hx with rfl | rfl | rfl | rfl <;> exact absurd hlt (Nat.not_lt.2 (hor _ _ (by decide)))

/-- A byte below 128 stands for a character, and its offset is between characters. -/
theorem char_at {cs : List Char} {n : ℕ} {x : UInt8} (h : (bytes cs)[n]? = some x)
    (hlt : x.toNat < 128) : ∃ a c b, cs = a ++ c :: b ∧ (bytes a).length = n ∧
      c.utf8Size = 1 ∧ x = c.val.toUInt8 := by
  induction cs generalizing n with
  | nil => simp at h
  | cons c cs ih =>
    rw [bytes_cons, List.getElem?_append] at h
    split at h
    · rename_i hn
      obtain ⟨hsize, hx⟩ := byte_of_char (List.mem_of_getElem? h) hlt
      rw [String.length_utf8EncodeChar, hsize] at hn
      exact ⟨[], c, cs, rfl, by simp; omega, hsize, hx⟩
    · rename_i hn
      obtain ⟨a, x', b, rfl, ha, hrest⟩ := ih h
      refine ⟨c :: a, x', b, rfl, ?_, hrest⟩
      rw [String.length_utf8EncodeChar] at hn ha
      rw [length_bytes_cons]
      omega

theorem splitAt_append_right (a b : List Char) (n : ℕ) :
    splitAt ((bytes a).length + n) (a ++ b) =
      (splitAt n b).map fun parts => (a ++ parts.1, parts.2) := by
  induction a with
  | nil => simp
  | cons c a ih =>
    have hpos := c.utf8Size_pos
    have hlength := length_bytes_cons c a
    rw [List.cons_append, splitAt, if_neg (by omega), if_neg (by omega)]
    have hrest : (bytes (c :: a)).length + n - c.utf8Size = (bytes a).length + n := by omega
    rw [hrest, ih, Option.map_map]
    rfl

theorem slice_append_right {a b : List Char} {n start stop : ℕ} (hn : (bytes a).length = n) :
    slice (a ++ b) (n + start) (n + stop) = slice b start stop := by
  subst hn
  unfold slice
  simp only [Option.bind_eq_bind, splitAt_append_right]
  cases splitAt stop b with
  | none => rfl
  | some parts =>
    simp only [Option.map_some, Option.bind_some, splitAt_append_right]
    cases splitAt start parts.1 <;> rfl

/-! ### One-byte characters at an offset -/

theorem toUInt8_inj {c d : Char} (hc : c.utf8Size = 1) (hd : d.utf8Size = 1)
    (h : c.val.toUInt8 = d.val.toUInt8) : c = d := by
  have hcle := UInt32.le_iff_toNat_le.1 (Char.utf8Size_eq_one_iff.1 hc)
  have hdle := UInt32.le_iff_toNat_le.1 (Char.utf8Size_eq_one_iff.1 hd)
  have hnat := congrArg UInt8.toNat h
  rw [UInt32.toNat_toUInt8, UInt32.toNat_toUInt8] at hnat
  have h127 : (127 : UInt32).toNat = 127 := rfl
  exact Char.ext (UInt32.toNat_inj.1 (by omega))

theorem byte_iff {cs : List Char} {n : ℕ} {c : Char} (hc : c.utf8Size = 1) :
    (bytes cs)[n]? = some c.val.toUInt8 ↔ ∃ a b, cs = a ++ c :: b ∧ (bytes a).length = n := by
  constructor
  · intro h
    have hle := UInt32.le_iff_toNat_le.1 (Char.utf8Size_eq_one_iff.1 hc)
    have h127 : (127 : UInt32).toNat = 127 := rfl
    have hlt : c.val.toUInt8.toNat < 128 := by
      rw [UInt32.toNat_toUInt8]
      omega
    obtain ⟨a, d, b, rfl, ha, hd, heq⟩ := char_at h hlt
    exact ⟨a, b, by rw [toUInt8_inj hc hd heq], ha⟩
  · rintro ⟨a, b, rfl, rfl⟩
    rw [bytes_append, List.getElem?_append_right (Nat.le_refl _), Nat.sub_self, bytes_cons,
      String.utf8EncodeChar_eq_singleton hc]
    rfl

theorem length_bytes_of_forall {cs : List Char} (h : ∀ c ∈ cs, c.utf8Size = 1) :
    (bytes cs).length = cs.length := by
  induction cs with
  | nil => rfl
  | cons c cs ih =>
    obtain ⟨hc, hcs⟩ := List.forall_mem_cons.1 h
    rw [length_bytes_cons, hc, ih hcs, List.length_cons, Nat.add_comm]

/-! ### Strings by their bytes -/

def bytesOf (text : String) : List UInt8 := text.toByteArray.data.toList

theorem bytesOf_eq (text : String) : bytesOf text = bytes text.toList := by
  have htext : text = String.ofList text.toList := String.ofList_toList.symm
  conv_lhs => rw [htext]
  rw [bytesOf, String.toByteArray_ofList, List.utf8Encode, List.data_toByteArray]
  rfl

theorem bytesOf_startsWith {a b : String} (h : a.toList <+: b.toList) : bytesOf a <+: bytesOf b := by
  obtain ⟨rest, hrest⟩ := h
  rw [bytesOf_eq, bytesOf_eq, ← hrest, bytes_append]
  exact List.prefix_append _ _

def asciiOf (text : String) : List Char := (bytesOf text).map fun b => Char.ofNat b.toNat

def isAscii (text : String) : Bool := (bytesOf text).all fun b => b.toNat < 128

theorem toList_eq_asciiOf {text : String} (h : isAscii text = true) :
    text.toList = asciiOf text := by
  rw [isAscii, List.all_eq_true] at h
  simp only [decide_eq_true_eq] at h
  have hall : ∀ cs : List Char, (∀ b ∈ bytes cs, b.toNat < 128) →
      cs = (bytes cs).map fun b => Char.ofNat b.toNat := by
    intro cs hcs
    induction cs with
    | nil => rfl
    | cons c cs ih =>
      rw [bytes_cons] at hcs ⊢
      obtain ⟨b, hb⟩ : ∃ b, b ∈ String.utf8EncodeChar c :=
        List.exists_mem_of_length_pos (by rw [String.length_utf8EncodeChar]; exact c.utf8Size_pos)
      obtain ⟨hsize, rfl⟩ := byte_of_char hb (hcs b (List.mem_append_left _ hb))
      have hle := UInt32.le_iff_toNat_le.1 (Char.utf8Size_eq_one_iff.1 hsize)
      have h127 : (127 : UInt32).toNat = 127 := rfl
      have hbyte : c.val.toUInt8.toNat = c.toNat := by
        rw [UInt32.toNat_toUInt8]
        exact Nat.mod_eq_of_lt (by omega)
      rw [String.utf8EncodeChar_eq_singleton hsize, List.map_append,
        ← ih fun b hb => hcs b (List.mem_append_right _ hb), List.map_singleton, hbyte,
        Char.ofNat_toNat]
      rfl
  rw [asciiOf, bytesOf_eq]
  exact hall _ (bytesOf_eq text ▸ h)

end FilamentCore.Library.ByteText
