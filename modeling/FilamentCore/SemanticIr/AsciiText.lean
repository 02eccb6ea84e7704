import FilamentCore.SemanticIr.Json
import FilamentCore.SemanticIr.Diag

/-!
# Texts of ASCII characters

Identities are texts of ASCII characters, on which the order of the UTF-16 code units is the
order of the texts.
-/

namespace FilamentCore.SemanticIr
open FilamentCore.Packages (codeUnits)

def IsAscii (cs : List Char) : Prop := ∀ c ∈ cs, c.toNat < 128

/-! ### Identities -/

theorem eq_of_stripPrefix {head cs rest : List Char} (h : stripPrefix head cs = some rest) :
    cs = head ++ rest := by
  induction head generalizing cs with
  | nil =>
    simp only [stripPrefix, Option.some.injEq] at h
    exact h
  | cons c head ih =>
    cases cs with
    | nil => cases h
    | cons d cs =>
      simp only [stripPrefix] at h
      split at h
      · rename_i heq
        rw [ih h, heq, List.cons_append]
      · cases h

theorem eq_of_splitOnce {separator : Char} {cs head tail : List Char}
    (h : splitOnce separator cs = some (head, tail)) : cs = head ++ separator :: tail := by
  induction cs generalizing head with
  | nil => cases h
  | cons c cs ih =>
    simp only [splitOnce] at h
    split at h
    · rename_i heq
      cases h
      rw [heq, List.nil_append]
    · obtain ⟨⟨front, back⟩, hs, heq⟩ := Option.map_eq_some_iff.1 h
      cases heq
      rw [ih hs, List.cons_append]

theorem isAlphanumeric_ascii {c : Char} (h : isAlphanumeric c = true) : c.toNat < 128 := by
  simp only [isAlphanumeric, isAlpha, isLower, isUpper, isAsciiDigit, Bool.or_eq_true,
    Bool.and_eq_true, decide_eq_true_eq, Char.le_def, UInt32.le_iff_toNat_le] at h
  have hz : 'z'.val.toNat = 122 := rfl
  have hZ : 'Z'.val.toNat = 90 := rfl
  have h9 : '9'.val.toNat = 57 := rfl
  have hc : c.toNat = c.val.toNat := rfl
  omega

theorem isLowerOrDigit_ascii {c : Char} (h : isLowerOrDigit c = true) : c.toNat < 128 := by
  apply isAlphanumeric_ascii
  simp only [isLowerOrDigit, Bool.or_eq_true] at h
  simp only [isAlphanumeric, isAlpha, Bool.or_eq_true]
  tauto

theorem ascii_of_identity {text : String} (h : isSemanticIdentity text = true) :
    IsAscii text.toList := by
  unfold isSemanticIdentity at h
  split at h
  · cases h
  · rename_i owner name hsplit
    obtain ⟨rest, hstrip, hsplit⟩ := Option.bind_eq_some_iff.1 hsplit
    simp only [startsAndRuns, Bool.and_eq_true, List.all_eq_true, Bool.or_eq_true,
      beq_iff_eq] at h
    obtain ⟨⟨-, howner⟩, -, hname⟩ := h
    rw [eq_of_stripPrefix hstrip, eq_of_splitOnce hsplit]
    intro c hc
    simp only [List.mem_append, List.mem_cons] at hc
    rcases hc with hc | hc | rfl | hc
    · have hscheme : "ix://".toList = ['i', 'x', ':', '/', '/'] := rfl
      rw [hscheme] at hc
      simp only [List.mem_cons, List.not_mem_nil, or_false] at hc
      rcases hc with rfl | rfl | rfl | rfl | rfl <;> decide
    · rcases howner c hc with ((hc | rfl) | rfl) | rfl
      · exact isLowerOrDigit_ascii hc
      · decide
      · decide
      · decide
    · decide
    · rcases hname c hc with (((((hc | rfl) | rfl) | rfl) | rfl) | rfl) | rfl
      · exact isAlphanumeric_ascii hc
      · decide
      · decide
      · decide
      · decide
      · decide
      · decide

/-! ### Order -/

theorem codeUnits_ascii {cs : List Char} (h : IsAscii cs) : codeUnits cs = cs.map Char.toNat := by
  induction cs with
  | nil => rfl
  | cons c cs ih =>
    have hc : c.toNat < 65536 := by
      have := h c (List.mem_cons_self ..)
      omega
    simp only [codeUnits, List.flatMap_cons, if_pos hc, List.map_cons, List.cons_append,
      List.nil_append] at ih ⊢
    rw [ih fun d hd => h d (List.mem_cons_of_mem _ hd)]

theorem map_toNat_lt (as bs : List Char) :
    as.map Char.toNat < bs.map Char.toNat ↔ as < bs := by
  induction as generalizing bs with
  | nil => cases bs <;> simp
  | cons a as ih =>
    cases bs with
    | nil => simp
    | cons b bs =>
      have hlt : a.toNat < b.toNat ↔ a < b := by
        rw [Char.lt_def, UInt32.lt_iff_toNat_lt]
        rfl
      have heq : a.toNat = b.toNat ↔ a = b :=
        ⟨fun h => Char.ext (UInt32.toNat_inj.1 h), fun h => by rw [h]⟩
      rw [List.map_cons, List.map_cons, List.cons_lt_cons_iff, List.cons_lt_cons_iff, ih, hlt, heq]

theorem utf16Le_ascii {a b : String} (ha : IsAscii a.toList) (hb : IsAscii b.toList) :
    Json.utf16Le a b = true ↔ a ≤ b := by
  rw [Json.utf16Le, decide_eq_true_eq, codeUnits_ascii ha, codeUnits_ascii hb,
    String.le_iff_toList_le, ← not_lt, ← not_lt, map_toNat_lt]

end FilamentCore.SemanticIr
