import Mathlib.Data.List.Basic

/-!
# Percent-encoded texts

The UTF-8 decoder that writes the replacement character for what is no encoding, and the
percent-decoding of a text whose runs of ASCII characters are decoded as bytes.
-/

namespace FilamentCore.Library.PercentText

/-! ### Decoding with replacement -/

def replacement : Char := Char.ofNat 0xFFFD

/-- What is still expected of a character: the bounds of the next byte, those of the bytes after
it, and the bits that are read. -/
structure Pending where
  low : ℕ
  high : ℕ
  more : List (ℕ × ℕ)
  bits : ℕ

/-- What has to follow the first byte of a character of several. -/
def lead (n : ℕ) : Option Pending :=
  let trail := (0x80, 0xBF)
  if n < 0xC2 then none
  else if n < 0xE0 then some ⟨0x80, 0xBF, [], n % 0x20⟩
  else if n = 0xE0 then some ⟨0xA0, 0xBF, [trail], 0⟩
  else if n = 0xED then some ⟨0x80, 0x9F, [trail], 0xD⟩
  else if n < 0xF0 then some ⟨0x80, 0xBF, [trail], n % 0x10⟩
  else if n = 0xF0 then some ⟨0x90, 0xBF, [trail, trail], 0⟩
  else if n < 0xF4 then some ⟨0x80, 0xBF, [trail, trail], n % 8⟩
  else if n = 0xF4 then some ⟨0x80, 0x8F, [trail, trail], 4⟩
  else none

/-- The first byte of a character: what it yields, and what has to follow. -/
def start (b : UInt8) : List Char × Option Pending :=
  if b.toNat < 0x80 then ([Char.ofNat b.toNat], none)
  else
    match lead b.toNat with
    | some pending => ([], some pending)
    | none => ([replacement], none)

/-- The next byte. One that cannot follow ends the character it breaks and starts another. -/
def next (state : Option Pending) (b : UInt8) : List Char × Option Pending :=
  match state with
  | none => start b
  | some pending =>
    if pending.low ≤ b.toNat ∧ b.toNat ≤ pending.high then
      let bits := pending.bits * 64 + b.toNat % 64
      match pending.more with
      | [] => ([Char.ofNat bits], none)
      | (low, high) :: more => ([], some ⟨low, high, more, bits⟩)
    else (replacement :: (start b).1, (start b).2)

def decodeFrom (state : Option Pending) : List UInt8 → List Char
  | [] => if state.isSome then [replacement] else []
  | b :: bs => (next state b).1 ++ decodeFrom (next state b).2 bs

def decode (bs : List UInt8) : List Char := decodeFrom none bs

/-! ### Percent-decoding -/

def hexValue (c : Char) : Option ℕ :=
  if '0' ≤ c ∧ c ≤ '9' then some (c.toNat - 48)
  else if 'A' ≤ c ∧ c ≤ 'F' then some (c.toNat - 55)
  else if 'a' ≤ c ∧ c ≤ 'f' then some (c.toNat - 87)
  else none

def hexPair (a b : Char) : Option UInt8 :=
  match hexValue a, hexValue b with
  | some high, some low => some (UInt8.ofNat (16 * high + low))
  | _, _ => none

/-- The bytes of an ASCII text, an escape as the byte it names. -/
def unquoteToBytes : List Char → List UInt8
  | [] => []
  | c :: cs =>
    if c = '%' then
      match cs with
      | a :: b :: rest =>
        match hexPair a b with
        | some byte => byte :: unquoteToBytes rest
        | none => UInt8.ofNat c.toNat :: unquoteToBytes (a :: b :: rest)
      | cs => UInt8.ofNat c.toNat :: unquoteToBytes cs
    else UInt8.ofNat c.toNat :: unquoteToBytes cs

def unquoteRun (run : List Char) : List Char → List Char
  | [] => decode (unquoteToBytes run)
  | c :: cs =>
    if c.toNat < 128 then unquoteRun (run ++ [c]) cs
    else decode (unquoteToBytes run) ++ c :: unquoteRun [] cs

def unquote (cs : List Char) : List Char := unquoteRun [] cs

/-! ### What an ASCII byte ends -/

theorem start_ascii {b : UInt8} (h : b.toNat < 128) :
    start b = ([Char.ofNat b.toNat], none) := by
  rw [start]
  exact if_pos h

/-- Every byte that may follow is none of ASCII. -/
def Trailing (state : Option Pending) : Prop :=
  ∀ pending ∈ state, 128 ≤ pending.low ∧ ∀ bounds ∈ pending.more, 128 ≤ bounds.1

theorem trailing_none : Trailing none := by
  intro pending h
  cases h

theorem trailing_lead (n : ℕ) : Trailing (lead n) := by
  intro pending h
  simp only [lead] at h
  repeat' split at h
  all_goals cases h
  all_goals simp

theorem trailing_start (b : UInt8) : Trailing (start b).2 := by
  rw [start]
  split
  · exact trailing_none
  · have hlead := trailing_lead b.toNat
    cases h : lead b.toNat with
    | none => exact trailing_none
    | some pending =>
      rw [h] at hlead
      exact hlead

theorem trailing_next {state : Option Pending} (b : UInt8) (h : Trailing state) :
    Trailing (next state b).2 := by
  cases state with
  | none => exact trailing_start b
  | some pending =>
    obtain ⟨hlow, hmore⟩ := h pending rfl
    rw [next]
    split
    · cases hm : pending.more with
      | nil => exact trailing_none
      | cons bounds more =>
        rw [hm] at hmore
        intro p hp
        cases hp
        exact ⟨hmore bounds (List.mem_cons_self ..),
          fun c hc => hmore c (List.mem_cons_of_mem _ hc)⟩
    · exact trailing_start b

theorem next_ascii {state : Option Pending} {b : UInt8} (h : Trailing state)
    (hb : b.toNat < 128) :
    next state b = (decodeFrom state [] ++ [Char.ofNat b.toNat], none) := by
  cases state with
  | none => exact start_ascii hb
  | some pending =>
    have hlow := (h pending rfl).1
    have hout : ¬(pending.low ≤ b.toNat ∧ b.toNat ≤ pending.high) := by omega
    rw [next, if_neg hout, start_ascii hb]
    rfl

theorem decodeFrom_ascii {state : Option Pending} (h : Trailing state) (xs ys : List UInt8)
    {b : UInt8} (hb : b.toNat < 128) :
    decodeFrom state (xs ++ b :: ys) =
      decodeFrom state xs ++ Char.ofNat b.toNat :: decode ys := by
  induction xs generalizing state with
  | nil =>
    show (next state b).1 ++ decodeFrom (next state b).2 ys = _
    rw [next_ascii h hb, List.append_assoc]
    rfl
  | cons x xs ih =>
    show (next state x).1 ++ decodeFrom (next state x).2 (xs ++ b :: ys) = _
    rw [ih (trailing_next x h), decodeFrom, List.append_assoc]

theorem decode_ascii (xs ys : List UInt8) {b : UInt8} (hb : b.toNat < 128) :
    decode (xs ++ b :: ys) = decode xs ++ Char.ofNat b.toNat :: decode ys :=
  decodeFrom_ascii trailing_none xs ys hb

/-- A byte yields characters, or starts one. -/
theorem start_yields {b : UInt8} (h : (start b).1 = []) : (start b).2.isSome = true := by
  rw [start] at h ⊢
  split at h
  · cases h
  · rename_i hb
    rw [if_neg hb]
    cases hl : lead b.toNat with
    | none =>
      rw [hl] at h
      cases h
    | some pending => rfl

theorem next_yields {state : Option Pending} {b : UInt8} (h : (next state b).1 = []) :
    (next state b).2.isSome = true := by
  cases state with
  | none => exact start_yields h
  | some pending =>
    rw [next] at h ⊢
    split at h
    · rename_i hb
      rw [if_pos hb]
      cases hm : pending.more with
      | nil =>
        rw [hm] at h
        cases h
      | cons bounds more => rfl
    · cases h

theorem decodeFrom_ne_nil {state : Option Pending} {bs : List UInt8}
    (h : state.isSome = true ∨ bs ≠ []) : decodeFrom state bs ≠ [] := by
  induction bs generalizing state with
  | nil =>
    have hstate := h.resolve_right fun hne => hne rfl
    rw [decodeFrom, if_pos hstate]
    exact List.cons_ne_nil _ _
  | cons b bs ih =>
    rw [decodeFrom]
    intro hnil
    obtain ⟨hfirst, hrest⟩ := List.append_eq_nil_iff.1 hnil
    exact ih (.inl (next_yields hfirst)) hrest

/-! ### What a character splits -/

/-- An ASCII character that is no part of an escape. -/
structure Plain (c : Char) : Prop where
  ascii : c.toNat < 128
  noEscape : c ≠ '%'
  noDigit : hexValue c = none

theorem ofNat_toNat {c : Char} (h : c.toNat < 128) : (UInt8.ofNat c.toNat).toNat = c.toNat := by
  rw [UInt8.toNat_ofNat']
  omega

theorem unquoteToBytes_plain {c : Char} (hc : c ≠ '%') (cs : List Char) :
    unquoteToBytes (c :: cs) = UInt8.ofNat c.toNat :: unquoteToBytes cs := by
  rw [unquoteToBytes.eq_def]
  exact if_neg hc

example : unquoteToBytes ['a'] = [97] := by
  rw [unquoteToBytes.eq_def]
  rfl

theorem hexPair_left {c : Char} (h : hexValue c = none) (b : Char) : hexPair c b = none := by
  rw [hexPair, h]

theorem hexPair_right {c : Char} (h : hexValue c = none) (a : Char) : hexPair a c = none := by
  rw [hexPair, h]
  cases hexValue a <;> rfl

theorem unquoteToBytes_percent {cs : List Char}
    (h : ∀ a b rest, cs = a :: b :: rest → hexPair a b = none) :
    unquoteToBytes ('%' :: cs) = 37 :: unquoteToBytes cs := by
  rw [unquoteToBytes.eq_def]
  dsimp only
  rw [if_pos rfl]
  cases cs with
  | nil => rfl
  | cons a cs =>
    cases cs with
    | nil => rfl
    | cons b rest =>
      dsimp only
      rw [h a b rest rfl]
      rfl

theorem unquoteToBytes_escape {a b : Char} {byte : UInt8} (h : hexPair a b = some byte)
    (rest : List Char) : unquoteToBytes ('%' :: a :: b :: rest) = byte :: unquoteToBytes rest := by
  rw [unquoteToBytes.eq_def]
  dsimp only
  rw [if_pos rfl, h]

theorem unquoteToBytes_append {c : Char} (hc : Plain c) (xs ys : List Char) :
    unquoteToBytes (xs ++ c :: ys) =
      unquoteToBytes xs ++ UInt8.ofNat c.toNat :: unquoteToBytes ys := by
  have hplain : ∀ ys, unquoteToBytes (c :: ys) = UInt8.ofNat c.toNat :: unquoteToBytes ys :=
    unquoteToBytes_plain hc.noEscape
  fun_induction unquoteToBytes xs with
  | case1 => exact hplain ys
  | case2 a b rest byte hpair ih =>
    simp only [List.cons_append, unquoteToBytes_escape hpair, ih]
  | case3 a b rest hpair ih =>
    have hnone : ∀ x y more, a :: b :: rest ++ c :: ys = x :: y :: more → hexPair x y = none := by
      intro x y more heq
      cases heq
      exact hpair
    rw [List.cons_append, unquoteToBytes_percent hnone, ih]
    rfl
  | case4 cs hshort ih =>
    have hnone : ∀ x y more, cs ++ c :: ys = x :: y :: more → hexPair x y = none := by
      intro x y more heq
      cases cs with
      | nil =>
        cases heq
        exact hexPair_left hc.noDigit y
      | cons a cs =>
        cases cs with
        | nil =>
          cases heq
          exact hexPair_right hc.noDigit _
        | cons b rest => exact absurd rfl (hshort a b rest)
    rw [List.cons_append, unquoteToBytes_percent hnone, ih]
    rfl
  | case5 d cs hd ih => rw [List.cons_append, unquoteToBytes_plain hd, ih, List.cons_append]

theorem unquoteRun_append {c : Char} (hc : Plain c) (front run cs : List Char) :
    unquoteRun (front ++ c :: run) cs =
      decode (unquoteToBytes front) ++ c :: unquoteRun run cs := by
  have hdecode : ∀ run, decode (unquoteToBytes (front ++ c :: run)) =
      decode (unquoteToBytes front) ++ c :: decode (unquoteToBytes run) := by
    intro run
    have hbyte := ofNat_toNat hc.ascii
    rw [unquoteToBytes_append hc, decode_ascii _ _ (by rw [hbyte]; exact hc.ascii), hbyte,
      Char.ofNat_toNat]
  induction cs generalizing run with
  | nil => exact hdecode run
  | cons d cs ih =>
    rw [unquoteRun, unquoteRun]
    split
    · rw [List.append_assoc, List.cons_append, ih]
    · rw [hdecode, List.append_assoc, List.cons_append]

theorem unquoteRun_split {c : Char} (hc : Plain c) (run xs ys : List Char) :
    unquoteRun run (xs ++ c :: ys) = unquoteRun run xs ++ c :: unquote ys := by
  induction xs generalizing run with
  | nil =>
    rw [List.nil_append, unquoteRun, unquoteRun, if_pos hc.ascii, unquoteRun_append hc]
    rfl
  | cons d xs ih =>
    rw [List.cons_append, unquoteRun, unquoteRun]
    split
    · exact ih _
    · rw [ih, List.append_assoc, List.cons_append]

theorem unquote_split {c : Char} (hc : Plain c) (xs ys : List Char) :
    unquote (xs ++ c :: ys) = unquote xs ++ c :: unquote ys :=
  unquoteRun_split hc [] xs ys

theorem unquoteToBytes_ne_nil {cs : List Char} (h : cs ≠ []) : unquoteToBytes cs ≠ [] := by
  fun_cases unquoteToBytes cs with
  | case1 => exact absurd rfl h
  | case2 => exact List.cons_ne_nil _ _
  | case3 => exact List.cons_ne_nil _ _
  | case4 => exact List.cons_ne_nil _ _
  | case5 => exact List.cons_ne_nil _ _

theorem unquoteRun_ne_nil {run cs : List Char} (h : run ≠ [] ∨ cs ≠ []) :
    unquoteRun run cs ≠ [] := by
  induction cs generalizing run with
  | nil =>
    have hrun := h.resolve_right fun hne => hne rfl
    exact decodeFrom_ne_nil (.inr (unquoteToBytes_ne_nil hrun))
  | cons c cs ih =>
    rw [unquoteRun]
    split
    · exact ih (.inl (List.append_ne_nil_of_right_ne_nil _ (List.cons_ne_nil _ _)))
    · exact List.append_ne_nil_of_right_ne_nil _ (List.cons_ne_nil _ _)

theorem unquote_eq_nil {cs : List Char} : unquote cs = [] ↔ cs = [] := by
  constructor
  · intro h
    by_contra hne
    exact unquoteRun_ne_nil (.inr hne) h
  · intro h
    rw [h]
    rfl

theorem decode_plain {run : List Char} (h : ∀ c ∈ run, c.toNat < 128 ∧ c ≠ '%') :
    decode (unquoteToBytes run) = run := by
  induction run with
  | nil => rfl
  | cons c run ih =>
    obtain ⟨hascii, hpercent⟩ := h c (List.mem_cons_self ..)
    have hbyte := ofNat_toNat hascii
    have hsplit := decode_ascii [] (unquoteToBytes run) (b := UInt8.ofNat c.toNat)
      (by rw [hbyte]; exact hascii)
    rw [unquoteToBytes_plain hpercent, ← List.nil_append (_ :: _), hsplit, hbyte,
      Char.ofNat_toNat, ih fun d hd => h d (List.mem_cons_of_mem _ hd)]
    rfl

theorem unquoteRun_plain {run cs : List Char} (hrun : ∀ c ∈ run, c.toNat < 128 ∧ c ≠ '%')
    (h : '%' ∉ cs) : unquoteRun run cs = run ++ cs := by
  induction cs generalizing run with
  | nil =>
    rw [unquoteRun, decode_plain hrun, List.append_nil]
  | cons c cs ih =>
    obtain ⟨hc, hcs⟩ := not_or.1 (fun hor => h (List.mem_cons.2 hor))
    rw [unquoteRun]
    split
    · rename_i hascii
      have hmore : ∀ d ∈ run ++ [c], d.toNat < 128 ∧ d ≠ '%' := by
        intro d hd
        rcases List.mem_append.1 hd with hd | hd
        · exact hrun d hd
        · rw [List.mem_singleton.1 hd]
          exact ⟨hascii, fun heq => hc heq.symm⟩
      rw [ih hmore hcs, List.append_assoc]
      rfl
    · have hnil : ∀ d ∈ ([] : List Char), d.toNat < 128 ∧ d ≠ '%' := fun d hd => by cases hd
      rw [decode_plain hrun, ih hnil hcs]
      rfl

theorem unquote_plain {cs : List Char} (h : '%' ∉ cs) : unquote cs = cs :=
  unquoteRun_plain (fun c hc => by cases hc) h

end FilamentCore.Library.PercentText
