import FilamentCore.Library.KeyedList
import FilamentCore.SemanticIr.Json

/-!
# What a canonical form determines (crates/semantic-ir/src/json.rs)

No canonical form goes on past the end of another, so two objects of one canonical form hold the
same canonical forms under the same names.
-/

namespace FilamentCore.SemanticIr
open FilamentCore.Library

namespace Json

/-! ### Texts that end by themselves -/

def isDelimiter (c : Char) : Bool := c = ',' || c = ']' || c = '}'

/-- What may follow a value. -/
def Follows (rest : List Char) : Prop := ∀ c ∈ rest.head?, isDelimiter c = true

def Starts (text : List Char) : Prop := ∀ c ∈ text.head?, isDelimiter c = false

/-- Two texts are read apart from what follows them. -/
def Separable (a b : List Char) : Prop :=
  ∀ r s, Follows r → Follows s → a ++ r = b ++ s → a = b ∧ r = s

theorem follows_cons {c : Char} (hc : isDelimiter c = true) (rest : List Char) :
    Follows (c :: rest) := by
  intro d hd
  cases hd
  exact hc

theorem eq_nil_of_delimiter {text rest tail : List Char} {c : Char} (ht : Starts text)
    (hc : isDelimiter c = true) (h : c :: tail = text ++ rest) : text = [] := by
  cases text with
  | nil => rfl
  | cons d text =>
    rw [List.cons_append, List.cons.injEq] at h
    have := ht d rfl
    rw [← h.1, hc] at this
    cases this

theorem commaSeparated_cons (t u : List Char) (us : List (List Char)) :
    commaSeparated (t :: u :: us) = t ++ ',' :: commaSeparated (u :: us) := rfl

theorem commaSeparated_eq_nil {t : List Char} {ts : List (List Char)}
    (h : commaSeparated (t :: ts) = []) : t :: ts = [[]] := by
  cases ts with
  | nil => simpa [commaSeparated] using h
  | cons u us => simp [commaSeparated] at h

theorem commaSeparated_inj {close : Char} (hclose : isDelimiter close = true)
    (hne : close ≠ ',') {xs ys : List (List Char)} (hx : ∀ x ∈ xs, Starts x)
    (hy : ∀ y ∈ ys, Starts y) (h : ∀ x ∈ xs, ∀ y ∈ ys, Separable x y) {r s : List Char}
    (heq : commaSeparated xs ++ close :: r = commaSeparated ys ++ close :: s) :
    r = s ∧ (xs = ys ∨ commaSeparated xs = [] ∧ commaSeparated ys = []) := by
  have hcomma : isDelimiter ',' = true := by decide
  induction xs generalizing ys with
  | nil =>
    cases ys with
    | nil => exact ⟨by simpa [commaSeparated] using heq, .inl rfl⟩
    | cons y ys =>
      cases ys with
      | nil =>
        have hnil := eq_nil_of_delimiter (hy y (List.mem_cons_self ..)) hclose
          (by simpa [commaSeparated] using heq)
        subst hnil
        exact ⟨by simpa [commaSeparated] using heq, .inr ⟨rfl, rfl⟩⟩
      | cons z zs =>
        simp only [commaSeparated, List.nil_append, List.append_assoc] at heq
        have hnil := eq_nil_of_delimiter (hy y (List.mem_cons_self ..)) hclose heq
        rw [hnil, List.nil_append, List.cons_append, List.cons.injEq] at heq
        exact absurd heq.1 hne
  | cons x xs ih =>
    cases ys with
    | nil =>
      cases xs with
      | nil =>
        have hnil := eq_nil_of_delimiter (hx x (List.mem_cons_self ..)) hclose
          (by simpa [commaSeparated] using heq.symm)
        subst hnil
        exact ⟨by simpa [commaSeparated] using heq, .inr ⟨rfl, rfl⟩⟩
      | cons z zs =>
        simp only [commaSeparated, List.nil_append, List.append_assoc] at heq
        have hnil := eq_nil_of_delimiter (hx x (List.mem_cons_self ..)) hclose heq.symm
        rw [hnil, List.nil_append, List.cons_append, List.cons.injEq] at heq
        exact absurd heq.1.symm hne
    | cons y ys =>
      have hxy := h x (List.mem_cons_self ..) y (List.mem_cons_self ..)
      cases xs with
      | nil =>
        cases ys with
        | nil =>
          obtain ⟨rfl, hr⟩ := hxy _ _ (follows_cons hclose r) (follows_cons hclose s) heq
          exact ⟨(List.cons.inj hr).2, .inl rfl⟩
        | cons w ws =>
          simp only [commaSeparated, List.append_assoc, List.cons_append] at heq
          obtain ⟨-, hr⟩ := hxy _ _ (follows_cons hclose r) (follows_cons hcomma _) heq
          exact absurd (List.cons.inj hr).1 hne
      | cons z zs =>
        cases ys with
        | nil =>
          simp only [commaSeparated, List.append_assoc, List.cons_append] at heq
          obtain ⟨-, hr⟩ := hxy _ _ (follows_cons hcomma _) (follows_cons hclose s) heq
          exact absurd (List.cons.inj hr).1.symm hne
        | cons w ws =>
          rw [commaSeparated_cons, commaSeparated_cons] at heq
          simp only [List.append_assoc, List.cons_append] at heq
          obtain ⟨rfl, hr⟩ := hxy _ _ (follows_cons hcomma _) (follows_cons hcomma _) heq
          obtain ⟨hrs, hlists⟩ := ih (fun t ht => hx t (List.mem_cons_of_mem _ ht))
            (fun t ht => hy t (List.mem_cons_of_mem _ ht))
            (fun t ht u hu => h t (List.mem_cons_of_mem _ ht) u (List.mem_cons_of_mem _ hu))
            (List.cons.inj hr).2
          refine ⟨hrs, .inl ?_⟩
          rcases hlists with hlists | ⟨hz, hw⟩
          · rw [hlists]
          · rw [commaSeparated_eq_nil hz, commaSeparated_eq_nil hw]

/-! ### Strings -/

def hexValue (c : Char) : ℕ := if c.toNat < 58 then c.toNat - 48 else c.toNat - 87

/-- The character an escape stands for, by the one after the backslash. -/
def unescaped (c : Char) : Char :=
  if c = 'b' then Char.ofNat 8
  else if c = 'f' then Char.ofNat 12
  else if c = 'n' then '\n'
  else if c = 'r' then '\r'
  else if c = 't' then '\t'
  else c

/-- The first character a written text stands for, and what follows it. -/
def readChar : List Char → Option (Char × List Char)
  | '\\' :: 'u' :: _ :: _ :: high :: low :: rest =>
    some (Char.ofNat (16 * hexValue high + hexValue low), rest)
  | '\\' :: c :: rest => some (unescaped c, rest)
  | c :: rest => some (c, rest)
  | [] => none

theorem hexValue_hexDigit {n : ℕ} (h : n < 16) : hexValue (hexDigit n) = n := by
  have hall : ∀ i : Fin 16, hexValue (hexDigit i) = i := by decide
  exact hall ⟨n, h⟩

theorem readChar_plain {c : Char} (hc : c ≠ '\\') (rest : List Char) :
    readChar (c :: rest) = some (c, rest) := by
  unfold readChar
  split
  · rename_i h
    exact absurd (List.cons.inj h).1 hc
  · rename_i h
    exact absurd (List.cons.inj h).1 hc
  · rename_i h
    rw [(List.cons.inj h).1, (List.cons.inj h).2]
  · rename_i h
    cases h

theorem readChar_escapeChar (c : Char) (rest : List Char) :
    readChar (escapeChar c ++ rest) = some (c, rest) := by
  unfold escapeChar
  split_ifs with hquote hslash hback hform hline hreturn htab hcontrol
  any_goals
    subst c
    rfl
  · have hhigh : c.toNat / 16 < 16 := by omega
    have hlow : c.toNat % 16 < 16 := Nat.mod_lt _ (by decide)
    simp only [List.cons_append, List.nil_append, readChar, hexValue_hexDigit hhigh,
      hexValue_hexDigit hlow, Nat.div_add_mod, Char.ofNat_toNat]
  · exact readChar_plain hslash rest

theorem escapeChar_ne_quote (c : Char) (rest tail : List Char) :
    escapeChar c ++ rest ≠ '"' :: tail := by
  intro h
  have hr := readChar_escapeChar c rest
  rw [h, readChar_plain (by decide)] at hr
  cases hr
  simp [escapeChar] at h

theorem writeString_inj {a b : String} {r s : List Char}
    (h : writeString a ++ r = writeString b ++ s) : a = b ∧ r = s := by
  have hchars : ∀ {as bs : List Char}, as.flatMap escapeChar ++ '"' :: r =
      bs.flatMap escapeChar ++ '"' :: s → as = bs ∧ r = s := by
    intro as
    induction as with
    | nil =>
      intro bs h
      cases bs with
      | nil => exact ⟨rfl, (List.cons.inj h).2⟩
      | cons b bs =>
        rw [List.flatMap_cons, List.append_assoc] at h
        exact absurd h.symm (escapeChar_ne_quote b _ _)
    | cons a as ih =>
      intro bs h
      cases bs with
      | nil =>
        rw [List.flatMap_cons, List.append_assoc] at h
        exact absurd h (escapeChar_ne_quote a _ _)
      | cons b bs =>
        rw [List.flatMap_cons, List.flatMap_cons, List.append_assoc, List.append_assoc] at h
        have hread := congrArg readChar h
        rw [readChar_escapeChar, readChar_escapeChar, Option.some.injEq, Prod.mk.injEq] at hread
        obtain ⟨has, hrs⟩ := ih hread.2
        exact ⟨by rw [hread.1, has], hrs⟩
  simp only [writeString, List.cons_append, List.append_assoc, List.nil_append,
    List.cons.injEq, true_and] at h
  obtain ⟨hl, hrs⟩ := hchars h
  exact ⟨String.ext (by simpa using hl), hrs⟩

/-! ### Numbers -/

def isNumberChar (c : Char) : Bool := isAsciiDigit c || c = '.' || c = 'e' || c = '+' || c = '-'

theorem toString_digits (n : ℕ) : ∀ c ∈ (toString n).toList, isAsciiDigit c = true := by
  intro c hc
  have hc : c ∈ Nat.toDigits 10 n := by
    rw [← Nat.toList_repr]
    exact hc
  have hd := Nat.isDigit_of_mem_toDigits (by decide) (by decide) hc
  simpa [isAsciiDigit, Char.isDigit, Char.le_def] using hd

theorem shortestDigits_digits (a d : ℕ) : ∀ c ∈ (shortestDigits a d).1, isAsciiDigit c = true := by
  intro c hc
  unfold shortestDigits at hc
  extract_lets point at hc
  generalize List.findSome? (fun k => Option.map (fun x => (x, k + 1))
    (roundTrips a d point (k + 1)).head?) (List.range 17) = found at hc
  cases found with
  | none => exact absurd hc (by simp)
  | some found =>
    have hc := (List.dropWhile_sublist _).mem (List.mem_reverse.1 hc)
    exact toString_digits found.1 c (List.mem_reverse.1 hc)

theorem layout_chars {digits : List Char} (hd : ∀ c ∈ digits, isAsciiDigit c = true) (k n : ℤ) :
    ∀ c ∈ layout digits k n, isNumberChar c = true := by
  have hdigit : ∀ c, isAsciiDigit c = true → isNumberChar c = true := by
    intro c hc
    simp [isNumberChar, hc]
  have hzeros : ∀ m : ℕ, ∀ c ∈ List.replicate m '0', isNumberChar c = true := by
    intro m c hc
    rw [List.eq_of_mem_replicate hc]
    decide
  have hall : ∀ c ∈ digits, isNumberChar c = true := fun c hc => hdigit c (hd c hc)
  have htake : ∀ m : ℕ, ∀ c ∈ digits.take m, isNumberChar c = true :=
    fun m c hc => hall c (List.mem_of_mem_take hc)
  have hdrop : ∀ m : ℕ, ∀ c ∈ digits.drop m, isNumberChar c = true :=
    fun m c hc => hall c (List.mem_of_mem_drop hc)
  have hexponent : ∀ m : ℕ, ∀ c ∈ (toString m).toList, isNumberChar c = true :=
    fun m c hc => hdigit c (toString_digits m c hc)
  have hsymbols : isNumberChar '.' = true ∧ isNumberChar 'e' = true ∧ isNumberChar '+' = true ∧
      isNumberChar '-' = true ∧ isNumberChar '0' = true := by decide +kernel
  intro c hc
  unfold layout at hc
  split at hc
  · rcases List.mem_append.1 hc with hc | hc
    · exact hall c hc
    · exact hzeros _ c hc
  split at hc
  · simp only [List.mem_append, List.mem_cons] at hc
    rcases hc with hc | rfl | hc
    · exact htake _ c hc
    · exact hsymbols.1
    · exact hdrop _ c hc
  split at hc
  · simp only [List.mem_append, List.mem_cons] at hc
    rcases hc with (rfl | rfl | hc) | hc
    · exact hsymbols.2.2.2.2
    · exact hsymbols.1
    · exact hzeros _ c hc
    · exact hall c hc
  · simp only [List.mem_append, List.mem_cons] at hc
    rcases hc with hc | rfl | rfl | hc
    · split at hc
      · exact hall c hc
      · simp only [List.mem_append, List.mem_cons] at hc
        rcases hc with hc | rfl | hc
        · exact htake _ c hc
        · exact hsymbols.1
        · exact hdrop _ c hc
    · exact hsymbols.2.1
    · split
      · exact hsymbols.2.2.1
      · exact hsymbols.2.2.2.1
    · exact hexponent _ c hc

theorem number_chars (q : ℚ) : ∀ c ∈ ecmaNumberToString q, isNumberChar c = true := by
  intro c hc
  have hdigits := shortestDigits_digits q.num.natAbs q.den
  unfold ecmaNumberToString at hc
  generalize shortestDigits q.num.natAbs q.den = found at hc hdigits
  split at hc
  · rw [List.mem_singleton.1 hc]
    decide
  · rcases List.mem_append.1 hc with hc | hc
    · split at hc
      · rw [List.mem_singleton.1 hc]
        decide
      · cases hc
    · exact layout_chars hdigits _ _ c hc

theorem numbers_separable {a b : List Char} (ha : ∀ c ∈ a, isNumberChar c = true)
    (hb : ∀ c ∈ b, isNumberChar c = true) : Separable a b := by
  have hstop : ∀ {r : List Char}, Follows r → r.takeWhile isNumberChar = [] := by
    intro r hr
    cases r with
    | nil => rfl
    | cons c r =>
      have hc := hr c rfl
      have hn : isNumberChar c = false := by
        simp only [isDelimiter, Bool.or_eq_true, decide_eq_true_eq] at hc
        rcases hc with (rfl | rfl) | rfl <;> decide
      rw [List.takeWhile_cons, hn]
      rfl
  intro r s hr hs h
  have htake := congrArg (List.takeWhile isNumberChar) h
  rw [List.takeWhile_append_of_pos ha, List.takeWhile_append_of_pos hb, hstop hr, hstop hs,
    List.append_nil, List.append_nil] at htake
  subst htake
  exact ⟨rfl, List.append_cancel_left h⟩

/-! ### Values -/

def isOpener (c : Char) : Bool :=
  c = 'n' || c = 't' || c = 'f' || c = '"' || c = '[' || c = '\x7b'

def opener : Json → Option Char
  | null => some 'n'
  | bool true => some 't'
  | bool false => some 'f'
  | number _ => none
  | str _ => some '"'
  | array _ => some '['
  | object _ => some '\x7b'

theorem follows_not_opener {rest : List Char} (h : Follows rest) :
    rest.head?.filter isOpener = none := by
  cases rest with
  | nil => rfl
  | cons c rest =>
    have hc := h c rfl
    simp only [isDelimiter, Bool.or_eq_true, decide_eq_true_eq] at hc
    rcases hc with (rfl | rfl) | rfl <;> rfl

theorem number_not_opener {c : Char} (hc : isNumberChar c = true) : isOpener c = false := by
  by_contra ho
  simp only [isOpener, Bool.not_eq_false, Bool.or_eq_true, decide_eq_true_eq] at ho
  rcases ho with ((((rfl | rfl) | rfl) | rfl) | rfl) | rfl <;> revert hc <;> decide

theorem opener_eq (a : Json) {rest : List Char} (h : Follows rest) :
    (canonical a ++ rest).head?.filter isOpener = opener a := by
  cases a with
  | null => rfl
  | bool value => cases value <;> rfl
  | number n =>
    rw [canonical, opener]
    cases ht : ecmaNumberToString n.value with
    | nil => exact follows_not_opener h
    | cons c text =>
      have hc := number_chars n.value c (by rw [ht]; exact List.mem_cons_self ..)
      simp [number_not_opener hc]
  | str text => rfl
  | array items => rfl
  | object members => rfl

theorem number_starts {text : List Char} (h : ∀ c ∈ text, isNumberChar c = true) :
    Starts text := by
  intro c hc
  have hn := h c (List.mem_of_mem_head? hc)
  by_contra hd
  simp only [isDelimiter, Bool.not_eq_false, Bool.or_eq_true, decide_eq_true_eq] at hd
  rcases hd with (rfl | rfl) | rfl <;> revert hn <;> decide

theorem starts_canonical (a : Json) : Starts (canonical a) := by
  have hcons : ∀ {c : Char} {text : List Char}, isDelimiter c = false → Starts (c :: text) := by
    intro c text hc d hd
    cases hd
    exact hc
  cases a with
  | null => exact hcons (by decide)
  | bool value => cases value <;> exact hcons (by decide)
  | number n => exact number_starts (number_chars n.value)
  | str text => exact hcons (by decide)
  | array items => exact hcons (by decide)
  | object members => exact hcons (by decide)

/-- A member of an object, as it is written. -/
def writeMember (m : String × List Char) : List Char := writeString m.1 ++ ':' :: m.2

theorem writeMember_inj {m n : String × List Char} (h : Separable m.2 n.2) {r s : List Char}
    (hr : Follows r) (hs : Follows s) (heq : writeMember m ++ r = writeMember n ++ s) :
    m = n ∧ r = s := by
  simp only [writeMember, List.append_assoc, List.cons_append] at heq
  obtain ⟨hname, hrest⟩ := writeString_inj heq
  obtain ⟨hvalue, hrs⟩ := h r s hr hs (List.cons.inj hrest).2
  exact ⟨Prod.ext hname hvalue, hrs⟩

theorem mem_of_mem_resolved {α : Type} {members : List (String × α)} {m : String × α}
    (h : m ∈ resolvedMembers members) : m ∈ members := by
  have hstep : ∀ {resolved : List (String × α)} {n : String × α},
      m ∈ resolveMember resolved n → m ∈ resolved ∨ m = n := by
    intro resolved n hm
    induction resolved with
    | nil => exact .inr (List.mem_singleton.1 hm)
    | cons r rs ih =>
      unfold resolveMember at hm
      split at hm
      · rcases List.mem_cons.1 hm with rfl | hm
        · exact .inr rfl
        · exact .inl (List.mem_cons_of_mem _ hm)
      · rcases List.mem_cons.1 hm with rfl | hm
        · exact .inl (List.mem_cons_self ..)
        · exact (ih hm).imp_left (List.mem_cons_of_mem _)
  have hfold : ∀ (members start : List (String × α)), m ∈ members.foldl resolveMember start →
      m ∈ start ∨ m ∈ members := by
    intro members
    induction members with
    | nil => exact fun _ hm => .inl hm
    | cons n members ih =>
      intro start hm
      rcases ih (resolveMember start n) hm with hm | hm
      · rcases hstep hm with hm | rfl
        · exact .inl hm
        · exact .inr (List.mem_cons_self ..)
      · exact .inr (List.mem_cons_of_mem _ hm)
  exact (hfold members [] h).resolve_left (by simp)

theorem mem_of_mem_sorted {α : Type} {members : List (String × α)} {m : String × α}
    (h : m ∈ sortedMembers members) : m ∈ members :=
  mem_of_mem_resolved ((List.mem_insertionSort _).1 h)

theorem mem_canonicalItems {items : List Json} {text : List Char}
    (h : text ∈ canonicalItems items) : ∃ item ∈ items, text = canonical item := by
  induction items with
  | nil => simp [canonicalItems] at h
  | cons item items ih =>
    rcases List.mem_cons.1 h with rfl | h
    · exact ⟨item, List.mem_cons_self .., rfl⟩
    · obtain ⟨other, hm, rfl⟩ := ih h
      exact ⟨other, List.mem_cons_of_mem _ hm, rfl⟩

theorem mem_canonicalMembers {members : List (String × Json)} {m : String × List Char}
    (h : m ∈ canonicalMembers members) : ∃ n ∈ members, m = (n.1, canonical n.2) := by
  induction members with
  | nil => simp [canonicalMembers] at h
  | cons n members ih =>
    rcases List.mem_cons.1 h with rfl | h
    · exact ⟨n, List.mem_cons_self .., by rw [canonicalMember]⟩
    · obtain ⟨other, hm, rfl⟩ := ih h
      exact ⟨other, List.mem_cons_of_mem _ hm, rfl⟩

theorem canonical_object (members : List (String × Json)) : canonical (object members) =
    '\x7b' :: commaSeparated ((sortedMembers (canonicalMembers members)).map writeMember) ++
      ['\x7d'] := rfl

theorem eq_of_map_eq {α β : Type} {f : α → β} {xs ys : List α}
    (hf : ∀ x ∈ xs, ∀ y ∈ ys, f x = f y → x = y) (h : xs.map f = ys.map f) : xs = ys := by
  induction xs generalizing ys with
  | nil => cases ys <;> simp_all
  | cons x xs ih =>
    cases ys with
    | nil => simp at h
    | cons y ys =>
      rw [List.map_cons, List.map_cons, List.cons.injEq] at h
      rw [hf x (List.mem_cons_self ..) y (List.mem_cons_self ..) h.1,
        ih (fun a ha b hb => hf a (List.mem_cons_of_mem _ ha) b (List.mem_cons_of_mem _ hb)) h.2]

theorem writeMembers_eq_nil {ms : List (String × List Char)}
    (h : commaSeparated (ms.map writeMember) = []) : ms = [] := by
  cases ms with
  | nil => rfl
  | cons m ms =>
    have heq := commaSeparated_eq_nil h
    simp [writeMember, writeString] at heq

theorem object_inj {ms ns : List (String × Json)}
    (h : ∀ m ∈ ms, ∀ n ∈ ns, Separable (canonical m.2) (canonical n.2)) {r s : List Char}
    (heq : canonical (object ms) ++ r = canonical (object ns) ++ s) :
    sortedMembers (canonicalMembers ms) = sortedMembers (canonicalMembers ns) ∧ r = s := by
  have hstart : ∀ os : List (String × Json),
      ∀ text ∈ (sortedMembers (canonicalMembers os)).map writeMember, Starts text := by
    intro os text ht c hc
    obtain ⟨m, -, rfl⟩ := List.mem_map.1 ht
    cases hc
    decide
  have hvalues : ∀ m ∈ sortedMembers (canonicalMembers ms),
      ∀ n ∈ sortedMembers (canonicalMembers ns), Separable m.2 n.2 := by
    intro m hm n hn
    obtain ⟨m', hm', rfl⟩ := mem_canonicalMembers (mem_of_mem_sorted hm)
    obtain ⟨n', hn', rfl⟩ := mem_canonicalMembers (mem_of_mem_sorted hn)
    exact h m' hm' n' hn'
  simp only [canonical_object, List.cons_append, List.append_assoc, List.nil_append,
    List.cons.injEq, true_and] at heq
  have hmembers : ∀ {m n : String × List Char}, m ∈ sortedMembers (canonicalMembers ms) →
      n ∈ sortedMembers (canonicalMembers ns) → ∀ r s, Follows r → Follows s →
      writeMember m ++ r = writeMember n ++ s → m = n ∧ r = s :=
    fun hm hn r s hr hs => writeMember_inj (hvalues _ hm _ hn) hr hs
  have hseparable : ∀ x ∈ (sortedMembers (canonicalMembers ms)).map writeMember,
      ∀ y ∈ (sortedMembers (canonicalMembers ns)).map writeMember, Separable x y := by
    intro x hx y hy r s hr hs h
    obtain ⟨m, hm, rfl⟩ := List.mem_map.1 hx
    obtain ⟨n, hn, rfl⟩ := List.mem_map.1 hy
    obtain ⟨rfl, hrs⟩ := hmembers hm hn r s hr hs h
    exact ⟨rfl, hrs⟩
  obtain ⟨hrs, hlists⟩ := commaSeparated_inj (by decide) (by decide)
    (hstart ms) (hstart ns) hseparable heq
  refine ⟨?_, hrs⟩
  rcases hlists with hlists | ⟨hm, hn⟩
  · apply eq_of_map_eq _ hlists
    intro m hm n hn h
    have hnil : Follows [] := by
      intro c hc
      cases hc
    exact (hmembers hm hn [] [] hnil hnil (by rw [h])).1
  · rw [writeMembers_eq_nil hm, writeMembers_eq_nil hn]

theorem opener_eq_of_append {a b : Json} {r s : List Char} (hr : Follows r) (hs : Follows s)
    (h : canonical a ++ r = canonical b ++ s) : opener a = opener b := by
  rw [← opener_eq a hr, h, opener_eq b hs]

theorem separable_constant {a : Json} (ha : ∀ b, opener a = opener b → a = b) (b : Json) :
    Separable (canonical a) (canonical b) := by
  intro r s hr hs h
  obtain rfl := ha b (opener_eq_of_append hr hs h)
  exact ⟨rfl, List.append_cancel_left h⟩

mutual

/-- A canonical form is read apart from what follows it. -/
theorem separable : ∀ a b : Json, Separable (canonical a) (canonical b)
  | null, b => by
    apply separable_constant
    intro b ho
    cases b with
    | null => rfl
    | bool value => cases value <;> cases ho
    | _ => cases ho
  | bool value, b => by
    apply separable_constant
    intro b ho
    cases b with
    | bool other => cases value <;> cases other <;> first | rfl | cases ho
    | _ => cases value <;> cases ho
  | number n, b => by
    intro r s hr hs h
    have ho := opener_eq_of_append hr hs h
    cases b with
    | number m => exact numbers_separable (number_chars n.value) (number_chars m.value) r s hr hs h
    | bool value => cases value <;> cases ho
    | _ => cases ho
  | str text, b => by
    intro r s hr hs h
    have ho := opener_eq_of_append hr hs h
    cases b with
    | str other =>
      obtain ⟨rfl, hrs⟩ := writeString_inj h
      exact ⟨rfl, hrs⟩
    | bool value => cases value <;> cases ho
    | _ => cases ho
  | array items, b => by
    have hitems := separableItems items
    intro r s hr hs h
    have ho := opener_eq_of_append hr hs h
    cases b with
    | array others =>
      have hstart : ∀ {os : List Json}, ∀ text ∈ canonicalItems os, Starts text := by
        intro os text ht
        obtain ⟨item, -, rfl⟩ := mem_canonicalItems ht
        exact starts_canonical item
      have hseparable : ∀ x ∈ canonicalItems items, ∀ y ∈ canonicalItems others,
          Separable x y := by
        intro x hx y hy
        obtain ⟨item, hi, rfl⟩ := mem_canonicalItems hx
        obtain ⟨other, -, rfl⟩ := mem_canonicalItems hy
        exact hitems item hi other
      simp only [canonical, List.cons_append, List.append_assoc, List.nil_append,
        List.cons.injEq, true_and] at h
      obtain ⟨rfl, hlists⟩ := commaSeparated_inj (by decide) (by decide)
        hstart hstart hseparable h
      refine ⟨?_, rfl⟩
      rcases hlists with hlists | ⟨hx, hy⟩
      · rw [canonical, canonical, hlists]
      · rw [canonical, canonical, hx, hy]
    | bool value => cases value <;> cases ho
    | _ => cases ho
  | object members, b => by
    have hmembers := separableMembers members
    intro r s hr hs h
    have ho := opener_eq_of_append hr hs h
    cases b with
    | object others =>
      obtain ⟨hlists, hrs⟩ := object_inj (fun m hm n _ => hmembers m hm n.2) h
      exact ⟨by rw [canonical_object, canonical_object, hlists], hrs⟩
    | bool value => cases value <;> cases ho
    | _ => cases ho

theorem separableItems : ∀ items : List Json, ∀ a ∈ items, ∀ b,
    Separable (canonical a) (canonical b)
  | [] => by simp
  | item :: items => by
    have hitem := separable item
    have hitems := separableItems items
    intro a ha b
    rcases List.mem_cons.1 ha with rfl | ha
    · exact hitem b
    · exact hitems a ha b

theorem separableMembers : ∀ members : List (String × Json), ∀ m ∈ members, ∀ b,
    Separable (canonical m.2) (canonical b)
  | [] => by simp
  | member :: members => by
    have hmember := separableMember member
    have hmembers := separableMembers members
    intro m hm b
    rcases List.mem_cons.1 hm with rfl | hm
    · exact hmember b
    · exact hmembers m hm b

theorem separableMember : ∀ m : String × Json, ∀ b, Separable (canonical m.2) (canonical b)
  | (_, value) => separable value

end

/-! ### Members under equal canonical forms -/

theorem opener_eq_of_canonical {a b : Json} (h : canonical a = canonical b) :
    opener a = opener b := by
  have hnil : Follows [] := by
    intro c hc
    cases hc
  exact opener_eq_of_append hnil hnil (by rw [h])

theorem asStr_of_canonical {a b : Json} (h : canonical a = canonical b) : a.asStr = b.asStr := by
  have ho := opener_eq_of_canonical h
  cases a with
  | str text =>
    cases b with
    | str other =>
      have heq := (writeString_inj (r := []) (s := []) (by simpa [canonical] using h)).1
      rw [heq]
    | bool value => cases value <;> cases ho
    | _ => cases ho
  | bool value =>
    cases b with
    | str other => cases value <;> cases ho
    | _ => rfl
  | _ =>
    cases b with
    | str other => cases ho
    | _ => rfl

/-! ### The last value of a name -/

theorem first_resolveMember {α : Type} (key : String) (resolved : List (String × α))
    (m : String × α) : Keyed.first Prod.fst key (resolveMember resolved m) =
      if m.1 = key then some m else Keyed.first Prod.fst key resolved := by
  induction resolved with
  | nil => by_cases h : m.1 = key <;> simp [resolveMember, Keyed.first, h]
  | cons r rs ih =>
    unfold resolveMember
    by_cases hr : r.1 = m.1
    · by_cases hm : m.1 = key
      · simp [Keyed.first, hr, hm]
      · simp [Keyed.first, hr, hm]
    · rw [if_neg hr]
      by_cases hk : r.1 = key
      · have hm : m.1 ≠ key := fun h => hr (hk.trans h.symm)
        simp [Keyed.first, hk, hm]
      · have hcons : ∀ rest, Keyed.first Prod.fst key (r :: rest) =
            Keyed.first Prod.fst key rest := by
          intro rest
          simp [Keyed.first, hk]
        rw [hcons, hcons, ih]

theorem keys_resolveMember {α : Type} (resolved : List (String × α)) (m : String × α) :
    (resolveMember resolved m).map Prod.fst =
      if m.1 ∈ resolved.map Prod.fst then resolved.map Prod.fst
      else resolved.map Prod.fst ++ [m.1] := by
  induction resolved with
  | nil => simp [resolveMember]
  | cons r rs ih =>
    unfold resolveMember
    by_cases hr : r.1 = m.1
    · simp [hr]
    · rw [if_neg hr, List.map_cons, ih]
      have hne : ¬ m.1 = r.1 := fun h => hr h.symm
      by_cases hm : m.1 ∈ rs.map Prod.fst <;> simp_all

theorem resolvedMembers_spec {α : Type} (members : List (String × α)) :
    ((resolvedMembers members).map Prod.fst).Nodup ∧ ∀ key,
      Keyed.first Prod.fst key (resolvedMembers members) =
        Keyed.first Prod.fst key members.reverse := by
  have hfold : ∀ (members start : List (String × α)), (start.map Prod.fst).Nodup →
      ((members.foldl resolveMember start).map Prod.fst).Nodup ∧ ∀ key,
        Keyed.first Prod.fst key (members.foldl resolveMember start) =
          (Keyed.first Prod.fst key members.reverse).or (Keyed.first Prod.fst key start) := by
    intro members
    induction members with
    | nil => exact fun start hn => ⟨hn, fun key => by simp [Keyed.first]⟩
    | cons m members ih =>
      intro start hn
      have hn' : ((resolveMember start m).map Prod.fst).Nodup := by
        rw [keys_resolveMember]
        split
        · exact hn
        · rename_i hm
          rw [List.nodup_append]
          refine ⟨hn, List.nodup_singleton _, fun k hk l hl => ?_⟩
          rw [List.mem_singleton.1 hl]
          exact fun h => hm (h ▸ hk)
      obtain ⟨hnodup, hfirst⟩ := ih (resolveMember start m) hn'
      refine ⟨hnodup, fun key => ?_⟩
      rw [List.foldl_cons, hfirst, first_resolveMember]
      simp only [Keyed.first, List.reverse_cons, List.find?_append, Option.or_assoc]
      congr 1
      by_cases hm : m.1 = key <;> simp [hm]
  obtain ⟨hn, hfirst⟩ := hfold members [] (by simp)
  exact ⟨hn, fun key => by simpa [Keyed.first, resolvedMembers] using hfirst key⟩

theorem canonicalMembers_eq (members : List (String × Json)) :
    canonicalMembers members = members.map fun m => (m.1, canonical m.2) := by
  induction members with
  | nil => rfl
  | cons m members ih => rw [canonicalMembers, canonicalMember, ih, List.map_cons]

theorem lookup_canonical (key : String) (members : List (String × Json)) :
    (lookup key members).map canonical =
      (Keyed.first Prod.fst key (sortedMembers (canonicalMembers members))).map Prod.snd := by
  obtain ⟨hn, hfirst⟩ := resolvedMembers_spec (canonicalMembers members)
  rw [sortedMembers, ← Keyed.first_perm hn (List.perm_insertionSort _ _).symm, hfirst,
    canonicalMembers_eq, ← List.map_reverse, Keyed.first, List.find?_map, lookup]
  simp [Function.comp_def]

theorem get_of_canonical {a b : Json} (h : canonical a = canonical b) (key : String) :
    (a.get key).map canonical = (b.get key).map canonical := by
  have ho := opener_eq_of_canonical h
  cases a with
  | object members =>
    cases b with
    | object others =>
      have heq : sortedMembers (canonicalMembers members) =
          sortedMembers (canonicalMembers others) :=
        (object_inj (r := []) (s := []) (fun m _ n _ => separable m.2 n.2) (by rw [h])).1
      simp only [get, lookup_canonical, heq]
    | bool value => cases value <;> cases ho
    | _ => cases ho
  | bool value =>
    cases b with
    | object others => cases value <;> cases ho
    | _ => rfl
  | _ =>
    cases b with
    | object others => cases ho
    | _ => rfl

theorem getStr_of_canonical {a b : Json} (h : canonical a = canonical b) (key : String) :
    a.getStr key = b.getStr key := by
  have hget := get_of_canonical h key
  rw [getStr, getStr]
  cases ha : a.get key <;> cases hb : b.get key <;> simp only [ha, hb, Option.map_some,
    Option.map_none, Option.some.injEq, reduceCtorEq] at hget
  · rfl
  · exact asStr_of_canonical hget

end Json
end FilamentCore.SemanticIr
