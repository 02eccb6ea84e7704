import Mathlib

/-!
# Versions and version constraints (src/compiler/packages/resolve.mjs)

`parseVersion`, `compareVersions`, `parseConstraint` and `satisfies`. A numeric
component is read by `Number`, so two components past `2^53` can compare equal;
the order is nevertheless the order of a key in a linear order, which is what the
selection of candidates rests on.
-/

namespace FilamentCore.Packages

/-! ### Numbers and text -/

/-- `Number(digits)` for an unsigned decimal integer: the nearest binary64 value,
ties to even. Every value from `2^1024` on is `Infinity`, written `2^1024`. -/
def nearestDouble (n : ℕ) : ℕ :=
  if n < 2 ^ 53 then n
  else
    let e := n.log2 - 52
    let q := n / 2 ^ e
    let r := n % 2 ^ e
    let q' := if 2 ^ e < 2 * r ∨ (2 * r = 2 ^ e ∧ q % 2 = 1) then q + 1 else q
    min (q' * 2 ^ e) (2 ^ 1024)

/-- The integer a run of decimal digits spells. -/
def digitsValue (ds : List Char) : ℕ :=
  ds.foldl (fun acc c => 10 * acc + (c.toNat - '0'.toNat)) 0

def isDigit (c : Char) : Bool := '0' ≤ c && c ≤ '9'

/-- `[0-9A-Za-z.-]`, the characters of a prerelease or build tail. -/
def isTailChar (c : Char) : Bool :=
  isDigit c || ('A' ≤ c && c ≤ 'Z') || ('a' ≤ c && c ≤ 'z') || c == '.' || c == '-'

/-- The UTF-16 code units of a text, which is what `<` compares in JavaScript. -/
def codeUnits (s : List Char) : List ℕ :=
  s.flatMap fun c =>
    if c.toNat < 0x10000 then [c.toNat]
    else [0xD800 + (c.toNat - 0x10000) / 0x400, 0xDC00 + (c.toNat - 0x10000) % 0x400]

theorem codeUnits_injective : Function.Injective codeUnits := by
  intro s t h
  induction s generalizing t with
  | nil =>
    cases t with
    | nil => rfl
    | cons d t =>
      simp only [codeUnits, List.flatMap_nil, List.flatMap_cons] at h
      split at h <;> simp at h
  | cons c s ih =>
    cases t with
    | nil =>
      simp only [codeUnits, List.flatMap_nil, List.flatMap_cons] at h
      split at h <;> simp at h
    | cons d t =>
      have hc : c.toNat < 0xD800 ∨ 0xDFFF < c.toNat ∧ c.toNat < 0x110000 := c.valid
      have hd : d.toNat < 0xD800 ∨ 0xDFFF < d.toNat ∧ d.toNat < 0x110000 := d.valid
      have key : c.toNat = d.toNat ∧ codeUnits s = codeUnits t := by
        simp only [codeUnits, List.flatMap_cons] at h ⊢
        split at h <;> split at h <;>
          simp only [List.cons_append, List.nil_append, List.cons.injEq] at h
        · exact h
        · omega
        · omega
        · exact ⟨by omega, h.2.2⟩
      rw [Char.ext (UInt32.toNat_inj.1 key.1), ih key.2]

def byCodePoint (left right : String) : Ordering :=
  cmp (codeUnits left.toList) (codeUnits right.toList)

/-- `text.split(".")` over characters. -/
def splitDots : List Char → List (List Char)
  | [] => [[]]
  | c :: cs =>
    if c = '.' then [] :: splitDots cs
    else match splitDots cs with
      | [] => [[c]]
      | part :: parts => (c :: part) :: parts

/-! ### parseVersion -/

/-- A parsed version; an absent prerelease is `""`, as in the source. -/
structure Version where
  major : ℕ
  minor : ℕ
  patch : ℕ
  prerelease : List Char
  deriving DecidableEq, Repr

/-- `(0|[1-9][0-9]*)`: the digits and what follows them. -/
def numericField (s : List Char) : Option (ℕ × List Char) :=
  let ds := s.takeWhile isDigit
  if ds = [] ∨ (ds.head? = some '0' ∧ 1 < ds.length) then none
  else some (nearestDouble (digitsValue ds), s.dropWhile isDigit)

/-- A numeric field and the `.` after it. -/
def dottedField (s : List Char) : Option (ℕ × List Char) :=
  match numericField s with
  | some (n, '.' :: rest) => some (n, rest)
  | _ => none

/-- `(?:\+[0-9A-Za-z.-]+)?$`. -/
def buildTail : List Char → Bool
  | [] => true
  | c :: cs => c == '+' && cs ≠ [] && cs.all isTailChar

/-- `(?:-([0-9A-Za-z.-]+))?` and the build tail: the prerelease, `""` when absent. -/
def prereleaseTail : List Char → Option (List Char)
  | '-' :: cs =>
    let pre := cs.takeWhile isTailChar
    if pre ≠ [] ∧ buildTail (cs.dropWhile isTailChar) then some pre else none
  | cs => if buildTail cs then some [] else none

/-- `parseVersion(value)`: `SEMVER.exec`, its components read by `Number`. -/
def parseVersionChars (s : List Char) : Option Version := do
  let (major, s) ← dottedField s
  let (minor, s) ← dottedField s
  let (patch, s) ← numericField s
  let prerelease ← prereleaseTail s
  return { major, minor, patch, prerelease }

def parseVersion (value : String) : Option Version := parseVersionChars value.toList

/-! ### compareVersions -/

/-- `/^\d+$/.test(field)`. -/
def isNumericIdentifier (field : List Char) : Bool := field ≠ [] && field.all isDigit

/-- One round of the loop over prerelease identifiers, both present. -/
def compareIdentifier (a b : List Char) : Ordering :=
  if isNumericIdentifier a && isNumericIdentifier b then
    cmp (nearestDouble (digitsValue a)) (nearestDouble (digitsValue b))
  else if isNumericIdentifier a != isNumericIdentifier b then
    if isNumericIdentifier a then .lt else .gt
  else cmp (codeUnits a) (codeUnits b)

/-- The loop over `Math.max(a.length, b.length)` prerelease identifiers. -/
def compareIdentifiers : List (List Char) → List (List Char) → Ordering
  | [], [] => .eq
  | [], _ :: _ => .lt
  | _ :: _, [] => .gt
  | a :: as, b :: bs =>
    match compareIdentifier a b with
    | .eq => compareIdentifiers as bs
    | order => order

/-- `compareVersions(left, right)`, as the sign of the number it returns. -/
def compareVersions (left right : Version) : Ordering :=
  if left.major ≠ right.major then cmp left.major right.major
  else if left.minor ≠ right.minor then cmp left.minor right.minor
  else if left.patch ≠ right.patch then cmp left.patch right.patch
  else if left.prerelease = right.prerelease then .eq
  else if left.prerelease = [] then .gt
  else if right.prerelease = [] then .lt
  else compareIdentifiers (splitDots left.prerelease) (splitDots right.prerelease)

/-! ### parseConstraint and satisfies -/

inductive ConstraintKind where
  | exact
  | caret
  deriving DecidableEq, Repr

structure Constraint where
  kind : ConstraintKind
  version : Version
  deriving DecidableEq, Repr

/-- `parseConstraint(value)`: `^` and a version, or a version. -/
def parseConstraint (value : String) : Option Constraint :=
  match value.toList with
  | '^' :: rest => (parseVersionChars rest).map (Constraint.mk .caret)
  | text => (parseVersionChars text).map (Constraint.mk .exact)

def satisfies (version : Version) (constraint : Constraint) : Bool :=
  match constraint.kind with
  | .exact => compareVersions version constraint.version == .eq
  | .caret =>
    let base := constraint.version
    if version.prerelease ≠ [] ∧ (base.prerelease = [] ∨ version.major ≠ base.major ∨
        version.minor ≠ base.minor ∨ version.patch ≠ base.patch) then false
    else if compareVersions version base == .lt then false
    else if 0 < base.major then version.major == base.major
    else if 0 < base.minor then version.major == 0 && version.minor == base.minor
    else version.major == 0 && version.minor == 0 && version.patch == base.patch

/-! ### The order is the order of a key -/

/-- A prerelease identifier in its order: numeric ones by value, below the others. -/
def identifierKey (field : List Char) : ℕ ⊕ₗ List ℕ :=
  if isNumericIdentifier field then Sum.inlₗ (nearestDouble (digitsValue field))
  else Sum.inrₗ (codeUnits field)

def prereleaseKey (pre : List Char) : WithTop (List (ℕ ⊕ₗ List ℕ)) :=
  if pre = [] then ⊤ else ((splitDots pre).map identifierKey : List (ℕ ⊕ₗ List ℕ))

def Version.key (v : Version) : ℕ ×ₗ ℕ ×ₗ ℕ ×ₗ WithTop (List (ℕ ⊕ₗ List ℕ)) :=
  toLex (v.major, toLex (v.minor, toLex (v.patch, prereleaseKey v.prerelease)))

theorem compares_cmp {α : Type*} [LinearOrder α] [DecidableLT α] (a b : α) :
    (cmp a b).Compares a b := by
  rcases lt_trichotomy a b with h | h | h
  · simp only [cmp, cmpUsing, h, if_true, Ordering.Compares]
  · simp only [cmp, cmpUsing, h, lt_irrefl, if_false, Ordering.Compares]
  · simp only [cmp, cmpUsing, h, not_lt_of_gt h, if_true, if_false, Ordering.Compares]

theorem compares_cons {α : Type*} [LinearOrder α] {a b : α} {as bs : List α} {o o' : Ordering}
    (h : o.Compares a b) (h' : o'.Compares as bs) : (o.then o').Compares (a :: as) (b :: bs) := by
  cases o with
  | lt => exact List.cons_lt_cons_iff.2 (Or.inl h)
  | gt => exact List.cons_lt_cons_iff.2 (Or.inl h)
  | eq =>
    have hab : a = b := h
    subst hab
    cases o' with
    | lt => exact List.cons_lt_cons_iff.2 (Or.inr ⟨rfl, h'⟩)
    | gt => exact List.cons_lt_cons_iff.2 (Or.inr ⟨rfl, h'⟩)
    | eq => exact congrArg (a :: ·) h'

theorem compares_toLex {α β : Type*} [LinearOrder α] [LinearOrder β] {a c : α} {b d : β}
    {o o' : Ordering} (h : o.Compares a c) (h' : o'.Compares b d) :
    (o.then o').Compares (toLex (a, b)) (toLex (c, d)) := by
  cases o with
  | lt => exact Prod.Lex.toLex_lt_toLex.2 (Or.inl h)
  | gt => exact Prod.Lex.toLex_lt_toLex.2 (Or.inl h)
  | eq =>
    have hac : a = c := h
    subst hac
    cases o' with
    | lt => exact Prod.Lex.toLex_lt_toLex.2 (Or.inr ⟨rfl, h'⟩)
    | gt => exact Prod.Lex.toLex_lt_toLex.2 (Or.inr ⟨rfl, h'⟩)
    | eq => exact congrArg (fun x => toLex (a, x)) h'

theorem compareIdentifier_compares (a b : List Char) :
    (compareIdentifier a b).Compares (identifierKey a) (identifierKey b) := by
  unfold compareIdentifier identifierKey
  have hn := compares_cmp (nearestDouble (digitsValue a)) (nearestDouble (digitsValue b))
  have hs := compares_cmp (codeUnits a) (codeUnits b)
  by_cases ha : isNumericIdentifier a = true <;> by_cases hb : isNumericIdentifier b = true
  · rw [if_pos (by simp [ha, hb]), if_pos ha, if_pos hb]
    cases hc : cmp (nearestDouble (digitsValue a)) (nearestDouble (digitsValue b)) <;>
      simpa [hc, Ordering.Compares] using hn
  · simp [ha, hb, Ordering.Compares]
  · simp [ha, hb, Ordering.Compares]
  · rw [if_neg (by simp [ha]), if_neg (by simp [ha, hb]), if_neg ha, if_neg hb]
    cases hc : cmp (codeUnits a) (codeUnits b) <;>
      simpa [hc, Ordering.Compares] using hs

theorem compareIdentifiers_compares (as bs : List (List Char)) :
    (compareIdentifiers as bs).Compares (as.map identifierKey) (bs.map identifierKey) := by
  induction as generalizing bs with
  | nil =>
    cases bs with
    | nil => rfl
    | cons b bs => exact List.nil_lt_cons _ _
  | cons a as ih =>
    cases bs with
    | nil => exact List.nil_lt_cons _ _
    | cons b bs =>
      have hstep : compareIdentifiers (a :: as) (b :: bs) =
          (compareIdentifier a b).then (compareIdentifiers as bs) := by
        simp only [compareIdentifiers]
        cases compareIdentifier a b <;> rfl
      rw [hstep]
      exact compares_cons (compareIdentifier_compares a b) (ih bs)

/-- The branch of `compareVersions` past the three numbers. -/
def comparePrerelease (left right : List Char) : Ordering :=
  if left = right then .eq
  else if left = [] then .gt
  else if right = [] then .lt
  else compareIdentifiers (splitDots left) (splitDots right)

theorem comparePrerelease_compares (left right : List Char) :
    (comparePrerelease left right).Compares (prereleaseKey left) (prereleaseKey right) := by
  unfold comparePrerelease
  by_cases he : left = right
  · rw [if_pos he, he]
    rfl
  rw [if_neg he]
  by_cases hl : left = []
  · have hr : right ≠ [] := fun hr => he (hl.trans hr.symm)
    rw [if_pos hl, prereleaseKey, prereleaseKey, if_pos hl, if_neg hr]
    exact WithTop.coe_lt_top _
  rw [if_neg hl]
  by_cases hr : right = []
  · rw [if_pos hr, prereleaseKey, prereleaseKey, if_neg hl, if_pos hr]
    exact WithTop.coe_lt_top _
  rw [if_neg hr, prereleaseKey, prereleaseKey, if_neg hl, if_neg hr]
  have h := compareIdentifiers_compares (splitDots left) (splitDots right)
  cases hc : compareIdentifiers (splitDots left) (splitDots right) <;>
    simpa [hc, Ordering.Compares] using h

theorem compareVersions_compares (left right : Version) :
    (compareVersions left right).Compares left.key right.key := by
  have hthen : compareVersions left right =
      (cmp left.major right.major).then ((cmp left.minor right.minor).then
        ((cmp left.patch right.patch).then
          (comparePrerelease left.prerelease right.prerelease))) := by
    have hne (a b : ℕ) (h : a ≠ b) (o : Ordering) : (cmp a b).then o = cmp a b := by
      rcases Nat.lt_or_gt_of_ne h with h | h
      · rw [(cmp_eq_lt_iff a b).2 h, Ordering.lt_then]
      · rw [(cmp_eq_gt_iff a b).2 h, Ordering.gt_then]
    unfold compareVersions comparePrerelease
    by_cases h₁ : left.major = right.major
    · rw [if_neg (not_not.2 h₁), h₁, cmp_self_eq_eq, Ordering.eq_then]
      by_cases h₂ : left.minor = right.minor
      · rw [if_neg (not_not.2 h₂), h₂, cmp_self_eq_eq, Ordering.eq_then]
        by_cases h₃ : left.patch = right.patch
        · rw [if_neg (not_not.2 h₃), h₃, cmp_self_eq_eq, Ordering.eq_then]
        · rw [if_pos h₃, hne _ _ h₃]
      · rw [if_pos h₂, hne _ _ h₂]
    · rw [if_pos h₁, hne _ _ h₁]
  rw [hthen]
  exact compares_toLex (compares_cmp _ _) (compares_toLex (compares_cmp _ _)
    (compares_toLex (compares_cmp _ _) (comparePrerelease_compares _ _)))

theorem compareVersions_eq_iff (left right : Version) :
    compareVersions left right = .eq ↔ left.key = right.key :=
  (compareVersions_compares left right).eq_eq

theorem compareVersions_lt_iff (left right : Version) :
    compareVersions left right = .lt ↔ left.key < right.key :=
  (compareVersions_compares left right).eq_lt

theorem compareVersions_gt_iff (left right : Version) :
    compareVersions left right = .gt ↔ right.key < left.key :=
  (compareVersions_compares left right).eq_gt

theorem byCodePoint_ne_gt_iff (left right : String) :
    byCodePoint left right ≠ .gt ↔ codeUnits left.toList ≤ codeUnits right.toList := by
  have h := compares_cmp (codeUnits left.toList) (codeUnits right.toList)
  rw [← not_lt]
  exact not_congr h.eq_gt

end FilamentCore.Packages
