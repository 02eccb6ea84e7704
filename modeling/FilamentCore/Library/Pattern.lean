import FilamentCore.Library.Regex

/-!
# Patterns as they are written

The syntax of the patterns that a program assembles, the text each is written as, the regular
expression it stands for and the language that is read by one without anchors.
-/

namespace FilamentCore.Library

inductive Pattern where
  | empty
  | char (c : Char)
  | range (low high : Char)
  | counted (p : Pattern) (n : ℕ)
  | between (p : Pattern) (low high : ℕ)
  | many (p : Pattern)
  | some (p : Pattern)
  | optional (p : Pattern)
  | group (p : Pattern)
  | followed (p q : Pattern)
  | either (p q : Pattern)
  | ahead (p : Pattern)
  | notAhead (p : Pattern)
  | start
  | finish

namespace Regex

variable {α : Type}

/-- `r{n}`. -/
def times (r : Regex α) : ℕ → Regex α
  | 0 => .empty
  | n + 1 => .seq r (times r n)

/-- `r{0,n}`. -/
def upTo (r : Regex α) : ℕ → Regex α
  | 0 => .empty
  | n + 1 => opt (.seq r (upTo r n))

end Regex

namespace Pattern
open Regex

/-- A point stands for itself only behind a backslash. -/
def text : Pattern → List Char
  | .empty => []
  | .char c => if c = '.' then ['\\', c] else [c]
  | .range low high => ['[', low, '-', high, ']']
  | .counted p n => p.text ++ '{' :: (toString n).toList ++ ['}']
  | .between p low high =>
    p.text ++ '{' :: (toString low).toList ++ ',' :: (toString high).toList ++ ['}']
  | .many p => p.text ++ ['*']
  | .some p => p.text ++ ['+']
  | .optional p => p.text ++ ['?']
  | .group p => "(?:".toList ++ p.text ++ [')']
  | .followed p q => p.text ++ q.text
  | .either p q => p.text ++ '|' :: q.text
  | .ahead p => "(?=".toList ++ p.text ++ [')']
  | .notAhead p => "(?!".toList ++ p.text ++ [')']
  | .start => ['^']
  | .finish => ['$']

def regex : Pattern → Regex Char
  | .empty => .empty
  | .char c => lit c
  | .range low high => .set fun c => low ≤ c && c ≤ high
  | .counted p n => p.regex.times n
  | .between p low high => .seq (p.regex.times low) (p.regex.upTo (high - low))
  | .many p => .star p.regex
  | .some p => plus p.regex
  | .optional p => opt p.regex
  | .group p => p.regex
  | .followed p q => .seq p.regex q.regex
  | .either p q => .alt p.regex q.regex
  | .ahead p => .ahead (.ahead p.regex)
  | .notAhead p => .ahead p.regex
  | .start => .start
  | .finish => .finish

def cat : List Pattern → Pattern
  | [] => .empty
  | [p] => p
  | p :: ps => .followed p (cat ps)

/-- `join("|")`. -/
def alts : List Pattern → Pattern
  | [] => .empty
  | [p] => p
  | p :: ps => .either p (alts ps)

def word (cs : List Char) : Pattern := cat (cs.map .char)

end Pattern

namespace Regex

variable {α : Type}

/-- What is read does not depend on what is around it. -/
def Reads (r : Regex α) (L : Language α) : Prop :=
  ∀ whole s t : List α, Leads whole r s t ↔ ∃ w ∈ L, s = w ++ t

/-- What is read up to the end of the text. -/
def Ends (r : Regex α) (L : Language α) : Prop :=
  ∀ whole s : List α, Leads whole r s [] ↔ s ∈ L

variable {r r' : Regex α} {L M : Language α} {member : α → Bool}

theorem reads_empty : Reads (.empty : Regex α) 1 := by
  intro whole s t
  constructor
  · intro h
    exact ⟨[], rfl, h⟩
  · rintro ⟨w, hw, rfl⟩
    rw [(Language.mem_one _).1 hw]
    rfl

theorem reads_seq (h : Reads r L) (h' : Reads r' M) : Reads (.seq r r') (L * M) := by
  intro whole s t
  constructor
  · rintro ⟨u, hfirst, hsecond⟩
    obtain ⟨w, hw, rfl⟩ := (h whole s u).1 hfirst
    obtain ⟨v, hv, rfl⟩ := (h' whole u t).1 hsecond
    exact ⟨w ++ v, Language.append_mem_mul hw hv, (List.append_assoc ..).symm⟩
  · rintro ⟨x, hx, rfl⟩
    obtain ⟨w, hw, v, hv, rfl⟩ := Language.mem_mul.1 hx
    exact ⟨v ++ t, (h whole _ _).2 ⟨w, hw, List.append_assoc ..⟩, (h' whole _ _).2 ⟨v, hv, rfl⟩⟩

theorem reads_alt (h : Reads r L) (h' : Reads r' M) : Reads (.alt r r') (L + M) := by
  intro whole s t
  constructor
  · rintro (hleft | hright)
    · obtain ⟨w, hw, rfl⟩ := (h whole s t).1 hleft
      exact ⟨w, .inl hw, rfl⟩
    · obtain ⟨w, hw, rfl⟩ := (h' whole s t).1 hright
      exact ⟨w, .inr hw, rfl⟩
  · rintro ⟨w, hw | hw, rfl⟩
    · exact .inl ((h whole _ t).2 ⟨w, hw, rfl⟩)
    · exact .inr ((h' whole _ t).2 ⟨w, hw, rfl⟩)

/-- Texts of a length, all of one class. -/
def runs (member : α → Bool) (lengths : Set ℕ) : Language α :=
  {w | w.length ∈ lengths ∧ ∀ c ∈ w, member c = true}

theorem mem_runs {lengths : Set ℕ} {w : List α} :
    w ∈ runs member lengths ↔ w.length ∈ lengths ∧ ∀ c ∈ w, member c = true := Iff.rfl

theorem reads_set : Reads (.set member) (runs member {1}) := by
  intro whole s t
  constructor
  · rintro ⟨c, hc, rfl⟩
    exact ⟨[c], ⟨rfl, by simpa using hc⟩, rfl⟩
  · rintro ⟨w, ⟨hlength, hw⟩, rfl⟩
    obtain ⟨c, rfl⟩ := List.length_eq_one_iff.1 hlength
    exact ⟨c, hw c (List.mem_singleton_self c), rfl⟩

theorem reads_lit [DecidableEq α] (c : α) : Reads (lit c) {[c]} := by
  intro whole s t
  rw [leads_lit]
  constructor
  · rintro rfl
    exact ⟨[c], rfl, rfl⟩
  · rintro ⟨w, rfl, rfl⟩
    rfl

theorem reads_star_set : Reads (.star (.set member)) (runs member Set.univ) := by
  intro whole s t
  rw [leads_star_set]
  constructor
  · rintro ⟨w, hw, rfl⟩
    exact ⟨w, ⟨trivial, hw⟩, rfl⟩
  · rintro ⟨w, ⟨-, hw⟩, rfl⟩
    exact ⟨w, hw, rfl⟩

theorem reads_plus_set : Reads (plus (.set member)) (runs member (Set.Ici 1)) := by
  intro whole s t
  rw [leads_plus_set]
  constructor
  · rintro ⟨w, hne, hw, rfl⟩
    exact ⟨w, ⟨List.length_pos_iff.2 hne, hw⟩, rfl⟩
  · rintro ⟨w, ⟨hpos, hw⟩, rfl⟩
    exact ⟨w, List.length_pos_iff.1 hpos, hw, rfl⟩

theorem runs_cons {n : ℕ} :
    runs member {1} * runs member {n} = runs member {n + 1} := by
  ext x
  rw [Language.mem_mul]
  constructor
  · rintro ⟨a, ⟨ha, hma⟩, b, ⟨hb, hmb⟩, rfl⟩
    rw [Set.mem_singleton_iff] at ha hb
    refine ⟨?_, List.forall_mem_append.2 ⟨hma, hmb⟩⟩
    rw [Set.mem_singleton_iff, List.length_append]
    omega
  · rintro ⟨hx, hm⟩
    cases x with
    | nil => cases hx
    | cons c cs =>
      rw [List.forall_mem_cons] at hm
      rw [Set.mem_singleton_iff, List.length_cons, Nat.add_right_cancel_iff] at hx
      exact ⟨[c], ⟨rfl, by simpa using hm.1⟩, cs, ⟨hx, hm.2⟩, rfl⟩

theorem reads_times_set (n : ℕ) : Reads ((Regex.set member).times n) (runs member {n}) := by
  induction n with
  | zero =>
    intro whole s t
    constructor
    · intro h
      exact ⟨[], ⟨rfl, by simp⟩, h⟩
    · rintro ⟨w, ⟨hw, -⟩, rfl⟩
      rw [List.length_eq_zero_iff.1 hw]
      rfl
  | succ n ih =>
    rw [times, ← runs_cons]
    exact reads_seq reads_set ih

theorem reads_upTo_set (n : ℕ) : Reads ((Regex.set member).upTo n) (runs member (Set.Iic n)) := by
  induction n with
  | zero =>
    intro whole s t
    constructor
    · intro h
      exact ⟨[], ⟨Nat.le_refl 0, by simp⟩, h⟩
    · rintro ⟨w, ⟨hw, -⟩, rfl⟩
      rw [List.length_eq_zero_iff.1 (Nat.le_zero.1 hw)]
      rfl
  | succ n ih =>
    have hstep : Reads ((Regex.set member).upTo (n + 1))
        (runs member {1} * runs member (Set.Iic n) + 1) :=
      reads_alt (reads_seq reads_set ih) reads_empty
    have heq : runs member {1} * runs member (Set.Iic n) + 1 = runs member (Set.Iic (n + 1)) := by
      ext x
      rw [Language.mem_add, Language.mem_mul, Language.mem_one, mem_runs, Set.mem_Iic]
      constructor
      · rintro (⟨a, ⟨ha, hma⟩, b, ⟨hb, hmb⟩, rfl⟩ | rfl)
        · rw [Set.mem_singleton_iff] at ha
          rw [Set.mem_Iic] at hb
          refine ⟨?_, List.forall_mem_append.2 ⟨hma, hmb⟩⟩
          rw [List.length_append]
          omega
        · exact ⟨Nat.zero_le _, by simp⟩
      · rintro ⟨hx, hm⟩
        cases x with
        | nil => exact .inr rfl
        | cons c cs =>
          rw [List.forall_mem_cons] at hm
          rw [List.length_cons, Nat.add_le_add_iff_right] at hx
          exact .inl ⟨[c], ⟨rfl, by simpa using hm.1⟩, cs, ⟨hx, hm.2⟩, rfl⟩
    rwa [heq] at hstep

theorem reads_between_set {low high : ℕ} (h : low ≤ high) :
    Reads (.seq ((Regex.set member).times low) ((Regex.set member).upTo (high - low)))
      (runs member (Set.Icc low high)) := by
  have heq : runs member {low} * runs member (Set.Iic (high - low)) =
      runs member (Set.Icc low high) := by
    ext x
    rw [Language.mem_mul, mem_runs, Set.mem_Icc]
    constructor
    · rintro ⟨a, ⟨ha, hma⟩, b, ⟨hb, hmb⟩, rfl⟩
      rw [Set.mem_singleton_iff] at ha
      rw [Set.mem_Iic] at hb
      refine ⟨?_, List.forall_mem_append.2 ⟨hma, hmb⟩⟩
      rw [List.length_append]
      omega
    · rintro ⟨hx, hm⟩
      refine ⟨x.take low, ⟨?_, fun c hc => hm c (List.mem_of_mem_take hc)⟩, x.drop low,
        ⟨?_, fun c hc => hm c (List.mem_of_mem_drop hc)⟩, List.take_append_drop low x⟩
      · rw [Set.mem_singleton_iff, List.length_take]
        omega
      · rw [Set.mem_Iic, List.length_drop]
        omega
  rw [← heq]
  exact reads_seq (reads_times_set low) (reads_upTo_set _)

theorem Reads.ends (h : Reads r L) : Ends r L := by
  intro whole s
  rw [h whole s []]
  constructor
  · rintro ⟨w, hw, rfl⟩
    rwa [List.append_nil]
  · intro hs
    exact ⟨s, hs, (List.append_nil s).symm⟩

theorem ends_alt (h : Ends r L) (h' : Ends r' M) : Ends (.alt r r') (L + M) :=
  fun whole s => or_congr (h whole s) (h' whole s)

theorem ends_seq (h : Reads r L) (h' : Ends r' M) : Ends (.seq r r') (L * M) := by
  intro whole s
  constructor
  · rintro ⟨u, hfirst, hsecond⟩
    obtain ⟨w, hw, rfl⟩ := (h whole s u).1 hfirst
    exact Language.append_mem_mul hw ((h' whole u).1 hsecond)
  · intro hs
    obtain ⟨w, hw, v, hv, rfl⟩ := Language.mem_mul.1 hs
    exact ⟨v, (h whole _ v).2 ⟨w, hw, rfl⟩, (h' whole v).2 hv⟩

/-- The texts of a language that are not of another. -/
def without (M L : Language α) : Language α := {w | w ∈ M ∧ w ∉ L}

theorem mem_without {w : List α} : w ∈ without M L ↔ w ∈ M ∧ w ∉ L := Iff.rfl

/-- The texts of a language that begin with one of another. -/
def startingWith (M L : Language α) : Language α := {w | w ∈ M ∧ ∃ u ∈ L, u <+: w}

theorem ends_ahead (h : Reads r L) (h' : Ends r' M) :
    Ends (.seq (.ahead (.ahead r)) r') (startingWith M L) := by
  intro whole s
  have hahead : (∃ t, Leads whole r s t) ↔ ∃ u ∈ L, u <+: s := by
    constructor
    · rintro ⟨t, ht⟩
      obtain ⟨u, hu, rfl⟩ := (h whole s t).1 ht
      exact ⟨u, hu, List.prefix_append u t⟩
    · rintro ⟨u, hu, t, rfl⟩
      exact ⟨t, (h whole _ t).2 ⟨u, hu, rfl⟩⟩
  constructor
  · rintro ⟨t, ⟨rfl, hnot⟩, hrest⟩
    refine ⟨(h' whole _).1 hrest, hahead.1 ?_⟩
    by_contra hnone
    exact hnot ⟨s, rfl, hnone⟩
  · rintro ⟨hs, hex⟩
    refine ⟨s, ⟨rfl, ?_⟩, (h' whole s).2 hs⟩
    rintro ⟨t, -, hnone⟩
    exact hnone (hahead.2 hex)

theorem ends_notAhead (h : Ends r L) (h' : Ends r' M) :
    Ends (.seq (.ahead (.seq r .finish)) r') (without M L) := by
  intro whole s
  have hahead : (∃ u, Leads whole (.seq r .finish) s u) ↔ s ∈ L := by
    rw [← h whole s]
    constructor
    · rintro ⟨u, v, hv, rfl, rfl⟩
      exact hv
    · intro hs
      exact ⟨[], [], hs, rfl, rfl⟩
  constructor
  · rintro ⟨u, ⟨rfl, hnot⟩, hrest⟩
    exact ⟨(h' whole _).1 hrest, fun hs => hnot (hahead.2 hs)⟩
  · rintro ⟨hs, hnot⟩
    exact ⟨s, ⟨rfl, fun hex => hnot (hahead.1 hex)⟩, (h' whole s).2 hs⟩

/-! ### The language of a pattern -/

/-- What is read of a text that has nothing else. -/
def language (r : Regex α) : Language α := {w | Leads w r w []}

theorem Ends.language_eq (h : Ends r L) : language r = L := by
  ext w
  exact h w w

theorem Reads.language_eq (h : Reads r L) : language r = L := h.ends.language_eq

end Regex

namespace Pattern
open Regex

theorem reads_word (cs : List Char) : Reads (word cs).regex {cs} := by
  induction cs with
  | nil => exact reads_empty
  | cons c cs ih =>
    cases cs with
    | nil => exact reads_lit c
    | cons d ds =>
      have hword : Reads (word (c :: d :: ds)).regex ({[c]} * {d :: ds}) :=
        reads_seq (reads_lit c) ih
      have heq : ({[c]} : Language Char) * {d :: ds} = {c :: d :: ds} := by
        ext x
        rw [Language.mem_mul]
        constructor
        · rintro ⟨a, rfl, b, rfl, rfl⟩
          rfl
        · rintro rfl
          exact ⟨[c], rfl, d :: ds, rfl, rfl⟩
      rwa [heq] at hword

/-- What one of the alternatives reads. -/
def anyOf (ps : List Pattern) : Language Char := {w | ∃ p ∈ ps, w ∈ language p.regex}

theorem mem_anyOf {ps : List Pattern} {w : List Char} :
    w ∈ anyOf ps ↔ ∃ p ∈ ps, w ∈ language p.regex := Iff.rfl

theorem anyOf_singleton (p : Pattern) : anyOf [p] = language p.regex := by
  ext w
  rw [mem_anyOf, List.exists_mem_cons_iff]
  constructor
  · rintro (hw | ⟨q, hq, -⟩)
    · exact hw
    · exact absurd hq List.not_mem_nil
  · exact Or.inl

theorem anyOf_cons (p : Pattern) (ps : List Pattern) :
    anyOf (p :: ps) = language p.regex + anyOf ps := by
  ext w
  rw [mem_anyOf, List.exists_mem_cons_iff, Language.mem_add, mem_anyOf]

variable {ps : List Pattern}

theorem reads_alts (hne : ps ≠ []) (h : ∀ p ∈ ps, ∃ L, Reads p.regex L) :
    Reads (alts ps).regex (anyOf ps) := by
  induction ps with
  | nil => exact absurd rfl hne
  | cons p ps ih =>
    rw [List.forall_mem_cons] at h
    obtain ⟨⟨L, hp⟩, hps⟩ := h
    rw [← hp.language_eq] at hp
    cases ps with
    | nil =>
      rw [anyOf_singleton]
      exact hp
    | cons q qs =>
      rw [anyOf_cons]
      exact reads_alt hp (ih (List.cons_ne_nil q qs) hps)

theorem ends_alts (hne : ps ≠ []) (h : ∀ p ∈ ps, ∃ L, Ends p.regex L) :
    Ends (alts ps).regex (anyOf ps) := by
  induction ps with
  | nil => exact absurd rfl hne
  | cons p ps ih =>
    rw [List.forall_mem_cons] at h
    obtain ⟨⟨L, hp⟩, hps⟩ := h
    rw [← hp.language_eq] at hp
    cases ps with
    | nil =>
      rw [anyOf_singleton]
      exact hp
    | cons q qs =>
      rw [anyOf_cons]
      exact ends_alt hp (ih (List.cons_ne_nil q qs) hps)

/-- `^p$` is found in the texts that `p` reads to their end. -/
theorem found_anchored {p : Pattern} {L : Language Char} (h : Ends p.regex L) (text : List Char) :
    Found (cat [.start, p, .finish]).regex text ↔ text ∈ L := by
  rw [← h text text]
  constructor
  · rintro ⟨s, t, -, u, ⟨rfl, rfl⟩, v, hp, rfl, rfl⟩
    exact hp
  · intro hp
    exact ⟨text, [], List.suffix_refl text, text, ⟨rfl, rfl⟩, [], hp, rfl, rfl⟩

end Pattern
end FilamentCore.Library
