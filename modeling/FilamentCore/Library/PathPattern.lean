import FilamentCore.Library.Regex

/-!
# The pattern of a relative path

What `^(?!/)(?![A-Za-z]:)(?!.*\\)(?!.*(?:^|/)\.\.(?:/|$))[^\u0000]+$` is found in, over any alphabet
that has a slash, a backslash, a dot, a colon, a zero, letters and line terminators.
-/

namespace FilamentCore.Library.PathPattern
open Regex

/-- What the pattern names. -/
structure Alphabet (α : Type) where
  slash : α
  backslash : α
  dot : α
  colon : α
  nul : α
  isLetter : α → Bool
  isTerminator : α → Bool

variable {α : Type}

/-- A backslash that only such characters come before. -/
def Backslashed (a : Alphabet α) (before : α → Prop) (path : List α) : Prop :=
  ∃ run rest, path = run ++ a.backslash :: rest ∧ ∀ c ∈ run, before c

/-- A segment of two dots that only such characters come before. -/
def Climbs (a : Alphabet α) (before : α → Prop) (path : List α) : Prop :=
  ∃ run rest, path = run ++ a.dot :: a.dot :: rest ∧
    (run = [] ∨ run.getLast? = some a.slash) ∧
    (rest = [] ∨ rest.head? = some a.slash) ∧ ∀ c ∈ run, before c

def DriveLettered (a : Alphabet α) (path : List α) : Prop :=
  ∃ c rest, path = c :: a.colon :: rest ∧ a.isLetter c = true

/-- What a path is refused for whatever its lines hold. -/
def Misplaced (a : Alphabet α) (path : List α) : Prop :=
  path = [] ∨ a.nul ∈ path ∨ path.head? = some a.slash ∨ DriveLettered a path

variable (a : Alphabet α)

/-- `.`. -/
def anyDot : Regex α := .set fun c => !a.isTerminator c

theorem leads_anyDot {whole s t : List α} : Leads whole (.star (anyDot a)) s t ↔
    ∃ run, (∀ c ∈ run, a.isTerminator c = false) ∧ s = run ++ t := by
  rw [anyDot, leads_star_set]
  simp

variable [DecidableEq α]

def relativePath : Regex α :=
  seqs [.start, .ahead (lit a.slash), .ahead (seqs [.set a.isLetter, lit a.colon]),
    .ahead (seqs [.star (anyDot a), lit a.backslash]),
    .ahead (seqs [.star (anyDot a), .alt .start (lit a.slash), lit a.dot, lit a.dot,
      .alt (lit a.slash) .finish]),
    plus (.set fun c => c != a.nul), .finish]

section Leads

variable {a} {whole s t : List α}

theorem ahead_slash : (∃ u, Leads whole (lit a.slash) s u) ↔ s.head? = some a.slash := by
  simp only [leads_lit]
  rw [List.head?_eq_some_iff]

theorem ahead_drive :
    (∃ u, Leads whole (seqs [.set a.isLetter, lit a.colon]) s u) ↔ DriveLettered a s := by
  constructor
  · rintro ⟨u, v, ⟨c, hc, hpath⟩, h⟩
    obtain ⟨w, rfl, -⟩ := leads_lit_cons.1 h
    exact ⟨c, w, hpath, hc⟩
  · rintro ⟨c, rest, hpath, hc⟩
    exact ⟨rest, _, ⟨c, hc, hpath⟩, leads_lit_cons.2 ⟨rest, rfl, rfl⟩⟩

theorem ahead_backslash : (∃ u, Leads whole (seqs [.star (anyDot a), lit a.backslash]) s u) ↔
    Backslashed a (a.isTerminator · = false) s := by
  constructor
  · rintro ⟨u, v, hrun, h⟩
    obtain ⟨w, rfl, -⟩ := leads_lit_cons.1 h
    obtain ⟨run, hterm, hpath⟩ := (leads_anyDot a).1 hrun
    exact ⟨run, w, hpath, hterm⟩
  · rintro ⟨run, rest, hpath, hterm⟩
    exact ⟨rest, _, (leads_anyDot a).2 ⟨run, hterm, hpath⟩, leads_lit_cons.2 ⟨rest, rfl, rfl⟩⟩

theorem leads_segment_end : (∃ u, Leads whole (seqs [.alt (lit a.slash) .finish]) s u) ↔
    s = [] ∨ s.head? = some a.slash := by
  constructor
  · rintro ⟨u, v, hv | ⟨rfl, hs⟩, -⟩
    · rw [leads_lit.1 hv]
      exact .inr rfl
    · exact .inl hs
  · rintro (rfl | hs)
    · exact ⟨[], [], .inr ⟨rfl, rfl⟩, rfl⟩
    · obtain ⟨rest, rfl⟩ := List.head?_eq_some_iff.1 hs
      exact ⟨rest, rest, .inl (leads_lit.2 rfl), rfl⟩

theorem ahead_climb (hslash : a.isTerminator a.slash = false) :
    (∃ u, Leads whole (seqs [.star (anyDot a), .alt .start (lit a.slash), lit a.dot, lit a.dot,
      .alt (lit a.slash) .finish]) whole u) ↔ Climbs a (a.isTerminator · = false) whole := by
  constructor
  · rintro ⟨u, v, hrun, w, hleft, hfirst⟩
    obtain ⟨x, rfl, hsecond⟩ := leads_lit_cons.1 hfirst
    obtain ⟨rest, rfl, hright⟩ := leads_lit_cons.1 hsecond
    obtain ⟨run, hterm, hpath⟩ := (leads_anyDot a).1 hrun
    have hrest := leads_segment_end.1 ⟨u, hright⟩
    rcases hleft with ⟨rfl, hwhole⟩ | hleft
    · -- the text is as long as what remains of it
      exact ⟨[], rest, by rw [hwhole]; rfl, .inl rfl, hrest, by simp⟩
    · rw [leads_lit.1 hleft] at hpath
      refine ⟨run ++ [a.slash], rest, by rw [hpath]; simp, .inr (by simp), hrest, ?_⟩
      intro c hc
      rcases List.mem_append.1 hc with hc | hc
      · exact hterm c hc
      · rw [List.mem_singleton.1 hc]
        exact hslash
  · rintro ⟨run, rest, hpath, hleft, hright, hterm⟩
    obtain ⟨u, hu⟩ := leads_segment_end.2 hright
    have hdots : Leads whole (seqs [lit a.dot, lit a.dot, .alt (lit a.slash) .finish])
        (a.dot :: a.dot :: rest) u := leads_lit_cons.2 ⟨_, rfl, leads_lit_cons.2 ⟨_, rfl, hu⟩⟩
    rcases hleft with rfl | hlast
    · exact ⟨u, _, (leads_anyDot a).2 ⟨[], by simp, rfl⟩, _, .inl ⟨rfl, rfl⟩,
        by rw [hpath]; exact hdots⟩
    · have hsplit := List.dropLast_append_getLast? _ hlast
      refine ⟨u, a.slash :: a.dot :: a.dot :: rest,
        (leads_anyDot a).2 ⟨run.dropLast, fun c hc => ?_, ?_⟩, _, .inr (leads_lit.2 rfl), hdots⟩
      · exact hterm c (List.dropLast_subset _ hc)
      · rw [hpath, ← hsplit]
        simp

theorem leads_rest :
    (∃ t, Leads whole (seqs [plus (.set fun c => c != a.nul), .finish]) s t) ↔
      s ≠ [] ∧ a.nul ∉ s := by
  constructor
  · rintro ⟨t, u, hplus, h⟩
    obtain ⟨rfl, rfl⟩ := leads_finish.1 h
    obtain ⟨run, hne, hrun, hpath⟩ := leads_plus_set.1 hplus
    rw [List.append_nil] at hpath
    subst hpath
    refine ⟨hne, fun hmem => ?_⟩
    have hc := hrun _ hmem
    simp at hc
  · rintro ⟨hne, hmem⟩
    refine ⟨[], [], leads_plus_set.2 ⟨s, hne, fun c hc => ?_, (List.append_nil _).symm⟩,
      leads_finish.2 ⟨rfl, rfl⟩⟩
    rw [bne_iff_ne]
    rintro rfl
    exact hmem hc

end Leads

theorem found_relativePath (hslash : a.isTerminator a.slash = false) (path : List α) :
    Found (relativePath a) path ↔ ¬ Misplaced a path ∧
      ¬ Backslashed a (a.isTerminator · = false) path ∧
        ¬ Climbs a (a.isTerminator · = false) path := by
  rw [relativePath, found_start]
  simp only [leads_ahead, ahead_slash, ahead_drive, ahead_backslash, ahead_climb hslash,
    exists_and_left, leads_rest, Misplaced, not_or]
  constructor
  · rintro ⟨hroot, hletter, hbackslash, hup, hne, hnul⟩
    exact ⟨⟨hne, hnul, hroot, hletter⟩, hbackslash, hup⟩
  · rintro ⟨⟨hne, hnul, hroot, hletter⟩, hbackslash, hup⟩
    exact ⟨hroot, hletter, hbackslash, hup, hne, hnul⟩

end FilamentCore.Library.PathPattern
