import FilamentCore.Packages.Version
import FilamentCore.SemanticIr.DecimalText

/-!
# Semantic version precedence

Precedence over the texts that `SEMVER` matches, with whole integers, and the interval that a
constraint denotes. `Number` rounds, so the two agree where it rounds no number.
-/

namespace FilamentCore.Packages
open SemanticIr (WholePart decimalValue isAsciiDigit)

/-! ### The texts of versions -/

theorem isDigit_eq : isDigit = isAsciiDigit := rfl

theorem digitsValue_eq : digitsValue = decimalValue := rfl

def marked (mark : Char) (tail : List Char) : List Char := if tail = [] then [] else mark :: tail

/-- The parts that `SEMVER` matches. -/
structure Spelling where
  major : List Char
  minor : List Char
  patch : List Char
  prerelease : List Char
  build : List Char
  major_whole : WholePart major
  minor_whole : WholePart minor
  patch_whole : WholePart patch
  prerelease_tail : ∀ c ∈ prerelease, isTailChar c = true
  build_tail : ∀ c ∈ build, isTailChar c = true

def Spelling.text (w : Spelling) : List Char :=
  w.major ++ '.' :: (w.minor ++ '.' :: (w.patch ++ (marked '-' w.prerelease ++ marked '+' w.build)))

/-- What `parseVersion` makes of the parts. -/
def Spelling.version (w : Spelling) : Version where
  major := nearestDouble (decimalValue w.major)
  minor := nearestDouble (decimalValue w.minor)
  patch := nearestDouble (decimalValue w.patch)
  prerelease := w.prerelease

theorem takeWhile_run {p : Char → Bool} {run rest : List Char} (hrun : ∀ c ∈ run, p c = true)
    (hrest : ∀ c, rest.head? = some c → p c = false) :
    (run ++ rest).takeWhile p = run ∧ (run ++ rest).dropWhile p = rest := by
  rw [List.takeWhile_append_of_pos hrun, List.dropWhile_append_of_pos hrun]
  cases rest with
  | nil => simp
  | cons c rest =>
    have hc := hrest c rfl
    simp [hc]

theorem dropWhile_head {p : Char → Bool} {s : List Char} :
    ∀ c, (s.dropWhile p).head? = some c → p c = false := by
  intro c hc
  have hnot := List.head?_dropWhile_not p s
  rw [hc] at hnot
  simpa using hnot

theorem numericField_iff {s rest : List Char} {n : ℕ} : numericField s = some (n, rest) ↔
    ∃ ds, WholePart ds ∧ s = ds ++ rest ∧ (∀ c, rest.head? = some c → isDigit c = false) ∧
      n = nearestDouble (decimalValue ds) := by
  constructor
  · intro h
    unfold numericField at h
    simp only at h
    split at h
    · cases h
    · rename_i hfield
      rw [Option.some.injEq, Prod.mk.injEq] at h
      obtain ⟨rfl, rfl⟩ := h
      rw [not_or, not_and] at hfield
      refine ⟨s.takeWhile isDigit, ⟨fun c hc => List.mem_takeWhile_imp hc, ?_⟩,
        (List.takeWhile_append_dropWhile).symm, dropWhile_head, rfl⟩
      cases hds : s.takeWhile isDigit with
      | nil => exact absurd hds hfield.1
      | cons c cs =>
        by_cases hc : c = '0'
        · subst hc
          have hlength := hfield.2 (by rw [hds]; rfl)
          rw [hds, List.length_cons] at hlength
          have hnil : cs = [] := List.eq_nil_of_length_eq_zero (by omega)
          exact .inl (by rw [hnil])
        · exact .inr ⟨c, cs, rfl, hc⟩
  · rintro ⟨ds, hds, rfl, hrest, rfl⟩
    obtain ⟨htake, hdrop⟩ := takeWhile_run (p := isDigit) hds.digit hrest
    have hfield : ¬ (ds = [] ∨ ds.head? = some '0' ∧ 1 < ds.length) := by
      rcases hds.lead with rfl | ⟨c, cs, rfl, hc⟩
      · simp
      · simp [hc]
    rw [numericField, htake, hdrop]
    exact if_neg hfield

theorem dottedField_iff {s rest : List Char} {n : ℕ} : dottedField s = some (n, rest) ↔
    ∃ ds, WholePart ds ∧ s = ds ++ '.' :: rest ∧ n = nearestDouble (decimalValue ds) := by
  have hdot : ∀ c, ('.' :: rest).head? = some c → isDigit c = false := by
    intro c hc
    rw [List.head?_cons, Option.some.injEq] at hc
    rw [← hc]
    decide
  have hfield : dottedField s = some (n, rest) ↔ numericField s = some (n, '.' :: rest) := by
    unfold dottedField
    split
    · rename_i m rest' heq
      rw [heq]
      simp
    · rename_i hne
      constructor
      · intro h
        cases h
      · intro h
        exact absurd h (hne n rest)
  rw [hfield, numericField_iff]
  constructor
  · rintro ⟨ds, hds, hs, -, hn⟩
    exact ⟨ds, hds, hs, hn⟩
  · rintro ⟨ds, hds, hs, hn⟩
    exact ⟨ds, hds, hs, hdot, hn⟩

theorem buildTail_iff {s : List Char} :
    buildTail s = true ↔ ∃ build, (∀ c ∈ build, isTailChar c = true) ∧ s = marked '+' build := by
  cases s with
  | nil =>
    simp only [buildTail, true_iff]
    exact ⟨[], by simp, rfl⟩
  | cons c cs =>
    simp only [buildTail, Bool.and_eq_true, beq_iff_eq, decide_eq_true_eq, List.all_eq_true]
    constructor
    · rintro ⟨⟨rfl, hne⟩, hall⟩
      exact ⟨cs, hall, by rw [marked, if_neg hne]⟩
    · rintro ⟨build, hall, heq⟩
      unfold marked at heq
      split at heq
      · cases heq
      · rename_i hne
        rw [List.cons.injEq] at heq
        obtain ⟨rfl, rfl⟩ := heq
        exact ⟨⟨rfl, hne⟩, hall⟩

theorem marked_head {mark : Char} {tail : List Char} :
    ∀ c, (marked mark tail).head? = some c → c = mark := by
  intro c hc
  unfold marked at hc
  split at hc
  · cases hc
  · rw [List.head?_cons, Option.some.injEq] at hc
    exact hc.symm

theorem prereleaseTail_iff {s pre : List Char} : prereleaseTail s = some pre ↔
    (∀ c ∈ pre, isTailChar c = true) ∧ ∃ build, (∀ c ∈ build, isTailChar c = true) ∧
      s = marked '-' pre ++ marked '+' build := by
  have hplus : ∀ build c, (marked '+' build).head? = some c → isTailChar c = false := by
    intro build c hc
    rw [marked_head c hc]
    decide
  constructor
  · intro h
    unfold prereleaseTail at h
    split at h
    · rename_i cs
      simp only at h
      split at h
      · rename_i hok
        obtain rfl := Option.some.inj h
        obtain ⟨build, hall, hbuild⟩ := buildTail_iff.1 hok.2
        refine ⟨fun c hc => List.mem_takeWhile_imp hc, build, hall, ?_⟩
        rw [marked, if_neg hok.1, ← hbuild, List.cons_append, List.takeWhile_append_dropWhile]
      · cases h
    · split at h
      · rename_i hok
        obtain rfl := Option.some.inj h
        obtain ⟨build, hall, hbuild⟩ := buildTail_iff.1 hok
        exact ⟨by simp, build, hall, by rw [hbuild]; rfl⟩
      · cases h
  · rintro ⟨hpre, build, hall, rfl⟩
    have hok := buildTail_iff.2 ⟨build, hall, rfl⟩
    by_cases hne : pre = []
    · subst hne
      rw [marked, if_pos rfl, List.nil_append]
      unfold prereleaseTail
      split
      · rename_i cs heq
        have hhead : '-' = '+' := marked_head _ (by rw [heq]; rfl)
        cases hhead
      · rw [if_pos hok]
    · obtain ⟨htake, hdrop⟩ := takeWhile_run hpre (hplus build)
      rw [marked, if_neg hne, List.cons_append, prereleaseTail]
      simp only [htake, hdrop]
      rw [if_pos ⟨hne, hok⟩]

/-- What `parseVersion` admits. -/
theorem parseVersionChars_iff {s : List Char} {v : Version} :
    parseVersionChars s = some v ↔ ∃ w : Spelling, s = w.text ∧ v = w.version := by
  constructor
  · intro h
    simp only [parseVersionChars, Option.bind_eq_bind, Option.bind_eq_some_iff, Prod.exists,
      Option.pure_def, Option.some.injEq] at h
    obtain ⟨major, s₁, h₁, minor, s₂, h₂, patch, s₃, h₃, pre, h₄, rfl⟩ := h
    obtain ⟨a, ha, rfl, rfl⟩ := dottedField_iff.1 h₁
    obtain ⟨b, hb, rfl, rfl⟩ := dottedField_iff.1 h₂
    obtain ⟨c, hc, rfl, -, rfl⟩ := numericField_iff.1 h₃
    obtain ⟨hpre, build, hbuild, rfl⟩ := prereleaseTail_iff.1 h₄
    exact ⟨⟨a, b, c, pre, build, ha, hb, hc, hpre, hbuild⟩, rfl, rfl⟩
  · rintro ⟨w, rfl, rfl⟩
    have htail : ∀ c, (marked '-' w.prerelease ++ marked '+' w.build).head? = some c →
        isDigit c = false := by
      intro c hc
      rw [List.head?_append, Option.or_eq_some_iff] at hc
      rcases hc with hc | ⟨-, hc⟩
      · rw [marked_head c hc]
        decide
      · rw [marked_head c hc]
        decide
    have hdotted : ∀ ds rest, WholePart ds → dottedField (ds ++ '.' :: rest) =
        some (nearestDouble (decimalValue ds), rest) :=
      fun ds rest hds => dottedField_iff.2 ⟨ds, hds, rfl, rfl⟩
    have h₃ := numericField_iff.2 ⟨w.patch, w.patch_whole, rfl, htail, rfl⟩
    have h₄ := prereleaseTail_iff.2 ⟨w.prerelease_tail, w.build, w.build_tail, rfl⟩
    simp only [parseVersionChars, Spelling.text, hdotted _ _ w.major_whole,
      hdotted _ _ w.minor_whole, h₃, h₄, Option.bind_eq_bind, Option.bind_some]
    rfl

/-! ### Precedence -/

abbrev Precedence := ℕ ×ₗ ℕ ×ₗ ℕ ×ₗ WithTop (List (ℕ ⊕ₗ List ℕ))

/-- A release, which is above each of its prereleases. -/
def releaseAt (major minor patch : ℕ) : Precedence :=
  toLex (major, toLex (minor, toLex (patch, ⊤)))

/-- Numeric identifiers are in the order of the integers, below the others in ASCII order. -/
def identifierRank (field : List Char) : ℕ ⊕ₗ List ℕ :=
  if isNumericIdentifier field then Sum.inlₗ (decimalValue field)
  else Sum.inrₗ (field.map Char.toNat)

def prereleaseRank (pre : List Char) : WithTop (List (ℕ ⊕ₗ List ℕ)) :=
  if pre = [] then ⊤ else ((splitDots pre).map identifierRank : List (ℕ ⊕ₗ List ℕ))

/-- Precedence: a shorter prerelease is below its extensions, as lists are ordered. -/
def Spelling.precedence (w : Spelling) : Precedence :=
  toLex (decimalValue w.major, toLex (decimalValue w.minor,
    toLex (decimalValue w.patch, prereleaseRank w.prerelease)))

/-- `Number` rounds none of the numbers. -/
structure Spelling.Exact (w : Spelling) : Prop where
  major : nearestDouble (decimalValue w.major) = decimalValue w.major
  minor : nearestDouble (decimalValue w.minor) = decimalValue w.minor
  patch : nearestDouble (decimalValue w.patch) = decimalValue w.patch
  identifiers : ∀ field ∈ splitDots w.prerelease, isNumericIdentifier field = true →
    nearestDouble (decimalValue field) = decimalValue field

theorem mem_splitDots {s field : List Char} (h : field ∈ splitDots s) : ∀ c ∈ field, c ∈ s := by
  induction s generalizing field with
  | nil =>
    simp only [splitDots, List.mem_singleton] at h
    subst h
    simp
  | cons d s ih =>
    unfold splitDots at h
    split at h
    · rcases List.mem_cons.1 h with rfl | h
      · simp
      · exact fun c hc => List.mem_cons_of_mem _ (ih h c hc)
    · split at h
      · simp only [List.mem_singleton] at h
        subst h
        simp
      · rename_i part parts hparts
        rcases List.mem_cons.1 h with rfl | h
        · intro c hc
          rcases List.mem_cons.1 hc with rfl | hc
          · exact List.mem_cons_self ..
          · exact List.mem_cons_of_mem _ (ih (by rw [hparts]; exact List.mem_cons_self ..) c hc)
        · intro c hc
          exact List.mem_cons_of_mem _ (ih (by rw [hparts]; exact List.mem_cons_of_mem _ h) c hc)

theorem codeUnits_tail {s : List Char} (h : ∀ c ∈ s, isTailChar c = true) :
    codeUnits s = s.map Char.toNat := by
  induction s with
  | nil => rfl
  | cons c s ih =>
    have hc : c.toNat < 0x10000 := by
      have htail := h c (List.mem_cons_self ..)
      simp only [isTailChar, isDigit, Bool.or_eq_true, Bool.and_eq_true, decide_eq_true_eq,
        Char.le_def, UInt32.le_iff_toNat_le, beq_iff_eq] at htail
      have h9 : '9'.val.toNat = 57 := rfl
      have hZ : 'Z'.val.toNat = 90 := rfl
      have hz : 'z'.val.toNat = 122 := rfl
      have hval : c.toNat = c.val.toNat := rfl
      rcases htail with (((⟨-, h⟩ | ⟨-, h⟩) | ⟨-, h⟩) | rfl) | rfl
      · omega
      · omega
      · omega
      · decide
      · decide
    have ihs := ih fun x hx => h x (List.mem_cons_of_mem _ hx)
    unfold codeUnits at ihs
    rw [codeUnits, List.flatMap_cons, ihs, if_pos hc, List.map_cons]
    rfl

theorem Spelling.Exact.key {w : Spelling} (h : w.Exact) : w.version.key = w.precedence := by
  have hpre : prereleaseKey w.prerelease = prereleaseRank w.prerelease := by
    unfold prereleaseKey prereleaseRank
    congr 2
    refine List.map_congr_left fun field hfield => ?_
    unfold identifierKey identifierRank
    split
    · rename_i hnumeric
      rw [digitsValue_eq, h.identifiers field hfield hnumeric]
    · rw [codeUnits_tail fun c hc => w.prerelease_tail c (mem_splitDots hfield c hc)]
  rw [Version.key, Spelling.version, h.major, h.minor, h.patch, hpre]
  rfl

/-! ### Versions of equal precedence -/

/-- Equal identifiers, or numeric ones that differ in leading zeros. -/
def AlikeIdentifier (x y : List Char) : Prop :=
  x = y ∨ isNumericIdentifier x = true ∧ isNumericIdentifier y = true ∧
    x.dropWhile (· == '0') = y.dropWhile (· == '0')

/-- The same text but for the build metadata and leading zeros of numeric identifiers. -/
structure Alike (a b : Spelling) : Prop where
  major : a.major = b.major
  minor : a.minor = b.minor
  patch : a.patch = b.patch
  prerelease : List.Forall₂ AlikeIdentifier (splitDots a.prerelease) (splitDots b.prerelease)

theorem decimalValue_dropZeros (ds : List Char) :
    decimalValue (ds.dropWhile (· == '0')) = decimalValue ds := by
  induction ds with
  | nil => rfl
  | cons d ds ih =>
    rw [List.dropWhile_cons]
    split
    · rename_i hd
      rw [beq_iff_eq] at hd
      rw [ih, SemanticIr.decimalValue_cons, hd]
      simp
    · rfl

theorem decimalValue_eq_iff {x y : List Char} (hx : ∀ c ∈ x, isAsciiDigit c = true)
    (hy : ∀ c ∈ y, isAsciiDigit c = true) : decimalValue x = decimalValue y ↔
      x.dropWhile (· == '0') = y.dropWhile (· == '0') := by
  constructor
  · intro h
    rw [← decimalValue_dropZeros x, ← decimalValue_dropZeros y] at h
    have hwhole : ∀ z : List Char, (∀ c ∈ z, isAsciiDigit c = true) →
        z.dropWhile (· == '0') = [] ∨ WholePart (z.dropWhile (· == '0')) ∧
          z.dropWhile (· == '0') ≠ ['0'] := by
      intro z hz
      cases hdrop : z.dropWhile (· == '0') with
      | nil => exact .inl rfl
      | cons c cs =>
        have hc : (c == '0') = false := dropWhile_head (s := z) c (by rw [hdrop]; rfl)
        have hne : c ≠ '0' := by simpa using hc
        refine .inr ⟨⟨fun d hd => hz d ?_, .inr ⟨c, cs, rfl, hne⟩⟩, by simp [hne]⟩
        exact (List.dropWhile_sublist _).subset (by rw [hdrop]; exact hd)
    have hpos : ∀ z : List Char, WholePart z → z ≠ ['0'] → decimalValue z ≠ 0 := by
      intro z hz hne hzero
      have hle := hz.value_pos hne
      have hten : 0 < 10 ^ (z.length - 1) := by positivity
      omega
    have hnil : decimalValue ([] : List Char) = 0 := rfl
    rcases hwhole x hx with hx' | ⟨hx', hxne⟩
    · rcases hwhole y hy with hy' | ⟨hy', hyne⟩
      · rw [hx', hy']
      · rw [hx', hnil] at h
        exact absurd h.symm (hpos _ hy' hyne)
    · rcases hwhole y hy with hy' | ⟨hy', hyne⟩
      · rw [hy', hnil] at h
        exact absurd h (hpos _ hx' hxne)
      · exact hx'.unique hy' h
  · intro h
    rw [← decimalValue_dropZeros x, ← decimalValue_dropZeros y, h]

theorem isNumericIdentifier_iff {x : List Char} :
    isNumericIdentifier x = true ↔ x ≠ [] ∧ ∀ c ∈ x, isAsciiDigit c = true := by
  simp [isNumericIdentifier, isDigit_eq]

theorem identifierRank_eq_iff {x y : List Char} :
    identifierRank x = identifierRank y ↔ AlikeIdentifier x y := by
  have hmap : x.map Char.toNat = y.map Char.toNat ↔ x = y :=
    (List.map_injective_iff.2 fun c d h => SemanticIr.char_eq_of_toNat h).eq_iff
  unfold identifierRank AlikeIdentifier
  by_cases hx : isNumericIdentifier x = true
  · by_cases hy : isNumericIdentifier y = true
    · rw [if_pos hx, if_pos hy]
      have hvalue := decimalValue_eq_iff (isNumericIdentifier_iff.1 hx).2
        (isNumericIdentifier_iff.1 hy).2
      constructor
      · intro h
        exact .inr ⟨hx, hy, hvalue.1 (Sum.inl.inj h)⟩
      · rintro (rfl | ⟨-, -, h⟩)
        · rfl
        · rw [hvalue.2 h]
    · rw [if_pos hx, if_neg hy]
      constructor
      · intro h
        cases h
      · rintro (rfl | ⟨-, h, -⟩)
        · exact absurd hx hy
        · exact absurd h hy
  · rw [if_neg hx]
    by_cases hy : isNumericIdentifier y = true
    · rw [if_pos hy]
      constructor
      · intro h
        cases h
      · rintro (rfl | ⟨h, -⟩)
        · exact absurd hy hx
        · exact absurd h hx
    · rw [if_neg hy]
      constructor
      · intro h
        exact .inl (hmap.1 (Sum.inr.inj h))
      · rintro (rfl | ⟨h, -⟩)
        · rfl
        · exact absurd h hx

theorem splitDots_ne_nil (s : List Char) : splitDots s ≠ [] := by
  cases s with
  | nil => simp [splitDots]
  | cons c s =>
    unfold splitDots
    split
    · simp
    · split <;> simp

theorem splitDots_blank {s : List Char} : splitDots s = [[]] ↔ s = [] := by
  cases s with
  | nil => simp [splitDots]
  | cons c s =>
    have hne := splitDots_ne_nil s
    unfold splitDots
    split
    · simp [hne]
    · split <;> simp

theorem alikeIdentifier_nil {x : List Char} : AlikeIdentifier [] x ↔ x = [] := by
  constructor
  · rintro (rfl | ⟨h, -⟩)
    · rfl
    · cases h
  · rintro rfl
    exact .inl rfl

theorem prereleaseRank_eq_iff {a b : List Char} : prereleaseRank a = prereleaseRank b ↔
    List.Forall₂ AlikeIdentifier (splitDots a) (splitDots b) := by
  have hlists : (splitDots a).map identifierRank = (splitDots b).map identifierRank ↔
      List.Forall₂ AlikeIdentifier (splitDots a) (splitDots b) := by
    rw [← List.forall₂_eq_eq_eq, List.forall₂_map_left_iff, List.forall₂_map_right_iff]
    simp only [identifierRank_eq_iff]
  have hblank : ∀ s : List Char, List.Forall₂ AlikeIdentifier [[]] (splitDots s) → s = [] := by
    intro s h
    cases hs : splitDots s with
    | nil => exact absurd hs (splitDots_ne_nil s)
    | cons x xs =>
      rw [hs, List.forall₂_cons, List.forall₂_nil_left_iff, alikeIdentifier_nil] at h
      rw [h.1, h.2] at hs
      exact splitDots_blank.1 hs
  have hsymm : ∀ x y, AlikeIdentifier x y → AlikeIdentifier y x := by
    rintro x y (rfl | ⟨hx, hy, h⟩)
    · exact .inl rfl
    · exact .inr ⟨hy, hx, h.symm⟩
  unfold prereleaseRank
  by_cases ha : a = []
  · by_cases hb : b = []
    · have hsame := hlists.1 (by rw [ha, hb])
      rw [if_pos ha, if_pos hb]
      exact ⟨fun _ => hsame, fun _ => rfl⟩
    · rw [if_pos ha, if_neg hb]
      constructor
      · intro h
        cases h
      · intro h
        rw [ha] at h
        exact absurd (hblank b h) hb
  · by_cases hb : b = []
    · rw [if_neg ha, if_pos hb]
      constructor
      · intro h
        cases h
      · intro h
        rw [hb] at h
        exact absurd (hblank a (h.flip.imp fun x y => hsymm y x)) ha
    · rw [if_neg ha, if_neg hb, WithTop.coe_eq_coe, hlists]

theorem precedence_eq_iff (a b : Spelling) : a.precedence = b.precedence ↔ Alike a b := by
  have hlex : a.precedence = b.precedence ↔ decimalValue a.major = decimalValue b.major ∧
      decimalValue a.minor = decimalValue b.minor ∧ decimalValue a.patch = decimalValue b.patch ∧
      prereleaseRank a.prerelease = prereleaseRank b.prerelease := by
    simp [Spelling.precedence]
  rw [hlex, prereleaseRank_eq_iff]
  constructor
  · rintro ⟨hmajor, hminor, hpatch, hpre⟩
    exact ⟨a.major_whole.unique b.major_whole hmajor, a.minor_whole.unique b.minor_whole hminor,
      a.patch_whole.unique b.patch_whole hpatch, hpre⟩
  · rintro ⟨hmajor, hminor, hpatch, hpre⟩
    exact ⟨by rw [hmajor], by rw [hminor], by rw [hpatch], hpre⟩

/-! ### The interval of a constraint -/

/-- The release that a caret constraint stays below. -/
def Spelling.next (base : Spelling) : Precedence :=
  if 0 < decimalValue base.major then releaseAt (decimalValue base.major + 1) 0 0
  else if 0 < decimalValue base.minor then releaseAt 0 (decimalValue base.minor + 1) 0
  else releaseAt 0 0 (decimalValue base.patch + 1)

def InInterval (v base : Spelling) : ConstraintKind → Prop
  | .exact => v.precedence = base.precedence
  | .caret => base.precedence ≤ v.precedence ∧ v.precedence < base.next

/-- A caret admits a prerelease only of the release whose prerelease it names itself. -/
def Eligible (v base : Spelling) : ConstraintKind → Prop
  | .exact => True
  | .caret => v.prerelease = [] ∨ base.prerelease ≠ [] ∧ v.major = base.major ∧
      v.minor = base.minor ∧ v.patch = base.patch

theorem precedence_lt_release (w : Spelling) (major minor patch : ℕ) :
    w.precedence < releaseAt major minor patch ↔ decimalValue w.major < major ∨
      decimalValue w.major = major ∧ (decimalValue w.minor < minor ∨
        decimalValue w.minor = minor ∧ (decimalValue w.patch < patch ∨
          decimalValue w.patch = patch ∧ w.prerelease ≠ [])) := by
  have hrank : prereleaseRank w.prerelease < ⊤ ↔ w.prerelease ≠ [] := by
    unfold prereleaseRank
    split
    · rename_i hnil
      simp [hnil]
    · rename_i hne
      simp [hne]
  simp only [Spelling.precedence, releaseAt, Prod.Lex.toLex_lt_toLex, hrank]

theorem precedence_le {a b : Spelling} (h : a.precedence ≤ b.precedence) :
    decimalValue a.major < decimalValue b.major ∨
      decimalValue a.major = decimalValue b.major ∧ (decimalValue a.minor < decimalValue b.minor ∨
        decimalValue a.minor = decimalValue b.minor ∧
          decimalValue a.patch ≤ decimalValue b.patch) := by
  simp only [Spelling.precedence, Prod.Lex.toLex_le_toLex] at h
  omega

theorem caret_below_next {v base : Spelling} (hle : base.precedence ≤ v.precedence)
    (hpre : Eligible v base .caret) : v.precedence < base.next ↔
      if 0 < decimalValue base.major then decimalValue v.major = decimalValue base.major
      else if 0 < decimalValue base.minor then
        decimalValue v.major = 0 ∧ decimalValue v.minor = decimalValue base.minor
      else decimalValue v.major = 0 ∧ decimalValue v.minor = 0 ∧
        decimalValue v.patch = decimalValue base.patch := by
  have horder := precedence_le hle
  -- a prerelease is of the release that the base is of, so it is not of the next one
  have hsame : v.prerelease = [] ∨ decimalValue v.major = decimalValue base.major ∧
      decimalValue v.minor = decimalValue base.minor ∧
      decimalValue v.patch = decimalValue base.patch := by
    rcases hpre with hnil | ⟨-, hmajor, hminor, hpatch⟩
    · exact .inl hnil
    · exact .inr ⟨by rw [hmajor], by rw [hminor], by rw [hpatch]⟩
  unfold Spelling.next
  split
  · rw [precedence_lt_release]
    rcases hsame with hnil | hsame
    · simp only [hnil, ne_eq, not_true_eq_false, and_false, or_false]
      omega
    · omega
  · split
    · rw [precedence_lt_release]
      rcases hsame with hnil | hsame
      · simp only [hnil, ne_eq, not_true_eq_false, and_false, or_false]
        omega
      · omega
    · rw [precedence_lt_release]
      rcases hsame with hnil | hsame
      · simp only [hnil, ne_eq, not_true_eq_false, and_false, or_false]
        omega
      · omega

theorem compareVersions_precedence {a b : Spelling} (ha : a.Exact) (hb : b.Exact) :
    (compareVersions a.version b.version).Compares a.precedence b.precedence := by
  rw [← ha.key, ← hb.key]
  exact compareVersions_compares _ _

theorem satisfies_interval {v base : Spelling} (hv : v.Exact) (hb : base.Exact)
    (kind : ConstraintKind) : satisfies v.version ⟨kind, base.version⟩ = true ↔
      InInterval v base kind ∧ Eligible v base kind := by
  have hcompare := compareVersions_precedence hv hb
  cases kind with
  | exact =>
    simp only [satisfies, beq_iff_eq, hcompare.eq_eq, InInterval, Eligible, and_true]
  | caret =>
    have hmajor : v.version.major = base.version.major ↔ v.major = base.major := by
      rw [Spelling.version, Spelling.version, hv.major, hb.major]
      exact ⟨v.major_whole.unique base.major_whole, fun h => by rw [h]⟩
    have hminor : v.version.minor = base.version.minor ↔ v.minor = base.minor := by
      rw [Spelling.version, Spelling.version, hv.minor, hb.minor]
      exact ⟨v.minor_whole.unique base.minor_whole, fun h => by rw [h]⟩
    have hpatch : v.version.patch = base.version.patch ↔ v.patch = base.patch := by
      rw [Spelling.version, Spelling.version, hv.patch, hb.patch]
      exact ⟨v.patch_whole.unique base.patch_whole, fun h => by rw [h]⟩
    have hgate : (v.version.prerelease ≠ [] ∧ (base.version.prerelease = [] ∨
        v.version.major ≠ base.version.major ∨ v.version.minor ≠ base.version.minor ∨
        v.version.patch ≠ base.version.patch)) ↔ ¬ Eligible v base .caret := by
      have hpre : v.version.prerelease = v.prerelease := rfl
      have hpre' : base.version.prerelease = base.prerelease := rfl
      simp only [hpre, hpre', ne_eq, hmajor, hminor, hpatch, Eligible]
      tauto
    unfold satisfies
    simp only
    by_cases hpre : Eligible v base .caret
    · rw [if_neg fun h => hgate.1 h hpre]
      by_cases hlt : v.precedence < base.precedence
      · rw [if_pos (by rw [beq_iff_eq, hcompare.eq_lt]; exact hlt)]
        simp [InInterval, not_le_of_gt hlt]
      · have hle := not_lt.1 hlt
        rw [if_neg (by rw [beq_iff_eq, hcompare.eq_lt]; exact hlt)]
        simp only [InInterval, hle, true_and, hpre, and_true, caret_below_next hle hpre,
          Spelling.version, hv.major, hv.minor, hv.patch, hb.major, hb.minor, hb.patch]
        split
        · simp
        · split <;> simp [and_assoc]
    · rw [if_pos (hgate.2 hpre)]
      simp [hpre]

/-! ### Versions and constraints of texts -/

theorem parseConstraint_iff {text : String} {c : Constraint} : parseConstraint text = some c ↔
    ∃ w : Spelling, text.toList = '^' :: w.text ∧ c = ⟨.caret, w.version⟩ ∨
      text.toList = w.text ∧ c = ⟨.exact, w.version⟩ := by
  have hhead : ∀ w : Spelling, ∀ rest, w.text ≠ '^' :: rest := by
    intro w rest heq
    cases hmajor : w.major with
    | nil =>
      have hpos := w.major_whole.length_pos
      rw [hmajor] at hpos
      cases hpos
    | cons d ds =>
      rw [Spelling.text, hmajor, List.cons_append, List.cons.injEq] at heq
      have hd := w.major_whole.digit d (by rw [hmajor]; exact List.mem_cons_self ..)
      rw [heq.1] at hd
      cases hd
  constructor
  · intro h
    unfold parseConstraint at h
    split at h
    · rename_i rest hcaret
      obtain ⟨v, hv, rfl⟩ := Option.map_eq_some_iff.1 h
      obtain ⟨w, rfl, rfl⟩ := parseVersionChars_iff.1 hv
      exact ⟨w, .inl ⟨hcaret, rfl⟩⟩
    · obtain ⟨v, hv, rfl⟩ := Option.map_eq_some_iff.1 h
      obtain ⟨w, hw, rfl⟩ := parseVersionChars_iff.1 hv
      exact ⟨w, .inr ⟨hw, rfl⟩⟩
  · rintro ⟨w, ⟨hcaret, rfl⟩ | ⟨hexact, rfl⟩⟩
    · have hv := parseVersionChars_iff.2 ⟨w, rfl, rfl⟩
      simp only [parseConstraint, hcaret, hv, Option.map_some]
    · have hv := parseVersionChars_iff.2 ⟨w, rfl, rfl⟩
      unfold parseConstraint
      split
      · rename_i rest hcaret
        exact absurd (hexact.symm.trans hcaret) (hhead w rest)
      · rw [hexact, hv, Option.map_some]

theorem compareVersions_trans : Std.TransCmp compareVersions where
  eq_swap := by
    intro a b
    cases hab : compareVersions a b with
    | lt =>
      rw [(compareVersions_gt_iff b a).2 ((compareVersions_lt_iff a b).1 hab)]
      rfl
    | eq =>
      rw [(compareVersions_eq_iff b a).2 ((compareVersions_eq_iff a b).1 hab).symm]
      rfl
    | gt =>
      rw [(compareVersions_lt_iff b a).2 ((compareVersions_gt_iff a b).1 hab)]
      rfl
  isLE_trans := by
    have hle : ∀ a b, (compareVersions a b).isLE = true ↔ a.key ≤ b.key := by
      intro a b
      rw [← not_lt, ← compareVersions_gt_iff]
      cases compareVersions a b <;> simp
    intro a b c hab hbc
    exact (hle a c).2 (((hle a b).1 hab).trans ((hle b c).1 hbc))

theorem versions_precedence :
    Std.TransCmp compareVersions ∧
    (∀ text v, parseVersion text = some v ↔
      ∃ w : Spelling, text.toList = w.text ∧ v = w.version) ∧
    (∀ text c, parseConstraint text = some c ↔
      ∃ w : Spelling, text.toList = '^' :: w.text ∧ c = ⟨.caret, w.version⟩ ∨
        text.toList = w.text ∧ c = ⟨.exact, w.version⟩) ∧
    (∀ a b : Spelling, a.Exact → b.Exact →
      (compareVersions a.version b.version).Compares a.precedence b.precedence ∧
      (compareVersions a.version b.version = .eq ↔ Alike a b)) ∧
    ∀ v base : Spelling, v.Exact → base.Exact → ∀ kind,
      satisfies v.version ⟨kind, base.version⟩ = true ↔
        InInterval v base kind ∧ Eligible v base kind := by
  refine ⟨compareVersions_trans, fun text v => parseVersionChars_iff,
    fun text c => parseConstraint_iff, fun a b ha hb => ?_,
    fun v base hv hbase kind => satisfies_interval hv hbase kind⟩
  have h := compareVersions_precedence ha hb
  exact ⟨h, by rw [h.eq_eq, precedence_eq_iff]⟩

theorem nearestDouble_lt {n : ℕ} (h : n < 2 ^ 53) : nearestDouble n = n := if_pos h

/-- `1.3.0-beta`. -/
def betaVersion : Spelling where
  major := ['1']
  minor := ['3']
  patch := ['0']
  prerelease := ['b', 'e', 't', 'a']
  build := []
  major_whole := ⟨by simp [isAsciiDigit], .inr ⟨'1', [], rfl, by simp⟩⟩
  minor_whole := ⟨by simp [isAsciiDigit], .inr ⟨'3', [], rfl, by simp⟩⟩
  patch_whole := .zero
  prerelease_tail := by simp [isTailChar, isDigit]
  build_tail := by simp

/-- `1.2.0`. -/
def baseVersion : Spelling where
  major := ['1']
  minor := ['2']
  patch := ['0']
  prerelease := []
  build := []
  major_whole := ⟨by simp [isAsciiDigit], .inr ⟨'1', [], rfl, by simp⟩⟩
  minor_whole := ⟨by simp [isAsciiDigit], .inr ⟨'2', [], rfl, by simp⟩⟩
  patch_whole := .zero
  prerelease_tail := by simp [isTailChar, isDigit]
  build_tail := by simp

theorem betaVersion_exact : betaVersion.Exact where
  major := nearestDouble_lt (by decide)
  minor := nearestDouble_lt (by decide)
  patch := nearestDouble_lt (by decide)
  identifiers := by decide

theorem baseVersion_exact : baseVersion.Exact where
  major := nearestDouble_lt (by decide)
  minor := nearestDouble_lt (by decide)
  patch := nearestDouble_lt (by decide)
  identifiers := by decide

theorem versions_precedence_beta :
    (compareVersions betaVersion.version baseVersion.version).Compares betaVersion.precedence
      baseVersion.precedence ∧
    (satisfies betaVersion.version ⟨.caret, baseVersion.version⟩ = true ↔
      InInterval betaVersion baseVersion .caret ∧ Eligible betaVersion baseVersion .caret) :=
  ⟨(versions_precedence.2.2.2.1 _ _ betaVersion_exact baseVersion_exact).1,
    versions_precedence.2.2.2.2 _ _ betaVersion_exact baseVersion_exact .caret⟩

/-- A prerelease of a later release is in the interval of a caret that does not admit it, and
versions that differ in leading zeros are not ordered. -/
theorem caret_refuses_prerelease :
    betaVersion.text = "1.3.0-beta".toList ∧ '^' :: baseVersion.text = "^1.2.0".toList ∧
    InInterval betaVersion baseVersion .caret ∧
    satisfies betaVersion.version ⟨.caret, baseVersion.version⟩ = false ∧
    ∃ v v', parseVersion "1.0.0-01" = some v ∧ parseVersion "1.0.0-1" = some v' ∧
      v.prerelease ≠ v'.prerelease ∧ compareVersions v v' = .eq := by
  have hcompare := compareVersions_precedence baseVersion_exact betaVersion_exact
  have hlt : compareVersions baseVersion.version betaVersion.version = .lt := by decide
  refine ⟨rfl, rfl, ⟨?_, ?_⟩, by decide, ⟨1, 0, 0, ['0', '1']⟩, ⟨1, 0, 0, ['1']⟩, rfl, rfl,
    by decide, by decide⟩
  · exact le_of_lt (hcompare.eq_lt.1 hlt)
  · unfold Spelling.next
    rw [if_pos (by decide), precedence_lt_release]
    exact .inl (by decide)

end FilamentCore.Packages
