import FilamentCore.Library.PathPattern
import FilamentCore.SemanticIr.AsciiText

/-!
# The path of a source locus

`SourceLocusPath` of the generated Rust package
(src/compiler/backends/rust-serde/support-template.rs) and the pattern of `sourceLocus.path`
(schema/semantic/v1/common.schema.json) it stands for. Both read the UTF-16 units of a text.
-/

namespace FilamentCore.Backends.SourceLocusPath
open FilamentCore.Library FilamentCore.Library.Regex
open FilamentCore.Packages (codeUnits)
open FilamentCore.SemanticIr (splitOn)
open PathPattern (Misplaced Backslashed Climbs)

/-! ### The validator -/

def maxEchoedCodePoints : ℕ := 120

def truncateEcho (input : List Char) : List Char :=
  if input.length ≤ maxEchoedCodePoints then input
  else input.take maxEchoedCodePoints ++ ['\u2026']

structure ValidationError where
  constraint : String
  keyword : String
  path : String
  operand : String
  input : Option (List Char)
deriving DecidableEq

def ValidationError.withInput (constraint keyword path operand : String) (input : List Char) :
    ValidationError :=
  ⟨constraint, keyword, path, operand, some (truncateEcho input)⟩

def sourceLocusPathConstraint : String :=
  "ix://agent-ix/filament-core-data/schema/common/sourceLocus/path"

def lineTerminators : List ℕ := [0x000a, 0x000d, 0x2028, 0x2029]

def isAsciiLetter (unit : ℕ) : Bool := (65 ≤ unit && unit ≤ 90) || (97 ≤ unit && unit ≤ 122)

/-- The prefix before the first line terminator, or the whole text. -/
def headLength (units : List ℕ) : ℕ := units.findIdx fun unit => lineTerminators.contains unit

/-- What the loop over the head rejects at an index: two dots that are a segment. -/
def parentAt (units : List ℕ) (index : ℕ) : Bool :=
  units[index]? == some 46 && units[index + 1]? == some 46 &&
    (index == 0 || units[index - 1]? == some 47) &&
    (index + 2 == units.length || units[index + 2]? == some 47)

def tryNew (value : List Char) : Except ValidationError (List Char) :=
  let units := codeUnits value
  let reject (clause : String) :=
    .error (.withInput sourceLocusPathConstraint "pattern" "" clause value)
  let head := headLength units
  if units.isEmpty then reject "a non-empty path"
  else if units.contains 0 then reject "a path carrying no U+0000"
  else if units.head? == some 47 then reject "a path not beginning with `/`"
  else if 2 ≤ units.length && units.head?.any isAsciiLetter && units[1]? == some 58 then
    reject "a path not beginning with a drive letter"
  else if (units.take head).contains 92 then reject "a path whose head carries no `\\`"
  -- the loop stops where the second dot would be outside the head
  else if ((List.range head).takeWhile fun index => index + 1 < head).any (parentAt units) then
    reject "a path carrying no parent-directory segment in its head"
  else .ok value

def isTraversalFree (value : List Char) : Bool :=
  let units := codeUnits value
  !units.any (lineTerminators.contains ·) && !units.contains 92 &&
    !(splitOn '/' value).contains ['.', '.']

/-! ### The pattern -/

def unitAlphabet : PathPattern.Alphabet ℕ :=
  ⟨47, 92, 46, 58, 0, isAsciiLetter, lineTerminators.contains⟩

/-- The published pattern of `sourceLocus.path`, over UTF-16 units. -/
def publishedPattern : Regex ℕ := PathPattern.relativePath unitAlphabet

variable {units : List ℕ}

theorem getElem?_split {index unit : ℕ} (h : units[index]? = some unit) :
    units = units.take index ++ unit :: units.drop (index + 1) := by
  obtain ⟨hlt, hget⟩ := List.getElem?_eq_some_iff.1 h
  rw [← hget, List.cons_getElem_drop_succ, List.take_append_drop]

theorem findIdx_le_iff {p : ℕ → Bool} {n : ℕ} (hn : n ≤ units.length) :
    n ≤ units.findIdx p ↔ ∀ unit ∈ units.take n, p unit = false := by
  constructor
  · intro h unit hunit
    obtain ⟨i, hi, hget⟩ := List.mem_iff_getElem.1 hunit
    rw [List.length_take] at hi
    rw [List.getElem_take] at hget
    rw [← hget]
    exact List.not_of_lt_findIdx (by omega)
  · intro h
    by_contra hlt
    have hfind : units.findIdx p < units.length := by omega
    have htrue := List.findIdx_getElem (w := hfind)
    have hmem : units[units.findIdx p] ∈ units.take n :=
      List.mem_take_iff_getElem.2 ⟨units.findIdx p, by omega, rfl⟩
    rw [h _ hmem] at htrue
    cases htrue

theorem backslash_iff :
    (units.take (headLength units)).contains 92 = true ↔
      Backslashed unitAlphabet (unitAlphabet.isTerminator · = false) units := by
  rw [List.contains_iff_mem]
  constructor
  · intro h
    obtain ⟨i, hi, hget⟩ := List.mem_take_iff_getElem.1 h
    have hlt : i < units.length := by omega
    have hsplit := getElem?_split (List.getElem?_eq_some_iff.2 ⟨hlt, hget⟩)
    have hhead : i ≤ headLength units := by omega
    exact ⟨_, _, hsplit, (findIdx_le_iff hlt.le).1 hhead⟩
  · rintro ⟨run, rest, rfl, hrun⟩
    have htake : (run ++ 92 :: rest).take (run.length + 1) = run ++ [92] := by
      rw [List.take_append, List.take_of_length_le (by omega)]
      simp
    have hle : run.length + 1 ≤ headLength (run ++ 92 :: rest) := by
      rw [headLength, findIdx_le_iff (by simp), htake]
      intro unit hunit
      obtain hunit | hunit := List.mem_append.1 hunit
      · exact hrun unit hunit
      · rw [List.mem_singleton.1 hunit]
        decide
    have hmem : 92 ∈ (run ++ 92 :: rest).take (run.length + 1) := by
      rw [htake]
      simp
    exact (List.take_subset_take_left _ hle) hmem

theorem mem_headIndices {index head : ℕ} :
    index ∈ (List.range head).takeWhile (fun index => index + 1 < head) ↔ index + 1 < head := by
  cases head with
  | zero => simp
  | succ n =>
    have hbefore : ∀ i ∈ List.range n, decide (i + 1 < n + 1) = true := by
      intro i hi
      rw [List.mem_range] at hi
      exact decide_eq_true (by omega)
    rw [List.range_succ, List.takeWhile_append_of_pos hbefore, List.takeWhile_cons_of_neg (by simp),
      List.append_nil, List.mem_range]
    omega

theorem parentAt_iff {index : ℕ} : parentAt units index = true ↔
    ∃ run rest, units = run ++ 46 :: 46 :: rest ∧ run.length = index ∧
      (run = [] ∨ run.getLast? = some 47) ∧ (rest = [] ∨ rest.head? = some 47) := by
  simp only [parentAt, Bool.and_eq_true, Bool.or_eq_true, beq_iff_eq]
  constructor
  · rintro ⟨⟨⟨hfirst, hsecond⟩, hleft⟩, hright⟩
    obtain ⟨hlt, -⟩ := List.getElem?_eq_some_iff.1 hsecond
    have hdrop : units.drop (index + 1) = 46 :: units.drop (index + 2) := by
      obtain ⟨hlt, hget⟩ := List.getElem?_eq_some_iff.1 hsecond
      rw [List.drop_eq_getElem_cons hlt, hget]
    refine ⟨units.take index, units.drop (index + 2), ?_, ?_, ?_, ?_⟩
    · rw [← hdrop]
      exact getElem?_split hfirst
    · rw [List.length_take]
      omega
    · obtain rfl | hslash := hleft
      · exact .inl List.take_zero
      · obtain rfl | hpos := Nat.eq_zero_or_pos index
        · exact .inl List.take_zero
        · right
          rw [List.getLast?_take, if_neg (by omega), hslash]
          rfl
    · obtain hend | hslash := hright
      · exact .inl (List.drop_eq_nil_iff.2 (by omega))
      · right
        rw [List.head?_drop, hslash]
  · rintro ⟨run, rest, rfl, rfl, hleft, hright⟩
    refine ⟨⟨⟨?_, ?_⟩, ?_⟩, ?_⟩
    · rw [List.getElem?_append_right (le_refl _), Nat.sub_self]
      rfl
    · rw [List.getElem?_append_right (by omega), Nat.add_sub_cancel_left]
      rfl
    · obtain rfl | hlast := hleft
      · exact .inl rfl
      · right
        rw [List.getLast?_eq_getElem?] at hlast
        have hpos : run.length - 1 < run.length := (List.getElem?_eq_some_iff.1 hlast).1
        rw [List.getElem?_append_left hpos, hlast]
    · obtain rfl | hhead := hright
      · left
        simp
      · right
        rw [List.getElem?_append_right (by omega), Nat.add_sub_cancel_left, ← hhead]
        exact List.head?_eq_getElem?.symm

theorem climb_iff : ((List.range (headLength units)).takeWhile
      fun index => index + 1 < headLength units).any (parentAt units) = true ↔
    Climbs unitAlphabet (unitAlphabet.isTerminator · = false) units := by
  rw [List.any_eq_true]
  simp only [mem_headIndices, parentAt_iff]
  constructor
  · rintro ⟨index, hhead, run, rest, hunits, rfl, hleft, hright⟩
    have hlength : run.length ≤ units.length := by
      rw [hunits, List.length_append]
      omega
    have hbefore : run.length ≤ headLength units := by omega
    have hrun := (findIdx_le_iff hlength).1 hbefore
    rw [hunits, List.take_left] at hrun
    exact ⟨run, rest, hunits, hleft, hright, hrun⟩
  · rintro ⟨run, rest, hunits, hleft, hright, hrun⟩
    have htake : units.take (run.length + 2) = run ++ [46, 46] := by
      rw [hunits, show run ++ unitAlphabet.dot :: unitAlphabet.dot :: rest =
        (run ++ [46, 46]) ++ rest by simp [unitAlphabet]]
      exact List.take_left' (by simp)
    have hlength : run.length + 2 ≤ units.length := by
      rw [hunits, List.length_append, List.length_cons, List.length_cons]
      omega
    have hhead : run.length + 2 ≤ headLength units := by
      rw [headLength, findIdx_le_iff hlength, htake]
      intro unit hunit
      obtain hunit | hunit := List.mem_append.1 hunit
      · exact hrun unit hunit
      · obtain rfl : unit = 46 := by simpa using hunit
        decide
    exact ⟨run.length, by omega, run, rest, hunits, rfl, hleft, hright⟩

theorem drive_iff :
    (2 ≤ units.length && units.head?.any isAsciiLetter && units[1]? == some 58) = true ↔
      PathPattern.DriveLettered unitAlphabet units := by
  simp only [Bool.and_eq_true, decide_eq_true_eq, beq_iff_eq, PathPattern.DriveLettered]
  constructor
  · rintro ⟨⟨-, hletter⟩, hcolon⟩
    rcases units with _ | ⟨c, _ | ⟨d, rest⟩⟩
    · cases hletter
    · cases hcolon
    · obtain rfl : d = 58 := Option.some.inj hcolon
      exact ⟨c, rest, rfl, hletter⟩
  · rintro ⟨c, rest, rfl, hletter⟩
    exact ⟨⟨by simp, hletter⟩, rfl⟩

/-! ### The validator decides the pattern -/

theorem tryNew_found (value : List Char) :
    tryNew value = .ok value ↔ Found publishedPattern (codeUnits value) := by
  rw [publishedPattern, PathPattern.found_relativePath unitAlphabet (by decide), Misplaced]
  simp only [not_or, ← drive_iff, ← backslash_iff, ← climb_iff]
  unfold tryNew
  have hempty : (codeUnits value).isEmpty = true ↔ codeUnits value = [] := List.isEmpty_iff
  have hnul : (codeUnits value).contains 0 = true ↔ 0 ∈ codeUnits value := List.contains_iff_mem
  have hroot : ((codeUnits value).head? == some 47) = true ↔ (codeUnits value).head? = some 47 :=
    beq_iff_eq
  simp only [← hempty, ← hnul, ← hroot, unitAlphabet]
  split_ifs <;> simp_all

theorem ok_of_tryNew {value path : List Char} (h : tryNew value = .ok path) : path = value := by
  unfold tryNew at h
  simp only at h
  split_ifs at h
  exact (Except.ok.inj h).symm

/-! ### What stays inside a directory -/

def isOrdinary (segment : List Char) : Bool :=
  segment != [] && segment != ['.'] && segment != ['.', '.']

/-- From any directory the path leads to a place below it, and so does every part of it. -/
structure Contained (value : List Char) : Prop where
  climbs : ∀ n, ((splitOn '/' value).take n).count ['.', '.'] ≤
    ((splitOn '/' value).take n).countP isOrdinary
  relative : value.head? ≠ some '/'
  driveless : ¬ ∃ c rest, value = c :: ':' :: rest ∧ isAsciiLetter c.toNat = true

theorem codeUnits_cons {c : Char} (hc : c.toNat < 0x10000) (value : List Char) :
    codeUnits (c :: value) = c.toNat :: codeUnits value := by
  rw [codeUnits, List.flatMap_cons, if_pos hc]
  rfl

theorem tryNew_decides (value : List Char) :
    ((∃ path, tryNew value = .ok path) ↔ Found publishedPattern (codeUnits value)) ∧
      ((∃ path, tryNew value = .ok path) → isTraversalFree value = true → Contained value) := by
  have hok : (∃ path, tryNew value = .ok path) ↔ tryNew value = .ok value := by
    constructor
    · rintro ⟨path, hpath⟩
      rw [hpath, ok_of_tryNew hpath]
    · exact fun h => ⟨value, h⟩
  rw [hok]
  refine ⟨tryNew_found value, ?_⟩
  intro h hfree
  rw [tryNew_found, publishedPattern, PathPattern.found_relativePath unitAlphabet (by decide),
    Misplaced] at h
  simp only [not_or] at h
  obtain ⟨⟨-, -, hroot, hdrive⟩, -, -⟩ := h
  have hsegments : ['.', '.'] ∉ splitOn '/' value := by
    intro hmem
    rw [isTraversalFree, List.contains_iff_mem.2 hmem] at hfree
    simp at hfree
  refine ⟨?_, ?_, ?_⟩
  · intro n
    rw [List.count_eq_zero.2 fun hmem => hsegments (List.mem_of_mem_take hmem)]
    exact Nat.zero_le _
  · intro hslash
    obtain ⟨rest, rfl⟩ := List.head?_eq_some_iff.1 hslash
    exact hroot (by rw [codeUnits_cons (by decide)]; rfl)
  · rintro ⟨c, rest, rfl, hc⟩
    have hlt : c.toNat < 0x10000 := by
      simp only [isAsciiLetter, Bool.or_eq_true, Bool.and_eq_true, decide_eq_true_eq] at hc
      omega
    exact hdrive ⟨c.toNat, codeUnits rest, by
      rw [codeUnits_cons hlt, codeUnits_cons (by decide)]
      rfl, hc⟩

theorem tryNew_decides_nested : Contained "src/a.ts".toList :=
  (tryNew_decides "src/a.ts".toList).2 ⟨_, rfl⟩ (by decide)

/-- The lookaheads stop at the end of a line, so a later line may climb. -/
example : tryNew "a\n../../b".toList = .ok "a\n../../b".toList ∧
    isTraversalFree "a\n../../b".toList = false := by decide

end FilamentCore.Backends.SourceLocusPath
