import FilamentCore.Compiler.UnitAgreement
import FilamentCore.Library.PathPattern
import FilamentCore.Packages.Precedence
import FilamentCore.SemanticIr.AsciiText
import FilamentCore.SemanticIr.Shapes

/-!
# Published patterns and hand-written matchers

The patterns of `common.schema.json` and `semantic-ir.schema.json` for identities, versions and
paths, and the texts on which the scanners of the Rust reader decide as they do.
-/

namespace FilamentCore.Compiler.ShapeAgreement
open FilamentCore.Library FilamentCore.Library.Regex
open FilamentCore.SemanticIr
open FilamentCore.Packages (Spelling marked isTailChar)

/-! ### The patterns -/

/-- `[...]`: the characters between the ends of a range. -/
def oneOf (ranges : List (Char × Char)) : Regex Char :=
  .set fun c => ranges.any fun r => r.1 ≤ c && c ≤ r.2

/-- `(0|[1-9][0-9]*)`. -/
def numeral : Regex Char :=
  .alt (lit '0') (seqs [oneOf [('1', '9')], .star (oneOf [('0', '9')])])

/-- `[0-9A-Za-z.-]+` after its mark. -/
def tail (mark : Char) : Regex Char :=
  opt (seqs [lit mark, plus (oneOf [('0', '9'), ('A', 'Z'), ('a', 'z'), ('.', '.'), ('-', '-')])])

def semver : Regex Char :=
  seqs [.start, numeral, lit '.', numeral, lit '.', numeral, tail '-', tail '+', .finish]

/-- `^[a-z0-9][a-z0-9._-]*/[a-z0-9][a-z0-9._-]*$`. -/
def packageIdentity : Regex Char :=
  seqs [.start, oneOf [('a', 'z'), ('0', '9')],
    .star (oneOf [('a', 'z'), ('0', '9'), ('.', '.'), ('_', '_'), ('-', '-')]), lit '/',
    oneOf [('a', 'z'), ('0', '9')],
    .star (oneOf [('a', 'z'), ('0', '9'), ('.', '.'), ('_', '_'), ('-', '-')]), .finish]

/-- `^[a-z0-9][a-z0-9.-]*:[A-Za-z0-9][A-Za-z0-9._-]*$`. -/
def namespacedName : Regex Char :=
  seqs [.start, oneOf [('a', 'z'), ('0', '9')],
    .star (oneOf [('a', 'z'), ('0', '9'), ('.', '.'), ('-', '-')]), lit ':',
    oneOf [('A', 'Z'), ('a', 'z'), ('0', '9')],
    .star (oneOf [('A', 'Z'), ('a', 'z'), ('0', '9'), ('.', '.'), ('_', '_'), ('-', '-')]), .finish]

/-- `^ix://`, an owner of `[a-z0-9._-]` and a name of letters, digits and `._~:-` and slashes. -/
def semanticIdentity : Regex Char :=
  seqs [.start, lit 'i', lit 'x', lit ':', lit '/', lit '/', oneOf [('a', 'z'), ('0', '9')],
    .star (oneOf [('a', 'z'), ('0', '9'), ('.', '.'), ('_', '_'), ('-', '-')]), lit '/',
    oneOf [('A', 'Z'), ('a', 'z'), ('0', '9')],
    .star (oneOf [('A', 'Z'), ('a', 'z'), ('0', '9'), ('.', '.'), ('_', '_'), ('~', '~'),
      (':', ':'), ('/', '/'), ('-', '-')]), .finish]

/-- The characters that `.` does not stand for. -/
def isTerminator (c : Char) : Bool :=
  c == '\n' || c == '\r' || c == Char.ofNat 0x2028 || c == Char.ofNat 0x2029

/-- `.`. -/
def dot : Regex Char := .set fun c => !isTerminator c

/-- `^(?!/)(?![A-Za-z]:)(?!.*\\)(?!.*(?:^|/)\.\.(?:/|$))[^\u0000]+$`. -/
def relativePath : Regex Char :=
  seqs [.start, .ahead (lit '/'), .ahead (seqs [oneOf [('A', 'Z'), ('a', 'z')], lit ':']),
    .ahead (seqs [.star dot, lit '\\']),
    .ahead (seqs [.star dot, .alt .start (lit '/'), lit '.', lit '.', .alt (lit '/') .finish]),
    plus (.set fun c => c != Char.ofNat 0), .finish]

/-- The scanners decide a text as the patterns do. -/
structure Agree (text : String) : Prop where
  identity : isSemanticIdentity text = true ↔ Found semanticIdentity text.toList
  package : isPackageIdentity text = true ↔ Found packageIdentity text.toList
  namespaced : isNamespacedName text = true ↔ Found namespacedName text.toList
  version : isSemver text = true ↔ Found semver text.toList
  path : isRelativePath text = true ↔ Found relativePath text.toList

/-! ### Texts cut at a separator -/

theorem splitOnce_append {separator : Char} {head : List Char} (tail : List Char)
    (h : ∀ c ∈ head, c ≠ separator) :
    splitOnce separator (head ++ separator :: tail) = some (head, tail) := by
  induction head with
  | nil => simp [splitOnce]
  | cons c head ih =>
    have hc := h c (List.mem_cons_self ..)
    simp [splitOnce, hc, ih fun d hd => h d (List.mem_cons_of_mem _ hd)]

theorem splitOnce_none {separator : Char} {cs : List Char} (h : ∀ c ∈ cs, c ≠ separator) :
    splitOnce separator cs = none := by
  rw [Ir.splitOnce_eq_none]
  simpa using fun hmem => h separator hmem rfl

theorem splitOnce_head {separator : Char} {cs head tail : List Char}
    (h : splitOnce separator cs = some (head, tail)) : ∀ c ∈ head, c ≠ separator := by
  induction cs generalizing head with
  | nil => cases h
  | cons c cs ih =>
    simp only [splitOnce] at h
    split at h
    · cases h
      simp
    · rename_i hc
      obtain ⟨⟨front, back⟩, hs, heq⟩ := Option.map_eq_some_iff.1 h
      cases heq
      intro d hd
      rcases List.mem_cons.1 hd with rfl | hd
      · exact hc
      · exact ih hs d hd

/-! ### Words -/

def Word (first rest : Char → Bool) (cs : List Char) : Prop :=
  ∃ c run, cs = c :: run ∧ first c = true ∧ ∀ d ∈ run, rest d = true

theorem startsAndRuns_iff {first rest : Char → Bool} (h : ∀ c, first c = true → rest c = true)
    (cs : List Char) : startsAndRuns first rest cs = true ↔ Word first rest cs := by
  cases cs with
  | nil => simp [startsAndRuns, Word]
  | cons c cs =>
    simp only [startsAndRuns, List.head?_cons, Option.any_some, List.all_cons, Bool.and_eq_true,
      List.all_eq_true, Word, List.cons.injEq]
    constructor
    · rintro ⟨hc, -, hcs⟩
      exact ⟨c, cs, ⟨rfl, rfl⟩, hc, hcs⟩
    · rintro ⟨d, run, ⟨rfl, rfl⟩, hd, hrun⟩
      exact ⟨hd, h _ hd, hrun⟩

theorem Word.mem {first rest : Char → Bool} (h : ∀ c, first c = true → rest c = true)
    {cs : List Char} (hw : Word first rest cs) : ∀ c ∈ cs, rest c = true := by
  obtain ⟨c, run, rfl, hc, hrun⟩ := hw
  intro d hd
  rcases List.mem_cons.1 hd with rfl | hd
  · exact h _ hc
  · exact hrun d hd

theorem leads_word {whole s t : List Char} {first rest : Char → Bool} {rs : List (Regex Char)} :
    Leads whole (seqs (.set first :: .star (.set rest) :: rs)) s t ↔
      ∃ word u, Word first rest word ∧ s = word ++ u ∧ Leads whole (seqs rs) u t := by
  rw [leads_seqs_cons]
  constructor
  · rintro ⟨v, ⟨c, hc, rfl⟩, u, hstar, h⟩
    obtain ⟨run, hrun, rfl⟩ := leads_star_set.1 hstar
    exact ⟨c :: run, u, ⟨c, run, rfl, hc, hrun⟩, rfl, h⟩
  · rintro ⟨word, u, ⟨c, run, rfl, hc, hrun⟩, rfl, h⟩
    exact ⟨run ++ u, ⟨c, hc, rfl⟩, u, leads_star_set.2 ⟨run, hrun, rfl⟩, h⟩

theorem found_words (whole text : List Char) (separator : Char) (f r f' r' : Char → Bool) :
    Found (seqs (.start :: (text.map lit ++ [.set f, .star (.set r), lit separator, .set f',
      .star (.set r'), .finish]))) whole ↔
      ∃ x y, Word f r x ∧ Word f' r' y ∧ whole = text ++ (x ++ separator :: y) := by
  rw [found_start]
  simp only [leads_text, leads_word, leads_lit_cons, leads_finish]
  constructor
  · rintro ⟨t, u, rfl, x, v, hx, rfl, w, rfl, y, z, hy, rfl, rfl, -⟩
    exact ⟨x, y, hx, hy, by rw [List.append_nil]⟩
  · rintro ⟨x, y, hx, hy, rfl⟩
    exact ⟨[], _, rfl, x, _, hx, rfl, _, rfl, y, [], hy, (List.append_nil y).symm, rfl, rfl⟩

theorem any_words (cs : List Char) {separator : Char} {f r f' r' : Char → Bool}
    (h : ∀ c, f c = true → r c = true) (h' : ∀ c, f' c = true → r' c = true)
    (hsep : r separator = false) : ((splitOnce separator cs).any fun parts =>
      startsAndRuns f r parts.1 && startsAndRuns f' r' parts.2) = true ↔
      ∃ x y, Word f r x ∧ Word f' r' y ∧ cs = x ++ separator :: y := by
  constructor
  · intro hany
    obtain ⟨⟨x, y⟩, hcut, hboth⟩ := (Option.any_eq_true _ _).1 hany
    rw [Bool.and_eq_true, startsAndRuns_iff h, startsAndRuns_iff h'] at hboth
    exact ⟨x, y, hboth.1, hboth.2, eq_of_splitOnce hcut⟩
  · rintro ⟨x, y, hx, hy, rfl⟩
    have hne : ∀ c ∈ x, c ≠ separator := by
      intro c hc heq
      have hr := hx.mem h c hc
      rw [heq, hsep] at hr
      cases hr
    rw [splitOnce_append y hne, Option.any_some, Bool.and_eq_true, startsAndRuns_iff h,
      startsAndRuns_iff h']
    exact ⟨hx, hy⟩

/-! ### Identities and names -/

section Classes

variable (c : Char)

theorem lowerOrDigit_ranges :
    ([('a', 'z'), ('0', '9')].any fun r => r.1 ≤ c && c ≤ r.2) = isLowerOrDigit c := by
  simp [isLowerOrDigit, isLower, isAsciiDigit]

theorem alphanumeric_ranges :
    ([('A', 'Z'), ('a', 'z'), ('0', '9')].any fun r => r.1 ≤ c && c ≤ r.2) = isAlphanumeric c := by
  rw [isAlphanumeric, isAlpha, Bool.or_comm (isLower c)]
  simp [isLower, isUpper, isAsciiDigit, Bool.or_assoc]

theorem single_range (d : Char) : (decide (d ≤ c) && decide (c ≤ d)) = (c == d) := by
  rw [Bool.eq_iff_iff, Bool.and_eq_true, decide_eq_true_eq, decide_eq_true_eq, beq_iff_eq]
  exact ⟨fun h => le_antisymm h.2 h.1, fun h => by rw [h]; exact ⟨le_refl d, le_refl d⟩⟩

theorem ranges_append (a b : List (Char × Char)) :
    ((a ++ b).any fun r => r.1 ≤ c && c ≤ r.2) =
      ((a.any fun r => r.1 ≤ c && c ≤ r.2) || b.any fun r => r.1 ≤ c && c ≤ r.2) :=
  List.any_append ..

end Classes

def packageRest (c : Char) : Bool := isLowerOrDigit c || c == '.' || c == '_' || c == '-'

def namespaceRest (c : Char) : Bool := isLowerOrDigit c || c == '.' || c == '-'

def nameRest (c : Char) : Bool := isAlphanumeric c || c == '.' || c == '_' || c == '-'

def identityRest (c : Char) : Bool :=
  isAlphanumeric c || c == '.' || c == '_' || c == '~' || c == ':' || c == '/' || c == '-'

theorem oneOf_lowerOrDigit : oneOf [('a', 'z'), ('0', '9')] = .set isLowerOrDigit := by
  rw [oneOf]
  congr 1
  funext c
  exact lowerOrDigit_ranges c

theorem oneOf_alphanumeric :
    oneOf [('A', 'Z'), ('a', 'z'), ('0', '9')] = .set isAlphanumeric := by
  rw [oneOf]
  congr 1
  funext c
  exact alphanumeric_ranges c

theorem oneOf_package :
    oneOf [('a', 'z'), ('0', '9'), ('.', '.'), ('_', '_'), ('-', '-')] = .set packageRest := by
  rw [oneOf]
  congr 1
  funext c
  have h := ranges_append c [('a', 'z'), ('0', '9')] [('.', '.'), ('_', '_'), ('-', '-')]
  rw [lowerOrDigit_ranges] at h
  rw [packageRest]
  simpa [single_range, Bool.or_assoc] using h

theorem oneOf_namespace :
    oneOf [('a', 'z'), ('0', '9'), ('.', '.'), ('-', '-')] = .set namespaceRest := by
  rw [oneOf]
  congr 1
  funext c
  have h := ranges_append c [('a', 'z'), ('0', '9')] [('.', '.'), ('-', '-')]
  rw [lowerOrDigit_ranges] at h
  rw [namespaceRest]
  simpa [single_range, Bool.or_assoc] using h

theorem oneOf_name : oneOf [('A', 'Z'), ('a', 'z'), ('0', '9'), ('.', '.'), ('_', '_'),
    ('-', '-')] = .set nameRest := by
  rw [oneOf]
  congr 1
  funext c
  have h := ranges_append c [('A', 'Z'), ('a', 'z'), ('0', '9')]
    [('.', '.'), ('_', '_'), ('-', '-')]
  rw [alphanumeric_ranges] at h
  rw [nameRest]
  simpa [single_range, Bool.or_assoc] using h

theorem oneOf_identity : oneOf [('A', 'Z'), ('a', 'z'), ('0', '9'), ('.', '.'), ('_', '_'),
    ('~', '~'), (':', ':'), ('/', '/'), ('-', '-')] = .set identityRest := by
  rw [oneOf]
  congr 1
  funext c
  have h := ranges_append c [('A', 'Z'), ('a', 'z'), ('0', '9')]
    [('.', '.'), ('_', '_'), ('~', '~'), (':', ':'), ('/', '/'), ('-', '-')]
  rw [alphanumeric_ranges] at h
  rw [identityRest]
  simpa [single_range, Bool.or_assoc] using h

theorem packageRest_first (c : Char) (hc : isLowerOrDigit c = true) : packageRest c = true := by
  simp [packageRest, hc]

theorem isPackageIdentity_found (text : String) :
    isPackageIdentity text = true ↔ Found packageIdentity text.toList := by
  have hscan := any_words text.toList packageRest_first packageRest_first (rfl : packageRest '/' = false)
  have hfound := found_words text.toList [] '/' isLowerOrDigit packageRest isLowerOrDigit packageRest
  rw [packageIdentity, oneOf_lowerOrDigit, oneOf_package]
  exact hscan.trans hfound.symm

theorem isNamespacedName_found (text : String) :
    isNamespacedName text = true ↔ Found namespacedName text.toList := by
  have hfirst : ∀ c, isLowerOrDigit c = true → namespaceRest c = true := by
    intro c hc
    simp [namespaceRest, hc]
  have hname : ∀ c, isAlphanumeric c = true → nameRest c = true := by
    intro c hc
    simp [nameRest, hc]
  have hscan := any_words text.toList hfirst hname (rfl : namespaceRest ':' = false)
  have hfound := found_words text.toList [] ':' isLowerOrDigit namespaceRest isAlphanumeric nameRest
  rw [namespacedName, oneOf_lowerOrDigit, oneOf_namespace, oneOf_alphanumeric, oneOf_name]
  exact hscan.trans hfound.symm

theorem stripPrefix_iff {start cs rest : List Char} :
    stripPrefix start cs = some rest ↔ cs = start ++ rest := by
  refine ⟨eq_of_stripPrefix, ?_⟩
  rintro rfl
  induction start with
  | nil => rfl
  | cons c start ih => simpa [stripPrefix] using ih

theorem isSemanticIdentity_found (text : String) :
    isSemanticIdentity text = true ↔ Found semanticIdentity text.toList := by
  have hname : ∀ c, isAlphanumeric c = true → identityRest c = true := by
    intro c hc
    simp [identityRest, hc]
  have hfound := found_words text.toList "ix://".toList '/' isLowerOrDigit packageRest isAlphanumeric
    identityRest
  have hscan : isSemanticIdentity text = true ↔
      ∃ rest, text.toList = "ix://".toList ++ rest ∧ ((splitOnce '/' rest).any fun parts =>
        startsAndRuns isLowerOrDigit packageRest parts.1 &&
          startsAndRuns isAlphanumeric identityRest parts.2) = true := by
    unfold isSemanticIdentity
    cases hstrip : stripPrefix "ix://".toList text.toList with
    | none =>
      simp only [Option.bind_none, Bool.false_eq_true, false_iff, not_exists, not_and]
      intro rest hrest
      rw [stripPrefix_iff.2 hrest] at hstrip
      cases hstrip
    | some rest =>
      have hrest := stripPrefix_iff.1 hstrip
      simp only [Option.bind_some, hrest, List.append_cancel_left_eq]
      constructor
      · intro h
        refine ⟨rest, rfl, ?_⟩
        cases hcut : splitOnce '/' rest with
        | none =>
          rw [hcut] at h
          cases h
        | some parts =>
          rw [hcut] at h
          exact h
      · rintro ⟨rest', rfl, h⟩
        obtain ⟨parts, hcut, hboth⟩ := (Option.any_eq_true _ _).1 h
        rw [hcut]
        exact hboth
  rw [hscan, semanticIdentity, oneOf_lowerOrDigit, oneOf_package, oneOf_alphanumeric,
    oneOf_identity]
  refine Iff.trans ?_ hfound.symm
  simp only [any_words _ packageRest_first hname (rfl : packageRest '/' = false)]
  constructor
  · rintro ⟨rest, hrest, x, y, hx, hy, rfl⟩
    exact ⟨x, y, hx, hy, hrest⟩
  · rintro ⟨x, y, hx, hy, hwhole⟩
    exact ⟨_, hwhole, x, y, hx, hy, rfl⟩

/-! ### Versions -/

theorem leads_numeral {whole s t : List Char} :
    Leads whole numeral s t ↔ ∃ ds, WholePart ds ∧ s = ds ++ t := by
  have hdigit : ∀ c : Char, ([('0', '9')].any fun r => r.1 ≤ c && c ≤ r.2) = isAsciiDigit c := by
    simp [isAsciiDigit]
  have hnonzero : ∀ c : Char, ([('1', '9')].any fun r => r.1 ≤ c && c ≤ r.2) = true ↔
      isAsciiDigit c = true ∧ c ≠ '0' := by
    intro c
    have hzero : c = '0' ↔ c.toNat = 48 := ⟨fun h => by rw [h]; rfl, fun h => char_eq_of_toNat h⟩
    simp only [List.any_cons, List.any_nil, Bool.or_false, isAsciiDigit, Bool.and_eq_true,
      decide_eq_true_eq, Char.le_def, UInt32.le_iff_toNat_le, ne_eq, hzero]
    have hc : c.toNat = c.val.toNat := rfl
    have h0' : '0'.val.toNat = 48 := rfl
    have h1' : '1'.val.toNat = 49 := rfl
    omega
  have halt : Leads whole numeral s t ↔ Leads whole (lit '0') s t ∨
      Leads whole (seqs [oneOf [('1', '9')], .star (oneOf [('0', '9')])]) s t := Iff.rfl
  rw [halt, leads_lit, oneOf, oneOf, leads_word]
  constructor
  · rintro (rfl | ⟨word, u, ⟨c, run, rfl, hc, hrun⟩, rfl, hu⟩)
    · exact ⟨['0'], .zero, rfl⟩
    · obtain rfl := leads_seqs_nil.1 hu
      obtain ⟨hc, hne⟩ := (hnonzero c).1 hc
      refine ⟨c :: run, ⟨fun d hd => ?_, .inr ⟨c, run, rfl, hne⟩⟩, rfl⟩
      rcases List.mem_cons.1 hd with rfl | hd
      · exact hc
      · rw [← hdigit]
        exact hrun d hd
  · rintro ⟨ds, hds, rfl⟩
    rcases hds.lead with rfl | ⟨c, run, rfl, hne⟩
    · exact .inl rfl
    · refine .inr ⟨c :: run, t, ⟨c, run, rfl, ?_, fun d hd => ?_⟩, rfl, leads_seqs_nil.2 rfl⟩
      · exact (hnonzero c).2 ⟨hds.digit c (List.mem_cons_self ..), hne⟩
      · have hdigits := hds.digit d (List.mem_cons_of_mem _ hd)
        rwa [← hdigit] at hdigits

theorem leads_tail {whole s t : List Char} {mark : Char} : Leads whole (tail mark) s t ↔
    ∃ run, (∀ c ∈ run, isTailChar c = true) ∧ s = marked mark run ++ t := by
  have hranges : ∀ c : Char, ([('0', '9'), ('A', 'Z'), ('a', 'z'), ('.', '.'), ('-', '-')].any
      fun r => r.1 ≤ c && c ≤ r.2) = isTailChar c := by
    intro c
    simp [isTailChar, Packages.isDigit, single_range, Bool.or_assoc]
  rw [tail, leads_opt, leads_lit_cons, oneOf]
  constructor
  · rintro (⟨u, rfl, hrest⟩ | rfl)
    · rw [leads_seqs_cons] at hrest
      obtain ⟨v, hplus, hnil⟩ := hrest
      obtain rfl := leads_seqs_nil.1 hnil
      obtain ⟨run, hne, hrun, rfl⟩ := leads_plus_set.1 hplus
      refine ⟨run, fun c hc => ?_, by rw [marked, if_neg hne, List.cons_append]⟩
      rw [← hranges]
      exact hrun c hc
    · exact ⟨[], by simp, rfl⟩
  · rintro ⟨run, hrun, rfl⟩
    by_cases hne : run = []
    · subst hne
      exact .inr rfl
    · rw [marked, if_neg hne, List.cons_append]
      refine .inl ⟨run ++ t, rfl, t, leads_plus_set.2 ⟨run, hne, fun c hc => ?_, rfl⟩, rfl⟩
      rw [hranges]
      exact hrun c hc

theorem found_semver (whole : List Char) :
    Found semver whole ↔ ∃ w : Spelling, whole = w.text := by
  rw [semver, found_start]
  constructor
  · rintro ⟨t, s₁, hmajor, h₁⟩
    obtain ⟨s₂, rfl, s₃, hminor, h₃⟩ := leads_lit_cons.1 h₁
    obtain ⟨s₄, rfl, s₅, hpatch, s₆, hpre, s₇, hbuild, h₇⟩ := leads_lit_cons.1 h₃
    obtain ⟨rfl, rfl⟩ := leads_finish.1 h₇
    obtain ⟨a, ha, rfl⟩ := leads_numeral.1 hmajor
    obtain ⟨b, hb, rfl⟩ := leads_numeral.1 hminor
    obtain ⟨c, hc, rfl⟩ := leads_numeral.1 hpatch
    obtain ⟨pre, hpreTail, rfl⟩ := leads_tail.1 hpre
    obtain ⟨build, hbuildTail, rfl⟩ := leads_tail.1 hbuild
    exact ⟨⟨a, b, c, pre, build, ha, hb, hc, hpreTail, hbuildTail⟩, by rw [List.append_nil]; rfl⟩
  · rintro ⟨w, rfl⟩
    refine ⟨[], _, leads_numeral.2 ⟨_, w.major_whole, rfl⟩, leads_lit_cons.2 ⟨_, rfl, ?_⟩⟩
    refine ⟨_, leads_numeral.2 ⟨_, w.minor_whole, rfl⟩, leads_lit_cons.2 ⟨_, rfl, ?_⟩⟩
    refine ⟨_, leads_numeral.2 ⟨_, w.patch_whole, rfl⟩, ?_⟩
    refine ⟨_, leads_tail.2 ⟨_, w.prerelease_tail, rfl⟩, ?_⟩
    exact ⟨[], leads_tail.2 ⟨_, w.build_tail, (List.append_nil _).symm⟩, leads_finish.2 ⟨rfl, rfl⟩⟩

theorem isCanonicalNumeral_iff {cs : List Char} :
    isCanonicalNumeral cs = true ↔ WholePart cs := by
  simp only [isCanonicalNumeral, Bool.and_eq_true, Bool.or_eq_true, beq_iff_eq, bne_iff_ne, ne_eq,
    List.all_eq_true, Bool.not_eq_true', List.isEmpty_eq_false_iff]
  constructor
  · rintro ⟨⟨hne, hall⟩, hlead⟩
    refine ⟨hall, ?_⟩
    cases cs with
    | nil => exact absurd rfl hne
    | cons c cs =>
      by_cases hc : c = '0'
      · subst hc
        rcases hlead with hlength | hhead
        · exact .inl (by rw [List.eq_nil_of_length_eq_zero (Nat.succ.inj hlength)])
        · exact absurd rfl hhead
      · exact .inr ⟨c, cs, rfl, hc⟩
  · intro h
    rcases h.lead with rfl | ⟨c, run, rfl, hc⟩
    · exact ⟨⟨by simp, h.digit⟩, .inl rfl⟩
    · exact ⟨⟨by simp, h.digit⟩, .inr (by simpa using hc)⟩

theorem isSemverTail_iff {run : Option (List Char)} : isSemverTail run = true ↔
    ∀ cs, run = some cs → cs ≠ [] ∧ ∀ c ∈ cs, isTailChar c = true := by
  have hchar : ∀ c : Char, (isAlphanumeric c || c == '.' || c == '-') = isTailChar c := by
    intro c
    rw [isTailChar, isAlphanumeric, isAlpha, Packages.isDigit_eq, isLower, isUpper]
    cases isAsciiDigit c <;> cases decide ('a' ≤ c) && decide (c ≤ 'z') <;>
      cases decide ('A' ≤ c) && decide (c ≤ 'Z') <;> rfl
  cases run with
  | none => simp [isSemverTail]
  | some cs => simp [isSemverTail, hchar, List.all_eq_true]

theorem cutAt_spec (separator : Char) (cs : List Char) :
    (∀ c ∈ (cutAt separator cs).1, c ≠ separator) ∧
      cs = (cutAt separator cs).1 ++ ((cutAt separator cs).2.elim [] (separator :: ·)) := by
  unfold cutAt
  cases hcut : splitOnce separator cs with
  | none =>
    rw [Ir.splitOnce_eq_none] at hcut
    refine ⟨fun c hc heq => ?_, by simp⟩
    subst heq
    have hmem : cs.contains c = true := by simpa using hc
    rw [hmem] at hcut
    cases hcut
  | some parts => exact ⟨splitOnce_head hcut, eq_of_splitOnce hcut⟩

theorem cutAt_marked {separator : Char} {head run : List Char}
    (h : ∀ c ∈ head, c ≠ separator) : cutAt separator (head ++ marked separator run) =
      (head, if run = [] then none else some run) := by
  unfold cutAt marked
  by_cases hne : run = []
  · rw [if_pos hne, if_pos hne, List.append_nil, splitOnce_none h]
  · rw [if_neg hne, if_neg hne, splitOnce_append run h]

theorem splitOn_three {separator : Char} {cs a b c : List Char}
    (h : splitOn separator cs = [a, b, c]) : cs = a ++ separator :: (b ++ separator :: c) := by
  rw [Ir.splitOn_eq] at h
  cases hfirst : splitOnce separator cs with
  | none => rw [hfirst] at h; cases h
  | some first =>
    rw [hfirst] at h
    simp only [List.cons.injEq] at h
    obtain ⟨rfl, h⟩ := h
    rw [Ir.splitOn_eq] at h
    cases hsecond : splitOnce separator first.2 with
    | none => rw [hsecond] at h; cases h
    | some second =>
      rw [hsecond] at h
      simp only [List.cons.injEq] at h
      obtain ⟨rfl, h⟩ := h
      rw [Ir.splitOn_eq] at h
      cases hthird : splitOnce separator second.2 with
      | none =>
        rw [hthird] at h
        simp only [List.cons.injEq, and_true] at h
        rw [eq_of_splitOnce hfirst, eq_of_splitOnce hsecond, h]
      | some third =>
        rw [hthird] at h
        simp only [List.cons.injEq] at h
        exact absurd h.2 (Ir.splitOn_ne_nil _ _)

theorem splitOn_append {separator : Char} {head : List Char} (rest : List Char)
    (h : ∀ c ∈ head, c ≠ separator) :
    splitOn separator (head ++ separator :: rest) = head :: splitOn separator rest := by
  rw [Ir.splitOn_eq, splitOnce_append rest h]

theorem splitOn_whole {separator : Char} {cs : List Char} (h : ∀ c ∈ cs, c ≠ separator) :
    splitOn separator cs = [cs] := by
  rw [Ir.splitOn_eq, splitOnce_none h]

theorem isSemver_spelled (text : String) :
    isSemver text = true ↔ ∃ w : Spelling, text.toList = w.text := by
  have hmarked : ∀ (mark : Char) (run : Option (List Char)),
      (∀ cs, run = some cs → cs ≠ [] ∧ ∀ c ∈ cs, isTailChar c = true) →
      run.elim [] (mark :: ·) = marked mark (run.getD []) := by
    intro mark run hrun
    cases run with
    | none => rfl
    | some cs => rw [marked, Option.getD_some, if_neg (hrun cs rfl).1, Option.elim_some]
  have hmem : ∀ run : Option (List Char),
      (∀ cs, run = some cs → cs ≠ [] ∧ ∀ c ∈ cs, isTailChar c = true) →
      ∀ c ∈ run.getD [], isTailChar c = true := by
    intro run hrun
    cases run with
    | none => simp
    | some cs => exact (hrun cs rfl).2
  constructor
  · intro h
    unfold isSemver at h
    simp only [Bool.and_eq_true, beq_iff_eq, List.all_eq_true] at h
    obtain ⟨⟨⟨hlength, hparts⟩, hpre⟩, hbuild⟩ := h
    obtain ⟨-, hplus⟩ := cutAt_spec '+' text.toList
    obtain ⟨-, hminus⟩ := cutAt_spec '-' (cutAt '+' text.toList).1
    obtain ⟨a, b, c, hthree⟩ := List.length_eq_three.1 hlength
    rw [hthree] at hparts
    rw [isSemverTail_iff] at hpre hbuild
    rw [splitOn_three hthree] at hminus
    refine ⟨⟨a, b, c, _, _, isCanonicalNumeral_iff.1 (hparts a (by simp)),
      isCanonicalNumeral_iff.1 (hparts b (by simp)), isCanonicalNumeral_iff.1 (hparts c (by simp)),
      hmem _ hpre, hmem _ hbuild⟩, ?_⟩
    rw [hminus, hmarked _ _ hpre, hmarked _ _ hbuild] at hplus
    refine hplus.trans ?_
    simp [Spelling.text]
  · rintro ⟨w, hw⟩
    have hdigit : ∀ ds, WholePart ds → ∀ c ∈ ds, c ≠ '.' ∧ c ≠ '-' ∧ c ≠ '+' := by
      intro ds hds c hc
      have hd := hds.digit c hc
      refine ⟨?_, ?_, ?_⟩ <;> rintro rfl <;> cases hd
    have htext : text.toList =
        ((w.major ++ '.' :: (w.minor ++ '.' :: w.patch)) ++ marked '-' w.prerelease) ++
          marked '+' w.build := by
      rw [hw, Spelling.text]
      simp
    have hcore : ∀ c ∈ w.major ++ '.' :: (w.minor ++ '.' :: w.patch), c ≠ '-' ∧ c ≠ '+' := by
      intro c hc
      simp only [List.mem_append, List.mem_cons] at hc
      rcases hc with hc | rfl | hc | rfl | hc
      · exact (hdigit _ w.major_whole c hc).2
      · decide
      · exact (hdigit _ w.minor_whole c hc).2
      · decide
      · exact (hdigit _ w.patch_whole c hc).2
    have hbefore : ∀ c ∈ (w.major ++ '.' :: (w.minor ++ '.' :: w.patch)) ++ marked '-' w.prerelease,
        c ≠ '+' := by
      intro c hc
      rcases List.mem_append.1 hc with hc | hc
      · exact (hcore c hc).2
      · unfold marked at hc
        split at hc
        · cases hc
        · rcases List.mem_cons.1 hc with rfl | hc
          · decide
          · have htail := w.prerelease_tail c hc
            rintro rfl
            cases htail
    have hsplit : splitOn '.' (w.major ++ '.' :: (w.minor ++ '.' :: w.patch)) =
        [w.major, w.minor, w.patch] := by
      rw [splitOn_append _ fun c hc => (hdigit _ w.major_whole c hc).1,
        splitOn_append _ fun c hc => (hdigit _ w.minor_whole c hc).1,
        splitOn_whole fun c hc => (hdigit _ w.patch_whole c hc).1]
    have htail : ∀ run : List Char, (∀ c ∈ run, isTailChar c = true) →
        isSemverTail (if run = [] then none else some run) = true := by
      intro run hrun
      rw [isSemverTail_iff]
      intro cs hcs
      split at hcs
      · cases hcs
      · rename_i hne
        obtain rfl := Option.some.inj hcs
        exact ⟨hne, hrun⟩
    unfold isSemver
    rw [htext, cutAt_marked hbefore]
    simp only [cutAt_marked fun c hc => (hcore c hc).1, hsplit, htail _ w.prerelease_tail,
      htail _ w.build_tail, List.all_cons, List.all_nil, isCanonicalNumeral_iff.2 w.major_whole,
      isCanonicalNumeral_iff.2 w.minor_whole, isCanonicalNumeral_iff.2 w.patch_whole]
    rfl

/-! ### Paths -/

def Backslashed (before : Char → Prop) (path : List Char) : Prop :=
  ∃ run rest, path = run ++ '\\' :: rest ∧ ∀ c ∈ run, before c

/-- A segment `..` that only such characters come before. -/
def Climbs (before : Char → Prop) (path : List Char) : Prop :=
  ∃ run rest, path = run ++ '.' :: '.' :: rest ∧ (run = [] ∨ run.getLast? = some '/') ∧
    (rest = [] ∨ rest.head? = some '/') ∧ ∀ c ∈ run, before c

/-- What a path is refused for whatever its lines hold. -/
def Misplaced (path : List Char) : Prop :=
  path = [] ∨ Char.ofNat 0 ∈ path ∨ path.head? = some '/' ∨
    ∃ c rest, path = c :: ':' :: rest ∧ isAlpha c = true

/-- The first line of a path decides it: what is refused further on is refused already. -/
def DecidedEarly (path : List Char) : Prop :=
  Misplaced path ∨ Backslashed (isTerminator · = false) path ∨
    Climbs (isTerminator · = false) path ∨
    ¬ Backslashed (fun _ => True) path ∧ ¬ Climbs (fun _ => True) path

/-- What `relativePath` names. -/
def pathAlphabet : PathPattern.Alphabet Char :=
  ⟨'/', '\\', '.', ':', Char.ofNat 0,
    fun c => [('A', 'Z'), ('a', 'z')].any fun r => r.1 ≤ c && c ≤ r.2, isTerminator⟩

theorem found_relativePath (path : List Char) : Found relativePath path ↔ ¬ Misplaced path ∧
    ¬ Backslashed (isTerminator · = false) path ∧ ¬ Climbs (isTerminator · = false) path := by
  have halpha : ∀ c : Char, pathAlphabet.isLetter c = isAlpha c := by
    intro c
    rw [isAlpha, Bool.or_comm]
    simp [pathAlphabet, isLower, isUpper]
  have hdrive : PathPattern.DriveLettered pathAlphabet path ↔
      ∃ c rest, path = c :: ':' :: rest ∧ isAlpha c = true := by
    simp only [PathPattern.DriveLettered, halpha]
    rfl
  have hmisplaced : PathPattern.Misplaced pathAlphabet path ↔ Misplaced path := by
    rw [PathPattern.Misplaced, hdrive]
    rfl
  have hpattern : relativePath = PathPattern.relativePath pathAlphabet := rfl
  rw [hpattern, PathPattern.found_relativePath pathAlphabet (by decide), hmisplaced]
  rfl

theorem splitOn_join (separator : Char) (a b : List Char) :
    splitOn separator (a ++ separator :: b) = splitOn separator a ++ splitOn separator b := by
  induction a with
  | nil => simp [splitOn]
  | cons c a ih =>
    by_cases hc : c = separator
    · simp [splitOn, hc, ih]
    · cases ha : splitOn separator a with
      | nil => exact absurd ha (Ir.splitOn_ne_nil _ _)
      | cons part parts =>
        rw [ha] at ih
        simp [splitOn, hc, ih, ha]

theorem mem_splitOn {separator : Char} {segment cs : List Char}
    (hsegment : ∀ c ∈ segment, c ≠ separator) : segment ∈ splitOn separator cs ↔
      ∃ run rest, cs = run ++ (segment ++ rest) ∧ (run = [] ∨ run.getLast? = some separator) ∧
        (rest = [] ∨ rest.head? = some separator) := by
  have hstart : ∀ rest : List Char, (rest = [] ∨ rest.head? = some separator) →
      segment ∈ splitOn separator (segment ++ rest) := by
    rintro rest (rfl | hrest)
    · rw [List.append_nil, splitOn_whole hsegment]
      exact List.mem_cons_self ..
    · obtain ⟨after, rfl⟩ := List.head?_eq_some_iff.1 hrest
      rw [splitOn_append after hsegment]
      exact List.mem_cons_self ..
  constructor
  · intro h
    induction hlength : cs.length using Nat.strong_induction_on generalizing cs with
    | _ n ih =>
      rw [Ir.splitOn_eq] at h
      cases hcut : splitOnce separator cs with
      | none =>
        rw [hcut] at h
        obtain rfl := List.mem_singleton.1 h
        exact ⟨[], [], by simp, .inl rfl, .inl rfl⟩
      | some parts =>
        rw [hcut] at h
        have hcs := eq_of_splitOnce hcut
        rcases List.mem_cons.1 h with rfl | hlater
        · exact ⟨[], separator :: parts.2, hcs, .inl rfl, .inr rfl⟩
        · have hshort : parts.2.length < n := by
            rw [← hlength, hcs, List.length_append, List.length_cons]
            omega
          obtain ⟨run, rest, hrest, hleft, hright⟩ := ih _ hshort hlater rfl
          refine ⟨parts.1 ++ separator :: run, rest, by rw [hcs, hrest]; simp, .inr ?_, hright⟩
          rcases hleft with rfl | hlast
          · simp
          · rw [List.getLast?_append, List.getLast?_cons, hlast]
            rfl
  · rintro ⟨run, rest, rfl, rfl | hlast, hright⟩
    · exact hstart rest hright
    · rw [← List.dropLast_append_getLast? _ hlast, List.append_assoc, List.singleton_append,
        splitOn_join]
      exact List.mem_append_right _ (hstart rest hright)

theorem isRelativePath_iff (path : String) : isRelativePath path = true ↔
    ¬ Misplaced path.toList ∧ ¬ Backslashed (fun _ => True) path.toList ∧
      ¬ Climbs (fun _ => True) path.toList := by
  have hback : '\\' ∈ path.toList ↔ Backslashed (fun _ => True) path.toList := by
    constructor
    · intro h
      obtain ⟨run, rest, hpath⟩ := List.append_of_mem h
      exact ⟨run, rest, hpath, fun _ _ => trivial⟩
    · rintro ⟨run, rest, hpath, -⟩
      rw [hpath]
      simp
  have hclimb : ['.', '.'] ∈ splitOn '/' path.toList ↔ Climbs (fun _ => True) path.toList := by
    rw [mem_splitOn (by simp)]
    constructor
    · rintro ⟨run, rest, hpath, hleft, hright⟩
      exact ⟨run, rest, hpath, hleft, hright, fun _ _ => trivial⟩
    · rintro ⟨run, rest, hpath, hleft, hright, -⟩
      exact ⟨run, rest, hpath, hleft, hright⟩
  have hassemble : ∀ drive : Bool,
      (drive = true ↔ ∃ c rest, path.toList = c :: ':' :: rest ∧ isAlpha c = true) →
      ((!(path.toList.isEmpty || path.toList.contains (Char.ofNat 0) || path.toList.contains '\\' ||
        path.toList.head? == some '/' || drive ||
          (splitOn '/' path.toList).contains ['.', '.'])) = true ↔
        ¬ Misplaced path.toList ∧ ¬ Backslashed (fun _ => True) path.toList ∧
          ¬ Climbs (fun _ => True) path.toList) := by
    intro drive hdrive
    unfold Misplaced
    rw [Bool.not_eq_true', ← Bool.not_eq_true]
    simp only [Bool.or_eq_true, List.isEmpty_iff, List.contains_iff_mem, beq_iff_eq, hback, hclimb,
      hdrive, not_or]
    constructor
    · rintro ⟨⟨⟨⟨⟨hne, hnul⟩, hb⟩, hroot⟩, hletter⟩, hc⟩
      exact ⟨⟨hne, hnul, hroot, hletter⟩, hb, hc⟩
    · rintro ⟨⟨hne, hnul, hroot, hletter⟩, hb, hc⟩
      exact ⟨⟨⟨⟨⟨hne, hnul⟩, hb⟩, hroot⟩, hletter⟩, hc⟩
  unfold isRelativePath
  refine hassemble _ ?_
  split
  · rename_i c rest heq
    constructor
    · exact fun h => ⟨c, rest, heq, h⟩
    · rintro ⟨c', rest', heq', h⟩
      rw [heq] at heq'
      rw [(List.cons.inj heq').1]
      exact h
  · rename_i hnot
    simp only [Bool.false_eq_true, false_iff]
    rintro ⟨c, rest, heq, -⟩
    exact hnot c rest heq

/-! ### The matchers and the patterns -/

theorem matchers_agree_iff (text : String) : Agree text ↔ DecidedEarly text.toList := by
  have hpath : (isRelativePath text = true ↔ Found relativePath text.toList) ↔
      DecidedEarly text.toList := by
    have hback : Backslashed (isTerminator · = false) text.toList →
        Backslashed (fun _ => True) text.toList := by
      rintro ⟨run, rest, hrun, -⟩
      exact ⟨run, rest, hrun, fun _ _ => trivial⟩
    have hclimb : Climbs (isTerminator · = false) text.toList →
        Climbs (fun _ => True) text.toList := by
      rintro ⟨run, rest, hrun, hleft, hright, -⟩
      exact ⟨run, rest, hrun, hleft, hright, fun _ _ => trivial⟩
    rw [isRelativePath_iff, found_relativePath, DecidedEarly]
    tauto
  constructor
  · exact fun h => hpath.1 h.path
  · intro h
    exact ⟨isSemanticIdentity_found text, isPackageIdentity_found text, isNamespacedName_found text,
      (isSemver_spelled text).trans (found_semver text.toList).symm, hpath.2 h⟩

/-- A segment `..` on the second line of a path. -/
theorem matchers_disagree : ¬ Agree "a\n/../b" := by
  intro h
  have htext : "a\n/../b".toList = ['a', '\n', '/', '.', '.', '/', 'b'] := rfl
  have hfound : Found relativePath ['a', '\n', '/', '.', '.', '/', 'b'] := by
    rw [found_relativePath]
    refine ⟨?_, ?_, ?_⟩
    · rintro (hnil | hnul | hroot | ⟨c, rest, heq, -⟩)
      · cases hnil
      · simp at hnul
      · cases hroot
      · cases heq
    · rintro ⟨run, rest, heq, -⟩
      have hmem : '\\' ∈ ['a', '\n', '/', '.', '.', '/', 'b'] := by
        rw [heq]
        simp
      simp at hmem
    · rintro ⟨run, rest, heq, -, -, hterm⟩
      -- the dots come after the line feed, so it is in what comes before them
      have hfeed : '\n' ∈ run := by
        cases run with
        | nil => cases heq
        | cons c run =>
          cases run with
          | nil => cases heq
          | cons d run =>
            simp only [List.cons_append, List.cons.injEq] at heq
            rw [← heq.2.1]
            simp
      have hfalse := hterm _ hfeed
      cases hfalse
  have hrust := h.path.2 (by rw [htext]; exact hfound)
  have hrefused : isRelativePath "a\n/../b" = false := by decide
  rw [hrefused] at hrust
  cases hrust

end FilamentCore.Compiler.ShapeAgreement
