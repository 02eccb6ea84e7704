import FilamentCore.Backends.PatternPrograms
import FilamentCore.SemanticIr.Binary64

/-!
# The pattern parser (src/compiler/backends/rust-serde/patterns.mjs)

The recursive descent over the UTF-16 code units of a pattern, which refuses what is outside the
subset. It ends on every text, and its trees are those whose programs run to a verdict.
-/

namespace FilamentCore.Backends.Patterns

open Library.Succeeding (bind_ok)

/-- What a parse throws; `none` is a recursion cut off, which no parse comes to. -/
abbrev Parse (α : Type) := Except (Option Failure) α

def refuse {α : Type} (construct : String) (offset : ℕ) : Parse α :=
  .error (some (.unsupported construct offset))

/-! ### Ranges -/

def mergeRange (merged : List (ℕ × ℕ)) (range : ℕ × ℕ) : List (ℕ × ℕ) :=
  match merged with
  | last :: rest =>
    if range.1 ≤ last.2 + 1 then (last.1, max last.2 range.2) :: rest else range :: merged
  | [] => [range]

def normalizeRanges (ranges : List (ℕ × ℕ)) : List (ℕ × ℕ) :=
  ((ranges.insertionSort fun a b => a.1 < b.1 ∨ a.1 = b.1 ∧ a.2 ≤ b.2).foldl mergeRange []).reverse

def complementFrom : ℕ → List (ℕ × ℕ) → List (ℕ × ℕ)
  | cursor, [] => if cursor ≤ 0xffff then [(cursor, 0xffff)] else []
  | cursor, (lo, hi) :: rest =>
    (if cursor < lo then [(cursor, lo - 1)] else []) ++ complementFrom (hi + 1) rest

def complement (ranges : List (ℕ × ℕ)) : List (ℕ × ℕ) := complementFrom 0 (normalizeRanges ranges)

def digitRanges : List (ℕ × ℕ) := [(0x30, 0x39)]

def wordRanges : List (ℕ × ℕ) := [(0x30, 0x39), (0x41, 0x5a), (0x5f, 0x5f), (0x61, 0x7a)]

def spaceRanges : List (ℕ × ℕ) :=
  [(0x0009, 0x000d), (0x0020, 0x0020), (0x00a0, 0x00a0), (0x1680, 0x1680), (0x2000, 0x200a),
    (0x2028, 0x2029), (0x202f, 0x202f), (0x205f, 0x205f), (0x3000, 0x3000), (0xfeff, 0xfeff)]

section

variable {ranges merged : List (ℕ × ℕ)} {range : ℕ × ℕ} {unit : ℕ}

/-- Ranges with a gap between any two, the last one first. -/
def Separate (merged : List (ℕ × ℕ)) : Prop :=
  merged.Pairwise (fun b a => a.2 + 1 < b.1) ∧ ∀ r ∈ merged, r.1 ≤ r.2

theorem inside_cons : inside (range :: ranges) unit =
    (decide (range.1 ≤ unit) && decide (unit ≤ range.2) || inside ranges unit) := rfl

theorem mergeRange_spec (h : Separate merged) (hr : range.1 ≤ range.2)
    (hle : ∀ last ∈ merged.head?, last.1 ≤ range.1) : Separate (mergeRange merged range) ∧
      (∀ last ∈ (mergeRange merged range).head?, last.1 ≤ range.1) ∧
      ∀ unit, inside (mergeRange merged range) unit = inside (range :: merged) unit := by
  cases merged with
  | nil =>
    exact ⟨⟨List.pairwise_singleton .., List.forall_mem_singleton.2 hr⟩, by simp [mergeRange],
      fun _ => rfl⟩
  | cons last rest =>
    obtain ⟨hsep, hall⟩ := h
    obtain ⟨hrest, hsep'⟩ := List.pairwise_cons.1 hsep
    obtain ⟨hlast, hall'⟩ := List.forall_mem_cons.1 hall
    have hle : last.1 ≤ range.1 := hle last rfl
    rw [mergeRange]
    split
    · refine ⟨⟨List.pairwise_cons.2 ⟨hrest, hsep'⟩, List.forall_mem_cons.2 ⟨?_, hall'⟩⟩, ?_,
        fun unit => ?_⟩
      · exact hlast.trans (le_max_left ..)
      · simpa using hle
      · rw [inside_cons, inside_cons, inside_cons, ← Bool.or_assoc]
        congr 1
        rw [Bool.eq_iff_iff]
        simp only [Bool.or_eq_true, Bool.and_eq_true, decide_eq_true_eq]
        omega
    · refine ⟨⟨List.pairwise_cons.2 ⟨List.forall_mem_cons.2 ⟨by omega, fun a ha => ?_⟩, hsep⟩,
        List.forall_mem_cons.2 ⟨hr, hall⟩⟩, by simp, fun _ => rfl⟩
      have hgap := hrest a ha
      omega

theorem foldl_mergeRange (hsorted : ranges.Pairwise fun a b => a.1 ≤ b.1)
    (hall : ∀ r ∈ ranges, r.1 ≤ r.2) (h : Separate merged)
    (hle : ∀ r ∈ ranges, ∀ last ∈ merged.head?, last.1 ≤ r.1) :
    Separate (ranges.foldl mergeRange merged) ∧
      ∀ unit, inside (ranges.foldl mergeRange merged) unit =
        (inside ranges unit || inside merged unit) := by
  induction ranges generalizing merged with
  | nil => exact ⟨h, fun _ => rfl⟩
  | cons range ranges ih =>
    obtain ⟨hfirst, hsorted⟩ := List.pairwise_cons.1 hsorted
    obtain ⟨hr, hall⟩ := List.forall_mem_cons.1 hall
    obtain ⟨hhead, hmerged, hinside⟩ := mergeRange_spec h hr (hle range (List.mem_cons_self ..))
    obtain ⟨hsep, hfold⟩ := ih hsorted hall hhead fun r hr last hlast =>
      (hmerged last hlast).trans (hfirst r hr)
    refine ⟨hsep, fun unit => ?_⟩
    rw [List.foldl_cons, hfold, hinside, inside_cons, inside_cons, Bool.or_left_comm,
      Bool.or_assoc]

theorem inside_complementFrom {cursor : ℕ} (hsep : ranges.Pairwise fun a b => a.2 + 1 < b.1)
    (hall : ∀ r ∈ ranges, r.1 ≤ r.2) (hcursor : ∀ r ∈ ranges, cursor ≤ r.1)
    (hunit : unit ≤ 0xffff) : inside (complementFrom cursor ranges) unit =
      (decide (cursor ≤ unit) && !inside ranges unit) := by
  induction ranges generalizing cursor with
  | nil =>
    rw [complementFrom]
    split
    · simp [inside, hunit]
    · simp only [inside, List.any_nil, Bool.not_false, Bool.and_true]
      exact (decide_eq_false (by omega)).symm
  | cons range ranges ih =>
    obtain ⟨hgap, hsep⟩ := List.pairwise_cons.1 hsep
    obtain ⟨hr, hall⟩ := List.forall_mem_cons.1 hall
    have hle := hcursor range (List.mem_cons_self ..)
    have hbelow : inside ranges unit = true → range.2 + 1 < unit := by
      intro h
      obtain ⟨r, hr, hin⟩ := List.any_eq_true.1 h
      have hlt := hgap r hr
      simp only [Bool.and_eq_true, decide_eq_true_eq] at hin
      omega
    have hrest := @ih (range.2 + 1) hsep hall fun r hr => (hgap r hr).le
    rw [complementFrom, inside, List.any_append, ← inside, ← inside, hrest, inside_cons,
      Bool.eq_iff_iff]
    cases hin : inside ranges unit with
    | false => split <;> (simp [inside]; omega)
    | true =>
      have hlt := hbelow hin
      split <;> simp [inside] <;> omega

/-- The ranges of a class come out in order, with gaps between them, and admit the same units; and
the complement, which stands for a negated escape, admits the others. -/
theorem ranges_exact (h : ∀ r ∈ ranges, r.1 ≤ r.2) :
    (normalizeRanges ranges).Pairwise (fun a b => a.2 + 1 < b.1) ∧
      (∀ unit, inside (normalizeRanges ranges) unit = inside ranges unit) ∧
      ∀ unit ≤ 0xffff, inside (complement ranges) unit = !inside ranges unit := by
  let le := fun a b : ℕ × ℕ => a.1 < b.1 ∨ a.1 = b.1 ∧ a.2 ≤ b.2
  have htotal : Std.Total le := ⟨fun a b => by dsimp only [le]; omega⟩
  have htrans : IsTrans (ℕ × ℕ) le := ⟨fun a b c hab hbc => by dsimp only [le] at *; omega⟩
  have hperm := ranges.perm_insertionSort le
  obtain ⟨hsep, hinside⟩ := @foldl_mergeRange _ []
    ((ranges.pairwise_insertionSort le).imp fun {a b} hab => by dsimp only [le] at hab; omega)
    (fun r hr => h r (hperm.subset hr)) ⟨.nil, by simp⟩ (by simp)
  have hsame : ∀ unit, inside (normalizeRanges ranges) unit = inside ranges unit := by
    intro unit
    rw [normalizeRanges, inside, List.any_reverse, ← inside, hinside]
    exact (Bool.or_false _).trans hperm.any_eq
  have hpairs : (normalizeRanges ranges).Pairwise fun a b => a.2 + 1 < b.1 :=
    List.pairwise_reverse.2 hsep.1
  refine ⟨hpairs, hsame, fun unit hunit => ?_⟩
  rw [complement, inside_complementFrom hpairs (fun r hr => hsep.2 r (List.mem_reverse.1 hr))
    (fun r _ => Nat.zero_le _) hunit, hsame, decide_eq_true (Nat.zero_le _), Bool.true_and]

theorem ranges_exact_word : ∀ unit ≤ 0xffff,
    inside (complement wordRanges) unit = !inside wordRanges unit :=
  (ranges_exact (by decide)).2.2

end

/-- `classEscape`: whether the class is negated, and its ranges. -/
def classEscape (ch : Option ℕ) : Option (Bool × List (ℕ × ℕ)) :=
  (ch.map Char.ofNat).bind fun
    | 'd' => some (false, digitRanges)
    | 'D' => some (true, digitRanges)
    | 'w' => some (false, wordRanges)
    | 'W' => some (true, wordRanges)
    | 's' => some (false, spaceRanges)
    | 'S' => some (true, spaceRanges)
    | _ => none

variable (text : List ℕ)

def isAt (place : ℕ) (c : Char) : Bool := text[place]? == some c.toNat

/-! ### Counts -/

def isDigit (unit : ℕ) : Bool := decide (48 ≤ unit) && decide (unit ≤ 57)

/-- A JavaScript number from an exact one. -/
def number (n : ℕ) : Option ℕ := (SemanticIr.binary64 n).map fun q => q.num.toNat

/-- `value * 10 + digit`. -/
def grow (value : Option ℕ) (digit : ℕ) : Option ℕ :=
  (value.bind fun n => number (n * 10)).bind fun n => number (n + (digit - 48))

/-- `digits`: the number of a run of digits, none without one, and the place after it. -/
def digits (place : ℕ) : Option (Option ℕ) × ℕ :=
  let run := (text.drop place).takeWhile isDigit
  (if run = [] then none else some (run.foldl grow (some 0)), place + run.length)

/-- `<` of numbers. -/
def below : Option ℕ → Option ℕ → Bool
  | some a, some b => decide (a < b)
  | some _, none => true
  | none, _ => false

def braceQuantifier (start : ℕ) : Parse (Option ((Option ℕ × Option ℕ) × ℕ)) :=
  match digits text (start + 1) with
  | (none, _) => .ok none
  | (some first, place) =>
    if isAt text place '\x7d' then .ok (some ((first, first), place + 1))
    else if !isAt text place ',' then .ok none
    else if isAt text (place + 1) '\x7d' then .ok (some ((first, none), place + 2))
    else
      match digits text (place + 1) with
      | (none, _) => .ok none
      | (some second, place) =>
        if !isAt text place '\x7d' then .ok none
        else if below second first then refuse "an inverted \x7bm,n\x7d bound" start
        else .ok (some ((first, second), place + 1))

def Node.isAssertion : Node → Bool
  | .bol | .eol => true
  | _ => false

/-- What `quantified` does with the counts. -/
def quantify (atom : Node) (min max : Option ℕ) (place : ℕ) : Parse (Node × ℕ) :=
  let lazy := isAt text place '?'
  let place := if lazy then place + 1 else place
  if atom.isAssertion then refuse "a quantified assertion" place
  else if max.isNone && matchesEmpty atom then
    refuse "an unbounded quantifier over an atom that can match the empty string" place
  else .ok (.repeated atom min max lazy, place)

def quantified (atom : Node) (place : ℕ) : Parse (Node × ℕ) :=
  if isAt text place '*' then quantify text atom (some 0) none (place + 1)
  else if isAt text place '+' then quantify text atom (some 1) none (place + 1)
  else if isAt text place '?' then quantify text atom (some 0) (some 1) (place + 1)
  else if isAt text place '\x7b' then do
    match ← braceQuantifier text place with
    | none => .ok (atom, place)
    | some ((min, max), place) => quantify text atom min max place
  else .ok (atom, place)

/-! ### Escapes -/

def hexValue (unit : ℕ) : Option ℕ :=
  if isDigit unit then some (unit - 48)
  else if 65 ≤ unit ∧ unit ≤ 70 then some (unit - 55)
  else if 97 ≤ unit ∧ unit ≤ 102 then some (unit - 87)
  else none

def hexAt (place count : ℕ) : Option ℕ :=
  let run := (text.drop place).take count
  if run.length < count then none
  else (run.mapM hexValue).map fun digits => digits.foldl (fun n d => n * 16 + d) 0

def characterEscape (start : ℕ) : Parse (ℕ × ℕ) :=
  match text[start]? with
  | none => .error (some .typeError)
  | some unit =>
    match Char.ofNat unit with
    | 'n' => .ok (0x0a, start + 1)
    | 'r' => .ok (0x0d, start + 1)
    | 't' => .ok (0x09, start + 1)
    | 'f' => .ok (0x0c, start + 1)
    | 'v' => .ok (0x0b, start + 1)
    | '0' =>
      if text[start + 1]?.any isDigit then refuse "a legacy octal escape" start
      else .ok (0, start + 1)
    | 'x' =>
      match hexAt text (start + 1) 2 with
      | some value => .ok (value, start + 3)
      | none => refuse "a malformed `\\xHH` escape" start
    | 'u' =>
      if isAt text (start + 1) '\x7b' then refuse "a code-point escape `\\u\x7b…\x7d`" start
      else
        match hexAt text (start + 1) 4 with
        | some value => .ok (value, start + 5)
        | none => refuse "a malformed `\\uHHHH` escape" start
    | 'c' =>
      match text[start + 1]? with
      | some letter =>
        if 65 ≤ letter ∧ letter ≤ 90 ∨ 97 ≤ letter ∧ letter ≤ 122 then .ok (letter % 32, start + 2)
        else refuse "a malformed control escape `\\c`" start
      | none => refuse "a malformed control escape `\\c`" start
    | _ => .ok (unit, start + 1)

def atomEscape (start : ℕ) : Parse (Node × ℕ) :=
  let escaped : Parse (Node × ℕ) :=
    match classEscape text[start + 1]? with
    | some (negated, ranges) => .ok (.cls negated ranges, start + 2)
    | none => do
      let (unit, place) ← characterEscape text (start + 1)
      .ok (.char unit, place)
  match text[start + 1]? with
  | none => refuse "a trailing backslash" start
  | some unit =>
    match Char.ofNat unit with
    | 'b' => refuse "the word boundary `\\b`" start
    | 'B' => refuse "the non-word boundary `\\B`" start
    | 'p' | 'P' => refuse "a Unicode property escape `\\p\x7b…\x7d`" start
    | 'k' => refuse "a named backreference `\\k<name>`" start
    | ch =>
      if 49 ≤ unit ∧ unit ≤ 57 then
        refuse ("a backreference `\\" ++ String.singleton ch ++ "`") start
      else escaped

/-! ### Classes -/

/-- The ranges of a class escape, or a unit. -/
def classAtom (start : ℕ) : Parse ((List (ℕ × ℕ) ⊕ ℕ) × ℕ) :=
  if isAt text start '\\' then
    let next := start + 1
    if isAt text next 'b' then .ok (.inr 8, next + 1)
    else if isAt text next 'B' then refuse "`\\B` inside a class" start
    else if isAt text next 'p' || isAt text next 'P' then
      refuse "a Unicode property escape `\\p\x7b…\x7d`" start
    else if isAt text next 'k' then refuse "a named backreference `\\k<name>`" start
    else
      match classEscape text[next]? with
      | some (negated, ranges) =>
        .ok (.inl (if negated then complement ranges else ranges), next + 1)
      | none => do
        let (unit, place) ← characterEscape text next
        .ok (.inr unit, place)
  else .ok (.inr (text[start]?.getD 0), start + 1)

/-- The loop of `characterClass`, a turn for each part. -/
def classRanges (start : ℕ) : ℕ → ℕ → List (ℕ × ℕ) → Parse (List (ℕ × ℕ) × ℕ)
  | 0, _, _ => .error none
  | turns + 1, place, ranges =>
    if text.length ≤ place then refuse "an unterminated class" start
    else if isAt text place ']' then .ok (ranges, place + 1)
    else do
      match ← classAtom text place with
      | (.inl more, place) => classRanges start turns place (ranges ++ more)
      | (.inr first, place) =>
        if isAt text place '-' && decide (place + 1 < text.length) &&
            !isAt text (place + 1) ']' then
          match ← classAtom text (place + 1) with
          | (.inl _, place) => refuse "a class escape as a range bound" place
          | (.inr second, place) =>
            if second < first then refuse "an inverted class range" place
            else classRanges start turns place (ranges ++ [(first, second)])
        else classRanges start turns place (ranges ++ [(first, first)])

def characterClass (start : ℕ) : Parse (Node × ℕ) := do
  let negated := isAt text (start + 1) '^'
  let (ranges, place) ← classRanges text start (text.length + 1)
    (if negated then start + 2 else start + 1) []
  .ok (.cls negated (normalizeRanges ranges), place)

/-! ### The descent -/

def expect (place : ℕ) (c : Char) (construct : String) : Parse ℕ :=
  if isAt text place c then .ok (place + 1) else refuse construct place

mutual

def disjunction : ℕ → ℕ → Parse (Node × ℕ)
  | 0, _ => .error none
  | depth + 1, place => do
    let (first, place) ← alternative depth place
    let (rest, place) ← branches depth place
    .ok (if rest.isEmpty then first else .alt (first :: rest), place)

def branches : ℕ → ℕ → Parse (List Node × ℕ)
  | 0, _ => .error none
  | depth + 1, place =>
    if isAt text place '|' then do
      let (branch, place) ← alternative depth (place + 1)
      let (rest, place) ← branches depth place
      .ok (branch :: rest, place)
    else .ok ([], place)

def alternative : ℕ → ℕ → Parse (Node × ℕ)
  | 0, _ => .error none
  | depth + 1, place => do
    let (terms, place) ← terms depth place
    .ok (.seq terms, place)

def terms : ℕ → ℕ → Parse (List Node × ℕ)
  | 0, _ => .error none
  | depth + 1, place =>
    if text.length ≤ place || isAt text place '|' || isAt text place ')' then .ok ([], place)
    else do
      let (node, place) ← term depth place
      let (rest, place) ← terms depth place
      .ok (node :: rest, place)

def term : ℕ → ℕ → Parse (Node × ℕ)
  | 0, _ => .error none
  | depth + 1, place =>
    if isAt text place '^' then .ok (.bol, place + 1)
    else if isAt text place '$' then .ok (.eol, place + 1)
    else do
      let (node, place) ← atom depth place
      quantified text node place

def atom : ℕ → ℕ → Parse (Node × ℕ)
  | 0, _ => .error none
  | depth + 1, place =>
    match text[place]? with
    | none => refuse "an empty atom" place
    | some unit =>
      match Char.ofNat unit with
      | '.' => .ok (.dot, place + 1)
      | '(' => group depth place
      | '[' => characterClass text place
      | '\\' => atomEscape text place
      | '*' | '+' | '?' => refuse "a quantifier with no atom" place
      | _ => .ok (.char unit, place + 1)

def group : ℕ → ℕ → Parse (Node × ℕ)
  | 0, _ => .error none
  | depth + 1, start =>
    let inner (place : ℕ) : Parse (Node × ℕ) := do
      let (node, place) ← disjunction depth place
      let place ← expect text place ')' "an unterminated group"
      .ok (node, place)
    if isAt text (start + 1) '?' then
      if isAt text (start + 2) ':' then inner (start + 3)
      else if isAt text (start + 2) '=' then refuse "a lookahead `(?=`" start
      else if isAt text (start + 2) '!' then refuse "a negative lookahead `(?!`" start
      else if isAt text (start + 2) '<' then
        if isAt text (start + 3) '=' then refuse "a lookbehind `(?<=`" start
        else if isAt text (start + 3) '!' then refuse "a negative lookbehind `(?<!`" start
        else refuse "a named group `(?<name>`" start
      else refuse "an unsupported group modifier" start
    else inner (start + 1)

end

/-- `parsePattern`, of the code units of the pattern. -/
def parsePattern : Parse Node := do
  let (node, place) ← disjunction text (8 * text.length + 8) 0
  match text[place]? with
  | none => .ok node
  | some unit => refuse ("`" ++ String.singleton (Char.ofNat unit) ++ "`") place

/-- `lowerPattern`, the program. -/
def lowerPattern : Parse (List Inst) := do
  let node ← parsePattern text
  match compile node with
  | .ok code => .ok (code ++ [.match'])
  | .error failure => .error (some failure)

/-! ### What a parse makes -/

variable {text} {α β : Type} {good : α → Prop} {good' : β → Prop} {least least' place : ℕ}

/-- A parse that is not cut off; what it makes is good, and it ends no earlier than `least`. -/
structure Good (good : α → Prop) (least : ℕ) (result : Parse (α × ℕ)) : Prop where
  ends : result ≠ .error none
  made : ∀ a place, result = .ok (a, place) → good a ∧ least ≤ place

theorem Good.refused (construct : String) (offset : ℕ) :
    Good good least (refuse construct offset) := ⟨nofun, nofun⟩

theorem Good.ok {a : α} (ha : good a) (hle : least ≤ place) : Good good least (.ok (a, place)) := by
  refine ⟨nofun, fun b place' h => ?_⟩
  cases h
  exact ⟨ha, hle⟩

theorem Good.bind {result : Parse (α × ℕ)} {next : α × ℕ → Parse (β × ℕ)}
    (h : Good good least result)
    (hnext : ∀ a place, good a → least ≤ place → Good good' least' (next (a, place))) :
    Good good' least' (result >>= next) := by
  cases result with
  | error failure => exact ⟨fun heq => h.ends (congrArg _ (Except.error.inj heq)), nofun⟩
  | ok made =>
    obtain ⟨ha, hle⟩ := h.made made.1 made.2 rfl
    exact hnext made.1 made.2 ha hle

theorem Good.weaken {least' : ℕ} {result : Parse (α × ℕ)} (h : Good good least result)
    (hle : least' ≤ least) : Good good least' result := by
  refine ⟨h.ends, fun a place heq => ?_⟩
  obtain ⟨ha, hplace⟩ := h.made a place heq
  exact ⟨ha, hle.trans hplace⟩

theorem quantify_good {node : Node} (hnode : node.WellFormed) {min max : Option ℕ}
    (hle : ∀ most, max = some most → ∃ least, min = some least ∧ least ≤ most) (h : least ≤ place) :
    Good Node.WellFormed least (quantify text node min max place) := by
  rw [quantify]
  split
  · exact .refused _ _
  · split
    · exact .refused _ _
    · rename_i hbounded
      refine .ok ⟨hnode, fun hmax => ?_, hle⟩ ?_
      · simpa [hmax] using hbounded
      · split
        · omega
        · exact h

theorem brace_spec (start : ℕ) : braceQuantifier text start ≠ .error none ∧
    ∀ min max last, braceQuantifier text start = .ok (some ((min, max), last)) → start < last ∧
      ∀ most, max = some most → ∃ least, min = some least ∧ least ≤ most := by
  have hdigits : ∀ place, place ≤ (digits text place).2 := fun place => Nat.le_add_right ..
  rw [braceQuantifier]
  split
  · exact ⟨nofun, nofun⟩
  · rename_i first place hfirst
    have hplace := hdigits (start + 1)
    rw [hfirst] at hplace
    dsimp only at hplace
    split
    · refine ⟨nofun, fun min max last h => ?_⟩
      cases h
      exact ⟨by omega, fun most hmost => ⟨most, hmost, le_rfl⟩⟩
    · split
      · exact ⟨nofun, nofun⟩
      · split
        · refine ⟨nofun, fun min max last h => ?_⟩
          cases h
          exact ⟨by omega, nofun⟩
        · split
          · exact ⟨nofun, nofun⟩
          · rename_i second next hsecond
            have hnext := hdigits (place + 1)
            rw [hsecond] at hnext
            dsimp only at hnext
            split
            · exact ⟨nofun, nofun⟩
            · split
              · exact ⟨nofun, nofun⟩
              · rename_i hbelow
                refine ⟨nofun, fun min max last h => ?_⟩
                cases h
                refine ⟨by omega, fun most hmost => ?_⟩
                subst hmost
                cases first with
                | none => exact absurd rfl hbelow
                | some least => exact ⟨least, rfl, by simpa [below] using hbelow⟩

theorem quantified_good {node : Node} (hnode : node.WellFormed) :
    Good Node.WellFormed place (quantified text node place) := by
  rw [quantified]
  split
  · exact quantify_good hnode nofun (by omega)
  · split
    · exact quantify_good hnode nofun (by omega)
    · split
      · refine quantify_good hnode (fun most hmost => ⟨0, rfl, by omega⟩) (by omega)
      · split
        · obtain ⟨hends, hmade⟩ := @brace_spec text place
          cases hbrace : braceQuantifier text place with
          | error failure =>
            exact ⟨fun h => hends (hbrace.trans (congrArg _ (Except.error.inj h))), nofun⟩
          | ok counts =>
            cases counts with
            | none => exact .ok hnode le_rfl
            | some counts =>
              obtain ⟨hlt, hle⟩ := hmade _ _ _ hbrace
              exact quantify_good hnode hle hlt.le
        · exact .ok hnode le_rfl

theorem characterEscape_good (start : ℕ) :
    Good (fun _ => True) (start + 1) (characterEscape text start) := by
  rw [characterEscape]
  split
  · exact ⟨nofun, nofun⟩
  · split <;> (repeat' split) <;> first
      | exact .refused _ _
      | exact .ok trivial (by omega)

theorem atomEscape_good (start : ℕ) : Good Node.WellFormed (start + 1) (atomEscape text start) := by
  have hescaped : Good Node.WellFormed (start + 1) (match classEscape text[start + 1]? with
      | some (negated, ranges) => .ok (.cls negated ranges, start + 2)
      | none => do
        let (unit, place) ← characterEscape text (start + 1)
        .ok (.char unit, place)) := by
    split
    · exact .ok trivial (by omega)
    · exact (characterEscape_good (start + 1)).bind fun unit place _ h => .ok trivial (by omega)
  rw [atomEscape]
  split
  · exact .refused _ _
  · split <;> first
      | exact .refused _ _
      | (split <;> [exact .refused _ _; exact hescaped])

theorem classAtom_good (start : ℕ) :
    Good (fun _ => True) (start + 1) (classAtom text start) := by
  rw [classAtom]
  dsimp only
  repeat' split
  all_goals first
    | exact .refused _ _
    | exact .ok trivial (by omega)
    | exact (characterEscape_good (start + 1)).bind fun unit place _ h => .ok trivial (by omega)

theorem classRanges_good (start : ℕ) (turns : ℕ) (ranges : List (ℕ × ℕ))
    (h : text.length - place < turns) :
    Good (fun _ => True) (place + 1) (classRanges text start turns place ranges) := by
  induction turns generalizing place ranges with
  | zero => omega
  | succ turns ih =>
    rw [classRanges]
    split
    · exact .refused _ _
    · split
      · exact .ok trivial le_rfl
      · refine (classAtom_good place).bind fun first next _ hnext => ?_
        cases first with
        | inl more => exact (ih _ (by omega)).weaken (by omega)
        | inr first =>
          dsimp only
          split
          · refine (classAtom_good (next + 1)).bind fun second last _ hlast => ?_
            cases second with
            | inl more => exact .refused _ _
            | inr second =>
              dsimp only
              split
              · exact .refused _ _
              · exact (ih _ (by omega)).weaken (by omega)
          · exact (ih _ (by omega)).weaken (by omega)

theorem characterClass_good (start : ℕ) :
    Good Node.WellFormed (start + 1) (characterClass text start) := by
  have hstart : start + 1 ≤ if isAt text (start + 1) '^' then start + 2 else start + 1 := by
    split <;> omega
  refine (classRanges_good start (text.length + 1) [] (by omega)).bind fun ranges place _ h => ?_
  exact .ok trivial (by omega)

theorem expect_good {c : Char} {construct : String} {node : Node} (hnode : node.WellFormed)
    (h : least ≤ place) : Good Node.WellFormed least (do
      let place ← expect text place c construct
      .ok (node, place)) := by
  rw [expect]
  split
  · exact .ok hnode (by omega)
  · exact .refused _ _

/-- The descent, so many calls deep, from any place that the calls are enough for. -/
structure Descends (text : List ℕ) (depth : ℕ) : Prop where
  disjunction : ∀ place, 8 * (text.length - place) + 6 ≤ depth →
    Good Node.WellFormed place (disjunction text depth place)
  branches : ∀ place, 8 * (text.length - place) + 5 ≤ depth →
    Good AllWellFormed place (branches text depth place)
  alternative : ∀ place, 8 * (text.length - place) + 5 ≤ depth →
    Good Node.WellFormed place (alternative text depth place)
  terms : ∀ place, 8 * (text.length - place) + 4 ≤ depth →
    Good AllWellFormed place (terms text depth place)
  term : ∀ place < text.length, 8 * (text.length - place) + 3 ≤ depth →
    Good Node.WellFormed (place + 1) (term text depth place)
  atom : ∀ place < text.length, 8 * (text.length - place) + 2 ≤ depth →
    Good Node.WellFormed (place + 1) (atom text depth place)
  group : ∀ place < text.length, 8 * (text.length - place) + 1 ≤ depth →
    Good Node.WellFormed (place + 1) (group text depth place)

theorem descends (text : List ℕ) (depth : ℕ) : Descends text depth := by
  induction depth with
  | zero => constructor <;> intros <;> omega
  | succ depth ih =>
    refine ⟨fun place h => ?_, fun place h => ?_, fun place h => ?_, fun place h => ?_,
      fun place hlt h => ?_, fun place hlt h => ?_, fun place hlt h => ?_⟩
    · rw [Patterns.disjunction]
      refine (ih.alternative place (by omega)).bind fun first next hfirst hnext => ?_
      refine (ih.branches next (by omega)).bind fun rest last hrest hlast => ?_
      refine .ok ?_ (by omega)
      cases rest with
      | nil => exact hfirst
      | cons branch rest => exact ⟨by simp, hfirst, hrest⟩
    · rw [Patterns.branches]
      split
      · rename_i hbar
        have hlt : place < text.length := by
          by_contra hge
          rw [isAt, List.getElem?_eq_none (by omega)] at hbar
          cases hbar
        refine (ih.alternative (place + 1) (by omega)).bind fun branch next hbranch hnext => ?_
        refine (ih.branches next (by omega)).bind fun rest last hrest hlast => ?_
        exact .ok ⟨hbranch, hrest⟩ (by omega)
      · exact .ok trivial le_rfl
    · rw [Patterns.alternative]
      refine (ih.terms place (by omega)).bind fun terms next hterms hnext => ?_
      exact .ok hterms hnext
    · rw [Patterns.terms]
      split
      · exact .ok trivial le_rfl
      · rename_i hmore
        have hlt : place < text.length := by
          by_contra hge
          exact hmore (by simp [Nat.not_lt.1 hge])
        refine (ih.term place hlt (by omega)).bind fun node next hnode hnext => ?_
        refine (ih.terms next (by omega)).bind fun rest last hrest hlast => ?_
        exact .ok ⟨hnode, hrest⟩ (by omega)
    · rw [Patterns.term]
      split
      · exact .ok trivial le_rfl
      · split
        · exact .ok trivial le_rfl
        · refine (ih.atom place hlt (by omega)).bind fun node next hnode hnext => ?_
          exact (quantified_good hnode).weaken hnext
    · rw [Patterns.atom]
      split
      · exact .refused _ _
      · split
        · exact .ok trivial le_rfl
        · exact ih.group place hlt (by omega)
        · exact characterClass_good place
        · exact atomEscape_good place
        · exact .refused _ _
        · exact .refused _ _
        · exact .refused _ _
        · exact .ok trivial le_rfl
    · have hinner : ∀ next, place < next → Good Node.WellFormed (place + 1) (do
          let (node, place) ← disjunction text depth next
          let place ← expect text place ')' "an unterminated group"
          .ok (node, place)) := by
        intro next hnext
        refine (ih.disjunction next (by omega)).bind fun node last hnode hlast => ?_
        exact expect_good hnode (by omega)
      rw [Patterns.group]
      dsimp only
      split
      · split
        · exact hinner _ (by omega)
        · repeat' split
          all_goals exact .refused _ _
      · exact hinner _ (by omega)

/-- A parse ends, and its tree is well formed. -/
theorem parsePattern_good (text : List ℕ) : parsePattern text ≠ .error none ∧
    ∀ node, parsePattern text = .ok node → node.WellFormed := by
  have hgood := (descends text (8 * text.length + 8)).disjunction 0 (by omega)
  rw [parsePattern]
  cases hparse : disjunction text (8 * text.length + 8) 0 with
  | error failure =>
    rw [hparse] at hgood
    exact ⟨fun h => hgood.ends (congrArg _ (Except.error.inj h)), nofun⟩
  | ok made =>
    obtain ⟨node, place⟩ := made
    obtain ⟨hnode, -⟩ := hgood.made node place hparse
    simp only [bind, Except.bind]
    split
    · refine ⟨nofun, fun other h => ?_⟩
      cases h
      exact hnode
    · exact ⟨nofun, nofun⟩

end FilamentCore.Backends.Patterns
