import FilamentCore.Library.JsonValue
import FilamentCore.Library.PercentText
import FilamentCore.PythonBackend.Guard

/-!
# The reference guard (python_backend/adapter/guard.py)

What `assert_schema_safe` refuses of a schema document. The shape of a reference is decided on its
decoded text, and a resolver cuts the fragment off before it decodes.
-/

namespace FilamentCore.PythonBackend.Guard
open FilamentCore.Library.JsonSchema (Json)
open FilamentCore.Library.PercentText

/-! ### The shape of a reference -/

inductive Shape
  | uriScheme | absolutePath | parentEscape | driveLetter
  deriving DecidableEq, Repr

def Shape.name : Shape → String
  | .uriScheme => "uri-scheme"
  | .absolutePath => "absolute-path"
  | .parentEscape => "parent-escape"
  | .driveLetter => "drive-letter"

/-- The codes of `referenceShapes` in refusals.json. -/
def Shape.code : Shape → String
  | .uriScheme => "PY-REF-010"
  | .absolutePath => "PY-REF-011"
  | .parentEscape => "PY-REF-012"
  | .driveLetter => "PY-REF-013"

def isSchemeChar (c : Char) : Bool := c.isAlphanum || c = '+' || c = '.' || c = '-'

/-- `^[A-Za-z][A-Za-z0-9+.-]*:`. -/
def matchesScheme : List Char → Bool
  | [] => false
  | c :: cs => c.isAlpha && (cs.dropWhile isSchemeChar).head? == some ':'

/-- `^[A-Za-z]:[\\/]`. -/
def matchesDrive : List Char → Bool
  | c :: ':' :: slash :: _ => c.isAlpha && (slash = '\\' || slash = '/')
  | _ => false

/-- `path.replace("\\", "/").split("/")`. -/
def segments : List Char → List (List Char)
  | [] => [[]]
  | c :: cs =>
    if c = '\\' ∨ c = '/' then [] :: segments cs
    else
      match segments cs with
      | [] => [[c]]
      | s :: ss => (c :: s) :: ss

/-- What stands before the first `#`. -/
def beforeFragment (cs : List Char) : List Char := cs.takeWhile (· != '#')

def classifyRef (value : List Char) : Option Shape :=
  let value := unquote value
  if value.head? = some '#' then none
  else if matchesDrive value then some .driveLetter
  else if matchesScheme value then some .uriScheme
  else if value.head? = some '/' then some .absolutePath
  else if (segments (beforeFragment value)).contains ['.', '.'] then some .parentEscape
  else none

/-! ### The walk -/

/-- The `schemaKeys` of refusals.json with their codes. -/
def schemaKeys : List (String × String) :=
  [("x-python-import", "PY-REF-001"), ("x-python-type", "PY-REF-002"),
    ("customTypePath", "PY-REF-003"), ("customBasePath", "PY-REF-004"),
    ("default_factory", "PY-REF-005")]

def referenceKeys : List String := ["$ref", "$dynamicRef", "$recursiveRef"]

def escape (token : String) : String :=
  String.ofList (token.toList.flatMap fun c =>
    if c = '~' then ['~', '0'] else if c = '/' then ['~', '1'] else [c])

def refuseMember (repr : String → String) (here key : String) (value : Json) :
    Except RefusalError Unit :=
  match schemaKeys.lookup key with
  | some code => .error ⟨code, "forbidden executable Python schema extension " ++ repr key, here⟩
  | none =>
    match value with
    | .str text =>
      if referenceKeys.contains key then
        match classifyRef text.toList with
        | some shape => .error ⟨shape.code,
            "refused $ref shape " ++ shape.name ++ ": " ++ repr text, here⟩
        | none => .ok ()
      else .ok ()
    | _ => .ok ()

mutual

def visit (repr : String → String) (pointer : String) : Json → Except RefusalError Unit
  | .array items => visitItems repr pointer 0 items
  | .object members => visitMembers repr pointer members
  | _ => .ok ()

def visitItems (repr : String → String) (pointer : String) (index : ℕ) :
    List Json → Except RefusalError Unit
  | [] => .ok ()
  | item :: items => do
    visit repr (pointer ++ "/" ++ toString index) item
    visitItems repr pointer (index + 1) items

def visitMembers (repr : String → String) (pointer : String) :
    List (String × Json) → Except RefusalError Unit
  | [] => .ok ()
  | m :: ms => do
    visitMember repr pointer m
    visitMembers repr pointer ms

def visitMember (repr : String → String) (pointer : String) :
    String × Json → Except RefusalError Unit
  | (key, value) => do
    refuseMember repr (pointer ++ "/" ++ escape key) key value
    visit repr (pointer ++ "/" ++ escape key) value

end

def assertSchemaSafe (repr : String → String) (document : Json) : Except RefusalError Unit :=
  visit repr "" document

/-! ### The members of a document -/

mutual

def members : Json → List (String × Json)
  | .array items => itemsMembers items
  | .object ms => objectMembers ms
  | _ => []

def itemsMembers : List Json → List (String × Json)
  | [] => []
  | item :: items => members item ++ itemsMembers items

def objectMembers : List (String × Json) → List (String × Json)
  | [] => []
  | m :: ms => memberMembers m ++ objectMembers ms

def memberMembers : String × Json → List (String × Json)
  | (key, value) => (key, value) :: members value

end

/-- The strings under a reference key, at every depth. -/
def references (document : Json) : List String :=
  (members document).filterMap fun m => if m.1 ∈ referenceKeys then m.2.text else none

/-! ### Where a reference leads -/

/-- The segments never leave the directory they start in, `depth` below the one that counts. -/
def stays (depth : ℕ) : List (List Char) → Bool
  | [] => true
  | s :: ss =>
    if s = [] ∨ s = ['.'] then stays depth ss
    else if s = ['.', '.'] then decide (0 < depth) && stays (depth - 1) ss
    else stays (depth + 1) ss

structure NamesInside (path : List Char) : Prop where
  relative : path.head? ≠ some '/' ∧ path.head? ≠ some '\\'
  noScheme : matchesScheme path = false
  noDrive : matchesDrive path = false
  inside : stays 0 (segments path) = true

/-- A fragment, or a path that is inside as it stands and decoded. -/
def LeadsInside (ref : List Char) : Prop :=
  ref.head? = some '#' ∨
    NamesInside (beforeFragment ref) ∧ NamesInside (unquote (beforeFragment ref))

def isName (segment : List Char) : Bool :=
  segment != [] && segment != ['.'] && segment != ['.', '.']

/-- No start of the path has more `..` than names. -/
def Balanced (path : List Char) : Prop :=
  ∀ n, ((segments path).take n).count ['.', '.'] ≤ ((segments path).take n).countP isName

/-- A fragment; or no `\` at the start, and with an encoded `#` no more `..` than names. -/
def Sound (ref : List Char) : Prop :=
  ref.head? = some '#' ∨
    (unquote (beforeFragment ref)).head? ≠ some '\\' ∧
      ('#' ∈ unquote (beforeFragment ref) →
        Balanced (beforeFragment ref) ∧ Balanced (unquote (beforeFragment ref)))

/-! ### What the walk accepts -/

/-- A member that is not refused. -/
def Passes (m : String × Json) : Prop :=
  schemaKeys.lookup m.1 = none ∧
    (m.1 ∈ referenceKeys → ∀ text, m.2 = .str text → classifyRef text.toList = none)

theorem refuseMember_ok {repr : String → String} {here key : String} {value : Json} :
    refuseMember repr here key value = .ok () ↔ Passes (key, value) := by
  unfold refuseMember Passes
  cases hkey : schemaKeys.lookup key with
  | some code => simp
  | none =>
    cases value with
    | str text =>
      by_cases href : key ∈ referenceKeys
      · cases hshape : classifyRef text.toList <;> simp [href, hshape]
      · simp [href]
    | _ => simp

theorem andThen_ok {a b : Except RefusalError Unit} :
    (do a; b) = .ok () ↔ a = .ok () ∧ b = .ok () := by
  cases a with
  | error e => simp [bind, Except.bind]
  | ok u => simp [bind, Except.bind]

mutual

theorem visit_ok (repr : String → String) (pointer : String) (document : Json) :
    visit repr pointer document = .ok () ↔ ∀ m ∈ members document, Passes m := by
  cases document with
  | array items => rw [visit, members, visitItems_ok repr pointer 0 items]
  | object ms => rw [visit, members, visitMembers_ok repr pointer ms]
  | _ => simp [visit, members]

theorem visitItems_ok (repr : String → String) (pointer : String) (index : ℕ)
    (items : List Json) :
    visitItems repr pointer index items = .ok () ↔ ∀ m ∈ itemsMembers items, Passes m := by
  cases items with
  | nil => simp [visitItems, itemsMembers]
  | cons item items =>
    rw [visitItems, itemsMembers, andThen_ok, visit_ok repr _ item,
      visitItems_ok repr pointer _ items, List.forall_mem_append]

theorem visitMembers_ok (repr : String → String) (pointer : String)
    (ms : List (String × Json)) :
    visitMembers repr pointer ms = .ok () ↔ ∀ m ∈ objectMembers ms, Passes m := by
  cases ms with
  | nil => simp [visitMembers, objectMembers]
  | cons m ms =>
    rw [visitMembers, objectMembers, andThen_ok, visitMember_ok repr pointer m,
      visitMembers_ok repr pointer ms, List.forall_mem_append]

theorem visitMember_ok (repr : String → String) (pointer : String) (m : String × Json) :
    visitMember repr pointer m = .ok () ↔ ∀ m' ∈ memberMembers m, Passes m' := by
  obtain ⟨key, value⟩ := m
  rw [visitMember, memberMembers, andThen_ok, refuseMember_ok, visit_ok repr _ value,
    List.forall_mem_cons]

end

theorem mem_references {document : Json} {text : String} :
    text ∈ references document ↔
      ∃ key ∈ referenceKeys, (key, Json.str text) ∈ members document := by
  rw [references, List.mem_filterMap]
  constructor
  · intro h
    obtain ⟨⟨key, value⟩, hmem, htext⟩ := h
    split at htext
    · rename_i href
      cases value with
      | str found =>
        cases htext
        exact ⟨key, href, hmem⟩
      | _ => cases htext
    · cases htext
  · intro h
    obtain ⟨key, href, hmem⟩ := h
    exact ⟨(key, .str text), hmem, if_pos href⟩

theorem assertSchemaSafe_ok {repr : String → String} {document : Json} :
    assertSchemaSafe repr document = .ok () ↔
      (∀ m ∈ members document, m.1 ∉ schemaKeys.map Prod.fst) ∧
        ∀ text ∈ references document, classifyRef text.toList = none := by
  have hlookup : ∀ key, schemaKeys.lookup key = none ↔ key ∉ schemaKeys.map Prod.fst := by
    intro key
    rw [List.lookup_eq_none_iff]
    simp [schemaKeys]
  rw [assertSchemaSafe, visit_ok]
  constructor
  · intro h
    refine ⟨fun m hm => (hlookup m.1).1 (h m hm).1, ?_⟩
    intro text htext
    obtain ⟨key, href, hmem⟩ := mem_references.1 htext
    exact (h _ hmem).2 href text rfl
  · intro h m hm
    refine ⟨(hlookup m.1).2 (h.1 m hm), ?_⟩
    intro href text hvalue
    refine h.2 text (mem_references.2 ⟨m.1, href, ?_⟩)
    rw [← hvalue]
    exact hm

/-! ### Segments -/

def IsSlash (c : Char) : Prop := c = '\\' ∨ c = '/'

theorem segments_ne_nil (cs : List Char) : segments cs ≠ [] := by
  cases cs with
  | nil => exact List.cons_ne_nil _ _
  | cons c cs =>
    rw [segments]
    split
    · exact List.cons_ne_nil _ _
    · split <;> exact List.cons_ne_nil _ _

theorem segments_append {c : Char} (hc : IsSlash c) (xs ys : List Char) :
    segments (xs ++ c :: ys) = segments xs ++ segments ys := by
  induction xs with
  | nil =>
    have hslash : c = '\\' ∨ c = '/' := hc
    rw [List.nil_append, segments, segments, if_pos hslash]
    rfl
  | cons x xs ih =>
    rw [List.cons_append, segments, segments]
    split
    · rw [ih, List.cons_append]
    · obtain ⟨s, ss, hs⟩ := List.exists_cons_of_ne_nil (segments_ne_nil xs)
      rw [ih, hs]
      rfl

theorem segments_single {cs : List Char} (h : ∀ c ∈ cs, ¬IsSlash c) : segments cs = [cs] := by
  induction cs with
  | nil => rfl
  | cons c cs ih =>
    have hc : ¬(c = '\\' ∨ c = '/') := h c (List.mem_cons_self ..)
    rw [segments, if_neg hc, ih fun d hd => h d (List.mem_cons_of_mem _ hd)]

theorem slash_plain {c : Char} (h : IsSlash c) : Plain c := by
  rcases h with rfl | rfl
  · exact ⟨by decide, by decide, by decide⟩
  · exact ⟨by decide, by decide, by decide⟩

theorem slash_cases (cs : List Char) : (∀ c ∈ cs, ¬IsSlash c) ∨
    ∃ xs c ys, cs = xs ++ c :: ys ∧ IsSlash c ∧ ∀ c ∈ xs, ¬IsSlash c := by
  induction cs with
  | nil => exact .inl fun c hc => by cases hc
  | cons c cs ih =>
    by_cases hc : IsSlash c
    · exact .inr ⟨[], c, cs, rfl, hc, fun d hd => by cases hd⟩
    · rcases ih with h | ⟨xs, d, ys, rfl, hd, hxs⟩
      · refine .inl fun d hd => ?_
        rcases List.mem_cons.1 hd with rfl | hd
        · exact hc
        · exact h d hd
      · refine .inr ⟨c :: xs, d, ys, rfl, hd, fun e he => ?_⟩
        rcases List.mem_cons.1 he with rfl | he
        · exact hc
        · exact hxs e he

theorem up_unquote (n : ℕ) : ∀ cs : List Char, cs.length ≤ n → ['.', '.'] ∈ segments cs →
    ['.', '.'] ∈ segments (unquote cs) := by
  induction n with
  | zero =>
    intro cs hle h
    rw [List.length_eq_zero_iff.1 (Nat.le_zero.1 hle)] at h
    exact absurd h (by decide)
  | succ n ih =>
    have hsingle : ∀ cs : List Char, (∀ c ∈ cs, ¬IsSlash c) → ['.', '.'] ∈ segments cs →
        ['.', '.'] ∈ segments (unquote cs) := by
      intro cs hcs h
      rw [segments_single hcs, List.mem_singleton] at h
      rw [← h]
      decide
    intro cs hle h
    rcases slash_cases cs with hcs | ⟨xs, c, ys, rfl, hc, hxs⟩
    · exact hsingle cs hcs h
    · rw [segments_append hc] at h
      rw [unquote_split (slash_plain hc), segments_append hc, List.mem_append]
      rcases List.mem_append.1 h with h | h
      · exact .inl (hsingle xs hxs h)
      · refine .inr (ih ys ?_ h)
        rw [List.length_append, List.length_cons] at hle
        omega

theorem stays_of_no_up {ss : List (List Char)} (h : ['.', '.'] ∉ ss) (depth : ℕ) :
    stays depth ss = true := by
  induction ss generalizing depth with
  | nil => rfl
  | cons s ss ih =>
    obtain ⟨hs, hss⟩ := not_or.1 (fun hor => h (List.mem_cons.2 hor))
    rw [stays]
    split
    · exact ih hss depth
    · rw [if_neg fun heq => hs heq.symm]
      exact ih hss (depth + 1)

theorem stays_iff {ss : List (List Char)} {depth : ℕ} :
    stays depth ss = true ↔
      ∀ n, (ss.take n).count ['.', '.'] ≤ depth + (ss.take n).countP isName := by
  induction ss generalizing depth with
  | nil => simp [stays]
  | cons s ss ih =>
    have hshift : (∀ n, ((s :: ss).take n).count ['.', '.'] ≤
        depth + ((s :: ss).take n).countP isName) ↔
        ∀ n, (s :: ss.take n).count ['.', '.'] ≤ depth + (s :: ss.take n).countP isName := by
      constructor
      · intro h n
        exact h (n + 1)
      · intro h n
        cases n with
        | zero => simp
        | succ n => exact h n
    rw [hshift, stays]
    have hups : ∀ n, (s :: ss.take n).count ['.', '.'] =
        (ss.take n).count ['.', '.'] + if s = ['.', '.'] then 1 else 0 := by
      intro n
      simp [List.count_cons]
    have hnames : ∀ n, (s :: ss.take n).countP isName =
        (ss.take n).countP isName + if isName s = true then 1 else 0 :=
      fun n => List.countP_cons
    simp only [hups, hnames]
    by_cases hskip : s = [] ∨ s = ['.']
    · have hup : s ≠ ['.', '.'] := by
        rcases hskip with rfl | rfl <;> decide
      have hname : ¬isName s = true := by
        rcases hskip with rfl | rfl <;> decide
      rw [if_pos hskip, ih]
      simp only [if_neg hup, if_neg hname, Nat.add_zero]
    · rw [if_neg hskip]
      obtain ⟨hempty, hdot⟩ := not_or.1 hskip
      by_cases hup : s = ['.', '.']
      · have hname : ¬isName s = true := by
          rw [hup]
          decide
        rw [if_pos hup, Bool.and_eq_true, decide_eq_true_eq, ih]
        simp only [if_pos hup, if_neg hname]
        constructor
        · intro h n
          have hn := h.2 n
          omega
        · intro h
          have hzero := h 0
          simp only [List.take_zero, List.count_nil, List.countP_nil] at hzero
          refine ⟨by omega, fun n => ?_⟩
          have hn := h n
          omega
      · have hname : isName s = true := by simp [isName, hempty, hdot, hup]
        rw [if_neg hup, ih]
        simp only [if_neg hup, if_pos hname]
        constructor
        · intro h n
          have hn := h n
          omega
        · intro h n
          have hn := h n
          omega

theorem balanced_iff {path : List Char} : Balanced path ↔ stays 0 (segments path) = true := by
  rw [stays_iff]
  simp only [Nat.zero_add]
  exact Iff.rfl

/-! ### References -/

theorem scheme_iff {cs : List Char} : matchesScheme cs = true ↔ ∃ c s rest,
    cs = c :: (s ++ ':' :: rest) ∧ c.isAlpha = true ∧ ∀ d ∈ s, isSchemeChar d = true := by
  constructor
  · intro h
    cases cs with
    | nil => cases h
    | cons c cs =>
      obtain ⟨hc, hhead⟩ := Bool.and_eq_true_iff.1 h
      obtain ⟨rest, hrest⟩ := List.head?_eq_some_iff.1 (beq_iff_eq.1 hhead)
      refine ⟨c, cs.takeWhile isSchemeChar, rest, ?_, hc, fun d hd => List.mem_takeWhile_imp hd⟩
      rw [← hrest, List.takeWhile_append_dropWhile]
  · intro h
    obtain ⟨c, s, rest, rfl, hc, hs⟩ := h
    have hcolon : isSchemeChar ':' = false := by decide
    rw [matchesScheme, hc, List.dropWhile_append_of_pos hs, List.dropWhile_cons, hcolon]
    rfl

theorem scheme_append {cs : List Char} (h : matchesScheme cs = true) (rest : List Char) :
    matchesScheme (cs ++ rest) = true := by
  obtain ⟨c, s, more, rfl, hc, hs⟩ := scheme_iff.1 h
  exact scheme_iff.2 ⟨c, s, more ++ rest, by simp, hc, hs⟩

theorem drive_scheme {cs : List Char} (h : matchesDrive cs = true) : matchesScheme cs = true := by
  unfold matchesDrive at h
  split at h
  · rename_i c slash rest
    exact scheme_iff.2 ⟨c, [], slash :: rest, rfl, (Bool.and_eq_true_iff.1 h).1,
      fun d hd => by cases hd⟩
  · cases h

theorem scheme_unquote {cs : List Char} (h : matchesScheme cs = true) :
    matchesScheme (unquote cs) = true := by
  obtain ⟨c, s, rest, rfl, hc, hs⟩ := scheme_iff.1 h
  have hpercent : '%' ∉ c :: s := by
    intro hmem
    rcases List.mem_cons.1 hmem with heq | hmem
    · rw [← heq] at hc
      exact absurd hc (by decide)
    · exact absurd (hs _ hmem) (by decide)
  have hcolon : Plain ':' := ⟨by decide, by decide, by decide⟩
  rw [← List.cons_append, unquote_split hcolon, unquote_plain hpercent]
  exact scheme_iff.2 ⟨c, s, unquote rest, rfl, hc, hs⟩

theorem head_unquote {c : Char} (hc : Plain c) {cs : List Char} (h : cs.head? = some c) :
    (unquote cs).head? = some c := by
  obtain ⟨rest, rfl⟩ := List.head?_eq_some_iff.1 h
  rw [← List.nil_append (c :: rest), unquote_split hc]
  rfl

theorem hash_plain : Plain '#' := ⟨by decide, by decide, by decide⟩

theorem unquote_parts (ref : List Char) :
    ∃ rest, unquote ref = unquote (beforeFragment ref) ++ rest ∧
      (rest = [] ∨ rest.head? = some '#') := by
  cases hrest : ref.dropWhile (· != '#') with
  | nil =>
    have hall := List.dropWhile_eq_nil_iff.1 hrest
    refine ⟨[], ?_, .inl rfl⟩
    rw [List.append_nil, beforeFragment, List.takeWhile_eq_self_iff.2 hall]
  | cons c rest =>
    have hhash : c = '#' := by
      have hhead := List.head?_dropWhile_not (· != '#') ref
      rw [hrest] at hhead
      simpa using hhead
    refine ⟨'#' :: unquote rest, ?_, .inr rfl⟩
    have hsplit := List.takeWhile_append_dropWhile (p := (· != '#')) (l := ref)
    rw [hrest, hhash] at hsplit
    conv_lhs => rw [← hsplit]
    exact unquote_split hash_plain _ _

/-- What the guard has decided of a reference that it lets pass and that is no fragment. -/
structure Decided (ref : List Char) : Prop where
  noScheme : matchesScheme (unquote (beforeFragment ref)) = false
  relative : (unquote (beforeFragment ref)).head? ≠ some '/'
  noUp : '#' ∉ unquote (beforeFragment ref) →
    ['.', '.'] ∉ segments (unquote (beforeFragment ref))

theorem scheme_head {cs : List Char} (h : matchesScheme cs = true) {c : Char}
    (hc : cs.head? = some c) : c.isAlpha = true := by
  obtain ⟨d, s, rest, rfl, hd, -⟩ := scheme_iff.1 h
  cases hc
  exact hd

theorem beforeFragment_append {cs rest : List Char} (hcs : '#' ∉ cs)
    (hrest : rest = [] ∨ rest.head? = some '#') : beforeFragment (cs ++ rest) = cs := by
  have hall : ∀ c ∈ cs, (c != '#') = true := by
    intro c hc
    exact bne_iff_ne.2 fun heq => hcs (heq ▸ hc)
  rw [beforeFragment, List.takeWhile_append_of_pos hall]
  rcases hrest with rfl | hhead
  · exact List.append_nil cs
  · obtain ⟨more, rfl⟩ := List.head?_eq_some_iff.1 hhead
    have hstop : ('#' != '#') = false := by decide
    rw [List.takeWhile_cons, hstop]
    exact List.append_nil cs

theorem beforeFragment_eq_nil {ref : List Char} (h : beforeFragment ref = [])
    (hhead : ref.head? ≠ some '#') : ref = [] := by
  cases ref with
  | nil => rfl
  | cons c cs =>
    have hc : c ≠ '#' := fun heq => hhead (heq ▸ rfl)
    rw [beforeFragment, List.takeWhile_cons, bne_iff_ne.2 hc] at h
    cases h

theorem decided {ref : List Char} (h : classifyRef ref = none) (hhead : ref.head? ≠ some '#') :
    Decided ref := by
  obtain ⟨rest, hparts, hrest⟩ := unquote_parts ref
  unfold classifyRef at h
  rw [hparts] at h
  by_cases hhash : (unquote (beforeFragment ref) ++ rest).head? = some '#'
  · -- the decoded text starts with the `#` of an escape
    have hfirst : (unquote (beforeFragment ref)).head? = some '#' := by
      cases hq : unquote (beforeFragment ref) with
      | nil =>
        have href := beforeFragment_eq_nil (unquote_eq_nil.1 hq) hhead
        rw [← hparts, href] at hhash
        cases hhash
      | cons c cs =>
        rw [hq] at hhash
        exact hhash
    refine ⟨?_, ?_, ?_⟩
    · by_contra hscheme
      exact absurd (scheme_head (by simpa using hscheme) hfirst) (by decide)
    · rw [hfirst]
      decide
    · intro hno
      obtain ⟨more, hmore⟩ := List.head?_eq_some_iff.1 hfirst
      rw [hmore] at hno
      exact absurd (List.mem_cons_self ..) hno
  · rw [if_neg hhash] at h
    split at h
    · cases h
    split at h
    · cases h
    split at h
    · cases h
    split at h
    · cases h
    rename_i hdrive hscheme habsolute hup
    refine ⟨?_, ?_, ?_⟩
    · by_contra hs
      exact hscheme (scheme_append (by simpa using hs) rest)
    · intro hs
      obtain ⟨more, hmore⟩ := List.head?_eq_some_iff.1 hs
      rw [hmore] at habsolute
      exact habsolute rfl
    · intro hno
      rw [beforeFragment_append hno hrest] at hup
      simpa using hup

/-- A reference that passes leads inside exactly when it is sound. -/
theorem leadsInside_iff {ref : List Char} (h : classifyRef ref = none) :
    LeadsInside ref ↔ Sound ref := by
  by_cases hhead : ref.head? = some '#'
  · exact ⟨fun _ => .inl hhead, fun _ => .inl hhead⟩
  · obtain ⟨hscheme, hrelative, hup⟩ := decided h hhead
    have hraw : matchesScheme (beforeFragment ref) = false := by
      by_contra hs
      have hq := scheme_unquote (show matchesScheme (beforeFragment ref) = true by simpa using hs)
      rw [hq] at hscheme
      cases hscheme
    have hdrive : ∀ path, matchesScheme path = false → matchesDrive path = false := by
      intro path hs
      by_contra hd
      rw [drive_scheme (by simpa using hd)] at hs
      cases hs
    have hslash : (beforeFragment ref).head? ≠ some '/' := fun hs =>
      hrelative (head_unquote ⟨by decide, by decide, by decide⟩ hs)
    have hback : (beforeFragment ref).head? = some '\\' →
        (unquote (beforeFragment ref)).head? = some '\\' :=
      head_unquote ⟨by decide, by decide, by decide⟩
    rw [LeadsInside, Sound, balanced_iff, balanced_iff]
    refine or_congr_right ?_
    constructor
    · intro hinside
      obtain ⟨hp, hq⟩ := hinside
      exact ⟨hq.relative.2, fun _ => ⟨hp.inside, hq.inside⟩⟩
    · intro hsound
      obtain ⟨hbackslash, hbalanced⟩ := hsound
      have hstays : stays 0 (segments (beforeFragment ref)) = true ∧
          stays 0 (segments (unquote (beforeFragment ref))) = true := by
        by_cases hno : '#' ∈ unquote (beforeFragment ref)
        · exact hbalanced hno
        · have hq := hup hno
          have hp : ['.', '.'] ∉ segments (beforeFragment ref) := fun hmem =>
            hq (up_unquote _ _ le_rfl hmem)
          exact ⟨stays_of_no_up hp 0, stays_of_no_up hq 0⟩
      exact ⟨⟨⟨hslash, fun hs => hbackslash (hback hs)⟩, hraw, hdrive _ hraw, hstays.1⟩,
        ⟨hrelative, hbackslash⟩, hscheme, hdrive _ hscheme, hstays.2⟩

/-- The references of an accepted document lead inside exactly when each is sound, and no object
of it has a forbidden key. -/
theorem referencesInside_iff (repr : String → String) (document : Json)
    (h : assertSchemaSafe repr document = .ok ()) :
    ((∀ m ∈ members document, m.1 ∉ schemaKeys.map Prod.fst) ∧
      ∀ text ∈ references document, LeadsInside text.toList) ↔
      ∀ text ∈ references document, Sound text.toList := by
  obtain ⟨hkeys, hshapes⟩ := assertSchemaSafe_ok.1 h
  constructor
  · intro hinside text htext
    exact (leadsInside_iff (hshapes text htext)).1 (hinside.2 text htext)
  · intro hsound
    exact ⟨hkeys, fun text htext => (leadsInside_iff (hshapes text htext)).2 (hsound text htext)⟩

/-- A schema that refers to a definition of its own and to another file. -/
def twoReferences : Json :=
  .object [("$ref", .str "#/$defs/a"), ("items", .array [.object [("$ref", .str "b.json#/c")]])]

theorem referencesInside_iff_two : assertSchemaSafe id twoReferences = .ok () ∧
    (((∀ m ∈ members twoReferences, m.1 ∉ schemaKeys.map Prod.fst) ∧
      ∀ text ∈ references twoReferences, LeadsInside text.toList) ↔
      ∀ text ∈ references twoReferences, Sound text.toList) := by
  have h : assertSchemaSafe id twoReferences = .ok () := by decide +kernel
  exact ⟨h, referencesInside_iff id twoReferences h⟩

/-- An encoded `#` hides the rest of the path from the guard. -/
theorem assertSchemaSafe_escapes :
    ¬∀ (repr : String → String) (document : Json), assertSchemaSafe repr document = .ok () →
      (∀ m ∈ members document, m.1 ∉ schemaKeys.map Prod.fst) ∧
        ∀ text ∈ references document, LeadsInside text.toList := by
  intro h
  have haccepted : assertSchemaSafe id (.object [("$ref", .str "%23/../../etc/passwd")]) =
      .ok () := by decide +kernel
  have hescapes : stays 0 (segments (beforeFragment "%23/../../etc/passwd".toList)) = false := by
    decide +kernel
  rcases (h id _ haccepted).2 "%23/../../etc/passwd" (by decide +kernel) with hhead | ⟨hraw, -⟩
  · exact absurd hhead (by decide +kernel)
  · rw [hraw.inside] at hescapes
    cases hescapes

end FilamentCore.PythonBackend.Guard
