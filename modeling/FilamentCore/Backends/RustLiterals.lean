import FilamentCore.SemanticIr.FloatFormat
import FilamentCore.SemanticIr.NumberForms
import FilamentCore.Backends.IntegerWire

/-!
# Rust literals (rust-serde/crate.mjs)

The texts rendered for the operands, defaults and metadata of a contract, and what Rust reads in
them.
-/

namespace FilamentCore.Backends.RustLiterals
open FilamentCore.SemanticIr
open RustSerde (IntegerType)

/-! ### Numbers of JavaScript -/

/-- A finite binary64 number; zero has two signs. -/
structure Double where
  negative : Bool
  magnitude : ℚ
  finite : magnitude = 0 ∨ ∃ m e, IsBinary magnitude m e

/-- `${value}`. -/
def Double.text (value : Double) : List Char :=
  ecmaNumberToString (if value.negative then -value.magnitude else value.magnitude)

def Double.isInteger (value : Double) : Bool := value.magnitude.den == 1

/-! ### The renderers -/

inductive FloatType where
  | f32 | f64
  deriving DecidableEq

def FloatType.name : FloatType → List Char
  | .f32 => "f32".toList
  | .f64 => "f64".toList

def renderFloat (value : Double) (rustType : FloatType) : List Char :=
  if value.isInteger then value.text ++ ".0".toList ++ rustType.name
  else value.text ++ rustType.name

/-- A code point of a string: a character, or a surrogate without its pair. -/
inductive Point where
  | char (c : Char)
  | lone (unit : ℕ)
  deriving DecidableEq

/-- A code point in the file: a lone surrogate is written as the replacement character. -/
def Point.written : Point → Char
  | .char c => c
  | .lone _ => '\uFFFD'

/-- What `rustString` writes for a code point. -/
def rustEscape (ch : Point) : List Char :=
  let c := ch.written
  if c = '"' then ['\\', '"']
  else if c = '\\' then ['\\', '\\']
  else if c = '\n' then ['\\', 'n']
  else if c = '\r' then ['\\', 'r']
  else if c = '\t' then ['\\', 't']
  else if c.toNat < 0x20 ∨ c.toNat = 0x7f then
    "\\u\x7b".toList ++ Nat.toDigits 16 c.toNat ++ ['\x7d']
  else [c]

def rustString (text : List Point) : List Char :=
  '"' :: (text.flatMap rustEscape ++ ['"'])

def lineTerminatorPoints : List Char := ['\n', '\r', '\u2028', '\u2029']

def maxDocPartCodePoints : ℕ := 200

def escapeDoc (text : List Point) : List Char :=
  let truncated :=
    if text.length > maxDocPartCodePoints then
      text.take (maxDocPartCodePoints - 1) ++ [.char '…']
    else text
  truncated.flatMap fun ch =>
    let c := ch.written
    if c ∈ lineTerminatorPoints then [' ']
    else if c = '`' then ['\\', '`']
    else if c = '\\' then ['\\', '\\']
    else [c]

/-- The white space and the line terminators that `trimEnd` removes. -/
def isSpace (c : Char) : Bool :=
  c ∈ ['\t', '\x0b', '\x0c', ' ', '\xa0', '\u1680', '\u202f', '\u205f', '\u3000', '\ufeff'] ||
    ('\u2000' ≤ c && c ≤ '\u200a') || c ∈ lineTerminatorPoints

def trimEnd (text : List Char) : List Char := (text.reverse.dropWhile isSpace).reverse

/-- A line of `docLines`. -/
def docLine (part : List Point) : List Char := trimEnd ("/// ".toList ++ escapeDoc part)

def integerSuffix : IntegerType → List Char
  | .i64 => "i64".toList
  | .u64 => "u64".toList
  | .i128 => "i128".toList

/-! ### What Rust reads -/

/-- Where the reading of a string literal stands. -/
inductive Mode where
  | text
  | escaped
  | opened
  | hex (value count : ℕ)
  | closed
  deriving DecidableEq

structure Reading where
  mode : Mode
  out : List Char
  deriving DecidableEq

def simpleEscape (c : Char) : Option Char :=
  if c = '"' then some '"'
  else if c = Char.ofNat 39 then some c
  else if c = '\\' then some '\\'
  else if c = 'n' then some '\n'
  else if c = 'r' then some '\r'
  else if c = 't' then some '\t'
  else if c = '0' then some (Char.ofNat 0)
  else none

def hexDigit (c : Char) : Option ℕ :=
  if '0' ≤ c ∧ c ≤ '9' then some (c.toNat - '0'.toNat)
  else if 'a' ≤ c ∧ c ≤ 'f' then some (c.toNat - 'a'.toNat + 10)
  else if 'A' ≤ c ∧ c ≤ 'F' then some (c.toNat - 'A'.toNat + 10)
  else none

/-- One character of a string literal after its opening quote. A carriage return cannot stand in
it; of the escapes, `\x` and a continued line are left out, which nothing renders. -/
def readStep (r : Reading) (c : Char) : Option Reading :=
  match r.mode with
  | .text =>
    if c = '"' then some ⟨.closed, r.out⟩
    else if c = '\\' then some ⟨.escaped, r.out⟩
    else if c = '\r' then none
    else some ⟨.text, r.out ++ [c]⟩
  | .escaped =>
    if c = 'u' then some ⟨.opened, r.out⟩
    else (simpleEscape c).map fun d => ⟨.text, r.out ++ [d]⟩
  | .opened => if c = '\x7b' then some ⟨.hex 0 0, r.out⟩ else none
  | .hex value count =>
    if c = '\x7d' then
      if count = 0 ∨ ¬ value.isValidChar then none
      else some ⟨.text, r.out ++ [Char.ofNat value]⟩
    else if c = '_' ∧ 0 < count then some r
    else if count = 6 then none
    else (hexDigit c).map fun d => ⟨.hex (16 * value + d) (count + 1), r.out⟩
  | .closed => none

def stringLiteral : List Char → Option (List Char)
  | '"' :: rest => do
    let r ← rest.foldlM readStep ⟨.text, []⟩
    if r.mode = .closed then some r.out else none
  | _ => none

def inRun (c : Char) : Bool := isAsciiDigit c || c == '_'

/-- Digits and underscores, a digit first: the digits, and what follows. -/
def readRun (cs : List Char) : Option (List Char × List Char) :=
  if cs.head?.any isAsciiDigit then
    some ((cs.takeWhile inRun).filter isAsciiDigit, cs.dropWhile inRun)
  else none

def readPoint : List Char → Option (List Char × List Char)
  | '.' :: rest => readRun rest
  | rest => some ([], rest)

/-- The digits of an exponent, which underscores may come before. -/
def readExponentRun (sign : ℤ) (cs : List Char) : Option (ℤ × List Char) :=
  (readRun (cs.dropWhile (· == '_'))).map fun (digits, rest) => (sign * decimalValue digits, rest)

def readSignedRun : List Char → Option (ℤ × List Char)
  | '+' :: rest => readExponentRun 1 rest
  | '-' :: rest => readExponentRun (-1) rest
  | rest => readExponentRun 1 rest

def readMarker : List Char → Option (ℤ × List Char)
  | [] => some (0, [])
  | c :: rest => if c = 'e' ∨ c = 'E' then readSignedRun rest else some (0, c :: rest)

/-- The number a float literal begins with, and what follows it. -/
def readFloat (cs : List Char) : Option (ℚ × List Char) := do
  let (whole, rest) ← readRun cs
  let (fraction, rest) ← readPoint rest
  let (exponent, rest) ← readMarker rest
  some ((decimalValue (whole ++ fraction) : ℚ) * power 10 (exponent - fraction.length), rest)

def readSign : List Char → Bool × List Char
  | '-' :: rest => (true, rest)
  | cs => (false, cs)

def FloatType.round : FloatType → ℚ → Option ℚ
  | .f32 => binary32
  | .f64 => binary64

def floatLiteral (rustType : FloatType) (text : List Char) : Option (Bool × ℚ) := do
  let (negative, cs) := readSign text
  let (value, suffix) ← readFloat cs
  if suffix = rustType.name then (rustType.round value).map fun q => (negative, q) else none

/-- The value of an integer literal with a suffix, where its type has it; an unsigned type has no
minus sign. -/
def integerLiteral (suffix : List Char) (low high : ℤ) (text : List Char) : Option ℤ := do
  let (negative, cs) := readSign text
  let (digits, rest) ← readRun cs
  let value : ℤ := if negative then -decimalValue digits else decimalValue digits
  if rest = suffix ∧ ¬ (negative = true ∧ low = 0) ∧ low ≤ value ∧ value ≤ high then some value
  else none

/-- The line a comment takes, and what follows it; a carriage return cannot stand in a comment of
the documentation. -/
def commentLine (source : List Char) : Option (List Char × List Char) :=
  let line := source.takeWhile (· != '\n')
  if '\r' ∈ line then none else some (line, (source.dropWhile (· != '\n')).drop 1)

/-! ### Strings -/

theorem hex_reads {n : ℕ} (hn : n < 0x20 ∨ n = 0x7f) (out : List Char) :
    ("\\u\x7b".toList ++ Nat.toDigits 16 n ++ ['\x7d']).foldlM readStep ⟨.text, out⟩ =
      some ⟨.text, out ++ [Char.ofNat n]⟩ := by
  obtain hn | rfl := hn
  · interval_cases n <;> rfl
  · rfl

/-- What is written for a code point is read back as the character in the file. -/
theorem rustEscape_reads (ch : Point) (out : List Char) :
    (rustEscape ch).foldlM readStep ⟨.text, out⟩ = some ⟨.text, out ++ [ch.written]⟩ := by
  rw [rustEscape]
  generalize ch.written = c
  split
  · rename_i h
    rw [h]
    rfl
  split
  · rename_i h
    rw [h]
    rfl
  split
  · rename_i h
    rw [h]
    rfl
  split
  · rename_i h
    rw [h]
    rfl
  split
  · rename_i h
    rw [h]
    rfl
  split
  · rename_i h
    rw [hex_reads h, Char.ofNat_toNat]
  · rename_i hquote hslash hline hreturn htab hcontrol
    have hstep : readStep ⟨.text, out⟩ c = some ⟨.text, out ++ [c]⟩ := by
      rw [readStep]
      dsimp only
      rw [if_neg hquote, if_neg hslash, if_neg hreturn]
    rw [List.foldlM_cons, hstep]
    rfl

theorem rustString_reads (text : List Point) :
    stringLiteral (rustString text) = some (text.map Point.written) := by
  have hbody : ∀ out, (text.flatMap rustEscape).foldlM readStep ⟨.text, out⟩ =
      some ⟨.text, out ++ text.map Point.written⟩ := by
    induction text with
    | nil =>
      intro out
      rw [List.map_nil, List.append_nil]
      rfl
    | cons ch rest ih =>
      intro out
      rw [List.flatMap_cons, List.foldlM_append, rustEscape_reads, Option.bind_eq_bind,
        Option.bind_some, ih, List.map_cons, List.append_assoc, List.singleton_append]
  rw [rustString, stringLiteral, List.foldlM_append, hbody, List.nil_append]
  rfl

/-! ### Comments -/

theorem escapeDoc_line (text : List Point) {c : Char} (hc : c ∈ escapeDoc text) :
    c ∉ lineTerminatorPoints := by
  obtain ⟨ch, -, hmem⟩ := List.mem_flatMap.1 hc
  dsimp only at hmem
  split at hmem
  · rw [List.mem_singleton.1 hmem]
    decide
  · rename_i hline
    split at hmem
    · obtain rfl | rfl : c = '\\' ∨ c = '`' := by simpa using hmem
      · decide
      · decide
    · split at hmem
      · obtain rfl : c = '\\' := by simpa using hmem
        decide
      · rw [List.mem_singleton.1 hmem]
        exact hline

theorem mem_of_trimEnd {text : List Char} {c : Char} (h : c ∈ trimEnd text) : c ∈ text := by
  rw [trimEnd, List.mem_reverse] at h
  exact List.mem_reverse.1 ((List.dropWhile_sublist _).subset h)

theorem docLine_line (part : List Point) (rest : List Char) :
    commentLine (docLine part ++ '\n' :: rest) = some (docLine part, rest) := by
  have hplain : ∀ c ∈ docLine part, c ∉ lineTerminatorPoints := by
    intro c hc
    obtain hc | hc := List.mem_append.1 (mem_of_trimEnd hc)
    · obtain rfl | rfl : c = '/' ∨ c = ' ' := by simpa using hc
      · decide
      · decide
    · exact escapeDoc_line part hc
  have hline : ∀ c ∈ docLine part, (c != '\n') = true := by
    intro c hc
    rw [bne_iff_ne]
    rintro rfl
    exact hplain _ hc (by decide)
  rw [commentLine, List.takeWhile_append_of_pos hline, List.dropWhile_append_of_pos hline,
    List.takeWhile_cons_of_neg (by decide), List.dropWhile_cons_of_neg (by decide),
    List.append_nil]
  rw [if_neg fun hmem => hplain _ hmem (by decide)]
  rfl

/-! ### Numbers -/

/-- A text that a run of digits does not go on into. -/
def Stops (rest : List Char) : Prop := ∀ c ∈ rest.head?, isAsciiDigit c = false ∧ c ≠ '_'

theorem Stops.of_head {c : Char} {cs : List Char} (h : isAsciiDigit c = false ∧ c ≠ '_') :
    Stops (c :: cs) := by
  intro d hd
  obtain rfl := Option.some.inj hd
  exact h

theorem readRun_append {ds rest : List Char} (hne : ds ≠ [])
    (hd : ∀ c ∈ ds, isAsciiDigit c = true) (hrest : Stops rest) :
    readRun (ds ++ rest) = some (ds, rest) := by
  have hpart : ∀ c ∈ ds, inRun c = true := by
    intro c hc
    rw [inRun, hd c hc, Bool.true_or]
  have hempty : rest.takeWhile inRun = [] ∧ rest.dropWhile inRun = rest := by
    cases rest with
    | nil => exact ⟨rfl, rfl⟩
    | cons c cs =>
      obtain ⟨hdigit, hunder⟩ := hrest c rfl
      have hc : ¬ inRun c = true := by
        rw [inRun, hdigit, Bool.false_or, beq_iff_eq]
        exact hunder
      exact ⟨List.takeWhile_cons_of_neg hc, List.dropWhile_cons_of_neg hc⟩
  have hhead : (ds ++ rest).head?.any isAsciiDigit = true := by
    cases ds with
    | nil => exact absurd rfl hne
    | cons d ds => exact hd d (.head _)
  rw [readRun, if_pos hhead, List.takeWhile_append_of_pos hpart, List.dropWhile_append_of_pos hpart,
    hempty.1, hempty.2, List.append_nil, List.filter_eq_self.2 hd]

variable {text ws fs tail : List Char} {e : ℤ}

/-- What ends a number: no digit, and none of what goes on with one. -/
structure Closes (rest : List Char) : Prop where
  stops : Stops rest
  point : rest.head? ≠ some '.'
  marker : ∀ c ∈ rest.head?, c ≠ 'e' ∧ c ≠ 'E'

theorem readExponentRun_append {ds rest : List Char} (hne : ds ≠ [])
    (hd : ∀ c ∈ ds, isAsciiDigit c = true) (hrest : Stops rest) (sign : ℤ) :
    readExponentRun sign (ds ++ rest) = some (sign * decimalValue ds, rest) := by
  have hdrop : (ds ++ rest).dropWhile (· == '_') = ds ++ rest := by
    cases ds with
    | nil => exact absurd rfl hne
    | cons d ds =>
      refine List.dropWhile_cons_of_neg ?_
      rw [beq_iff_eq]
      rintro rfl
      exact absurd (hd _ (.head _)) (by decide)
  rw [readExponentRun, hdrop, readRun_append hne hd hrest, Option.map_some]

theorem readMarker_tail (he : readExponent tail = some e) {rest : List Char}
    (hstops : Stops rest) (hrest : tail = [] → Closes rest) :
    readMarker (tail ++ rest) = some (e, rest) := by
  cases tail with
  | nil =>
    have hzero : e = 0 := (Option.some.inj he).symm
    rw [hzero, List.nil_append]
    cases rest with
    | nil => rfl
    | cons c cs =>
      have hmarker := (hrest rfl).marker c rfl
      rw [readMarker, if_neg (by tauto)]
  | cons c cs =>
    obtain ⟨hc, sign, ds, hsign, ⟨hne, hd⟩, rfl, hvalue⟩ := readExponent_cons he
    rw [List.cons_append, readMarker, if_pos hc, hvalue, List.append_assoc]
    obtain rfl | rfl | rfl := hsign
    · obtain ⟨d, ds, rfl⟩ := List.exists_cons_of_ne_nil hne
      have hdigit := hd d (.head _)
      have hunsigned : readSignedRun (d :: ds ++ rest) = readExponentRun 1 (d :: ds ++ rest) := by
        rw [List.cons_append, readSignedRun]
        · intro tail heq
          rw [(List.cons.inj heq).1] at hdigit
          exact absurd hdigit (by decide)
        · intro tail heq
          rw [(List.cons.inj heq).1] at hdigit
          exact absurd hdigit (by decide)
      exact hunsigned.trans (readExponentRun_append hne hd hstops 1)
    · exact readExponentRun_append hne hd hstops 1
    · exact readExponentRun_append hne hd hstops (-1)

theorem readFloat_spelling (h : Spelling text ws fs tail e) {rest : List Char}
    (hstops : Stops rest) (hrest : tail = [] → Closes rest) :
    readFloat (text ++ rest) =
      some ((decimalValue (ws ++ fs) : ℚ) * power 10 (e - fs.length), rest) := by
  have hmarker := readMarker_tail h.value hstops hrest
  have htail : Stops (tail ++ rest) ∧ (tail ++ rest).head? ≠ some '.' := by
    have hhead := exponentText_head h.exponent
    cases tail with
    | nil => exact ⟨hstops, (hrest rfl).point⟩
    | cons c cs =>
      obtain rfl | rfl := hhead c rfl
      · exact ⟨Stops.of_head (by decide), by simp⟩
      · exact ⟨Stops.of_head (by decide), by simp⟩
  have hpoint : Stops (pointed fs ++ (tail ++ rest)) ∧
      readPoint (pointed fs ++ (tail ++ rest)) = some (fs, tail ++ rest) := by
    cases hfs : fs with
    | nil =>
      refine ⟨htail.1, ?_⟩
      rw [pointed, List.nil_append]
      cases hafter : tail ++ rest with
      | nil => rfl
      | cons c cs =>
        rw [readPoint]
        intro more heq
        rw [hafter, (List.cons.inj heq).1] at htail
        exact htail.2 rfl
    | cons d ds =>
      refine ⟨Stops.of_head (by decide), ?_⟩
      have hdigits : ∀ c ∈ d :: ds, isAsciiDigit c = true := hfs ▸ h.fraction
      exact readRun_append (List.cons_ne_nil d ds) hdigits htail.1
  rw [h.eq, List.append_assoc, List.append_assoc, readFloat,
    readRun_append h.whole.1.1 h.whole.1.2 hpoint.1]
  simp only [Option.bind_eq_bind, Option.bind_some, hpoint.2, hmarker]

/-! ### Floats -/

theorem closes_name (rustType : FloatType) : Closes rustType.name := by
  have hname : ∃ cs, rustType.name = 'f' :: cs := by
    cases rustType
    · exact ⟨['3', '2'], rfl⟩
    · exact ⟨['6', '4'], rfl⟩
  obtain ⟨cs, hname⟩ := hname
  rw [hname]
  refine ⟨Stops.of_head (by decide), by simp, fun c hc => ?_⟩
  obtain rfl := Option.some.inj hc
  decide

/-- The text of a number without its sign. -/
def Double.unsigned (value : Double) : List Char :=
  if value.magnitude = 0 then ['0'] else unsignedText value.magnitude

theorem Double.magnitude_pos (value : Double) (h : value.magnitude ≠ 0) : 0 < value.magnitude := by
  obtain hzero | ⟨m, e, hq⟩ := value.finite
  · exact absurd hzero h
  · exact hq.positive

theorem Double.text_eq (value : Double) : value.text =
    signed (value.negative && value.magnitude != 0) value.unsigned := by
  have htext : ∀ q, ecmaNumberToString q = if q = 0 then ['0'] else
      if q < 0 then '-' :: unsignedText (-q) else unsignedText q := by
    intro q
    by_cases hzero : q = 0
    · rw [if_pos hzero, ecmaNumberToString, if_pos hzero]
    · rw [if_neg hzero]
      obtain hneg | hpos := lt_or_gt_of_ne hzero
      · rw [if_pos hneg, ecma_neg hneg]
      · rw [if_neg (not_lt.2 hpos.le), ecma_pos hpos]
  rw [Double.text, Double.unsigned, htext]
  by_cases hzero : value.magnitude = 0
  · rw [if_pos (by rw [hzero, neg_zero, ite_self]), if_pos hzero, hzero, bne_self_eq_false,
      Bool.and_false, signed, if_neg Bool.false_ne_true]
  · have hpos := value.magnitude_pos hzero
    rw [if_neg hzero, bne_iff_ne.2 hzero, Bool.and_true, signed]
    cases value.negative with
    | true =>
      rw [if_pos rfl, if_pos rfl, if_neg (neg_ne_zero.2 hzero), if_pos (neg_lt_zero.2 hpos),
        neg_neg]
    | false =>
      rw [if_neg Bool.false_ne_true, if_neg Bool.false_ne_true, if_neg hzero,
        if_neg (not_lt.2 hpos.le)]

theorem readSign_signed (n : Bool) {cs : List Char} (h : cs.head? ≠ some '-') :
    readSign (signed n cs) = (n, cs) := by
  cases n with
  | true => rfl
  | false =>
    rw [signed, if_neg Bool.false_ne_true]
    cases cs with
    | nil => rfl
    | cons c cs =>
      rw [readSign]
      intro rest heq
      rw [(List.cons.inj heq).1] at h
      exact h rfl

theorem floatLiteral_signed (rustType : FloatType) (n : Bool) {cs : List Char}
    (h : cs.head? ≠ some '-') : floatLiteral rustType (signed n cs) =
      (readFloat cs).bind fun found => if found.2 = rustType.name then
        (rustType.round found.1).map fun q => (n, q) else none := by
  rw [floatLiteral, readSign_signed n h]
  rfl

def Single (q : ℚ) : Prop := q = 0 ∨ ∃ m e, RoundNearest.IsValue 23 (-149) 128 q m e

/-- A type has the values of a literal: binary64 every one, binary32 its own. -/
def FloatType.Has : FloatType → Double → Prop
  | .f32, value => Single value.magnitude
  | .f64, _ => True

theorem round_reads {rustType : FloatType} {value : Double} (hfits : rustType.Has value)
    (hpos : 0 < value.magnitude) {x : ℚ} (hx : 0 ≤ x) (h : binary64 x = some value.magnitude) :
    rustType.round x = some value.magnitude := by
  cases rustType with
  | f64 => exact h
  | f32 =>
    obtain hzero | ⟨m, e, hq⟩ := hfits
    · exact absurd hzero hpos.ne'
    · refine binary32_reads hq (lt_of_le_of_ne hx ?_) h
      rintro rfl
      rw [binary64_zero, Option.some.injEq] at h
      exact hpos.ne h

theorem spelling_head (h : Spelling text ws fs tail e) (rest : List Char) :
    (text ++ rest).head? ≠ some '-' := by
  obtain ⟨⟨hne, hdigits⟩, -⟩ := h.whole
  obtain ⟨d, ds, rfl⟩ := List.exists_cons_of_ne_nil hne
  rw [h.eq]
  intro hhead
  have hdigit := hdigits d (.head _)
  rw [Option.some.inj hhead] at hdigit
  exact absurd hdigit (by decide)

theorem floatLiteral_spelling (rustType : FloatType) (n : Bool) (h : Spelling text ws fs tail e) :
    floatLiteral rustType (signed n (text ++ rustType.name)) =
      (rustType.round ((decimalValue (ws ++ fs) : ℚ) * 10 ^ (e - fs.length))).map fun q =>
        (n, q) := by
  have hclose := closes_name rustType
  rw [floatLiteral_signed rustType n (spelling_head h _),
    readFloat_spelling h hclose.stops fun _ => hclose, Option.bind_some, if_pos rfl, power_eq,
    Nat.cast_ofNat]

theorem spelling_point (h : Spelling text text [] [] 0) :
    Spelling (text ++ ".0".toList) text ['0'] [] 0 := by
  refine ⟨rfl, h.whole, ?_, .inl rfl, rfl⟩
  intro c hc
  rw [List.mem_singleton.1 hc]
  decide

theorem point_value (ds : List Char) :
    (decimalValue (ds ++ ['0']) : ℚ) * 10 ^ ((0 : ℤ) - (['0'] : List Char).length) =
      decimalValue ds := by
  have hlast : decimalValue ['0'] = 0 := rfl
  rw [decimalValue_append, hlast, List.length_singleton]
  push_cast
  rw [zpow_neg_one, add_zero]
  field_simp

theorem signed_append (n : Bool) (cs rest : List Char) :
    signed n cs ++ rest = signed n (cs ++ rest) := by
  cases n <;> rfl

theorem renderFloat_literal (rustType : FloatType) (value : Double)
    (hfits : rustType.Has value) : floatLiteral rustType (renderFloat value rustType) =
      if 10 ^ 21 ≤ value.magnitude then none
      else some (value.negative && value.magnitude != 0, value.magnitude) := by
  rw [renderFloat, value.text_eq]
  generalize (value.negative && value.magnitude != 0) = n
  obtain hzero | ⟨m, e, hq⟩ := value.finite
  · have hinteger : value.isInteger = true := by
      rw [Double.isInteger, hzero]
      rfl
    have hspelling : Spelling ['0'] ['0'] [] [] 0 :=
      ⟨rfl, ⟨⟨List.cons_ne_nil _ _, zeros_digit 1⟩, fun _ => rfl⟩,
        fun c hc => absurd hc List.not_mem_nil, .inl rfl, rfl⟩
    have hround : rustType.round 0 = some 0 := by
      cases rustType
      · rfl
      · exact binary64_zero
    have hdigit : decimalValue ['0'] = 0 := rfl
    rw [if_pos hinteger, if_neg (by rw [hzero]; norm_num), Double.unsigned, if_pos hzero,
      signed_append, signed_append, floatLiteral_spelling rustType n (spelling_point hspelling),
      point_value, hdigit, Nat.cast_zero, hround, hzero, Option.map_some]
  · have hpos := hq.positive
    obtain ⟨digits, place, hdigits⟩ := exists_digits hq
    rw [Double.unsigned, if_neg hpos.ne']
    by_cases hinteger : value.isInteger = true
    · have hden : value.magnitude.den = 1 := beq_iff_eq.1 hinteger
      obtain ⟨z, hz⟩ : ∃ z : ℕ, value.magnitude = z := by
        obtain ⟨z, hz⟩ := Int.eq_ofNat_of_zero_le (Rat.num_nonneg.2 hpos.le)
        refine ⟨z, ?_⟩
        rw [← Rat.coe_int_num_of_den_eq_one hden, hz]
        rfl
      rw [if_pos hinteger]
      by_cases hlarge : 10 ^ 21 ≤ value.magnitude
      · obtain ⟨ws, fs, tail, k, hspelling, -, htail⟩ := hdigits.spelled
        have hstops : Stops (".0".toList ++ rustType.name) := Stops.of_head (by decide)
        have hname : ".0".toList ++ rustType.name ≠ rustType.name := by
          cases rustType <;> decide
        rw [if_pos hlarge, signed_append, signed_append, List.append_assoc,
          floatLiteral_signed rustType n (spelling_head hspelling _),
          readFloat_spelling hspelling hstops fun h => absurd h (htail hlarge), Option.bind_some,
          if_neg hname]
      · obtain ⟨hspelling, hreads⟩ := hdigits.whole hz (not_le.1 hlarge)
        rw [if_neg hlarge, signed_append, signed_append,
          floatLiteral_spelling rustType n (spelling_point hspelling), point_value,
          round_reads hfits hpos (Nat.cast_nonneg _) hreads, Option.map_some]
    · obtain ⟨ws, fs, tail, k, hspelling, hreads, -⟩ := hdigits.spelled
      have hsmall : ¬ 10 ^ 21 ≤ value.magnitude := by
        intro hlarge
        obtain ⟨z, hz⟩ := hq.integer (le_trans (by norm_num) hlarge)
        refine hinteger ?_
        rw [Double.isInteger, hz]
        rfl
      rw [if_neg hinteger, if_neg hsmall, signed_append,
        floatLiteral_spelling rustType n hspelling, round_reads hfits hpos (by positivity) hreads,
        Option.map_some]

/-! ### Integers -/

theorem positiveText_eq {digits : List Char} {value : ℤ} (h : positiveText digits = some value) :
    digits ≠ [] ∧ (∀ c ∈ digits, isAsciiDigit c = true) ∧ value = decimalValue digits ∧
      0 < value := by
  rw [positiveText] at h
  split at h
  · rename_i hdigits
    obtain ⟨hne, hhead, hall⟩ := hdigits
    have hdigit := List.all_eq_true.1 hall
    have hvalue := (Option.some.inj h).symm
    refine ⟨hne, hdigit, hvalue, ?_⟩
    obtain ⟨c, cs, rfl⟩ := List.exists_cons_of_ne_nil hne
    have hzero : c ≠ '0' := fun hc => hhead (by rw [hc]; rfl)
    have hlow : 10 ^ cs.length ≤ decimalValue (c :: cs) := le_decimalValue (hdigit c (.head _)) hzero
    have hpos : 0 < 10 ^ cs.length := Nat.pow_pos (by norm_num)
    rw [hvalue]
    exact_mod_cast hpos.trans_le hlow
  · cases h

theorem integerText_eq {text : List Char} {value : ℤ}
    (h : integerText (String.ofList text) = some value) : ∃ n ds, text = signed n ds ∧ ds ≠ [] ∧
      (∀ c ∈ ds, isAsciiDigit c = true) ∧
        value = (if n then -(decimalValue ds : ℤ) else decimalValue ds) ∧
        (n = true → value < 0) := by
  rw [integerText, String.toList_ofList] at h
  split at h
  · refine ⟨false, ['0'], rfl, List.cons_ne_nil _ _, zeros_digit 1, ?_, fun h => by cases h⟩
    rw [← Option.some.inj h]
    rfl
  · obtain ⟨v, hv, hvalue⟩ := Option.map_eq_some_iff.1 h
    obtain ⟨hne, hd, heq, hpos⟩ := positiveText_eq hv
    refine ⟨true, _, rfl, hne, hd, ?_, fun _ => by omega⟩
    rw [if_pos rfl, ← heq, hvalue]
  · obtain ⟨hne, hd, heq, -⟩ := positiveText_eq h
    exact ⟨false, text, rfl, hne, hd, heq, fun h => by cases h⟩

theorem digits_head {ds : List Char} (hne : ds ≠ []) (hd : ∀ c ∈ ds, isAsciiDigit c = true)
    (rest : List Char) : (ds ++ rest).head? ≠ some '-' := by
  obtain ⟨d, ds, rfl⟩ := List.exists_cons_of_ne_nil hne
  intro hhead
  have hdigit := hd d (.head _)
  rw [Option.some.inj hhead] at hdigit
  exact absurd hdigit (by decide)

/-- What a run of digits behind a sign is read as. -/
def integerFound (suffix : List Char) (low high : ℤ) (n : Bool) (found : List Char × List Char) :
    Option ℤ :=
  let value : ℤ := if n then -decimalValue found.1 else decimalValue found.1
  if found.2 = suffix ∧ ¬ (n = true ∧ low = 0) ∧ low ≤ value ∧ value ≤ high then some value
  else none

theorem integerLiteral_signed (suffix : List Char) (low high : ℤ) (n : Bool) {cs : List Char}
    (h : cs.head? ≠ some '-') : integerLiteral suffix low high (signed n cs) =
      (readRun cs).bind (integerFound suffix low high n) := by
  rw [integerLiteral, readSign_signed n h]
  rfl

theorem integerLiteral_le {suffix text : List Char} {low high value : ℤ}
    (h : integerLiteral suffix low high text = some value) : value ≤ high := by
  rw [integerLiteral] at h
  generalize readSign text = signed at h
  obtain ⟨found, -, hfound⟩ := Option.bind_eq_some_iff.1 h
  simp only [Option.ite_none_right_eq_some, Option.some.injEq] at hfound
  obtain ⟨⟨-, -, -, hle⟩, heq⟩ := hfound
  rwa [heq] at hle

theorem integerLiteral_digits {suffix : List Char} (hsuffix : Stops suffix) (low high : ℤ)
    (n : Bool) {ds : List Char} (hne : ds ≠ []) (hd : ∀ c ∈ ds, isAsciiDigit c = true) {value : ℤ}
    (hvalue : value = if n then -(decimalValue ds : ℤ) else decimalValue ds) :
    integerLiteral suffix low high (signed n (ds ++ suffix)) =
      if ¬ (n = true ∧ low = 0) ∧ low ≤ value ∧ value ≤ high then some value else none := by
  rw [integerLiteral_signed suffix low high n (digits_head hne hd suffix),
    readRun_append hne hd hsuffix, Option.bind_some, integerFound]
  simp only [← hvalue, true_and]

theorem stops_suffix (type : IntegerType) : Stops (integerSuffix type) := by
  cases type <;> exact Stops.of_head (by decide)

def integerRange : IntegerType → ℤ × ℤ
  | .i64 => (-2 ^ 63, 2 ^ 63 - 1)
  | .u64 => (0, 2 ^ 64 - 1)
  | .i128 => (-2 ^ 127, 2 ^ 127 - 1)

theorem contains_iff (type : IntegerType) (value : ℤ) :
    type.Contains value ↔ (integerRange type).1 ≤ value ∧ value ≤ (integerRange type).2 := by
  cases type <;> exact Iff.rfl

theorem integer_literal (type : IntegerType) {text : List Char} {value : ℤ}
    (htext : integerText (String.ofList text) = some value) (hinside : type.Contains value) :
    integerLiteral (integerSuffix type) (integerRange type).1 (integerRange type).2
      (text ++ integerSuffix type) = some value := by
  obtain ⟨n, ds, rfl, hne, hd, hvalue, hneg⟩ := integerText_eq htext
  have hrange := (contains_iff type value).1 hinside
  rw [signed_append, integerLiteral_digits (stops_suffix type) _ _ n hne hd hvalue, if_pos]
  refine ⟨fun hsign => ?_, hrange⟩
  have := hneg hsign.1
  omega

/-! ### Lengths -/

def usize : List Char := "usize".toList

/-- A length of the contract: an integer that is not negative. -/
structure Count where
  value : Double
  natural : ℕ
  eq : value.magnitude = natural
  sign : value.negative = true → natural = 0

/-- JavaScript's text of the number is the number itself. -/
def Count.Exact (count : Count) : Prop :=
  readUnsigned count.value.text = some (count.natural : ℚ)

theorem Count.text_eq (count : Count) : count.value.text = count.value.unsigned := by
  have hsign : (count.value.negative && count.value.magnitude != 0) = false := by
    rw [Bool.and_eq_false_iff, bne_eq_false_iff_eq, count.eq]
    by_cases hneg : count.value.negative = true
    · exact .inr (by rw [count.sign hneg, Nat.cast_zero])
    · exact .inl (by simpa using hneg)
  rw [Double.text_eq, hsign]
  rfl

theorem stops_usize : Stops usize := Stops.of_head (by decide)

theorem count_digits {ds : List Char} (h : Spelling ds ds [] [] 0) :
    readUnsigned ds = some (decimalValue ds : ℚ) ∧
      integerLiteral usize 0 (2 ^ 64 - 1) (ds ++ usize) =
        if decimalValue ds < 2 ^ 64 then some (decimalValue ds : ℤ) else none := by
  constructor
  · rw [h.readUnsigned_eq, List.append_nil, power_eq, List.length_nil, Nat.cast_zero, sub_zero,
      zpow_zero, mul_one]
  · have hvalue : (decimalValue ds : ℤ) = if false then -(decimalValue ds : ℤ)
        else decimalValue ds := rfl
    have hread := integerLiteral_digits stops_usize 0 (2 ^ 64 - 1) false h.whole.1.1 h.whole.1.2
      hvalue
    have hrange : (¬ (false = true ∧ (0 : ℤ) = 0) ∧ 0 ≤ (decimalValue ds : ℤ) ∧
        (decimalValue ds : ℤ) ≤ 2 ^ 64 - 1) ↔ decimalValue ds < 2 ^ 64 := by
      constructor
      · rintro ⟨-, -, hle⟩
        omega
      · intro hlt
        exact ⟨fun h => Bool.false_ne_true h.1, by omega, by omega⟩
    rw [if_congr hrange rfl rfl] at hread
    exact hread

theorem length_literal (count : Count) :
    integerLiteral usize 0 (2 ^ 64 - 1) (count.value.text ++ usize) = some (count.natural : ℤ) ↔
      count.Exact ∧ count.natural < 2 ^ 64 := by
  rw [Count.Exact, count.text_eq]
  have hdigits : ∀ {ds : List Char}, Spelling ds ds [] [] 0 →
      (integerLiteral usize 0 (2 ^ 64 - 1) (ds ++ usize) = some (count.natural : ℤ) ↔
        readUnsigned ds = some (count.natural : ℚ) ∧ count.natural < 2 ^ 64) := by
    intro ds h
    obtain ⟨hread, hliteral⟩ := count_digits h
    rw [hread, hliteral, Option.some.injEq, Nat.cast_inj]
    split
    · rename_i hlt
      rw [Option.some.injEq, Nat.cast_inj]
      exact ⟨fun heq => ⟨heq, heq ▸ hlt⟩, And.left⟩
    · rename_i hge
      refine iff_of_false (by simp) ?_
      rintro ⟨heq, hlt⟩
      exact hge (heq ▸ hlt)
  obtain hzero | ⟨m, e, hq⟩ := count.value.finite
  · rw [Double.unsigned, if_pos hzero]
    exact hdigits ⟨rfl, ⟨⟨List.cons_ne_nil _ _, zeros_digit 1⟩, fun _ => rfl⟩,
      fun c hc => absurd hc List.not_mem_nil, .inl rfl, rfl⟩
  · obtain ⟨digits, place, hfound⟩ := exists_digits hq
    rw [Double.unsigned, if_neg hq.positive.ne']
    by_cases hlarge : 10 ^ 21 ≤ count.value.magnitude
    · have hnatural : (10 : ℚ) ^ 21 ≤ count.natural := by rwa [← count.eq]
      have hnatural : 10 ^ 21 ≤ count.natural := by exact_mod_cast hnatural
      refine iff_of_false (fun h => ?_) fun h => by omega
      have := integerLiteral_le h
      omega
    · exact hdigits (hfound.whole count.eq (not_le.1 hlarge)).1

/-! ### Operands -/

/-- What a contract has rendered: texts, truth values, integers of a type, lengths, floats that
the type has, and parts of the documentation. -/
inductive Operand where
  | string (text : List Point)
  | boolean (value : Bool)
  | integer (type : IntegerType) (text : List Char) (value : ℤ)
    (spelled : integerText (String.ofList text) = some value) (inside : type.Contains value)
  | length (count : Count)
  | float (rustType : FloatType) (value : Double) (fits : rustType.Has value)
  | doc (part : List Point)

def boolText (value : Bool) : List Char := if value then "true".toList else "false".toList

def boolLiteral (text : List Char) : Option Bool :=
  if text = "true".toList then some true
  else if text = "false".toList then some false
  else none

/-- Rust reads the value of the operand in the text rendered for it; of the documentation it reads
one line. -/
def Operand.Denotes : Operand → Prop
  | .string text => (stringLiteral (rustString text)).map (·.map .char) = some text
  | .boolean value => boolLiteral (boolText value) = some value
  | .integer type text value _ _ =>
    integerLiteral (integerSuffix type) (integerRange type).1 (integerRange type).2
      (text ++ integerSuffix type) = some value
  | .length count =>
    integerLiteral usize 0 (2 ^ 64 - 1) (count.value.text ++ usize) = some (count.natural : ℤ)
  | .float rustType value _ =>
    floatLiteral rustType (renderFloat value rustType) = some (value.negative, value.magnitude)
  | .doc part => ∀ rest, commentLine (docLine part ++ '\n' :: rest) = some (docLine part, rest)

/-- No lone surrogate, a length that JavaScript writes exactly and the type has, a float below
`10 ^ 21` other than negative zero. -/
def Operand.Plain : Operand → Prop
  | .string text => ∀ ch ∈ text, ∃ c, ch = .char c
  | .length count => count.Exact ∧ count.natural < 2 ^ 64
  | .float _ value _ => value.magnitude < 10 ^ 21 ∧ ¬ (value.negative = true ∧ value.magnitude = 0)
  | _ => True

theorem string_denotes (text : List Point) :
    (stringLiteral (rustString text)).map (·.map .char) = some text ↔
      ∀ ch ∈ text, ∃ c, ch = Point.char c := by
  rw [rustString_reads, Option.map_some, Option.some.injEq, List.map_map]
  constructor
  · intro h ch hch
    rw [← h] at hch
    obtain ⟨found, -, heq⟩ := List.mem_map.1 hch
    exact ⟨found.written, heq.symm⟩
  · intro h
    refine (List.map_congr_left fun ch hch => ?_).trans (List.map_id text)
    obtain ⟨c, rfl⟩ := h ch hch
    rfl

theorem float_denotes {rustType : FloatType} {value : Double} (hfits : rustType.Has value) :
    floatLiteral rustType (renderFloat value rustType) = some (value.negative, value.magnitude) ↔
      value.magnitude < 10 ^ 21 ∧ ¬ (value.negative = true ∧ value.magnitude = 0) := by
  rw [renderFloat_literal rustType value hfits]
  by_cases hlarge : 10 ^ 21 ≤ value.magnitude
  · rw [if_pos hlarge]
    exact iff_of_false (fun h => by cases h) fun h => absurd hlarge (not_le.2 h.1)
  · rw [if_neg hlarge, Option.some.injEq, Prod.mk.injEq, and_iff_left rfl,
      and_iff_right (not_le.1 hlarge)]
    cases value.negative with
    | false => exact iff_of_true rfl fun h => Bool.false_ne_true h.1
    | true => rw [Bool.true_and, bne_iff_ne, and_iff_right rfl]

theorem literals_denote_iff (operand : Operand) : operand.Denotes ↔ operand.Plain := by
  cases operand with
  | string text => exact string_denotes text
  | boolean value => exact iff_of_true (by cases value <;> rfl) trivial
  | integer type text value spelled inside =>
    exact iff_of_true (integer_literal type spelled inside) trivial
  | length count => exact length_literal count
  | float rustType value fits => exact float_denotes fits
  | doc part => exact iff_of_true (docLine_line part) trivial

/-- `1e21` is rendered as `1e+21.0f64`, which is no literal. -/
theorem literal_exponent : ∃ value : Double, value.negative = false ∧ value.magnitude = 10 ^ 21 ∧
    floatLiteral .f64 (renderFloat value .f64) = none ∧
      ¬ (Operand.float .f64 value trivial).Denotes := by
  have hnone := renderFloat_literal .f64 ⟨false, 10 ^ 21, .inr ⟨_, _, isBinary_bound⟩⟩ trivial
  rw [if_pos le_rfl] at hnone
  refine ⟨⟨false, 10 ^ 21, .inr ⟨_, _, isBinary_bound⟩⟩, rfl, rfl, hnone, fun h => ?_⟩
  exact absurd (hnone.symm.trans h) (by simp)

end FilamentCore.Backends.RustLiterals
