import FilamentCore.SemanticIr.Json

/-!
# The JSON reader (crates/semantic-ir/src/json.rs)

`parse_with` over an explicit stack of open containers. The position of the reader is what is
left of the document; an error carries the byte offset of the position it stops at.
-/

namespace FilamentCore.SemanticIr

/-! ### Limits and errors -/

structure ReadLimits where
  maxBytes : ℕ
  maxDepth : Option ℕ
  deriving DecidableEq, Repr

def ReadLimits.default : ReadLimits := ⟨64 * 1024 * 1024, none⟩

inductive JsonErrorKind where
  | malformed
  | inputBytes (limit : ℕ)
  | depth (limit : ℕ)
  deriving DecidableEq, Repr

structure JsonError where
  message : String
  offset : ℕ
  kind : JsonErrorKind
  deriving DecidableEq, Repr

namespace Reader

/-- An error, with the bytes that are left in the place of its offset. -/
structure Stop where
  message : String
  left : ℕ
  kind : JsonErrorKind
  deriving DecidableEq, Repr

def byteLength (text : List Char) : ℕ := (text.map Char.utf8Size).sum

def err {α : Type} (message : String) (rest : List Char) : Except Stop α :=
  .error ⟨message, byteLength rest, .malformed⟩

theorem bind_ok {α β : Type} {read : Except Stop α} {next : α → Except Stop β} {b : β} :
    read.bind next = .ok b ↔ ∃ a, read = .ok a ∧ next a = .ok b := by
  cases read <;> simp [Except.bind]

theorem map_ok {α β : Type} {read : Except Stop α} {f : α → β} {b : β} :
    read.map f = .ok b ↔ ∃ a, read = .ok a ∧ f a = b := by
  cases read <;> simp [Except.map]

/-! ### Words -/

def isWhitespace (c : Char) : Bool := c = ' ' || c = '\t' || c = '\n' || c = '\r'

def skipWhitespace (rest : List Char) : List Char := rest.dropWhile isWhitespace

def literal (word : String) (value : Json) (rest : List Char) : Except Stop (Json × List Char) :=
  if word.toList.isPrefixOf rest then .ok (value, rest.drop word.length)
  else err "an unrecognised literal" rest

/-! ### Numbers -/

def startsWithDigit (rest : List Char) : Bool := rest.head?.any isAsciiDigit

def skipDigits (rest : List Char) : List Char := rest.dropWhile isAsciiDigit

def skipMinus : List Char → List Char
  | '-' :: rest => rest
  | rest => rest

def skipInteger (rest : List Char) : Except Stop (List Char) :=
  if rest.head? = some '0' then .ok rest.tail
  else if startsWithDigit rest then .ok (skipDigits rest)
  else err "a number carries no integer part" rest

def skipFraction (rest : List Char) : Except Stop (List Char) :=
  if rest.head? = some '.' then
    if startsWithDigit rest.tail then .ok (skipDigits rest.tail)
    else err "a number carries a point with no fraction" rest.tail
  else .ok rest

def skipSign (rest : List Char) : List Char :=
  if rest.head? = some '+' ∨ rest.head? = some '-' then rest.tail else rest

def skipExponent (rest : List Char) : Except Stop (List Char) :=
  if rest.head? = some 'e' ∨ rest.head? = some 'E' then
    if startsWithDigit (skipSign rest.tail) then .ok (skipDigits (skipSign rest.tail))
    else err "a number carries an exponent with no digits" (skipSign rest.tail)
  else .ok rest

def skipNumber (rest : List Char) : Except Stop (List Char) :=
  (skipInteger (skipMinus rest)).bind fun rest => (skipFraction rest).bind skipExponent

def number (rest : List Char) : Except Stop (Json × List Char) :=
  (skipNumber rest).bind fun after =>
    let lexeme := String.ofList (rest.take (rest.length - after.length))
    if h : (readNumber lexeme).isSome = true then .ok (.number ⟨lexeme, h⟩, after)
    else err "a number is outside the finite binary64 domain" after

/-! ### Strings -/

def hexDigitValue (c : Char) : Option ℕ :=
  if '0' ≤ c ∧ c ≤ '9' then some (c.toNat - '0'.toNat)
  else if 'a' ≤ c ∧ c ≤ 'f' then some (c.toNat - 'a'.toNat + 10)
  else if 'A' ≤ c ∧ c ≤ 'F' then some (c.toNat - 'A'.toNat + 10)
  else none

def hexValue4 : List Char → Option ℕ
  | [a, b, c, d] => do
    let a ← hexDigitValue a
    let b ← hexDigitValue b
    let c ← hexDigitValue c
    let d ← hexDigitValue d
    return ((a * 16 + b) * 16 + c) * 16 + d
  | _ => none

/-- The digits of a `\u` escape. Four bytes hold four hex digits where they hold four of them as
characters. -/
def hex4 (rest : List Char) : Except Stop (ℕ × List Char) :=
  if byteLength rest < 4 then err "a \\u escape carries fewer than four hex digits" rest
  else
    match hexValue4 (rest.take 4) with
    | some value => .ok (value, rest.drop 4)
    | none => err "a \\u escape carries a non-hex digit" rest

def isHighSurrogate (n : ℕ) : Bool := 0xD800 ≤ n && n < 0xDC00

def isLowSurrogate (n : ℕ) : Bool := 0xDC00 ≤ n && n < 0xE000

def charFromU32 (n : ℕ) : Option Char := if n.isValidChar then some (Char.ofNat n) else none

def surrogatePair (first : ℕ) (rest : List Char) : Except Stop (Char × List Char) :=
  if ['\\', 'u'].isPrefixOf rest then
    (hex4 (rest.drop 2)).bind fun (second, after) =>
      if isLowSurrogate second then
        match charFromU32 (0x10000 + (first - 0xD800) * 2 ^ 10 + (second - 0xDC00)) with
        | some c => .ok (c, after)
        | none => err "an unpaired UTF-16 surrogate" after
      else err "an unpaired UTF-16 surrogate" after
  else err "an unpaired UTF-16 surrogate" rest

/-- The character a `\u` escape stands for. -/
def unicodeEscape (rest : List Char) : Except Stop (Char × List Char) :=
  (hex4 rest).bind fun (first, after) =>
    if isHighSurrogate first then surrogatePair first after
    else if isLowSurrogate first then err "an unpaired UTF-16 surrogate" after
    else
      match charFromU32 first with
      | some c => .ok (c, after)
      | none => err "an invalid Unicode escape" after

def simpleEscape : Char → Option Char
  | '"' => some '"'
  | '\\' => some '\\'
  | '/' => some '/'
  | 'b' => some (Char.ofNat 8)
  | 'f' => some (Char.ofNat 12)
  | 'n' => some '\n'
  | 'r' => some '\r'
  | 't' => some '\t'
  | _ => none

/-- The character an escape stands for, from the one after the backslash on. A refused escape
stops after its first byte. -/
def escape : List Char → Except Stop (Char × List Char)
  | [] => err "a string ends inside an escape" []
  | 'u' :: rest => unicodeEscape rest
  | c :: rest =>
    match simpleEscape c with
    | some d => .ok (d, rest)
    | none =>
      .error ⟨"an escape the JSON grammar does not admit", byteLength (c :: rest) - 1, .malformed⟩

/-- One turn of the loop of `string`: `none` at the closing quote. A run of plain characters is
read one by one. -/
def stringTurn : List Char → Except Stop (Option Char × List Char)
  | [] => err "a string is not closed" []
  | c :: rest =>
    if c = '"' then .ok (none, rest)
    else if c = '\\' then (escape rest).map fun (d, after) => (some d, after)
    else if c.toNat < 0x20 then err "an unescaped control character in a string" (c :: rest)
    else .ok (some c, rest)

theorem hex4_length {rest after : List Char} {n : ℕ} (h : hex4 rest = .ok (n, after)) :
    after.length ≤ rest.length := by
  rw [hex4] at h
  split_ifs at h
  · cases h
  · split at h
    · cases h
      simp
    · cases h

theorem surrogatePair_length {first : ℕ} {rest after : List Char} {c : Char}
    (h : surrogatePair first rest = .ok (c, after)) : after.length ≤ rest.length := by
  rw [surrogatePair] at h
  split_ifs at h
  · obtain ⟨⟨second, mid⟩, hh, h⟩ := bind_ok.1 h
    have hl := hex4_length hh
    have hd : (rest.drop 2).length ≤ rest.length := by simp
    dsimp only at h
    split_ifs at h
    · split at h
      · cases h
        omega
      · cases h
    · cases h
  · cases h

theorem unicodeEscape_length {rest after : List Char} {c : Char}
    (h : unicodeEscape rest = .ok (c, after)) : after.length ≤ rest.length := by
  rw [unicodeEscape] at h
  obtain ⟨⟨first, mid⟩, hh, h⟩ := bind_ok.1 h
  have hl := hex4_length hh
  dsimp only at h
  split_ifs at h
  · have hp := surrogatePair_length h
    omega
  · cases h
  · split at h
    · cases h
      exact hl
    · cases h

theorem escape_length {rest after : List Char} {c : Char} (h : escape rest = .ok (c, after)) :
    after.length ≤ rest.length := by
  unfold escape at h
  split at h
  · cases h
  · have hu := unicodeEscape_length h
    simp only [List.length_cons]
    omega
  · split at h
    · cases h
      simp
    · cases h

theorem stringTurn_length {rest after : List Char} {o : Option Char}
    (h : stringTurn rest = .ok (o, after)) : after.length < rest.length := by
  unfold stringTurn at h
  split at h
  · cases h
  · split_ifs at h
    · cases h
      simp
    · obtain ⟨⟨d, mid⟩, he, h⟩ := map_ok.1 h
      have hl := escape_length he
      cases h
      simp only [List.length_cons]
      omega
    · cases h
    · cases h
      simp

/-- The loop of `string`, `out` being what it has read. -/
def stringRun (out : List Char) (rest : List Char) : Except Stop (String × List Char) :=
  match _h : stringTurn rest with
  | .error e => .error e
  | .ok (none, after) => .ok (String.ofList out, after)
  | .ok (some c, after) => stringRun (out ++ [c]) after
termination_by rest.length
decreasing_by exact stringTurn_length _h

/-- From the opening quote on. -/
def string (rest : List Char) : Except Stop (String × List Char) := stringRun [] rest.tail

/-! ### Documents -/

/-- A member's name and its `:`. -/
def memberName (rest : List Char) : Except Stop (String × List Char) :=
  let rest := skipWhitespace rest
  if rest.head? ≠ some '"' then err "an object member name is not a string" rest
  else
    (string rest).bind fun (name, after) =>
      let after := skipWhitespace after
      if after.head? ≠ some ':' then err "an object member name is not followed by :" after
      else .ok (name, after.tail)

/-- An array or object that is opened and not yet closed. -/
inductive Open where
  | array (items : List Json)
  | object (members : List (String × Json)) (name : String)

/-- Where the reader is: before a value, or after one that is complete; the innermost open
container is the first. -/
inductive Turn where
  | value (opened : List Open) (rest : List Char)
  | attach (opened : List Open) (value : Json) (rest : List Char)

def Turn.rest : Turn → List Char
  | value _ rest => rest
  | attach _ _ rest => rest

def complete (opened : List Open) (read : Except Stop (Json × List Char)) : Except Stop Turn :=
  read.map fun (value, rest) => .attach opened value rest

def openArray (opened : List Open) (rest : List Char) : Except Stop Turn :=
  let rest := skipWhitespace rest
  if rest.head? = some ']' then .ok (.attach opened (.array []) rest.tail)
  else .ok (.value (.array [] :: opened) rest)

def openObject (opened : List Open) (rest : List Char) : Except Stop Turn :=
  let rest := skipWhitespace rest
  if rest.head? = some '\x7d' then .ok (.attach opened (.object []) rest.tail)
  else (memberName rest).map fun (name, after) => .value (.object [] name :: opened) after

def readValue (opened : List Open) : List Char → Except Stop Turn
  | [] => err "an empty document" []
  | c :: rest =>
    if c = 'n' then complete opened (literal "null" .null (c :: rest))
    else if c = 't' then complete opened (literal "true" (.bool true) (c :: rest))
    else if c = 'f' then complete opened (literal "false" (.bool false) (c :: rest))
    else if c = '"' then
      complete opened ((string (c :: rest)).map fun (text, after) => (.str text, after))
    else if c = '[' then openArray opened rest
    else if c = '\x7b' then openObject opened rest
    else if c = '-' ∨ isAsciiDigit c = true then complete opened (number (c :: rest))
    else err "a value the JSON grammar does not admit" (c :: rest)

/-- The start of the loop `'value`: the depth is checked before the value is read. -/
def valueTurn (maxDepth : Option ℕ) (opened : List Open) (rest : List Char) : Except Stop Turn :=
  let rest := skipWhitespace rest
  match maxDepth with
  | none => readValue opened rest
  | some limit =>
    if limit < opened.length then
      .error ⟨"the document nests deeper than the configured limit", byteLength rest, .depth limit⟩
    else readValue opened rest

/-- The value joins the innermost open container, which closes or goes on. -/
def attachTurn (value : Json) (rest : List Char) : Open → List Open → Except Stop Turn
  | .array items, opened =>
    let rest := skipWhitespace rest
    if rest.head? = some ',' then .ok (.value (.array (items ++ [value]) :: opened) rest.tail)
    else if rest.head? = some ']' then .ok (.attach opened (.array (items ++ [value])) rest.tail)
    else err "an array member is followed by neither , nor ]" rest
  | .object members name, opened =>
    let rest := skipWhitespace rest
    if rest.head? = some ',' then
      (memberName rest.tail).map fun (next, after) =>
        .value (.object (members ++ [(name, value)]) next :: opened) after
    else if rest.head? = some '\x7d' then
      .ok (.attach opened (.object (members ++ [(name, value)])) rest.tail)
    else err "an object member is followed by neither , nor \x7d" rest

/-- One turn: the next one, or the value of the document. -/
def turn (maxDepth : Option ℕ) : Turn → Except Stop (Turn ⊕ Json × List Char)
  | .value opened rest => (valueTurn maxDepth opened rest).map .inl
  | .attach [] value rest => .ok (.inr (value, rest))
  | .attach (innermost :: opened) value rest => (attachTurn value rest innermost opened).map .inl

/-! ### Every turn reads on -/

theorem dropWhile_length (p : Char → Bool) (rest : List Char) :
    (rest.dropWhile p).length ≤ rest.length := (List.dropWhile_sublist p).length_le

theorem skipDigits_length {rest : List Char} (h : startsWithDigit rest = true) :
    (skipDigits rest).length < rest.length := by
  cases rest with
  | nil => cases h
  | cons c rest =>
    have hc : isAsciiDigit c = true := h
    have hl := dropWhile_length isAsciiDigit rest
    rw [skipDigits, List.dropWhile_cons, if_pos hc, List.length_cons]
    omega

theorem tail_length {rest : List Char} {c : Char} (h : rest.head? = some c) :
    rest.tail.length < rest.length := by
  cases rest with
  | nil => cases h
  | cons d rest => simp

theorem skipInteger_length {rest after : List Char} (h : skipInteger rest = .ok after) :
    after.length < rest.length := by
  rw [skipInteger] at h
  split_ifs at h with hz hd
  · cases h
    exact tail_length hz
  · cases h
    exact skipDigits_length hd
  · cases h

theorem skipFraction_length {rest after : List Char} (h : skipFraction rest = .ok after) :
    after.length ≤ rest.length := by
  rw [skipFraction] at h
  split_ifs at h with hp hd
  · cases h
    have hl := skipDigits_length hd
    have ht := tail_length hp
    omega
  · cases h
  · cases h
    exact le_refl _

theorem skipSign_length (rest : List Char) : (skipSign rest).length ≤ rest.length := by
  rw [skipSign]
  split_ifs
  · simp
  · exact le_refl _

theorem skipExponent_length {rest after : List Char} (h : skipExponent rest = .ok after) :
    after.length ≤ rest.length := by
  rw [skipExponent] at h
  split_ifs at h with he hd
  · cases h
    have hl := skipDigits_length hd
    have hs := skipSign_length rest.tail
    have ht : rest.tail.length ≤ rest.length := by simp
    omega
  · cases h
  · cases h
    exact le_refl _

theorem skipMinus_length (rest : List Char) : (skipMinus rest).length ≤ rest.length := by
  unfold skipMinus
  split <;> simp

theorem number_length {rest after : List Char} {value : Json}
    (h : number rest = .ok (value, after)) : after.length < rest.length := by
  rw [number] at h
  obtain ⟨after', hs, h⟩ := bind_ok.1 h
  dsimp only at h
  split_ifs at h
  · cases h
    rw [skipNumber] at hs
    obtain ⟨mid, hi, hs⟩ := bind_ok.1 hs
    obtain ⟨mid', hf, he⟩ := bind_ok.1 hs
    have hm := skipMinus_length rest
    have hi := skipInteger_length hi
    have hf := skipFraction_length hf
    have he := skipExponent_length he
    omega
  · cases h

theorem literal_length {word : String} {value value' : Json} {rest after : List Char}
    (hw : 0 < word.length) (h : literal word value rest = .ok (value', after)) :
    after.length < rest.length := by
  rw [literal] at h
  split_ifs at h with hp
  · cases h
    have hl := (List.isPrefixOf_iff_prefix.1 hp).length_le
    rw [String.length_toList] at hl
    rw [List.length_drop]
    omega
  · cases h

theorem stringRun_length {out rest after : List Char} {text : String}
    (h : stringRun out rest = .ok (text, after)) : after.length < rest.length := by
  induction hn : rest.length using Nat.strong_induction_on generalizing out rest with
  | _ n ih =>
    rw [stringRun] at h
    split at h
    · cases h
    · rename_i hs
      cases h
      exact hn ▸ stringTurn_length hs
    · rename_i hs
      have hl := stringTurn_length hs
      have hr := ih _ (hn ▸ hl) h rfl
      omega

theorem string_length {rest after : List Char} {text : String}
    (h : string rest = .ok (text, after)) : after.length < rest.length := by
  have hl := stringRun_length h
  have ht : rest.tail.length ≤ rest.length := by simp
  omega

theorem memberName_length {rest after : List Char} {name : String}
    (h : memberName rest = .ok (name, after)) : after.length < rest.length := by
  rw [memberName] at h
  dsimp only at h
  split_ifs at h
  · cases h
  · obtain ⟨⟨name', mid⟩, hs, h⟩ := bind_ok.1 h
    dsimp only at h
    split_ifs at h
    · cases h
    · cases h
      have hl := string_length hs
      have hw := dropWhile_length isWhitespace rest
      have hw' := dropWhile_length isWhitespace mid
      have ht : (skipWhitespace mid).tail.length ≤ (skipWhitespace mid).length := by simp
      rw [skipWhitespace] at hl ht
      simp only [skipWhitespace]
      omega

theorem complete_length {opened : List Open} {read : Except Stop (Json × List Char)} {next : Turn}
    {n : ℕ} (hr : ∀ value after, read = .ok (value, after) → after.length < n)
    (h : complete opened read = .ok next) : next.rest.length < n := by
  obtain ⟨⟨value, after⟩, hread, rfl⟩ := map_ok.1 h
  exact hr value after hread

theorem openArray_length {opened : List Open} {rest : List Char} {next : Turn}
    (h : openArray opened rest = .ok next) : next.rest.length ≤ rest.length := by
  have hw := dropWhile_length isWhitespace rest
  rw [openArray] at h
  split_ifs at h
  · cases h
    have ht : (skipWhitespace rest).tail.length ≤ (skipWhitespace rest).length := by simp
    rw [skipWhitespace] at ht
    simp only [Turn.rest, skipWhitespace]
    omega
  · cases h
    exact hw

theorem openObject_length {opened : List Open} {rest : List Char} {next : Turn}
    (h : openObject opened rest = .ok next) : next.rest.length ≤ rest.length := by
  have hw := dropWhile_length isWhitespace rest
  rw [openObject] at h
  dsimp only at h
  split_ifs at h
  · cases h
    have ht : (skipWhitespace rest).tail.length ≤ (skipWhitespace rest).length := by simp
    rw [skipWhitespace] at ht
    simp only [Turn.rest, skipWhitespace]
    omega
  · obtain ⟨⟨name, after⟩, hm, rfl⟩ := map_ok.1 h
    have hl := memberName_length hm
    rw [skipWhitespace] at hl
    simp only [Turn.rest]
    omega

theorem readValue_length {opened : List Open} {rest : List Char} {next : Turn}
    (h : readValue opened rest = .ok next) : next.rest.length < rest.length := by
  cases rest with
  | nil => cases h
  | cons c rest =>
    rw [readValue] at h
    split_ifs at h
    · exact complete_length (fun _ _ => literal_length (by decide)) h
    · exact complete_length (fun _ _ => literal_length (by decide)) h
    · exact complete_length (fun _ _ => literal_length (by decide)) h
    · apply complete_length _ h
      intro value after hs
      obtain ⟨⟨text, after'⟩, hs, he⟩ := map_ok.1 hs
      cases he
      exact string_length hs
    · exact Nat.lt_succ_of_le (openArray_length h)
    · exact Nat.lt_succ_of_le (openObject_length h)
    · exact complete_length (fun _ _ => number_length) h
    · cases h

theorem turn_length {maxDepth : Option ℕ} {t next : Turn}
    (h : turn maxDepth t = .ok (.inl next)) : next.rest.length < t.rest.length := by
  unfold turn at h
  split at h
  · rename_i opened rest
    obtain ⟨next', hv, he⟩ := map_ok.1 h
    cases he
    have hw := dropWhile_length isWhitespace rest
    have hr : readValue opened (skipWhitespace rest) = .ok next := by
      cases maxDepth with
      | none => exact hv
      | some limit =>
        simp only [valueTurn] at hv
        split_ifs at hv
        exact hv
    exact lt_of_lt_of_le (readValue_length hr) hw
  · cases h
  · rename_i innermost opened value rest
    obtain ⟨next', ha, he⟩ := map_ok.1 h
    cases he
    have hw := dropWhile_length isWhitespace rest
    simp only [Turn.rest] at *
    unfold attachTurn at ha
    split at ha
    · dsimp only at ha
      split_ifs at ha with hc hb
      · cases ha
        have ht := tail_length hc
        rw [skipWhitespace] at ht
        simp only [skipWhitespace]
        omega
      · cases ha
        have ht := tail_length hb
        rw [skipWhitespace] at ht
        simp only [skipWhitespace]
        omega
      · cases ha
    · dsimp only at ha
      split_ifs at ha with hc hb
      · obtain ⟨⟨name, after⟩, hm, rfl⟩ := map_ok.1 ha
        have hl := memberName_length hm
        have ht := tail_length hc
        rw [skipWhitespace] at hl ht
        simp only
        omega
      · cases ha
        have ht := tail_length hb
        rw [skipWhitespace] at ht
        simp only [skipWhitespace]
        omega
      · cases ha

/-! ### The run -/

/-- `document`: turn after turn. -/
def run (maxDepth : Option ℕ) (t : Turn) : Except Stop (Json × List Char) :=
  match _h : turn maxDepth t with
  | .error e => .error e
  | .ok (.inr result) => .ok result
  | .ok (.inl next) => run maxDepth next
termination_by t.rest.length
decreasing_by exact turn_length _h

def document (maxDepth : Option ℕ) (input : List Char) : Except Stop Json :=
  (run maxDepth (.value [] input)).bind fun (value, rest) =>
    let rest := skipWhitespace rest
    if rest ≠ [] then err "trailing content after the document" rest else .ok value

end Reader

namespace Json

def parseWith (input : String) (limits : ReadLimits) : Except JsonError Json :=
  if limits.maxBytes < input.utf8ByteSize then
    .error ⟨"the document is larger than the configured input limit", 0,
      .inputBytes limits.maxBytes⟩
  else
    (Reader.document limits.maxDepth input.toList).mapError fun stop =>
      ⟨stop.message, input.utf8ByteSize - stop.left, stop.kind⟩

def parse (input : String) : Except JsonError Json := parseWith input .default

end Json
end FilamentCore.SemanticIr
