import FilamentCore.Compiler.JsonSyntax

/-!
# Source loci of JSON texts (src/compiler/json-locus.mjs)

The scanner and the index of the JSON pointers of a text. What is left of the text stands for the
index of the scanner, and a walk that throws is none.
-/

namespace FilamentCore.Compiler.JsonLocus
open FilamentCore.Library
open FilamentCore.Compiler.JsonText
open FilamentCore.SemanticIr (isAsciiDigit)
open FilamentCore.SemanticIr.Grammar (NumberText Digits)

/-! ### Pointers -/

def escapeToken (token : Text) : Text :=
  token.flatMap fun u =>
    if u = code '~' then [code '~', code '0'] else if u = code '/' then [code '~', code '1'] else [u]

def jsonPointer (segments : List Text) : Text := segments.flatMap fun s => code '/' :: escapeToken s

/-! ### Positions -/

structure Position where
  line : ℕ
  column : ℕ
  deriving DecidableEq, Repr

/-- The line and the start of the line after so many rounds of the loop. -/
def scanLines (text : Text) : ℕ → ℕ × ℕ
  | 0 => (1, 0)
  | index + 1 =>
    if text[index]? = some (code '\n') then ((scanLines text index).1 + 1, index + 1)
    else scanLines text index

def offsetToPosition (text : Text) (offset : ℕ) : Position :=
  let bound := min offset text.length
  let (line, lineStart) := scanLines text bound
  ⟨line, bound - lineStart + 1⟩

/-! ### The scanner -/

def skipWhitespace (rest : Text) : Text := rest.dropWhile isBlank

/-- `StrWhiteSpaceChar`. -/
def isSpace (u : ℕ) : Bool :=
  [9, 10, 11, 12, 13, 32, 160, 5760, 8232, 8233, 8239, 8287, 12288, 65279].contains u ||
    (8192 ≤ u && u ≤ 8202)

/-- `Number.parseInt(slice, 16)`, `none` where it is `NaN`. -/
def parseInt16 (slice : Text) : Option ℤ :=
  let trimmed := slice.dropWhile isSpace
  let negative := trimmed.head? = some (code '-')
  let unsigned := if negative ∨ trimmed.head? = some (code '+') then trimmed.tail else trimmed
  let digits := match unsigned with
    | first :: x :: rest =>
      if first = code '0' ∧ (x = code 'x' ∨ x = code 'X') then rest else unsigned
    | _ => unsigned
  let digits := digits.takeWhile fun u => (hexValue u).isSome
  if digits = [] then none
  else some (if negative then -(hexNumber digits : ℤ) else hexNumber digits)

def fromCharCode (n : Option ℤ) : ℕ := (n.getD 0 % 65536).toNat

/-- The unit that an escape stands for, after its backslash. -/
def readEscape : Text → Option (ℕ × Text)
  | [] => none
  | escape :: rest =>
    if escape = code 'u' then some (fromCharCode (parseInt16 (rest.take 4)), rest.drop 4)
    else (simpleEscapes.lookup escape).map fun u => (u, rest)

/-- The loop of `readString`: each round takes a unit at least. -/
def readChars : ℕ → Text → Text → Option (Text × Text)
  | 0, _, _ => none
  | _ + 1, _, [] => none
  | steps + 1, value, u :: rest =>
    if u = code '"' then some (value, rest)
    else if u = code '\\' then
      (readEscape rest).bind fun read => readChars steps (value ++ [read.1]) read.2
    else readChars steps (value ++ [u]) rest

def readString (rest : Text) : Option (Text × Text) :=
  match rest with
  | u :: rest => if u = code '"' then readChars (rest.length + 1) [] rest else none
  | [] => none

def inPrimitive (u : ℕ) : Bool :=
  !isBlank u && !(u == code ',' || u == code ']' || u == code '\x7d')

def readPrimitive (rest : Text) : Option (Text × Text) :=
  let token := rest.takeWhile inPrimitive
  if token = [] then none else some (token, rest.dropWhile inPrimitive)

/-! ### The index -/

structure Entry where
  value : Position
  key : Position
  deriving DecidableEq, Repr

/-- A map from pointers to entries, in the order they are set. -/
abbrev Index := List (Text × Entry)

section Walk

variable (text : Text)

/-- A pointer that is there keeps its entry. -/
def record (index : Index) (pointer : Text) (valueOffset : ℕ) (keyOffset : Option ℕ) : Index :=
  if (index.lookup pointer).isSome then index
  else index ++ [(pointer, ⟨offsetToPosition text valueOffset,
    offsetToPosition text (keyOffset.getD valueOffset)⟩)]

/-- `scanner.index`. -/
def at' (rest : Text) : ℕ := text.length - rest.length

mutual

def walk : ℕ → Index → List Text → Option ℕ → Text → Option (Index × Text)
  | 0, _, _, _, _ => none
  | steps + 1, index, segments, keyOffset, rest =>
    let rest := skipWhitespace rest
    let index := record text index (jsonPointer segments) (at' text rest) keyOffset
    match rest with
    | [] => none
    | u :: inside =>
      if u = code '\x7b' then
        let inside := skipWhitespace inside
        if inside.head? = some (code '\x7d') then some (index, inside.tail)
        else walkMembers steps index segments inside
      else if u = code '[' then
        let inside := skipWhitespace inside
        if inside.head? = some (code ']') then some (index, inside.tail)
        else walkItems steps index segments 0 inside
      else if u = code '"' then (readString rest).map fun read => (index, read.2)
      else (readPrimitive rest).map fun read => (index, read.2)

def walkMembers : ℕ → Index → List Text → Text → Option (Index × Text)
  | 0, _, _, _ => none
  | steps + 1, index, segments, rest => do
    let rest := skipWhitespace rest
    let memberKeyOffset := at' text rest
    let (name, rest) ← readString rest
    let rest := skipWhitespace rest
    if rest.head? = some (code ':') then
      let (index, rest) ← walk steps index (segments ++ [name]) (some memberKeyOffset) rest.tail
      let rest := skipWhitespace rest
      if rest.head? = some (code ',') then walkMembers steps index segments rest.tail
      else if rest.head? = some (code '\x7d') then some (index, rest.tail)
      else none
    else none

def walkItems : ℕ → Index → List Text → ℕ → Text → Option (Index × Text)
  | 0, _, _, _, _ => none
  | steps + 1, index, segments, position, rest => do
    let (index, rest) ← walk steps index (segments ++ [digits position]) none rest
    let rest := skipWhitespace rest
    if rest.head? = some (code ',') then walkItems steps index segments (position + 1) rest.tail
    else if rest.head? = some (code ']') then some (index, rest.tail)
    else none

end

/-- A walk takes two steps at most for each unit of the text. -/
def indexJsonPointers : Option Index :=
  (walk text (2 * text.length + 1) [] [] none text).map Prod.fst

end Walk

inductive Prefer where
  | value | key
  deriving DecidableEq

/-- What is before the last `/` of a pointer. -/
def parentPointer (candidate : Text) : Text :=
  (candidate.reverse.dropWhile fun u => u ≠ code '/').tail.reverse

/-- The walk up to the nearest pointer of the index; each round cuts a token off. -/
def nearest (index : Index) (prefer : Prefer) : ℕ → Text → Position
  | 0, _ => ⟨1, 1⟩
  | steps + 1, candidate =>
    match index.lookup candidate with
    | some entry => if prefer = .key then entry.key else entry.value
    | none => if candidate = [] then ⟨1, 1⟩ else nearest index prefer steps (parentPointer candidate)

def locateJsonPointer (index : Index) (pointer : Text) (prefer : Prefer) : Position :=
  nearest index prefer (pointer.length + 1) pointer

/-! ### What the scanner reads -/

theorem skipWhitespace_blank {blank rest : Text} (h : Blank blank) :
    skipWhitespace (blank ++ rest) = skipWhitespace rest := by
  rw [skipWhitespace, List.dropWhile_append_of_pos h]
  rfl

theorem skipWhitespace_cons {u : ℕ} {rest : Text} (h : isBlank u = false) :
    skipWhitespace (u :: rest) = u :: rest := by
  rw [skipWhitespace, List.dropWhile_cons_of_neg (by rw [h]; exact Bool.false_ne_true)]

theorem hexValue_lt {u n : ℕ} (h : hexValue u = some n) : n < 16 := by
  rw [hexValue] at h
  split_ifs at h <;> rw [Option.some.injEq] at h <;> omega

theorem hexValue_none {u : ℕ} (h : isSpace u = true ∨ u ∈ [code '+', code '-', code 'x', code 'X']) :
    hexValue u = none := by
  have hsmall : ∀ u ∈ [9, 10, 11, 12, 13, 32, 160, 5760, 8232, 8233, 8239, 8287, 12288, 65279] ++
      [code '+', code '-', code 'x', code 'X'], hexValue u = none := by decide
  obtain hs | hs := h
  · rw [isSpace, Bool.or_eq_true, List.contains_iff_mem] at hs
    obtain hs | hs := hs
    · exact hsmall u (List.mem_append_left _ hs)
    · rw [Bool.and_eq_true, decide_eq_true_eq, decide_eq_true_eq] at hs
      rw [hexValue, if_neg (by omega), if_neg (by omega), if_neg (by omega)]
  · exact hsmall u (List.mem_append_right _ hs)

theorem parseInt16_hex {a b c d : ℕ} (h : ∀ u ∈ [a, b, c, d], (hexValue u).isSome = true) :
    parseInt16 [a, b, c, d] = some (hexNumber [a, b, c, d] : ℤ) := by
  have hne : ∀ {u v : ℕ}, (hexValue u).isSome = true → hexValue v = none → u ≠ v := by
    rintro u v hu hv rfl
    rw [hv] at hu
    cases hu
  have ha : (hexValue a).isSome = true := h a (by simp)
  have hb : (hexValue b).isSome = true := h b (by simp)
  have hspace : isSpace a = false := by
    by_contra hs
    exact hne ha (hexValue_none (.inl (by simpa using hs))) rfl
  have hsign : a ≠ code '-' ∧ a ≠ code '+' :=
    ⟨hne ha (by decide), hne ha (by decide)⟩
  have hx : ¬ (a = code '0' ∧ (b = code 'x' ∨ b = code 'X')) := fun hx =>
    hx.2.elim (hne hb (by decide)) (hne hb (by decide))
  have htake : [a, b, c, d].takeWhile (fun u => (hexValue u).isSome) = [a, b, c, d] :=
    List.takeWhile_eq_self_iff.2 h
  rw [parseInt16, List.dropWhile_cons_of_neg (by rw [hspace]; exact Bool.false_ne_true)]
  simp only [List.head?_cons, Option.some.injEq, hsign.1, hsign.2, or_self, if_false, hx, htake,
    reduceCtorEq]

theorem hexNumber_lt {a b c d : ℕ} (h : ∀ u ∈ [a, b, c, d], (hexValue u).isSome = true) :
    hexNumber [a, b, c, d] < 65536 := by
  have hdigit : ∀ u ∈ [a, b, c, d], (hexValue u).getD 0 < 16 := by
    intro u hu
    obtain ⟨n, hn⟩ := Option.isSome_iff_exists.1 (h u hu)
    rw [hn]
    exact hexValue_lt hn
  have ha := hdigit a (by simp)
  have hb := hdigit b (by simp)
  have hc := hdigit c (by simp)
  have hd := hdigit d (by simp)
  simp only [hexNumber, List.foldl_cons, List.foldl_nil]
  omega

theorem readEscape_simple {escape u : ℕ} (h : simpleEscapes.lookup escape = some u) (rest : Text) :
    readEscape (escape :: rest) = some (u, rest) := by
  have hnot : escape ≠ code 'u' := by
    rintro rfl
    have hnone : simpleEscapes.lookup (code 'u') = none := by decide
    rw [hnone] at h
    cases h
  rw [readEscape, if_neg hnot, h, Option.map_some]

theorem readEscape_hex {a b c d : ℕ} (h : ∀ u ∈ [a, b, c, d], (hexValue u).isSome = true)
    (rest : Text) :
    readEscape (code 'u' :: a :: b :: c :: d :: rest) = some (hexNumber [a, b, c, d], rest) := by
  have hchar : fromCharCode (parseInt16 [a, b, c, d]) = hexNumber [a, b, c, d] := by
    have hlt := hexNumber_lt h
    rw [parseInt16_hex h, fromCharCode, Option.getD_some]
    omega
  rw [readEscape, if_pos rfl]
  exact congrArg (fun u => some (u, rest)) hchar

theorem readChars_pieces {pieces : List Piece} (h : ∀ p ∈ pieces, p.Valid) (value rest : Text)
    {steps : ℕ} (hs : pieces.length < steps) :
    readChars steps value (pieces.flatMap Piece.text ++ code '"' :: rest) =
      some (value ++ stringValue pieces, rest) := by
  induction pieces generalizing steps value with
  | nil =>
    obtain ⟨n, rfl⟩ : ∃ n, steps = n + 1 := ⟨steps - 1, by rw [List.length_nil] at hs; omega⟩
    rw [List.flatMap_nil, List.nil_append, readChars, if_pos rfl, stringValue, List.map_nil,
      List.append_nil]
  | cons p pieces ih =>
    rw [List.forall_mem_cons] at h
    rw [List.length_cons] at hs
    obtain ⟨n, rfl⟩ : ∃ n, steps = n + 1 := ⟨steps - 1, by omega⟩
    have hn : pieces.length < n := by omega
    have hnext := fun u => ih h.2 (value ++ [u]) hn
    have hvalue : value ++ stringValue (p :: pieces) =
        value ++ [p.meaning] ++ stringValue pieces := by
      rw [stringValue, List.map_cons, List.append_assoc]
      rfl
    rw [List.flatMap_cons, List.append_assoc, hvalue, ← hnext]
    cases p with
    | plain u =>
      obtain ⟨-, hquote, hslash⟩ := h.1
      change readChars (n + 1) value (u :: _) = _
      rw [readChars, if_neg hquote, if_neg hslash]
      rfl
    | simple escape =>
      obtain ⟨u, hu⟩ := Option.isSome_iff_exists.1 h.1
      change readChars (n + 1) value (code '\\' :: escape :: _) = _
      rw [readChars, if_neg (by decide), if_pos rfl, readEscape_simple hu, Option.bind_some,
        Piece.meaning, hu, Option.getD_some]
      rfl
    | hex a b c d =>
      change readChars (n + 1) value (code '\\' :: code 'u' :: a :: b :: c :: d :: _) = _
      rw [readChars, if_neg (by decide), if_pos rfl, readEscape_hex h.1, Option.bind_some]
      rfl

theorem length_pieces (pieces : List Piece) :
    pieces.length ≤ (pieces.flatMap Piece.text).length := by
  induction pieces with
  | nil => exact le_rfl
  | cons p pieces ih =>
    rw [List.flatMap_cons, List.length_append, List.length_cons]
    have hp : 1 ≤ p.text.length := by cases p <;> simp [Piece.text]
    omega

theorem readString_text {pieces : List Piece} (h : ∀ p ∈ pieces, p.Valid) (rest : Text) :
    readString (stringText pieces ++ rest) = some (stringValue pieces, rest) := by
  have hle := length_pieces pieces
  have htext : stringText pieces ++ rest =
      code '"' :: (pieces.flatMap Piece.text ++ code '"' :: rest) := by
    rw [stringText, List.cons_append, List.append_assoc]
    rfl
  rw [htext, readString, if_pos rfl]
  exact readChars_pieces h [] rest (by rw [List.length_append]; omega)

/-- What follows a value and its whitespace. -/
def Ends (rest : Text) : Prop := ∀ u ∈ rest.head?, u = code ',' ∨ u = code ']' ∨ u = code '\x7d'

/-- A unit that neither ends a primitive nor begins another value. -/
def PrimitiveUnit (u : ℕ) : Prop :=
  inPrimitive u = true ∧ u ≠ code '\x7b' ∧ u ≠ code '[' ∧ u ≠ code '"'

theorem primitiveUnit_digit {c : Char} (h : isAsciiDigit c = true) : PrimitiveUnit (code c) := by
  have hall : ∀ u ∈ List.range' 48 10, inPrimitive u = true ∧ u ≠ code '\x7b' ∧ u ≠ code '[' ∧
      u ≠ code '"' := by decide
  apply hall
  rw [isAsciiDigit, Bool.and_eq_true, decide_eq_true_eq, decide_eq_true_eq] at h
  have hlow : 48 ≤ code c := h.1
  have hhigh : code c ≤ 57 := h.2
  rw [List.mem_range'_1]
  omega

/-- The units of numbers, `true`, `false` and `null` that are no digits. -/
def letters : List ℕ := [45, 43, 46, 101, 69, 116, 114, 117, 102, 97, 108, 115, 110]

theorem primitiveUnit_letter {u : ℕ} (h : u ∈ letters) : PrimitiveUnit u := by
  have hall : ∀ u ∈ letters, inPrimitive u = true ∧ u ≠ code '\x7b' ∧ u ≠ code '[' ∧
      u ≠ code '"' := by decide
  exact hall u h

theorem primitiveUnit_number {cs : List Char} (h : NumberText cs) :
    cs ≠ [] ∧ ∀ c ∈ cs, PrimitiveUnit (code c) := by
  obtain ⟨sign, whole, fraction, exponent, hsign, hwhole, hfraction, hexponent, rfl⟩ := h
  have hdigits : ∀ {ds : List Char}, Digits ds → ∀ c ∈ ds, PrimitiveUnit (code c) :=
    fun h c hc => primitiveUnit_digit (h.2 c hc)
  constructor
  · have hne := hwhole.1.1
    intro h
    simp only [List.append_eq_nil_iff] at h
    exact hne h.1.1.2
  · simp only [List.forall_mem_append]
    refine ⟨⟨⟨?_, hdigits hwhole.1⟩, ?_⟩, ?_⟩
    · obtain rfl | rfl := hsign
      · simp
      · exact List.forall_mem_singleton.2 (primitiveUnit_letter (by decide))
    · obtain rfl | ⟨ds, hd, rfl⟩ := hfraction
      · simp
      · exact List.forall_mem_cons.2 ⟨primitiveUnit_letter (by decide), hdigits hd⟩
    · obtain rfl | ⟨e, sign, ds, he, hs, hd, rfl⟩ := hexponent
      · simp
      · refine List.forall_mem_cons.2 ⟨?_, List.forall_mem_append.2 ⟨?_, hdigits hd⟩⟩
        · obtain rfl | rfl := he <;> exact primitiveUnit_letter (by decide)
        · obtain rfl | rfl | rfl := hs
          · simp
          all_goals exact List.forall_mem_singleton.2 (primitiveUnit_letter (by decide))

theorem primitive_units {text : Text} (h : IsPrimitive text) :
    text ≠ [] ∧ ∀ u ∈ text, PrimitiveUnit u := by
  obtain ⟨cs, rfl, hc | hc⟩ := h
  · simp only [List.mem_cons, List.not_mem_nil, or_false] at hc
    obtain rfl | rfl | rfl := hc
    all_goals
      refine ⟨List.cons_ne_nil _ _, fun u hu => primitiveUnit_letter ?_⟩
      simp only [units, List.map_cons, List.map_nil, List.mem_cons, List.not_mem_nil,
        or_false] at hu
    · obtain rfl | rfl | rfl | rfl := hu <;> decide
    · obtain rfl | rfl | rfl | rfl | rfl := hu <;> decide
    · obtain rfl | rfl | rfl | rfl := hu <;> decide
  · obtain ⟨hne, hunits⟩ := primitiveUnit_number hc
    refine ⟨fun h => hne (List.map_eq_nil_iff.1 h), fun u hu => ?_⟩
    obtain ⟨c, hm, rfl⟩ := List.mem_map.1 hu
    exact hunits c hm

theorem readPrimitive_text {text after rest : Text} (h : IsPrimitive text) (ha : Blank after)
    (hr : Ends rest) : readPrimitive (text ++ (after ++ rest)) = some (text, after ++ rest) := by
  obtain ⟨hne, hunits⟩ := primitive_units h
  have hstop : ∀ u ∈ (after ++ rest).head?, ¬ inPrimitive u = true := by
    intro u hu
    cases after with
    | nil =>
      obtain rfl | rfl | rfl := hr u hu
      all_goals decide
    | cons v after =>
      rw [List.cons_append, List.head?_cons, Option.mem_some_iff] at hu
      have hblank := ha v (List.mem_cons_self ..)
      rw [hu] at hblank
      rw [inPrimitive, hblank, Bool.not_true, Bool.false_and]
      exact Bool.false_ne_true
  have hinside : ∀ u ∈ text, inPrimitive u = true := fun u hu => (hunits u hu).1
  have hend : (after ++ rest).takeWhile inPrimitive = [] ∧
      (after ++ rest).dropWhile inPrimitive = after ++ rest := by
    cases hrest : after ++ rest with
    | nil => exact ⟨rfl, rfl⟩
    | cons u us =>
      have hu := hstop u (by rw [hrest]; exact rfl)
      exact ⟨List.takeWhile_cons_of_neg hu, List.dropWhile_cons_of_neg hu⟩
  have htake : (text ++ (after ++ rest)).takeWhile inPrimitive = text := by
    rw [List.takeWhile_append_of_pos hinside, hend.1, List.append_nil]
  have hdrop : (text ++ (after ++ rest)).dropWhile inPrimitive = after ++ rest := by
    rw [List.dropWhile_append_of_pos hinside, hend.2]
  rw [readPrimitive, htake, hdrop, if_neg hne]

/-! ### What the walk records -/

def recordPlace (text : Text) (index : Index) (place : List Text × Spot) : Index :=
  record text index (jsonPointer place.1) place.2.value place.2.key

def recordAll (text : Text) (index : Index) (places : List (List Text × Spot)) : Index :=
  places.foldl (recordPlace text) index

theorem recordAll_cons (text : Text) (index : Index) (place : List Text × Spot)
    (places : List (List Text × Spot)) : recordAll text index (place :: places) =
      recordAll text (recordPlace text index place) places := rfl

theorem recordAll_append (text : Text) (index : Index) (left right : List (List Text × Spot)) :
    recordAll text index (left ++ right) = recordAll text (recordAll text index left) right :=
  List.foldl_append

open LabelledTree (places childPlaces labelPlaces)

variable {text : Text}

theorem ends_of_code {u : ℕ} (h : u = code ',' ∨ u = code ']' ∨ u = code '\x7d') (rest : Text) :
    Ends (u :: rest) := by
  intro v hv
  rw [List.head?_cons, Option.mem_some_iff] at hv
  exact hv ▸ h

theorem ends_comma {α : Type} (items : List α) {u : ℕ} (hu : u = code ']' ∨ u = code '\x7d')
    (rest : Text) (h : items = [] → rest.head? = some u) : Ends (Node.comma items ++ rest) := by
  cases items with
  | nil =>
    intro v hv
    change v ∈ rest.head? at hv
    rw [h rfl, Option.mem_some_iff] at hv
    exact hv ▸ .inr hu
  | cons item items => exact ends_of_code (.inl rfl) rest

/-- What a value of the text is read as: every place in it is recorded. -/
def Walks (text : Text) (node : Node) : Prop :=
  ∀ (steps : ℕ) (index : Index) (path : List Text) (key : Option ℕ) (offset : ℕ) (rest : Text),
    2 * node.text.length + 1 ≤ steps → offset + (node.text ++ rest).length = text.length →
      Ends rest → walk text steps index path key (node.text ++ rest) =
        some (recordAll text index (places path (node.spots offset key)), node.after ++ rest)

theorem at_offset {offset : ℕ} {rest : Text} (h : offset + rest.length = text.length) :
    at' text rest = offset := by
  rw [at']
  omega

theorem walk_value {before inside : Text} {u offset : ℕ} (hb : Blank before)
    (hu : isBlank u = false) (hl : offset + (before ++ u :: inside).length = text.length)
    (steps : ℕ) (index : Index) (path : List Text) (key : Option ℕ) :
    walk text (steps + 1) index path key (before ++ u :: inside) =
      let index := record text index (jsonPointer path) (offset + before.length) key
      if u = code '\x7b' then
        let inside := skipWhitespace inside
        if inside.head? = some (code '\x7d') then some (index, inside.tail)
        else walkMembers text steps index path inside
      else if u = code '[' then
        let inside := skipWhitespace inside
        if inside.head? = some (code ']') then some (index, inside.tail)
        else walkItems text steps index path 0 inside
      else if u = code '"' then (readString (u :: inside)).map fun read => (index, read.2)
      else (readPrimitive (u :: inside)).map fun read => (index, read.2) := by
  rw [List.length_append] at hl
  have hat : at' text (u :: inside) = offset + before.length := at_offset (by omega)
  rw [walk, skipWhitespace_blank hb, skipWhitespace_cons hu]
  simp only [hat]

theorem isBlank_code {u : ℕ} (h : u ∈ [code '\x7b', code '[', code '"', code ',', code ']',
    code '\x7d', code ':']) : isBlank u = false := by
  have hall : ∀ u ∈ [code '\x7b', code '[', code '"', code ',', code ']', code '\x7d', code ':'],
      isBlank u = false := by decide
  exact hall u h

theorem isBlank_primitive {u : ℕ} (h : PrimitiveUnit u) : isBlank u = false := by
  have hin := h.1
  rw [inPrimitive, Bool.and_eq_true, Bool.not_eq_true'] at hin
  exact hin.1

theorem walks_primitive {before body after : Text} (hb : Blank before) (hp : IsPrimitive body)
    (ha : Blank after) : Walks text (.primitive before body after) := by
  intro steps index path key offset rest hs hl hr
  obtain ⟨n, rfl⟩ : ∃ n, steps = n + 1 := ⟨steps - 1, by omega⟩
  have hread := readPrimitive_text hp ha hr
  obtain ⟨hne, hunits⟩ := primitive_units hp
  obtain ⟨u, us, rfl⟩ := List.exists_cons_of_ne_nil hne
  have hu := hunits u (List.mem_cons_self ..)
  have htext : (Node.primitive before (u :: us) after).text ++ rest =
      before ++ u :: (us ++ (after ++ rest)) := by
    simp only [Node.text, List.append_assoc, List.cons_append]
  rw [htext] at hl ⊢
  rw [walk_value hb (isBlank_primitive hu) hl, if_neg hu.2.1, if_neg hu.2.2.1, if_neg hu.2.2.2]
  rw [List.cons_append] at hread
  rw [hread, Option.map_some, Node.spots, places, childPlaces]
  rfl

theorem walks_string {before after : Text} {pieces : List Piece} (hb : Blank before)
    (hp : ∀ p ∈ pieces, p.Valid) : Walks text (.string before pieces after) := by
  intro steps index path key offset rest hs hl hr
  obtain ⟨n, rfl⟩ : ∃ n, steps = n + 1 := ⟨steps - 1, by omega⟩
  have hread := readString_text hp (after ++ rest)
  have htext : (Node.string before pieces after).text ++ rest =
      before ++ code '"' :: (pieces.flatMap Piece.text ++ [code '"'] ++ (after ++ rest)) := by
    simp only [Node.text, stringText, List.append_assoc, List.cons_append]
  rw [htext] at hl ⊢
  rw [walk_value hb (isBlank_code (by decide)) hl, if_neg (by decide), if_neg (by decide),
    if_pos rfl]
  rw [stringText, List.cons_append] at hread
  rw [hread, Option.map_some, Node.spots, places, childPlaces]
  rfl

theorem skip_after {after rest : Text} {u : ℕ} (ha : Blank after) (hu : isBlank u = false) :
    skipWhitespace (after ++ u :: rest) = u :: rest := by
  rw [skipWhitespace_blank ha, skipWhitespace_cons hu]

theorem walkItems_text {items : List Node} (hw : ∀ item ∈ items, Walks text item)
    (ha : ∀ item ∈ items, Blank item.after) (hne : items ≠ []) {steps position offset : ℕ}
    {index : Index} {path : List Text} {rest : Text}
    (hs : 2 * (Node.itemsText items).length ≤ steps)
    (hl : offset + (Node.itemsText items ++ rest).length = text.length) :
    walkItems text steps index path position (Node.itemsText items ++ rest) =
      some (recordAll text index (childPlaces path (Node.itemSpots offset position items)),
        rest) := by
  induction items generalizing steps position offset index with
  | nil => exact absurd rfl hne
  | cons item items ih =>
    rw [List.forall_mem_cons] at hw ha
    rw [Node.itemsText, List.length_append] at hs
    have hpos : 1 ≤ (Node.comma items ++ Node.itemsText items).length := by
      cases items <;> simp [Node.comma, Node.itemsText]
    obtain ⟨n, rfl⟩ : ∃ n, steps = n + 1 := ⟨steps - 1, by omega⟩
    have htext : Node.itemsText (item :: items) ++ rest =
        item.text ++ (Node.comma items ++ (Node.itemsText items ++ rest)) := by
      simp only [Node.itemsText, List.append_assoc]
    rw [htext] at hl ⊢
    have hends : Ends (Node.comma items ++ (Node.itemsText items ++ rest)) :=
      ends_comma items (.inl rfl) _ fun h => by rw [h]; rfl
    rw [walkItems, hw.1 n index (path ++ [digits position]) none offset _ (by omega) hl hends]
    simp only [Option.bind_eq_bind, Option.bind_some]
    rw [Node.itemSpots, childPlaces, recordAll_append, labelPlaces]
    cases items with
    | nil =>
      have hclose : Node.comma ([] : List Node) ++ (Node.itemsText [] ++ rest) =
          code ']' :: rest := rfl
      rw [hclose, skip_after ha.1 (isBlank_code (by decide))]
      rfl
    | cons next items =>
      have hcomma : Node.comma (next :: items) ++ (Node.itemsText (next :: items) ++ rest) =
          code ',' :: (Node.itemsText (next :: items) ++ rest) := rfl
      rw [hcomma] at hl ⊢
      rw [skip_after ha.1 (isBlank_code (by decide))]
      have hlength : (Node.comma (next :: items) ++ Node.itemsText (next :: items)).length =
          1 + (Node.itemsText (next :: items)).length := by
        rw [List.length_append]
        rfl
      rw [List.length_append, List.length_cons] at hl
      exact ih hw.2 ha.2 (List.cons_ne_nil _ _) (by omega) (by omega)

theorem skipWhitespace_skip (rest : Text) :
    skipWhitespace (skipWhitespace rest) = skipWhitespace rest :=
  List.dropWhile_idempotent ..

theorem walk_skip (steps : ℕ) (index : Index) (path : List Text) (key : Option ℕ) (rest : Text) :
    walk text steps index path key (skipWhitespace rest) = walk text steps index path key rest := by
  cases steps with
  | zero => rw [walk, walk]
  | succ n => rw [walk, walk, skipWhitespace_skip]

theorem walkItems_skip (steps : ℕ) (index : Index) (path : List Text) (position : ℕ) (rest : Text) :
    walkItems text steps index path position (skipWhitespace rest) =
      walkItems text steps index path position rest := by
  cases steps with
  | zero => rw [walkItems, walkItems]
  | succ n => rw [walkItems, walkItems, walk_skip]

theorem walkMembers_skip (steps : ℕ) (index : Index) (path : List Text) (rest : Text) :
    walkMembers text steps index path (skipWhitespace rest) =
      walkMembers text steps index path rest := by
  cases steps with
  | zero => rw [walkMembers, walkMembers]
  | succ n => rw [walkMembers, walkMembers, skipWhitespace_skip]

theorem walkMembers_member {key : Key} {node : Node} (hk : key.Valid) (hw : Walks text node)
    {steps offset : ℕ} {rest : Text} (hs : 2 * (Node.memberText (key, node)).length ≤ steps + 1)
    (hl : offset + (Node.memberText (key, node) ++ rest).length = text.length) (hr : Ends rest)
    (index : Index) (path : List Text) :
    walkMembers text (steps + 1) index path (Node.memberText (key, node) ++ rest) =
      let index := recordAll text index (labelPlaces path (Node.memberSpot offset (key, node)))
      let rest := skipWhitespace (node.after ++ rest)
      if rest.head? = some (code ',') then walkMembers text steps index path rest.tail
      else if rest.head? = some (code '\x7d') then some (index, rest.tail)
      else none := by
  have htext : Node.memberText (key, node) ++ rest = key.before ++
      (stringText key.pieces ++ (key.after ++ code ':' :: (node.text ++ rest))) := by
    simp only [Node.memberText, Key.text, List.append_assoc, List.cons_append]
  have hquote : stringText key.pieces ++ (key.after ++ code ':' :: (node.text ++ rest)) =
      code '"' :: (key.pieces.flatMap Piece.text ++ [code '"'] ++
        (key.after ++ code ':' :: (node.text ++ rest))) := rfl
  have hskip : skipWhitespace (Node.memberText (key, node) ++ rest) =
      stringText key.pieces ++ (key.after ++ code ':' :: (node.text ++ rest)) := by
    rw [htext, skipWhitespace_blank hk.before, hquote, skipWhitespace_cons (isBlank_code (by decide))]
  have hlength : (Node.memberText (key, node)).length =
      key.before.length + (stringText key.pieces).length + key.after.length + 1 +
        node.text.length := by
    simp only [Node.memberText, Key.text, List.length_append, List.length_cons]
    omega
  have hat : at' text (stringText key.pieces ++ (key.after ++ code ':' :: (node.text ++ rest))) =
      offset + key.before.length := by
    apply at_offset
    rw [htext, List.length_append] at hl
    omega
  have hvalue := hw steps index (path ++ [key.name]) (some (offset + key.before.length))
    (offset + key.text.length + 1) rest (by omega) (by
      rw [List.length_append] at hl
      simp only [Key.text, List.length_append]
      omega) hr
  rw [walkMembers, hskip]
  simp only [hat, readString_text hk.pieces, Option.bind_eq_bind, Option.bind_some]
  rw [skip_after hk.after (isBlank_code (by decide)), List.head?_cons, if_pos rfl]
  change (walk text steps index (path ++ [key.name]) (some (offset + key.before.length))
    (node.text ++ rest)).bind _ = _
  rw [hvalue, Option.bind_some, Node.memberSpot, labelPlaces]

theorem walkMembers_text {members : List (Key × Node)}
    (hw : ∀ m ∈ members, m.1.Valid ∧ Walks text m.2 ∧ Blank m.2.after) (hne : members ≠ [])
    {steps offset : ℕ} {index : Index} {path : List Text} {rest : Text}
    (hs : 2 * (Node.membersText members).length ≤ steps)
    (hl : offset + (Node.membersText members ++ rest).length = text.length) :
    walkMembers text steps index path (Node.membersText members ++ rest) =
      some (recordAll text index (childPlaces path (Node.memberSpots offset members)), rest) := by
  induction members generalizing steps offset index with
  | nil => exact absurd rfl hne
  | cons m members ih =>
    obtain ⟨key, node⟩ := m
    rw [List.forall_mem_cons] at hw
    obtain ⟨⟨hk, hwalk, ha⟩, hw⟩ := hw
    rw [Node.membersText, List.length_append] at hs
    have hpos : 1 ≤ (Node.comma members ++ Node.membersText members).length := by
      cases members <;> simp [Node.comma, Node.membersText]
    obtain ⟨n, rfl⟩ : ∃ n, steps = n + 1 := ⟨steps - 1, by omega⟩
    have htext : Node.membersText ((key, node) :: members) ++ rest =
        Node.memberText (key, node) ++ (Node.comma members ++ (Node.membersText members ++ rest)) := by
      simp only [Node.membersText, List.append_assoc]
    rw [htext] at hl ⊢
    have hends : Ends (Node.comma members ++ (Node.membersText members ++ rest)) :=
      ends_comma members (.inr rfl) _ fun h => by rw [h]; rfl
    have hmember : 2 * (Node.memberText (key, node)).length ≤ n + 1 := by omega
    rw [walkMembers_member hk hwalk hmember hl hends, Node.memberSpots, childPlaces,
      recordAll_append]
    cases members with
    | nil =>
      have hclose : Node.comma ([] : List (Key × Node)) ++ (Node.membersText [] ++ rest) =
          code '\x7d' :: rest := rfl
      rw [hclose, skip_after ha (isBlank_code (by decide))]
      rfl
    | cons next members =>
      have hcomma : Node.comma (next :: members) ++ (Node.membersText (next :: members) ++ rest) =
          code ',' :: (Node.membersText (next :: members) ++ rest) := rfl
      rw [hcomma] at hl ⊢
      rw [skip_after ha (isBlank_code (by decide))]
      have hlength : (Node.comma (next :: members) ++ Node.membersText (next :: members)).length =
          1 + (Node.membersText (next :: members)).length := by
        rw [List.length_append]
        rfl
      rw [List.length_append, List.length_cons] at hl
      exact ih hw (List.cons_ne_nil _ _) (by omega) (by omega)

theorem head_text {node : Node} (h : node.Valid) (rest : Text) :
    (skipWhitespace (node.text ++ rest)).head? ≠ some (code ']') := by
  have hhead : ∀ {before inside : Text} {u : ℕ}, Blank before → isBlank u = false →
      u ≠ code ']' → (skipWhitespace (before ++ u :: inside)).head? ≠ some (code ']') := by
    intro before inside u hb hu hne hsome
    rw [skip_after hb hu, List.head?_cons, Option.some.injEq] at hsome
    exact hne hsome
  cases node with
  | primitive before body after =>
    rw [Node.Valid] at h
    obtain ⟨hne, hunits⟩ := primitive_units h.2.1
    obtain ⟨u, us, rfl⟩ := List.exists_cons_of_ne_nil hne
    have hu := hunits u (List.mem_cons_self ..)
    have hclose : u ≠ code ']' := by
      rintro rfl
      exact absurd hu.1 (by decide)
    rw [Node.text, List.append_assoc]
    exact hhead h.1 (isBlank_primitive hu) hclose
  | string before pieces after =>
    rw [Node.Valid] at h
    rw [Node.text, List.append_assoc]
    exact hhead h.1 (isBlank_code (by decide)) (by decide)
  | array before inner items after =>
    rw [Node.Valid] at h
    rw [Node.text, List.append_assoc]
    exact hhead h.1 (isBlank_code (by decide)) (by decide)
  | object before inner members after =>
    rw [Node.Valid] at h
    rw [Node.text, List.append_assoc]
    exact hhead h.1 (isBlank_code (by decide)) (by decide)

theorem walks_array {before inner after : Text} {items : List Node} (hb : Blank before)
    (hi : Blank inner) (hv : ∀ item ∈ items, item.Valid) (hw : ∀ item ∈ items, Walks text item) :
    Walks text (.array before inner items after) := by
  intro steps index path key offset rest hs hl hr
  obtain ⟨n, rfl⟩ : ∃ n, steps = n + 1 := ⟨steps - 1, by omega⟩
  have htext : (Node.array before inner items after).text ++ rest = before ++ code '[' ::
      ((if items.isEmpty then inner else []) ++ (Node.itemsText items ++ (after ++ rest))) := by
    simp only [Node.text, List.append_assoc, List.cons_append]
  have hlength : (Node.itemsText items).length + 1 ≤
      (Node.array before inner items after).text.length := by
    simp only [Node.text, List.length_append, List.length_cons]
    omega
  rw [htext] at hl ⊢
  rw [walk_value hb (isBlank_code (by decide)) hl, if_neg (by decide), if_pos rfl, Node.spots,
    places, recordAll_cons]
  cases items with
  | nil =>
    have hclose : (if ([] : List Node).isEmpty then inner else []) ++
        (Node.itemsText [] ++ (after ++ rest)) = inner ++ code ']' :: (after ++ rest) := rfl
    rw [hclose, skip_after hi (isBlank_code (by decide)), Node.itemSpots, childPlaces]
    rfl
  | cons item items =>
    have hinside : (if (item :: items).isEmpty then inner else []) ++
        (Node.itemsText (item :: items) ++ (after ++ rest)) =
          Node.itemsText (item :: items) ++ (after ++ rest) := rfl
    have hopen : (skipWhitespace (Node.itemsText (item :: items) ++ (after ++ rest))).head? ≠
        some (code ']') := by
      rw [Node.itemsText, List.append_assoc]
      exact head_text (hv item (List.mem_cons_self ..)) _
    rw [hinside] at hl ⊢
    rw [List.length_append, List.length_cons] at hl
    have hrest : offset + before.length + 1 +
        (Node.itemsText (item :: items) ++ (after ++ rest)).length = text.length := by omega
    have hsteps : 2 * (Node.itemsText (item :: items)).length ≤ n := by omega
    simp only [if_neg hopen, walkItems_skip]
    exact walkItems_text hw (fun item hm => (hv item hm).after) (List.cons_ne_nil _ _) hsteps hrest

theorem walks_object {before inner after : Text} {members : List (Key × Node)} (hb : Blank before)
    (hi : Blank inner) (hv : ∀ m ∈ members, m.1.Valid ∧ m.2.Valid)
    (hw : ∀ m ∈ members, Walks text m.2) : Walks text (.object before inner members after) := by
  intro steps index path key offset rest hs hl hr
  obtain ⟨n, rfl⟩ : ∃ n, steps = n + 1 := ⟨steps - 1, by omega⟩
  have htext : (Node.object before inner members after).text ++ rest = before ++ code '\x7b' ::
      ((if members.isEmpty then inner else []) ++
        (Node.membersText members ++ (after ++ rest))) := by
    simp only [Node.text, List.append_assoc, List.cons_append]
  have hlength : (Node.membersText members).length + 1 ≤
      (Node.object before inner members after).text.length := by
    simp only [Node.text, List.length_append, List.length_cons]
    omega
  rw [htext] at hl ⊢
  rw [walk_value hb (isBlank_code (by decide)) hl, if_pos rfl, Node.spots, places, recordAll_cons]
  cases members with
  | nil =>
    have hclose : (if ([] : List (Key × Node)).isEmpty then inner else []) ++
        (Node.membersText [] ++ (after ++ rest)) = inner ++ code '\x7d' :: (after ++ rest) := rfl
    rw [hclose, skip_after hi (isBlank_code (by decide)), Node.memberSpots, childPlaces]
    rfl
  | cons m members =>
    obtain ⟨key', node⟩ := m
    have hinside : (if ((key', node) :: members).isEmpty then inner else []) ++
        (Node.membersText ((key', node) :: members) ++ (after ++ rest)) =
          Node.membersText ((key', node) :: members) ++ (after ++ rest) := rfl
    have hopen : (skipWhitespace (Node.membersText ((key', node) :: members) ++
        (after ++ rest))).head? ≠ some (code '\x7d') := by
      have hbefore := (hv (key', node) (List.mem_cons_self ..)).1.before
      simp only [Node.membersText, Node.memberText, Key.text, stringText, List.append_assoc,
        List.cons_append]
      rw [skip_after hbefore (isBlank_code (by decide)), List.head?_cons]
      decide
    rw [hinside] at hl ⊢
    rw [List.length_append, List.length_cons] at hl
    have hrest : offset + before.length + 1 +
        (Node.membersText ((key', node) :: members) ++ (after ++ rest)).length = text.length := by
      omega
    have hsteps : 2 * (Node.membersText ((key', node) :: members)).length ≤ n := by omega
    have hmembers : ∀ m ∈ (key', node) :: members,
        m.1.Valid ∧ Walks text m.2 ∧ Blank m.2.after :=
      fun m hm => ⟨(hv m hm).1, hw m hm, (hv m hm).2.after⟩
    simp only [if_neg hopen, walkMembers_skip]
    exact walkMembers_text hmembers (List.cons_ne_nil _ _) hsteps hrest

theorem walks {node : Node} (h : node.Valid) : Walks text node := by
  induction node using Node.nested_induction with
  | primitive before body after =>
    rw [Node.Valid] at h
    exact walks_primitive h.1 h.2.1 h.2.2
  | string before pieces after =>
    rw [Node.Valid] at h
    exact walks_string h.1 h.2.1
  | array before inner items after ih =>
    rw [Node.Valid, Node.itemsValid_iff] at h
    exact walks_array h.1 h.2.1 h.2.2.1 fun item hm => ih item hm (h.2.2.1 item hm)
  | object before inner members after ih =>
    rw [Node.Valid, Node.membersValid_iff] at h
    exact walks_object h.1 h.2.1 h.2.2.1 fun m hm => ih m hm (h.2.2.1 m hm).2

theorem indexJsonPointers_text {node : Node} (h : node.Valid) :
    indexJsonPointers node.text =
      some (recordAll node.text [] (places [] (node.spots 0 none))) := by
  have hwalks : Walks node.text node := walks h
  have hwalk := hwalks (2 * node.text.length + 1) [] [] none 0 [] le_rfl
    (by rw [List.append_nil, Nat.zero_add]) (fun u hu => by cases hu)
  rw [List.append_nil] at hwalk
  rw [indexJsonPointers, hwalk, Option.map_some]

end FilamentCore.Compiler.JsonLocus
