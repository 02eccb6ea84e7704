import FilamentCore.Backends.RustFormat

/-!
# The layouts of a value are one program

The lines that `renderValue` writes have the tokens of the inline text, up to trailing commas.
-/

namespace FilamentCore.Backends.RustFormat
open FilamentCore.Library.Tokens

/-! ### Rust tokens -/

/-- Words, signs, the marks that part them, and the quote of a string literal. -/
def classOf (c : Char) : CharClass :=
  if c = ' ' ∨ c = '\n' then .space
  else if c = '"' then .quote
  else if c ∈ ['(', ')', '[', ']', '{', '}', ',', ';'] then .mark
  else if c.isAlphanum || c = '_' || 128 ≤ c.toNat then .word
  else .sign

def rustTokens (text : Text) : List Token := tokens classOf text

/-- The text does not end inside a string literal. -/
def IsComplete (text : Text) : Prop := Complete classOf text

instance (text : Text) : Decidable (IsComplete text) := inferInstanceAs (Decidable (_ = _))

def program (lines : List Text) : List Token := rustTokens (['\n'].intercalate lines)

def comma : Token := .mark ','

def Ends (t : Token) : Prop := t ∉ [comma, .mark '(', .mark '[', .mark '{']

instance (t : Token) : Decidable (Ends t) := inferInstanceAs (Decidable (_ ∉ _))

def Closes (t : Token) : Prop := t ∈ [Token.mark ')', .mark ']', .mark '}']

instance (t : Token) : Decidable (Closes t) := inferInstanceAs (Decidable (_ ∈ _))

abbrev SameUpTo : Option Token → List Token → List Token → Prop := Trailing comma Ends Closes

/-- A text of whole tokens, the last of which can end an item. -/
structure WholeText (text : Text) : Prop where
  complete : IsComplete text
  ends : ∃ last, lastFrom none (rustTokens text) = some last ∧ Ends last

theorem WholeText.ne_nil {text : Text} (h : WholeText text) : rustTokens text ≠ [] := by
  obtain ⟨last, hlast, -⟩ := h.ends
  intro hnil
  rw [hnil] at hlast
  cases hlast

/-- The lines are complete, and read as the tokens with trailing commas. -/
structure Renders (lines : List Text) (inline : List Token) : Prop where
  nonempty : lines ≠ []
  complete : ∀ line ∈ lines, IsComplete line
  same : ∀ previous, SameUpTo previous inline (lines.flatMap rustTokens)

theorem Renders.program {lines : List Text} {inline : List Token} (h : Renders lines inline) :
    SameUpTo none inline (program lines) := by
  have hlines : RustFormat.program lines = lines.flatMap rustTokens :=
    tokens_lines (by decide) h.complete
  rw [hlines]
  exact h.same none

/-! ### Spaces and marks -/

theorem complete_empty : IsComplete [] := complete_nil

theorem tokens_gap {a : Text} (ha : IsComplete a) (b : Text) :
    rustTokens (a ++ ' ' :: b) = rustTokens a ++ rustTokens b := tokens_space ha (by decide)

theorem complete_gap {a : Text} (ha : IsComplete a) {b : Text} :
    IsComplete (a ++ ' ' :: b) ↔ IsComplete b := complete_space ha (by decide)

theorem tokens_blank (b : Text) : rustTokens (' ' :: b) = rustTokens b :=
  tokens_gap complete_empty b

theorem complete_blank {b : Text} : IsComplete (' ' :: b) ↔ IsComplete b :=
  complete_gap complete_empty

def IsMark (c : Char) : Prop := classOf c = .mark

instance (c : Char) : Decidable (IsMark c) := inferInstanceAs (Decidable (_ = _))

theorem tokens_at {c : Char} (hc : IsMark c) {a : Text} (ha : IsComplete a) (b : Text) :
    rustTokens (a ++ c :: b) = rustTokens a ++ .mark c :: rustTokens b := tokens_mark ha hc

theorem complete_at {c : Char} (hc : IsMark c) {a : Text} (ha : IsComplete a) {b : Text} :
    IsComplete (a ++ c :: b) ↔ IsComplete b := complete_mark ha hc

theorem tokens_snoc {c : Char} (hc : IsMark c) {a : Text} (ha : IsComplete a) :
    rustTokens (a ++ [c]) = rustTokens a ++ [.mark c] := tokens_at hc ha []

theorem complete_end {c : Char} (hc : IsMark c) {a : Text} (ha : IsComplete a) :
    IsComplete (a ++ [c]) := (complete_at hc ha).2 complete_empty

theorem tokens_indent {spaces : Text} (h : ∀ c ∈ spaces, c = ' ') (text : Text) :
    rustTokens (spaces ++ text) = rustTokens text := by
  induction spaces with
  | nil => rfl
  | cons c spaces ih =>
    rw [List.cons_append, h c (List.mem_cons_self ..), tokens_blank,
      ih fun d hd => h d (List.mem_cons_of_mem _ hd)]

theorem complete_indent {spaces : Text} (h : ∀ c ∈ spaces, c = ' ') (text : Text) :
    IsComplete (spaces ++ text) ↔ IsComplete text := by
  induction spaces with
  | nil => exact Iff.rfl
  | cons c spaces ih =>
    rw [List.cons_append, h c (List.mem_cons_self ..), complete_blank,
      ih fun d hd => h d (List.mem_cons_of_mem _ hd)]

theorem spaces_indentation : ∀ c ∈ indentation, c = ' ' := by
  intro c hc
  simpa [indentation] using hc

theorem spaces_pad (depth : ℕ) : ∀ c ∈ pad depth, c = ' ' := by
  intro c hc
  obtain ⟨part, hpart, hmem⟩ := List.mem_flatten.1 hc
  rw [List.eq_of_mem_replicate hpart] at hmem
  exact spaces_indentation c hmem

theorem spaces_append {a b : Text} (ha : ∀ c ∈ a, c = ' ') (hb : ∀ c ∈ b, c = ' ') :
    ∀ c ∈ a ++ b, c = ' ' := by
  intro c hc
  rcases List.mem_append.1 hc with hc | hc
  · exact ha c hc
  · exact hb c hc

/-! ### First and last lines -/

section Lines

variable {lines : List Text} {front : List Token} {f : Text → Text}

theorem onHead_lines (hne : lines ≠ []) (h : ∀ line ∈ lines, IsComplete line)
    (hcomplete : ∀ line, IsComplete line → IsComplete (f line))
    (htokens : ∀ line, IsComplete line → rustTokens (f line) = front ++ rustTokens line) :
    onHead f lines ≠ [] ∧ (∀ line ∈ onHead f lines, IsComplete line) ∧
      (onHead f lines).flatMap rustTokens = front ++ lines.flatMap rustTokens := by
  cases lines with
  | nil => exact absurd rfl hne
  | cons line lines =>
    obtain ⟨hline, hlines⟩ := List.forall_mem_cons.1 h
    refine ⟨List.cons_ne_nil _ _, List.forall_mem_cons.2 ⟨hcomplete line hline, hlines⟩, ?_⟩
    rw [onHead, List.flatMap_cons, List.flatMap_cons, htokens line hline, List.append_assoc]

theorem onLast_lines (hne : lines ≠ []) (h : ∀ line ∈ lines, IsComplete line)
    (hcomplete : ∀ line, IsComplete line → IsComplete (f line))
    (htokens : ∀ line, IsComplete line → rustTokens (f line) = rustTokens line ++ front) :
    onLast f lines ≠ [] ∧ (∀ line ∈ onLast f lines, IsComplete line) ∧
      (onLast f lines).flatMap rustTokens = lines.flatMap rustTokens ++ front := by
  induction lines with
  | nil => exact absurd rfl hne
  | cons line lines ih =>
    obtain ⟨hline, hlines⟩ := List.forall_mem_cons.1 h
    cases lines with
    | nil =>
      refine ⟨List.cons_ne_nil _ _, List.forall_mem_cons.2 ⟨hcomplete line hline, hlines⟩, ?_⟩
      simpa [onLast] using htokens line hline
    | cons next lines =>
      obtain ⟨-, hall, htail⟩ := ih (List.cons_ne_nil _ _) hlines
      refine ⟨List.cons_ne_nil _ _, List.forall_mem_cons.2 ⟨hline, hall⟩, ?_⟩
      have hstep : onLast f (line :: next :: lines) = line :: onLast f (next :: lines) := rfl
      rw [hstep, List.flatMap_cons, htail, ← List.append_assoc]
      rfl

end Lines

/-! ### Joined texts -/

theorem joined_cons (text next : Text) (texts : List Text) :
    joined (text :: next :: texts) = text ++ ',' :: ' ' :: joined (next :: texts) := by
  simp [joined, List.intercalate, List.intersperse]

theorem tokens_joined {texts : List Text} (h : ∀ text ∈ texts, IsComplete text) :
    IsComplete (joined texts) ∧
      rustTokens (joined texts) = between comma (texts.map rustTokens) := by
  induction texts with
  | nil => exact ⟨complete_nil, rfl⟩
  | cons text texts ih =>
    obtain ⟨htext, htexts⟩ := List.forall_mem_cons.1 h
    obtain ⟨hcomplete, htokens⟩ := ih htexts
    cases texts with
    | nil => simpa [joined, List.intercalate, between] using htext
    | cons next texts =>
      have hmark : IsMark ',' := by decide
      rw [joined_cons]
      refine ⟨(complete_at hmark htext).2 (complete_blank.2 hcomplete), ?_⟩
      rw [tokens_at hmark htext, tokens_blank, htokens]
      rfl

/-! ### Whole values -/

mutual

/-- The atoms of a value are whole texts, and its names do not end inside a literal. -/
def Whole : Value → Prop
  | .atom text => WholeText text
  | .call path value => IsComplete path ∧ Whole value
  | .struct path fields => IsComplete path ∧ WholeFields fields
  | .slice items => WholeItems items

def WholeItems : List Value → Prop
  | [] => True
  | item :: items => Whole item ∧ WholeItems items

def WholeFields : List (Text × Value) → Prop
  | [] => True
  | field :: fields => WholeField field ∧ WholeFields fields

def WholeField : Text × Value → Prop
  | (name, value) => IsComplete name ∧ Whole value

end

theorem ends_append {a b : List Token} {last : Token} (h : lastFrom none b = some last) :
    lastFrom none (a ++ b) = some last := by
  have hne : b ≠ [] := by
    intro hnil
    rw [hnil] at h
    cases h
  rw [lastFrom_append, lastFrom_of_ne_nil hne _ none, h]

theorem ends_close {c : Char} (hc : c ∈ [')', ']', '}']) (front : List Token) :
    ∃ last, lastFrom none (front ++ [Token.mark c]) = some last ∧ Ends last := by
  refine ⟨.mark c, ends_append rfl, ?_⟩
  simp only [List.mem_cons, List.not_mem_nil, or_false] at hc
  rcases hc with rfl | rfl | rfl <;> decide

theorem tokens_within {front inside : Text} {a b : Char} (ha : IsMark a) (hb : IsMark b)
    (hfront : IsComplete front) (hinside : IsComplete inside) :
    IsComplete (front ++ a :: (inside ++ [b])) ∧
      rustTokens (front ++ a :: (inside ++ [b])) =
        rustTokens front ++ .mark a :: (rustTokens inside ++ [.mark b]) := by
  refine ⟨(complete_at ha hfront).2 (complete_end hb hinside), ?_⟩
  rw [tokens_at ha hfront, tokens_snoc hb hinside]

theorem whole_within {front inside : Text} {a b : Char} (ha : IsMark a) (hb : IsMark b)
    (hclose : b ∈ [')', ']', '}']) (hfront : IsComplete front) (hinside : IsComplete inside) :
    WholeText (front ++ a :: (inside ++ [b])) := by
  obtain ⟨hcomplete, htokens⟩ := tokens_within ha hb hfront hinside
  refine ⟨hcomplete, ?_⟩
  rw [htokens, ← List.cons_append, ← List.append_assoc]
  exact ends_close hclose _

theorem complete_colon {name : Text} (h : IsComplete name) : IsComplete (name ++ [':']) :=
  complete_snoc h (by decide)

theorem struct_inline (path : Text) (fields : List (Text × Value)) (hpath : IsComplete path)
    (h : ∀ text ∈ inlineFields fields, WholeText text) :
    WholeText (inlineOf (.struct path fields)) ∧
      rustTokens (inlineOf (.struct path fields)) = rustTokens path ++
        .mark '{' :: (between comma ((inlineFields fields).map rustTokens) ++ [.mark '}']) := by
  obtain ⟨hcomplete, htokens⟩ := tokens_joined fun text ht => (h text ht).complete
  have hgap : IsComplete (path ++ [' ']) := (complete_gap hpath).2 complete_empty
  have hpathTokens : rustTokens (path ++ [' ']) = rustTokens path := by
    rw [tokens_gap hpath]
    exact List.append_nil _
  cases fields with
  | nil =>
    have htext : inlineOf (.struct path []) = (path ++ [' ']) ++ '{' :: ([] ++ ['}']) := by
      simp [inlineOf]
    rw [htext]
    refine ⟨whole_within (by decide) (by decide) (by decide) hgap complete_empty, ?_⟩
    rw [(tokens_within (by decide) (by decide) hgap complete_empty).2, hpathTokens]
    rfl
  | cons field fields =>
    have htext : inlineOf (.struct path (field :: fields)) = (path ++ [' ']) ++
        '{' :: ((' ' :: joined (inlineFields (field :: fields)) ++ [' ']) ++ ['}']) := by
      simp [inlineOf]
    have hinside : IsComplete (' ' :: joined (inlineFields (field :: fields)) ++ [' ']) := by
      rw [List.cons_append]
      exact complete_blank.2 ((complete_gap hcomplete).2 complete_empty)
    rw [htext]
    refine ⟨whole_within (by decide) (by decide) (by decide) hgap hinside, ?_⟩
    rw [(tokens_within (by decide) (by decide) hgap hinside).2, hpathTokens, List.cons_append,
      tokens_blank, tokens_gap hcomplete, htokens]
    simp [rustTokens]

theorem slice_inline (items : List Value) (h : ∀ text ∈ inlineItems items, WholeText text) :
    WholeText (inlineOf (.slice items)) ∧
      rustTokens (inlineOf (.slice items)) = rustTokens ['&'] ++
        .mark '[' :: (between comma ((inlineItems items).map rustTokens) ++ [.mark ']']) := by
  obtain ⟨hcomplete, htokens⟩ := tokens_joined fun text ht => (h text ht).complete
  have hamp : IsComplete ['&'] := by decide
  have htext : inlineOf (.slice items) =
      ['&'] ++ '[' :: (joined (inlineItems items) ++ [']']) := rfl
  rw [htext]
  refine ⟨whole_within (by decide) (by decide) (by decide) hamp hcomplete, ?_⟩
  rw [(tokens_within (by decide) (by decide) hamp hcomplete).2, htokens]

mutual

theorem inline_whole (v : Value) (h : Whole v) : WholeText (inlineOf v) := by
  cases v with
  | atom text => exact h
  | call path value =>
    exact whole_within (by decide) (by decide) (by decide) h.1 (inline_whole value h.2).complete
  | struct path fields => exact (struct_inline path fields h.1 (fields_whole fields h.2)).1
  | slice items => exact (slice_inline items (items_whole items h)).1

theorem items_whole (items : List Value) (h : WholeItems items) :
    ∀ text ∈ inlineItems items, WholeText text := by
  cases items with
  | nil => exact fun text ht => by cases ht
  | cons item items =>
    exact List.forall_mem_cons.2 ⟨inline_whole item h.1, items_whole items h.2⟩

theorem fields_whole (fields : List (Text × Value)) (h : WholeFields fields) :
    ∀ text ∈ inlineFields fields, WholeText text := by
  cases fields with
  | nil => exact fun text ht => by cases ht
  | cons field fields =>
    exact List.forall_mem_cons.2 ⟨field_whole field h.1, fields_whole fields h.2⟩

theorem field_whole (field : Text × Value) (h : WholeField field) :
    WholeText (inlineField field) := by
  obtain ⟨name, value⟩ := field
  have hname := complete_colon h.1
  have hvalue := inline_whole value h.2
  have htext : inlineField (name, value) = (name ++ [':']) ++ ' ' :: inlineOf value := by
    simp [inlineField]
  rw [htext]
  refine ⟨(complete_gap hname).2 hvalue.complete, ?_⟩
  rw [tokens_gap hname]
  obtain ⟨last, hlast, hends⟩ := hvalue.ends
  exact ⟨last, ends_append hlast, hends⟩

end

/-! ### Lines of a value -/

theorem Renders.single {text : Text} (h : IsComplete text) : Renders [text] (rustTokens text) where
  nonempty := List.cons_ne_nil _ _
  complete := List.forall_mem_singleton.2 h
  same := by
    intro previous
    rw [List.flatMap_singleton]
    exact .refl previous _

section Frame

variable {lines : List Text} {inline front back : List Token} {f : Text → Text}

theorem Renders.first (h : Renders lines inline)
    (hf : ∀ line, IsComplete line → IsComplete (f line))
    (hfront : ∀ line, IsComplete line → rustTokens (f line) = front ++ rustTokens line) :
    Renders (onHead f lines) (front ++ inline) := by
  obtain ⟨hne, hcomplete, hflat⟩ := onHead_lines h.nonempty h.complete hf hfront
  refine ⟨hne, hcomplete, fun previous => ?_⟩
  rw [hflat]
  exact (Trailing.refl previous front).append (h.same _)

theorem Renders.last (h : Renders lines inline)
    (hf : ∀ line, IsComplete line → IsComplete (f line))
    (hback : ∀ line, IsComplete line → rustTokens (f line) = rustTokens line ++ back) :
    Renders (onLast f lines) (inline ++ back) := by
  obtain ⟨hne, hcomplete, hflat⟩ := onLast_lines h.nonempty h.complete hf hback
  refine ⟨hne, hcomplete, fun previous => ?_⟩
  rw [hflat]
  exact (h.same previous).append (.refl _ back)

theorem Renders.cons (h : Renders lines inline) {line : Text} (hline : IsComplete line) :
    Renders (line :: lines) (rustTokens line ++ inline) := by
  refine ⟨List.cons_ne_nil _ _, List.forall_mem_cons.2 ⟨hline, h.complete⟩, fun previous => ?_⟩
  rw [List.flatMap_cons]
  exact (Trailing.refl previous _).append (h.same _)

theorem Renders.indented (h : Renders lines inline) {spaces : Text}
    (hspaces : ∀ c ∈ spaces, c = ' ') : Renders (lines.map (spaces ++ ·)) inline := by
  refine ⟨by simpa using h.nonempty, fun line hl => ?_, fun previous => ?_⟩
  · obtain ⟨line', hline', rfl⟩ := List.mem_map.1 hl
    exact (complete_indent hspaces line').2 (h.complete line' hline')
  · have hflat : (lines.map (spaces ++ ·)).flatMap rustTokens = lines.flatMap rustTokens := by
      rw [List.flatMap_map]
      exact congrArg (List.flatMap · lines) (funext fun line => tokens_indent hspaces line)
    rw [hflat]
    exact h.same previous

end Frame

/-- Lines that render items with a comma after each. -/
def Listed (lines texts : List Text) : Prop :=
  (∀ line ∈ lines, IsComplete line) ∧
    ∃ pairs : List (List Token × List Token),
      pairs.map Prod.fst = texts.map rustTokens ∧
      lines.flatMap rustTokens = after comma (pairs.map Prod.snd) ∧
      ∀ pair ∈ pairs, pair.1 ≠ [] ∧ (∃ last, lastFrom none pair.1 = some last ∧ Ends last) ∧
        ∀ previous, SameUpTo previous pair.1 pair.2

theorem Listed.nil : Listed [] [] := by
  refine ⟨fun line h => ?_, [], rfl, rfl, fun pair h => ?_⟩ <;> cases h

theorem complete_comma (line : Text) (h : IsComplete line) : IsComplete (line ++ [',']) :=
  complete_end (by decide) h

theorem tokens_comma (line : Text) (h : IsComplete line) :
    rustTokens (line ++ [',']) = rustTokens line ++ [comma] := tokens_snoc (by decide) h

theorem Listed.cons {rendered lines texts : List Text} {inline front : List Token} {text : Text}
    {f : Text → Text} (htext : WholeText text) (htokens : rustTokens text = front ++ inline)
    (hrendered : Renders rendered inline) (hf : ∀ line, IsComplete line → IsComplete (f line))
    (hfront : ∀ line, IsComplete line → rustTokens (f line) = front ++ rustTokens line)
    (h : Listed lines texts) :
    Listed (onLast (· ++ [',']) (onHead f rendered) ++ lines) (text :: texts) := by
  obtain ⟨hne, hall, hflat⟩ := onHead_lines hrendered.nonempty hrendered.complete hf hfront
  obtain ⟨-, hall', hflat'⟩ := onLast_lines hne hall complete_comma tokens_comma
  obtain ⟨hcomplete, pairs, hfst, hsnd, hpairs⟩ := h
  have hsame : ∀ previous, SameUpTo previous (rustTokens text)
      (front ++ rendered.flatMap rustTokens) := by
    intro previous
    rw [htokens]
    exact (Trailing.refl previous front).append (hrendered.same _)
  refine ⟨fun line hl => ?_, (rustTokens text, front ++ rendered.flatMap rustTokens) :: pairs,
    ?_, ?_, ?_⟩
  · rcases List.mem_append.1 hl with hl | hl
    · exact hall' line hl
    · exact hcomplete line hl
  · rw [List.map_cons, List.map_cons, hfst]
  · rw [List.flatMap_append, hflat', hflat, hsnd]
    simp [after]
  · exact List.forall_mem_cons.2 ⟨⟨htext.ne_nil, htext.ends, hsame⟩, hpairs⟩

theorem Listed.block {lines texts : List Text} (h : Listed lines texts) {opening closing : Text}
    {front back : List Token} {a b : Char} (hopen : IsComplete opening)
    (hfront : rustTokens opening = front ++ [.mark a]) (hclose : IsComplete closing)
    (hback : rustTokens closing = .mark b :: back) (hb : Closes (.mark b)) :
    Renders (opening :: lines ++ [closing])
      (front ++ .mark a :: (between comma (texts.map rustTokens) ++ .mark b :: back)) := by
  obtain ⟨hcomplete, pairs, hfst, hsnd, hpairs⟩ := h
  refine ⟨List.cons_ne_nil _ _, fun line hl => ?_, fun previous => ?_⟩
  · rcases List.mem_append.1 hl with hl | hl
    · exact (List.forall_mem_cons.2 ⟨hopen, hcomplete⟩) line hl
    · rw [List.mem_singleton.1 hl]
      exact hclose
  · have hitems : SameUpTo (lastFrom previous (front ++ [Token.mark a]))
        (between comma (pairs.map Prod.fst) ++ [.mark b])
        (after comma (pairs.map Prod.snd) ++ [.mark b]) := trailing_items hb hpairs _
    have hlines : (opening :: lines ++ [closing]).flatMap rustTokens =
        (front ++ [.mark a]) ++ ((after comma (pairs.map Prod.snd) ++ [.mark b]) ++ back) := by
      simp [hfront, hsnd, hback]
    have hinline : front ++ Token.mark a ::
          (between comma (texts.map rustTokens) ++ .mark b :: back) =
        (front ++ [.mark a]) ++ ((between comma (pairs.map Prod.fst) ++ [.mark b]) ++ back) := by
      simp [hfst]
    rw [hlines, hinline]
    exact (Trailing.refl previous _).append (hitems.append (.refl _ back))

theorem tokens_close {b : Char} (hb : IsMark b) {spaces : Text} (h : ∀ c ∈ spaces, c = ' ') :
    IsComplete (spaces ++ [b]) ∧ rustTokens (spaces ++ [b]) = [.mark b] := by
  rw [complete_indent h, tokens_indent h]
  exact ⟨(complete_at hb complete_empty).2 complete_empty, tokens_at hb complete_empty []⟩

theorem field_front {spaces name : Text} (h : ∀ c ∈ spaces, c = ' ') (hname : IsComplete name)
    {line : Text} (hline : IsComplete line) :
    IsComplete (spaces ++ name ++ [':'] ++ (if line.isEmpty then [] else ' ' :: line)) ∧
      rustTokens (spaces ++ name ++ [':'] ++ (if line.isEmpty then [] else ' ' :: line)) =
        rustTokens (name ++ [':']) ++ rustTokens line := by
  have hcolon := complete_colon hname
  simp only [List.append_assoc, complete_indent h, tokens_indent h]
  simp only [← List.append_assoc]
  cases line with
  | nil => simpa [rustTokens] using hcolon
  | cons c line => exact ⟨(complete_gap hcolon).2 hline, tokens_gap hcolon _⟩

theorem field_tokens {name : Text} {value : Value} (hname : IsComplete name) :
    rustTokens (inlineField (name, value)) =
      rustTokens (name ++ [':']) ++ rustTokens (inlineOf value) := by
  have htext : inlineField (name, value) = (name ++ [':']) ++ ' ' :: inlineOf value := by
    simp [inlineField]
  rw [htext, tokens_gap (complete_colon hname)]

theorem wide_renders {value : Value} {text : Text} {column : ℕ}
    (h : wideAtom value column = some text) (hvalue : Whole value) {spaces : Text}
    (hspaces : ∀ c ∈ spaces, c = ' ') :
    Renders [[], spaces ++ text] (rustTokens (inlineOf value)) := by
  cases value with
  | atom text' =>
    simp only [wideAtom, Option.ite_none_right_eq_some, Option.some.injEq] at h
    obtain ⟨-, rfl⟩ := h
    refine ⟨List.cons_ne_nil _ _, ?_, fun previous => ?_⟩
    · refine List.forall_mem_cons.2 ⟨complete_empty, List.forall_mem_singleton.2 ?_⟩
      exact (complete_indent hspaces _).2 hvalue.complete
    · have hlines : [[], spaces ++ text'].flatMap rustTokens = rustTokens text' := by
        rw [List.flatMap_cons, List.flatMap_singleton, tokens_indent hspaces]
        rfl
      rw [hlines]
      exact .refl previous _
  | call path inner => cases h
  | struct path fields => cases h
  | slice items => cases h

mutual

theorem renderValue_renders (depth column trail : ℕ) (v : Value) (h : Whole v) :
    Renders (renderValue depth column trail v) (rustTokens (inlineOf v)) := by
  cases v with
  | atom text =>
    rw [renderValue]
    exact .single h.complete
  | call path inner =>
    rw [renderValue]
    split
    · exact .single (inline_whole _ h).complete
    · have hinner := renderValue_renders depth (column + width path + 1) (trail + 1) inner h.2
      have hmark : IsMark '(' := by decide
      have hmark' : IsMark ')' := by decide
      have htokens : rustTokens (inlineOf (.call path inner)) =
          (rustTokens path ++ [.mark '(']) ++ rustTokens (inlineOf inner) ++ [.mark ')'] := by
        rw [inlineOf, (tokens_within hmark hmark' h.1 (inline_whole inner h.2).complete).2]
        simp
      rw [htokens]
      refine (hinner.first (fun line hl => (complete_at hmark h.1).2 hl) fun line hl => ?_).last
        (fun line hl => complete_end hmark' hl) fun line hl => tokens_snoc hmark' hl
      rw [tokens_at hmark h.1]
      simp
  | struct path fields =>
    rw [renderValue]
    split
    · exact .single (inline_whole _ h).complete
    · have hmark : IsMark '{' := by decide
      obtain ⟨hclose, hclosing⟩ := tokens_close (b := '}') (by decide) (spaces_pad depth)
      have hgap : IsComplete (path ++ [' ']) := (complete_gap h.1).2 complete_empty
      have hopening : path ++ " \x7b".toList = (path ++ [' ']) ++ ['{'] := by simp
      rw [(struct_inline path fields h.1 (fields_whole fields h.2)).2]
      refine (renderFields_listed depth fields h.2).block ?_ ?_ hclose hclosing (by decide)
      · rw [hopening]
        exact complete_end hmark hgap
      · rw [hopening, tokens_snoc hmark hgap, tokens_gap h.1]
        simp [rustTokens]
  | slice items =>
    unfold renderValue
    split
    · exact .single (inline_whole _ h).complete
    · have hmark : IsMark '[' := by decide
      have hmark' : IsMark ']' := by decide
      have hamp : IsComplete ['&'] := by decide
      obtain ⟨hclose, hclosing⟩ := tokens_close (b := ']') hmark' (spaces_pad depth)
      have hblock : Renders ("&[".toList :: renderItems depth items ++ [pad depth ++ [']']])
          (rustTokens (inlineOf (.slice items))) := by
        rw [(slice_inline items (items_whole items h)).2]
        exact (renderItems_listed depth items h).block (complete_end (a := ['&']) hmark hamp)
          (tokens_snoc (a := ['&']) hmark hamp) hclose hclosing (by decide)
      cases items with
      | nil => exact hblock
      | cons item items =>
        cases items with
        | cons next items => exact hblock
        | nil =>
          have hinner := renderValue_renders depth (column + 2) (trail + 1) item h.1
          have htokens : rustTokens (inlineOf (.slice [item])) =
              (rustTokens ['&'] ++ [.mark '[']) ++ rustTokens (inlineOf item) ++
                [.mark ']'] := by
            rw [(slice_inline [item] (items_whole [item] h)).2]
            simp [inlineItems, between]
          rw [htokens]
          refine (hinner.first (fun line hl => (complete_at (a := ['&']) hmark hamp).2 hl)
            fun line hl => ?_).last (fun line hl => complete_end hmark' hl)
            fun line hl => tokens_snoc hmark' hl
          exact (tokens_at (a := ['&']) hmark hamp line).trans (by simp)

theorem renderItems_listed (depth : ℕ) (items : List Value) (h : WholeItems items) :
    Listed (renderItems depth items) (inlineItems items) := by
  cases items with
  | nil =>
    rw [renderItems, inlineItems]
    exact .nil
  | cons item items =>
    rw [renderItems, inlineItems]
    have hspaces := spaces_append (spaces_pad depth) spaces_indentation
    refine .cons (inline_whole item h.1) (List.nil_append _).symm
      (renderValue_renders (depth + 1) _ 1 item h.1) (fun line hl => ?_) (fun line hl => ?_)
      (renderItems_listed depth items h.2)
    · exact (complete_indent hspaces line).2 hl
    · exact tokens_indent hspaces line

theorem renderFields_listed (depth : ℕ) (fields : List (Text × Value)) (h : WholeFields fields) :
    Listed (renderFields depth fields) (inlineFields fields) := by
  cases fields with
  | nil =>
    rw [renderFields, inlineFields]
    exact .nil
  | cons field fields =>
    rw [renderFields, inlineFields]
    exact renderField_listed depth field h.1 (renderFields_listed depth fields h.2)

theorem renderField_listed (depth : ℕ) (field : Text × Value) (h : WholeField field)
    {lines texts : List Text} (hrest : Listed lines texts) :
    Listed (renderField depth field ++ lines) (inlineField field :: texts) := by
  obtain ⟨name, value⟩ := field
  have hspaces := spaces_append (spaces_pad depth) spaces_indentation
  rw [renderField]
  refine .cons (field_whole (name, value) h) (field_tokens h.1) ?_
    (fun line hl => (field_front hspaces h.1 hl).1) (fun line hl => (field_front hspaces h.1 hl).2)
    hrest
  split
  · rename_i text htext
    exact wide_renders htext h.2 (spaces_append hspaces spaces_indentation)
  · exact renderValue_renders (depth + 1) _ 1 value h.2

end

end FilamentCore.Backends.RustFormat
