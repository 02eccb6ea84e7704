import Mathlib.Data.List.Basic

/-!
# Texts as tokens

A scanner of words, signs, marks and quoted literals, what joins two texts without joining tokens,
and the sequences that a separator before a closing token makes of another.
-/

namespace FilamentCore.Library.Tokens

/-! ### Scanning -/

/-- What a character is: signs and words go on in runs, a mark stands alone. -/
inductive CharClass
  | space | word | sign | mark | quote
  deriving DecidableEq

inductive Token
  | run (text : List Char)
  | literal (text : List Char)
  | mark (c : Char)
  deriving DecidableEq

/-- Where a scan stands. -/
inductive State
  | between
  | run (kind : CharClass) (read : List Char)
  | literal (read : List Char) (escaped : Bool)
  deriving DecidableEq

def State.pending : State → List Token
  | .between => []
  | .run _ read => [.run read]
  | .literal read _ => [.literal read]

def State.isLiteral : State → Bool
  | .literal _ _ => true
  | _ => false

variable (classOf : Char → CharClass)

/-- A character outside of a literal. -/
def advance (s : State) (c : Char) : List Token × State :=
  match classOf c with
  | .space => (s.pending, .between)
  | .mark => (s.pending ++ [.mark c], .between)
  | .quote => (s.pending, .literal [] false)
  | kind =>
    match s with
    | .run kind' read =>
      if kind' = kind then ([], .run kind (read ++ [c])) else (s.pending, .run kind [c])
    | s => (s.pending, .run kind [c])

/-- One character. In a literal a backslash keeps the next character. -/
def step (s : State) (c : Char) : List Token × State :=
  match s with
  | .literal read true => ([], .literal (read ++ [c]) false)
  | .literal read false =>
    if c = '\\' then ([], .literal (read ++ [c]) true)
    else if classOf c = .quote then ([.literal read], .between)
    else ([], .literal (read ++ [c]) false)
  | s => advance classOf s c

def scan (s : State) : List Char → List Token × State
  | [] => ([], s)
  | c :: cs =>
    ((step classOf s c).1 ++ (scan (step classOf s c).2 cs).1, (scan (step classOf s c).2 cs).2)

def tokens (cs : List Char) : List Token :=
  (scan classOf .between cs).1 ++ (scan classOf .between cs).2.pending

/-- The text does not end inside a literal. -/
def Complete (cs : List Char) : Prop := (scan classOf .between cs).2.isLiteral = false

variable {classOf}

theorem scan_append (s : State) (a b : List Char) :
    scan classOf s (a ++ b) =
      ((scan classOf s a).1 ++ (scan classOf (scan classOf s a).2 b).1,
        (scan classOf (scan classOf s a).2 b).2) := by
  induction a generalizing s with
  | nil => rfl
  | cons c a ih =>
    rw [List.cons_append, scan, ih]
    simp only [scan, List.append_assoc]

theorem step_outside {s : State} (hs : s.isLiteral = false) (c : Char) :
    step classOf s c = advance classOf s c := by
  cases s with
  | between => rfl
  | run kind read => rfl
  | literal read escaped => cases hs

theorem step_space {s : State} (hs : s.isLiteral = false) {c : Char} (hc : classOf c = .space) :
    step classOf s c = (s.pending, .between) := by
  rw [step_outside hs, advance, hc]

theorem step_mark {s : State} (hs : s.isLiteral = false) {c : Char} (hc : classOf c = .mark) :
    step classOf s c = (s.pending ++ [.mark c], .between) := by
  rw [step_outside hs, advance, hc]

variable {a b : List Char} {c : Char}

theorem tokens_space (ha : Complete classOf a) (hc : classOf c = .space) :
    tokens classOf (a ++ c :: b) = tokens classOf a ++ tokens classOf b := by
  rw [tokens, scan_append, scan, step_space ha hc]
  simp only [tokens, List.append_assoc]

theorem tokens_mark (ha : Complete classOf a) (hc : classOf c = .mark) :
    tokens classOf (a ++ c :: b) = tokens classOf a ++ .mark c :: tokens classOf b := by
  rw [tokens, scan_append, scan, step_mark ha hc]
  simp only [tokens, List.append_assoc, List.cons_append, List.nil_append]

theorem complete_space (ha : Complete classOf a) (hc : classOf c = .space) :
    Complete classOf (a ++ c :: b) ↔ Complete classOf b := by
  rw [Complete, scan_append, scan, step_space ha hc]
  rfl

theorem complete_mark (ha : Complete classOf a) (hc : classOf c = .mark) :
    Complete classOf (a ++ c :: b) ↔ Complete classOf b := by
  rw [Complete, scan_append, scan, step_mark ha hc]
  rfl

@[simp] theorem tokens_nil : tokens classOf [] = [] := rfl

theorem complete_nil : Complete classOf [] := rfl

theorem complete_snoc (ha : Complete classOf a) (hc : classOf c ≠ .quote) :
    Complete classOf (a ++ [c]) := by
  rw [Complete, scan_append, scan, scan, step_outside ha, advance]
  cases hclass : classOf c with
  | quote => exact absurd hclass hc
  | space => rfl
  | mark => rfl
  | word => dsimp only; split <;> [split; skip] <;> rfl
  | sign => dsimp only; split <;> [split; skip] <;> rfl

/-! ### Lines -/

theorem tokens_lines {newline : Char} (hn : classOf newline = .space) {lines : List (List Char)}
    (h : ∀ line ∈ lines, Complete classOf line) :
    tokens classOf ([newline].intercalate lines) = lines.flatMap (tokens classOf) := by
  induction lines with
  | nil => rfl
  | cons line lines ih =>
    have hline := h line (List.mem_cons_self ..)
    have hrest := ih fun l hl => h l (List.mem_cons_of_mem _ hl)
    cases lines with
    | nil => simp [List.intercalate]
    | cons next lines =>
      have hsplit : [newline].intercalate (line :: next :: lines) =
          line ++ newline :: [newline].intercalate (next :: lines) := by
        simp [List.intercalate, List.intersperse]
      rw [hsplit, tokens_space hline hn, hrest]
      rfl

/-! ### Trailing separators -/

variable {α : Type*} (separator : α) (Ends Closes : α → Prop)

/-- The second sequence is the first with separators before closing tokens, one each at most and
after the end of an item only. `previous` is the token before both. -/
inductive Trailing : Option α → List α → List α → Prop
  | nil (previous : Option α) : Trailing previous [] []
  | cons (previous : Option α) (t : α) {xs ys : List α} : Trailing (some t) xs ys →
      Trailing previous (t :: xs) (t :: ys)
  | separate (last close : α) (ends : Ends last) (closes : Closes close) {xs ys : List α} :
      Trailing (some close) xs ys →
      Trailing (some last) (close :: xs) (separator :: close :: ys)

/-- The last token of a sequence, or the one before it. -/
def lastFrom (previous : Option α) : List α → Option α
  | [] => previous
  | t :: ts => lastFrom (some t) ts

variable {separator Ends Closes}

@[simp] theorem lastFrom_append (previous : Option α) (xs ys : List α) :
    lastFrom previous (xs ++ ys) = lastFrom (lastFrom previous xs) ys := by
  induction xs generalizing previous with
  | nil => rfl
  | cons x xs ih => exact ih (some x)

theorem lastFrom_of_ne_nil {xs : List α} (h : xs ≠ []) (previous other : Option α) :
    lastFrom previous xs = lastFrom other xs := by
  cases xs with
  | nil => exact absurd rfl h
  | cons x xs => rfl

namespace Trailing

variable {previous : Option α} {xs ys xs' ys' : List α}

theorem refl (previous : Option α) (xs : List α) :
    Trailing separator Ends Closes previous xs xs := by
  induction xs generalizing previous with
  | nil => exact .nil previous
  | cons x xs ih => exact .cons previous x (ih (some x))

theorem append (h : Trailing separator Ends Closes previous xs ys)
    (h' : Trailing separator Ends Closes (lastFrom previous xs) xs' ys') :
    Trailing separator Ends Closes previous (xs ++ xs') (ys ++ ys') := by
  induction h with
  | nil previous => exact h'
  | cons previous t _ ih => exact .cons previous t (ih h')
  | separate last close ends closes _ ih => exact .separate last close ends closes (ih h')

/-- Apart from the separators the tokens are the same. -/
theorem filter [DecidableEq α] (h : Trailing separator Ends Closes previous xs ys) :
    xs.filter (· ≠ separator) = ys.filter (· ≠ separator) := by
  induction h with
  | nil previous => rfl
  | cons previous t _ ih => rw [List.filter_cons, List.filter_cons, ih]
  | separate last close ends closes _ ih =>
    rw [List.filter_cons (x := separator), if_neg (by simp), List.filter_cons, List.filter_cons, ih]

end Trailing

/-- Items with a separator between two of them. -/
def between (separator : α) : List (List α) → List α
  | [] => []
  | [item] => item
  | item :: items => item ++ separator :: between separator items

def after (separator : α) (items : List (List α)) : List α :=
  items.flatMap fun item => item ++ [separator]

theorem trailing_items {close : α} (hclose : Closes close) {pairs : List (List α × List α)}
    (h : ∀ pair ∈ pairs, pair.1 ≠ [] ∧ (∃ last, lastFrom none pair.1 = some last ∧ Ends last) ∧
      ∀ previous, Trailing separator Ends Closes previous pair.1 pair.2)
    (previous : Option α) :
    Trailing separator Ends Closes previous
      (between separator (pairs.map Prod.fst) ++ [close])
      (after separator (pairs.map Prod.snd) ++ [close]) := by
  induction pairs generalizing previous with
  | nil => exact .refl previous [close]
  | cons pair pairs ih =>
    obtain ⟨hne, ⟨last, hlast, hends⟩, hpair⟩ := h pair (List.mem_cons_self ..)
    have hrest := ih fun p hp => h p (List.mem_cons_of_mem _ hp)
    cases pairs with
    | nil =>
      have hstep : Trailing separator Ends Closes (some last) [close] [separator, close] :=
        .separate last close hends hclose (.nil _)
      have hwhole : Trailing separator Ends Closes (lastFrom previous pair.1) [close]
          [separator, close] := by
        rw [lastFrom_of_ne_nil hne previous none, hlast]
        exact hstep
      simpa [between, after] using (hpair previous).append hwhole
    | cons next pairs =>
      have hstep := (hpair previous).append
        (Trailing.cons (lastFrom previous pair.1) separator (hrest (some separator)))
      simpa [between, after] using hstep

end FilamentCore.Library.Tokens
