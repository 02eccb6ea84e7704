import FilamentCore.Backends.RustLayouts

/-!
# The layouts of items and arms are one program

`constItem`, `callLines`, `matchArm` and `callArm` write the tokens of their inline texts, up to
trailing commas and the braces of an arm.
-/

namespace FilamentCore.Backends.RustFormat
open FilamentCore.Library.Tokens

/-! ### Constants -/

def declared (visibility name type : Text) : Text :=
  visibility ++ "const ".toList ++ name ++ ": ".toList ++ type

theorem constPrefix_declared (visibility name type : Text) :
    constPrefix visibility name type = declared visibility name type ++ " =".toList ++ [' '] := by
  simp [constPrefix, declared]

theorem trimEnd_declared (visibility name type : Text) :
    trimEnd (constPrefix visibility name type) =
      declared visibility name type ++ " =".toList := by
  rw [constPrefix_declared, trimEnd, List.reverse_append]
  simp

theorem complete_equals {text : Text} (h : IsComplete text) :
    IsComplete (text ++ " =".toList) := by
  have htext : text ++ " =".toList = (text ++ [' ']) ++ ['='] := by simp
  rw [htext]
  exact complete_snoc ((complete_gap h).2 complete_empty) (by decide)

theorem constItem_renders (visibility name type : Text) (v : Value)
    (hdeclared : IsComplete (declared visibility name type)) (h : Whole v) :
    Renders (constItem visibility name type v)
      (rustTokens (constPrefix visibility name type ++ inlineOf v ++ [';'])) := by
  have hmark : IsMark ';' := by decide
  have hequals := complete_equals hdeclared
  have hsemicolon : ∀ line, IsComplete line → IsComplete (line ++ [';']) :=
    fun line hl => complete_end hmark hl
  have hback : ∀ line, IsComplete line →
      rustTokens (line ++ [';']) = rustTokens line ++ [.mark ';'] :=
    fun line hl => tokens_snoc hmark hl
  have hstarts : ∀ line : Text, constPrefix visibility name type ++ line =
      (declared visibility name type ++ " =".toList) ++ ' ' :: line := by
    intro line
    rw [constPrefix_declared]
    simp
  have hvalue := renderValue_renders 0 (width (constPrefix visibility name type)) 0 v h
  have htokens : rustTokens (constPrefix visibility name type ++ inlineOf v ++ [';']) =
      rustTokens (declared visibility name type ++ " =".toList) ++
        (rustTokens (inlineOf v) ++ [.mark ';']) := by
    have hinline := (inline_whole v h).complete
    have hcomplete : IsComplete (constPrefix visibility name type ++ inlineOf v) := by
      rw [hstarts]
      exact (complete_gap hequals).2 hinline
    rw [tokens_snoc hmark hcomplete, hstarts, tokens_gap hequals, List.append_assoc]
  -- the value on the line of its declaration
  have hsame : Renders (onLast (· ++ [';']) (onHead (constPrefix visibility name type ++ ·)
      (renderValue 0 (width (constPrefix visibility name type)) 0 v)))
      (rustTokens (constPrefix visibility name type ++ inlineOf v ++ [';'])) := by
    rw [htokens, ← List.append_assoc]
    refine (hvalue.first (fun line hl => ?_) fun line hl => ?_).last hsemicolon hback
    · rw [hstarts]
      exact (complete_gap hequals).2 hl
    · rw [hstarts, tokens_gap hequals]
  -- and on the lines after it
  have hbelow : Renders ((declared visibility name type ++ " =".toList) ::
      onLast (· ++ [';']) ((renderValue 0 (width (constPrefix visibility name type)) 0 v).map
        (indentation ++ ·)))
      (rustTokens (constPrefix visibility name type ++ inlineOf v ++ [';'])) := by
    rw [htokens]
    exact ((hvalue.indented spaces_indentation).last hsemicolon hback).cons hequals
  rw [constItem]
  split
  · rename_i line hlines
    rw [hlines] at hsame hbelow
    split
    · exact hsame
    · exact hbelow
  · split
    · rw [trimEnd_declared]
      exact hbelow
    · exact hsame

/-! ### Calls -/

theorem cutLast_none {c : Char} {text : Text} (h : c ∉ text) : cutLast c text = none := by
  induction text with
  | nil => rfl
  | cons d text ih =>
    have hne : d ≠ c := fun heq => h (heq ▸ List.mem_cons_self ..)
    rw [cutLast, ih fun hc => h (List.mem_cons_of_mem _ hc)]
    exact if_neg hne

theorem cutLast_append {c : Char} {rest : Text} (h : c ∉ rest) (before : Text) :
    cutLast c (before ++ c :: rest) = some (before, rest) := by
  induction before with
  | nil =>
    rw [List.nil_append, cutLast, cutLast_none h]
    exact if_pos rfl
  | cons d before ih => rw [List.cons_append, cutLast, ih]

theorem exists_last {c : Char} {text : Text} (h : c ∈ text) :
    ∃ before rest, text = before ++ c :: rest ∧ c ∉ rest := by
  induction text with
  | nil => cases h
  | cons d text ih =>
    by_cases htext : c ∈ text
    · obtain ⟨before, rest, rfl, hrest⟩ := ih htext
      exact ⟨d :: before, rest, rfl, hrest⟩
    · rcases List.mem_cons.1 h with rfl | h
      · exact ⟨[], text, rfl, htext⟩
      · exact absurd h htext

/-- The call without the enclosing one's parenthesis, which the suffix closes. -/
structure Enclosed (head suffix outer path rest : Text) : Prop where
  head_eq : head = outer ++ '(' :: path
  path_plain : '(' ∉ path
  outer_complete : IsComplete outer
  suffix_eq : suffix = ')' :: rest

/-- A plain head, or one that opens a call that the suffix closes. -/
def Built (head suffix : Text) : Prop :=
  '(' ∉ head ∨ ∃ outer path rest, Enclosed head suffix outer path rest

theorem cutLast_some {c : Char} {text before rest : Text}
    (h : cutLast c text = some (before, rest)) : text = before ++ c :: rest := by
  by_cases hmem : c ∈ text
  · obtain ⟨before', rest', rfl, hrest⟩ := exists_last hmem
    rw [cutLast_append hrest, Option.some.injEq, Prod.mk.injEq] at h
    rw [h.1, h.2]
  · rw [cutLast_none hmem] at h
    cases h

section Calls

variable {indent head suffix : Text} {args : List Text}

theorem call_tokens (hhead : IsComplete head) (hargs : ∀ text ∈ args, WholeText text)
    (hsuffix : IsComplete suffix) :
    IsComplete (callText head args suffix) ∧ rustTokens (callText head args suffix) =
      rustTokens head ++ .mark '(' ::
        (between comma (args.map rustTokens) ++ .mark ')' :: rustTokens suffix) := by
  obtain ⟨hjoined, htokens⟩ := tokens_joined fun text ht => (hargs text ht).complete
  have hmark : IsMark '(' := by decide
  have hmark' : IsMark ')' := by decide
  refine ⟨(complete_at hmark hhead).2 ((complete_at hmark' hjoined).2 hsuffix), ?_⟩
  rw [callText, tokens_at hmark hhead, tokens_at hmark' hjoined, htokens]

theorem args_listed {spaces : Text} (hspaces : ∀ c ∈ spaces, c = ' ')
    (hargs : ∀ text ∈ args, WholeText text) :
    Listed (args.map fun argument => spaces ++ argument ++ [',']) args := by
  induction args with
  | nil => exact .nil
  | cons argument args ih =>
    obtain ⟨hargument, hrest⟩ := List.forall_mem_cons.1 hargs
    exact .cons hargument (List.nil_append _).symm (.single hargument.complete)
      (fun line hl => (complete_indent hspaces line).2 hl)
      (fun line _ => tokens_indent hspaces line) (ih hrest)

theorem brokenCall_renders (hindent : ∀ c ∈ indent, c = ' ') (hhead : IsComplete head)
    (hargs : ∀ text ∈ args, WholeText text) (hsuffix : IsComplete suffix) :
    Renders (brokenCall indent head args suffix) (rustTokens (callText head args suffix)) := by
  have hmark : IsMark '(' := by decide
  have hmark' : IsMark ')' := by decide
  have hopen : indent ++ head ++ ['('] = indent ++ (head ++ ['(']) := List.append_assoc ..
  have hopening : IsComplete (indent ++ head ++ ['(']) := by
    rw [hopen, complete_indent hindent]
    exact complete_end hmark hhead
  have hfront : rustTokens (indent ++ head ++ ['(']) = rustTokens head ++ [.mark '('] := by
    rw [hopen, tokens_indent hindent, tokens_snoc hmark hhead]
  have hclosing : IsComplete (indent ++ ')' :: suffix) :=
    (complete_indent hindent _).2 ((complete_at hmark' complete_empty).2 hsuffix)
  have hback : rustTokens (indent ++ ')' :: suffix) = .mark ')' :: rustTokens suffix := by
    rw [tokens_indent hindent]
    exact tokens_at hmark' complete_empty suffix
  rw [(call_tokens hhead hargs hsuffix).2]
  exact (args_listed (spaces_append hindent spaces_indentation) hargs).block hopening hfront
    hclosing hback (by decide)

theorem flattenedCall_renders {outer path rest : Text} (h : Enclosed head suffix outer path rest)
    (hindent : ∀ c ∈ indent, c = ' ') (hhead : IsComplete head)
    (hargs : ∀ text ∈ args, WholeText text) (hsuffix : IsComplete suffix) {lines : List Text}
    (hlines : flattenedCall indent head args suffix = some lines) :
    Renders lines (rustTokens (callText head args suffix)) := by
  obtain ⟨rfl, hplain, houter, rfl⟩ := h
  have hmark : IsMark '(' := by decide
  have hmark' : IsMark ')' := by decide
  have hpath : IsComplete path := (complete_at hmark houter).1 hhead
  simp only [flattenedCall, cutLast_append hplain, Option.ite_none_right_eq_some,
    Option.some.injEq] at hlines
  obtain ⟨-, rfl⟩ := hlines
  have hcomma : IsComplete [','] := by decide
  obtain ⟨hinner, hinnerTokens⟩ := call_tokens hpath hargs hcomma
  have hspaces := spaces_append hindent spaces_indentation
  have hopen : indent ++ outer ++ ['('] = indent ++ (outer ++ ['(']) := List.append_assoc ..
  have hopening : IsComplete (indent ++ outer ++ ['(']) := by
    rw [hopen, complete_indent hindent]
    exact complete_end hmark houter
  have hbody : IsComplete (indent ++ indentation ++ callText path args [',']) :=
    (complete_indent hspaces _).2 hinner
  have hclosing : IsComplete (indent ++ ')' :: rest) := (complete_indent hindent _).2 hsuffix
  -- the tokens up to the end of the inner call
  let front : List Token := rustTokens outer ++ .mark '(' :: (rustTokens path ++
    .mark '(' :: (between comma (args.map rustTokens) ++ [.mark ')']))
  have hlast : ∀ previous, lastFrom previous front = some (.mark ')') := by
    intro previous
    have hfront : front = rustTokens outer ++ .mark '(' :: (rustTokens path ++
      .mark '(' :: between comma (args.map rustTokens)) ++ [.mark ')'] := by simp [front]
    rw [hfront, lastFrom_append]
    rfl
  have hclose : rustTokens (')' :: rest) = .mark ')' :: rustTokens rest :=
    tokens_at hmark' complete_empty rest
  have hinline : rustTokens (callText (outer ++ '(' :: path) args (')' :: rest)) =
      front ++ .mark ')' :: rustTokens rest := by
    rw [(call_tokens hhead hargs hsuffix).2, tokens_at hmark houter, hclose]
    simp [front]
  refine ⟨List.cons_ne_nil _ _, ?_, fun previous => ?_⟩
  · exact List.forall_mem_cons.2 ⟨hopening, List.forall_mem_cons.2
      ⟨hbody, List.forall_mem_singleton.2 hclosing⟩⟩
  · have hlines : [indent ++ outer ++ ['('], indent ++ indentation ++ callText path args [','],
        indent ++ ')' :: rest].flatMap rustTokens =
        front ++ comma :: .mark ')' :: rustTokens rest := by
      rw [List.flatMap_cons, List.flatMap_cons, List.flatMap_singleton, hopen,
        tokens_indent hindent, tokens_indent hspaces, tokens_indent hindent,
        tokens_snoc hmark houter, hinnerTokens, hclose]
      have hcomma : rustTokens [','] = [comma] := by decide
      simp [front, hcomma]
    have htrailing : SameUpTo (lastFrom previous front) (.mark ')' :: rustTokens rest)
        (comma :: .mark ')' :: rustTokens rest) := by
      rw [hlast]
      exact .separate _ _ (by decide) (by decide) (.refl _ _)
    rw [hinline]
    exact hlines ▸ (Trailing.refl previous front).append htrailing

theorem callLines_of (hindent : ∀ c ∈ indent, c = ' ') (hhead : IsComplete head)
    (hargs : ∀ text ∈ args, WholeText text) (hsuffix : IsComplete suffix)
    (h : ∀ lines, callLines indent head args suffix = lines →
      flattenedCall indent head args suffix = some lines →
      Renders lines (rustTokens (callText head args suffix))) :
    Renders (callLines indent head args suffix) (rustTokens (callText head args suffix)) := by
  rw [callLines] at h ⊢
  split
  · have hcall := Renders.single (call_tokens hhead hargs hsuffix).1
    exact hcall.indented hindent
  · rename_i hfits
    cases hflat : flattenedCall indent head args suffix with
    | none => exact brokenCall_renders hindent hhead hargs hsuffix
    | some lines =>
      rw [if_neg hfits, hflat] at h
      exact h lines rfl rfl

/-- Whichever form `callLines` takes, a built call stays the call. -/
theorem callLines_renders (h : Built head suffix) (hindent : ∀ c ∈ indent, c = ' ')
    (hhead : IsComplete head) (hargs : ∀ text ∈ args, WholeText text)
    (hsuffix : IsComplete suffix) :
    Renders (callLines indent head args suffix) (rustTokens (callText head args suffix)) := by
  refine callLines_of hindent hhead hargs hsuffix fun lines _ hlines => ?_
  rcases h with hplain | ⟨outer, path, rest, hnested⟩
  · rw [flattenedCall, cutLast_none hplain] at hlines
    cases hlines
  · exact flattenedCall_renders hnested hindent hhead hargs hsuffix hlines

end Calls

/-! ### Arms -/

/-- The tokens of an arm whose body is one expression: the body and a comma, or the body in braces;
up to trailing commas. -/
def SameArm (front body lines : List Token) : Prop :=
  SameUpTo none (front ++ (body ++ [comma])) lines ∨
    SameUpTo none (front ++ .mark '{' :: (body ++ [.mark '}'])) lines

section Arms

variable {indent pattern : Text}

/-- `${pattern} =>`. -/
def armFront (pattern : Text) : Text := pattern ++ " =>".toList

theorem complete_armFront (h : IsComplete pattern) : IsComplete (armFront pattern) := by
  have htext : armFront pattern = (pattern ++ [' ']) ++ ['='] ++ ['>'] := by simp [armFront]
  rw [htext]
  exact complete_snoc (complete_snoc ((complete_gap h).2 complete_empty) (by decide)) (by decide)

theorem arm_text (pattern rest : Text) :
    pattern ++ " => ".toList ++ rest = armFront pattern ++ ' ' :: rest := by simp [armFront]

theorem arm_block (hindent : ∀ c ∈ indent, c = ' ') (hpattern : IsComplete pattern) {line : Text}
    {body : List Token} (h : Renders [line] body) :
    SameUpTo none (rustTokens (armFront pattern) ++ .mark '{' :: (body ++ [.mark '}']))
      (program [indent ++ pattern ++ " => \x7b".toList, line, indent ++ ['}']]) := by
  have hfront := complete_armFront hpattern
  have hopen : indent ++ pattern ++ " => \x7b".toList =
      indent ++ (armFront pattern ++ ' ' :: ['{']) := by simp [armFront]
  have hopening : IsComplete (indent ++ pattern ++ " => \x7b".toList) := by
    rw [hopen, complete_indent hindent, complete_gap hfront]
    decide
  have htokens : rustTokens (indent ++ pattern ++ " => \x7b".toList) =
      rustTokens (armFront pattern) ++ [.mark '{'] := by
    rw [hopen, tokens_indent hindent, tokens_gap hfront]
    rfl
  obtain ⟨hclosing, hback⟩ := tokens_close (b := '}') (by decide) hindent
  have hlines : Renders ([line] ++ [indent ++ ['}']]) (body ++ [.mark '}']) := by
    refine ⟨List.cons_ne_nil _ _, fun l hl => ?_, fun previous => ?_⟩
    · rcases List.mem_append.1 hl with hl | hl
      · exact h.complete l hl
      · rw [List.mem_singleton.1 hl]
        exact hclosing
    · have hflat : ([line] ++ [indent ++ ['}']]).flatMap rustTokens =
          [line].flatMap rustTokens ++ [.mark '}'] := by
        rw [List.flatMap_append]
        simp [hback]
      rw [hflat]
      exact (h.same previous).append (.refl _ _)
  have hblock := (hlines.cons hopening).program
  rw [htokens, List.append_assoc] at hblock
  exact hblock

theorem matchArm_same (hindent : ∀ c ∈ indent, c = ' ') (hpattern : IsComplete pattern)
    {body : Text} (hbody : IsComplete body) :
    SameArm (rustTokens (armFront pattern)) (rustTokens body)
      (program (matchArm indent pattern body)) := by
  have hfront := complete_armFront hpattern
  have hspaces := spaces_append hindent spaces_indentation
  have hinline : SameUpTo none (rustTokens (armFront pattern) ++ (rustTokens body ++ [comma]))
      (program [indent ++ pattern ++ " => ".toList ++ body ++ [',']]) := by
    have hline := complete_comma _ ((complete_gap hfront).2 hbody)
    have hrenders := ((Renders.single hline).indented hindent).program
    have htext : indent ++ pattern ++ " => ".toList ++ body ++ [','] =
        indent ++ (armFront pattern ++ ' ' :: body ++ [',']) := by simp [armFront]
    rw [tokens_comma _ ((complete_gap hfront).2 hbody), tokens_gap hfront,
      List.append_assoc] at hrenders
    rw [htext]
    exact hrenders
  rw [matchArm]
  split
  · exact .inl hinline
  · split
    · exact .inl hinline
    · have hblock := (Renders.single hbody).indented hspaces
      exact .inr (arm_block hindent hpattern hblock)

end Arms

@[simp] theorem width_append (a b : Text) : width (a ++ b) = width a + width b := by
  simp [width]

/-- The suffix of an arm: none after a plain head, or what closes the enclosing call. -/
def ArmBuilt (head inner : Text) : Prop :=
  '(' ∉ head ∧ inner = [] ∨ ∃ outer path rest, Enclosed head inner outer path rest

theorem ArmBuilt.built {head inner : Text} (h : ArmBuilt head inner) : Built head inner := by
  rcases h with ⟨hplain, -⟩ | hnested
  · exact .inl hplain
  · exact .inr hnested

theorem cut_before {front rest outer path : Text} (hrest : '(' ∉ rest)
    (h : front ++ rest = outer ++ '(' :: path) : ∃ within, path = within ++ rest := by
  rcases List.append_eq_append_iff.1 h with ⟨within, hwithin⟩ | ⟨within, hwithin⟩
  · have hmem : '(' ∈ rest := by
      rw [hwithin.2]
      simp
    exact absurd hmem hrest
  · cases within with
    | nil =>
      have hmem : '(' ∈ rest := by
        rw [← List.nil_append rest, ← hwithin.2]
        exact List.mem_cons_self ..
      exact absurd hmem hrest
    | cons c within =>
      obtain ⟨-, htail⟩ := List.cons.inj hwithin.2
      exact ⟨within, htail⟩

section CallArm

variable {indent pattern head inner : Text} {args : List Text}

theorem withoutComma_append (inner : Text) : withoutComma (inner ++ [',']) = inner := by
  simp [withoutComma]

theorem body_of_flattened (hplain : '(' ∉ head) {lines : List Text}
    (h : flattenedCall indent (pattern ++ " => ".toList ++ head) args [','] = some lines) :
    lines.length = 3 ∧ (callLines (indent ++ indentation) head args []).length = 1 := by
  rw [flattenedCall] at h
  split at h
  · cases h
  · rename_i outer path hcut
    simp only [Option.ite_none_right_eq_some, Option.some.injEq] at h
    obtain ⟨⟨hjoined, -, hinner⟩, rfl⟩ := h
    have hrest : '(' ∉ " => ".toList ++ head := by
      intro hmem
      rcases List.mem_append.1 hmem with hmem | hmem
      · revert hmem
        decide
      · exact hplain hmem
    have hwhole := cutLast_some hcut
    rw [List.append_assoc] at hwhole
    obtain ⟨within, rfl⟩ := cut_before hrest hwhole
    have hfits : callFits (indent ++ indentation) head args [] = true := by
      have henclosing : width (enclosing head args) = 0 := by
        rw [enclosing, cutLast_none hplain]
        rfl
      have hline : width (inlineCall (indent ++ indentation) head args []) ≤ maxWidth := by
        have htext : callText (within ++ (" => ".toList ++ head)) args [','] =
            within ++ " => ".toList ++ (callText head args [] ++ [',']) := by simp [callText]
        rw [htext] at hinner
        simp only [inlineCall, width_append] at hinner ⊢
        omega
      simp [callFits, hjoined, henclosing, hline]
    refine ⟨rfl, ?_⟩
    rw [callLines, if_pos hfits]
    rfl

theorem callArm_same (hindent : ∀ c ∈ indent, c = ' ') (hpattern : IsComplete pattern)
    (hhead : IsComplete head) (hargs : ∀ text ∈ args, WholeText text) (hinner : IsComplete inner)
    (h : ArmBuilt head inner) :
    SameArm (rustTokens (armFront pattern)) (rustTokens (callText head args inner))
      (program (callArm indent pattern head args (inner ++ [',']))) := by
  have hfront := complete_armFront hpattern
  have hspaces := spaces_append hindent spaces_indentation
  have hfull : IsComplete (pattern ++ " => ".toList ++ head) := by
    rw [arm_text]
    exact (complete_gap hfront).2 hhead
  have hbody := callLines_renders h.built hspaces hhead hargs hinner
  have htokens : rustTokens (callText (pattern ++ " => ".toList ++ head) args (inner ++ [','])) =
      rustTokens (armFront pattern) ++ (rustTokens (callText head args inner) ++ [comma]) := by
    rw [(call_tokens hfull hargs (complete_comma inner hinner)).2, tokens_comma inner hinner,
      arm_text, tokens_gap hfront, (call_tokens hhead hargs hinner).2]
    simp
  rw [callArm, withoutComma_append]
  dsimp only
  -- the call on the line of the arm, unless the block is taken
  have harm (hblock : (callLines indent (pattern ++ " => ".toList ++ head) args
        (inner ++ [','])).length = 1 ∨
      (callLines (indent ++ indentation) head args inner).length ≠ 1) :
      SameUpTo none
        (rustTokens (armFront pattern) ++ (rustTokens (callText head args inner) ++ [comma]))
        (program (callLines indent (pattern ++ " => ".toList ++ head) args (inner ++ [',']))) := by
    rw [← htokens]
    refine (callLines_of hindent hfull hargs (complete_comma inner hinner)
      fun lines hlines hflat => ?_).program
    rcases h with ⟨hplain, rfl⟩ | ⟨outer, path, rest, hnested⟩
    · obtain ⟨hthree, hone⟩ := body_of_flattened hplain hflat
      rw [hlines, hthree] at hblock
      rcases hblock with hblock | hblock
      · cases hblock
      · exact absurd hone hblock
    · obtain ⟨rfl, hpath, houter, rfl⟩ := hnested
      have henclosed : Enclosed (pattern ++ " => ".toList ++ (outer ++ '(' :: path))
          (')' :: rest ++ [',']) (pattern ++ " => ".toList ++ outer) path (rest ++ [',']) := by
        refine ⟨by simp, hpath, ?_, rfl⟩
        rw [arm_text]
        exact (complete_gap hfront).2 houter
      exact flattenedCall_renders henclosed hindent hfull hargs (complete_comma _ hinner) hflat
  split
  · rename_i hone
    exact .inl (harm (.inl hone))
  · split
    · rename_i hone
      obtain ⟨line, hline⟩ := List.length_eq_one_iff.1 hone
      rw [hline] at hbody ⊢
      exact .inr (arm_block hindent hpattern hbody)
    · rename_i hne
      exact .inl (harm (.inr hne))

end CallArm

/-! ### Brackets and separators -/

/-- The bracket that a mark opens. -/
def closing : Token → Option Token
  | .mark '(' => some (.mark ')')
  | .mark '[' => some (.mark ']')
  | .mark '{' => some (.mark '}')
  | _ => none

/-- The open brackets after a token, none when it closes another than the innermost. -/
def bracket (stack : List Token) (t : Token) : Option (List Token) :=
  match closing t with
  | some close => some (close :: stack)
  | none =>
    if Closes t then (if stack.head? = some t then some stack.tail else none) else some stack

def nesting (stack : List Token) (ts : List Token) : Option (List Token) := ts.foldlM bracket stack

/-- Each comma follows the end of an item. -/
def Separated : Option Token → List Token → Prop
  | _, [] => True
  | previous, t :: ts =>
    (t = comma → ∃ last, previous = some last ∧ Ends last) ∧ Separated (some t) ts

section Same

variable {previous : Option Token} {xs ys : List Token}

theorem SameUpTo.nesting (h : SameUpTo previous xs ys) (stack : List Token) :
    nesting stack xs = nesting stack ys := by
  induction h generalizing stack with
  | nil previous => rfl
  | cons previous t _ ih => exact congrArg (bracket stack t >>= ·) (funext ih)
  | separate last close _ _ _ ih => exact congrArg (bracket stack close >>= ·) (funext ih)

theorem SameUpTo.separated (h : SameUpTo previous xs ys) :
    Separated previous xs ↔ Separated previous ys := by
  induction h with
  | nil previous => exact Iff.rfl
  | cons previous t _ ih => exact and_congr_right fun _ => ih
  | separate last close ends closes _ ih =>
    have hclose : close ≠ comma := by
      rintro rfl
      revert closes
      decide
    simp [Separated, hclose, ih, ends]

theorem SameUpTo.sublist (h : SameUpTo previous xs ys) : xs.Sublist ys := by
  induction h with
  | nil previous => exact .slnil
  | cons previous t _ ih => exact ih.cons_cons t
  | separate last close _ _ _ ih => exact (ih.cons_cons close).cons comma

end Same

/-! ### Every layout -/

/-- The layouts of values, constants, calls and arms are the inline texts up to trailing commas and
the braces of an arm, whatever the widths; and what is so related has its brackets balanced alike,
no separator lost and none that does not follow an item. -/
theorem layouts_same :
    (∀ (v : Value) (depth column trail : ℕ), Whole v →
      SameUpTo none (rustTokens (inlineOf v)) (program (renderValue depth column trail v))) ∧
    (∀ (visibility name type : Text) (v : Value), IsComplete (declared visibility name type) →
      Whole v → SameUpTo none (rustTokens (constPrefix visibility name type ++ inlineOf v ++ [';']))
        (program (constItem visibility name type v))) ∧
    (∀ (indent head : Text) (args : List Text) (suffix : Text), (∀ c ∈ indent, c = ' ') →
      Built head suffix → IsComplete head → (∀ text ∈ args, WholeText text) → IsComplete suffix →
      SameUpTo none (rustTokens (callText head args suffix))
        (program (callLines indent head args suffix))) ∧
    (∀ (indent pattern body : Text), (∀ c ∈ indent, c = ' ') → IsComplete pattern →
      IsComplete body → SameArm (rustTokens (armFront pattern)) (rustTokens body)
        (program (matchArm indent pattern body))) ∧
    (∀ (indent pattern head : Text) (args : List Text) (inner : Text), (∀ c ∈ indent, c = ' ') →
      IsComplete pattern → IsComplete head → (∀ text ∈ args, WholeText text) →
      IsComplete inner → ArmBuilt head inner →
      SameArm (rustTokens (armFront pattern)) (rustTokens (callText head args inner))
        (program (callArm indent pattern head args (inner ++ [','])))) ∧
    ∀ xs ys : List Token, SameUpTo none xs ys →
      nesting [] xs = nesting [] ys ∧ (Separated none xs ↔ Separated none ys) ∧ xs.Sublist ys ∧
        xs.filter (· ≠ comma) = ys.filter (· ≠ comma) := by
  refine ⟨fun v depth column trail h => (renderValue_renders depth column trail v h).program,
    fun visibility name type v hdeclared h =>
      (constItem_renders visibility name type v hdeclared h).program,
    fun indent head args suffix hindent h hhead hargs hsuffix =>
      (callLines_renders h hindent hhead hargs hsuffix).program,
    fun indent pattern body hindent hpattern hbody => matchArm_same hindent hpattern hbody,
    fun indent pattern head args inner hindent hpattern hhead hargs hinner h =>
      callArm_same hindent hpattern hhead hargs hinner h,
    fun xs ys h => ⟨h.nesting [], h.separated, h.sublist, h.filter⟩⟩

/-- A long name makes the flattened form of a nested call, the broken form of a value and the block
of an arm with a payload. -/
theorem layouts_same_long :
    (program (callLines [] (List.replicate 90 'x' ++ "(yyyyyyyyyyyyyyyy".toList) ["a".toList]
        ");".toList)).count comma = 1 ∧
      SameUpTo none
        (rustTokens (callText (List.replicate 90 'x' ++ "(yyyyyyyyyyyyyyyy".toList) ["a".toList]
          ");".toList))
        (program (callLines [] (List.replicate 90 'x' ++ "(yyyyyyyyyyyyyyyy".toList) ["a".toList]
          ");".toList)) ∧
      SameUpTo none (rustTokens (inlineOf (.slice [.atom "1".toList, .atom "2".toList])))
        (program (renderValue 0 97 0 (.slice [.atom "1".toList, .atom "2".toList]))) ∧
      SameArm (rustTokens (armFront (List.replicate 90 'x' ++ "(payload)".toList)))
        (rustTokens (callText "serialize".toList ["a".toList] []))
        (program (callArm [] (List.replicate 90 'x' ++ "(payload)".toList) "serialize".toList
          ["a".toList] ([] ++ [',']))) := by
  have hatom (c : Char) (hc : c ∈ ['1', '2', 'a']) : WholeText [c] := by
    simp only [List.mem_cons, List.not_mem_nil, or_false] at hc
    rcases hc with rfl | rfl | rfl
    · exact ⟨by decide, .run ['1'], by decide, by decide⟩
    · exact ⟨by decide, .run ['2'], by decide, by decide⟩
    · exact ⟨by decide, .run ['a'], by decide, by decide⟩
  have hargs : ∀ text ∈ ["a".toList], WholeText text :=
    List.forall_mem_singleton.2 (hatom 'a' (by decide))
  have hbuilt : Built (List.replicate 90 'x' ++ "(yyyyyyyyyyyyyyyy".toList) ");".toList :=
    .inr ⟨List.replicate 90 'x', "yyyyyyyyyyyyyyyy".toList, [';'], rfl, by decide,
      by decide +kernel, rfl⟩
  refine ⟨by decide +kernel,
    layouts_same.2.2.1 [] _ _ _ (by simp) hbuilt (by decide +kernel) hargs (by decide),
    layouts_same.1 _ 0 97 0 ⟨hatom '1' (by decide), hatom '2' (by decide), trivial⟩,
    layouts_same.2.2.2.2.1 [] _ _ _ [] (by simp) (by decide +kernel) (by decide) hargs (by decide)
      (.inl ⟨by decide, rfl⟩)⟩

end FilamentCore.Backends.RustFormat
