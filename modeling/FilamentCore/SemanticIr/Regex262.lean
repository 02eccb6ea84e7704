import FilamentCore.SemanticIr.Number

/-!
# The syntax of patterns (crates/semantic-ir/src/regex262.rs)

Whether a text parses as an ECMA-262 pattern. A parser step takes the characters left and
returns those after it, or `none` when it refuses.
-/

namespace FilamentCore.SemanticIr.Regex262

/-- A named group: consume up to `>`. -/
def groupName : List Char → Option (List Char)
  | [] => none
  | c :: cs => if c = '>' then some cs else groupName cs

/-- `?:`, `?=`, `?!`, `?<=`, `?<!`, `?<name>` after an opening parenthesis. -/
def groupSpecifier : List Char → Option (List Char)
  | '?' :: cs =>
    match cs with
    | ':' :: cs => some cs
    | '=' :: cs => some cs
    | '!' :: cs => some cs
    | '<' :: '=' :: cs => some cs
    | '<' :: '!' :: cs => some cs
    | '<' :: cs => groupName cs
    | _ => none
  | cs => some cs

/-- The members of a character class up to its `]`. -/
def classMembers : List Char → Option (List Char)
  | [] => none
  | ']' :: cs => some cs
  | '\\' :: [] => none
  | '\\' :: _ :: cs => classMembers cs
  | _ :: cs => classMembers cs

def characterClass : List Char → Option (List Char)
  | '^' :: cs => classMembers cs
  | cs => classMembers cs

def lazyMark : List Char → List Char
  | '?' :: cs => cs
  | cs => cs

def closeBraces (cs : List Char) : Option (List Char) :=
  let rest := match cs with
    | ',' :: cs => cs.dropWhile isAsciiDigit
    | cs => cs
  match rest with
  | '}' :: cs => some cs
  | _ => none

/-- A quantifier when one is there; a brace that is none is a literal. -/
def quantifier (cs : List Char) : List Char :=
  match cs with
  | '*' :: rest => lazyMark rest
  | '+' :: rest => lazyMark rest
  | '?' :: rest => lazyMark rest
  | '{' :: rest =>
    if !(rest.head?.any isAsciiDigit) then cs
    else
      match closeBraces (rest.dropWhile isAsciiDigit) with
      | some rest => lazyMark rest
      | none => cs
  | _ => cs

/-- A quantifier cannot follow an assertion. -/
def afterAssertion (cs : List Char) : Option (List Char) :=
  match cs with
  | '*' :: _ => none
  | '+' :: _ => none
  | '?' :: _ => none
  | _ => some cs

mutual

def disjunction : ℕ → List Char → Option (List Char)
  | 0, _ => none
  | depth + 1, cs =>
    match alternative depth cs with
    | none => none
    | some ('|' :: rest) => disjunction depth rest
    | some rest => some rest

def alternative : ℕ → List Char → Option (List Char)
  | 0, _ => none
  | depth + 1, cs =>
    match cs with
    | [] => some cs
    | '|' :: _ => some cs
    | ')' :: _ => some cs
    | _ =>
      match term depth cs with
      | none => none
      | some rest => alternative depth rest

def term : ℕ → List Char → Option (List Char)
  | 0, _ => none
  | depth + 1, cs =>
    match cs with
    | [] => none
    | '^' :: rest => afterAssertion rest
    | '$' :: rest => afterAssertion rest
    | '(' :: rest =>
      match (groupSpecifier rest).bind (disjunction depth) with
      | some (')' :: rest) => some (quantifier rest)
      | _ => none
    | ')' :: _ => none
    | '[' :: rest => (characterClass rest).map quantifier
    | '\\' :: [] => none
    | '\\' :: _ :: rest => some (quantifier rest)
    | '*' :: _ => none
    | '+' :: _ => none
    | '?' :: _ => none
    | _ :: rest => some (quantifier rest)

end

/-- `compiles(pattern)`. Each term takes a character, and a step into a term or a group is at
most three calls deep. -/
def compiles (pattern : String) : Bool :=
  let cs := pattern.toList
  disjunction (3 * cs.length + 3) cs == some []

end FilamentCore.SemanticIr.Regex262
