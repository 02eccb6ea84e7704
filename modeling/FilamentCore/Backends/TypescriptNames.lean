import FilamentCore.Library.OrderedMap
import FilamentCore.SemanticIr.Json

/-!
# The identifiers of the TypeScript backend
(src/compiler/backends/typescript-v1/names.mjs)

An identifier is minted of a display name and two identities that mint one are a collision. An
identity is a text, and what is not a text is no display name.
-/

namespace FilamentCore.Backends.TypescriptNames
open FilamentCore.Library
open FilamentCore.SemanticIr.Json (utf16Le)

/-! ### Reserved names -/

/-- The first group of `RESERVED_NAMES`: no declaration may take one. -/
def reservedWords : List String :=
  ["any", "as", "asserts", "await", "bigint", "boolean", "break", "case", "catch", "class",
    "const", "continue", "debugger", "declare", "default", "delete", "do", "else", "enum",
    "export", "extends", "false", "finally", "for", "function", "if", "implements", "import",
    "in", "infer", "instanceof", "interface", "is", "keyof", "let", "module", "namespace",
    "never", "new", "null", "number", "object", "package", "private", "protected", "public",
    "readonly", "return", "static", "string", "super", "switch", "symbol", "this", "throw",
    "true", "try", "type", "typeof", "undefined", "unique", "unknown", "var", "void", "while",
    "with", "yield"]

/-- The second group: what every object reaches through its prototype. -/
def prototypeMembers : List String :=
  ["__proto__", "constructor", "hasOwnProperty", "isPrototypeOf", "propertyIsEnumerable",
    "prototype", "toLocaleString", "toString", "valueOf"]

/-- The third group: what the generated package declares itself. -/
def packageNames : List String :=
  ["UNION_DISCRIMINANT", "UNKNOWN_POLICY_MARKER", "ValidationError", "ValidationResult",
    "VALIDATION_CODES", "SEMANTIC_METADATA", "TYPE_IDENTITIES", "FIELD_IDENTITIES", "TYPE_ROLES",
    "TYPE_UNKNOWN_POLICIES", "TYPE_EXTENSIONS", "FIELD_EXTENSIONS", "FIELD_UNITS",
    "RELATIONSHIPS", "OCCURRENCES", "DOCUMENT_EXTENSIONS"]

def reservedNames : List String := reservedWords ++ prototypeMembers ++ packageNames

/-! ### Minting -/

def isIdentifierPart (c : Char) : Bool :=
  (0x30 ≤ c.toNat && c.toNat ≤ 0x39) || (0x41 ≤ c.toNat && c.toNat ≤ 0x5a) ||
    (0x61 ≤ c.toNat && c.toNat ≤ 0x7a) || c.toNat == 0x5f || c.toNat == 0x24

/-- `codePoint.toString(16)`, but for zero. -/
def hexDigits (codePoint : ℕ) : List Char :=
  (Nat.digits 16 codePoint).reverse.map Nat.digitChar

def escapeCodePoint (c : Char) : List Char :=
  ['_', 'u'] ++ (hexDigits c.toNat).leftpad 4 '0'

def escaped (text : List Char) : List Char :=
  text.flatMap fun c => if isIdentifierPart c then [c] else escapeCodePoint c

def isLeadingDigit (c : Char) : Bool := 0x30 ≤ c.toNat && c.toNat ≤ 0x39

/-- `identity.split("/").pop()`. -/
def lastSegment (identity : String) : List Char :=
  (identity.toList.reverse.takeWhile (· ≠ '/')).reverse

/-- The name before the reserved ones are looked at. -/
def mintedOf (identity : String) (displayName : Option String) : List Char :=
  match escaped (displayName.getD "").toList with
  | [] => ['T', 'y', 'p', 'e'] ++ escaped (lastSegment identity)
  | c :: cs => if isLeadingDigit c then '_' :: c :: cs else c :: cs

def identifierFor (identity : String) (displayName : Option String) : String :=
  let minted := String.ofList (mintedOf identity displayName)
  if minted ∈ reservedNames then minted ++ "_" else minted

/-! ### Definitions -/

/-- What `renderingOf` answers of a type that is rendered. -/
inductive Rendering
  | scalar | record | stateMachine | interface | namespace | enum | union | alias | sequence
  | map | reference
  deriving DecidableEq

/-- What `equalityOf` answers. -/
inductive Equality
  | identity | value
  deriving DecidableEq

structure Definition where
  identity : String
  displayName : Option String
  rendering : Rendering
  equality : Option Equality
  abstract : Bool
  deriving DecidableEq

/-- A document that is admitted declares an identity once. -/
structure Document where
  types : List Definition
  distinct : (types.map Definition.identity).Nodup

/-- A member of `model.losses`. -/
structure Loss where
  code : String
  construct : String
  owner : String
  pointer : String
  detail : String
  deriving DecidableEq

def identifierCollision (owner detail : String) : Loss :=
  ⟨"agent-ix.typescript-backend.IDENTIFIER_COLLISION", "identifier-collision", owner, "/ir/types",
    detail⟩

/-! ### Reserving -/

def ordered (definitions : List Definition) : List Definition :=
  definitions.insertionSort fun left right => utf16Le left.identity right.identity = true

def mint (d : Definition) : String := identifierFor d.identity d.displayName

/-- `identifiers` after each definition is read. -/
def identifiersOf (definitions : List Definition) : OrderedMap String String :=
  (ordered definitions).foldl (fun identifiers d => identifiers.set d.identity (mint d)) .empty

/-- `claimed.push(identity)`, of the identities that mint one name. -/
def claim (byIdentifier : OrderedMap String (List String)) (d : Definition) :
    OrderedMap String (List String) :=
  byIdentifier.set (mint d) ((byIdentifier.get (mint d)).getD [] ++ [d.identity])

def byIdentifierOf (definitions : List Definition) : OrderedMap String (List String) :=
  (ordered definitions).foldl claim .empty

def collisionsOf (definitions : List Definition) : List Loss :=
  ((byIdentifierOf definitions).entries.insertionSort fun left right =>
      utf16Le left.1 right.1 = true).filterMap fun e =>
    if e.2.length < 2 then none
    else some (identifierCollision (e.2.headD "")
      (e.1 ++ " is minted by " ++ ", ".intercalate e.2))

/-! ### Legal names -/

def isIdentifier (name : String) : Bool :=
  match name.toList with
  | [] => false
  | c :: cs => isIdentifierPart c && !isLeadingDigit c && cs.all isIdentifierPart

theorem isIdentifier_append {name rest : String} (h : isIdentifier name = true)
    (hrest : rest.toList.all isIdentifierPart = true) : isIdentifier (name ++ rest) = true := by
  rw [isIdentifier] at h ⊢
  rw [String.toList_append]
  cases hn : name.toList with
  | nil => rw [hn] at h; cases h
  | cons c cs =>
    rw [hn] at h
    simp only [Bool.and_eq_true] at h
    simp only [List.cons_append, List.all_append, h, hrest, Bool.and_self]

theorem all_of_isIdentifier {name : String} (h : isIdentifier name = true) :
    name.toList.all isIdentifierPart = true := by
  rw [isIdentifier] at h
  cases hn : name.toList with
  | nil => rfl
  | cons c cs =>
    rw [hn] at h
    simp only [Bool.and_eq_true] at h
    simp only [List.all_cons, h, Bool.and_self]

theorem digitChar_part {d : ℕ} (h : d < 16) : isIdentifierPart (Nat.digitChar d) = true := by
  have hall : ∀ d : Fin 16, isIdentifierPart (Nat.digitChar d) = true := by decide
  exact hall ⟨d, h⟩

theorem escapeCodePoint_part (c : Char) : ∀ d ∈ escapeCodePoint c, isIdentifierPart d = true := by
  intro d hd
  simp only [escapeCodePoint, List.leftpad, List.mem_append, List.mem_cons, List.not_mem_nil,
    or_false, List.mem_replicate, hexDigits, List.mem_map, List.mem_reverse] at hd
  obtain (rfl | rfl) | ⟨-, rfl⟩ | ⟨n, hn, rfl⟩ := hd
  · rfl
  · rfl
  · rfl
  · exact digitChar_part (Nat.digits_lt_base (by norm_num) hn)

theorem escaped_part (text : List Char) : ∀ d ∈ escaped text, isIdentifierPart d = true := by
  intro d hd
  obtain ⟨c, -, hc⟩ := List.mem_flatMap.1 hd
  by_cases hpart : isIdentifierPart c = true
  · rw [if_pos hpart, List.mem_singleton] at hc
    rw [hc, hpart]
  · rw [if_neg hpart] at hc
    exact escapeCodePoint_part c d hc

theorem isIdentifier_minted (identity : String) (displayName : Option String) :
    isIdentifier (String.ofList (mintedOf identity displayName)) = true := by
  have hparts := escaped_part (displayName.getD "").toList
  rw [isIdentifier, String.toList_ofList, mintedOf]
  cases hcases : escaped (displayName.getD "").toList with
  | nil =>
    have hall :
        (['y', 'p', 'e'] ++ escaped (lastSegment identity)).all isIdentifierPart = true := by
      rw [List.all_append, List.all_eq_true.2 (escaped_part _)]
      rfl
    exact hall
  | cons c cs =>
    rw [hcases] at hparts
    by_cases hdigit : isLeadingDigit c = true
    · simp only [hdigit, if_true]
      exact List.all_eq_true.2 hparts
    · have hhead : isIdentifierPart c = true := hparts c (.head _)
      have htail : cs.all isIdentifierPart = true :=
        List.all_eq_true.2 fun d hd => hparts d (.tail _ hd)
      simp [hdigit, hhead, htail]

theorem isIdentifier_identifierFor (identity : String) (displayName : Option String) :
    isIdentifier (identifierFor identity displayName) = true := by
  have hminted := isIdentifier_minted identity displayName
  rw [identifierFor]
  split
  · exact isIdentifier_append hminted rfl
  · exact hminted

theorem append_notMem_reserved {name : String} (h : name ∈ reservedNames) :
    name ++ "_" ∉ reservedNames := by
  intro hmem
  have hall : ∀ s ∈ reservedNames, s.toList.getLast? = some '_' → s = "__proto__" := by decide
  have hlast : (name ++ "_").toList.getLast? = some '_' := by
    rw [String.toList_append]
    exact List.getLast?_append_of_ne_nil _ (by decide)
  have hproto : name ++ "_" = "__proto_" ++ "_" := hall _ hmem hlast
  rw [String.append_left_inj] at hproto
  rw [hproto] at h
  exact absurd h (by decide)

theorem identifierFor_notMem (identity : String) (displayName : Option String) :
    identifierFor identity displayName ∉ reservedNames := by
  rw [identifierFor]
  split
  · exact append_notMem_reserved (by assumption)
  · assumption

/-! ### Collisions -/

theorem mem_ordered {definitions : List Definition} {d : Definition} :
    d ∈ ordered definitions ↔ d ∈ definitions :=
  List.mem_insertionSort _

theorem get_identifiers {definitions : List Definition}
    (hnodup : (definitions.map Definition.identity).Nodup) {d : Definition}
    (hd : d ∈ definitions) : ∀ identifiers : OrderedMap String String,
    (definitions.foldl (fun identifiers d => identifiers.set d.identity (mint d)) identifiers).get
      d.identity = some (mint d) := by
  induction definitions using List.reverseRecOn with
  | nil => cases hd
  | append_singleton ds e ih =>
    intro identifiers
    rw [List.map_append, List.nodup_append] at hnodup
    rw [List.foldl_append, List.foldl_cons, List.foldl_nil]
    obtain hds | hde := List.mem_append.1 hd
    · have hne : d.identity ≠ e.identity :=
        hnodup.2.2 _ (List.mem_map_of_mem hds) _ (List.mem_map_of_mem (.head _))
      rw [OrderedMap.get_set_ne _ _ hne]
      exact ih hnodup.1 hds identifiers
    · rw [List.mem_singleton.1 hde, OrderedMap.get_set_self]

theorem identifiersOf_get (document : Document) {d : Definition} (hd : d ∈ document.types) :
    (identifiersOf document.types).get d.identity = some (mint d) := by
  have hperm := (List.perm_insertionSort (fun left right : Definition =>
    utf16Le left.identity right.identity = true) document.types).map Definition.identity
  exact get_identifiers (hperm.nodup_iff.2 document.distinct) (mem_ordered.2 hd) _

theorem get_claims (definitions : List Definition) (name : String)
    (byIdentifier : OrderedMap String (List String)) :
    ((definitions.foldl claim byIdentifier).get name).getD [] =
      (byIdentifier.get name).getD [] ++
        (definitions.filter fun d => mint d = name).map Definition.identity := by
  induction definitions generalizing byIdentifier with
  | nil => simp
  | cons d ds ih =>
    rw [List.foldl_cons, ih, claim, OrderedMap.get_set]
    by_cases h : name = mint d
    · simp [h]
    · have h' : mint d ≠ name := Ne.symm h
      simp [h, h']

theorem two_le_length {α : Type} {a b : α} {l : List α} (ha : a ∈ l) (hb : b ∈ l)
    (hne : a ≠ b) : 2 ≤ l.length := by
  cases l with
  | nil => cases ha
  | cons c cs =>
    cases cs with
    | nil =>
      rw [List.mem_singleton] at ha hb
      exact absurd (ha.trans hb.symm) hne
    | cons d ds =>
      simp only [List.length_cons]
      omega

/-- Without a collision no two definitions mint one name. -/
theorem mint_injective {document : Document} (h : collisionsOf document.types = [])
    {a b : Definition} (ha : a ∈ document.types) (hb : b ∈ document.types)
    (hmint : mint a = mint b) : a = b := by
  by_contra hne
  have hclaims := get_claims (ordered document.types) (mint a) .empty
  have hmema : a ∈ (ordered document.types).filter fun d => mint d = mint a :=
    List.mem_filter.2 ⟨mem_ordered.2 ha, decide_eq_true rfl⟩
  have hmemb : b ∈ (ordered document.types).filter fun d => mint d = mint a :=
    List.mem_filter.2 ⟨mem_ordered.2 hb, decide_eq_true hmint.symm⟩
  have htwo := two_le_length hmema hmemb hne
  cases hget : (byIdentifierOf document.types).get (mint a) with
  | none =>
    rw [← byIdentifierOf, hget] at hclaims
    have hzero := congrArg List.length hclaims
    simp only [Option.getD_none, OrderedMap.get_empty, List.nil_append, List.length_nil,
      List.length_map] at hzero
    omega
  | some claimed =>
    rw [← byIdentifierOf, hget] at hclaims
    have hlength := congrArg List.length hclaims
    simp only [Option.getD_some, Option.getD_none, OrderedMap.get_empty, List.nil_append,
      List.length_map] at hlength
    have hentry := ((byIdentifierOf document.types).get_eq_some_iff _ _).1 hget
    have hnone := List.filterMap_eq_nil_iff.1 h _ ((List.mem_insertionSort _).2 hentry)
    have hshort : ¬ claimed.length < 2 := by omega
    rw [if_neg hshort] at hnone
    cases hnone

end FilamentCore.Backends.TypescriptNames
