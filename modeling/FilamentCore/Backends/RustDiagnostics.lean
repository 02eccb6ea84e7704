import FilamentCore.Compiler.Diagnostics

/-!
# Diagnostics of the Rust backend (src/compiler/backends/rust-serde/diagnostics.mjs)

The closed registry, the order diagnostics are reported in, and the limit on their number.
-/

namespace FilamentCore.Backends.RustSerde
open FilamentCore.Packages (byCodePoint)
open FilamentCore.Compiler (collapseSpaces)

/-! ### The registry -/

inductive Code where
  | unsupportedConstruct | unsupportedPattern | unsupportedScalar | unsupportedMultiplicity
  | payloadOnEnumVariant | unorderedSubject | unrepresentableDefaultValue | unknownFormat
  | unrenderableName | nameCollision | unsafeOutputRoot | limitExceeded | declaredLoss
  | unknownMemberSurfaced | diagnosticLimitReached | unknownRequiredExtension
  | constraintNotApplicable | invalidOperand | unresolvedTypeRef | undeclaredLoss
  deriving DecidableEq, Repr

/-- The entries `advisory` registers; every other one blocks. -/
def Code.blocking : Code → Bool
  | .declaredLoss | .unknownMemberSurfaced | .diagnosticLimitReached => false
  | _ => true

def Code.severity (code : Code) : String := if code.blocking then "error" else "warning"

/-- The reader owns the codes of `IR_SHAPE`. -/
def Code.ofReader : Code → Bool
  | .unknownRequiredExtension | .constraintNotApplicable | .invalidOperand | .unresolvedTypeRef
  | .undeclaredLoss => true
  | _ => false

def Code.name : Code → String
  | .unsupportedConstruct => "UNSUPPORTED_CONSTRUCT"
  | .unsupportedPattern => "UNSUPPORTED_PATTERN"
  | .unsupportedScalar => "UNSUPPORTED_SCALAR"
  | .unsupportedMultiplicity => "UNSUPPORTED_MULTIPLICITY"
  | .payloadOnEnumVariant => "PAYLOAD_ON_ENUM_VARIANT"
  | .unorderedSubject => "UNORDERED_SUBJECT"
  | .unrepresentableDefaultValue => "UNREPRESENTABLE_DEFAULT_VALUE"
  | .unknownFormat => "UNKNOWN_FORMAT"
  | .unrenderableName => "UNRENDERABLE_NAME"
  | .nameCollision => "NAME_COLLISION"
  | .unsafeOutputRoot => "UNSAFE_OUTPUT_ROOT"
  | .limitExceeded => "LIMIT_EXCEEDED"
  | .declaredLoss => "DECLARED_LOSS"
  | .unknownMemberSurfaced => "UNKNOWN_MEMBER_SURFACED"
  | .diagnosticLimitReached => "DIAGNOSTIC_LIMIT_REACHED"
  | .unknownRequiredExtension => "UNKNOWN_REQUIRED_EXTENSION"
  | .constraintNotApplicable => "CONSTRAINT_NOT_APPLICABLE"
  | .invalidOperand => "INVALID_OPERAND"
  | .unresolvedTypeRef => "UNRESOLVED_TYPE_REF"
  | .undeclaredLoss => "UNDECLARED_LOSS"

def Code.text (code : Code) : String :=
  (if code.ofReader then "agent-ix.semantic-ir." else "agent-ix.rust-backend.") ++ code.name

def Code.owner (code : Code) : String :=
  if code.ofReader then "ix://agent-ix/filament-core-data/semantic-ir"
  else "ix://agent-ix/filament-core-data/rust-backend"

/-! ### Diagnostics -/

structure Locus where
  sourceIdentity : String
  path : String
  startLine : ℕ
  startColumn : ℕ
  deriving DecidableEq, Repr

structure Diagnostic where
  code : Code
  severity : String
  message : String
  owner : String
  blocking : Bool
  locus : Option Locus
  deriving DecidableEq, Repr

def diagnostic (code : Code) (message : String) (locus : Option Locus) : Diagnostic :=
  { code, severity := code.severity, message, owner := code.owner, blocking := code.blocking,
    locus }

def maxMessageFragment : ℕ := 120

/-- `fragment(value)`: cut on a code point. -/
def fragment (value : String) : String :=
  let text := collapseSpaces false value.toList
  if text.length ≤ maxMessageFragment then String.ofList text
  else String.ofList (text.take (maxMessageFragment - 1) ++ ['…'])

def hasBlocking (list : List Diagnostic) : Bool := list.any (·.blocking)

/-! ### Order and limit -/

/-- The comparison of two sort keys: located first, then path, line, column, code, message. -/
def compareKeys (left right : Diagnostic) : Ordering :=
  let located : Ordering :=
    match left.locus, right.locus with
    | some l, some r =>
      (byCodePoint l.path r.path).then
        ((compare l.startLine r.startLine).then (compare l.startColumn r.startColumn))
    | some _, none => .lt
    | none, some _ => .gt
    | none, none => .eq
  located.then
    ((byCodePoint left.code.text right.code.text).then (byCodePoint left.message right.message))

/-- `sortDiagnostics`: `sort` is stable. -/
def sortDiagnostics (list : List Diagnostic) : List Diagnostic :=
  list.insertionSort fun left right => (compareKeys left right).isLE = true

def limitMessage (max length : ℕ) : String :=
  "diagnostic limit " ++ toString max ++ " reached; " ++ toString (length - max) ++
    " further diagnostics were not reported"

def applyDiagnosticLimit (list : List Diagnostic) (max : Option ℕ) : List Diagnostic :=
  let sorted := sortDiagnostics list
  match max with
  | none => sorted
  | some max =>
    if sorted.length ≤ max then sorted
    else sorted.take max ++
      [diagnostic .diagnosticLimitReached (limitMessage max sorted.length) none]

/-! ### What the limit keeps -/

theorem hasBlocking_perm {l m : List Diagnostic} (h : l.Perm m) : hasBlocking l = hasBlocking m :=
  h.any_eq

theorem sortDiagnostics_perm (list : List Diagnostic) : (sortDiagnostics list).Perm list :=
  List.perm_insertionSort ..

theorem hasBlocking_sort (list : List Diagnostic) :
    hasBlocking (sortDiagnostics list) = hasBlocking list :=
  hasBlocking_perm (sortDiagnostics_perm list)

def advisoryLead (list : List Diagnostic) : ℕ := (sortDiagnostics list).findIdx (·.blocking)

theorem hasBlocking_take {list : List Diagnostic} {n : ℕ} (h : hasBlocking list = true) :
    hasBlocking (list.take n) = true ↔ list.findIdx (·.blocking) < n := by
  rw [hasBlocking, List.any_eq_true] at h ⊢
  constructor
  · intro ⟨d, hd, hb⟩
    obtain ⟨i, hi, rfl⟩ := List.mem_take_iff_getElem.1 hd
    by_contra hlt
    have hno : ¬(list[i].blocking = true) := by
      have h := @List.not_of_lt_findIdx _ (·.blocking) list i (by omega)
      simpa using h
    exact hno hb
  · intro hn
    have hlt : list.findIdx (·.blocking) < list.length := List.findIdx_lt_length.2 h
    exact ⟨list[list.findIdx (·.blocking)], List.mem_take_iff_getElem.2
      ⟨_, by omega, rfl⟩, List.findIdx_getElem⟩

theorem hasBlocking_limit (list : List Diagnostic) (max : Option ℕ) :
    hasBlocking (applyDiagnosticLimit list max) = hasBlocking list ↔
      (hasBlocking list = true → ∀ n ∈ max, advisoryLead list < n) := by
  cases max with
  | none =>
    rw [applyDiagnosticLimit, hasBlocking_sort]
    exact iff_of_true rfl fun _ n hn => (nomatch hn)
  | some n =>
    have hadded (l : List Diagnostic) (m : String) :
        hasBlocking (l ++ [diagnostic .diagnosticLimitReached m none]) = hasBlocking l := by
      simp [hasBlocking, diagnostic, Code.blocking]
    cases hb : hasBlocking list with
    | false =>
      refine iff_of_true ?_ fun h => (nomatch h)
      rw [applyDiagnosticLimit]
      split
      · rw [hasBlocking_sort, hb]
      · rw [hadded, Bool.eq_false_iff]
        intro htrue
        obtain ⟨d, hd, hd'⟩ := List.any_eq_true.1 htrue
        have hany : hasBlocking (sortDiagnostics list) = true :=
          List.any_eq_true.2 ⟨d, List.mem_of_mem_take hd, hd'⟩
        rw [hasBlocking_sort, hb] at hany
        cases hany
    | true =>
      have hs : hasBlocking (sortDiagnostics list) = true := by rw [hasBlocking_sort, hb]
      have hlead : advisoryLead list < n ↔
          hasBlocking ((sortDiagnostics list).take n) = true := (hasBlocking_take hs).symm
      simp only [Option.mem_def, Option.some.injEq, forall_eq', forall_const, hlead]
      rw [applyDiagnosticLimit]
      split
      · rename_i hlen
        rw [List.take_of_length_le hlen]
      · rw [hadded]

end FilamentCore.Backends.RustSerde
