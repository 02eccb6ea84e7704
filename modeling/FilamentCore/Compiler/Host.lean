import FilamentCore.Packages.Version

/-!
# The reads of the compiler host (src/compiler/host.mjs)

`within`, `allowRead`, `isDirectory`, `readDir` and `walk`, over a file system whose links may form
any graph.
-/

namespace FilamentCore.Compiler.HostReads
open FilamentCore.Packages (codeUnits)

/-! ### Paths -/

abbrev Text := List Char

def dots : Text := ['.', '.']

def Proper (name : Text) : Prop := name ∉ [[], ['.'], dots] ∧ '/' ∉ name

instance (name : Text) : Decidable (Proper name) := inferInstanceAs (Decidable (_ ∧ _))

abbrev Segment := { name : Text // Proper name }

abbrev Path := List Segment

def texts (path : Path) : List Text := path.map Subtype.val

/-- `segments.join("/")`. -/
def joined (segments : List Text) : Text := ['/'].intercalate segments

/-- The segments of `path.relative`: up from what the two do not share, and down. -/
def relativeSegments : Path → Path → List Text
  | [], target => texts target
  | source, [] => List.replicate source.length dots
  | s :: source, t :: target =>
    if s = t then relativeSegments source target
    else List.replicate (source.length + 1) dots ++ texts (t :: target)

/-- `path.relative(source, target)` of absolute paths. -/
def relative (source target : Path) : Text := joined (relativeSegments source target)

/-- The segments that `path.resolve` leaves of a base and a relative path. -/
def resolveSegments (base : List Text) : List Text → List Text
  | [] => base
  | segment :: segments =>
    if segment = dots then resolveSegments base.dropLast segments
    else if segment = [] ∨ segment = ['.'] then resolveSegments base segments
    else resolveSegments (base ++ [segment]) segments

def absolute (segments : List Text) : Text := '/' :: joined segments

/-- `String(path).split(/[\\/]/).join("/")`. -/
def toPosix (text : Text) : Text := text.map fun c => if c = '\\' then '/' else c

def within (parent child : Path) : Bool :=
  if child = parent then true
  else
    let rel := relative parent child
    decide (rel ≠ []) && !dots.isPrefixOf rel &&
      !dots.isPrefixOf (absolute (resolveSegments (texts parent) (relativeSegments parent child)))

/-! ### The file system -/

/-- The real path of each path that names something, and the names that the directory at a real
path holds; a link without a target is held and names nothing. -/
structure FileSystem where
  real : Path → Option Path
  directory : Path → Option (List Segment)
  /-- A name is resolved in the directory, by whichever path. -/
  real_child : ∀ path target names name, real path = some target →
    directory target = some names → name ∈ names →
    real (path ++ [name]) = real (target ++ [name])
  absent : ∀ path, real path = none → directory path = none
  nodup : ∀ path names, directory path = some names → names.Nodup
  directories : List Path
  finite : ∀ path, (directory path).isSome → path ∈ directories

inductive Enumeration
  | ascending | descending
  deriving DecidableEq

/-- `names.sort(...)`, by code units. -/
def sortNames (names : List Segment) : List Segment :=
  names.insertionSort fun left right => codeUnits left.val ≤ codeUnits right.val

def enumerated (order : Enumeration) (names : List Segment) : List Segment :=
  match order with
  | .ascending => sortNames names
  | .descending => (sortNames names).reverse

def sortTexts (texts : List Text) : List Text :=
  texts.insertionSort fun left right => codeUnits left ≤ codeUnits right

structure Host where
  files : FileSystem
  readRoots : List Path

namespace Host

variable (host : Host)

def realOf (path : Path) : Path := (host.files.real path).getD path

def allowRead (path : Path) : Except Text Path :=
  let real := host.realOf path
  if host.readRoots.any (within · real) then .ok real else .error (toPosix (absolute (texts real)))

def isDirectory (path : Path) : Except Text Bool :=
  (host.allowRead path).map fun real => (host.files.directory real).isSome

/-- The names of a directory in the declared order. -/
def readDir (order : Enumeration) (path : Path) : Except Text (List Segment) :=
  (host.allowRead path).map fun real =>
    enumerated order ((host.files.directory real).getD [])

/-! ### The walk -/

structure State where
  seen : List Path
  out : List Text

variable (order : Enumeration) (root : Path)

def visitNames (visit : Path → State → Option (Except Text State)) (current : Path) :
    List Segment → State → Option (Except Text State)
  | [], s => some (.ok s)
  | name :: names, s =>
    let child := current ++ [name]
    match host.isDirectory child with
    | .error refusal => some (.error refusal)
    | .ok true =>
      match visit child s with
      | some (.ok s') => visitNames visit current names s'
      | other => other
    | .ok false =>
      visitNames visit current names { s with out := s.out ++ [toPosix (relative root child)] }

/-- `visit(current)`, none when the fuel ends. -/
def visit : ℕ → Path → State → Option (Except Text State)
  | 0, _, _ => none
  | fuel + 1, current, s =>
    let real := host.realOf current
    if real ∈ s.seen then some (.ok s)
    else
      match host.readDir order current with
      | .error refusal => some (.error refusal)
      | .ok names =>
        host.visitNames root (visit fuel) current names { s with seen := real :: s.seen }

/-- `walk(path)` within the fuel. -/
def walkWithin (fuel : ℕ) (order : Enumeration) (path : Path) : Option (Except Text (List Text)) :=
  match host.isDirectory path with
  | .error refusal => some (.error refusal)
  | .ok false => some (.ok [])
  | .ok true =>
    (host.visit order path fuel path ⟨[], []⟩).map fun result =>
      result.map fun s => sortTexts s.out

/-- The walk ends with the result. -/
def Returns (order : Enumeration) (path : Path) (result : Except Text (List Text)) : Prop :=
  ∃ fuel, host.walkWithin fuel order path = some result

end Host

end FilamentCore.Compiler.HostReads
