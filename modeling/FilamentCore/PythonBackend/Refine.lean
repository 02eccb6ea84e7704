import FilamentCore.Library.OrderedMap
import Mathlib.Data.List.Sort
import Mathlib.Data.List.Basic

/-!
# Completion of the generated classes (python_backend/runner/constructs.py)

`refine` turns the generated class of an abstract type into an `abc.ABC` under its direct
abstract supertypes, and registers every other class with all the abstract types above it.
-/

namespace FilamentCore.PythonBackend.Refine
open Library

/-! ### Names -/

def keywords : List String :=
  ["False", "None", "True", "and", "as", "assert", "async", "await", "break", "class", "continue",
    "def", "del", "elif", "else", "except", "finally", "for", "from", "global", "if", "import",
    "in", "is", "lambda", "nonlocal", "not", "or", "pass", "raise", "return", "try", "while",
    "with", "yield"]

/-- What `re.split(r"[^0-9A-Za-z]+", text)` leaves that is not empty. -/
def words (text : String) : List (List Char) :=
  (text.toList.splitOnP fun c => !c.isAlphanum).filter fun word => !word.isEmpty

/-- `word[:1].upper() + word[1:]`. -/
def capitalized : List Char → List Char
  | [] => []
  | c :: word => c.toUpper :: word

inductive Error
  /-- `the type {title!r} derives no Python class name`. -/
  | noClassName (title : String)
  /-- `{holder} holds the abstract type {held}, which has no value of its own`. -/
  | holdsAbstract (holder held : String)
  /-- `the generated source declares no class {name}`. -/
  | noClass (name : String)
  /-- `the generated source imports nothing from pydantic`. -/
  | noPydantic
  /-- `the generated source has no from __future__ import to follow`. -/
  | noFuture
  /-- `the generated source imports nothing to place an import beside`. -/
  | noImport
  /-- `the identity field {field} of {name} is no attribute of its class`. -/
  | noField (field name : String)
  /-- `the generated class {name} is neither a pydantic model nor a dataclass`. -/
  | noProfile (name : String)
  /-- A `KeyError`. -/
  | key (key : String)

def className (title : String) : Except Error String :=
  let name := ((words title).map capitalized).flatten
  match name with
  | [] => .error (.noClassName title)
  | first :: _ =>
    if first.isDigit = true ∨ String.ofList name ∈ keywords then .error (.noClassName title)
    else .ok (String.ofList name)

/-- `_module_name`: the runs of word characters, joined. -/
def moduleName (document : String) : String :=
  String.ofList (List.intercalate ['_'] (words
    (if document.endsWith ".json" then (document.dropEnd 5).toString else document)))

/-! ### Documents -/

structure Document where
  /-- `x-agent-ix-semantic-id`. -/
  semanticId : Option String
  title : Option String
  /-- The construct kind, by its name. -/
  kind : Option String
  /-- `x-agent-ix-abstract`. -/
  isAbstract : Bool
  /-- `x-agent-ix-supertypes`. -/
  supertypes : List String
  /-- `x-agent-ix-identity-fields`. -/
  identityFields : List String
  readOnly : Bool
  /-- Every `$ref` under `properties`, in document order. -/
  refs : List String

abbrev Documents := OrderedMap String Document

def sortedItems {ν : Type*} (items : OrderedMap String ν) : List (String × ν) :=
  items.entries.insertionSort fun a b => a.1 ≤ b.1

/-- `sorted(set(names))`. -/
def sortedSet (names : List String) : List String :=
  names.dedup.insertionSort (· ≤ ·)

/-! ### Generated modules -/

structure ImportedName where
  name : String
  bound : String
deriving DecidableEq

/-- `import names` where `level` is none, else `from` that many dots and `module`. -/
structure Import where
  level : Option ℕ
  module : String
  names : List ImportedName
deriving DecidableEq

/-- `ast.unparse` of a `from` import. -/
def Import.text (statement : Import) : String :=
  "from " ++ String.ofList (List.replicate (statement.level.getD 0) '.') ++ statement.module ++
    " import " ++ ", ".intercalate (statement.names.map fun one =>
      if one.bound = one.name then one.name else one.name ++ " as " ++ one.bound)

/-- An annotated field and the names its annotation reads, without the metadata of `Annotated`. -/
structure Field where
  name : String
  annotation : List String

/-- A class or a type alias. -/
structure Declared where
  name : String
  isClass : Bool
  bases : List String
  fields : List Field
  /-- The names read elsewhere in the statement. -/
  reads : List String
  isDataclass : Bool
  modelConfig : Bool
  /-- The fields that `__eq__` and `__hash__` read. -/
  equality : List String
  frozen : Bool

def Declared.used (statement : Declared) : List String :=
  statement.bases ++ statement.fields.flatMap Field.annotation ++ statement.reads

/-- A module: imports, then classes, then registrations `parent.register(child)`. -/
structure Module where
  imports : List Import
  declared : List Declared
  registered : List (String × String)

abbrev Files := OrderedMap String Module

def Declared.isClassNamed (name : String) (statement : Declared) : Bool :=
  statement.isClass && statement.name == name

def Module.classOf (source : Module) (name : String) : Except Error Declared :=
  match source.declared.find? (Declared.isClassNamed name) with
  | some node => .ok node
  | none => .error (.noClass name)

def replaceFirst (name : String) (f : Declared → Declared) : List Declared → List Declared
  | [] => []
  | one :: rest =>
    if one.isClassNamed name then f one :: rest else one :: replaceFirst name f rest

def Module.rewrite (source : Module) (name : String) (f : Declared → Declared) : Module :=
  { source with declared := replaceFirst name f source.declared }

def Import.isFuture (statement : Import) : Bool :=
  statement.level.isSome && statement.module == "__future__"

def Import.isPydantic (statement : Import) : Bool :=
  statement.level == some 0 &&
    statement.module.toList.takeWhile (· != '.') == "pydantic".toList

def importAfterPydantic (source : Module) (statement : Import) : Except Error Module :=
  if statement ∈ source.imports then .ok source
  else
    let after := (source.imports.reverse.takeWhile fun one => !one.isPydantic).reverse
    let before := (source.imports.reverse.dropWhile fun one => !one.isPydantic).reverse
    if before = [] then .error .noPydantic
    else .ok { source with imports := before ++ statement :: after }

def importStandard (source : Module) (statement : Import) : Except Error Module :=
  match source.imports.dropWhile fun one => !one.isFuture with
  | [] => .error .noFuture
  | future :: after =>
    .ok { source with
      imports := (source.imports.takeWhile fun one => !one.isFuture) ++
        future :: statement :: after }

/-- A relative import that sorts after `statement`. -/
def Import.isLater (statement one : Import) : Bool :=
  one.level.any (0 < ·) && decide (statement.text < one.text)

def importLast (source : Module) (statement : Import) : Except Error Module :=
  if statement ∈ source.imports then .ok source
  else if source.imports = [] then .error .noImport
  else .ok { source with
    imports := source.imports.takeWhile (fun one => !statement.isLater one) ++
      statement :: source.imports.dropWhile fun one => !statement.isLater one }

def Module.used (source : Module) : List String :=
  source.declared.flatMap Declared.used

/-- What `_drop_unused_imports` leaves of an import. -/
def Import.kept (used : List String) (statement : Import) : Option Import :=
  if statement.level = none ∨ statement.isFuture = true then some statement
  else
    match statement.names.filter fun one => decide (one.bound ∈ used) with
    | [] => none
    | names => some { statement with names := names }

def dropUnusedImports (source : Module) : Module :=
  { source with imports := source.imports.filterMap (Import.kept source.used) }

/-! ### Completed classes -/

def abcImport : Import :=
  ⟨some 0, "abc", [⟨"ABC", "ABC"⟩, ⟨"abstractmethod", "abstractmethod"⟩]⟩

/-- The class of abstract properties that replaces a generated class. -/
def abstractOf (bases : List String) (node : Declared) : Declared :=
  { name := node.name, isClass := true, bases := bases ++ ["ABC"], fields := [],
    reads := node.fields.flatMap fun field => "property" :: "abstractmethod" :: field.annotation,
    isDataclass := false, modelConfig := false, equality := [], frozen := false }

/-- `_abstract`. -/
def abstractClass (source : Module) (name : String) (bases : List String) :
    Except Error Module := do
  let _ ← source.classOf name
  let source ← importStandard (source.rewrite name (abstractOf bases)) abcImport
  pure (dropUnusedImports source)

def identityEquality (source : Module) (name : String) (fields : List String) :
    Except Error Module := do
  let node ← source.classOf name
  match fields.find? fun field => !node.fields.any fun one => one.name == field with
  | some field => .error (.noField field name)
  | none =>
    importAfterPydantic (source.rewrite name fun node => { node with
      equality := fields, reads := node.reads ++ ["to_json", name] })
      ⟨some 0, "pydantic_core", [⟨"to_json", "to_json"⟩]⟩

/-- `model_config` of a pydantic model that has none. -/
def configured (source : Module) (name : String) : Except Error Module :=
  importAfterPydantic
    (source.rewrite name fun node => { node with
      modelConfig := true, reads := node.reads ++ ["ConfigDict"] })
    ⟨some 0, "pydantic", [⟨"ConfigDict", "ConfigDict"⟩]⟩

/-- `_frozen`. -/
def frozenClass (source : Module) (name : String) : Except Error Module := do
  let node ← source.classOf name
  let frozen := source.rewrite name fun node => { node with frozen := true }
  if node.isDataclass then .ok frozen
  else if !node.bases.contains "BaseModel" then .error (.noProfile name)
  else if node.modelConfig then .ok frozen
  else configured frozen name

/-! ### The classes of the documents -/

/-- `_Classes`, as far as `refine` reads it. -/
structure Classes where
  byIdentity : OrderedMap String (String × String)
  title : OrderedMap String String

def path (module : String) : String := module ++ ".py"

def Classes.add (files : Files) (classes : Classes) (entry : String × Document) :
    Except Error Classes :=
  match entry.2.semanticId, entry.2.title with
  | some identity, some title => do
    let name ← className title
    let titled := { classes with title := classes.title.set identity name }
    match files.get (path (moduleName entry.1)) with
    | none => pure titled
    | some source =>
      match [name, name ++ "Model"].find? fun chosen =>
          source.declared.any fun one => one.name == chosen with
      | none => pure titled
      | some chosen => pure {
          byIdentity := classes.byIdentity.set identity (moduleName entry.1, chosen)
          title := titled.title.set identity chosen }
  | _, _ => pure classes

def classesOf (documents : Documents) (files : Files) : Except Error Classes :=
  (sortedItems documents).foldlM (Classes.add files) ⟨.empty, .empty⟩

def Classes.name (classes : Classes) (identity : String) : String :=
  (classes.title.get identity).getD identity

def Classes.of (classes : Classes) (document : Document) : Except Error String :=
  match document.semanticId with
  | none => .error (.key "x-agent-ix-semantic-id")
  | some identity => .ok (classes.name identity)

/-- `classes.by_identity[identity]`. -/
def Classes.found (classes : Classes) (identity : String) : Except Error (String × String) :=
  match classes.byIdentity.get identity with
  | none => .error (.key identity)
  | some found => .ok found

/-! ### Refinement -/

def abstractIdentities (documents : Documents) : Except Error (List String) :=
  (documents.values.filter Document.isAbstract).mapM fun document =>
    match document.semanticId with
    | none => .error (.key "x-agent-ix-semantic-id")
    | some identity => .ok identity

/-- A field type of a document that is a reference to an abstract one is refused. -/
def checkHeld (documents : Documents) (classes : Classes) (document : Document) (ref : String) :
    Except Error Unit :=
  match documents.entries.find? fun entry => "./" ++ entry.1 == ref with
  | none => .ok ()
  | some held =>
    if held.2.isAbstract then do
      let holder ← classes.of document
      let name ← classes.of held.2
      .error (.holdsAbstract holder name)
    else .ok ()

def checkDocument (documents : Documents) (classes : Classes) (entry : String × Document) :
    Except Error Unit :=
  entry.2.refs.forM (checkHeld documents classes entry.2)

def supertypes (documents : Documents) (identity : String) : List String :=
  match documents.values.find? fun one => one.semanticId == some identity with
  | none => []
  | some document => document.supertypes

/-- `ancestors`, where no call is nested deeper than the fuel. -/
def ancestorsFrom (documents : Documents) : ℕ → String → List String → List String
  | 0, _, _ => []
  | fuel + 1, identity, seen =>
    (supertypes documents identity).flatMap fun parent =>
      if parent ∈ seen then [] else parent :: ancestorsFrom documents fuel parent (parent :: seen)

/-- A nested call adds a supertype of some document to `seen`. -/
def ancestors (documents : Documents) (identity : String) : List String :=
  ancestorsFrom documents ((documents.values.flatMap Document.supertypes).length + 1) identity []

def importParents (classes : Classes) (source : Module) (parents : List String) :
    Except Error Module :=
  parents.foldlM (fun source parent => do
    let found ← classes.found parent
    importLast source ⟨some 1, found.1, [⟨found.2, found.2⟩]⟩) source

/-- The class of a construct compares by its identity fields, where it has some. -/
def comparedClass (document : Document) (name : String) (source : Module) : Except Error Module :=
  if document.kind.isSome ∧ document.identityFields ≠ [] then
    identityEquality source name document.identityFields
  else .ok source

def immutableClass (document : Document) (name : String) (source : Module) : Except Error Module :=
  if document.readOnly then frozenClass source name else .ok source

def refineModule (documents : Documents) (classes : Classes) (abstract : List String)
    (document : Document) (identity name : String) (source : Module) : Except Error Module :=
  if document.isAbstract then do
    let parents := sortedSet (document.supertypes.filter (abstract.contains ·))
    let source ← abstractClass source name (parents.map classes.name)
    importParents classes source parents
  else do
    let source ← comparedClass document name source
    let source ← immutableClass document name source
    let registered := sortedSet ((ancestors documents identity).filter (abstract.contains ·))
    let source ← importParents classes source registered
    pure { source with
      registered := source.registered ++ registered.map fun parent => (classes.name parent, name) }

def refineDocument (documents : Documents) (classes : Classes) (abstract : List String)
    (refined : Files) (entry : String × Document) : Except Error Files :=
  match entry.2.semanticId with
  | none => .ok refined
  | some identity =>
    match classes.byIdentity.get identity with
    | none => .ok refined
    | some found =>
      match refined.get (path found.1) with
      | none => .error (.key (path found.1))
      | some source => do
        let source ← refineModule documents classes abstract entry.2 identity found.2 source
        pure (refined.set (path found.1) source)

def refine (documents : Documents) (files : Files) : Except Error Files := do
  let classes ← classesOf documents files
  let abstract ← abstractIdentities documents
  (sortedItems documents).forM (checkDocument documents classes)
  (sortedItems documents).foldlM (refineDocument documents classes abstract) files

end FilamentCore.PythonBackend.Refine
