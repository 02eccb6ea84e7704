import FilamentCore.Library.JsonSchema

/-!
# Inspection of generated Python (python_backend/runner/inspect_source.py)

Every permissive annotation of a generated module is attributed to the schema node it came
from, and in `enforce` mode a package is refused when the node constrains its values, or
when a module imports what the allow-list does not carry.
-/

namespace FilamentCore.PythonBackend
open Library Library.JsonSchema

abbrev Members := List (String × Json)

/-! ### Verdicts over schema nodes -/

def allowedImportRoots : List String :=
  ["__future__", "typing", "typing_extensions", "enum", "datetime", "decimal", "uuid",
    "ipaddress", "pathlib", "collections", "dataclasses", "re", "pydantic", "msgspec"]

def permissiveNames : List String := ["Any", "object"]

def descriptiveAnnotations : List String :=
  ["x-agent-ix-semantic-id", "x-agent-ix-origin", "x-agent-ix-roles", "x-agent-ix-unit",
    "x-agent-ix-occurrences", "x-agent-ix-unknown-policy"]

def descriptiveExtensions : List String :=
  ["ix://agent-ix/semantic-core/ext/kernel-scalar", "ix://agent-ix/semantic-core/ext/doc"]

def descriptive (key : String) (value : Json) : Bool :=
  descriptiveAnnotations.contains key ||
    key == "x-agent-ix-extensions" && value.isArray && value.items.all fun extension =>
      ((extension.get "identity").bind Json.text).any descriptiveExtensions.contains

def bareContainers : List String := ["dict", "list", "Dict", "List", "Mapping"]

def metadata : List String :=
  ["title", "description", "$comment", "default", "examples", "deprecated", "$schema", "$id",
    "$anchor", "$vocabulary", "$defs", "definitions"]

/-- The keys of a node that are neither metadata nor descriptive. -/
def meaningful (node : Members) : List String :=
  (node.filter fun m => !metadata.contains m.1 && !descriptive m.1 m.2).map Prod.fst

def meaningfulOnly (node : Members) (keys : List String) : Bool :=
  (meaningful node).all keys.contains && keys.all (meaningful node).contains

def lookup (key : String) (node : Members) : Option Json := OrderedMap.lookup key node

def typedObject (node : Members) : Bool :=
  match lookup "type" node with
  | some (.str t) => t == "object"
  | _ => false

/-- `value == 0`, where `False` is a number. -/
def isZero : Json → Bool
  | .integer n => n == 0
  | .decimal q => q == 0
  | .bool b => !b
  | _ => false

def isFalse : Json → Bool
  | .bool b => !b
  | _ => false

def uninhabited (node : Members) : Bool :=
  typedObject node &&
    ((lookup "maxProperties" node).any isZero ||
      (lookup "additionalProperties" node).any isFalse &&
        (lookup "properties" node).any fun p => p.isObject && p.members.isEmpty)

def composingKeywords : List String :=
  ["properties", "additionalProperties", "patternProperties", "propertyNames", "required",
    "minProperties", "maxProperties", "unevaluatedProperties"]

/-- What `_unconstrained` says of one keyword's operand: as a schema, and, of a list, of one
of its branches. -/
structure Verdict where
  schema : Bool
  branch : Bool

/-- `_unconstrained` of an object, from the verdicts on its operands. -/
def unconstrainedMembers (node : Members) (verdicts : List (String × Verdict)) : Bool :=
  let isList := fun key => (lookup key node).any Json.isArray
  let branch := fun key => (OrderedMap.lookup key verdicts).any Verdict.branch
  if (meaningful node).isEmpty then true
  else if meaningfulOnly node ["oneOf"] && isList "oneOf" then branch "oneOf"
  else if meaningfulOnly node ["anyOf"] && isList "anyOf" then branch "anyOf"
  else if meaningfulOnly node ["type"] && typedObject node then true
  else if typedObject node && meaningfulOnly node ["type", "additionalProperties"] &&
      (lookup "additionalProperties" node).any Json.isObject then
    (OrderedMap.lookup "additionalProperties" verdicts).any Verdict.schema
  else if typedObject node && !(meaningful node).any composingKeywords.contains then true
  else uninhabited node

mutual

def unconstrained : Json → Bool
  | .bool b => b
  | .object node => unconstrainedMembers node (verdictsOf node)
  | _ => false

def verdictsOf : List (String × Json) → List (String × Verdict)
  | [] => []
  | m :: ms => verdictOf m :: verdictsOf ms

def verdictOf : String × Json → String × Verdict
  | (key, value) => (key, ⟨unconstrained value, anyUnconstrained value⟩)

def anyUnconstrained : Json → Bool
  | .array branches => someUnconstrained branches
  | _ => false

def someUnconstrained : List Json → Bool
  | [] => false
  | branch :: branches => unconstrained branch || someUnconstrained branches

end

/-! ### Schema nodes and the names derived for them -/

structure SchemaNode where
  document : String
  pointer : String
  node : Members

/-- A member name as a pointer segment. -/
def escapeSegment (key : String) : String :=
  String.ofList (key.toList.flatMap fun c =>
    if c = '~' then ['~', '0'] else if c = '/' then ['~', '1'] else [c])

def declaresProperties (node : Members) : Bool := (lookup "properties" node).any Json.isObject

mutual

def walkNodes (document pointer : String) : Json → List SchemaNode
  | .array items => walkItems document pointer 0 items
  | .object node =>
    (if declaresProperties node || pointer == "" then [⟨document, pointer, node⟩] else []) ++
      walkMembers document pointer node
  | _ => []

def walkItems (document pointer : String) : ℕ → List Json → List SchemaNode
  | _, [] => []
  | i, j :: js =>
    walkNodes document (pointer ++ "/" ++ toString i) j ++ walkItems document pointer (i + 1) js

def walkMembers (document pointer : String) : List (String × Json) → List SchemaNode
  | [] => []
  | m :: ms => walkMember document pointer m ++ walkMembers document pointer ms

def walkMember (document pointer : String) : String × Json → List SchemaNode
  | (key, j) => walkNodes document (pointer ++ "/" ++ escapeSegment key) j

end

/-- The classes of characters Python's texts and regular expressions read. -/
structure Characters where
  /-- `\d`. -/
  decimal : Char → Bool
  /-- `str.isdigit`. -/
  digit : Char → Bool

def isAlphanumeric (c : Char) : Bool := c.isAlphanum

/-- The runs of letters and digits of a text. -/
def words : List Char → List (List Char)
  | [] => []
  | c :: cs =>
    if isAlphanumeric c then
      match cs, words cs with
      | d :: _, w :: ws => if isAlphanumeric d then (c :: w) :: ws else [c] :: w :: ws
      | _, ws => [c] :: ws
    else words cs

def capitalized : List Char → List Char
  | [] => []
  | c :: cs => c.toUpper :: cs

def camel (text : String) : String := String.ofList ((words text.toList).flatMap capitalized)

def skippedSegments : List String :=
  ["properties", "$defs", "definitions", "items", "allOf", "anyOf", "oneOf", "patternProperties",
    "then", "else", "if", "not"]

/-- `pointer.split("/")`. -/
def splitSlash : List Char → List (List Char)
  | [] => [[]]
  | c :: cs =>
    if c = '/' then [] :: splitSlash cs
    else
      match splitSlash cs with
      | s :: ss => (c :: s) :: ss
      | [] => [[c]]

def namesFor (C : Characters) (pointer : String) (node : Members) : List String :=
  let titled := ((lookup "title" node).bind Json.text).toList.map camel
  let segments := ((splitSlash pointer.toList).filter fun s => !s.all C.digit).map String.ofList
  let insideItems := segments.getLast? == some "items"
  match segments.reverse.find? fun s => !skippedSegments.contains s with
  | none => titled
  | some segment =>
    let derived := camel segment
    titled ++ derived ::
      if insideItems && derived.toList.getLast? == some 's' then
        [String.ofList derived.toList.dropLast]
      else []

/-- `_declared_nodes`, before they are indexed. -/
def declaredNodes (documents : List (String × Members)) : List SchemaNode :=
  documents.flatMap fun d => walkNodes d.1 "" (.object d.2)

/-- The key `_declared_nodes` indexes a node by. -/
def propertyNames (node : Members) : List String :=
  ((lookup "properties" node).map Json.names).getD []

/-! ### Generated modules -/

/-- A node of a parsed module. A text carries what it parses to as an expression. -/
inductive Syntax where
  | name (id : String)
  | attr (value : Syntax) (name : String)
  | text (value : String) (parsed : Option Syntax)
  | constant
  | subscript (value slice : Syntax)
  | keyword (arg : Option String) (value : Syntax)
  | call (func : Syntax) (args keywords : List Syntax)
  | expr (line : ℕ) (value : Syntax)
  | importNames (line : ℕ) (names : List String)
  | importFrom (line : ℕ) (module : Option String) (level : ℕ)
  | classDef (line : ℕ) (name : String) (bases : List Syntax) (body rest : List Syntax)
  | annAssign (line column : ℕ) (target annotation : Syntax) (value : List Syntax)
  | assign (line : ℕ) (parts : List Syntax)
  | typeAlias (line : ℕ) (parts : List Syntax)
  | other (kind : String) (line : ℕ) (parts : List Syntax)

namespace Syntax

/-- Level by level. -/
def merge {α : Type} : List (List α) → List (List α) → List (List α)
  | [], ls => ls
  | ks, [] => ks
  | k :: ks, l :: ls => (k ++ l) :: merge ks ls

mutual

/-- The nodes below, by their depth. -/
def levels : Syntax → List (List Syntax)
  | attr v a => [attr v a] :: levels v
  | subscript v s => [subscript v s] :: merge (levels v) (levels s)
  | keyword a v => [keyword a v] :: levels v
  | call f as ks => [call f as ks] :: merge (levels f) (merge (levelsOf as) (levelsOf ks))
  | expr l v => [expr l v] :: levels v
  | classDef l n bs body rest =>
    [classDef l n bs body rest] :: merge (levelsOf bs) (merge (levelsOf body) (levelsOf rest))
  | annAssign l c t a v =>
    [annAssign l c t a v] :: merge (levels t) (merge (levels a) (levelsOf v))
  | assign l ps => [assign l ps] :: levelsOf ps
  | typeAlias l ps => [typeAlias l ps] :: levelsOf ps
  | other k l ps => [other k l ps] :: levelsOf ps
  | s => [[s]]

def levelsOf : List Syntax → List (List Syntax)
  | [] => []
  | s :: ss => merge (levels s) (levelsOf ss)

end

def walk (s : Syntax) : List Syntax := (levels s).flatten

def isLiteral : Syntax → Bool
  | name id => id == "Literal"
  | attr _ a => a == "Literal"
  | _ => false

mutual

/-- `_annotation_names`, with the arguments of `Literal` blanked out. -/
def annotationNames : Syntax → List String
  | name id => [id]
  | attr v a => a :: annotationNames v
  | text _ parsed => annotationNamesOf? parsed
  | constant => []
  | subscript v s =>
    if isLiteral v then ["__literal__"] else annotationNames v ++ annotationNames s
  | keyword _ v => annotationNames v
  | call f as ks => annotationNames f ++ annotationNamesOf as ++ annotationNamesOf ks
  | expr _ v => annotationNames v
  | importNames _ _ => []
  | importFrom _ _ _ => []
  | classDef _ _ bs body rest =>
    annotationNamesOf bs ++ annotationNamesOf body ++ annotationNamesOf rest
  | annAssign _ _ t a v => annotationNames t ++ annotationNames a ++ annotationNamesOf v
  | assign _ ps => annotationNamesOf ps
  | typeAlias _ ps => annotationNamesOf ps
  | other _ _ ps => annotationNamesOf ps

def annotationNamesOf? : Option Syntax → List String
  | none => []
  | some s => annotationNames s

def annotationNamesOf : List Syntax → List String
  | [] => []
  | s :: ss => annotationNames s ++ annotationNamesOf ss

end

def isBareContainer : Syntax → Bool
  | name id => bareContainers.contains id
  | _ => false

def isPermissive ( annotation : Syntax) : Bool :=
  isBareContainer annotation || (annotationNames annotation).any permissiveNames.contains

/-- The alias a `Field(alias=...)` call carries. -/
def aliasOf : Syntax → Option String
  | call (name id) _ keywords =>
    if id == "Field" then
      keywords.findSome? fun k =>
        match k with
        | keyword (some arg) (text value _) => if arg == "alias" then some value else none
        | _ => none
    else none
  | _ => none

structure AnnotatedName where
  line : ℕ
  column : ℕ
  target : String
  annotation : Syntax

def annotated : Syntax → Option AnnotatedName
  | annAssign line column (name target) annotation _ => some ⟨line, column, target, annotation⟩
  | _ => none

def line : Syntax → ℕ
  | expr l _ => l
  | importNames l _ => l
  | importFrom l _ _ => l
  | classDef l _ _ _ _ => l
  | annAssign l _ _ _ _ => l
  | assign l _ => l
  | typeAlias l _ => l
  | other _ l _ => l
  | _ => 0

end Syntax

open Syntax

def schemaName (body : AnnotatedName) : String :=
  ((walk body.annotation).findSome? aliasOf).getD body.target

structure ClassDef where
  name : String
  body : List Syntax

def classOf : Syntax → Option ClassDef
  | classDef _ n _ body _ => some ⟨n, body⟩
  | _ => none

/-! ### Attribution -/

def removeSuffix (suffix text : String) : String :=
  if suffix.toList.isSuffixOf text.toList then
    String.ofList (text.toList.take (text.toList.length - suffix.toList.length))
  else text

/-- The order of Python's texts. -/
def textLe (a b : String) : Bool := a.toList.map Char.toNat ≤ b.toList.map Char.toNat

/-- What the inspection raises: its own refusal, or what Python raises on the way. -/
inductive Failure where
  | inspection (message : String)
  | attributeError
  | syntaxError
deriving DecidableEq

def variantStem (C : Characters) (name : String) : Option String :=
  ((List.range name.toList.length).find? fun i =>
    0 < i && (name.toList.drop i).all C.decimal).map fun i => String.ofList (name.toList.take i)

def attributeNames (cls : ClassDef) : List String :=
  ((cls.body.filterMap annotated).map schemaName).filter (· != "model_config")

def candidateNames (C : Characters) (cls : ClassDef) : List String :=
  cls.name :: (variantStem C cls.name).toList ++
    if "Model".toList.isSuffixOf cls.name.toList then [removeSuffix "Model" cls.name] else []

def sameNames (a b : List String) : Bool := a.all b.contains && b.all a.contains

def truthy : Json → Bool
  | .null => false
  | .bool b => b
  | .integer n => n != 0
  | .decimal q => q != 0
  | .str t => t != ""
  | .array js => !js.isEmpty
  | .object ms => !ms.isEmpty

/-- `(node.get("properties") or {}).get(attr, {}).get("properties")` is truthy. -/
def typedAttribute (attr : String) (node : Members) : Except Failure Bool :=
  match (lookup "properties" node).getD .null with
  | .object ps =>
    match (lookup attr ps).getD (.object []) with
    | .object ms => .ok (truthy ((lookup "properties" ms).getD .null))
    | _ => .error .attributeError
  | p => if truthy p then .error .attributeError else .ok false

/-- The nodes whose property of the attribute declares no properties. -/
def narrowed (attr : String) : List SchemaNode → Except Failure (List SchemaNode)
  | [] => .ok []
  | e :: es => do
    let typed ← typedAttribute attr e.node
    let rest ← narrowed attr es
    return if typed then rest else e :: rest

/-- The declared nodes of the class's property names that its name corroborates. -/
def corroborated (C : Characters) (nodes : List SchemaNode) (cls : ClassDef) :
    List SchemaNode :=
  nodes.filter fun e => sameNames (propertyNames e.node) (attributeNames cls) &&
    (namesFor C e.pointer e.node).any (candidateNames C cls).contains

def candidatesFor (C : Characters) (nodes : List SchemaNode) (cls : ClassDef)
    (attr : String) : Except Failure (List SchemaNode) :=
  let found := corroborated C nodes cls
  if found.length ≤ 1 then .ok found
  else do
    let kept ← narrowed attr found
    return if kept.isEmpty then found else kept

def moduleName (document : String) : String :=
  String.ofList (("_".toList).intercalate (words (removeSuffix ".json" document).toList))

def rootEntry (classify : Json → Bool) (documents : List (String × Members)) (module : String) :
    Option SchemaNode :=
  match documents.reverse.find? fun d => moduleName d.1 == removeSuffix ".py" module with
  | some d => some ⟨d.1, "", d.2⟩
  | none =>
    match documents with
    | first :: _ :: _ =>
      if documents.all fun d => classify (.object d.2) == classify (.object first.2) then
        ((documents.map Prod.fst).insertionSort fun a b => textLe a b).head?.map fun n =>
          ⟨n, "", first.2⟩
      else none
    | _ => none

def ownerOf (classify : Json → Bool) (documents : List (String × Members))
    (found : List SchemaNode) (module attr : String) : Option SchemaNode :=
  match found with
  | [owner] => some owner
  | _ => if attr == "root" then rootEntry classify documents module else none

def targetOf (owner : SchemaNode) (attr : String) : Option (Json × String) :=
  let place := owner.document ++ "#" ++ owner.pointer
  let schema := if attr == "root" then some (Json.object owner.node, place) else none
  match lookup "properties" owner.node with
  | some (.object ps) =>
    match lookup attr ps with
    | some .null => none
    | some target => some (target, place ++ "/properties/" ++ attr)
    | none => schema
  | _ => schema

/-! ### The inspection -/

inductive Mode where
  | report | enforce
deriving DecidableEq

inductive Classification where
  | sanctioned | degraded | unattributed
deriving DecidableEq

def Classification.text : Classification → String
  | sanctioned => "sanctioned"
  | degraded => "degraded"
  | unattributed => "unattributed"

structure Finding where
  module : String
  symbol : String
  attr : String
  annotation : String
  line : ℕ
  column : ℕ
  pointer : Option String
  classification : Classification
  variantOf : Option String
deriving DecidableEq

structure InspectionReport where
  findings : List Finding
  variants : List (String × String)
deriving DecidableEq

structure File where
  name : String
  body : Option (List Syntax)

def importRoot (name : String) : String := String.ofList (name.toList.takeWhile (· != '.'))

def carried (files : List File) (root : String) : Bool :=
  root == "" || allowedImportRoots.contains root || files.any fun f => f.name == root ++ ".py"

def importRoots : Syntax → List String
  | .importNames _ names => names.map importRoot
  | .importFrom _ module level => if 0 < level then [] else [importRoot (module.getD "")]
  | _ => []

/-- The module-level forms a generated module may have. -/
def permittedForm : Syntax → Bool
  | .importNames _ _ => true
  | .importFrom _ _ _ => true
  | .classDef _ _ _ _ _ => true
  | .annAssign _ _ _ _ _ => true
  | .assign _ _ => true
  | .typeAlias _ _ => true
  | .expr _ (.text _ _) => true
  | .expr _ .constant => true
  | .expr _ (.call (.attr _ n) _ _) => n == "model_rebuild"
  | _ => false

def kindOf : Syntax → String
  | .expr _ _ => "Expr"
  | .other kind _ _ => kind
  | _ => ""

def place (module : String) (line : ℕ) : String := module ++ ":" ++ toString line ++ ": "

def statementRefusal (files : List File) (module : String) (s : Syntax) : Option String :=
  if permittedForm s then
    ((importRoots s).find? fun root => !carried files root).map fun root =>
      place module s.line ++ "generated source imports '" ++ root ++
        "', which the allow-list does not carry"
  else some (place module s.line ++ "module-level " ++ kindOf s ++
    " is not one of the permitted forms")

def checkStatement (files : List File) (mode : Mode) (module : String) (s : Syntax) :
    Except Failure Unit :=
  match mode, statementRefusal files module s with
  | .enforce, some message => .error (.inspection message)
  | _, _ => .ok ()

/-- What the inspection takes from Python besides the parsed modules. -/
structure Python extends Characters where
  /-- `ast.unparse`. -/
  unparse : Syntax → String

section
variable (P : Python) (classify : Json → Bool) (documents : List (String × Members))

def classified (target : Option (Json × String)) : Classification :=
  match target with
  | some t => if classify t.1 then .sanctioned else .degraded
  | none => .unattributed

def findingOf (module : String) (cls : ClassDef) (body : AnnotatedName) :
    Except Failure Finding := do
  let found ← candidatesFor P.toCharacters (declaredNodes documents) cls body.target
  let owner := ownerOf classify documents found module body.target
  let target := owner.bind fun o => targetOf o body.target
  return {
    module, symbol := cls.name, attr := body.target
    annotation := P.unparse body.annotation, line := body.line, column := body.column
    pointer := target.map Prod.snd, classification := classified classify target
    variantOf := variantStem P.toCharacters cls.name }

def permissiveAttributes (cls : ClassDef) : List AnnotatedName :=
  (cls.body.filterMap annotated).filter fun b => isPermissive b.annotation

def classes (body : List Syntax) : List ClassDef := (levelsOf body).flatten.filterMap classOf

def inspectModule (files : List File) (mode : Mode) (f : File) :
    Except Failure (List Finding) :=
  if ".py".toList.isSuffixOf f.name.toList then
    match f.body with
    | none => .error .syntaxError
    | some body => do
      body.forM (checkStatement files mode f.name)
      let findings ← (classes body).mapM fun cls =>
        (permissiveAttributes cls).mapM (findingOf P classify documents f.name cls)
      return findings.flatten
  else .ok []

def findingLe (a b : Finding) : Bool :=
  if a.module = b.module then
    if a.line = b.line then a.column ≤ b.column else a.line ≤ b.line
  else textLe a.module b.module

def variantsOf (findings : List Finding) : List (String × String) :=
  findings.foldl (fun vs f =>
    match f.variantOf with
    | some stem => OrderedMap.write f.symbol stem vs
    | none => vs) []

def refusalOf (f : Finding) : String :=
  f.module ++ ":" ++ toString f.line ++ ": " ++ f.symbol ++ "." ++ f.attr ++
    " is annotated `" ++ f.annotation ++ "` and is classified " ++ f.classification.text ++
    match f.pointer with
    | some pointer => "; the schema constrains " ++ pointer
    | none => ""

def inspectGenerated (files : List File) (mode : Mode) : Except Failure InspectionReport := do
  let inspected ← (files.insertionSort fun a b => textLe a.name b.name).mapM
    (inspectModule P classify documents files mode)
  let findings := inspected.flatten.insertionSort fun a b => findingLe a b
  let report : InspectionReport := ⟨findings, variantsOf inspected.flatten⟩
  match mode, findings.find? fun f => f.classification != .sanctioned with
  | .enforce, some first => throw (.inspection (refusalOf first))
  | _, _ => return report

end

end FilamentCore.PythonBackend
