import FilamentCore.Backends.TypescriptNames
import FilamentCore.Library.Affixes

/-!
# The names a TypeScript package declares and exports
(src/compiler/backends/typescript-v1/model.mjs, types.mjs, validators.mjs, metadata.mjs,
package-layout.mjs)

The top-level names of the four generated modules and of the barrel. What the generated functions
do matters here for the helpers their text mentions, and any text of them is considered.
-/

namespace FilamentCore.Backends.TypescriptNames
open FilamentCore.Library
open FilamentCore.SemanticIr.Json (utf16Le)

/-! ### The model -/

structure Entry extends Definition where
  identifier : String
  deriving DecidableEq

structure Model where
  types : List Entry
  losses : List Loss

def hasEquality (d : Definition) : Bool :=
  d.equality == some .value || (d.equality == some .identity && !d.abstract)

/-- `<Name>State` of a state machine, else `<Name>Equals` of what has equality. -/
def derivedName (e : Entry) : Option String :=
  if e.rendering = .stateMachine then some (e.identifier ++ "State")
  else if hasEquality e.toDefinition then some (e.identifier ++ "Equals")
  else none

def derivedCollision (minted : List String) (e : Entry) : Option Loss :=
  (derivedName e).bind fun derived =>
    if derived ∈ minted then
      some (identifierCollision e.identity
        (derived ++ " is minted by " ++ e.identity ++ " and by a declared type"))
    else none

def buildModel (document : Document) : Model :=
  let identifiers := identifiersOf document.types
  let types := (ordered document.types).map fun d =>
    ⟨d, (identifiers.get d.identity).getD ""⟩
  ⟨types, collisionsOf document.types ++ types.filterMap (derivedCollision identifiers.values)⟩

def isInstanceless (d : Definition) : Bool :=
  d.rendering == .interface || d.rendering == .namespace

/-- A type whose values are validated. -/
def isConcrete (d : Definition) : Bool := !isInstanceless d && !d.abstract

/-! ### Names -/

/-- How a name is made of an identifier. -/
inductive Form
  | name | state | brand | is | of | prepare | check | validate | equals
  deriving DecidableEq

def Form.before : Form → String
  | .prepare => "prepare"
  | .check => "check"
  | .validate => "validate"
  | _ => ""

def Form.after : Form → String
  | .state => "State"
  | .brand => "Brand"
  | .is => "Is"
  | .of => "Of"
  | .equals => "Equals"
  | _ => ""

def Form.apply (form : Form) (identifier : String) : String :=
  form.before ++ identifier ++ form.after

/-- What a name is declared for: the package, or a type. -/
inductive Origin
  | fixed (name : String)
  | minted (form : Form) (entry : Entry)
  deriving DecidableEq

def Origin.name : Origin → String
  | .fixed name => name
  | .minted form entry => form.apply entry.identifier

inductive Kind
  | imported | type | interface | const | function
  deriving DecidableEq

/-- A name at the top level of a module. -/
structure Binding where
  origin : Origin
  kind : Kind
  exported : Bool

def Binding.name (b : Binding) : String := b.origin.name

/-! ### types.ts -/

def typeBindings (e : Entry) : List Binding :=
  match e.rendering with
  | .namespace => []
  | .record => [⟨.minted .name e, .interface, true⟩]
  | .interface => [⟨.minted .name e, .interface, true⟩]
  | .stateMachine => [⟨.minted .name e, .interface, true⟩, ⟨.minted .state e, .type, true⟩]
  | .reference => [⟨.minted .brand e, .const, false⟩, ⟨.minted .name e, .type, true⟩,
      ⟨.minted .is e, .function, false⟩, ⟨.minted .of e, .function, true⟩]
  | _ => [⟨.minted .name e, .type, true⟩]

def typesModule (entries : List Entry) : List Binding :=
  ⟨.fixed "UNION_DISCRIMINANT", .const, true⟩ :: entries.flatMap typeBindings

/-! ### errors.ts and identity.ts -/

def errorsModule : List Binding :=
  [⟨.fixed "VALIDATION_CODES", .const, true⟩, ⟨.fixed "StructuralCode", .type, true⟩,
    ⟨.fixed "MAX_VALIDATION_DEPTH", .const, true⟩, ⟨.fixed "PRESERVED_MEMBER", .const, true⟩,
    ⟨.fixed "compareDecimal", .function, true⟩, ⟨.fixed "isCanonicalDecimal", .function, true⟩,
    ⟨.fixed "decimalWithinPolicy", .function, true⟩, ⟨.fixed "ValidationError", .interface, true⟩,
    ⟨.fixed "ValidationResult", .type, true⟩, ⟨.fixed "MemberState", .type, true⟩,
    ⟨.fixed "Member", .interface, true⟩, ⟨.fixed "ownMember", .function, true⟩,
    ⟨.fixed "copyAccessor", .function, true⟩, ⟨.fixed "ownKeys", .function, true⟩,
    ⟨.fixed "isPlainObject", .function, true⟩, ⟨.fixed "join", .function, true⟩,
    ⟨.fixed "fail", .function, true⟩, ⟨.fixed "codePointLength", .function, true⟩,
    ⟨.fixed "isBase64", .function, true⟩, ⟨.fixed "base64OctetLength", .function, true⟩,
    ⟨.fixed "canonicalJson", .function, false⟩, ⟨.fixed "isUniqueCollection", .function, true⟩,
    ⟨.fixed "isUniqueFloat32Collection", .function, true⟩,
    ⟨.fixed "sortErrors", .function, true⟩]

def interfaces (names : List String) : List Binding :=
  names.map fun name => ⟨.fixed name, .interface, true⟩

def constants (names : List String) : List Binding :=
  names.map fun name => ⟨.fixed name, .const, true⟩

/-- What `constructData` adds where the document carries any. -/
def constructModule : List Binding :=
  interfaces ["TransitionDescriptor", "StepDescriptor", "TermDescriptor",
    "OperationContractDescriptor", "PopulationDescriptor"] ++
  constants ["TYPE_SUPERTYPES", "TYPE_ABSTRACT", "TYPE_OWNER", "TYPE_MEMBERS",
    "TYPE_OCCURRENCE_FIELD", "TYPE_EQUALITY", "TYPE_IMMUTABLE", "TYPE_STATES", "TYPE_TRANSITIONS",
    "TYPE_STEPS", "TYPE_PERSISTS", "TYPE_VOCABULARY", "FIELD_SUBSETS", "FIELD_REDEFINES",
    "OPERATION_CONTRACTS", "POPULATIONS"]

def identityModule (carriesConstructData : Bool) : List Binding :=
  interfaces ["ExtensionDescriptor", "RelationshipDescriptor", "FieldDescriptor",
    "OperationDescriptor", "ClauseDescriptor", "VariantDescriptor", "ConstraintDescriptor",
    "DefaultDescriptor", "OccurrenceDescriptor"] ++
  [⟨.fixed "ExportedTypeName", .type, true⟩, ⟨.fixed "ExportedFieldKey", .type, true⟩] ++
  constants ["TYPE_IDENTITY", "TYPE_KIND", "TYPE_ROLES", "TYPE_UNKNOWN_POLICY",
    "TYPE_IDENTITY_FIELDS", "TYPE_EXTENSIONS", "TYPE_RELATIONSHIPS", "FIELD_IDENTITY",
    "FIELD_EXTENSIONS", "FIELD_UNIT"] ++
  constants ["DOCUMENT_EXTENSIONS", "OCCURRENCES", "TYPE_OPERATIONS", "TYPE_CLAUSES",
    "TYPE_VARIANTS", "TYPE_CONSTRAINTS", "FIELD_DEFAULT"] ++
  if carriesConstructData then constructModule else []

/-! ### validators.ts -/

/-- What is generated for a model besides its names. -/
structure Texts where
  prepareBody : Entry → List String
  checkBody : Entry → List String
  equalityFunction : Entry → String
  carriesConstructData : Bool

def includes (text part : String) : Bool := part.toList <:+: text.toList

def isWordChar (c : Char) : Bool := c.isAlphanum || c == '_'

/-- `new RegExp("\\b" + word + "\\b").test(text)`, of a word. -/
def mentions (text word : String) : Bool :=
  (List.range (text.toList.length + 1)).any fun i =>
    word.toList.isPrefixOf (text.toList.drop i) &&
      ((text.toList.take i).getLast?.all fun c => !isWordChar c) &&
      ((text.toList.drop (i + word.toList.length)).head?.all fun c => !isWordChar c)

def lines (parts : List String) : String := "\n".intercalate parts

def prepareBlock (texts : Texts) (e : Entry) : String :=
  lines (["function prepare" ++ e.identifier ++ "(value: unknown, depth: number): unknown \x7b",
    "\tif (depth > MAX_VALIDATION_DEPTH) return value;"] ++ texts.prepareBody e ++ ["\x7d"])

/-- The failure of a value that nests too deep. -/
def depthFailure : String :=
  "\t\tfail(errors, pointer, CODES.DEPTH_LIMIT_EXCEEDED, " ++
    "\"the value nests past the declared bound\");"

def checkText (texts : Texts) (e : Entry) : String :=
  lines ((if (texts.checkBody e).any fun line => mentions line "before" then
      ["\tconst before = errors.length;"] else []) ++
    ["\tif (depth > MAX_VALIDATION_DEPTH) \x7b", depthFailure, "\t\treturn false;", "\t\x7d"] ++
    texts.checkBody e)

def checkLines (identifier candidateName surfacedName checkBody : String) : List String :=
  ["function check" ++ identifier ++ "(", "\t" ++ candidateName ++ ": unknown,",
    "\tpointer: string,", "\terrors: ValidationError[],",
    "\t" ++ surfacedName ++ ": ValidationError[],", "\tdepth: number,",
    "): " ++ candidateName ++ " is " ++ identifier ++ " \x7b", checkBody, "\x7d"]

def checkBlock (texts : Texts) (e : Entry) : String :=
  lines (checkLines e.identifier
    (if mentions (checkText texts e) "candidate" then "candidate" else "_candidate")
    (if includes (checkText texts e) "surfaced" then "surfaced" else "_surfaced")
    (checkText texts e))

def validateBlock (e : Entry) : String :=
  lines ["/** Decide an untrusted value against `" ++ e.identity ++ "`. */",
    "export function validate" ++ e.identifier ++ "(input: unknown): ValidationResult<" ++
      e.identifier ++ "> \x7b",
    "\tconst errors: ValidationError[] = [];", "\tconst surfaced: ValidationError[] = [];",
    "\tconst value = prepare" ++ e.identifier ++ "(input, 0);",
    "\tif (check" ++ e.identifier ++ "(value, \"\", errors, surfaced, 0)) \x7b",
    "\t\treturn \x7b ok: true, value, surfaced: sortErrors(surfaced) \x7d;", "\t\x7d",
    "\treturn \x7b ok: false, errors: sortErrors(errors) \x7d;", "\x7d"]

def blocksOf (texts : Texts) (e : Entry) : List String :=
  [prepareBlock texts e, checkBlock texts e, validateBlock e] ++
    if hasEquality e.toDefinition then [texts.equalityFunction e] else []

def decimalUnique : String :=
  lines ["/** Decimal collection uniqueness compares mathematical values, " ++
      "including scale padding. */",
    "function isUniqueDecimalCollection(value: unknown): boolean \x7b",
    "\tif (!Array.isArray(value)) return true;", "\tconst seen = new Set<string>();",
    "\tfor (const member of value) \x7b", "\t\tif (typeof member !== \"string\") continue;",
    "\t\tconst negative = member.startsWith(\"-\");",
    "\t\tconst unsigned = negative ? member.slice(1) : member;",
    "\t\tconst [whole, fraction = \"\"] = unsigned.split(\".\");",
    "\t\tconst normalizedFraction = fraction.replace(/0+$/, \"\") || \"0\";",
    "\t\tconst normalized = (negative ? \"-\" : \"\") + whole + \".\" + normalizedFraction;",
    "\t\tif (seen.has(normalized)) return false;", "\t\tseen.add(normalized);", "\t\x7d",
    "\treturn true;", "\x7d"]

/-- The types a validator is generated for. -/
def validated (entries : List Entry) : List Entry :=
  entries.filter fun e => isConcrete e.toDefinition

def blockBody (texts : Texts) (entries : List Entry) : String :=
  "\n\n".intercalate ((validated entries).flatMap (blocksOf texts))

def usesDecimalUnique (texts : Texts) (entries : List Entry) : Bool :=
  includes (blockBody texts entries) "isUniqueDecimalCollection"

def validatorsBody (texts : Texts) (entries : List Entry) : String :=
  "\n\n".intercalate (([if usesDecimalUnique texts entries then decimalUnique else "",
    blockBody texts entries]).filter fun text => text ≠ "")

/-- The helpers of errors.ts by the names they are imported under; `VALIDATION_CODES as CODES`. -/
def helperNames : List String :=
  ["CODES", "MAX_VALIDATION_DEPTH", "base64OctetLength", "codePointLength", "compareDecimal",
    "copyAccessor", "decimalWithinPolicy", "fail", "isBase64", "isCanonicalDecimal",
    "isPlainObject", "isUniqueCollection", "isUniqueFloat32Collection", "join", "ownKeys",
    "ownMember", "sortErrors"]

def helpers (texts : Texts) (entries : List Entry) : List String :=
  helperNames.filter fun name => mentions (validatorsBody texts entries) name

def imports (names : List String) : List Binding :=
  names.map fun name => ⟨.fixed name, .imported, false⟩

def validatorBindings (e : Entry) : List Binding :=
  [⟨.minted .prepare e, .function, false⟩, ⟨.minted .check e, .function, false⟩,
    ⟨.minted .validate e, .function, true⟩] ++
  if hasEquality e.toDefinition then [⟨.minted .equals e, .function, true⟩] else []

def validatorsModule (texts : Texts) (entries : List Entry) : List Binding :=
  imports (helpers texts entries) ++ imports ["ValidationError", "ValidationResult"] ++
    (validated entries).map (fun e => ⟨.minted .name e, .imported, false⟩) ++
    (if usesDecimalUnique texts entries then
      [⟨.fixed "isUniqueDecimalCollection", .function, false⟩] else []) ++
    (validated entries).flatMap validatorBindings

/-! ### index.ts -/

def fixedApiSurface : List String :=
  ["UNION_DISCRIMINANT", "ValidationError", "ValidationResult", "VALIDATION_CODES",
    "StructuralCode", "MAX_VALIDATION_DEPTH", "PRESERVED_MEMBER", "ExportedTypeName",
    "ExportedFieldKey", "ExtensionDescriptor", "RelationshipDescriptor", "FieldDescriptor",
    "OperationDescriptor", "ClauseDescriptor", "VariantDescriptor", "ConstraintDescriptor",
    "DefaultDescriptor", "OccurrenceDescriptor", "TYPE_IDENTITY", "TYPE_KIND", "TYPE_ROLES",
    "TYPE_UNKNOWN_POLICY", "TYPE_IDENTITY_FIELDS", "TYPE_EXTENSIONS", "TYPE_RELATIONSHIPS",
    "FIELD_IDENTITY", "FIELD_EXTENSIONS", "FIELD_UNIT", "DOCUMENT_EXTENSIONS", "OCCURRENCES",
    "TYPE_OPERATIONS", "TYPE_CLAUSES", "TYPE_VARIANTS", "TYPE_CONSTRAINTS", "FIELD_DEFAULT",
    "TransitionDescriptor", "StepDescriptor", "TermDescriptor", "OperationContractDescriptor",
    "PopulationDescriptor", "TYPE_SUPERTYPES", "TYPE_ABSTRACT", "TYPE_OWNER", "TYPE_MEMBERS",
    "TYPE_OCCURRENCE_FIELD", "TYPE_EQUALITY", "TYPE_IMMUTABLE", "TYPE_STATES", "TYPE_TRANSITIONS",
    "TYPE_STEPS", "TYPE_PERSISTS", "TYPE_VOCABULARY", "FIELD_SUBSETS", "FIELD_REDEFINES",
    "OPERATION_CONTRACTS", "POPULATIONS"]

/-- The keys of `CROSS_MODULE_INTERNALS`. -/
def withheldExports : List String :=
  ["fail", "join", "ownKeys", "ownMember", "sortErrors", "isPlainObject", "isUniqueCollection",
    "isUniqueFloat32Collection", "copyAccessor", "codePointLength", "isBase64",
    "base64OctetLength", "compareDecimal", "isCanonicalDecimal", "decimalWithinPolicy", "Member",
    "MemberState"]

/-- The forms of `PER_TYPE_SURFACE`. -/
def perTypeSurface : List Form := [.validate, .of, .state, .equals]

def permittedExports (entries : List Entry) : List String :=
  fixedApiSurface ++ entries.flatMap fun e =>
    e.identifier :: perTypeSurface.map fun form => form.apply e.identifier

def exportedNames (bindings : List Binding) : List String :=
  ((bindings.filter fun b => b.exported).map Binding.name).dedup.insertionSort
    fun left right => utf16Le left right = true

def exportedTypeNames (bindings : List Binding) : List String :=
  (bindings.filter fun b => b.exported && (b.kind == .type || b.kind == .interface)).map
    Binding.name

/-- What the barrel exports of a module, its types before its values. -/
def published (permitted : List String) (bindings : List Binding) : List String :=
  let names := (exportedNames bindings).filter (· ∈ permitted)
  names.filter (· ∈ exportedTypeNames bindings) ++ names.filter (· ∉ exportedTypeNames bindings)

def modules (texts : Texts) (model : Model) : List (List Binding) :=
  [typesModule model.types, validatorsModule texts model.types, errorsModule,
    identityModule texts.carriesConstructData]

def leaked (texts : Texts) (model : Model) : List String :=
  (modules texts model).flatMap fun bindings =>
    (exportedNames bindings).filter fun name =>
      name ∉ permittedExports model.types && name ∉ withheldExports

/-- The names the barrel exports; none where a name leaks and the generator throws. -/
def renderBarrel (texts : Texts) (model : Model) : Option (List String) :=
  if leaked texts model = [] then
    some ((modules texts model).flatMap (published (permittedExports model.types)))
  else none

/-! ### What is known of a name from its form -/

def Form.affixes (form : Form) : Affixes Char := ⟨form.before.toList, form.after.toList⟩

theorem Form.toList_apply (form : Form) (identifier : String) :
    (form.apply identifier).toList = form.affixes.around identifier.toList := by
  rw [Form.apply, String.toList_append, String.toList_append, Affixes.around, Form.affixes]

theorem Form.apply_injective (form : Form) : Function.Injective form.apply := by
  intro a b h
  have hlist := congrArg String.toList h
  rw [form.toList_apply, form.toList_apply] at hlist
  exact String.toList_injective (form.affixes.around_injective hlist)

theorem Form.compatible {f g : Form} {a b : String} (h : f.apply a = g.apply b) :
    f.affixes.Compatible g.affixes := by
  have hlist := congrArg String.toList h
  rw [f.toList_apply, g.toList_apply] at hlist
  exact Affixes.compatible_of_eq hlist

theorem Form.fits (form : Form) (identifier : String) :
    form.affixes.Fits (form.apply identifier).toList := by
  rw [form.toList_apply]
  exact form.affixes.around_fits _

@[simp] theorem Form.apply_name (identifier : String) :
    Form.name.apply identifier = identifier := by
  simp [Form.apply, Form.before, Form.after]

/-! ### The entries of a model -/

theorem mem_types {document : Document} {e : Entry} : e ∈ (buildModel document).types ↔
    e.toDefinition ∈ document.types ∧ e.identifier = mint e.toDefinition := by
  rw [buildModel, List.mem_map]
  constructor
  · rintro ⟨d, hd, rfl⟩
    have hd := mem_ordered.1 hd
    exact ⟨hd, by simp only [identifiersOf_get document hd, Option.getD_some]⟩
  · rintro ⟨hd, hname⟩
    refine ⟨e.toDefinition, mem_ordered.2 hd, ?_⟩
    rw [identifiersOf_get document hd, Option.getD_some, ← hname]

theorem mem_types_mk {document : Document} {d : Definition} (hd : d ∈ document.types) :
    (⟨d, mint d⟩ : Entry) ∈ (buildModel document).types := mem_types.2 ⟨hd, rfl⟩

theorem types_nodup (document : Document) : (buildModel document).types.Nodup := by
  have hordered : (ordered document.types).Nodup :=
    (List.perm_insertionSort _ _).nodup_iff.2 document.distinct.of_map
  exact hordered.map fun a b h => congrArg Entry.toDefinition h

theorem identifier_injective {document : Document} (h : (buildModel document).losses = [])
    {a b : Entry} (ha : a ∈ (buildModel document).types) (hb : b ∈ (buildModel document).types)
    (hname : a.identifier = b.identifier) : a = b := by
  obtain ⟨hda, hna⟩ := mem_types.1 ha
  obtain ⟨hdb, hnb⟩ := mem_types.1 hb
  have hsame := mint_injective (List.append_eq_nil_iff.1 h).1 hda hdb
    (hna.symm.trans (hname.trans hnb))
  cases a
  cases b
  cases hsame
  cases hname
  rfl

theorem derived_free {document : Document} (h : (buildModel document).losses = [])
    {a e : Entry} (ha : a ∈ (buildModel document).types) (he : e ∈ (buildModel document).types)
    (hderived : derivedName e = some a.identifier) : False := by
  obtain ⟨hd, hname⟩ := mem_types.1 ha
  have hmem : a.identifier ∈ (identifiersOf document.types).values :=
    (OrderedMap.mem_values_iff _ _).2 ⟨_, hname ▸ identifiersOf_get document hd⟩
  have hnone := List.filterMap_eq_nil_iff.1 (List.append_eq_nil_iff.1 h).2 e he
  rw [derivedCollision, hderived, Option.bind_some, if_pos hmem] at hnone
  cases hnone

/-! ### The names of a module -/

theorem names_nodup_iff {bindings : List Binding} {fixed : List String} {entries : List Entry}
    {declares : Entry → Form → Prop} (hnodup : (bindings.map Binding.origin).Nodup)
    (hmem : ∀ o, o ∈ bindings.map Binding.origin ↔ (∃ n ∈ fixed, o = .fixed n) ∨
      ∃ e ∈ entries, ∃ f, declares e f ∧ o = .minted f e) :
    (bindings.map Binding.name).Nodup ↔
      (∀ e ∈ entries, ∀ f, declares e f → f.apply e.identifier ∉ fixed) ∧
      ∀ a ∈ entries, ∀ b ∈ entries, ∀ f g, declares a f → declares b g →
        f.apply a.identifier = g.apply b.identifier → f = g ∧ a = b := by
  have hnames : bindings.map Binding.name = (bindings.map Binding.origin).map Origin.name := by
    rw [List.map_map]
    rfl
  rw [hnames, List.nodup_map_iff_inj_on hnodup]
  constructor
  · intro h
    refine ⟨fun e he f hf hfixed => ?_, fun a ha b hb f g hf hg hname => ?_⟩
    · cases h _ ((hmem _).2 (.inl ⟨_, hfixed, rfl⟩)) _ ((hmem _).2 (.inr ⟨e, he, f, hf, rfl⟩)) rfl
    · cases h _ ((hmem _).2 (.inr ⟨a, ha, f, hf, rfl⟩)) _ ((hmem _).2 (.inr ⟨b, hb, g, hg, rfl⟩))
        hname
      exact ⟨rfl, rfl⟩
  · intro ⟨hfixed, hminted⟩ x hx y hy hname
    obtain ⟨n, hn, rfl⟩ | ⟨a, ha, f, hf, rfl⟩ := (hmem x).1 hx
    · obtain ⟨m, hm, rfl⟩ | ⟨b, hb, g, hg, rfl⟩ := (hmem y).1 hy
      · exact congrArg _ hname
      · have heq : n = g.apply b.identifier := hname
        exact absurd (heq ▸ hn) (hfixed b hb g hg)
    · obtain ⟨m, hm, rfl⟩ | ⟨b, hb, g, hg, rfl⟩ := (hmem y).1 hy
      · have heq : f.apply a.identifier = m := hname
        exact absurd (heq ▸ hm) (hfixed a ha f hf)
      · obtain ⟨rfl, rfl⟩ := hminted a ha b hb f g hf hg hname
        rfl

theorem origins_nodup {entries : List Entry} (h : entries.Nodup) {bindings : Entry → List Binding}
    (heach : ∀ e, ((bindings e).map Binding.origin).Nodup)
    (hof : ∀ e, ∀ b ∈ bindings e, ∃ f, b.origin = .minted f e) :
    ((entries.flatMap bindings).map Binding.origin).Nodup := by
  rw [List.map_flatMap, List.nodup_flatMap]
  refine ⟨fun e _ => heach e, h.imp fun {a b} hne o ha hb => hne ?_⟩
  obtain ⟨x, hx, rfl⟩ := List.mem_map.1 ha
  obtain ⟨y, hy, hxy⟩ := List.mem_map.1 hb
  obtain ⟨f, hf⟩ := hof a x hx
  obtain ⟨g, hg⟩ := hof b y hy
  rw [hf, hg] at hxy
  cases hxy
  rfl

/-! ### What the modules declare -/

def declaresType (e : Entry) : Form → Prop
  | .name => e.rendering ≠ .namespace
  | .state => e.rendering = .stateMachine
  | .brand => e.rendering = .reference
  | .is => e.rendering = .reference
  | .of => e.rendering = .reference
  | _ => False

theorem mem_typeBindings (e : Entry) (o : Origin) : o ∈ (typeBindings e).map Binding.origin ↔
    ∃ f, declaresType e f ∧ o = .minted f e := by
  constructor
  · intro h
    rw [typeBindings] at h
    split at h <;> rename_i hr <;>
      simp only [List.map_nil, List.map_cons, List.mem_cons, List.not_mem_nil, or_false] at h
    case h_4 =>
      obtain rfl | rfl := h
      · exact ⟨.name, by simp [declaresType, hr], rfl⟩
      · exact ⟨.state, hr, rfl⟩
    case h_5 =>
      obtain rfl | rfl | rfl | rfl := h
      · exact ⟨.brand, hr, rfl⟩
      · exact ⟨.name, by simp [declaresType, hr], rfl⟩
      · exact ⟨.is, hr, rfl⟩
      · exact ⟨.of, hr, rfl⟩
    all_goals exact ⟨.name, by simp_all [declaresType], h⟩
  · rintro ⟨f, hf, rfl⟩
    cases f with
    | name =>
      cases hr : e.rendering <;> simp_all [typeBindings, declaresType]
    | _ => first | cases hf | (have hr := hf; simp_all [typeBindings, declaresType])

theorem mem_typesModule (entries : List Entry) (o : Origin) :
    o ∈ (typesModule entries).map Binding.origin ↔
      (∃ n ∈ ["UNION_DISCRIMINANT"], o = .fixed n) ∨
        ∃ e ∈ entries, ∃ f, declaresType e f ∧ o = .minted f e := by
  simp only [typesModule, List.map_cons, List.mem_cons, List.map_flatMap, List.mem_flatMap,
    mem_typeBindings, List.not_mem_nil, or_false, exists_eq_left]

theorem typesModule_names {entries : List Entry} (h : entries.Nodup) :
    ((typesModule entries).map Binding.name).Nodup ↔
      (∀ e ∈ entries, ∀ f, declaresType e f → f.apply e.identifier ∉ ["UNION_DISCRIMINANT"]) ∧
      ∀ a ∈ entries, ∀ b ∈ entries, ∀ f g, declaresType a f → declaresType b g →
        f.apply a.identifier = g.apply b.identifier → f = g ∧ a = b := by
  have hof : ∀ e, ∀ b ∈ typeBindings e, ∃ f, b.origin = .minted f e := fun e b hb =>
    ((mem_typeBindings e b.origin).1 (List.mem_map_of_mem hb)).imp fun _ hf => hf.2
  refine names_nodup_iff ?_ fun o => ?_
  · refine List.nodup_cons.2 ⟨fun hmem => ?_, origins_nodup h (fun e => ?_) hof⟩
    · obtain ⟨b, hb, hfixed⟩ := List.mem_map.1 hmem
      obtain ⟨e, -, hbe⟩ := List.mem_flatMap.1 hb
      obtain ⟨f, hf⟩ := hof e b hbe
      rw [hf] at hfixed
      cases hfixed
    · cases hr : e.rendering <;> simp [typeBindings, hr]
  · exact mem_typesModule entries o

def declaresValidator (e : Entry) : Form → Prop
  | .name => isConcrete e.toDefinition = true
  | .prepare => isConcrete e.toDefinition = true
  | .check => isConcrete e.toDefinition = true
  | .validate => isConcrete e.toDefinition = true
  | .equals => isConcrete e.toDefinition = true ∧ hasEquality e.toDefinition = true
  | _ => False

/-- What the package declares in validators.ts and imports there. -/
def validatorNames (texts : Texts) (entries : List Entry) : List String :=
  helpers texts entries ++ ["ValidationError", "ValidationResult"] ++
    if usesDecimalUnique texts entries then ["isUniqueDecimalCollection"] else []

theorem mem_validated {entries : List Entry} {e : Entry} :
    e ∈ validated entries ↔ e ∈ entries ∧ isConcrete e.toDefinition = true := List.mem_filter

theorem map_origin_imports (names : List String) :
    (imports names).map Binding.origin = names.map .fixed := by
  rw [imports, List.map_map]
  rfl

/-- The forms of the functions that validators.ts declares for a type. -/
def validatorForms (e : Entry) : List Form :=
  [.prepare, .check, .validate] ++ if hasEquality e.toDefinition then [.equals] else []

theorem map_origin_validatorBindings (e : Entry) :
    (validatorBindings e).map Binding.origin = (validatorForms e).map fun f => .minted f e := by
  rw [validatorBindings, validatorForms]
  split <;> rfl

theorem declaresValidator_iff (e : Entry) (f : Form) : declaresValidator e f ↔
    isConcrete e.toDefinition = true ∧ f ∈ Form.name :: validatorForms e := by
  by_cases h : hasEquality e.toDefinition = true <;> cases f <;>
    simp [declaresValidator, validatorForms, h]

theorem validatorNames_nodup (texts : Texts) (entries : List Entry) :
    (validatorNames texts entries).Nodup := by
  have hhelpers : (helperNames ++ ["ValidationError", "ValidationResult",
      "isUniqueDecimalCollection"]).Nodup := by decide
  rw [validatorNames, List.append_assoc]
  refine hhelpers.sublist ((List.filter_sublist).append ?_)
  split <;> simp

theorem validatorsModule_perm (texts : Texts) (entries : List Entry) :
    ((validatorsModule texts entries).map Binding.origin).Perm
      ((validatorNames texts entries).map .fixed ++ (validated entries).flatMap fun e =>
        (Form.name :: validatorForms e).map fun f => .minted f e) := by
  have hunique : (if usesDecimalUnique texts entries then
        [(⟨.fixed "isUniqueDecimalCollection", .function, false⟩ : Binding)] else []).map
          Binding.origin =
      (if usesDecimalUnique texts entries then ["isUniqueDecimalCollection"] else []).map
        Origin.fixed := by
    split <;> rfl
  have hforms := List.map_append_flatMap_perm (validated entries) (Origin.minted .name) fun e =>
    (validatorForms e).map fun f => .minted f e
  simp only [validatorsModule, validatorNames, List.map_append, map_origin_imports, List.map_map,
    List.map_flatMap, map_origin_validatorBindings, hunique, List.append_assoc, List.map_cons]
  refine .append_left _ (.append_left _ ?_)
  exact (List.perm_append_comm_assoc _ _ _).trans (hforms.append_left _)

theorem mem_validatorsModule (texts : Texts) (entries : List Entry) (o : Origin) :
    o ∈ (validatorsModule texts entries).map Binding.origin ↔
      (∃ n ∈ validatorNames texts entries, o = .fixed n) ∨
        ∃ e ∈ entries, ∃ f, declaresValidator e f ∧ o = .minted f e := by
  rw [(validatorsModule_perm texts entries).mem_iff]
  simp only [List.mem_append, List.mem_map, List.mem_flatMap, mem_validated,
    declaresValidator_iff, and_assoc, eq_comm (a := o), exists_and_left]

theorem validatorsModule_names (texts : Texts) {entries : List Entry} (h : entries.Nodup) :
    ((validatorsModule texts entries).map Binding.name).Nodup ↔
      (∀ e ∈ entries, ∀ f, declaresValidator e f →
        f.apply e.identifier ∉ validatorNames texts entries) ∧
      ∀ a ∈ entries, ∀ b ∈ entries, ∀ f g, declaresValidator a f → declaresValidator b g →
        f.apply a.identifier = g.apply b.identifier → f = g ∧ a = b := by
  have hperm := validatorsModule_perm texts entries
  have hforms : ∀ e, (Form.name :: validatorForms e).Nodup := by
    intro e
    rw [validatorForms]
    split <;> decide
  refine names_nodup_iff (hperm.nodup_iff.2 (List.nodup_append.2 ⟨?_, ?_, ?_⟩)) fun o => ?_
  · exact (validatorNames_nodup texts entries).map fun a b hab => Origin.fixed.inj hab
  · refine List.nodup_flatMap.2 ⟨fun e _ => (hforms e).map fun f g hfg =>
      (Origin.minted.inj hfg).1, (h.filter _).imp fun {a b} hne o ha hb => hne ?_⟩
    obtain ⟨f, -, rfl⟩ := List.mem_map.1 ha
    obtain ⟨g, -, hg⟩ := List.mem_map.1 hb
    exact (Origin.minted.inj hg).2.symm
  · intro x hx y hy hxy
    obtain ⟨n, -, rfl⟩ := List.mem_map.1 hx
    obtain ⟨e, -, he⟩ := List.mem_flatMap.1 hy
    obtain ⟨f, -, rfl⟩ := List.mem_map.1 he
    cases hxy
  · exact mem_validatorsModule texts entries o

/-! ### What the barrel exports -/

/-- The names a module exports, in no order. -/
def Exports (bindings : List Binding) (name : String) : Prop :=
  ∃ b ∈ bindings, b.exported = true ∧ b.name = name

theorem mem_exportedNames {bindings : List Binding} {name : String} :
    name ∈ exportedNames bindings ↔ Exports bindings name := by
  simp only [exportedNames, List.mem_insertionSort, List.mem_dedup, List.mem_map, List.mem_filter,
    Exports, and_assoc]

theorem exportedNames_nodup (bindings : List Binding) : (exportedNames bindings).Nodup :=
  (List.perm_insertionSort _ _).nodup_iff.2 (List.nodup_dedup _)

theorem mem_published {permitted : List String} {bindings : List Binding} {name : String} :
    name ∈ published permitted bindings ↔ Exports bindings name ∧ name ∈ permitted := by
  by_cases h : name ∈ exportedTypeNames bindings <;>
    simp [published, mem_exportedNames, h]

theorem published_nodup (permitted : List String) (bindings : List Binding) :
    (published permitted bindings).Nodup := by
  have hnames := (exportedNames_nodup bindings).filter (· ∈ permitted)
  refine List.nodup_append.2 ⟨hnames.filter _, hnames.filter _, fun a ha b hb hab => ?_⟩
  have hin := of_decide_eq_true (List.mem_filter.1 ha).2
  have hout := of_decide_eq_true (List.mem_filter.1 hb).2
  exact hout (hab ▸ hin)

theorem exports_types {entries : List Entry} {name : String} :
    Exports (typesModule entries) name ↔ "UNION_DISCRIMINANT" = name ∨
      ∃ e ∈ entries, ∃ f, f ∈ [Form.name, .state, .of] ∧ declaresType e f ∧
        f.apply e.identifier = name := by
  have heach : ∀ e, Exports (typeBindings e) name ↔
      ∃ f, f ∈ [Form.name, .state, .of] ∧ declaresType e f ∧ f.apply e.identifier = name := by
    intro e
    cases hr : e.rendering <;>
      simp [Exports, typeBindings, hr, declaresType, Binding.name, Origin.name]
  constructor
  · rintro ⟨b, hb, hexported, hname⟩
    obtain rfl | hb := List.mem_cons.1 hb
    · exact .inl hname
    · obtain ⟨e, he, hbe⟩ := List.mem_flatMap.1 hb
      exact .inr ⟨e, he, (heach e).1 ⟨b, hbe, hexported, hname⟩⟩
  · rintro (hname | ⟨e, he, hforms⟩)
    · exact ⟨_, .head _, rfl, hname⟩
    · obtain ⟨b, hb, hexported⟩ := (heach e).2 hforms
      exact ⟨b, .tail _ (List.mem_flatMap.2 ⟨e, he, hb⟩), hexported⟩

theorem exports_validators {texts : Texts} {entries : List Entry} {name : String} :
    Exports (validatorsModule texts entries) name ↔
      ∃ e ∈ entries, ∃ f, f ∈ [Form.validate, .equals] ∧ declaresValidator e f ∧
        f.apply e.identifier = name := by
  have heach : ∀ e, Exports (validatorBindings e) name ↔
      ∃ f, f ∈ [Form.validate, .equals] ∧ f ∈ validatorForms e ∧ f.apply e.identifier = name := by
    intro e
    by_cases hr : hasEquality e.toDefinition = true <;>
      simp [Exports, validatorBindings, hr, validatorForms, Binding.name, Origin.name]
  have hforms : ∀ e f, f ∈ [Form.validate, .equals] → (declaresValidator e f ↔
      isConcrete e.toDefinition = true ∧ f ∈ validatorForms e) := by
    intro e f hf
    have hne : f ≠ .name := by
      rintro rfl
      revert hf
      decide
    rw [declaresValidator_iff, List.mem_cons, or_iff_right hne]
  constructor
  · rintro ⟨b, hb, hexported, hname⟩
    simp only [validatorsModule, imports, List.mem_append, List.mem_map, List.mem_flatMap] at hb
    obtain (((⟨n, -, rfl⟩ | ⟨n, -, rfl⟩) | ⟨e, -, rfl⟩) | hb) | ⟨e, he, hb⟩ := hb
    · cases hexported
    · cases hexported
    · cases hexported
    · split at hb
      · rw [List.mem_singleton.1 hb] at hexported
        cases hexported
      · cases hb
    · obtain ⟨hmem, hconcrete⟩ := mem_validated.1 he
      obtain ⟨f, hf, hform, happly⟩ := (heach e).1 ⟨b, hb, hexported, hname⟩
      exact ⟨e, hmem, f, hf, (hforms e f hf).2 ⟨hconcrete, hform⟩, happly⟩
  · rintro ⟨e, he, f, hf, hdeclares, happly⟩
    obtain ⟨hconcrete, hform⟩ := (hforms e f hf).1 hdeclares
    obtain ⟨b, hb, hexported⟩ := (heach e).2 ⟨f, hf, hform, happly⟩
    exact ⟨b, List.mem_append_right _ (List.mem_flatMap.2 ⟨e, mem_validated.2 ⟨he, hconcrete⟩, hb⟩),
      hexported⟩

/-- What the barrel may export of errors.ts and of identity.ts. -/
def runtimeExports (carriesConstructData : Bool) : List String :=
  exportedNames errorsModule ++ exportedNames (identityModule carriesConstructData)

theorem apply_permitted {entries : List Entry} {e : Entry} (he : e ∈ entries) {f : Form}
    (hf : f ∈ Form.name :: perTypeSurface) : f.apply e.identifier ∈ permittedExports entries := by
  refine List.mem_append_right _ (List.mem_flatMap.2 ⟨e, he, ?_⟩)
  obtain rfl | hf := List.mem_cons.1 hf
  · rw [Form.apply_name]
    exact .head _
  · exact .tail _ (List.mem_map.2 ⟨f, hf, rfl⟩)

theorem exports_types_permitted {entries : List Entry} {name : String}
    (h : Exports (typesModule entries) name) : name ∈ permittedExports entries := by
  obtain rfl | ⟨e, he, f, hf, -, rfl⟩ := exports_types.1 h
  · exact List.mem_append_left _ (by decide)
  · have hsub : ∀ f ∈ [Form.name, .state, .of], f ∈ Form.name :: perTypeSurface := by decide
    exact apply_permitted he (hsub f hf)

theorem exports_validators_permitted {texts : Texts} {entries : List Entry} {name : String}
    (h : Exports (validatorsModule texts entries) name) : name ∈ permittedExports entries := by
  obtain ⟨e, he, f, hf, -, rfl⟩ := exports_validators.1 h
  have hsub : ∀ f ∈ [Form.validate, .equals], f ∈ Form.name :: perTypeSurface := by decide
  exact apply_permitted he (hsub f hf)

theorem exports_errors {name : String} (h : Exports errorsModule name) :
    name ∈ fixedApiSurface ∨ name ∈ withheldExports := by
  have hall : ∀ b ∈ errorsModule, b.exported = true →
      b.name ∈ fixedApiSurface ∨ b.name ∈ withheldExports := by decide
  obtain ⟨b, hb, hexported, rfl⟩ := h
  exact hall b hb hexported

theorem exports_identity {carriesConstructData : Bool} {name : String}
    (h : Exports (identityModule carriesConstructData) name) : name ∈ fixedApiSurface := by
  have hall : ∀ carries, ∀ b ∈ identityModule carries, b.name ∈ fixedApiSurface := by decide
  obtain ⟨b, hb, -, rfl⟩ := h
  exact hall _ b hb

/-- No generated module exports a name outside the declared surface. -/
theorem leaked_eq_nil (texts : Texts) (model : Model) : leaked texts model = [] := by
  have hallowed : ∀ bindings ∈ modules texts model, ∀ name, Exports bindings name →
      name ∈ permittedExports model.types ∨ name ∈ withheldExports := by
    simp only [modules, List.forall_mem_cons]
    refine ⟨fun _ h => .inl (exports_types_permitted h),
      fun _ h => .inl (exports_validators_permitted h),
      fun _ h => (exports_errors h).imp_left (List.mem_append_left _),
      fun _ h => .inl (List.mem_append_left _ (exports_identity h)), fun _ h => ?_⟩
    cases h
  refine List.flatMap_eq_nil_iff.2 fun bindings hb => List.filter_eq_nil_iff.2 fun name hname => ?_
  have hname := hallowed bindings hb name (mem_exportedNames.1 hname)
  simpa [not_and_or, imp_iff_not_or] using hname

theorem mem_runtimeExports {carries : Bool} {name : String} : name ∈ runtimeExports carries ↔
    Exports errorsModule name ∨ Exports (identityModule carries) name := by
  rw [runtimeExports, List.mem_append, mem_exportedNames, mem_exportedNames]

theorem runtime_disjoint {carries : Bool} {name : String} (h : Exports errorsModule name) :
    ¬ Exports (identityModule carries) name := by
  have hall : ∀ carries, ∀ b ∈ errorsModule, ∀ c ∈ identityModule carries,
      b.name ≠ c.name := by decide
  obtain ⟨b, hb, -, rfl⟩ := h
  rintro ⟨c, hc, -, hname⟩
  exact hall carries b hb c hc hname.symm

theorem barrel_nodup_iff (texts : Texts) (model : Model) :
    ((modules texts model).flatMap (published (permittedExports model.types))).Nodup ↔
      (∀ name, Exports (typesModule model.types) name →
        ¬ Exports (validatorsModule texts model.types) name ∧
          name ∉ runtimeExports texts.carriesConstructData) ∧
      ∀ name, Exports (validatorsModule texts model.types) name →
        name ∉ runtimeExports texts.carriesConstructData := by
  simp only [modules, List.flatMap_cons, List.flatMap_nil, List.append_nil, List.nodup_append,
    published_nodup, mem_published, List.mem_append, true_and, mem_runtimeExports]
  constructor
  · intro ⟨⟨_, hvalidators⟩, htypes⟩
    refine ⟨fun name h => ⟨fun hv => ?_, fun hr => ?_⟩, fun name h hr => ?_⟩
    · have hpermitted := exports_types_permitted h
      exact htypes name ⟨h, hpermitted⟩ name (.inl ⟨hv, hpermitted⟩) rfl
    · have hpermitted := exports_types_permitted h
      exact htypes name ⟨h, hpermitted⟩ name
        (.inr (hr.imp (⟨·, hpermitted⟩) (⟨·, hpermitted⟩))) rfl
    · have hpermitted := exports_validators_permitted h
      exact hvalidators name ⟨h, hpermitted⟩ name (hr.imp (⟨·, hpermitted⟩) (⟨·, hpermitted⟩)) rfl
  · intro ⟨htypes, hvalidators⟩
    refine ⟨⟨?_, ?_⟩, ?_⟩
    · rintro a ⟨ha, -⟩ b ⟨hb, -⟩ rfl
      exact runtime_disjoint ha hb
    · rintro a ⟨ha, -⟩ b hb rfl
      exact hvalidators a ha (hb.imp And.left And.left)
    · rintro a ⟨ha, -⟩ b hb rfl
      obtain ⟨hv, -⟩ | hr := hb
      · exact (htypes a ha).1 hv
      · exact (htypes a ha).2 (hr.imp And.left And.left)

/-! ### The helpers a body reaches -/

theorem mentions_of_infix {text word : String}
    (h : ∃ c d, isWordChar c = false ∧ isWordChar d = false ∧
      c :: (word.toList ++ [d]) <:+: text.toList) : mentions text word = true := by
  obtain ⟨c, d, hc, hd, front, back, htext⟩ := h
  refine List.any_eq_true.2 ⟨front.length + 1, List.mem_range.2 ?_, ?_⟩
  · rw [← htext]
    simp only [List.length_append, List.length_cons]
    omega
  · have hsplit : text.toList = (front ++ [c]) ++ (word.toList ++ (d :: back)) := by
      rw [← htext]
      simp
    have hlength : (front ++ [c]).length = front.length + 1 := by simp
    have hdrop : text.toList.drop (front.length + 1 + word.toList.length) = d :: back := by
      rw [← List.drop_drop, hsplit, ← hlength, List.drop_left, List.drop_left]
    rw [hdrop, hsplit, ← hlength, List.drop_left, List.take_left]
    simp [hc, hd, List.isPrefixOf_iff_prefix]

theorem infix_lines {parts : List String} {part : String} (sep : String) (h : part ∈ parts) :
    part.toList <:+: (sep.intercalate parts).toList := by
  rw [String.toList_intercalate]
  exact infix_intercalate (List.mem_map_of_mem h)

theorem infix_append {part text : String} (before after : String)
    (h : text = before ++ part ++ after) : part.toList <:+: text.toList := by
  rw [h, String.toList_append, String.toList_append]
  exact List.infix_append _ _ _

theorem infix_blockBody {texts : Texts} {entries : List Entry} {e : Entry} {block : String}
    (he : e ∈ validated entries) (hblock : block ∈ blocksOf texts e) :
    block.toList <:+: (blockBody texts entries).toList :=
  infix_lines _ (List.mem_flatMap.2 ⟨e, he, hblock⟩)

theorem infix_validatorsBody (texts : Texts) (entries : List Entry) :
    (blockBody texts entries).toList <:+: (validatorsBody texts entries).toList := by
  by_cases h : blockBody texts entries = ""
  · rw [h]
    exact List.nil_infix
  · exact infix_lines _ (List.mem_filter.2 ⟨.tail _ (.head _), decide_eq_true h⟩)

theorem depthFailure_codes : " CODES.".toList <:+: depthFailure.toList := by decide

theorem mem_checkLines (identifier candidateName surfacedName checkBody : String) :
    checkBody ∈ checkLines identifier candidateName surfacedName checkBody :=
  .tail _ (.tail _ (.tail _ (.tail _ (.tail _ (.tail _ (.tail _ (.head _)))))))

theorem codes_helper (texts : Texts) {entries : List Entry} {e : Entry}
    (he : e ∈ validated entries) : "CODES" ∈ helpers texts entries := by
  have hline : ' ' :: ("CODES".toList ++ ['.']) <:+: depthFailure.toList := depthFailure_codes
  have htext : depthFailure.toList <:+: (checkText texts e).toList :=
    infix_lines _ (List.mem_append_left _ (List.mem_append_right _ (.tail _ (.head _))))
  have hblock : (checkText texts e).toList <:+: (checkBlock texts e).toList := by
    rw [checkBlock, lines]
    exact infix_lines "\n" (mem_checkLines _ _ _ _)
  have hbody : (checkBlock texts e).toList <:+: (blockBody texts entries).toList :=
    infix_blockBody he (.tail _ (.head _))
  have hinfix := hline.trans (htext.trans (hblock.trans (hbody.trans
    (infix_validatorsBody texts entries))))
  exact List.mem_filter.2 ⟨.head _, mentions_of_infix ⟨' ', '.', rfl, rfl, hinfix⟩⟩

theorem usesDecimalUnique_of {texts : Texts} {entries : List Entry} {e : Entry}
    (he : e ∈ validated entries) (hname : e.identifier = "isUniqueDecimalCollection") :
    usesDecimalUnique texts entries = true := by
  have hfirst : ("function prepare" ++ e.identifier ++
      "(value: unknown, depth: number): unknown \x7b").toList <:+: (prepareBlock texts e).toList :=
    infix_lines _ (.head _)
  have hbody := @infix_blockBody texts _ _ _ he (.head _)
  rw [usesDecimalUnique, includes, decide_eq_true_eq, ← hname]
  exact (infix_append _ _ rfl).trans (hfirst.trans hbody)

end FilamentCore.Backends.TypescriptNames
