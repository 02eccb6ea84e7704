import FilamentCore.Backends.SysmlV2

/-!
# What the SysML v2 text tells of a document (src/compiler/backends/sysml-v2/index.mjs)

Of a document whose projection is written: the names in each namespace of the text are distinct,
every name written as a reference is the one its target is declared under, and which members of the
document the text and its loss diagnostics tell.
-/

namespace FilamentCore.Backends.Sysml
open FilamentCore.SemanticIr (Json)

/-! ### What is asked of a projection -/

/-- What the reader checks of a document that matters here. -/
structure Document.Admitted (ir : Document) : Prop where
  types : (ir.types.map TypeDefinition.identity).Nodup
  fields : ∀ type ∈ ir.types, (type.fields.map Field.identity).Nodup
  variants : ∀ type ∈ ir.types, (type.variants.map Variant.identity).Nodup

structure FieldRestrictions where
  identity : String
  typeRef : String
  decimal : Option DecimalPolicy
  presence : Presence
  nullable : Bool
  defaultKind : DefaultKind
  multiplicity : Multiplicity
  unit : Option String
  constraints : List Member

def Field.restrictions (f : Field) : FieldRestrictions :=
  ⟨f.identity, f.typeRef, f.decimal, f.presence, f.nullable, f.defaultKind, f.multiplicity, f.unit,
    f.constraints⟩

structure Restrictions where
  identity : String
  kind : Kind
  unknownPolicy : UnknownPolicy
  scalar : Option Scalar
  decimal : Option DecimalPolicy
  target : Option String
  constraints : List Member
  fields : List FieldRestrictions
  payloads : List (String × Option String)

def TypeDefinition.restrictions (type : TypeDefinition) : Restrictions :=
  ⟨type.identity, type.kind, type.unknownPolicy, type.scalar, type.decimal, type.target,
    type.constraints, type.fields.map Field.restrictions,
    type.variants.map fun variant => (variant.identity, variant.payloadType)⟩

/-- The text and the diagnostics tell these members: a document of the same types that is projected
to the same output has them too. -/
def Document.Told (ir : Document) : Prop :=
  ∀ other : Document, other.Admitted →
    other.types.map TypeDefinition.identity = ir.types.map TypeDefinition.identity →
      generate other = generate ir →
        other.types.map TypeDefinition.restrictions = ir.types.map TypeDefinition.restrictions

def Definition.identity : Definition → String
  | item identity _ _ => identity
  | enumeration identity _ _ => identity
  | .alias identity _ _ => identity

def Definition.name : Definition → String
  | item _ name _ => name
  | enumeration _ name _ => name
  | .alias _ name _ => name

/-- `name` is what the type `reference` is declared under. -/
def Refers (ir : Document) (package : Package) (reference name : String) : Prop :=
  ∃ target ∈ ir.types, target.identity = reference ∧
    ((target.kind = .scalar ∧ target.scalar.bind Scalar.sysml = some name) ∨
      ∃ definition ∈ package.definitions,
        definition.identity = reference ∧ definition.name = name)

/-- Every reference of the text is the name under which its target is declared. -/
structure ReferencesDeclared (ir : Document) (package : Package) : Prop where
  attributes : ∀ identity name attributes, .item identity name attributes ∈ package.definitions →
    ∀ a ∈ attributes, ∃ type ∈ ir.types, type.identity = identity ∧
      ∃ field ∈ type.fields, field.identity = a.identity ∧ Refers ir package field.typeRef a.target
  aliases : ∀ identity name target, .alias identity name target ∈ package.definitions →
    ∃ type ∈ ir.types, type.identity = identity ∧
      ∃ reference, type.target = some reference ∧ Refers ir package reference target

structure NamesDistinct (package : Package) : Prop where
  definitions : (package.definitions.map Definition.name).Nodup
  attributes : ∀ identity name attributes, .item identity name attributes ∈ package.definitions →
    (attributes.map Attribute.name).Nodup
  literals : ∀ identity name literals, .enumeration identity name literals ∈ package.definitions →
    literals.Nodup

/-- The projection of a document that answers `success` drops nothing silently. -/
structure Document.Faithful (ir : Document) : Prop where
  told : ir.Told
  written : ∃ name, ((generate ir).files.map File.text) = [(packageOf ir name).text] ∧
    ReferencesDeclared ir (packageOf ir name) ∧ NamesDistinct (packageOf ir name)

/-! ### Lists of diagnostics without a blocking one -/

def Clean (diagnostics : List Diagnostic) : Prop :=
  ∀ d ∈ diagnostics, d.code.blocking = false

theorem clean_append {l l' : List Diagnostic} : Clean (l ++ l') ↔ Clean l ∧ Clean l' := by
  simp only [Clean, List.forall_mem_append]

theorem clean_flatMap {α : Type} {l : List α} {f : α → List Diagnostic} :
    Clean (l.flatMap f) ↔ ∀ a ∈ l, Clean (f a) := by
  simp only [Clean, List.forall_mem_flatMap]

theorem not_clean_unsupported {l : List Diagnostic} {identity : Option String}
    {origin : Option Origin} {reason : String} (h : unsupported identity origin reason ∈ l) :
    ¬ Clean l := by
  intro hc
  exact absurd (hc _ h) (by simp [unsupported, Code.blocking])

theorem clean_any {l : List Diagnostic} :
    (l.any fun entry => entry.code.blocking) = false ↔ Clean l := by
  rw [List.any_eq_false]
  simp only [Clean, Bool.not_eq_true]

/-! ### Names -/

def quoted (name : String) : String := "'" ++ name ++ "'"

theorem quoted_injective : Function.Injective quoted := by
  intro a b h
  have hl := congrArg String.toList h
  simp only [quoted, String.toList_append] at hl
  exact String.toList_inj.1 (List.append_cancel_left (List.append_cancel_right hl))

theorem identifier_clean {node : Named} (h : Clean node.identifier.2) :
    node.identifier = (some (quoted node.shortName), []) ∧ node.shortName ≠ "" := by
  rw [Named.identifier, semanticIdentifier] at h ⊢
  split at h
  · rename_i hf
    rw [if_pos hf]
    rw [identifier] at h ⊢
    split at h
    · rename_i hq
      rw [if_pos hq]
      refine ⟨rfl, fun he => ?_⟩
      rw [Named.shortName] at he
      rw [he] at hq
      exact absurd hq (by decide)
    · exact absurd h (not_clean_unsupported List.mem_cons_self)
  · exact absurd h (not_clean_unsupported List.mem_cons_self)

theorem scopeCollisions_clean {scope : String} {seen nodes : List Named}
    (hseen : ∀ a ∈ seen, ∀ b ∈ seen, a.shortName = b.shortName → a.identity = b.identity)
    (h : Clean (scopeCollisions scope seen nodes)) :
    ∀ a ∈ nodes, a.shortName ≠ "" → ∀ b, b ∈ seen ∨ b ∈ nodes → b.shortName = a.shortName →
      b.identity = a.identity := by
  induction nodes generalizing seen with
  | nil => exact fun a ha => absurd ha List.not_mem_nil
  | cons node nodes ih =>
    rw [scopeCollisions] at h
    by_cases hempty : node.shortName = ""
    · rw [if_pos hempty] at h
      have hrest := ih hseen h
      intro a ha hne b hb hname
      have hother : ∀ c : Named, c = node → c.shortName ≠ a.shortName := by
        intro c hc heq
        exact hne (heq.symm.trans (hc ▸ hempty))
      obtain rfl | ha := List.mem_cons.1 ha
      · exact absurd hempty hne
      · refine hrest a ha hne b (hb.imp_right fun hb => ?_) hname
        exact (List.mem_cons.1 hb).resolve_left fun hbn => hother b hbn hname
    · rw [if_neg hempty] at h
      have hstep : Clean (scopeCollisions scope (node :: seen) nodes) ∧
          ∀ b ∈ seen, b.shortName = node.shortName → b.identity = node.identity := by
        cases hfind : seen.find? fun prior => prior.shortName == node.shortName with
        | none =>
          rw [hfind] at h
          refine ⟨h, fun b hb hname => ?_⟩
          exact absurd (beq_iff_eq.2 hname) (List.find?_eq_none.1 hfind b hb)
        | some prior =>
          rw [hfind] at h
          have hprior := List.mem_of_find?_eq_some hfind
          have hpname : prior.shortName = node.shortName := by
            simpa using List.find?_some hfind
          by_cases hid : prior.identity = node.identity
          · simp only [if_pos hid] at h
            exact ⟨h, fun b hb hname =>
              (hseen b hb prior hprior (hname.trans hpname.symm)).trans hid⟩
          · simp only [if_neg hid] at h
            exact absurd h (not_clean_unsupported List.mem_cons_self)
      obtain ⟨hclean, hnode⟩ := hstep
      have hseen' : ∀ a ∈ node :: seen, ∀ b ∈ node :: seen, a.shortName = b.shortName →
          a.identity = b.identity := by
        intro a ha b hb hname
        obtain ha' | ha' := List.mem_cons.1 ha
        · obtain hb' | hb' := List.mem_cons.1 hb
          · rw [ha', hb']
          · rw [ha'] at hname ⊢
            exact (hnode b hb' hname.symm).symm
        · obtain hb' | hb' := List.mem_cons.1 hb
          · rw [hb'] at hname ⊢
            exact hnode a ha' hname
          · exact hseen a ha' b hb' hname
      have hrest := ih hseen' hclean
      intro a ha hne b hb hname
      obtain rfl | ha := List.mem_cons.1 ha
      · obtain hb | hb := hb
        · exact hnode b hb hname
        · obtain rfl | hb := List.mem_cons.1 hb
          · rfl
          · have hbne : b.shortName ≠ "" := hname ▸ hne
            exact (hrest b hb hbne a (Or.inl List.mem_cons_self) hname.symm).symm
      · refine hrest a ha hne b ?_ hname
        obtain hb | hb := hb
        · exact Or.inl (List.mem_cons_of_mem _ hb)
        · obtain rfl | hb := List.mem_cons.1 hb
          · exact Or.inl List.mem_cons_self
          · exact Or.inr hb

theorem scope_nodup {scope : String} {nodes : List Named}
    (h : Clean (scopeCollisions scope [] nodes)) (hn : (nodes.map Named.identity).Nodup)
    (hnames : ∀ node ∈ nodes, node.shortName ≠ "") :
    (nodes.map fun node => quoted node.shortName).Nodup := by
  have hclean := scopeCollisions_clean (fun a ha => absurd ha List.not_mem_nil) h
  have hnodup : nodes.Nodup := List.Nodup.of_map _ hn
  refine hnodup.map_on fun a ha b hb he => ?_
  have hname := quoted_injective he
  exact List.inj_on_of_nodup_map hn ha hb (hclean b hb (hnames b hb) a (Or.inr ha) hname)

/-! ### Rendered definitions -/

theorem typeOf_some {types : List TypeDefinition} {identity : String} {type : TypeDefinition}
    (h : typeOf types identity = some type) : type ∈ types ∧ type.identity = identity := by
  have hm := List.mem_of_find?_eq_some h
  have hk := List.find?_some h
  exact ⟨List.mem_reverse.1 hm, by simpa using hk⟩

/-- The name that stands for a target: a scalar of the library or a declared enum. -/
def NamedBy (types : List TypeDefinition) (reference name : String) : Prop :=
  ∃ target ∈ types, target.identity = reference ∧
    ((target.kind = .scalar ∧ target.scalar.bind Scalar.sysml = some name) ∨
      target.kind ≠ .scalar ∧ name = quoted target.named.shortName)

theorem scalarName_some {type : TypeDefinition} {name : String}
    (h : scalarName type = some name) :
    type.kind = .scalar ∧ type.scalar.bind Scalar.sysml = some name := by
  rw [scalarName] at h
  split at h
  · exact ⟨by assumption, h⟩
  · exact absurd h (by simp)

theorem fieldType_clean {field : Field} {types : List TypeDefinition}
    (h : Clean (fieldType field types).2) :
    ∃ target, (fieldType field types).1 = some target ∧ NamedBy types field.typeRef target := by
  rw [fieldType] at h ⊢
  cases ht : typeOf types field.typeRef with
  | none =>
    rw [ht] at h
    exact absurd h (not_clean_unsupported List.mem_cons_self)
  | some type =>
    obtain ⟨hm, hid⟩ := typeOf_some ht
    cases hs : scalarName type with
    | some scalar =>
      simp only [ht, hs] at h ⊢
      exact ⟨scalar, rfl, type, hm, hid, Or.inl (scalarName_some hs)⟩
    | none =>
      simp only [ht, hs] at h ⊢
      by_cases hr : type.kind = .record
      · rw [if_pos hr] at h
        exact absurd h (not_clean_unsupported List.mem_cons_self)
      · rw [if_neg hr] at h ⊢
        by_cases he : type.kind = .enum
        · rw [if_pos he] at h ⊢
          rw [(identifier_clean h).1]
          exact ⟨_, rfl, type, hm, hid, Or.inr ⟨by rw [he]; decide, rfl⟩⟩
        · rw [if_neg he] at h
          exact absurd h (not_clean_unsupported List.mem_cons_self)

theorem renderField_clean {field : Field} {types : List TypeDefinition}
    (h : Clean (renderField field types).2) :
    ∃ a, (renderField field types).1 = some a ∧ a.identity = field.identity ∧
      a.name = quoted field.named.shortName ∧ field.named.shortName ≠ "" ∧
        NamedBy types field.typeRef a.target := by
  rw [renderField] at h ⊢
  simp only [clean_append] at h
  obtain ⟨⟨-, hname⟩, htarget⟩ := h
  obtain ⟨hid, hne⟩ := identifier_clean hname
  obtain ⟨target, ht, hnamed⟩ := fieldType_clean htarget
  simp only [hid, ht]
  exact ⟨_, rfl, rfl, rfl, hne, hnamed⟩

theorem filterMap_map_eq {α β γ : Type} {l : List α} {g : α → Option β} {p : α → Bool}
    {f : β → γ} {k : α → γ} (h : ∀ a ∈ l, if p a then ∃ b, g a = some b ∧ f b = k a else g a = none) :
    (l.filterMap g).map f = (l.filter p).map k := by
  induction l with
  | nil => rfl
  | cons a l ih =>
    have hhead := h a List.mem_cons_self
    have hrest := ih fun b hb => h b (List.mem_cons_of_mem _ hb)
    cases hp : p a with
    | true =>
      rw [hp, if_pos rfl] at hhead
      obtain ⟨b, hb, hf⟩ := hhead
      rw [List.filterMap_cons_some hb, List.filter_cons_of_pos hp, List.map_cons, List.map_cons,
        hf, hrest]
    | false =>
      rw [hp, if_neg Bool.false_ne_true] at hhead
      rw [List.filterMap_cons_none hhead, List.filter_cons_of_neg (by rw [hp]; decide), hrest]

def Renders (types : List TypeDefinition) (type : TypeDefinition) : Definition → Prop
  | .item identity name attributes => type.kind = .record ∧ identity = type.identity ∧
      name = quoted type.named.shortName ∧
      attributes = (type.fields.map fun field => renderField field types).filterMap Prod.fst ∧
      ∀ field ∈ type.fields, Clean (renderField field types).2
  | .enumeration identity name literals => type.kind = .enum ∧ identity = type.identity ∧
      name = quoted type.named.shortName ∧
      literals = (type.variants.map fun variant => variant.named.identifier).filterMap Prod.fst ∧
      ∀ variant ∈ type.variants, Clean variant.named.identifier.2
  | .alias identity name target => type.kind = .alias ∧ identity = type.identity ∧
      name = quoted type.named.shortName ∧
      ∃ reference, type.target = some reference ∧ NamedBy types reference target

theorem renderRecord_clean {type : TypeDefinition} {types : List TypeDefinition}
    (hk : type.kind = .record) (h : Clean (renderRecord type types).2) :
    type.named.shortName ≠ "" ∧
      ∃ d, (renderRecord type types).1 = some d ∧ Renders types type d := by
  rw [renderRecord] at h ⊢
  cases hid : type.named.identifier with
  | mk name diagnostics =>
    have hclean : Clean type.named.identifier.2 := by
      rw [hid] at h ⊢
      cases name with
      | none => exact h
      | some name => exact (clean_append.1 h).1
    obtain ⟨heq, hne⟩ := identifier_clean hclean
    rw [hid] at heq
    obtain ⟨rfl, rfl⟩ := Prod.mk.inj heq
    rw [hid] at h
    refine ⟨hne, _, rfl, hk, rfl, rfl, rfl, fun field hf => ?_⟩
    exact clean_flatMap.1 (clean_append.1 h).2 _ (List.mem_map_of_mem hf)

theorem renderEnum_clean {type : TypeDefinition} {types : List TypeDefinition}
    (hk : type.kind = .enum) (h : Clean (renderEnum type).2) :
    type.named.shortName ≠ "" ∧ ∃ d, (renderEnum type).1 = some d ∧ Renders types type d := by
  rw [renderEnum] at h ⊢
  cases hid : type.named.identifier with
  | mk name diagnostics =>
    have hclean : Clean type.named.identifier.2 := by
      rw [hid] at h ⊢
      cases name with
      | none => exact h
      | some name => exact (clean_append.1 h).1
    obtain ⟨heq, hne⟩ := identifier_clean hclean
    rw [hid] at heq
    obtain ⟨rfl, rfl⟩ := Prod.mk.inj heq
    rw [hid] at h
    refine ⟨hne, _, rfl, hk, rfl, rfl, rfl, fun variant hv => ?_⟩
    exact clean_flatMap.1 (clean_append.1 h).2 _ (List.mem_map_of_mem hv)

theorem renderAlias_clean {type : TypeDefinition} {types : List TypeDefinition}
    (hscalars : ∀ t ∈ types, t.kind = .scalar → (scalarName t).isSome = true)
    (hk : type.kind = .alias) (h : Clean (renderAlias type types).2) :
    type.named.shortName ≠ "" ∧
      ∃ d, (renderAlias type types).1 = some d ∧ Renders types type d := by
  rw [renderAlias] at h ⊢
  cases ht : type.target.bind (typeOf types) with
  | none =>
    simp only [ht] at h
    exact absurd h (not_clean_unsupported (List.mem_append_right _ List.mem_cons_self))
  | some target =>
    obtain ⟨reference, href, htarget⟩ := Option.bind_eq_some_iff.1 ht
    obtain ⟨hm, hid⟩ := typeOf_some htarget
    simp only [ht] at h ⊢
    obtain ⟨hname, htname⟩ := clean_append.1 h
    obtain ⟨heq, hne⟩ := identifier_clean hname
    refine ⟨hne, ?_⟩
    cases hs : scalarName target with
    | some scalar =>
      simp only [heq]
      exact ⟨_, rfl, hk, rfl, rfl, reference, href, target, hm, hid, Or.inl (scalarName_some hs)⟩
    | none =>
      simp only [hs] at htname
      simp only [heq, (identifier_clean htname).1]
      refine ⟨_, rfl, hk, rfl, rfl, reference, href, target, hm, hid, Or.inr ⟨fun hkind => ?_, rfl⟩⟩
      have hsome := hscalars target hm hkind
      rw [hs] at hsome
      exact absurd hsome Bool.false_ne_true

theorem gates_clean {type : TypeDefinition} {types : List TypeDefinition}
    (h : Clean (renderKind type types).2) : (∀ text, type.kind ≠ .other text) ∧
      type.isAbstract = false ∧ type.supertypes = [] ∧ type.identityFields = [] := by
  rw [renderKind] at h
  split at h
  · exact absurd h (not_clean_unsupported List.mem_cons_self)
  · rename_i hkind
    refine ⟨hkind, ?_⟩
    split at h
    · exact absurd h (not_clean_unsupported List.mem_cons_self)
    · rename_i habstract
      split at h
      · exact absurd h (not_clean_unsupported List.mem_cons_self)
      · rename_i hsupertypes
        split at h
        · exact absurd h (not_clean_unsupported List.mem_cons_self)
        · rename_i hfields
          exact ⟨by simpa using habstract, not_not.1 hsupertypes, not_not.1 hfields⟩

theorem scalar_clean {type : TypeDefinition} {types : List TypeDefinition}
    (hk : type.kind = .scalar) (h : Clean (renderType type types).2) :
    (scalarName type).isSome = true ∧ (renderType type types).1 = none := by
  have hkind := (clean_append.1 h).2
  obtain ⟨-, habstract, hsupertypes, hfields⟩ := gates_clean hkind
  rw [renderType]
  simp only [renderKind, hk, habstract, hsupertypes, hfields, ne_eq, not_true_eq_false, if_false,
    Bool.false_eq_true] at hkind ⊢
  refine ⟨?_, trivial⟩
  by_contra hnone
  rw [if_neg hnone] at hkind
  exact absurd hkind (not_clean_unsupported List.mem_cons_self)

theorem definition_clean {type : TypeDefinition} {types : List TypeDefinition}
    (hscalars : ∀ t ∈ types, t.kind = .scalar → (scalarName t).isSome = true)
    (hk : type.kind ≠ .scalar) (h : Clean (renderType type types).2) :
    type.named.shortName ≠ "" ∧
      ∃ d, (renderType type types).1 = some d ∧ Renders types type d := by
  have hkind := (clean_append.1 h).2
  obtain ⟨hother, habstract, hsupertypes, hfields⟩ := gates_clean hkind
  rw [renderType]
  cases hkd : type.kind
  case scalar => exact absurd hkd hk
  case other text => exact absurd hkd (hother text)
  all_goals
    simp only [renderKind, hkd, habstract, hsupertypes, hfields, ne_eq, not_true_eq_false, if_false,
      Bool.false_eq_true] at hkind ⊢
  · exact renderRecord_clean hkd hkind
  · exact renderEnum_clean hkd hkind
  · exact renderAlias_clean hscalars hkd hkind

/-! ### Documents that are written -/

/-- A run that answers `success` raised nothing that blocks. -/
theorem generate_success {ir : Document} (h : (generate ir).state = .success) :
    Clean (diagnosticsOf ir) ∧ ∃ name, (generate ir).files.map File.text =
      [(packageOf ir name).text] := by
  rw [generate] at h ⊢
  cases hb : (diagnosticsOf ir).any fun entry => entry.code.blocking with
  | true =>
    simp only [hb, if_true] at h
    exact absurd h (by decide)
  | false =>
    simp only [hb, Bool.false_eq_true, if_false] at h ⊢
    refine ⟨clean_any.1 hb, ?_⟩
    cases hid : identifier (packageShortName ir.packageIdentity) (some ir.packageIdentity)
        (packageOrigin ir) with
    | mk name refused =>
      cases name with
      | none =>
        simp only [hid] at h
        exact absurd h (by decide)
      | some name => exact ⟨name, rfl⟩

theorem types_clean {ir : Document} (h : Clean (diagnosticsOf ir)) :
    ∀ type ∈ ir.types, Clean (renderType type ir.types).2 := by
  intro type ht
  have hrendered := (clean_append.1 (clean_append.1 h).1).2
  exact clean_flatMap.1 hrendered _ (List.mem_map_of_mem ht)

theorem scalars_named {ir : Document} (h : Clean (diagnosticsOf ir)) :
    ∀ type ∈ ir.types, type.kind = .scalar → (scalarName type).isSome = true :=
  fun type ht hk => (scalar_clean hk (types_clean h type ht)).1

theorem mem_definitions {ir : Document} (h : Clean (diagnosticsOf ir)) {name : String}
    {d : Definition} (hd : d ∈ (packageOf ir name).definitions) :
    ∃ type ∈ ir.types, type.kind ≠ .scalar ∧ (renderType type ir.types).1 = some d ∧
      Renders ir.types type d := by
  obtain ⟨emitted, he, hsome⟩ := List.mem_filterMap.1 hd
  obtain ⟨type, ht, rfl⟩ := List.mem_map.1 he
  have hclean := types_clean h type ht
  by_cases hk : type.kind = .scalar
  · rw [(scalar_clean hk hclean).2] at hsome
    exact absurd hsome (by simp)
  · obtain ⟨-, d', hd', hr⟩ := definition_clean (scalars_named h) hk hclean
    rw [hd'] at hsome
    exact ⟨type, ht, hk, hsome ▸ hd', Option.some.inj hsome ▸ hr⟩

theorem renders_identity {types : List TypeDefinition} {type : TypeDefinition} {d : Definition}
    (h : Renders types type d) :
    d.identity = type.identity ∧ d.name = quoted type.named.shortName := by
  cases d <;> exact ⟨h.2.1, h.2.2.1⟩

theorem refers_of_namedBy {ir : Document} (h : Clean (diagnosticsOf ir)) {package reference : String}
    {name : String} (hn : NamedBy ir.types reference name) :
    Refers ir (packageOf ir package) reference name := by
  obtain ⟨target, ht, hid, hscalar | ⟨hk, hname⟩⟩ := hn
  · exact ⟨target, ht, hid, Or.inl hscalar⟩
  · obtain ⟨-, d, hd, hr⟩ := definition_clean (scalars_named h) hk (types_clean h target ht)
    obtain ⟨hdid, hdname⟩ := renders_identity hr
    refine ⟨target, ht, hid, Or.inr ⟨d, ?_, hdid.trans hid, hdname.trans hname.symm⟩⟩
    exact List.mem_filterMap.2 ⟨_, List.mem_map_of_mem ht, hd⟩

theorem references_declared {ir : Document} (h : Clean (diagnosticsOf ir)) (package : String) :
    ReferencesDeclared ir (packageOf ir package) := by
  constructor
  · intro identity name attributes hd a ha
    obtain ⟨type, ht, -, -, hr⟩ := mem_definitions h hd
    obtain ⟨-, hid, -, hattributes, hclean⟩ := hr
    rw [hattributes] at ha
    obtain ⟨emitted, he, hsome⟩ := List.mem_filterMap.1 ha
    obtain ⟨field, hf, rfl⟩ := List.mem_map.1 he
    obtain ⟨b, hb, hbid, -, -, hnamed⟩ := renderField_clean (hclean field hf)
    rw [hb] at hsome
    rw [Option.some.inj hsome] at hbid hnamed
    exact ⟨type, ht, hid.symm, field, hf, hbid.symm, refers_of_namedBy h hnamed⟩
  · intro identity name target hd
    obtain ⟨type, ht, -, -, hr⟩ := mem_definitions h hd
    obtain ⟨-, hid, -, reference, href, hnamed⟩ := hr
    exact ⟨type, ht, hid.symm, reference, href, refers_of_namedBy h hnamed⟩

/-! ### Namespaces -/

theorem scopes_clean {types : List TypeDefinition} (h : Clean (checkIdentityTailCollisions types)) :
    Clean (scopeCollisions "top-level type" []
      ((types.filter fun type => type.kind != .scalar).map TypeDefinition.named)) ∧
    (∀ type ∈ types, type.kind = .record → Clean (scopeCollisions ("fields of " ++ type.identity) []
      (type.fields.map Field.named))) ∧
    ∀ type ∈ types, type.kind = .enum → Clean (scopeCollisions ("variants of " ++ type.identity) []
      (type.variants.map Variant.named)) := by
  obtain ⟨hboth, henums⟩ := clean_append.1 h
  obtain ⟨htop, hrecords⟩ := clean_append.1 hboth
  refine ⟨htop, fun type ht hk => ?_, fun type ht hk => ?_⟩
  · exact clean_flatMap.1 hrecords type (List.mem_filter.2 ⟨ht, beq_iff_eq.2 hk⟩)
  · exact clean_flatMap.1 henums type (List.mem_filter.2 ⟨ht, beq_iff_eq.2 hk⟩)

theorem definitions_names {ir : Document} (h : Clean (diagnosticsOf ir)) (package : String) :
    (packageOf ir package).definitions.map Definition.name =
      (ir.types.filter fun type => type.kind != .scalar).map fun type =>
        quoted type.named.shortName := by
  rw [packageOf, rendered, List.filterMap_map]
  apply filterMap_map_eq
  intro type ht
  have hclean := types_clean h type ht
  by_cases hk : type.kind = .scalar
  · rw [hk]
    exact (scalar_clean hk hclean).2
  · rw [if_pos (bne_iff_ne.2 hk)]
    obtain ⟨-, d, hd, hr⟩ := definition_clean (scalars_named h) hk hclean
    exact ⟨d, hd, (renders_identity hr).2⟩

theorem attributes_names {types : List TypeDefinition} {fields : List Field}
    (h : ∀ field ∈ fields, Clean (renderField field types).2) :
    ((fields.map fun field => renderField field types).filterMap Prod.fst).map Attribute.name =
      fields.map fun field => quoted field.named.shortName := by
  rw [List.filterMap_map]
  refine (filterMap_map_eq fun field hf => ?_).trans
    (congrArg (List.map _) (List.filter_eq_self.2 fun _ _ => rfl))
  obtain ⟨a, ha, -, hname, -⟩ := renderField_clean (h field hf)
  exact ⟨a, ha, hname⟩

theorem literals_names {variants : List Variant}
    (h : ∀ variant ∈ variants, Clean variant.named.identifier.2) :
    (variants.map fun variant => variant.named.identifier).filterMap Prod.fst =
      variants.map fun variant => quoted variant.named.shortName := by
  rw [List.filterMap_map, ← List.map_id (List.filterMap _ _)]
  refine (filterMap_map_eq fun variant hv => ?_).trans
    (congrArg (List.map _) (List.filter_eq_self.2 fun _ _ => rfl))
  exact ⟨_, congrArg Prod.fst (identifier_clean (h variant hv)).1, rfl⟩

theorem names_distinct {ir : Document} (ha : ir.Admitted) (h : Clean (diagnosticsOf ir))
    (package : String) : NamesDistinct (packageOf ir package) := by
  have hcollisions := (clean_append.1 (clean_append.1 (clean_append.1 h).1).1).2
  obtain ⟨htop, hrecords, henums⟩ := scopes_clean hcollisions
  constructor
  · rw [definitions_names h]
    have hids : (((ir.types.filter fun type => type.kind != .scalar).map
        TypeDefinition.named).map Named.identity).Nodup := by
      rw [List.map_map]
      exact ha.types.sublist (List.filter_sublist.map _)
    have hnodup := scope_nodup htop hids (by
      intro node hn
      obtain ⟨type, ht, rfl⟩ := List.mem_map.1 hn
      obtain ⟨ht, hk⟩ := List.mem_filter.1 ht
      exact (definition_clean (scalars_named h) (bne_iff_ne.1 hk) (types_clean h type ht)).1)
    rwa [List.map_map] at hnodup
  · intro identity name attributes hd
    obtain ⟨type, ht, -, -, hk, -, -, hattributes, hclean⟩ := mem_definitions h hd
    rw [hattributes, attributes_names hclean]
    have hids : ((type.fields.map Field.named).map Named.identity).Nodup := by
      rw [List.map_map]
      exact ha.fields type ht
    have hnodup := scope_nodup (hrecords type ht hk) hids (by
      intro node hn
      obtain ⟨field, hf, rfl⟩ := List.mem_map.1 hn
      obtain ⟨-, -, -, -, hne, -⟩ := renderField_clean (hclean field hf)
      exact hne)
    rwa [List.map_map] at hnodup
  · intro identity name literals hd
    obtain ⟨type, ht, -, -, hk, -, -, hliterals, hclean⟩ := mem_definitions h hd
    rw [hliterals, literals_names hclean]
    have hids : ((type.variants.map Variant.named).map Named.identity).Nodup := by
      rw [List.map_map]
      exact ha.variants type ht
    have hnodup := scope_nodup (henums type ht hk) hids (by
      intro node hn
      obtain ⟨variant, hv, rfl⟩ := List.mem_map.1 hn
      exact (identifier_clean (hclean variant hv)).2)
    rwa [List.map_map] at hnodup

/-! ### What the output does not tell -/

/-- The members that no part of the output depends on. -/
def Field.forget (f : Field) : Field :=
  { f with
    decimal := none
    presence := .required
    unit := none
    multiplicity := { f.multiplicity with ordered := false, unique := false } }

def Variant.forget (variant : Variant) : Variant := { variant with payloadType := none }

def TypeDefinition.forget (type : TypeDefinition) : TypeDefinition :=
  { type with
    unknownPolicy := .reject
    fields := type.fields.map Field.forget
    variants := type.variants.map Variant.forget }

def Document.forget (ir : Document) : Document :=
  { ir with types := ir.types.map TypeDefinition.forget }

theorem typeOf_forget (types : List TypeDefinition) (identity : String) :
    typeOf (types.map TypeDefinition.forget) identity =
      (typeOf types identity).map TypeDefinition.forget := by
  rw [typeOf, ← List.map_reverse, List.find?_map]
  rfl

theorem fieldType_forget (field : Field) (types : List TypeDefinition) :
    fieldType field.forget (types.map TypeDefinition.forget) = fieldType field types := by
  have ht := typeOf_forget types field.typeRef
  have href : field.forget.typeRef = field.typeRef := rfl
  rw [fieldType, fieldType, href, ht]
  cases typeOf types field.typeRef with
  | none => rfl
  | some type => rfl

theorem renderField_forget (field : Field) (types : List TypeDefinition) :
    renderField field.forget (types.map TypeDefinition.forget) = renderField field types := by
  rw [renderField, fieldType_forget]
  rfl

theorem renderRecord_forget (type : TypeDefinition) (types : List TypeDefinition) :
    renderRecord type.forget (types.map TypeDefinition.forget) = renderRecord type types := by
  have hfields : (type.forget.fields.map fun field =>
      renderField field (types.map TypeDefinition.forget)) =
        type.fields.map fun field => renderField field types := by
    rw [TypeDefinition.forget, List.map_map]
    exact List.map_congr_left fun field _ => renderField_forget field types
  rw [renderRecord, renderRecord, hfields]
  rfl

theorem renderEnum_forget (type : TypeDefinition) : renderEnum type.forget = renderEnum type := by
  have hvariants : (type.forget.variants.map fun variant => variant.named.identifier) =
      type.variants.map fun variant => variant.named.identifier := by
    rw [TypeDefinition.forget, List.map_map]
    rfl
  rw [renderEnum, renderEnum, hvariants]
  rfl

theorem renderAlias_forget (type : TypeDefinition) (types : List TypeDefinition) :
    renderAlias type.forget (types.map TypeDefinition.forget) = renderAlias type types := by
  have ht : type.forget.target.bind (typeOf (types.map TypeDefinition.forget)) =
      (type.target.bind (typeOf types)).map TypeDefinition.forget := by
    show type.target.bind _ = _
    cases type.target with
    | none => rfl
    | some target => exact typeOf_forget types target
  rw [renderAlias, renderAlias, ht]
  cases type.target.bind (typeOf types) with
  | none => rfl
  | some target => rfl

theorem renderType_forget (type : TypeDefinition) (types : List TypeDefinition) :
    renderType type.forget (types.map TypeDefinition.forget) = renderType type types := by
  have hkind : renderKind type.forget (types.map TypeDefinition.forget) =
      renderKind type types := by
    rw [renderKind, renderKind, renderRecord_forget, renderEnum_forget, renderAlias_forget]
    rfl
  rw [renderType, hkind]
  rfl

theorem rendered_forget (ir : Document) : rendered ir.forget = rendered ir := by
  rw [rendered, rendered, Document.forget, List.map_map]
  exact List.map_congr_left fun type _ => renderType_forget type ir.types

theorem collisions_forget (types : List TypeDefinition) :
    checkIdentityTailCollisions (types.map TypeDefinition.forget) =
      checkIdentityTailCollisions types := by
  have hfields : ∀ type : TypeDefinition, type.forget.fields.map Field.named =
      type.fields.map Field.named := by
    intro type
    rw [TypeDefinition.forget, List.map_map]
    rfl
  have hvariants : ∀ type : TypeDefinition, type.forget.variants.map Variant.named =
      type.variants.map Variant.named := by
    intro type
    rw [TypeDefinition.forget, List.map_map]
    rfl
  rw [checkIdentityTailCollisions, checkIdentityTailCollisions]
  simp only [List.filter_map, List.map_map, List.flatMap_map, hfields, hvariants]
  rfl

/-- The output does not depend on the presence, the unit and the decimal policy of a field, on the
order and uniqueness of its collection, on the payload of an enum variant and on the unknown
policy. -/
theorem generate_forget (ir : Document) : generate ir.forget = generate ir := by
  have hdiagnostics : diagnosticsOf ir.forget = diagnosticsOf ir := by
    rw [diagnosticsOf, rendered_forget, Document.forget, collisions_forget]
    rfl
  have hpackage : ∀ name, packageOf ir.forget name = packageOf ir name := by
    intro name
    rw [packageOf, rendered_forget]
    rfl
  have horigin : packageOrigin ir.forget = packageOrigin ir := by
    rw [packageOrigin, packageOrigin, Document.forget, List.find?_map, Option.map_map]
    rfl
  have hidentities : (ir.forget.types.filter fun type => type.kind != .scalar).map
      TypeDefinition.identity = (ir.types.filter fun type => type.kind != .scalar).map
        TypeDefinition.identity := by
    rw [Document.forget, List.filter_map, List.map_map]
    rfl
  have hidentity : ir.forget.packageIdentity = ir.packageIdentity := rfl
  rw [generate, generate, hdiagnostics, horigin, hidentities, hidentity]
  simp only [hpackage]

theorem generate_eq_of_forget {ir other : Document} (h : other.forget = ir.forget) :
    generate other = generate ir := by
  rw [← generate_forget, h, generate_forget]

def Document.withPolicy (policy : UnknownPolicy) (ir : Document) : Document :=
  { ir with types := ir.types.map fun type => { type with unknownPolicy := policy } }

theorem forget_withPolicy (policy : UnknownPolicy) (ir : Document) :
    (ir.withPolicy policy).forget = ir.forget := by
  rw [Document.forget, Document.withPolicy, Document.forget, List.map_map]
  rfl

theorem admitted_withPolicy {ir : Document} (policy : UnknownPolicy) (h : ir.Admitted) :
    (ir.withPolicy policy).Admitted := by
  have htype : ∀ type ∈ (ir.withPolicy policy).types, ∃ original ∈ ir.types,
      type.fields = original.fields ∧ type.variants = original.variants := by
    intro type ht
    obtain ⟨original, ho, rfl⟩ := List.mem_map.1 ht
    exact ⟨original, ho, rfl, rfl⟩
  constructor
  · rw [Document.withPolicy, List.map_map]
    exact h.types
  · intro type ht
    obtain ⟨original, ho, hf, -⟩ := htype type ht
    rw [hf]
    exact h.fields original ho
  · intro type ht
    obtain ⟨original, ho, -, hv⟩ := htype type ht
    rw [hv]
    exact h.variants original ho

theorem told_iff {ir : Document} (ha : ir.Admitted) : ir.Told ↔ ir.types = [] := by
  constructor
  · intro h
    have hpolicy : ∀ policy, (ir.withPolicy policy).types.map TypeDefinition.restrictions =
        ir.types.map TypeDefinition.restrictions := fun policy =>
      h _ (admitted_withPolicy policy ha) (by rw [Document.withPolicy, List.map_map]; rfl)
        (generate_eq_of_forget (forget_withPolicy policy ir))
    cases htypes : ir.types with
    | nil => rfl
    | cons type types =>
      have hboth := (hpolicy .reject).trans (hpolicy .preserve).symm
      rw [Document.withPolicy, Document.withPolicy, htypes] at hboth
      have hhead := congrArg (fun l : List Restrictions => l.head?.map Restrictions.unknownPolicy)
        hboth
      exact absurd hhead (by simp [TypeDefinition.restrictions])
  · intro h other _ hids _
    rw [h, List.map_nil, List.map_eq_nil_iff] at hids
    rw [hids, h]

def emptyDocument : Document where
  contractVersion := "2.0.0"
  sourceIdentity := "ix://acme/pkg/source"
  packageIdentity := "acme/pkg"
  types := []
  extensions := []
  constructs := []
  occurrences := []

def plainType (identity displayName : String) (kind : Kind) : TypeDefinition where
  identity := identity
  displayName := displayName
  kind := kind
  unknownPolicy := .reject
  scalar := none
  decimal := none
  target := none
  fields := []
  variants := []
  clauses := []
  constraints := []
  extensions := []
  operations := []
  relationships := []
  members := []
  isAbstract := false
  supertypes := []
  identityFields := []
  origin := ⟨none⟩

def optionalUnit : Document :=
  { emptyDocument with
    types := [
      { plainType "ix://acme/pkg/type/Length" "Length" .scalar with scalar := some .integer },
      { plainType "ix://acme/pkg/type/Beam" "Beam" .record with
        fields := [{
          identity := "ix://acme/pkg/type/Beam/field/span"
          name := "span"
          typeRef := "ix://acme/pkg/type/Length"
          decimal := none
          presence := .optional
          nullable := false
          defaultKind := .none
          multiplicity := ⟨1, some 1, false, false⟩
          unit := some "mm"
          constraints := []
          extensions := []
          origin := ⟨none⟩ }] }] }

end FilamentCore.Backends.Sysml
