import FilamentCore.Backends.TypescriptSurface
import FilamentCore.Library.ByteText

/-!
# When the names of a TypeScript package are legal and distinct
(src/compiler/backends/typescript-v1/names.mjs, model.mjs, validators.mjs, package-layout.mjs)

The minted identifiers are distinct where a model has no loss. What is made of them, and what the
package declares itself, meets them only where a display name is one of a few.
-/

namespace FilamentCore.Backends.TypescriptNames
open FilamentCore.Library
open FilamentCore.Library.ByteText (bytesOf asciiOf isAscii toList_eq_asciiOf)

/-- An identifier that no declaration is refused. -/
def LegalName (name : String) : Prop :=
  isIdentifier name = true ∧ name ∉ reservedWords ++ prototypeMembers

instance (name : String) : Decidable (LegalName name) := inferInstanceAs (Decidable (_ ∧ _))

/-- Every name of the generated modules and of the barrel is legal, and none is used twice. -/
structure WellNamed (texts : Texts) (model : Model) : Prop where
  legal : ∀ bindings ∈ modules texts model, ∀ b ∈ bindings, LegalName b.name
  distinct : ∀ bindings ∈ modules texts model, (bindings.map Binding.name).Nodup
  exported : ∃ names, renderBarrel texts model = some names ∧ names.Nodup ∧
    ∀ name ∈ names, LegalName name

/-- The identifiers of a document meet none of the package's names and none of those made of
another identifier. -/
structure NamesApart (carriesConstructData : Bool) (definitions : List Definition) : Prop where
  runtime : ∀ d ∈ definitions, d.rendering ≠ .namespace →
    mint d ∉ runtimeExports carriesConstructData
  helpers : ∀ d ∈ definitions, isConcrete d = true →
    mint d ∉ ["CODES", "isUniqueDecimalCollection"]
  prototypes : ∀ d ∈ definitions, d.rendering = .reference → mint d ∉ ["value", "isPrototype"]
  references : ∀ d ∈ definitions, ∀ e ∈ definitions, d.rendering ≠ .namespace →
    e.rendering = .reference → ∀ f ∈ [Form.brand, .is, .of], mint d ≠ f.apply (mint e)
  validators : ∀ d ∈ definitions, ∀ e ∈ definitions, d.rendering ≠ .namespace →
    isConcrete e = true → mint d ≠ Form.validate.apply (mint e)
  machines : ∀ d ∈ definitions, ∀ e ∈ definitions, d.rendering ≠ .namespace →
    isConcrete e = true → e.rendering = .stateMachine → hasEquality e = true →
    mint d ≠ Form.equals.apply (mint e)
  checks : ∀ d ∈ definitions, ∀ e ∈ definitions, isConcrete d = true → isConcrete e = true →
    ∀ f ∈ [Form.prepare, .check], mint d ≠ f.apply (mint e)
  equalities : ∀ d ∈ definitions, ∀ e ∈ definitions, isConcrete d = true → isConcrete e = true →
    hasEquality e = true →
    ∀ f ∈ [Form.prepare, .check, .validate], f.apply (mint d) ≠ Form.equals.apply (mint e)
  states : ∀ d ∈ definitions, ∀ e ∈ definitions, isConcrete d = true →
    e.rendering = .stateMachine → Form.validate.apply (mint d) ≠ Form.state.apply (mint e)
  constructors : ∀ d ∈ definitions, ∀ e ∈ definitions, isConcrete d = true →
    e.rendering = .reference → Form.validate.apply (mint d) ≠ Form.of.apply (mint e)

/-! ### Fixed names

The names are compared by their bytes, and read as characters only where these are ASCII. -/

/-- `isIdentifier` of the characters. -/
def isIdentifierChars : List Char → Bool
  | [] => false
  | c :: cs => isIdentifierPart c && !isLeadingDigit c && cs.all isIdentifierPart

theorem isIdentifier_chars (name : String) :
    isIdentifier name = isIdentifierChars name.toList := rfl

theorem reserved_ascii : ∀ n ∈ reservedWords ++ prototypeMembers, isAscii n = true := by
  decide

theorem errors_ascii : ∀ b ∈ errorsModule, isAscii b.name = true := by
  decide

theorem identity_ascii : ∀ carries, ∀ b ∈ identityModule carries, isAscii b.name = true := by
  decide

theorem fits_prototypes :
    ∀ f ∈ [Form.state, .brand, .is, .of, .prepare, .check, .validate, .equals],
      ∀ n ∈ reservedWords ++ prototypeMembers, f.affixes.Fits n.toList →
      f = .of ∧ n ∈ ["value", "isPrototype"].map f.apply := by
  have hall : ∀ f ∈ [Form.state, .brand, .is, .of, .prepare, .check, .validate, .equals],
      ∀ n ∈ reservedWords ++ prototypeMembers, f.affixes.Fits (asciiOf n) →
      f = .of ∧ n ∈ ["value", "isPrototype"].map f.apply := by decide
  intro f hf n hn hfits
  rw [toList_eq_asciiOf (reserved_ascii n hn)] at hfits
  exact hall f hf n hn hfits

theorem fits_errors : ∀ f ∈ [Form.state, .of, .validate, .equals], ∀ b ∈ errorsModule,
    f.affixes.Fits (asciiOf b.name) → f = .state ∧ b.name = f.apply "Member" := by
  decide

theorem fits_identity : ∀ f ∈ [Form.state, .of, .validate, .equals], ∀ carries,
    ∀ b ∈ identityModule carries, ¬ f.affixes.Fits (asciiOf b.name) := by
  decide

theorem fits_runtime : ∀ f ∈ [Form.state, .of, .validate, .equals], ∀ carries,
    ∀ b ∈ errorsModule ++ identityModule carries, f.affixes.Fits b.name.toList →
      f = .state ∧ b.name = f.apply "Member" := by
  intro f hf carries b hb hfits
  rcases List.mem_append.1 hb with hb | hb
  · rw [toList_eq_asciiOf (errors_ascii b hb)] at hfits
    exact fits_errors f hf b hb hfits
  · rw [toList_eq_asciiOf (identity_ascii carries b hb)] at hfits
    exact absurd hfits (fits_identity f hf carries b hb)

theorem fits_validators : ∀ f ∈ [Form.prepare, .check, .validate, .equals],
    ∀ n ∈ helperNames ++ ["ValidationError", "ValidationResult", "isUniqueDecimalCollection"],
      ¬ f.affixes.Fits n.toList := by
  decide

theorem fits_types : ∀ f ∈ [Form.state, .brand, .is, .of, .validate, .equals],
    ¬ f.affixes.Fits "UNION_DISCRIMINANT".toList := by
  decide

theorem types_compatible : ∀ f ∈ [Form.state, .brand, .is, .of],
    ∀ g ∈ [Form.state, .brand, .is, .of], f.affixes.Compatible g.affixes → f = g := by
  decide

theorem validators_compatible : ∀ f ∈ [Form.prepare, .check, .validate],
    ∀ g ∈ [Form.prepare, .check, .validate], f.affixes.Compatible g.affixes → f = g := by
  decide

theorem exports_compatible : ∀ f ∈ [Form.state, .of],
    ¬ f.affixes.Compatible Form.equals.affixes := by
  decide

theorem helperNames_runtime : ∀ n ∈ helperNames, n = "CODES" ∨ Exports errorsModule n := by
  have hall : ∀ n ∈ helperNames, n = "CODES" ∨
      ∃ b ∈ errorsModule, b.exported = true ∧ b.name = n := by decide
  exact hall

def legalBytes (name : String) : Bool :=
  isAscii name && isIdentifierChars (asciiOf name) &&
    !((reservedWords ++ prototypeMembers).map bytesOf).contains (bytesOf name)

theorem legal_of_bytes {name : String} (h : legalBytes name = true) : LegalName name := by
  simp only [legalBytes, Bool.and_eq_true, Bool.not_eq_true', ← Bool.not_eq_true,
    List.contains_iff_mem] at h
  obtain ⟨⟨hascii, hchars⟩, hfree⟩ := h
  refine ⟨?_, fun hmem => hfree (List.mem_map_of_mem hmem)⟩
  rw [isIdentifier_chars, toList_eq_asciiOf hascii]
  exact hchars

theorem errors_legal : ∀ b ∈ errorsModule, legalBytes b.name = true := by
  decide

theorem identity_legal : ∀ carries, ∀ b ∈ identityModule carries, legalBytes b.name = true := by
  decide

theorem runtime_legal : ∀ carries, ∀ b ∈ errorsModule ++ identityModule carries,
    LegalName b.name := by
  intro carries b hb
  rcases List.mem_append.1 hb with hb | hb
  · exact legal_of_bytes (errors_legal b hb)
  · exact legal_of_bytes (identity_legal carries b hb)

theorem helpers_legal : ∀ n ∈ helperNames ++ ["ValidationError", "ValidationResult",
    "isUniqueDecimalCollection", "UNION_DISCRIMINANT"], LegalName n := by
  have hall : ∀ n ∈ helperNames ++ ["ValidationError", "ValidationResult",
      "isUniqueDecimalCollection", "UNION_DISCRIMINANT"], legalBytes n = true := by decide
  exact fun n hn => legal_of_bytes (hall n hn)

theorem validatorNames_legal {texts : Texts} {entries : List Entry} :
    ∀ n ∈ validatorNames texts entries, LegalName n := by
  intro n hn
  refine helpers_legal n ?_
  obtain hn | hn := List.mem_append.1 hn
  · obtain hn | hn := List.mem_append.1 hn
    · exact List.mem_append_left _ (List.mem_filter.1 hn).1
    · exact List.mem_append_right _ (List.mem_append_left ["isUniqueDecimalCollection",
        "UNION_DISCRIMINANT"] hn)
  · split at hn
    · rw [List.mem_singleton.1 hn]
      decide
    · cases hn

theorem errors_distinct : (errorsModule.map Binding.name).Nodup := by decide

theorem identity_distinct : ∀ carries, ((identityModule carries).map Binding.name).Nodup := by
  decide

/-! ### Legal names -/

theorem legal_mint (d : Definition) : LegalName (mint d) := by
  refine ⟨isIdentifier_identifierFor _ _, fun h => identifierFor_notMem d.identity d.displayName ?_⟩
  exact List.mem_append_left _ h

theorem isIdentifier_apply (f : Form) {identifier : String}
    (h : isIdentifier identifier = true) : isIdentifier (f.apply identifier) = true := by
  have hafter : ∀ f : Form, f.after.toList.all isIdentifierPart = true := by
    intro f
    cases f <;> decide
  have hbefore : ∀ f : Form, f.before = "" ∨ isIdentifier f.before = true := by
    intro f
    cases f <;> decide
  rw [Form.apply]
  refine isIdentifier_append ?_ (hafter f)
  obtain hnone | hsome := hbefore f
  · rwa [hnone, String.empty_append]
  · exact isIdentifier_append hsome (all_of_isIdentifier h)

theorem form_cases (f : Form) : f = .name ∨
    f ∈ [Form.state, .brand, .is, .of, .prepare, .check, .validate, .equals] := by
  cases f <;> decide

theorem legal_apply_iff (f : Form) (d : Definition) :
    LegalName (f.apply (mint d)) ↔ (f = .of → mint d ∉ ["value", "isPrototype"]) := by
  constructor
  · rintro ⟨-, hfree⟩ rfl hmem
    have hall : ∀ n ∈ ["value", "isPrototype"],
        Form.of.apply n ∈ reservedWords ++ prototypeMembers := by decide
    exact hfree (hall _ hmem)
  · intro h
    refine ⟨isIdentifier_apply f (legal_mint d).1, fun hmem => ?_⟩
    obtain rfl | hf := form_cases f
    · rw [Form.apply_name] at hmem
      exact (legal_mint d).2 hmem
    · obtain ⟨rfl, hn⟩ := fits_prototypes f hf _ hmem (f.fits _)
      obtain ⟨n, hn, hname⟩ := List.mem_map.1 hn
      exact h rfl (Form.of.apply_injective hname ▸ hn)

/-! ### Names that meet no other -/

theorem declared_of_concrete {d : Definition} (hd : isConcrete d = true) :
    d.rendering ≠ .namespace := by
  intro hr
  simp [isConcrete, isInstanceless, hr] at hd

theorem declaresType_declared {e : Entry} {f : Form} (hf : declaresType e f) :
    e.rendering ≠ .namespace := by
  intro hr
  cases f <;> simp_all [declaresType]

theorem equalities_apart {carries : Bool} {document : Document}
    (hapart : NamesApart carries document.types) {a b : Entry}
    (ha : a ∈ (buildModel document).types) (hb : b ∈ (buildModel document).types) {f : Form}
    (hf : f ∈ [Form.prepare, .check, .validate])
    (hconcrete : isConcrete a.toDefinition = true) (hg : declaresValidator b .equals) :
    f.apply a.identifier ≠ Form.equals.apply b.identifier := by
  rw [(mem_types.1 ha).2, (mem_types.1 hb).2]
  exact hapart.equalities _ (mem_types.1 ha).1 _ (mem_types.1 hb).1 hconcrete hg.1 hg.2 f hf

theorem runtime_apart {texts : Texts} {document : Document}
    (hapart : NamesApart texts.carriesConstructData document.types) {e : Entry}
    (he : e ∈ (buildModel document).types)
    (hdeclared : e.rendering ≠ .namespace) {f : Form}
    (hf : f ∈ [Form.name, .state, .of, .validate, .equals]) :
    f.apply e.identifier ∉ runtimeExports texts.carriesConstructData := by
  intro hmem
  have hbinding : ∃ b ∈ errorsModule ++ identityModule texts.carriesConstructData,
      b.name = f.apply e.identifier := by
    obtain ⟨b, hb, -, hbn⟩ | ⟨b, hb, -, hbn⟩ := mem_runtimeExports.1 hmem
    · exact ⟨b, List.mem_append_left _ hb, hbn⟩
    · exact ⟨b, List.mem_append_right _ hb, hbn⟩
  have hfree := hapart.runtime _ (mem_types.1 he).1 hdeclared
  rw [← (mem_types.1 he).2] at hfree
  obtain rfl | hf := List.mem_cons.1 hf
  · rw [Form.apply_name] at hmem
    exact hfree hmem
  · obtain ⟨b, hb, hbn⟩ := hbinding
    obtain ⟨rfl, hmember⟩ := fits_runtime f hf _ b hb (hbn ▸ f.fits e.identifier)
    have hidentifier : e.identifier = "Member" := Form.state.apply_injective (hbn ▸ hmember)
    have hexports : Exports errorsModule "Member" := by
      have hall : ∃ b ∈ errorsModule, b.exported = true ∧ b.name = "Member" := by decide
      exact hall
    exact hfree (hidentifier ▸ mem_runtimeExports.2 (.inl hexports))

theorem validatorNames_apart {texts : Texts} {document : Document}
    (hapart : NamesApart texts.carriesConstructData document.types) {e : Entry}
    (he : e ∈ (buildModel document).types) {f : Form}
    (hf : declaresValidator e f) :
    f.apply e.identifier ∉ validatorNames texts (buildModel document).types := by
  intro hfixed
  have hforms : ∀ f, declaresValidator e f → f ≠ .name →
      f ∈ [Form.prepare, .check, .validate, .equals] := by
    intro f hf hne
    cases f <;> first | decide | exact absurd rfl hne | cases hf
  have hnames : ∀ n ∈ validatorNames texts (buildModel document).types,
      n ∈ helperNames ∨ n ∈ ["ValidationError", "ValidationResult"] ∨
        n = "isUniqueDecimalCollection" := by
    intro n hn
    obtain hn | hn := List.mem_append.1 hn
    · exact (List.mem_append.1 hn).imp (fun hn => (List.mem_filter.1 hn).1) .inl
    · split at hn
      · exact .inr (.inr (List.mem_singleton.1 hn))
      · cases hn
  have hn := hnames _ hfixed
  by_cases hfn : f = .name
  · subst hfn
    obtain ⟨hd, hmint⟩ := mem_types.1 he
    rw [Form.apply_name, hmint] at hn
    have hhelpers := hapart.helpers _ hd hf
    obtain hhelper | hresult | hunique := hn
    · obtain hcodes | hexports := helperNames_runtime _ hhelper
      · exact hhelpers (hcodes ▸ .head _)
      · exact hapart.runtime _ hd (declared_of_concrete hf)
          (mem_runtimeExports.2 (.inl hexports))
    · have hreserved : ∀ n ∈ ["ValidationError", "ValidationResult"], n ∈ reservedNames := by decide
      exact identifierFor_notMem _ _ (hreserved _ hresult)
    · exact hhelpers (hunique ▸ .tail _ (.head _))
  · refine fits_validators f (hforms f hf hfn) _ ?_ (f.fits e.identifier)
    have hrest : ∀ n, n ∈ ["ValidationError", "ValidationResult"] ∨
        n = "isUniqueDecimalCollection" →
          n ∈ ["ValidationError", "ValidationResult", "isUniqueDecimalCollection"] := by
      intro n hn
      simpa [or_assoc] using hn
    exact List.mem_append.2 (hn.imp_right (hrest _))

/-! ### The names of one module -/

section Apart

variable {texts : Texts} {document : Document} (h : (buildModel document).losses = [])
  (hapart : NamesApart texts.carriesConstructData document.types)

include h hapart

theorem types_apart {a b : Entry} (ha : a ∈ (buildModel document).types)
    (hb : b ∈ (buildModel document).types) (hdeclared : a.rendering ≠ .namespace) {g : Form}
    (hg : declaresType b g) (hname : a.identifier = g.apply b.identifier) : g = .name ∧ a = b := by
  obtain ⟨hda, hna⟩ := mem_types.1 ha
  obtain ⟨hdb, hnb⟩ := mem_types.1 hb
  have hreference : ∀ f ∈ [Form.brand, .is, .of], b.rendering = .reference →
      a.identifier ≠ f.apply b.identifier := by
    intro f hf hr
    rw [hna, hnb]
    exact hapart.references _ hda _ hdb hdeclared hr f hf
  cases g with
  | name =>
    rw [Form.apply_name] at hname
    exact ⟨rfl, identifier_injective h ha hb hname⟩
  | state =>
    have hstate : b.rendering = .stateMachine := hg
    refine (derived_free h ha hb ?_).elim
    rw [derivedName, if_pos hstate, hname]
    simp [Form.apply, Form.before, Form.after]
  | brand => exact absurd hname (hreference _ (by decide) hg)
  | is => exact absurd hname (hreference _ (by decide) hg)
  | of => exact absurd hname (hreference _ (by decide) hg)
  | prepare => cases hg
  | check => cases hg
  | validate => cases hg
  | equals => cases hg

theorem types_distinct : ((typesModule (buildModel document).types).map Binding.name).Nodup := by
  have hforms : ∀ e f, declaresType e f → f ≠ .name → f ∈ [Form.state, .brand, .is, .of] := by
    intro e f hf hne
    cases f <;> first | decide | exact absurd rfl hne | cases hf
  refine (typesModule_names (types_nodup document)).2 ⟨fun e he f hf hfixed => ?_,
    fun a ha b hb f g hf hg hname => ?_⟩
  · rw [List.mem_singleton] at hfixed
    by_cases hname : f = .name
    · rw [hname, Form.apply_name, (mem_types.1 he).2] at hfixed
      have hreserved : "UNION_DISCRIMINANT" ∈ reservedNames := by decide
      exact identifierFor_notMem _ _ (hfixed ▸ hreserved)
    · have hsub : ∀ f ∈ [Form.state, .brand, .is, .of],
        f ∈ [Form.state, .brand, .is, .of, .validate, .equals] := by decide
      exact fits_types f (hsub f (hforms e f hf hname)) (hfixed ▸ f.fits e.identifier)
  · by_cases hfn : f = .name
    · subst hfn
      rw [Form.apply_name] at hname
      obtain ⟨rfl, rfl⟩ := types_apart h hapart ha hb (declaresType_declared hf) hg hname
      exact ⟨rfl, rfl⟩
    · by_cases hgn : g = .name
      · subst hgn
        rw [Form.apply_name] at hname
        obtain ⟨rfl, rfl⟩ := types_apart h hapart hb ha (declaresType_declared hg) hf hname.symm
        exact ⟨rfl, rfl⟩
      · obtain rfl := types_compatible f (hforms a f hf hfn) g (hforms b g hg hgn)
          (Form.compatible hname)
        exact ⟨rfl, identifier_injective h ha hb (f.apply_injective hname)⟩

theorem equals_apart {a b : Entry} (ha : a ∈ (buildModel document).types)
    (hb : b ∈ (buildModel document).types) (hdeclared : a.rendering ≠ .namespace)
    (hg : declaresValidator b .equals) : a.identifier ≠ Form.equals.apply b.identifier := by
  intro hname
  by_cases hr : b.rendering = .stateMachine
  · rw [(mem_types.1 ha).2, (mem_types.1 hb).2] at hname
    exact hapart.machines _ (mem_types.1 ha).1 _ (mem_types.1 hb).1 hdeclared hg.1 hr hg.2 hname
  · refine derived_free h ha hb ?_
    rw [derivedName, if_neg hr, if_pos hg.2, hname]
    simp [Form.apply, Form.before, Form.after]

theorem validators_apart {a b : Entry} (ha : a ∈ (buildModel document).types)
    (hb : b ∈ (buildModel document).types) (hconcrete : isConcrete a.toDefinition = true) {g : Form}
    (hg : declaresValidator b g) (hname : a.identifier = g.apply b.identifier) :
    g = .name ∧ a = b := by
  obtain ⟨hda, hna⟩ := mem_types.1 ha
  obtain ⟨hdb, hnb⟩ := mem_types.1 hb
  have hdeclared := declared_of_concrete hconcrete
  have hcheck : ∀ f ∈ [Form.prepare, .check], isConcrete b.toDefinition = true →
      a.identifier ≠ f.apply b.identifier := by
    intro f hf hcb
    rw [hna, hnb]
    exact hapart.checks _ hda _ hdb hconcrete hcb f hf
  cases g with
  | name =>
    rw [Form.apply_name] at hname
    exact ⟨rfl, identifier_injective h ha hb hname⟩
  | prepare => exact absurd hname (hcheck _ (by decide) hg)
  | check => exact absurd hname (hcheck _ (by decide) hg)
  | validate =>
    rw [hna, hnb] at hname
    exact absurd hname (hapart.validators _ hda _ hdb hdeclared hg)
  | equals => exact absurd hname (equals_apart h hapart ha hb hdeclared hg)
  | state => cases hg
  | brand => cases hg
  | is => cases hg
  | of => cases hg

theorem validators_distinct :
    ((validatorsModule texts (buildModel document).types).map Binding.name).Nodup := by
  have hforms : ∀ e f, declaresValidator e f → f = .name ∨ f = .equals ∨
      f ∈ [Form.prepare, .check, .validate] := by
    intro e f hf
    cases f <;> first | decide | cases hf
  have hconcrete : ∀ e f, declaresValidator e f → isConcrete e.toDefinition = true :=
    fun e f hf => ((declaresValidator_iff e f).1 hf).1
  refine (validatorsModule_names texts (types_nodup document)).2
    ⟨fun e he f hf => validatorNames_apart hapart he hf, fun a ha b hb f g hf hg hname => ?_⟩
  obtain rfl | hf' := hforms a f hf
  · rw [Form.apply_name] at hname
    obtain ⟨rfl, rfl⟩ := validators_apart h hapart ha hb hf hg hname
    exact ⟨rfl, rfl⟩
  obtain rfl | hg' := hforms b g hg
  · rw [Form.apply_name] at hname
    obtain ⟨rfl, rfl⟩ := validators_apart h hapart hb ha hg hf hname.symm
    exact ⟨rfl, rfl⟩
  have hsame : f = g := by
    obtain rfl | hf' := hf'
    · obtain rfl | hg' := hg'
      · rfl
      · exact absurd hname.symm (equalities_apart hapart hb ha hg' (hconcrete b g hg) hf)
    · obtain rfl | hg' := hg'
      · exact absurd hname (equalities_apart hapart ha hb hf' (hconcrete a f hf) hg)
      · exact validators_compatible f hf' g hg' (Form.compatible hname)
  subst hsame
  exact ⟨rfl, identifier_injective h ha hb (f.apply_injective hname)⟩

/-! ### The names of the barrel -/

theorem types_validators {name : String}
    (htypes : Exports (typesModule (buildModel document).types) name) :
    ¬ Exports (validatorsModule texts (buildModel document).types) name := by
  intro hvalidators
  obtain ⟨b, hb, g, hg, hbg, hname⟩ := exports_validators.1 hvalidators
  obtain rfl | ⟨a, ha, f, hf, haf, rfl⟩ := exports_types.1 htypes
  · have hsub : ∀ g ∈ [Form.validate, .equals],
      g ∈ [Form.state, .brand, .is, .of, .validate, .equals] := by decide
    exact fits_types g (hsub g hg) (hname ▸ g.fits b.identifier)
  have hequals : ∀ f ∈ [Form.state, .of], f.apply a.identifier ≠ Form.equals.apply b.identifier :=
    fun f hf heq => exports_compatible f hf (Form.compatible heq)
  obtain ⟨hda, hna⟩ := mem_types.1 ha
  obtain ⟨hdb, hnb⟩ := mem_types.1 hb
  simp only [List.mem_cons, List.not_mem_nil, or_false] at hf hg
  obtain rfl | rfl := hg
  · rw [hna, hnb] at hname
    obtain rfl | rfl | rfl := hf
    · rw [Form.apply_name] at hname
      exact hapart.validators _ hda _ hdb haf hbg hname.symm
    · exact hapart.states _ hdb _ hda hbg haf hname
    · exact hapart.constructors _ hdb _ hda hbg haf hname
  · obtain rfl | hf := hf
    · rw [Form.apply_name] at hname
      exact equals_apart h hapart ha hb haf hbg hname.symm
    · exact hequals f (by simpa using hf) hname.symm

/-- No two of the modules export one name. -/
theorem barrel_distinct : ((modules texts (buildModel document)).flatMap
    (published (permittedExports (buildModel document).types))).Nodup := by
  refine (barrel_nodup_iff texts (buildModel document)).2 ⟨fun name hname =>
    ⟨types_validators h hapart hname, ?_⟩, fun name hname => ?_⟩
  · obtain rfl | ⟨e, he, f, hf, hdeclares, rfl⟩ := exports_types.1 hname
    · have hall : ∀ carries, ∀ b ∈ errorsModule ++ identityModule carries,
          b.name ≠ "UNION_DISCRIMINANT" := by decide
      intro hmem
      obtain ⟨b, hb, -, hbn⟩ | ⟨b, hb, -, hbn⟩ := mem_runtimeExports.1 hmem
      · exact hall texts.carriesConstructData b (List.mem_append_left _ hb) hbn
      · exact hall texts.carriesConstructData b (List.mem_append_right _ hb) hbn
    · have hsub : ∀ f ∈ [Form.name, .state, .of],
        f ∈ [Form.name, .state, .of, .validate, .equals] := by decide
      exact runtime_apart hapart he (declaresType_declared hdeclares) (hsub f hf)
  · obtain ⟨e, he, f, hf, hdeclares, rfl⟩ := exports_validators.1 hname
    have hsub : ∀ f ∈ [Form.validate, .equals],
      f ∈ [Form.name, .state, .of, .validate, .equals] := by decide
    have hconcrete := ((declaresValidator_iff e f).1 hdeclares).1
    exact runtime_apart hapart he (declared_of_concrete hconcrete) (hsub f hf)

end Apart

theorem modules_legal {texts : Texts} {document : Document}
    (hapart : NamesApart texts.carriesConstructData document.types) :
    ∀ bindings ∈ modules texts (buildModel document), ∀ b ∈ bindings, LegalName b.name := by
  have hminted : ∀ e ∈ (buildModel document).types, ∀ f : Form,
      (f = .of → e.rendering = .reference) → LegalName (f.apply e.identifier) := by
    intro e he f hf
    rw [(mem_types.1 he).2]
    exact (legal_apply_iff f _).2 fun hof => hapart.prototypes _ (mem_types.1 he).1 (hf hof)
  simp only [modules, List.forall_mem_cons]
  refine ⟨fun b hb => ?_, fun b hb => ?_, fun b hb => runtime_legal texts.carriesConstructData b
    (List.mem_append_left _ hb), fun b hb => runtime_legal texts.carriesConstructData b
    (List.mem_append_right _ hb), fun b hb => ?_⟩
  · obtain ⟨n, hn, ho⟩ | ⟨e, he, f, hf, ho⟩ :=
      (mem_typesModule _ b.origin).1 (List.mem_map_of_mem hb)
    · rw [Binding.name, ho, List.mem_singleton.1 hn]
      exact helpers_legal _ (by decide)
    · rw [Binding.name, ho]
      exact hminted e he f fun hof => by rw [hof] at hf; exact hf
  · obtain ⟨n, hn, ho⟩ | ⟨e, he, f, hf, ho⟩ :=
      (mem_validatorsModule texts _ b.origin).1 (List.mem_map_of_mem hb)
    · rw [Binding.name, ho]
      exact validatorNames_legal n hn
    · rw [Binding.name, ho]
      exact hminted e he f fun hof => by rw [hof] at hf; cases hf
  · cases hb

/-! ### The names of a package -/

section Entries

/-! The identifiers of the entries, whatever they are. -/

variable {model : Model} {definitions : List Definition} {name : Definition → String}

theorem forms_eq (hentry : ∀ d ∈ definitions, (⟨d, name d⟩ : Entry) ∈ model.types)
    {declares : Entry → Form → Prop}
    (h : ∀ a ∈ model.types, ∀ b ∈ model.types, ∀ f g, declares a f → declares b g →
      f.apply a.identifier = g.apply b.identifier → f = g ∧ a = b) {d e : Definition}
    (hd : d ∈ definitions) (he : e ∈ definitions) (f g : Form) (hf : declares ⟨d, name d⟩ f)
    (hg : declares ⟨e, name e⟩ g) (heq : f.apply (name d) = g.apply (name e)) : f = g :=
  (h _ (hentry d hd) _ (hentry e he) f g hf hg heq).1

theorem exports_type (hentry : ∀ d ∈ definitions, (⟨d, name d⟩ : Entry) ∈ model.types)
    {d : Definition} (hd : d ∈ definitions) {f : Form} (hf : f ∈ [Form.name, .state, .of])
    (h : declaresType ⟨d, name d⟩ f) : Exports (typesModule model.types) (f.apply (name d)) :=
  exports_types.2 (.inr ⟨_, hentry d hd, f, hf, h, rfl⟩)

theorem exports_validator {texts : Texts}
    (hentry : ∀ d ∈ definitions, (⟨d, name d⟩ : Entry) ∈ model.types) {d : Definition}
    (hd : d ∈ definitions) {f : Form} (hf : f ∈ [Form.validate, .equals])
    (h : declaresValidator ⟨d, name d⟩ f) :
    Exports (validatorsModule texts model.types) (f.apply (name d)) :=
  exports_validators.2 ⟨_, hentry d hd, f, hf, h, rfl⟩

end Entries

theorem apart_of_wellNamed {texts : Texts} {document : Document}
    (hnames : WellNamed texts (buildModel document)) :
    NamesApart texts.carriesConstructData document.types := by
  have hentry : ∀ d ∈ document.types, (⟨d, mint d⟩ : Entry) ∈ (buildModel document).types :=
    fun d hd => mem_types_mk hd
  have hnodup := types_nodup document
  -- what follows is about the types of the model, not about how it is built
  generalize buildModel document = model at hnames hentry hnodup
  have htypes := ((typesModule_names hnodup).1 (hnames.distinct _ (.head _))).2
  have hvalidators := (validatorsModule_names texts hnodup).1
    (hnames.distinct _ (.tail _ (.head _)))
  have hbarrel : ((modules texts model).flatMap
      (published (permittedExports model.types))).Nodup := by
    obtain ⟨names, hrender, hnodup, -⟩ := hnames.exported
    rw [renderBarrel, if_pos (leaked_eq_nil _ _)] at hrender
    exact Option.some.inj hrender ▸ hnodup
  obtain ⟨hbtypes, -⟩ := (barrel_nodup_iff texts model).1 hbarrel
  have hexports : ∀ d ∈ document.types, ∀ f ∈ [Form.name, .state, .of],
      declaresType ⟨d, mint d⟩ f → Exports (typesModule model.types)
        (f.apply (mint d)) :=
    fun d hd f hf hdeclares => exports_type hentry hd hf hdeclares
  have hdeclared : ∀ d ∈ document.types, d.rendering ≠ .namespace →
      Exports (typesModule model.types) (mint d) := by
    intro d hd hr
    have hname := hexports d hd .name (by decide) hr
    rwa [Form.apply_name] at hname
  have hmade : ∀ d ∈ document.types, ∀ f ∈ [Form.validate, .equals],
      declaresValidator ⟨d, mint d⟩ f →
        Exports (validatorsModule texts model.types) (f.apply (mint d)) :=
    fun d hd f hf hdeclares => exports_validator hentry hd hf hdeclares
  have hvalidated : ∀ d ∈ document.types, isConcrete d = true →
      (⟨d, mint d⟩ : Entry) ∈ validated model.types :=
    fun d hd hc => mem_validated.2 ⟨hentry d hd, hc⟩
  constructor
  · intro d hd hr
    exact (hbtypes _ (hdeclared d hd hr)).2
  · intro d hd hc hmem
    have hfree := hvalidators.1 _ (hentry d hd) .name hc
    rw [Form.apply_name] at hfree
    simp only [List.mem_cons, List.not_mem_nil, or_false] at hmem
    obtain hcodes | hunique := hmem
    · refine hfree (List.mem_append_left _ (List.mem_append_left _ ?_))
      exact hcodes ▸ codes_helper texts (hvalidated d hd hc)
    · refine hfree (List.mem_append_right _ ?_)
      rw [usesDecimalUnique_of (hvalidated d hd hc) hunique, if_pos rfl, hunique]
      exact .head _
  · intro d hd hr
    have hbinding : (⟨.minted .of ⟨d, mint d⟩, .function, true⟩ : Binding) ∈
        typesModule model.types := by
      refine .tail _ (List.mem_flatMap.2 ⟨_, hentry d hd, ?_⟩)
      simp [typeBindings, hr]
    have hlegal := hnames.legal _ (.head _) _ hbinding
    rw [Binding.name, Origin.name] at hlegal
    exact (legal_apply_iff .of d).1 hlegal rfl
  · intro d hd e he hr href f hf hname
    have hform : declaresType ⟨e, mint e⟩ f ∧ f ≠ .name := by
      simp only [List.mem_cons, List.not_mem_nil, or_false] at hf
      obtain rfl | rfl | rfl := hf <;> exact ⟨href, by decide⟩
    have happly : Form.name.apply (mint d) = f.apply (mint e) := by rwa [Form.apply_name]
    exact hform.2 (forms_eq hentry htypes hd he .name f hr hform.1 happly).symm
  · intro d hd e he hr hc hname
    refine (hbtypes _ (hdeclared d hd hr)).1 ?_
    rw [hname]
    exact hmade e he .validate (by decide) hc
  · intro d hd e he hr hc hs heq hname
    refine (hbtypes _ (hdeclared d hd hr)).1 ?_
    rw [hname]
    exact hmade e he .equals (by decide) ⟨hc, heq⟩
  · intro d hd e he hcd hce f hf hname
    have hform : declaresValidator ⟨e, mint e⟩ f ∧ f ≠ .name := by
      simp only [List.mem_cons, List.not_mem_nil, or_false] at hf
      obtain rfl | rfl := hf <;> exact ⟨hce, by decide⟩
    have happly : Form.name.apply (mint d) = f.apply (mint e) := by rwa [Form.apply_name]
    exact hform.2 (forms_eq hentry hvalidators.2 hd he .name f hcd hform.1 happly).symm
  · intro d hd e he hcd hce heq f hf hname
    have hform : declaresValidator ⟨d, mint d⟩ f ∧ f ≠ .equals := by
      simp only [List.mem_cons, List.not_mem_nil, or_false] at hf
      obtain rfl | rfl | rfl := hf <;> exact ⟨hcd, by decide⟩
    exact hform.2 (forms_eq hentry hvalidators.2 hd he f .equals hform.1 ⟨hce, heq⟩ hname)
  · intro d hd e he hc hs hname
    refine (hbtypes _ (hexports e he .state (by decide) hs)).1 ?_
    rw [← hname]
    exact hmade d hd .validate (by decide) hc
  · intro d hd e he hc hr hname
    refine (hbtypes _ (hexports e he .of (by decide) hr)).1 ?_
    rw [← hname]
    exact hmade d hd .validate (by decide) hc

/-- Where a model has no loss, the names of the package are legal and distinct exactly when the
identifiers keep apart from the package's names and from what is made of the others. -/
theorem wellNamed_iff (texts : Texts) (document : Document)
    (h : (buildModel document).losses = []) :
    WellNamed texts (buildModel document) ↔
      NamesApart texts.carriesConstructData document.types := by
  refine ⟨apart_of_wellNamed, fun hapart => ⟨modules_legal hapart, ?_, ?_⟩⟩
  · simp only [modules, List.forall_mem_cons]
    refine ⟨types_distinct h hapart, validators_distinct h hapart, errors_distinct,
      identity_distinct texts.carriesConstructData, fun b hb => ?_⟩
    cases hb
  · refine ⟨_, by rw [renderBarrel, if_pos (leaked_eq_nil _ _)], barrel_distinct h hapart,
      fun name hname => ?_⟩
    obtain ⟨bindings, hbindings, hpublished⟩ := List.mem_flatMap.1 hname
    obtain ⟨⟨b, hb, -, rfl⟩, -⟩ := mem_published.1 hpublished
    exact modules_legal hapart _ hbindings b hb

def records (first second : String) : Document where
  types := [⟨"ix://a/p/first", some first, .record, none, false⟩,
    ⟨"ix://a/p/second", some second, .record, none, false⟩]
  distinct := by
    change ["ix://a/p/first", "ix://a/p/second"].Nodup
    decide

def bare : Texts := ⟨fun _ => [], fun _ => [], fun _ => "", false⟩

theorem wellNamed_iff_records : (buildModel (records "Person" "Address")).losses = [] ∧
    (WellNamed bare (buildModel (records "Person" "Address")) ↔
      NamesApart false (records "Person" "Address").types) := by
  have h : (buildModel (records "Person" "Address")).losses = [] := by decide
  exact ⟨h, wellNamed_iff bare (records "Person" "Address") h⟩

/-- The type `validatePerson` and the validator of the type `Person` are one name. -/
theorem validatePerson_twice : (buildModel (records "Person" "validatePerson")).losses = [] ∧
    ¬ WellNamed bare (buildModel (records "Person" "validatePerson")) := by
  refine ⟨by decide, fun hnames => ?_⟩
  have hapart := (apart_of_wellNamed hnames).validators
  exact hapart _ (.tail _ (.head _)) _ (.head _) (by decide) (by decide) (by decide)

end FilamentCore.Backends.TypescriptNames
