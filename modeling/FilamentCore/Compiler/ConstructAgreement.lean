import FilamentCore.Library.Staged
import FilamentCore.Compiler.Constructs
import FilamentCore.SemanticIr.DeclarationJson
import FilamentCore.SemanticIr.CanonicalText

/-!
# Where the two readings of a construct declaration agree (FR-142)

Both readers refuse at the first defect, and each defect is placed by a function of the value.
-/

namespace FilamentCore.Compiler.Constructs
open FilamentCore.Library
open FilamentCore.Library.Staged
open FilamentCore.SemanticIr

abbrev Reads {α : Type} (read : Except DeclarationError α) (defect : Option String)
    (good : α → Prop) : Prop :=
  Stage DeclarationError.pointer read defect good

/-! ### The vocabulary -/

section Terms
variable {α : Type} [Vocabulary α]

theorem parse_isSome {text : String} :
    (Vocabulary.parse α text).isSome = (Vocabulary.names α).contains text := by
  rw [Bool.eq_iff_iff, Vocabulary.parse, List.find?_isSome, Vocabulary.names,
    List.contains_iff_mem, List.mem_map]
  simp

def termDefect (value : Option Json) (pointer : String) (names : List String) : Option String :=
  if (value.bind Json.asStr).any names.contains then none else some pointer

theorem term_reads (value : Option Json) (pointer what : String) (names : List String) :
    Reads (term value pointer names what) (termDefect value pointer names)
      fun found => value = some (.str found) ∧ found ∈ names := by
  have hrefused : ∀ {v : Option Json}, v.bind Json.asStr = none →
      termDefect v pointer names = some pointer := by
    intro v hv
    simp [termDefect, hv]
  match value with
  | none =>
    rw [hrefused rfl]
    exact .refuse rfl
  | some (.str text) =>
    by_cases hn : text ∈ names
    · have hnone : termDefect (some (.str text)) pointer names = none := by
        simp [termDefect, Json.asStr, hn]
      rw [hnone, term, if_pos (List.contains_iff_mem.2 hn)]
      exact .pure ⟨rfl, hn⟩
    · have hsome : termDefect (some (.str text)) pointer names = some pointer := by
        simp [termDefect, Json.asStr, hn]
      rw [hsome, term, if_neg (by simpa using hn)]
      exact .refuse rfl
  | some .null | some (.bool _) | some (.number _) | some (.array _) | some (.object _) =>
    rw [hrefused rfl]
    exact .refuse rfl

theorem declarationTerm_reads (value : Option Json) (pointer what : String) :
    Reads (SemanticIr.Declaration.term α value pointer what)
      (termDefect value pointer (Vocabulary.names α))
      fun a => value.bind Json.asStr = some (Vocabulary.name a) := by
  unfold SemanticIr.Declaration.term termDefect
  cases hv : value.bind Json.asStr with
  | none => exact .refuse rfl
  | some text =>
    rw [Option.any_some, ← parse_isSome]
    cases hp : Vocabulary.parse α text with
    | none =>
      simp only [Option.isSome_none, Bool.false_eq_true, if_false, hp]
      exact .refuse rfl
    | some a =>
      simp only [Option.isSome_some, if_true, hp]
      exact .pure (by rw [name_of_parse hp])

end Terms

theorem identities_eq : identities = Vocabulary.names Identity := rfl

theorem shapes_eq : shapes = Vocabulary.names Shape := rfl

def entryOf (member : Member) : MemberEntry :=
  ⟨member.name, Vocabulary.name member.defaultPresence, member.referenceItems⟩

def requirementOf (term : String) (required : Member × Presence) : Requirement :=
  ⟨term, required.1.name, Vocabulary.name required.2⟩

theorem members_eq : members = (Vocabulary.all : List Member).map entryOf := rfl

theorem rules_eq :
    rules = (Vocabulary.all : List Rule).map fun rule => requirementOf rule.name rule.requires :=
  rfl

theorem memberOf_eq (name : String) :
    memberOf name = (Vocabulary.parse Member name).map entryOf := by
  rw [memberOf, members_eq, List.find?_map]
  rfl

theorem ruleOf_eq (name : String) : ruleOf name =
    (Vocabulary.parse Rule name).map fun rule => requirementOf rule.name rule.requires := by
  rw [ruleOf, rules_eq, List.find?_map]
  rfl

theorem parse_member (member : Member) : Vocabulary.parse Member member.name = some member := by
  cases member <;> decide

theorem parse_rule (rule : Rule) : Vocabulary.parse Rule rule.name = some rule := by
  cases rule <;> decide

theorem presence_name_inj {p q : Presence} (h : Vocabulary.name p = Vocabulary.name q) : p = q := by
  revert h
  cases p <;> cases q <;> decide

/-! ### Members -/

/-- An entry of `members` that names no core member, or whose value is no presence. -/
def memberDefect (entry : String × Json) : Option String :=
  let at' := "/members" ++ pointerToken entry.1
  (if (memberOf entry.1).isNone then some at' else none).or
    (termDefect (some entry.2) at' presences)

def repeatDefect (pointer : String) (seen : List String) (name : String) : Option String :=
  if seen.contains name then some (pointer ++ pointerToken name) else none

theorem readMember_reads (out : List (String × String)) (entry : String × Json) :
    Reads (readMember out entry) (memberDefect entry) fun out' =>
      ∃ b : String × String, entry = (b.1, .str b.2) ∧ b.1 = entry.1 ∧ out' = out ++ [b] := by
  obtain ⟨name, value⟩ := entry
  unfold readMember memberDefect
  cases hm : (memberOf name).isNone with
  | true => exact .refuse rfl
  | false =>
    apply (term_reads (some value) ("/members" ++ pointerToken name) "a member presence"
      presences).map
    rintro presence ⟨hv, -⟩
    cases hv
    exact ⟨(name, presence), rfl, rfl, rfl⟩

theorem contains_names {β : Type} {out : List (Member × β)} {name : String} {member : Member}
    (hp : Vocabulary.parse Member name = some member) :
    (out.map fun m => m.1.name).contains name = out.any fun m => m.1 == member := by
  have hname : member.name = name := name_of_parse hp
  rw [Bool.eq_iff_iff, List.contains_iff_mem, List.mem_map, List.any_eq_true]
  constructor
  · rintro ⟨m, hm, heq⟩
    have hparse := parse_member m.1
    rw [heq, hp] at hparse
    cases hparse
    exact ⟨m, hm, beq_self_eq_true _⟩
  · rintro ⟨m, hm, heq⟩
    exact ⟨m, hm, by rw [eq_of_beq heq, hname]⟩

theorem declarationMember_reads (out : List (Member × Presence)) (entry : String × Json) :
    Reads (SemanticIr.Declaration.readMember out entry)
      ((repeatDefect "/members" (out.map fun m => m.1.name) entry.1).or (memberDefect entry))
      fun out' => ∃ b : Member × Presence, entry = (b.1.name, .str (Vocabulary.name b.2)) ∧
        b.1.name = entry.1 ∧ out' = out ++ [b] := by
  obtain ⟨name, value⟩ := entry
  unfold SemanticIr.Declaration.readMember memberDefect repeatDefect
  simp only [memberOf_eq]
  cases hp : Vocabulary.parse Member name with
  | none =>
    have hrefused : ∀ seen : Bool, ((if seen then some ("/members" ++ pointerToken name)
        else none).or (some ("/members" ++ pointerToken name))) =
          some ("/members" ++ pointerToken name) := by
      intro seen
      cases seen <;> rfl
    simp only [Option.map_none, Option.isNone_none, if_true, Option.some_or, hrefused]
    exact .refuse rfl
  | some member =>
    have hname : member.name = name := name_of_parse hp
    have hseen := @contains_names Presence out _ _ hp
    simp only [Option.map_some, Option.isNone_some, Bool.false_eq_true, if_false, Option.none_or,
      hseen]
    cases hany : out.any fun m => m.1 == member with
    | true => exact .refuse rfl
    | false =>
      simp only [Bool.false_eq_true, if_false, Option.none_or]
      apply (declarationTerm_reads (some value) ("/members" ++ pointerToken name)
        "a member presence").map
      intro presence hv
      refine ⟨(member, presence), ?_, hname, rfl⟩
      rw [hname]
      cases value with
      | str found =>
        cases hv
        rfl
      | _ => cases hv

/-- The object of a member, empty where there is none. -/
def objectOf (value : Json) (name : String) : List (String × Json) :=
  ((value.get name).bind Json.asObject).getD []

/-- The first entry the Rust reader refuses: in authored order, repeated names included. -/
def authoredDefect (pointer : String) (defect : String × Json → Option String)
    (authored : List (String × Json)) : Option String :=
  firstDefect (fun seen entry => (repeatDefect pointer seen entry.1).or (defect entry)) Prod.fst []
    authored

/-- The first entry the compiler refuses: in property order. -/
def propertyDefect (defect : String × Json → Option String) (authored : List (String × Json)) :
    Option String :=
  (entries authored).findSome? defect

/-! ### References -/

def roleKey (role : Json × ℕ) : String := role.1.asStr.getD ""

def roleDefect (pointer : String) (seen : List String) (role : Json × ℕ) : Option String :=
  match role.1 with
  | .str text =>
    if text = "" ∨ text = "*" ∨ text ∈ seen then some (pointer ++ "/" ++ toString role.2) else none
  | _ => some (pointer ++ "/" ++ toString role.2)

def rolesDefect (pointer : String) (value : Json) : Option String :=
  match value with
  | .array roles =>
    if roles.isEmpty then some pointer
    else firstDefect (roleDefect pointer) roleKey [] roles.zipIdx
  | _ => some pointer

/-- An entry of `references` that names no reference member, or whose roles are none. -/
def referenceDefect (entry : String × Json) : Option String :=
  let at' := "/references" ++ pointerToken entry.1
  (if ((memberOf entry.1).bind MemberEntry.referenceItems).isNone then some at' else none).or
    (rolesDefect at' entry.2)

theorem roleDefect_str {pointer text : String} {seen : List String} {position : ℕ} :
    roleDefect pointer seen (.str text, position) =
      if text = "" ∨ text = "*" ∨ text ∈ seen then some (pointer ++ "/" ++ toString position)
      else none := rfl

theorem readRole_reads (name pointer : String) (out : List String) (role : Json × ℕ) :
    Reads (readRole name pointer out role) (roleDefect pointer (out.map id) role) fun out' =>
      ∃ b, role.1 = .str b ∧ id b = roleKey role ∧ out' = out ++ [b] := by
  obtain ⟨value, position⟩ := role
  cases value with
  | str text =>
    rw [roleDefect_str, List.map_id]
    unfold readRole
    by_cases h : text = "" ∨ text = "*"
    · have hor : text = "" ∨ text = "*" ∨ text ∈ out := by tauto
      simp only [h, hor, if_true]
      exact .refuse rfl
    · by_cases hout : text ∈ out
      · have hor : text = "" ∨ text = "*" ∨ text ∈ out := .inr (.inr hout)
        simp only [h, hor, if_true, if_false, List.contains_iff_mem.2 hout]
        exact .refuse rfl
      · have hor : ¬ (text = "" ∨ text = "*" ∨ text ∈ out) := by tauto
        have hc : out.contains text = false := by simpa using hout
        simp only [h, hor, if_false, hc, Bool.false_eq_true]
        exact .pure ⟨text, rfl, rfl, rfl⟩
  | _ => exact .refuse rfl

theorem declarationRole_reads (name pointer : String) (out : List String) (role : Json × ℕ) :
    Reads (SemanticIr.Declaration.readRole name pointer out role)
      (roleDefect pointer (out.map id) role) fun out' =>
        ∃ b, role.1 = .str b ∧ id b = roleKey role ∧ out' = out ++ [b] := by
  obtain ⟨value, position⟩ := role
  cases value with
  | str text =>
    rw [roleDefect_str, List.map_id]
    unfold SemanticIr.Declaration.readRole
    by_cases h : text = "" ∨ text = "*"
    · have hor : text = "" ∨ text = "*" ∨ text ∈ out := by tauto
      have hf : (Json.asStr (.str text)).filter (fun role => role ≠ "" && role ≠ "*") = none := by
        rcases h with rfl | rfl <;> rfl
      simp only [hf, hor, if_true]
      exact .refuse rfl
    · have hf : (Json.asStr (.str text)).filter (fun role => role ≠ "" && role ≠ "*") =
          some text := by
        simp only [not_or] at h
        simp [Json.asStr, h]
      by_cases hout : text ∈ out
      · have hor : text = "" ∨ text = "*" ∨ text ∈ out := .inr (.inr hout)
        simp only [hf, hor, if_true, List.contains_iff_mem.2 hout]
        exact .refuse rfl
      · have hor : ¬ (text = "" ∨ text = "*" ∨ text ∈ out) := by tauto
        have hc : out.contains text = false := by simpa using hout
        simp only [hf, hor, if_false, hc, Bool.false_eq_true]
        exact .pure ⟨text, rfl, rfl, rfl⟩
  | _ => exact .refuse rfl

theorem zipped_of_forall₂ {β : Type} {written : β → Json} {read : List β} {items : List Json}
    (h : List.Forall₂ (fun b item => item.1 = written b) read items.zipIdx) :
    items = read.map written := by
  rw [← List.zipIdx_map_fst 0 items]
  generalize items.zipIdx = zipped at h
  induction h with
  | nil => rfl
  | cons hw _ ih => rw [List.map_cons, List.map_cons, hw, ih]

theorem roles_read {step : List String → Json × ℕ → Except DeclarationError (List String)}
    {pointer : String} (h : ∀ out role, Reads (step out role)
      (roleDefect pointer (out.map id) role) fun out' =>
        ∃ b, role.1 = .str b ∧ id b = roleKey role ∧ out' = out ++ [b]) (roles : List Json) :
    Reads (roles.zipIdx.foldlM step []) (firstDefect (roleDefect pointer) roleKey [] roles.zipIdx)
      fun read => roles = read.map Json.str := by
  have hfold : Reads (roles.zipIdx.foldlM step [])
      (firstDefect (roleDefect pointer) roleKey [] roles.zipIdx) fun out' =>
        ∃ read, List.Forall₂ (fun b role => role.1 = Json.str b) read roles.zipIdx ∧
          out' = [] ++ read := Stage.fold h roles.zipIdx []
  apply hfold.mono
  rintro _ ⟨read, hread, rfl⟩
  exact zipped_of_forall₂ hread

theorem readReference_reads (out : List (String × List String)) (entry : String × Json) :
    Reads (readReference out entry) (referenceDefect entry) fun out' =>
      ∃ b : String × List String, entry = (b.1, .array (b.2.map Json.str)) ∧ b.1 = entry.1 ∧
        out' = out ++ [b] := by
  obtain ⟨name, value⟩ := entry
  unfold readReference referenceDefect
  cases hm : ((memberOf name).bind MemberEntry.referenceItems).isNone with
  | true => exact .refuse rfl
  | false =>
    cases value with
    | array roles =>
      cases he : roles.isEmpty with
      | true =>
        simp only [Bool.false_eq_true, if_false, Option.none_or, rolesDefect, he, if_true]
        exact .refuse rfl
      | false =>
        simp only [Bool.false_eq_true, if_false, Option.none_or, rolesDefect, he]
        apply (roles_read (readRole_reads name _) roles).map
        intro read hread
        exact ⟨(name, read), by rw [hread], rfl, rfl⟩
    | _ => exact .refuse rfl

theorem declarationReference_reads (out : List (Member × List String)) (entry : String × Json) :
    Reads (SemanticIr.Declaration.readReference out entry)
      ((repeatDefect "/references" (out.map fun m => m.1.name) entry.1).or (referenceDefect entry))
      fun out' => ∃ b : Member × List String,
        entry = (b.1.name, .array (b.2.map Json.str)) ∧ b.1.name = entry.1 ∧
          out' = out ++ [b] := by
  obtain ⟨name, value⟩ := entry
  unfold SemanticIr.Declaration.readReference referenceDefect
  have hitems : ((memberOf name).bind MemberEntry.referenceItems).isNone =
      ((Vocabulary.parse Member name).filter fun m => m.referenceItems.isSome).isNone := by
    rw [memberOf_eq]
    cases Vocabulary.parse Member name with
    | none => rfl
    | some member => cases h : member.referenceItems <;> simp [entryOf, h, Option.filter]
  simp only [hitems]
  cases hp : (Vocabulary.parse Member name).filter fun m => m.referenceItems.isSome with
  | none =>
    have hrefused : (repeatDefect "/references" (out.map fun m => m.1.name) name).or
        (some ("/references" ++ pointerToken name)) =
          some ("/references" ++ pointerToken name) := by
      unfold repeatDefect
      split <;> rfl
    simp only [Option.isNone_none, if_true, Option.some_or, hrefused]
    exact .refuse rfl
  | some member =>
    have hparse := (Option.filter_eq_some_iff.1 hp).1
    have hname : member.name = name := name_of_parse hparse
    have hseen := @contains_names (List String) out _ _ hparse
    simp only [Option.isNone_some, Bool.false_eq_true, if_false, Option.none_or, repeatDefect,
      hseen]
    cases hany : out.any fun m => m.1 == member with
    | true => exact .refuse rfl
    | false =>
      simp only [Bool.false_eq_true, if_false, Option.none_or]
      cases value with
      | array roles =>
        cases he : roles.isEmpty with
        | true =>
          simp only [Json.asArray, Option.filter, he, rolesDefect, if_true, Bool.not_true,
            Bool.false_eq_true, if_false]
          exact .refuse rfl
        | false =>
          simp only [Json.asArray, Option.filter, he, rolesDefect, if_true, Bool.not_false,
            Bool.false_eq_true, if_false]
          apply (roles_read (declarationRole_reads name _) roles).map
          intro read hread
          exact ⟨(member, read), by rw [hread, hname], hname, rfl⟩
      | _ => exact .refuse rfl

/-! ### Rules -/

def ruleNames : List String := rules.map Requirement.term

theorem ruleNames_eq : ruleNames = Vocabulary.names Rule := rfl

def ruleDefect (seen : List String) (rule : Json × ℕ) : Option String :=
  let at' := "/rules/" ++ toString rule.2
  (termDefect (some rule.1) at' ruleNames).or
    (if seen.contains (roleKey rule) then some at' else none)

theorem readRule_reads (out : List String) (rule : Json × ℕ) :
    Reads (readRule out rule) (ruleDefect (out.map id) rule) fun out' =>
      ∃ b, (rule.1 = .str b ∧ b ∈ ruleNames) ∧ id b = roleKey rule ∧ out' = out ++ [b] := by
  obtain ⟨value, position⟩ := rule
  unfold readRule ruleDefect
  apply (term_reads (some value) ("/rules/" ++ toString position) "a rule" ruleNames).bind
  rintro name ⟨hv, hn⟩
  cases hv
  rw [List.map_id]
  cases hc : out.contains name with
  | true =>
    simp only [roleKey, Json.asStr, Option.getD_some, hc, if_true]
    exact .refuse rfl
  | false =>
    simp only [roleKey, Json.asStr, Option.getD_some, hc, Bool.false_eq_true, if_false]
    exact .pure ⟨name, ⟨rfl, hn⟩, rfl, rfl⟩

theorem declarationRule_reads (out : List Rule) (rule : Json × ℕ) :
    Reads (SemanticIr.Declaration.readRule out rule) (ruleDefect (out.map Rule.name) rule)
      fun out' => ∃ b : Rule, rule.1 = .str b.name ∧ b.name = roleKey rule ∧
        out' = out ++ [b] := by
  obtain ⟨value, position⟩ := rule
  unfold SemanticIr.Declaration.readRule ruleDefect
  rw [ruleNames_eq]
  apply (declarationTerm_reads (some value) ("/rules/" ++ toString position) "a rule").bind
  intro name hv
  cases value with
  | str found =>
    cases hv
    have hc : (out.map Rule.name).contains (Vocabulary.name name) = out.contains name := by
      rw [Bool.eq_iff_iff, List.contains_iff_mem, List.contains_iff_mem, List.mem_map]
      constructor
      · rintro ⟨other, hm, heq⟩
        have hparse := parse_rule other
        rw [heq] at hparse
        rw [Option.some.inj ((parse_rule name).symm.trans hparse)]
        exact hm
      · exact fun hm => ⟨name, hm, rfl⟩
    simp only [roleKey, Json.asStr, Option.getD_some, hc]
    cases hn : out.contains name with
    | true => exact .refuse rfl
    | false => exact .pure ⟨name, rfl, rfl, rfl⟩
  | _ => cases hv

/-- The list of rules is refused. -/
def rulesDefect (value : Json) : Option String :=
  match value.get "rules" with
  | none => none
  | some (.array items) => firstDefect ruleDefect roleKey [] items.zipIdx
  | some _ => some "/rules"

def selected (value : Json) : List String := (value.members "rules").map fun rule =>
  rule.asStr.getD ""

theorem eq_map_of_forall₂ {β γ : Type} {written : β → γ} {read : List β} {items : List γ}
    (h : List.Forall₂ (fun b item => item = written b) read items) : items = read.map written := by
  induction h with
  | nil => rfl
  | cons hw _ ih => rw [List.map_cons, ← hw, ← ih]

theorem left_of_forall₂ {β γ : Type} {related : β → γ → Prop} {p : β → Prop} {read : List β}
    {items : List γ} (h : List.Forall₂ related read items) (hp : ∀ b c, related b c → p b) :
    ∀ b ∈ read, p b := by
  induction h with
  | nil => simp
  | cons hr _ ih =>
    intro b hm
    rcases List.mem_cons.1 hm with rfl | hm
    · exact hp _ _ hr
    · exact ih b hm

theorem selected_eq {value : Json} {items : List Json} {names : List String}
    (hv : value.get "rules" = some (.array items)) (hi : items = names.map Json.str) :
    selected value = names := by
  simp [selected, Json.members, Json.getArray, hv, Json.asArray, hi, Json.asStr,
    Function.comp_def]

theorem selected_none {value : Json} (hv : value.get "rules" = none) : selected value = [] := by
  simp [selected, Json.members, Json.getArray, hv]

theorem readRules_reads (value : Json) :
    Reads (readRules (value.get "rules")) (rulesDefect value) fun read =>
      read = selected value ∧ ∀ rule ∈ read, rule ∈ ruleNames := by
  unfold readRules rulesDefect
  cases hv : value.get "rules" with
  | none => exact .pure ⟨(selected_none hv).symm, by simp⟩
  | some found =>
    cases found with
    | array items =>
      have hfold : Reads (items.zipIdx.foldlM readRule [])
          (firstDefect ruleDefect roleKey [] items.zipIdx) fun out' => ∃ read,
            List.Forall₂ (fun b rule => rule.1 = Json.str b ∧ b ∈ ruleNames) read items.zipIdx ∧
              out' = [] ++ read := Stage.fold readRule_reads items.zipIdx []
      apply hfold.mono
      rintro _ ⟨read, hread, rfl⟩
      have hitems := zipped_of_forall₂ (hread.imp fun _ _ h => h.1)
      exact ⟨(selected_eq hv hitems).symm, left_of_forall₂ hread fun _ _ h => h.2⟩
    | _ => exact .refuse rfl

theorem declarationRules_reads (value : Json) :
    Reads (declaredRules value) (rulesDefect value) fun read =>
      selected value = read.map Rule.name := by
  unfold declaredRules rulesDefect
  cases hv : value.get "rules" with
  | none => exact .pure (selected_none hv)
  | some found =>
    cases found with
    | array items =>
      have hfold : Reads (items.zipIdx.foldlM SemanticIr.Declaration.readRule [])
          (firstDefect ruleDefect roleKey [] items.zipIdx) fun out' => ∃ read,
            List.Forall₂ (fun b rule => rule.1 = Json.str (Rule.name b)) read items.zipIdx ∧
              out' = [] ++ read := Stage.fold declarationRule_reads items.zipIdx []
      apply hfold.mono
      rintro _ ⟨read, hread, rfl⟩
      have hitems := zipped_of_forall₂ hread
      apply selected_eq hv
      rw [hitems, List.map_map]
      rfl
    | _ => exact .refuse rfl

/-! ### The meaning and the flag -/

def meaningDefect (value : Json) : Option String :=
  if ((value.getStr "meaning").filter fun text => text ≠ "").isSome then none
  else some "/meaning"

theorem readMeaning_reads (value : Json) :
    Reads (readMeaning (value.get "meaning")) (meaningDefect value) fun _ => True := by
  unfold readMeaning meaningDefect Json.getStr
  cases value.get "meaning" with
  | none => exact .refuse rfl
  | some found =>
    cases found with
    | str text =>
      by_cases h : text = ""
      · simp only [h, if_true]
        exact .refuse rfl
      · simp only [h, if_false, Option.bind_some, Json.asStr, Option.filter, decide_not,
          decide_false, Bool.not_false, if_true, Option.isSome_some]
        exact .pure trivial
    | _ => exact .refuse rfl

theorem declarationMeaning_reads (value : Json) :
    Reads (declaredMeaning value) (meaningDefect value) fun _ => True := by
  unfold declaredMeaning meaningDefect
  cases (value.getStr "meaning").filter fun text => text ≠ "" with
  | none => exact .refuse rfl
  | some meaning => exact .pure trivial

def flagDefect (value : Json) : Option String :=
  match value.get "immutable" with
  | none | some (.bool _) => none
  | some _ => some "/immutable"

theorem readFlags_reads (value : Json) :
    Reads (flags.mapM (readFlag value)) (flagDefect value) fun _ => True := by
  have hmap : flags.mapM (readFlag value) =
      readFlag value ("immutable", false) >>= fun flag => .ok [flag] := by
    simp only [flags, List.mapM_cons, List.mapM_nil]
    rfl
  rw [hmap]
  have hflag : Reads (readFlag value ("immutable", false)) (flagDefect value) fun _ => True := by
    unfold readFlag flagDefect
    cases value.get "immutable" with
    | none => exact .pure trivial
    | some found =>
      cases found with
      | bool b => exact .pure trivial
      | _ => exact .refuse rfl
  exact hflag.map fun _ _ => trivial

theorem declarationFlag_reads (value : Json) :
    Reads (declaredFlag value) (flagDefect value) fun _ => True := by
  unfold declaredFlag flagDefect
  cases value.get "immutable" with
  | none => exact .pure trivial
  | some found =>
    cases found with
    | bool b => exact .pure trivial
    | _ => exact .refuse rfl

/-! ### Presences -/

def presenceIn (authored : List (String × Json)) (member : String) : Option String :=
  ((authored.find? fun m => m.1 == member).bind fun m => m.2.asStr).orElse fun _ =>
    (memberOf member).map MemberEntry.default

def writeMember (m : String × String) : String × Json := (m.1, .str m.2)

def writeDeclared (m : Member × Presence) : String × Json :=
  (m.1.name, .str (Vocabulary.name m.2))

theorem presenceOf_eq {declaration : Declaration} {authored : List (String × Json)}
    (h : authored = declaration.members.map writeMember) (member : String) :
    presenceOf declaration member = presenceIn authored member := by
  rw [presenceOf, presenceIn, h, List.find?_map]
  have hkey : ((fun m : String × Json => m.1 == member) ∘ writeMember) =
      fun m : String × String => m.1 == member := rfl
  rw [hkey]
  cases declaration.members.find? fun m => m.1 == member <;> rfl

theorem presence_eq {declaration : SemanticIr.Declaration} {authored : List (String × Json)}
    (h : authored = declaration.members.map writeDeclared) (member : Member) :
    presenceIn authored member.name = some (Vocabulary.name (declaration.presence member)) := by
  rw [presenceIn, h, List.find?_map, SemanticIr.Declaration.presence, memberOf_eq, parse_member]
  have hkey : ((fun m : String × Json => m.1 == member.name) ∘ writeDeclared) =
      fun m : Member × Presence => m.1 == member := by
    funext m
    change (m.1.name == member.name) = (m.1 == member)
    rw [Bool.eq_iff_iff, beq_iff_eq, beq_iff_eq]
    constructor
    · intro heq
      have hparse := parse_member m.1
      rw [heq, parse_member] at hparse
      exact (Option.some.inj hparse).symm
    · exact fun heq => by rw [heq]
  rw [hkey]
  cases declaration.members.find? fun m => m.1 == member <;> rfl

def requirementDefect (pointer term : String) (requirements : List Requirement)
    (authored : List (String × Json)) : Option String :=
  if requirements.all fun r => r.term != term || presenceIn authored r.member == some r.presence
  then none else some pointer

theorem checkRequirements_reads {declaration : Declaration} {authored : List (String × Json)}
    (h : authored = declaration.members.map writeMember) (pointer term : String)
    (requirements : List Requirement) :
    Reads (checkRequirements declaration pointer term requirements)
      (requirementDefect pointer term requirements authored) fun _ => True := by
  induction requirements with
  | nil => exact .pure trivial
  | cons requirement requirements ih =>
    unfold checkRequirements requirementDefect
    rw [List.all_cons, presenceOf_eq h]
    by_cases ht : (requirement.term != term) = true
    · simp only [ht, if_true, Bool.true_or, Bool.true_and]
      exact ih
    · by_cases hp : (presenceIn authored requirement.member != some requirement.presence) = true
      · have hno : (presenceIn authored requirement.member == some requirement.presence) = false := by
          simpa [bne] using hp
        simp only [ht, hp, if_true, hno, Bool.or_self, Bool.false_and, Bool.false_eq_true,
          if_false]
        exact .refuse rfl
      · have hyes : (presenceIn authored requirement.member == some requirement.presence) = true := by
          simpa [bne] using hp
        simp only [ht, hp, if_false, hyes, Bool.or_true, Bool.true_and, Bool.false_eq_true]
        exact ih

theorem declares_reads {declaration : SemanticIr.Declaration} {authored : List (String × Json)}
    (h : authored = declaration.members.map writeDeclared) (pointer message term : String)
    (required : Option (Member × Presence)) {requirements : List Requirement}
    (hr : (requirements.all fun r => r.term != term ||
      presenceIn authored r.member == some r.presence) = required.all fun r =>
        presenceIn authored r.1.name == some (Vocabulary.name r.2)) :
    Reads (declaration.declares pointer message required)
      (requirementDefect pointer term requirements authored) fun _ => True := by
  unfold requirementDefect
  rw [hr]
  cases required with
  | none => exact .pure trivial
  | some required =>
    obtain ⟨member, presence⟩ := required
    rw [Option.all_some, presence_eq h]
    unfold SemanticIr.Declaration.declares
    by_cases hp : declaration.presence member = presence
    · simp only [hp, if_true, beq_self_eq_true]
      exact .pure trivial
    · have hne : (some (Vocabulary.name (declaration.presence member)) ==
          some (Vocabulary.name presence)) = false := by
        rw [beq_eq_false_iff_ne, ne_eq, Option.some.injEq]
        exact fun heq => hp (presence_name_inj heq)
      simp only [hp, if_false, hne, Bool.false_eq_true]
      exact .refuse rfl

theorem identity_requires (identity : Identity) (authored : List (String × Json)) :
    (identityRequirements.all fun r => r.term != Vocabulary.name identity ||
      presenceIn authored r.member == some r.presence) = identity.requires.all fun r =>
        presenceIn authored r.1.name == some (Vocabulary.name r.2) := by
  cases identity
  · have hterm : ("identified" != Vocabulary.name Identity.identified) = false := by decide
    simp only [identityRequirements, List.all_cons, List.all_nil, hterm, Bool.false_or,
      Bool.and_true]
    rfl
  all_goals rfl

theorem shape_requires (shape : Shape) (authored : List (String × Json)) :
    (shapeRequirements.all fun r => r.term != Vocabulary.name shape ||
      presenceIn authored r.member == some r.presence) = shape.requires.all fun r =>
        presenceIn authored r.1.name == some (Vocabulary.name r.2) := by
  cases shape <;> simp only [shapeRequirements, List.all_cons, List.all_nil]
  all_goals first
    | rfl
    | simp [Vocabulary.name, Shape.requires, Member.name]

/-- The first selected rule whose member presence is not declared. -/
def selectedDefect (authored : List (String × Json)) (selected : List (String × ℕ)) :
    Option String :=
  selected.findSome? fun rule => (ruleOf rule.1).bind fun r =>
    if presenceIn authored r.member = some r.presence then none
    else some ("/rules/" ++ toString rule.2)

theorem checkRules_reads {declaration : Declaration} {authored : List (String × Json)}
    (h : authored = declaration.members.map writeMember) {selected : List (String × ℕ)}
    (hs : ∀ rule ∈ selected, rule.1 ∈ ruleNames) :
    Reads (checkRules declaration selected) (selectedDefect authored selected)
      fun _ => True := by
  induction selected with
  | nil => exact .pure trivial
  | cons rule selected ih =>
    obtain ⟨name, position⟩ := rule
    have hrest := ih fun other ho => hs other (List.mem_cons_of_mem _ ho)
    have hname : (ruleOf name).isSome = true := by
      rw [ruleOf_eq, Option.isSome_map, parse_isSome, List.contains_iff_mem]
      exact hs _ (List.mem_cons_self ..)
    obtain ⟨requirement, hr⟩ := Option.isSome_iff_exists.1 hname
    unfold selectedDefect at hrest ⊢
    simp only [checkRules, List.findSome?_cons, hr, Option.bind_some, presenceOf_eq h]
    by_cases hp : presenceIn authored requirement.member = some requirement.presence
    · simp only [hp, if_true, Bool.false_eq_true, if_false, bne_self_eq_false]
      exact hrest
    · have hyes : (presenceIn authored requirement.member != some requirement.presence) = true :=
        bne_iff_ne.2 hp
      simp only [hp, if_false, hyes, if_true]
      exact .refuse rfl

theorem declarationCheckRules_reads {declaration : SemanticIr.Declaration}
    {authored : List (String × Json)} (h : authored = declaration.members.map writeDeclared)
    (selected : List (Rule × ℕ)) :
    Reads (declaration.checkRules selected)
      (selectedDefect authored (selected.map fun rule => (rule.1.name, rule.2)))
      fun _ => True := by
  induction selected with
  | nil => exact .pure trivial
  | cons rule selected ih =>
    obtain ⟨rule, position⟩ := rule
    have hthis := @declares_reads _ _ h ("/rules/" ++ toString position) ("the rule " ++ rule.name)
      rule.name (some rule.requires) [requirementOf rule.name rule.requires]
      (by simp [requirementOf])
    have hchain := hthis.bind fun _ _ => ih
    have hdefect : (selectedDefect authored
        (((rule, position) :: selected).map fun rule => (rule.1.name, rule.2))) =
        (requirementDefect ("/rules/" ++ toString position) rule.name
          [requirementOf rule.name rule.requires] authored).or
          (selectedDefect authored (selected.map fun rule => (rule.1.name, rule.2))) := by
      unfold selectedDefect requirementDefect
      rw [List.map_cons, List.findSome?_cons, ruleOf_eq, parse_rule]
      by_cases hp : presenceIn authored rule.requires.1.name =
          some (Vocabulary.name rule.requires.2) <;> simp [requirementOf, hp]
    rw [hdefect]
    exact hchain

def forbiddenReference (authored references : List (String × Json)) : Option String :=
  references.findSome? fun reference =>
    if presenceIn authored reference.1 = some "forbidden" then
      some ("/references" ++ pointerToken reference.1)
    else none

theorem checkReferences_reads {declaration : Declaration} {authored : List (String × Json)}
    (h : authored = declaration.members.map writeMember)
    (references : List (String × List String)) :
    Reads (checkReferences declaration references)
      (forbiddenReference authored
        (references.map fun r => (r.1, .array (r.2.map Json.str)))) fun _ => True := by
  induction references with
  | nil => exact .pure trivial
  | cons reference references ih =>
    obtain ⟨member, roles⟩ := reference
    unfold forbiddenReference at ih ⊢
    simp only [checkReferences, List.map_cons, List.findSome?_cons, presenceOf_eq h]
    by_cases hp : presenceIn authored member = some "forbidden"
    · simp only [hp, if_true]
      exact .refuse rfl
    · simp only [hp, if_false]
      exact ih

theorem declarationCheckReferences_reads {declaration : SemanticIr.Declaration}
    {authored : List (String × Json)} (h : authored = declaration.members.map writeDeclared)
    (references : List (Member × List String)) :
    Reads (declaration.checkReferences references)
      (forbiddenReference authored
        (references.map fun r => (r.1.name, .array (r.2.map Json.str)))) fun _ => True := by
  induction references with
  | nil => exact .pure trivial
  | cons reference references ih =>
    obtain ⟨member, roles⟩ := reference
    unfold forbiddenReference at ih ⊢
    simp only [SemanticIr.Declaration.checkReferences, List.map_cons, List.findSome?_cons,
      presence_eq h]
    by_cases hp : declaration.presence member = .forbidden
    · simp only [hp, if_true]
      exact .refuse rfl
    · have hne : ¬ some (Vocabulary.name (declaration.presence member)) = some "forbidden" := by
        intro heq
        exact hp (presence_name_inj (Option.some.inj heq))
      simp only [hp, hne, if_false]
      exact ih

/-- A shape other than an alias that admits the target. -/
def targetDefect (authored : List (String × Json)) (shape : String) : Option String :=
  if shape = "alias" ∨ presenceIn authored "target" = some "forbidden" then none
  else some "/members/target"

/-! ### Property order -/

theorem mem_entries {authored : List (String × Json)} {m : String × Json} :
    m ∈ entries authored ↔ m ∈ Json.resolvedMembers authored := by
  simp only [entries, List.mem_append, List.mem_mergeSort, List.mem_filter]
  cases arrayIndex m.1 <;> simp

theorem names_entries {authored : List (String × Json)} (name : String) :
    (∃ m ∈ entries authored, m.1 = name) ↔ ∃ m ∈ authored, m.1 = name := by
  have hfirst := (Json.resolvedMembers_spec authored).2 name
  constructor
  · rintro ⟨m, hm, rfl⟩
    exact ⟨m, Json.mem_of_mem_resolved (mem_entries.1 hm), rfl⟩
  · rintro ⟨m, hm, rfl⟩
    cases hl : Keyed.first Prod.fst m.1 (Json.resolvedMembers authored) with
    | none =>
      rw [hl] at hfirst
      have hno := List.find?_eq_none.1 hfirst.symm m (List.mem_reverse.2 hm)
      simp at hno
    | some other =>
      have hmem := List.mem_of_find?_eq_some hl
      have hkey := List.find?_some hl
      exact ⟨other, mem_entries.2 hmem, by simpa using hkey⟩

theorem resolved_of_nodup {authored : List (String × Json)}
    (h : (authored.map Prod.fst).Nodup) : Json.resolvedMembers authored = authored := by
  have hstep : ∀ (resolved : List (String × Json)) (m : String × Json),
      m.1 ∉ resolved.map Prod.fst → Json.resolveMember resolved m = resolved ++ [m] := by
    intro resolved m hm
    induction resolved with
    | nil => rfl
    | cons r rs ih =>
      simp only [List.map_cons, List.mem_cons, not_or] at hm
      rw [Json.resolveMember, if_neg fun heq => hm.1 heq.symm, ih hm.2, List.cons_append]
  have hfold : ∀ (rest start : List (String × Json)), ((start ++ rest).map Prod.fst).Nodup →
      rest.foldl Json.resolveMember start = start ++ rest := by
    intro rest
    induction rest with
    | nil => exact fun start _ => (List.append_nil start).symm
    | cons m rest ih =>
      intro start hn
      have hm : m.1 ∉ start.map Prod.fst := by
        rw [List.map_append, List.nodup_append] at hn
        exact fun hm => hn.2.2 _ hm _ (List.mem_map_of_mem (List.mem_cons_self ..)) rfl
      rw [List.foldl_cons, hstep start m hm, ih _ (by simpa using hn), List.append_assoc,
        List.singleton_append]
  exact hfold authored [] h

theorem arrayIndex_member (member : Member) : arrayIndex member.name = none := by
  cases member <;> decide

theorem entries_of_members {authored : List (String × Json)}
    (hn : (authored.map Prod.fst).Nodup)
    (hm : ∀ m ∈ authored, (memberOf m.1).isSome = true) : entries authored = authored := by
  have hindex : ∀ m ∈ authored, arrayIndex m.1 = none := by
    intro m hmem
    have h := hm m hmem
    rw [memberOf_eq, Option.isSome_map] at h
    obtain ⟨member, hp⟩ := Option.isSome_iff_exists.1 h
    rw [← name_of_parse hp]
    exact arrayIndex_member member
  unfold entries
  rw [resolved_of_nodup hn]
  have hnone : (authored.filter fun m => (arrayIndex m.1).isSome) = [] := by
    rw [List.filter_eq_nil_iff]
    intro m hmem
    simp [hindex m hmem]
  have hall : (authored.filter fun m => (arrayIndex m.1).isNone) = authored := by
    rw [List.filter_eq_self]
    intro m hmem
    simp [hindex m hmem]
  simp only [hnone, hall, List.mergeSort_nil, List.nil_append]

theorem authored_of_none {pointer : String} {defect : String × Json → Option String}
    {authored : List (String × Json)} {seen : List String}
    (h : firstDefect (fun seen entry => (repeatDefect pointer seen entry.1).or (defect entry))
      Prod.fst seen authored = none) :
    (authored.map Prod.fst).Nodup ∧ (∀ m ∈ authored, m.1 ∉ seen) ∧
      ∀ m ∈ authored, defect m = none := by
  induction authored generalizing seen with
  | nil => simp
  | cons m authored ih =>
    simp only [firstDefect, Option.or_eq_none_iff] at h
    obtain ⟨⟨hrepeat, hdefect⟩, hrest⟩ := h
    obtain ⟨hn, hseen, hall⟩ := ih hrest
    have hnew : m.1 ∉ seen := by
      intro hm
      simp [repeatDefect, hm] at hrepeat
    refine ⟨?_, ?_, ?_⟩
    · rw [List.map_cons, List.nodup_cons]
      refine ⟨fun hm => ?_, hn⟩
      obtain ⟨other, ho, heq⟩ := List.mem_map.1 hm
      exact hseen other ho (by rw [heq]; simp)
    · intro other ho
      rcases List.mem_cons.1 ho with rfl | ho
      · exact hnew
      · exact fun hm => hseen other ho (List.mem_append_left _ hm)
    · intro other ho
      rcases List.mem_cons.1 ho with rfl | ho
      · exact hdefect
      · exact hall other ho

theorem property_of_authored {pointer : String} {defect : String × Json → Option String}
    (hmember : ∀ m, defect m = none → (memberOf m.1).isSome = true)
    {authored : List (String × Json)} (h : authoredDefect pointer defect authored = none) :
    entries authored = authored ∧ propertyDefect defect authored = none := by
  obtain ⟨hn, -, hall⟩ := authored_of_none h
  have heq := entries_of_members hn fun m hm => hmember m (hall m hm)
  refine ⟨heq, ?_⟩
  rw [propertyDefect, heq, List.findSome?_eq_none_iff]
  exact hall

theorem isSome_of_memberDefect (m : String × Json) (h : memberDefect m = none) :
    (memberOf m.1).isSome = true := by
  simp only [memberDefect, Option.or_eq_none_iff] at h
  cases hm : memberOf m.1 with
  | none => simp [hm] at h
  | some _ => rfl

theorem isSome_of_referenceDefect (m : String × Json) (h : referenceDefect m = none) :
    (memberOf m.1).isSome = true := by
  simp only [referenceDefect, Option.or_eq_none_iff] at h
  cases hm : memberOf m.1 with
  | none => simp [hm] at h
  | some _ => rfl

/-! ### The chain of defects -/

def namesDefect (authored : List (String × Json)) : Option String :=
  if authored.all fun m => allowed.contains m.1 then none else some ""

def presentDefect (value : Json) : Option String :=
  if ["identity", "shape", "members", "meaning"].all value.has then none else some ""

def objectDefect (value : Option Json) (pointer : String) : Option String :=
  if (value.bind Json.asObject).isSome then none else some pointer

/-- The members of the declaration, its identity and its shape. -/
def envelopeDefect (value : Json) : Option String :=
  match value.asObject with
  | none => some ""
  | some authored => (namesDefect authored).or <| (presentDefect value).or <|
      (termDefect (value.get "identity") "/identity" identities).or <|
        (termDefect (value.get "shape") "/shape" shapes).or <|
          objectDefect (value.get "members") "/members"

def referencesDefect (value : Json) : Option String :=
  if (value.get "references").any fun references => references.asObject.isNone then
    some "/references"
  else none

/-- The rules, the meaning, the flag, and the member presences they and the identity and the
shape require. -/
def laterDefect (value : Json) (listed : List (String × Json)) : Option String :=
  (rulesDefect value).or <| (meaningDefect value).or <| (flagDefect value).or <|
    (requirementDefect "/identity" ((value.getStr "identity").getD "") identityRequirements
      listed).or <|
    (requirementDefect "/shape" ((value.getStr "shape").getD "") shapeRequirements listed).or <|
      selectedDefect listed (selected value).zipIdx

def compilerDefect (value : Json) : Option String :=
  let members := objectOf value "members"
  let references := objectOf value "references"
  (envelopeDefect value).or <| (propertyDefect memberDefect members).or <|
    (referencesDefect value).or <| (propertyDefect referenceDefect references).or <|
      (laterDefect value (entries members)).or <|
        forbiddenReference (entries members) (entries references)

def readerDefect (value : Json) : Option String :=
  let members := objectOf value "members"
  let references := objectOf value "references"
  (envelopeDefect value).or <| (authoredDefect "/members" memberDefect members).or <|
    (referencesDefect value).or <| (authoredDefect "/references" referenceDefect references).or <|
      (laterDefect value members).or <| (forbiddenReference members references).or <|
        targetDefect members ((value.getStr "shape").getD "")

theorem checkNames_reads (authored : List (String × Json)) :
    Reads (checkNames authored) (namesDefect authored) fun _ => True := by
  unfold checkNames namesDefect
  have hall : (authored.all fun m => allowed.contains m.1) =
      ((entries authored).find? fun m => !allowed.contains m.1).isNone := by
    rw [Bool.eq_iff_iff, List.all_eq_true, Option.isNone_iff_eq_none, List.find?_eq_none]
    constructor
    · intro h m hm
      obtain ⟨other, ho, heq⟩ := (names_entries m.1).1 ⟨m, hm, rfl⟩
      have hallowed := h other ho
      rw [heq] at hallowed
      rw [hallowed]
      simp
    · intro h m hm
      obtain ⟨other, ho, heq⟩ := (names_entries m.1).2 ⟨m, hm, rfl⟩
      have hallowed := h other ho
      rw [heq] at hallowed
      simpa using hallowed
  rw [hall]
  cases (entries authored).find? fun m => !allowed.contains m.1 with
  | none => exact .pure trivial
  | some m => exact .refuse rfl

theorem only_reads {value : Json} {authored : List (String × Json)}
    (h : value.asObject = some authored) :
    Reads (SemanticIr.Declaration.only value "" SemanticIr.Declaration.declarationMembers)
      (namesDefect authored) fun _ => True := by
  unfold SemanticIr.Declaration.only namesDefect
  have hallowed : allowed = SemanticIr.Declaration.declarationMembers := rfl
  rw [h, Option.getD_some, hallowed]
  cases hf : authored.find? fun m =>
      !SemanticIr.Declaration.declarationMembers.contains m.1 with
  | none =>
    have hall : (authored.all fun m =>
        SemanticIr.Declaration.declarationMembers.contains m.1) = true := by
      rw [List.all_eq_true]
      intro m hm
      have hno := List.find?_eq_none.1 hf m hm
      simpa using hno
    rw [hall]
    exact .pure trivial
  | some m =>
    have hall : (authored.all fun m =>
        SemanticIr.Declaration.declarationMembers.contains m.1) = false := by
      rw [List.all_eq_false]
      have hbad := List.find?_some hf
      exact ⟨m, List.mem_of_find?_eq_some hf, by simpa using hbad⟩
    rw [hall]
    exact .refuse rfl

theorem checkPresent_reads (value : Json) (names : List String) :
    Reads (checkPresent value names) (if names.all value.has then none else some "")
      fun _ => True := by
  induction names with
  | nil => exact .pure trivial
  | cons name names ih =>
    unfold checkPresent
    rw [List.all_cons]
    cases value.has name with
    | true =>
      simp only [if_true, Bool.true_and]
      exact ih
    | false => exact .refuse rfl

theorem required_reads (value : Json) (names : List String) :
    Reads (SemanticIr.Declaration.required value names)
      (if names.all value.has then none else some "") fun _ => True := by
  induction names with
  | nil => exact .pure trivial
  | cons name names ih =>
    unfold SemanticIr.Declaration.required
    rw [List.all_cons]
    cases value.has name with
    | true =>
      simp only [if_true, Bool.true_and]
      exact ih
    | false => exact .refuse rfl

theorem readMembers_reads (value : Json) :
    Reads (readMembers (value.get "members"))
      ((objectDefect (value.get "members") "/members").or
        (propertyDefect memberDefect (objectOf value "members"))) fun read =>
          entries (objectOf value "members") = read.map writeMember := by
  unfold readMembers objectDefect objectOf propertyDefect
  cases (value.get "members").bind Json.asObject with
  | none => exact .refuse rfl
  | some authored =>
    simp only [Option.isSome_some, if_true, Option.none_or, Option.getD_some]
    have hfold : Reads ((entries authored).foldlM readMember [])
        (firstDefect (fun _ entry => memberDefect entry) Prod.fst [] (entries authored))
        fun out' => ∃ read, List.Forall₂ (fun b entry => entry = writeMember b) read
          (entries authored) ∧ out' = [] ++ read :=
      @Stage.fold _ _ _ _ _ String readMember (fun _ => memberDefect) Prod.fst Prod.fst
        (fun b entry => entry = writeMember b) readMember_reads (entries authored) []
    rw [firstDefect_const] at hfold
    apply hfold.mono
    rintro _ ⟨read, hread, rfl⟩
    exact eq_map_of_forall₂ hread

theorem declarationMembers_reads (value : Json) :
    Reads (SemanticIr.Declaration.readMembers (value.get "members"))
      ((objectDefect (value.get "members") "/members").or
        (authoredDefect "/members" memberDefect (objectOf value "members"))) fun read =>
          objectOf value "members" = read.map writeDeclared := by
  unfold SemanticIr.Declaration.readMembers objectDefect objectOf authoredDefect
  cases (value.get "members").bind Json.asObject with
  | none => exact .refuse rfl
  | some authored =>
    simp only [Option.isSome_some, if_true, Option.none_or, Option.getD_some]
    have hfold := @Stage.fold _ _ _ _ _ String SemanticIr.Declaration.readMember
      (fun seen entry => (repeatDefect "/members" seen entry.1).or (memberDefect entry)) Prod.fst
      (fun m => m.1.name) (fun b entry => entry = writeDeclared b) declarationMember_reads
      authored []
    apply hfold.mono
    rintro _ ⟨read, hread, rfl⟩
    exact eq_map_of_forall₂ hread

def writeReference (r : String × List String) : String × Json := (r.1, .array (r.2.map Json.str))

def writeDeclaredReference (r : Member × List String) : String × Json :=
  (r.1.name, .array (r.2.map Json.str))

theorem readReferences_reads (value : Json) :
    Reads (readReferences (value.get "references"))
      ((referencesDefect value).or
        (propertyDefect referenceDefect (objectOf value "references"))) fun read =>
          entries (objectOf value "references") = read.map writeReference := by
  unfold readReferences referencesDefect objectOf propertyDefect
  cases value.get "references" with
  | none =>
    have hnil : entries [] = [] := by simp [entries, Json.resolvedMembers]
    simp only [Option.any_none, Bool.false_eq_true, if_false, Option.none_or, Option.bind_none,
      Option.getD_none, hnil, List.findSome?_nil]
    exact .pure rfl
  | some found =>
    cases found with
    | object authored =>
      simp only [Option.any_some, Json.asObject, Option.isNone_some, Bool.false_eq_true, if_false,
        Option.none_or, Option.bind_some, Option.getD_some]
      have hfold := @Stage.fold _ _ _ _ _ String readReference (fun _ => referenceDefect) Prod.fst
        Prod.fst (fun b entry => entry = writeReference b) readReference_reads (entries authored) []
      rw [firstDefect_const] at hfold
      apply hfold.mono
      rintro _ ⟨read, hread, rfl⟩
      exact eq_map_of_forall₂ hread
    | _ => exact .refuse rfl

theorem declarationReferences_reads (value : Json) :
    Reads (declaredReferences value)
      ((referencesDefect value).or
        (authoredDefect "/references" referenceDefect (objectOf value "references"))) fun read =>
          objectOf value "references" = read.map writeDeclaredReference := by
  unfold declaredReferences referencesDefect objectOf authoredDefect
  cases value.get "references" with
  | none => exact .pure rfl
  | some found =>
    cases found with
    | object authored =>
      simp only [Option.any_some, Json.asObject, Option.isNone_some, Bool.false_eq_true, if_false,
        Option.none_or, Option.bind_some, Option.getD_some]
      have hfold := @Stage.fold _ _ _ _ _ String SemanticIr.Declaration.readReference
        (fun seen entry => (repeatDefect "/references" seen entry.1).or (referenceDefect entry))
        Prod.fst (fun m => m.1.name) (fun b entry => entry = writeDeclaredReference b)
        declarationReference_reads authored []
      apply hfold.mono
      rintro _ ⟨read, hread, rfl⟩
      exact eq_map_of_forall₂ hread
    | _ => exact .refuse rfl

/-- The compiler refuses a value at its first defect. -/
theorem readDeclaration_reads (value : Json) :
    Reads (readDeclaration value) (compilerDefect value) fun _ => True := by
  unfold readDeclaration compilerDefect envelopeDefect laterDefect
  cases value with
  | object authored =>
    simp only [Json.asObject, Option.or_assoc]
    apply (checkNames_reads authored).bind
    intro _ _
    apply (checkPresent_reads (.object authored) _).bind
    intro _ _
    apply (term_reads _ "/identity" "identity" identities).bind
    rintro identity ⟨hi, -⟩
    apply (term_reads _ "/shape" "shape" shapes).bind
    rintro shape ⟨hs, -⟩
    apply (readMembers_reads (.object authored)).bind_or
    intro members hm
    apply (readReferences_reads (.object authored)).bind_or
    intro references hr
    apply (readRules_reads (.object authored)).bind
    rintro rules ⟨hrules, hnames⟩
    apply (readMeaning_reads (.object authored)).bind
    intro meaning _
    apply (readFlags_reads (.object authored)).bind
    intro flags _
    have hidentity : (Json.getStr (.object authored) "identity").getD "" = identity := by
      simp [Json.getStr, hi, Json.asStr]
    have hshape : (Json.getStr (.object authored) "shape").getD "" = shape := by
      simp [Json.getStr, hs, Json.asStr]
    rw [hidentity, hshape, hr, ← hrules]
    apply (checkRequirements_reads hm "/identity" identity identityRequirements).bind
    intro _ _
    apply (checkRequirements_reads hm "/shape" shape shapeRequirements).bind
    intro _ _
    apply (checkRules_reads hm fun rule hmem => hnames _ (List.fst_mem_of_mem_zipIdx hmem)).bind
    intro _ _
    exact (@checkReferences_reads ⟨identity, shape, members, references, rules, meaning, flags⟩ _
      hm references).map fun _ _ => trivial
  | _ => exact .refuse rfl

/-! ### The Rust reader -/

theorem checkConsistency_reads {declaration : SemanticIr.Declaration}
    {authored references : List (String × Json)}
    (h : authored = declaration.members.map writeDeclared)
    (hr : references = declaration.references.map writeDeclaredReference) :
    Reads declaration.checkConsistency
      ((requirementDefect "/identity" (Vocabulary.name declaration.identity)
          identityRequirements authored).or <|
        (requirementDefect "/shape" (Vocabulary.name declaration.shape) shapeRequirements
          authored).or <|
        (selectedDefect authored (declaration.rules.map Rule.name).zipIdx).or <|
        (forbiddenReference authored references).or <|
          targetDefect authored (Vocabulary.name declaration.shape)) fun _ => True := by
  unfold SemanticIr.Declaration.checkConsistency
  apply (declares_reads h "/identity" _ _ _ (identity_requires declaration.identity authored)).bind
  intro _ _
  apply (declares_reads h "/shape" _ _ _ (shape_requires declaration.shape authored)).bind
  intro _ _
  have hzip : (declaration.rules.map Rule.name).zipIdx =
      declaration.rules.zipIdx.map fun rule => (rule.1.name, rule.2) := by
    rw [List.zipIdx_map]
    rfl
  rw [hzip]
  apply (declarationCheckRules_reads h declaration.rules.zipIdx).bind
  intro _ _
  rw [hr]
  apply (declarationCheckReferences_reads h declaration.references).bind
  intro _ _
  have halias : Vocabulary.name declaration.shape = "alias" ↔ declaration.shape = .alias := by
    cases declaration.shape <;> decide
  have htarget : presenceIn authored "target" = some "forbidden" ↔
      declaration.presence .target = .forbidden := by
    rw [show "target" = Member.name .target from rfl, presence_eq h, Option.some.injEq]
    exact ⟨fun heq => presence_name_inj heq, fun heq => by rw [heq]; rfl⟩
  have hboth := or_congr halias htarget
  unfold targetDefect
  by_cases hs : declaration.shape = .alias ∨ declaration.presence .target = .forbidden
  · have hno : ¬ (declaration.shape ≠ .alias ∧ declaration.presence .target ≠ .forbidden) := by
      tauto
    rw [if_pos (hboth.2 hs), if_neg hno]
    exact .pure trivial
  · have hyes : declaration.shape ≠ .alias ∧ declaration.presence .target ≠ .forbidden := by tauto
    rw [if_neg fun h => hs (hboth.1 h), if_pos hyes]
    exact .refuse rfl

/-- The Rust reader refuses a value at its first defect. -/
theorem declarationRead_reads (value : Json) :
    Reads (SemanticIr.Declaration.read value) (readerDefect value) fun _ => True := by
  unfold readerDefect envelopeDefect laterDefect
  cases ho : value.asObject with
  | none =>
    have hobject : value.asObject.isNone = true := by rw [ho]; rfl
    simp only [SemanticIr.Declaration.read, hobject, if_true]
    exact .refuse rfl
  | some authored =>
    rw [declaration_read_eq ho]
    simp only [Option.or_assoc, identities_eq, shapes_eq]
    apply (only_reads ho).bind
    intro _ _
    apply (required_reads value _).bind
    intro _ _
    apply (@declarationTerm_reads Identity _ _ "/identity" "identity").bind
    intro identity hi
    apply (@declarationTerm_reads Shape _ _ "/shape" "shape").bind
    intro shape hs
    apply (declarationMembers_reads value).bind_or
    intro members hm
    apply (declarationReferences_reads value).bind_or
    intro references hr
    apply (declarationRules_reads value).bind
    intro rules hrules
    apply (declarationMeaning_reads value).bind
    intro meaning _
    apply (declarationFlag_reads value).bind
    intro immutable _
    have hidentity : (value.getStr "identity").getD "" = Vocabulary.name identity := by
      rw [Json.getStr, hi, Option.getD_some]
    have hshape : (value.getStr "shape").getD "" = Vocabulary.name shape := by
      rw [Json.getStr, hs, Option.getD_some]
    rw [hidentity, hshape, hrules]
    exact (@checkConsistency_reads
      ⟨identity, shape, members, references, rules, meaning, immutable⟩ _ _ hm hr).map
      fun _ _ => trivial

/-! ### Where the defects lie -/

def stem (pointer : String) : List Char := pointer.toList.take 4

theorem stem_append {head rest : String} (h : 4 ≤ head.toList.length) :
    stem (head ++ rest) = stem head := by
  rw [stem, stem, String.toList_append, List.take_append_of_le_length h]

def Under (stems : List (List Char)) (defect : Option String) : Prop :=
  ∀ p, defect = some p → stem p ∈ stems

theorem Under.or {stems : List (List Char)} {a b : Option String} (ha : Under stems a)
    (hb : Under stems b) : Under stems (a.or b) := by
  intro p hp
  rcases Option.or_eq_some_iff.1 hp with h | ⟨-, h⟩
  · exact ha p h
  · exact hb p h

theorem under_ite {stems : List (List Char)} {c : Prop} [Decidable c] {pointer : String}
    (h : stem pointer ∈ stems) : Under stems (if c then some pointer else none) := by
  intro p hp
  split at hp
  · cases hp
    exact h
  · cases hp

theorem under_ite' {stems : List (List Char)} {c : Prop} [Decidable c] {pointer : String}
    (h : stem pointer ∈ stems) : Under stems (if c then none else some pointer) := by
  intro p hp
  split at hp
  · cases hp
  · cases hp
    exact h

theorem Under.findSome {stems : List (List Char)} {α : Type} {defect : α → Option String}
    (h : ∀ a, Under stems (defect a)) (items : List α) : Under stems (items.findSome? defect) := by
  intro p hp
  obtain ⟨a, -, ha⟩ := List.exists_of_findSome?_eq_some hp
  exact h a p ha

theorem Under.first {stems : List (List Char)} {α : Type} {defect : List String → α → Option String}
    {key : α → String} (h : ∀ seen a, Under stems (defect seen a)) (seen : List String)
    (items : List α) : Under stems (firstDefect defect key seen items) := by
  intro p hp
  obtain ⟨before, a, -, ha⟩ := exists_of_firstDefect hp
  exact h before a p ha

theorem stem_members (rest : String) : stem ("/members" ++ rest) = ['/', 'm', 'e', 'm'] :=
  stem_append (by decide)

theorem stem_references (rest : String) : stem ("/references" ++ rest) = ['/', 'r', 'e', 'f'] :=
  stem_append (by decide)

theorem stem_rules (rest : String) : stem ("/rules/" ++ rest) = ['/', 'r', 'u', 'l'] :=
  stem_append (by decide)

theorem authoredMembers_under (authored : List (String × Json)) :
    Under [['/', 'm', 'e', 'm']] (authoredDefect "/members" memberDefect authored) := by
  have hat : ∀ name, stem ("/members" ++ pointerToken name) ∈ [['/', 'm', 'e', 'm']] := by
    intro name
    rw [stem_members]
    exact List.mem_singleton_self _
  apply Under.first
  intro seen entry
  exact (under_ite (hat _)).or ((under_ite (hat _)).or (under_ite' (hat _)))

theorem reference_under (entry : String × Json) :
    Under [['/', 'r', 'e', 'f']] (referenceDefect entry) := by
  have hat : stem ("/references" ++ pointerToken entry.1) ∈ [['/', 'r', 'e', 'f']] := by
    rw [stem_references]
    exact List.mem_singleton_self _
  have hitem : ∀ rest, stem ("/references" ++ pointerToken entry.1 ++ "/" ++ rest) ∈
      [['/', 'r', 'e', 'f']] := by
    intro rest
    rw [String.append_assoc, String.append_assoc, stem_references]
    exact List.mem_singleton_self _
  apply (under_ite hat).or
  unfold rolesDefect
  split
  · split
    · intro p hp
      cases hp
      exact hat
    · apply Under.first
      intro seen role
      unfold roleDefect
      split
      · exact under_ite (hitem _)
      · intro p hp
        cases hp
        exact hitem _
  · intro p hp
    cases hp
    exact hat

theorem authoredReferences_under (authored : List (String × Json)) :
    Under [['/', 'r', 'e', 'f']] (authoredDefect "/references" referenceDefect authored) := by
  apply Under.first
  intro seen entry
  apply Under.or _ (reference_under entry)
  apply under_ite
  rw [stem_references]
  exact List.mem_singleton_self _

theorem forbidden_under (authored references : List (String × Json)) :
    Under [['/', 'r', 'e', 'f']] (forbiddenReference authored references) := by
  apply Under.findSome
  intro reference
  apply under_ite
  rw [stem_references]
  exact List.mem_singleton_self _

def laterStems : List (List Char) :=
  [['/', 'r', 'u', 'l'], ['/', 'm', 'e', 'a'], ['/', 'i', 'm', 'm'], ['/', 'i', 'd', 'e'],
    ['/', 's', 'h', 'a']]

theorem rules_under (value : Json) : Under laterStems (rulesDefect value) := by
  have hitem : ∀ rest, stem ("/rules/" ++ rest) ∈ laterStems := by
    intro rest
    rw [stem_rules]
    exact List.mem_cons_self ..
  unfold rulesDefect
  split
  · intro p hp
    cases hp
  · apply Under.first
    intro seen rule
    exact (under_ite' (hitem _)).or (under_ite (hitem _))
  · intro p hp
    cases hp
    decide

theorem later_under (value : Json) (listed : List (String × Json)) :
    Under laterStems (laterDefect value listed) := by
  apply (rules_under value).or
  apply (under_ite' (by decide)).or
  refine Under.or ?_ ?_
  · unfold flagDefect
    split
    · intro p hp
      cases hp
    · intro p hp
      cases hp
    · intro p hp
      cases hp
      decide
  apply (under_ite' (by decide)).or
  apply (under_ite' (by decide)).or
  apply Under.findSome
  intro rule p hp
  obtain ⟨r, -, hr⟩ := Option.bind_eq_some_iff.1 hp
  split at hr
  · cases hr
  · cases hr
    rw [stem_rules]
    exact List.mem_cons_self ..

/-! ### Where the readings differ -/

/-- The declarations the two readers read differently. -/
inductive Diverging (value : Json) : Prop
  /-- The first entry of `members` refused in authored order, repeated names included, is another
  one in property order, or none. -/
  | members (envelope : envelopeDefect value = none)
      (other : authoredDefect "/members" memberDefect (objectOf value "members") ≠
        propertyDefect memberDefect (objectOf value "members"))
  /-- So it is with `references`, and the compiler does not come to refuse the same reference as
  one to a member the declaration forbids. -/
  | references (envelope : envelopeDefect value = none)
      (members : authoredDefect "/members" memberDefect (objectOf value "members") = none)
      (object : referencesDefect value = none)
      (other : authoredDefect "/references" referenceDefect (objectOf value "references") ≠
        propertyDefect referenceDefect (objectOf value "references"))
      (forbidden : ¬ (propertyDefect referenceDefect (objectOf value "references") = none ∧
        laterDefect value (objectOf value "members") = none ∧
          forbiddenReference (objectOf value "members") (entries (objectOf value "references")) =
            authoredDefect "/references" referenceDefect (objectOf value "references")))
  /-- A declaration in order otherwise, of a shape other than an alias, admits the target. -/
  | target (envelope : envelopeDefect value = none)
      (members : authoredDefect "/members" memberDefect (objectOf value "members") = none)
      (object : referencesDefect value = none)
      (references : authoredDefect "/references" referenceDefect
        (objectOf value "references") = none)
      (later : laterDefect value (objectOf value "members") = none)
      (forbidden : forbiddenReference (objectOf value "members")
        (objectOf value "references") = none)
      (admits : targetDefect (objectOf value "members")
        ((value.getStr "shape").getD "") ≠ none)

/-- Both readers accept the value, or both refuse it at one pointer. -/
def SameReading (value : Json) : Prop :=
  ((∃ d, SemanticIr.Declaration.read value = .ok d) ↔ ∃ d, readDeclaration value = .ok d) ∧
    ∀ e e', SemanticIr.Declaration.read value = .error e → readDeclaration value = .error e' →
      e.pointer = e'.pointer

theorem sameReading_iff_defects (value : Json) :
    SameReading value ↔ readerDefect value = compilerDefect value := by
  rw [← (declarationRead_reads value).refusal_eq, ← (readDeclaration_reads value).refusal_eq,
    SameReading]
  cases SemanticIr.Declaration.read value with
  | ok d => cases readDeclaration value <;> simp [refusal]
  | error e => cases readDeclaration value <;> simp [refusal]

theorem rest_under (value : Json) (listed references : List (String × Json)) :
    Under (['/', 'r', 'e', 'f'] :: laterStems) ((referencesDefect value).or <|
      (propertyDefect referenceDefect references).or <| (laterDefect value listed).or <|
        forbiddenReference listed (entries references)) := by
  have href : ∀ {defect : Option String}, Under [['/', 'r', 'e', 'f']] defect →
      Under (['/', 'r', 'e', 'f'] :: laterStems) defect := by
    intro defect h p hp
    rw [List.mem_singleton.1 (h p hp)]
    exact List.mem_cons_self ..
  apply (href (under_ite (by decide))).or
  apply (href (Under.findSome reference_under _)).or
  refine Under.or ?_ (href (forbidden_under _ _))
  exact fun p hp => List.mem_cons_of_mem _ (later_under value listed p hp)

/-- The two readers read a value alike exactly when it is none of these. -/
theorem sameReading_iff (value : Json) : SameReading value ↔ ¬ Diverging value := by
  rw [sameReading_iff_defects]
  unfold readerDefect compilerDefect
  dsimp only
  cases he : envelopeDefect value with
  | some p =>
    simp only [Option.some_or, true_iff]
    rintro (⟨h, -⟩ | ⟨h, -⟩ | ⟨h, -⟩) <;> rw [he] at h <;> cases h
  | none =>
  cases hm : authoredDefect "/members" memberDefect (objectOf value "members") with
  | some p =>
    have hstem := authoredMembers_under _ p hm
    simp only [Option.none_or, Option.some_or]
    have hdiverging : Diverging value ↔
        propertyDefect memberDefect (objectOf value "members") ≠ some p := by
      constructor
      · rintro (⟨-, h⟩ | ⟨-, h, -⟩ | ⟨-, h, -⟩)
        · rw [hm] at h
          exact h.symm
        · rw [hm] at h
          cases h
        · rw [hm] at h
          cases h
      · intro h
        exact .members he (by rw [hm]; exact h.symm)
    rw [hdiverging, not_not]
    cases hp : propertyDefect memberDefect (objectOf value "members") with
    | some q => rw [Option.some_or, eq_comm]
    | none =>
      simp only [Option.none_or, reduceCtorEq, iff_false]
      intro heq
      have hrest := rest_under value _ _ p heq.symm
      rw [List.mem_singleton.1 hstem] at hrest
      revert hrest
      decide
  | none =>
  obtain ⟨hentries, hp⟩ := property_of_authored isSome_of_memberDefect hm
  rw [hentries, hp]
  simp only [Option.none_or]
  cases ho : referencesDefect value with
  | some p =>
    simp only [Option.some_or, true_iff]
    rintro (⟨-, h⟩ | ⟨-, -, h, -⟩ | ⟨-, -, h, -⟩)
    · exact h (by rw [hm, hp])
    · rw [ho] at h
      cases h
    · rw [ho] at h
      cases h
  | none =>
  cases hr : authoredDefect "/references" referenceDefect (objectOf value "references") with
  | some p =>
    have hstem := authoredReferences_under _ p hr
    have hdiverging : Diverging value ↔
        propertyDefect referenceDefect (objectOf value "references") ≠ some p ∧
          ¬ (propertyDefect referenceDefect (objectOf value "references") = none ∧
            laterDefect value (objectOf value "members") = none ∧
              forbiddenReference (objectOf value "members")
                (entries (objectOf value "references")) = some p) := by
      constructor
      · rintro (⟨-, h⟩ | ⟨-, -, -, h, hf⟩ | ⟨-, -, -, h, -⟩)
        · exact absurd (by rw [hm, hp]) h
        · rw [hr] at h hf
          exact ⟨h.symm, hf⟩
        · rw [hr] at h
          cases h
      · rintro ⟨h, hf⟩
        exact .references he hm ho (by rw [hr]; exact h.symm) (by rw [hr]; exact hf)
    rw [hdiverging, not_and_or, not_not, not_not]
    simp only [Option.none_or, Option.some_or]
    cases hq : propertyDefect referenceDefect (objectOf value "references") with
    | some q => simp [eq_comm]
    | none =>
      cases hl : laterDefect value (objectOf value "members") with
      | some r =>
        have hne : p ≠ r := by
          intro heq
          have hlater := later_under value _ r hl
          rw [← heq, List.mem_singleton.1 hstem] at hlater
          revert hlater
          decide
        simp [hne]
      | none => simp [eq_comm]
  | none =>
  obtain ⟨hreferences, hq⟩ := property_of_authored isSome_of_referenceDefect hr
  rw [hreferences, hq]
  simp only [Option.none_or]
  have hdiverging : Diverging value ↔ laterDefect value (objectOf value "members") = none ∧
      forbiddenReference (objectOf value "members") (objectOf value "references") = none ∧
        targetDefect (objectOf value "members") ((value.getStr "shape").getD "") ≠ none := by
    constructor
    · rintro (⟨-, h⟩ | ⟨-, -, -, h, -⟩ | ⟨-, -, -, -, hl, hf, ht⟩)
      · exact absurd (by rw [hm, hp]) h
      · exact absurd (by rw [hr, hq]) h
      · exact ⟨hl, hf, ht⟩
    · rintro ⟨hl, hf, ht⟩
      exact .target he hm ho hr hl hf ht
  rw [hdiverging]
  cases laterDefect value (objectOf value "members") with
  | some p => simp
  | none =>
    cases forbiddenReference (objectOf value "members") (objectOf value "references") with
    | some p => simp
    | none => simp

/-! ### A record with a target -/

def recordWithTarget : Json :=
  .object [("identity", .str "none"), ("shape", .str "record"),
    ("members", .object [("target", .str "optional")]),
    ("meaning", .str "quire.meaning.model.entity/v1")]

theorem recordWithTarget_accepted : compilerDefect recordWithTarget = none := by
  have hm : objectOf recordWithTarget "members" = [("target", .str "optional")] := rfl
  have hr : objectOf recordWithTarget "references" = [] := rfl
  have hentries : entries [("target", Json.str "optional")] = [("target", .str "optional")] := by
    refine entries_of_members (by decide) fun m hmem => ?_
    rw [List.mem_singleton.1 hmem]
    decide
  have hnil : entries [] = [] := entries_of_members (by decide) (by simp)
  unfold compilerDefect propertyDefect
  dsimp only
  rw [hm, hr, hentries, hnil]
  decide

/-- The compiler accepts a record that admits a target, and the Rust reader refuses it. -/
theorem recordWithTarget_differs :
    (∃ message, SemanticIr.Declaration.read recordWithTarget =
        .error ⟨"/members/target", message⟩) ∧
      (∃ d, readDeclaration recordWithTarget = .ok d) ∧ ¬ SameReading recordWithTarget := by
  have hreader : readerDefect recordWithTarget = some "/members/target" := by decide
  have hcompiler := recordWithTarget_accepted
  refine ⟨?_, ?_, ?_⟩
  · obtain ⟨⟨pointer, message⟩, hread, hp⟩ :=
      (declarationRead_reads recordWithTarget).refused _ hreader
    exact ⟨message, by rw [hread, ← hp]⟩
  · obtain ⟨d, hd, -⟩ := (readDeclaration_reads recordWithTarget).taken hcompiler
    exact ⟨d, hd⟩
  · rw [sameReading_iff_defects, hreader, hcompiler]
    exact Option.some_ne_none _

end FilamentCore.Compiler.Constructs
