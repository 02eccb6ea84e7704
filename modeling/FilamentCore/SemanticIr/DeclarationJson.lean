import FilamentCore.Library.Succeeding
import FilamentCore.SemanticIr.Encoding
import FilamentCore.SemanticIr.Vocabulary

/-!
# Construct declarations as JSON (crates/semantic-ir/src/vocabulary.rs)

What `Declaration::read` found in a value it accepted, and what `to_json` writes of it: the value
again, its defaults written out and its members in the order of the declaration.
-/

namespace FilamentCore.SemanticIr

open Library.Succeeding

/-! ### The steps of the Rust reader -/

def declaredReferences (value : Json) : Except DeclarationError (List (Member × List String)) :=
  match value.get "references" with
  | none => .ok []
  | some references => Declaration.readReferences references

def declaredRules (value : Json) : Except DeclarationError (List Rule) :=
  match value.get "rules" with
  | none => .ok []
  | some rules => Declaration.readRules rules

def declaredMeaning (value : Json) : Except DeclarationError String :=
  match (value.getStr "meaning").filter fun text => text ≠ "" with
  | none => .error ⟨"/meaning", "meaning is a non-empty Quire meaning id"⟩
  | some meaning => .ok meaning

def declaredFlag (value : Json) : Except DeclarationError Bool :=
  match value.get "immutable" with
  | none => .ok false
  | some (.bool flag) => .ok flag
  | some _ => .error ⟨"/immutable", "immutable is a boolean"⟩

/-! ### What was read -/

theorem name_of_parse {α : Type} [Vocabulary α] {text : String} {a : α}
    (h : Vocabulary.parse α text = some a) :
    Vocabulary.name a = text := by
  have hp := List.find?_some h
  simpa using hp

theorem declaration_read_eq {value : Json} {authored : List (String × Json)}
    (h : value.asObject = some authored) :
    Declaration.read value =
      Declaration.only value "" Declaration.declarationMembers >>= fun _ =>
      Declaration.required value Declaration.declarationRequired >>= fun _ =>
      Declaration.term Identity (value.get "identity") "/identity" "identity" >>=
        fun identity =>
      Declaration.term Shape (value.get "shape") "/shape" "shape" >>= fun shape =>
      Declaration.readMembers (value.get "members") >>= fun members =>
      declaredReferences value >>= fun references =>
      declaredRules value >>= fun rules =>
      declaredMeaning value >>= fun meaning =>
      declaredFlag value >>= fun immutable =>
      let declaration : Declaration :=
        ⟨identity, shape, members, references, rules, meaning, immutable⟩
      declaration.checkConsistency >>= fun _ => .ok declaration := by
  have hobject : value.asObject.isNone = false := by rw [h]; rfl
  simp only [Declaration.read, hobject, Bool.false_eq_true, if_false,
    declaredReferences, declaredRules, declaredMeaning, declaredFlag]
  cases value.get "references" <;> cases value.get "rules" <;>
    cases (value.getStr "meaning").filter (fun text => text ≠ "") <;>
    rcases value.get "immutable" with _ | (_ | _ | _ | _ | _ | _) <;> rfl

namespace Declaration

/-- The members `to_json` writes. -/
def written (d : Declaration) : List (String × Json) :=
  [("identity", .str (Vocabulary.name d.identity)),
    ("shape", .str (Vocabulary.name d.shape)),
    ("members", .object (d.members.map fun m => (m.1.name, .str (Vocabulary.name m.2)))),
    ("references", .object (d.references.map fun r => (r.1.name, .array (r.2.map Json.str)))),
    ("rules", .array (d.rules.map fun rule => .str rule.name)),
    ("meaning", .str d.meaning)] ++
  if d.immutable then [("immutable", .bool true)] else []

def toJson (d : Declaration) : Json := .object d.written

theorem term_ok {α : Type} [Vocabulary α] {value : Option Json} {pointer what : String} {t : α}
    (h : term α value pointer what = .ok t) : value = some (.str (Vocabulary.name t)) := by
  unfold term at h
  cases hv : value.bind Json.asStr with
  | none =>
    rw [hv] at h
    cases h
  | some text =>
    rw [hv] at h
    obtain ⟨found, rfl, htext⟩ := Option.bind_eq_some_iff.1 hv
    rw [Json.asStr_eq_some.1 htext]
    cases hp : Vocabulary.parse α text with
    | none =>
      simp only [hp] at h
      cases h
    | some found =>
      simp only [hp, Except.ok.injEq] at h
      rw [← h, name_of_parse hp]

theorem readMember_ok (out : List (Member × Presence)) (entry : String × Json)
    (out' : List (Member × Presence)) (h : readMember out entry = .ok out') :
    ∃ m, out' = out ++ [m] ∧ entry = (m.1.name, .str (Vocabulary.name m.2)) := by
  unfold readMember at h
  cases hp : Vocabulary.parse Member entry.1 with
  | none =>
    rw [hp] at h
    cases h
  | some member =>
    simp only [hp] at h
    split at h
    · cases h
    · obtain ⟨presence, ht, h⟩ := bind_ok.1 h
      have hvalue := Option.some.inj (term_ok ht)
      refine ⟨(member, presence), (pure_ok.1 h).symm, ?_⟩
      rw [Member.name, name_of_parse hp, ← hvalue]

theorem readRole_ok {name pointer : String} (out : List String) (item : Json × ℕ)
    (out' : List String) (h : readRole name pointer out item = .ok out') :
    ∃ role, out' = out ++ [role] ∧ item.1 = .str role := by
  unfold readRole at h
  cases hr : item.1.asStr.filter fun role => role ≠ "" && role ≠ "*" with
  | none =>
    simp only [hr] at h
    cases h
  | some role =>
    simp only [hr] at h
    split at h
    · cases h
    · rw [Except.ok.injEq] at h
      exact ⟨role, h.symm, Json.asStr_eq_some.1 (Option.filter_eq_some_iff.1 hr).1⟩

theorem readReference_ok (out : List (Member × List String)) (entry : String × Json)
    (out' : List (Member × List String)) (h : readReference out entry = .ok out') :
    ∃ r, out' = out ++ [r] ∧ entry = (r.1.name, .array (r.2.map Json.str)) := by
  unfold readReference at h
  cases hp : (Vocabulary.parse Member entry.1).filter fun m => m.referenceItems.isSome with
  | none =>
    simp only [hp] at h
    cases h
  | some member =>
    simp only [hp] at h
    split at h
    · cases h
    · cases hi : entry.2.asArray.filter fun items => !items.isEmpty with
      | none =>
        simp only [hi] at h
        cases h
      | some items =>
        simp only [hi] at h
        obtain ⟨roles, hroles, h⟩ := bind_ok.1 h
        obtain ⟨read, hread, hitems⟩ := foldlM_encoded readRole_ok hroles
        refine ⟨(member, roles), (pure_ok.1 h).symm, ?_⟩
        have hname := name_of_parse (Option.filter_eq_some_iff.1 hp).1
        have harray := Json.asArray_eq_some.1 (Option.filter_eq_some_iff.1 hi).1
        rw [List.nil_append] at hread
        rw [← List.zipIdx_map_fst 0 items, hitems] at harray
        rw [Member.name, hname, hread, ← harray]

theorem readRule_ok (out : List Rule) (item : Json × ℕ) (out' : List Rule)
    (h : readRule out item = .ok out') :
    ∃ rule, out' = out ++ [rule] ∧ item.1 = .str rule.name := by
  unfold readRule at h
  obtain ⟨rule, ht, h⟩ := bind_ok.1 h
  split at h
  · cases h
  · exact ⟨rule, (pure_ok.1 h).symm, Option.some.inj (term_ok ht)⟩

structure ReadsAs (value : Json) (d : Declaration) : Prop where
  identity : value.get "identity" = some (.str (Vocabulary.name d.identity))
  shape : value.get "shape" = some (.str (Vocabulary.name d.shape))
  members : value.get "members" =
    some (.object (d.members.map fun m => (m.1.name, .str (Vocabulary.name m.2))))
  references : value.get "references" =
      some (.object (d.references.map fun r => (r.1.name, .array (r.2.map Json.str)))) ∨
    value.get "references" = none ∧ d.references = []
  rules : value.get "rules" = some (.array (d.rules.map fun rule => .str rule.name)) ∨
    value.get "rules" = none ∧ d.rules = []
  meaning : value.get "meaning" = some (.str d.meaning)
  immutable : value.get "immutable" = some (.bool d.immutable) ∨
    value.get "immutable" = none ∧ d.immutable = false

theorem toJson_references (d : Declaration) : d.toJson.get "references" =
    some (.object (d.references.map fun r => (r.1.name, .array (r.2.map Json.str)))) := by
  unfold toJson written
  cases d.immutable <;> rfl

theorem toJson_rules (d : Declaration) :
    d.toJson.get "rules" = some (.array (d.rules.map fun rule => .str rule.name)) := by
  unfold toJson written
  cases d.immutable <;> rfl

theorem toJson_readsAs (d : Declaration) : ReadsAs d.toJson d := by
  unfold toJson written
  cases hi : d.immutable with
  | false => exact ⟨rfl, rfl, rfl, .inl rfl, .inl rfl, rfl, .inr ⟨rfl, hi⟩⟩
  | true => exact ⟨rfl, rfl, rfl, .inl rfl, .inl rfl, rfl, .inl (by rw [hi]; rfl)⟩

theorem readMembers_ok {value : Option Json} {out : List (Member × Presence)}
    (h : readMembers value = .ok out) :
    value = some (.object (out.map fun m => (m.1.name, .str (Vocabulary.name m.2)))) := by
  unfold readMembers at h
  cases hv : value.bind Json.asObject with
  | none =>
    rw [hv] at h
    cases h
  | some entries =>
    rw [hv] at h
    obtain ⟨found, rfl, hobject⟩ := Option.bind_eq_some_iff.1 hv
    change entries.foldlM readMember [] = _ at h
    obtain ⟨read, hread, hentries⟩ := foldlM_encoded readMember_ok h
    rw [List.nil_append] at hread
    rw [List.map_id''] at hentries
    · rw [Json.asObject_eq_some.1 hobject, hentries, hread]
    · exact fun _ => rfl

theorem declaredReferences_ok {value : Json} {out : List (Member × List String)}
    (h : declaredReferences value = .ok out) :
    value.get "references" =
        some (.object (out.map fun r => (r.1.name, .array (r.2.map Json.str)))) ∨
      value.get "references" = none ∧ out = [] := by
  unfold declaredReferences at h
  cases hv : value.get "references" with
  | none =>
    rw [hv, Except.ok.injEq] at h
    exact .inr ⟨rfl, h.symm⟩
  | some found =>
    rw [hv] at h
    simp only [readReferences] at h
    cases ho : found.asObject with
    | none =>
      rw [ho] at h
      cases h
    | some entries =>
      rw [ho] at h
      change entries.foldlM readReference [] = _ at h
      obtain ⟨read, hread, hentries⟩ := foldlM_encoded readReference_ok h
      rw [List.nil_append] at hread
      rw [List.map_id''] at hentries
      · left
        rw [Json.asObject_eq_some.1 ho, hentries, hread]
      · exact fun _ => rfl

theorem declaredRules_ok {value : Json} {out : List Rule} (h : declaredRules value = .ok out) :
    value.get "rules" = some (.array (out.map fun rule => .str rule.name)) ∨
      value.get "rules" = none ∧ out = [] := by
  unfold declaredRules at h
  cases hv : value.get "rules" with
  | none =>
    rw [hv, Except.ok.injEq] at h
    exact .inr ⟨rfl, h.symm⟩
  | some found =>
    rw [hv] at h
    simp only [readRules] at h
    cases ha : found.asArray with
    | none =>
      rw [ha] at h
      cases h
    | some items =>
      rw [ha] at h
      change items.zipIdx.foldlM readRule [] = _ at h
      obtain ⟨read, hread, hitems⟩ := foldlM_encoded readRule_ok h
      rw [List.nil_append] at hread
      rw [List.zipIdx_map_fst] at hitems
      left
      rw [Json.asArray_eq_some.1 ha, hitems, hread]

theorem declaredMeaning_ok {value : Json} {out : String} (h : declaredMeaning value = .ok out) :
    value.get "meaning" = some (.str out) := by
  unfold declaredMeaning at h
  cases hm : (value.getStr "meaning").filter fun text => text ≠ "" with
  | none =>
    simp only [hm] at h
    cases h
  | some meaning =>
    simp only [hm, Except.ok.injEq] at h
    obtain ⟨found, hfound, htext⟩ := Option.bind_eq_some_iff.1 (Option.filter_eq_some_iff.1 hm).1
    rw [hfound, Json.asStr_eq_some.1 htext, h]

theorem declaredFlag_ok {value : Json} {out : Bool} (h : declaredFlag value = .ok out) :
    value.get "immutable" = some (.bool out) ∨ value.get "immutable" = none ∧ out = false := by
  unfold declaredFlag at h
  split at h
  · rename_i hnone
    rw [Except.ok.injEq] at h
    exact .inr ⟨hnone, h.symm⟩
  · rename_i flag hflag
    rw [Except.ok.injEq] at h
    exact .inl (h ▸ hflag)
  · cases h

/-! ### Round trips -/

theorem read_steps {value : Json} {d : Declaration} (h : read value = .ok d) :
    only value "" declarationMembers = .ok () ∧ ReadsAs value d ∧
      declaredMeaning value = .ok d.meaning ∧ d.checkConsistency = .ok () ∧
      readMembers (value.get "members") = .ok d.members ∧
      declaredReferences value = .ok d.references ∧ declaredRules value = .ok d.rules := by
  cases ho : value.asObject with
  | none =>
    have hobject : value.asObject.isNone = true := by rw [ho]; rfl
    simp only [read, hobject, if_true] at h
    cases h
  | some authored =>
    rw [declaration_read_eq ho] at h
    obtain ⟨_, honly, h⟩ := bind_ok.1 h
    obtain ⟨_, -, h⟩ := bind_ok.1 h
    obtain ⟨identity, hidentity, h⟩ := bind_ok.1 h
    obtain ⟨shape, hshape, h⟩ := bind_ok.1 h
    obtain ⟨members, hmembers, h⟩ := bind_ok.1 h
    obtain ⟨references, hreferences, h⟩ := bind_ok.1 h
    obtain ⟨rules, hrules, h⟩ := bind_ok.1 h
    obtain ⟨meaning, hmeaning, h⟩ := bind_ok.1 h
    obtain ⟨immutable, hflag, h⟩ := bind_ok.1 h
    obtain ⟨_, hconsistent, h⟩ := bind_ok.1 h
    rw [Except.ok.injEq] at h
    subst h
    exact ⟨honly, ⟨term_ok hidentity, term_ok hshape, readMembers_ok hmembers,
      declaredReferences_ok hreferences, declaredRules_ok hrules, declaredMeaning_ok hmeaning,
      declaredFlag_ok hflag⟩, hmeaning, hconsistent, hmembers, hreferences, hrules⟩

theorem term_name {α : Type} [Vocabulary α] {t : α} (pointer what : String)
    (h : Vocabulary.parse α (Vocabulary.name t) = some t) :
    term α (some (.str (Vocabulary.name t))) pointer what = .ok t := by
  unfold term
  simp only [Option.bind_some, Json.asStr, h]

theorem only_toJson (d : Declaration) : only d.toJson "" declarationMembers = .ok () := by
  unfold toJson written only
  cases d.immutable <;> rfl

theorem read_toJson {value : Json} {d : Declaration} (h : read value = .ok d) :
    read d.toJson = .ok d := by
  obtain ⟨-, hreads, hmeaning, hconsistent, hmembers, hreferences, hrules⟩ := read_steps h
  have hjson := toJson_readsAs d
  have hobject : ∃ authored, d.toJson.asObject = some authored := ⟨_, rfl⟩
  obtain ⟨authored, ho⟩ := hobject
  have honly := only_toJson d
  have hrequired : required d.toJson declarationRequired = .ok () := by
    simp [declarationRequired, required, Json.has, hjson.identity, hjson.shape, hjson.members,
      hjson.meaning]
  have hidentity : term Identity (d.toJson.get "identity") "/identity" "identity" =
      .ok d.identity := by
    rw [hjson.identity]
    exact term_name _ _ (by cases d.identity <;> rfl)
  have hshape : term Shape (d.toJson.get "shape") "/shape" "shape" = .ok d.shape := by
    rw [hjson.shape]
    exact term_name _ _ (by cases d.shape <;> rfl)
  have hmembers' : readMembers (d.toJson.get "members") = .ok d.members := by
    rw [hjson.members, ← hreads.members]
    exact hmembers
  have hreferences' : declaredReferences d.toJson = .ok d.references := by
    have hget := toJson_references d
    rcases hreads.references with hv | ⟨-, hnil⟩
    · rw [declaredReferences, hget, ← hv]
      rw [declaredReferences, hv] at hreferences
      rw [hv]
      exact hreferences
    · rw [declaredReferences, hget, hnil]
      rfl
  have hrules' : declaredRules d.toJson = .ok d.rules := by
    have hget := toJson_rules d
    rcases hreads.rules with hv | ⟨-, hnil⟩
    · rw [declaredRules, hget]
      rw [declaredRules, hv] at hrules
      exact hrules
    · rw [declaredRules, hget, hnil]
      rfl
  have hmeaning' : declaredMeaning d.toJson = .ok d.meaning := by
    rw [declaredMeaning, Json.getStr, hjson.meaning, ← hreads.meaning]
    exact hmeaning
  have hflag : declaredFlag d.toJson = .ok d.immutable := by
    unfold toJson written declaredFlag
    cases d.immutable <;> rfl
  rw [declaration_read_eq ho, honly, hrequired, hidentity, hshape, hmembers', hreferences',
    hrules', hmeaning', hflag]
  simp only [bind, Except.bind, hconsistent]

/-- What a declaration says where it omits a member. -/
def defaults : List (String × Json) :=
  [("references", .object []), ("rules", .array []), ("immutable", .bool false)]

def declared (value : Json) (name : String) : Option Json :=
  (value.get name).or (Json.lookup name defaults)

/-- The members with the defaults they omit. -/
def filled (members : List (String × Json)) : List (String × Json) :=
  members ++ defaults.filter fun m => !(members.map Prod.fst).contains m.1

theorem get_of_only {value : Json} (h : only value "" declarationMembers = .ok ()) {name : String}
    (hname : name ∉ declarationMembers) : value.get name = none := by
  cases value with
  | object members =>
    unfold only at h
    cases hf : members.find? fun m => !declarationMembers.contains m.1 with
    | some m =>
      simp only [Json.asObject, Option.getD_some, hf] at h
      cases h
    | none =>
      rw [List.find?_eq_none] at hf
      cases hg : (Json.object members).get name with
      | none => rfl
      | some v =>
        have hm := hf _ (Json.mem_of_lookup hg)
        simp only [Bool.not_eq_true', Bool.not_eq_false, List.contains_iff_mem] at hm
        exact absurd hm hname
  | _ => rfl

theorem declared_eq {value : Json} {d : Declaration}
    (honly : only value "" declarationMembers = .ok ()) (h : ReadsAs value d) (name : String) :
    declared value name =
      if name = "identity" then some (.str (Vocabulary.name d.identity))
      else if name = "shape" then some (.str (Vocabulary.name d.shape))
      else if name = "members" then
        some (.object (d.members.map fun m => (m.1.name, .str (Vocabulary.name m.2))))
      else if name = "references" then
        some (.object (d.references.map fun r => (r.1.name, .array (r.2.map Json.str))))
      else if name = "rules" then some (.array (d.rules.map fun rule => .str rule.name))
      else if name = "meaning" then some (.str d.meaning)
      else if name = "immutable" then some (.bool d.immutable)
      else none := by
  unfold declared
  split
  · rename_i hn
    rw [hn, h.identity]
    rfl
  split
  · rename_i hn
    rw [hn, h.shape]
    rfl
  split
  · rename_i hn
    rw [hn, h.members]
    rfl
  split
  · rename_i hn
    rcases h.references with hv | ⟨hv, hnil⟩
    · rw [hn, hv]
      rfl
    · rw [hn, hv, hnil]
      rfl
  split
  · rename_i hn
    rcases h.rules with hv | ⟨hv, hnil⟩
    · rw [hn, hv]
      rfl
    · rw [hn, hv, hnil]
      rfl
  split
  · rename_i hn
    rw [hn, h.meaning]
    rfl
  split
  · rename_i hn
    rcases h.immutable with hv | ⟨hv, hfalse⟩
    · rw [hn, hv]
      rfl
    · rw [hn, hv, hfalse]
      rfl
  · have hname : name ∉ declarationMembers := by
      simp only [declarationMembers, List.mem_cons, List.not_mem_nil, or_false, not_or]
      tauto
    have hdefault : Json.lookup name defaults = none := by
      cases hl : Json.lookup name defaults with
      | none => rfl
      | some v =>
        have hm := Json.mem_of_lookup hl
        simp only [defaults, List.mem_cons, Prod.mk.injEq, List.not_mem_nil, or_false] at hm
        tauto
    rw [get_of_only honly hname, hdefault]
    rfl

theorem toJson_declared {value : Json} {d : Declaration} (h : read value = .ok d) (name : String) :
    declared d.toJson name = declared value name := by
  obtain ⟨honly, hreads, -⟩ := read_steps h
  rw [declared_eq (only_toJson d) (toJson_readsAs d), declared_eq honly hreads]

theorem lookup_iff {members : List (String × Json)} (hn : (members.map Prod.fst).Nodup)
    {name : String} {v : Json} : Json.lookup name members = some v ↔ (name, v) ∈ members := by
  refine ⟨Json.mem_of_lookup, fun hm => ?_⟩
  have hrev : (members.reverse.map Prod.fst).Nodup := by
    rw [List.map_reverse]
    exact List.nodup_reverse.2 hn
  rw [Json.lookup_eq_first, (Library.Keyed.first_iff hrev).2 ⟨List.mem_reverse.2 hm, rfl⟩]
  rfl

theorem defaults_nodup : (defaults.map Prod.fst).Nodup := by decide

theorem mem_filled {members : List (String × Json)} (hn : (members.map Prod.fst).Nodup)
    {name : String} {v : Json} :
    (name, v) ∈ filled members ↔ declared (.object members) name = some v := by
  have hget : (Json.object members).get name = Json.lookup name members := rfl
  rw [filled, List.mem_append, List.mem_filter, declared, hget, ← lookup_iff hn,
    ← lookup_iff defaults_nodup]
  cases hl : Json.lookup name members with
  | some w =>
    have hm : name ∈ members.map Prod.fst := List.mem_map_of_mem (Json.mem_of_lookup hl)
    rw [List.contains_iff_mem.2 hm]
    simp only [Option.some_or, Bool.not_true, Bool.false_eq_true, and_false, or_false]
  | none =>
    have hm : name ∉ members.map Prod.fst := by
      intro hm
      obtain ⟨⟨_, w⟩, hw, rfl⟩ := List.mem_map.1 hm
      rw [(lookup_iff hn).2 hw] at hl
      cases hl
    simp only [reduceCtorEq, false_or, Option.none_or]
    rw [and_iff_left]
    simpa [List.contains_iff_mem] using hm

theorem filled_nodup {members : List (String × Json)} (hn : (members.map Prod.fst).Nodup) :
    (filled members).Nodup := by
  refine List.Nodup.append (List.Nodup.of_map _ hn)
    ((List.Nodup.of_map _ defaults_nodup).filter _) fun m hm hd => ?_
  obtain ⟨-, hd⟩ := List.mem_filter.1 hd
  rw [List.contains_iff_mem.2 (List.mem_map_of_mem hm)] at hd
  cases hd

theorem written_nodup (d : Declaration) : (d.written.map Prod.fst).Nodup := by
  unfold written
  cases d.immutable <;> simp

theorem written_perm {members : List (String × Json)} {d : Declaration}
    (h : read (.object members) = .ok d) (hn : (members.map Prod.fst).Nodup) :
    (filled d.written).Perm (filled members) := by
  rw [List.perm_ext_iff_of_nodup (filled_nodup (written_nodup d)) (filled_nodup hn)]
  rintro ⟨name, v⟩
  have hsame := toJson_declared h name
  rw [toJson] at hsame
  rw [mem_filled (written_nodup d), mem_filled hn, hsame]

/-- What is read is written so that it is read again, and as it was: each member or its default,
of a repeated member the last. -/
theorem declaration_roundTrip {value : Json} {d : Declaration} (h : read value = .ok d) :
    read d.toJson = .ok d ∧ (∀ name, declared d.toJson name = declared value name) ∧
      ∀ members, value = .object members → (members.map Prod.fst).Nodup →
        (filled d.written).Perm (filled members) :=
  ⟨read_toJson h, toJson_declared h, fun _ heq hn => written_perm (heq ▸ h) hn⟩

/-- A declaration whose members come in another order, without the optional ones. -/
def shuffledDeclaration : List (String × Json) :=
  [("meaning", .str "m"), ("members", .object []), ("shape", .str "record"),
    ("immutable", .bool false), ("identity", .str "value")]

def plainDeclaration : Declaration := ⟨.value, .record, [], [], [], "m", false⟩

theorem declaration_roundTrip_shuffled :
    (filled plainDeclaration.written).Perm (filled shuffledDeclaration) := by
  have hread : read (.object shuffledDeclaration) = .ok plainDeclaration := by rfl
  exact (declaration_roundTrip hread).2.2 _ rfl (by decide)

/-- A repeated member is read, and written once. -/
theorem written_repeated :
    read (.object (("meaning", .str "other") :: shuffledDeclaration)) = .ok plainDeclaration ∧
      ¬ (filled plainDeclaration.written).Perm
        (filled (("meaning", .str "other") :: shuffledDeclaration)) := by
  refine ⟨by rfl, fun hperm => ?_⟩
  have hlength := hperm.length_eq
  exact absurd hlength (by decide)

end Declaration
end FilamentCore.SemanticIr
