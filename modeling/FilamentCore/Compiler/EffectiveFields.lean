import FilamentCore.Library.Frames
import FilamentCore.Library.PostOrder
import FilamentCore.SemanticIr.Json

/-!
# The fields an instance carries (src/compiler/constructs.mjs)

The supertypes of a type in the order a depth-first walk leaves them, and the fields they and the
type declare, each identity once and without the redefined ones.
-/

namespace FilamentCore.Compiler.Constructs

open FilamentCore.SemanticIr
open Library.PostOrder

def isObject (value : Json) : Bool := value.asObject.isSome

/-- `typeIndex`: of the types of one identity, the last. -/
def typeIndex (types : List Json) (identity : String) : Option Json :=
  types.reverse.find? fun type => isObject type && type.getStr "identity" == some identity

def supertypeNames (node : Json) : List String := (node.members "supertypes").filterMap Json.asStr

/-- `ancestorsOf`: no name is followed twice, so the walk is no deeper than there are types. -/
def ancestorsOf (types : List Json) (type : Json) : List Json :=
  postOrder supertypeNames (typeIndex types) (type.getStr "identity").toList (types.length + 1)
    type

def declaredFields (types : List Json) (type : Json) : List Json :=
  ((ancestorsOf types type).flatMap (·.members "fields") ++ type.members "fields").filter isObject

def redefined (fields : List Json) : List String := fields.filterMap (·.getStr "redefines")

/-- Whether a `Set` that holds one value has another; two objects or arrays are never one. -/
def sameValueZero : Option Json → Option Json → Bool
  | none, none => true
  | some .null, some .null => true
  | some (.bool a), some (.bool b) => a == b
  | some (.number a), some (.number b) => a.value == b.value
  | some (.str a), some (.str b) => a == b
  | _, _ => false

/-- The fields left after those that are redefined or whose identity was seen. -/
def firstOfEach (redefined : List String) (seen : List (Option Json)) : List Json → List Json
  | [] => []
  | field :: fields =>
    if (field.getStr "identity").any redefined.contains ||
        seen.any (sameValueZero (field.get "identity")) then
      firstOfEach redefined seen fields
    else field :: firstOfEach redefined (field.get "identity" :: seen) fields

def effectiveFields (types : List Json) (type : Json) : List Json :=
  let declared := declaredFields types type
  firstOfEach (redefined declared) [] declared

/-! ### Supertypes -/

variable {types : List Json} {t : Json}

theorem typeIndex_spec {identity : String} {p : Json} (h : typeIndex types identity = some p) :
    p ∈ types ∧ p.getStr "identity" = some identity := by
  have hm := List.mem_of_find?_eq_some h
  have hp := List.find?_some h
  simp only [Bool.and_eq_true, beq_iff_eq] at hp
  exact ⟨List.mem_reverse.1 hm, hp.2⟩

theorem typeIndex_injective : Injective (typeIndex types) := by
  intro n n' p hn hn'
  have hid := (typeIndex_spec hn).2
  rw [(typeIndex_spec hn').2, Option.some.injEq] at hid
  exact hid.symm

def named (types : List Json) : Finset String :=
  (types.filterMap (·.getStr "identity")).toFinset

theorem mem_named {name : String} {p : Json} (h : typeIndex types name = some p) :
    name ∈ named types := by
  obtain ⟨hm, hid⟩ := typeIndex_spec h
  exact List.mem_toFinset.2 (List.mem_filterMap.2 ⟨p, hm, hid⟩)

theorem card_named : (named types).card < types.length + 1 :=
  Nat.lt_succ_of_le ((List.toFinset_card_le _).trans (List.length_filterMap_le ..))

def Supertype (types : List Json) (x y : Json) : Prop :=
  ∃ name ∈ supertypeNames x, typeIndex types name = some y

/-- A type names another as a supertype, by another identity than `own`. -/
def SupertypeBeside (types : List Json) (own : Option String) : Json → Json → Prop :=
  Beside supertypeNames (typeIndex types) own.toList

theorem mem_ancestorsOf {p : Json} : p ∈ ancestorsOf types t ↔
    Relation.TransGen (SupertypeBeside types (t.getStr "identity")) t p :=
  mem_postOrder typeIndex_injective (fun _ _ => mem_named) card_named

theorem ancestorsOf_nodup : (ancestorsOf types t).Nodup :=
  postOrder_nodup typeIndex_injective (fun _ _ => mem_named) card_named

theorem mem_ancestorsOf_of_indexed (ht : ∀ i, t.getStr "identity" = some i →
    typeIndex types i = some t) {p : Json} :
    p ∈ ancestorsOf types t ↔ Relation.TransGen (Supertype types) t p ∧ p ≠ t := by
  have hrel : SupertypeBeside types (t.getStr "identity") =
      fun x y => Supertype types x y ∧ y ≠ t := by
    funext x y
    refine propext ⟨?_, ?_⟩
    · rintro ⟨n, hn, hb, hy⟩
      refine ⟨⟨n, hn, hy⟩, ?_⟩
      rintro rfl
      exact hb (Option.mem_toList.2 (typeIndex_spec hy).2)
    · rintro ⟨⟨n, hn, hy⟩, hne⟩
      refine ⟨n, hn, fun hb => hne ?_, hy⟩
      have hindexed := ht n (Option.mem_toList.1 hb)
      rw [hy, Option.some.injEq] at hindexed
      exact hindexed
  rw [mem_ancestorsOf, hrel]
  exact Library.Frames.transGen_leaving

theorem not_mem_ancestorsOf : t ∉ ancestorsOf types t := by
  intro h
  obtain ⟨x, -, n, -, hb, hy⟩ := Relation.TransGen.tail'_iff.1 (mem_ancestorsOf.1 h)
  exact hb (Option.mem_toList.2 (typeIndex_spec hy).2)

/-- The types whose fields a type carries, in the order their fields are listed. -/
def carried (types : List Json) (type : Json) : List Json := ancestorsOf types type ++ [type]

theorem carried_nodup : (carried types t).Nodup := by
  refine List.Nodup.append ancestorsOf_nodup (List.nodup_singleton t) fun p hp ht => ?_
  obtain rfl := List.mem_singleton.1 ht
  exact not_mem_ancestorsOf hp

theorem carried_before {u s : Json} (hu : u ∈ carried types t)
    (hedge : SupertypeBeside types (t.getStr "identity") u s)
    (hback : ¬ Relation.ReflTransGen (SupertypeBeside types (t.getStr "identity")) s u) :
    (carried types t).idxOf s < (carried types t).idxOf u := by
  have hstart : u = t ∨ u ∈ ancestorsOf types t := by
    rcases List.mem_append.1 hu with hm | hm
    · exact .inr hm
    · exact .inl (List.mem_singleton.1 hm)
  have hs : s ∈ ancestorsOf types t := by
    rw [mem_ancestorsOf]
    rcases hstart with rfl | hm
    · exact .single hedge
    · exact (mem_ancestorsOf.1 hm).tail hedge
  unfold carried
  rw [List.idxOf_append_of_mem hs]
  by_cases hm : u ∈ ancestorsOf types t
  · rw [List.idxOf_append_of_mem hm]
    exact postOrder_before typeIndex_injective (fun _ _ => mem_named) card_named hm hedge hback
  · rw [List.idxOf_append_of_notMem hm]
    have hlt := List.idxOf_lt_length_of_mem hs
    omega

theorem carried_after {u s : Json}
    (hacyclic : ∀ x, ¬ Relation.TransGen (SupertypeBeside types (t.getStr "identity")) x x)
    (hu : u ∈ carried types t)
    (hreach : Relation.TransGen (SupertypeBeside types (t.getStr "identity")) u s) :
    (carried types t).idxOf s < (carried types t).idxOf u := by
  have hstep : ∀ x y, x ∈ carried types t →
      SupertypeBeside types (t.getStr "identity") x y →
      (carried types t).idxOf y < (carried types t).idxOf x :=
    fun x y hx hxy => carried_before hx hxy fun hback =>
      hacyclic x (.head' hxy hback)
  have hcarried : ∀ x y, x ∈ carried types t →
      SupertypeBeside types (t.getStr "identity") x y → y ∈ carried types t := by
    intro x y hx hxy
    refine List.mem_append_left _ (mem_ancestorsOf.2 ?_)
    rcases List.mem_append.1 hx with hm | hm
    · exact (mem_ancestorsOf.1 hm).tail hxy
    · exact .single (List.mem_singleton.1 hm ▸ hxy)
  have hall : s ∈ carried types t ∧
      (carried types t).idxOf s < (carried types t).idxOf u := by
    induction hreach with
    | single hedge => exact ⟨hcarried u _ hu hedge, hstep u _ hu hedge⟩
    | tail _ hedge ih => exact ⟨hcarried _ _ ih.1 hedge, (hstep _ _ ih.1 hedge).trans ih.2⟩
  exact hall.2

/-! ### Fields -/

section Fields

variable {names : List String} {seen : List (Option Json)} {fields : List Json}

theorem firstOfEach_sublist : (firstOfEach names seen fields).Sublist fields := by
  induction fields generalizing seen with
  | nil => exact .slnil
  | cons field fields ih =>
    rw [firstOfEach]
    split
    · exact ih.cons field
    · exact ih.cons_cons field

theorem sameValueZero_str {identity : String} {v : Option Json} :
    sameValueZero (some (.str identity)) v = true ↔ v = some (.str identity) := by
  cases v with
  | none => simp [sameValueZero]
  | some v =>
    cases v with
    | str text =>
      rw [sameValueZero, beq_iff_eq, Option.some.injEq, Json.str.injEq]
      exact eq_comm
    | _ => simp [sameValueZero]

theorem getStr_eq_some {node : Json} {name text : String} :
    node.getStr name = some text ↔ node.get name = some (.str text) := by
  rw [Json.getStr, Option.bind_eq_some_iff]
  constructor
  · rintro ⟨v, hv, ht⟩
    rw [hv, Json.asStr_eq_some.1 ht]
  · intro h
    exact ⟨_, h, rfl⟩

theorem passed_iff {field : Json} {identity : String}
    (hi : field.getStr "identity" = some identity) :
    ((field.getStr "identity").any names.contains ||
      seen.any (sameValueZero (field.get "identity"))) = true ↔
      identity ∈ names ∨ some (.str identity) ∈ seen := by
  rw [getStr_eq_some.1 hi, hi, Bool.or_eq_true, Option.any_some, List.contains_iff_mem,
    List.any_eq_true]
  simp only [sameValueZero_str]
  simp

theorem find_firstOfEach {identity : String} (hn : identity ∉ names)
    (hs : some (.str identity) ∉ seen) :
    (firstOfEach names seen fields).find? (fun f => f.getStr "identity" == some identity) =
      fields.find? fun f => f.getStr "identity" == some identity := by
  induction fields generalizing seen with
  | nil => rfl
  | cons field fields ih =>
    rw [firstOfEach]
    by_cases hi : field.getStr "identity" = some identity
    · have hleft := mt (passed_iff hi).1 (not_or.2 ⟨hn, hs⟩)
      rw [if_neg hleft, List.find?_cons_of_pos (by simp [hi]),
        List.find?_cons_of_pos (by simp [hi])]
    · rw [List.find?_cons_of_neg (by simp [hi])]
      split
      · exact ih hs
      · rw [List.find?_cons_of_neg (by simp [hi])]
        refine ih fun hm => ?_
        rcases List.mem_cons.1 hm with heq | hm
        · exact hi (getStr_eq_some.2 heq.symm)
        · exact hs hm

theorem firstOfEach_identities :
    ((firstOfEach names seen fields).filterMap (·.getStr "identity")).Nodup ∧
      ∀ i ∈ (firstOfEach names seen fields).filterMap (·.getStr "identity"),
        i ∉ names ∧ some (.str i) ∉ seen := by
  induction fields generalizing seen with
  | nil => exact ⟨List.nodup_nil, by simp [firstOfEach]⟩
  | cons field fields ih =>
    rw [firstOfEach]
    split
    · exact ih
    · rename_i hleft
      have hrest := @ih (field.get "identity" :: seen)
      obtain ⟨hnodup, hnew⟩ := hrest
      cases hi : field.getStr "identity" with
      | none =>
        rw [List.filterMap_cons_none (f := fun f : Json => f.getStr "identity") hi]
        refine ⟨hnodup, fun i hm => ⟨(hnew i hm).1, fun hs => ?_⟩⟩
        exact (hnew i hm).2 (List.mem_cons_of_mem _ hs)
      | some identity =>
        have hown : identity ∉ names ∧ some (.str identity) ∉ seen :=
          not_or.1 (mt (passed_iff hi).2 hleft)
        rw [List.filterMap_cons_some (f := fun f : Json => f.getStr "identity") hi]
        refine ⟨List.nodup_cons.2 ⟨fun hm => ?_, hnodup⟩, fun i hm => ?_⟩
        · exact (hnew _ hm).2 (getStr_eq_some.1 hi ▸ List.mem_cons_self ..)
        · rcases List.mem_cons.1 hm with rfl | hm
          · exact hown
          · exact ⟨(hnew i hm).1, fun hs => (hnew i hm).2 (List.mem_cons_of_mem _ hs)⟩

theorem firstOfEach_of_distinct
    (hall : ∀ f ∈ fields, ∃ i, f.getStr "identity" = some i ∧ some (.str i) ∉ seen)
    (hn : (fields.filterMap (·.getStr "identity")).Nodup) :
    firstOfEach names seen fields =
      fields.filter fun f => !(f.getStr "identity").any names.contains := by
  induction fields generalizing seen with
  | nil => rfl
  | cons field fields ih =>
    obtain ⟨⟨identity, hi, hs⟩, hall⟩ := List.forall_mem_cons.1 hall
    rw [List.filterMap_cons_some (f := fun f : Json => f.getStr "identity") hi] at hn
    obtain ⟨hnew, hn⟩ := List.nodup_cons.1 hn
    rw [firstOfEach]
    by_cases hr : identity ∈ names
    · rw [if_pos ((passed_iff hi).2 (.inl hr)), List.filter_cons_of_neg (by simp [hi, hr])]
      exact ih hall hn
    · rw [if_neg (mt (passed_iff hi).1 (not_or.2 ⟨hr, hs⟩)),
        List.filter_cons_of_pos (by simp [hi, hr])]
      congr 1
      refine ih (fun f hf => ?_) hn
      obtain ⟨i, hfi, hfs⟩ := hall f hf
      refine ⟨i, hfi, fun hm => ?_⟩
      rcases List.mem_cons.1 hm with heq | hm
      · rw [getStr_eq_some.1 hi, Option.some.injEq, Json.str.injEq] at heq
        exact hnew (heq ▸ List.mem_filterMap.2 ⟨f, hf, hfi⟩)
      · exact hfs hm

end Fields

theorem mem_redefined {fields : List Json} {identity : String} :
    identity ∈ redefined fields ↔ ∃ g ∈ fields, g.getStr "redefines" = some identity :=
  List.mem_filterMap

/-- The fields a type carries come in the order of the types that declare them: the supertypes it
reaches, each once, and the type itself last; a type comes after a supertype it names unless that
leads back to it, and after all it reaches where nothing leads back to itself. Of the fields that
share an identity the first is carried, once, unless a field redefines the identity. -/
theorem effectiveFields_spec (types : List Json) (t : Json) :
    let own := t.getStr "identity"
    let declared := declaredFields types t
    ((carried types t).Nodup ∧
      (∀ p, p ∈ ancestorsOf types t ↔ Relation.TransGen (SupertypeBeside types own) t p) ∧
      ((∀ i, own = some i → typeIndex types i = some t) →
        ∀ p, p ∈ ancestorsOf types t ↔ Relation.TransGen (Supertype types) t p ∧ p ≠ t) ∧
      (∀ u ∈ carried types t, ∀ s, SupertypeBeside types own u s →
        ¬ Relation.ReflTransGen (SupertypeBeside types own) s u →
        (carried types t).idxOf s < (carried types t).idxOf u) ∧
      ((∀ x, ¬ Relation.TransGen (SupertypeBeside types own) x x) →
        ∀ u ∈ carried types t, ∀ s, Relation.TransGen (SupertypeBeside types own) u s →
          (carried types t).idxOf s < (carried types t).idxOf u) ∧
      ∀ more, postOrder supertypeNames (typeIndex types) own.toList (types.length + 1 + more) t =
        ancestorsOf types t) ∧
    declared = ((carried types t).flatMap (·.members "fields")).filter isObject ∧
    (effectiveFields types t).Sublist declared ∧
    ((effectiveFields types t).filterMap (·.getStr "identity")).Nodup ∧
    (∀ f ∈ effectiveFields types t, ∀ g ∈ declared, ∀ i, f.getStr "identity" = some i →
      g.getStr "redefines" ≠ some i) ∧
    (∀ i, (∀ g ∈ declared, g.getStr "redefines" ≠ some i) →
      (effectiveFields types t).find? (fun f => f.getStr "identity" == some i) =
        declared.find? fun f => f.getStr "identity" == some i) ∧
    ((∀ f ∈ declared, ∃ i, f.getStr "identity" = some i) →
      (declared.filterMap (·.getStr "identity")).Nodup →
      effectiveFields types t = declared.filter fun f =>
        !declared.any fun g => g.getStr "redefines" == f.getStr "identity") := by
  intro own declared
  refine ⟨⟨carried_nodup, fun p => mem_ancestorsOf, fun ht p => mem_ancestorsOf_of_indexed ht,
    fun u hu s => carried_before hu, fun ha u hu s => carried_after ha hu,
    postOrder_enough typeIndex_injective (fun _ _ => mem_named) card_named⟩, ?_,
    firstOfEach_sublist, firstOfEach_identities.1, fun f hf g hg i hi hr => ?_, fun i hi => ?_,
    fun hall hn => ?_⟩
  · simp only [declared, declaredFields, carried, List.flatMap_append, List.flatMap_singleton]
  · have hnew := (firstOfEach_identities.2 i (List.mem_filterMap.2 ⟨f, hf, hi⟩)).1
    exact hnew (mem_redefined.2 ⟨g, hg, hr⟩)
  · refine find_firstOfEach (fun hm => ?_) List.not_mem_nil
    obtain ⟨g, hg, hr⟩ := mem_redefined.1 hm
    exact hi g hg hr
  · have hleft : firstOfEach (redefined declared) [] _ = _ := firstOfEach_of_distinct
      (fun f hf => (hall f hf).imp fun i hi => ⟨hi, List.not_mem_nil⟩) hn
    refine hleft.trans (List.filter_congr fun f hf => ?_)
    obtain ⟨i, hi⟩ := hall f hf
    rw [hi, Option.any_some]
    congr 1
    rw [Bool.eq_iff_iff, List.contains_iff_mem, mem_redefined, List.any_eq_true]
    simp only [beq_iff_eq]

def carrying (identity : String) (supertypes : List String) (field : Json) : Json :=
  .object [("identity", .str identity), ("supertypes", .array (supertypes.map Json.str)),
    ("fields", .array [field])]

def fieldOf (identity : String) (more : List (String × Json)) : Json :=
  .object (("identity", .str identity) :: more)

/-- Two types that specialize one, and a type below both. -/
def diamond : List Json :=
  [carrying "x/top" [] (fieldOf "x/f" []), carrying "x/left" ["x/top"] (fieldOf "x/g" []),
    carrying "x/right" ["x/top"] (fieldOf "x/h" [("redefines", .str "x/g")])]

def bottom : Json := carrying "x/bottom" ["x/left", "x/right"] (fieldOf "x/k" [])

theorem effectiveFields_spec_diamond :
    (effectiveFields diamond bottom).find? (fun f => f.getStr "identity" == some "x/f") =
      some (fieldOf "x/f" []) :=
  ((effectiveFields_spec diamond bottom).2.2.2.2.2.1 "x/f" (by decide +kernel)).trans
    (by decide +kernel)

/-- Two types that name each other as supertypes. -/
def entwined : List Json :=
  [carrying "x/a" ["x/b"] (fieldOf "x/f" []), carrying "x/b" ["x/a"] (fieldOf "x/g" [])]

/-- Each of the two is a supertype of the other, and one comes first. -/
theorem effectiveFields_entwined :
    Supertype entwined (carrying "x/b" ["x/a"] (fieldOf "x/g" []))
      (carrying "x/a" ["x/b"] (fieldOf "x/f" [])) ∧
    effectiveFields entwined (carrying "x/c" ["x/a"] (fieldOf "x/h" [])) =
      [fieldOf "x/g" [], fieldOf "x/f" [], fieldOf "x/h" []] :=
  ⟨⟨"x/a", by decide +kernel, by decide +kernel⟩, by decide +kernel⟩

end FilamentCore.Compiler.Constructs
