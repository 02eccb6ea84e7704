import FilamentCore.SemanticIr.Encoding

/-!
# The members of an object by name

The value an object has under a name, what an assignment of JavaScript leaves of it, and that the
canonical form of an object is decided by it.
-/

namespace FilamentCore.SemanticIr
open FilamentCore.Library
open FilamentCore.Packages (codeUnits codeUnits_injective)
open Grammar (depth depthItems depthMembers)

namespace Json

/-! ### The order of names -/

theorem utf16Le_total (a b : String) : utf16Le a b = true ∨ utf16Le b a = true := by
  rw [utf16Le, utf16Le, decide_eq_true_eq, decide_eq_true_eq]
  exact le_total _ _

theorem utf16Le_trans {a b c : String} (hab : utf16Le a b = true) (hbc : utf16Le b c = true) :
    utf16Le a c = true := by
  rw [utf16Le, decide_eq_true_eq] at *
  exact hab.trans hbc

theorem utf16Le_antisymm {a b : String} (hab : utf16Le a b = true) (hba : utf16Le b a = true) :
    a = b := by
  rw [utf16Le, decide_eq_true_eq] at *
  exact String.toList_injective (codeUnits_injective (le_antisymm hab hba))

theorem utf16Le_refl (a : String) : utf16Le a a = true := by
  rw [utf16Le, decide_eq_true_eq]

section
variable {α : Type}

theorem pairwise_sortedMembers (members : List (String × α)) :
    (sortedMembers members).Pairwise fun l r => utf16Le l.1 r.1 = true := by
  have htotal : Std.Total fun l r : String × α => utf16Le l.1 r.1 = true :=
    ⟨fun l r => utf16Le_total l.1 r.1⟩
  have htrans : IsTrans (String × α) fun l r => utf16Le l.1 r.1 = true :=
    ⟨fun _ _ _ => utf16Le_trans⟩
  exact List.pairwise_insertionSort _ _

theorem sortedMembers_eq {l m : List (String × α)}
    (h : ∀ key, Keyed.first Prod.fst key l.reverse = Keyed.first Prod.fst key m.reverse) :
    sortedMembers l = sortedMembers m := by
  obtain ⟨hl, hfl⟩ := resolvedMembers_spec l
  obtain ⟨hm, hfm⟩ := resolvedMembers_spec m
  have hfirst : ∀ key, Keyed.first Prod.fst key (resolvedMembers l) =
      Keyed.first Prod.fst key (resolvedMembers m) := by
    intro key
    rw [hfl, hfm, h]
  have hmem : ∀ a, a ∈ resolvedMembers l ↔ a ∈ resolvedMembers m := by
    intro a
    constructor
    · intro ha
      exact (Keyed.first_some ((hfirst a.1).symm.trans (Keyed.first_of_mem hl ha))).1
    · intro ha
      exact (Keyed.first_some ((hfirst a.1).trans (Keyed.first_of_mem hm ha))).1
  have hperm : (resolvedMembers l).Perm (resolvedMembers m) :=
    (List.perm_ext_iff_of_nodup hl.of_map hm.of_map).2 hmem
  have hsorted : (sortedMembers l).Perm (sortedMembers m) :=
    ((List.perm_insertionSort _ _).trans hperm).trans (List.perm_insertionSort _ _).symm
  refine hsorted.eq_of_pairwise ?_ (pairwise_sortedMembers l) (pairwise_sortedMembers m)
  intro a b ha hb hab hba
  have hal : a ∈ resolvedMembers l := (List.mem_insertionSort _).1 ha
  have hbl : b ∈ resolvedMembers l := (hmem b).2 ((List.mem_insertionSort _).1 hb)
  exact Keyed.eq_of_key hl hal hbl (utf16Le_antisymm hab hba)

end

/-! ### Lookups -/

theorem lookup_nil (key : String) : lookup key [] = none := rfl

theorem lookup_cons (key : String) (m : String × Json) (members : List (String × Json)) :
    lookup key (m :: members) =
      (lookup key members).or (if m.1 = key then some m.2 else none) := by
  rw [lookup, lookup, List.reverse_cons, List.find?_append, Option.map_or]
  congr 1
  by_cases h : m.1 = key
  · simp [h]
  · simp [h]

theorem lookup_append (key : String) (l m : List (String × Json)) :
    lookup key (l ++ m) = (lookup key m).or (lookup key l) := by
  rw [lookup, lookup, lookup, List.reverse_append, List.find?_append, Option.map_or]

theorem lookup_map (key : String) (f : String → Json → Json) (members : List (String × Json)) :
    lookup key (members.map fun m => (m.1, f m.1 m.2)) = (lookup key members).map (f key) := by
  induction members with
  | nil => rfl
  | cons m members ih =>
    rw [List.map_cons, lookup_cons, lookup_cons, ih, Option.map_or]
    congr 1
    by_cases h : m.1 = key
    · simp [h]
    · simp [h]

theorem lookup_filter (key name : String) (members : List (String × Json)) :
    lookup key (members.filter fun m => m.1 ≠ name) =
      if key = name then none else lookup key members := by
  induction members with
  | nil => simp [lookup_nil]
  | cons m members ih =>
    by_cases hm : m.1 = name
    · rw [List.filter_cons_of_neg (by simpa using hm), ih, lookup_cons]
      by_cases hk : key = name
      · simp [hk]
      · have hne : m.1 ≠ key := fun h => hk (h.symm.trans hm)
        simp [hk, hne]
    · rw [List.filter_cons_of_pos (by simpa using hm), lookup_cons, lookup_cons, ih]
      by_cases hk : key = name
      · have hne : m.1 ≠ key := fun h => hm (h.trans hk)
        rw [if_pos hk, if_pos hk, if_neg hne]
        rfl
      · simp [hk]

theorem first_canonicalMembers (key : String) (members : List (String × Json)) :
    Keyed.first Prod.fst key (canonicalMembers members).reverse =
      ((lookup key members).map canonical).map fun text => (key, text) := by
  rw [canonicalMembers_eq, ← List.map_reverse, Keyed.first, List.find?_map, lookup]
  have hp : (fun m : String × List Char => m.1 == key) ∘
      (fun m : String × Json => (m.1, canonical m.2)) = fun m => m.1 == key := rfl
  rw [hp]
  cases hf : members.reverse.find? fun m => m.1 == key with
  | none => rfl
  | some m =>
    have hk : m.1 = key := by simpa using List.find?_some hf
    rw [Option.map_some, Option.map_some, Option.map_some, Option.map_some, hk]

theorem canonical_object_eq {l m : List (String × Json)}
    (h : ∀ key, (lookup key l).map canonical = (lookup key m).map canonical) :
    canonical (object l) = canonical (object m) := by
  have hsorted : sortedMembers (canonicalMembers l) = sortedMembers (canonicalMembers m) := by
    apply sortedMembers_eq
    intro key
    rw [first_canonicalMembers, first_canonicalMembers, h]
  rw [canonical_object, canonical_object, hsorted]

/-! ### Assignment -/

/-- `object[name] = value`. -/
def setMember (name : String) (value : Json) (members : List (String × Json)) :
    List (String × Json) :=
  resolveMember (resolvedMembers members) (name, value)

theorem lookup_resolved (key : String) (members : List (String × Json)) :
    lookup key (resolvedMembers members) = lookup key members := by
  obtain ⟨hn, hfirst⟩ := resolvedMembers_spec members
  rw [lookup_eq_first, lookup_eq_first,
    ← Keyed.first_perm hn (List.reverse_perm _).symm, hfirst]

theorem lookup_setMember (key name : String) (value : Json) (members : List (String × Json)) :
    lookup key (setMember name value members) =
      if name = key then some value else lookup key members := by
  have hn : ((setMember name value members).map Prod.fst).Nodup := by
    rw [setMember, keys_resolveMember]
    obtain ⟨hn, -⟩ := resolvedMembers_spec members
    split
    · exact hn
    · next hm =>
      rw [List.nodup_append]
      refine ⟨hn, List.nodup_singleton _, fun k hk l hl he => hm ?_⟩
      rw [List.mem_singleton.1 hl] at he
      exact he ▸ hk
  rw [← lookup_resolved key members, lookup_eq_first, lookup_eq_first,
    ← Keyed.first_perm hn (List.reverse_perm _).symm, setMember, first_resolveMember,
    ← Keyed.first_perm (resolvedMembers_spec members).1 (List.reverse_perm _).symm]
  by_cases hk : name = key
  · rw [if_pos hk, if_pos hk]
    rfl
  · rw [if_neg hk, if_neg hk]

/-- `object[name] = object[name].map(f)`, where it is an array. -/
def mapMember (name : String) (f : Json → Json) (members : List (String × Json)) :
    List (String × Json) :=
  match lookup name members with
  | some (.array items) => setMember name (.array (items.map f)) members
  | _ => members

def onMembers (f : List (String × Json) → List (String × Json)) : Json → Json
  | object members => object (f members)
  | value => value

def mapItems (f : Json → Json) : Json → Json
  | .array items => .array (items.map f)
  | value => value

theorem lookup_mapMember (key name : String) (f : Json → Json) (members : List (String × Json)) :
    lookup key (mapMember name f members) =
      if name = key then (lookup key members).map (mapItems f) else lookup key members := by
  rw [mapMember]
  split
  · next items hi =>
    rw [lookup_setMember]
    by_cases hk : name = key
    · rw [if_pos hk, if_pos hk, ← hk, hi]
      rfl
    · rw [if_neg hk, if_neg hk]
  · next hi =>
    by_cases hk : name = key
    · rw [if_pos hk, ← hk]
      cases hl : lookup name members with
      | none => rfl
      | some value =>
        cases value with
        | array items => exact absurd hl (hi items)
        | _ => rfl
    · rw [if_neg hk]

/-! ### Canonical forms of mapped values -/

theorem canonical_mapItems {f g : Json → Json}
    (h : ∀ item, canonical (f item) = canonical (g item)) (value : Json) :
    canonical (mapItems f value) = canonical (mapItems g value) := by
  cases value with
  | array items =>
    have hitems : (items.map f).map canonical = (items.map g).map canonical := by
      rw [List.map_map, List.map_map]
      exact List.map_congr_left fun item _ => h item
    rw [mapItems, mapItems, canonical_array, canonical_array, hitems]
  | _ => rfl

/-! ### Nesting -/

theorem depth_le_of_lookup {key : String} {members : List (String × Json)} {value : Json}
    (h : lookup key members = some value) : depth value + 1 ≤ depthMembers members :=
  depthMembers_le.1 le_rfl _ (mem_of_lookup h)

theorem mem_resolveMember {resolved : List (String × Json)} {m other : String × Json}
    (h : other ∈ resolveMember resolved m) : other = m ∨ other ∈ resolved := by
  induction resolved with
  | nil => exact .inl (List.mem_singleton.1 h)
  | cons r rs ih =>
    rw [resolveMember] at h
    split at h
    · obtain rfl | h := List.mem_cons.1 h
      · exact .inl rfl
      · exact .inr (.tail _ h)
    · obtain rfl | h := List.mem_cons.1 h
      · exact .inr (.head _)
      · exact (ih h).imp_right (.tail _)

theorem depthMembers_setMember {name : String} {value : Json} {members : List (String × Json)}
    {n : ℕ} (hm : depthMembers members ≤ n) (hv : depth value + 1 ≤ n) :
    depthMembers (setMember name value members) ≤ n := by
  rw [depthMembers_le] at hm ⊢
  intro m h
  rw [setMember] at h
  obtain rfl | h := mem_resolveMember h
  · exact hv
  · exact hm m (mem_of_lookup (lookup_of_sorted ((List.mem_insertionSort _).2 h)))

theorem depthMembers_mapMember {name : String} {f : Json → Json} {members : List (String × Json)}
    {n : ℕ} (hm : depthMembers members ≤ n)
    (hf : ∀ item, depth item + 2 ≤ n → depth (f item) + 2 ≤ n) :
    depthMembers (mapMember name f members) ≤ n := by
  rw [mapMember]
  split
  · next items hi =>
    apply depthMembers_setMember hm
    have hle := (depth_le_of_lookup hi).trans hm
    rw [depth] at hle ⊢
    have hitems := depthItems_le.1 (Nat.le_sub_of_add_le hle)
    refine Nat.add_le_of_le_sub (by omega) (depthItems_le.2 fun item hitem => ?_)
    obtain ⟨original, ho, rfl⟩ := List.mem_map.1 hitem
    have hdepth := hitems original ho
    have hmapped := hf original (by omega)
    omega
  · exact hm

end Json
end FilamentCore.SemanticIr
