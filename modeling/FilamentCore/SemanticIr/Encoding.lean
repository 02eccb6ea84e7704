import FilamentCore.SemanticIr.CanonicalText
import FilamentCore.SemanticIr.Grammar

/-!
# Encoders of JSON values

The canonical form with the items of some arrays in another order. An encoder says how an array at
a place is ordered and which places its items and members have; two encoders that agree at every
place of a value write the same text.
-/

namespace FilamentCore.SemanticIr
open FilamentCore.Library
open FilamentCore.Packages (codeUnits codeUnits_injective)
open Grammar (depth depthItems depthMembers depthMember)

namespace Json

/-! ### Members under a map -/

section
variable {α β : Type} (f : String → α → β)

theorem resolveMember_map (resolved : List (String × α)) (m : String × α) :
    (resolveMember resolved m).map (fun m => (m.1, f m.1 m.2)) =
      resolveMember (resolved.map fun m => (m.1, f m.1 m.2)) (m.1, f m.1 m.2) := by
  induction resolved with
  | nil => rfl
  | cons r rs ih =>
    by_cases hr : r.1 = m.1
    · simp [resolveMember, hr]
    · simp [resolveMember, hr, ih]

theorem resolvedMembers_map (members : List (String × α)) :
    resolvedMembers (members.map fun m => (m.1, f m.1 m.2)) =
      (resolvedMembers members).map fun m => (m.1, f m.1 m.2) := by
  have hfold : ∀ (members start : List (String × α)),
      (members.map fun m => (m.1, f m.1 m.2)).foldl resolveMember
          (start.map fun m => (m.1, f m.1 m.2)) =
        (members.foldl resolveMember start).map fun m => (m.1, f m.1 m.2) := by
    intro members
    induction members with
    | nil => exact fun _ => rfl
    | cons m members ih =>
      intro start
      rw [List.map_cons, List.foldl_cons, List.foldl_cons, ← resolveMember_map, ih]
  exact hfold members []

theorem sortedMembers_map (members : List (String × α)) :
    sortedMembers (members.map fun m => (m.1, f m.1 m.2)) =
      (sortedMembers members).map fun m => (m.1, f m.1 m.2) := by
  rw [sortedMembers, resolvedMembers_map, sortedMembers]
  symm
  apply List.map_insertionSort
  exact fun _ _ _ _ => Iff.rfl

end

theorem lookup_eq_first (key : String) (members : List (String × Json)) :
    lookup key members = (Keyed.first Prod.fst key members.reverse).map Prod.snd := by
  have hp : (fun m : String × Json => m.1 == key) = fun m => key == m.1 := by
    funext m
    exact Bool.beq_comm
  rw [lookup, Keyed.first, hp]

theorem lookup_of_sorted {members : List (String × Json)} {m : String × Json}
    (h : m ∈ sortedMembers members) : lookup m.1 members = some m.2 := by
  obtain ⟨hn, hfirst⟩ := resolvedMembers_spec members
  have hm : m ∈ resolvedMembers members := (List.mem_insertionSort _).1 h
  rw [lookup_eq_first, ← hfirst, Keyed.first_of_mem hn hm]
  rfl

theorem mem_of_lookup {key : String} {members : List (String × Json)} {value : Json}
    (h : lookup key members = some value) : (key, value) ∈ members := by
  rw [lookup_eq_first] at h
  obtain ⟨m, hm, rfl⟩ := Option.map_eq_some_iff.1 h
  obtain ⟨hmem, hk⟩ := Keyed.first_some hm
  exact hk ▸ List.mem_reverse.1 hmem

/-! ### Arrays -/

theorem canonicalItems_eq (items : List Json) : canonicalItems items = items.map canonical := by
  induction items with
  | nil => rw [canonicalItems, List.map_nil]
  | cons item items ih => rw [canonicalItems, ih, List.map_cons]

theorem canonical_array (items : List Json) :
    canonical (array items) = '[' :: commaSeparated (items.map canonical) ++ [']'] := by
  rw [canonical, canonicalItems_eq]

/-! ### Induction -/

@[elab_as_elim]
theorem nested_induction {motive : Json → Prop} (v : Json) (null : motive null)
    (bool : ∀ b, motive (bool b)) (number : ∀ n, motive (number n))
    (str : ∀ text, motive (str text))
    (array : ∀ items, (∀ item ∈ items, motive item) → motive (array items))
    (object : ∀ members, (∀ m ∈ members, motive m.2) → motive (object members)) : motive v :=
  @Json.rec motive (fun items => ∀ item ∈ items, motive item)
    (fun members => ∀ m ∈ members, motive m.2) (fun m => motive m.2) null bool number str array
    object (fun _ hm => absurd hm List.not_mem_nil)
    (fun _ _ hitem hitems => List.forall_mem_cons.2 ⟨hitem, hitems⟩)
    (fun _ hm => absurd hm List.not_mem_nil)
    (fun _ _ hmember hmembers => List.forall_mem_cons.2 ⟨hmember, hmembers⟩)
    (fun _ _ hvalue => hvalue) v

/-! ### Nesting -/

theorem depthMembers_le {members : List (String × Json)} {n : ℕ} :
    depthMembers members ≤ n ↔ ∀ m ∈ members, depth m.2 + 1 ≤ n := by
  induction members with
  | nil => simp [depthMembers]
  | cons m members ih =>
    have hm : depthMember m = depth m.2 := by
      cases m
      rw [depthMember]
    rw [depthMembers, max_le_iff, ih, hm, List.forall_mem_cons]

theorem depthItems_le {items : List Json} {n : ℕ} :
    depthItems items ≤ n ↔ ∀ item ∈ items, depth item + 1 ≤ n := by
  induction items with
  | nil => simp [depthItems]
  | cons item items ih => rw [depthItems, max_le_iff, ih, List.forall_mem_cons]

/-! ### Encoders -/

/-- How arrays are ordered, by place. -/
structure Encoder (P : Type) where
  item : P → ℕ → P
  member : P → String → P
  order : P → List (Json × List Char) → List (Json × List Char)

section
variable {P Q : Type}

def objectText (members : List (String × List Char)) : List Char :=
  '{' :: commaSeparated (members.map fun m => writeString m.1 ++ ':' :: m.2) ++ ['}']

def arrayText (items : List (List Char)) : List Char := '[' :: commaSeparated items ++ [']']

mutual

def encode (E : Encoder P) (p : P) : Json → List Char
  | array items => arrayText ((E.order p (encodeItems E p 0 items)).map Prod.snd)
  | object members => objectText (sortedMembers (encodeMembers E p members))
  | value => canonical value

def encodeItems (E : Encoder P) (p : P) (i : ℕ) : List Json → List (Json × List Char)
  | [] => []
  | item :: items => (item, encode E (E.item p i) item) :: encodeItems E p (i + 1) items

def encodeMembers (E : Encoder P) (p : P) : List (String × Json) → List (String × List Char)
  | [] => []
  | m :: members => encodeMember E p m :: encodeMembers E p members

def encodeMember (E : Encoder P) (p : P) : String × Json → String × List Char
  | (name, value) => (name, encode E (E.member p name) value)

end

theorem encodeMembers_eq (E : Encoder P) (p : P) (members : List (String × Json)) :
    encodeMembers E p members =
      members.map fun m => (m.1, encode E (E.member p m.1) m.2) := by
  induction members with
  | nil => rw [encodeMembers, List.map_nil]
  | cons m members ih => rw [encodeMembers, encodeMember, ih, List.map_cons]

theorem encode_object (E : Encoder P) (p : P) (members : List (String × Json)) :
    encode E p (object members) = objectText ((sortedMembers members).map fun m =>
      (m.1, encode E (E.member p m.1) m.2)) := by
  rw [encode, encodeMembers_eq, sortedMembers_map fun name value => encode E (E.member p name) value]

theorem encodeItems_fst (E : Encoder P) (p : P) (i : ℕ) (items : List Json) :
    (encodeItems E p i items).map Prod.fst = items := by
  induction items generalizing i with
  | nil => rw [encodeItems, List.map_nil]
  | cons item items ih => rw [encodeItems, List.map_cons, ih]

/-! ### Encoders with a depth limit -/

def withText (m : String × Option (List Char)) : Option (String × List Char) :=
  m.2.map fun text => (m.1, text)

/-- The text of an object, none where a member has none. -/
def joinMembers (members : List (String × Option (List Char))) : Option (List Char) :=
  ((sortedMembers members).mapM withText).map objectText

mutual

/-- The walk of a canonicalizer that throws on a value deeper than `maxDepth`. -/
def encodeWithin (E : Encoder P) (maxDepth : ℕ) (p : P) (level : ℕ) : Json → Option (List Char)
  | array items =>
    if maxDepth < level then none
    else (itemsWithin E maxDepth p (level + 1) 0 items).map fun texts =>
      arrayText ((E.order p texts).map Prod.snd)
  | object members =>
    if maxDepth < level then none
    else joinMembers (membersWithin E maxDepth p (level + 1) members)
  | value => if maxDepth < level then none else some (canonical value)

def itemsWithin (E : Encoder P) (maxDepth : ℕ) (p : P) (level i : ℕ) :
    List Json → Option (List (Json × List Char))
  | [] => some []
  | item :: items =>
    (encodeWithin E maxDepth (E.item p i) level item).bind fun text =>
      (itemsWithin E maxDepth p level (i + 1) items).map fun texts => (item, text) :: texts

def membersWithin (E : Encoder P) (maxDepth : ℕ) (p : P) (level : ℕ) :
    List (String × Json) → List (String × Option (List Char))
  | [] => []
  | m :: members => memberWithin E maxDepth p level m :: membersWithin E maxDepth p level members

def memberWithin (E : Encoder P) (maxDepth : ℕ) (p : P) (level : ℕ) :
    String × Json → String × Option (List Char)
  | (name, value) => (name, encodeWithin E maxDepth (E.member p name) level value)

end

theorem mapM_withText (members : List (String × List Char)) :
    (members.map fun m => (m.1, some m.2)).mapM withText = some members := by
  induction members with
  | nil => rfl
  | cons m members ih =>
    rw [List.map_cons, List.mapM_cons, ih]
    rfl

theorem joinMembers_some (members : List (String × List Char)) :
    joinMembers (members.map fun m => (m.1, some m.2)) =
      some (objectText (sortedMembers members)) := by
  rw [joinMembers, sortedMembers_map fun _ text => some text, mapM_withText, Option.map_some]

section
variable {E : Encoder P} {maxDepth : ℕ}

theorem itemsWithin_eq {items : List Json} {p : P} {level : ℕ}
    (h : ∀ i, ∀ item ∈ items, encodeWithin E maxDepth (E.item p i) level item =
      some (encode E (E.item p i) item)) (i : ℕ) :
    itemsWithin E maxDepth p level i items = some (encodeItems E p i items) := by
  induction items generalizing i with
  | nil => rw [itemsWithin, encodeItems]
  | cons item items ih =>
    rw [itemsWithin, h i item (.head _), Option.bind_some,
      ih (fun j other ho => h j other (.tail _ ho)), encodeItems]
    rfl

theorem membersWithin_eq {members : List (String × Json)} {p : P} {level : ℕ}
    (h : ∀ m ∈ members, encodeWithin E maxDepth (E.member p m.1) level m.2 =
      some (encode E (E.member p m.1) m.2)) :
    membersWithin E maxDepth p level members =
      (encodeMembers E p members).map fun m => (m.1, some m.2) := by
  induction members with
  | nil => rw [membersWithin, encodeMembers, List.map_nil]
  | cons m members ih =>
    have hmember : memberWithin E maxDepth p level m =
        (m.1, encodeWithin E maxDepth (E.member p m.1) level m.2) := by
      cases m
      rw [memberWithin]
    have hencoded : encodeMember E p m = (m.1, encode E (E.member p m.1) m.2) := by
      cases m
      rw [encodeMember]
    rw [membersWithin, hmember, h m (.head _), ih fun other ho => h other (.tail _ ho),
      encodeMembers, hencoded, List.map_cons]

/-- Within the limit the walk writes the text of its encoder. -/
theorem encodeWithin_eq (value : Json) (p : P) (level : ℕ) (hd : level + depth value ≤ maxDepth) :
    encodeWithin E maxDepth p level value = some (encode E p value) := by
  induction value using nested_induction generalizing p level with
  | array items ih =>
    rw [depth] at hd
    have hitems := depthItems_le.1 (Nat.le_sub_of_add_le' hd)
    have hwithin := @itemsWithin_eq P E maxDepth items p (level + 1) fun i item hi => by
      have hle := hitems item hi
      exact ih item hi _ _ (by omega)
    rw [encodeWithin, if_neg (by omega), hwithin, encode]
    rfl
  | object members ih =>
    rw [depth] at hd
    have hmembers := depthMembers_le.1 (Nat.le_sub_of_add_le' hd)
    have hwithin := @membersWithin_eq P E maxDepth members p (level + 1) fun m hm => by
      have hle := hmembers m hm
      exact ih m hm _ _ (by omega)
    rw [encodeWithin, if_neg (by omega), hwithin, joinMembers_some, encode]
  | _ => simp only [encodeWithin, encode, if_neg (show ¬ maxDepth < level by omega)]

end

/-! ### Encoders that agree -/

/-- A relation of places that two encoders keep, under which they order arrays alike. -/
structure Simulates (E : Encoder P) (F : Encoder Q) (R : P → Q → Json → Prop) : Prop where
  item : ∀ p q items, R p q (array items) → ∀ i, ∀ item ∈ items, R (E.item p i) (F.item q i) item
  member : ∀ p q members, R p q (object members) → ∀ name value,
    lookup name members = some value → R (E.member p name) (F.member q name) value
  order : ∀ p q items, R p q (array items) → ∀ texts, texts.map Prod.fst = items →
    E.order p texts = F.order q texts

variable {E : Encoder P} {F : Encoder Q} {R : P → Q → Json → Prop}

theorem encodeItems_congr {items : List Json}
    (hitems : ∀ item ∈ items, ∀ p q, R p q item → encode E p item = encode F q item) {p : P} {q : Q}
    (hr : ∀ i, ∀ item ∈ items, R (E.item p i) (F.item q i) item) (i : ℕ) :
    encodeItems E p i items = encodeItems F q i items := by
  induction items generalizing i with
  | nil => rw [encodeItems, encodeItems]
  | cons item items ih =>
    rw [encodeItems, encodeItems, hitems item (.head _) _ _ (hr i item (.head _)),
      ih (fun other ho => hitems other (.tail _ ho)) (fun j other ho => hr j other (.tail _ ho))]

theorem encode_congr (h : Simulates E F R) (value : Json) (p : P) (q : Q) (hr : R p q value) :
    encode E p value = encode F q value := by
  induction value using nested_induction generalizing p q with
  | array items ih =>
    rw [encode, encode, encodeItems_congr ih (h.item p q items hr),
      h.order p q items hr _ (encodeItems_fst F q 0 items)]
  | object members ih =>
    rw [encode_object, encode_object]
    have hmembers : ∀ m ∈ sortedMembers members,
        (m.1, encode E (E.member p m.1) m.2) = (m.1, encode F (F.member q m.1) m.2) := by
      intro m hm
      have hl := lookup_of_sorted hm
      rw [ih m (mem_of_lookup hl) _ _ (h.member p q members hr m.1 m.2 hl)]
    rw [List.map_congr_left hmembers]
  | _ => simp only [encode]

/-! ### The plain form -/

theorem encodeItems_plain {items : List Json} {p : P}
    (h : ∀ item ∈ items, ∀ p, encode E p item = canonical item) (i : ℕ) :
    (encodeItems E p i items).map Prod.snd = items.map canonical := by
  induction items generalizing i with
  | nil => rw [encodeItems, List.map_nil, List.map_nil]
  | cons item items ih =>
    rw [encodeItems, List.map_cons, List.map_cons, h item (.head _),
      ih fun other ho => h other (.tail _ ho)]

theorem encode_plain (h : ∀ p texts, E.order p texts = texts) (value : Json) (p : P) :
    encode E p value = canonical value := by
  induction value using nested_induction generalizing p with
  | array items ih =>
    rw [encode, h, encodeItems_plain ih, canonical_array]
    rfl
  | object members ih =>
    have hmembers : ∀ m ∈ sortedMembers members,
        (m.1, encode E (E.member p m.1) m.2) = (m.1, canonical m.2) :=
      fun m hm => by rw [ih m (mem_of_lookup (lookup_of_sorted hm))]
    rw [encode_object, canonical_object, canonicalMembers_eq,
      sortedMembers_map fun _ value => canonical value, List.map_congr_left hmembers]
    rfl
  | _ => simp only [encode]

end

end Json
end FilamentCore.SemanticIr
