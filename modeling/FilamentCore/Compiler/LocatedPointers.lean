import FilamentCore.Compiler.JsonLocus
import Std.Data.String.ToNat

/-!
# Which member a pointer is located at

The index keeps the first entry of a pointer, where `JSON.parse` keeps the last member of a name.
The two agree on the texts whose objects repeat no name, and on these only.
-/

namespace FilamentCore.Compiler.JsonLocus
open FilamentCore.Library
open FilamentCore.Compiler.JsonText
open LabelledTree (places childPlaces taken childTaken lastChildren)

/-! ### Pointers tell paths apart -/

def escapeUnit (u : ℕ) : Text :=
  if u = code '~' then [code '~', code '0'] else if u = code '/' then [code '~', code '1'] else [u]

theorem escapeToken_cons (u : ℕ) (token : Text) :
    escapeToken (u :: token) = escapeUnit u ++ escapeToken token := List.flatMap_cons

theorem slash_notMem_escapeUnit (u : ℕ) : code '/' ∉ escapeUnit u := by
  rw [escapeUnit]
  split_ifs with htilde hslash
  · decide
  · decide
  · exact fun h => hslash (List.mem_singleton.1 h).symm

theorem slash_notMem_escapeToken (token : Text) : code '/' ∉ escapeToken token := by
  intro h
  obtain ⟨u, -, hu⟩ := List.mem_flatMap.1 h
  exact slash_notMem_escapeUnit u hu

theorem escapeUnit_inj {u v : ℕ} {left right : Text}
    (h : escapeUnit u ++ left = escapeUnit v ++ right) : u = v ∧ left = right := by
  rw [escapeUnit, escapeUnit] at h
  have h01 : code '0' ≠ code '1' := by decide
  split_ifs at h <;> simp only [List.cons_append, List.nil_append, List.cons.injEq] at h <;> grind

theorem escapeToken_injective : Function.Injective escapeToken := by
  intro s
  induction s with
  | nil =>
    intro t h
    cases t with
    | nil => rfl
    | cons v t =>
      rw [escapeToken_cons, escapeUnit] at h
      split_ifs at h <;> cases h
  | cons u s ih =>
    intro t h
    cases t with
    | nil =>
      rw [escapeToken_cons, escapeUnit] at h
      split_ifs at h <;> cases h
    | cons v t =>
      rw [escapeToken_cons, escapeToken_cons] at h
      obtain ⟨rfl, hrest⟩ := escapeUnit_inj h
      rw [ih hrest]

theorem jsonPointer_cons (s : Text) (path : List Text) :
    jsonPointer (s :: path) = code '/' :: (escapeToken s ++ jsonPointer path) := by
  rw [jsonPointer, List.flatMap_cons]
  rfl

theorem takeWhile_token (s : Text) (path : List Text) :
    (escapeToken s ++ jsonPointer path).takeWhile (· ≠ code '/') = escapeToken s := by
  have htoken : ∀ u ∈ escapeToken s, decide (u ≠ code '/') = true := by
    intro u hu
    rw [decide_eq_true_eq]
    rintro rfl
    exact slash_notMem_escapeToken s hu
  rw [List.takeWhile_append_of_pos htoken]
  cases path with
  | nil => exact List.append_nil _
  | cons t path =>
    rw [jsonPointer_cons, List.takeWhile_cons_of_neg (by decide), List.append_nil]

theorem jsonPointer_injective : Function.Injective jsonPointer := by
  intro path
  induction path with
  | nil =>
    intro other h
    cases other with
    | nil => rfl
    | cons t other =>
      rw [jsonPointer_cons] at h
      cases h
  | cons s path ih =>
    intro other h
    cases other with
    | nil =>
      rw [jsonPointer_cons] at h
      cases h
    | cons t other =>
      rw [jsonPointer_cons, jsonPointer_cons, List.cons.injEq] at h
      have htoken : escapeToken s = escapeToken t := by
        rw [← takeWhile_token s path, h.2, takeWhile_token]
      have hrest := h.2
      rw [htoken, List.append_cancel_left_eq] at hrest
      rw [escapeToken_injective htoken, ih hrest]

/-! ### Positions tell offsets apart -/

theorem lineStart_le (text : Text) (offset : ℕ) : (scanLines text offset).2 ≤ offset := by
  induction offset with
  | zero => exact le_rfl
  | succ n ih =>
    rw [scanLines]
    split
    · exact le_rfl
    · omega

theorem scanLines_mono (text : Text) {a b : ℕ} (h : a ≤ b) :
    (scanLines text a).1 < (scanLines text b).1 ∨ scanLines text a = scanLines text b := by
  induction b, h using Nat.le_induction with
  | base => exact .inr rfl
  | succ b _ ih =>
    rw [scanLines]
    split
    · obtain hlt | heq := ih
      · exact .inl (by omega)
      · exact .inl (by rw [heq]; omega)
    · exact ih

theorem offsetToPosition_inj {text : Text} {a b : ℕ} (ha : a ≤ text.length) (hb : b ≤ text.length)
    (h : offsetToPosition text a = offsetToPosition text b) : a = b := by
  have hlines : (scanLines text a).1 = (scanLines text b).1 ∧
      a - (scanLines text a).2 + 1 = b - (scanLines text b).2 + 1 := by
    simp only [offsetToPosition, min_eq_left ha, min_eq_left hb, Position.mk.injEq] at h
    exact h
  have hstart : scanLines text a = scanLines text b := by
    obtain hle | hle := le_total a b
    · obtain hlt | heq := scanLines_mono text hle
      · omega
      · exact heq
    · obtain hlt | heq := scanLines_mono text hle
      · omega
      · exact heq.symm
  have hla := lineStart_le text a
  have hlb := lineStart_le text b
  rw [hstart] at hla hlines
  omega

/-! ### What is in the index -/

def entryOf (text : Text) (place : List Text × Spot) : Entry :=
  ⟨offsetToPosition text place.2.value,
    offsetToPosition text (place.2.key.getD place.2.value)⟩

theorem lookup_recordAll (text pointer : Text) (index : Index) (all : List (List Text × Spot)) :
    (recordAll text index all).lookup pointer = (index.lookup pointer).or
      ((all.find? fun place => jsonPointer place.1 = pointer).map (entryOf text)) := by
  induction all generalizing index with
  | nil => rw [List.find?_nil, Option.map_none, Option.or_none]; rfl
  | cons place all ih =>
    have hrecord : (recordPlace text index place).lookup pointer = (index.lookup pointer).or
        (if jsonPointer place.1 = pointer then some (entryOf text place) else none) := by
      rw [recordPlace, record]
      split
      · next hin =>
        obtain ⟨entry, he⟩ := Option.isSome_iff_exists.1 hin
        split
        · next heq =>
          rw [← heq, he]
          rfl
        · rw [Option.or_none]
      · rw [List.lookup_append]
        congr 1
        split
        · next heq =>
          rw [← heq, List.lookup_cons_self]
          rfl
        · next hne =>
          rw [List.lookup_cons, beq_false_of_ne (Ne.symm hne)]
          rfl
    rw [recordAll_cons, ih, hrecord, Option.or_assoc, List.find?_cons]
    congr 1
    split
    · next heq =>
      rw [decide_eq_true heq]
      rfl
    · next hne =>
      rw [decide_eq_false hne]
      rfl

/-! ### The offsets of the places -/

/-- Places in the order of their offsets, from one offset up to another. -/
structure Within (low high : ℕ) (all : List (List Text × Spot)) : Prop where
  bounds : ∀ place ∈ all, low ≤ place.2.value ∧ place.2.value < high
  increasing : all.Pairwise fun p q => p.2.value < q.2.value

theorem within_nil (low high : ℕ) : Within low high [] :=
  ⟨fun _ h => absurd h List.not_mem_nil, .nil⟩

theorem Within.mono {low low' high high' : ℕ} {all : List (List Text × Spot)}
    (h : Within low high all) (hlow : low' ≤ low) (hhigh : high ≤ high') :
    Within low' high' all := by
  refine ⟨fun place hp => ?_, h.increasing⟩
  have hbounds := h.bounds place hp
  omega

theorem Within.append {low middle high : ℕ} {left right : List (List Text × Spot)}
    (hl : Within low middle left) (hr : Within middle high right) (hlow : low ≤ middle)
    (hhigh : middle ≤ high) : Within low high (left ++ right) := by
  constructor
  · intro place hp
    obtain hp | hp := List.mem_append.1 hp
    · have hbounds := hl.bounds place hp
      omega
    · have hbounds := hr.bounds place hp
      omega
  · refine List.pairwise_append.2 ⟨hl.increasing, hr.increasing, fun p hp q hq => ?_⟩
    have hleft := hl.bounds p hp
    have hright := hr.bounds q hq
    omega

theorem Within.cons {low high : ℕ} {place : List Text × Spot} {all : List (List Text × Spot)}
    (h : Within (place.2.value + 1) high all) (hlow : low ≤ place.2.value)
    (hhigh : place.2.value < high) : Within low high (place :: all) := by
  constructor
  · refine List.forall_mem_cons.2 ⟨⟨hlow, hhigh⟩, fun q hq => ?_⟩
    have hbounds := h.bounds q hq
    omega
  · refine List.pairwise_cons.2 ⟨fun q hq => ?_, h.increasing⟩
    have hbounds := h.bounds q hq
    omega

def Inside (node : Node) : Prop := ∀ (offset : ℕ) (key : Option ℕ) (path : List Text),
  Within offset (offset + node.text.length) (places path (node.spots offset key))

theorem inside_items {items : List Node} (h : ∀ item ∈ items, Inside item) (offset position : ℕ)
    (path : List Text) : Within offset (offset + (Node.itemsText items).length)
      (childPlaces path (Node.itemSpots offset position items)) := by
  induction items generalizing offset position with
  | nil => exact within_nil ..
  | cons item items ih =>
    rw [List.forall_mem_cons] at h
    have hrest := ih h.2 (offset + item.text.length + 1) (position + 1)
    have hlength : item.text.length + (Node.itemsText items).length + (Node.comma items).length =
        (Node.itemsText (item :: items)).length := by
      simp only [Node.itemsText, List.length_append]
      omega
    rw [Node.itemSpots, childPlaces, LabelledTree.labelPlaces]
    cases items with
    | nil =>
      rw [Node.itemSpots, childPlaces, List.append_nil]
      exact (h.1 offset none _).mono le_rfl (by omega)
    | cons next items =>
      have hcomma : (Node.comma (next :: items)).length = 1 := rfl
      exact ((h.1 offset none _).mono le_rfl (by omega)).append
        (hrest.mono le_rfl (by omega)) (by omega) (by omega)

theorem inside_members {members : List (Key × Node)} (h : ∀ m ∈ members, Inside m.2) (offset : ℕ)
    (path : List Text) : Within offset (offset + (Node.membersText members).length)
      (childPlaces path (Node.memberSpots offset members)) := by
  induction members generalizing offset with
  | nil => exact within_nil ..
  | cons m members ih =>
    obtain ⟨key, node⟩ := m
    rw [List.forall_mem_cons] at h
    have hrest := ih h.2 (offset + (Node.memberText (key, node)).length + 1)
    have hnode : Inside node := h.1
    have hvalue := hnode (offset + key.text.length + 1) (some (offset + key.before.length))
      (path ++ [key.name])
    have hmember : (Node.memberText (key, node)).length = key.text.length + 1 + node.text.length := by
      simp only [Node.memberText, List.length_append, List.length_cons]
      omega
    have hlength : (Node.memberText (key, node)).length + (Node.membersText members).length +
        (Node.comma members).length = (Node.membersText ((key, node) :: members)).length := by
      simp only [Node.membersText, List.length_append]
      omega
    rw [Node.memberSpots, childPlaces, Node.memberSpot, LabelledTree.labelPlaces]
    cases members with
    | nil =>
      rw [Node.memberSpots, childPlaces, List.append_nil]
      exact hvalue.mono (by omega) (by omega)
    | cons next members =>
      have hcomma : (Node.comma (next :: members)).length = 1 := rfl
      exact (hvalue.mono (by omega) (by omega)).append (hrest.mono le_rfl (by omega))
        (by omega) (by omega)

theorem inside {node : Node} (h : node.Valid) : Inside node := by
  induction node using Node.nested_induction with
  | primitive before body after =>
    intro offset key path
    rw [Node.Valid] at h
    have hbody := List.length_pos_of_ne_nil (primitive_units h.2.1).1
    rw [Node.spots, places, childPlaces]
    refine (within_nil _ _).cons (Nat.le_add_right _ _) ?_
    simp only [Node.text, List.length_append]
    omega
  | string before pieces after =>
    intro offset key path
    rw [Node.spots, places, childPlaces]
    refine (within_nil _ _).cons (Nat.le_add_right _ _) ?_
    simp only [Node.text, stringText, List.length_append, List.length_cons]
    omega
  | array before inner items after ih =>
    intro offset key path
    rw [Node.Valid, Node.itemsValid_iff] at h
    have hitems := inside_items (fun item hm => ih item hm (h.2.2.1 item hm))
      (offset + before.length + 1 + (if items.isEmpty then inner else []).length) 0 path
    rw [Node.spots, places]
    refine (hitems.mono ?_ ?_).cons (Nat.le_add_right _ _) ?_
    · exact Nat.le_add_right _ _
    all_goals
      simp only [Node.text, List.length_append, List.length_cons]
      omega
  | object before inner members after ih =>
    intro offset key path
    rw [Node.Valid, Node.membersValid_iff] at h
    have hmembers := inside_members (fun m hm => ih m hm (h.2.2.1 m hm).2)
      (offset + before.length + 1 + (if members.isEmpty then inner else []).length) path
    rw [Node.spots, places]
    refine (hmembers.mono ?_ ?_).cons (Nat.le_add_right _ _) ?_
    · exact Nat.le_add_right _ _
    all_goals
      simp only [Node.text, List.length_append, List.length_cons]
      omega

/-! ### The value that is parsed -/

theorem digits_injective : Function.Injective digits := by
  intro m n h
  have hcode : Function.Injective code := fun c d hcd => Char.toNat_inj.1 hcd
  have hchars := hcode.list_map h
  exact Nat.repr_injective (String.toList_inj.1 hchars)

theorem itemSpots_labels (offset position : ℕ) (items : List Node) :
    (Node.itemSpots offset position items).map Prod.fst =
      (List.range' position items.length).map digits := by
  induction items generalizing offset position with
  | nil => rfl
  | cons item items ih =>
    rw [Node.itemSpots, List.map_cons, ih, List.length_cons, List.range'_succ, List.map_cons]

theorem itemSpots_nodup (offset position : ℕ) (items : List Node) :
    ((Node.itemSpots offset position items).map Prod.fst).Nodup := by
  rw [itemSpots_labels]
  exact (List.nodup_range' ..).map digits_injective

theorem memberSpots_labels (offset : ℕ) (members : List (Key × Node)) :
    (Node.memberSpots offset members).map Prod.fst = members.map fun m => m.1.name := by
  induction members generalizing offset with
  | nil => rfl
  | cons m members ih =>
    obtain ⟨key, node⟩ := m
    rw [Node.memberSpots, List.map_cons, ih, List.map_cons, Node.memberSpot]

theorem itemsDistinct_iff {items : List Node}
    (h : ∀ item ∈ items, ∀ offset key, (item.spots offset key).Distinct ↔ item.Distinct)
    (offset position : ℕ) :
    LabelledTree.ChildrenDistinct (Node.itemSpots offset position items) ↔
      Node.ItemsDistinct items := by
  induction items generalizing offset position with
  | nil => exact Iff.rfl
  | cons item items ih =>
    rw [List.forall_mem_cons] at h
    rw [Node.itemSpots, LabelledTree.ChildrenDistinct, LabelledTree.ChildDistinct, h.1, ih h.2,
      Node.ItemsDistinct]

theorem membersDistinct_iff {members : List (Key × Node)}
    (h : ∀ m ∈ members, ∀ offset key, (m.2.spots offset key).Distinct ↔ m.2.Distinct)
    (offset : ℕ) : LabelledTree.ChildrenDistinct (Node.memberSpots offset members) ↔
      Node.MembersDistinct members := by
  induction members generalizing offset with
  | nil => exact Iff.rfl
  | cons m members ih =>
    obtain ⟨key, node⟩ := m
    rw [List.forall_mem_cons] at h
    rw [Node.memberSpots, Node.memberSpot, LabelledTree.ChildrenDistinct,
      LabelledTree.ChildDistinct, h.1, ih h.2, Node.MembersDistinct, Node.MemberDistinct]

theorem distinct_spots (node : Node) (offset : ℕ) (key : Option ℕ) :
    (node.spots offset key).Distinct ↔ node.Distinct := by
  induction node using Node.nested_induction generalizing offset key with
  | primitive before body after =>
    simp [Node.spots, LabelledTree.Distinct, LabelledTree.ChildrenDistinct, Node.Distinct]
  | string before pieces after =>
    simp [Node.spots, LabelledTree.Distinct, LabelledTree.ChildrenDistinct, Node.Distinct]
  | array before inner items after ih =>
    rw [Node.spots, LabelledTree.Distinct, Node.Distinct, itemsDistinct_iff ih]
    exact and_iff_right (itemSpots_nodup ..)
  | object before inner members after ih =>
    rw [Node.spots, LabelledTree.Distinct, Node.Distinct, membersDistinct_iff ih,
      memberSpots_labels]

def valueAt (place : List Text × Spot) : List Text × Value := (place.1, place.2.source.parse)

theorem taken_items {items : List Node}
    (h : ∀ item ∈ items, ∀ offset key path,
      (taken path (item.spots offset key)).map valueAt = item.parse.entries path)
    (offset position : ℕ) (path : List Text) :
    (childTaken path (Node.itemSpots offset position items)).map valueAt =
      Value.itemEntries path position (Node.parseItems items) := by
  induction items generalizing offset position with
  | nil => rfl
  | cons item items ih =>
    have hnodup := itemSpots_nodup offset position (item :: items)
    rw [Node.itemSpots, List.map_cons, List.nodup_cons] at hnodup
    rw [List.forall_mem_cons] at h
    rw [Node.itemSpots, childTaken, if_neg hnodup.1, LabelledTree.labelTaken, List.map_append,
      h.1, ih h.2, Node.parseItems, Value.itemEntries]

theorem taken_members {members : List (Key × Node)}
    (h : ∀ m ∈ members, ∀ offset key path,
      (taken path (m.2.spots offset key)).map valueAt = m.2.parse.entries path)
    (offset : ℕ) (path : List Text) :
    (childTaken path (Node.memberSpots offset members)).map valueAt =
      Value.memberEntries path (Node.parseMembers members) := by
  induction members generalizing offset with
  | nil => rfl
  | cons m members ih =>
    obtain ⟨key, node⟩ := m
    rw [List.forall_mem_cons] at h
    rw [Node.memberSpots, Node.memberSpot, childTaken, memberSpots_labels, Node.parseMembers]
    split
    · exact ih h.2 _
    · rw [LabelledTree.labelTaken, List.map_append, h.1, ih h.2, Node.parseMember,
        Value.memberEntries, Value.memberEntry]

theorem taken_entries (node : Node) (offset : ℕ) (key : Option ℕ) (path : List Text) :
    (taken path (node.spots offset key)).map valueAt = node.parse.entries path := by
  induction node using Node.nested_induction generalizing offset key path with
  | primitive before body after => rfl
  | string before pieces after => rfl
  | array before inner items after ih =>
    rw [Node.spots, taken, List.map_cons, taken_items ih, valueAt, Node.parse, Value.entries]
  | object before inner members after ih =>
    rw [Node.spots, taken, List.map_cons, taken_members ih, valueAt, Node.parse, Value.entries]

/-! ### The tokens of the places -/

/-- At the offset of a place the text holds the node it is of, after its whitespace. -/
def TokenAt (text : Text) (place : List Text × Spot) : Prop :=
  ∃ left right, text = left ++ (place.2.source.text ++ right) ∧
    place.2.value = left.length + place.2.source.before.length

def Tokens (node : Node) : Prop := ∀ (left right : Text) (key : Option ℕ) (path : List Text),
  ∀ place ∈ places path (node.spots left.length key), TokenAt (left ++ (node.text ++ right)) place

theorem tokens_items {items : List Node} (h : ∀ item ∈ items, Tokens item)
    (left right : Text) (position : ℕ) (path : List Text) :
    ∀ place ∈ childPlaces path (Node.itemSpots left.length position items),
      TokenAt (left ++ (Node.itemsText items ++ right)) place := by
  induction items generalizing left position with
  | nil => exact fun place hp => absurd hp List.not_mem_nil
  | cons item items ih =>
    intro place hp
    rw [List.forall_mem_cons] at h
    rw [Node.itemSpots, childPlaces, LabelledTree.labelPlaces, List.mem_append] at hp
    obtain hp | hp := hp
    · have htoken := h.1 left (Node.comma items ++ (Node.itemsText items ++ right)) none _ place hp
      simpa only [Node.itemsText, List.append_assoc] using htoken
    · cases items with
      | nil => exact absurd hp List.not_mem_nil
      | cons next items =>
        have hlength : (left ++ (item.text ++ [code ','])).length =
            left.length + item.text.length + 1 := by
          rw [List.length_append, List.length_append, List.length_singleton, Nat.add_assoc]
        rw [← hlength] at hp
        have htoken := ih h.2 _ _ place hp
        have hcomma : Node.comma (next :: items) = [code ','] := rfl
        rw [Node.itemsText, hcomma]
        simpa only [List.append_assoc] using htoken

theorem tokens_members {members : List (Key × Node)} (h : ∀ m ∈ members, Tokens m.2)
    (left right : Text) (path : List Text) :
    ∀ place ∈ childPlaces path (Node.memberSpots left.length members),
      TokenAt (left ++ (Node.membersText members ++ right)) place := by
  induction members generalizing left with
  | nil => exact fun place hp => absurd hp List.not_mem_nil
  | cons m members ih =>
    intro place hp
    obtain ⟨key, node⟩ := m
    rw [List.forall_mem_cons] at h
    rw [Node.memberSpots, Node.memberSpot, childPlaces, LabelledTree.labelPlaces,
      List.mem_append] at hp
    obtain hp | hp := hp
    · have hlength : (left ++ (key.text ++ [code ':'])).length =
          left.length + key.text.length + 1 := by
        rw [List.length_append, List.length_append, List.length_singleton, Nat.add_assoc]
      rw [← hlength] at hp
      have htoken := h.1 _ (Node.comma members ++ (Node.membersText members ++ right)) _ _ place hp
      rw [Node.membersText, Node.memberText]
      simpa only [List.append_assoc, List.cons_append, List.nil_append] using htoken
    · cases members with
      | nil => exact absurd hp List.not_mem_nil
      | cons next members =>
        have hlength : (left ++ (Node.memberText (key, node) ++ [code ','])).length =
            left.length + (Node.memberText (key, node)).length + 1 := by
          rw [List.length_append, List.length_append, List.length_singleton, Nat.add_assoc]
        rw [← hlength] at hp
        have htoken := ih h.2 _ place hp
        have hcomma : Node.comma (next :: members) = [code ','] := rfl
        rw [Node.membersText, hcomma]
        simpa only [List.append_assoc] using htoken

theorem tokens (node : Node) : Tokens node := by
  induction node using Node.nested_induction with
  | primitive before body after =>
    intro left right key path place hp
    rw [Node.spots, places, childPlaces, List.mem_singleton] at hp
    subst hp
    exact ⟨left, right, rfl, rfl⟩
  | string before pieces after =>
    intro left right key path place hp
    rw [Node.spots, places, childPlaces, List.mem_singleton] at hp
    subst hp
    exact ⟨left, right, rfl, rfl⟩
  | array before inner items after ih =>
    intro left right key path place hp
    rw [Node.spots, places, List.mem_cons] at hp
    obtain rfl | hp := hp
    · exact ⟨left, right, rfl, rfl⟩
    · have hlength : (left ++ (before ++ code '[' :: (if items.isEmpty then inner else []))).length =
          left.length + before.length + 1 + (if items.isEmpty then inner else []).length := by
        rw [List.length_append, List.length_append, List.length_cons]
        omega
      rw [← hlength] at hp
      have htoken := tokens_items ih _ (after ++ right) _ _ place hp
      rw [Node.text]
      simpa only [List.append_assoc, List.cons_append] using htoken
  | object before inner members after ih =>
    intro left right key path place hp
    rw [Node.spots, places, List.mem_cons] at hp
    obtain rfl | hp := hp
    · exact ⟨left, right, rfl, rfl⟩
    · have hlength :
          (left ++ (before ++ code '\x7b' :: (if members.isEmpty then inner else []))).length =
            left.length + before.length + 1 + (if members.isEmpty then inner else []).length := by
        rw [List.length_append, List.length_append, List.length_cons]
        omega
      rw [← hlength] at hp
      have htoken := tokens_members ih _ (after ++ right) _ place hp
      rw [Node.text]
      simpa only [List.append_assoc, List.cons_append] using htoken

/-! ### The nearest pointer of the index -/

theorem parentPointer_length {candidate : Text} (h : candidate ≠ []) :
    (parentPointer candidate).length < candidate.length := by
  have hdrop := (List.dropWhile_sublist (l := candidate.reverse) fun u => u ≠ code '/').length_le
  have hpos := List.length_pos_of_ne_nil h
  rw [List.length_reverse] at hdrop
  rw [parentPointer, List.length_reverse, List.length_tail]
  omega

theorem nearest_steps (index : Index) (prefer : Prefer) {steps : ℕ} {candidate : Text}
    (h : candidate.length < steps) :
    nearest index prefer steps candidate = locateJsonPointer index candidate prefer := by
  induction hn : candidate.length using Nat.strong_induction_on generalizing steps candidate with
  | _ n ih =>
    obtain ⟨k, rfl⟩ : ∃ k, steps = k + 1 := ⟨steps - 1, by omega⟩
    rw [locateJsonPointer, nearest, nearest]
    cases index.lookup candidate with
    | some entry => rfl
    | none =>
      by_cases hnil : candidate = []
      · rw [if_pos hnil, if_pos hnil]
      · have hlength := parentPointer_length hnil
        rw [if_neg hnil, if_neg hnil, ih _ (by omega) (by omega) rfl, ih _ (by omega) hlength rfl]

theorem parentPointer_append (path : List Text) (s : Text) :
    parentPointer (jsonPointer (path ++ [s])) = jsonPointer path := by
  have hlast : jsonPointer (path ++ [s]) = jsonPointer path ++ code '/' :: escapeToken s := by
    rw [jsonPointer, List.flatMap_append, List.flatMap_singleton]
    rfl
  have htoken : ∀ u ∈ (escapeToken s).reverse, decide (u ≠ code '/') = true := by
    intro u hu
    rw [decide_eq_true_eq]
    rintro rfl
    exact slash_notMem_escapeToken s (List.mem_reverse.1 hu)
  rw [parentPointer, hlast, List.reverse_append, List.reverse_cons, List.append_assoc,
    List.dropWhile_append_of_pos htoken]
  exact List.reverse_reverse _

/-- A pointer without an entry is located at its nearest ancestor that has one. -/
theorem locateJsonPointer_ancestor (index : Index) (prefer : Prefer) (path rest : List Text)
    (h : ∀ front, front <+: rest → front ≠ [] → index.lookup (jsonPointer (path ++ front)) = none) :
    locateJsonPointer index (jsonPointer (path ++ rest)) prefer =
      locateJsonPointer index (jsonPointer path) prefer := by
  induction rest using List.reverseRecOn with
  | nil => rw [List.append_nil]
  | append_singleton rest s ih =>
    have hnone := h (rest ++ [s]) List.prefix_rfl (List.append_ne_nil_of_right_ne_nil _ (by simp))
    rw [← List.append_assoc] at hnone ⊢
    have hnil : jsonPointer (path ++ rest ++ [s]) ≠ [] := by
      rw [jsonPointer, List.flatMap_append, List.flatMap_singleton]
      exact List.append_ne_nil_of_right_ne_nil _ (List.cons_ne_nil _ _)
    have hlength := parentPointer_length hnil
    rw [locateJsonPointer, nearest, hnone]
    simp only [if_neg hnil]
    rw [nearest_steps index prefer hlength, parentPointer_append]
    exact ih fun front hf hne => h front (hf.trans (List.prefix_append ..)) hne

theorem lookup_jsonPointer (node : Node) (path : List Text) :
    (recordAll node.text [] (places [] (node.spots 0 none))).lookup (jsonPointer path) =
      ((places [] (node.spots 0 none)).find? fun place => place.1 = path).map
        (entryOf node.text) := by
  rw [lookup_recordAll, List.lookup_nil, Option.none_or]
  simp only [jsonPointer_injective.eq_iff]

/-- Where a path ends to lead through a document: at the last of its places. -/
theorem exists_deepest (node : Node) (path : List Text) : ∃ front rest, path = front ++ rest ∧
    (∃ place ∈ places [] (node.spots 0 none), place.1 = front) ∧
      ∀ more, more <+: rest → more ≠ [] →
        ∀ place ∈ places [] (node.spots 0 none), place.1 ≠ front ++ more := by
  induction path using List.reverseRecOn with
  | nil =>
    refine ⟨[], [], rfl, ?_, fun more hm hne => absurd (List.prefix_nil.1 hm) hne⟩
    cases node <;> exact ⟨_, List.mem_cons_self .., rfl⟩
  | append_singleton path s ih =>
    by_cases hlast : ∃ place ∈ places [] (node.spots 0 none), place.1 = path ++ [s]
    · exact ⟨path ++ [s], [], (List.append_nil _).symm, hlast,
        fun more hm hne => absurd (List.prefix_nil.1 hm) hne⟩
    · obtain ⟨front, rest, rfl, hfront, hrest⟩ := ih
      refine ⟨front, rest ++ [s], List.append_assoc .., hfront, fun more hm hne place hp heq => ?_⟩
      rcases List.prefix_concat_iff.1 hm with rfl | hm
      · exact hlast ⟨place, hp, by rw [heq, List.append_assoc]⟩
      · exact hrest more hm hne place hp heq

/-- A pointer is located at the token of the deepest value on its path, of several members of one
name in the first; a key is located at its own token. -/
theorem locateJsonPointer_deepest {node : Node} (h : node.Valid) (path : List Text) :
    ∃ index place, indexJsonPointers node.text = some index ∧
      ((places [] (node.spots 0 none)).find? fun other => other.1 = place.1) = some place ∧
      place.1 <+: path ∧
      (∀ other ∈ places [] (node.spots 0 none), other.1 <+: path → other.1 <+: place.1) ∧
      TokenAt node.text place ∧ ∀ prefer, locateJsonPointer index (jsonPointer path) prefer =
        offsetToPosition node.text
          (if prefer = .key then place.2.key.getD place.2.value else place.2.value) := by
  obtain ⟨front, rest, rfl, ⟨place, hp, hpath⟩, hrest⟩ := exists_deepest node path
  have hsome : ((places [] (node.spots 0 none)).find? fun place => place.1 = front).isSome :=
    List.find?_isSome.2 ⟨place, hp, decide_eq_true hpath⟩
  obtain ⟨first, hfirst⟩ := Option.isSome_iff_exists.1 hsome
  have hfront : first.1 = front := by simpa using List.find?_some hfirst
  subst hfront
  refine ⟨_, first, indexJsonPointers_text h, hfirst, List.prefix_append .., ?_, ?_, ?_⟩
  · intro other hother hprefix
    rcases List.prefix_or_prefix_of_prefix hprefix (List.prefix_append first.1 rest) with hle | hle
    · exact hle
    · obtain ⟨more, heq⟩ := hle
      by_cases hnil : more = []
      · rw [← heq, hnil, List.append_nil]
      · rw [← heq, List.prefix_append_right_inj] at hprefix
        exact absurd heq.symm (hrest more hprefix hnil other hother)
  · have htoken := tokens node [] [] none [] first (List.mem_of_find?_eq_some hfirst)
    simpa using htoken
  · intro prefer
    rw [locateJsonPointer_ancestor]
    · rw [locateJsonPointer, nearest, lookup_jsonPointer, hfirst]
      simp only [Option.map_some, entryOf]
      split <;> rfl
    · intro more hm hne
      rw [lookup_jsonPointer, Option.map_eq_none_iff, List.find?_eq_none]
      intro other hother
      rw [decide_eq_true_eq]
      exact hrest more hm hne other hother

/-- `{"a":null}`. -/
def memberDocument : Node :=
  .object [] [] [(⟨[], [.plain (code 'a')], []⟩, .primitive [] (units ['n', 'u', 'l', 'l']) [])] []

theorem locateJsonPointer_deepest_member : ∃ index place,
    indexJsonPointers memberDocument.text = some index ∧
      ((places [] (memberDocument.spots 0 none)).find? fun other => other.1 = place.1) =
        some place ∧
      place.1 <+: [units ['a'], units ['b']] ∧
      (∀ other ∈ places [] (memberDocument.spots 0 none),
        other.1 <+: [units ['a'], units ['b']] → other.1 <+: place.1) ∧
      TokenAt memberDocument.text place ∧ ∀ prefer,
        locateJsonPointer index (jsonPointer [units ['a'], units ['b']]) prefer =
          offsetToPosition memberDocument.text
            (if prefer = .key then place.2.key.getD place.2.value else place.2.value) := by
  have hblank : Blank [] := fun u hu => absurd hu List.not_mem_nil
  have hnull : IsPrimitive (units ['n', 'u', 'l', 'l']) := ⟨_, rfl, .inl (by decide)⟩
  have hkey : Key.Valid ⟨[], [.plain (code 'a')], []⟩ := ⟨hblank, by decide, hblank⟩
  have hvalid : memberDocument.Valid := by
    simp only [memberDocument, Node.Valid, Node.MembersValid, Node.MemberValid]
    exact ⟨hblank, hblank, ⟨⟨hkey, hblank, hnull, hblank⟩, trivial⟩, hblank⟩
  exact locateJsonPointer_deepest hvalid [units ['a'], units ['b']]

/-! ### Where the index agrees with the parse -/

/-- The index has an entry for the pointers of the value that is parsed, and for these only, each
with the position of the token that the value is taken from. -/
structure Located (node : Node) (index : Index) : Prop where
  pointers : ∀ pointer, (index.lookup pointer).isSome = true ↔
    ∃ entry ∈ node.parse.entries [], jsonPointer entry.1 = pointer
  values : ∀ place ∈ taken [] (node.spots 0 none), ∃ entry,
    index.lookup (jsonPointer place.1) = some entry ∧
      entry.value = offsetToPosition node.text place.2.value

theorem lookup_places (node : Node) (pointer : Text) :
    (recordAll node.text [] (places [] (node.spots 0 none))).lookup pointer =
      ((places [] (node.spots 0 none)).find? fun place => jsonPointer place.1 = pointer).map
        (entryOf node.text) := lookup_recordAll ..

theorem located_of_distinct {node : Node} (h : node.Distinct) :
    Located node (recordAll node.text [] (places [] (node.spots 0 none))) := by
  have hdistinct := (distinct_spots node 0 none).2 h
  have htaken := LabelledTree.taken_of_distinct hdistinct []
  constructor
  · intro pointer
    rw [lookup_places, Option.isSome_map, List.find?_isSome, ← taken_entries node 0 none, htaken]
    simp only [decide_eq_true_eq, List.mem_map]
    constructor
    · rintro ⟨place, hp, he⟩
      exact ⟨valueAt place, ⟨place, hp, rfl⟩, he⟩
    · rintro ⟨entry, ⟨place, hp, rfl⟩, he⟩
      exact ⟨place, hp, he⟩
  · intro place hp
    rw [htaken] at hp
    have hfound : ((places [] (node.spots 0 none)).find? fun other =>
        jsonPointer other.1 = jsonPointer place.1).isSome = true :=
      List.find?_isSome.2 ⟨place, hp, decide_eq_true rfl⟩
    obtain ⟨other, ho⟩ := Option.isSome_iff_exists.1 hfound
    have hpointer : jsonPointer other.1 = jsonPointer place.1 := by
      have hsome := List.find?_some ho
      exact of_decide_eq_true hsome
    have hsame : other = place := List.inj_on_of_nodup_map
      (LabelledTree.nodup_paths hdistinct []) (List.mem_of_find?_eq_some ho) hp
      (jsonPointer_injective hpointer)
    exact ⟨entryOf node.text place, by rw [lookup_places, ho, hsame, Option.map_some], rfl⟩

theorem first_le {all : List (List Text × Spot)}
    (hall : all.Pairwise fun p q => p.2.value < q.2.value) {first place : List Text × Spot}
    {test : List Text × Spot → Bool} (hf : all.find? test = some first) (hp : place ∈ all)
    (ht : test place = true) : first.2.value ≤ place.2.value := by
  obtain ⟨-, left, right, rfl, hleft⟩ := List.find?_eq_some_iff_append.1 hf
  obtain hp | hp := List.mem_append.1 hp
  · have hnot := hleft place hp
    rw [ht] at hnot
    cases hnot
  · obtain rfl | hp := List.mem_cons.1 hp
    · exact le_rfl
    · have hright := (List.pairwise_append.1 hall).2.1
      exact ((List.pairwise_cons.1 hright).1 place hp).le

theorem not_located_of_repeated {node : Node} (hv : node.Valid) (h : ¬ node.Distinct) :
    ¬ Located node (recordAll node.text [] (places [] (node.spots 0 none))) := by
  intro hl
  have hrepeated := mt (distinct_spots node 0 none).1 h
  obtain ⟨path, early, late, hs, ht⟩ := LabelledTree.exists_earlier hrepeated []
  have hinside := inside hv 0 none []
  have hbefore : early.value < late.value :=
    List.rel_of_pairwise_cons (hinside.increasing.sublist hs) (List.mem_singleton_self _)
  have hearly : (path, early) ∈ places [] (node.spots 0 none) := hs.subset (List.mem_cons_self ..)
  have hlate : (path, late) ∈ places [] (node.spots 0 none) :=
    hs.subset (List.mem_cons_of_mem _ (List.mem_singleton_self _))
  obtain ⟨entry, hlookup, hvalue⟩ := hl.values (path, late) ht
  rw [lookup_places, Option.map_eq_some_iff] at hlookup
  obtain ⟨first, hfirst, rfl⟩ := hlookup
  have hle := first_le hinside.increasing hfirst hearly (decide_eq_true rfl)
  have hfirstBound := (hinside.bounds first (List.mem_of_find?_eq_some hfirst)).2
  have hlateBound := (hinside.bounds (path, late) hlate).2
  have hsame : first.2.value = late.value := by
    refine offsetToPosition_inj ?_ ?_ hvalue
    · omega
    · rw [Nat.zero_add] at hlateBound
      exact hlateBound.le
  have hlast : late.value ≤ early.value := hsame ▸ hle
  exact absurd hbefore (not_lt.2 hlast)

/-- A valid text is indexed; the index agrees with the parse iff no object repeats a name. -/
theorem indexJsonPointers_located_iff (node : Node) (h : node.Valid) :
    (∃ index, indexJsonPointers node.text = some index ∧ Located node index) ↔ node.Distinct := by
  rw [indexJsonPointers_text h]
  constructor
  · rintro ⟨index, hi, hl⟩
    rw [Option.some.injEq] at hi
    subst hi
    by_contra hd
    exact not_located_of_repeated h hd hl
  · exact fun hd => ⟨_, rfl, located_of_distinct hd⟩

/-- `[true,{"a~/":null}]`. -/
def nestedDocument : Node :=
  .array [] [] [.primitive [] (units ['t', 'r', 'u', 'e']) [],
    .object [] [] [(⟨[], [.plain (code 'a'), .plain (code '~'), .plain (code '/')], []⟩,
      .primitive [] (units ['n', 'u', 'l', 'l']) [])] []] []

theorem indexJsonPointers_located_nested :
    (∃ index, indexJsonPointers nestedDocument.text = some index ∧
      Located nestedDocument index) ∧ nestedDocument.Distinct := by
  have hvalid : nestedDocument.Valid := by
    have hblank : Blank [] := fun u hu => absurd hu List.not_mem_nil
    have htrue : IsPrimitive (units ['t', 'r', 'u', 'e']) := ⟨_, rfl, .inl (by decide)⟩
    have hnull : IsPrimitive (units ['n', 'u', 'l', 'l']) := ⟨_, rfl, .inl (by decide)⟩
    have hpieces : ∀ p ∈ [Piece.plain (code 'a'), .plain (code '~'), .plain (code '/')],
        p.Valid := by decide
    have hkey : Key.Valid ⟨[], [.plain (code 'a'), .plain (code '~'), .plain (code '/')], []⟩ :=
      ⟨hblank, hpieces, hblank⟩
    simp only [nestedDocument, Node.Valid, Node.ItemsValid, Node.MembersValid, Node.MemberValid]
    exact ⟨hblank, hblank, ⟨⟨hblank, htrue, hblank⟩,
      ⟨hblank, hblank, ⟨⟨hkey, hblank, hnull, hblank⟩, trivial⟩, hblank⟩, trivial⟩, hblank⟩
  have hdistinct : nestedDocument.Distinct := by
    simp [nestedDocument, Node.Distinct, Node.ItemsDistinct, Node.MembersDistinct,
      Node.MemberDistinct]
  exact ⟨(indexJsonPointers_located_iff nestedDocument hvalid).2 hdistinct, hdistinct⟩

/-- `{"a":true,"a":null}`. -/
def repeatedDocument : Node :=
  .object [] [] [(⟨[], [.plain (code 'a')], []⟩, .primitive [] (units ['t', 'r', 'u', 'e']) []),
    (⟨[], [.plain (code 'a')], []⟩, .primitive [] (units ['n', 'u', 'l', 'l']) [])] []

/-- `JSON.parse` takes `null` at column 15, the index has `true` at column 6. -/
theorem indexJsonPointers_not_located : repeatedDocument.Valid ∧
    repeatedDocument.parse.entries [] = [([], repeatedDocument.parse),
      ([units ['a']], .primitive (units ['n', 'u', 'l', 'l']))] ∧
    ¬ ∃ index, indexJsonPointers repeatedDocument.text = some index ∧
      Located repeatedDocument index := by
  have hblank : Blank [] := fun u hu => absurd hu List.not_mem_nil
  have htrue : IsPrimitive (units ['t', 'r', 'u', 'e']) := ⟨_, rfl, .inl (by decide)⟩
  have hnull : IsPrimitive (units ['n', 'u', 'l', 'l']) := ⟨_, rfl, .inl (by decide)⟩
  have hkey : Key.Valid ⟨[], [.plain (code 'a')], []⟩ :=
    ⟨hblank, by decide, hblank⟩
  refine ⟨?_, rfl, ?_⟩
  · simp only [repeatedDocument, Node.Valid, Node.MembersValid, Node.MemberValid]
    exact ⟨hblank, hblank, ⟨⟨hkey, hblank, htrue, hblank⟩, ⟨hkey, hblank, hnull, hblank⟩,
      trivial⟩, hblank⟩
  · rintro ⟨index, hi, hl⟩
    have hindex : indexJsonPointers repeatedDocument.text =
        some [([], ⟨⟨1, 1⟩, ⟨1, 1⟩⟩), (units ['/', 'a'], ⟨⟨1, 6⟩, ⟨1, 2⟩⟩)] := by decide +kernel
    rw [hindex, Option.some.injEq] at hi
    subst hi
    obtain ⟨entry, he, hvalue⟩ := hl.values
      ([units ['a']], ⟨14, some 10, .primitive [] (units ['n', 'u', 'l', 'l']) []⟩)
      (List.mem_cons_of_mem _ (List.mem_singleton_self _))
    have hfound : entry = ⟨⟨1, 6⟩, ⟨1, 2⟩⟩ := Option.some.inj (he.symm.trans (by decide +kernel))
    have hposition : offsetToPosition repeatedDocument.text 14 = ⟨1, 15⟩ := by decide +kernel
    rw [hfound, hposition] at hvalue
    cases hvalue

end FilamentCore.Compiler.JsonLocus
