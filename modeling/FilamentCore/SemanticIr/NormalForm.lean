import FilamentCore.SemanticIr.Assignment
import FilamentCore.SemanticIr.NumberLayout
import FilamentCore.SemanticIr.ReaderDocument

/-!
# What a canonical form reads as (crates/semantic-ir/src/json.rs)

The canonical form of a value is JSON, and spells its normal form: each member once, in order, and
each number by its text.
-/

namespace FilamentCore.SemanticIr
open FilamentCore.Library
open Grammar

namespace Number

theorem reads (n : Number) : readNumber n.lexeme = some n.value := (Option.some_get n.valid).symm

theorem exists_round (n : Number) : ∃ x, binary64 x = some n.value := by
  have h := n.reads
  rw [readNumber] at h
  split at h
  · obtain ⟨q, -, hq⟩ := Option.bind_eq_some_iff.1 h
    exact ⟨-q, hq⟩
  · obtain ⟨q, -, hq⟩ := Option.bind_eq_some_iff.1 h
    exact ⟨q, hq⟩

theorem text_reads (n : Number) :
    readNumber (String.ofList (ecmaNumberToString n.value)) = some n.value ∧
      NumberText (ecmaNumberToString n.value) := by
  obtain ⟨x, hx⟩ := n.exists_round
  exact ecmaNumberToString_reads hx

def normal (n : Number) : Number where
  lexeme := String.ofList (ecmaNumberToString n.value)
  valid := by rw [n.text_reads.1, Option.isSome_some]

theorem normal_value (n : Number) : n.normal.value = n.value := by
  have h := n.normal.reads
  rw [normal, n.text_reads.1, Option.some.injEq] at h
  exact h.symm

end Number

namespace Json

/-! ### The normal form -/

mutual

def normal : Json → Json
  | number n => number n.normal
  | array items => array (normalItems items)
  | object members => object (sortedMembers (normalMembers members))
  | value => value

def normalItems : List Json → List Json
  | [] => []
  | item :: items => normal item :: normalItems items

def normalMembers : List (String × Json) → List (String × Json)
  | [] => []
  | m :: members => normalMember m :: normalMembers members

def normalMember : String × Json → String × Json
  | (name, value) => (name, normal value)

end

theorem normalItems_eq (items : List Json) : normalItems items = items.map normal := by
  induction items with
  | nil => rw [normalItems, List.map_nil]
  | cons item items ih => rw [normalItems, ih, List.map_cons]

theorem normalMembers_eq (members : List (String × Json)) :
    normalMembers members = members.map fun m => (m.1, normal m.2) := by
  induction members with
  | nil => rw [normalMembers, List.map_nil]
  | cons m members ih => rw [normalMembers, normalMember, ih, List.map_cons]

theorem normal_array (items : List Json) : normal (array items) = array (items.map normal) := by
  rw [normal, normalItems_eq]

theorem normal_object (members : List (String × Json)) : normal (object members) =
    object ((sortedMembers members).map fun m => (m.1, normal m.2)) := by
  rw [normal, normalMembers_eq, sortedMembers_map fun _ value => normal value]

theorem canonical_object_map (members : List (String × Json)) : canonical (object members) =
    '\x7b' :: commaSeparated ((sortedMembers members).map fun m =>
      writeString m.1 ++ ':' :: canonical m.2) ++ ['\x7d'] := by
  rw [canonical_object, canonicalMembers_eq, sortedMembers_map fun _ value => canonical value,
    List.map_map]
  rfl

/-! ### Strings -/

theorem hexDigit_spells {n : ℕ} (hn : n < 16) : HexDigit (hexDigit n) n := by
  rw [hexDigit]
  split
  · rename_i h
    exact .digit n h
  · rename_i h
    obtain ⟨k, rfl⟩ := Nat.exists_eq_add_of_le (not_lt.1 h)
    rw [show 87 + (10 + k) = 97 + k by omega]
    exact .lower k (by omega)

theorem escapeChar_spells (c : Char) : CharText (escapeChar c) c := by
  unfold escapeChar
  split_ifs with hquote hslash hback hform hline hreturn htab hcontrol
  · rw [hquote]
    exact .escaped (by decide)
  · rw [hslash]
    exact .escaped (by decide)
  · rw [hback]
    exact .escaped (by decide)
  · rw [hform]
    exact .escaped (by decide)
  · rw [hline]
    exact .escaped (by decide)
  · rw [hreturn]
    exact .escaped (by decide)
  · rw [htab]
    exact .escaped (by decide)
  · refine .unicode ⟨'0', '0', _, _, 0, 0, c.toNat / 16, c.toNat % 16, rfl, .digit 0 (by omega),
      .digit 0 (by omega), hexDigit_spells (by omega), hexDigit_spells (by omega), ?_⟩
    omega
  · exact .unescaped (by omega) hquote hslash

theorem writeString_spells (text : String) : StringText (writeString text) text := by
  refine ⟨text.toList.flatMap escapeChar, ?_, rfl⟩
  induction text.toList with
  | nil => exact .nil
  | cons c cs ih =>
    rw [List.flatMap_cons]
    exact .cons (escapeChar_spells c) ih

/-! ### Arrays and objects -/

theorem commaSeparated_flatMap (t : List Char) (ts : List (List Char)) :
    commaSeparated (t :: ts) = t ++ ts.flatMap fun u => ',' :: u := by
  induction ts generalizing t with
  | nil => rw [commaSeparated, List.flatMap_nil, List.append_nil]
  | cons u us ih => rw [commaSeparated_cons, ih, List.flatMap_cons, List.cons_append]

theorem blank_nil : Blank [] := fun _ hc => absurd hc List.not_mem_nil

theorem spells_items {items : List Json}
    (h : ∀ item ∈ items, Spells (canonical item) (.value (normal item))) :
    Spells ((items.map canonical).flatMap (fun u => ',' :: u) ++ [']'])
      (.items (items.map normal)) := by
  induction items with
  | nil => exact .lastItem blank_nil
  | cons item items ih =>
    have hnext := Spells.nextItem blank_nil blank_nil (h item (.head _))
      (ih fun other ho => h other (.tail _ ho))
    rw [List.nil_append, List.nil_append] at hnext
    rw [List.map_cons, List.flatMap_cons, List.map_cons, List.append_assoc, List.cons_append]
    exact hnext

theorem spells_array {items : List Json}
    (h : ∀ item ∈ items, Spells (canonical item) (.value (normal item))) :
    Spells (canonical (array items)) (.value (normal (array items))) := by
  rw [canonical_array, normal_array]
  cases items with
  | nil => exact .emptyArray blank_nil
  | cons item items =>
    have hrest := spells_items fun other ho => h other (.tail _ ho)
    have harray := Spells.array blank_nil (h item (.head _)) hrest
    rw [List.nil_append] at harray
    rw [List.map_cons, commaSeparated_flatMap, List.cons_append, List.append_assoc]
    exact harray

def memberText (m : String × Json) : List Char := writeString m.1 ++ ':' :: canonical m.2

theorem spells_members {members : List (String × Json)}
    (h : ∀ m ∈ members, Spells (canonical m.2) (.value (normal m.2))) :
    Spells ((members.map memberText).flatMap (fun u => ',' :: u) ++ ['\x7d'])
      (.members (members.map fun m => (m.1, normal m.2))) := by
  induction members with
  | nil => exact .lastMember blank_nil
  | cons m members ih =>
    have hnext := Spells.nextMember blank_nil blank_nil (writeString_spells m.1) blank_nil
      blank_nil (h m (.head _)) (ih fun other ho => h other (.tail _ ho))
    simp only [List.nil_append, List.append_nil] at hnext
    rw [List.map_cons, List.flatMap_cons, List.map_cons, memberText, List.append_assoc,
      List.cons_append, List.append_assoc, List.cons_append]
    exact hnext

theorem spells_object {members : List (String × Json)}
    (h : ∀ m ∈ members, Spells (canonical m.2) (.value (normal m.2))) :
    Spells ('\x7b' :: commaSeparated (members.map memberText) ++ ['\x7d'])
      (.value (object (members.map fun m => (m.1, normal m.2)))) := by
  cases members with
  | nil => exact .emptyObject blank_nil
  | cons m members =>
    have hrest := spells_members fun other ho => h other (.tail _ ho)
    have hobject := Spells.object blank_nil (writeString_spells m.1) blank_nil blank_nil
      (h m (.head _)) hrest
    simp only [List.nil_append, List.append_nil] at hobject
    rw [List.map_cons, commaSeparated_flatMap, List.map_cons, memberText, List.cons_append,
      List.append_assoc, List.append_assoc, List.cons_append]
    exact hobject

/-! ### The round trip -/

theorem spells_canonical (v : Json) : Spells (canonical v) (.value (normal v)) := by
  induction v using nested_induction with
  | null => exact .null
  | bool b =>
    cases b with
    | true => exact .true
    | false => exact .false
  | number n =>
    have h := Spells.number (n := n.normal)
    rw [Number.normal, String.toList_ofList] at h
    rw [canonical, normal]
    exact h n.text_reads.2
  | str text => exact .str (writeString_spells text)
  | array items ih => exact spells_array ih
  | object members ih =>
    rw [canonical_object_map, normal_object]
    exact spells_object fun m hm => ih m (mem_of_lookup (lookup_of_sorted hm))

theorem jsonText_canonical {v w : Json} : JsonText (canonical v) w ↔ w = normal v := by
  have h : JsonText (canonical v) (normal v) :=
    ⟨[], canonical v, [], blank_nil, spells_canonical v, blank_nil, by simp⟩
  constructor
  · exact fun hw => jsonText_unique hw h
  · rintro rfl
    exact h

/-! ### The members of a normal form -/

theorem nodup_sortedMembers (members : List (String × Json)) :
    ((sortedMembers members).map Prod.fst).Nodup := by
  obtain ⟨hn, -⟩ := resolvedMembers_spec members
  exact ((List.perm_insertionSort _ _).map _).nodup_iff.2 hn

theorem lookup_sortedMembers (key : String) (members : List (String × Json)) :
    lookup key (sortedMembers members) = lookup key members := by
  have hp : (sortedMembers members).reverse.Perm (resolvedMembers members) :=
    (List.reverse_perm _).trans (List.perm_insertionSort _ _)
  obtain ⟨hnodup, hfirst⟩ := resolvedMembers_spec members
  rw [lookup_eq_first, lookup_eq_first, ← Keyed.first_perm hnodup hp.symm, hfirst]

def normalOf (members : List (String × Json)) : List (String × Json) :=
  (sortedMembers members).map fun m => (m.1, normal m.2)

theorem lookup_normalOf (key : String) (members : List (String × Json)) :
    lookup key (normalOf members) = (lookup key members).map normal := by
  rw [normalOf, lookup_map key fun _ value => normal value, lookup_sortedMembers]

theorem nodup_normalOf (members : List (String × Json)) :
    ((normalOf members).map Prod.fst).Nodup := by
  rw [normalOf, List.map_map]
  exact nodup_sortedMembers members

theorem canonical_normal (v : Json) : canonical (normal v) = canonical v := by
  induction v using nested_induction with
  | number n => rw [normal, canonical, canonical, n.normal_value]
  | array items ih =>
    have hitems : (items.map normal).map canonical = items.map canonical := by
      rw [List.map_map]
      exact List.map_congr_left ih
    rw [normal_array, canonical_array, canonical_array, hitems]
  | object members ih =>
    rw [normal_object]
    apply canonical_object_eq
    intro key
    change (lookup key (normalOf members)).map canonical = _
    rw [lookup_normalOf, Option.map_map]
    cases hv : lookup key members with
    | none => rfl
    | some value =>
      rw [Option.map_some, Option.map_some, Function.comp_apply, ih _ (mem_of_lookup hv)]
  | _ => rfl

theorem depth_normal (v : Json) : depth (normal v) ≤ depth v := by
  induction v using nested_induction with
  | number n =>
    rw [normal]
    exact le_rfl
  | array items ih =>
    rw [normal_array, depth, depth, depthItems_le]
    intro item hi
    obtain ⟨original, ho, rfl⟩ := List.mem_map.1 hi
    have hle := depthItems_le.1 le_rfl original ho
    have hnormal := ih original ho
    omega
  | object members ih =>
    rw [normal_object, depth, depth, depthMembers_le]
    intro m hm
    obtain ⟨original, ho, rfl⟩ := List.mem_map.1 hm
    have hmem := mem_of_lookup (lookup_of_sorted ho)
    have hle := depthMembers_le.1 le_rfl original hmem
    have hnormal := ih original hmem
    simp only
    omega
  | _ => exact le_rfl

/-! ### Assignments that change nothing -/

theorem resolveMember_of_notMem {resolved : List (String × Json)} {m : String × Json}
    (h : m.1 ∉ resolved.map Prod.fst) : resolveMember resolved m = resolved ++ [m] := by
  induction resolved with
  | nil => rfl
  | cons r rs ih =>
    rw [List.map_cons, List.mem_cons, not_or] at h
    rw [resolveMember, if_neg (Ne.symm h.1), ih h.2, List.cons_append]

theorem resolvedMembers_of_nodup {members : List (String × Json)}
    (hn : (members.map Prod.fst).Nodup) : resolvedMembers members = members := by
  have hfold : ∀ members start : List (String × Json),
      ((start ++ members).map Prod.fst).Nodup →
        members.foldl resolveMember start = start ++ members := by
    intro members
    induction members with
    | nil => exact fun start _ => (List.append_nil start).symm
    | cons m members ih =>
      intro start hn
      have hnot : m.1 ∉ start.map Prod.fst := by
        rw [List.map_append, List.map_cons, List.nodup_append] at hn
        exact fun hm => hn.2.2 _ hm _ (.head _) rfl
      rw [List.foldl_cons, resolveMember_of_notMem hnot]
      have happend := List.append_assoc start [m] members
      rw [ih (start ++ [m]) (by rwa [happend]), happend]
      rfl
  exact hfold members [] hn

theorem resolveMember_self {resolved : List (String × Json)} {m : String × Json}
    (hn : (resolved.map Prod.fst).Nodup) (hm : m ∈ resolved) : resolveMember resolved m = resolved := by
  induction resolved with
  | nil => exact absurd hm List.not_mem_nil
  | cons r rs ih =>
    rw [List.map_cons, List.nodup_cons] at hn
    rw [resolveMember]
    obtain rfl | hm := List.mem_cons.1 hm
    · rw [if_pos rfl]
    · have hne : r.1 ≠ m.1 := fun h => hn.1 (h ▸ List.mem_map_of_mem hm)
      rw [if_neg hne, ih hn.2 hm]

theorem setMember_self {name : String} {value : Json} {members : List (String × Json)}
    (hn : (members.map Prod.fst).Nodup) (hv : lookup name members = some value) :
    setMember name value members = members := by
  rw [setMember, resolvedMembers_of_nodup hn]
  exact resolveMember_self hn (mem_of_lookup hv)

theorem mapMember_self {name : String} {f : Json → Json} {members : List (String × Json)}
    (hn : (members.map Prod.fst).Nodup)
    (hf : ∀ items, lookup name members = some (array items) → ∀ item ∈ items, f item = item) :
    mapMember name f members = members := by
  rw [mapMember]
  split
  · next items hi =>
    have hmap : items.map f = items := by
      have hid := List.map_congr_left (hf items hi)
      rwa [List.map_id'] at hid
    rw [hmap]
    exact setMember_self hn hi
  · rfl

end Json
end FilamentCore.SemanticIr
