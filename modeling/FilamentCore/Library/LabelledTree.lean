import Mathlib.Data.List.Flatten
import Mathlib.Data.List.Nodup
import Mathlib.Data.List.Sublists

/-!
# Trees with labelled children

The places of a tree in the order it is written, each with the labels that lead to it. A label may
repeat among the children of a node; the last child of a label is the one that counts.
-/

namespace FilamentCore.Library

inductive LabelledTree (α β : Type) where
  | node (payload : β) (children : List (α × LabelledTree α β))

namespace LabelledTree

variable {α β : Type}

def payload : LabelledTree α β → β
  | node payload _ => payload

mutual

def places (path : List α) : LabelledTree α β → List (List α × β)
  | node payload children => (path, payload) :: childPlaces path children

def childPlaces (path : List α) : List (α × LabelledTree α β) → List (List α × β)
  | [] => []
  | child :: children => labelPlaces path child ++ childPlaces path children

def labelPlaces (path : List α) : α × LabelledTree α β → List (List α × β)
  | (label, child) => places (path ++ [label]) child

end

theorem childPlaces_eq (path : List α) (children : List (α × LabelledTree α β)) :
    childPlaces path children = children.flatMap fun c => places (path ++ [c.1]) c.2 := by
  induction children with
  | nil => rw [childPlaces, List.flatMap_nil]
  | cons child children ih => rw [childPlaces, labelPlaces, ih, List.flatMap_cons]

example : places [] (node 'a' [(1, node 'b' [])]) = [([], 'a'), ([1], 'b')] := by
  simp [places, childPlaces, labelPlaces]

mutual

/-- No label repeats among the children of any node. -/
def Distinct : LabelledTree α β → Prop
  | node _ children => (children.map Prod.fst).Nodup ∧ ChildrenDistinct children

def ChildrenDistinct : List (α × LabelledTree α β) → Prop
  | [] => True
  | child :: children => ChildDistinct child ∧ ChildrenDistinct children

def ChildDistinct : α × LabelledTree α β → Prop
  | (_, child) => Distinct child

end

theorem childrenDistinct_iff {children : List (α × LabelledTree α β)} :
    ChildrenDistinct children ↔ ∀ c ∈ children, Distinct c.2 := by
  induction children with
  | nil => simp [ChildrenDistinct]
  | cons child children ih =>
    rw [ChildrenDistinct, ih, List.forall_mem_cons, ChildDistinct]

@[elab_as_elim]
theorem nested_induction {motive : LabelledTree α β → Prop} (t : LabelledTree α β)
    (node : ∀ payload children, (∀ c ∈ children, motive c.2) → motive (node payload children)) :
    motive t :=
  @LabelledTree.rec α β motive (fun children => ∀ c ∈ children, motive c.2) (fun c => motive c.2)
    node (fun _ hc => absurd hc List.not_mem_nil)
    (fun _ _ hchild hchildren => List.forall_mem_cons.2 ⟨hchild, hchildren⟩)
    (fun _ _ hchild => hchild) t

/-! ### Paths -/

theorem prefix_of_mem {t : LabelledTree α β} {path : List α} {place : List α × β}
    (h : place ∈ places path t) : path <+: place.1 := by
  induction t using nested_induction generalizing path with
  | node payload children ih =>
    rw [places, childPlaces_eq] at h
    obtain rfl | h := List.mem_cons.1 h
    · exact List.prefix_rfl
    · obtain ⟨c, hc, h⟩ := List.mem_flatMap.1 h
      exact (List.prefix_append path [c.1]).trans (ih c hc h)

theorem label_of_mem {t : LabelledTree α β} {path : List α} {label : α} {place : List α × β}
    (h : place ∈ places (path ++ [label]) t) : place.1[path.length]? = some label := by
  obtain ⟨rest, hr⟩ := prefix_of_mem h
  rw [← hr, List.append_assoc, List.getElem?_append_right le_rfl, Nat.sub_self]
  rfl

theorem nodup_paths {t : LabelledTree α β} (h : Distinct t) (path : List α) :
    ((places path t).map Prod.fst).Nodup := by
  induction t using nested_induction generalizing path with
  | node payload children ih =>
    rw [Distinct, childrenDistinct_iff] at h
    rw [places, childPlaces_eq, List.map_cons, List.nodup_cons, List.map_flatMap]
    constructor
    · intro hm
      obtain ⟨c, -, hm⟩ := List.mem_flatMap.1 hm
      obtain ⟨place, hp, he⟩ := List.mem_map.1 hm
      have hl := label_of_mem hp
      rw [he, List.getElem?_eq_none le_rfl] at hl
      cases hl
    · rw [List.nodup_flatMap]
      refine ⟨fun c hc => ih c hc (h.2 c hc) _, ?_⟩
      refine (List.pairwise_map.1 h.1).imp fun {a b} hne p ha hb => hne ?_
      obtain ⟨x, hx, rfl⟩ := List.mem_map.1 ha
      obtain ⟨y, hy, he⟩ := List.mem_map.1 hb
      have hxl := label_of_mem hx
      rw [← he, label_of_mem hy, Option.some.injEq] at hxl
      exact hxl.symm

theorem flatMap_pair_sublist {γ δ : Type} {f : γ → List δ} {a b : γ} {x y : δ} {l : List γ}
    (h : List.Sublist [a, b] l) (hx : x ∈ f a) (hy : y ∈ f b) : List.Sublist [x, y] (l.flatMap f) := by
  have hpair : List.Sublist [x, y] ([a, b].flatMap f) := by
    rw [List.flatMap_cons, List.flatMap_cons, List.flatMap_nil, List.append_nil]
    exact (List.singleton_sublist.2 hx).append (List.singleton_sublist.2 hy)
  exact hpair.trans (h.flatMap f)

theorem head_mem (t : LabelledTree α β) (path : List α) : (path, t.payload) ∈ places path t := by
  cases t
  rw [places]
  exact List.mem_cons_self ..

/-! ### The last children -/

section Taken

variable [DecidableEq α]

def lastChildren {γ : Type} : List (α × γ) → List (α × γ)
  | [] => []
  | child :: children =>
    if child.1 ∈ children.map Prod.fst then lastChildren children
    else child :: lastChildren children

mutual

/-- The places that only the last child of each label is on the way to. -/
def taken (path : List α) : LabelledTree α β → List (List α × β)
  | node payload children => (path, payload) :: childTaken path children

def childTaken (path : List α) : List (α × LabelledTree α β) → List (List α × β)
  | [] => []
  | child :: children =>
    if child.1 ∈ children.map Prod.fst then childTaken path children
    else labelTaken path child ++ childTaken path children

def labelTaken (path : List α) : α × LabelledTree α β → List (List α × β)
  | (label, child) => taken (path ++ [label]) child

end

theorem childTaken_eq (path : List α) (children : List (α × LabelledTree α β)) :
    childTaken path children =
      (lastChildren children).flatMap fun c => taken (path ++ [c.1]) c.2 := by
  induction children with
  | nil => rw [childTaken, lastChildren, List.flatMap_nil]
  | cons child children ih =>
    rw [childTaken, lastChildren]
    split
    · exact ih
    · rw [labelTaken, ih, List.flatMap_cons]

example : lastChildren [(1, 'a'), (2, 'b'), (1, 'c')] = [(2, 'b'), (1, 'c')] := by
  simp [lastChildren]

theorem lastChildren_of_nodup {γ : Type} {children : List (α × γ)}
    (h : (children.map Prod.fst).Nodup) : lastChildren children = children := by
  induction children with
  | nil => rfl
  | cons child children ih =>
    rw [List.map_cons, List.nodup_cons] at h
    rw [lastChildren, if_neg h.1, ih h.2]

theorem lastChildren_sublist {γ : Type} (children : List (α × γ)) :
    List.Sublist (lastChildren children) children := by
  induction children with
  | nil => exact .slnil
  | cons child children ih =>
    rw [lastChildren]
    split
    · exact ih.cons _
    · exact ih.cons_cons _

theorem exists_last {γ : Type} {label : α} {children : List (α × γ)}
    (h : label ∈ children.map Prod.fst) : ∃ c ∈ lastChildren children, c.1 = label := by
  induction children with
  | nil => exact absurd h List.not_mem_nil
  | cons child children ih =>
    rw [lastChildren]
    by_cases hm : label ∈ children.map Prod.fst
    · obtain ⟨c, hc, he⟩ := ih hm
      refine ⟨c, ?_, he⟩
      split
      · exact hc
      · exact List.mem_cons_of_mem _ hc
    · obtain rfl | hmem := List.mem_cons.1 h
      · exact ⟨child, by rw [if_neg hm]; exact List.mem_cons_self .., rfl⟩
      · exact absurd hmem hm

theorem exists_repeated {γ : Type} {children : List (α × γ)}
    (h : ¬ (children.map Prod.fst).Nodup) :
    ∃ a b, List.Sublist [a, b] children ∧ a.1 = b.1 ∧ b ∈ lastChildren children := by
  induction children with
  | nil => exact absurd List.nodup_nil h
  | cons child children ih =>
    rw [lastChildren]
    by_cases hr : child.1 ∈ children.map Prod.fst
    · obtain ⟨b, hb, he⟩ := exists_last hr
      have hs : List.Sublist [b] children :=
        List.singleton_sublist.2 ((lastChildren_sublist children).subset hb)
      exact ⟨child, b, hs.cons_cons _, he.symm, by rwa [if_pos hr]⟩
    · rw [List.map_cons, List.nodup_cons, not_and] at h
      obtain ⟨a, b, hs, he, hb⟩ := ih (h hr)
      exact ⟨a, b, hs.cons _, he, by rw [if_neg hr]; exact List.mem_cons_of_mem _ hb⟩

/-! ### Distinct labels -/

theorem taken_of_distinct {t : LabelledTree α β} (h : Distinct t) (path : List α) :
    taken path t = places path t := by
  induction t using nested_induction generalizing path with
  | node payload children ih =>
    rw [Distinct, childrenDistinct_iff] at h
    rw [taken, places, childTaken_eq, childPlaces_eq, lastChildren_of_nodup h.1]
    congr 1
    exact List.flatMap_congr fun c hc => ih c hc (h.2 c hc) _

/-! ### Repeated labels -/

theorem head_mem_taken (t : LabelledTree α β) (path : List α) :
    (path, t.payload) ∈ taken path t := by
  cases t
  rw [taken]
  exact List.mem_cons_self ..

/-- Where a label repeats, a place that is taken comes after another one of its path. -/
theorem exists_earlier {t : LabelledTree α β} (h : ¬ Distinct t) (path : List α) :
    ∃ p b c, List.Sublist [(p, b), (p, c)] (places path t) ∧ (p, c) ∈ taken path t := by
  induction t using nested_induction generalizing path with
  | node payload children ih =>
    rw [places, taken, childPlaces_eq, childTaken_eq]
    by_cases hn : (children.map Prod.fst).Nodup
    · rw [Distinct, childrenDistinct_iff, not_and] at h
      have hchild := h hn
      push Not at hchild
      obtain ⟨c, hc, hd⟩ := hchild
      obtain ⟨p, b, d, hs, ht⟩ := ih c hc hd (path ++ [c.1])
      refine ⟨p, b, d, .cons _ (hs.trans ?_), List.mem_cons_of_mem _ ?_⟩
      · exact List.sublist_flatten_of_mem (List.mem_map_of_mem hc)
      · rw [lastChildren_of_nodup hn]
        exact List.mem_flatMap.2 ⟨c, hc, ht⟩
    · obtain ⟨a, b, hs, he, hb⟩ := exists_repeated hn
      refine ⟨path ++ [b.1], a.2.payload, b.2.payload, .cons _ ?_, List.mem_cons_of_mem _ ?_⟩
      · exact flatMap_pair_sublist hs (he ▸ head_mem a.2 _) (head_mem b.2 _)
      · exact List.mem_flatMap.2 ⟨b, hb, head_mem_taken b.2 _⟩

end Taken

end LabelledTree
end FilamentCore.Library
