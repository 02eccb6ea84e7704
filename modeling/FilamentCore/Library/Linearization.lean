import Mathlib.Data.List.Nodup
import Mathlib.Data.List.Sublists
import Mathlib.Logic.Relation

/-!
# C3 linearisation

A merge takes, again and again, the first head that stands in the tail of none of its lists. The
method resolution order of a class merges those of its bases with the list of its bases.
-/

namespace FilamentCore.Library.Linearization

variable {α β : Type*}

section Merge

variable [DecidableEq α]

/-- The head of the first list of `rest` whose head is in the tail of none of `lists`. -/
def candidate (lists : List (List α)) : List (List α) → Option α
  | [] => none
  | [] :: rest => candidate lists rest
  | (x :: _) :: rest =>
    if ∃ l ∈ lists, x ∈ l.tail then candidate lists rest else some x

def dropHead (x : α) (l : List α) : List α :=
  if l.head? = some x then l.tail else l

def mergeFrom : ℕ → List (List α) → Option (List α)
  | 0, lists => if ∀ l ∈ lists, l = [] then some [] else none
  | fuel + 1, lists =>
    match candidate lists lists with
    | none => if ∀ l ∈ lists, l = [] then some [] else none
    | some x => (mergeFrom fuel (lists.map (dropHead x))).map (x :: ·)

/-- The lists in one order, none when every head left is in a tail. -/
def merge (lists : List (List α)) : Option (List α) :=
  mergeFrom lists.flatten.length lists

inductive Merges : List (List α) → List α → Prop
  | done {lists : List (List α)} : (∀ l ∈ lists, l = []) → Merges lists []
  | step {lists : List (List α)} {x : α} {rest : List α} : candidate lists lists = some x →
      Merges (lists.map (dropHead x)) rest → Merges lists (x :: rest)

variable {lists rest : List (List α)} {x : α} {l r order : List α}

/-! ### One step -/

theorem candidate_nil_cons : candidate lists ([] :: rest) = candidate lists rest := rfl

theorem candidate_cons : candidate lists ((x :: l) :: rest) =
    if ∃ m ∈ lists, x ∈ m.tail then candidate lists rest else some x := rfl

theorem candidate_some (h : candidate lists rest = some x) :
    (∃ l ∈ rest, l.head? = some x) ∧ ∀ l ∈ lists, x ∉ l.tail := by
  induction rest with
  | nil => simp [candidate] at h
  | cons first rest ih =>
    cases first with
    | nil =>
      obtain ⟨⟨l, hl, hx⟩, hfree⟩ := ih h
      exact ⟨⟨l, List.mem_cons_of_mem _ hl, hx⟩, hfree⟩
    | cons y tail =>
      rw [candidate] at h
      split at h
      · obtain ⟨⟨l, hl, hx⟩, hfree⟩ := ih h
        exact ⟨⟨l, List.mem_cons_of_mem _ hl, hx⟩, hfree⟩
      · rename_i hfree
        obtain rfl := Option.some.inj h
        refine ⟨⟨_, List.mem_cons_self .., rfl⟩, fun l hl hx => hfree ⟨l, hl, hx⟩⟩

theorem candidate_none (h : candidate lists rest = none) (hl : l ∈ rest) (hx : l.head? = some x) :
    ∃ m ∈ lists, x ∈ m.tail := by
  induction rest with
  | nil => simp at hl
  | cons first rest ih =>
    cases first with
    | nil =>
      rcases List.mem_cons.1 hl with rfl | hl
      · simp at hx
      · exact ih h hl
    | cons y tail =>
      rw [candidate] at h
      split at h
      · rename_i htail
        rcases List.mem_cons.1 hl with rfl | hl
        · obtain rfl : y = x := by simpa using hx
          exact htail
        · exact ih h hl
      · simp at h

theorem candidate_empty (h : ∀ l ∈ rest, l = []) : candidate lists rest = none := by
  induction rest with
  | nil => rfl
  | cons first rest ih =>
    obtain rfl := h first (List.mem_cons_self ..)
    exact ih fun l hl => h l (List.mem_cons_of_mem _ hl)

theorem dropHead_of_eq (h : l.head? = some x) : x :: dropHead x l = l := by
  rw [dropHead, if_pos h]
  exact List.cons_head?_tail h

theorem dropHead_of_ne (h : l.head? ≠ some x) : dropHead x l = l := if_neg h

theorem dropHead_sublist (x : α) (l : List α) : (dropHead x l).Sublist l := by
  unfold dropHead
  split
  · exact List.tail_sublist l
  · exact List.Sublist.refl l

theorem notMem_dropHead (h : x ∉ l.tail) : x ∉ dropHead x l := by
  intro hx
  by_cases hhead : l.head? = some x
  · rw [dropHead, if_pos hhead] at hx
    exact h hx
  · rw [dropHead_of_ne hhead] at hx
    cases l with
    | nil => simp at hx
    | cons y tail =>
      rcases List.mem_cons.1 hx with rfl | hx
      · simp at hhead
      · exact h hx

theorem length_dropHead_le (x : α) (l : List α) : (dropHead x l).length ≤ l.length :=
  (dropHead_sublist x l).length_le

theorem length_dropHeads_le (x : α) (lists : List (List α)) :
    (lists.map (dropHead x)).flatten.length ≤ lists.flatten.length := by
  induction lists with
  | nil => simp
  | cons l lists ih =>
    have hl := length_dropHead_le x l
    simp only [List.map_cons, List.flatten_cons, List.length_append]
    omega

theorem length_dropHeads_lt (hl : l ∈ lists) (hx : l.head? = some x) :
    (lists.map (dropHead x)).flatten.length < lists.flatten.length := by
  induction lists with
  | nil => simp at hl
  | cons m lists ih =>
    have hm := length_dropHead_le x m
    have hrest := length_dropHeads_le x lists
    simp only [List.map_cons, List.flatten_cons, List.length_append]
    rcases List.mem_cons.1 hl with rfl | hl
    · have hlength := congrArg List.length (dropHead_of_eq hx)
      rw [List.length_cons] at hlength
      omega
    · have := ih hl
      omega

/-! ### The executable merge and its runs -/

theorem mergeFrom_merges {fuel : ℕ} (h : mergeFrom fuel lists = some r) : Merges lists r := by
  induction fuel generalizing lists r with
  | zero =>
    rw [mergeFrom] at h
    split at h
    · obtain rfl := Option.some.inj h
      exact .done ‹_›
    · simp at h
  | succ fuel ih =>
    rw [mergeFrom] at h
    split at h
    · split at h
      · obtain rfl := Option.some.inj h
        exact .done ‹_›
      · simp at h
    · rename_i y hy
      obtain ⟨rest, hrest, rfl⟩ := Option.map_eq_some_iff.1 h
      exact .step hy (ih hrest)

theorem merges_mergeFrom (h : Merges lists r) :
    ∀ fuel, lists.flatten.length ≤ fuel → mergeFrom fuel lists = some r := by
  induction h with
  | done hempty =>
    intro fuel _
    cases fuel with
    | zero => rw [mergeFrom, if_pos hempty]
    | succ fuel => rw [mergeFrom, candidate_empty hempty]; exact if_pos hempty
  | @step lists y rest hy _ ih =>
    intro fuel hfuel
    obtain ⟨⟨l, hl, hhead⟩, _⟩ := candidate_some hy
    have hlt := length_dropHeads_lt hl hhead
    cases fuel with
    | zero => omega
    | succ fuel =>
      rw [mergeFrom, hy]
      show (mergeFrom fuel (lists.map (dropHead y))).map (y :: ·) = _
      rw [ih fuel (by omega)]
      rfl

theorem merge_eq_some : merge lists = some r ↔ Merges lists r :=
  ⟨mergeFrom_merges, fun h => merges_mergeFrom h _ (Nat.le_refl _)⟩

instance (lists : List (List α)) : Decidable (∃ r, Merges lists r) :=
  decidable_of_iff ((merge lists).isSome = true) (by
    rw [Option.isSome_iff_exists]
    exact exists_congr fun r => merge_eq_some)

/-! ### What a merge keeps -/

theorem Merges.exists_mem (h : Merges lists r) (hx : x ∈ r) : ∃ l ∈ lists, x ∈ l := by
  induction h with
  | done _ => simp at hx
  | @step lists y rest hy _ ih =>
    rcases List.mem_cons.1 hx with rfl | hx
    · obtain ⟨⟨l, hl, hhead⟩, _⟩ := candidate_some hy
      exact ⟨l, hl, List.mem_of_mem_head? hhead⟩
    · obtain ⟨m, hm, hxm⟩ := ih hx
      obtain ⟨l, hl, rfl⟩ := List.mem_map.1 hm
      exact ⟨l, hl, (dropHead_sublist y l).subset hxm⟩

theorem Merges.sublist (h : Merges lists r) (hl : l ∈ lists) : l.Sublist r := by
  induction h generalizing l with
  | done hempty => rw [hempty l hl]
  | @step lists y rest hy _ ih =>
    have hrest := ih (List.mem_map_of_mem hl)
    by_cases hhead : l.head? = some y
    · rw [← dropHead_of_eq hhead]
      exact hrest.cons_cons y
    · rw [dropHead_of_ne hhead] at hrest
      exact hrest.cons y

theorem Merges.nodup (h : Merges lists r) : r.Nodup := by
  induction h with
  | done _ => exact List.nodup_nil
  | @step lists y rest hy hrest ih =>
    refine List.nodup_cons.2 ⟨fun hmem => ?_, ih⟩
    obtain ⟨m, hm, hym⟩ := hrest.exists_mem hmem
    obtain ⟨l, hl, rfl⟩ := List.mem_map.1 hm
    exact notMem_dropHead ((candidate_some hy).2 l hl) hym

theorem Merges.unique {r' : List α} (h : Merges lists r) (h' : Merges lists r') : r = r' :=
  Option.some.inj ((merge_eq_some.2 h).symm.trans (merge_eq_some.2 h'))

/-! ### When a merge exists -/

def Agrees (order : List α) (lists : List (List α)) : Prop :=
  order.Nodup ∧ ∀ l ∈ lists, l.Sublist order

theorem Agrees.exists_candidate (h : Agrees order lists) (hl : l ∈ lists) (hne : l ≠ []) :
    ∃ x, candidate lists lists = some x := by
  induction order with
  | nil => exact absurd (List.sublist_nil.1 (h.2 l hl)) hne
  | cons o order ih =>
    by_cases hhead : ∃ m ∈ lists, m.head? = some o
    · obtain ⟨m, hm, hmo⟩ := hhead
      cases hc : candidate lists lists with
      | some x => exact ⟨x, rfl⟩
      | none =>
        obtain ⟨k, hk, hmem⟩ := candidate_none hc hm hmo
        have htail : k.tail.Sublist order := (h.2 k hk).tail
        exact absurd (htail.subset hmem) (List.nodup_cons.1 h.1).1
    · refine ih ⟨(List.nodup_cons.1 h.1).2, fun m hm => ?_⟩
      have hsub := h.2 m hm
      cases hsub with
      | cons _ hsub => exact hsub
      | cons_cons _ hsub => exact absurd ⟨_, hm, rfl⟩ hhead

theorem Agrees.dropHeads (h : Agrees order lists) (hfree : ∀ l ∈ lists, x ∉ l.tail) :
    Agrees (order.erase x) (lists.map (dropHead x)) := by
  refine ⟨h.1.erase x, fun m hm => ?_⟩
  obtain ⟨l, hl, rfl⟩ := List.mem_map.1 hm
  have hsub := ((dropHead_sublist x l).trans (h.2 l hl)).erase x
  rwa [List.erase_of_not_mem (notMem_dropHead (hfree l hl))] at hsub

theorem Agrees.exists_merges (h : Agrees order lists) : ∃ r, Merges lists r := by
  induction hn : lists.flatten.length using Nat.strong_induction_on generalizing lists order with
  | _ n ih =>
    by_cases hempty : ∀ l ∈ lists, l = []
    · exact ⟨[], .done hempty⟩
    · push Not at hempty
      obtain ⟨l, hl, hne⟩ := hempty
      obtain ⟨x, hx⟩ := h.exists_candidate hl hne
      obtain ⟨⟨m, hm, hhead⟩, hfree⟩ := candidate_some hx
      have hlt := length_dropHeads_lt hm hhead
      obtain ⟨r, hr⟩ := ih _ (hn ▸ hlt) (h.dropHeads hfree) rfl
      exact ⟨x :: r, .step hx hr⟩

end Merge

/-! ### Empty lists -/

section Empty

variable [DecidableEq α] {lists lists' rest : List (List α)} {x : α} {r : List α}

def filled (lists : List (List α)) : List (List α) :=
  lists.filter fun l => !l.isEmpty

omit [DecidableEq α] in
theorem mem_filled {l : List α} : l ∈ filled lists ↔ l ∈ lists ∧ l ≠ [] := by
  simp [filled, List.mem_filter]

theorem candidate_filled : candidate lists rest = candidate (filled lists) (filled rest) := by
  induction rest with
  | nil => rfl
  | cons l rest ih =>
    cases l with
    | nil => exact ih
    | cons x l =>
      have hiff : (∃ m ∈ lists, x ∈ m.tail) ↔ ∃ m ∈ filled lists, x ∈ m.tail := by
        constructor
        · intro h
          obtain ⟨m, hm, hx⟩ := h
          refine ⟨m, mem_filled.2 ⟨hm, ?_⟩, hx⟩
          intro hnil
          rw [hnil] at hx
          simp at hx
        · intro h
          obtain ⟨m, hm, hx⟩ := h
          exact ⟨m, (mem_filled.1 hm).1, hx⟩
      have hfilled : filled ((x :: l) :: rest) = (x :: l) :: filled rest := rfl
      rw [hfilled, candidate_cons, candidate_cons, ih]
      by_cases h : ∃ m ∈ lists, x ∈ m.tail
      · rw [if_pos h, if_pos (hiff.1 h)]
      · rw [if_neg h, if_neg fun hc => h (hiff.2 hc)]

theorem filled_dropHeads (x : α) (lists : List (List α)) :
    filled (lists.map (dropHead x)) = filled ((filled lists).map (dropHead x)) := by
  induction lists with
  | nil => rfl
  | cons l lists ih =>
    cases l with
    | nil => exact ih
    | cons y l =>
      have hfilled : filled ((y :: l) :: lists) = (y :: l) :: filled lists := rfl
      rw [hfilled, List.map_cons, List.map_cons, filled, filled, List.filter_cons,
        List.filter_cons]
      rw [filled, filled] at ih
      rw [ih]

theorem Merges.of_filled (h : Merges lists r) (heq : filled lists' = filled lists) :
    Merges lists' r := by
  induction h generalizing lists' with
  | @done lists hempty =>
    refine .done fun l hl => ?_
    by_contra hne
    have hmem : l ∈ filled lists := heq ▸ mem_filled.2 ⟨hl, hne⟩
    exact hne (hempty l (mem_filled.1 hmem).1)
  | @step lists x rest hx _ ih =>
    refine .step ?_ (ih ?_)
    · rw [candidate_filled, heq, ← candidate_filled]
      exact hx
    · rw [filled_dropHeads, heq, ← filled_dropHeads]

theorem merges_longest (hr : r ∈ lists) (hnodup : r.Nodup) (hsub : ∀ l ∈ lists, l.Sublist r) :
    Merges lists r := by
  have hagrees : Agrees r lists := ⟨hnodup, hsub⟩
  obtain ⟨o, ho⟩ := hagrees.exists_merges
  have hlength : o.length ≤ r.length := by
    refine (List.subperm_of_subset ho.nodup fun x hx => ?_).length_le
    obtain ⟨l, hl, hxl⟩ := ho.exists_mem hx
    exact (hsub l hl).subset hxl
  rwa [(ho.sublist hr).eq_of_length_le hlength]

end Empty

/-! ### Orders with tails -/

section Tails

variable [DecidableEq α] [DecidableEq β] {f : α → β} {a : β} {ps qs : List (List α × List β)}

def withTail (f : α → β) (p : List α × List β) : List β :=
  p.1.map f ++ p.2

/-- The tails begin with one element and hold none of the lists they follow. -/
structure Tailed (f : α → β) (a : β) (ps : List (List α × List β)) : Prop where
  inj : ∀ p ∈ ps, ∀ q ∈ ps, ∀ x ∈ p.1, ∀ y ∈ q.1, f x = f y → x = y
  fresh : ∀ p ∈ ps, ∀ q ∈ ps, ∀ x ∈ p.1, f x ∉ q.2
  head : ∀ p ∈ ps, p.2.head? = some a

omit [DecidableEq α] [DecidableEq β] in
theorem Tailed.mem_tail_iff (h : Tailed f a ps) {q : List α × List β} (hq : q ∈ ps) {x : α}
    (hx : x ∈ q.1) :
    (∃ l ∈ ps.map (withTail f), f x ∈ l.tail) ↔ ∃ l ∈ ps.map Prod.fst, x ∈ l.tail := by
  constructor
  · intro hex
    obtain ⟨l, hl, hmem⟩ := hex
    obtain ⟨p, hp, rfl⟩ := List.mem_map.1 hl
    refine ⟨p.1, List.mem_map_of_mem hp, ?_⟩
    cases hcore : p.1 with
    | nil =>
      rw [withTail, hcore, List.map_nil, List.nil_append] at hmem
      exact absurd (List.mem_of_mem_tail hmem) (h.fresh q hq p hp x hx)
    | cons y ys =>
      rw [withTail, hcore, List.map_cons, List.cons_append, List.tail_cons] at hmem
      rcases List.mem_append.1 hmem with hmem | hmem
      · obtain ⟨z, hz, heq⟩ := List.mem_map.1 hmem
        have hzp : z ∈ p.1 := hcore ▸ List.mem_cons_of_mem y hz
        obtain rfl := h.inj p hp q hq z hzp x hx heq
        exact hz
      · exact absurd hmem (h.fresh q hq p hp x hx)
  · intro hex
    obtain ⟨l, hl, hmem⟩ := hex
    obtain ⟨p, hp, rfl⟩ := List.mem_map.1 hl
    refine ⟨withTail f p, List.mem_map_of_mem hp, ?_⟩
    cases hcore : p.1 with
    | nil => rw [hcore] at hmem; simp at hmem
    | cons y ys =>
      rw [hcore] at hmem
      rw [withTail, hcore]
      exact List.mem_append_left _ (List.mem_map_of_mem hmem)

/-- A tail's head waits until every list in front of a tail is used up. -/
theorem Tailed.candidate_eq (h : Tailed f a ps) (hcore : ∃ p ∈ ps, p.1 ≠ []) (hqs : qs ⊆ ps) :
    candidate (ps.map (withTail f)) (qs.map (withTail f)) =
      (candidate (ps.map Prod.fst) (qs.map Prod.fst)).map f := by
  induction qs with
  | nil => rfl
  | cons q qs ih =>
    have ih := ih fun p hp => hqs (List.mem_cons_of_mem _ hp)
    have hq : q ∈ ps := hqs (List.mem_cons_self ..)
    rw [List.map_cons, List.map_cons]
    cases hfirst : q.1 with
    | nil =>
      obtain ⟨p, hp, hne⟩ := hcore
      obtain ⟨t, ht⟩ := List.head?_eq_some_iff.1 (h.head q hq)
      have htail : ∃ l ∈ ps.map (withTail f), a ∈ l.tail := by
        refine ⟨withTail f p, List.mem_map_of_mem hp, ?_⟩
        obtain ⟨x, xs, hxs⟩ := List.exists_cons_of_ne_nil hne
        rw [withTail, hxs]
        exact List.mem_append_right _ (List.mem_of_mem_head? (h.head p hp))
      have hlist : withTail f q = a :: t := by rw [withTail, hfirst, ht]; rfl
      rw [hlist, candidate_cons, if_pos htail, ih, candidate_nil_cons]
    | cons x xs =>
      have hx : x ∈ q.1 := hfirst ▸ List.mem_cons_self ..
      have hlist : withTail f q = f x :: (xs.map f ++ q.2) := by rw [withTail, hfirst]; rfl
      rw [hlist, candidate_cons, candidate_cons]
      by_cases htail : ∃ l ∈ ps.map Prod.fst, x ∈ l.tail
      · rw [if_pos htail, if_pos ((h.mem_tail_iff hq hx).2 htail), ih]
      · rw [if_neg htail, if_neg (fun hc => htail ((h.mem_tail_iff hq hx).1 hc))]
        rfl

theorem Tailed.dropHead_eq (h : Tailed f a ps) {p q : List α × List β} (hp : p ∈ ps) (hq : q ∈ ps)
    {x : α} (hx : x ∈ q.1) :
    dropHead (f x) (withTail f p) = withTail f (dropHead x p.1, p.2) := by
  cases hcore : p.1 with
  | nil =>
    have hlist : withTail f p = p.2 := by rw [withTail, hcore]; rfl
    have hne : p.2.head? ≠ some (f x) := by
      intro heq
      exact h.fresh q hq p hp x hx (List.mem_of_mem_head? heq)
    rw [hlist, dropHead_of_ne hne]
    rfl
  | cons y ys =>
    have hlist : withTail f p = f y :: (ys.map f ++ p.2) := by rw [withTail, hcore]; rfl
    rw [hlist]
    by_cases heq : y = x
    · subst heq
      simp [dropHead, withTail]
    · have hne : f y ≠ f x := by
        intro hf
        exact heq (h.inj p hp q hq y (hcore ▸ List.mem_cons_self ..) x hx hf)
      simp [dropHead, withTail, heq, hne]

omit [DecidableEq β] in
theorem Tailed.step (h : Tailed f a ps) (x : α) :
    Tailed f a (ps.map fun p => (dropHead x p.1, p.2)) := by
  have hback : ∀ p ∈ ps.map fun p => (dropHead x p.1, p.2),
      ∃ q ∈ ps, p.1 ⊆ q.1 ∧ p.2 = q.2 := by
    intro p hp
    obtain ⟨q, hq, rfl⟩ := List.mem_map.1 hp
    exact ⟨q, hq, (dropHead_sublist x q.1).subset, rfl⟩
  refine ⟨?_, ?_, ?_⟩
  · intro p hp q hq y hy z hz heq
    obtain ⟨p', hp', hsub, _⟩ := hback p hp
    obtain ⟨q', hq', hsub', _⟩ := hback q hq
    exact h.inj p' hp' q' hq' y (hsub hy) z (hsub' hz) heq
  · intro p hp q hq y hy hmem
    obtain ⟨p', hp', hsub, _⟩ := hback p hp
    obtain ⟨q', hq', _, htail⟩ := hback q hq
    exact h.fresh p' hp' q' hq' y (hsub hy) (htail ▸ hmem)
  · intro p hp
    obtain ⟨p', hp', _, htail⟩ := hback p hp
    exact htail ▸ h.head p' hp'

theorem Tailed.dropHeads (h : Tailed f a ps) {x : α}
    (hx : candidate (ps.map Prod.fst) (ps.map Prod.fst) = some x) :
    (ps.map (withTail f)).map (dropHead (f x)) =
      (ps.map fun p => (dropHead x p.1, p.2)).map (withTail f) := by
  obtain ⟨⟨l, hl, hhead⟩, _⟩ := candidate_some hx
  obtain ⟨q, hq, rfl⟩ := List.mem_map.1 hl
  rw [List.map_map, List.map_map]
  exact List.map_congr_left fun p hp => h.dropHead_eq hp hq (List.mem_of_mem_head? hhead)

omit [DecidableEq α] [DecidableEq β] in
theorem map_withTail (hempty : ∀ p ∈ ps, p.1 = []) :
    ps.map (withTail f) = ps.map Prod.snd :=
  List.map_congr_left fun p hp => by rw [withTail, hempty p hp]; rfl

theorem Tailed.merges {r : List α} {t : List β} (h : Tailed f a ps)
    (hr : Merges (ps.map Prod.fst) r) (ht : Merges (ps.map Prod.snd) t) :
    Merges (ps.map (withTail f)) (r.map f ++ t) := by
  generalize hcores : ps.map Prod.fst = cores at hr
  induction hr generalizing ps with
  | done hempty =>
    subst hcores
    rw [map_withTail fun p hp => hempty _ (List.mem_map_of_mem hp)]
    exact ht
  | @step cores x rest hx _ ih =>
    subst hcores
    have hcore : ∃ p ∈ ps, p.1 ≠ [] := by
      obtain ⟨⟨l, hl, hhead⟩, _⟩ := candidate_some hx
      obtain ⟨q, hq, rfl⟩ := List.mem_map.1 hl
      exact ⟨q, hq, fun hnil => by rw [hnil] at hhead; simp at hhead⟩
    have hstep : candidate (ps.map (withTail f)) (ps.map (withTail f)) =
        some (f x) := by
      rw [h.candidate_eq hcore (List.Subset.refl _), hx]
      rfl
    refine .step hstep ?_
    rw [h.dropHeads hx]
    refine ih (h.step x) ?_ ?_
    · rw [List.map_map]
      exact ht
    · rw [List.map_map, List.map_map]
      rfl

theorem Tailed.of_merges {l : List β} (h : Tailed f a ps)
    (hl : Merges (ps.map (withTail f)) l) :
    ∃ r t, Merges (ps.map Prod.fst) r ∧ Merges (ps.map Prod.snd) t ∧ l = r.map f ++ t := by
  generalize hlists : ps.map (withTail f) = lists at hl
  induction hl generalizing ps with
  | done hempty =>
    subst hlists
    have hnone : ∀ p ∈ ps, p.1 = [] ∧ p.2 = [] := by
      intro p hp
      have hnil := hempty _ (List.mem_map_of_mem hp)
      rw [withTail, List.append_eq_nil_iff, List.map_eq_nil_iff] at hnil
      exact hnil
    refine ⟨[], [], .done ?_, .done ?_, rfl⟩
    · exact List.forall_mem_map.2 fun p hp => (hnone p hp).1
    · exact List.forall_mem_map.2 fun p hp => (hnone p hp).2
  | @step lists y rest hy hrest ih =>
    subst hlists
    by_cases hempty : ∀ p ∈ ps, p.1 = []
    · rw [map_withTail hempty] at hy hrest
      exact ⟨[], y :: rest, .done (List.forall_mem_map.2 hempty), .step hy hrest, rfl⟩
    · push Not at hempty
      rw [h.candidate_eq hempty (List.Subset.refl _)] at hy
      obtain ⟨x, hx, rfl⟩ := Option.map_eq_some_iff.1 hy
      obtain ⟨r, t, hr, ht, rfl⟩ := ih (h.step x) (h.dropHeads hx).symm
      rw [List.map_map] at hr ht
      refine ⟨x :: r, t, .step hx ?_, ht, rfl⟩
      rw [List.map_map]
      exact hr

end Tails

/-! ### Method resolution orders -/

section Mro

variable [DecidableEq α] (bases : α → List α)

/-- The class first, then the merge of its bases' orders and of the list of its bases. -/
inductive Mro : α → List α → Prop
  | mk {c : α} {order : α → List α} {r : List α} : (∀ b ∈ bases c, Mro b (order b)) →
      Merges ((bases c).map order ++ [bases c]) r → Mro c (c :: r)

/-- `c` is `d` or inherits from it. -/
abbrev Inherits : α → α → Prop :=
  Relation.ReflTransGen fun c b => b ∈ bases c

variable {bases} {c d : α} {l l' : List α}

theorem Mro.unique (h : Mro bases c l) (h' : Mro bases c l') : l = l' := by
  induction h generalizing l' with
  | @mk c order r _ hr ih =>
    cases h' with
    | @mk _ order' r' hb' hr' =>
      have hmap : (bases c).map order = (bases c).map order' :=
        List.map_congr_left fun b hb => ih b hb (hb' b hb)
      rw [hmap] at hr
      rw [hr.unique hr']

theorem Mro.mem_iff (h : Mro bases c l) : d ∈ l ↔ Inherits bases c d := by
  induction h with
  | @mk c order r hb hr ih =>
    refine ⟨fun hd => ?_, fun hd => ?_⟩
    · rcases List.mem_cons.1 hd with rfl | hd
      · exact .refl
      · obtain ⟨k, hk, hdk⟩ := hr.exists_mem hd
        rcases List.mem_append.1 hk with hk | hk
        · obtain ⟨b, hbase, rfl⟩ := List.mem_map.1 hk
          exact .head hbase ((ih b hbase).1 hdk)
        · obtain rfl := List.mem_singleton.1 hk
          exact .single hdk
    · rcases Relation.ReflTransGen.cases_head hd with rfl | ⟨b, hbase, hd⟩
      · exact List.mem_cons_self ..
      · refine List.mem_cons_of_mem _ ((hr.sublist (l := order b) ?_).subset ((ih b hbase).2 hd))
        exact List.mem_append_left _ (List.mem_map_of_mem hbase)

def Orderable (bases : α → List α) (c : α) : Prop :=
  ∃ order : List α, order.Nodup ∧ (bases c).Sublist order ∧
    ∀ b ∈ bases c, ∃ l, Mro bases b l ∧ l.Sublist order

theorem exists_mro_iff : (∃ l, Mro bases c l) ↔ Orderable bases c := by
  refine ⟨fun h => ?_, fun h => ?_⟩
  · obtain ⟨l, h⟩ := h
    cases h with
    | @mk _ order r hb hr =>
      refine ⟨r, hr.nodup, hr.sublist (by simp), fun b hbase => ⟨order b, hb b hbase, ?_⟩⟩
      exact hr.sublist (List.mem_append_left _ (List.mem_map_of_mem hbase))
  · obtain ⟨order, hnodup, hbases, hsub⟩ := h
    choose! f hf hforder using hsub
    have hagrees : Agrees order ((bases c).map f ++ [bases c]) := by
      refine ⟨hnodup, fun m hm => ?_⟩
      rcases List.mem_append.1 hm with hm | hm
      · obtain ⟨b, hbase, rfl⟩ := List.mem_map.1 hm
        exact hforder b hbase
      · obtain rfl := List.mem_singleton.1 hm
        exact hbases
    obtain ⟨r, hr⟩ := hagrees.exists_merges
    exact ⟨c :: r, .mk hf hr⟩

end Mro

/-! ### Class orders above one root -/

section Rooted

variable {ι : Type*} [DecidableEq ι] [DecidableEq α] {parents : ι → List ι} {bases : α → List α}
  {f : ι → α} {P : ι → Prop} {a : α} {t l : List α} {i : ι}

structure Rooted (parents : ι → List ι) (bases : α → List α) (f : ι → α) (P : ι → Prop) (a : α)
    (t : List α) : Prop where
  bases_eq : ∀ i, P i → bases (f i) = (parents i).map f ++ [a]
  closed : ∀ i, P i → ∀ p ∈ parents i, P p
  injective : ∀ i j, P i → P j → f i = f j → i = j
  fresh : ∀ i, P i → f i ∉ a :: t
  root : Mro bases a (a :: t)
  nodup : (a :: t).Nodup

theorem Rooted.mem_order (h : Rooted parents bases f P a t) (hi : P i)
    {r : List ι} (hr : Mro parents i r) : ∀ x ∈ r, P x := by
  intro x hx
  have hup := hr.mem_iff.1 hx
  induction hup with
  | refl => exact hi
  | tail _ hbase ih => exact h.closed _ (ih (hr.mem_iff.2 ‹_›)) _ hbase

theorem Rooted.merges_iff (h : Rooted parents bases f P a t) (hi : P i) {order : ι → List ι}
    (horder : ∀ p ∈ parents i, Mro parents p (order p)) :
    Merges ((parents i).map (fun p => (order p).map f ++ a :: t) ++
        [a :: t, (parents i).map f ++ [a]]) l ↔
      ∃ r, Merges ((parents i).map order ++ [parents i]) r ∧ l = r.map f ++ a :: t := by
  let ps : List (List ι × List α) :=
    (parents i).map (fun p => (order p, a :: t)) ++ [([], a :: t), (parents i, [a])]
  have hmem : ∀ p ∈ ps, (∀ x ∈ p.1, P x) ∧ (p.2 = a :: t ∨ p.2 = [a]) := by
    intro p hp
    rcases List.mem_append.1 hp with hp | hp
    · obtain ⟨q, hq, rfl⟩ := List.mem_map.1 hp
      exact ⟨h.mem_order (h.closed i hi q hq) (horder q hq), .inl rfl⟩
    · simp only [List.mem_cons, List.not_mem_nil, or_false] at hp
      rcases hp with rfl | rfl
      · exact ⟨by simp, .inl rfl⟩
      · exact ⟨fun x hx => h.closed i hi x hx, .inr rfl⟩
  have hsub : ∀ p ∈ ps, p.2 ⊆ a :: t := by
    intro p hp
    rcases (hmem p hp).2 with heq | heq
    · rw [heq]; exact List.Subset.refl _
    · rw [heq]; simp
  have htailed : Tailed f a ps := by
    refine ⟨fun p hp q hq x hx y hy heq => ?_, fun p hp q hq x hx hf => ?_, fun p hp => ?_⟩
    · exact h.injective x y ((hmem p hp).1 x hx) ((hmem q hq).1 y hy) heq
    · exact h.fresh x ((hmem p hp).1 x hx) (hsub q hq hf)
    · rcases (hmem p hp).2 with heq | heq
      · rw [heq]; rfl
      · rw [heq]; rfl
  have hall : ps.map (withTail f) = (parents i).map (fun p => (order p).map f ++ a :: t) ++
      [a :: t, (parents i).map f ++ [a]] := by
    simp [ps, withTail, Function.comp_def]
  have hcores : filled (ps.map Prod.fst) = filled ((parents i).map order ++ [parents i]) := by
    simp [ps, filled, List.filter_append, Function.comp_def, List.filter_cons]
  have htails : Merges (ps.map Prod.snd) (a :: t) := by
    refine merges_longest ?_ h.nodup fun l hl => ?_
    · exact List.mem_map.2 ⟨([], a :: t), by simp [ps], rfl⟩
    · obtain ⟨p, hp, rfl⟩ := List.mem_map.1 hl
      rcases (hmem p hp).2 with heq | heq
      · rw [heq]
      · rw [heq]; simp
  rw [← hall]
  constructor
  · intro hl
    obtain ⟨r, o, hr, ho, rfl⟩ := htailed.of_merges hl
    rw [ho.unique htails]
    exact ⟨r, hr.of_filled hcores.symm, rfl⟩
  · intro hl
    obtain ⟨r, hr, rfl⟩ := hl
    exact htailed.merges (hr.of_filled hcores) htails

/-- The order of a class is that of its parents' graph, and then the root's. -/
theorem Rooted.mro_iff (h : Rooted parents bases f P a t) (hi : P i) :
    Mro bases (f i) l ↔ ∃ r, Mro parents i r ∧ l = r.map f ++ a :: t := by
  constructor
  · intro hl
    generalize hc : f i = c at hl
    induction hl generalizing i with
    | @mk c order r hb hr ih =>
      subst hc
      rw [h.bases_eq i hi] at hr hb ih
      have hparents : ∀ p ∈ parents i, ∃ r, Mro parents p r ∧ order (f p) = r.map f ++ a :: t :=
        fun p hp => ih (f p) (by simp; exact .inl ⟨p, hp, rfl⟩) (h.closed i hi p hp) rfl
      choose! o ho horder using hparents
      have hroot : order a = a :: t := (hb a (by simp)).unique h.root
      have hlists : ((parents i).map f ++ [a]).map order ++ [(parents i).map f ++ [a]] =
          (parents i).map (fun p => (o p).map f ++ a :: t) ++
            [a :: t, (parents i).map f ++ [a]] := by
        rw [List.map_append, List.map_map, List.map_cons, hroot]
        have hmap : (parents i).map (order ∘ f) = (parents i).map fun p => (o p).map f ++ a :: t :=
          List.map_congr_left horder
        rw [hmap]
        simp
      rw [hlists] at hr
      obtain ⟨s, hs, rfl⟩ := (h.merges_iff hi ho).1 hr
      exact ⟨i :: s, .mk ho hs, rfl⟩
  · intro hl
    obtain ⟨r, hr, rfl⟩ := hl
    induction hr with
    | @mk i order r hb hr ih =>
      have hup := (h.merges_iff hi hb).2 ⟨r, hr, rfl⟩
      have hparents : ∀ b ∈ bases (f i), ∃ k, Mro bases b k := by
        intro b hbase
        rw [h.bases_eq i hi] at hbase
        rcases List.mem_append.1 hbase with hbase | hbase
        · obtain ⟨p, hp, rfl⟩ := List.mem_map.1 hbase
          exact ⟨_, ih p hp (h.closed i hi p hp)⟩
        · obtain rfl := List.mem_singleton.1 hbase
          exact ⟨_, h.root⟩
      choose! o ho using hparents
      refine .mk ho ?_
      rw [h.bases_eq i hi] at ho ⊢
      have hroot : o a = a :: t := (ho a (by simp)).unique h.root
      have hmap : (parents i).map (o ∘ f) = (parents i).map fun p => (order p).map f ++ a :: t :=
        List.map_congr_left fun p hp =>
          (ho (f p) (by simp; exact .inl ⟨p, hp, rfl⟩)).unique (ih p hp (h.closed i hi p hp))
      rw [List.map_append, List.map_map, List.map_cons, hroot, hmap]
      simpa using hup

end Rooted

/-! ### Abstract base classes -/

section Subclasses

variable {bases : α → List α} {registered : α → α → Prop} {checks : α → Prop} {s a b : α}

/-- `issubclass`: a class that `checks` also asks its registered classes and its subclasses. -/
inductive IsSubclass (bases : α → List α) (registered : α → α → Prop) (checks : α → Prop) :
    α → α → Prop
  | inherits {s a : α} : Inherits bases s a → IsSubclass bases registered checks s a
  | registered {s a r : α} : registered a r → IsSubclass bases registered checks s r →
      IsSubclass bases registered checks s a
  | subclass {s a b : α} : checks a → a ∈ bases b → IsSubclass bases registered checks s b →
      IsSubclass bases registered checks s a

/-- `b` is asked when `a` is. -/
def Asks (bases : α → List α) (registered : α → α → Prop) (checks : α → Prop) (a b : α) : Prop :=
  registered a b ∨ checks a ∧ a ∈ bases b

theorem isSubclass_iff : IsSubclass bases registered checks s a ↔
    ∃ b, Relation.ReflTransGen (Asks bases registered checks) a b ∧ Inherits bases s b := by
  constructor
  · intro h
    induction h with
    | inherits h => exact ⟨_, .refl, h⟩
    | registered hr _ ih =>
      obtain ⟨b, hab, hb⟩ := ih
      exact ⟨b, .head (.inl hr) hab, hb⟩
    | subclass hchecks hbase _ ih =>
      obtain ⟨b, hab, hb⟩ := ih
      exact ⟨b, .head (.inr ⟨hchecks, hbase⟩) hab, hb⟩
  · intro h
    obtain ⟨b, hab, hb⟩ := h
    induction hab using Relation.ReflTransGen.head_induction_on with
    | refl => exact .inherits hb
    | head hask _ ih =>
      rcases hask with hr | ⟨hchecks, hbase⟩
      · exact .registered hr ih
      · exact .subclass hchecks hbase ih

end Subclasses

end FilamentCore.Library.Linearization
