import FilamentCore.SemanticIr.UnitGraph

/-!
# The component search (crates/semantic-ir/src/unit_graph.rs)

`cyclic_components` walks the graph twice: it finishes the nodes depth first, and then collects,
from the last one finished on, what leads to each. What it returns are the strongly connected
components that hold a cycle.
-/

namespace FilamentCore.SemanticIr
namespace UnitGraph

/-! ### Edges -/

def Edge (edges : Edges) (a b : ℕ) : Prop := b ∈ targetsOf edges a

abbrev Reach (edges : Edges) : ℕ → ℕ → Prop := Relation.ReflTransGen (Edge edges)

/-- Every edge leads to a node. -/
def Closed (edges : Edges) : Prop := ∀ a b, Edge edges a b → b < edges.length

variable {edges : Edges}

theorem Edge.lt {a b : ℕ} (h : Edge edges a b) : a < edges.length := by
  by_contra hlt
  have hnil : targetsOf edges a = [] := by
    rw [targetsOf, List.getD_eq_default _ _ (by omega)]
  rw [Edge, hnil] at h
  cases h

theorem exists_exit {property : ℕ → Prop} {a b : ℕ} (h : Reach edges a b) (ha : property a)
    (hb : ¬ property b) : ∃ y x, property y ∧ Edge edges y x ∧ ¬ property x ∧
      Reach edges a x ∧ Reach edges x b := by
  induction h using Relation.ReflTransGen.head_induction_on with
  | refl => exact absurd ha hb
  | @head a c hac hcb ih =>
    by_cases hc : property c
    · obtain ⟨y, x, hy, he, hx, hcx, hxb⟩ := ih hc
      exact ⟨y, x, hy, he, hx, .head hac hcx, hxb⟩
    · exact ⟨a, c, ha, hac, hc, .single hac, hcb⟩

/-! ### The depth-first walk -/

/-- A node finished before one of its targets was on the path to it, and so were the nodes
finished between the two. -/
def Timely (edges : Edges) (finished : List ℕ) : Prop :=
  ∀ l₁ y l₂, finished = l₁ ++ y :: l₂ → ∀ x, Edge edges y x → x ∉ l₁ → x ≠ y →
    ∀ a ∈ y :: l₂.takeWhile (· ≠ x), Reach edges x a

structure Walking (edges : Edges) (visited finished : List ℕ) (stack : List (ℕ × ℕ)) : Prop where
  inside : ∀ v ∈ visited, v < edges.length
  distinct : visited.Nodup
  placed : visited.Perm (finished ++ stack.map Prod.fst)
  path : (stack.map Prod.fst).IsChain fun a b => Edge edges b a
  passed : ∀ entry ∈ stack, entry.2 ≤ (targetsOf edges entry.1).length ∧
    ∀ t ∈ (targetsOf edges entry.1).take entry.2, t ∈ visited
  seen : ∀ y ∈ finished, ∀ x, Edge edges y x → x ∈ visited
  timely : Timely edges finished

/-- The steps the walk still takes. -/
def remaining (edges : Edges) (visited : List ℕ) (stack : List (ℕ × ℕ)) : ℕ :=
  (∑ v ∈ (Finset.range edges.length).filter (· ∉ visited), ((targetsOf edges v).length + 1)) +
    (stack.map fun entry => (targetsOf edges entry.1).length - entry.2 + 1).sum

theorem reach_top {stack : List ℕ} {top : ℕ} (h : (top :: stack).IsChain fun a b => Edge edges b a)
    {x : ℕ} (hx : x ∈ top :: stack) : Reach edges x top := by
  induction stack generalizing top with
  | nil =>
    rw [List.mem_singleton.1 hx]
  | cons next stack ih =>
    obtain ⟨hedge, hrest⟩ := List.isChain_cons_cons.1 h
    rcases List.mem_cons.1 hx with rfl | hx
    · exact .refl
    · exact (ih hrest hx).tail hedge

theorem takeWhile_stop (l rest : List ℕ) (x : ℕ) :
    (l ++ x :: rest).takeWhile (· ≠ x) = l.takeWhile (· ≠ x) := by
  induction l with
  | nil => simp
  | cons b l ih =>
    by_cases hb : b = x
    · simp [hb]
    · simpa [hb] using ih

theorem mem_takeWhile_concat {l : List ℕ} {x y z a : ℕ}
    (h : a ∈ y :: (l ++ [z]).takeWhile (· ≠ x)) :
    a ∈ y :: l.takeWhile (· ≠ x) ∨ (a = z ∧ x ∉ l) := by
  by_cases hx : x ∈ l
  · left
    obtain ⟨l₁, l₂, rfl⟩ := List.append_of_mem hx
    rw [List.append_assoc, List.cons_append, takeWhile_stop] at h
    rwa [takeWhile_stop]
  · have hall : l.takeWhile (· ≠ x) = l :=
      List.takeWhile_eq_self_iff.2 fun b hb => by
        simpa using fun he : b = x => hx (he ▸ hb)
    rw [List.takeWhile_append_of_pos (List.takeWhile_eq_self_iff.1 hall), hall] at *
    rcases List.mem_cons.1 h with rfl | h
    · exact .inl (List.mem_cons_self ..)
    · rcases List.mem_append.1 h with h | h
      · exact .inl (List.mem_cons_of_mem _ h)
      · exact .inr ⟨List.mem_singleton.1 ((List.takeWhile_sublist _).mem h), hx⟩

theorem Walking.finish {visited finished : List ℕ} {node next : ℕ} {stack : List (ℕ × ℕ)}
    (h : Walking edges visited finished ((node, next) :: stack))
    (hend : (targetsOf edges node)[next]? = none) :
    Walking edges visited (finished ++ [node]) stack := by
  have hall : ∀ x, Edge edges node x → x ∈ visited := by
    intro x hx
    obtain ⟨-, hp⟩ := h.passed _ (List.mem_cons_self ..)
    apply hp
    rw [List.getElem?_eq_none_iff] at hend
    rwa [List.take_of_length_le hend]
  have htop : ∀ x ∈ node :: stack.map Prod.fst, Reach edges x node :=
    fun x hx => reach_top h.path hx
  have hplaced : ∀ x, x ∈ visited ↔ x ∈ finished ∨ x ∈ node :: stack.map Prod.fst := by
    intro x
    rw [h.placed.mem_iff, List.mem_append]
    rfl
  refine ⟨h.inside, h.distinct, ?_, ?_, ?_, ?_, ?_⟩
  · rw [List.append_assoc]
    exact h.placed
  · exact (List.isChain_cons.1 h.path).2
  · exact fun entry he => h.passed entry (List.mem_cons_of_mem _ he)
  · intro y hy x hx
    rcases List.mem_append.1 hy with hy | hy
    · exact h.seen y hy x hx
    · exact hall x (List.mem_singleton.1 hy ▸ hx)
  · intro l₁ y l₂ heq x hx hl₁ hne a ha
    rcases List.eq_nil_or_concat l₂ with rfl | ⟨m, z, rfl⟩
    · obtain ⟨rfl, hy⟩ := List.append_inj' heq rfl
      obtain rfl : node = y := by simpa using hy
      obtain rfl : a = node := by simpa using ha
      exact htop x (((hplaced x).1 (hall x hx)).resolve_left hl₁)
    · have hinit : finished ++ [node] = (l₁ ++ y :: m) ++ [z] := by simpa using heq
      obtain ⟨rfl, hz⟩ := List.append_inj' hinit rfl
      obtain rfl : node = z := by simpa using hz
      rw [List.concat_eq_append] at ha
      rcases mem_takeWhile_concat ha with ha | ⟨rfl, hm⟩
      · exact h.timely l₁ y m rfl x hx hl₁ hne a ha
      · have hseen := h.seen y (by simp) x hx
        apply htop x (((hplaced x).1 hseen).resolve_left ?_)
        simp [hl₁, hne, hm]

theorem Walking.pass {visited finished : List ℕ} {node next target : ℕ} {stack : List (ℕ × ℕ)}
    (h : Walking edges visited finished ((node, next) :: stack))
    (hedge : (targetsOf edges node)[next]? = some target) (hv : target ∈ visited) :
    Walking edges visited finished ((node, next + 1) :: stack) := by
  obtain ⟨hlt, hget⟩ := List.getElem?_eq_some_iff.1 hedge
  refine ⟨h.inside, h.distinct, h.placed, h.path, ?_, h.seen, h.timely⟩
  intro entry he
  rcases List.mem_cons.1 he with rfl | he
  · refine ⟨hlt, fun t ht => ?_⟩
    rw [List.take_add_one, hedge, List.mem_append] at ht
    rcases ht with ht | ht
    · exact (h.passed _ (List.mem_cons_self ..)).2 t ht
    · rw [Option.toList_some, List.mem_singleton] at ht
      exact ht ▸ hv
  · exact h.passed entry (List.mem_cons_of_mem _ he)

theorem Walking.push (hc : Closed edges) {visited finished : List ℕ} {node next target : ℕ}
    {stack : List (ℕ × ℕ)} (h : Walking edges visited finished ((node, next) :: stack))
    (hedge : (targetsOf edges node)[next]? = some target) (hv : target ∉ visited) :
    Walking edges (target :: visited) finished ((target, 0) :: (node, next + 1) :: stack) := by
  have hmem : Edge edges node target := List.mem_of_getElem? hedge
  have hvisited : ∀ {x}, x ∈ visited → x ∈ target :: visited := List.mem_cons_of_mem _
  refine ⟨?_, List.nodup_cons.2 ⟨hv, h.distinct⟩, ?_, ?_, ?_, ?_, h.timely⟩
  · rintro v hm
    rcases List.mem_cons.1 hm with rfl | hm
    · exact hc node v hmem
    · exact h.inside v hm
  · refine (h.placed.cons target).trans ?_
    exact List.perm_middle.symm
  · exact List.isChain_cons_cons.2 ⟨hmem, h.path⟩
  · intro entry he
    rcases List.mem_cons.1 he with rfl | he
    · exact ⟨Nat.zero_le _, by simp⟩
    · rcases List.mem_cons.1 he with rfl | he
      · obtain ⟨hlt, -⟩ := List.getElem?_eq_some_iff.1 hedge
        refine ⟨hlt, fun t ht => ?_⟩
        rw [List.take_add_one, hedge, List.mem_append] at ht
        rcases ht with ht | ht
        · exact hvisited ((h.passed _ (List.mem_cons_self ..)).2 t ht)
        · rw [Option.toList_some, List.mem_singleton] at ht
          exact ht ▸ List.mem_cons_self ..
      · obtain ⟨hle, hp⟩ := h.passed entry (List.mem_cons_of_mem _ he)
        exact ⟨hle, fun t ht => hvisited (hp t ht)⟩
  · exact fun y hy x hx => hvisited (h.seen y hy x hx)

theorem remaining_push {visited : List ℕ} {node next target : ℕ}
    {stack : List (ℕ × ℕ)} (hlt : next < (targetsOf edges node).length)
    (ht : target < edges.length) (hv : target ∉ visited) :
    remaining edges (target :: visited) ((target, 0) :: (node, next + 1) :: stack) + 1 =
      remaining edges visited ((node, next) :: stack) := by
  have hsplit : (Finset.range edges.length).filter (· ∉ visited) =
      insert target ((Finset.range edges.length).filter (· ∉ target :: visited)) := by
    ext v
    simp only [Finset.mem_filter, Finset.mem_range, Finset.mem_insert, List.mem_cons, not_or]
    constructor
    · rintro ⟨hl, hn⟩
      by_cases hvt : v = target
      · exact .inl hvt
      · exact .inr ⟨hl, hvt, hn⟩
    · rintro (rfl | ⟨hl, -, hn⟩)
      · exact ⟨ht, hv⟩
      · exact ⟨hl, hn⟩
  have hnew : target ∉ (Finset.range edges.length).filter (· ∉ target :: visited) := by simp
  unfold remaining
  rw [hsplit, Finset.sum_insert hnew]
  simp only [List.map_cons, List.sum_cons]
  omega

theorem Walking.finished (hc : Closed edges) {steps : ℕ} {visited finished : List ℕ}
    {stack : List (ℕ × ℕ)} (h : Walking edges visited finished stack)
    (hsteps : remaining edges visited stack ≤ steps) :
    Walking edges (UnitGraph.finish edges steps visited finished stack).1
        (UnitGraph.finish edges steps visited finished stack).2 [] ∧
      ∀ v ∈ visited, v ∈ (UnitGraph.finish edges steps visited finished stack).1 := by
  induction steps generalizing visited finished stack with
  | zero =>
    cases stack with
    | nil => exact ⟨h, fun _ hv => hv⟩
    | cons entry stack =>
      simp only [remaining, List.map_cons, List.sum_cons] at hsteps
      omega
  | succ steps ih =>
    match stack, h, hsteps with
    | [], h, _ => exact ⟨h, fun _ hv => hv⟩
    | (node, next) :: stack, h, hsteps =>
      rw [UnitGraph.finish]
      split
      · rename_i target hedge
        obtain ⟨hlt, -⟩ := List.getElem?_eq_some_iff.1 hedge
        split
        · rename_i hv
          apply ih (h.pass hedge (by simpa using hv))
          simp only [remaining, List.map_cons, List.sum_cons] at hsteps ⊢
          omega
        · rename_i hv
          have hv : target ∉ visited := by simpa using hv
          have hmem := hc node target (List.mem_of_getElem? hedge)
          have hstep := @remaining_push edges visited node next target stack hlt hmem hv
          obtain ⟨hw, hvs⟩ := ih (h.push hc hedge hv) (by omega)
          exact ⟨hw, fun v hm => hvs v (List.mem_cons_of_mem _ hm)⟩
      · rename_i hedge
        apply ih (h.finish hedge)
        simp only [remaining, List.map_cons, List.sum_cons] at hsteps ⊢
        omega

/-! ### The finish order -/

theorem sum_targets (edges : Edges) :
    (∑ v ∈ Finset.range edges.length, ((targetsOf edges v).length + 1)) + 1 = walkSteps edges := by
  have hlist : (edges.map List.length) =
      (List.range edges.length).map fun v => (targetsOf edges v).length := by
    apply List.ext_getElem
    · simp
    · intro i h₁ h₂
      rw [List.length_map] at h₁
      simp [targetsOf, List.getD_eq_getElem?_getD, h₁]
  have hsum : ((List.range edges.length).map fun v => (targetsOf edges v).length).sum =
      ∑ v ∈ Finset.range edges.length, (targetsOf edges v).length := rfl
  rw [walkSteps, hlist, hsum, Finset.sum_add_distrib]
  simp

theorem Walking.root {visited finished : List ℕ} {root : ℕ}
    (h : Walking edges visited finished []) (hr : root < edges.length) (hv : root ∉ visited) :
    Walking edges (root :: visited) finished [(root, 0)] ∧
      remaining edges (root :: visited) [(root, 0)] ≤ walkSteps edges := by
  constructor
  · refine ⟨?_, List.nodup_cons.2 ⟨hv, h.distinct⟩, ?_, List.isChain_singleton _, ?_, ?_, h.timely⟩
    · rintro v hm
      rcases List.mem_cons.1 hm with rfl | hm
      · exact hr
      · exact h.inside v hm
    · refine (h.placed.cons root).trans ?_
      rw [List.map_nil, List.append_nil]
      exact (List.perm_append_singleton root finished).symm
    · intro entry he
      obtain rfl := List.mem_singleton.1 he
      exact ⟨Nat.zero_le _, by simp⟩
    · exact fun y hy x hx => List.mem_cons_of_mem _ (h.seen y hy x hx)
  · have hsubset : (Finset.range edges.length).filter (· ∉ root :: visited) ⊆
        (Finset.range edges.length).erase root := by
      intro v hm
      simp only [Finset.mem_filter, Finset.mem_range, List.mem_cons, not_or, Finset.mem_erase] at *
      exact ⟨hm.2.1, hm.1⟩
    have hle := Finset.sum_le_sum_of_subset (f := fun v => (targetsOf edges v).length + 1) hsubset
    have hsum := Finset.add_sum_erase (Finset.range edges.length)
      (fun v => (targetsOf edges v).length + 1) (Finset.mem_range.2 hr)
    have htotal := sum_targets edges
    simp only [remaining, List.map_cons, List.map_nil, List.sum_cons, List.sum_nil]
    omega

theorem finishOrder_walking (hc : Closed edges) : ∃ visited,
    Walking edges visited (finishOrder edges) [] ∧ ∀ v < edges.length, v ∈ visited := by
  have hfold : ∀ roots : List ℕ, (∀ r ∈ roots, r < edges.length) → ∀ state : List ℕ × List ℕ,
      Walking edges state.1 state.2 [] →
      let last := roots.foldl (fun state root =>
        if state.1.contains root then state
        else UnitGraph.finish edges (walkSteps edges) (root :: state.1) state.2 [(root, 0)]) state
      Walking edges last.1 last.2 [] ∧ (∀ v ∈ state.1, v ∈ last.1) ∧ ∀ r ∈ roots, r ∈ last.1 := by
    intro roots
    induction roots with
    | nil => exact fun _ state h => ⟨h, fun _ hv => hv, by simp⟩
    | cons root roots ih =>
      intro hlt state h
      have hrest := fun r hr => hlt r (List.mem_cons_of_mem _ hr)
      rw [List.foldl_cons]
      by_cases hv : root ∈ state.1
      · rw [if_pos (by simpa using hv)]
        obtain ⟨hw, hkept, hall⟩ := ih hrest state h
        refine ⟨hw, hkept, fun r hr => ?_⟩
        rcases List.mem_cons.1 hr with rfl | hr
        · exact hkept r hv
        · exact hall r hr
      · rw [if_neg (by simpa using hv)]
        obtain ⟨hstart, hsteps⟩ := h.root (hlt root (List.mem_cons_self ..)) hv
        obtain ⟨hdone, hgrown⟩ := hstart.finished hc hsteps
        obtain ⟨hw, hkept, hall⟩ := ih hrest _ hdone
        refine ⟨hw, fun v hm => hkept v (hgrown v (List.mem_cons_of_mem _ hm)), fun r hr => ?_⟩
        rcases List.mem_cons.1 hr with rfl | hr
        · exact hkept r (hgrown r (List.mem_cons_self ..))
        · exact hall r hr
  have hempty : Walking edges [] [] [] := by
    refine ⟨by simp, List.nodup_nil, .refl _, List.isChain_nil, by simp, by simp, ?_⟩
    intro l₁ y l₂ heq
    exact absurd heq (by simp)
  obtain ⟨hw, -, hall⟩ := hfold (List.range edges.length) (by simp) ([], []) hempty
  exact ⟨_, hw, fun v hv => hall v (List.mem_range.2 hv)⟩

theorem finishOrder_nodes (hc : Closed edges) : (finishOrder edges).Nodup ∧
    (∀ v, v ∈ finishOrder edges ↔ v < edges.length) ∧ Timely edges (finishOrder edges) := by
  obtain ⟨visited, hw, hall⟩ := finishOrder_walking hc
  have hp := hw.placed
  rw [List.map_nil, List.append_nil] at hp
  refine ⟨hp.nodup_iff.1 hw.distinct, fun v => ?_, hw.timely⟩
  rw [← hp.mem_iff]
  exact ⟨hw.inside v, hall v⟩

theorem Timely.returns {finished : List ℕ} (h : Timely edges finished) (hn : finished.Nodup)
    {l₁ l₂ l₃ : List ℕ} {c r : ℕ} (heq : finished = l₁ ++ c :: (l₂ ++ r :: l₃))
    (hr : Reach edges c r)
    (hinside : ∀ d, Reach edges c d → d ∈ l₁ ++ c :: (l₂ ++ [r])) : Reach edges r c := by
  induction hlen : l₂.length using Nat.strong_induction_on generalizing l₁ l₂ c with
  | _ n ih =>
    have hout : r ∉ l₁ ++ [c] := by
      rw [heq] at hn
      simp only [List.nodup_append, List.nodup_cons, List.mem_append, List.mem_cons] at hn
      grind
    obtain ⟨y, x, hy, hedge, hx, hcx, hxr⟩ :=
      @exists_exit edges (· ∈ l₁ ++ [c]) c r hr (by simp) hout
    have hxc : Reach edges x c := by
      simp only [List.mem_append, List.mem_singleton, not_or] at hy hx
      rcases hy with hy | rfl
      · obtain ⟨p, q, rfl⟩ := List.append_of_mem hy
        simp only [List.mem_append, List.mem_cons, not_or] at hx
        apply h p y (q ++ c :: (l₂ ++ r :: l₃)) (by simp [heq]) x hedge hx.1.1 hx.1.2.1
        have htake : (q ++ c :: (l₂ ++ r :: l₃)).takeWhile (· ≠ x) =
            q ++ (c :: (l₂ ++ r :: l₃)).takeWhile (· ≠ x) :=
          List.takeWhile_append_of_pos fun b hb => by
            simpa using fun he : b = x => hx.1.2.2 (he ▸ hb)
        rw [htake, List.takeWhile_cons_of_pos (by simpa using Ne.symm hx.2)]
        simp
      · exact h l₁ y _ heq x hedge hx.1 hx.2 y (List.mem_cons_self ..)
    have hplace := hinside x hcx
    simp only [List.mem_append, List.mem_cons, List.not_mem_nil, or_false, not_or] at hplace hx
    rcases hplace with hl | hl | hl | rfl
    · exact absurd hl hx.1
    · exact absurd hl hx.2
    · obtain ⟨m₁, m₂, rfl⟩ := List.append_of_mem hl
      have hrx : Reach edges r x := by
        refine @ih m₂.length ?_ (l₁ ++ c :: m₁) m₂ x (by simp [heq]) hxr ?_ rfl
        · rw [← hlen, List.length_append, List.length_cons]
          omega
        · intro d hd
          have := hinside d (hcx.trans hd)
          simpa using this
      exact hrx.trans hxc
    · exact hxc

/-! ### The backward walk -/

theorem mem_sourcesOf {a b : ℕ} : a ∈ sourcesOf edges b ↔ Edge edges a b := by
  simp only [sourcesOf, List.mem_flatMap, List.mem_range, List.mem_filterMap]
  constructor
  · rintro ⟨source, -, target, ht, heq⟩
    split at heq
    · rename_i hb
      cases heq
      exact hb ▸ ht
    · cases heq
  · intro h
    exact ⟨a, h.lt, b, h, if_pos rfl⟩

theorem pushUnvisited_perm (visited pending sources : List ℕ) :
    ∃ fresh, (pushUnvisited visited pending sources).1.Perm (fresh ++ visited) ∧
      (pushUnvisited visited pending sources).2.Perm (fresh ++ pending) ∧
      (visited.Nodup → (pushUnvisited visited pending sources).1.Nodup) ∧
      (∀ s ∈ fresh, s ∈ sources) ∧
      ∀ s ∈ sources, s ∈ (pushUnvisited visited pending sources).1 := by
  induction sources generalizing visited pending with
  | nil => exact ⟨[], .refl _, .refl _, id, by simp, by simp⟩
  | cons source sources ih =>
    rw [pushUnvisited]
    split
    · rename_i hv
      obtain ⟨fresh, hvisited, hpending, hn, hfresh, hall⟩ := ih visited pending
      refine ⟨fresh, hvisited, hpending, hn, fun s hs => List.mem_cons_of_mem _ (hfresh s hs), ?_⟩
      intro s hs
      rcases List.mem_cons.1 hs with rfl | hs
      · exact hvisited.mem_iff.2 (List.mem_append_right _ (by simpa using hv))
      · exact hall s hs
    · rename_i hv
      obtain ⟨fresh, hvisited, hpending, hn, hfresh, hall⟩ :=
        ih (source :: visited) (source :: pending)
      refine ⟨source :: fresh, hvisited.trans List.perm_middle, hpending.trans List.perm_middle,
        fun h => hn (List.nodup_cons.2 ⟨by simpa using hv, h⟩), ?_, ?_⟩
      · intro s hs
        rcases List.mem_cons.1 hs with rfl | hs
        · exact List.mem_cons_self ..
        · exact List.mem_cons_of_mem _ (hfresh s hs)
      · intro s hs
        rcases List.mem_cons.1 hs with rfl | hs
        · exact hvisited.mem_iff.2 (List.mem_append_right _ (List.mem_cons_self ..))
        · exact hall s hs

/-- What the walk back from a root keeps; `before` was visited when it started. -/
structure Collecting (edges : Edges) (before : List ℕ) (root : ℕ)
    (visited component pending : List ℕ) : Prop where
  inside : ∀ v ∈ visited, v < edges.length
  distinct : visited.Nodup
  placed : visited.Perm (component ++ pending ++ before)
  started : root ∈ component ++ pending
  leads : ∀ c ∈ component ++ pending, Reach edges c root
  sources : ∀ c ∈ component, ∀ s, Edge edges s c → s ∈ visited

theorem Collecting.step {before visited component pending : List ℕ} {root node : ℕ}
    (h : Collecting edges before root visited component (node :: pending)) :
    Collecting edges before root (pushUnvisited visited pending (sourcesOf edges node)).1
      (component ++ [node]) (pushUnvisited visited pending (sourcesOf edges node)).2 := by
  obtain ⟨fresh, hvisited, hpending, hn, hfresh, hall⟩ :=
    pushUnvisited_perm visited pending (sourcesOf edges node)
  have hmem : ∀ c, c ∈ (component ++ [node]) ++
      (pushUnvisited visited pending (sourcesOf edges node)).2 ↔
      c ∈ fresh ∨ c ∈ component ++ node :: pending := by
    intro c
    simp only [List.mem_append, hpending.mem_iff, List.mem_cons, List.not_mem_nil, or_false]
    tauto
  refine ⟨?_, hn h.distinct, ?_, (hmem root).2 (.inr h.started), ?_, ?_⟩
  · intro v hv
    rcases List.mem_append.1 (hvisited.mem_iff.1 hv) with hv | hv
    · exact (mem_sourcesOf.1 (hfresh v hv)).lt
    · exact h.inside v hv
  · rw [List.perm_iff_count]
    intro v
    have h₁ := List.perm_iff_count.1 hvisited v
    have h₂ := List.perm_iff_count.1 hpending v
    have h₃ := List.perm_iff_count.1 h.placed v
    simp only [List.count_append, List.count_cons, List.count_nil] at h₁ h₂ h₃ ⊢
    omega
  · intro c hc
    rcases (hmem c).1 hc with hc | hc
    · exact .head (mem_sourcesOf.1 (hfresh c hc)) (h.leads node (by simp))
    · exact h.leads c hc
  · intro c hc s hs
    rcases List.mem_append.1 hc with hc | hc
    · exact hvisited.mem_iff.2 (List.mem_append_right _ (h.sources c hc s hs))
    · rw [List.mem_singleton.1 hc] at hs
      exact hall s (mem_sourcesOf.2 hs)

theorem Collecting.collected {before visited component pending : List ℕ} {root steps : ℕ}
    (h : Collecting edges before root visited component pending)
    (hsteps : edges.length - visited.length + pending.length ≤ steps) :
    Collecting edges before root (collect edges steps visited component pending).1
      (collect edges steps visited component pending).2 [] := by
  induction steps generalizing visited component pending with
  | zero =>
    have hlength : pending.length = 0 := by omega
    obtain rfl := List.eq_nil_of_length_eq_zero hlength
    exact h
  | succ steps ih =>
    match pending, h, hsteps with
    | [], h, _ => exact h
    | node :: pending, h, hsteps =>
      rw [collect]
      apply ih h.step
      obtain ⟨fresh, hvisited, hpending, hn, -, -⟩ :=
        pushUnvisited_perm visited pending (sourcesOf edges node)
      have hlength : (pushUnvisited visited pending (sourcesOf edges node)).1.length ≤
          edges.length := by
        have := (hn h.distinct).subperm (fun v hv => List.mem_range.2 (h.step.inside v hv))
        simpa using this.length_le
      have hv := hvisited.length_eq
      have hp := hpending.length_eq
      rw [List.length_append] at hv hp
      rw [List.length_cons] at hsteps
      omega

def SourceClosed (edges : Edges) (visited : List ℕ) : Prop :=
  ∀ v ∈ visited, ∀ s, Edge edges s v → s ∈ visited

theorem SourceClosed.unvisited {visited : List ℕ} (h : SourceClosed edges visited) {a b : ℕ}
    (ha : a ∉ visited) (hr : Reach edges a b) : b ∉ visited := by
  induction hr with
  | refl => exact ha
  | tail _ hedge ih => exact fun hb => ih (h _ hb _ hedge)

theorem collect_spec {before : List ℕ} {root : ℕ} (hinside : ∀ v ∈ before, v < edges.length)
    (hdistinct : before.Nodup) (hclosed : SourceClosed edges before)
    (hlt : root < edges.length) (hroot : root ∉ before) :
    ((collect edges (edges.length + 1) (root :: before) [] [root]).1.Perm
      ((collect edges (edges.length + 1) (root :: before) [] [root]).2 ++ before)) ∧
    ((collect edges (edges.length + 1) (root :: before) [] [root]).1.Nodup) ∧
    SourceClosed edges (collect edges (edges.length + 1) (root :: before) [] [root]).1 ∧
    ∀ c, c ∈ (collect edges (edges.length + 1) (root :: before) [] [root]).2 ↔
      c ∉ before ∧ Reach edges c root := by
  have hstart : Collecting edges before root (root :: before) [] [root] := by
    refine ⟨?_, List.nodup_cons.2 ⟨hroot, hdistinct⟩, .refl _, by simp, ?_, by simp⟩
    · rintro v hv
      rcases List.mem_cons.1 hv with rfl | hv
      · exact hlt
      · exact hinside v hv
    · rintro c hc
      obtain rfl : c = root := by simpa using hc
      exact .refl
  have hdone : Collecting edges before root
      (collect edges (edges.length + 1) (root :: before) [] [root]).1
      (collect edges (edges.length + 1) (root :: before) [] [root]).2 [] :=
    hstart.collected (by simp)
  generalize (collect edges (edges.length + 1) (root :: before) [] [root]).1 = visited at *
  generalize (collect edges (edges.length + 1) (root :: before) [] [root]).2 = component at *
  have hplaced := hdone.placed
  rw [List.append_nil] at hplaced
  have hleads := hdone.leads
  have hstarted := hdone.started
  rw [List.append_nil] at hleads hstarted
  refine ⟨hplaced, hdone.distinct, ?_, fun c => ⟨fun hc => ⟨?_, hleads c hc⟩, ?_⟩⟩
  · intro v hv s hs
    rcases List.mem_append.1 (hplaced.mem_iff.1 hv) with hv | hv
    · exact hdone.sources v hv s hs
    · exact hplaced.mem_iff.2 (List.mem_append_right _ (hclosed v hv s hs))
  · have hn := hplaced.nodup_iff.1 hdone.distinct
    exact fun hb => List.disjoint_of_nodup_append hn hc hb
  · rintro ⟨hc, hr⟩
    induction hr using Relation.ReflTransGen.head_induction_on with
    | refl => exact hstarted
    | @head c d hedge hrest ih =>
      have hd : d ∉ before := fun hd => hc (hclosed d hd c hedge)
      have hv := hdone.sources d (ih hd) c hedge
      exact (List.mem_append.1 (hplaced.mem_iff.1 hv)).resolve_right hc

/-! ### Components -/

/-- A strongly connected component that holds a cycle, its nodes in order. -/
structure Cyclic (edges : Edges) (component : List ℕ) : Prop where
  ordered : component.Pairwise (· < ·)
  connected : ∀ a ∈ component, ∀ b, b ∈ component ↔ Reach edges a b ∧ Reach edges b a
  cycle : ∀ a ∈ component, Relation.TransGen (Edge edges) a a

theorem Reach.lt (hc : Closed edges) {a b : ℕ} (h : Reach edges a b) (ha : a < edges.length) :
    b < edges.length := by
  induction h with
  | refl => exact ha
  | tail _ hedge _ => exact hc _ _ hedge

/-- What a root collects is its strongly connected component. -/
theorem collected_connected (hc : Closed edges) {roots after visited component : List ℕ} {root : ℕ}
    (horder : finishOrder edges = (root :: roots).reverse ++ after)
    (hafter : ∀ v ∈ after, v ∈ visited) (hclosed : SourceClosed edges visited)
    (hcomponent : ∀ c, c ∈ component ↔ c ∉ visited ∧ Reach edges c root) :
    ∀ a ∈ component, ∀ b, b ∈ component ↔ Reach edges a b ∧ Reach edges b a := by
  obtain ⟨hn, hnodes, htimely⟩ := finishOrder_nodes hc
  rw [List.reverse_cons, List.append_assoc] at horder
  have hfinished : ∀ c, c < edges.length → c ∉ visited → c ∈ roots.reverse ∨ c = root := by
    intro c hlt hv
    have hm := (hnodes c).2 hlt
    rw [horder] at hm
    simp only [List.mem_append, List.mem_singleton] at hm
    rcases hm with hm | hm | hm
    · exact .inl hm
    · exact .inr hm
    · exact absurd (hafter c hm) hv
  have hlt : ∀ c, Reach edges c root → c < edges.length := by
    intro c hr
    rcases Relation.ReflTransGen.cases_head hr with rfl | ⟨d, hedge, -⟩
    · exact (hnodes c).1 (by rw [horder]; simp)
    · exact hedge.lt
  have hback : ∀ c ∈ component, Reach edges root c := by
    intro c hm
    obtain ⟨hv, hr⟩ := (hcomponent c).1 hm
    rcases hfinished c (hlt c hr) hv with hroots | rfl
    · obtain ⟨l₁, l₂, hsplit⟩ := List.append_of_mem hroots
      have heq : finishOrder edges = l₁ ++ c :: (l₂ ++ root :: after) := by
        rw [horder, hsplit]
        simp
      apply htimely.returns hn heq hr
      intro d hd
      rcases hfinished d (hd.lt hc (hlt c hr)) (hclosed.unvisited hv hd) with hm | rfl
      · rw [hsplit] at hm
        simp only [List.mem_append, List.mem_cons] at hm ⊢
        tauto
      · simp
    · exact .refl
  intro a ha b
  obtain ⟨hav, har⟩ := (hcomponent a).1 ha
  constructor
  · intro hb
    exact ⟨har.trans (hback b hb), ((hcomponent b).1 hb).2.trans (hback a ha)⟩
  · rintro ⟨hab, hba⟩
    exact (hcomponent b).2 ⟨hclosed.unvisited hav hab, hba.trans har⟩

theorem transGen_of_ne {a b : ℕ} (h : Reach edges a b) (hne : a ≠ b) :
    Relation.TransGen (Edge edges) a b := by
  rcases Relation.reflTransGen_iff_eq_or_transGen.1 h with rfl | h
  · exact absurd rfl hne
  · exact h

theorem exists_other {component : List ℕ} (h : component.Nodup) (hl : 1 < component.length)
    (a : ℕ) : ∃ b ∈ component, b ≠ a := by
  by_contra hno
  simp only [not_exists, not_and, not_not] at hno
  match component, h, hl with
  | b :: c :: rest, h, _ =>
    have hb := hno b (by simp)
    have hc := hno c (by simp)
    simp [hb, hc] at h

/-- A component is returned exactly when it holds a cycle. -/
theorem cycle_iff {component : List ℕ} {root : ℕ} (hd : component.Nodup)
    (hroot : root ∈ component)
    (hconnected : ∀ a ∈ component, ∀ b, b ∈ component ↔ Reach edges a b ∧ Reach edges b a) :
    (1 < component.length ∨ Edge edges root root) ↔
      ∃ a ∈ component, Relation.TransGen (Edge edges) a a := by
  constructor
  · rintro (hl | hedge)
    · obtain ⟨b, hb, hne⟩ := exists_other hd hl root
      obtain ⟨hrb, hbr⟩ := (hconnected root hroot b).1 hb
      exact ⟨root, hroot, (transGen_of_ne hrb hne.symm).trans_left hbr⟩
    · exact ⟨root, hroot, .single hedge⟩
  · rintro ⟨a, ha, hcycle⟩
    obtain ⟨b, hab, hba⟩ := Relation.TransGen.head'_iff.1 hcycle
    have hb := (hconnected a ha b).2 ⟨.single hab, hba⟩
    have htwo : ∀ {x y : ℕ}, x ∈ component → y ∈ component → x ≠ y → 1 < component.length := by
      intro x y hx hy hne
      match component, hx, hy with
      | [z], hx, hy =>
        exact absurd ((List.mem_singleton.1 hx).trans (List.mem_singleton.1 hy).symm) hne
      | _ :: _ :: rest, _, _ => simp
    by_cases hbr : b = root
    · by_cases har : a = root
      · exact .inr (by rwa [hbr, har] at hab)
      · exact .inl (htwo ha hroot har)
    · exact .inl (htwo hb hroot hbr)

theorem cycle_of_connected {component : List ℕ}
    (hconnected : ∀ a ∈ component, ∀ b, b ∈ component ↔ Reach edges a b ∧ Reach edges b a)
    {a b : ℕ} (ha : a ∈ component) (hb : b ∈ component)
    (hcycle : Relation.TransGen (Edge edges) a a) : Relation.TransGen (Edge edges) b b := by
  obtain ⟨hab, hba⟩ := (hconnected a ha b).1 hb
  exact (Relation.TransGen.trans_right hba hcycle).trans_left hab

theorem componentsFrom_spec (hc : Closed edges) {roots after visited : List ℕ}
    (horder : finishOrder edges = roots.reverse ++ after)
    (hafter : ∀ v ∈ after, v ∈ visited) (hinside : ∀ v ∈ visited, v < edges.length)
    (hdistinct : visited.Nodup) (hclosed : SourceClosed edges visited) :
    (∀ component ∈ componentsFrom edges visited roots, component ≠ [] ∧ Cyclic edges component) ∧
      ∀ v, v ∉ visited → Relation.TransGen (Edge edges) v v →
        ∃ component ∈ componentsFrom edges visited roots, v ∈ component := by
  induction roots generalizing after visited with
  | nil =>
    refine ⟨by simp [componentsFrom], fun v hv hcycle => ?_⟩
    obtain ⟨w, hvw, -⟩ := Relation.TransGen.head'_iff.1 hcycle
    have hm := ((finishOrder_nodes hc).2.1 v).2 hvw.lt
    rw [horder] at hm
    exact absurd (hafter v (by simpa using hm)) hv
  | cons root roots ih =>
    have horder' : finishOrder edges = roots.reverse ++ root :: after := by
      rw [horder]
      simp
    rw [componentsFrom]
    by_cases hv : root ∈ visited
    · rw [if_pos (by simpa using hv)]
      refine ih horder' ?_ hinside hdistinct hclosed
      rintro v hm
      rcases List.mem_cons.1 hm with rfl | hm
      · exact hv
      · exact hafter v hm
    · rw [if_neg (by simpa using hv)]
      have hlt : root < edges.length :=
        ((finishOrder_nodes hc).2.1 root).1 (by rw [horder']; simp)
      obtain ⟨hplaced, hnodup, hsources, hcomponent⟩ :=
        collect_spec hinside hdistinct hclosed hlt hv
      generalize collect edges (edges.length + 1) (root :: visited) [] [root] = result at *
      obtain ⟨grown, component⟩ := result
      dsimp only at *
      have hconnected := collected_connected hc horder hafter hclosed hcomponent
      have hroot : root ∈ component := (hcomponent root).2 ⟨hv, .refl⟩
      have hd : component.Nodup := (List.nodup_append.1 (hplaced.nodup_iff.1 hnodup)).1
      have hmem : ∀ v, v ∈ component.insertionSort (· ≤ ·) ↔ v ∈ component :=
        fun v => List.mem_insertionSort _
      obtain ⟨hsound, hcomplete⟩ := ih horder'
        (by
          rintro v hm
          rcases List.mem_cons.1 hm with rfl | hm
          · exact hplaced.mem_iff.2 (List.mem_append_left _ hroot)
          · exact hplaced.mem_iff.2 (List.mem_append_right _ (hafter v hm)))
        (by
          intro v hm
          rcases List.mem_append.1 (hplaced.mem_iff.1 hm) with hm | hm
          · rcases Relation.ReflTransGen.cases_head ((hcomponent v).1 hm).2 with rfl | ⟨_, h, -⟩
            · exact hlt
            · exact h.lt
          · exact hinside v hm)
        hnodup hsources
      have hthis : component.insertionSort (· ≤ ·) ≠ [] ∧
          ((∃ a ∈ component, Relation.TransGen (Edge edges) a a) →
            Cyclic edges (component.insertionSort (· ≤ ·))) := by
        refine ⟨List.ne_nil_of_mem ((hmem root).2 hroot), ?_⟩
        rintro ⟨a, ha, hcycle⟩
        refine ⟨?_, ?_, ?_⟩
        · have hsorted := List.pairwise_insertionSort (· ≤ ·) component
          have hdistinct := (List.perm_insertionSort (· ≤ ·) component).nodup_iff.2 hd
          exact (hsorted.and hdistinct).imp fun h => lt_of_le_of_ne h.1 h.2
        · intro a ha b
          rw [hmem] at ha ⊢
          exact hconnected a ha b
        · intro b hb
          exact cycle_of_connected hconnected ha ((hmem b).1 hb) hcycle
      have hcontains : (targetsOf edges root).contains root = true ↔ Edge edges root root :=
        List.contains_iff_mem
      have hcyclic := cycle_iff hd hroot hconnected
      rw [← hcontains] at hcyclic
      have hlater : ∀ v, v ∉ visited → v ∉ component → v ∉ grown := by
        intro v hv hm hg
        rcases List.mem_append.1 (hplaced.mem_iff.1 hg) with hg | hg
        · exact hm hg
        · exact hv hg
      split
      · rename_i hemit
        constructor
        · intro c hm
          rcases List.mem_cons.1 hm with rfl | hm
          · exact ⟨hthis.1, hthis.2 (hcyclic.1 hemit)⟩
          · exact hsound c hm
        · intro v hv hcycle
          by_cases hm : v ∈ component
          · exact ⟨_, List.mem_cons_self .., (hmem v).2 hm⟩
          · obtain ⟨c, hc, hvc⟩ := hcomplete v (hlater v hv hm) hcycle
            exact ⟨c, List.mem_cons_of_mem _ hc, hvc⟩
      · rename_i hemit
        refine ⟨hsound, fun v hv hcycle => ?_⟩
        by_cases hm : v ∈ component
        · exact absurd (hcyclic.2 ⟨v, hm, hcycle⟩) hemit
        · exact hcomplete v (hlater v hv hm) hcycle

/-- `cyclic_components` returns the strongly connected components that hold a cycle, and every
node of a cycle is in one. -/
theorem cyclicComponents_spec (hc : Closed edges) :
    (∀ component ∈ cyclicComponents edges, component ≠ [] ∧ Cyclic edges component) ∧
      ∀ v, Relation.TransGen (Edge edges) v v →
        ∃ component ∈ cyclicComponents edges, v ∈ component := by
  obtain ⟨hsound, hcomplete⟩ := @componentsFrom_spec edges hc (finishOrder edges).reverse [] []
    (by simp) (by simp) (by simp) List.nodup_nil (by simp [SourceClosed])
  unfold cyclicComponents
  constructor
  · exact fun component hm => hsound component ((List.mem_insertionSort _).1 hm)
  · intro v hcycle
    obtain ⟨component, hm, hv⟩ := hcomplete v (by simp) hcycle
    exact ⟨component, (List.mem_insertionSort _).2 hm, hv⟩

theorem acyclic_of_components (hc : Closed edges) (h : cyclicComponents edges = []) (v : ℕ) :
    ¬ Relation.TransGen (Edge edges) v v := by
  intro hcycle
  obtain ⟨component, hm, -⟩ := (cyclicComponents_spec hc).2 v hcycle
  rw [h] at hm
  cases hm

end UnitGraph
end FilamentCore.SemanticIr
