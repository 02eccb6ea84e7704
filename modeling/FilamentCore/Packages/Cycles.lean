import FilamentCore.Packages.Resolve

/-!
# Import cycles

`detectCycles` reports something exactly when the recorded edges have a cycle.
-/

namespace FilamentCore.Packages
open FilamentCore.Compiler FilamentCore.Library

/-- `b` is the target of an edge recorded on `a`. -/
def Follows (edges : OrderedMap String (List Edge)) (a b : String) : Prop :=
  ∃ edge ∈ (edges.get a).getD [], edge.target = b

section Cycles

variable {edges : OrderedMap String (List Edge)}

/-! ### The body of `visit` -/

namespace Search

/-- `state.set(node, "open"); stack.push(node)`. -/
def enter (s : Search) (node : String) : Search :=
  { s with state := s.state.set node .opened, stack := s.stack ++ [node] }

/-- `stack.pop(); state.set(node, "done")`. -/
def leave (s : Search) (node : String) : Search :=
  { s with stack := s.stack.dropLast, state := s.state.set node .done }

end Search

/-- One round of the loop over the edges of a node. -/
def follow (edges : OrderedMap String (List Edge)) (fuel : ℕ) (s : Search) (edge : Edge) :
    Search :=
  match s.state.get edge.target with
  | some .opened => reportCycle edges edge.target s
  | some .done => s
  | none => visit edges fuel edge.target s

theorem visit_succ (fuel : ℕ) (node : String) (s : Search) :
    visit edges (fuel + 1) node s =
      (((edges.get node).getD []).foldl (follow edges fuel) (s.enter node)).leave node := by
  rw [visit]
  rfl

variable (edges) in
theorem reportCycle_cases (target : String) (s : Search) :
    (s.reported ≠ [] ∧ reportCycle edges target s = s) ∨
      ∃ key d, reportCycle edges target s =
        { s with reported := s.reported ++ [key], diagnostics := s.diagnostics ++ [d] } := by
  unfold reportCycle
  dsimp only
  split
  · rename_i hmem
    exact Or.inl ⟨List.ne_nil_of_mem hmem, rfl⟩
  · exact Or.inr ⟨_, _, rfl⟩

/-! ### What is reported is a cycle -/

/-- The stack is the path to the node visited next, and holds every open node. -/
structure OnPath (edges : OrderedMap String (List Edge)) (s : Search) : Prop where
  opened : ∀ x, s.state.get x = some .opened → x ∈ s.stack

theorem chain_reaches {l : List String} {a b : String}
    (h : (l ++ [b]).IsChain (Follows edges)) (ha : a ∈ l ++ [b]) :
    Relation.ReflTransGen (Follows edges) a b :=
  h.backwards_induction (fun x => Relation.ReflTransGen (Follows edges) x b) _
    (fun _ _ hxy hy => hy.head hxy) (fun _ => by rw [List.getLast_concat]) a ha

/-- Where the edges have no cycle, a visit from the end of the stack reports nothing and
leaves the stack as it found it. -/
theorem visit_acyclic (hacyclic : ∀ x, ¬ Relation.TransGen (Follows edges) x x) (fuel : ℕ)
    (node : String) (s : Search) (hp : OnPath edges s)
    (hchain : (s.stack ++ [node]).IsChain (Follows edges)) :
    OnPath edges (visit edges fuel node s) ∧ (visit edges fuel node s).stack = s.stack ∧
      (visit edges fuel node s).diagnostics = s.diagnostics := by
  induction fuel generalizing node s with
  | zero => exact ⟨hp, rfl, rfl⟩
  | succ fuel ih =>
    rw [visit_succ]
    -- every round keeps the stack at the path that ends in `node`
    have hfold : OnPath edges (((edges.get node).getD []).foldl (follow edges fuel) (s.enter node)) ∧
        (((edges.get node).getD []).foldl (follow edges fuel) (s.enter node)).stack =
          s.stack ++ [node] ∧
        (((edges.get node).getD []).foldl (follow edges fuel) (s.enter node)).diagnostics =
          s.diagnostics := by
      refine List.foldlRecOn (motive := fun t : Search => OnPath edges t ∧
        t.stack = s.stack ++ [node] ∧ t.diagnostics = s.diagnostics) _ _ ⟨⟨?_⟩, rfl, rfl⟩ ?_
      · intro x hx
        simp only [Search.enter, OrderedMap.get_set] at hx
        split at hx
        · rename_i h
          simp [Search.enter, h]
        · exact List.mem_append_left _ (hp.opened x hx)
      · rintro t ⟨htp, hts, htd⟩ edge hedge
        have hfollows : Follows edges node edge.target := ⟨edge, hedge, rfl⟩
        unfold follow
        cases hst : t.state.get edge.target with
        | none =>
          obtain ⟨hip, his, hid⟩ := ih edge.target t htp (by
            rw [hts, List.append_assoc, List.singleton_append]
            exact List.isChain_append_cons_cons.2
              ⟨hchain, hfollows, List.isChain_singleton _⟩)
          exact ⟨hip, his.trans hts, hid.trans htd⟩
        | some st =>
          cases st with
          | done => exact ⟨htp, hts, htd⟩
          | opened =>
            have hmem : edge.target ∈ s.stack ++ [node] := hts ▸ htp.opened _ hst
            exact absurd (Relation.TransGen.tail' (chain_reaches hchain hmem) hfollows)
              (hacyclic edge.target)
    obtain ⟨hfp, hfs, hfd⟩ := hfold
    refine ⟨⟨fun x hx => ?_⟩, ?_, hfd⟩
    · simp only [Search.leave, OrderedMap.get_set] at hx
      split at hx
      · simp at hx
      · rename_i hne
        have hmem := hfp.opened x hx
        rw [hfs, List.mem_append, List.mem_singleton] at hmem
        simpa [Search.leave, hfs] using hmem.resolve_right hne
    · simp [Search.leave, hfs]

/-! ### Every cycle is reported -/

/-- What a search that reported nothing knows: no node that is done lies on a cycle, and
its targets are done. -/
structure Explored (edges : OrderedMap String (List Edge)) (s : Search) : Prop where
  closed : ∀ x, s.state.get x = some .done → ∀ y, Follows edges x y →
    s.state.get y = some .done
  acyclic : ∀ x, s.state.get x = some .done → ¬ Relation.TransGen (Follows edges) x x

theorem Explored.reaches {s : Search} (h : Explored edges s) {x y : String}
    (hx : s.state.get x = some .done) (hxy : Relation.ReflTransGen (Follows edges) x y) :
    s.state.get y = some .done := by
  induction hxy with
  | refl => exact hx
  | tail _ hstep ih => exact h.closed _ ih _ hstep

/-- `t` is a later state of a search in which `s` was a state. -/
structure Later (s t : Search) : Prop where
  told : (s.reported ≠ [] → s.diagnostics ≠ []) → t.reported ≠ [] → t.diagnostics ≠ []
  quiet : t.diagnostics = [] → s.diagnostics = []
  seen : ∀ x st, s.state.get x = some st → t.state.get x = some st

theorem Later.refl (s : Search) : Later s s := ⟨id, id, fun _ _ h => h⟩

theorem Later.trans {s t u : Search} (h : Later s t) (h' : Later t u) : Later s u :=
  ⟨fun hs => h'.told (h.told hs), fun hu => h.quiet (h'.quiet hu),
    fun x st hx => h'.seen x st (h.seen x st hx)⟩

theorem reportCycle_later (target : String) (s : Search) :
    Later s (reportCycle edges target s) := by
  obtain ⟨-, h⟩ | ⟨key, d, h⟩ := reportCycle_cases edges target s
  · rw [h]
    exact Later.refl s
  · rw [h]
    exact ⟨fun _ _ => by simp, fun hd => by simp at hd, fun _ _ hx => hx⟩

theorem reportCycle_loud (target : String) (s : Search)
    (hs : s.reported ≠ [] → s.diagnostics ≠ []) :
    (reportCycle edges target s).diagnostics ≠ [] := by
  obtain ⟨hne, h⟩ | ⟨key, d, h⟩ := reportCycle_cases edges target s
  · rw [h]
    exact hs hne
  · simp [h]

/-- The identities of `nodes` no visit entered yet. -/
def unseen (nodes : List String) (s : Search) : ℕ :=
  (nodes.filter fun x => s.state.get x = none).length

theorem unseen_le {nodes : List String} {s t : Search}
    (h : ∀ x st, s.state.get x = some st → ∃ st', t.state.get x = some st') :
    unseen nodes t ≤ unseen nodes s := by
  refine List.Sublist.length_le (List.monotone_filter_right _ fun x hx => ?_)
  rw [decide_eq_true_iff] at hx ⊢
  by_contra hs
  obtain ⟨st, hst⟩ := Option.ne_none_iff_exists'.1 hs
  obtain ⟨st', hst'⟩ := h x st hst
  rw [hx] at hst'
  exact absurd hst' (by simp)

theorem unseen_enter {nodes : List String} {s : Search} {node : String}
    (hmem : node ∈ nodes) (hnone : s.state.get node = none) :
    unseen nodes (s.enter node) < unseen nodes s := by
  have hsub : List.Sublist (nodes.filter fun x => (s.enter node).state.get x = none)
      ((nodes.filter fun x => s.state.get x = none).filter fun x => x ≠ node) := by
    rw [List.filter_filter]
    refine List.monotone_filter_right _ fun x hx => ?_
    simp only [decide_eq_true_iff, Search.enter, OrderedMap.get_set] at hx
    split at hx
    · simp at hx
    · rename_i hne
      simp [hx, hne]
  refine lt_of_le_of_lt hsub.length_le ?_
  refine List.length_filter_lt_length_iff_exists.2 ⟨node, List.mem_filter.2 ⟨hmem, ?_⟩, ?_⟩
  · simp [hnone]
  · simp

theorem visit_explores {nodes : List String}
    (hclosed : ∀ x ∈ nodes, ∀ y, Follows edges x y → y ∈ nodes) (fuel : ℕ)
    (node : String) (s : Search) (hmem : node ∈ nodes) (hnone : s.state.get node = none)
    (hfuel : unseen nodes s ≤ fuel) (htold : s.reported ≠ [] → s.diagnostics ≠ []) :
    Later s (visit edges fuel node s) ∧
      (Explored edges s → (visit edges fuel node s).diagnostics = [] →
        Explored edges (visit edges fuel node s) ∧
          (visit edges fuel node s).state.get node = some .done) := by
  induction fuel generalizing node s with
  | zero =>
    have hpos : 0 < unseen nodes s :=
      List.length_pos_of_mem (List.mem_filter.2 ⟨hmem, by simp [hnone]⟩)
    omega
  | succ fuel ih =>
    have hlt := unseen_enter hmem hnone
    have hround (t : Search) (ht : Later (s.enter node) t) (edge : Edge)
        (hedge : edge ∈ (edges.get node).getD []) :
        Later t (follow edges fuel t edge) ∧
          (Explored edges t → (follow edges fuel t edge).diagnostics = [] →
            Explored edges (follow edges fuel t edge) ∧
              (follow edges fuel t edge).state.get edge.target = some .done) := by
      have htold' := ht.told htold
      unfold follow
      cases hst : t.state.get edge.target with
      | none =>
        refine ih edge.target t (hclosed node hmem _ ⟨edge, hedge, rfl⟩) hst ?_ htold'
        have hle : unseen nodes t ≤ unseen nodes (s.enter node) :=
          unseen_le fun x st hx => ⟨st, ht.seen x st hx⟩
        omega
      | some st =>
        cases st with
        | done => exact ⟨Later.refl t, fun ht' _ => ⟨ht', hst⟩⟩
        | opened =>
          exact ⟨reportCycle_later _ t, fun _ hd => absurd hd (reportCycle_loud _ t htold')⟩
    -- the edges are followed one after the other; those behind are done
    have hfold (es : List Edge) (hes : ∀ edge ∈ es, edge ∈ (edges.get node).getD [])
        (t : Search) (ht : Later (s.enter node) t) :
        Later t (es.foldl (follow edges fuel) t) ∧
          (Explored edges t → (es.foldl (follow edges fuel) t).diagnostics = [] →
            Explored edges (es.foldl (follow edges fuel) t) ∧
              ∀ edge ∈ es,
                (es.foldl (follow edges fuel) t).state.get edge.target = some .done) := by
      induction es generalizing t with
      | nil => exact ⟨Later.refl t, fun ht' _ => ⟨ht', fun _ h => absurd h List.not_mem_nil⟩⟩
      | cons edge es ihes =>
        obtain ⟨hl, he⟩ := hround t ht edge (hes edge (List.mem_cons_self ..))
        obtain ⟨hl', he'⟩ := ihes (fun e h => hes e (List.mem_cons_of_mem _ h))
          (follow edges fuel t edge) (ht.trans hl)
        refine ⟨hl.trans hl', fun hx hd => ?_⟩
        obtain ⟨hxe, hdone⟩ := he hx (hl'.quiet hd)
        obtain ⟨hxs, hdones⟩ := he' hxe hd
        refine ⟨hxs, fun e h => ?_⟩
        rcases List.mem_cons.1 h with h | h
        · rw [h]
          exact hl'.seen _ _ hdone
        · exact hdones e h
    rw [visit_succ]
    obtain ⟨hl, hx⟩ := hfold ((edges.get node).getD []) (fun _ h => h) (s.enter node)
      (Later.refl _)
    generalize ((edges.get node).getD []).foldl (follow edges fuel) (s.enter node) = t at hl hx
    have hopen : t.state.get node = some .opened := by
      refine hl.seen node .opened ?_
      simp [Search.enter]
    refine ⟨⟨fun h => hl.told h, fun h => hl.quiet h, fun x st hs => ?_⟩, fun hs hd => ?_⟩
    · have hne : x ≠ node := fun h => by rw [h, hnone] at hs; exact absurd hs (by simp)
      simp only [Search.leave, OrderedMap.get_set_ne _ _ hne]
      refine hl.seen x st ?_
      simp only [Search.enter, OrderedMap.get_set_ne _ _ hne]
      exact hs
    · have hentered : Explored edges (s.enter node) := by
        constructor
        · intro x hx' y hxy
          simp only [Search.enter, OrderedMap.get_set] at hx' ⊢
          split at hx'
          · simp at hx'
          · have hy := hs.closed x hx' y hxy
            split
            · rename_i h
              rw [h, hnone] at hy
              exact absurd hy (by simp)
            · exact hy
        · intro x hx'
          simp only [Search.enter, OrderedMap.get_set] at hx'
          split at hx'
          · simp at hx'
          · exact hs.acyclic x hx'
      obtain ⟨hxt, hdone⟩ := hx hentered hd
      have hstays (y : String) (hy : t.state.get y = some .done) :
          (t.leave node).state.get y = some .done := by
        simp only [Search.leave, OrderedMap.get_set]
        split
        · rfl
        · exact hy
      refine ⟨⟨fun x hx' y hxy => ?_, fun x hx' hcycle => ?_⟩, ?_⟩
      · refine hstays y ?_
        simp only [Search.leave, OrderedMap.get_set] at hx'
        split at hx'
        · rename_i h
          rw [h] at hxy
          obtain ⟨edge, hedge, htarget⟩ := hxy
          rw [← htarget]
          exact hdone edge hedge
        · exact hxt.closed x hx' y hxy
      · simp only [Search.leave, OrderedMap.get_set] at hx'
        split at hx'
        · rename_i h
          rw [h] at hcycle
          -- the first step of the cycle ends in a done node, from which `node` is not reached
          obtain ⟨y, ⟨edge, hedge, htarget⟩, hback⟩ := Relation.TransGen.head'_iff.1 hcycle
          have hn := hxt.reaches (htarget ▸ hdone edge hedge) hback
          rw [hopen] at hn
          exact absurd hn (by simp)
        · exact hxt.acyclic x hx' hcycle
      · simp [Search.leave]

theorem visit_opened (fuel : ℕ) (node : String) (s : Search) (x : String)
    (hx : (visit edges fuel node s).state.get x = some .opened) :
    s.state.get x = some .opened := by
  induction fuel generalizing node s x with
  | zero => exact hx
  | succ fuel ih =>
    have hfold : ∀ x, (((edges.get node).getD []).foldl (follow edges fuel)
        (s.enter node)).state.get x = some .opened → x = node ∨ s.state.get x = some .opened := by
      refine List.foldlRecOn (motive := fun t : Search => ∀ x, t.state.get x = some .opened →
        x = node ∨ s.state.get x = some .opened) _ _ ?_ ?_
      · intro x hx
        simp only [Search.enter, OrderedMap.get_set] at hx
        split at hx
        · rename_i h
          exact Or.inl h
        · exact Or.inr hx
      · intro t ht edge _ x hx
        refine ht x ?_
        unfold follow at hx
        cases hst : t.state.get edge.target with
        | none =>
          rw [hst] at hx
          exact ih _ _ _ hx
        | some st =>
          rw [hst] at hx
          cases st with
          | done => exact hx
          | opened =>
            obtain ⟨-, h⟩ | ⟨key, d, h⟩ := reportCycle_cases edges edge.target t
            · rwa [h] at hx
            · rwa [h] at hx
    rw [visit_succ] at hx
    simp only [Search.leave, OrderedMap.get_set] at hx
    split at hx
    · simp at hx
    · rename_i hne
      exact (hfold x hx).resolve_left hne

/-! ### The whole search -/

/-- One round of the loop over the sorted nodes. -/
def visitUnseen (edges : OrderedMap String (List Edge)) (s : Search) (node : String) : Search :=
  match s.state.get node with
  | some _ => s
  | none => visit edges (nodeBound edges) node s

def initialSearch : Search := ⟨OrderedMap.empty, [], [], []⟩

theorem detectCycles_eq (edges : OrderedMap String (List Edge)) :
    detectCycles edges = ((sortByIdentity id edges.keys).foldl (visitUnseen edges)
      initialSearch).diagnostics := rfl

theorem detectCycles_acyclic (hacyclic : ∀ x, ¬ Relation.TransGen (Follows edges) x x) :
    detectCycles edges = [] := by
  rw [detectCycles_eq]
  have hrun : OnPath edges ((sortByIdentity id edges.keys).foldl (visitUnseen edges)
        initialSearch) ∧
      ((sortByIdentity id edges.keys).foldl (visitUnseen edges) initialSearch).stack = [] ∧
      ((sortByIdentity id edges.keys).foldl (visitUnseen edges) initialSearch).diagnostics =
        [] := by
    refine List.foldlRecOn (motive := fun s : Search => OnPath edges s ∧ s.stack = [] ∧
      s.diagnostics = []) _ _ ⟨⟨fun x hx => ?_⟩, rfl, rfl⟩ ?_
    · simp [initialSearch] at hx
    · rintro s ⟨hp, hs, hd⟩ node -
      unfold visitUnseen
      cases s.state.get node with
      | some st => exact ⟨hp, hs, hd⟩
      | none =>
        obtain ⟨hp', hs', hd'⟩ := visit_acyclic hacyclic (nodeBound edges) node s hp
          (by rw [hs]; exact List.isChain_singleton _)
        exact ⟨hp', hs'.trans hs, hd'.trans hd⟩
  exact hrun.2.2

def mentioned (edges : OrderedMap String (List Edge)) : List String :=
  edges.keys ++ (edges.values.flatMap id).map (·.target)

theorem Follows.mem_keys {x y : String} (h : Follows edges x y) : x ∈ edges.keys := by
  obtain ⟨edge, hedge, -⟩ := h
  cases hg : edges.get x with
  | none => simp [hg] at hedge
  | some es => exact (OrderedMap.mem_keys_iff _ _).2 ⟨es, hg⟩

theorem Follows.mentioned {x y : String} (h : Follows edges x y) : y ∈ mentioned edges := by
  obtain ⟨edge, hedge, htarget⟩ := h
  cases hg : edges.get x with
  | none => simp [hg] at hedge
  | some es =>
    rw [hg, Option.getD_some] at hedge
    refine List.mem_append_right _ (List.mem_map.2 ⟨edge, List.mem_flatMap.2 ⟨es, ?_, hedge⟩,
      htarget⟩)
    exact (OrderedMap.mem_values_iff _ _).2 ⟨x, hg⟩

/-- What the loop over the nodes keeps, `visited` being the nodes behind it. -/
structure Visited (edges : OrderedMap String (List Edge)) (visited : List String) (s : Search) :
    Prop where
  told : s.reported ≠ [] → s.diagnostics ≠ []
  closed : ∀ x, s.state.get x ≠ some .opened
  explored : s.diagnostics = [] → Explored edges s ∧
    ∀ x ∈ visited, s.state.get x = some .done

theorem visitUnseen_visited {visited : List String} {s : Search} (hv : Visited edges visited s)
    {node : String} (hnode : node ∈ edges.keys) :
    Visited edges (visited ++ [node]) (visitUnseen edges s node) := by
  unfold visitUnseen
  cases hst : s.state.get node with
  | some st =>
    have hdone : s.state.get node = some .done := by
      cases st with
      | opened => exact absurd hst (hv.closed node)
      | done => exact hst
    refine ⟨hv.told, hv.closed, fun hd => ⟨(hv.explored hd).1, fun x hx => ?_⟩⟩
    rw [List.mem_append, List.mem_singleton] at hx
    rcases hx with hx | hx
    · exact (hv.explored hd).2 x hx
    · rw [hx]
      exact hdone
  | none =>
    have hfuel : unseen (mentioned edges) s ≤ nodeBound edges := by
      have hle : unseen (mentioned edges) s ≤ (mentioned edges).length :=
        List.length_filter_le _ _
      exact hle.trans (Nat.le_succ _)
    obtain ⟨hl, hx⟩ := @visit_explores edges (mentioned edges)
      (fun _ _ _ h => h.mentioned) (nodeBound edges) node s
      (List.mem_append_left _ hnode) hst hfuel hv.told
    refine ⟨hl.told hv.told, fun x h => hv.closed x (visit_opened _ _ _ _ h), fun hd => ?_⟩
    obtain ⟨hexp, hdone⟩ := hx (hv.explored (hl.quiet hd)).1 hd
    refine ⟨hexp, fun x hx => ?_⟩
    rw [List.mem_append, List.mem_singleton] at hx
    rcases hx with hx | hx
    · exact hl.seen x _ ((hv.explored (hl.quiet hd)).2 x hx)
    · rw [hx]
      exact hdone

variable (edges) in
theorem detectCycles_visited (nodes visited : List String) (s : Search)
    (hnodes : ∀ x ∈ nodes, x ∈ edges.keys) (hv : Visited edges visited s) :
    Visited edges (visited ++ nodes) (nodes.foldl (visitUnseen edges) s) := by
  induction nodes generalizing visited s with
  | nil => simpa using hv
  | cons node nodes ih =>
    have hnext := visitUnseen_visited hv (hnodes node (List.mem_cons_self ..))
    have h := ih (visited ++ [node]) _ (fun x hx => hnodes x (List.mem_cons_of_mem _ hx)) hnext
    rwa [List.append_assoc, List.singleton_append] at h

/-- `detectCycles` reports something exactly when an identity follows itself. -/
theorem detectCycles_ne_nil_iff (edges : OrderedMap String (List Edge)) :
    detectCycles edges ≠ [] ↔ ∃ x, Relation.TransGen (Follows edges) x x := by
  constructor
  · intro h
    by_contra hno
    exact h (detectCycles_acyclic fun x hx => hno ⟨x, hx⟩)
  · rintro ⟨x, hx⟩ hd
    have hv := detectCycles_visited edges (sortByIdentity id edges.keys) []
      initialSearch (fun y hy => by rwa [sortByIdentity, List.mem_insertionSort] at hy)
      ⟨fun h => absurd rfl h, fun y hy => by simp [initialSearch] at hy, fun _ =>
        ⟨⟨fun y hy => by simp [initialSearch] at hy, fun y hy => by simp [initialSearch] at hy⟩,
          fun y hy => absurd hy List.not_mem_nil⟩⟩
    obtain ⟨hexp, hdone⟩ := hv.explored hd
    obtain ⟨y, hxy, -⟩ := Relation.TransGen.head'_iff.1 hx
    refine hexp.acyclic x (hdone x ?_) hx
    rw [List.nil_append, sortByIdentity, List.mem_insertionSort]
    exact hxy.mem_keys

theorem detectCycles_code (edges : OrderedMap String (List Edge)) :
    ∀ d ∈ detectCycles edges, d.code = .packageCycle := by
  have hreport (target : String) (s : Search) (hs : ∀ d ∈ s.diagnostics, d.code = .packageCycle) :
      ∀ d ∈ (reportCycle edges target s).diagnostics, d.code = .packageCycle := by
    unfold reportCycle
    dsimp only
    split
    · exact hs
    · intro d hd
      rw [List.mem_append, List.mem_singleton] at hd
      rcases hd with hd | hd
      · exact hs d hd
      · rw [hd]
        rfl
  have hvisit (fuel : ℕ) : ∀ node s, (∀ d ∈ s.diagnostics, d.code = .packageCycle) →
      ∀ d ∈ (visit edges fuel node s).diagnostics, d.code = .packageCycle := by
    induction fuel with
    | zero => exact fun _ _ h => h
    | succ fuel ih =>
      intro node s hs
      rw [visit_succ]
      refine List.foldlRecOn (motive := fun t : Search => ∀ d ∈ t.diagnostics,
        d.code = .packageCycle) _ _ hs fun t ht edge _ => ?_
      unfold follow
      cases t.state.get edge.target with
      | none => exact ih _ _ ht
      | some st =>
        cases st with
        | done => exact ht
        | opened => exact hreport _ _ ht
  rw [detectCycles_eq]
  refine List.foldlRecOn (motive := fun t : Search => ∀ d ∈ t.diagnostics,
    d.code = .packageCycle) _ _ (fun d hd => absurd hd List.not_mem_nil) fun s hs node _ => ?_
  unfold visitUnseen
  cases s.state.get node with
  | some st => exact hs
  | none => exact hvisit _ _ _ hs

end Cycles
end FilamentCore.Packages
