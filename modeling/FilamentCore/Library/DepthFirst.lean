import Mathlib.Data.List.Lex
import Mathlib.Data.List.Nodup

/-!
# Depth-first search over labelled edges

Each node is entered once, along the least of the simple paths that lead to it.
-/

namespace FilamentCore.Library.DepthFirst

variable {V L : Type*} (edges : V → List (L × V))

/-- The nodes entered before and in a search, and those it entered with the labels of the path. -/
abbrev Found (V L : Type*) := List V × List (V × List L)

/-- One edge after the other. -/
def followAll (visit : V → List L → List V → Option (Found V L)) :
    List (L × V) → List L → List V → Option (Found V L)
  | [], _, seen => some (seen, [])
  | (l, w) :: es, path, seen =>
    (visit w (path ++ [l]) seen).bind fun first =>
      (followAll visit es path first.1).map fun rest => (rest.1, first.2 ++ rest.2)

/-- The search from a node, none when the fuel ends. -/
def visit [DecidableEq V] : ℕ → V → List L → List V → Option (Found V L)
  | 0, _, _, _ => none
  | fuel + 1, v, path, seen =>
    if v ∈ seen then some (seen, [])
    else (followAll (visit fuel) (edges v) path (v :: seen)).map fun rest =>
      (rest.1, (v, path) :: rest.2)

/-- A path along the labels. -/
inductive Walk : V → List L → V → Prop
  | nil (v : V) : Walk v [] v
  | cons {v w u : V} {l : L} {ls : List L} : (l, w) ∈ edges v → Walk w ls u → Walk v (l :: ls) u

/-- A path whose nodes are all different and none of `seen`. -/
inductive Simple : List V → V → List L → V → Prop
  | nil {seen : List V} {v : V} : v ∉ seen → Simple seen v [] v
  | cons {seen : List V} {v w u : V} {l : L} {ls : List L} : v ∉ seen → (l, w) ∈ edges v →
      Simple (v :: seen) w ls u → Simple seen v (l :: ls) u

/-- The successors of the nodes of `entered` that are not in `before` are in `entered`. -/
def Closed (before entered : List V) : Prop :=
  ∀ v ∈ entered, v ∉ before → ∀ e ∈ edges v, e.2 ∈ entered

variable {edges} {seen entered : List V} {v u : V} {ls : List L}

/-! ### Simple paths -/

theorem Simple.end_notMem (h : Simple edges seen v ls u) : u ∉ seen := by
  induction h with
  | nil h => exact h
  | cons _ _ _ ih => exact fun hu => ih (List.mem_cons_of_mem _ hu)

theorem Simple.mono {seen' : List V} (h : Simple edges seen v ls u) (hsub : seen' ⊆ seen) :
    Simple edges seen' v ls u := by
  induction h generalizing seen' with
  | nil h => exact .nil fun hv => h (hsub hv)
  | cons h he _ ih => exact .cons (fun hv => h (hsub hv)) he (ih (List.cons_subset_cons _ hsub))

theorem Simple.walk (h : Simple edges seen v ls u) : Walk edges v ls u := by
  induction h with
  | nil _ => exact .nil _
  | cons _ he _ ih => exact .cons he ih

/-- A simple path does not leave what is closed but for `seen`. -/
theorem Simple.trapped (h : Simple edges seen v ls u) (hv : v ∈ entered)
    (hclosed : Closed edges seen entered) : u ∈ entered := by
  induction h with
  | nil _ => exact hv
  | cons hseen he _ ih =>
    refine ih (hclosed _ hv hseen _ he) fun a ha hout => hclosed a ha fun hmem => ?_
    exact hout (List.mem_cons_of_mem _ hmem)

theorem Simple.outside (h : Simple edges seen v ls u) (hu : u ∉ entered)
    (hclosed : Closed edges seen entered) (hsub : seen ⊆ entered) :
    Simple edges entered v ls u := by
  induction h generalizing entered with
  | nil _ => exact .nil hu
  | @cons seen v w u l ls hseen he hrest ih =>
    have hv : v ∉ entered := by
      intro hv
      exact hu (Simple.trapped (.cons hseen he hrest) hv hclosed)
    have hne : u ≠ v := by
      rintro rfl
      exact hrest.end_notMem (List.mem_cons_self ..)
    refine .cons hv he (ih ?_ ?_ (List.cons_subset_cons _ hsub))
    · intro hmem
      rcases List.mem_cons.1 hmem with heq | hmem
      · exact hne heq
      · exact hu hmem
    · intro a ha hout e hae
      rcases List.mem_cons.1 ha with rfl | ha
      · exact absurd (List.mem_cons_self ..) hout
      · exact List.mem_cons_of_mem _ (hclosed a ha (fun hmem => hout (List.mem_cons_of_mem _ hmem))
          e hae)

theorem Walk.trapped (h : Walk edges v ls u) (hv : v ∈ entered)
    (hclosed : Closed edges [] entered) : u ∈ entered := by
  induction h with
  | nil _ => exact hv
  | cons he _ ih => exact ih (hclosed _ hv List.not_mem_nil _ he)

/-! ### What a search enters -/

variable (edges) in
/-- What a search adds to the nodes it has seen: each once, with all their successors. -/
structure Explored (before : List V) (found : List (V × List L)) (after : List V) : Prop where
  mem : ∀ u, u ∈ after ↔ u ∈ before ∨ u ∈ found.map Prod.fst
  nodup : (found.map Prod.fst).Nodup
  fresh : ∀ u ∈ found.map Prod.fst, u ∉ before
  closed : ∀ u ∈ found.map Prod.fst, ∀ e ∈ edges u, e.2 ∈ after

theorem Explored.subset {before after : List V} {found : List (V × List L)}
    (h : Explored edges before found after) : before ⊆ after :=
  fun u hu => (h.mem u).2 (.inl hu)

theorem Explored.nil (seen : List V) : Explored edges seen [] seen where
  mem u := by simp
  nodup := List.nodup_nil
  fresh u hu := by cases hu
  closed u hu := by cases hu

theorem Explored.append {a b c : List V} {first rest : List (V × List L)}
    (h : Explored edges a first b) (h' : Explored edges b rest c) :
    Explored edges a (first ++ rest) c where
  mem u := by
    rw [h'.mem, h.mem, List.map_append, List.mem_append, or_assoc]
  nodup := by
    rw [List.map_append]
    refine List.Nodup.append h.nodup h'.nodup fun u hu hu' => ?_
    exact h'.fresh u hu' ((h.mem u).2 (.inr hu))
  fresh u hu := by
    rw [List.map_append] at hu
    rcases List.mem_append.1 hu with hu | hu
    · exact h.fresh u hu
    · exact fun hmem => h'.fresh u hu (h.subset hmem)
  closed u hu e he := by
    rw [List.map_append] at hu
    rcases List.mem_append.1 hu with hu | hu
    · exact h'.subset (h.closed u hu e he)
    · exact h'.closed u hu e he

/-- What was entered is closed but for what was seen before. -/
theorem Explored.closed_after {before after : List V} {found : List (V × List L)}
    (h : Explored edges before found after) : Closed edges before after := by
  intro u hu hout e he
  exact h.closed u (((h.mem u).1 hu).resolve_left hout) e he

variable (edges) in
/-- The labels lead to the node, and no simple path has less. -/
def Least (lt : L → L → Prop) (seen : List V) (v : V) (ls : List L) (u : V) : Prop :=
  Simple edges seen v ls u ∧ ∀ ls', Simple edges seen v ls' u → ls' = ls ∨ List.Lex lt ls ls'

variable (edges) in
/-- The path of a found node: an edge, after those whose nodes have been seen, and a least path
from there. -/
structure Branch (lt : L → L → Prop) (es : List (L × V)) (path : List L) (seen : List V)
    (found : V × List L) (earlier : List (L × V)) (l : L) (w : V) (later : List (L × V))
    (entered : List V) (ls : List L) : Prop where
  edges_eq : es = earlier ++ (l, w) :: later
  path_eq : found.2 = path ++ l :: ls
  least : Least edges lt entered w ls found.1
  subset : seen ⊆ entered
  closed : Closed edges seen entered
  before : ∀ e ∈ earlier, e.2 ∈ entered

variable {lt : L → L → Prop}

variable (edges) in
/-- What a search from a node does. -/
def Searches (lt : L → L → Prop) (search : V → List L → List V → Option (Found V L)) : Prop :=
  ∀ v path seen after found, search v path seen = some (after, found) →
    Explored edges seen found after ∧ v ∈ after ∧
      ∀ p ∈ found, ∃ ls, p.2 = path ++ ls ∧ Least edges lt seen v ls p.1

theorem followAll_spec {search : V → List L → List V → Option (Found V L)}
    (hsearch : Searches edges lt search) (es : List (L × V)) (path : List L)
    (seen after : List V) (found : List (V × List L))
    (h : followAll search es path seen = some (after, found)) :
    Explored edges seen found after ∧ (∀ e ∈ es, e.2 ∈ after) ∧
      ∀ p ∈ found, ∃ earlier l w later entered ls,
        Branch edges lt es path seen p earlier l w later entered ls := by
  induction es generalizing seen after found with
  | nil =>
    obtain ⟨rfl, rfl⟩ := Prod.mk.inj (Option.some.inj h)
    refine ⟨.nil seen, fun e he => ?_, fun p hp => ?_⟩
    · cases he
    · cases hp
  | cons e es ih =>
    obtain ⟨l, w⟩ := e
    rw [followAll, Option.bind_eq_some_iff] at h
    obtain ⟨⟨middle, first⟩, hfirst, h⟩ := h
    obtain ⟨⟨after', rest⟩, hrest, heq⟩ := Option.map_eq_some_iff.1 h
    obtain ⟨rfl, rfl⟩ := Prod.mk.inj heq
    obtain ⟨hexplored, hw, hleast⟩ := hsearch w _ seen middle first hfirst
    obtain ⟨hexplored', hes, hbranch⟩ := ih middle after' rest hrest
    refine ⟨hexplored.append hexplored', ?_, fun p hp => ?_⟩
    · exact List.forall_mem_cons.2 ⟨hexplored'.subset hw, hes⟩
    · rcases List.mem_append.1 hp with hp | hp
      · obtain ⟨ls, hpath, hls⟩ := hleast p hp
        refine ⟨[], l, w, es, seen, ls, rfl, ?_, hls, List.Subset.refl _,
          fun u hu hout => absurd hu hout, fun e he => ?_⟩
        · rw [hpath, List.append_assoc]
          rfl
        · cases he
      · obtain ⟨earlier, l', w', later, entered, ls, hb⟩ := hbranch p hp
        refine ⟨(l, w) :: earlier, l', w', later, entered, ls, ?_, hb.path_eq, hb.least,
          fun u hu => hb.subset (hexplored.subset hu), ?_, ?_⟩
        · rw [hb.edges_eq]
          rfl
        · intro u hu hout e he
          by_cases hmem : u ∈ middle
          · exact hb.subset (hexplored.closed_after u hmem hout e he)
          · exact hb.closed u hu hmem e he
        · exact List.forall_mem_cons.2 ⟨hb.subset hw, hb.before⟩

/-- A branch of the search is a least path when the labels of the edges ascend. -/
theorem Branch.path_least {path : List L} {p : V × List L}
    {earlier later : List (L × V)} {l : L} {w : V}
    (h : Branch edges lt (edges v) path (v :: seen) p earlier l w later entered ls)
    (hsorted : (edges v).Pairwise fun a b => lt a.1 b.1) (hv : v ∉ seen) :
    Least edges lt seen v (l :: ls) p.1 := by
  have hedge : (l, w) ∈ edges v := by
    rw [h.edges_eq]
    exact List.mem_append_right _ (List.mem_cons_self ..)
  have hend : p.1 ∉ entered := h.least.1.end_notMem
  refine ⟨.cons hv hedge (h.least.1.mono h.subset), fun ls' hls' => ?_⟩
  cases hls' with
  | nil _ => exact absurd (h.subset (List.mem_cons_self ..)) hend
  | @cons _ _ w' _ l' ls' _ hedge' hrest =>
    have hout : w' ∉ entered := fun hmem => hend (hrest.trapped hmem h.closed)
    rw [h.edges_eq] at hedge' hsorted
    rcases List.mem_append.1 hedge' with hearlier | hlater
    · exact absurd (h.before _ hearlier) hout
    · rcases List.mem_cons.1 hlater with heq | hlater
      · obtain ⟨rfl, rfl⟩ := Prod.mk.inj heq
        rcases h.least.2 ls' (hrest.outside hend h.closed h.subset) with rfl | hlt
        · exact .inl rfl
        · exact .inr (.cons hlt)
      · have hpair := (List.pairwise_append.1 hsorted).2.1
        exact .inr (.rel (List.rel_of_pairwise_cons hpair hlater))

theorem visit_spec [DecidableEq V] (hsorted : ∀ v, (edges v).Pairwise fun a b => lt a.1 b.1)
    (fuel : ℕ) : Searches edges lt (visit edges fuel) := by
  induction fuel with
  | zero =>
    intro v path seen after found h
    cases h
  | succ fuel ih =>
    intro v path seen after found h
    rw [visit] at h
    split at h
    · rename_i hv
      obtain ⟨rfl, rfl⟩ := Prod.mk.inj (Option.some.inj h)
      refine ⟨.nil seen, hv, fun p hp => ?_⟩
      cases hp
    · rename_i hv
      obtain ⟨⟨after', rest⟩, hrest, heq⟩ := Option.map_eq_some_iff.1 h
      obtain ⟨rfl, rfl⟩ := Prod.mk.inj heq
      obtain ⟨hexplored, hes, hbranch⟩ := followAll_spec ih (edges v) path _ _ _ hrest
      have hself : v ∈ after' := hexplored.subset (List.mem_cons_self ..)
      refine ⟨⟨fun u => ?_, ?_, ?_, ?_⟩, hself, ?_⟩
      · rw [hexplored.mem, List.map_cons, List.mem_cons, List.mem_cons]
        tauto
      · rw [List.map_cons, List.nodup_cons]
        exact ⟨fun hmem => hexplored.fresh v hmem (List.mem_cons_self ..), hexplored.nodup⟩
      · rw [List.map_cons]
        exact List.forall_mem_cons.2 ⟨hv, fun u hu hmem =>
          hexplored.fresh u hu (List.mem_cons_of_mem _ hmem)⟩
      · rw [List.map_cons]
        exact List.forall_mem_cons.2 ⟨hes, hexplored.closed⟩
      · refine List.forall_mem_cons.2 ⟨⟨[], (List.append_nil _).symm, .nil hv, ?_⟩, fun p hp => ?_⟩
        · intro ls' hls'
          cases hls' with
          | nil _ => exact .inl rfl
          | cons _ _ hrest => exact absurd (List.mem_cons_self ..) hrest.end_notMem
        · obtain ⟨earlier, l, w, later, entered, ls, hb⟩ := hbranch p hp
          exact ⟨l :: ls, hb.path_eq, hb.path_least (hsorted v) hv⟩

/-! ### Termination -/

section Termination

variable [DecidableEq V]

def unseen (nodes seen : List V) : ℕ := (nodes.filter (· ∉ seen)).length

theorem unseen_mono {nodes seen seen' : List V} (h : seen ⊆ seen') :
    unseen nodes seen' ≤ unseen nodes seen := by
  refine List.Sublist.length_le (List.monotone_filter_right nodes fun u hu => ?_)
  simp only [decide_eq_true_eq] at hu ⊢
  exact fun hmem => hu (h hmem)

theorem unseen_cons {nodes : List V} (hmem : v ∈ nodes) (hv : v ∉ seen) :
    unseen nodes (v :: seen) < unseen nodes seen := by
  have hsub : nodes.filter (· ∉ v :: seen) = (nodes.filter (· ∉ seen)).filter (· ≠ v) := by
    rw [List.filter_filter]
    refine List.filter_congr fun u _ => ?_
    simp [not_or]
  rw [unseen, unseen, hsub]
  exact List.length_filter_lt_length_iff_exists.2 ⟨v, by simp [hmem, hv], by simp⟩

theorem followAll_isSome {search : V → List L → List V → Option (Found V L)} {bound : ℕ}
    {nodes : List V} (hsearch : ∀ v ∈ nodes, ∀ path seen, unseen nodes seen ≤ bound →
      ∃ after found, search v path seen = some (after, found) ∧ seen ⊆ after)
    (es : List (L × V)) (hes : ∀ e ∈ es, e.2 ∈ nodes) (path : List L) (seen : List V)
    (hbound : unseen nodes seen ≤ bound) :
    ∃ after found, followAll search es path seen = some (after, found) ∧ seen ⊆ after := by
  induction es generalizing seen with
  | nil => exact ⟨seen, [], rfl, List.Subset.refl _⟩
  | cons e es ih =>
    obtain ⟨l, w⟩ := e
    obtain ⟨hw, hrest⟩ := List.forall_mem_cons.1 hes
    obtain ⟨middle, first, hfirst, hsub⟩ := hsearch w hw (path ++ [l]) seen hbound
    obtain ⟨after, rest, hafter, hsub'⟩ :=
      ih hrest middle ((unseen_mono hsub).trans hbound)
    refine ⟨after, first ++ rest, ?_, fun u hu => hsub' (hsub hu)⟩
    rw [followAll, hfirst, Option.bind_some, hafter]
    rfl

theorem visit_isSome {nodes : List V} (hnodes : ∀ v ∈ nodes, ∀ e ∈ edges v, e.2 ∈ nodes)
    (fuel : ℕ) (v : V) (hv : v ∈ nodes) (path : List L) (seen : List V)
    (hfuel : unseen nodes seen < fuel) :
    ∃ after found, visit edges fuel v path seen = some (after, found) ∧ seen ⊆ after := by
  induction fuel generalizing v path seen with
  | zero => omega
  | succ fuel ih =>
    rw [visit]
    split
    · exact ⟨seen, [], rfl, List.Subset.refl _⟩
    · rename_i hnew
      have hless : unseen nodes (v :: seen) < fuel := by
        have hcons := unseen_cons hv hnew
        omega
      obtain ⟨after, found, hfound, hsub⟩ := followAll_isSome
        (fun w hw path' seen' hb => ih w hw path' seen' (Nat.lt_of_le_of_lt hb hless))
        (edges v) (hnodes v hv) path (v :: seen) le_rfl
      refine ⟨after, (v, path) :: found, ?_, fun u hu => hsub (List.mem_cons_of_mem _ hu)⟩
      rw [hfound]
      rfl

end Termination

/-! ### A whole search -/

section Whole

variable {fuel : ℕ} {start : V} {after : List V} {found : List (V × List L)}

/-- A search from the start finds what can be reached, once, along least paths. -/
structure Finds (edges : V → List (L × V)) (lt : L → L → Prop) (start : V)
    (found : List (V × List L)) : Prop where
  nodup : (found.map Prod.fst).Nodup
  reached : ∀ u, u ∈ found.map Prod.fst ↔ ∃ ls, Walk edges start ls u
  least : ∀ p ∈ found, Least edges lt [] start p.2 p.1

theorem visit_finds [DecidableEq V] (hsorted : ∀ v, (edges v).Pairwise fun a b => lt a.1 b.1)
    (h : visit edges fuel start [] [] = some (after, found)) : Finds edges lt start found := by
  obtain ⟨hexplored, hstart, hleast⟩ := visit_spec hsorted fuel start [] [] after found h
  have hlabels : ∀ p ∈ found, Least edges lt [] start p.2 p.1 := by
    intro p hp
    obtain ⟨ls, hpath, hls⟩ := hleast p hp
    rwa [hpath, List.nil_append]
  refine ⟨hexplored.nodup, fun u => ⟨fun hu => ?_, fun hu => ?_⟩, hlabels⟩
  · obtain ⟨p, hp, rfl⟩ := List.mem_map.1 hu
    exact ⟨p.2, (hlabels p hp).1.walk⟩
  · obtain ⟨ls, hwalk⟩ := hu
    have hafter := hwalk.trapped hstart hexplored.closed_after
    exact ((hexplored.mem u).1 hafter).resolve_left List.not_mem_nil

end Whole

/-! ### Two orders of the labels -/

variable (edges) in
def Labelled : Prop := ∀ v l w w', (l, w) ∈ edges v → (l, w') ∈ edges v → w = w'

theorem Walk.unique (hlabels : Labelled edges) {u' : V} (h : Walk edges v ls u)
    (h' : Walk edges v ls u') : u = u' := by
  induction h with
  | nil _ =>
    cases h' with
    | nil _ => rfl
  | cons he _ ih =>
    cases h' with
    | cons he' hrest =>
      obtain rfl := hlabels _ _ _ _ he he'
      exact ih hrest

variable {lt' : L → L → Prop}

theorem Simple.not_both [Std.Irrefl lt] [Std.Irrefl lt']
    (hopposite : ∀ l l' : L, lt l l' → ¬ lt' l l') (hlabels : Labelled edges) {ls' : List L}
    (h : Simple edges seen v ls u) (h' : Simple edges seen v ls' u) (hlt : List.Lex lt ls ls') :
    ¬ List.Lex lt' ls ls' := by
  induction h generalizing ls' with
  | nil _ =>
    intro _
    cases h' with
    | nil _ => cases hlt
    | cons _ _ hrest => exact hrest.end_notMem (List.mem_cons_self ..)
  | cons hout he _ ih =>
    intro hlt'
    cases h' with
    | nil _ => cases hlt
    | cons _ he' hrest =>
      cases hlt with
      | rel hl =>
        cases hlt' with
        | rel hl' => exact hopposite _ _ hl hl'
        | cons _ => exact Std.Irrefl.irrefl _ hl
      | cons hls =>
        cases hlt' with
        | rel hl' => exact Std.Irrefl.irrefl _ hl'
        | cons hls' =>
          obtain rfl := hlabels _ _ _ _ he he'
          exact ih hrest hls hls'

/-- The least path in one order is the least in the other exactly when there is no second. -/
theorem least_eq_iff [Std.Irrefl lt] [Std.Irrefl lt']
    (hopposite : ∀ l l' : L, lt l l' → ¬ lt' l l') (hlabels : Labelled edges) {ls' : List L}
    (h : Least edges lt seen v ls u) (h' : Least edges lt' seen v ls' u) :
    ls = ls' ↔ ∀ a b, Simple edges seen v a u → Simple edges seen v b u → a = b := by
  constructor
  · rintro rfl
    have hall : ∀ a, Simple edges seen v a u → a = ls := by
      intro a ha
      rcases h.2 a ha with heq | hlt
      · exact heq
      · rcases h'.2 a ha with heq | hlt'
        · exact heq
        · exact absurd hlt' (h.1.not_both hopposite hlabels ha hlt)
    intro a b ha hb
    rw [hall a ha, hall b hb]
  · intro hall
    exact hall ls ls' h.1 h'.1

theorem Least.unique [Std.Asymm lt] {ls' : List L} (h : Least edges lt seen v ls u)
    (h' : Least edges lt seen v ls' u) : ls = ls' := by
  rcases h.2 ls' h'.1 with heq | hlt
  · exact heq.symm
  · rcases h'.2 ls h.1 with heq | hlt'
    · exact heq
    · exact absurd hlt' (Std.Asymm.asymm _ _ hlt)

section Congr

variable {edges' : V → List (L × V)}

theorem Simple.congr (hedges : ∀ v, edges v ⊆ edges' v) (h : Simple edges seen v ls u) :
    Simple edges' seen v ls u := by
  induction h with
  | nil h => exact .nil h
  | cons h he _ ih => exact .cons h (hedges _ he) ih

theorem Least.congr (hedges : ∀ v, edges v ⊆ edges' v) (hedges' : ∀ v, edges' v ⊆ edges v)
    (h : Least edges lt seen v ls u) : Least edges' lt seen v ls u :=
  ⟨h.1.congr hedges, fun ls' hls' => h.2 ls' (hls'.congr hedges')⟩

theorem Walk.congr (hedges : ∀ v, edges v ⊆ edges' v) (h : Walk edges v ls u) :
    Walk edges' v ls u := by
  induction h with
  | nil _ => exact .nil _
  | cons he _ ih => exact .cons (hedges _ he) ih

end Congr

end FilamentCore.Library.DepthFirst
