import FilamentCore.Backends.Rendering
import FilamentCore.SemanticIr.SupertypeAnalysis

/-!
# The reference graph of a crate (src/compiler/backends/rust-serde/graph.mjs)

The references between the types of a document, the strongly connected components of the graph,
and the edges that the generated crate boxes. An identity stands in the search for its first place
among the nodes.
-/

namespace FilamentCore.Backends.RustSerde
namespace Graph

open FilamentCore.SemanticIr (Json)
open FilamentCore.SemanticIr.UnitGraph (Edges targetsOf walkSteps)
open FilamentCore.SemanticIr.Constructs (Pass)

/-! ### Edges -/

inductive Position where
  | direct
  | collection
  | identity
  | metadata
  deriving DecidableEq

structure Edge where
  source : String
  target : String
  position : Position
  edgeKey : String

def isCollection (multiplicity : Option Json) : Bool :=
  match multiplicity with
  | none | some .null => false
  | some multiplicity =>
    match multiplicity.get "upper" with
    | none => true
    | some upper => upper.asF64.any (1 < ·)

/-- `push`: a reference that is no string is no edge. -/
def push (source : String) (target : Option Json) (position : Position) (edgeKey : String) :
    List Edge :=
  ((target.bind Json.asStr).map fun target => ⟨source, target, position, edgeKey⟩).toList

/-- `identity`, as a template string has it. -/
def identityOf (node : Json) : String := (node.getStr "identity").getD "undefined"

def kindEdges (document definition : Json) : List Edge :=
  let source := identityOf definition
  match renderingOf document definition with
  | some "alias" => push source (definition.get "target") .direct (source ++ "#target")
  | some "reference" => push source (definition.get "target") .identity (source ++ "#target")
  | some "sequence" => push source (definition.get "items") .collection (source ++ "#items")
  | some "map" => push source (definition.get "values") .collection (source ++ "#values")
  | _ => []

def fieldEdges (source : String) (field : Json) : List Edge :=
  push source (field.get "typeRef")
    (if isCollection (field.get "multiplicity") then .collection else .direct)
    (identityOf field ++ "#typeRef")

def variantEdges (source : String) (variant : Json) : List Edge :=
  push source (variant.get "payloadType") .direct (identityOf variant ++ "#payloadType")

def operationEdges (source : String) (operation : Json) : List Edge :=
  ((operation.members "params").flatMap fun param =>
    push source (param.get "typeRef") .metadata (identityOf param ++ "#typeRef")) ++
  push source ((operation.get "returns").bind (·.get "typeRef")) .metadata
    (identityOf operation ++ "#returns")

/-- `collectEdges`, over types whose constructs the document declares. -/
def collectEdges (document : Json) (types : List Json) : List Edge :=
  types.flatMap fun definition =>
    let source := identityOf definition
    kindEdges document definition ++ (definition.members "fields").flatMap (fieldEdges source) ++
      (definition.members "variants").flatMap (variantEdges source) ++
      (definition.members "operations").flatMap (operationEdges source)

/-! ### Components -/

/-- The state of the search; the top of the stack is its head. -/
structure Tarjan where
  index : ℕ → Option ℕ
  low : ℕ → ℕ
  stack : List ℕ
  counter : ℕ
  found : List (List ℕ)

namespace Tarjan

def enter (t : Tarjan) (node : ℕ) : Tarjan :=
  { t with
    index := Function.update t.index node (some t.counter)
    low := Function.update t.low node t.counter
    stack := node :: t.stack
    counter := t.counter + 1 }

def lower (t : Tarjan) (node bound : ℕ) : Tarjan :=
  { t with low := Function.update t.low node (min (t.low node) bound) }

/-- The nodes popped up to the root of a group. -/
def close (t : Tarjan) (node : ℕ) : Tarjan :=
  { t with
    stack := (t.stack.dropWhile (· ≠ node)).tail
    found := t.found ++ [t.stack.takeWhile (· ≠ node) ++ [node]] }

def leave (t : Tarjan) (node : ℕ) (frames : List (ℕ × ℕ)) : Tarjan :=
  let t := match frames with
    | (parent, _) :: _ => t.lower parent (t.low node)
    | [] => t
  if t.index node = some (t.low node) then t.close node else t

/-- The `while` loop, over frames of a node and how many of its neighbours are taken. -/
def walk (edges : Edges) : ℕ → Tarjan → List (ℕ × ℕ) → Tarjan
  | 0, t, _ => t
  | _ + 1, t, [] => t
  | steps + 1, t, (node, next) :: frames =>
    match (targetsOf edges node)[next]? with
    | some target =>
      match t.index target with
      | none => walk edges steps (t.enter target) ((target, 0) :: (node, next + 1) :: frames)
      | some index =>
        let t := if t.stack.contains target then t.lower node index else t
        walk edges steps t ((node, next + 1) :: frames)
    | none => walk edges steps (t.leave node frames) frames

/-- The search from one more root. -/
def visit (edges : Edges) (t : Tarjan) (root : ℕ) : Tarjan :=
  if (t.index root).isSome then t else (t.enter root).walk edges (walkSteps edges) [(root, 0)]

def start : Tarjan := ⟨fun _ => none, fun _ => 0, [], 0, []⟩

end Tarjan

variable (nodes : List String) (edges : List Edge)

/-- The neighbours of each node, edges from and to other identities left out. -/
def neighbours : Edges :=
  nodes.map fun node =>
    (edges.filter fun edge => edge.source = node ∧ edge.target ∈ nodes).map fun edge =>
      nodes.idxOf edge.target

def groups : List (List ℕ) :=
  ((nodes.map fun node => nodes.idxOf node).foldl (Tarjan.visit (neighbours nodes edges))
    Tarjan.start).found

/-- `componentOf` of the loop over what was found: a later group stands for an earlier one. -/
def groupOf (found : List (List ℕ)) (place : ℕ) : Option (List ℕ) :=
  found.reverse.find? (·.contains place)

/-- The groups in the order of their first nodes. -/
def ranked (groupOf : String → Option (List ℕ)) : List (Option (List ℕ)) :=
  nodes.foldl (fun ranked node =>
    if groupOf node ∈ ranked then ranked else ranked ++ [groupOf node]) []

/-- `components`. -/
def components (node : String) : Option ℕ :=
  let group := fun node => groupOf (groups nodes edges) (nodes.idxOf node)
  if node ∈ nodes then some ((ranked nodes group).idxOf (group node)) else none

/-! ### Boxes -/

/-- The edges whose keys `buildGraph` puts into `boxed`. -/
def boxedEdges : List Edge :=
  edges.filter fun edge => edge.position = .direct ∧
    (components nodes edges edge.source).isSome ∧ (components nodes edges edge.target).isSome ∧
    components nodes edges edge.source = components nodes edges edge.target

def boxed : List String := (boxedEdges nodes edges).map Edge.edgeKey

/-- `buildGraph(ir).boxed`. -/
def buildGraph (document : Json) (types : List Json) : List String :=
  boxed (types.map identityOf) (collectEdges document types)

/-! ### What the search finds -/

namespace Tarjan

open FilamentCore.SemanticIr.UnitGraph (Reach Closed)
open FilamentCore.SemanticIr.Constructs.Pass (Searching Seen Parted)

variable {adj : Edges} {t : Tarjan} {node next : ℕ} {frames : List (ℕ × ℕ)}

/-- The search as the pass over the supertypes, which keeps of a group only whether it is on a
cycle. -/
def toPass (adj : Edges) (t : Tarjan) : Pass where
  order := t.index
  low := t.low
  stack := t.stack
  nextOrder := t.counter
  cyclic := t.found.flatMap fun group =>
    if 1 < group.length ∨ (targetsOf adj (group.getLastD 0)).contains (group.getLastD 0) then group
    else []

theorem toPass_close (node : ℕ) : (t.close node).toPass adj = (t.toPass adj).close adj node := by
  simp only [toPass, close, Pass.close, List.flatMap_append, List.flatMap_singleton,
    List.getLastD_concat, Pass.mk.injEq, true_and]
  split
  · rename_i h
    exact (if_pos h).symm
  · rename_i h
    exact (List.append_nil _).trans (if_neg h).symm

theorem toPass_leave (node : ℕ) (frames : List (ℕ × ℕ)) :
    (t.leave node frames).toPass adj = (t.toPass adj).leave adj node frames := by
  cases frames with
  | nil =>
    rw [leave, Pass.leave]
    split
    · rename_i h
      exact (toPass_close node).trans (if_pos h).symm
    · rename_i h
      exact (if_neg h).symm
  | cons frame frames =>
    rw [leave, Pass.leave]
    split
    · rename_i h
      exact (toPass_close node).trans (if_pos h).symm
    · rename_i h
      exact (if_neg h).symm

theorem toPass_walk (steps : ℕ) (t : Tarjan) (frames : List (ℕ × ℕ)) :
    (t.walk adj steps frames).toPass adj = (t.toPass adj).walk adj steps frames := by
  induction steps generalizing t frames with
  | zero => rfl
  | succ steps ih =>
    match frames with
    | [] => rfl
    | (node, next) :: frames =>
      rw [walk, Pass.walk]
      cases (targetsOf adj node)[next]? with
      | none =>
        dsimp only
        rw [ih, toPass_leave]
      | some target =>
        have horder : (t.toPass adj).order target = t.index target := rfl
        dsimp only
        rw [horder]
        cases t.index target with
        | none =>
          dsimp only
          rw [ih]
          rfl
        | some index =>
          dsimp only
          rw [ih]
          by_cases hs : t.stack.contains target
          · rw [if_pos hs]
            exact congrArg (fun p => Pass.walk adj steps p _) (if_pos hs).symm
          · rw [if_neg hs]
            exact congrArg (fun p => Pass.walk adj steps p _) (if_neg hs).symm

/-- The groups found so far are components, of the nodes met that are off the stack. -/
structure Grouped (adj : Edges) (t : Tarjan) : Prop where
  off : ∀ x, (∃ group ∈ t.found, x ∈ group) ↔ Seen (t.toPass adj) x ∧ x ∉ t.stack
  whole : ∀ group ∈ t.found, ∀ x ∈ group, ∀ y, y ∈ group ↔ Reach adj x y ∧ Reach adj y x

theorem Grouped.enter (h : Grouped adj t) (hnew : t.index node = none) :
    Grouped adj (t.enter node) := by
  refine ⟨fun x => (h.off x).trans ?_, h.whole⟩
  show _ ↔ Seen ((t.toPass adj).enter node) x ∧ x ∉ node :: t.stack
  rw [Pass.enter_seen, List.mem_cons, not_or]
  refine ⟨fun hx => ⟨.inr hx.1, fun hxn => ?_, hx.2⟩, fun hx => ⟨hx.1.resolve_left hx.2.1, hx.2.2⟩⟩
  obtain ⟨k, hk⟩ := hx.1
  rw [hxn] at hk
  rw [show t.index node = some k from hk] at hnew
  cases hnew

theorem Grouped.close (h : Grouped adj t)
    (hs : Searching adj (t.toPass adj) ((node, next) :: frames))
    (hend : (targetsOf adj node)[next]? = none)
    (hroot : (t.toPass adj).num node = (t.toPass adj).low node) : Grouped adj (t.close node) := by
  have hstack : node ∈ t.stack := hs.framed.stacked node (List.mem_cons_self ..)
  obtain ⟨above, below, hp⟩ := hs.numbered.parted hstack
  have hsplit : t.stack = above ++ node :: below := hp.stack
  have hcomponent := fun x hx hle => @Pass.Searching.component _ _ _ _ _ hs hend hroot x hx hle
  have htake : t.stack.takeWhile (· ≠ node) = above := by
    rw [hsplit, List.takeWhile_append_of_pos fun x hx => by
      simpa using fun heq : x = node => hp.fresh (heq ▸ hx)]
    simp
  have hrest : (t.close node).stack = below := by
    have hclose := congrArg Pass.stack (@toPass_close adj t node)
    rw [hp.close_eq] at hclose
    exact hclose
  have hmem : ∀ y, y ∈ above ++ [node] ↔
      y ∈ t.stack ∧ (t.toPass adj).num node ≤ (t.toPass adj).num y := by
    intro y
    rw [hsplit, List.mem_append, List.mem_singleton, List.mem_append, List.mem_cons]
    constructor
    · rintro (hy | rfl)
      · exact ⟨.inl hy, (hp.above_lt y hy).le⟩
      · exact ⟨.inr (.inl rfl), le_rfl⟩
    · rintro ⟨hy | hy | hy, hle⟩
      · exact .inl hy
      · exact .inr hy
      · have hlt := hp.below_lt y hy
        omega
  have hfound : (t.close node).found = t.found ++ [above ++ [node]] := by
    rw [Tarjan.close, htake]
  have hoff : ∀ y, Seen (t.toPass adj) y ∧ y ∉ t.stack → ∀ z, Reach adj y z → z ∉ t.stack := by
    intro y hy z hyz
    exact (Library.Frames.mem_of_reach (fun x => Seen (t.toPass adj) x ∧ x ∉ t.stack)
      (fun x hx => hs.decided.closed x hx.1 hx.2) hyz hy).2
  refine ⟨fun x => ?_, fun group hgroup x hx y => ?_⟩
  · have hold := h.off x
    rw [hfound, hrest]
    simp only [List.mem_append, List.mem_singleton, or_and_right, exists_or, exists_eq_left]
    rw [hold, ← List.mem_singleton, ← List.mem_append, hmem]
    show _ ↔ Seen (t.toPass adj) x ∧ x ∉ below
    constructor
    · rintro (⟨hseen, hx⟩ | ⟨hx, hle⟩)
      · exact ⟨hseen, fun hb => hx (by simp [hsplit, hb])⟩
      · refine ⟨hs.numbered.stacked x hx, fun hb => ?_⟩
        have hlt := hp.below_lt x hb
        omega
    · rintro ⟨hseen, hb⟩
      by_cases hx : x ∈ t.stack
      · refine .inr ⟨hx, ?_⟩
        by_contra hlt
        exact hb (hp.mem_below hx (by omega))
      · exact .inl ⟨hseen, hx⟩
  · rw [hfound, List.mem_append, List.mem_singleton] at hgroup
    rcases hgroup with hgroup | rfl
    · exact h.whole group hgroup x hx y
    · obtain ⟨hxs, hxle⟩ := (hmem x).1 hx
      obtain ⟨hnx, hxn, hall⟩ := hcomponent x hxs hxle
      rw [hmem]
      constructor
      · rintro ⟨hys, hyle⟩
        obtain ⟨hny, hyn, -⟩ := hcomponent y hys hyle
        exact ⟨hxn.trans hny, hyn.trans hnx⟩
      · rintro ⟨hxy, hyx⟩
        rcases hall y hxy with hy | hy
        · exact hy
        · exact absurd hxs (hoff y hy x hyx)

theorem Grouped.leave (h : Grouped adj t)
    (hs : Searching adj (t.toPass adj) ((node, next) :: frames))
    (hend : (targetsOf adj node)[next]? = none) : Grouped adj (t.leave node frames) := by
  have hindex := (hs.numbered.stacked node (hs.framed.stacked node (List.mem_cons_self ..))).eq
  have hclose : t.index node = some (t.low node) → Grouped adj (t.close node) := by
    intro hroot
    apply h.close hs hend
    exact Option.some.inj (hindex.symm.trans hroot)
  cases frames with
  | nil =>
    rw [Tarjan.leave]
    split
    · exact hclose ‹_›
    · exact h
  | cons frame frames =>
    -- lowering the parent changes no number and no group
    have hlow : (t.lower frame.1 (t.low node)).low node = t.low node := by
      show Function.update t.low frame.1 _ node = _
      by_cases hne : node = frame.1
      · rw [← hne, Function.update_self, min_self]
      · rw [Function.update_of_ne hne]
    rw [Tarjan.leave, hlow]
    split
    · obtain ⟨hoff, hwhole⟩ := hclose ‹_›
      exact ⟨hoff, hwhole⟩
    · exact ⟨h.off, h.whole⟩

theorem Grouped.walk (steps : ℕ) (h : Grouped adj t) (hs : Searching adj (t.toPass adj) frames) :
    Grouped adj (t.walk adj steps frames) := by
  induction steps generalizing t frames with
  | zero => exact h
  | succ steps ih =>
    match frames, hs with
    | [], _ => exact h
    | (node, next) :: frames, hs =>
      rw [Tarjan.walk]
      split
      · rename_i target hedge
        split
        · rename_i hnew
          exact ih (h.enter hnew) (hs.follow hedge hnew)
        · rename_i index hseen
          have htake := hs.take hedge hseen
          by_cases hmem : t.stack.contains target
          · rw [if_pos (show (t.toPass adj).stack.contains target from hmem)] at htake
            rw [if_pos hmem]
            exact ih (t := t.lower node index) ⟨h.off, h.whole⟩ htake
          · rw [if_neg (show ¬ (t.toPass adj).stack.contains target from hmem)] at htake
            rw [if_neg hmem]
            exact ih h htake
      · rename_i hend
        apply ih (h.leave hs hend)
        rw [toPass_leave]
        exact hs.leave hend

theorem toPass_visit (roots : List ℕ) :
    (roots.foldl (visit adj) t).toPass adj = roots.foldl (fun (p : Pass) root =>
      if (p.order root).isSome then p
      else p.enter root |>.walk adj (walkSteps adj) [(root, 0)]) (t.toPass adj) := by
  induction roots generalizing t with
  | nil => rfl
  | cons root roots ih =>
    rw [List.foldl_cons, List.foldl_cons, ih, visit]
    by_cases hseen : (t.index root).isSome
    · rw [if_pos hseen, if_pos (show ((t.toPass adj).order root).isSome from hseen)]
    · rw [if_neg hseen, if_neg (show ¬ ((t.toPass adj).order root).isSome from hseen), toPass_walk]
      rfl

/-- The search from roots finds the components of what it meets, and leaves nothing on the stack. -/
theorem roots_grouped (hc : Closed adj) (roots : List ℕ) (hroots : ∀ r ∈ roots, r < adj.length) :
    Grouped adj (roots.foldl (visit adj) start) ∧
      ∀ r ∈ roots, ∃ group ∈ (roots.foldl (visit adj) start).found, r ∈ group := by
  have hspec : ∀ roots : List ℕ, (∀ r ∈ roots, r < adj.length) →
      Searching adj ((roots.foldl (visit adj) start).toPass adj) [] ∧
        ∀ r ∈ roots, Seen ((roots.foldl (visit adj) start).toPass adj) r := by
    intro roots hroots
    rw [toPass_visit]
    obtain ⟨hlast, -, hall⟩ := Pass.roots_spec hc hroots (Pass.empty_searching adj)
    exact ⟨hlast, hall⟩
  have hgrouped : Grouped adj (roots.foldl (visit adj) start) := by
    induction roots using List.reverseRecOn with
    | nil =>
      refine ⟨fun x => ⟨?_, ?_⟩, nofun⟩
      · rintro ⟨group, hgroup, -⟩
        cases hgroup
      · rintro ⟨⟨k, hk⟩, -⟩
        cases hk
    | append_singleton roots root ih =>
      have hbefore := fun r hr => hroots r (List.mem_append_left [root] hr)
      rw [List.foldl_concat, visit]
      split
      · exact ih hbefore
      · rename_i hnew
        rw [Bool.not_eq_true, Option.isSome_eq_false_iff, Option.isNone_iff_eq_none] at hnew
        refine ((ih hbefore).enter hnew).walk _ ?_
        apply (hspec roots hbefore).1.enter (Pass.not_seen.2 hnew)
        · rfl
        · exact fun x y hxy => .inl hxy
        · rintro f ⟨⟩
  refine ⟨hgrouped, fun r hr => (hgrouped.off r).2 ⟨(hspec roots hroots).2 r hr, fun hstack => ?_⟩⟩
  obtain ⟨f, hf, -⟩ := (hspec roots hroots).1.framed.rooted r hstack
  cases hf

end Tarjan

/-! ### Components -/

section Components

open FilamentCore.SemanticIr.UnitGraph (Reach Closed)

variable {nodes edges} {a b : String}

variable (nodes edges) in
/-- A reference between two of the nodes. -/
def Link (a b : String) : Prop :=
  a ∈ nodes ∧ b ∈ nodes ∧ ∃ edge ∈ edges, edge.source = a ∧ edge.target = b

variable (nodes edges) in
abbrev Leads : String → String → Prop := Relation.ReflTransGen (Link nodes edges)

theorem Leads.mem_left (h : Leads nodes edges a b) (hb : b ∈ nodes) : a ∈ nodes := by
  induction h using Relation.ReflTransGen.head_induction_on with
  | refl => exact hb
  | head hlink _ _ => exact hlink.1

theorem Leads.mem_right (h : Leads nodes edges a b) (ha : a ∈ nodes) : b ∈ nodes := by
  induction h with
  | refl => exact ha
  | tail _ hlink _ => exact hlink.2.1

theorem edge_neighbours (ha : a ∈ nodes) {j : ℕ} :
    SemanticIr.UnitGraph.Edge (neighbours nodes edges) (nodes.idxOf a) j ↔
      ∃ b, Link nodes edges a b ∧ j = nodes.idxOf b := by
  have hget : nodes[nodes.idxOf a]? = some a := by
    rw [List.getElem?_eq_getElem (List.idxOf_lt_length_of_mem ha), List.getElem_idxOf]
  rw [SemanticIr.UnitGraph.Edge, targetsOf, neighbours, List.getD_eq_getElem?_getD,
    List.getElem?_map, hget]
  simp only [Option.map_some, Option.getD_some, List.mem_map, List.mem_filter, decide_eq_true_eq]
  constructor
  · rintro ⟨edge, ⟨hedge, hsource, htarget⟩, rfl⟩
    exact ⟨edge.target, ⟨ha, htarget, edge, hedge, hsource, rfl⟩, rfl⟩
  · rintro ⟨_, ⟨-, htarget, edge, hedge, hsource, rfl⟩, rfl⟩
    exact ⟨edge, ⟨hedge, hsource, htarget⟩, rfl⟩

theorem closed_neighbours : Closed (neighbours nodes edges) := by
  intro i j h
  have hlt : i < nodes.length := by
    have hlt := SemanticIr.UnitGraph.Edge.lt h
    rwa [neighbours, List.length_map] at hlt
  rw [SemanticIr.UnitGraph.Edge, targetsOf, neighbours, List.getD_eq_getElem?_getD,
    List.getElem?_map, List.getElem?_eq_getElem hlt] at h
  simp only [Option.map_some, Option.getD_some, List.mem_map, List.mem_filter,
    decide_eq_true_eq] at h
  obtain ⟨edge, ⟨-, -, htarget⟩, rfl⟩ := h
  rw [neighbours, List.length_map]
  exact List.idxOf_lt_length_of_mem htarget

theorem reach_neighbours (ha : a ∈ nodes) (hb : b ∈ nodes) :
    Reach (neighbours nodes edges) (nodes.idxOf a) (nodes.idxOf b) ↔ Leads nodes edges a b := by
  constructor
  · intro h
    have hall : ∀ j, Reach (neighbours nodes edges) (nodes.idxOf a) j →
        ∃ c ∈ nodes, j = nodes.idxOf c ∧ Leads nodes edges a c := by
      intro j hj
      induction hj with
      | refl => exact ⟨a, ha, rfl, .refl⟩
      | tail _ hedge ih =>
        obtain ⟨c, hc, rfl, hac⟩ := ih
        obtain ⟨d, hcd, rfl⟩ := (edge_neighbours hc).1 hedge
        exact ⟨d, hcd.2.1, rfl, hac.tail hcd⟩
    obtain ⟨c, hc, heq, hac⟩ := hall _ h
    rwa [(List.idxOf_inj hb).1 heq]
  · intro h
    induction h with
    | refl => exact .refl
    | tail _ hlink ih => exact (ih hlink.1).tail ((edge_neighbours hlink.1).2 ⟨_, hlink, rfl⟩)

theorem groups_spec :
    (∀ node ∈ nodes, ∃ group ∈ groups nodes edges, nodes.idxOf node ∈ group) ∧
      ∀ group ∈ groups nodes edges, ∀ x ∈ group, ∀ y, y ∈ group ↔
        Reach (neighbours nodes edges) x y ∧ Reach (neighbours nodes edges) y x := by
  have hroots : ∀ r ∈ nodes.map fun node => nodes.idxOf node,
      r < (neighbours nodes edges).length := by
    intro r hr
    obtain ⟨node, hnode, rfl⟩ := List.mem_map.1 hr
    rw [neighbours, List.length_map]
    exact List.idxOf_lt_length_of_mem hnode
  obtain ⟨hgrouped, hall⟩ := Tarjan.roots_grouped closed_neighbours _ hroots
  exact ⟨fun node hnode => hall _ (List.mem_map_of_mem hnode), hgrouped.whole⟩

theorem groupOf_eq_iff (ha : a ∈ nodes) (hb : b ∈ nodes) :
    groupOf (groups nodes edges) (nodes.idxOf a) = groupOf (groups nodes edges) (nodes.idxOf b) ↔
      Leads nodes edges a b ∧ Leads nodes edges b a := by
  obtain ⟨hsome, hwhole⟩ := @groups_spec nodes edges
  rw [← reach_neighbours ha hb, ← reach_neighbours hb ha]
  constructor
  · intro heq
    cases hgroup : groupOf (groups nodes edges) (nodes.idxOf a) with
    | none =>
      obtain ⟨group, hmem, hin⟩ := hsome a ha
      have hnot := List.find?_eq_none.1 hgroup group (List.mem_reverse.2 hmem)
      exact absurd (List.contains_iff_mem.2 hin) hnot
    | some group =>
      have hfind : ((groups nodes edges).reverse.find? fun group =>
          group.contains (nodes.idxOf b)) = some group := heq.symm.trans hgroup
      have hina : group.contains (nodes.idxOf a) = true := by
        simpa using List.find?_some hgroup
      have hinb : group.contains (nodes.idxOf b) = true := by
        simpa using List.find?_some hfind
      have hmem := List.mem_reverse.1 (List.mem_of_find?_eq_some hfind)
      exact (hwhole group hmem _ (List.contains_iff_mem.1 hina) _).1 (List.contains_iff_mem.1 hinb)
  · intro hab
    refine List.find?_congr fun group hgroup => ?_
    have hwhole := hwhole group (List.mem_reverse.1 hgroup)
    rw [Bool.eq_iff_iff, List.contains_iff_mem, List.contains_iff_mem]
    exact ⟨fun ha => (hwhole _ ha _).2 hab, fun hb => (hwhole _ hb _).2 hab.symm⟩

theorem mem_ranked (group : String → Option (List ℕ)) {node : String} (h : node ∈ nodes) :
    group node ∈ ranked nodes group := by
  have hall : ∀ (nodes : List String) (init : List (Option (List ℕ))),
      (∀ g ∈ init, g ∈ nodes.foldl (fun ranked node =>
        if group node ∈ ranked then ranked else ranked ++ [group node]) init) ∧
      ∀ node ∈ nodes, group node ∈ nodes.foldl (fun ranked node =>
        if group node ∈ ranked then ranked else ranked ++ [group node]) init := by
    intro nodes
    induction nodes with
    | nil => exact fun init => ⟨fun g hg => hg, nofun⟩
    | cons node nodes ih =>
      intro init
      rw [List.foldl_cons]
      obtain ⟨hkept, hnodes⟩ := ih
        (if group node ∈ init then init else init ++ [group node])
      have hsub : ∀ g, g ∈ init ∨ g = group node →
          g ∈ if group node ∈ init then init else init ++ [group node] := by
        intro g hg
        split
        · exact hg.elim id fun heq => heq ▸ ‹_›
        · exact List.mem_append.2 (hg.imp_right List.mem_singleton.2)
      refine ⟨fun g hg => hkept g (hsub g (.inl hg)), fun other hother => ?_⟩
      rcases List.mem_cons.1 hother with rfl | hother
      · exact hkept _ (hsub _ (.inr rfl))
      · exact hnodes other hother
  exact (hall nodes []).2 node h

theorem components_isSome (a : String) : (components nodes edges a).isSome ↔ a ∈ nodes := by
  rw [components]
  split
  · exact ⟨fun _ => ‹_›, fun _ => rfl⟩
  · exact ⟨nofun, fun h => absurd h ‹_›⟩

/-- Two nodes have one component exactly when each leads to the other. -/
theorem components_eq_iff (ha : a ∈ nodes) (b : String) :
    components nodes edges a = components nodes edges b ↔
      Leads nodes edges a b ∧ Leads nodes edges b a := by
  by_cases hb : b ∈ nodes
  · rw [← groupOf_eq_iff ha hb, components, components, if_pos ha, if_pos hb, Option.some.injEq]
    exact List.idxOf_inj (mem_ranked _ ha)
  · constructor
    · intro heq
      rw [components, components, if_pos ha, if_neg hb] at heq
      cases heq
    · intro h
      exact absurd (h.1.mem_right ha) hb

/-- Groupings that tell the same nodes apart are ranked by the same nodes. -/
theorem ranked_alike {group group' : String → Option (List ℕ)}
    (h : ∀ a ∈ nodes, ∀ b ∈ nodes, group a = group b ↔ group' a = group' b) :
    ∃ firsts : List String, (∀ x ∈ firsts, x ∈ nodes) ∧ ranked nodes group = firsts.map group ∧
      ranked nodes group' = firsts.map group' := by
  induction nodes using List.reverseRecOn with
  | nil => exact ⟨[], nofun, rfl, rfl⟩
  | append_singleton nodes node ih =>
    have hnode := List.mem_append_right nodes (List.mem_singleton_self node)
    obtain ⟨firsts, hfirsts, hgroup, hgroup'⟩ := ih fun a ha b hb =>
      h a (List.mem_append_left _ ha) b (List.mem_append_left _ hb)
    have hmet : group node ∈ firsts.map group ↔ group' node ∈ firsts.map group' := by
      rw [List.mem_map, List.mem_map]
      exact exists_congr fun x => and_congr_right fun hx =>
        h x (List.mem_append_left _ (hfirsts x hx)) node hnode
    rw [ranked] at hgroup hgroup'
    rw [ranked, ranked, List.foldl_concat, List.foldl_concat, hgroup, hgroup']
    by_cases hin : group node ∈ firsts.map group
    · rw [if_pos hin, if_pos (hmet.1 hin)]
      exact ⟨firsts, fun x hx => List.mem_append_left _ (hfirsts x hx), rfl, rfl⟩
    · rw [if_neg hin, if_neg (mt hmet.2 hin)]
      refine ⟨firsts ++ [node], fun x hx => ?_, by simp, by simp⟩
      rcases List.mem_append.1 hx with hx | hx
      · exact List.mem_append_left _ (hfirsts x hx)
      · exact List.mem_singleton.1 hx ▸ hnode

theorem idxOf_alike {group group' : String → Option (List ℕ)} {firsts : List String}
    (h : ∀ x ∈ firsts, group x = group a ↔ group' x = group' a) :
    (firsts.map group).idxOf (group a) = (firsts.map group').idxOf (group' a) := by
  induction firsts with
  | nil => rfl
  | cons x firsts ih =>
    rw [List.forall_mem_cons] at h
    rw [List.map_cons, List.map_cons, List.idxOf_cons, List.idxOf_cons, ih h.2]
    have hbeq : (group x == group a) = (group' x == group' a) := by
      rw [Bool.eq_iff_iff, beq_iff_eq, beq_iff_eq]
      exact h.1
    rw [hbeq]

/-- The components of a graph: their numbers depend on which nodes lead to which, and on the order
of the nodes alone. -/
theorem components_spec (nodes : List String) (edges : List Edge) :
    (∀ a, (components nodes edges a).isSome ↔ a ∈ nodes) ∧
      (∀ a ∈ nodes, ∀ b, components nodes edges a = components nodes edges b ↔
        Leads nodes edges a b ∧ Leads nodes edges b a) ∧
      ∀ others, (∀ a ∈ nodes, ∀ b ∈ nodes, Leads nodes edges a b ↔ Leads nodes others a b) →
        components nodes others = components nodes edges := by
  refine ⟨components_isSome, fun a ha => components_eq_iff ha, fun others h => ?_⟩
  funext a
  rw [components, components]
  by_cases ha : a ∈ nodes
  · rw [if_pos ha, if_pos ha]
    have hgroups : ∀ a ∈ nodes, ∀ b ∈ nodes,
        groupOf (groups nodes others) (nodes.idxOf a) =
            groupOf (groups nodes others) (nodes.idxOf b) ↔
          groupOf (groups nodes edges) (nodes.idxOf a) =
            groupOf (groups nodes edges) (nodes.idxOf b) := by
      intro a ha b hb
      rw [groupOf_eq_iff ha hb, groupOf_eq_iff ha hb, h a ha b hb, h b hb a ha]
    obtain ⟨firsts, hfirsts, hranked, hranked'⟩ := ranked_alike hgroups
    rw [hranked, hranked', idxOf_alike fun x hx => hgroups x (hfirsts x hx) a ha]
  · rw [if_neg ha, if_neg ha]

/-! ### What is boxed -/

theorem mem_boxed (key : String) : key ∈ boxed nodes edges ↔
    ∃ edge ∈ edges, edge.edgeKey = key ∧ edge.position = .direct ∧ edge.source ∈ nodes ∧
      edge.target ∈ nodes ∧ Leads nodes edges edge.target edge.source := by
  simp only [boxed, boxedEdges, List.mem_map, List.mem_filter, decide_eq_true_eq,
    components_isSome]
  constructor
  · rintro ⟨edge, ⟨hedge, hdirect, hsource, htarget, heq⟩, rfl⟩
    exact ⟨edge, hedge, rfl, hdirect, hsource, htarget,
      ((components_eq_iff hsource edge.target).1 heq).2⟩
  · rintro ⟨edge, hedge, rfl, hdirect, hsource, htarget, hback⟩
    refine ⟨edge, ⟨hedge, hdirect, hsource, htarget, ?_⟩, rfl⟩
    exact (components_eq_iff hsource edge.target).2
      ⟨.single ⟨hsource, htarget, edge, hedge, rfl, rfl⟩, hback⟩

variable (edges) in
/-- A type that holds another by value, in no box. -/
def Holds (keys : List String) (a b : String) : Prop :=
  ∃ edge ∈ edges, edge.source = a ∧ edge.target = b ∧ edge.position = .direct ∧
    edge.edgeKey ∉ keys

theorem leads_of_holds (hsources : ∀ edge ∈ edges, edge.source ∈ nodes) (ha : a ∈ nodes)
    (h : Relation.ReflTransGen (Holds edges (boxed nodes edges)) b a) : Leads nodes edges b a := by
  induction h using Relation.ReflTransGen.head_induction_on with
  | refl => exact .refl
  | head hholds _ ih =>
    obtain ⟨edge, hedge, rfl, rfl, -, -⟩ := hholds
    exact .head ⟨hsources edge hedge, ih.mem_left ha, edge, hedge, rfl, rfl⟩ ih

/-- No type holds itself by value, however deep. -/
theorem holds_acyclic (hsources : ∀ edge ∈ edges, edge.source ∈ nodes) (a : String) :
    ¬ Relation.TransGen (Holds edges (boxed nodes edges)) a a := by
  intro h
  obtain ⟨b, hholds, hback⟩ := Relation.TransGen.head'_iff.1 h
  obtain ⟨edge, hedge, rfl, rfl, hdirect, hkey⟩ := hholds
  have hsource := hsources edge hedge
  have hleads := leads_of_holds hsources hsource hback
  exact hkey ((mem_boxed _).2
    ⟨edge, hedge, rfl, hdirect, hsource, hleads.mem_left hsource, hleads⟩)

theorem holds_wellFounded (hsources : ∀ edge ∈ edges, edge.source ∈ nodes) :
    WellFounded fun b a => Holds edges (boxed nodes edges) a b := by
  have hbare : ∀ a, a ∉ nodes → Acc (fun b a => Holds edges (boxed nodes edges) a b) a := by
    intro a ha
    refine ⟨a, fun b hholds => ?_⟩
    obtain ⟨edge, hedge, rfl, -⟩ := hholds
    exact absurd (hsources edge hedge) ha
  let below : {a // a ∈ nodes} → {a // a ∈ nodes} → Prop := fun b a =>
    Relation.TransGen (Holds edges (boxed nodes edges)) a b
  have : IsTrans _ below := ⟨fun _ _ _ hab hbc => hbc.trans hab⟩
  have : Std.Irrefl below := ⟨fun a => holds_acyclic hsources a⟩
  have hbelow : WellFounded below := Finite.wellFounded_of_trans_of_irrefl below
  refine ⟨fun a => ?_⟩
  by_cases ha : a ∈ nodes
  · have hacc : ∀ a : {a // a ∈ nodes}, Acc (fun b a => Holds edges (boxed nodes edges) a b) a := by
      intro a
      induction a using hbelow.induction with
      | _ a ih =>
        refine ⟨_, fun b hholds => ?_⟩
        by_cases hb : b ∈ nodes
        · exact ih ⟨b, hb⟩ (.single hholds)
        · exact hbare b hb
    exact hacc ⟨a, ha⟩
  · exact hbare a ha

end Components

/-! ### The graph of a document -/

variable {document : Json} {types : List Json}

theorem source_of_push {source edgeKey : String} {target : Option Json} {position : Position}
    {edge : Edge} (h : edge ∈ push source target position edgeKey) : edge.source = source := by
  rw [push, Option.mem_toList, Option.map_eq_some_iff] at h
  obtain ⟨target, -, rfl⟩ := h
  rfl

theorem source_collectEdges {edge : Edge} (h : edge ∈ collectEdges document types) :
    edge.source ∈ types.map identityOf := by
  rw [collectEdges, List.mem_flatMap] at h
  obtain ⟨definition, hdefinition, h⟩ := h
  have hsource : edge.source = identityOf definition := by
    simp only [List.mem_append, List.mem_flatMap] at h
    rcases h with ((h | ⟨field, -, h⟩) | ⟨variant, -, h⟩) | ⟨operation, -, h⟩
    · rw [kindEdges] at h
      split at h
      · exact source_of_push h
      · exact source_of_push h
      · exact source_of_push h
      · exact source_of_push h
      · cases h
    · exact source_of_push h
    · exact source_of_push h
    · rw [operationEdges, List.mem_append, List.mem_flatMap] at h
      rcases h with ⟨param, -, h⟩ | h
      · exact source_of_push h
      · exact source_of_push h
  rw [hsource]
  exact List.mem_map_of_mem hdefinition

/-- What is boxed are the direct references whose target leads back to the type that holds them,
and no type then holds values without end. -/
theorem buildGraph_boxes (document : Json) (types : List Json) :
    (∀ key, key ∈ buildGraph document types ↔ ∃ edge ∈ collectEdges document types,
      edge.edgeKey = key ∧ edge.position = .direct ∧ edge.target ∈ types.map identityOf ∧
        Leads (types.map identityOf) (collectEdges document types) edge.target edge.source) ∧
    WellFounded fun b a =>
      Holds (collectEdges document types) (buildGraph document types) a b := by
  have hsources := fun edge => @source_collectEdges document types edge
  refine ⟨fun key => (mem_boxed key).trans ?_, holds_wellFounded hsources⟩
  exact exists_congr fun edge => and_congr_right fun hedge => and_congr_right fun _ =>
    and_congr_right fun _ => and_iff_right (hsources edge hedge)

end Graph
end FilamentCore.Backends.RustSerde
