import FilamentCore.Library.Frames
import FilamentCore.SemanticIr.Components
import FilamentCore.SemanticIr.Constructs

/-!
# The component pass (crates/semantic-ir/src/constructs.rs)

`types_on_a_supertype_cycle` numbers the nodes as it meets them and keeps on a stack those whose
component is not complete. The low number of a node on the path is the number of a node on the
stack that it reaches; where it is the node's own number, everything above the node is one
component.
-/

namespace FilamentCore.SemanticIr
namespace Constructs
namespace Pass

open UnitGraph (Edges Edge Closed targetsOf)
open Library.Frames

variable {edges : Edges} {p : Pass}

/-! ### What the pass keeps -/

def num (p : Pass) (x : ℕ) : ℕ := (p.order x).getD 0

def Seen (p : Pass) (x : ℕ) : Prop := ∃ k, p.order x = some k

def path (frames : List (ℕ × ℕ)) : List ℕ := frames.map Prod.fst

@[simp] theorem path_cons (f : ℕ × ℕ) (frames : List (ℕ × ℕ)) :
    path (f :: frames) = f.1 :: path frames := rfl

/-- An edge the pass has taken: every edge of a node that is off the path. -/
def Taken (edges : Edges) (frames : List (ℕ × ℕ)) (x y : ℕ) : Prop :=
  Edge edges x y ∧ ∀ taken, (x, taken) ∈ frames → y ∈ (targetsOf edges x).take taken

/-- Numbers are given in turn, and the stack holds nodes in the order they were met. -/
structure Numbered (p : Pass) : Prop where
  bounded : ∀ x k, p.order x = some k → k < p.nextOrder
  single : ∀ x y k, p.order x = some k → p.order y = some k → x = y
  stacked : ∀ x ∈ p.stack, Seen p x
  falling : p.stack.Pairwise fun x y => p.num y < p.num x

/-- The path is a chain of edges through the stack. -/
structure Framed (edges : Edges) (p : Pass) (frames : List (ℕ × ℕ)) : Prop where
  stacked : ∀ f ∈ path frames, f ∈ p.stack
  falling : (path frames).Pairwise fun x y => p.num y < p.num x
  linked : (path frames).IsChain fun a b => Edge edges b a
  rooted : ∀ x ∈ p.stack, ∃ f ∈ path frames, p.num f ≤ p.num x
  taken : ∀ x ∈ p.stack, ∀ y, Taken edges frames x y → Seen p y
  reaches : ∀ f ∈ path frames, ∀ x ∈ p.stack, p.num f ≤ p.num x →
    Relation.ReflTransGen (Edge edges) f x

/-- What the low numbers say. -/
structure Lowered (edges : Edges) (p : Pass) (frames : List (ℕ × ℕ)) : Prop where
  le : ∀ f ∈ path frames, p.low f ≤ p.num f
  reached : ∀ f ∈ path frames, ∃ y ∈ p.stack, Relation.ReflTransGen (Edge edges) f y ∧
    p.num y = p.low f
  falls : ∀ x ∈ p.stack, x ∉ path frames → ∃ y ∈ p.stack,
    Relation.ReflTransGen (Edge edges) x y ∧ p.num y < p.num x
  least : ∀ f ∈ path frames, ∀ x ∈ p.stack, p.num f ≤ p.num x → ∀ y ∈ p.stack,
    Taken edges frames x y → ∃ g ∈ path frames, p.num f ≤ p.num g ∧ p.low g ≤ p.num y

/-- What the nodes met and off the stack are. -/
structure Decided (edges : Edges) (p : Pass) : Prop where
  closed : ∀ x, Seen p x → x ∉ p.stack → ∀ y, Edge edges x y → Seen p y ∧ y ∉ p.stack
  cyclic : ∀ x, x ∈ p.cyclic ↔
    (Seen p x ∧ x ∉ p.stack) ∧ Relation.TransGen (Edge edges) x x

structure Searching (edges : Edges) (p : Pass) (frames : List (ℕ × ℕ)) : Prop where
  numbered : Numbered p
  framed : Framed edges p frames
  lowered : Lowered edges p frames
  decided : Decided edges p

theorem Seen.eq {x : ℕ} (h : Seen p x) : p.order x = some (p.num x) := by
  obtain ⟨k, hk⟩ := h
  rw [num, hk, Option.getD_some]

theorem Numbered.num_lt (h : Numbered p) {x : ℕ} (hx : Seen p x) : p.num x < p.nextOrder :=
  h.bounded x _ hx.eq

theorem taken_advance {frames : List (ℕ × ℕ)} {node taken target x y : ℕ}
    (hedge : (targetsOf edges node)[taken]? = some target)
    (h : Taken edges ((node, taken + 1) :: frames) x y) :
    Taken edges ((node, taken) :: frames) x y ∨ x = node ∧ y = target := by
  by_cases hx : x = node ∧ y = target
  · exact .inr hx
  · left
    refine ⟨h.1, fun t ht => ?_⟩
    rcases List.mem_cons.1 ht with heq | ht
    · obtain ⟨rfl, rfl⟩ := Prod.mk.inj heq
      have hy := h.2 (t + 1) (List.mem_cons_self ..)
      rw [List.take_add_one, hedge, List.mem_append] at hy
      rcases hy with hy | hy
      · exact hy
      · have hy : y = target := by simpa using hy
        exact absurd ⟨rfl, hy⟩ hx
    · exact h.2 t (List.mem_cons_of_mem _ ht)

theorem taken_leave {frames : List (ℕ × ℕ)} {node taken x y : ℕ}
    (hend : (targetsOf edges node)[taken]? = none) (h : Taken edges frames x y) :
    Taken edges ((node, taken) :: frames) x y := by
  refine ⟨h.1, fun t ht => ?_⟩
  rcases List.mem_cons.1 ht with heq | ht
  · obtain ⟨rfl, rfl⟩ := Prod.mk.inj heq
    rw [List.getElem?_eq_none_iff] at hend
    rw [List.take_of_length_le hend]
    exact h.1
  · exact h.2 t ht

/-! ### Meeting a node -/

section Enter

variable {target : ℕ}

theorem enter_num (x : ℕ) :
    (p.enter target).num x = if x = target then p.nextOrder else p.num x := by
  unfold num enter
  by_cases hx : x = target
  · simp [hx]
  · simp [hx]

theorem enter_seen {x : ℕ} : Seen (p.enter target) x ↔ x = target ∨ Seen p x := by
  unfold Seen enter
  by_cases hx : x = target
  · simp [hx]
  · simp [hx]

theorem enter_low (x : ℕ) :
    (p.enter target).low x = if x = target then p.nextOrder else p.low x := by
  unfold enter
  by_cases hx : x = target
  · simp [hx]
  · simp [hx]

@[simp] theorem enter_stack : (p.enter target).stack = target :: p.stack := rfl

variable (hnew : ¬ Seen p target)
include hnew

theorem ne_of_seen {x : ℕ} (hx : Seen p x) : x ≠ target := by
  rintro rfl
  exact hnew hx

theorem Numbered.enter (h : Numbered p) : Numbered (p.enter target) := by
  have hnum : ∀ x, Seen p x → (p.enter target).num x = p.num x := by
    intro x hx
    rw [enter_num, if_neg (ne_of_seen hnew hx)]
  refine ⟨fun x k hk => ?_, fun x y k hx hy => ?_, fun x hx => ?_,
    List.pairwise_cons.2 ⟨fun y hy => ?_, ?_⟩⟩
  · by_cases hx : x = target
    · have heq : p.nextOrder = k := by simpa [Pass.enter, hx] using hk
      show k < p.nextOrder + 1
      omega
    · have hold : p.order x = some k := by simpa [Pass.enter, hx] using hk
      have hlt := h.bounded x k hold
      show k < p.nextOrder + 1
      omega
  · by_cases hxt : x = target
    · have hxk : p.nextOrder = k := by simpa [Pass.enter, hxt] using hx
      by_cases hyt : y = target
      · rw [hxt, hyt]
      · have hold : p.order y = some k := by simpa [Pass.enter, hyt] using hy
        have hlt := h.bounded y k hold
        omega
    · have hxold : p.order x = some k := by simpa [Pass.enter, hxt] using hx
      have hlt := h.bounded x k hxold
      by_cases hyt : y = target
      · have hyk : p.nextOrder = k := by simpa [Pass.enter, hyt] using hy
        omega
      · have hyold : p.order y = some k := by simpa [Pass.enter, hyt] using hy
        exact h.single x y k hxold hyold
  · rcases List.mem_cons.1 hx with rfl | hx
    · exact enter_seen.2 (.inl rfl)
    · exact enter_seen.2 (.inr (h.stacked x hx))
  · have hy := h.stacked y hy
    rw [hnum y hy, enter_num, if_pos rfl]
    exact h.num_lt hy
  · refine h.falling.imp_of_mem fun {x y} hx hy hlt => ?_
    rw [hnum x (h.stacked x hx), hnum y (h.stacked y hy)]
    exact hlt

variable {frames frames' : List (ℕ × ℕ)} (hpath : path frames' = path frames)
  (htaken : ∀ x y, Taken edges frames' x y → Taken edges frames x y ∨ y = target)
  (hlink : ∀ f ∈ (path frames').head?, Edge edges f target)

theorem enter_num_of_seen {x : ℕ} (hx : Seen p x) : (p.enter target).num x = p.num x := by
  rw [enter_num, if_neg (ne_of_seen hnew hx)]

omit hnew in
theorem Taken.of_enter {x y : ℕ} (h : Taken edges ((target, 0) :: frames') x y) :
    x ≠ target ∧ Taken edges frames' x y := by
  constructor
  · rintro rfl
    have hnone := h.2 0 (List.mem_cons_self ..)
    rw [List.take_zero] at hnone
    cases hnone
  · exact ⟨h.1, fun t ht => h.2 t (List.mem_cons_of_mem _ ht)⟩

include hpath htaken hlink

theorem Framed.enter (hn : Numbered p) (h : Framed edges p frames) :
    Framed edges (p.enter target) ((target, 0) :: frames') := by
  have hseen : ∀ f ∈ path frames, Seen p f := fun f hf => hn.stacked f (h.stacked f hf)
  refine ⟨fun f hf => ?_, ?_, ?_, fun x hx => ?_, fun x hx y hxy => ?_, fun f hf x hx hle => ?_⟩
  · rw [path_cons, hpath] at hf
    exact List.mem_cons.2 ((List.mem_cons.1 hf).imp_right (h.stacked f))
  · rw [path_cons, hpath]
    refine List.pairwise_cons.2 ⟨fun f hf => ?_, h.falling.imp_of_mem fun {x y} hx hy hlt => ?_⟩
    · rw [enter_num_of_seen hnew (hseen f hf), enter_num, if_pos rfl]
      exact hn.num_lt (hseen f hf)
    · rwa [enter_num_of_seen hnew (hseen x hx), enter_num_of_seen hnew (hseen y hy)]
  · rw [path_cons]
    refine List.isChain_cons.2 ⟨hlink, ?_⟩
    rw [hpath]
    exact h.linked
  · rw [path_cons, hpath]
    rcases List.mem_cons.1 hx with rfl | hx
    · exact ⟨x, List.mem_cons_self .., le_rfl⟩
    · obtain ⟨f, hf, hle⟩ := h.rooted x hx
      refine ⟨f, List.mem_cons_of_mem _ hf, ?_⟩
      rwa [enter_num_of_seen hnew (hseen f hf), enter_num_of_seen hnew (hn.stacked x hx)]
  · obtain ⟨hne, hxy⟩ := hxy.of_enter
    have hx := (List.mem_cons.1 hx).resolve_left hne
    rw [enter_seen]
    exact (htaken x y hxy).symm.imp_right (h.taken x hx y)
  · rw [path_cons, hpath] at hf
    rcases List.mem_cons.1 hx with rfl | hx
    · rcases List.mem_cons.1 hf with rfl | hf
      · exact .refl
      · cases hp : path frames with
        | nil =>
          rw [hp] at hf
          cases hf
        | cons top rest =>
          have htop : Edge edges top x := hlink top (by rw [hpath, hp]; rfl)
          have hlinked := h.linked
          rw [hp] at hlinked hf
          exact (reach_top hlinked hf).tail htop
    · have hxseen := hn.stacked x hx
      rw [enter_num_of_seen hnew hxseen] at hle
      rcases List.mem_cons.1 hf with rfl | hf
      · rw [enter_num, if_pos rfl] at hle
        have hlt := hn.num_lt hxseen
        omega
      · rw [enter_num_of_seen hnew (hseen f hf)] at hle
        exact h.reaches f hf x hx hle

theorem Lowered.enter (hn : Numbered p) (hf : Framed edges p frames) (h : Lowered edges p frames) :
    Lowered edges (p.enter target) ((target, 0) :: frames') := by
  have hseen : ∀ f ∈ path frames, Seen p f := fun f hm => hn.stacked f (hf.stacked f hm)
  have hlow : ∀ f ∈ path frames, (p.enter target).low f = p.low f := by
    intro f hm
    rw [enter_low, if_neg (ne_of_seen hnew (hseen f hm))]
  have hstack : ∀ x ∈ p.stack, (p.enter target).num x = p.num x :=
    fun x hx => enter_num_of_seen hnew (hn.stacked x hx)
  have hpathnum : ∀ f ∈ path frames, (p.enter target).num f = p.num f :=
    fun f hm => enter_num_of_seen hnew (hseen f hm)
  refine ⟨fun f hm => ?_, fun f hm => ?_, fun x hx hm => ?_, fun f hm x hx hle y hy hxy => ?_⟩
  · rw [path_cons, hpath] at hm
    rcases List.mem_cons.1 hm with rfl | hm
    · rw [enter_low, enter_num, if_pos rfl, if_pos rfl]
    · rw [hlow f hm, hpathnum f hm]
      exact h.le f hm
  · rw [path_cons, hpath] at hm
    rcases List.mem_cons.1 hm with rfl | hm
    · exact ⟨f, List.mem_cons_self .., .refl, by rw [enter_low, enter_num, if_pos rfl, if_pos rfl]⟩
    · obtain ⟨y, hy, hr, heq⟩ := h.reached f hm
      exact ⟨y, List.mem_cons_of_mem _ hy, hr, by rw [hstack y hy, hlow f hm, heq]⟩
  · rw [path_cons, hpath, List.mem_cons, not_or] at hm
    have hx := (List.mem_cons.1 hx).resolve_left hm.1
    obtain ⟨y, hy, hr, hlt⟩ := h.falls x hx hm.2
    exact ⟨y, List.mem_cons_of_mem _ hy, hr, by rwa [hstack y hy, hstack x hx]⟩
  · obtain ⟨hne, hxy⟩ := hxy.of_enter
    replace hx : x ∈ p.stack := (List.mem_cons.1 hx).resolve_left hne
    rw [path_cons, hpath] at hm ⊢
    rw [hstack x hx] at hle
    have hm : f ∈ path frames := by
      refine (List.mem_cons.1 hm).resolve_left ?_
      rintro rfl
      rw [enter_num, if_pos rfl] at hle
      have hlt := hn.num_lt (hn.stacked x hx)
      omega
    rw [hpathnum f hm] at hle ⊢
    have hlt := hn.num_lt (hseen f hm)
    by_cases hyt : y = target
    · -- the edge that leads to the node just met
      refine ⟨target, List.mem_cons_self .., ?_, ?_⟩
      · rw [enter_num, if_pos rfl]
        omega
      · rw [hyt, enter_low, enter_num, if_pos rfl, if_pos rfl]
    · have hy := (List.mem_cons.1 hy).resolve_left hyt
      obtain ⟨g, hg, hfg, hgy⟩ :=
        h.least f hm x hx hle y hy ((htaken x y hxy).resolve_right hyt)
      refine ⟨g, List.mem_cons_of_mem _ hg, ?_, ?_⟩
      · rwa [hpathnum g hg]
      · rwa [hlow g hg, hstack y hy]

omit hpath htaken hlink

theorem Decided.enter (h : Decided edges p) : Decided edges (p.enter target) := by
  have hoff : ∀ x, Seen (p.enter target) x ∧ x ∉ (p.enter target).stack ↔
      Seen p x ∧ x ∉ p.stack := by
    intro x
    rw [enter_seen, enter_stack, List.mem_cons, not_or]
    constructor
    · rintro ⟨hx, hne, hs⟩
      exact ⟨hx.resolve_left hne, hs⟩
    · rintro ⟨hx, hs⟩
      exact ⟨.inr hx, ne_of_seen hnew hx, hs⟩
  refine ⟨fun x hx hs y hxy => (hoff y).2 ?_, fun x => ?_⟩
  · obtain ⟨hx, hs⟩ := (hoff x).1 ⟨hx, hs⟩
    exact h.closed x hx hs y hxy
  · rw [hoff]
    exact h.cyclic x

include hpath htaken hlink

theorem Searching.enter (h : Searching edges p frames) :
    Searching edges (p.enter target) ((target, 0) :: frames') :=
  ⟨h.numbered.enter hnew, h.framed.enter hnew hpath htaken hlink h.numbered,
    h.lowered.enter hnew hpath htaken hlink h.numbered h.framed, h.decided.enter hnew⟩

end Enter

/-! ### Taking an edge to a node already met -/

section Advance

variable {node taken target : ℕ} {frames : List (ℕ × ℕ)}

theorem Searching.advance (h : Searching edges p ((node, taken) :: frames))
    (hedge : (targetsOf edges node)[taken]? = some target) (hseen : Seen p target)
    {low : ℕ → ℕ} (hother : ∀ x, x ≠ node → low x = p.low x) (hle : low node ≤ p.low node)
    (hreach : low node = p.low node ∨ target ∈ p.stack ∧ low node = p.num target)
    (hleast : target ∈ p.stack → low node ≤ p.num target) :
    Searching edges { p with low := low } ((node, taken + 1) :: frames) := by
  have hlow : ∀ x, low x ≤ p.low x := by
    intro x
    by_cases hx : x = node
    · rw [hx]
      exact hle
    · rw [hother x hx]
  have htop : node ∈ path ((node, taken) :: frames) := List.mem_cons_self ..
  have hf := h.framed
  have hl := h.lowered
  refine ⟨⟨h.numbered.bounded, h.numbered.single, h.numbered.stacked, h.numbered.falling⟩,
    ⟨hf.stacked, hf.falling, hf.linked, hf.rooted, fun x hx y hxy => ?_, hf.reaches⟩,
    ⟨fun f hm => (hlow f).trans (hl.le f hm), fun f hm => ?_, hl.falls,
      fun f hm x hx hfx y hy hxy => ?_⟩,
    ⟨h.decided.closed, h.decided.cyclic⟩⟩
  · rcases taken_advance hedge hxy with hxy | ⟨-, rfl⟩
    · exact hf.taken x hx y hxy
    · exact hseen
  · by_cases hfn : f = node
    · subst hfn
      rcases hreach with heq | ⟨hs, heq⟩
      · obtain ⟨y, hy, hr, hnum⟩ := hl.reached f hm
        exact ⟨y, hy, hr, hnum.trans heq.symm⟩
      · exact ⟨target, hs, .single (List.mem_of_getElem? hedge), heq.symm⟩
    · obtain ⟨y, hy, hr, hnum⟩ := hl.reached f hm
      exact ⟨y, hy, hr, hnum.trans (hother f hfn).symm⟩
  · rcases taken_advance hedge hxy with hxy | ⟨rfl, rfl⟩
    · obtain ⟨g, hg, hfg, hgy⟩ := hl.least f hm x hx hfx y hy hxy
      exact ⟨g, hg, hfg, (hlow g).trans hgy⟩
    · exact ⟨x, htop, hfx, hleast hy⟩

end Advance

/-! ### Leaving a node -/

section Leave

variable {node taken : ℕ} {frames : List (ℕ × ℕ)}

theorem Framed.num_lt (h : Framed edges p ((node, taken) :: frames)) {f : ℕ} (hf : f ∈ path frames) :
    p.num f < p.num node :=
  (List.pairwise_cons.1 h.falling).1 f hf

theorem Framed.eq_top (h : Framed edges p ((node, taken) :: frames)) {g : ℕ}
    (hg : g ∈ path ((node, taken) :: frames)) (hle : p.num node ≤ p.num g) : g = node := by
  rcases List.mem_cons.1 hg with rfl | hg
  · rfl
  · have hlt := h.num_lt hg
    omega

theorem Searching.stay (h : Searching edges p ((node, taken) :: frames))
    (hend : (targetsOf edges node)[taken]? = none) (hne : p.num node ≠ p.low node) :
    ∃ parent t rest, frames = (parent, t) :: rest ∧
      Searching edges (p.lower parent (p.low node)) frames := by
  have hf := h.framed
  have hl := h.lowered
  have htop : node ∈ path ((node, taken) :: frames) := List.mem_cons_self ..
  have hlow := hl.le node htop
  obtain ⟨y, hy, hr, hnum⟩ := hl.reached node htop
  obtain ⟨f, hfm, hfy⟩ := hf.rooted y hy
  cases frames with
  | nil =>
    obtain rfl : f = node := by simpa [path] using hfm
    omega
  | cons frame rest =>
    obtain ⟨parent, t⟩ := frame
    refine ⟨parent, t, rest, rfl, ?_⟩
    have hparent : parent ∈ path ((parent, t) :: rest) := List.mem_cons_self ..
    have hfall := (List.pairwise_cons.1 hf.falling).2
    have hup : ∀ f ∈ path ((parent, t) :: rest), p.num f ≤ p.num parent := by
      intro f hm
      rcases List.mem_cons.1 hm with rfl | hm
      · exact le_rfl
      · exact ((List.pairwise_cons.1 hfall).1 f hm).le
    have hedge : Edge edges parent node := (List.isChain_cons_cons.1 hf.linked).1
    have hlowered : ∀ x, (p.lower parent (p.low node)).low x ≤ p.low x := by
      intro x
      unfold lower
      by_cases hx : x = parent
      · simp [hx]
      · simp [hx]
    have hself : (p.lower parent (p.low node)).low parent = min (p.low parent) (p.low node) := by
      simp [lower]
    refine ⟨⟨h.numbered.bounded, h.numbered.single, h.numbered.stacked, h.numbered.falling⟩,
      ⟨fun f hm => hf.stacked f (List.mem_cons_of_mem _ hm), hfall,
        (List.isChain_cons.1 hf.linked).2, fun x hx => ?_,
        fun x hx z hxz => hf.taken x hx z (taken_leave hend hxz),
        fun f hm => hf.reaches f (List.mem_cons_of_mem _ hm)⟩,
      ⟨fun f hm => (hlowered f).trans (hl.le f (List.mem_cons_of_mem _ hm)), fun f hm => ?_,
        fun x hx hm => ?_, fun f hm x hx hfx z hz hxz => ?_⟩,
      ⟨h.decided.closed, h.decided.cyclic⟩⟩
    · obtain ⟨f, hm, hle⟩ := hf.rooted x hx
      rcases List.mem_cons.1 hm with rfl | hm
      · exact ⟨parent, hparent, (hf.num_lt hparent).le.trans hle⟩
      · exact ⟨f, hm, hle⟩
    · by_cases hfp : f = parent
      · subst hfp
        rcases le_total (p.low f) (p.low node) with hle | hle
        · obtain ⟨z, hz, hrz, hnumz⟩ := hl.reached f (List.mem_cons_of_mem _ hm)
          exact ⟨z, hz, hrz, by rw [hself, min_eq_left hle]; exact hnumz⟩
        · exact ⟨y, hy, .head hedge hr, by rw [hself, min_eq_right hle]; exact hnum⟩
      · obtain ⟨z, hz, hrz, hnumz⟩ := hl.reached f (List.mem_cons_of_mem _ hm)
        refine ⟨z, hz, hrz, hnumz.trans ?_⟩
        simp [lower, hfp]
    · by_cases hxn : x = node
      · subst hxn
        exact ⟨y, hy, hr, by show p.num y < p.num x; omega⟩
      · exact hl.falls x hx (by rw [path_cons, List.mem_cons, not_or]; exact ⟨hxn, hm⟩)
    · obtain ⟨g, hg, hfg, hgz⟩ := hl.least f (List.mem_cons_of_mem _ hm) x hx hfx z hz
        (taken_leave hend hxz)
      rcases List.mem_cons.1 hg with rfl | hg
      · refine ⟨parent, hparent, hup f hm, ?_⟩
        rw [hself]
        exact (min_le_right _ _).trans hgz
      · exact ⟨g, hg, hfg, (hlowered g).trans hgz⟩

structure Parted (p : Pass) (node : ℕ) (above below : List ℕ) : Prop where
  stack : p.stack = above ++ node :: below
  above_lt : ∀ x ∈ above, p.num node < p.num x
  below_lt : ∀ x ∈ below, p.num x < p.num node
  fresh : node ∉ above

theorem Numbered.parted (h : Numbered p) (hs : node ∈ p.stack) :
    ∃ above below, Parted p node above below := by
  obtain ⟨above, below, heq⟩ := List.append_of_mem hs
  have hfall := h.falling
  rw [heq, List.pairwise_append] at hfall
  obtain ⟨-, hrest, hcross⟩ := hfall
  have habove : ∀ x ∈ above, p.num node < p.num x :=
    fun x hx => hcross x hx node (List.mem_cons_self ..)
  refine ⟨above, below, heq, habove, (List.pairwise_cons.1 hrest).1, fun hm => ?_⟩
  exact absurd (habove node hm) (lt_irrefl _)

theorem Parted.close_eq {above below : List ℕ} (h : Parted p node above below) :
    p.close edges node = { p with
      stack := below
      cyclic := if 1 < (above ++ [node]).length ∨ (targetsOf edges node).contains node then
          p.cyclic ++ (above ++ [node])
        else p.cyclic } := by
  have htake : p.stack.takeWhile (· ≠ node) = above := by
    have hall : above.takeWhile (· ≠ node) = above :=
      List.takeWhile_eq_self_iff.2 fun x hx => by
        simpa using fun heq : x = node => h.fresh (heq ▸ hx)
    rw [h.stack, UnitGraph.takeWhile_stop, hall]
  have hdrop : p.stack.dropWhile (· ≠ node) = node :: below := by
    have hsplit := List.takeWhile_append_dropWhile (p := (· ≠ node)) (l := p.stack)
    rw [htake, h.stack] at hsplit
    rw [h.stack]
    exact List.append_cancel_left hsplit
  simp only [close, htake, hdrop, List.tail_cons]

/-- The node and what is above it reach each other, and lead on only to what is decided. -/
theorem Searching.component (h : Searching edges p ((node, taken) :: frames))
    (hend : (targetsOf edges node)[taken]? = none) (hroot : p.num node = p.low node)
    {x : ℕ} (hx : x ∈ p.stack) (hle : p.num node ≤ p.num x) :
    Relation.ReflTransGen (Edge edges) node x ∧ Relation.ReflTransGen (Edge edges) x node ∧
      ∀ y, Relation.ReflTransGen (Edge edges) x y →
        y ∈ p.stack ∧ p.num node ≤ p.num y ∨ Seen p y ∧ y ∉ p.stack := by
  have hf := h.framed
  have hl := h.lowered
  have htop : node ∈ path ((node, taken) :: frames) := List.mem_cons_self ..
  have hstep : ∀ x ∈ p.stack, p.num node ≤ p.num x → ∀ y, Edge edges x y →
      y ∈ p.stack ∧ p.num node ≤ p.num y ∨ Seen p y ∧ y ∉ p.stack := by
    intro x hx hle y hxy
    have htaken : Taken edges ((node, taken) :: frames) x y := by
      refine taken_leave hend ⟨hxy, fun t ht => ?_⟩
      -- no other frame has a number as great
      have hm : x ∈ path frames := List.mem_map_of_mem ht
      have hlt := hf.num_lt hm
      omega
    by_cases hy : y ∈ p.stack
    · left
      obtain ⟨g, hg, hge, hgy⟩ := hl.least node htop x hx hle y hy htaken
      rw [hf.eq_top hg hge] at hgy
      exact ⟨hy, by omega⟩
    · exact .inr ⟨hf.taken x hx y htaken, hy⟩
  have hstays : ∀ x ∈ p.stack, p.num node ≤ p.num x → ∀ y, Relation.ReflTransGen (Edge edges) x y →
      y ∈ p.stack ∧ p.num node ≤ p.num y ∨ Seen p y ∧ y ∉ p.stack := by
    intro x hx hle y hr
    induction hr with
    | refl => exact .inl ⟨hx, hle⟩
    | tail _ hedge ih =>
      rcases ih with ⟨hz, hzle⟩ | ⟨hz, hzs⟩
      · exact hstep _ hz hzle _ hedge
      · exact .inr (h.decided.closed _ hz hzs _ hedge)
  have hback : ∀ k, ∀ x ∈ p.stack, p.num node ≤ p.num x → p.num x = k →
      Relation.ReflTransGen (Edge edges) x node := by
    intro k
    induction k using Nat.strong_induction_on with
    | _ k ih =>
      intro x hx hle hk
      by_cases hxn : x = node
      · rw [hxn]
      · have hoff : x ∉ path ((node, taken) :: frames) := by
          intro hm
          exact hxn (hf.eq_top hm hle)
        obtain ⟨y, hy, hr, hlt⟩ := hl.falls x hx hoff
        rcases hstays x hx hle y hr with ⟨-, hyle⟩ | ⟨-, hys⟩
        · exact hr.trans (ih (p.num y) (by omega) y hy hyle rfl)
        · exact absurd hy hys
  exact ⟨hf.reaches node htop x hx hle, hback _ x hx hle rfl, hstays x hx hle⟩

theorem Searching.component_cyclic (h : Searching edges p ((node, taken) :: frames))
    (hend : (targetsOf edges node)[taken]? = none) (hroot : p.num node = p.low node)
    {above below : List ℕ} (hp : Parted p node above below) {x : ℕ} (hx : x ∈ above ++ [node]) :
    Relation.TransGen (Edge edges) x x ↔
      (1 < (above ++ [node]).length ∨ (targetsOf edges node).contains node) := by
  have hmember : ∀ y, y ∈ p.stack ∧ p.num node ≤ p.num y ↔ y ∈ above ++ [node] := by
    intro y
    rw [hp.stack]
    simp only [List.mem_append, List.mem_cons, List.not_mem_nil, or_false]
    constructor
    · rintro ⟨hy | rfl | hy, hle⟩
      · exact .inl hy
      · exact .inr rfl
      · have hlt := hp.below_lt y hy
        omega
    · rintro (hy | rfl)
      · exact ⟨.inl hy, (hp.above_lt y hy).le⟩
      · exact ⟨.inr (.inl rfl), le_rfl⟩
  have hself : node ∈ above ++ [node] := by simp
  have hcomponent := fun y hy => h.component hend hroot ((hmember y).2 hy).1 ((hmember y).2 hy).2
  constructor
  · intro hc
    by_contra hno
    rw [not_or, List.contains_iff_mem] at hno
    have hnil : above = [] := by
      have hlength := hno.1
      rw [List.length_append, List.length_singleton] at hlength
      exact List.eq_nil_of_length_eq_zero (by omega)
    have honly : ∀ y, y ∈ above ++ [node] ↔ y = node := by simp [hnil]
    obtain rfl := (honly x).1 hx
    obtain ⟨y, hy, hr⟩ := Relation.TransGen.head'_iff.1 hc
    rcases (hcomponent x hx).2.2 y (.single hy) with hm | ⟨hys, hyo⟩
    · rw [hmember, honly] at hm
      exact hno.2 (hm ▸ hy)
    · -- what is decided never leads back to the stack
      have hdone := mem_of_reach (fun z => Seen p z ∧ z ∉ p.stack)
        (fun z hz w hw => h.decided.closed z hz.1 hz.2 w hw) hr ⟨hys, hyo⟩
      exact hdone.2 ((hmember x).2 hx).1
  · rintro (hlength | hloop)
    · -- another node of the component
      have hother : ∃ z ∈ above ++ [node], z ≠ x := by
        by_cases hxn : x = node
        · cases above with
          | nil => simp at hlength
          | cons z rest =>
            refine ⟨z, by simp, ?_⟩
            have hlt := hp.above_lt z (List.mem_cons_self ..)
            rintro rfl
            rw [hxn] at hlt
            omega
        · exact ⟨node, hself, Ne.symm hxn⟩
      obtain ⟨z, hz, hne⟩ := hother
      have hto := (hcomponent x hx).2.1.trans (hcomponent z hz).1
      have hfrom := (hcomponent z hz).2.1.trans (hcomponent x hx).1
      rcases Relation.reflTransGen_iff_eq_or_transGen.1 hto with heq | hto
      · exact absurd heq hne
      · exact hto.trans_left hfrom
    · rw [List.contains_iff_mem] at hloop
      obtain ⟨hto, hfrom, -⟩ := hcomponent x hx
      exact (Relation.TransGen.tail' hfrom hloop).trans_left hto

theorem Parted.mem_below {above below : List ℕ} (hp : Parted p node above below) {x : ℕ}
    (hx : x ∈ p.stack) (hlt : p.num x < p.num node) : x ∈ below := by
  rw [hp.stack, List.mem_append, List.mem_cons] at hx
  rcases hx with hx | rfl | hx
  · have hgt := hp.above_lt x hx
    omega
  · omega
  · exact hx

theorem Searching.close (h : Searching edges p ((node, taken) :: frames))
    (hend : (targetsOf edges node)[taken]? = none) (hroot : p.num node = p.low node) :
    Searching edges (p.close edges node) frames := by
  have hf := h.framed
  have hl := h.lowered
  have htop : node ∈ path ((node, taken) :: frames) := List.mem_cons_self ..
  obtain ⟨above, below, hp⟩ := h.numbered.parted (hf.stacked node htop)
  have hin : ∀ x ∈ below, x ∈ p.stack := by
    intro x hx
    rw [hp.stack]
    exact List.mem_append_right _ (List.mem_cons_of_mem _ hx)
  have hoff : ∀ x, x ∈ p.stack → p.num node ≤ p.num x → x ∉ below := by
    intro x _ hle hx
    have hlt := hp.below_lt x hx
    omega
  rw [hp.close_eq]
  have hpathlt : ∀ f ∈ path frames, p.num f < p.num node := fun f hm => hf.num_lt hm
  refine ⟨⟨h.numbered.bounded, h.numbered.single, fun x hx => h.numbered.stacked x (hin x hx), ?_⟩,
    ⟨fun f hm => hp.mem_below (hf.stacked f (List.mem_cons_of_mem _ hm)) (hpathlt f hm),
      (List.pairwise_cons.1 hf.falling).2, (List.isChain_cons.1 hf.linked).2, fun x hx => ?_,
      fun x hx y hxy => hf.taken x (hin x hx) y (taken_leave hend hxy),
      fun f hm x hx => hf.reaches f (List.mem_cons_of_mem _ hm) x (hin x hx)⟩,
    ⟨fun f hm => hl.le f (List.mem_cons_of_mem _ hm), fun f hm => ?_, fun x hx hm => ?_,
      fun f hm x hx hfx y hy hxy => ?_⟩,
    ⟨fun x hx hxb y hxy => ?_, fun x => ?_⟩⟩
  · refine h.numbered.falling.sublist ?_
    rw [hp.stack]
    exact (List.sublist_cons_self node below).trans (List.sublist_append_right above _)
  · obtain ⟨f, hm, hle⟩ := hf.rooted x (hin x hx)
    refine ⟨f, (List.mem_cons.1 hm).resolve_left ?_, hle⟩
    rintro rfl
    exact hoff x (hin x hx) hle hx
  · obtain ⟨y, hy, hr, hnum⟩ := hl.reached f (List.mem_cons_of_mem _ hm)
    have hle := hl.le f (List.mem_cons_of_mem _ hm)
    have hlt := hpathlt f hm
    exact ⟨y, hp.mem_below hy (by omega), hr, hnum⟩
  · have hxlt := hp.below_lt x hx
    have hne : x ≠ node := by
      rintro rfl
      exact lt_irrefl _ hxlt
    obtain ⟨y, hy, hr, hlt⟩ := hl.falls x (hin x hx) (by
      rw [path_cons, List.mem_cons, not_or]
      exact ⟨hne, hm⟩)
    exact ⟨y, hp.mem_below hy (hlt.trans hxlt), hr, hlt⟩
  · obtain ⟨g, hg, hfg, hgy⟩ := hl.least f (List.mem_cons_of_mem _ hm) x (hin x hx) hfx y
      (hin y hy) (taken_leave hend hxy)
    refine ⟨g, (List.mem_cons.1 hg).resolve_left ?_, hfg, hgy⟩
    rintro rfl
    have hlt := hp.below_lt y hy
    show False
    omega
  · by_cases hxs : x ∈ p.stack
    · have hle : p.num node ≤ p.num x := by
        by_contra hlt
        exact hxb (hp.mem_below hxs (by omega))
      obtain ⟨-, -, hstays⟩ := h.component hend hroot hxs hle
      rcases hstays y (.single hxy) with ⟨hy, hyle⟩ | ⟨hy, hyo⟩
      · exact ⟨h.numbered.stacked y hy, hoff y hy hyle⟩
      · exact ⟨hy, fun hyb => hyo (hin y hyb)⟩
    · obtain ⟨hy, hyo⟩ := h.decided.closed x hx hxs y hxy
      exact ⟨hy, fun hyb => hyo (hin y hyb)⟩
  · have hold := h.decided.cyclic x
    have hmember : x ∈ p.stack ↔ x ∈ above ++ [node] ∨ x ∈ below := by
      rw [hp.stack]
      simp only [List.mem_append, List.mem_cons, List.not_mem_nil, or_false]
      tauto
    show x ∈ (if _ then _ else _) ↔ (Seen p x ∧ x ∉ below) ∧ _
    by_cases hx : x ∈ above ++ [node]
    · have hxs := hmember.2 (.inl hx)
      have hle : p.num node ≤ p.num x := by
        rcases List.mem_append.1 hx with hx | hx
        · exact (hp.above_lt x hx).le
        · rw [List.mem_singleton.1 hx]
      have hcyclic := h.component_cyclic hend hroot hp hx
      have hnot : x ∉ p.cyclic := fun hm => (hold.1 hm).1.2 hxs
      rw [hcyclic]
      split
      · rename_i hflag
        simp only [List.mem_append, hflag, and_true]
        exact ⟨fun _ => ⟨h.numbered.stacked x hxs, hoff x hxs hle⟩,
          fun _ => .inr (List.mem_append.1 hx)⟩
      · rename_i hflag
        simp only [hnot, hflag, and_false]
    · have hsame : x ∈ (if 1 < (above ++ [node]).length ∨ (targetsOf edges node).contains node then
          p.cyclic ++ (above ++ [node]) else p.cyclic) ↔ x ∈ p.cyclic := by
        split
        · rw [List.mem_append, or_iff_left hx]
        · rfl
      rw [hsame, hold]
      by_cases hxb : x ∈ below
      · simp only [hxb, hin x hxb, not_true, and_false, false_and]
      · have hxs : x ∉ p.stack := fun hm => (hmember.1 hm).elim hx hxb
        simp only [hxb, hxs]

theorem lower_of_le {x bound : ℕ} (h : p.low x ≤ bound) : p.lower x bound = p := by
  rw [lower, min_eq_left h, Function.update_eq_self]

theorem Searching.leave (h : Searching edges p ((node, taken) :: frames))
    (hend : (targetsOf edges node)[taken]? = none) :
    Searching edges (p.leave edges node frames) frames := by
  have htop : node ∈ path ((node, taken) :: frames) := List.mem_cons_self ..
  have horder := (h.numbered.stacked node (h.framed.stacked node htop)).eq
  by_cases hroot : p.num node = p.low node
  · have hsame : p.leave edges node frames = p.close edges node := by
      cases frames with
      | nil =>
        unfold Pass.leave
        rw [if_pos (by rw [horder, hroot])]
      | cons frame rest =>
        have hm : frame.1 ∈ path (frame :: rest) := List.mem_cons_self ..
        have hlt := h.framed.num_lt hm
        have hle := h.lowered.le frame.1 (List.mem_cons_of_mem _ hm)
        unfold Pass.leave
        simp only [lower_of_le (show p.low frame.1 ≤ p.low node by omega)]
        rw [if_pos (by rw [horder, hroot])]
    rw [hsame]
    exact h.close hend hroot
  · obtain ⟨parent, t, rest, rfl, hstay⟩ := h.stay hend hroot
    have hne : node ≠ parent := by
      rintro rfl
      exact lt_irrefl _ (h.framed.num_lt (List.mem_cons_self ..))
    have hlow : (p.lower parent (p.low node)).low node = p.low node := by
      simp [lower, hne]
    have hsame : p.leave edges node ((parent, t) :: rest) = p.lower parent (p.low node) := by
      unfold Pass.leave
      simp only
      rw [if_neg]
      rw [hlow]
      show ¬ p.order node = _
      rw [horder, Option.some.injEq]
      exact hroot
    rw [hsame]
    exact hstay

theorem Searching.follow {target : ℕ} (h : Searching edges p ((node, taken) :: frames))
    (hedge : (targetsOf edges node)[taken]? = some target) (hnew : p.order target = none) :
    Searching edges (p.enter target) ((target, 0) :: (node, taken + 1) :: frames) := by
  apply h.enter (fun hseen => by rw [hseen.eq] at hnew; cases hnew)
  · rfl
  · exact fun x y hxy => (taken_advance hedge hxy).imp_right And.right
  · rintro f ⟨⟩
    exact List.mem_of_getElem? hedge

theorem Searching.take {target order : ℕ} (h : Searching edges p ((node, taken) :: frames))
    (hedge : (targetsOf edges node)[taken]? = some target) (hseen : p.order target = some order) :
    Searching edges (if p.stack.contains target then p.lower node order else p)
      ((node, taken + 1) :: frames) := by
  have hnum : p.num target = order := by rw [num, hseen, Option.getD_some]
  by_cases hs : target ∈ p.stack
  · rw [if_pos (List.contains_iff_mem.2 hs)]
    apply h.advance hedge ⟨order, hseen⟩
    · intro x hx
      rw [Function.update_of_ne hx]
    · rw [Function.update_self]
      exact min_le_left _ _
    · rw [Function.update_self, hnum]
      rcases le_total (p.low node) order with hle | hle
      · exact .inl (min_eq_left hle)
      · exact .inr ⟨hs, min_eq_right hle⟩
    · intro _
      rw [Function.update_self, hnum]
      exact min_le_right _ _
  · rw [if_neg (fun hm => hs (List.contains_iff_mem.1 hm))]
    exact h.advance hedge ⟨order, hseen⟩ (fun _ _ => rfl) le_rfl (.inl rfl) (fun hm => absurd hm hs)

theorem leave_order (frames : List (ℕ × ℕ)) : (p.leave edges node frames).order = p.order := by
  cases frames with
  | nil =>
    unfold Pass.leave close
    dsimp only
    split <;> rfl
  | cons frame rest =>
    unfold Pass.leave close lower
    dsimp only
    split <;> rfl

end Leave

/-! ### The walk -/

/-- The nodes without a number. -/
def unseen (edges : Edges) (p : Pass) : Finset ℕ :=
  (Finset.range edges.length).filter fun x => p.order x = none

theorem unseen_enter {target : ℕ} (hlt : target < edges.length) (hnew : p.order target = none) :
    target ∈ unseen edges p ∧
      unseen edges (p.enter target) = (unseen edges p).erase target := by
  constructor
  · simp [unseen, hlt, hnew]
  · ext x
    simp only [unseen, Finset.mem_filter, Finset.mem_erase]
    by_cases hx : x = target
    · simp [hx, enter]
    · simp [hx, enter]

theorem not_seen {x : ℕ} : ¬ Seen p x ↔ p.order x = none := by
  unfold Seen
  cases p.order x <;> simp

/-- A walk with the steps it needs leaves nothing on the path. -/
theorem walk_spec (hc : Closed edges) {steps : ℕ} {frames : List (ℕ × ℕ)}
    (h : Searching edges p frames)
    (hsteps : remaining (targetsOf edges) (unseen edges p) frames < steps) :
    Searching edges (p.walk edges steps frames) [] ∧
      ∀ x, Seen p x → Seen (p.walk edges steps frames) x := by
  induction steps generalizing p frames with
  | zero => omega
  | succ steps ih =>
    match frames, h, hsteps with
    | [], h, _ => exact ⟨h, fun _ hx => hx⟩
    | (node, taken) :: frames, h, hsteps =>
      rw [walk]
      split
      · rename_i target hedge
        obtain ⟨hlt, -⟩ := List.getElem?_eq_some_iff.1 hedge
        have htake := remaining_take (targetsOf edges) (unseen edges p) frames hlt
        have hmem : Edge edges node target := List.mem_of_getElem? hedge
        split
        · rename_i hnew
          obtain ⟨hm, herase⟩ := unseen_enter (hc node target hmem) hnew
          have henter := remaining_enter (targetsOf edges) ((node, taken + 1) :: frames) hm
          obtain ⟨hdone, hkept⟩ := ih (h.follow hedge hnew) (by rw [herase]; omega)
          exact ⟨hdone, fun x hx => hkept x (enter_seen.2 (.inr hx))⟩
        · rename_i order hseen
          have htaken := h.take hedge hseen
          by_cases hs : p.stack.contains target
          · rw [if_pos hs] at htaken ⊢
            exact ih htaken (by
              show remaining _ (unseen edges p) _ < _
              omega)
          · rw [if_neg hs] at htaken ⊢
            exact ih htaken (by omega)
      · rename_i hend
        have hleave := remaining_leave (targetsOf edges) (unseen edges p) frames node taken
        have hsame : unseen edges (p.leave edges node frames) = unseen edges p := by
          rw [unseen, leave_order]
          rfl
        obtain ⟨hdone, hkept⟩ := ih (h.leave hend) (by rw [hsame]; omega)
        refine ⟨hdone, fun x hx => hkept x ?_⟩
        rw [Seen, leave_order]
        exact hx

end Pass
end Constructs
end FilamentCore.SemanticIr
