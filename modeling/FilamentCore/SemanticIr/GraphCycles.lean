import FilamentCore.Library.Frames
import FilamentCore.SemanticIr.Rules

/-!
# The coloured walks (crates/semantic-ir/src/rules.rs)

`composite_walk` and `package_walk` colour what they meet: grey while it is on the path, black
once every edge of it is taken. No cycle goes through a black node, and an edge to a grey one
closes a cycle.
-/

namespace FilamentCore.SemanticIr
namespace Rules

open Library.Frames

/-- An edge of a node leads to another. -/
def Leads (edges : ℕ → List (Option ℕ)) (a b : ℕ) : Prop := some b ∈ edges a

/-- An edge at a place of a node's list is one of a cycle. -/
def OnCycle (edges : ℕ → List (Option ℕ)) (at' member : ℕ) : Prop :=
  ∃ b, (edges at')[member]? = some (some b) ∧ Relation.ReflTransGen (Leads edges) b at'

variable {edges : ℕ → List (Option ℕ)} {colour : ℕ → Colour}

theorem OnCycle.cycle {at' member : ℕ} (h : OnCycle edges at' member) :
    Relation.TransGen (Leads edges) at' at' := by
  obtain ⟨b, hb, hr⟩ := h
  exact .head' (List.mem_of_getElem? hb) hr

/-! ### What the walk keeps -/

/-- What the edges taken so far lead to is black, the one to the frame above apart. -/
def Passed (edges : ℕ → List (Option ℕ)) (colour : ℕ → Colour) :
    Option ℕ → List (ℕ × ℕ) → Prop
  | _, [] => True
  | above, (node, taken) :: path =>
    (∀ b, some b ∈ (edges node).take taken → colour b = .black ∨ above = some b) ∧
      Passed edges colour (some node) path

structure Walking (edges : ℕ → List (Option ℕ)) (colour : ℕ → Colour) (path : List (ℕ × ℕ)) :
    Prop where
  grey : ∀ a, colour a = .grey ↔ a ∈ path.map Prod.fst
  distinct : (path.map Prod.fst).Nodup
  linked : (path.map Prod.fst).IsChain fun a b => Leads edges b a
  passed : Passed edges colour none path
  closed : ∀ a, colour a = .black → ∀ b, Leads edges a b → colour b = .black
  acyclic : ∀ a, colour a = .black → ¬ Relation.TransGen (Leads edges) a a

theorem Passed.mono {colour' : ℕ → Colour} (hblack : ∀ a, colour a = .black → colour' a = .black)
    {above above' : Option ℕ} (habove : ∀ b, above = some b → colour' b = .black ∨ above' = some b)
    {path : List (ℕ × ℕ)} (h : Passed edges colour above path) :
    Passed edges colour' above' path := by
  induction path generalizing above above' with
  | nil => trivial
  | cons frame path ih =>
    refine ⟨fun b hb => ?_, ih (fun b hb => .inr hb) h.2⟩
    rcases h.1 b hb with hb | hb
    · exact .inl (hblack b hb)
    · exact habove b hb

section Step

variable {node taken : ℕ} {path : List (ℕ × ℕ)}

theorem Walking.skip {target : Option ℕ} (h : Walking edges colour ((node, taken) :: path))
    (hedge : (edges node)[taken]? = some target) (hblack : ∀ b, target = some b → colour b = .black) :
    Walking edges colour ((node, taken + 1) :: path) := by
  refine ⟨h.grey, h.distinct, h.linked, ⟨fun b hb => ?_, h.passed.2⟩, h.closed, h.acyclic⟩
  rw [List.take_add_one, hedge, List.mem_append] at hb
  rcases hb with hb | hb
  · exact h.passed.1 b hb
  · have hb : some b = target := by simpa using hb
    exact .inl (hblack b hb.symm)

theorem Walking.enter {target : ℕ} (h : Walking edges colour ((node, taken) :: path))
    (hedge : (edges node)[taken]? = some (some target)) (hwhite : colour target = .white) :
    Walking edges (Function.update colour target .grey)
      ((target, 0) :: (node, taken + 1) :: path) := by
  have hnew : target ∉ ((node, taken) :: path).map Prod.fst := by
    intro hm
    rw [← h.grey, hwhite] at hm
    cases hm
  have hkept : ∀ a, colour a = .black → Function.update colour target .grey a = .black := by
    intro a ha
    rw [Function.update_of_ne]
    · exact ha
    · rintro rfl
      rw [hwhite] at ha
      cases ha
  have hblack : ∀ a, Function.update colour target .grey a = .black → colour a = .black := by
    intro a ha
    by_cases hat : a = target
    · rw [hat, Function.update_self] at ha
      cases ha
    · rwa [Function.update_of_ne hat] at ha
  refine ⟨fun a => ?_, List.nodup_cons.2 ⟨hnew, h.distinct⟩,
    List.isChain_cons_cons.2 ⟨List.mem_of_getElem? hedge, h.linked⟩, ⟨by simp, fun b hb => ?_, ?_⟩,
    fun a ha b hb => ?_, fun a ha => ?_⟩
  · have hpath := h.grey a
    simp only [List.map_cons, List.mem_cons] at hpath ⊢
    by_cases hat : a = target
    · simp [hat]
    · simp [hpath, hat]
  · rw [List.take_add_one, hedge, List.mem_append] at hb
    rcases hb with hb | hb
    · rcases h.passed.1 b hb with hb | hb
      · exact .inl (hkept b hb)
      · cases hb
    · right
      have heq : b = target := by simpa using hb
      rw [heq]
  · exact h.passed.2.mono hkept fun b hb => .inr hb
  · exact hkept b (h.closed a (hblack a ha) b hb)
  · exact h.acyclic a (hblack a ha)

theorem Walking.leave (h : Walking edges colour ((node, taken) :: path))
    (hend : (edges node)[taken]? = none) :
    Walking edges (Function.update colour node .black) path := by
  have hgrey : colour node = .grey := (h.grey node).2 (List.mem_cons_self ..)
  have hnew : node ∉ path.map Prod.fst := (List.nodup_cons.1 h.distinct).1
  have hkept : ∀ a, colour a = .black → Function.update colour node .black a = .black := by
    intro a ha
    by_cases han : a = node
    · rw [han, Function.update_self]
    · rwa [Function.update_of_ne han]
  -- every edge of the node is taken, and no frame is above it
  have hout : ∀ b, Leads edges node b → colour b = .black := by
    intro b hb
    rw [List.getElem?_eq_none_iff] at hend
    rcases h.passed.1 b (by rwa [List.take_of_length_le hend]) with hb | hb
    · exact hb
    · cases hb
  refine ⟨fun a => ?_, (List.nodup_cons.1 h.distinct).2, (List.isChain_cons.1 h.linked).2,
    h.passed.2.mono hkept fun b hb => ?_, fun a ha b hb => ?_, fun a ha hc => ?_⟩
  · have hpath := h.grey a
    simp only [List.map_cons, List.mem_cons] at hpath
    by_cases han : a = node
    · simpa [han] using hnew
    · simpa [Function.update_of_ne han, han] using hpath
  · left
    rw [Option.some.injEq] at hb
    rw [← hb, Function.update_self]
  · by_cases han : a = node
    · exact hkept b (hout b (han ▸ hb))
    · rw [Function.update_of_ne han] at ha
      exact hkept b (h.closed a ha b hb)
  · by_cases han : a = node
    · subst han
      obtain ⟨b, hb, hr⟩ := Relation.TransGen.head'_iff.1 hc
      have := mem_of_reach _ h.closed hr (hout b hb)
      rw [hgrey] at this
      cases this
    · rw [Function.update_of_ne han] at ha
      exact h.acyclic a ha hc

theorem Walking.back {target : ℕ} (h : Walking edges colour ((node, taken) :: path))
    (hedge : (edges node)[taken]? = some (some target)) (hgrey : colour target = .grey) :
    OnCycle edges node taken :=
  ⟨target, hedge, reach_top h.linked ((h.grey target).1 hgrey)⟩

end Step

/-! ### The walks -/

/-- The nodes not met yet. -/
def unmet (colour : ℕ → Colour) (count : ℕ) : Finset ℕ :=
  (Finset.range count).filter fun a => colour a = .white

theorem unmet_grey {target count : ℕ} (hlt : target < count) (hwhite : colour target = .white) :
    target ∈ unmet colour count ∧
      unmet (Function.update colour target .grey) count = (unmet colour count).erase target := by
  constructor
  · simp [unmet, hlt, hwhite]
  · ext a
    by_cases hat : a = target
    · simp [unmet, hat]
    · simp [unmet, hat]

theorem unmet_black {node count : ℕ} (hgrey : colour node = .grey) :
    unmet (Function.update colour node .black) count = unmet colour count := by
  ext a
  by_cases han : a = node
  · simp [unmet, han, hgrey]
  · simp [unmet, Function.update_of_ne han]

theorem backEdge_spec {count : ℕ} (hin : ∀ a b, Leads edges a b → b < count) {steps : ℕ}
    {path : List (ℕ × ℕ)} (h : Walking edges colour path)
    (hsteps : remaining edges (unmet colour count) path < steps) :
    (∃ found, (backEdge edges steps colour path).1 = some found ∧
        OnCycle edges found.1 found.2) ∨
      ((backEdge edges steps colour path).1 = none ∧
        Walking edges (backEdge edges steps colour path).2 [] ∧
        ∀ a, colour a = .black ∨ a ∈ path.map Prod.fst →
          (backEdge edges steps colour path).2 a = .black) := by
  induction steps generalizing colour path with
  | zero => omega
  | succ steps ih =>
    match path, h, hsteps with
    | [], h, _ =>
      right
      exact ⟨rfl, h, fun a ha => ha.resolve_right List.not_mem_nil⟩
    | (node, taken) :: path, h, hsteps =>
      rw [backEdge]
      split
      · rename_i hend
        have hgrey := (h.grey node).2 (List.mem_cons_self ..)
        have hleave := remaining_leave edges (unmet colour count) path node taken
        have hrest := ih (h.leave hend) (by rw [unmet_black hgrey]; omega)
        refine hrest.imp_right fun ⟨hnone, hwalk, hblack⟩ => ⟨hnone, hwalk, fun a ha => ?_⟩
        apply hblack
        by_cases han : a = node
        · left
          rw [han, Function.update_self]
        · simpa [Function.update_of_ne han, han] using ha
      · rename_i hedge
        obtain ⟨hlt, -⟩ := List.getElem?_eq_some_iff.1 hedge
        have htake := remaining_take edges (unmet colour count) path hlt
        exact ih (h.skip hedge (by simp)) (by omega)
      · rename_i target hedge
        obtain ⟨hlt, -⟩ := List.getElem?_eq_some_iff.1 hedge
        have htake := remaining_take edges (unmet colour count) path hlt
        split
        · rename_i hgrey
          exact .inl ⟨_, rfl, h.back hedge hgrey⟩
        · rename_i hwhite
          obtain ⟨hmem, herase⟩ := unmet_grey (hin node target (List.mem_of_getElem? hedge)) hwhite
          have henter := remaining_enter edges ((node, taken + 1) :: path) hmem
          have hrest := ih (h.enter hedge hwhite) (by rw [herase]; omega)
          refine hrest.imp_right fun ⟨hnone, hwalk, hblack⟩ => ⟨hnone, hwalk, fun a ha => ?_⟩
          apply hblack
          rcases ha with ha | ha
          · left
            rw [Function.update_of_ne]
            · exact ha
            · rintro rfl
              rw [hwhite] at ha
              cases ha
          · exact .inr (List.mem_cons_of_mem _ ha)
        · rename_i hblack
          exact ih (h.skip hedge (by rintro b ⟨⟩; exact hblack)) (by omega)

theorem Walking.start {start : ℕ} (h : Walking edges colour []) (hwhite : colour start = .white) :
    Walking edges (Function.update colour start .grey) [(start, 0)] := by
  have hsame : ∀ a, Function.update colour start .grey a = .black ↔ colour a = .black := by
    intro a
    by_cases has : a = start
    · simp [has, hwhite]
    · rw [Function.update_of_ne has]
  refine ⟨fun a => ?_, List.nodup_singleton _, List.isChain_singleton _, ⟨by simp, trivial⟩,
    fun a ha b hb => (hsame b).2 (h.closed a ((hsame a).1 ha) b hb),
    fun a ha => h.acyclic a ((hsame a).1 ha)⟩
  have hnone := h.grey a
  by_cases has : a = start
  · simp [has]
  · simpa [Function.update_of_ne has, has] using hnone

theorem firstBackEdge_spec {count steps : ℕ} (hin : ∀ a b, Leads edges a b → b < count)
    (hsteps : remaining edges (Finset.range count) [] < steps) {starts : List ℕ}
    (hstarts : ∀ a ∈ starts, a < count) (h : Walking edges colour []) :
    (∃ found, firstBackEdge edges steps colour starts = some found ∧
        OnCycle edges found.1 found.2) ∨
      (firstBackEdge edges steps colour starts = none ∧
        ∀ a, colour a = .black ∨ a ∈ starts → ¬ Relation.TransGen (Leads edges) a a) := by
  induction starts generalizing colour with
  | nil => exact .inr ⟨rfl, fun a ha => h.acyclic a (ha.resolve_right List.not_mem_nil)⟩
  | cons start starts ih =>
    have hrest := fun a ha => hstarts a (List.mem_cons_of_mem _ ha)
    rw [firstBackEdge]
    split
    · rename_i hmet
      have hblack : colour start = .black := by
        cases hc : colour start with
        | white => exact absurd hc hmet
        | grey => exact absurd ((h.grey start).1 hc) List.not_mem_nil
        | black => rfl
      refine (ih hrest h).imp_right fun ⟨hnone, hall⟩ => ⟨hnone, fun a ha => hall a ?_⟩
      rcases ha with ha | ha
      · exact .inl ha
      · exact (List.mem_cons.1 ha).imp_left fun heq => by rw [heq]; exact hblack
    · rename_i hmet
      have hwhite : colour start = .white := not_not.1 hmet
      obtain ⟨hmem, herase⟩ := unmet_grey (hstarts start (List.mem_cons_self ..)) hwhite
      have henter := remaining_enter edges [] hmem
      have hmono := remaining_mono edges []
        (Finset.filter_subset (fun a => colour a = .white) (Finset.range count))
      have henough : remaining edges (unmet (Function.update colour start .grey) count)
          [(start, 0)] < steps := by
        rw [herase]
        change remaining edges (unmet colour count) [] ≤ _ at hmono
        omega
      rcases backEdge_spec hin (h.start hwhite) henough with ⟨found, hfound, hcycle⟩ | ⟨hnone, hwalk, hblack⟩
      · left
        refine ⟨found, ?_, hcycle⟩
        split
        · rename_i heq
          rw [heq] at hfound
          exact hfound
        · rename_i heq
          rw [heq] at hfound
          cases hfound
      · split
        · rename_i heq
          rw [heq] at hnone
          cases hnone
        · rename_i colour' heq
          rw [heq] at hwalk hblack
          refine (ih hrest hwalk).imp_right fun ⟨hnone, hall⟩ => ⟨hnone, fun a ha => hall a ?_⟩
          rcases ha with ha | ha
          · left
            apply hblack
            left
            rw [Function.update_of_ne]
            · exact ha
            · rintro rfl
              rw [hwhite] at ha
              cases ha
          · exact (List.mem_cons.1 ha).imp_left fun heq => by
              rw [heq]
              exact hblack start (.inr (List.mem_cons_self ..))

/-! ### A graph's cycles -/

theorem graphCycle_spec {count : ℕ} (hin : ∀ a b, Leads edges a b → b < count) :
    (∃ found, graphCycle edges count = some found ∧ OnCycle edges found.1 found.2) ∨
      (graphCycle edges count = none ∧ ∀ a, ¬ Relation.TransGen (Leads edges) a a) := by
  have hstart : Walking edges (fun _ => .white) [] :=
    ⟨by simp, List.nodup_nil, List.isChain_nil, trivial, by simp, by simp⟩
  have henough : remaining edges (Finset.range count) [] <
      ((List.range count).map fun node => (edges node).length).sum + count + 1 := by
    rw [remaining_range]
    omega
  have hspec := firstBackEdge_spec hin henough (fun a ha => List.mem_range.1 ha) hstart
  refine hspec.imp_right fun ⟨hnone, hall⟩ => ⟨hnone, fun a hc => ?_⟩
  obtain ⟨b, -, hb⟩ := Relation.TransGen.tail'_iff.1 hc
  exact hall a (.inr (List.mem_range.2 (hin b a hb))) hc

/-- A cycle is found when there is one. -/
theorem graphCycle_isSome {count : ℕ} (hin : ∀ a b, Leads edges a b → b < count) :
    (graphCycle edges count).isSome ↔ ∃ a, Relation.TransGen (Leads edges) a a := by
  rcases graphCycle_spec hin with ⟨found, hfound, hcycle⟩ | ⟨hnone, hall⟩
  · simp only [hfound, Option.isSome_some, true_iff]
    exact ⟨_, hcycle.cycle⟩
  · simp only [hnone, Option.isSome_none, Bool.false_eq_true, false_iff, not_exists]
    exact hall

theorem graphCycle_onCycle {count : ℕ} (hin : ∀ a b, Leads edges a b → b < count)
    {found : ℕ × ℕ} (h : graphCycle edges count = some found) : OnCycle edges found.1 found.2 := by
  rcases graphCycle_spec hin with ⟨found', hfound, hcycle⟩ | ⟨hnone, -⟩
  · rw [h, Option.some.injEq] at hfound
    rwa [hfound]
  · rw [h] at hnone
    cases hnone

end Rules
end FilamentCore.SemanticIr
