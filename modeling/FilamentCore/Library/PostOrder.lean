import Mathlib

/-!
# Depth-first walks that list what they leave

A walk over nodes that name others: a name is followed once, the names it starts with are never
followed, and each node is listed after what it was entered for has been. What is listed is what
the start reaches, each node once, and a node comes after those it names unless they lead back to
it.
-/

namespace FilamentCore.Library.PostOrder

/-- The names met, and the nodes left in order. -/
structure Walk (Name Node : Type) where
  seen : List Name
  ordered : List Node

section Definitions

variable {Name Node : Type} (names : Node → List Name) (find : Name → Option Node)

/-- A node names another, by a name that the walk follows. -/
def Beside (barred : List Name) (x y : Node) : Prop :=
  ∃ name ∈ names x, name ∉ barred ∧ find name = some y

/-- Distinct names find distinct nodes. -/
def Injective : Prop := ∀ n n' p, find n = some p → find n' = some p → n = n'

variable [DecidableEq Name]

/-- One name of a node: a name not met before is followed by `enter`, and what it finds is listed
after that. -/
def follow (enter : Walk Name Node → Node → Walk Name Node) (w : Walk Name Node) (name : Name) :
    Walk Name Node :=
  if name ∈ w.seen then w
  else
    match find name with
    | none => ⟨name :: w.seen, w.ordered⟩
    | some next =>
      let left := enter ⟨name :: w.seen, w.ordered⟩ next
      ⟨left.seen, left.ordered ++ [next]⟩

def visit : ℕ → Walk Name Node → Node → Walk Name Node
  | 0, w, _ => w
  | depth + 1, w, node => (names node).foldl (follow find (visit depth)) w

def unmet (named : Finset Name) (w : Walk Name Node) : Finset Name :=
  named.filter fun name => name ∉ w.seen

end Definitions

section Walks

variable {Name Node : Type} {names : Node → List Name} {find : Name → Option Node}
  {barred : List Name} {root : Node} {path : List Node} {w w' : Walk Name Node}

/-- What a walk keeps, with the nodes it is in. -/
structure Known (names : Node → List Name) (find : Name → Option Node) (barred : List Name)
    (root : Node) (w : Walk Name Node) (path : List Node) : Prop where
  kept : ∀ name ∈ barred, name ∈ w.seen
  found : ∀ name ∈ w.seen, name ∉ barred → ∀ p, find name = some p → p ∈ w.ordered ∨ p ∈ path
  met : ∀ p, p ∈ w.ordered ∨ p ∈ path → ∃ name ∈ w.seen, find name = some p
  nodup : (w.ordered ++ path).Nodup
  closed : ∀ u ∈ w.ordered, ∀ name ∈ names u, name ∈ w.seen
  reached : ∀ u ∈ w.ordered, Relation.TransGen (Beside names find barred) root u
  before : ∀ a u b, w.ordered = a ++ u :: b → ∀ p, Beside names find barred u p →
    p ∈ a ∨ Relation.ReflTransGen (Beside names find barred) p u

/-- What a step of the walk adds. -/
structure Grown (w w' : Walk Name Node) : Prop where
  seen : ∀ name ∈ w.seen, name ∈ w'.seen
  ordered : ∃ more, w'.ordered = w.ordered ++ more

theorem Grown.refl (w : Walk Name Node) : Grown w w :=
  ⟨fun _ h => h, [], (List.append_nil _).symm⟩

theorem Grown.trans {w'' : Walk Name Node} (h : Grown w w') (h' : Grown w' w'') : Grown w w'' := by
  obtain ⟨more, hmore⟩ := h.ordered
  obtain ⟨more', hmore'⟩ := h'.ordered
  exact ⟨fun name hn => h'.seen name (h.seen name hn), more ++ more', by
    rw [hmore', hmore, List.append_assoc]⟩

theorem Known.skip (h : Known names find barred root w path) {name : Name}
    (hnone : find name = none) :
    Known names find barred root ⟨name :: w.seen, w.ordered⟩ path := by
  refine ⟨fun n hn => List.mem_cons_of_mem _ (h.kept n hn), fun n hn hb p hp => ?_,
    fun p hp => ?_, h.nodup, fun u hu n hn => List.mem_cons_of_mem _ (h.closed u hu n hn),
    h.reached, h.before⟩
  · rcases List.mem_cons.1 hn with rfl | hn
    · rw [hnone] at hp
      cases hp
    · exact h.found n hn hb p hp
  · obtain ⟨n, hn, hf⟩ := h.met p hp
    exact ⟨n, List.mem_cons_of_mem _ hn, hf⟩

theorem Known.enter (hinj : Injective find) (h : Known names find barred root w path)
    {name : Name} {next : Node} (hnew : name ∉ w.seen) (hfind : find name = some next) :
    Known names find barred root ⟨name :: w.seen, w.ordered⟩ (next :: path) := by
  have hfresh : ∀ p, p ∈ w.ordered ∨ p ∈ path → p ≠ next := by
    rintro p hp rfl
    obtain ⟨n, hn, hf⟩ := h.met p hp
    exact hnew (hinj n name p hf hfind ▸ hn)
  refine ⟨fun n hn => List.mem_cons_of_mem _ (h.kept n hn), fun n hn hb p hp => ?_,
    fun p hp => ?_, ?_, fun u hu n hn => List.mem_cons_of_mem _ (h.closed u hu n hn),
    h.reached, h.before⟩
  · rcases List.mem_cons.1 hn with rfl | hn
    · rw [hfind, Option.some.injEq] at hp
      exact .inr (hp ▸ List.mem_cons_self ..)
    · exact (h.found n hn hb p hp).imp_right (List.mem_cons_of_mem _)
  · rcases hp with hp | hp
    · obtain ⟨n, hn, hf⟩ := h.met p (.inl hp)
      exact ⟨n, List.mem_cons_of_mem _ hn, hf⟩
    · rcases List.mem_cons.1 hp with rfl | hp
      · exact ⟨name, List.mem_cons_self .., hfind⟩
      · obtain ⟨n, hn, hf⟩ := h.met p (.inr hp)
        exact ⟨n, List.mem_cons_of_mem _ hn, hf⟩
  · refine List.nodup_middle.2 (List.nodup_cons.2 ⟨fun hm => ?_, h.nodup⟩)
    exact hfresh next (List.mem_append.1 hm) rfl

theorem Known.leave {next : Node} (h : Known names find barred root w (next :: path))
    (hnames : ∀ name ∈ names next, name ∈ w.seen)
    (hpath : ∀ p ∈ path, Relation.ReflTransGen (Beside names find barred) p next)
    (hroot : Relation.TransGen (Beside names find barred) root next) :
    Known names find barred root ⟨w.seen, w.ordered ++ [next]⟩ path := by
  refine ⟨h.kept, fun n hn hb p hp => ?_, fun p hp => ?_, ?_, fun u hu n hn => ?_,
    fun u hu => ?_, fun a u b heq p hp => ?_⟩
  · rcases h.found n hn hb p hp with hm | hm
    · exact .inl (List.mem_append_left _ hm)
    · rcases List.mem_cons.1 hm with rfl | hm
      · exact .inl (List.mem_append_right _ (List.mem_singleton_self _))
      · exact .inr hm
  · refine h.met p ?_
    rcases hp with hp | hp
    · rcases List.mem_append.1 hp with hp | hp
      · exact .inl hp
      · exact .inr (List.mem_singleton.1 hp ▸ List.mem_cons_self ..)
    · exact .inr (List.mem_cons_of_mem _ hp)
  · have hn := h.nodup
    rwa [← List.singleton_append, ← List.append_assoc] at hn
  · rcases List.mem_append.1 hu with hu | hu
    · exact h.closed u hu n hn
    · exact hnames n (List.mem_singleton.1 hu ▸ hn)
  · rcases List.mem_append.1 hu with hu | hu
    · exact h.reached u hu
    · exact List.mem_singleton.1 hu ▸ hroot
  · -- the last node listed is `next`, and what it names was met
    rcases List.eq_nil_or_concat b with rfl | ⟨b, last, rfl⟩
    · obtain ⟨rfl, hlast⟩ := List.append_inj' heq rfl
      obtain rfl : next = u := List.singleton_inj.1 hlast
      obtain ⟨n, hn, hb, hf⟩ := hp
      rcases h.found n (hnames n hn) hb p hf with hm | hm
      · exact .inl hm
      · rcases List.mem_cons.1 hm with rfl | hm
        · exact .inr .refl
        · exact .inr (hpath p hm)
    · rw [List.concat_eq_append, ← List.cons_append, ← List.append_assoc] at heq
      exact h.before a u b (List.append_inj' heq rfl).1 p hp

section Depth

variable [DecidableEq Name]

theorem unmet_cons {named : Finset Name} {name : Name} (hm : name ∈ named) (hnew : name ∉ w.seen)
    (ordered : List Node) :
    (unmet named ⟨name :: w.seen, ordered⟩).card + 1 = (unmet named w).card := by
  have heq : unmet named ⟨name :: w.seen, ordered⟩ = (unmet named w).erase name := by
    ext n
    simp only [unmet, Finset.mem_filter, Finset.mem_erase, List.mem_cons, not_or]
    tauto
  rw [heq, Finset.card_erase_add_one]
  exact Finset.mem_filter.2 ⟨hm, hnew⟩

theorem unmet_mono {named : Finset Name} (h : ∀ name ∈ w.seen, name ∈ w'.seen) :
    (unmet named w').card ≤ (unmet named w).card := by
  refine Finset.card_le_card fun n hn => ?_
  obtain ⟨hm, hnew⟩ := Finset.mem_filter.1 hn
  exact Finset.mem_filter.2 ⟨hm, fun hs => hnew (h n hs)⟩

/-- What entering a node does, when there is depth enough for the names left. -/
structure Settles (names : Node → List Name) (find : Name → Option Node) (barred : List Name)
    (root : Node) (w : Walk Name Node) (path : List Node) (entered : List Name)
    (run : ℕ → Walk Name Node) : Prop where
  known : Known names find barred root (run 0) path
  grown : Grown w (run 0)
  entered : ∀ name ∈ entered, name ∈ (run 0).seen
  enough : ∀ more, run more = run 0

theorem settles_names {named : Finset Name} (hinj : Injective find)
    (hnamed : ∀ name p, find name = some p → name ∈ named) {depth : ℕ}
    (ih : ∀ {w : Walk Name Node} {path : List Node} {node : Node},
      Known names find barred root w path →
      (∀ p ∈ path, Relation.ReflTransGen (Beside names find barred) p node) →
      Relation.ReflTransGen (Beside names find barred) root node →
      (unmet named w).card < depth → Settles names find barred root w path (names node)
        fun more => visit names find (depth + more) w node)
    {node : Node} {l : List Name} (hl : ∀ name ∈ l, name ∈ names node)
    (hpath : ∀ p ∈ path, Relation.ReflTransGen (Beside names find barred) p node)
    (hroot : Relation.ReflTransGen (Beside names find barred) root node)
    (h : Known names find barred root w path) (hdepth : (unmet named w).card < depth + 1) :
    Settles names find barred root w path l fun more =>
      l.foldl (follow find (visit names find (depth + more))) w := by
  induction l generalizing w with
  | nil => exact ⟨h, .refl w, by simp, fun _ => rfl⟩
  | cons name l ihl =>
    obtain ⟨hname, hl⟩ := List.forall_mem_cons.1 hl
    -- one name, and then the others
    have hone : Settles names find barred root w path [name] fun more =>
        follow find (visit names find (depth + more)) w name := by
      by_cases hs : name ∈ w.seen
      · simp only [follow, if_pos hs]
        exact ⟨h, .refl w, by simpa using hs, fun _ => rfl⟩
      · simp only [follow, if_neg hs]
        cases hf : find name with
        | none =>
          exact ⟨h.skip hf, ⟨fun n hn => List.mem_cons_of_mem _ hn, [], (List.append_nil _).symm⟩,
            by simp, fun _ => rfl⟩
        | some next =>
          have hb : name ∉ barred := fun hb => hs (h.kept name hb)
          have hedge : Beside names find barred node next := ⟨name, hname, hb, hf⟩
          have hunmet := unmet_cons (hnamed name next hf) hs w.ordered
          have hin := ih (h.enter hinj hs hf) (by
            intro p hp
            rcases List.mem_cons.1 hp with rfl | hp
            · exact .refl
            · exact (hpath p hp).tail hedge) (hroot.tail hedge) (by omega)
          refine ⟨hin.known.leave hin.entered (fun p hp => (hpath p hp).tail hedge)
            (.tail' hroot hedge), ⟨fun n hn => ?_, ?_⟩, ?_, fun more => ?_⟩
          · exact hin.grown.seen n (List.mem_cons_of_mem _ hn)
          · obtain ⟨added, hadded⟩ := hin.grown.ordered
            refine ⟨added ++ [next], ?_⟩
            rw [← List.append_assoc]
            exact congrArg (· ++ [next]) hadded
          · intro n hn
            obtain rfl := List.mem_singleton.1 hn
            exact hin.grown.seen n (List.mem_cons_self ..)
          · simp only [hin.enough more]
    have hmono : (unmet named _).card ≤ (unmet named w).card := unmet_mono hone.grown.seen
    have hrest := ihl hl hone.known (by omega)
    refine ⟨hrest.known, hone.grown.trans hrest.grown, ?_, fun more => ?_⟩
    · intro n hn
      rcases List.mem_cons.1 hn with rfl | hn
      · exact hrest.grown.seen n (hone.entered n (List.mem_singleton_self n))
      · exact hrest.entered n hn
    · simp only [List.foldl_cons]
      rw [hone.enough more, hrest.enough more]

theorem settles {named : Finset Name} (hinj : Injective find)
    (hnamed : ∀ name p, find name = some p → name ∈ named) {depth : ℕ} {node : Node}
    (h : Known names find barred root w path)
    (hpath : ∀ p ∈ path, Relation.ReflTransGen (Beside names find barred) p node)
    (hroot : Relation.ReflTransGen (Beside names find barred) root node)
    (hdepth : (unmet named w).card < depth) :
    Settles names find barred root w path (names node) fun more =>
      visit names find (depth + more) w node := by
  induction depth generalizing w path node with
  | zero => omega
  | succ depth ih =>
    have hall := settles_names hinj hnamed (fun h => ih h) (fun _ hm => hm) hpath hroot h hdepth
    refine ⟨hall.known, hall.grown, hall.entered, fun more => ?_⟩
    have hmore : depth + 1 + more = depth + more + 1 := by omega
    rw [hmore]
    exact hall.enough more

/-! ### What a walk lists -/

def postOrder (names : Node → List Name) (find : Name → Option Node) (barred : List Name)
    (depth : ℕ) (root : Node) : List Node :=
  (visit names find depth ⟨barred, []⟩ root).ordered

variable {named : Finset Name} {depth : ℕ}

theorem settles_root (hinj : Injective find)
    (hnamed : ∀ name p, find name = some p → name ∈ named) (hdepth : named.card < depth) :
    Settles names find barred root ⟨barred, []⟩ [] (names root) fun more =>
      visit names find (depth + more) ⟨barred, []⟩ root := by
  refine settles hinj hnamed ⟨fun _ h => h, fun n hn hb => absurd hn hb, by simp, by simp, by simp,
    by simp, fun a u b heq => ?_⟩ (by simp) .refl ?_
  · cases a <;> cases heq
  · exact lt_of_le_of_lt (Finset.card_le_card (Finset.filter_subset _ _)) hdepth

theorem mem_postOrder (hinj : Injective find)
    (hnamed : ∀ name p, find name = some p → name ∈ named) (hdepth : named.card < depth)
    {p : Node} : p ∈ postOrder names find barred depth root ↔
      Relation.TransGen (Beside names find barred) root p := by
  have h : Settles names find barred root _ _ _ _ := settles_root hinj hnamed hdepth
  have hlisted : ∀ x, x = root ∨ x ∈ postOrder names find barred depth root → ∀ y,
      Beside names find barred x y → y ∈ postOrder names find barred depth root := by
    rintro x hx y ⟨n, hn, hb, hf⟩
    have hseen : n ∈ (visit names find depth ⟨barred, []⟩ root).seen := by
      rcases hx with rfl | hx
      · exact h.entered n hn
      · exact h.known.closed x hx n hn
    exact (h.known.found n hseen hb y hf).resolve_right List.not_mem_nil
  refine ⟨h.known.reached p, fun hr => ?_⟩
  induction hr with
  | single hedge => exact hlisted root (.inl rfl) _ hedge
  | tail _ hedge ih => exact hlisted _ (.inr ih) _ hedge

theorem postOrder_nodup (hinj : Injective find)
    (hnamed : ∀ name p, find name = some p → name ∈ named) (hdepth : named.card < depth) :
    (postOrder names find barred depth root).Nodup := by
  have h : Settles names find barred root _ _ _ _ := settles_root hinj hnamed hdepth
  have hnodup := h.known.nodup
  rwa [List.append_nil] at hnodup

theorem postOrder_enough (hinj : Injective find)
    (hnamed : ∀ name p, find name = some p → name ∈ named) (hdepth : named.card < depth)
    (more : ℕ) : postOrder names find barred (depth + more) root =
      postOrder names find barred depth root := by
  have h : Settles names find barred root _ _ _ _ := settles_root hinj hnamed hdepth
  exact congrArg Walk.ordered (h.enough more)

/-- A node comes after those it names, unless they lead back to it. -/
theorem postOrder_before [DecidableEq Node] (hinj : Injective find)
    (hnamed : ∀ name p, find name = some p → name ∈ named) (hdepth : named.card < depth)
    {u p : Node} (hu : u ∈ postOrder names find barred depth root)
    (hedge : Beside names find barred u p)
    (hback : ¬ Relation.ReflTransGen (Beside names find barred) p u) :
    (postOrder names find barred depth root).idxOf p <
      (postOrder names find barred depth root).idxOf u := by
  have h : Settles names find barred root _ _ _ _ := settles_root hinj hnamed hdepth
  have hnodup : (postOrder names find barred depth root).Nodup :=
    postOrder_nodup hinj hnamed hdepth
  obtain ⟨a, b, heq⟩ := List.append_of_mem hu
  have hp := (h.known.before a u b heq p hedge).resolve_right hback
  rw [heq] at hnodup ⊢
  have hua : u ∉ a := fun hm => (List.nodup_middle.1 hnodup).notMem
    (List.mem_append_left _ hm)
  rw [List.idxOf_append_of_mem hp, List.idxOf_append_of_notMem hua]
  have hlt := List.idxOf_lt_length_of_mem hp
  omega

end Depth
end Walks

end FilamentCore.Library.PostOrder
