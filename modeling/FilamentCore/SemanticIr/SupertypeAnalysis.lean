import FilamentCore.SemanticIr.CyclePass

/-!
# Supertypes (crates/semantic-ir/src/constructs.rs)

Which types `types_on_a_supertype_cycle` gives, and which `ancestors` gathers. A supertype
reference leads to the first type that declares the identity it names, and a walk never goes
through a reference to the identity it starts from.
-/

namespace FilamentCore.SemanticIr
namespace Constructs

open Library.Frames
open UnitGraph (Edge Closed targetsOf walkSteps)

variable (d : Document)

def supertypeNames (definition : Json) : List String :=
  (texts (definition.get "supertypes")).map Prod.fst

/-! ### Types on a cycle -/

/-- The type at a place names the type at another as a supertype. -/
def Specializes (a b : ℕ) : Prop :=
  ∃ definition, d.types[a]? = some definition ∧
    ∃ name ∈ supertypeNames definition, d.byPosition name = some b

theorem edge_supertypeEdges {a b : ℕ} : Edge (supertypeEdges d) a b ↔ Specializes d a b := by
  unfold Edge targetsOf supertypeEdges Specializes supertypeNames
  rw [List.getD_eq_getElem?_getD, List.getElem?_map]
  cases d.types[a]? with
  | none => simp
  | some definition => simp [List.mem_filterMap]

theorem closed_supertypeEdges : Closed (supertypeEdges d) := by
  intro a b h
  obtain ⟨definition, -, name, -, hb⟩ := (edge_supertypeEdges d).1 h
  rw [supertypeEdges, List.length_map]
  exact (List.findIdx?_eq_some_iff_getElem.1 hb).1

theorem Pass.empty_searching (edges : UnitGraph.Edges) :
    Searching edges ⟨fun _ => none, fun _ => 0, [], 0, []⟩ [] := by
  refine ⟨⟨by simp, by simp, by simp, List.Pairwise.nil⟩,
    ⟨by simp [path], List.Pairwise.nil, List.isChain_nil, by simp, by simp, by simp [path]⟩,
    ⟨by simp [path], by simp [path], by simp, by simp [path]⟩, ⟨?_, ?_⟩⟩
  · rintro x ⟨k, hk⟩
    cases hk
  · intro x
    constructor
    · intro hx
      cases hx
    · rintro ⟨⟨⟨k, hk⟩, -⟩, -⟩
      cases hk

/-- The pass from every root that has no number yet. -/
theorem Pass.roots_spec {edges : UnitGraph.Edges} (hc : Closed edges) {roots : List ℕ}
    (hroots : ∀ r ∈ roots, r < edges.length) {p : Pass} (h : Searching edges p []) :
    let last := roots.foldl (fun (p : Pass) root =>
      if (p.order root).isSome then p
      else p.enter root |>.walk edges (walkSteps edges) [(root, 0)]) p
    Searching edges last [] ∧ (∀ x, Seen p x → Seen last x) ∧ ∀ r ∈ roots, Seen last r := by
  induction roots generalizing p with
  | nil => exact ⟨h, fun _ hx => hx, by simp⟩
  | cons root roots ih =>
    have hrest := fun r hr => hroots r (List.mem_cons_of_mem _ hr)
    rw [List.foldl_cons]
    by_cases hseen : (p.order root).isSome
    · rw [if_pos hseen]
      obtain ⟨hlast, hkept, hall⟩ := ih hrest h
      refine ⟨hlast, hkept, fun r hr => ?_⟩
      rcases List.mem_cons.1 hr with rfl | hr
      · exact hkept r (Option.isSome_iff_exists.1 hseen)
      · exact hall r hr
    · rw [if_neg hseen]
      have hnew : p.order root = none := by simpa using hseen
      obtain ⟨hm, herase⟩ := unseen_enter (hroots root (List.mem_cons_self ..)) hnew
      have hstart : Searching edges (p.enter root) [(root, 0)] := by
        apply h.enter (not_seen.2 hnew)
        · rfl
        · exact fun x y hxy => .inl hxy
        · rintro f ⟨⟩
      have henough : remaining (targetsOf edges) (unseen edges (p.enter root)) [(root, 0)] <
          walkSteps edges := by
        have hsum := UnitGraph.sum_targets edges
        have hmono := remaining_mono (targetsOf edges) []
          (Finset.filter_subset (fun x => p.order x = none) (Finset.range edges.length))
        change remaining _ (unseen edges p) [] ≤ _ at hmono
        rw [herase, remaining_enter (targetsOf edges) [] hm]
        have hrange : remaining (targetsOf edges) (Finset.range edges.length) [] + 1 =
            walkSteps edges := hsum
        omega
      obtain ⟨hdone, hgrown⟩ := walk_spec hc hstart henough
      obtain ⟨hlast, hkept, hall⟩ := ih hrest hdone
      refine ⟨hlast, fun x hx => hkept x (hgrown x (enter_seen.2 (.inr hx))), fun r hr => ?_⟩
      rcases List.mem_cons.1 hr with rfl | hr
      · exact hkept r (hgrown r (enter_seen.2 (.inl rfl)))
      · exact hall r hr

theorem mem_typesOnASupertypeCycle {x : ℕ} :
    x ∈ typesOnASupertypeCycle d ↔ Relation.TransGen (Specializes d) x x := by
  have hlength : (supertypeEdges d).length = d.types.length := List.length_map ..
  have hroots : ∀ r ∈ List.range d.types.length, r < (supertypeEdges d).length := by
    intro r hr
    rw [hlength]
    exact List.mem_range.1 hr
  obtain ⟨hlast, -, hall⟩ := Pass.roots_spec (closed_supertypeEdges d) hroots
    (Pass.empty_searching (supertypeEdges d))
  have hrel : Edge (supertypeEdges d) = Specializes d := by
    funext a b
    exact propext (edge_supertypeEdges d)
  rw [← hrel]
  refine (hlast.decided.cyclic x).trans ⟨And.right, fun hc => ⟨?_, hc⟩⟩
  obtain ⟨y, hxy, -⟩ := Relation.TransGen.head'_iff.1 hc
  refine ⟨hall x (List.mem_range.2 (hlength ▸ hxy.lt)), fun hs => ?_⟩
  -- nothing is left on the stack
  obtain ⟨f, hf, -⟩ := hlast.framed.rooted x hs
  cases hf

/-! ### Ancestors -/

def Supertype (x y : Json) : Prop := ∃ name ∈ supertypeNames x, d.typeOf name = some y

/-- A type names another as a supertype, by another identity than `own`. -/
def SupertypeBeside (own : Option String) (x y : Json) : Prop :=
  ∃ name ∈ supertypeNames x, some name ≠ own ∧ d.typeOf name = some y

theorem mem_freshNames {seen names : List String} {name : String} :
    name ∈ freshNames seen names ↔ name ∈ names ∧ name ∉ seen := by
  induction names generalizing seen with
  | nil => simp [freshNames]
  | cons first names ih =>
    rw [freshNames]
    split
    · rename_i hseen
      rw [ih, List.mem_cons]
      rw [List.contains_iff_mem] at hseen
      constructor
      · rintro ⟨hm, hs⟩
        exact ⟨.inr hm, hs⟩
      · rintro ⟨rfl | hm, hs⟩
        · exact absurd hseen hs
        · exact ⟨hm, hs⟩
    · rename_i hseen
      rw [List.contains_iff_mem] at hseen
      rw [List.mem_cons, ih, List.mem_cons, List.mem_cons, not_or]
      by_cases hname : name = first
      · simp [hname, hseen]
      · simp [hname]

theorem freshNames_nodup {seen names : List String} : (freshNames seen names).Nodup := by
  induction names generalizing seen with
  | nil => exact List.nodup_nil
  | cons first names ih =>
    rw [freshNames]
    split
    · exact ih
    · refine List.nodup_cons.2 ⟨fun hm => ?_, ih⟩
      exact (mem_freshNames.1 hm).2 (List.mem_cons_self ..)

variable {d}

theorem typeOf_spec {name : String} {x : Json} (h : d.typeOf name = some x) :
    x ∈ d.types ∧ identityOf x = some name :=
  ⟨List.mem_of_find?_eq_some h, by simpa [identityOf] using List.find?_some h⟩

/-- What the walk keeps: the types of the names met, beside the walk's own. -/
structure Gathering (d : Document) (t : Json) (seen : List String) (out frontier : List Json) :
    Prop where
  own : ∀ i, identityOf t = some i → i ∈ seen
  found : ∀ p, p ∈ out ↔ ∃ n ∈ seen, some n ≠ identityOf t ∧ d.typeOf n = some p
  reached : ∀ p ∈ out, Relation.TransGen (SupertypeBeside d (identityOf t)) t p
  nodup : out.Nodup
  known : ∀ x ∈ frontier, x = t ∨ x ∈ out
  entered : ∀ x, x = t ∨ x ∈ out → x ∈ frontier ∨ ∀ n ∈ supertypeNames x, n ∈ seen

section Gather

variable {t current : Json} {seen : List String} {out frontier : List Json}

theorem Gathering.step (h : Gathering d t seen out (current :: frontier)) :
    let names := freshNames seen (supertypeNames current)
    let parents := names.filterMap d.typeOf
    Gathering d t (names ++ seen) (out ++ parents) (parents.reverse ++ frontier) := by
  intro names parents
  have hnew : ∀ n ∈ names, n ∈ supertypeNames current ∧ n ∉ seen := fun n hn => mem_freshNames.1 hn
  have hbeside : ∀ n ∈ names, some n ≠ identityOf t :=
    fun n hn heq => (hnew n hn).2 (h.own n heq.symm)
  have hparent : ∀ p, p ∈ parents ↔ ∃ n ∈ names, d.typeOf n = some p :=
    fun p => List.mem_filterMap
  refine ⟨fun i hi => List.mem_append_right _ (h.own i hi), fun p => ?_, fun p hp => ?_, ?_,
    fun x hx => ?_, fun x hx => ?_⟩
  · rw [List.mem_append, h.found, hparent]
    constructor
    · rintro (⟨n, hn, hne, hp⟩ | ⟨n, hn, hp⟩)
      · exact ⟨n, List.mem_append_right _ hn, hne, hp⟩
      · exact ⟨n, List.mem_append_left _ hn, hbeside n hn, hp⟩
    · rintro ⟨n, hn, hne, hp⟩
      rcases List.mem_append.1 hn with hn | hn
      · exact .inr ⟨n, hn, hp⟩
      · exact .inl ⟨n, hn, hne, hp⟩
  · rcases List.mem_append.1 hp with hp | hp
    · exact h.reached p hp
    · obtain ⟨n, hn, hp⟩ := (hparent p).1 hp
      have hedge : SupertypeBeside d (identityOf t) current p :=
        ⟨n, (hnew n hn).1, hbeside n hn, hp⟩
      rcases h.known current (List.mem_cons_self ..) with heq | hout
      · rw [heq] at hedge
        exact .single hedge
      · exact (h.reached current hout).tail hedge
  · refine List.Nodup.append h.nodup ?_ ?_
    · refine freshNames_nodup.filterMap fun n n' p hn hn' => ?_
      have hid := (typeOf_spec hn).2
      rw [(typeOf_spec hn').2, Option.some.injEq] at hid
      exact hid.symm
    · intro p hp hp'
      obtain ⟨n, hn, -, hp⟩ := (h.found p).1 hp
      obtain ⟨n', hn', hp'⟩ := (hparent p).1 hp'
      have hid := (typeOf_spec hp).2
      rw [(typeOf_spec hp').2, Option.some.injEq] at hid
      exact (hnew n' hn').2 (hid ▸ hn)
  · rcases List.mem_append.1 hx with hx | hx
    · exact .inr (List.mem_append_right _ (List.mem_reverse.1 hx))
    · exact (h.known x (List.mem_cons_of_mem _ hx)).imp_right (List.mem_append_left _)
  · by_cases hparents : x ∈ parents
    · exact .inl (List.mem_append_left _ (List.mem_reverse.2 hparents))
    · have hold : x = t ∨ x ∈ out :=
        hx.imp_right fun hm => (List.mem_append.1 hm).resolve_right hparents
      rcases h.entered x hold with hm | hm
      · rcases List.mem_cons.1 hm with rfl | hm
        · right
          intro n hn
          by_cases hs : n ∈ seen
          · exact List.mem_append_right _ hs
          · exact List.mem_append_left _ (mem_freshNames.2 ⟨hn, hs⟩)
        · exact .inl (List.mem_append_right _ hm)
      · exact .inr fun n hn => List.mem_append_right _ (hm n hn)

theorem Gathering.length_le (h : Gathering d t seen out frontier) :
    out.length ≤ d.types.length := by
  refine (h.nodup.subperm fun p hp => ?_).length_le
  obtain ⟨n, -, -, hp⟩ := (h.found p).1 hp
  exact (typeOf_spec hp).1

theorem Gathering.empty_of_spent (h : Gathering d t seen out frontier)
    (hspent : frontier.length + d.types.length ≤ out.length) : frontier = [] := by
  have hle := h.length_le
  exact List.eq_nil_of_length_eq_zero (by omega)

theorem Gathering.run {steps : ℕ} (h : Gathering d t seen out frontier)
    (hsteps : frontier.length + d.types.length ≤ steps + out.length) :
    (∃ seen', Gathering d t seen' (ancestorsFrom d steps seen out frontier) []) ∧
      ∀ more, ancestorsFrom d (steps + more) seen out frontier =
        ancestorsFrom d steps seen out frontier := by
  induction steps generalizing seen out frontier with
  | zero =>
    obtain rfl := h.empty_of_spent (by omega)
    refine ⟨⟨seen, h⟩, fun more => ?_⟩
    cases more <;> rfl
  | succ steps ih =>
    match frontier, h, hsteps with
    | [], h, _ =>
      refine ⟨⟨seen, h⟩, fun more => ?_⟩
      rw [Nat.succ_add]
      rfl
    | current :: frontier, h, hsteps =>
      have hstep := ih h.step (by
        simp only [List.length_append, List.length_reverse, List.length_cons] at hsteps ⊢
        omega)
      refine ⟨hstep.1, fun more => ?_⟩
      rw [Nat.succ_add]
      exact hstep.2 more

end Gather

theorem Gathering.start (t : Json) : Gathering d t (identityOf t).toList [] [t] := by
  refine ⟨fun i hi => by rw [hi]; exact List.mem_singleton_self i, fun p => ?_, by simp,
    List.nodup_nil, fun x hx => .inl (List.mem_singleton.1 hx), fun x hx => .inl ?_⟩
  · simp only [List.not_mem_nil, Option.mem_toList, false_iff, not_exists, not_and]
    intro n hn hne
    exact absurd hn.symm hne
  · exact List.mem_singleton.2 (hx.resolve_right List.not_mem_nil)

theorem ancestors_gathered (d : Document) (t : Json) :
    (∃ seen, Gathering d t seen (ancestors d t) []) ∧
      ∀ more, ancestorsFrom d (d.types.length + 2 + more) (identityOf t).toList [] [t] =
        ancestors d t :=
  (Gathering.start t).run (by simp only [List.length_cons, List.length_nil]; omega)

theorem mem_ancestors {t p : Json} :
    p ∈ ancestors d t ↔ Relation.TransGen (SupertypeBeside d (identityOf t)) t p := by
  obtain ⟨⟨seen, h⟩, -⟩ := ancestors_gathered d t
  refine ⟨h.reached p, fun hr => ?_⟩
  have hnext : ∀ x, x = t ∨ x ∈ ancestors d t → ∀ y, SupertypeBeside d (identityOf t) x y →
      y ∈ ancestors d t := by
    rintro x hx y ⟨n, hn, hne, hy⟩
    have hall := (h.entered x hx).resolve_left List.not_mem_nil
    exact (h.found y).2 ⟨n, hall n hn, hne, hy⟩
  induction hr with
  | single hedge => exact hnext t (.inl rfl) _ hedge
  | tail _ hedge ih => exact hnext _ (.inr ih) _ hedge

theorem ancestors_nodup {t : Json} : (ancestors d t).Nodup := by
  obtain ⟨⟨seen, h⟩, -⟩ := ancestors_gathered d t
  exact h.nodup

def Declared (d : Document) (t : Json) : Prop := ∀ i, identityOf t = some i → d.typeOf i = some t

theorem mem_ancestors_of_declared {t p : Json} (ht : Declared d t) :
    p ∈ ancestors d t ↔ Relation.TransGen (Supertype d) t p ∧ p ≠ t := by
  have hstep : ∀ x y, SupertypeBeside d (identityOf t) x y ↔ Supertype d x y ∧ y ≠ t := by
    intro x y
    constructor
    · rintro ⟨n, hn, hne, hy⟩
      refine ⟨⟨n, hn, hy⟩, ?_⟩
      rintro rfl
      exact hne (typeOf_spec hy).2.symm
    · rintro ⟨⟨n, hn, hy⟩, hne⟩
      refine ⟨n, hn, fun heq => hne ?_, hy⟩
      have hdeclared := ht n heq.symm
      rw [hy, Option.some.injEq] at hdeclared
      exact hdeclared
  have hrel : SupertypeBeside d (identityOf t) = fun x y => Supertype d x y ∧ y ≠ t := by
    funext x y
    exact propext (hstep x y)
  rw [mem_ancestors, hrel]
  exact transGen_leaving

/-- The types on a cycle are those their supertypes lead back to. The ancestors of a type are the
types that references to other identities than its own lead to, each once: of a type its identity
names, every other type it reaches. The walk ends. -/
theorem supertypes_analysed (d : Document) :
    (∀ x, x ∈ typesOnASupertypeCycle d ↔ Relation.TransGen (Specializes d) x x) ∧
    ∀ t, (ancestors d t).Nodup ∧
      (∀ p, p ∈ ancestors d t ↔ Relation.TransGen (SupertypeBeside d (identityOf t)) t p) ∧
      (Declared d t → ∀ p, p ∈ ancestors d t ↔ Relation.TransGen (Supertype d) t p ∧ p ≠ t) ∧
      ∀ more, ancestorsFrom d (d.types.length + 2 + more) (identityOf t).toList [] [t] =
        ancestors d t :=
  ⟨fun _ => mem_typesOnASupertypeCycle d, fun t => ⟨ancestors_nodup, fun _ => mem_ancestors,
    fun ht _ => mem_ancestors_of_declared ht, (ancestors_gathered d t).2⟩⟩

def specializing (identity : String) (supertypes : List String) : Json :=
  .object [("identity", .str identity), ("supertypes", .array (supertypes.map Json.str))]

def holding (types : List Json) : Document :=
  { bundle := .object [], ir := .object [], types := types, aliasDepth := none }

/-- Two types that name each other, one of which names a third. -/
def entangled : Document :=
  holding [specializing "x/a" ["x/b"], specializing "x/b" ["x/a", "x/c"], specializing "x/c" []]

theorem supertypes_analysed_entangled :
    specializing "x/c" [] ∈ ancestors entangled (specializing "x/a" ["x/b"]) := by
  have ht : Declared entangled (specializing "x/a" ["x/b"]) := by
    rintro i hi
    obtain rfl : "x/a" = i := Option.some.inj hi
    decide +kernel
  refine ((supertypes_analysed entangled).2 _).2.2.1 ht _ |>.2 ⟨?_, by decide +kernel⟩
  have hab : Supertype entangled (specializing "x/a" ["x/b"])
      (specializing "x/b" ["x/a", "x/c"]) := ⟨"x/b", by decide +kernel, by decide +kernel⟩
  exact .tail (.single hab) ⟨"x/c", by decide +kernel, by decide +kernel⟩

/-- The identity of the second type is declared twice: what the first declaration names is
reached from the second, and is not among its ancestors. -/
def declaredTwice : Document :=
  holding [specializing "x/a" ["x/c"], specializing "x/a" ["x/b"], specializing "x/b" ["x/a"],
    specializing "x/c" []]

theorem ancestors_declaredTwice :
    Relation.TransGen (Supertype declaredTwice) (specializing "x/a" ["x/b"])
      (specializing "x/c" []) ∧ specializing "x/c" [] ≠ specializing "x/a" ["x/b"] ∧
    specializing "x/c" [] ∉ ancestors declaredTwice (specializing "x/a" ["x/b"]) := by
  have hb : Supertype declaredTwice (specializing "x/a" ["x/b"]) (specializing "x/b" ["x/a"]) :=
    ⟨"x/b", by decide +kernel, by decide +kernel⟩
  have ha : Supertype declaredTwice (specializing "x/b" ["x/a"]) (specializing "x/a" ["x/c"]) :=
    ⟨"x/a", by decide +kernel, by decide +kernel⟩
  refine ⟨.tail (.tail (.single hb) ha) ⟨"x/c", ?_, ?_⟩, ?_, ?_⟩ <;> decide +kernel

end Constructs
end FilamentCore.SemanticIr
