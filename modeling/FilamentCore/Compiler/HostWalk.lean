import FilamentCore.Compiler.Host
import FilamentCore.Library.DepthFirst

/-!
# When the walk of the host is faithful (src/compiler/host.mjs)

The walk enters each real directory once, along the least path to it in the declared order. It
depends on the order where two paths lead to a directory with files, and it refuses a path of a
root whose next segment starts with two dots.
-/

namespace FilamentCore.Compiler.HostReads
open FilamentCore.Packages (codeUnits codeUnits_injective)
open FilamentCore.Library FilamentCore.Library.DepthFirst

/-! ### Containment -/

def Inside (roots : List Path) (path : Path) : Prop := ∃ root ∈ roots, root <+: path

/-- The path is beneath a root, and beneath none but through a segment that starts with two dots. -/
def HiddenByDots (roots : List Path) (path : Path) : Prop :=
  Inside roots path ∧ ∀ root ∈ roots, root <+: path →
    ∃ segment rest, path = root ++ segment :: rest ∧ dots <+: segment.val

theorem relativeSegments_append (base rest : Path) :
    relativeSegments base (base ++ rest) = texts rest := by
  induction base with
  | nil => rfl
  | cons s base ih => rw [List.cons_append, relativeSegments, if_pos rfl, ih]

theorem relativeSegments_up {source target : Path} (h : ¬ source <+: target) :
    ∃ rest, relativeSegments source target = dots :: rest := by
  induction source generalizing target with
  | nil => exact absurd (List.nil_prefix) h
  | cons s source ih =>
    cases target with
    | nil => exact ⟨List.replicate source.length dots, rfl⟩
    | cons t target =>
      by_cases heq : s = t
      · subst heq
        obtain ⟨rest, hrest⟩ := ih fun hstarts => h ((List.prefix_cons_inj s).2 hstarts)
        exact ⟨rest, by rw [relativeSegments, if_pos rfl, hrest]⟩
      · exact ⟨List.replicate source.length dots ++ texts (t :: target), by
          rw [relativeSegments, if_neg heq, List.replicate_succ, List.cons_append]⟩

theorem prefix_joined (segment : Text) (rest : List Text) :
    dots <+: joined (segment :: rest) ↔ dots <+: segment := by
  have hjoined : joined (segment :: rest) = segment ∨
      ∃ more, joined (segment :: rest) = segment ++ '/' :: more := by
    cases rest with
    | nil => exact .inl (by simp [joined, List.intercalate])
    | cons next rest =>
      exact .inr ⟨joined (next :: rest), by simp [joined, List.intercalate, List.intersperse]⟩
  obtain heq | ⟨more, heq⟩ := hjoined
  · rw [heq]
  · rw [heq]
    constructor
    · intro h
      cases segment with
      | nil => simp [dots] at h
      | cons c segment =>
        cases segment with
        | nil => simp [dots] at h
        | cons d segment => simpa [dots] using h
    · exact fun h => h.trans (List.prefix_append _ _)

theorem joined_ne_nil {segment : Text} (h : segment ≠ []) (rest : List Text) :
    joined (segment :: rest) ≠ [] := by
  cases rest with
  | nil => simpa [joined, List.intercalate] using h
  | cons next rest => simp [joined, List.intercalate, List.intersperse]

theorem segment_ne_nil (segment : Segment) : segment.val ≠ [] := by
  intro h
  exact segment.property.1 (h ▸ List.mem_cons_self ..)

theorem within_iff (parent child : Path) : within parent child = true ↔ child = parent ∨
    ∃ segment rest, child = parent ++ segment :: rest ∧ ¬ dots <+: segment.val := by
  have habsolute : ∀ segments, dots.isPrefixOf (absolute segments) = false := fun segments => rfl
  rw [within]
  split
  · rename_i heq
    simp [heq]
  · rename_i hne
    simp only [habsolute, Bool.not_false, Bool.and_true, Bool.and_eq_true, decide_eq_true_eq,
      Bool.not_eq_true', ← Bool.not_eq_true, List.isPrefixOf_iff_prefix, hne, false_or]
    rw [relative]
    by_cases hstarts : parent <+: child
    · obtain ⟨rest, rfl⟩ := hstarts
      rw [relativeSegments_append]
      cases rest with
      | nil => exact absurd (List.append_nil _) hne
      | cons segment rest =>
        rw [texts, List.map_cons, prefix_joined]
        constructor
        · rintro ⟨-, hdots⟩
          exact ⟨segment, rest, rfl, hdots⟩
        · rintro ⟨segment', rest', heq, hdots⟩
          obtain ⟨rfl, -⟩ := List.cons.inj (List.append_cancel_left heq)
          exact ⟨joined_ne_nil (segment_ne_nil segment) _, hdots⟩
    · obtain ⟨rest, hrest⟩ := relativeSegments_up hstarts
      rw [hrest, prefix_joined]
      constructor
      · rintro ⟨-, hdots⟩
        exact absurd (List.prefix_refl dots) hdots
      · rintro ⟨segment, rest', rfl, -⟩
        exact absurd (List.prefix_append _ _) hstarts

/-- What the roots admit: what is inside, unless it is hidden by two dots. -/
theorem admits_iff (roots : List Path) (path : Path) :
    roots.any (within · path) = true ↔ Inside roots path ∧ ¬ HiddenByDots roots path := by
  rw [List.any_eq_true]
  constructor
  · rintro ⟨root, hroot, hwithin⟩
    have hcases := (within_iff root path).1 hwithin
    have hstarts : root <+: path := by
      rcases hcases with rfl | ⟨segment, rest, rfl, -⟩
      · exact List.prefix_refl _
      · exact List.prefix_append _ _
    refine ⟨⟨root, hroot, hstarts⟩, fun hhidden => ?_⟩
    obtain ⟨segment, rest, heq, hdots⟩ := hhidden.2 root hroot hstarts
    rcases hcases with rfl | ⟨segment', rest', heq', hdots'⟩
    · have hlength := congrArg List.length heq
      simp at hlength
    · rw [heq'] at heq
      obtain ⟨rfl, -⟩ := List.cons.inj (List.append_cancel_left heq)
      exact hdots' hdots
  · rintro ⟨hinside, hnot⟩
    by_contra hnone
    refine hnot ⟨hinside, fun root hroot hstarts => ?_⟩
    have hout : ¬ within root path = true := fun h => hnone ⟨root, hroot, h⟩
    rw [within_iff, not_or] at hout
    obtain ⟨rest, rfl⟩ := hstarts
    cases rest with
    | nil => exact absurd (List.append_nil _) hout.1
    | cons segment rest =>
      refine ⟨segment, rest, rfl, ?_⟩
      by_contra hdots
      exact hout.2 ⟨segment, rest, rfl, hdots⟩

/-! ### The links of a file system -/

def Before (order : Enumeration) (a b : Segment) : Prop :=
  match order with
  | .ascending => codeUnits a.val < codeUnits b.val
  | .descending => codeUnits b.val < codeUnits a.val

theorem enumerated_perm (order : Enumeration) (names : List Segment) :
    (enumerated order names).Perm names := by
  have hsort : (sortNames names).Perm names := List.perm_insertionSort _ _
  cases order with
  | ascending => exact hsort
  | descending => exact (List.reverse_perm _).trans hsort

theorem sortNames_pairwise {names : List Segment} (h : names.Nodup) :
    (sortNames names).Pairwise fun a b => codeUnits a.val < codeUnits b.val := by
  have htotal : Std.Total fun a b : Segment => codeUnits a.val ≤ codeUnits b.val :=
    ⟨fun a b => le_total _ _⟩
  have htrans : IsTrans Segment fun a b => codeUnits a.val ≤ codeUnits b.val :=
    ⟨fun _ _ _ => le_trans⟩
  have hsorted : (sortNames names).Pairwise fun a b => codeUnits a.val ≤ codeUnits b.val :=
    List.pairwise_insertionSort _ _
  have hnodup : (sortNames names).Nodup := (List.perm_insertionSort _ _).nodup_iff.2 h
  refine (hsorted.and hnodup).imp fun {a b} hab => lt_of_le_of_ne hab.1 fun heq => ?_
  exact hab.2 (Subtype.ext (codeUnits_injective heq))

theorem enumerated_pairwise (order : Enumeration) {names : List Segment} (h : names.Nodup) :
    (enumerated order names).Pairwise (Before order) := by
  have hsorted := sortNames_pairwise h
  cases order with
  | ascending => exact hsorted
  | descending => exact List.pairwise_reverse.2 hsorted

namespace Host

variable (host : Host) (order : Enumeration)

def names (real : Path) : List Segment := (host.files.directory real).getD []

/-- The directory that a name of a directory leads to. -/
def linked (real : Path) (name : Segment) : Option Path :=
  (host.files.real (real ++ [name])).filter fun target => (host.files.directory target).isSome

def linkOf (real : Path) (name : Segment) : Option (Segment × Path) :=
  (host.linked real name).map fun target => (name, target)

/-- The directories of a directory, by name. -/
def links (real : Path) : List (Segment × Path) := (host.names real).filterMap (host.linkOf real)

def orderedLinks (real : Path) : List (Segment × Path) :=
  (enumerated order (host.names real)).filterMap (host.linkOf real)

variable {host order}

theorem orderedLinks_pairwise (real : Path) :
    (host.orderedLinks order real).Pairwise fun a b => Before order a.1 b.1 := by
  have hnodup : (host.names real).Nodup := by
    rw [names]
    cases hnames : host.files.directory real with
    | none => exact List.nodup_nil
    | some names => exact host.files.nodup real names hnames
  refine List.Pairwise.filterMap _ (fun a b hab x hx y hy => ?_) (enumerated_pairwise order hnodup)
  obtain ⟨target, -, rfl⟩ := Option.map_eq_some_iff.1 hx
  obtain ⟨target', -, rfl⟩ := Option.map_eq_some_iff.1 hy
  exact hab

theorem mem_orderedLinks (real : Path) (e : Segment × Path) :
    e ∈ host.orderedLinks order real ↔ e ∈ host.links real := by
  rw [orderedLinks, links, List.mem_filterMap, List.mem_filterMap]
  refine exists_congr fun name => and_congr_left fun _ => ?_
  exact (enumerated_perm order _).mem_iff

theorem isSome_child {current real : Path} (hreal : host.files.real current = some real)
    {name : Segment} (hname : name ∈ host.names real) :
    (host.files.directory (host.realOf (current ++ [name]))).isSome =
        (host.linked real name).isSome ∧
      ∀ target, host.linked real name = some target →
        host.files.real (current ++ [name]) = some target := by
  rw [names] at hname
  cases hdirectory : host.files.directory real with
  | none =>
    rw [hdirectory] at hname
    cases hname
  | some held =>
    rw [hdirectory] at hname
    have hchild := host.files.real_child current real held name hreal hdirectory hname
    rw [linked, ← hchild, realOf]
    cases htarget : host.files.real (current ++ [name]) with
    | none =>
      rw [Option.getD_none, host.files.absent _ htarget]
      exact ⟨rfl, fun target h => by cases h⟩
    | some target =>
      rw [Option.getD_some, Option.filter_some]
      split
      · rename_i hsome
        exact ⟨hsome, fun target' h => h⟩
      · rename_i hnone
        exact ⟨by simpa using hnone, fun target' h => by cases h⟩

end Host

/-! ### The walk as a search -/

namespace Host

variable (host : Host) (order : Enumeration) (root : Path)

def Admits (path : Path) : Prop := host.readRoots.any (within · (host.realOf path)) = true

instance (path : Path) : Decidable (host.Admits path) := inferInstanceAs (Decidable (_ = true))

/-- The texts of what is no directory among the names of a directory, along the path to it. -/
def fileTexts (real : Path) (labels : List Segment) (held : List Segment) : List Text :=
  (held.filter fun name => (host.linked real name).isNone).map fun name =>
    toPosix (joined (texts (labels ++ [name])))

def listed (p : Path × List Segment) : List Text := host.fileTexts p.1 p.2 (host.names p.1)

def metIn (p : Path × List Segment) : List Path :=
  (host.names p.1).map fun name => root ++ p.2 ++ [name]

/-- A run that met the paths: it goes on with the texts when all are admitted, or is refused. -/
inductive Outcome (s : State) (after : List Path) (texts : List Text) (met : List Path) :
    Option (Except Text State) → Prop
  | goes {out : List Text} : out.Perm (s.out ++ texts) → (∀ path ∈ met, host.Admits path) →
      Outcome s after texts met (some (.ok ⟨after, out⟩))
  | refused (refusal : Text) : (∃ path ∈ met, ¬ host.Admits path) →
      Outcome s after texts met (some (.error refusal))

variable {host order root} {s : State} {after : List Path} {found : List (Path × List Segment)}

theorem Outcome.congr {texts texts' : List Text} {met met' : List Path}
    {run : Option (Except Text State)} (h : host.Outcome s after texts met run)
    (htexts : texts.Perm texts') (hmet : ∀ path, path ∈ met ↔ path ∈ met') :
    host.Outcome s after texts' met' run := by
  cases h with
  | goes hout hall =>
    exact .goes (hout.trans (htexts.append_left _)) fun path hp => hall path ((hmet path).2 hp)
  | refused refusal hsome =>
    obtain ⟨path, hp, hnot⟩ := hsome
    exact .refused refusal ⟨path, (hmet path).1 hp, hnot⟩

theorem allowRead_admits {path : Path} (h : host.Admits path) :
    host.allowRead path = .ok (host.realOf path) := by
  rw [allowRead]
  exact if_pos h

theorem allowRead_refuses {path : Path} (h : ¬ host.Admits path) :
    ∃ refusal, host.allowRead path = .error refusal := by
  rw [allowRead]
  exact ⟨_, if_neg h⟩

theorem Outcome.push {texts : List Text} {met : List Path} {run : Option (Except Text State)}
    {text : Text} (h : host.Outcome { s with out := s.out ++ [text] } after texts met run) :
    host.Outcome s after (text :: texts) met run := by
  cases h with
  | goes hout hall =>
    refine .goes (hout.trans ?_) hall
    rw [List.append_assoc]
    exact List.Perm.refl _
  | refused refusal hsome => exact .refused refusal hsome

theorem Outcome.admit {texts : List Text} {met : List Path} {run : Option (Except Text State)}
    {path : Path} (h : host.Outcome s after texts met run) (hadmits : host.Admits path) :
    host.Outcome s after texts (path :: met) run := by
  cases h with
  | goes hout hall => exact .goes hout (List.forall_mem_cons.2 ⟨hadmits, hall⟩)
  | refused refusal hsome =>
    obtain ⟨p, hp, hnot⟩ := hsome
    exact .refused refusal ⟨p, List.mem_cons_of_mem _ hp, hnot⟩

theorem Outcome.next {middle : List Path} {out inner rest texts : List Text}
    {met metInner metRest : List Path} {run : Option (Except Text State)}
    (h : host.Outcome ⟨middle, out⟩ after (texts ++ rest) (met ++ metRest) run)
    (hout : out.Perm (s.out ++ inner)) (hall : ∀ path ∈ metInner, host.Admits path) :
    host.Outcome s after (texts ++ (inner ++ rest)) (met ++ (metInner ++ metRest)) run := by
  cases h with
  | @goes out' hout' hall' =>
    have hperm : out'.Perm (s.out ++ (texts ++ (inner ++ rest))) := by
      refine hout'.trans ((hout.append_right _).trans ?_)
      rw [List.append_assoc]
      exact (List.perm_append_comm_assoc inner texts rest).append_left s.out
    refine .goes hperm fun path hp => ?_
    rcases List.mem_append.1 hp with hp | hp
    · exact hall' path (List.mem_append_left _ hp)
    · rcases List.mem_append.1 hp with hp | hp
      · exact hall path hp
      · exact hall' path (List.mem_append_right _ hp)
  | refused refusal hsome =>
    obtain ⟨path, hp, hnot⟩ := hsome
    refine .refused refusal ⟨path, ?_, hnot⟩
    rcases List.mem_append.1 hp with hp | hp
    · exact List.mem_append_left _ hp
    · exact List.mem_append_right _ (List.mem_append_right _ hp)

variable (host root) in
/-- What a visit of a directory does, as the search does it. -/
def Simulates (visit : Path → State → Option (Except Text State))
    (search : Path → List Segment → List Path → Option (Found Path Segment)) : Prop :=
  ∀ current real labels s after found, current = root ++ labels →
    host.files.real current = some real → host.Admits current →
    search real labels s.seen = some (after, found) →
    host.Outcome s after (found.flatMap host.listed) (found.flatMap (host.metIn root))
      (visit current s)

theorem visitNames_outcome {visit : Path → State → Option (Except Text State)}
    {search : Path → List Segment → List Path → Option (Found Path Segment)}
    (hvisit : host.Simulates root visit search) {current real : Path}
    {labels : List Segment} (hcurrent : current = root ++ labels)
    (hreal : host.files.real current = some real) (held : List Segment)
    (hheld : ∀ name ∈ held, name ∈ host.names real) (s : State) (after : List Path)
    (found : List (Path × List Segment))
    (h : followAll search (held.filterMap (host.linkOf real)) labels s.seen =
      some (after, found)) :
    host.Outcome s after (host.fileTexts real labels held ++ found.flatMap host.listed)
      (held.map (fun name => root ++ labels ++ [name]) ++ found.flatMap (host.metIn root))
      (host.visitNames root visit current held s) := by
  induction held generalizing s after found with
  | nil =>
    obtain ⟨rfl, rfl⟩ := Prod.mk.inj (Option.some.inj h)
    refine .goes ?_ fun path hp => ?_
    · simp [fileTexts]
    · cases hp
  | cons name held ih =>
    obtain ⟨hname, hrest⟩ := List.forall_mem_cons.1 hheld
    obtain ⟨hdirectory, htarget⟩ := isSome_child hreal hname
    have hchild : current ++ [name] = root ++ labels ++ [name] := by rw [hcurrent]
    rw [visitNames]
    by_cases hadmits : host.Admits (current ++ [name])
    · have hallow := allowRead_admits hadmits
      have hisDirectory : host.isDirectory (current ++ [name]) =
          .ok (host.linked real name).isSome := by
        rw [isDirectory, hallow, ← hdirectory]
        rfl
      cases hlinked : host.linked real name with
      | none =>
        rw [hlinked] at hisDirectory
        have hlink : host.linkOf real name = none := by rw [linkOf, hlinked]; rfl
        rw [List.filterMap_cons, hlink] at h
        have htext : relative root (current ++ [name]) = joined (texts (labels ++ [name])) := by
          rw [relative, hcurrent, List.append_assoc, relativeSegments_append]
        have hfile : host.fileTexts real labels (name :: held) =
            toPosix (joined (texts (labels ++ [name]))) :: host.fileTexts real labels held := by
          simp [fileTexts, hlinked]
        have hnext := ih hrest { s with out := s.out ++ [toPosix (relative root
          (current ++ [name]))] } after found h
        simp only [hisDirectory, Option.isSome_none]
        rw [hfile, ← htext, List.cons_append, List.map_cons, List.cons_append, ← hchild]
        exact hnext.push.admit hadmits
      | some target =>
        rw [hlinked] at hisDirectory
        have hlink : host.linkOf real name = some (name, target) := by rw [linkOf, hlinked]; rfl
        rw [List.filterMap_cons, hlink, followAll, Option.bind_eq_some_iff] at h
        obtain ⟨⟨middle, first⟩, hfirst, h⟩ := h
        obtain ⟨⟨after', rest⟩, hafter, heq⟩ := Option.map_eq_some_iff.1 h
        obtain ⟨rfl, rfl⟩ := Prod.mk.inj heq
        have hfile : host.fileTexts real labels (name :: held) =
            host.fileTexts real labels held := by simp [fileTexts, hlinked]
        have hinner := hvisit (current ++ [name]) target (labels ++ [name]) s middle first
          (by rw [hcurrent, List.append_assoc]) (htarget target hlinked) hadmits hfirst
        simp only [hisDirectory, Option.isSome_some]
        rw [hfile, List.map_cons, List.cons_append, ← hchild]
        refine Outcome.admit ?_ hadmits
        generalize visit (current ++ [name]) s = run at hinner
        cases hinner with
        | goes hout hall =>
          rw [List.flatMap_append, List.flatMap_append]
          exact (ih hrest ⟨middle, _⟩ after' rest hafter).next hout hall
        | refused refusal hsome =>
          obtain ⟨path, hp, hnot⟩ := hsome
          refine .refused refusal ⟨path, ?_, hnot⟩
          rw [List.flatMap_append]
          exact List.mem_append_right _ (List.mem_append_left _ hp)
    · obtain ⟨refusal, hrefusal⟩ := allowRead_refuses hadmits
      have hisDirectory : host.isDirectory (current ++ [name]) = .error refusal := by
        rw [isDirectory, hrefusal]
        rfl
      simp only [hisDirectory]
      refine .refused refusal ⟨_, ?_, hadmits⟩
      rw [hchild]
      simp

theorem visit_simulates (fuel : ℕ) :
    host.Simulates root (host.visit order root fuel)
      (DepthFirst.visit (host.orderedLinks order) fuel) := by
  induction fuel with
  | zero =>
    intro current real labels s after found _ _ _ h
    cases h
  | succ fuel ih =>
    intro current real labels s after found hcurrent hreal hadmits h
    have hrealOf : host.realOf current = real := by rw [realOf, hreal]; rfl
    rw [DepthFirst.visit] at h
    rw [visit, hrealOf]
    split at h
    · rename_i hseen
      obtain ⟨rfl, rfl⟩ := Prod.mk.inj (Option.some.inj h)
      rw [if_pos hseen]
      refine .goes ?_ fun path hp => ?_
      · simp
      · cases hp
    · rename_i hnew
      obtain ⟨⟨after', rest⟩, hrest, heq⟩ := Option.map_eq_some_iff.1 h
      obtain ⟨rfl, rfl⟩ := Prod.mk.inj heq
      have hread : host.readDir order current = .ok (enumerated order (host.names real)) := by
        rw [readDir, allowRead_admits hadmits, hrealOf]
        rfl
      have hperm := enumerated_perm order (host.names real)
      have houtcome := visitNames_outcome ih hcurrent hreal (enumerated order (host.names real))
        (fun name hname => hperm.mem_iff.1 hname) ⟨real :: s.seen, s.out⟩ after' rest hrest
      simp only [if_neg hnew, hread]
      have hgoes : host.Outcome s after' (host.fileTexts real labels
          (enumerated order (host.names real)) ++ rest.flatMap host.listed)
          ((enumerated order (host.names real)).map (fun name => root ++ labels ++ [name]) ++
            rest.flatMap (host.metIn root))
          (host.visitNames root (host.visit order root fuel) current
            (enumerated order (host.names real)) ⟨real :: s.seen, s.out⟩) := by
        generalize host.visitNames root (host.visit order root fuel) current
          (enumerated order (host.names real)) ⟨real :: s.seen, s.out⟩ = run at houtcome
        cases houtcome with
        | goes hout hall => exact .goes hout hall
        | refused refusal hsome => exact .refused refusal hsome
      refine hgoes.congr ?_ fun path => ?_
      · exact (((hperm.filter _).map _).append_right _)
      · rw [List.flatMap_cons, List.mem_append, List.mem_append]
        exact or_congr_left (hperm.map _).mem_iff

end Host

/-! ### Results -/

namespace Host

variable {host : Host} {order : Enumeration} {root start : Path}

theorem visitNames_mono {visit visit' : Path → State → Option (Except Text State)}
    (hvisit : ∀ current s result, visit current s = some result → visit' current s = some result)
    (current : Path) (held : List Segment) (s : State) (result : Except Text State)
    (h : host.visitNames root visit current held s = some result) :
    host.visitNames root visit' current held s = some result := by
  induction held generalizing s with
  | nil => exact h
  | cons name held ih =>
    rw [visitNames] at h ⊢
    cases hchild : host.isDirectory (current ++ [name]) with
    | error refusal =>
      simp only [hchild] at h ⊢
      exact h
    | ok directory =>
      cases directory with
      | false =>
        simp only [hchild] at h ⊢
        exact ih _ h
      | true =>
        simp only [hchild] at h ⊢
        cases hrun : visit (current ++ [name]) s with
        | none =>
          rw [hrun] at h
          cases h
        | some run =>
          rw [hvisit _ _ _ hrun]
          rw [hrun] at h
          cases run with
          | error refusal => exact h
          | ok s' => exact ih s' h

theorem visit_mono {fuel fuel' : ℕ} (hle : fuel ≤ fuel') (current : Path) (s : State)
    (result : Except Text State) (h : host.visit order root fuel current s = some result) :
    host.visit order root fuel' current s = some result := by
  induction fuel generalizing fuel' current s result with
  | zero => cases h
  | succ fuel ih =>
    cases fuel' with
    | zero => omega
    | succ fuel' =>
      rw [visit] at h ⊢
      split
      · rename_i hseen
        rwa [if_pos hseen] at h
      · rename_i hnew
        rw [if_neg hnew] at h
        cases hread : host.readDir order current with
        | error refusal =>
          simp only [hread] at h ⊢
          exact h
        | ok held =>
          simp only [hread] at h ⊢
          exact visitNames_mono (fun current s result => ih (by omega) current s result) _ _ _ _ h

theorem walkWithin_mono {fuel fuel' : ℕ} (hle : fuel ≤ fuel') {result : Except Text (List Text)}
    (h : host.walkWithin fuel order start = some result) :
    host.walkWithin fuel' order start = some result := by
  rw [walkWithin] at h ⊢
  split
  · rename_i hdirectory
    simpa only [hdirectory] using h
  · rename_i hdirectory
    simpa only [hdirectory] using h
  · rename_i hdirectory
    simp only [hdirectory] at h
    obtain ⟨run, hrun, heq⟩ := Option.map_eq_some_iff.1 h
    rw [visit_mono hle _ _ _ hrun, Option.map_some, heq]

theorem Returns.unique {result result' : Except Text (List Text)}
    (h : host.Returns order start result) (h' : host.Returns order start result') :
    result = result' := by
  obtain ⟨fuel, hfuel⟩ := h
  obtain ⟨fuel', hfuel'⟩ := h'
  have hle := walkWithin_mono (Nat.le_max_left fuel fuel') hfuel
  have hle' := walkWithin_mono (Nat.le_max_right fuel fuel') hfuel'
  exact Option.some.inj (hle.symm.trans hle')

/-! ### The directories of a walk -/

variable (host order start) in
/-- The least path in the order from the start to a directory. -/
def LeadsTo (p : Path × List Segment) : Prop :=
  ∃ real, host.files.real start = some real ∧ (host.files.directory real).isSome ∧
    Least host.links (Before order) [] real p.2 p.1

variable (host order start) in
/-- The paths that a walk in the order meets: the start, and what its directories hold. -/
def Met (path : Path) : Prop :=
  path = start ∨ ∃ p, host.LeadsTo order start p ∧ path ∈ host.metIn start p

theorem asymm_before (order : Enumeration) : Std.Asymm (Before order) := by
  refine ⟨fun a b hab hba => ?_⟩
  cases order with
  | ascending => exact lt_asymm hab hba
  | descending => exact lt_asymm hab hba

theorem links_directory {real : Path} {e : Segment × Path} (h : e ∈ host.links real) :
    (host.files.directory e.2).isSome := by
  obtain ⟨name, -, hlink⟩ := List.mem_filterMap.1 h
  obtain ⟨target, htarget, rfl⟩ := Option.map_eq_some_iff.1 hlink
  exact (Option.filter_eq_some_iff.1 htarget).2

theorem exists_found (order : Enumeration) {real : Path}
    (hreal : host.files.real start = some real)
    (hdirectory : (host.files.directory real).isSome) :
    ∃ after found, DepthFirst.visit (host.orderedLinks order) (host.files.directories.length + 1)
        real [] [] = some (after, found) ∧
      (found.map Prod.fst).Nodup ∧ (∀ p, p ∈ found ↔ host.LeadsTo order start p) ∧
      ∀ labels target, Walk host.links real labels target → target ∈ found.map Prod.fst := by
  have hsubset : ∀ real, host.orderedLinks order real ⊆ host.links real :=
    fun real e he => (mem_orderedLinks real e).1 he
  have hsubset' : ∀ real, host.links real ⊆ host.orderedLinks order real :=
    fun real e he => (mem_orderedLinks real e).2 he
  have hnodes : ∀ v ∈ host.files.directories, ∀ e ∈ host.orderedLinks order v,
      e.2 ∈ host.files.directories :=
    fun v _ e he => host.files.finite e.2 (links_directory (hsubset v he))
  have hfuel : unseen host.files.directories [] < host.files.directories.length + 1 :=
    Nat.lt_succ_of_le (List.length_filter_le _ _)
  obtain ⟨after, found, hfound, -⟩ := visit_isSome hnodes (host.files.directories.length + 1) real
    (host.files.finite real hdirectory) [] [] hfuel
  have hfinds : Finds (host.orderedLinks order) (Before order) real found :=
    visit_finds orderedLinks_pairwise hfound
  refine ⟨after, found, hfound, hfinds.nodup, fun p => ⟨fun hp => ?_, fun hp => ?_⟩,
    fun labels target hwalk => (hfinds.reached target).2 ⟨labels, hwalk.congr hsubset'⟩⟩
  · exact ⟨real, hreal, hdirectory, (hfinds.least p hp).congr hsubset hsubset'⟩
  · obtain ⟨real', hreal', -, hleast⟩ := hp
    obtain rfl : real = real' := Option.some.inj (hreal.symm.trans hreal')
    have hleast' := hleast.congr hsubset' hsubset
    obtain ⟨q, hq, heq⟩ := List.mem_map.1 ((hfinds.reached p.1).2 ⟨p.2, hleast'.1.walk⟩)
    have hasymm := asymm_before order
    have hlabels : q.2 = p.2 := by
      refine (hfinds.least q hq).unique ?_
      rw [heq]
      exact hleast'
    rwa [← Prod.ext heq hlabels]

end Host

namespace Host

variable {host : Host} {order : Enumeration} {start : Path}

/-- What the walk returns: the files along the least paths when all it meets is admitted, and a
refusal otherwise. -/
theorem walk_spec (host : Host) (order : Enumeration) (start : Path) :
    ∃ found : List (Path × List Segment), (found.map Prod.fst).Nodup ∧
      (∀ p, p ∈ found ↔ host.LeadsTo order start p) ∧
      ((∃ out, host.Returns order start (.ok (sortTexts out)) ∧
          out.Perm (found.flatMap host.listed) ∧ ∀ path, host.Met order start path →
            host.Admits path) ∨
        ∃ refusal, host.Returns order start (.error refusal) ∧
          ∃ path, host.Met order start path ∧ ¬ host.Admits path) := by
  -- a start that is a directory, and one that is not
  by_cases hstart : ∃ real, host.files.real start = some real ∧
      (host.files.directory real).isSome
  · obtain ⟨real, hreal, hdirectory⟩ := hstart
    obtain ⟨after, found, hfound, hnodup, hmem, -⟩ := exists_found order hreal hdirectory
    have hmet : ∀ path, path ∈ found.flatMap (host.metIn start) → host.Met order start path := by
      intro path hpath
      obtain ⟨p, hp, hin⟩ := List.mem_flatMap.1 hpath
      exact .inr ⟨p, (hmem p).1 hp, hin⟩
    have hrealOf : host.realOf start = real := by rw [realOf, hreal]; rfl
    refine ⟨found, hnodup, hmem, ?_⟩
    by_cases hadmits : host.Admits start
    · have hisDirectory : host.isDirectory start = .ok true := by
        rw [isDirectory, allowRead_admits hadmits, hrealOf]
        exact congrArg Except.ok hdirectory
      have houtcome := visit_simulates (host.files.directories.length + 1) start real [] ⟨[], []⟩
        after found (List.append_nil start).symm hreal hadmits hfound
      have hreturns : ∀ run, host.visit order start (host.files.directories.length + 1) start
          ⟨[], []⟩ = some run →
          host.Returns order start (run.map fun s => sortTexts s.out) := by
        intro run hrun
        refine ⟨host.files.directories.length + 1, ?_⟩
        simp only [walkWithin, hisDirectory, hrun, Option.map_some]
      generalize hvisit : host.visit order start (host.files.directories.length + 1) start
        ⟨[], []⟩ = run at houtcome
      cases houtcome with
      | @goes out hout hall =>
        refine .inl ⟨out, hreturns _ hvisit, hout, fun path hpath => ?_⟩
        rcases hpath with rfl | ⟨p, hp, hin⟩
        · exact hadmits
        · exact hall path (List.mem_flatMap.2 ⟨p, (hmem p).2 hp, hin⟩)
      | refused refusal hsome =>
        obtain ⟨path, hpath, hnot⟩ := hsome
        exact .inr ⟨refusal, hreturns _ hvisit, path, hmet path hpath, hnot⟩
    · obtain ⟨refusal, hrefusal⟩ := allowRead_refuses hadmits
      refine .inr ⟨refusal, ⟨0, ?_⟩, start, .inl rfl, hadmits⟩
      have hisDirectory : host.isDirectory start = .error refusal := by
        rw [isDirectory, hrefusal]
        rfl
      simp only [walkWithin, hisDirectory]
  · have hnone : ∀ p, ¬ host.LeadsTo order start p := by
      rintro p ⟨real, hreal, hdirectory, -⟩
      exact hstart ⟨real, hreal, hdirectory⟩
    have hmet : ∀ path, host.Met order start path → path = start := by
      rintro path (rfl | ⟨p, hp, -⟩)
      · rfl
      · exact absurd hp (hnone p)
    refine ⟨[], List.nodup_nil, fun p => ⟨fun hp => ?_, fun hp => absurd hp (hnone p)⟩, ?_⟩
    · cases hp
    · by_cases hadmits : host.Admits start
      · have hdirectory : (host.files.directory (host.realOf start)).isSome = false := by
          rw [realOf]
          cases hreal : host.files.real start with
          | none => simp [host.files.absent _ hreal]
          | some real =>
            rw [Option.getD_some, ← Bool.not_eq_true]
            exact fun hsome => hstart ⟨real, hreal, hsome⟩
        have hisDirectory : host.isDirectory start = .ok false := by
          rw [isDirectory, allowRead_admits hadmits]
          exact congrArg Except.ok hdirectory
        refine .inl ⟨[], ⟨0, ?_⟩, List.Perm.refl _, fun path hpath => ?_⟩
        · simp only [walkWithin, hisDirectory]
          rfl
        · rwa [hmet path hpath]
      · obtain ⟨refusal, hrefusal⟩ := allowRead_refuses hadmits
        refine .inr ⟨refusal, ⟨0, ?_⟩, start, .inl rfl, hadmits⟩
        have hisDirectory : host.isDirectory start = .error refusal := by
          rw [isDirectory, hrefusal]
          rfl
        simp only [walkWithin, hisDirectory]

end Host

end FilamentCore.Compiler.HostReads
