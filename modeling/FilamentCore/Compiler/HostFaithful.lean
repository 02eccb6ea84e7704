import FilamentCore.Compiler.HostWalk

/-!
# What the walk of the host is faithful to

The listing is that of the files of the reached directories, and the same in both orders, exactly
where a directory with files is reached by one simple path and no path is hidden by two dots.
-/

namespace FilamentCore.Compiler.HostReads
open FilamentCore.Packages (codeUnits codeUnits_injective)
open FilamentCore.Library FilamentCore.Library.DepthFirst

namespace Host

variable (host : Host) (start : Path)

/-- The names lead from the start to the directory, through directories. -/
def Reaches (labels : List Segment) (real : Path) : Prop :=
  ∃ first, host.files.real start = some first ∧ (host.files.directory first).isSome ∧
    Walk host.links first labels real

/-- So does a path through different directories. -/
def ReachesSimply (labels : List Segment) (real : Path) : Prop :=
  ∃ first, host.files.real start = some first ∧ (host.files.directory first).isSome ∧
    Simple host.links [] first labels real

/-- The name is one of the directory and leads to no directory. -/
def IsFile (real : Path) (name : Segment) : Prop :=
  name ∈ host.names real ∧ host.linked real name = none

/-- The walk ends, refuses what lies outside of every root, lists the files of the reached
directories, and does so in any order of the names. -/
structure Faithful : Prop where
  terminates : ∀ order, ∃ result, host.Returns order start result
  refuses : ∀ order result, host.Returns order start result →
    ((∃ refusal, result = .error refusal) ↔
      ∃ path, host.Met order start path ∧ ¬ Inside host.readRoots (host.realOf path))
  each : ∀ order out, host.Returns order start (.ok out) → ∀ real name,
    (∃ labels, host.Reaches start labels real) → host.IsFile real name →
    ∃ labels, host.Reaches start labels real ∧ toPosix (joined (texts (labels ++ [name]))) ∈ out
  only : ∀ order out, host.Returns order start (.ok out) → ∀ text ∈ out,
    ∃ labels real name, host.Reaches start labels real ∧ host.IsFile real name ∧
      text = toPosix (joined (texts (labels ++ [name])))
  same : ∀ order order' result result', host.Returns order start result →
    host.Returns order' start result' → result.toOption = result'.toOption

/-- A path outside is met, or no path is hidden and each directory with files is reached simply by
one path only. -/
def Settled : Prop :=
  (∀ order, ∃ path, host.Met order start path ∧ ¬ Inside host.readRoots (host.realOf path)) ∨
  (∀ order path, host.Met order start path → Inside host.readRoots (host.realOf path) ∧
      ¬ HiddenByDots host.readRoots (host.realOf path)) ∧
    ∀ real name, host.IsFile real name → ∀ a b, host.ReachesSimply start a real →
      host.ReachesSimply start b real → a = b

variable {host start} {order order' : Enumeration}

theorem admits_path (path : Path) : host.Admits path ↔ Inside host.readRoots (host.realOf path) ∧
    ¬ HiddenByDots host.readRoots (host.realOf path) := admits_iff _ _

theorem labelled_links : Labelled host.links := by
  intro real name target target' h h'
  obtain ⟨name', -, hlink⟩ := List.mem_filterMap.1 h
  obtain ⟨name'', -, hlink'⟩ := List.mem_filterMap.1 h'
  obtain ⟨t, ht, heq⟩ := Option.map_eq_some_iff.1 hlink
  obtain ⟨t', ht', heq'⟩ := Option.map_eq_some_iff.1 hlink'
  obtain ⟨rfl, rfl⟩ := Prod.mk.inj heq
  obtain ⟨rfl, rfl⟩ := Prod.mk.inj heq'
  exact Option.some.inj (ht.symm.trans ht')

theorem LeadsTo.reachesSimply {p : Path × List Segment} (h : host.LeadsTo order start p) :
    host.ReachesSimply start p.2 p.1 := by
  obtain ⟨first, hfirst, hdirectory, hleast⟩ := h
  exact ⟨first, hfirst, hdirectory, hleast.1⟩

theorem ReachesSimply.reaches {labels : List Segment} {real : Path}
    (h : host.ReachesSimply start labels real) : host.Reaches start labels real := by
  obtain ⟨first, hfirst, hdirectory, hsimple⟩ := h
  exact ⟨first, hfirst, hdirectory, hsimple.walk⟩

theorem LeadsTo.unique {real : Path} {a b : List Segment} (h : host.LeadsTo order start (real, a))
    (h' : host.LeadsTo order start (real, b)) : a = b := by
  obtain ⟨first, hfirst, -, hleast⟩ := h
  obtain ⟨first', hfirst', -, hleast'⟩ := h'
  obtain rfl := Option.some.inj (hfirst.symm.trans hfirst')
  have hasymm := asymm_before order
  exact hleast.unique hleast'

theorem Reaches.leadsTo (order : Enumeration) {labels : List Segment} {real : Path}
    (h : host.Reaches start labels real) : ∃ least, host.LeadsTo order start (real, least) := by
  obtain ⟨first, hfirst, hdirectory, hwalk⟩ := h
  obtain ⟨-, found, -, -, hmem, hreached⟩ := exists_found order hfirst hdirectory
  obtain ⟨p, hp, rfl⟩ := List.mem_map.1 (hreached labels real hwalk)
  exact ⟨p.2, (hmem p).1 hp⟩

theorem leadsTo_eq_iff {real : Path} {a b : List Segment}
    (h : host.LeadsTo .ascending start (real, a)) (h' : host.LeadsTo .descending start (real, b)) :
    a = b ↔ ∀ a b, host.ReachesSimply start a real → host.ReachesSimply start b real → a = b := by
  obtain ⟨first, hfirst, hdirectory, hleast⟩ := h
  obtain ⟨first', hfirst', -, hleast'⟩ := h'
  obtain rfl := Option.some.inj (hfirst.symm.trans hfirst')
  have hasymm := asymm_before .ascending
  have hasymm' := asymm_before .descending
  have hopposite : ∀ l l' : Segment, Before .ascending l l' → ¬ Before .descending l l' :=
    fun l l' hlt hlt' => lt_asymm hlt hlt'
  rw [least_eq_iff hopposite labelled_links hleast hleast']
  constructor
  · rintro hall a b ⟨first', hfirst', -, ha⟩ ⟨first'', hfirst'', -, hb⟩
    obtain rfl := Option.some.inj (hfirst.symm.trans hfirst')
    obtain rfl := Option.some.inj (hfirst.symm.trans hfirst'')
    exact hall a b ha hb
  · intro hall a b ha hb
    exact hall a b ⟨first, hfirst, hdirectory, ha⟩ ⟨first, hfirst, hdirectory, hb⟩

/-! ### Listings -/

theorem mem_listed (p : Path × List Segment) (text : Text) : text ∈ host.listed p ↔
    ∃ name, host.IsFile p.1 name ∧ text = toPosix (joined (texts (p.2 ++ [name]))) := by
  simp only [listed, fileTexts, List.mem_map, List.mem_filter, Option.isNone_iff_eq_none, IsFile]
  exact exists_congr fun _ => and_congr_right fun _ => eq_comm

theorem mem_sortTexts (out : List Text) (text : Text) : text ∈ sortTexts out ↔ text ∈ out :=
  (List.perm_insertionSort _ _).mem_iff

theorem sortTexts_eq {out out' : List Text} : sortTexts out = sortTexts out' ↔ out.Perm out' := by
  have hperm : ∀ out, (sortTexts out).Perm out := fun out => List.perm_insertionSort _ _
  constructor
  · intro h
    exact (hperm out).symm.trans (h ▸ hperm out')
  · intro h
    have htotal : Std.Total fun a b : Text => codeUnits a ≤ codeUnits b := ⟨fun a b => le_total _ _⟩
    have htrans : IsTrans Text fun a b => codeUnits a ≤ codeUnits b := ⟨fun _ _ _ => le_trans⟩
    refine ((hperm out).trans (h.trans (hperm out').symm)).eq_of_pairwise ?_
      (List.pairwise_insertionSort _ _) (List.pairwise_insertionSort _ _)
    exact fun a b _ _ hab hba => codeUnits_injective (le_antisymm hab hba)

end Host

namespace Host

variable {host : Host} {start : Path} {order order' : Enumeration}

theorem flatMap_listed (found : List (Path × List Segment)) :
    (found.filter fun p => decide (host.listed p ≠ [])).flatMap host.listed =
      found.flatMap host.listed := by
  induction found with
  | nil => rfl
  | cons p found ih =>
    rw [List.filter_cons, List.flatMap_cons]
    by_cases hlisted : host.listed p = []
    · rw [if_neg (by simpa using hlisted), ih, hlisted, List.nil_append]
    · rw [if_pos (by simpa using hlisted), List.flatMap_cons, ih]

theorem listed_perm {found found' : List (Path × List Segment)}
    (hnodup : (found.map Prod.fst).Nodup) (hnodup' : (found'.map Prod.fst).Nodup)
    (hmem : ∀ p, p ∈ found ↔ host.LeadsTo order start p)
    (hmem' : ∀ p, p ∈ found' ↔ host.LeadsTo order' start p)
    (hone : ∀ real name, host.IsFile real name → ∀ a b, host.ReachesSimply start a real →
      host.ReachesSimply start b real → a = b) :
    (found.flatMap host.listed).Perm (found'.flatMap host.listed) := by
  have hmove : ∀ order order' p, host.listed p ≠ [] → host.LeadsTo order start p →
      host.LeadsTo order' start p := by
    intro order order' p hlisted hleads
    obtain ⟨text, htext⟩ := List.exists_mem_of_ne_nil _ hlisted
    obtain ⟨name, hname, -⟩ := (mem_listed p text).1 htext
    obtain ⟨labels, hlabels⟩ := hleads.reachesSimply.reaches.leadsTo order'
    have heq := hone p.1 name hname p.2 labels hleads.reachesSimply hlabels.reachesSimply
    rwa [← heq] at hlabels
  rw [← flatMap_listed found, ← flatMap_listed found']
  refine List.Perm.flatMap_right _ ((List.perm_ext_iff_of_nodup ?_ ?_).2 fun p => ?_)
  · exact (hnodup.of_map _).filter _
  · exact (hnodup'.of_map _).filter _
  · rw [List.mem_filter, List.mem_filter, decide_eq_true_eq, hmem, hmem']
    exact ⟨fun h => ⟨hmove order order' p h.2 h.1, h.2⟩,
      fun h => ⟨hmove order' order p h.2 h.1, h.2⟩⟩

/-! ### The walk is faithful where the file system is settled -/

theorem faithful_of_settled (h : host.Settled start) : host.Faithful start := by
  have hspec := fun order => walk_spec host order start
  have hterminates : ∀ order, ∃ result, host.Returns order start result := by
    intro order
    obtain ⟨found, -, -, ⟨out, hreturns, -, -⟩ | ⟨refusal, hreturns, -⟩⟩ := hspec order
    · exact ⟨_, hreturns⟩
    · exact ⟨_, hreturns⟩
  rcases h with houtside | ⟨hinside, hone⟩
  · have hrefused : ∀ order, ∃ refusal, host.Returns order start (.error refusal) := by
      intro order
      obtain ⟨path, hmet, hout⟩ := houtside order
      obtain ⟨found, -, -, ⟨out, -, -, hall⟩ | ⟨refusal, hreturns, -⟩⟩ := hspec order
      · exact absurd ((admits_path path).1 (hall path hmet)).1 hout
      · exact ⟨refusal, hreturns⟩
    have herror : ∀ order result, host.Returns order start result →
        ∃ refusal, result = .error refusal := by
      intro order result hreturns
      obtain ⟨refusal, hrefusal⟩ := hrefused order
      exact ⟨refusal, hreturns.unique hrefusal⟩
    have hok : ∀ order out, ¬ host.Returns order start (.ok out) := by
      intro order out hreturns
      obtain ⟨refusal, heq⟩ := herror order _ hreturns
      cases heq
    refine ⟨hterminates, fun order result hreturns => ?_,
      fun order out hreturns => absurd hreturns (hok order out),
      fun order out hreturns => absurd hreturns (hok order out),
      fun order order' result result' hreturns hreturns' => ?_⟩
    · exact iff_of_true (herror order result hreturns) (houtside order)
    · obtain ⟨refusal, rfl⟩ := herror order result hreturns
      obtain ⟨refusal', rfl⟩ := herror order' result' hreturns'
      rfl
  · have hadmits : ∀ order path, host.Met order start path → host.Admits path :=
      fun order path hmet => (admits_path path).2 (hinside order path hmet)
    have hlists : ∀ order result, host.Returns order start result →
        ∃ (found : List (Path × List Segment)) (out : List Text), result = .ok (sortTexts out) ∧
          out.Perm (found.flatMap host.listed) ∧ (found.map Prod.fst).Nodup ∧
          ∀ p, p ∈ found ↔ host.LeadsTo order start p := by
      intro order result hreturns
      obtain ⟨found, hnodup, hmem, ⟨out, hreturns', hperm, -⟩ | ⟨refusal, -, path, hmet, hnot⟩⟩ :=
        hspec order
      · exact ⟨found, out, hreturns.unique hreturns', hperm, hnodup, hmem⟩
      · exact absurd (hadmits order path hmet) hnot
    refine ⟨hterminates, fun order result hreturns => ?_, fun order out hreturns real name => ?_,
      fun order out hreturns text htext => ?_,
      fun order order' result result' hreturns hreturns' => ?_⟩
    · obtain ⟨found, out, rfl, -⟩ := hlists order result hreturns
      refine iff_of_false ?_ ?_
      · rintro ⟨refusal, heq⟩
        cases heq
      · rintro ⟨path, hmet, hout⟩
        exact hout (hinside order path hmet).1
    · rintro ⟨labels, hreaches⟩ hfile
      obtain ⟨found, out', heq, hperm, -, hmem⟩ := hlists order _ hreturns
      obtain rfl := Except.ok.inj heq
      obtain ⟨least, hleast⟩ := hreaches.leadsTo order
      refine ⟨least, hleast.reachesSimply.reaches, (mem_sortTexts _ _).2 (hperm.mem_iff.2 ?_)⟩
      exact List.mem_flatMap.2 ⟨(real, least), (hmem _).2 hleast,
        (mem_listed _ _).2 ⟨name, hfile, rfl⟩⟩
    · obtain ⟨found, out', heq, hperm, -, hmem⟩ := hlists order _ hreturns
      obtain rfl := Except.ok.inj heq
      have hin := hperm.mem_iff.1 ((mem_sortTexts _ _).1 htext)
      obtain ⟨p, hp, hlisted⟩ := List.mem_flatMap.1 hin
      obtain ⟨name, hfile, rfl⟩ := (mem_listed p text).1 hlisted
      exact ⟨p.2, p.1, name, ((hmem p).1 hp).reachesSimply.reaches, hfile, rfl⟩
    · obtain ⟨found, out, rfl, hperm, hnodup, hmem⟩ := hlists order result hreturns
      obtain ⟨found', out', rfl, hperm', hnodup', hmem'⟩ := hlists order' result' hreturns'
      have hsame := listed_perm hnodup hnodup' hmem hmem' hone
      have heq := sortTexts_eq.2 (hperm.trans (hsame.trans hperm'.symm))
      rw [heq]

end Host

/-! ### Texts of paths -/

theorem joined_injective {a b : Path} (h : joined (texts a) = joined (texts b)) : a = b := by
  have hstep : ∀ (s : Segment) (path : Path), joined (texts (s :: path)) =
      s.val ++ (if path = [] then [] else '/' :: joined (texts path)) := by
    intro s path
    cases path with
    | nil => simp [joined, texts, List.intercalate]
    | cons next path => simp [joined, texts, List.intercalate]
  have hread : ∀ (s : Segment) (path : Path),
      (joined (texts (s :: path))).takeWhile (· ≠ '/') = s.val := by
    intro s path
    have hslash : ∀ c ∈ s.val, decide (c ≠ '/') = true := by
      intro c hc
      simp only [ne_eq, decide_not, Bool.not_eq_true', decide_eq_false_iff_not]
      rintro rfl
      exact s.property.2 hc
    rw [hstep, List.takeWhile_append_of_pos hslash]
    split <;> simp
  induction a generalizing b with
  | nil =>
    cases b with
    | nil => rfl
    | cons t b => exact absurd h.symm (joined_ne_nil (segment_ne_nil t) _)
  | cons s a ih =>
    cases b with
    | nil => exact absurd h (joined_ne_nil (segment_ne_nil s) _)
    | cons t b =>
      have hhead : s = t := by
        refine Subtype.ext ?_
        rw [← hread s a, ← hread t b, h]
      subst hhead
      rw [hstep, hstep, List.append_cancel_left_eq] at h
      split at h <;> split at h
      · rename_i ha hb
        rw [ha, hb]
      · cases h
      · cases h
      · rw [ih (List.cons.inj h).2]

theorem toPosix_plain {text : Text} (h : '\\' ∉ text) : toPosix text = text := by
  refine (List.map_congr_left fun c hc => ?_).trans (List.map_id _)
  have hne : c ≠ '\\' := by
    rintro rfl
    exact h hc
  exact if_neg hne

theorem notMem_joined {path : Path} (h : ∀ segment ∈ path, '\\' ∉ segment.val) :
    '\\' ∉ joined (texts path) := by
  induction path with
  | nil => exact List.not_mem_nil
  | cons s path ih =>
    obtain ⟨hs, hpath⟩ := List.forall_mem_cons.1 h
    cases path with
    | nil => simpa [joined, texts, List.intercalate] using hs
    | cons next path =>
      have hjoined : joined (texts (s :: next :: path)) =
          s.val ++ '/' :: joined (texts (next :: path)) := by
        simp [joined, texts, List.intercalate]
      rw [hjoined, List.mem_append, List.mem_cons, not_or, not_or]
      exact ⟨hs, by decide, ih hpath⟩

namespace Host

variable {host : Host} {start : Path}

variable (host start) in
def Plain : Prop := ∀ labels real, host.Reaches start labels real → ∀ name ∈ host.names real,
  '\\' ∉ name.val

theorem names_of_walk {first real : Path} {labels : List Segment}
    (h : Walk host.links first labels real) : ∀ label ∈ labels,
    ∃ labels' real', Walk host.links first labels' real' ∧ label ∈ host.names real' := by
  induction h with
  | nil _ => exact fun label hl => by cases hl
  | cons he _ ih =>
    refine List.forall_mem_cons.2 ⟨?_, fun label hl => ?_⟩
    · obtain ⟨name, hname, hlink⟩ := List.mem_filterMap.1 he
      obtain ⟨target, -, heq⟩ := Option.map_eq_some_iff.1 hlink
      obtain ⟨rfl, rfl⟩ := Prod.mk.inj heq
      exact ⟨[], _, .nil _, hname⟩
    · obtain ⟨labels', real', hwalk, hmem⟩ := ih label hl
      exact ⟨_ :: labels', real', .cons he hwalk, hmem⟩

theorem Plain.text (hplain : host.Plain start) {labels : List Segment} {real : Path}
    (h : host.Reaches start labels real) {name : Segment} (hname : name ∈ host.names real) :
    toPosix (joined (texts (labels ++ [name]))) = joined (texts (labels ++ [name])) := by
  refine toPosix_plain (notMem_joined fun segment hsegment => ?_)
  rcases List.mem_append.1 hsegment with hlabel | hlast
  · obtain ⟨first, hfirst, hdirectory, hwalk⟩ := h
    obtain ⟨labels', real', hwalk', hmem⟩ := names_of_walk hwalk segment hlabel
    exact hplain labels' real' ⟨first, hfirst, hdirectory, hwalk'⟩ segment hmem
  · rw [List.mem_singleton.1 hlast]
    exact hplain labels real h name hname

theorem Reaches.unique {labels : List Segment} {real real' : Path}
    (h : host.Reaches start labels real) (h' : host.Reaches start labels real') : real = real' := by
  obtain ⟨first, hfirst, -, hwalk⟩ := h
  obtain ⟨first', hfirst', -, hwalk'⟩ := h'
  obtain rfl := Option.some.inj (hfirst.symm.trans hfirst')
  exact hwalk.unique labelled_links hwalk'

theorem settled_of_faithful (hplain : host.Plain start) (h : host.Faithful start) :
    host.Settled start := by
  by_cases houtside : ∀ order, ∃ path, host.Met order start path ∧
      ¬ Inside host.readRoots (host.realOf path)
  · exact .inl houtside
  obtain ⟨order, hnone⟩ := not_forall.1 houtside
  -- in that order the walk lists, hence in both
  have hlists : ∀ order, ∃ (found : List (Path × List Segment)) (out : List Text),
      host.Returns order start (.ok (sortTexts out)) ∧ out.Perm (found.flatMap host.listed) ∧
        (∀ p, p ∈ found ↔ host.LeadsTo order start p) ∧
        ∀ path, host.Met order start path → host.Admits path := by
    have hone : ∃ out, host.Returns order start (.ok out) := by
      obtain ⟨found, -, -, ⟨out, hreturns, -⟩ | ⟨refusal, hreturns, -⟩⟩ :=
        walk_spec host order start
      · exact ⟨_, hreturns⟩
      · exact absurd ((h.refuses order _ hreturns).1 ⟨refusal, rfl⟩) hnone
    obtain ⟨listing, hlisting⟩ := hone
    intro order'
    obtain ⟨found, -, hmem, ⟨out, hreturns, hperm, hall⟩ | ⟨refusal, hreturns, -⟩⟩ :=
      walk_spec host order' start
    · exact ⟨found, out, hreturns, hperm, hmem, hall⟩
    · have hsame := h.same order order' _ _ hlisting hreturns
      cases hsame
  refine .inr ⟨fun order path hmet => ?_, fun real name hfile a b ha hb => ?_⟩
  · obtain ⟨-, -, -, -, -, hall⟩ := hlists order
    exact (admits_path path).1 (hall path hmet)
  · obtain ⟨found, out, hreturns, hperm, hmem, -⟩ := hlists .ascending
    obtain ⟨found', out', hreturns', hperm', hmem', -⟩ := hlists .descending
    obtain ⟨least, hleast⟩ := ha.reaches.leadsTo .ascending
    obtain ⟨greatest, hgreatest⟩ := ha.reaches.leadsTo .descending
    have hsame := h.same .ascending .descending _ _ hreturns hreturns'
    have hout : out.Perm out' := sortTexts_eq.1 (Option.some.inj hsame)
    have htext : toPosix (joined (texts (least ++ [name]))) ∈ found'.flatMap host.listed := by
      refine hperm'.mem_iff.1 (hout.mem_iff.1 (hperm.mem_iff.2 ?_))
      exact List.mem_flatMap.2 ⟨(real, least), (hmem _).2 hleast,
        (mem_listed _ _).2 ⟨name, hfile, rfl⟩⟩
    obtain ⟨p, hp, hlisted⟩ := List.mem_flatMap.1 htext
    obtain ⟨name', hfile', heq⟩ := (mem_listed p _).1 hlisted
    have hp' := (hmem' p).1 hp
    rw [hplain.text hleast.reachesSimply.reaches hfile.1,
      hplain.text hp'.reachesSimply.reaches hfile'.1] at heq
    have hlabels : least = p.2 := (List.append_inj' (joined_injective heq) rfl).1
    have hreaches : host.Reaches start least p.1 := by
      rw [hlabels]
      exact hp'.reachesSimply.reaches
    have hreal : real = p.1 := hleast.reachesSimply.reaches.unique hreaches
    have hboth : least = greatest := by
      rw [hlabels]
      refine LeadsTo.unique ?_ hgreatest
      rw [hreal]
      exact hp'
    exact (leadsTo_eq_iff hleast hgreatest).1 hboth a b ha hb

end Host

/-! ### The walk and the admission -/

/-- The walk is faithful where the file system is settled, and nowhere else while no name has a
backslash; a path is admitted as its segments say unless it is hidden by two dots. -/
theorem walk_faithful (host : Host) (start : Path) :
    (host.Settled start → host.Faithful start) ∧
    (host.Plain start → host.Faithful start → host.Settled start) ∧
    ∀ path, (host.Admits path ↔ Inside host.readRoots (host.realOf path)) ↔
      ¬ HiddenByDots host.readRoots (host.realOf path) := by
  refine ⟨Host.faithful_of_settled, Host.settled_of_faithful, fun path => ?_⟩
  rw [Host.admits_path]
  constructor
  · intro h hhidden
    exact (h.2 hhidden.1).2 hhidden
  · exact fun hnot => ⟨fun h => h.1, fun h => ⟨h, hnot⟩⟩

/-! ### A link beside its directory -/

def linkedRoot : Segment := ⟨['r'], by decide⟩
def linkedDir : Segment := ⟨['d'], by decide⟩
def linkedLink : Segment := ⟨['l'], by decide⟩
def linkedFile : Segment := ⟨['f'], by decide⟩

def linkedReal (path : Path) : Option Path :=
  if path = [linkedRoot] then some [linkedRoot]
  else if path = [linkedRoot, linkedDir] ∨ path = [linkedRoot, linkedLink] then
    some [linkedRoot, linkedDir]
  else if path = [linkedRoot, linkedDir, linkedFile] ∨
      path = [linkedRoot, linkedLink, linkedFile] then
    some [linkedRoot, linkedDir, linkedFile]
  else none

def linkedDirectory (path : Path) : Option (List Segment) :=
  if path = [linkedRoot] then some [linkedDir, linkedLink]
  else if path = [linkedRoot, linkedDir] then some [linkedFile]
  else none

theorem linkedDirectory_cases {path : Path} {names : List Segment}
    (h : linkedDirectory path = some names) :
    path = [linkedRoot] ∧ names = [linkedDir, linkedLink] ∨
      path = [linkedRoot, linkedDir] ∧ names = [linkedFile] := by
  rw [linkedDirectory] at h
  split at h
  · rename_i hpath
    exact .inl ⟨hpath, (Option.some.inj h).symm⟩
  · split at h
    · rename_i hpath
      exact .inr ⟨hpath, (Option.some.inj h).symm⟩
    · cases h

theorem linkedReal_cases {path target : Path} (h : linkedReal path = some target) :
    path = [linkedRoot] ∧ target = [linkedRoot] ∨
      (path = [linkedRoot, linkedDir] ∨ path = [linkedRoot, linkedLink]) ∧
        target = [linkedRoot, linkedDir] ∨ target = [linkedRoot, linkedDir, linkedFile] := by
  rw [linkedReal] at h
  split at h
  · rename_i hpath
    exact .inl ⟨hpath, (Option.some.inj h).symm⟩
  · split at h
    · rename_i hpath
      exact .inr (.inl ⟨hpath, (Option.some.inj h).symm⟩)
    · split at h
      · exact .inr (.inr (Option.some.inj h).symm)
      · cases h

def linkedFiles : FileSystem where
  real := linkedReal
  directory := linkedDirectory
  real_child := by
    intro path target names name hreal hnames hname
    rcases linkedDirectory_cases hnames with ⟨rfl, rfl⟩ | ⟨rfl, rfl⟩
    · rcases linkedReal_cases hreal with ⟨rfl, -⟩ | ⟨-, h⟩ | h
      · rfl
      · exact absurd h (by decide)
      · exact absurd h (by decide)
    · rw [List.mem_singleton.1 hname]
      rcases linkedReal_cases hreal with ⟨-, h⟩ | ⟨rfl | rfl, -⟩ | h
      · exact absurd h (by decide)
      · rfl
      · decide
      · exact absurd h (by decide)
  absent := by
    intro path hreal
    rw [Option.eq_none_iff_forall_ne_some]
    intro names hnames
    rcases linkedDirectory_cases hnames with ⟨rfl, -⟩ | ⟨rfl, -⟩
    · cases hreal
    · cases hreal
  nodup := by
    intro path names hnames
    rcases linkedDirectory_cases hnames with ⟨-, rfl⟩ | ⟨-, rfl⟩
    · decide
    · decide
  directories := [[linkedRoot], [linkedRoot, linkedDir]]
  finite := by
    intro path hsome
    obtain ⟨names, hnames⟩ := Option.isSome_iff_exists.1 hsome
    rcases linkedDirectory_cases hnames with ⟨rfl, -⟩ | ⟨rfl, -⟩
    · decide
    · decide

def linkedHost : Host := ⟨linkedFiles, [[linkedRoot]]⟩

/-- The two orders list the one file by two paths, and a name of two dots and more is refused. -/
theorem walk_faithful_linked :
    linkedHost.Returns .ascending [linkedRoot] (.ok ["d/f".toList]) ∧
      linkedHost.Returns .descending [linkedRoot] (.ok ["l/f".toList]) ∧
      ¬ linkedHost.Faithful [linkedRoot] ∧
      Inside linkedHost.readRoots [linkedRoot, ⟨"..x".toList, by decide⟩] ∧
      ¬ linkedHost.Admits [linkedRoot, ⟨"..x".toList, by decide⟩] := by
  have hascending : linkedHost.Returns .ascending [linkedRoot] (.ok ["d/f".toList]) := ⟨3, rfl⟩
  have hdescending : linkedHost.Returns .descending [linkedRoot] (.ok ["l/f".toList]) := ⟨3, rfl⟩
  refine ⟨hascending, hdescending, fun h => ?_, ⟨[linkedRoot], by decide, by decide⟩, by decide⟩
  have hsame := h.same .ascending .descending _ _ hascending hdescending
  revert hsame
  decide

end FilamentCore.Compiler.HostReads
