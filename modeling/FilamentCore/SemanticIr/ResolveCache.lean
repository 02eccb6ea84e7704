import FilamentCore.Library.Memo
import FilamentCore.SemanticIr.ResolutionChains

/-!
# The cache of `resolve` (crates/semantic-ir/src/rules.rs)

`resolve` keeps what it finds for the reference it is asked for and, without a depth limit, for
every alias target on the way.
-/

namespace FilamentCore.SemanticIr
open FilamentCore.Library
open FilamentCore.Library.Following

/-- What was found for each identity so far. -/
abbrev ResolveCache := Memo String (Option Resolved)

namespace Document

variable (d : Document) (cache : ResolveCache)

/-- What the cache knows of an alias target; it is not asked under a depth limit. -/
def known (target : String) : Option (Option Resolved) :=
  if d.aliasDepth.isNone then cache.get target else none

/-- The walk along aliases of `resolve_walk`: its result, and the targets it passes. -/
def cachedAliases : ℕ → ℕ → List String → Json → Option Resolved × List String
  | 0, _, _, _ => (none, [])
  | steps + 1, hops, seen, current =>
    if !isCoreAlias current && !d.isConstructAlias current then (some (.node current), [])
    else
      match current.getStr "target" with
      | none => (none, [])
      | some target =>
        if target = clockTypeRef then (none, [])
        else
          match nativeScalar target with
          | some scalar => (some (.native scalar), [])
          | none =>
            if seen.contains target || d.aliasDepth.any (fun limit => limit < hops + 1) then
              (none, [])
            else
              match d.known cache target with
              | some result => (result, [])
              | none =>
                match d.typeOf target with
                | none => (none, [target])
                | some next =>
                  let (result, walked) := cachedAliases steps (hops + 1) (target :: seen) next
                  (result, target :: walked)

def resolveWalk (identity : String) : Option Resolved × List String :=
  match d.throughFeatures (d.features.length + 1) [identity] identity with
  | none => (none, [])
  | some (.inl resolved) => (some resolved, [])
  | some (.inr (last, seen)) =>
    match d.typeOf last with
    | none => (none, [])
    | some current => d.cachedAliases cache (d.types.length + 1) 0 seen current

/-- `resolve`, with the cache that it leaves. -/
def resolveCached (identity : String) : Option Resolved × ResolveCache :=
  match cache.get identity with
  | some result => (result, cache)
  | none =>
    let (result, walked) := d.resolveWalk cache identity
    let kept := if d.aliasDepth.isNone then walked.map fun name => (name, result) else []
    (result, (identity, result) :: (kept ++ cache))

def afterResolving (asked : List String) : ResolveCache :=
  asked.foldl (fun cache identity => (d.resolveCached cache identity).2) []

/-- The alias targets that a walk without a cache passes. -/
def passed (identity : String) : List String := (d.resolveWalk [] identity).2

end Document

variable {d : Document} {cache : ResolveCache}

/-! ### The walk with a cache -/

theorem known_nil (target : String) : d.known [] target = none := by
  unfold Document.known
  split <;> rfl

/-- The walk along aliases from an identity. -/
def Document.cachedFrom (d : Document) (cache : ResolveCache) (steps hops : ℕ)
    (seen : List String) (a : String) : Option Resolved × List String :=
  (d.typeOf a).elim (none, []) (d.cachedAliases cache steps hops seen)

theorem cachedFrom_succ (steps hops : ℕ) (seen : List String) (a : String) :
    d.cachedFrom cache (steps + 1) hops seen a =
      match d.nextAlias a with
      | none => (d.aliasEnd a, [])
      | some target =>
        if seen.contains target || d.aliasDepth.any (fun limit => limit < hops + 1) then (none, [])
        else
          match d.known cache target with
          | some result => (result, [])
          | none =>
            let found := d.cachedFrom cache steps (hops + 1) (target :: seen) target
            (found.1, target :: found.2) := by
  unfold Document.cachedFrom Document.nextAlias Document.aliasEnd
  cases ht : d.typeOf a with
  | none => rfl
  | some current =>
    have halias : (!Document.isCoreAlias current && !d.isConstructAlias current) =
        !d.isAlias current := by
      rw [Document.isAlias, Bool.not_or]
    rw [Option.elim_some, Option.bind_some, Option.filter_some, Document.cachedAliases, halias]
    cases d.isAlias current with
    | false => rfl
    | true =>
      simp only [Bool.not_true, Bool.false_eq_true, if_false, if_true, Option.bind_some]
      cases htarget : current.getStr "target" with
      | none => rfl
      | some target =>
        simp only [Option.bind_some, Option.filter_some]
        by_cases hclock : target = clockTypeRef
        · rw [if_pos hclock, hclock, nativeScalar_clock, if_neg (by simp)]
          rfl
        · cases hnative : nativeScalar target with
          | some scalar =>
            have hstop : ¬ (target != clockTypeRef && (some scalar).isNone) = true := by simp
            rw [if_neg hclock, if_neg hstop]
            rfl
          | none =>
            have hgo : (target != clockTypeRef && (none : Option String).isNone) = true := by
              simpa using hclock
            rw [if_neg hclock, if_pos hgo]
            simp only
            split
            · rfl
            · split
              · rfl
              · cases d.typeOf target <;> rfl

theorem cachedFrom_nil (steps hops : ℕ) (seen : List String) (a : String) :
    (d.cachedFrom [] steps hops seen a).1 = (d.typeOf a).bind (d.throughAliases steps hops seen) := by
  induction steps generalizing hops seen a with
  | zero =>
    unfold Document.cachedFrom
    cases d.typeOf a <;> rfl
  | succ steps ih =>
    rw [cachedFrom_succ, throughAliases_succ]
    cases d.nextAlias a with
    | none => rfl
    | some target =>
      simp only [known_nil]
      split
      · rfl
      · exact ih (hops + 1) (target :: seen) target

/-- A walk with a cache is the walk without one, or ends with what the cache knows of a target that
the other passes. -/
theorem cachedFrom_cases (steps hops : ℕ) (seen : List String) (a : String) :
    (∀ x ∈ (d.cachedFrom cache steps hops seen a).2, x ∈ (d.cachedFrom [] steps hops seen a).2) ∧
    ((d.cachedFrom cache steps hops seen a).1 = (d.cachedFrom [] steps hops seen a).1 ∨
      ∃ x ∈ (d.cachedFrom [] steps hops seen a).2,
        d.known cache x = some (d.cachedFrom cache steps hops seen a).1) := by
  induction steps generalizing hops seen a with
  | zero =>
    unfold Document.cachedFrom
    cases d.typeOf a with
    | none => exact ⟨fun _ hx => hx, .inl rfl⟩
    | some current => exact ⟨fun _ hx => hx, .inl rfl⟩
  | succ steps ih =>
    rw [cachedFrom_succ, cachedFrom_succ]
    cases d.nextAlias a with
    | none => exact ⟨fun _ hx => hx, .inl rfl⟩
    | some target =>
      simp only [known_nil]
      split
      · exact ⟨fun _ hx => hx, .inl rfl⟩
      · obtain ⟨hsub, hresult⟩ := ih (hops + 1) (target :: seen) target
        cases hk : d.known cache target with
        | some result => exact ⟨by simp, .inr ⟨target, List.mem_cons_self .., hk⟩⟩
        | none =>
          refine ⟨fun x hx => ?_, hresult.imp_right fun ⟨x, hx, hknown⟩ =>
            ⟨x, List.mem_cons_of_mem _ hx, hknown⟩⟩
          rcases List.mem_cons.1 hx with rfl | hx
          · exact List.mem_cons_self ..
          · exact List.mem_cons_of_mem _ (hsub x hx)

theorem resolveWalk_eq (identity : String) : d.resolveWalk cache identity =
    match d.throughFeatures (d.features.length + 1) [identity] identity with
    | none => (none, [])
    | some (.inl resolved) => (some resolved, [])
    | some (.inr (last, seen)) => d.cachedFrom cache (d.types.length + 1) 0 seen last := by
  unfold Document.resolveWalk Document.cachedFrom
  split
  · rfl
  · rfl
  · rename_i last seen _
    cases d.typeOf last <;> rfl

theorem resolveWalk_nil (identity : String) : (d.resolveWalk [] identity).1 = d.resolve identity := by
  rw [resolveWalk_eq, Document.resolve]
  generalize d.throughFeatures (d.features.length + 1) [identity] identity = found
  rcases found with _ | resolved | ⟨last, seen⟩
  · rfl
  · rfl
  · exact cachedFrom_nil ..

theorem resolveWalk_cases (identity : String) :
    (∀ x ∈ (d.resolveWalk cache identity).2, x ∈ d.passed identity) ∧
    ((d.resolveWalk cache identity).1 = d.resolve identity ∨
      ∃ x ∈ d.passed identity, d.known cache x = some (d.resolveWalk cache identity).1) := by
  rw [← resolveWalk_nil, Document.passed, resolveWalk_eq, resolveWalk_eq]
  split
  · exact ⟨fun _ hx => hx, .inl rfl⟩
  · exact ⟨fun _ hx => hx, .inl rfl⟩
  · exact cachedFrom_cases ..

/-! ### Every order of references -/

/-- The cache holds what a walk without one finds. -/
def Kept (d : Document) (cache : ResolveCache) : Prop :=
  cache.Holds fun identity result => result = d.resolve identity

/-- What a target passed under no depth limit must agree with. -/
def Agreeing (d : Document) : Prop :=
  ∀ identity, ∀ target ∈ d.passed identity, d.resolve target = d.resolve identity

theorem resolveCached_kept (hd : d.aliasDepth.isSome ∨ Agreeing d) (h : Kept d cache)
    (identity : String) : (d.resolveCached cache identity).1 = d.resolve identity ∧
      Kept d (d.resolveCached cache identity).2 := by
  unfold Document.resolveCached
  cases hget : cache.get identity with
  | some result => exact ⟨h identity result hget, h⟩
  | none =>
    obtain ⟨hwalked, hresult⟩ := @resolveWalk_cases d cache identity
    have hresult : (d.resolveWalk cache identity).1 = d.resolve identity := by
      rcases hresult with hresult | ⟨x, hx, hknown⟩
      · exact hresult
      · unfold Document.known at hknown
        split at hknown
        · rename_i hdepth
          rw [Option.isNone_iff_eq_none] at hdepth
          rw [hdepth] at hd
          rw [h x _ hknown, (hd.resolve_left (by simp)) identity x hx]
        · cases hknown
    refine ⟨hresult, Memo.Holds.cons (h.append fun entry hentry => ?_) hresult⟩
    split at hentry
    · rename_i hdepth
      rw [Option.isNone_iff_eq_none] at hdepth
      rw [hdepth] at hd
      obtain ⟨name, hname, rfl⟩ := List.mem_map.1 hentry
      rw [hresult, hd.resolve_left (by simp) identity name (hwalked name hname)]
    · cases hentry

theorem afterResolving_kept (hd : d.aliasDepth.isSome ∨ Agreeing d) (asked : List String) :
    Kept d (d.afterResolving asked) :=
  Memo.Holds.nil.foldl fun _ identity h => (resolveCached_kept hd h identity).2

/-! ### What a walk passes -/

theorem cachedFrom_passed {steps hops : ℕ} {seen : List String} {a t : String}
    (h : t ∈ (d.cachedFrom [] steps hops seen a).2) : ∃ mid : List String,
      ((a :: (mid ++ [t])).IsChain fun x y => d.nextAlias x = some y) ∧
        ∀ x ∈ mid ++ [t], x ∉ seen := by
  induction steps generalizing hops seen a with
  | zero =>
    unfold Document.cachedFrom at h
    cases ht : d.typeOf a with
    | none => simp [ht] at h
    | some current =>
      rw [ht] at h
      cases h
  | succ steps ih =>
    rw [cachedFrom_succ] at h
    cases hn : d.nextAlias a with
    | none =>
      rw [hn] at h
      cases h
    | some target =>
      simp only [hn, known_nil] at h
      split at h
      · cases h
      · rename_i hin
        rw [Bool.not_eq_true, Bool.or_eq_false_iff, List.contains_eq_mem] at hin
        have htarget : target ∉ seen := by simpa using hin.1
        rcases List.mem_cons.1 h with rfl | h
        · exact ⟨[], by simpa using hn, by simpa using htarget⟩
        · obtain ⟨mid, hrun, hseen⟩ := ih h
          refine ⟨target :: mid, List.isChain_cons_cons.2 ⟨hn, hrun⟩, fun x hx => ?_⟩
          rcases List.mem_cons.1 hx with rfl | hx
          · exact htarget
          · exact fun hm => hseen x hx (List.mem_cons_of_mem _ hm)

theorem mem_cachedFrom (hdepth : d.aliasDepth = none) {steps hops : ℕ} {seen path : List String}
    {a : String} (hc : Chain d.nextAlias a path) (hlength : path.length ≤ steps)
    (hseen : ∀ x ∈ path.tail, x ∉ seen) {x : String} (hx : x ∈ path.tail) :
    x ∈ (d.cachedFrom [] steps hops seen a).2 := by
  induction steps generalizing hops seen a path with
  | zero =>
    obtain ⟨rest, rfl⟩ := hc.head
    cases hlength
  | succ steps ih =>
    have hnodup := hc.nodup
    cases hn : d.nextAlias a with
    | none =>
      obtain rfl := (chain_stop hn).1 hc
      cases hx
    | some target =>
      obtain ⟨rest, rfl, hrest⟩ := (chain_next hn).1 hc
      obtain ⟨rest', rfl⟩ := hrest.head
      have htarget := hseen target (List.mem_cons_self ..)
      have hout : (seen.contains target || d.aliasDepth.any (fun limit => limit < hops + 1)) =
          false := by
        rw [hdepth, Bool.or_eq_false_iff]
        exact ⟨by simpa using htarget, rfl⟩
      rw [cachedFrom_succ]
      simp only [hn, known_nil, hout, Bool.false_eq_true, if_false]
      rcases List.mem_cons.1 hx with rfl | hx
      · exact List.mem_cons_self ..
      · refine List.mem_cons_of_mem _ (ih hrest (by simpa using hlength) (fun y hy hm => ?_) hx)
        rcases List.mem_cons.1 hm with rfl | hm
        · exact (List.nodup_cons.1 (List.nodup_cons.1 hnodup).2).1 hy
        · exact hseen y (List.mem_cons_of_mem _ hy) hm

theorem passed_spec {a t : String} (h : t ∈ d.passed a) : ∃ features last mid,
    Chain d.nextFeature a features ∧ features.getLast? = some last ∧ Plain d last ∧
      ((last :: (mid ++ [t])).IsChain fun x y => d.nextAlias x = some y) ∧
      ∀ x ∈ mid ++ [t], x ∉ features := by
  rw [Document.passed, resolveWalk_eq] at h
  split at h
  · cases h
  · cases h
  · rename_i last seen hthrough
    obtain ⟨features, last', hc, -, -, hlast, hend⟩ := throughFeatures_iff.1 hthrough
    rcases hend with ⟨_, -, hfound⟩ | ⟨hplain, hfound⟩
    · cases hfound
    · cases hfound
      obtain ⟨mid, hrun, hseen⟩ := cachedFrom_passed h
      refine ⟨features, last, mid, hc, hlast, hplain, hrun, fun x hx hm => hseen x hx ?_⟩
      obtain ⟨rest, rfl⟩ := hc.head
      simpa [or_comm] using hm

theorem mem_passed (hdepth : d.aliasDepth = none) {a x : String} {path : List String}
    (hplain : Plain d a) (hc : Chain d.nextAlias a path) (hx : x ∈ path.tail) :
    x ∈ d.passed a := by
  have hnodup := hc.nodup
  have hthrough : d.throughFeatures (d.features.length + 1) [a] a = some (.inr (a, [] ++ [a])) :=
    throughFeatures_iff.2
      ⟨[a], a, .stop hplain.nextFeature, by simp, by simp, rfl, .inr ⟨hplain, rfl⟩⟩
  rw [Document.passed, resolveWalk_eq, hthrough]
  refine mem_cachedFrom hdepth hc (chain_aliases_length hc) (fun y hy hm => ?_) hx
  obtain ⟨rest, rfl⟩ := hc.head
  rw [List.nil_append, List.mem_singleton] at hm
  rw [hm] at hy
  exact (List.nodup_cons.1 hnodup).1 hy

/-! ### Which documents resolve one way -/

/-- The chains from an alias target that names a feature lead where the chains of every walk that
passes the target lead. -/
def FeaturesAgree (d : Document) : Prop :=
  ∀ identity, ∀ target ∈ d.passed identity, (d.fieldOf target).isSome →
    ∀ r, ResolvesTo d target r ↔ ResolvesTo d identity r

theorem nextFeature_isSome {a b : String} (h : d.nextFeature a = some b) :
    (d.fieldOf a).isSome := by
  unfold Document.nextFeature at h
  split at h
  · cases h
  · obtain ⟨field, hfield, -⟩ := Option.bind_eq_some_iff.1 h
    rw [hfield]
    rfl

theorem FeaturesAgree.agreeing (hdepth : d.aliasDepth = none) (h : FeaturesAgree d) :
    Agreeing d := by
  intro i t ht
  by_cases hfield : (d.fieldOf t).isSome
  · exact Option.ext fun r => by rw [resolve_iff, resolve_iff, h i t ht hfield r]
  obtain ⟨features, last, mid, hc, hlast, hplain, hrun, hfresh⟩ := passed_spec ht
  have htplain : Plain d t := by
    obtain ⟨b, hb⟩ : ∃ b, d.nextAlias b = some t := by
      have hpair := (List.isChain_append.1 (show ((last :: mid) ++ [t]).IsChain _ from hrun)).2.2
      exact ⟨(last :: mid).getLast (List.cons_ne_nil _ _),
        hpair _ (List.getLast?_eq_getLast_of_ne_nil _) t rfl⟩
    obtain ⟨-, -, -, -, hclock, hnative⟩ := nextAlias_eq_some.1 hb
    exact ⟨hclock, hnative, Option.not_isSome_iff_eq_none.1 hfield⟩
  refine Option.ext fun r => ⟨fun hr => ?_, fun hr => ?_⟩
  · -- the target resolves: its chain comes back to no feature on the way to it
    obtain ⟨path, hpath, -, hend⟩ := htplain.resolve_iff.1 hr
    obtain ⟨rest, rfl⟩ := hpath.head
    have hwhole := hpath.prepend hrun
    have hgetLast : (last :: (mid ++ t :: rest)).getLast? = (t :: rest).getLast? := by
      rw [← List.cons_append, List.getLast?_append_of_ne_nil _ (List.cons_ne_nil _ _)]
    refine SemanticIr.resolve_iff.2 (.along hc hlast hplain hwhole (fun x hx hm => ?_)
      (by simp [hdepth]) (by rw [hgetLast, hend]))
    have hrest : x ∈ rest := by
      rcases List.mem_append.1 hx with hx | hx
      · exact absurd hm (hfresh x (List.mem_append_left _ hx))
      · rcases List.mem_cons.1 hx with rfl | hx
        · exact absurd hm (hfresh x (List.mem_append_right _ (List.mem_singleton_self x)))
        · exact hx
    obtain ⟨before, after, hsplit⟩ := List.append_of_mem hm
    have hsuffix := hc.suffix hsplit
    rw [hsplit, List.getLast?_append_of_ne_nil _ (List.cons_ne_nil _ _)] at hlast
    have hfeature : (d.fieldOf x).isSome := by
      cases after with
      | nil =>
        rw [List.getLast?_singleton, Option.some.injEq] at hlast
        rw [← hlast] at hwhole hx
        exact absurd hx (List.nodup_cons.1 hwhole.nodup).1
      | cons y after => exact nextFeature_isSome (hc.next_isSome hsplit)
    -- the target named `x` resolves as `t` does, and its own walk comes back to it
    have hresolve := (h t x (mem_passed hdepth htplain hpath hrest) hfeature r).2
      (SemanticIr.resolve_iff.1 hr)
    rcases hresolve with
      ⟨hcx, hlastx, hscalar, -⟩ | ⟨hcx, hlastx, -, hca, hseen, -, -⟩
    · rw [hcx.unique hsuffix, hlast, Option.some.injEq] at hlastx
      rw [← hlastx, hplain.notNative] at hscalar
      cases hscalar
    · rw [hcx.unique hsuffix] at hlastx hseen
      rw [hlast, Option.some.injEq] at hlastx
      rw [← hlastx] at hca
      rw [hca.unique hwhole] at hseen
      exact hseen x hx (List.mem_cons_self ..)
  · rcases SemanticIr.resolve_iff.1 hr with
      ⟨hc', hlast', hscalar, -⟩ | ⟨hc', hlast', -, hca, -, -, hend⟩
    · rw [hc'.unique hc, hlast, Option.some.injEq] at hlast'
      rw [← hlast', hplain.notNative] at hscalar
      cases hscalar
    · rw [hc'.unique hc, hlast, Option.some.injEq] at hlast'
      rw [← hlast'] at hca
      obtain ⟨rest, hwhole⟩ := hca.along hrun
      have hpath := @Chain.suffix _ _ _ _ (last :: mid) rest t hca hwhole
      rw [hwhole, ← List.cons_append,
        List.getLast?_append_of_ne_nil _ (List.cons_ne_nil _ _)] at hend
      exact htplain.resolve_iff.2 ⟨_, hpath, by simp [hdepth], hend⟩

theorem resolveCached_passed (hdepth : d.aliasDepth = none) {a t : String} (ht : t ∈ d.passed a) :
    (d.resolveCached (d.afterResolving [a]) t).1 = d.resolve a := by
  have hcache : d.afterResolving [a] =
      (a, d.resolve a) :: (((d.passed a).map fun name => (name, d.resolve a)) ++ []) := by
    unfold Document.afterResolving Document.passed
    rw [List.foldl_cons, List.foldl_nil, Document.resolveCached, ← resolveWalk_nil, hdepth]
    rfl
  have hget : (d.afterResolving [a]).get t = some (d.resolve a) := by
    have hmem : t ∈ ((d.passed a).map fun name => (name, d.resolve a)).map Prod.fst := by
      simpa using ht
    rw [hcache, Memo.get_cons, Memo.get_append hmem]
    split
    · rfl
    · obtain ⟨found, hfound⟩ := Option.isSome_iff_exists.1 (Memo.get_isSome hmem)
      obtain ⟨name, -, heq⟩ := List.mem_map.1 (Memo.mem_of_get hfound)
      rw [hfound, ← (Prod.mk.inj heq).2]
  rw [Document.resolveCached, hget]

/-- Resolution is the same after every history exactly under a depth limit, or where the chains
from each alias target that names a feature agree with those of the walks over it. -/
theorem resolveCached_iff (d : Document) :
    (∀ asked identity, (d.resolveCached (d.afterResolving asked) identity).1 =
      d.resolve identity) ↔ d.aliasDepth.isSome ∨ FeaturesAgree d := by
  constructor
  · intro h
    cases hdepth : d.aliasDepth with
    | some limit => exact .inl rfl
    | none =>
      refine .inr fun a t ht _ r => ?_
      rw [← resolve_iff, ← resolve_iff, ← h [a] t, resolveCached_passed hdepth ht]
  · intro h asked identity
    have hd : d.aliasDepth.isSome ∨ Agreeing d := by
      cases hdepth : d.aliasDepth with
      | some limit => exact .inl rfl
      | none =>
        rw [hdepth] at h
        exact .inr ((h.resolve_left (by simp)).agreeing hdepth)
    exact (resolveCached_kept hd (afterResolving_kept hd asked) identity).1

/-! ### A target that names a field -/

def aliasedField : Document where
  bundle := .null
  ir := .object []
  types := [
    .object [("identity", .str "ix://acme/pkg/A"), ("kind", .str "alias"),
      ("target", .str "ix://acme/pkg/F")],
    .object [("identity", .str "ix://acme/pkg/R"), ("kind", .str "record"),
      ("fields", .array [.object [("identity", .str "ix://acme/pkg/F"),
        ("typeRef", .str "ix://quire/native/String")]])]]
  aliasDepth := none

/-- The field resolves to its scalar, and to nothing once the alias was asked for. -/
theorem resolveCached_aliasedField :
    (aliasedField.resolveCached (aliasedField.afterResolving []) "ix://acme/pkg/F").1 =
        some (.native "string") ∧
      (aliasedField.resolveCached (aliasedField.afterResolving ["ix://acme/pkg/A"])
        "ix://acme/pkg/F").1 = none ∧
      aliasedField.resolve "ix://acme/pkg/F" = some (.native "string") := by
  decide +kernel

end FilamentCore.SemanticIr
