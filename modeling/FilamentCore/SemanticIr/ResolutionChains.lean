import FilamentCore.Library.Chains
import FilamentCore.SemanticIr.Resolution

/-!
# The chains of a resolution

`resolve` goes through features to the last type reference, and from there along aliases to the
definition or the scalar at the end.
-/

namespace FilamentCore.SemanticIr
open FilamentCore.Library
open FilamentCore.Library.Following

namespace Document

variable (d : Document)

def nextFeature (identity : String) : Option String :=
  if identity = clockTypeRef ∨ (nativeScalar identity).isSome then none
  else (d.fieldOf identity).bind (·.node.getStr "typeRef")

def nextAlias (identity : String) : Option String :=
  (((d.typeOf identity).filter d.isAlias).bind (·.getStr "target")).filter fun target =>
    target != clockTypeRef && (nativeScalar target).isNone

def aliasEnd (identity : String) : Option Resolved :=
  (d.typeOf identity).bind fun current =>
    if d.isAlias current then
      ((current.getStr "target").bind nativeScalar).map .native
    else some (.node current)

end Document

variable {d : Document}

theorem nativeScalar_clock : nativeScalar clockTypeRef = none := by decide

/-! ### Along aliases -/

theorem throughAliases_succ (steps hops : ℕ) (seen : List String) (a : String) :
    (d.typeOf a).bind (d.throughAliases (steps + 1) hops seen) =
      match d.nextAlias a with
      | none => d.aliasEnd a
      | some target =>
        if seen.contains target || d.aliasDepth.any (fun limit => limit < hops + 1) then none
        else (d.typeOf target).bind (d.throughAliases steps (hops + 1) (target :: seen)) := by
  unfold Document.nextAlias Document.aliasEnd
  cases ht : d.typeOf a with
  | none => rfl
  | some current =>
    rw [Option.bind_some, Option.bind_some, Option.filter_some, Document.throughAliases]
    have halias : (!Document.isCoreAlias current && !d.isConstructAlias current) =
        !d.isAlias current := by
      rw [Document.isAlias, Bool.not_or]
    rw [halias]
    cases d.isAlias current with
    | false => rfl
    | true =>
      simp only [Bool.not_true, Bool.false_eq_true, if_false, if_true, Option.bind_some]
      cases htarget : current.getStr "target" with
      | none => rfl
      | some target =>
        simp only [Option.bind_some, Option.filter_some]
        by_cases hclock : target = clockTypeRef
        · rw [if_pos hclock, hclock, nativeScalar_clock, if_neg (by simp)]
          rfl
        · cases hnative : nativeScalar target with
          | some scalar =>
            have hstop : ¬ (target != clockTypeRef && (some scalar).isNone) = true := by simp
            rw [if_neg hclock, if_neg hstop]
            rfl
          | none =>
            have hgo : (target != clockTypeRef && (none : Option String).isNone) = true := by
              simpa using hclock
            rw [if_neg hclock, if_pos hgo]
            simp only
            split
            · rfl
            · cases d.typeOf target <;> rfl

/-- The walk along aliases ends with a result exactly at the end of a chain that meets nothing
seen before and is within the depth. -/
theorem throughAliases_iff {steps hops : ℕ} {seen : List String} {a : String} {r : Resolved} :
    (d.typeOf a).bind (d.throughAliases steps hops seen) = some r ↔
      ∃ path, Chain d.nextAlias a path ∧ path.length ≤ steps ∧ (∀ x ∈ path.tail, x ∉ seen) ∧
        (∀ limit ∈ d.aliasDepth, path.length = 1 ∨ hops + path.length ≤ limit + 1) ∧
        path.getLast?.bind d.aliasEnd = some r := by
  induction steps generalizing hops seen a with
  | zero =>
    have hnone : (d.typeOf a).bind (d.throughAliases 0 hops seen) = none := by
      cases d.typeOf a <;> rfl
    rw [hnone]
    constructor
    · intro h
      cases h
    · rintro ⟨path, hc, hlength, -⟩
      obtain ⟨rest, rfl⟩ := hc.head
      cases hlength
  | succ steps ih =>
    rw [throughAliases_succ]
    cases hn : d.nextAlias a with
    | none =>
      simp only
      constructor
      · intro h
        exact ⟨[a], .stop hn, Nat.succ_le_succ (Nat.zero_le _), by simp, fun _ _ => .inl rfl, h⟩
      · rintro ⟨path, hc, -, -, -, h⟩
        obtain rfl := (chain_stop hn).1 hc
        exact h
    | some target =>
      simp only
      split
      · rename_i hout
        rw [Bool.or_eq_true, List.contains_iff_mem, Option.any_eq_true] at hout
        refine iff_of_false (by simp) ?_
        rintro ⟨path, hc, -, hseen, hdepth, -⟩
        obtain ⟨rest, rfl, hrest⟩ := (chain_next hn).1 hc
        obtain ⟨rest', rfl⟩ := hrest.head
        rcases hout with hmem | ⟨limit, hlimit, hlt⟩
        · exact hseen target (List.mem_cons_self ..) hmem
        · have hbound := hdepth limit hlimit
          simp only [List.length_cons, decide_eq_true_eq] at hbound hlt
          omega
      · rename_i hin
        rw [Bool.not_eq_true, Bool.or_eq_false_iff] at hin
        obtain ⟨hmem, hlimits⟩ := hin
        rw [ih]
        constructor
        · rintro ⟨path, hc, hlength, hseen, hdepth, hend⟩
          obtain ⟨rest, rfl⟩ := hc.head
          refine ⟨a :: target :: rest, .step hn hc, by simpa using hlength, ?_, ?_, ?_⟩
          · intro x hx
            rcases List.mem_cons.1 hx with rfl | hx
            · simpa using hmem
            · exact fun hm => hseen x hx (List.mem_cons_of_mem _ hm)
          · intro limit hlimit
            have hbound := hdepth limit hlimit
            have hone : ¬ limit < hops + 1 := by
              rw [Option.mem_def.1 hlimit] at hlimits
              simpa using hlimits
            simp only [List.length_cons] at hbound ⊢
            omega
          · rwa [List.getLast?_cons_cons]
        · rintro ⟨path, hc, hlength, hseen, hdepth, hend⟩
          have hnodup := hc.nodup
          obtain ⟨rest, rfl, hrest⟩ := (chain_next hn).1 hc
          obtain ⟨rest', rfl⟩ := hrest.head
          refine ⟨target :: rest', hrest, by simpa using hlength, ?_, ?_, ?_⟩
          · intro x hx hm
            rcases List.mem_cons.1 hm with rfl | hm
            · exact (List.nodup_cons.1 (List.nodup_cons.1 hnodup).2).1 hx
            · exact hseen x (List.mem_cons_of_mem _ hx) hm
          · intro limit hlimit
            have hbound := hdepth limit hlimit
            simp only [List.length_cons] at hbound ⊢
            omega
          · rwa [List.getLast?_cons_cons] at hend

/-! ### Through features -/

/-- What the walk through features stops with at an identity. -/
def FeatureEnd (d : Document) (seen : List String) (a : String)
    (found : Resolved ⊕ String × List String) : Prop :=
  (∃ scalar, nativeScalar a = some scalar ∧ found = .inl (.native scalar)) ∨
    Plain d a ∧ found = .inr (a, seen)

theorem throughFeatures_stop {steps : ℕ} {seen : List String} {a : String}
    {found : Resolved ⊕ String × List String} (hn : d.nextFeature a = none) :
    d.throughFeatures (steps + 1) seen a = some found ↔ FeatureEnd d seen a found := by
  unfold Document.nextFeature at hn
  rw [Document.throughFeatures]
  unfold FeatureEnd
  split
  · rename_i hclock
    refine iff_of_false (by simp) ?_
    rintro (⟨scalar, hnative, -⟩ | ⟨hplain, -⟩)
    · rw [hclock, nativeScalar_clock] at hnative
      cases hnative
    · exact hplain.notClock hclock
  · rename_i hclock
    split
    · rename_i scalar hnative
      constructor
      · intro h
        exact .inl ⟨scalar, hnative, (Option.some.inj h).symm⟩
      · rintro (⟨scalar', hnative', rfl⟩ | ⟨hplain, -⟩)
        · rw [hnative, Option.some.injEq] at hnative'
          rw [hnative']
        · rw [hplain.notNative] at hnative
          cases hnative
    · rename_i hnative
      split
      · rename_i hfield
        constructor
        · intro h
          exact .inr ⟨⟨hclock, hnative, hfield⟩, (Option.some.inj h).symm⟩
        · rintro (⟨scalar, hnative', -⟩ | ⟨-, rfl⟩)
          · rw [hnative] at hnative'
            cases hnative'
          · rfl
      · rename_i field hfield
        rw [if_neg (by simp [hclock, hnative]), hfield, Option.bind_some] at hn
        rw [hn]
        refine iff_of_false (by simp) ?_
        rintro (⟨scalar, hnative', -⟩ | ⟨hplain, -⟩)
        · rw [hnative] at hnative'
          cases hnative'
        · rw [hplain.notFeature] at hfield
          cases hfield

theorem throughFeatures_next {steps : ℕ} {seen : List String} {a b : String}
    (hs : d.nextFeature a = some b) : d.throughFeatures (steps + 1) seen a =
      if seen.contains b then none else d.throughFeatures steps (b :: seen) b := by
  unfold Document.nextFeature at hs
  split at hs
  · cases hs
  · rename_i hspecial
    rw [not_or, Option.not_isSome_iff_eq_none] at hspecial
    obtain ⟨field, hfield, htype⟩ := Option.bind_eq_some_iff.1 hs
    rw [Document.throughFeatures, if_neg hspecial.1]
    simp only [hspecial.2, hfield, htype]

/-- The walk through features stops with a result exactly at the end of a chain that meets nothing
seen before. -/
theorem throughFeatures_iff {steps : ℕ} {seen : List String} {a : String}
    {found : Resolved ⊕ String × List String} :
    d.throughFeatures steps seen a = some found ↔
      ∃ path last, Chain d.nextFeature a path ∧ path.length ≤ steps ∧
        (∀ x ∈ path.tail, x ∉ seen) ∧ path.getLast? = some last ∧
        FeatureEnd d (path.tail.reverse ++ seen) last found := by
  induction steps generalizing seen a with
  | zero =>
    rw [Document.throughFeatures]
    refine iff_of_false (by simp) ?_
    rintro ⟨path, last, hc, hlength, -⟩
    obtain ⟨rest, rfl⟩ := hc.head
    cases hlength
  | succ steps ih =>
    cases hn : d.nextFeature a with
    | none =>
      rw [throughFeatures_stop hn]
      constructor
      · intro h
        exact ⟨[a], a, .stop hn, Nat.succ_le_succ (Nat.zero_le _), by simp, rfl, h⟩
      · rintro ⟨path, last, hc, -, -, hlast, h⟩
        obtain rfl := (chain_stop hn).1 hc
        obtain rfl := Option.some.inj hlast
        exact h
    | some b =>
      rw [throughFeatures_next hn]
      split
      · rename_i hmem
        refine iff_of_false (by simp) ?_
        rintro ⟨path, last, hc, -, hseen, -⟩
        obtain ⟨rest, rfl, hrest⟩ := (chain_next hn).1 hc
        obtain ⟨rest', rfl⟩ := hrest.head
        exact hseen b (List.mem_cons_self ..) (List.contains_iff_mem.1 hmem)
      · rename_i hmem
        rw [ih]
        constructor
        · rintro ⟨path, last, hc, hlength, hseen, hlast, hend⟩
          obtain ⟨rest, rfl⟩ := hc.head
          refine ⟨a :: b :: rest, last, .step hn hc, by simpa using hlength, fun x hx => ?_, ?_, ?_⟩
          · rcases List.mem_cons.1 hx with rfl | hx
            · exact mt List.contains_iff_mem.2 hmem
            · exact fun hm => hseen x hx (List.mem_cons_of_mem _ hm)
          · rwa [List.getLast?_cons_cons]
          · simpa using hend
        · rintro ⟨path, last, hc, hlength, hseen, hlast, hend⟩
          have hnodup := hc.nodup
          obtain ⟨rest, rfl, hrest⟩ := (chain_next hn).1 hc
          obtain ⟨rest', rfl⟩ := hrest.head
          refine ⟨b :: rest', last, hrest, by simpa using hlength, fun x hx hm => ?_, ?_, ?_⟩
          · rcases List.mem_cons.1 hm with rfl | hm
            · exact (List.nodup_cons.1 (List.nodup_cons.1 hnodup).2).1 hx
            · exact hseen x (List.mem_cons_of_mem _ hx) hm
          · rwa [List.getLast?_cons_cons] at hlast
          · simpa using hend

/-! ### Resolving -/

theorem chain_features_length {a : String} {path : List String}
    (h : Chain d.nextFeature a path) : path.length ≤ d.features.length + 1 := by
  let names := d.features.filterMap fun feature => feature.node.getStr "identity"
  have hle := @Chain.length_le _ _ _ _ names h fun x y hs => ?_
  · have hnames : names.length ≤ d.features.length := List.length_filterMap_le ..
    omega
  · unfold Document.nextFeature at hs
    split at hs
    · cases hs
    · obtain ⟨field, hfield, -⟩ := Option.bind_eq_some_iff.1 hs
      have hidentity := List.find?_some hfield
      exact List.mem_filterMap.2 ⟨field, List.mem_of_find?_eq_some hfield, by simpa using hidentity⟩

theorem nextAlias_eq_some {a b : String} : d.nextAlias a = some b ↔ ∃ current,
    d.typeOf a = some current ∧ d.isAlias current = true ∧ current.getStr "target" = some b ∧
      b ≠ clockTypeRef ∧ nativeScalar b = none := by
  simp only [Document.nextAlias, Option.filter_eq_some_iff, Option.bind_eq_some_iff,
    Bool.and_eq_true, bne_iff_ne, Option.isNone_iff_eq_none]
  constructor
  · rintro ⟨⟨current, ⟨htype, halias⟩, htarget⟩, hclock, hnative⟩
    exact ⟨current, htype, halias, htarget, hclock, hnative⟩
  · rintro ⟨current, htype, halias, htarget, hclock, hnative⟩
    exact ⟨⟨current, ⟨htype, halias⟩, htarget⟩, hclock, hnative⟩

theorem chain_aliases_length {a : String} {path : List String}
    (h : Chain d.nextAlias a path) : path.length ≤ d.types.length + 1 := by
  let names := d.types.filterMap fun definition => definition.getStr "identity"
  have hle := @Chain.length_le _ _ _ _ names h fun x y hs => ?_
  · have hnames : names.length ≤ d.types.length := List.length_filterMap_le ..
    omega
  · obtain ⟨current, htype, -⟩ := nextAlias_eq_some.1 hs
    have hidentity := List.find?_some htype
    exact List.mem_filterMap.2 ⟨current, List.mem_of_find?_eq_some htype, by simpa using hidentity⟩

/-- What a reference resolves to along its chains: through features to a scalar, or to the
identity of no feature from which no alias leads back. -/
inductive ResolvesTo (d : Document) (a : String) (r : Resolved) : Prop
  | scalar {features : List String} {last scalar : String} :
    Chain d.nextFeature a features → features.getLast? = some last →
    nativeScalar last = some scalar → r = .native scalar → ResolvesTo d a r
  | along {features aliases : List String} {last : String} :
    Chain d.nextFeature a features → features.getLast? = some last → Plain d last →
    Chain d.nextAlias last aliases → (∀ x ∈ aliases.tail, x ∉ features) →
    (∀ limit ∈ d.aliasDepth, aliases.length ≤ limit + 1) →
    aliases.getLast?.bind d.aliasEnd = some r → ResolvesTo d a r

/-- `resolve` finds what the chains lead to, and never stops short of it. -/
theorem resolve_iff {a : String} {r : Resolved} : d.resolve a = some r ↔ ResolvesTo d a r := by
  have hhead : ∀ {features : List String}, Chain d.nextFeature a features →
      ∀ x, x ∈ features.tail.reverse ++ [a] ↔ x ∈ features := by
    intro features hc x
    obtain ⟨rest, rfl⟩ := hc.head
    simp [or_comm]
  have hfirst : ∀ {features : List String}, Chain d.nextFeature a features →
      ∀ x ∈ features.tail, x ∉ [a] := by
    intro features hc x hx hm
    have hnodup := hc.nodup
    obtain ⟨rest, rfl⟩ := hc.head
    rw [List.mem_singleton.1 hm] at hx
    exact (List.nodup_cons.1 hnodup).1 hx
  have hlimit : ∀ path : List String, path ≠ [] → ∀ limit,
      (path.length = 1 ∨ 0 + path.length ≤ limit + 1) ↔ path.length ≤ limit + 1 := by
    intro path hne limit
    have hpos := List.length_pos_iff.2 hne
    omega
  constructor
  · intro h
    unfold Document.resolve at h
    split at h
    · cases h
    · rename_i found hthrough
      obtain ⟨features, last, hc, -, -, hlast, hend⟩ := throughFeatures_iff.1 hthrough
      rcases hend with ⟨scalar, hscalar, hfound⟩ | ⟨-, hfound⟩
      · cases hfound
        exact .scalar hc hlast hscalar (Option.some.inj h).symm
      · cases hfound
    · rename_i identity seen hthrough
      obtain ⟨features, last, hc, -, -, hlast, hend⟩ := throughFeatures_iff.1 hthrough
      rcases hend with ⟨_, -, hfound⟩ | ⟨hplain, hfound⟩
      · cases hfound
      · cases hfound
        obtain ⟨aliases, hca, -, hseen, hdepth, hlastAlias⟩ := throughAliases_iff.1 h
        have hne : aliases ≠ [] := by
          obtain ⟨rest, rfl⟩ := hca.head
          exact List.cons_ne_nil _ _
        exact .along hc hlast hplain hca (fun x hx hm => hseen x hx ((hhead hc x).2 hm))
          (fun limit hmem => (hlimit aliases hne limit).1 (hdepth limit hmem)) hlastAlias
  · rintro (⟨hc, hlast, hscalar, rfl⟩ | ⟨hc, hlast, hplain, hca, hseen, hdepth, hlastAlias⟩)
    · have hthrough := throughFeatures_iff.2
        ⟨_, _, hc, chain_features_length hc, hfirst hc, hlast, .inl ⟨_, hscalar, rfl⟩⟩
      unfold Document.resolve
      rw [hthrough]
    · rename_i features aliases last
      have hthrough := throughFeatures_iff.2
        ⟨_, _, hc, chain_features_length hc, hfirst hc, hlast, .inr ⟨hplain, rfl⟩⟩
      have hne : aliases ≠ [] := by
        obtain ⟨rest, rfl⟩ := hca.head
        exact List.cons_ne_nil _ _
      unfold Document.resolve
      rw [hthrough]
      exact throughAliases_iff.2 ⟨aliases, hca, chain_aliases_length hca,
        fun x hx hm => hseen x hx ((hhead hc x).1 hm),
        fun limit hmem => (hlimit aliases hne limit).2 (hdepth limit hmem), hlastAlias⟩

theorem Plain.nextFeature {a : String} (h : Plain d a) : d.nextFeature a = none := by
  unfold Document.nextFeature
  rw [h.notFeature]
  split <;> rfl

theorem Plain.resolve_iff {a : String} {r : Resolved} (h : Plain d a) :
    d.resolve a = some r ↔ ∃ aliases, Chain d.nextAlias a aliases ∧
      (∀ limit ∈ d.aliasDepth, aliases.length ≤ limit + 1) ∧
      aliases.getLast?.bind d.aliasEnd = some r := by
  have hstop : Chain d.nextFeature a [a] := .stop h.nextFeature
  rw [SemanticIr.resolve_iff]
  constructor
  · rintro (⟨hc, hlast, hscalar, -⟩ | ⟨hc, hlast, -, hca, -, hdepth, hend⟩)
    · rw [hc.unique hstop, List.getLast?_singleton, Option.some.injEq] at hlast
      rw [← hlast, h.notNative] at hscalar
      cases hscalar
    · rw [hc.unique hstop, List.getLast?_singleton, Option.some.injEq] at hlast
      exact ⟨_, hlast ▸ hca, hdepth, hend⟩
  · rintro ⟨aliases, hca, hdepth, hend⟩
    refine .along hstop rfl h hca (fun x hx hm => ?_) hdepth hend
    have hnodup := hca.nodup
    obtain ⟨rest, rfl⟩ := hca.head
    rw [List.mem_singleton.1 hm] at hx
    exact (List.nodup_cons.1 hnodup).1 hx

end FilamentCore.SemanticIr
