import FilamentCore.Library.Following
import FilamentCore.SemanticIr.UnitShapes

/-!
# What a silent unit graph promises (FR-146)

When no dimension or unit rule reports anything, the dimensions and the units are acyclic, the
targets of a unit end at the one root of its dimension, and the conversions between two units of
one dimension are invertible.
-/

namespace FilamentCore.SemanticIr
namespace UnitGraph
open FilamentCore.Library
open FilamentCore.Library.Following

/-! ### What a silent walk says -/

theorem distinct_eq_nil {issues : List Issue} (h : distinct [] issues = []) : issues = [] := by
  cases issues with
  | nil => rfl
  | cons issue issues => simp [distinct] at h

theorem identityIssues_eq_nil {collection singular package : String} {seen : List String}
    {nodes : List (Json × ℕ)}
    (h : identityIssues collection singular package seen nodes = []) :
    (nodes.filterMap fun node => text node.1 "identity").Nodup ∧
      ∀ identity ∈ nodes.filterMap fun node => text node.1 "identity", identity ∉ seen := by
  induction nodes generalizing seen with
  | nil => simp
  | cons node nodes ih =>
    obtain ⟨node, position⟩ := node
    simp only [identityIssues] at h
    cases hi : text node "identity" with
    | none =>
      rw [hi] at h
      rw [List.filterMap_cons_none (by exact hi)]
      exact ih h
    | some identity =>
      rw [hi] at h
      simp only [List.append_eq_nil_iff, Issue.emitIf_eq_nil] at h
      obtain ⟨⟨hnew, -⟩, hrest⟩ := h
      obtain ⟨hn, hseen⟩ := ih hrest
      rw [List.filterMap_cons_some (by exact hi)]
      refine ⟨List.nodup_cons.2 ⟨fun hm => hseen _ hm (List.mem_cons_self ..), hn⟩, ?_⟩
      intro other ho
      rcases List.mem_cons.1 ho with rfl | ho
      · simpa using hnew
      · exact fun hs => hseen other ho (List.mem_cons_of_mem _ hs)

theorem termIssues_eq_nil {dimensions : List Json} {termsAt : String} {previous : Option String}
    {terms : List (Json × ℕ)} (h : termIssues dimensions termsAt previous terms = []) :
    ∀ term ∈ terms, ∀ target, text term.1 "dimension" = some target →
      ∃ position, positionOf dimensions target = some position := by
  induction terms generalizing previous with
  | nil => simp
  | cons term terms ih =>
    obtain ⟨term, offset⟩ := term
    simp only [termIssues, List.append_eq_nil_iff] at h
    obtain ⟨⟨hterm, -⟩, hrest⟩ := h
    intro other hm target ht
    rcases List.mem_cons.1 hm with rfl | hm
    · rw [ht] at hterm
      simp only [List.append_eq_nil_iff, Issue.emitIf_eq_nil] at hterm
      exact Option.isSome_iff_exists.1 (by simpa using hterm.1)
    · exact ih hrest other hm target ht

structure UnitChecked (dimensions units : List Json) (unit : Json) : Prop where
  dimension : ∀ identity, text unit "dimension" = some identity →
    ∃ position, positionOf dimensions identity = some position
  coefficients : ∀ member ∈ ["scale", "offset"], coefficientIssues unit "" member = []
  scale : coefficient unit "scale" ≠ some .zero
  target : ∀ target, text unit "target" = some target →
    ∃ position, positionOf units target = some position ∧
      ∀ dimension other, text unit "dimension" = some dimension →
        text (units.getD position .null) "dimension" = some other →
        (∃ position, positionOf dimensions other = some position) → dimension = other

def rootDimension (unit : Json) : Option String :=
  if (text unit "target").isNone then text unit "dimension" else none

theorem coefficientIssues_eq_nil {unit : Json} {at' member : String}
    (h : coefficientIssues unit at' member = []) : coefficientIssues unit "" member = [] := by
  unfold coefficientIssues at *
  split at h
  · cases h
  · rfl

theorem targetIssues_eq_nil {dimensions units : List Json} {unit : Json} {at' target : String}
    (h : targetIssues dimensions units unit at' target = [])
    (hd : ∀ identity, text unit "dimension" = some identity →
      ∃ position, positionOf dimensions identity = some position) :
    ∃ position, positionOf units target = some position ∧
      ∀ dimension other, text unit "dimension" = some dimension →
        text (units.getD position .null) "dimension" = some other →
        (∃ position, positionOf dimensions other = some position) → dimension = other := by
  unfold targetIssues at h
  cases hp : positionOf units target with
  | none => simp [hp] at h
  | some position =>
    refine ⟨position, rfl, ?_⟩
    intro dimension other hdim hother ⟨otherAt, hotherAt⟩
    obtain ⟨dimensionAt, hdimensionAt⟩ := hd dimension hdim
    simp only [hp, hdim, hother, Issue.emitIf_eq_nil, hotherAt, hdimensionAt] at h
    simpa using h

theorem rootIssues_eq_nil {units : List Json} {roots : List (String × ℕ)} {unit : Json}
    {at' dimension : String} (h : rootIssues units roots unit at' = [])
    (hd : text unit "dimension" = some dimension) : dimension ∉ roots.map Prod.fst := by
  simp only [rootIssues, hd, List.append_eq_nil_iff] at h
  intro hm
  obtain ⟨root, hr, rfl⟩ := List.mem_map.1 hm
  cases hf : roots.find? fun other => other.1 == root.1 with
  | none => simpa using List.find?_eq_none.1 hf root hr
  | some other => simp [hf] at h

theorem unitIssues_eq_nil {dimensions units : List Json} {roots : List (String × ℕ)}
    {rest : List (Json × ℕ)} (h : unitIssues dimensions units roots rest = []) :
    (∀ unit ∈ rest, UnitChecked dimensions units unit.1) ∧
      (rest.filterMap fun unit => rootDimension unit.1).Nodup ∧
      ∀ dimension ∈ rest.filterMap fun unit => rootDimension unit.1,
        dimension ∉ roots.map Prod.fst := by
  induction rest generalizing roots with
  | nil => simp
  | cons unit rest ih =>
    obtain ⟨unit, position⟩ := unit
    simp only [unitIssues, List.append_eq_nil_iff, Issue.emitIf_eq_nil] at h
    obtain ⟨⟨⟨⟨⟨hdimension, hscaled⟩, hoffset⟩, hzero⟩, htarget⟩, hrest⟩ := h
    have hd : ∀ identity, text unit "dimension" = some identity →
        ∃ position, positionOf dimensions identity = some position := by
      intro identity hi
      simp only [hi, Issue.emitIf_eq_nil] at hdimension
      exact Option.isSome_iff_exists.1 (by simpa using hdimension)
    obtain ⟨hunits, hnodup, hfresh⟩ := ih hrest
    have hthis : UnitChecked dimensions units unit := by
      refine ⟨hd, ?_, by simpa using hzero, fun target ht => ?_⟩
      · intro member hm
        simp only [List.mem_cons, List.not_mem_nil, or_false] at hm
        rcases hm with rfl | rfl
        · exact coefficientIssues_eq_nil hscaled
        · exact coefficientIssues_eq_nil hoffset
      · simp only [ht] at htarget
        exact targetIssues_eq_nil htarget hd
    refine ⟨fun other hm => ?_, ?_⟩
    · rcases List.mem_cons.1 hm with rfl | hm
      · exact hthis
      · exact hunits other hm
    · cases ht : text unit "target" with
      | some target =>
        have hroot : rootDimension unit = none := by simp [rootDimension, ht]
        rw [List.filterMap_cons_none (by exact hroot)]
        simp only [ht] at hfresh
        exact ⟨hnodup, hfresh⟩
      | none =>
        simp only [ht] at hfresh htarget
        cases hdim : text unit "dimension" with
        | none =>
          have hroot : rootDimension unit = none := by simp [rootDimension, hdim]
          rw [List.filterMap_cons_none (by exact hroot)]
          simp only [hdim] at hfresh
          exact ⟨hnodup, hfresh⟩
        | some dimension =>
          have hroot : rootDimension unit = some dimension := by simp [rootDimension, ht, hdim]
          have hnew := rootIssues_eq_nil htarget hdim
          have hany : (roots.any fun root => root.1 == dimension) = false := by
            rw [List.any_eq_false]
            intro root hr heq
            exact hnew (List.mem_map.2 ⟨root, hr, by simpa using heq⟩)
          simp only [hdim, hany, Bool.false_eq_true, if_false, List.map_append, List.mem_append,
            List.map_cons, List.map_nil, List.mem_singleton, not_or] at hfresh
          rw [List.filterMap_cons_some (by exact hroot)]
          refine ⟨List.nodup_cons.2 ⟨fun hm => (hfresh _ hm).2 rfl, hnodup⟩, ?_⟩
          intro other ho
          rcases List.mem_cons.1 ho with rfl | ho
          · exact hnew
          · exact (hfresh other ho).1

/-! ### Acyclic graphs -/

theorem dimensionCycle_ne_nil {dimensions : List Json} {component : List ℕ}
    (h : Cyclic (dimensionEdges dimensions) component) (hne : component ≠ []) :
    dimensionCycle dimensions component ≠ [] := by
  obtain ⟨term, ht⟩ := exists_cycleTerm h hne
  simp only [dimensionCycle, ht]
  exact List.cons_ne_nil _ _

theorem components_eq_nil {edges : Edges} {report : List ℕ → List Issue} (hc : Closed edges)
    (hreport : ∀ component, Cyclic edges component → component ≠ [] → report component ≠ [])
    (h : (cyclicComponents edges).flatMap report = []) : cyclicComponents edges = [] := by
  apply List.eq_nil_iff_forall_not_mem.2
  intro component hm
  obtain ⟨hne, hcyclic⟩ := (cyclicComponents_spec hc).1 component hm
  exact hreport component hcyclic hne (List.flatMap_eq_nil_iff.1 h component hm)

def DimensionBase (dimensions : List Json) (a b : String) : Prop :=
  ∃ node ∈ dimensions, text node "identity" = some a ∧
    ∃ term ∈ node.members "terms", text term "dimension" = some b

def UnitBase (units : List Json) (a b : String) : Prop :=
  ∃ unit ∈ units, text unit "identity" = some a ∧ text unit "target" = some b

theorem positionOf_getElem {entries : List Json}
    (hn : (entries.filterMap (text · "identity")).Nodup) {position : ℕ} {node : Json}
    {identity : String} (hp : entries[position]? = some node)
    (hi : text node "identity" = some identity) :
    positionOf entries identity = some position := by
  obtain ⟨first, hf⟩ := exists_positionOf (List.mem_of_getElem? hp) hi
  obtain ⟨hlt, hfirst⟩ := positionOf_spec hf
  rw [List.getD_eq_getElem _ _ hlt] at hfirst
  obtain ⟨hlt', rfl⟩ := List.getElem?_eq_some_iff.1 hp
  have hpairs := List.pairwise_iff_getElem.1 (List.pairwise_filterMap.1 hn)
  rw [hf]
  rcases lt_trichotomy first position with h | h | h
  · exact absurd rfl (hpairs first position hlt hlt' h identity hfirst identity hi)
  · rw [h]
  · exact absurd rfl (hpairs position first hlt' hlt h identity hi identity hfirst)

theorem acyclic_of_edges {entries : List Json} {edges : Edges} {base : String → String → Prop}
    (hacyclic : ∀ v, ¬ Relation.TransGen (Edge edges) v v)
    (hedge : ∀ a b, base a b → Edge edges ((positionOf entries a).getD 0)
      ((positionOf entries b).getD 0)) (a : String) : ¬ Relation.TransGen base a a := by
  intro hcycle
  exact hacyclic _ (hcycle.lift (fun identity => (positionOf entries identity).getD 0) hedge)

theorem dimensions_acyclic {dimensions : List Json}
    (hn : (dimensions.filterMap (text · "identity")).Nodup)
    (hsilent : checkDimensions dimensions = []) (a : String) :
    ¬ Relation.TransGen (DimensionBase dimensions) a a := by
  obtain ⟨hnodes, hcycles⟩ := List.append_eq_nil_iff.1 hsilent
  have hc := dimensionEdges_closed dimensions
  have hnone := components_eq_nil hc (fun _ => dimensionCycle_ne_nil) hcycles
  apply acyclic_of_edges (acyclic_of_components hc hnone)
  rintro a b ⟨node, hm, ha, term, hterm, hb⟩
  obtain ⟨position, hp⟩ := List.getElem?_of_mem hm
  obtain ⟨offset, ho⟩ := List.getElem?_of_mem hterm
  have hnode := List.flatMap_eq_nil_iff.1 hnodes (node, position)
    (List.mk_mem_zipIdx_iff_getElem?.2 hp)
  obtain ⟨target, htarget⟩ := termIssues_eq_nil (List.append_eq_nil_iff.1 hnode).2 (term, offset)
    (List.mk_mem_zipIdx_iff_getElem?.2 ho) b hb
  rw [positionOf_getElem hn hp ha, htarget]
  exact dimensionEdge_iff.2 ⟨node, hp, term, hterm, b, hb, htarget⟩

theorem units_acyclic {dimensions units : List Json}
    (hn : (units.filterMap (text · "identity")).Nodup)
    (hchecked : ∀ unit ∈ units, UnitChecked dimensions units unit)
    (hcycles : (cyclicComponents (unitEdges units)).flatMap (unitCycle units) = [])
    (a : String) : ¬ Relation.TransGen (UnitBase units) a a := by
  have hc := unitEdges_closed units
  have hnone := components_eq_nil hc (fun _ _ _ => List.cons_ne_nil _ _) hcycles
  apply acyclic_of_edges (acyclic_of_components hc hnone)
  rintro a b ⟨unit, hm, ha, hb⟩
  obtain ⟨position, hp⟩ := List.getElem?_of_mem hm
  obtain ⟨target, htarget, -⟩ := (hchecked unit hm).target b hb
  rw [positionOf_getElem hn hp ha, htarget]
  exact unitEdge_iff.2 ⟨unit, hp, b, hb, htarget⟩

/-! ### Coefficients -/

/-- The integers a coefficient writes above and below its bar. -/
def fraction (text : String) : Option (ℤ × ℤ) :=
  match splitOnce '/' text.toList with
  | none => (parseInt 128 text.toList).map fun n => (n, 1)
  | some (n, d) => (parseInt 128 n).bind fun n => (parseInt 128 d).map fun d => (n, d)

def Writes (text : String) (q : ℚ) : Prop := fraction text = some (q.num, (q.den : ℤ))

theorem parseInt_of_canonical {cs : List Char} {value : ℤ}
    (h : canonicalInteger cs = .ok value) : parseInt 128 cs = some value := by
  rw [canonicalInteger_eq] at h
  cases hs : spellsInteger cs with
  | false => simp [hs] at h
  | true =>
    cases hp : parseInt 128 cs with
    | none => simp [hs, hp] at h
    | some found =>
      simp only [hs, hp, if_true, Except.ok.injEq] at h
      rw [h]

theorem exists_writes {text : String} {kind : RationalKind}
    (h : canonicalRational text = .ok kind) :
    ∃ q : ℚ, Writes text q ∧ (q = 0 ↔ kind = .zero) := by
  unfold canonicalRational at h
  split at h
  · rename_i hsplit
    cases hv : canonicalInteger text.toList with
    | error e => simp [hv, Except.map] at h
    | ok value =>
      refine ⟨value, ?_, ?_⟩
      · simp [Writes, fraction, hsplit, parseInt_of_canonical hv]
      · simp only [hv, Except.map, Except.ok.injEq] at h
        subst h
        by_cases hz : value = 0
        · simp [hz]
        · by_cases h1 : value = 1 <;> simp [hz, h1]
  · rename_i numerator denominator hsplit
    split at h
    · cases h
    · split at h
      · cases h
      · cases h
      · cases h
      · cases h
      · rename_i n d hn hd
        split at h
        · cases h
        · rename_i hbounds
          split at h
          · rename_i hgcd
            cases h
            have hdpos : 0 < d := by omega
            have hnum : ((n : ℚ) / d).num = n := by
              rw [Rat.num_div_eq_of_coprime hdpos]
              exact hgcd
            have hden : (((n : ℚ) / d).den : ℤ) = d := by
              rw [Rat.den_div_eq_of_coprime hdpos]
              exact hgcd
            refine ⟨n / d, ?_, ?_⟩
            · simp [Writes, fraction, hsplit, parseInt_of_canonical hn, parseInt_of_canonical hd,
                hnum, hden]
            · have hne : (n : ℚ) / d ≠ 0 := by
                rw [ne_eq, ← Rat.num_eq_zero, hnum]
                omega
              simp [hne]
          · cases h

/-- The scale of a unit is a rational in lowest terms other than zero, and its offset one in
lowest terms. -/
structure Scaled (unit : Json) (scale offset : ℚ) : Prop where
  scaleWritten : ∃ written, text unit "scale" = some written ∧ Writes written scale
  offsetWritten : ∃ written, text unit "offset" = some written ∧ Writes written offset
  nonzero : scale ≠ 0

theorem exists_coefficient {unit : Json} {member written : String}
    (hw : text unit member = some written) (h : coefficientIssues unit "" member = []) :
    ∃ q : ℚ, Writes written q ∧ (q = 0 ↔ coefficient unit member = some .zero) := by
  cases hc : canonicalRational written with
  | error e => simp [coefficientIssues, hw, hc] at h
  | ok kind =>
    obtain ⟨q, hq, hzero⟩ := exists_writes hc
    exact ⟨q, hq, by simp [coefficient, hw, hc, hzero]⟩

theorem exists_scaled {dimensions units : List Json} {unit : Json} (hshape : UnitShaped unit)
    (h : UnitChecked dimensions units unit) : ∃ scale offset, Scaled unit scale offset := by
  obtain ⟨scaleText, hst⟩ := hshape.scale
  obtain ⟨offsetText, hot⟩ := hshape.offset
  obtain ⟨scale, hs, hzero⟩ := exists_coefficient hst (h.coefficients "scale" (by simp))
  obtain ⟨offset, ho, -⟩ := exists_coefficient hot (h.coefficients "offset" (by simp))
  exact ⟨scale, offset, ⟨scaleText, hst, hs⟩, ⟨offsetText, hot, ho⟩,
    fun hz => h.scale (hzero.1 hz)⟩

theorem Writes.unique {written : String} {p q : ℚ} (hp : Writes written p)
    (hq : Writes written q) : p = q := by
  unfold Writes at hp hq
  rw [hp] at hq
  simp only [Option.some.injEq, Prod.mk.injEq, Nat.cast_inj] at hq
  exact Rat.ext hq.1 hq.2

theorem Scaled.unique {unit : Json} {s t o p : ℚ} (h : Scaled unit s o) (h' : Scaled unit t p) :
    s = t ∧ o = p := by
  obtain ⟨w, hw, hs⟩ := h.scaleWritten
  obtain ⟨w', hw', ht⟩ := h'.scaleWritten
  obtain ⟨x, hx, ho⟩ := h.offsetWritten
  obtain ⟨x', hx', hp⟩ := h'.offsetWritten
  rw [hw] at hw'
  rw [hx] at hx'
  cases hw'
  cases hx'
  exact ⟨hs.unique ht, ho.unique hp⟩

/-! ### Conversions -/

/-- `target_value = scale × source_value + offset`. -/
def conversion (scale offset : ℚ) (h : scale ≠ 0) : Equiv.Perm ℚ :=
  (Equiv.mulLeft₀ scale h).trans (Equiv.addRight offset)

def unitOf (units : List Json) (identity : String) : Option Json :=
  (positionOf units identity).map (units.getD · .null)

def targetOf (units : List Json) (identity : String) : Option String :=
  (unitOf units identity).bind (text · "target")

/-- The composite conversion along the targets of a unit, to the unit they end at. -/
inductive Converts (units : List Json) : String → String → Equiv.Perm ℚ → Prop
  | root {a : String} : targetOf units a = none → Converts units a a (Equiv.refl ℚ)
  | step {a b e : String} {unit : Json} {scale offset : ℚ} {composite : Equiv.Perm ℚ} :
    unitOf units a = some unit → text unit "target" = some b →
    (h : Scaled unit scale offset) → Converts units b e composite →
    Converts units a e ((conversion scale offset h.nonzero).trans composite)

theorem targetOf_eq {units : List Json} {unit : Json} {a b : String}
    (hu : unitOf units a = some unit) (hb : text unit "target" = some b) :
    targetOf units a = some b := by
  rw [targetOf, hu]
  exact hb

/-- The targets of a unit fix where they end and the composite conversion. -/
theorem Converts.unique {units : List Json} {a e e' : String} {f f' : Equiv.Perm ℚ}
    (h : Converts units a e f) (h' : Converts units a e' f') : e = e' ∧ f = f' := by
  induction h generalizing f' with
  | root hn =>
    cases h' with
    | root _ => exact ⟨rfl, rfl⟩
    | step hu hb _ _ =>
      rw [targetOf_eq hu hb] at hn
      cases hn
  | step hu hb hs _ ih =>
    cases h' with
    | root hn =>
      rw [targetOf_eq hu hb] at hn
      cases hn
    | step hu' hb' hs' hrest =>
      rw [hu] at hu'
      cases hu'
      rw [hb] at hb'
      cases hb'
      obtain ⟨rfl, rfl⟩ := hs.unique hs'
      obtain ⟨rfl, rfl⟩ := ih hrest
      exact ⟨rfl, rfl⟩

/-- The conversion between two units whose targets end at one unit. -/
def Between (units : List Json) (a b : String) (convert : Equiv.Perm ℚ) : Prop :=
  ∃ root toRoot fromRoot, Converts units a root toRoot ∧ Converts units b root fromRoot ∧
    convert = toRoot.trans fromRoot.symm

/-! ### Sound documents -/

def IsRoot (unit : Json) : Prop := unit.get "target" = none

/-- What the graphs of a document without dimension and unit diagnostics are. -/
structure Sound (dimensions units : List Json) : Prop where
  dimensions_acyclic : ∀ a, ¬ Relation.TransGen (DimensionBase dimensions) a a
  units_acyclic : ∀ a, ¬ Relation.TransGen (UnitBase units) a a
  rooted : ∀ unit ∈ units, ∀ a, text unit "identity" = some a → ∃ root ∈ units, ∃ e,
    text root "identity" = some e ∧ Ends (targetOf units) a e ∧ IsRoot root ∧
      text root "dimension" = text unit "dimension"
  one_root : ∀ root ∈ units, ∀ other ∈ units, IsRoot root → IsRoot other →
    text root "dimension" = text other "dimension" → root = other
  scaled : ∀ unit ∈ units, ∃ scale offset, Scaled unit scale offset
  between : ∀ unit ∈ units, ∀ other ∈ units, ∀ a b, text unit "identity" = some a →
    text other "identity" = some b → text unit "dimension" = text other "dimension" →
    ∃! convert, Between units a b convert

/-- What the rules leave of the units of a schema-valid document. -/
structure Checked (dimensions units : List Json) : Prop where
  shaped : ∀ unit ∈ units, UnitShaped unit
  distinct : (units.filterMap (text · "identity")).Nodup
  checked : ∀ unit ∈ units, UnitChecked dimensions units unit
  roots : (units.filterMap rootDimension).Nodup
  acyclic : ∀ a, ¬ Relation.TransGen (UnitBase units) a a

section Checked
variable {dimensions units : List Json}

theorem unitOf_eq (hn : (units.filterMap (text · "identity")).Nodup) {unit : Json} {a : String}
    (hm : unit ∈ units) (ha : text unit "identity" = some a) : unitOf units a = some unit := by
  obtain ⟨position, hp⟩ := List.getElem?_of_mem hm
  rw [unitOf, positionOf_getElem hn hp ha, Option.map_some, List.getD_eq_getElem?_getD, hp,
    Option.getD_some]

theorem unitOf_spec {unit : Json} {a : String} (h : unitOf units a = some unit) :
    unit ∈ units ∧ text unit "identity" = some a := by
  obtain ⟨position, hp, rfl⟩ := Option.map_eq_some_iff.1 h
  obtain ⟨hlt, hi⟩ := positionOf_spec hp
  refine ⟨?_, hi⟩
  rw [List.getD_eq_getElem _ _ hlt]
  exact List.getElem_mem hlt

theorem Checked.step (h : Checked dimensions units) {a b : String}
    (hs : targetOf units a = some b) : ∃ unit target, unitOf units a = some unit ∧
      text unit "target" = some b ∧ unitOf units b = some target ∧
      text target "dimension" = text unit "dimension" := by
  obtain ⟨unit, hu, hb⟩ := Option.bind_eq_some_iff.1 hs
  obtain ⟨hm, ha⟩ := unitOf_spec hu
  obtain ⟨position, hp, hsame⟩ := (h.checked unit hm).target b hb
  have htarget : unitOf units b = some (units.getD position .null) := by
    rw [unitOf, hp, Option.map_some]
  refine ⟨unit, _, hu, hb, htarget, ?_⟩
  have htm := (unitOf_spec htarget).1
  obtain ⟨dimension, hd⟩ := (h.shaped unit hm).dimension
  obtain ⟨other, ho⟩ := (h.shaped _ htm).dimension
  rw [hd, ho, hsame dimension other hd ho ((h.checked _ htm).dimension other ho)]

theorem Checked.unitBase (h : Checked dimensions units) {a b : String}
    (hs : targetOf units a = some b) : UnitBase units a b := by
  obtain ⟨unit, -, hu, hb, -⟩ := h.step hs
  obtain ⟨hm, ha⟩ := unitOf_spec hu
  exact ⟨unit, hm, ha, hb⟩

theorem Checked.exists_end (h : Checked dimensions units) {unit : Json} {a : String}
    (hm : unit ∈ units) (ha : text unit "identity" = some a) :
    ∃ e, Ends (targetOf units) a e ∧ ∃ root, unitOf units e = some root := by
  let declared : Set String := {identity | identity ∈ units.filterMap (text · "identity")}
  have hfinite : declared.Finite := List.finite_toSet _
  have hmem : ∀ b other, unitOf units b = some other → b ∈ declared := by
    intro b other ho
    obtain ⟨hom, hb⟩ := unitOf_spec ho
    exact List.mem_filterMap.2 ⟨other, hom, hb⟩
  obtain ⟨e, he, hends⟩ := exists_ends hfinite
    (fun b _ c hs => by
      obtain ⟨-, target, -, -, ht, -⟩ := h.step hs
      exact hmem c target ht)
    (fun b hcycle => h.acyclic b (hcycle.lift id fun _ _ => h.unitBase))
    (hmem a unit (unitOf_eq h.distinct hm ha))
  obtain ⟨root, hrm, hre⟩ := List.mem_filterMap.1 he
  exact ⟨e, hends, root, unitOf_eq h.distinct hrm hre⟩

theorem Checked.same_dimension (h : Checked dimensions units) {a e : String}
    (hends : Ends (targetOf units) a e) {unit root : Json} (hu : unitOf units a = some unit)
    (hr : unitOf units e = some root) : text root "dimension" = text unit "dimension" := by
  induction hends generalizing unit with
  | stop _ =>
    rw [hu] at hr
    cases hr
    rfl
  | step hs _ ih =>
    obtain ⟨source, target, hsource, -, htarget, hsame⟩ := h.step hs
    rw [hu] at hsource
    cases hsource
    rw [ih htarget hr, hsame]

theorem Checked.converts (h : Checked dimensions units) {a e : String}
    (hends : Ends (targetOf units) a e) : ∃ composite, Converts units a e composite := by
  induction hends with
  | stop hn => exact ⟨_, .root hn⟩
  | step hs _ ih =>
    obtain ⟨unit, -, hu, hb, -⟩ := h.step hs
    obtain ⟨composite, hc⟩ := ih
    have hm := (unitOf_spec hu).1
    obtain ⟨scale, offset, hscaled⟩ := exists_scaled (h.shaped unit hm) (h.checked unit hm)
    exact ⟨_, .step hu hb hscaled hc⟩

theorem Checked.isRoot_iff (h : Checked dimensions units) {unit : Json} (hm : unit ∈ units) :
    IsRoot unit ↔ text unit "target" = none := by
  unfold IsRoot
  rcases (h.shaped unit hm).target with hn | ⟨target, ht⟩
  · simp [text, Json.getStr, hn]
  · constructor
    · intro hn
      simp [text, Json.getStr, hn]
    · intro hn
      rw [hn] at ht
      cases ht

theorem Checked.rooted (h : Checked dimensions units) {unit : Json} {a : String}
    (hm : unit ∈ units) (ha : text unit "identity" = some a) :
    ∃ root ∈ units, ∃ e, text root "identity" = some e ∧ Ends (targetOf units) a e ∧
      IsRoot root ∧ text root "dimension" = text unit "dimension" := by
  obtain ⟨e, hends, root, hr⟩ := h.exists_end hm ha
  obtain ⟨hrm, he⟩ := unitOf_spec hr
  refine ⟨root, hrm, e, he, hends, ?_, ?_⟩
  · have hlast := hends.next_eq_none
    rw [targetOf, hr] at hlast
    exact (h.isRoot_iff hrm).2 hlast
  · exact h.same_dimension hends (unitOf_eq h.distinct hm ha) hr

theorem Checked.one_root (h : Checked dimensions units) {root other : Json} (hr : root ∈ units)
    (ho : other ∈ units) (hroot : IsRoot root) (hother : IsRoot other)
    (hd : text root "dimension" = text other "dimension") : root = other := by
  obtain ⟨dimension, hdim⟩ := (h.shaped root hr).dimension
  have hrd : rootDimension root = some dimension := by
    simp [rootDimension, (h.isRoot_iff hr).1 hroot, hdim]
  have hod : rootDimension other = some dimension := by
    simp [rootDimension, (h.isRoot_iff ho).1 hother, ← hd, hdim]
  obtain ⟨i, hi, rfl⟩ := List.getElem_of_mem hr
  obtain ⟨j, hj, rfl⟩ := List.getElem_of_mem ho
  have hpairs := List.pairwise_iff_getElem.1 (List.pairwise_filterMap.1 h.roots)
  rcases lt_trichotomy i j with hlt | rfl | hlt
  · exact absurd rfl (hpairs i j hi hj hlt _ hrd _ hod)
  · rfl
  · exact absurd rfl (hpairs j i hj hi hlt _ hod _ hrd)

theorem Checked.between (h : Checked dimensions units) {unit other : Json} {a b : String}
    (hm : unit ∈ units) (ho : other ∈ units) (ha : text unit "identity" = some a)
    (hb : text other "identity" = some b) (hd : text unit "dimension" = text other "dimension") :
    ∃! convert, Between units a b convert := by
  obtain ⟨root, hr, e, he, hends, hroot, hdim⟩ := h.rooted hm ha
  obtain ⟨last, hl, e', he', hends', hlast, hdim'⟩ := h.rooted ho hb
  have hsame : root = last := h.one_root hr hl hroot hlast (by rw [hdim, hdim', hd])
  subst hsame
  rw [he] at he'
  cases he'
  obtain ⟨toRoot, hto⟩ := h.converts hends
  obtain ⟨fromRoot, hfrom⟩ := h.converts hends'
  refine ⟨_, ⟨e, toRoot, fromRoot, hto, hfrom, rfl⟩, ?_⟩
  rintro convert ⟨root', to', from', hto', hfrom', rfl⟩
  obtain ⟨-, rfl⟩ := hto.unique hto'
  obtain ⟨-, rfl⟩ := hfrom.unique hfrom'
  rfl

end Checked

theorem filterMap_zipIdx {β : Type} (f : Json → Option β) (nodes : List Json) :
    (nodes.zipIdx.filterMap fun node => f node.1) = nodes.filterMap f := by
  have h := List.filterMap_map (f := Prod.fst) (g := f) (l := nodes.zipIdx)
  rw [List.zipIdx_map_fst] at h
  exact h.symm

/-- A schema-valid document without dimension and unit diagnostics has sound graphs. -/
theorem sound_of_silent {bundle ir : Json} (hir : bundle.get "ir" = some ir)
    (hs : Schema.decide bundle = []) (hu : decide bundle = []) :
    Sound (ir.members "dimensions") (ir.members "units") := by
  obtain ⟨hshaped, package, hpackage⟩ := shaped_of_schema hir hs
  have hissues : issues bundle = [] := List.map_eq_nil_iff.1 hu
  simp only [issues, hir, hpackage] at hissues
  have hnone := distinct_eq_nil hissues
  simp only [List.append_eq_nil_iff] at hnone
  obtain ⟨⟨⟨hdimensionIds, hunitIds⟩, hdimensions⟩, hunits⟩ := hnone
  obtain ⟨hnodes, hcycles⟩ := List.append_eq_nil_iff.1 hunits
  obtain ⟨hchecked, hroots, -⟩ := unitIssues_eq_nil hnodes
  have hdn := (identityIssues_eq_nil hdimensionIds).1
  have hun := (identityIssues_eq_nil hunitIds).1
  rw [filterMap_zipIdx (text · "identity")] at hdn hun
  rw [filterMap_zipIdx rootDimension] at hroots
  have hall : ∀ unit ∈ ir.members "units",
      UnitChecked (ir.members "dimensions") (ir.members "units") unit := by
    intro unit hm
    obtain ⟨position, hp⟩ := List.getElem?_of_mem hm
    exact hchecked (unit, position) (List.mk_mem_zipIdx_iff_getElem?.2 hp)
  have h : Checked (ir.members "dimensions") (ir.members "units") :=
    ⟨hshaped.units, hun, hall, hroots, units_acyclic hun hall hcycles⟩
  exact
    { dimensions_acyclic := dimensions_acyclic hdn hdimensions
      units_acyclic := h.acyclic
      rooted := fun unit hm a ha => h.rooted hm ha
      one_root := fun root hr other ho => h.one_root hr ho
      scaled := fun unit hm => exists_scaled (h.shaped unit hm) (h.checked unit hm)
      between := fun unit hm other ho a b => h.between hm ho }

/-- The units of time are sound. -/
theorem time_sound :
    Sound (Sample.time.members "dimensions") (Sample.time.members "units") := by
  have hs : Schema.decide (.object [("ir", Sample.time)]) = [] := by decide +kernel
  have hu : UnitGraph.decide (.object [("ir", Sample.time)]) = [] := by decide +kernel
  exact sound_of_silent rfl hs hu

end UnitGraph
end FilamentCore.SemanticIr
