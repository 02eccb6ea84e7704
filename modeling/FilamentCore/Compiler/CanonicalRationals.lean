import FilamentCore.Compiler.ShapeAgreement
import FilamentCore.SemanticIr.DecimalText

/-!
# Canonical rationals (crates/semantic-ir/src/unit_graph.rs, src/compiler/ir/unit-graph.mjs)

The texts that the two unit graph checks read as rationals are the spellings in lowest terms, up
to both ends of the 128-bit range, and the loops that look for a common divisor end.
-/

namespace FilamentCore.Compiler.Ir
open FilamentCore.SemanticIr
open FilamentCore.SemanticIr.UnitGraph (spellsInteger canonicalInteger_eq)
open FilamentCore.Compiler.ShapeAgreement (splitOnce_append splitOnce_none)

/-! ### Integers -/

/-- The integers of an `i128`. -/
def InI128 (n : ℤ) : Prop := i128Min ≤ n ∧ n ≤ i128Max

instance (n : ℤ) : Decidable (InI128 n) := inferInstanceAs (Decidable (_ ∧ _))

theorem bigInt_digits {w : List Char} (hw : WholePart w) : bigInt w = decimalValue w := by
  have hhead := hw.head_ne_minus []
  rw [List.append_nil] at hhead
  rw [bigInt, if_neg hhead]

theorem spellsInteger_whole {w : List Char} (hw : WholePart w) : spellsInteger w = true := by
  rcases hw.lead with rfl | ⟨c, cs, rfl, hc⟩
  · rfl
  · have hd := hw.digit c (List.mem_cons_self ..)
    have hall : cs.all isAsciiDigit = true :=
      List.all_eq_true.2 fun d hd => hw.digit d (List.mem_cons_of_mem c hd)
    simp [spellsInteger, stripMinus_digit hd, hd, hc, hall]

theorem spellsInteger_minus {w : List Char} (hw : WholePart w) (hne : w ≠ ['0']) :
    spellsInteger ('-' :: w) = true := by
  obtain ⟨c, cs, rfl, hc⟩ := hw.lead.resolve_left hne
  have hd := hw.digit c (List.mem_cons_self ..)
  have hall : cs.all isAsciiDigit = true :=
    List.all_eq_true.2 fun d hd => hw.digit d (List.mem_cons_of_mem c hd)
  simp [spellsInteger, stripMinus, hd, hc, hall]

theorem toString_natCast (n : ℕ) : (toString (n : ℤ)).toList = (toString n).toList := rfl

theorem toString_neg {n : ℕ} (hn : 0 < n) :
    (toString (-(n : ℤ))).toList = '-' :: (toString n).toList := by
  obtain ⟨k, rfl⟩ := Nat.exists_eq_add_one.2 hn
  have htext : toString (-((k + 1 : ℕ) : ℤ)) = "-" ++ toString (k + 1) := rfl
  rw [htext, String.toList_append]
  rfl

theorem spells_toString (n : ℤ) :
    spellsInteger (toString n).toList = true ∧ bigInt (toString n).toList = n := by
  have hw := fun m : ℕ => toString_whole m
  obtain ⟨m, rfl | rfl⟩ := Int.eq_nat_or_neg n
  · rw [toString_natCast]
    refine ⟨spellsInteger_whole (hw m), ?_⟩
    rw [bigInt_digits (hw m), decimalValue_toString]
  · by_cases hm : m = 0
    · rw [hm]
      decide
    · have hpos : 0 < m := Nat.pos_of_ne_zero hm
      rw [toString_neg hpos]
      have hne : (toString m).toList ≠ ['0'] := by
        intro heq
        have hvalue := decimalValue_toString m
        rw [heq] at hvalue
        exact hm (hvalue.symm.trans (by decide))
      refine ⟨spellsInteger_minus (hw m) hne, ?_⟩
      show -(decimalValue (toString m).toList : ℤ) = -m
      rw [decimalValue_toString]

theorem toString_bigInt {cs : List Char} (h : spellsInteger cs = true) :
    (toString (bigInt cs)).toList = cs := by
  have hwhole : ∀ w, WholePart w → (toString (decimalValue w)).toList = w := by
    intro w hw
    exact (toString_whole _).unique hw (decimalValue_toString _)
  rcases spells_cases h with rfl | ⟨first, rest, hd, hz, hall, hcs⟩
  · decide
  · have hw : WholePart (first :: rest) := by
      refine ⟨?_, .inr ⟨first, rest, rfl, hz⟩⟩
      intro c hc
      rcases List.mem_cons.1 hc with rfl | hc
      · exact hd
      · exact List.all_eq_true.1 hall c hc
    rcases hcs with rfl | rfl
    · rw [bigInt_digits hw, toString_natCast, hwhole _ hw]
    · have hle := @le_decimalValue first rest hd hz
      have hpos := Nat.one_le_pow rest.length 10 (by omega)
      show (toString (-(decimalValue (first :: rest) : ℤ))).toList = _
      rw [toString_neg (by omega), hwhole _ hw]

theorem canonicalInteger_ok {cs : List Char} {n : ℤ} :
    canonicalInteger cs = .ok n ↔ InI128 n ∧ cs = (toString n).toList := by
  rw [canonicalInteger_eq]
  constructor
  · intro h
    cases hs : spellsInteger cs with
    | false =>
      rw [hs] at h
      cases h
    | true =>
      rw [hs, if_pos rfl, (spelled hs).parsed] at h
      by_cases hin : i128Min ≤ bigInt cs ∧ bigInt cs ≤ i128Max
      · rw [if_pos hin] at h
        cases h
        exact ⟨hin, (toString_bigInt hs).symm⟩
      · rw [if_neg hin] at h
        cases h
  · intro h
    obtain ⟨hin, rfl⟩ := h
    obtain ⟨hs, hvalue⟩ := spells_toString n
    have hin' : i128Min ≤ bigInt (toString n).toList ∧ bigInt (toString n).toList ≤ i128Max := by
      rw [hvalue]
      exact hin
    rw [if_pos hs, (spelled hs).parsed, if_pos hin', hvalue]

/-! ### The greatest common divisor -/

/-- `unsigned_abs` of an `i128`. -/
def unsignedAbs (n : ℤ) : BitVec 128 := (BitVec.ofInt 128 n).abs

/-- `(left, right) = (right, left % right)`. -/
def euclidTurn (s : BitVec 128 × BitVec 128) : BitVec 128 × BitVec 128 := (s.2, s.1 % s.2)

/-- `while right != 0`, and the `left` that is left. -/
def euclid (left right : BitVec 128) : BitVec 128 :=
  if right = 0 then left else euclid right (left % right)
termination_by right.toNat
decreasing_by
  rename_i hne
  rw [BitVec.toNat_umod]
  exact Nat.mod_lt _ (Nat.pos_of_ne_zero fun h => hne (BitVec.eq_of_toNat_eq h))

/-- The loop over `BigInt`s, whose remainder has the sign of the dividend. -/
def bigEuclid (a b : ℤ) : ℤ :=
  if b = 0 then a else bigEuclid b (a.tmod b)
termination_by b.natAbs
decreasing_by
  rename_i hne
  rw [Int.natAbs_tmod]
  exact Nat.mod_lt _ (Int.natAbs_pos.2 hne)

theorem unsignedAbs_toNat {n : ℤ} (h : InI128 n) : (unsignedAbs n).toNat = n.natAbs := by
  obtain ⟨hlow, hhigh⟩ := h
  simp only [i128Min, i128Max] at hlow hhigh
  rw [unsignedAbs, BitVec.toNat_abs, BitVec.msb_eq_toInt,
    BitVec.toInt_ofInt_eq_self (by decide) (by omega) (by omega), BitVec.toNat_ofInt]
  by_cases hneg : n < 0
  · rw [decide_eq_true hneg, if_pos rfl]
    omega
  · rw [decide_eq_false hneg, if_neg (by decide)]
    omega

theorem euclid_gcd (left right : BitVec 128) :
    (euclid left right).toNat = Nat.gcd left.toNat right.toNat := by
  fun_induction euclid left right with
  | case1 left => simp
  | case2 left right hne ih =>
    rw [ih, BitVec.toNat_umod, Nat.gcd_comm left.toNat, Nat.gcd_rec right.toNat left.toNat,
      Nat.gcd_comm]

theorem bigEuclid_gcd (a b : ℤ) (ha : 0 ≤ a) (hb : 0 ≤ b) : bigEuclid a b = Int.gcd a b := by
  fun_induction bigEuclid a b with
  | case1 a => rw [Int.gcd_zero_right, Int.natAbs_of_nonneg ha]
  | case2 a b hne ih =>
    rw [ih hb (Int.tmod_nonneg b ha), Int.tmod_eq_emod_of_nonneg ha, Int.gcd_comm b, Int.gcd_emod]

theorem euclid_ends (left right : BitVec 128) : ∃ turns,
    (∀ k < turns, (euclidTurn^[k] (left, right)).2 ≠ 0) ∧
      euclidTurn^[turns] (left, right) = (euclid left right, 0) := by
  fun_induction euclid left right with
  | case1 left => exact ⟨0, fun k hk => absurd hk (Nat.not_lt_zero k), rfl⟩
  | case2 left right hne ih =>
    obtain ⟨turns, hbefore, hlast⟩ := ih
    refine ⟨turns + 1, ?_, hlast⟩
    intro k hk
    cases k with
    | zero => exact hne
    | succ k => exact hbefore k (by omega)

/-! ### Rationals -/

/-- `canonical_rational`, with its loop. -/
def machineRational (text : String) : Except NumericError RationalKind :=
  match splitOnce '/' text.toList with
  | none => (canonicalInteger text.toList).map fun value =>
      if value = 0 then .zero else if value = 1 then .one else .other
  | some (numerator, denominator) =>
    if denominator.contains '/' then .error .noncanonical
    else
      match canonicalInteger numerator, canonicalInteger denominator with
      | .error .outsideI128, _ => .error .outsideI128
      | _, .error .outsideI128 => .error .outsideI128
      | .error e, _ => .error e
      | _, .error e => .error e
      | .ok numerator, .ok denominator =>
        if numerator = 0 ∨ denominator < 2 then .error .noncanonical
        else if euclid (unsignedAbs numerator) (unsignedAbs denominator) = 1 then .ok .other
        else .error .noncanonical

/-- `rational`, with its loop. -/
def bigRational (cs : List Char) : Numeral :=
  match splitOn '/' cs with
  | [_] => integer cs
  | [numerator, denominator] =>
    match integer numerator, integer denominator with
    | .outside, _ => .outside
    | _, .outside => .outside
    | .invalid, _ => .invalid
    | _, .invalid => .invalid
    | .value n, .value d =>
      if n = 0 ∨ d < 2 then .invalid
      else if bigEuclid (if n < 0 then -n else n) d = 1 then .value n
      else .invalid
  | _ => .invalid

theorem euclid_eq_one {n d : ℤ} (hn : InI128 n) (hd : InI128 d) :
    euclid (unsignedAbs n) (unsignedAbs d) = 1 ↔ Nat.gcd n.natAbs d.natAbs = 1 := by
  rw [← BitVec.toNat_inj, euclid_gcd, unsignedAbs_toNat hn, unsignedAbs_toNat hd]
  exact Iff.rfl

theorem bigEuclid_eq_one {n d : ℤ} (hd : 2 ≤ d) :
    bigEuclid (if n < 0 then -n else n) d = 1 ↔ Nat.gcd n.natAbs d.natAbs = 1 := by
  have habs : (if n < 0 then -n else n) = n.natAbs := by
    split <;> omega
  rw [habs, bigEuclid_gcd _ _ (Int.natCast_nonneg _) (by omega), Int.gcd, Int.natAbs_natCast]
  exact Nat.cast_eq_one

theorem machineRational_eq (text : String) : machineRational text = canonicalRational text := by
  unfold machineRational canonicalRational
  cases splitOnce '/' text.toList with
  | none => rfl
  | some parts =>
    obtain ⟨numerator, denominator⟩ := parts
    dsimp only
    congr 1
    cases hn : canonicalInteger numerator with
    | error e => rcases canonicalInteger denominator with (_ | _) | d <;> cases e <;> rfl
    | ok n =>
      cases hd : canonicalInteger denominator with
      | error e => cases e <;> rfl
      | ok d =>
        have h := euclid_eq_one (canonicalInteger_ok.1 hn).1 (canonicalInteger_ok.1 hd).1
        simp only [h]

theorem bigRational_eq (cs : List Char) : bigRational cs = rational cs := by
  unfold bigRational rational
  rcases splitOn '/' cs with - | ⟨numerator, - | ⟨denominator, - | ⟨third, rest⟩⟩⟩
  · rfl
  · rfl
  · dsimp only
    cases integer numerator with
    | invalid => cases integer denominator <;> rfl
    | outside => rfl
    | value n =>
      cases integer denominator with
      | invalid => rfl
      | outside => rfl
      | value d =>
        by_cases hbounds : n = 0 ∨ d < 2
        · simp only [if_pos hbounds]
        · have h := @bigEuclid_eq_one n d (by omega)
          simp only [h]
  · rfl

/-- A text spells a rational number: an integer of 128 bits by its digits, another number by its
lowest terms of 128 bits. -/
inductive SpellsRational : String → ℚ → Prop
  | whole (n : ℤ) (hn : InI128 n) : SpellsRational (toString n) n
  | ratio (n d : ℤ) (hn : InI128 n) (hd : InI128 d) (hne : n ≠ 0) (two : 2 ≤ d)
      (lowest : Nat.gcd n.natAbs d.natAbs = 1) :
      SpellsRational (toString n ++ "/" ++ toString d) (n / d)

theorem SpellsRational.unique {text text' : String} {q : ℚ} (h : SpellsRational text q)
    (h' : SpellsRational text' q) : text = text' := by
  have hterms : ∀ n d : ℤ, 2 ≤ d → Nat.gcd n.natAbs d.natAbs = 1 →
      ((n : ℚ) / d).num = n ∧ (((n : ℚ) / d).den : ℤ) = d := by
    intro n d htwo hlowest
    have hpos : 0 < d := by omega
    exact ⟨Rat.num_div_eq_of_coprime hpos hlowest, Rat.den_div_eq_of_coprime hpos hlowest⟩
  cases h with
  | whole n hn =>
    generalize hq : (n : ℚ) = q at h'
    cases h' with
    | whole m hm => rw [Int.cast_injective hq]
    | ratio m d hm hd hne two lowest =>
      have hden := (hterms m d two lowest).2
      rw [← hq, Rat.den_intCast] at hden
      omega
  | ratio n d hn hd hne two lowest =>
    obtain ⟨hnum, hden⟩ := hterms n d two lowest
    generalize hq : (n : ℚ) / d = q at h' hnum hden
    cases h' with
    | whole m hm =>
      rw [Rat.den_intCast] at hden
      omega
    | ratio m e hm he hne' two' lowest' =>
      obtain ⟨hnum', hden'⟩ := hterms m e two' lowest'
      rw [← hnum, ← hden, hnum', hden']

theorem no_slash (n : ℤ) : ∀ c ∈ (toString n).toList, c ≠ '/' := by
  intro c hc heq
  have hdigit : isAsciiDigit '/' = false := by decide
  rcases spells_cases (spells_toString n).1 with h | ⟨first, rest, hd, -, hall, h⟩
  · rw [h, List.mem_singleton] at hc
    rw [hc] at heq
    revert heq
    decide
  · have hrun : ∀ c ∈ first :: rest, isAsciiDigit c = true := by
      intro c hc
      rcases List.mem_cons.1 hc with rfl | hc
      · exact hd
      · exact List.all_eq_true.1 hall c hc
    have hmem : c ∈ first :: rest := by
      rcases h with h | h
      · rwa [h] at hc
      · rw [h, heq] at hc
        rw [heq]
        exact (List.mem_cons.1 hc).resolve_left (by decide)
    have hbad := hrun c hmem
    rw [heq, hdigit] at hbad
    cases hbad

theorem toList_ratio (n d : ℤ) : (toString n ++ "/" ++ toString d).toList =
    (toString n).toList ++ '/' :: (toString d).toList := by
  rw [String.toList_append, String.toList_append, List.append_assoc]
  rfl

theorem canonicalRational_ratio {text : String} {numerator denominator : List Char}
    (hs : splitOnce '/' text.toList = some (numerator, denominator)) :
    (∃ kind, canonicalRational text = .ok kind) ↔ ∃ n d : ℤ,
      canonicalInteger numerator = .ok n ∧ canonicalInteger denominator = .ok d ∧ n ≠ 0 ∧ 2 ≤ d ∧
        Nat.gcd n.natAbs d.natAbs = 1 := by
  have hcontains : ∀ d, canonicalInteger denominator = .ok d → denominator.contains '/' = false := by
    intro d hd
    rw [← splitOnce_eq_none, (canonicalInteger_ok.1 hd).2]
    exact splitOnce_none (no_slash d)
  unfold canonicalRational
  rw [hs]
  dsimp only
  constructor
  · intro h
    obtain ⟨kind, hkind⟩ := h
    split at hkind
    · cases hkind
    · cases hn : canonicalInteger numerator with
      | error e =>
        cases hd : canonicalInteger denominator with
        | error e' =>
          rw [hn, hd] at hkind
          cases e <;> cases e' <;> cases hkind
        | ok d =>
          rw [hn, hd] at hkind
          cases e <;> cases hkind
      | ok n =>
        cases hd : canonicalInteger denominator with
        | error e =>
          rw [hn, hd] at hkind
          cases e <;> cases hkind
        | ok d =>
          rw [hn, hd] at hkind
          dsimp only at hkind
          split at hkind
          · cases hkind
          · split at hkind
            · rename_i hbounds hgcd
              exact ⟨n, d, rfl, rfl, by omega, by omega, hgcd⟩
            · cases hkind
  · intro h
    obtain ⟨n, d, hn, hd, hne, htwo, hgcd⟩ := h
    have hbounds : ¬(n = 0 ∨ d < 2) := by omega
    rw [if_neg (by rw [hcontains d hd]; decide), hn, hd]
    dsimp only
    rw [if_neg hbounds, if_pos hgcd]
    exact ⟨.other, rfl⟩

/-- What the reader accepts are the spellings of rationals. -/
theorem canonicalRational_spells (text : String) :
    (∃ kind, canonicalRational text = .ok kind) ↔ ∃ q, SpellsRational text q := by
  cases hs : splitOnce '/' text.toList with
  | none =>
    have hread : canonicalRational text = (canonicalInteger text.toList).map fun value =>
        if value = 0 then .zero else if value = 1 then .one else .other := by
      unfold canonicalRational
      rw [hs]
    rw [hread]
    constructor
    · intro h
      obtain ⟨kind, hkind⟩ := h
      cases hn : canonicalInteger text.toList with
      | error e =>
        rw [hn] at hkind
        cases hkind
      | ok n =>
        obtain ⟨hin, htext⟩ := canonicalInteger_ok.1 hn
        rw [String.toList_inj.1 htext]
        exact ⟨n, .whole n hin⟩
    · intro h
      obtain ⟨q, hq⟩ := h
      cases hq with
      | whole n hn =>
        rw [canonicalInteger_ok.2 ⟨hn, rfl⟩]
        exact ⟨_, rfl⟩
      | ratio n d hn hd hne two lowest =>
        rw [toList_ratio, splitOnce_append _ (no_slash n)] at hs
        cases hs
  | some parts =>
    obtain ⟨numerator, denominator⟩ := parts
    rw [canonicalRational_ratio hs]
    constructor
    · intro h
      obtain ⟨n, d, hn, hd, hne, htwo, hgcd⟩ := h
      obtain ⟨hin, hnumerator⟩ := canonicalInteger_ok.1 hn
      obtain ⟨hid, hdenominator⟩ := canonicalInteger_ok.1 hd
      have htext : text = toString n ++ "/" ++ toString d := by
        rw [← String.toList_inj, toList_ratio, eq_of_splitOnce hs, hnumerator, hdenominator]
      rw [htext]
      exact ⟨_, .ratio n d hin hid hne htwo hgcd⟩
    · intro h
      obtain ⟨q, hq⟩ := h
      cases hq with
      | whole n hn =>
        rw [splitOnce_none (no_slash n)] at hs
        cases hs
      | ratio n d hn hd hne two lowest =>
        rw [toList_ratio, splitOnce_append _ (no_slash n)] at hs
        cases hs
        exact ⟨n, d, canonicalInteger_ok.2 ⟨hn, rfl⟩, canonicalInteger_ok.2 ⟨hd, rfl⟩, hne, two,
          lowest⟩

/-- Zero and whole numbers have no denominator. -/
theorem canonicalRational_denominator_one :
    ¬∀ numerator denominator : String,
      (∃ kind, machineRational (numerator ++ "/" ++ denominator) = .ok kind) ↔
        ∃ n d : ℤ, InI128 n ∧ InI128 d ∧ numerator = toString n ∧ denominator = toString d ∧
          0 < d ∧ Nat.gcd n.natAbs d.natAbs = 1 ∧ (n = 0 → d = 1) := by
  intro h
  have hzero := (h "0" "1").2 ⟨0, 1, by decide, by decide, rfl, rfl, by decide, by decide,
    fun _ => rfl⟩
  obtain ⟨kind, hkind⟩ := hzero
  rw [machineRational_eq] at hkind
  have hrefused : canonicalRational ("0" ++ "/" ++ "1") = .error .noncanonical := by decide
  rw [hrefused] at hkind
  cases hkind

/-- The texts that both sides read as rationals are the spellings in lowest terms, two spellings
of one rational are the same text, and the loops start from the magnitudes and end at their
greatest common divisor. -/
theorem rationals_canonical :
    (∀ text, (∃ kind, machineRational text = .ok kind) ↔ ∃ q, SpellsRational text q) ∧
    (∀ text : String, isValue (bigRational text.toList) = true ↔ ∃ q, SpellsRational text q) ∧
    (∀ text text' q, SpellsRational text q → SpellsRational text' q → text = text') ∧
    (∀ n d, InI128 n → InI128 d → ∃ turns,
      (∀ k < turns, (euclidTurn^[k] (unsignedAbs n, unsignedAbs d)).2 ≠ 0) ∧
      euclidTurn^[turns] (unsignedAbs n, unsignedAbs d) =
        (euclid (unsignedAbs n) (unsignedAbs d), 0) ∧
      (euclid (unsignedAbs n) (unsignedAbs d)).toNat = Nat.gcd n.natAbs d.natAbs) := by
  refine ⟨?_, ?_, ?_, ?_⟩
  · intro text
    rw [machineRational_eq]
    exact canonicalRational_spells text
  · intro text
    rw [bigRational_eq, (rational_agrees text).isValue]
    exact canonicalRational_spells text
  · intro text text' q h h'
    exact h.unique h'
  · intro n d hn hd
    obtain ⟨turns, hbefore, hlast⟩ := euclid_ends (unsignedAbs n) (unsignedAbs d)
    refine ⟨turns, hbefore, hlast, ?_⟩
    rw [euclid_gcd, unsignedAbs_toNat hn, unsignedAbs_toNat hd]

end FilamentCore.Compiler.Ir
