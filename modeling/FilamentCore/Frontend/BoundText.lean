import FilamentCore.Compiler.DecimalAgreement
import FilamentCore.Frontend.Constraints
import FilamentCore.SemanticIr.ExactNumbers

/-!
# The text of a numeric bound

When the operand that `lower_constraints` writes for a number is the spelling that the reader asks
for. An integer displays as its digits; a double displays in one of two forms, which is what is
assumed of `serde_json`.
-/

namespace FilamentCore.Frontend.Constraints
open FilamentCore.SemanticIr
open FilamentCore.Frontend.Document (ConstraintNode)

/-! ### Numbers and their texts -/

/-- What a finite double displays as: digits that read back as it, with a fraction (`.0` for an
integer) in the plain form, and with an exponent in the other. -/
structure FloatText (display : Double → String) (plain : Double → Prop) : Prop where
  spells : ∀ x, ∃ ws fs tail e, Lexeme (display x).toList x.negative ws fs tail e ∧
    binary64 |scaledValue x.negative ws fs e| = some x.magnitude ∧
    (plain x → tail = [] ∧ fs ≠ [] ∧ (fs.getLast? = some '0' ↔ x.magnitude.den = 1)) ∧
    (¬ plain x → tail ≠ [])

def SerdeNumber.value : SerdeNumber → ℚ
  | posInt n _ => n
  | negInt z _ => z
  | float x => if x.negative then -x.magnitude else x.magnitude

/-- A text that reads as a number: exactly, or as the double nearest to it, with its sign. -/
def Denotes (text : String) : SerdeNumber → Prop
  | .posInt n _ => lexemeValue text.toList = some (n : ℚ)
  | .negInt z _ => lexemeValue text.toList = some (z : ℚ)
  | .float x => ∃ v, lexemeValue text.toList = some v ∧ binary64 |v| = some x.magnitude ∧
      (text.toList.head? = some '-' ↔ x.negative = true)

inductive BoundScalar where
  | integer
  | decimal
  deriving DecidableEq

def BoundScalar.name : BoundScalar → String
  | integer => "integer"
  | decimal => "decimal"

def Admissible : BoundScalar → SerdeNumber → Prop
  | .integer, n => n.value.den = 1 ∧ -2 ^ 127 ≤ n.value ∧ n.value < 2 ^ 127
  | .decimal, _ => True

/-- The reader's spelling test. -/
def canonicalFor : BoundScalar → String → Bool
  | .integer => isCanonicalInteger
  | .decimal => isCanonicalDecimal

def ExactOperand (scalar : BoundScalar) (n : SerdeNumber) (node : ConstraintNode) : Prop :=
  ∃ text, node.operands = [("value", .str text)] ∧ Denotes text n ∧
    (Admissible scalar n → canonicalFor scalar text = true)

/-- An integer of `serde_json`; a double in the plain form that is no integer for a decimal, and one
that is no admissible bound for an integer. -/
def Spellable (plain : Double → Prop) (scalar : BoundScalar) : SerdeNumber → Prop
  | .posInt _ _ | .negInt _ _ => True
  | .float x =>
    match scalar with
    | .integer => ¬ Admissible .integer (.float x)
    | .decimal => plain x ∧ x.magnitude.den ≠ 1

/-! ### Canonical spellings -/

theorem integerText_iff {ws : List Char} : Grammar.IntegerText ws ↔ WholePart ws := by
  constructor
  · rintro ⟨⟨hne, hdigit⟩, hlead⟩
    refine ⟨hdigit, ?_⟩
    cases ws with
    | nil => exact absurd rfl hne
    | cons c cs =>
      by_cases hc : c = '0'
      · exact .inl (hlead (by rw [hc]; rfl))
      · exact .inr ⟨c, cs, rfl, hc⟩
  · intro h
    rcases h.lead with rfl | ⟨c, cs, rfl, hc⟩
    · exact ⟨⟨by simp, h.digit⟩, fun _ => rfl⟩
    · refine ⟨⟨by simp, h.digit⟩, fun hhead => absurd ?_ hc⟩
      simpa using hhead

theorem whole_lexeme (n : Bool) {w : List Char} (hw : WholePart w) :
    Lexeme (signed n w) n w [] [] 0 := by
  refine ⟨by simp [pointed], ⟨rfl, integerText_iff.2 hw, by simp, .inl rfl, rfl⟩⟩

theorem whole_value (n : Bool) {w : List Char} (hw : WholePart w) : lexemeValue (signed n w) =
    some ((if n then -1 else 1) * (decimalValue w : ℚ)) := by
  rw [(whole_lexeme n hw).value, scaledValue]
  simp

theorem whole_canonical (scalar : BoundScalar) {n : Bool} {w : List Char} (hw : WholePart w)
    (hzero : n = true → w ≠ ['0']) {text : String} (htext : text.toList = signed n w) :
    canonicalFor scalar text = true := by
  cases scalar with
  | decimal =>
    exact (Compiler.isCanonicalDecimal_iff text).2
      (.inl ⟨n, w, [], ⟨hw, .nil, fun hn hw0 => absurd hw0 (hzero hn)⟩, htext⟩)
  | integer =>
    have hhead := hw.head_ne_minus []
    rw [List.append_nil] at hhead
    obtain ⟨hstrip, hsign⟩ := @stripMinus_signed n w hhead
    have hall := hw.digit
    show isCanonicalInteger text = true
    rw [isCanonicalInteger, htext, hstrip]
    rcases hw.lead with rfl | ⟨c, cs, rfl, hc⟩
    · cases n with
      | false => rfl
      | true => exact absurd rfl (hzero rfl)
    · have hdigit := hall c (List.mem_cons_self ..)
      have hrest : cs.all isAsciiDigit = true :=
        List.all_eq_true.2 fun d hd => hall d (List.mem_cons_of_mem _ hd)
      split
      · rename_i heq
        cases heq
      · rename_i heq
        exact absurd (List.cons.inj heq).1 hc
      · rename_i heq
        obtain ⟨rfl, rfl⟩ := List.cons.inj heq
        simp [hdigit, hc, hrest]

theorem canonicalInteger_digits {text : String} (h : isCanonicalInteger text = true) :
    ∀ c ∈ stripMinus text.toList, isAsciiDigit c = true := by
  unfold isCanonicalInteger at h
  split at h
  · cases h
  · rename_i heq
    rw [heq]
    simp [isAsciiDigit]
  · rename_i first rest hne heq
    rw [heq]
    simp only [Bool.and_eq_true, List.all_eq_true] at h
    intro c hc
    rcases List.mem_cons.1 hc with rfl | hc
    · exact h.1.1
    · exact h.2 c hc

section Layouts

variable {text : String} {negative : Bool} {ws fs tail : List Char} {e : ℤ}

theorem lexeme_unsigned (h : Lexeme text.toList negative ws fs tail e) :
    stripMinus text.toList = ws ++ (pointed fs ++ tail) ∧
      (text.toList.head? == some '-') = negative := by
  rw [h.eq]
  exact stripMinus_signed h.head

theorem lexeme_not_integer (h : Lexeme text.toList negative ws fs tail e)
    (hmark : fs ≠ [] ∨ tail ≠ []) : isCanonicalInteger text = false := by
  by_contra htrue
  rw [Bool.not_eq_false] at htrue
  have hdigits := canonicalInteger_digits htrue
  rw [(lexeme_unsigned h).1] at hdigits
  rcases hmark with hfs | htail
  · have hpoint := hdigits '.' (by simp [pointed_of_ne hfs])
    cases hpoint
  · obtain rfl | ⟨m, sign, ds, hm, -, -, rfl⟩ := h.parts.exponent
    · exact htail rfl
    · have hmarker := hdigits m (by simp)
      rcases hm with rfl | rfl
      · cases hmarker
      · cases hmarker

theorem lexeme_not_decimal (h : Lexeme text.toList negative ws fs tail e) (htail : tail ≠ []) :
    isCanonicalDecimal text = false := by
  by_contra htrue
  rw [Bool.not_eq_false] at htrue
  obtain ⟨m, sign, ds, hm, -, -, rfl⟩ := h.parts.exponent.resolve_left htail
  have hmem : m ∈ text.toList := by
    rw [h.eq]
    cases negative <;> simp [signed]
  have hdigit : isAsciiDigit m = false ∧ m ≠ '-' ∧ m ≠ '.' := by
    rcases hm with rfl | rfl
    · exact ⟨rfl, by decide, by decide⟩
    · exact ⟨rfl, by decide, by decide⟩
  have hnot : ∀ (n : Bool) (rest : List Char), (∀ c ∈ rest, isAsciiDigit c = true ∨ c = '.') →
      m ∉ signed n rest := by
    intro n rest hrest hin
    have hrest' : m ∈ rest := by
      cases n with
      | false => exact hin
      | true => exact (List.mem_cons.1 hin).resolve_left hdigit.2.1
    rcases hrest m hrest' with hd | hd
    · rw [hdigit.1] at hd
      cases hd
    · exact hdigit.2.2 hd
  rcases (Compiler.isCanonicalDecimal_iff text).1 htrue with ⟨n, w, f, hparts, htext⟩ | ⟨n, w, hw, htext⟩
  · obtain ⟨t, hspell, ht⟩ := Compiler.spellParts_eq n w f
    rw [htext, hspell] at hmem
    refine hnot n (w ++ t) (fun c hc => ?_) hmem
    rcases List.mem_append.1 hc with hc | hc
    · exact .inl (hparts.whole.digit c hc)
    · rcases ht with ⟨rfl, -⟩ | ⟨rfl, -⟩
      · cases hc
      · rcases List.mem_cons.1 hc with rfl | hc
        · exact .inr rfl
        · exact .inl (hparts.fraction.digit c hc)
  · rw [htext] at hmem
    refine hnot n (w ++ ['.']) (fun c hc => ?_) hmem
    rcases List.mem_append.1 hc with hc | hc
    · exact .inl (hw.digit c hc)
    · exact .inr (List.mem_singleton.1 hc)

theorem lexeme_plain_decimal (h : Lexeme text.toList negative ws fs [] e) (hfs : fs ≠ []) :
    isCanonicalDecimal text = true ↔ fs.getLast? ≠ some '0' := by
  obtain ⟨hstrip, hsign⟩ := lexeme_unsigned h
  have hws := integerText_iff.1 h.parts.whole
  rw [List.append_nil, pointed_of_ne hfs] at hstrip
  have hcut := cutPoint_point (point_not_digit hws.digit) fs
  have hunsigned : (negative && (ws ++ '.' :: fs) == ['0']) = false := by
    rw [Bool.and_eq_false_iff]
    right
    rw [beq_eq_false_iff_ne]
    intro heq
    have hlength := congrArg List.length heq
    have hpos := hws.length_pos
    simp only [List.length_append, List.length_cons, List.length_nil] at hlength
    omega
  have hfraction := @Compiler.fractionPart_iff fs
  rw [isCanonicalDecimal, hsign, hstrip]
  simp only [hcut, hunsigned, Compiler.wholePart_iff.2 hws, Bool.not_false, Bool.true_and, hfraction]
  exact ⟨fun hf => hf.last, fun hlast => ⟨h.parts.fraction, hlast⟩⟩

end Layouts

/-! ### The operand of a bound -/

theorem toString_negative {z : ℤ} (hz : z < 0) :
    (toString z).toList = signed true (toString z.natAbs).toList := by
  cases z with
  | ofNat n => exact absurd hz (not_lt.2 (Int.natCast_nonneg n))
  | negSucc n =>
    have htext : toString (Int.negSucc n) = "-" ++ toString (n + 1) := rfl
    rw [htext, String.toList_append]
    rfl

theorem text_denotes {display : Double → String} {plain : Double → Prop}
    (h : FloatText display plain) (n : SerdeNumber) : Denotes (n.text display) n := by
  cases n with
  | posInt n fits =>
    have hvalue := whole_value false (toString_whole n)
    rw [decimalValue_toString] at hvalue
    simpa [Denotes, SerdeNumber.text, signed] using hvalue
  | negInt z fits =>
    have hvalue := whole_value true (toString_whole z.natAbs)
    rw [decimalValue_toString, ← toString_negative fits.2] at hvalue
    show lexemeValue (toString z).toList = some (z : ℚ)
    rw [hvalue]
    have habs : ((z.natAbs : ℕ) : ℤ) = -z := Int.ofNat_natAbs_of_nonpos fits.2.le
    have hcast : ((z.natAbs : ℕ) : ℚ) = -(z : ℚ) := by
      rw [← Int.cast_natCast, habs, Int.cast_neg]
    rw [hcast]
    simp
  | float x =>
    obtain ⟨ws, fs, tail, e, hlexeme, hreads, -⟩ := h.spells x
    refine ⟨_, hlexeme.value, hreads, ?_⟩
    have hsign := (lexeme_unsigned hlexeme).2
    rw [← hsign]
    simp [SerdeNumber.text]

theorem text_canonical {display : Double → String} {plain : Double → Prop}
    (h : FloatText display plain) (scalar : BoundScalar) (n : SerdeNumber) :
    (Admissible scalar n → canonicalFor scalar (n.text display) = true) ↔
      Spellable plain scalar n := by
  cases n with
  | posInt n fits =>
    refine iff_of_true (fun _ => ?_) trivial
    have hplus : false = true → (toString n).toList ≠ ['0'] := fun h => by cases h
    exact whole_canonical scalar (toString_whole n) hplus rfl
  | negInt z fits =>
    refine iff_of_true (fun _ => ?_) trivial
    refine whole_canonical scalar (toString_whole z.natAbs) (fun _ hzero => ?_)
      (toString_negative fits.2)
    have hvalue := decimalValue_toString z.natAbs
    rw [hzero] at hvalue
    have hzero' : decimalValue ['0'] = 0 := by decide
    omega
  | float x =>
    obtain ⟨ws, fs, tail, e, hlexeme, -, hplain, hmarked⟩ := h.spells x
    cases scalar with
    | integer =>
      have hnot : isCanonicalInteger (display x) = false := by
        refine lexeme_not_integer hlexeme ?_
        by_cases hx : plain x
        · exact .inl (hplain hx).2.1
        · exact .inr (hmarked hx)
      simp [canonicalFor, SerdeNumber.text, Spellable, hnot]
    | decimal =>
      have htext : canonicalFor .decimal ((SerdeNumber.float x).text display) =
          isCanonicalDecimal (display x) := rfl
      rw [htext]
      by_cases hx : plain x
      · obtain ⟨rfl, hfs, hlast⟩ := hplain hx
        rw [lexeme_plain_decimal hlexeme hfs]
        simp only [Admissible, Spellable, hx, true_and, true_implies, ne_eq, not_iff_not]
        exact hlast
      · have hnot := lexeme_not_decimal hlexeme (hmarked hx)
        simp [Admissible, Spellable, hnot, hx]

theorem exactOperands_bound (display : Double → String) {kind : Option ResolvedKind}
    (scalar : BoundScalar) (hkind : kind = some (.scalar scalar.name)) {keyword : Keyword}
    (hbound : keyword.isBound = true) (n : SerdeNumber) :
    (exactOperands display kind keyword [("value", .number n)]).map
      (fun m => (m.1, m.2.toJson display)) = [("value", .str (n.text display))] := by
  subst hkind
  cases scalar <;> simp [exactOperands, BoundScalar.name, hbound, spellValue, Value.toJson]

/-! ### The nodes of a run -/

def MadeOf (display : Double → String) (ctx : RowContext) (constraint : Constraint)
    (node : ConstraintNode) : Prop :=
  node.keyword = (keywordAndOperands display constraint).1.name ∧
    node.operands = (exactOperands display ctx.kind (keywordAndOperands display constraint).1
      (keywordAndOperands display constraint).2).map fun m => (m.1, m.2.toJson display)

theorem lowerConstraint_cases {display : Double → String} {ctx : RowContext} {row row' : Row}
    {constraint : Constraint} (h : lowerConstraint display ctx row constraint = some row') :
    (∀ k, k ∈ row'.keywords ↔ k = (keywordAndOperands display constraint).1 ∨ k ∈ row.keywords) ∧
      (row'.out = row.out ∨ (keywordAndOperands display constraint).1 ∉ row.keywords ∧
        ∃ node, row'.out = row.out ++ [node] ∧ MadeOf display ctx constraint node) := by
  unfold lowerConstraint at h
  unfold MadeOf
  generalize keywordAndOperands display constraint = made at h ⊢
  obtain ⟨keyword, operands⟩ := made
  simp only at h ⊢
  split at h
  · rename_i hin
    obtain rfl := Option.some.inj h
    refine ⟨fun k => ⟨.inr, ?_⟩, .inl rfl⟩
    rintro (rfl | hk)
    · exact hin
    · exact hk
  · rename_i hnew
    obtain ⟨code, -, h⟩ := Option.bind_eq_some_iff.1 h
    split at h
    · obtain rfl := Option.some.inj h
      exact ⟨fun k => List.mem_cons, .inl rfl⟩
    · split at h
      · obtain rfl := Option.some.inj h
        exact ⟨fun k => List.mem_cons, .inl rfl⟩
      · split at h
        · obtain rfl := Option.some.inj h
          exact ⟨fun k => List.mem_cons, .inl rfl⟩
        · obtain rfl := Option.some.inj h
          exact ⟨fun k => List.mem_cons, .inr ⟨hnew, _, rfl, rfl, rfl⟩⟩

theorem lowerConstraints_made {display : Double → String} {ctx : RowContext}
    {constraints : List Constraint} {row row' : Row}
    (h : constraints.foldlM (lowerConstraint display ctx) row = some row') :
    ∀ node ∈ row'.out, node ∈ row.out ∨ ∃ c, MadeOf display ctx c node ∧
      (keywordAndOperands display c).1 ∉ row.keywords ∧
      constraints.find? (fun d => (keywordAndOperands display d).1 =
        (keywordAndOperands display c).1) = some c := by
  induction constraints generalizing row with
  | nil =>
    cases h
    exact fun node hnode => .inl hnode
  | cons d constraints ih =>
    rw [List.foldlM_cons, Option.bind_eq_bind, Option.bind_eq_some_iff] at h
    obtain ⟨middle, hstep, hrest⟩ := h
    obtain ⟨hkeywords, hout⟩ := lowerConstraint_cases hstep
    intro node hnode
    rcases ih hrest node hnode with hin | ⟨c, hmade, hnew, hfind⟩
    · rcases hout with heq | ⟨hnew, made, heq, hmade⟩
      · rw [heq] at hin
        exact .inl hin
      · rw [heq] at hin
        rcases List.mem_append.1 hin with hin | hlast
        · exact .inl hin
        · obtain rfl := List.mem_singleton.1 hlast
          exact .inr ⟨d, hmade, hnew, by simp⟩
    · rw [hkeywords, not_or] at hnew
      refine .inr ⟨c, hmade, hnew.2, ?_⟩
      rw [List.find?_cons_of_neg (by simpa using fun heq => hnew.1 heq.symm), hfind]

theorem Keyword.name_injective : Function.Injective Keyword.name := by
  intro a b
  cases a <;> cases b <;> simp [Keyword.name]

/-- The node of the first constraint of a keyword, a number that bounds a scalar. -/
theorem lowerConstraints_bound {display : Double → String} {plain : Double → Prop}
    (hfloat : FloatText display plain) (ctx : RowContext) (scalar : BoundScalar)
    (hkind : ctx.kind = some (.scalar scalar.name)) (codes : List (String × Locus))
    (constraints : List Constraint) (row : Row)
    (hrun : lowerConstraints display ctx codes constraints = some row) (constraint : Constraint)
    (keyword : Keyword) (n : SerdeNumber)
    (hnumber : keywordAndOperands display constraint = (keyword, [("value", .number n)]))
    (hbound : keyword.isBound = true)
    (hfirst : constraints.find? (fun d => (keywordAndOperands display d).1 = keyword) =
      some constraint)
    (node : ConstraintNode) (hnode : node ∈ row.out) (hkeyword : node.keyword = keyword.name) :
    ExactOperand scalar n node ↔ Spellable plain scalar n := by
  obtain hnone | ⟨c, ⟨hname, hoperands⟩, -, hfind⟩ := lowerConstraints_made hrun node hnode
  · cases hnone
  · have hsame : (keywordAndOperands display c).1 = keyword :=
      Keyword.name_injective (hname.symm.trans hkeyword)
    rw [hsame, hfirst, Option.some.injEq] at hfind
    subst hfind
    rw [hnumber] at hoperands
    rw [exactOperands_bound display scalar hkind hbound] at hoperands
    rw [← text_canonical hfloat scalar n]
    constructor
    · rintro ⟨text, heq, -, hcanonical⟩
      rw [hoperands] at heq
      have htext : text = n.text display := by simpa using heq.symm
      rw [htext] at hcanonical
      exact hcanonical
    · intro hcanonical
      exact ⟨n.text display, hoperands, text_denotes hfloat n, hcanonical⟩

/-! ### A display of doubles -/

/-- A small integer with `.0`, and the shortest digits with an exponent otherwise. -/
def sampleText (x : Double) : String :=
  if x.magnitude.den = 1 ∧ x.magnitude < 2 ^ 53 then
    String.ofList (signed x.negative ((toString x.magnitude.num.natAbs).toList ++ ['.', '0']))
  else
    let (digits, point) := shortestDigits x.magnitude.num.natAbs x.magnitude.den
    let e : ℤ := point - digits.length
    String.ofList (signed x.negative
      (digits ++ 'e' :: (if 0 ≤ e then '+' else '-') :: (toString e.natAbs).toList))

theorem scaledValue_abs (n : Bool) (ws fs : List Char) (e : ℤ) :
    |scaledValue n ws fs e| = decimalValue (ws ++ fs) * 10 ^ (e - fs.length) := by
  have hpos : (0 : ℚ) ≤ decimalValue (ws ++ fs) * 10 ^ (e - fs.length) := by positivity
  cases n
  · simp [scaledValue, abs_of_nonneg hpos]
  · simp [scaledValue, abs_of_nonneg hpos]

theorem sampleText_spells :
    FloatText sampleText fun x => x.magnitude.den = 1 ∧ x.magnitude < 2 ^ 53 := by
  constructor
  intro x
  by_cases hx : x.magnitude.den = 1 ∧ x.magnitude < 2 ^ 53
  · have hwhole := toString_whole x.magnitude.num.natAbs
    have hnat : ((x.magnitude.num.natAbs : ℕ) : ℚ) = x.magnitude := by
      have hnum : (0 : ℤ) ≤ x.magnitude.num := Rat.num_nonneg.2 x.nonneg
      have hint : (x.magnitude.num : ℚ) = x.magnitude := Rat.coe_int_num_of_den_eq_one hx.1
      rw [Nat.cast_natAbs, abs_of_nonneg hnum, hint]
    have hsmall : x.magnitude.num.natAbs ≤ 2 ^ 53 := by
      have hlt := hx.2
      rw [← hnat] at hlt
      exact_mod_cast hlt.le
    refine ⟨_, ['0'], [], 0, ⟨?_, ⟨rfl, integerText_iff.2 hwhole, by simp [isAsciiDigit], .inl rfl,
      rfl⟩⟩, ?_, fun _ => ⟨rfl, by simp, by simp [hx.1]⟩, fun hnot => absurd hx hnot⟩
    · rw [sampleText, if_pos hx, String.toList_ofList]
      rfl
    · have hten : (decimalValue ((toString x.magnitude.num.natAbs).toList ++ ['0']) : ℚ) =
          10 * x.magnitude.num.natAbs := by
        have hconcat := decimalValue_concat (toString x.magnitude.num.natAbs).toList '0'
        rw [decimalValue_toString] at hconcat
        rw [hconcat, Nat.sub_self, Nat.add_zero, Nat.cast_mul]
        push_cast
        ring
      have hvalue : (10 * x.magnitude.num.natAbs : ℚ) * 10 ^ ((0 : ℤ) - (['0'].length : ℕ)) =
          x.magnitude.num.natAbs := by
        rw [List.length_singleton]
        norm_num
        ring
      rw [scaledValue_abs, hten, hvalue, binary64_integer hsmall, hnat]
  · have hne : x.magnitude ≠ 0 := by
      intro hzero
      rw [hzero] at hx
      norm_num at hx
    have hpos : 0 < x.magnitude := lt_of_le_of_ne x.nonneg hne.symm
    obtain hzero | ⟨m, e, -, hbinary⟩ | ⟨m, e, hneg, -⟩ := round_cases x.finite
    · exact absurd hzero hne
    · have hshort := shortestDigits_spec hbinary hpos
      rw [sampleText, if_neg hx]
      generalize shortestDigits x.magnitude.num.natAbs x.magnitude.den = found at hshort ⊢
      obtain ⟨digits, point⟩ := found
      obtain ⟨htail, hexponent⟩ := exponent_spelling (point - digits.length)
      have hleading : Leading digits := ⟨hshort.digit, hshort.head⟩
      refine ⟨digits, [], _, point - digits.length, ⟨?_, ⟨rfl, hleading.integerText, by simp, htail,
        hexponent⟩⟩, ?_, fun hplain => absurd hplain hx, fun _ => by simp⟩
      · rw [String.toList_ofList]
        rfl
      · rw [scaledValue_abs]
        simpa using hshort.reads
    · exact absurd hneg (not_lt.2 x.nonneg)

/-! ### Runs -/

/-- The double `5.0`. -/
def fiveDouble : Double where
  negative := false
  magnitude := 5
  finite := by exact_mod_cast binary64_integer (z := 5) (by norm_num)
  nonneg := by norm_num

def amountContext : RowContext where
  package := ⟨"agent-ix", "spec"⟩
  id := "AR_001"
  displayName := "Order"
  name := "amount"
  fieldIdentity := "ix://agent-ix/spec/AR_001/amount"
  kind := some (.scalar "integer")
  locus := ⟨"ix://agent-ix/spec/spec", "order.md", 1, 1⟩

theorem amount_runs (n : SerdeNumber) : ∃ row node,
    lowerConstraints sampleText amountContext [] [.min (.number n)] = some row ∧
      row.out = [node] ∧ node.keyword = "min" ∧
      node.operands = [("value", .str (n.text sampleText))] :=
  ⟨_, _, rfl, rfl, rfl, rfl⟩

/-- The bound `5.0` of an integer field is no canonical integer. -/
theorem lowerConstraints_fraction : ∃ row node,
    lowerConstraints sampleText amountContext [] [.min (.number (.float fiveDouble))] = some row ∧
      row.out = [node] ∧ Admissible .integer (.float fiveDouble) ∧
      ¬ ExactOperand .integer (.float fiveDouble) node := by
  obtain ⟨row, node, hrun, hout, -, hoperands⟩ := amount_runs (.float fiveDouble)
  have hadmissible : Admissible .integer (.float fiveDouble) := by
    have hvalue : (SerdeNumber.float fiveDouble).value = 5 := by
      simp [SerdeNumber.value, fiveDouble]
    rw [Admissible, hvalue]
    norm_num
  refine ⟨row, node, hrun, hout, hadmissible, ?_⟩
  rintro ⟨text, heq, -, hcanonical⟩
  rw [hoperands] at heq
  have htext : text = (SerdeNumber.float fiveDouble).text sampleText := by simpa using heq.symm
  rw [htext] at hcanonical
  exact (text_canonical sampleText_spells .integer (.float fiveDouble)).1 hcanonical hadmissible

theorem lowerConstraints_bound_five : ∃ row node,
    lowerConstraints sampleText amountContext [] [.min (.number (.posInt 5 (by norm_num)))] =
      some row ∧ node ∈ row.out ∧ ExactOperand .integer (.posInt 5 (by norm_num)) node := by
  obtain ⟨row, node, hrun, hout, hkeyword, -⟩ := amount_runs (.posInt 5 (by norm_num))
  have hnode : node ∈ row.out := by
    rw [hout]
    exact List.mem_cons_self ..
  exact ⟨row, node, hrun, hnode, (lowerConstraints_bound sampleText_spells amountContext .integer rfl
    [] _ row hrun _ .min (.posInt 5 (by norm_num)) rfl rfl rfl node hnode hkeyword).2 trivial⟩

end FilamentCore.Frontend.Constraints
