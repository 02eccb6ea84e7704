import FilamentCore.Compiler.UnitGraph
import FilamentCore.SemanticIr.AsciiText
import FilamentCore.SemanticIr.Digits

/-!
# The two unit graph checks agree (FR-146)

On a schema-valid document the compiler and the Rust reader raise the same codes at the same
pointers.
-/

namespace FilamentCore.Compiler.Ir
open FilamentCore.Library
open FilamentCore.SemanticIr
open FilamentCore.SemanticIr.UnitGraph (Edges targetsOf componentsFrom finishOrder text
  spellsInteger canonicalInteger_eq positionOf positionOf_spec coefficient TermShaped
  DimensionShaped UnitShaped Shaped)

/-! ### Integers -/

/-- How the compiler reads what the Rust reader reads. -/
def numeralOf : Except NumericError ℤ → Numeral
  | .ok value => .value value
  | .error .noncanonical => .invalid
  | .error .outsideI128 => .outside

theorem stripMinus_digit {c : Char} {cs : List Char} (h : isAsciiDigit c = true) :
    stripMinus (c :: cs) = c :: cs := by
  unfold stripMinus
  split
  · rename_i heq
    cases heq
    cases h
  · rfl

theorem stripSign_digit {c : Char} {cs : List Char} (h : isAsciiDigit c = true) :
    stripSign (c :: cs) = c :: cs := by
  unfold stripSign
  split
  · rename_i heq
    cases heq
    cases h
  · rename_i heq
    cases heq
    cases h
  · rfl

theorem spells_cases {cs : List Char} (h : spellsInteger cs = true) :
    cs = ['0'] ∨ ∃ first rest, isAsciiDigit first = true ∧ first ≠ '0' ∧
      rest.all isAsciiDigit = true ∧ (cs = first :: rest ∨ cs = '-' :: first :: rest) := by
  simp only [spellsInteger, Bool.or_eq_true, beq_iff_eq] at h
  rcases h with h | h
  · exact .inl h
  · right
    cases hs : stripMinus cs with
    | nil => simp [hs] at h
    | cons first rest =>
      simp only [hs, Bool.and_eq_true, bne_iff_ne] at h
      refine ⟨first, rest, h.1.1, h.1.2, h.2, ?_⟩
      unfold stripMinus at hs
      split at hs
      · exact .inr (by rw [hs])
      · exact .inl hs

/-- What a text that spells an integer reads as. -/
structure Spelled (cs : List Char) : Prop where
  parsed : parseInt 128 cs =
    if i128Min ≤ bigInt cs ∧ bigInt cs ≤ i128Max then some (bigInt cs) else none
  long : 40 < cs.length → ¬ (i128Min ≤ bigInt cs ∧ bigInt cs ≤ i128Max)
  zero : bigInt cs = 0 ↔ cs = ['0']
  one : bigInt cs = 1 ↔ cs = ['1']

theorem parseInt_digits {digits cs : List Char} {value : ℤ} (hs : stripSign cs = digits)
    (hne : digits.isEmpty = false) (hall : digits.all isAsciiDigit = true)
    (hv : value = if cs.head? = some '-' then -(decimalValue digits : ℤ) else decimalValue digits) :
    parseInt 128 cs = if i128Min ≤ value ∧ value ≤ i128Max then some value else none := by
  simp only [parseInt, hs, hne, hall, Bool.not_true, Bool.or_self, Bool.false_eq_true, if_false,
    ← hv, i128Min, i128Max]
  have hlt : value < 2 ^ (128 - 1) ↔ value ≤ 2 ^ 127 - 1 := by omega
  simp only [hlt]
  rfl

theorem spelled {cs : List Char} (h : spellsInteger cs = true) : Spelled cs := by
  rcases spells_cases h with rfl | ⟨first, rest, hd, hz, hall, rfl | rfl⟩
  · exact ⟨by decide, by decide, by decide, by decide⟩
  · have hhead : (first :: rest).head? ≠ some '-' := head_ne_minus hd
    have hvalue : bigInt (first :: rest) = decimalValue (first :: rest) := by
      rw [bigInt, if_neg hhead]
    have hle := @le_decimalValue first rest hd hz
    have hpos := Nat.one_le_pow rest.length 10 (by omega)
    refine ⟨?_, ?_, ?_, ?_⟩
    · apply parseInt_digits (stripSign_digit hd) rfl (by simp [hd, hall])
      rw [hvalue, if_neg hhead]
    · intro hlong hbounds
      have hbig : 10 ^ 40 ≤ 10 ^ rest.length :=
        Nat.pow_le_pow_right (by omega) (by simpa using hlong)
      have hmax : i128Max < 10 ^ 40 := by decide
      omega
    · constructor
      · intro hzero
        omega
      · intro heq
        cases heq
        exact absurd rfl hz
    · rw [hvalue]
      constructor
      · intro hone
        exact eq_one_of_decimalValue hd hz (by omega)
      · intro heq
        rw [heq]
        decide
  · have hvalue : bigInt ('-' :: first :: rest) = -(decimalValue (first :: rest) : ℤ) := rfl
    have hle := @le_decimalValue first rest hd hz
    have hpos := Nat.one_le_pow rest.length 10 (by omega)
    refine ⟨?_, ?_, ?_, ?_⟩
    · have hsign : stripSign ('-' :: first :: rest) = first :: rest := rfl
      exact parseInt_digits hsign rfl (by simp [hd, hall]) rfl
    · intro hlong hbounds
      have hbig : 10 ^ 39 ≤ 10 ^ rest.length :=
        Nat.pow_le_pow_right (by omega) (by simpa using hlong)
      have hmin : -(10 ^ 39 : ℤ) < i128Min := by decide
      omega
    · constructor
      · intro hzero
        omega
      · intro heq
        cases heq
    · constructor
      · intro hone
        omega
      · intro heq
        cases heq

theorem integer_eq (cs : List Char) : integer cs = numeralOf (canonicalInteger cs) := by
  rw [canonicalInteger_eq, integer]
  cases hs : spellsInteger cs with
  | false => rfl
  | true =>
    have h := spelled hs
    rw [h.parsed]
    by_cases hin : i128Min ≤ bigInt cs ∧ bigInt cs ≤ i128Max
    · have hshort : ¬ 40 < cs.length := fun hlong => h.long hlong hin
      have hnot : ¬ (bigInt cs < i128Min ∨ i128Max < bigInt cs) := by omega
      simp [hshort, hin, hnot, numeralOf]
    · have hout : bigInt cs < i128Min ∨ i128Max < bigInt cs := by omega
      by_cases hlong : 40 < cs.length <;> simp [hlong, hin, hout, numeralOf]

/-! ### Rationals -/

theorem splitOn_eq (separator : Char) (cs : List Char) :
    splitOn separator cs = match splitOnce separator cs with
      | none => [cs]
      | some (head, tail) => head :: splitOn separator tail := by
  induction cs with
  | nil => rfl
  | cons c cs ih =>
    by_cases hc : c = separator
    · simp [splitOn, splitOnce, hc]
    · simp only [splitOn, splitOnce, if_neg hc]
      cases hs : splitOnce separator cs with
      | none =>
        rw [hs] at ih
        rw [ih]
        rfl
      | some parts =>
        rw [hs] at ih
        rw [ih]
        rfl

theorem splitOnce_eq_none {separator : Char} {cs : List Char} :
    splitOnce separator cs = none ↔ cs.contains separator = false := by
  induction cs with
  | nil => simp [splitOnce]
  | cons c cs ih =>
    by_cases hc : c = separator
    · simp [splitOnce, hc]
    · have hne : (separator == c) = false := beq_eq_false_iff_ne.2 fun h => hc h.symm
      simp only [splitOnce, if_neg hc, Option.map_eq_none_iff, ih, List.contains_cons, hne,
        Bool.false_or]

theorem splitOn_ne_nil (separator : Char) (cs : List Char) : splitOn separator cs ≠ [] := by
  rw [splitOn_eq]
  split <;> exact List.cons_ne_nil _ _

/-- The two readers take a rational, or refuse it alike. -/
inductive Agrees : Numeral → Except NumericError RationalKind → Prop
  | invalid : Agrees .invalid (.error .noncanonical)
  | outside : Agrees .outside (.error .outsideI128)
  | value (n : ℤ) (kind : RationalKind) : Agrees (.value n) (.ok kind)

theorem agrees_integer (cs : List Char) (kind : ℤ → RationalKind) :
    Agrees (numeralOf (canonicalInteger cs)) ((canonicalInteger cs).map kind) := by
  rcases canonicalInteger cs with (_ | _) | value
  · exact .invalid
  · exact .outside
  · exact .value ..

theorem rational_agrees (text : String) :
    Agrees (rational text.toList) (canonicalRational text) := by
  simp only [rational, canonicalRational]
  rw [splitOn_eq]
  cases hs : splitOnce '/' text.toList with
  | none =>
    simp only [integer_eq]
    exact agrees_integer _ _
  | some parts =>
    obtain ⟨numerator, denominator⟩ := parts
    simp only [integer_eq]
    rw [splitOn_eq]
    cases hd : splitOnce '/' denominator with
    | some rest =>
      have hcontains : denominator.contains '/' = true := by
        by_contra hno
        rw [splitOnce_eq_none.2 (by simpa using hno)] at hd
        cases hd
      obtain ⟨head, tail⟩ := rest
      obtain ⟨first, more, hsplit⟩ := List.exists_cons_of_ne_nil (splitOn_ne_nil '/' tail)
      simp only [hcontains, if_true, hsplit]
      exact .invalid
    | none =>
      have hcontains : denominator.contains '/' = false := splitOnce_eq_none.1 hd
      simp only [hcontains, Bool.false_eq_true, if_false]
      rcases canonicalInteger numerator with (_ | _) | n <;>
        rcases canonicalInteger denominator with (_ | _) | d <;> simp only [numeralOf]
      · exact .invalid
      · exact .outside
      · exact .invalid
      · exact .outside
      · exact .outside
      · exact .outside
      · exact .invalid
      · exact .outside
      · by_cases hbounds : n = 0 ∨ d < 2
        · rw [if_pos hbounds, if_pos hbounds]
          exact .invalid
        · rw [if_neg hbounds, if_neg hbounds]
          by_cases hgcd : Nat.gcd n.natAbs d.natAbs = 1
          · rw [if_pos hgcd, if_pos hgcd]
            exact .value ..
          · rw [if_neg hgcd, if_neg hgcd]
            exact .invalid

def refusal : Except NumericError RationalKind → Option SemanticIr.Code
  | .ok _ => none
  | .error e => some e.code

theorem Agrees.refused {parsed : Numeral} {read : Except NumericError RationalKind}
    (h : Agrees parsed read) : parsed.refused = refusal read := by
  cases h <;> rfl

theorem Agrees.isValue {parsed : Numeral} {read : Except NumericError RationalKind}
    (h : Agrees parsed read) : isValue parsed = true ↔ ∃ kind, read = .ok kind := by
  cases h <;> simp [Ir.isValue]

theorem canonicalRational_zero_one (text : String) :
    (canonicalRational text = .ok .zero ↔ text = "0") ∧
      (canonicalRational text = .ok .one ↔ text = "1") := by
  cases hs : splitOnce '/' text.toList with
  | some parts =>
    have hne : ∀ other : String, splitOnce '/' other.toList = none → text ≠ other := by
      intro other ho heq
      rw [heq, ho] at hs
      cases hs
    have hother : ∀ kind, canonicalRational text = .ok kind → kind = .other := by
      intro kind hk
      unfold canonicalRational at hk
      rw [hs] at hk
      simp only at hk
      split at hk
      · cases hk
      · split at hk
        · cases hk
        · cases hk
        · cases hk
        · cases hk
        · split at hk
          · cases hk
          · split at hk
            · cases hk
              rfl
            · cases hk
    have hzero := hne "0" (by decide)
    have hone := hne "1" (by decide)
    constructor
    · exact ⟨fun h => (nomatch hother _ h), fun h => absurd h hzero⟩
    · exact ⟨fun h => (nomatch hother _ h), fun h => absurd h hone⟩
  | none =>
    have hread : canonicalRational text = (canonicalInteger text.toList).map fun value =>
        if value = 0 then .zero else if value = 1 then .one else .other := by
      unfold canonicalRational
      rw [hs]
    rw [hread, canonicalInteger_eq]
    cases hsp : spellsInteger text.toList with
    | false =>
      have hne : ∀ other : String, spellsInteger other.toList = true → text ≠ other := by
        intro other ho heq
        rw [heq, ho] at hsp
        cases hsp
      have hzero := hne "0" (by decide)
      have hone := hne "1" (by decide)
      simp [Except.map, hzero, hone]
    | true =>
      have h := spelled hsp
      have hzero : bigInt text.toList = 0 ↔ text = "0" := by
        rw [h.zero, ← String.toList_inj]
        rfl
      have hone : bigInt text.toList = 1 ↔ text = "1" := by
        rw [h.one, ← String.toList_inj]
        rfl
      rw [← hzero, ← hone, h.parsed]
      by_cases hin : i128Min ≤ bigInt text.toList ∧ bigInt text.toList ≤ i128Max
      · rw [if_pos hin]
        by_cases h0 : bigInt text.toList = 0
        · simp [Except.map, h0]
        · by_cases h1 : bigInt text.toList = 1 <;> simp [Except.map, h0, h1]
      · rw [if_neg hin]
        have hmin : i128Min ≤ 0 := by decide
        have hmax : 1 ≤ i128Max := by decide
        have h0 : bigInt text.toList ≠ 0 := by omega
        have h1 : bigInt text.toList ≠ 1 := by omega
        simp [Except.map, h0, h1]

/-! ### Identities -/

def Raised.place (raised : Raised) : SemanticIr.Code × String := (raised.code, raised.pointer)

def place (issue : Issue) : SemanticIr.Code × String := (issue.code, issue.pointer)

theorem emitIf_places (wrong : Bool) (code : SemanticIr.Code) (pointer message other : String)
    (node : Json) : (emitIf wrong code pointer message node).map Raised.place =
      (Issue.emitIf wrong pointer code other).map place := by
  cases wrong <;> rfl

theorem asObject_of_text {node : Json} {name found : String} (h : text node name = some found) :
    ∃ members, node.asObject = some members := by
  cases node with
  | object members => exact ⟨members, rfl⟩
  | _ => simp [text, Json.getStr, Json.get] at h

/-- What an entry needs for the two readers to index it alike. -/
def Named (node : Json) : Prop :=
  (∃ identity, text node "identity" = some identity) ∧ ∃ name, text node "name" = some name

theorem Found.get_concat (found : Found) (identity other : String) (position : ℕ) :
    Found.get (found ++ [(identity, position)]) (some other) =
      ((found.get (some other)).orElse fun _ =>
        if identity = other then some position else none) := by
  simp only [Found.get, Option.bind_some, List.find?_append]
  cases List.find? (fun entry => entry.1 == other) found with
  | some entry => rfl
  | none => by_cases h : identity = other <;> simp [h]

theorem indexNodes_spec (package label : String) {nodes : List (Json × ℕ)} {found : Found}
    {seen : List String} (hn : ∀ node ∈ nodes, Named node.1)
    (hseen : ∀ identity, identity ∈ seen ↔ (found.get (some identity)).isSome = true) :
    (indexNodes (some package) label found nodes).1.map Raised.place =
        (UnitGraph.identityIssues label (collection label) package seen nodes).map place ∧
      ∀ identity, (indexNodes (some package) label found nodes).2.get (some identity) =
        ((found.get (some identity)).orElse fun _ =>
          (nodes.find? fun node => text node.1 "identity" == some identity).map Prod.snd) := by
  induction nodes generalizing found seen with
  | nil =>
    refine ⟨rfl, fun identity => ?_⟩
    cases h : found.get (some identity) <;> simp [indexNodes, h]
  | cons node nodes ih =>
    obtain ⟨node, position⟩ := node
    obtain ⟨⟨identity, hi⟩, name, hname⟩ := hn _ (List.mem_cons_self ..)
    obtain ⟨members, hm⟩ := asObject_of_text hi
    have hrest := fun other ho => hn other (List.mem_cons_of_mem _ ho)
    simp only [indexNodes, hm, UnitGraph.identityIssues, hi, hname, List.map_append,
      List.append_assoc]
    have hcontains : seen.contains identity = (found.get (some identity)).isSome := by
      rw [Bool.eq_iff_iff, List.contains_iff_mem, hseen]
    have hminted : (some identity != some ("ix://" ++ printed (some package) ++ "/" ++
        collection label ++ "/" ++ printed (some name))) =
        (identity != "ix://" ++ package ++ "/" ++ collection label ++ "/" ++ name) := by
      simp [printed, bne]
    rw [hcontains, hminted]
    cases hf : found.get (some identity) with
    | some first =>
      obtain ⟨hplaces, hget⟩ := @ih found (identity :: seen) hrest (by
        intro other
        rw [List.mem_cons, ← hseen other]
        constructor
        · rintro (rfl | h)
          · rw [hseen, hf]
            rfl
          · exact h
        · exact .inr)
      simp only [Option.isSome_some]
      refine ⟨?_, fun other => ?_⟩
      · exact congrArg₂ (· ++ ·) (emitIf_places ..)
          (congrArg₂ (· ++ ·) (emitIf_places ..) hplaces)
      · rw [hget, List.find?_cons]
        by_cases ho : identity = other
        · rw [← ho, hf]
          rfl
        · have hother : (identity == other) = false := beq_eq_false_iff_ne.2 ho
          simp [hi, hother]
    | none =>
      obtain ⟨hplaces, hget⟩ := @ih (found ++ [(identity, position)]) (identity :: seen) hrest (by
        intro other
        rw [List.mem_cons, hseen, Found.get_concat]
        cases found.get (some other) with
        | some _ => simp
        | none => by_cases ho : identity = other <;> simp [ho, eq_comm])
      simp only [Option.isSome_none]
      refine ⟨?_, fun other => ?_⟩
      · exact congrArg₂ (· ++ ·) (emitIf_places ..)
          (congrArg₂ (· ++ ·) (emitIf_places ..) hplaces)
      · rw [hget, Found.get_concat, List.find?_cons]
        by_cases ho : identity = other
        · subst ho
          simp [hf, hi]
        · have hne : (identity == other) = false := beq_eq_false_iff_ne.2 ho
          cases hother : found.get (some other) <;> simp [hi, ho, hne]

theorem indexNodes_get (package label : String) {nodes : List Json}
    (hn : ∀ node ∈ nodes, Named node) (identity : Option String) :
    (indexNodes (some package) label [] nodes.zipIdx).2.get identity =
      identity.bind (positionOf nodes) := by
  have hnodes : ∀ node ∈ nodes.zipIdx, Named node.1 := fun node hm =>
    hn _ (List.fst_mem_of_mem_zipIdx hm)
  cases identity with
  | none => rfl
  | some identity =>
    rw [(@indexNodes_spec package label nodes.zipIdx [] [] hnodes (by simp [Found.get])).2]
    rw [Option.bind_some, positionOf, List.findIdx?_eq_fst_find?_zipIdx]
    rfl

/-! ### Places -/

/-- What the compiler raises and what the Rust reader reports have the same codes at the same
pointers. -/
def SamePlaces (raised : List Raised) (issues : List Issue) : Prop :=
  ∀ p, p ∈ raised.map Raised.place ↔ p ∈ issues.map place

theorem SamePlaces.of_eq {raised : List Raised} {issues : List Issue}
    (h : raised.map Raised.place = issues.map place) : SamePlaces raised issues := by
  intro p
  rw [h]

theorem SamePlaces.append {raised raised' : List Raised} {issues issues' : List Issue}
    (h : SamePlaces raised issues) (h' : SamePlaces raised' issues') :
    SamePlaces (raised ++ raised') (issues ++ issues') := by
  intro p
  rw [List.map_append, List.map_append, List.mem_append, List.mem_append, h p, h' p]

theorem SamePlaces.swap {raised₁ raised₂ raised₃ : List Raised}
    {issues₁ issues₂ issues₃ : List Issue} (h₁ : SamePlaces raised₁ issues₁)
    (h₂ : SamePlaces raised₂ issues₂) (h₃ : SamePlaces raised₃ issues₃) :
    SamePlaces (raised₁ ++ raised₂ ++ raised₃) (issues₁ ++ issues₃ ++ issues₂) := by
  intro p
  have h := (h₁.append h₂).append h₃ p
  simp only [List.map_append, List.mem_append] at h ⊢
  exact h.trans or_right_comm

theorem SamePlaces.left_comm {raised₁ raised₂ raised₃ : List Raised}
    {issues₁ issues₂ issues₃ : List Issue}
    (h : SamePlaces (raised₁ ++ (raised₂ ++ raised₃)) (issues₁ ++ (issues₂ ++ issues₃))) :
    SamePlaces (raised₂ ++ (raised₁ ++ raised₃)) (issues₂ ++ (issues₁ ++ issues₃)) := by
  intro p
  have hp := h p
  simp only [List.map_append, List.mem_append] at hp ⊢
  rw [or_left_comm, hp, or_left_comm]

theorem SamePlaces.flatMap {α : Type} {items : List α} {raised : α → List Raised}
    {issues : α → List Issue} (h : ∀ item ∈ items, SamePlaces (raised item) (issues item)) :
    SamePlaces (items.flatMap raised) (items.flatMap issues) := by
  induction items with
  | nil => exact fun p => Iff.rfl
  | cons item items ih =>
    rw [List.flatMap_cons, List.flatMap_cons]
    exact (h item (List.mem_cons_self ..)).append
      (ih fun other ho => h other (List.mem_cons_of_mem _ ho))

theorem SamePlaces.emitIf {wrong wrong' : Bool} {code : SemanticIr.Code}
    {pointer message other : String} {node : Json} (h : wrong = wrong') :
    SamePlaces (Ir.emitIf wrong code pointer message node)
      (Issue.emitIf wrong' pointer code other) := by
  rw [h]
  exact .of_eq (emitIf_places ..)

/-! ### Dimensions -/

/-- The map holds the first position of each identity of the entries. -/
def Indexes (ids : Found) (entries : List Json) : Prop :=
  ∀ identity, ids.get identity = identity.bind (positionOf entries)

theorem termIssues_cons (dimensions : List Json) (termsAt : String) (previous : Option String)
    (term : Json × ℕ) (terms : List (Json × ℕ)) :
    UnitGraph.termIssues dimensions termsAt previous (term :: terms) =
      UnitGraph.termIssues dimensions termsAt previous [term] ++
        UnitGraph.termIssues dimensions termsAt
          ((text term.1 "dimension").orElse fun _ => previous) terms := by
  simp [UnitGraph.termIssues]

theorem exponent_same {term : Json} (h : TermShaped term) (termAt : String) (node : Json) :
    SamePlaces
      (refusedIssues (numeral integer (term.get "exponent")) (child termAt "exponent")
          "expected a canonical i128 integer" node ++
        Ir.emitIf (numeral integer (term.get "exponent") == .value 0) .invalidUnitGraph
          (child termAt "exponent") "dimension exponents are nonzero" node)
      (UnitGraph.exponentIssues term termAt) := by
  obtain ⟨exponent, he⟩ := h.exponent
  have hread : numeral integer (term.get "exponent") =
      numeralOf (canonicalInteger exponent.toList) := by
    obtain ⟨v, hv, hs⟩ := Option.bind_eq_some_iff.1 he
    rw [hv]
    cases v with
    | str written =>
      cases hs
      exact integer_eq _
    | _ => cases hs
  apply SamePlaces.of_eq
  simp only [hread, UnitGraph.exponentIssues, he]
  rcases canonicalInteger exponent.toList with (_ | _) | value
  · rfl
  · rfl
  · by_cases hz : value = 0
    · simp [refusedIssues, numeralOf, Numeral.refused, Ir.emitIf, Issue.emitIf, hz, emit,
        Issue.emit, Raised.place, place]
    · simp [refusedIssues, numeralOf, Numeral.refused, Ir.emitIf, Issue.emitIf, hz]

theorem term_same {ids : Found} {dimensions : List Json} (hids : Indexes ids dimensions)
    {terms : List Json} {term node : Json} {offset : ℕ} {previous : Option String}
    (h : TermShaped term)
    (hprevious : previous =
      if offset = 0 then none else (terms[offset - 1]?).bind (text · "dimension"))
    (hascii : ∀ identity ∈ previous, isSemanticIdentity identity = true) (at' : String) :
    SamePlaces (termRaised ids node at' terms (term, offset))
      (UnitGraph.termIssues dimensions (child at' "terms") previous [(term, offset)]) := by
  obtain ⟨target, ht, hidentity⟩ := h.dimension
  obtain ⟨members, hm⟩ := asObject_of_text ht
  have hunresolved : (ids.get (some target)).isNone = (positionOf dimensions target).isNone := by
    rw [hids, Option.bind_some]
  have horder : (offset != 0 && notBelow ((terms[offset - 1]?).bind (text · "dimension"))
      (some target)) = notAfter previous target := by
    rw [hprevious] at hascii ⊢
    by_cases hz : offset = 0
    · simp [hz, notAfter]
    · simp only [if_neg hz] at hascii ⊢
      cases hp : (terms[offset - 1]?).bind (text · "dimension") with
      | none => simp [notAfter, notBelow]
      | some before =>
        have hbefore := ascii_of_identity (hascii before hp)
        have hle := utf16Le_ascii (ascii_of_identity hidentity) hbefore
        have hne : (offset != 0) = true := bne_iff_ne.2 hz
        rw [hne, Bool.true_and, notAfter, Option.any_some, Bool.eq_iff_iff, decide_eq_true_eq]
        exact hle
  simp only [termRaised, hm, ht, UnitGraph.termIssues, List.append_nil]
  rw [List.append_assoc (Ir.emitIf _ _ _ _ _)]
  exact SamePlaces.swap (.emitIf hunresolved) (exponent_same h _ node) (.emitIf horder)

theorem terms_same {ids : Found} {dimensions : List Json} (hids : Indexes ids dimensions)
    {all : List Json} {node : Json} (h : ∀ term ∈ all, TermShaped term) (at' : String)
    {before terms : List Json} (hall : all = before ++ terms) {previous : Option String}
    (hprevious : previous = before.getLast?.bind (text · "dimension")) :
    SamePlaces ((terms.zipIdx before.length).flatMap (termRaised ids node at' all))
      (UnitGraph.termIssues dimensions (child at' "terms") previous
        (terms.zipIdx before.length)) := by
  induction terms generalizing before previous with
  | nil => exact fun p => Iff.rfl
  | cons term terms ih =>
    have hterm : TermShaped term := h term (by rw [hall]; simp)
    obtain ⟨target, ht, -⟩ := hterm.dimension
    have hnext := @ih (before ++ [term]) (by rw [hall]; simp) (some target) (by simp [ht])
    rw [List.length_append, List.length_singleton] at hnext
    rw [List.zipIdx_cons, List.flatMap_cons, termIssues_cons]
    simp only [ht, Option.orElse_some]
    refine SamePlaces.append (term_same hids hterm ?_ ?_ at') hnext
    · rw [hprevious]
      cases hb : before.length with
      | zero => simp [List.length_eq_zero_iff.1 hb]
      | succ n =>
        rw [if_neg (by omega), hall, List.getLast?_eq_getElem?, hb,
          List.getElem?_append_left (by omega)]
    · intro identity hi
      rw [hprevious] at hi
      obtain ⟨last, hl, htext⟩ := Option.bind_eq_some_iff.1 hi
      have hlast : last ∈ all := by
        rw [hall]
        exact List.mem_append_left _ (List.mem_of_getLast? hl)
      obtain ⟨other, ho, hidentity⟩ := (h last hlast).dimension
      rw [htext] at ho
      cases ho
      exact hidentity

theorem dimension_same {ids : Found} {dimensions : List Json} (hids : Indexes ids dimensions)
    {node : Json} (h : DimensionShaped node) (position : ℕ) :
    SamePlaces (dimensionRaised ids (node, position))
      (UnitGraph.dimensionIssues dimensions node (index "/ir/dimensions" position)) := by
  obtain ⟨identity, hi⟩ := h.identity
  obtain ⟨members, hm⟩ := asObject_of_text hi
  obtain ⟨base, hb⟩ := h.base
  have htruthy : truthy (node.get "base") = (node.getBool "base" == some true) := by
    obtain ⟨v, hv, hs⟩ := Option.bind_eq_some_iff.1 hb
    rw [hb, hv]
    cases v with
    | bool b =>
      cases hs
      cases base <;> rfl
    | _ => cases hs
  simp only [dimensionRaised, hm, UnitGraph.dimensionIssues]
  refine SamePlaces.append (.emitIf (by rw [htruthy])) ?_
  exact @terms_same ids dimensions hids _ node h.terms _ [] _ rfl _ rfl

theorem dimensions_same {ids : Found} {dimensions : List Json} (hids : Indexes ids dimensions)
    (h : ∀ node ∈ dimensions, DimensionShaped node) :
    SamePlaces (dimensions.zipIdx.flatMap (dimensionRaised ids))
      (dimensions.zipIdx.flatMap fun dimension =>
        UnitGraph.dimensionIssues dimensions dimension.1
          (index "/ir/dimensions" dimension.2)) :=
  SamePlaces.flatMap fun node hm =>
    dimension_same hids (h _ (List.fst_mem_of_mem_zipIdx hm)) node.2

/-! ### Cycles -/

theorem mem_components {edges : Edges} {group : List ℕ} :
    group ∈ components edges ↔ group ∈ UnitGraph.cyclicComponents edges := by
  rw [components, UnitGraph.cyclicComponents, List.mem_insertionSort]

theorem components_same {edges : Edges} {raised : List ℕ → Raised} {issues : List ℕ → List Issue}
    (h : ∀ group ∈ components edges, SamePlaces [raised group] (issues group)) :
    SamePlaces ((components edges).map raised)
      ((UnitGraph.cyclicComponents edges).flatMap issues) := by
  intro p
  rw [List.map_map, List.map_flatMap, List.mem_map, List.mem_flatMap]
  constructor
  · rintro ⟨group, hm, rfl⟩
    exact ⟨group, mem_components.1 hm, (h group hm _).1 (List.mem_singleton_self _)⟩
  · rintro ⟨group, hm, hp⟩
    have hm := mem_components.2 hm
    have hplace := (h group hm p).2 hp
    rw [List.map_singleton, List.mem_singleton] at hplace
    exact ⟨group, hm, hplace.symm⟩

theorem dimensionTargets_eq {ids : Found} {dimensions : List Json}
    (hids : Indexes ids dimensions) :
    dimensionTargets ids dimensions = UnitGraph.dimensionEdges dimensions := by
  simp only [dimensionTargets, UnitGraph.dimensionEdges, hids _]

theorem unitTargets_eq {ids : Found} {units : List Json} (hids : Indexes ids units) :
    unitTargets ids units = UnitGraph.unitEdges units := by
  simp only [unitTargets, UnitGraph.unitEdges, hids _]

theorem dimensionCycles_same {ids : Found} {dimensions : List Json}
    (hids : Indexes ids dimensions) :
    SamePlaces ((components (dimensionTargets ids dimensions)).map
        (dimensionCycleRaised ids dimensions))
      ((UnitGraph.cyclicComponents (UnitGraph.dimensionEdges dimensions)).flatMap
        (UnitGraph.dimensionCycle dimensions)) := by
  rw [dimensionTargets_eq hids]
  apply components_same
  intro group hm
  obtain ⟨hne, hcyclic⟩ := (UnitGraph.cyclicComponents_spec
    (UnitGraph.dimensionEdges_closed dimensions)).1 group (mem_components.1 hm)
  obtain ⟨term, ht⟩ := UnitGraph.exists_cycleTerm hcyclic hne
  apply SamePlaces.of_eq
  simp only [dimensionCycleRaised, UnitGraph.dimensionCycle, hids _, ht]
  rfl

theorem cycleNames_mono {units : List Json} {edges : Edges} {first cursor steps more : ℕ}
    (h : (cycleNames units edges first steps cursor).isSome = true) (hle : steps ≤ more) :
    (cycleNames units edges first more cursor).isSome = true := by
  induction steps generalizing cursor more with
  | zero => cases h
  | succ steps ih =>
    obtain ⟨more, rfl⟩ : ∃ n, more = n + 1 := ⟨more - 1, by omega⟩
    simp only [cycleNames] at h ⊢
    cases hn : (targetsOf edges cursor).head? with
    | none => simp [hn] at h
    | some next =>
      simp only [hn] at h ⊢
      by_cases hf : next = first
      · simp [hf]
      · simp only [hf, if_false, Option.isSome_map] at h ⊢
        exact ih h (by omega)

theorem cycleNames_ends {units : List Json} {edges : Edges} {first cursor : ℕ}
    (hone : ∀ a, (targetsOf edges a).length ≤ 1)
    (h : Relation.TransGen (UnitGraph.Edge edges) cursor first) :
    ∃ steps, (cycleNames units edges first steps cursor).isSome = true := by
  have hhead : ∀ {a b}, UnitGraph.Edge edges a b → (targetsOf edges a).head? = some b := by
    intro a b hedge
    unfold UnitGraph.Edge at hedge
    match ht : targetsOf edges a, hone a with
    | [], _ =>
      rw [ht] at hedge
      cases hedge
    | [target], _ =>
      rw [ht, List.mem_singleton] at hedge
      rw [hedge, List.head?_cons]
  induction h using Relation.TransGen.head_induction_on with
  | single hedge => exact ⟨1, by simp [cycleNames, hhead hedge]⟩
  | @head a b hedge _ ih =>
    obtain ⟨steps, hs⟩ := ih
    by_cases hf : b = first
    · exact ⟨1, by simp [cycleNames, hhead hedge, hf]⟩
    · exact ⟨steps + 1, by simp [cycleNames, hhead hedge, hf, hs]⟩

/-- From some number of steps on, every unit cycle is named. -/
theorem cycles_named (units : List Json) :
    ∃ enough, ∀ steps, enough ≤ steps → ∀ group ∈ components (UnitGraph.unitEdges units),
      (cycleNames units (UnitGraph.unitEdges units) (group.headD 0) steps
        (group.headD 0)).isSome = true := by
  have hone : ∀ a, (targetsOf (UnitGraph.unitEdges units) a).length ≤ 1 := by
    intro a
    rw [targetsOf, UnitGraph.unitEdges, List.getD_eq_getElem?_getD, List.getElem?_map]
    cases units[a]? with
    | none => simp
    | some unit => simp [Option.length_toList_le]
  have heach : ∀ group ∈ components (UnitGraph.unitEdges units), ∃ enough,
      (cycleNames units (UnitGraph.unitEdges units) (group.headD 0) enough
        (group.headD 0)).isSome = true := by
    intro group hm
    obtain ⟨hne, hcyclic⟩ := (UnitGraph.cyclicComponents_spec
      (UnitGraph.unitEdges_closed units)).1 group (mem_components.1 hm)
    exact cycleNames_ends hone (hcyclic.cycle _ (hcyclic.edge hne).1)
  generalize components (UnitGraph.unitEdges units) = groups at heach ⊢
  induction groups with
  | nil => exact ⟨0, by simp⟩
  | cons group groups ih =>
    obtain ⟨some₁, h₁⟩ := heach group (List.mem_cons_self ..)
    obtain ⟨some₂, h₂⟩ := ih fun other ho => heach other (List.mem_cons_of_mem _ ho)
    refine ⟨max some₁ some₂, fun steps hle other ho => ?_⟩
    rcases List.mem_cons.1 ho with rfl | ho
    · exact cycleNames_mono h₁ (by omega)
    · exact h₂ steps (by omega) other ho

theorem mapM_of_isSome {α β : Type} {f : α → Option β} {items : List α}
    (h : ∀ item ∈ items, (f item).isSome = true) :
    ∃ found, items.mapM f = some found ∧ ∀ (g : β → SemanticIr.Code × String)
      (k : α → SemanticIr.Code × String), (∀ item ∈ items, ∀ b ∈ f item, g b = k item) →
        found.map g = items.map k := by
  induction items with
  | nil => exact ⟨[], rfl, fun _ _ _ => rfl⟩
  | cons item items ih =>
    obtain ⟨b, hb⟩ := Option.isSome_iff_exists.1 (h item (List.mem_cons_self ..))
    obtain ⟨found, hf, hk⟩ := ih fun other ho => h other (List.mem_cons_of_mem _ ho)
    refine ⟨b :: found, by simp [List.mapM_cons, hb, hf], fun g k hgk => ?_⟩
    rw [List.map_cons, List.map_cons, hgk item (List.mem_cons_self ..) b hb,
      hk g k fun other ho => hgk other (List.mem_cons_of_mem _ ho)]

theorem unitCycles_same {ids : Found} {units : List Json} (hids : Indexes ids units) :
    ∃ enough, ∀ steps, enough ≤ steps → ∃ raised,
      (components (unitTargets ids units)).mapM
        (unitCycleRaised units (unitTargets ids units) steps) = some raised ∧
      SamePlaces raised ((UnitGraph.cyclicComponents (UnitGraph.unitEdges units)).flatMap
        (UnitGraph.unitCycle units)) := by
  rw [unitTargets_eq hids]
  obtain ⟨enough, hnamed⟩ := cycles_named units
  refine ⟨enough, fun steps hle => ?_⟩
  let at' : List ℕ → SemanticIr.Code × String := fun group =>
    (.invalidUnitGraph, child (index "/ir/units" (group.headD 0)) "target")
  obtain ⟨raised, hraised, hplaces⟩ := mapM_of_isSome
    (f := unitCycleRaised units (UnitGraph.unitEdges units) steps) fun group hm => by
      rw [unitCycleRaised, Option.isSome_map]
      exact hnamed steps hle group hm
  refine ⟨raised, hraised, fun p => ?_⟩
  rw [hplaces Raised.place at' fun group _ raised hr => by
    obtain ⟨names, -, rfl⟩ := Option.map_eq_some_iff.1 hr
    rfl]
  rw [List.map_flatMap, List.mem_map, List.mem_flatMap]
  constructor
  · rintro ⟨group, hm, rfl⟩
    exact ⟨group, mem_components.1 hm, List.mem_singleton_self _⟩
  · rintro ⟨group, hm, hp⟩
    exact ⟨group, mem_components.2 hm, (List.mem_singleton.1 hp).symm⟩

/-! ### Units -/

theorem unitIssues_cons (dimensions units : List Json) (roots : List (String × ℕ)) (node : Json)
    (position : ℕ) (rest : List (Json × ℕ)) :
    UnitGraph.unitIssues dimensions units roots ((node, position) :: rest) =
      UnitGraph.unitIssues dimensions units roots [(node, position)] ++
        UnitGraph.unitIssues dimensions units
          (match text node "target", text node "dimension" with
          | none, some dimension =>
            if roots.any fun root => root.1 == dimension then roots
            else roots ++ [(dimension, position)]
          | _, _ => roots) rest := by
  simp only [UnitGraph.unitIssues, List.append_nil] <;> rfl

theorem numeral_of_text {node : Json} {member written : String} {read : List Char → Numeral}
    (h : text node member = some written) :
    numeral read (node.get member) = read written.toList := by
  obtain ⟨v, hv, hs⟩ := Option.bind_eq_some_iff.1 h
  rw [hv]
  cases v with
  | str found =>
    cases hs
    rfl
  | _ => cases hs

theorem coefficient_same {node : Json} {member written : String}
    (h : text node member = some written) (at' : String) :
    SamePlaces (coefficientRaised node at' member)
      (UnitGraph.coefficientIssues node at' member) := by
  apply SamePlaces.of_eq
  simp only [coefficientRaised, UnitGraph.coefficientIssues, numeral_of_text h, h, Option.map_some,
    refusedIssues, (rational_agrees written).refused]
  cases canonicalRational written <;> rfl

theorem coefficient_eq {node : Json} {member written : String}
    (h : text node member = some written) : coefficient node member =
      match canonicalRational written with
      | .ok kind => some kind
      | .error _ => none := by
  simp only [coefficient, h, Option.map_some]
  cases canonicalRational written <;> rfl

theorem zero_same {node : Json} {written : String} (h : text node "scale" = some written) :
    (text node "scale" == some "0") = (coefficient node "scale" == some .zero) := by
  rw [coefficient_eq h, h, Bool.eq_iff_iff, beq_iff_eq, beq_iff_eq, Option.some.injEq,
    ← (canonicalRational_zero_one written).1]
  cases canonicalRational written <;> simp

theorem offset_same {node : Json} {written : String} (h : text node "offset" = some written) :
    (text node "offset" != some "0" && isValue (numeral rational (node.get "offset"))) =
      (coefficient node "offset").any (· != .zero) := by
  have hzero := (canonicalRational_zero_one written).1
  have hvalue := (rational_agrees written).isValue
  rw [coefficient_eq h, h, numeral_of_text h, Bool.eq_iff_iff, Bool.and_eq_true, hvalue,
    bne_iff_ne, ne_eq, Option.some.injEq, ← hzero]
  cases canonicalRational written <;> simp

theorem rootScale_same {node : Json} {written : String} (h : text node "scale" = some written) :
    (text node "scale" != some "1" && text node "scale" != some "0" &&
        isValue (numeral rational (node.get "scale"))) =
      ((coefficient node "scale").any (· != .one) && coefficient node "scale" != some .zero) := by
  obtain ⟨hzero, hone⟩ := canonicalRational_zero_one written
  have hvalue := (rational_agrees written).isValue
  rw [coefficient_eq h, h, numeral_of_text h, Bool.eq_iff_iff, Bool.and_eq_true, Bool.and_eq_true,
    Bool.and_eq_true, hvalue, bne_iff_ne, bne_iff_ne, ne_eq, ne_eq, Option.some.injEq,
    Option.some.injEq, ← hzero, ← hone]
  cases canonicalRational written <;> simp

theorem SamePlaces.once {first second : Bool} {code : SemanticIr.Code} {pointer : String}
    {message message' other other' : String} {node : Json} :
    SamePlaces
      (Ir.emitIf first code pointer message node ++
        Ir.emitIf (second && !first) code pointer message' node)
      (Issue.emitIf first pointer code other ++ Issue.emitIf second pointer code other') := by
  intro p
  cases first <;> cases second <;>
    simp [Ir.emitIf, Issue.emitIf, emit, Issue.emit, Raised.place, place]

theorem root_same {units : List Json} {roots : Found} {node : Json} (h : UnitShaped node)
    (at' : String) :
    SamePlaces
      (Ir.emitIf (text node "scale" == some "0") .invalidUnitGraph (child at' "scale")
          "a unit scale is nonzero" node ++ rootRaised roots units node at')
      (Issue.emitIf (coefficient node "scale" == some .zero) (child at' "scale")
          .invalidUnitGraph "a unit scale is nonzero" ++
        UnitGraph.rootIssues units roots node at') := by
  obtain ⟨dimension, hd⟩ := h.dimension
  obtain ⟨scale, hs⟩ := h.scale
  obtain ⟨offset, ho⟩ := h.offset
  simp only [rootRaised, UnitGraph.rootIssues, hd]
  rw [offset_same ho, zero_same hs, rootScale_same hs]
  rw [Found.get, Option.bind_some]
  have hscale := @SamePlaces.once (coefficient node "scale" == some .zero)
    ((coefficient node "scale").any (· != .one)) .invalidUnitGraph (child at' "scale")
    "a unit scale is nonzero" "a root unit has scale 1" "a unit scale is nonzero"
    "a root unit has scale 1" node
  have hoffset := @SamePlaces.emitIf _ _ .invalidUnitGraph (child at' "offset")
    "a root unit has offset 0" "a root unit has offset 0" node
    (rfl : (coefficient node "offset").any (· != .zero) = _)
  cases roots.find? fun root => root.1 == dimension with
  | none =>
    have hall := hscale.append hoffset
    simpa only [List.append_assoc, Option.map_none, List.nil_append, bne] using hall
  | some root =>
    have hroots : SamePlaces
        [emit .invalidUnitGraph at' ("dimension " ++ printed (some dimension) ++
          " already has root " ++ printed (text (units.getD root.2 .null) "name")) node]
        [Issue.emit at' .invalidUnitGraph ("dimension " ++ dimension ++
          " already has root " ++ (text (units.getD root.2 .null) "name").getD "")] := .of_eq rfl
    have hall := (hroots.append hscale).append hoffset
    simp only [List.append_assoc] at hall
    simpa only [List.append_assoc, Option.map_some, bne] using hall.left_comm

theorem target_same {dimensionIds unitIds : Found} {dimensions units : List Json}
    (hd : Indexes dimensionIds dimensions) (hu : Indexes unitIds units)
    (hs : ∀ unit ∈ units, UnitShaped unit) {node : Json} {target : String} (h : UnitShaped node)
    (ht : text node "target" = some target) (at' : String) :
    SamePlaces (targetRaised dimensionIds unitIds units node at')
      (UnitGraph.targetIssues dimensions units node at' target) := by
  obtain ⟨dimension, hdim⟩ := h.dimension
  simp only [targetRaised, UnitGraph.targetIssues, hu _, hd _, ht, Option.bind_some, hdim]
  cases hp : positionOf units target with
  | none => exact .of_eq rfl
  | some position =>
    obtain ⟨hlt, -⟩ := positionOf_spec hp
    have hm : units.getD position .null ∈ units := by
      rw [List.getD_eq_getElem _ _ hlt]
      exact List.getElem_mem hlt
    obtain ⟨other, ho⟩ := (hs _ hm).dimension
    simp only [ho, Option.bind_some]
    apply SamePlaces.emitIf
    rw [show (some other != some dimension) = (dimension != other) by simp [bne, eq_comm]]

theorem unit_same {dimensionIds unitIds : Found} {dimensions units : List Json} {roots : Found}
    (hd : Indexes dimensionIds dimensions) (hu : Indexes unitIds units)
    (hs : ∀ unit ∈ units, UnitShaped unit) {node : Json} (h : UnitShaped node) (position : ℕ) :
    SamePlaces (unitRaised dimensionIds unitIds units roots [(node, position)])
      (UnitGraph.unitIssues dimensions units roots [(node, position)]) := by
  obtain ⟨dimension, hdim⟩ := h.dimension
  obtain ⟨members, hm⟩ := asObject_of_text hdim
  obtain ⟨scale, hscale⟩ := h.scale
  obtain ⟨offset, hoffset⟩ := h.offset
  simp only [unitRaised, hm, UnitGraph.unitIssues, List.append_nil, hdim]
  rw [List.append_assoc _ (Ir.emitIf _ _ _ _ _), List.append_assoc _ (Issue.emitIf _ _ _ _)]
  refine SamePlaces.append (SamePlaces.append (SamePlaces.append ?_ (coefficient_same hscale _))
    (coefficient_same hoffset _)) ?_
  · exact .emitIf (by rw [hd, Option.bind_some])
  · rcases h.target with hn | ⟨target, ht⟩
    · have hnone : text node "target" = none := by simp [text, Json.getStr, hn]
      simp only [hn, hnone]
      exact root_same h _
    · obtain ⟨v, hv, -⟩ := Option.bind_eq_some_iff.1 ht
      simp only [hv, ht]
      exact SamePlaces.append (.emitIf (zero_same hscale)) (target_same hd hu hs h ht _)

theorem units_same {dimensionIds unitIds : Found} {dimensions units : List Json}
    (hd : Indexes dimensionIds dimensions) (hu : Indexes unitIds units)
    (hs : ∀ unit ∈ units, UnitShaped unit) {rest : List (Json × ℕ)} {roots : Found}
    (hrest : ∀ unit ∈ rest, UnitShaped unit.1) :
    SamePlaces (unitRaised dimensionIds unitIds units roots rest)
      (UnitGraph.unitIssues dimensions units roots rest) := by
  induction rest generalizing roots with
  | nil => exact fun p => Iff.rfl
  | cons unit rest ih =>
    obtain ⟨node, position⟩ := unit
    have h : UnitShaped node := hrest _ (List.mem_cons_self ..)
    have hothers := fun other ho => hrest other (List.mem_cons_of_mem _ ho)
    obtain ⟨dimension, hdim⟩ := h.dimension
    obtain ⟨members, hm⟩ := asObject_of_text hdim
    have hthis := @unit_same _ _ _ _ roots hd hu hs _ h position
    rw [unitIssues_cons]
    rcases h.target with hn | ⟨target, ht⟩
    · have hnone : text node "target" = none := by simp [text, Json.getStr, hn]
      have hroot : (roots.get (some dimension)).isSome =
          roots.any fun root => root.1 == dimension := by
        rw [Found.get, Option.bind_some, Option.isSome_map, Bool.eq_iff_iff, List.find?_isSome,
          List.any_eq_true]
      have hstep := hthis.append (@ih (if roots.any fun root => root.1 == dimension then roots
        else roots ++ [(dimension, position)]) hothers)
      simp only [unitRaised, hm, hn, hdim, hroot, hnone, List.append_nil] at hstep ⊢
      exact hstep
    · obtain ⟨v, hv, -⟩ := Option.bind_eq_some_iff.1 ht
      have hstep := hthis.append (@ih roots hothers)
      simp only [unitRaised, hm, hv, hdim, ht, List.append_nil] at hstep ⊢
      exact hstep

/-! ### The document -/

theorem mem_distinct {seen : List (String × SemanticIr.Code)} {issues : List Issue}
    (p : SemanticIr.Code × String) (hp : (p.2, p.1) ∉ seen) :
    p ∈ (UnitGraph.distinct seen issues).map place ↔ p ∈ issues.map place := by
  induction issues generalizing seen with
  | nil => exact Iff.rfl
  | cons issue issues ih =>
    simp only [UnitGraph.distinct]
    by_cases hs : (issue.pointer, issue.code) ∈ seen
    · have hne : p ≠ place issue := fun heq => hp (by rw [heq]; exact hs)
      rw [if_pos (List.contains_iff_mem.2 hs), ih hp, List.map_cons, List.mem_cons]
      exact (or_iff_right hne).symm
    · rw [if_neg (by simpa using hs), List.map_cons, List.map_cons, List.mem_cons, List.mem_cons]
      by_cases heq : p = place issue
      · simp [heq]
      · have hfresh : (p.2, p.1) ∉ (issue.pointer, issue.code) :: seen := by
          rw [List.mem_cons, not_or]
          refine ⟨fun h => heq ?_, hp⟩
          simp only [Prod.mk.injEq] at h
          exact Prod.ext h.2 h.1
        rw [ih hfresh]

def located (diagnostic : Located) : SemanticIr.Code × String :=
  (diagnostic.code, diagnostic.pointer)

theorem named_of_shaped {dimensions units : List Json} (h : Shaped dimensions units) :
    (∀ node ∈ dimensions, Named node) ∧ ∀ node ∈ units, Named node :=
  ⟨fun node hm => ⟨(h.dimensions node hm).identity, (h.dimensions node hm).name⟩,
    fun node hm => ⟨(h.units node hm).identity, (h.units node hm).name⟩⟩

/-- The compiler's check ends, and raises the codes and pointers the Rust reader reports. -/
def RulesAgree (bundle ir : Json) : Prop :=
  ∃ enough, ∀ steps, enough ≤ steps → ∃ raised, checkUnitGraph ir steps = some raised ∧
    ∀ p, p ∈ raised.map Raised.place ↔ p ∈ (UnitGraph.decide bundle).map located

/-- The two implementations agree on every schema-valid document. -/
theorem unit_rules_agree {bundle ir : Json} (hir : bundle.get "ir" = some ir)
    (hs : Schema.decide bundle = []) : RulesAgree bundle ir := by
  obtain ⟨h, package, hpackage⟩ := UnitGraph.shaped_of_schema hir hs
  obtain ⟨hdn, hun⟩ := named_of_shaped h
  have hzip : ∀ {nodes : List Json}, (∀ node ∈ nodes, Named node) →
      ∀ node ∈ nodes.zipIdx, Named node.1 :=
    fun hn node hm => hn _ (List.fst_mem_of_mem_zipIdx hm)
  have hd : Indexes _ (ir.members "dimensions") := indexNodes_get package "dimensions" hdn
  have hu : Indexes _ (ir.members "units") := indexNodes_get package "units" hun
  have hdi := (@indexNodes_spec package "dimensions" _ [] [] (hzip hdn) (by simp [Found.get])).1
  have hui := (@indexNodes_spec package "units" _ [] [] (hzip hun) (by simp [Found.get])).1
  rw [show collection "dimensions" = "dimension" from rfl] at hdi
  rw [show collection "units" = "unit" from rfl] at hui
  obtain ⟨enough, hcycles⟩ := unitCycles_same hu
  refine ⟨enough, fun steps hle => ?_⟩
  obtain ⟨cycles, hmap, hsame⟩ := hcycles steps hle
  refine ⟨_, by simp only [checkUnitGraph, hpackage, hmap, Option.map_some]; rfl, ?_⟩
  have hdimensions := dimensions_same hd h.dimensions
  have hunits := @units_same _ _ _ _ hd hu h.units (ir.members "units").zipIdx [] fun unit hm =>
    h.units _ (List.fst_mem_of_mem_zipIdx hm)
  have hall := ((((SamePlaces.of_eq hdi).append (.of_eq hui)).append hdimensions).append
    (dimensionCycles_same hd)).append hunits |>.append hsame
  intro p
  have hlocated : (UnitGraph.decide bundle).map located =
      (UnitGraph.issues bundle).map place := by
    rw [UnitGraph.decide, List.map_map]
    rfl
  rw [hlocated]
  simp only [UnitGraph.issues, hir, hpackage]
  rw [mem_distinct p (by simp)]
  have hp := hall p
  simp only [UnitGraph.checkDimensions, UnitGraph.checkUnits, List.map_append, List.mem_append,
    or_assoc] at hp ⊢
  exact hp

/-- Two units that target each other, and a third that targets one of them. -/
def tangledUnits : Json :=
  Sample.graph [Sample.dimension "Time" true []]
    [Sample.unit "a" "Time" "2" "0" [("target", .str "ix://a/b/unit/b")],
      Sample.unit "b" "Time" "1/2" "0" [("target", .str "ix://a/b/unit/a")],
      Sample.unit "c" "Time" "10" "0" [("target", .str "ix://a/b/unit/a")]]

theorem tangledUnits_agree : RulesAgree (.object [("ir", tangledUnits)]) tangledUnits := by
  have hs : Schema.decide (.object [("ir", tangledUnits)]) = [] := by decide +kernel
  exact unit_rules_agree rfl hs

end FilamentCore.Compiler.Ir
