import FilamentCore.SemanticIr.ReaderStrings

/-!
# Documents as the reader reads them

The reader accepts exactly the texts of the grammar within its limits. What stands on the stack of
open containers is what a derivation has still to close: a turn takes one step of it.
-/

namespace FilamentCore.SemanticIr
namespace Reader
open Grammar

/-- `n` arrays and objects are within the depth limit, if there is one. -/
def DepthOk (maxDepth : Option ℕ) (n : ℕ) : Prop := ∀ limit ∈ maxDepth, n ≤ limit

theorem DepthOk.mono {maxDepth : Option ℕ} {n m : ℕ} (h : DepthOk maxDepth n) (hm : m ≤ n) :
    DepthOk maxDepth m := fun limit hl => hm.trans (h limit hl)

/-! ### Member names -/

theorem memberName_ok {rest after : List Char} {key : String} :
    memberName rest = .ok (key, after) ↔ ∃ w name w₁, Blank w ∧ StringText name key ∧ Blank w₁ ∧
      rest = w ++ name ++ w₁ ++ ':' :: after := by
  constructor
  · intro h
    obtain ⟨w, hw, hrest⟩ := exists_blank rest
    simp only [memberName] at h
    split_ifs at h with hq
    · cases h
    · rw [bind_ok] at h
      obtain ⟨⟨key', mid⟩, hs, h⟩ := h
      obtain ⟨name, hn, hname⟩ := (string_ok (not_not.1 hq)).1 hs
      obtain ⟨w₁, hw₁, hmid⟩ := exists_blank mid
      dsimp only at h
      split_ifs at h with hc
      · cases h
      · cases h
        refine ⟨w, name, w₁, hw, hn, hw₁, ?_⟩
        have hcolon := List.eq_cons_of_mem_head? (not_not.1 hc)
        rw [← hcolon, List.append_assoc, ← hmid, List.append_assoc, ← hname, ← hrest]
  · rintro ⟨w, name, w₁, hw, hn, hw₁, rfl⟩
    have hhead : ∀ tail : List Char, skipWhitespace (name ++ tail) = name ++ tail := by
      intro tail
      apply skipWhitespace_of_head
      rw [stringText_head hn]
      intro c hc
      cases hc
      rfl
    have hstring := (string_ok (stringText_head hn (w₁ ++ ':' :: after))).2 ⟨name, hn, rfl⟩
    have hcolon : skipWhitespace (w₁ ++ ':' :: after) = ':' :: after := by
      rw [skipWhitespace_blank hw₁]
      rfl
    simp only [memberName, List.append_assoc, skipWhitespace_blank hw, hhead,
      stringText_head hn, hstring, Except.bind, hcolon]
    rfl

/-! ### One turn -/

theorem valueTurn_ok {maxDepth : Option ℕ} {opened : List Open} {rest : List Char} {next : Turn} :
    valueTurn maxDepth opened rest = .ok next ↔
      DepthOk maxDepth opened.length ∧ readValue opened (skipWhitespace rest) = .ok next := by
  cases maxDepth with
  | none => simp [valueTurn, DepthOk]
  | some limit =>
    have hd : DepthOk (some limit) opened.length ↔ opened.length ≤ limit := by simp [DepthOk]
    rw [hd, valueTurn]
    split_ifs with h
    · simp only [false_iff, not_and]
      omega
    · exact (and_iff_right (Nat.not_lt.1 h)).symm

theorem number_head {text : List Char} (h : NumberText text) :
    ∃ c tail, text = c :: tail ∧ (c = '-' ∨ isAsciiDigit c = true) := by
  obtain ⟨sign, whole, fraction, exponent, hs, ⟨⟨hne, hd⟩, -⟩, -, -, rfl⟩ := h
  obtain rfl | rfl := hs
  · cases whole with
    | nil => exact absurd rfl hne
    | cons c whole => exact ⟨c, _, rfl, .inr (hd c (List.mem_cons_self ..))⟩
  · exact ⟨'-', _, rfl, .inl rfl⟩

theorem readValue_number {c : Char} (h : c = '-' ∨ isAsciiDigit c = true) (opened : List Open)
    (rest : List Char) :
    readValue opened (c :: rest) = complete opened (number (c :: rest)) := by
  have hne : ∀ d : Char, d ≠ '-' → isAsciiDigit d = false → c ≠ d := by
    rintro d hm hd rfl
    obtain h | h := h
    · exact hm h
    · rw [hd] at h
      cases h
  rw [readValue, if_neg (hne _ (by decide) (by decide)), if_neg (hne _ (by decide) (by decide)),
    if_neg (hne _ (by decide) (by decide)), if_neg (hne _ (by decide) (by decide)),
    if_neg (hne _ (by decide) (by decide)), if_neg (hne _ (by decide) (by decide)), if_pos h]

/-- What reading a value does: it is complete, or it opens a container. -/
theorem readValue_sound {opened : List Open} {rest : List Char} {next : Turn}
    (h : readValue opened rest = .ok next) :
    (∃ x text after, next = .attach opened x after ∧ Spells text (.value x) ∧ depth x = 0 ∧
        rest = text ++ after) ∨
      (∃ w after, Blank w ∧ next = .value (.array [] :: opened) after ∧
        rest = '[' :: (w ++ after)) ∨
      ∃ w name w₁ key after, Blank w ∧ StringText name key ∧ Blank w₁ ∧
        next = .value (.object [] key :: opened) after ∧
        rest = '\x7b' :: (w ++ name ++ w₁ ++ ':' :: after) := by
  have hword : ∀ {word : String} {v : Json} {tail : List Char},
      complete opened (literal word v tail) = .ok next → Spells word.toList (.value v) →
      depth v = 0 → ∃ x text after, next = .attach opened x after ∧ Spells text (.value x) ∧
        depth x = 0 ∧ tail = text ++ after := by
    intro word v tail h hs hd
    obtain ⟨⟨x, after⟩, hl, rfl⟩ := map_ok.1 h
    obtain ⟨rfl, rfl⟩ := literal_ok.1 hl
    exact ⟨x, _, after, rfl, hs, hd, rfl⟩
  cases rest with
  | nil => cases h
  | cons c rest =>
    rw [readValue] at h
    split_ifs at h with hn ht hf hq ha ho hnum
    · exact .inl (hword h .null rfl)
    · exact .inl (hword h .true rfl)
    · exact .inl (hword h .false rfl)
    · obtain ⟨⟨x, after⟩, hs, rfl⟩ := map_ok.1 h
      obtain ⟨⟨s, after'⟩, hs, he⟩ := map_ok.1 hs
      cases he
      have hhead : (c :: rest).head? = some '"' := congrArg some hq
      obtain ⟨text, ht, he⟩ := (string_ok hhead).1 hs
      exact .inl ⟨_, text, _, rfl, .str ht, rfl, he⟩
    · subst ha
      obtain ⟨w, hw, hrest⟩ := exists_blank rest
      rw [openArray] at h
      split_ifs at h with hb
      · cases h
        refine .inl ⟨_, '[' :: (w ++ [']']), _, rfl, .emptyArray hw, rfl, ?_⟩
        rw [List.cons_append, List.append_assoc, List.singleton_append,
          ← List.eq_cons_of_mem_head? hb, ← hrest]
      · cases h
        exact .inr (.inl ⟨w, _, hw, rfl, by rw [← hrest]⟩)
    · subst ho
      obtain ⟨w, hw, hrest⟩ := exists_blank rest
      rw [openObject] at h
      dsimp only at h
      split_ifs at h with hb
      · cases h
        refine .inl ⟨_, '\x7b' :: (w ++ ['\x7d']), _, rfl, .emptyObject hw, rfl, ?_⟩
        rw [List.cons_append, List.append_assoc, List.singleton_append,
          ← List.eq_cons_of_mem_head? hb, ← hrest]
      · obtain ⟨⟨key, after⟩, hm, rfl⟩ := map_ok.1 h
        obtain ⟨w', name, w₁, hw', hname, hw₁, he⟩ := memberName_ok.1 hm
        refine .inr (.inr ⟨w ++ w', name, w₁, key, after, ?_, hname, hw₁, rfl, ?_⟩)
        · intro d hd
          exact (List.mem_append.1 hd).elim (hw d) (hw' d)
        · rw [hrest, he]
          simp only [List.append_assoc]
    · obtain ⟨⟨x, after⟩, hs, rfl⟩ := map_ok.1 h
      obtain ⟨n, rfl, hn, he⟩ := number_sound hs
      exact .inl ⟨_, _, _, rfl, .number hn, rfl, he⟩
    · cases h

theorem attachTurn_sound {x : Json} {rest : List Char} {innermost : Open} {opened : List Open}
    {next : Turn} (h : attachTurn x rest innermost opened = .ok next) :
    ∃ w after, Blank w ∧
      match innermost with
      | .array items =>
        (next = .value (.array (items ++ [x]) :: opened) after ∧ rest = w ++ ',' :: after) ∨
          next = .attach opened (.array (items ++ [x])) after ∧ rest = w ++ ']' :: after
      | .object members name =>
        (∃ w' text w₁ key, Blank w' ∧ StringText text key ∧ Blank w₁ ∧
          next = .value (.object (members ++ [(name, x)]) key :: opened) after ∧
          rest = w ++ ',' :: (w' ++ text ++ w₁ ++ ':' :: after)) ∨
          next = .attach opened (.object (members ++ [(name, x)])) after ∧
            rest = w ++ '\x7d' :: after := by
  obtain ⟨w, hw, hrest⟩ := exists_blank rest
  unfold attachTurn at h
  cases innermost with
  | array items =>
    dsimp only at h ⊢
    split_ifs at h with hc hb
    · cases h
      exact ⟨w, _, hw, .inl ⟨rfl, by rw [← List.eq_cons_of_mem_head? hc, ← hrest]⟩⟩
    · cases h
      exact ⟨w, _, hw, .inr ⟨rfl, by rw [← List.eq_cons_of_mem_head? hb, ← hrest]⟩⟩
    · cases h
  | object members name =>
    dsimp only at h ⊢
    split_ifs at h with hc hb
    · obtain ⟨⟨key, after⟩, hm, rfl⟩ := map_ok.1 h
      obtain ⟨w', text, w₁, hw', ht, hw₁, he⟩ := memberName_ok.1 hm
      refine ⟨w, after, hw, .inl ⟨w', text, w₁, key, hw', ht, hw₁, rfl, ?_⟩⟩
      rw [← he, ← List.eq_cons_of_mem_head? hc, ← hrest]
    · cases h
      exact ⟨w, _, hw, .inr ⟨rfl, by rw [← List.eq_cons_of_mem_head? hb, ← hrest]⟩⟩
    · cases h

/-! ### Runs -/

theorem run_next {maxDepth : Option ℕ} {t next : Turn} (h : turn maxDepth t = .ok (.inl next)) :
    run maxDepth t = run maxDepth next := by
  rw [run]
  split <;> rename_i ht <;> rw [h] at ht <;> cases ht
  rfl

theorem run_last {maxDepth : Option ℕ} {t : Turn} {result : Json × List Char}
    (h : turn maxDepth t = .ok (.inr result)) : run maxDepth t = .ok result := by
  rw [run]
  split <;> rename_i ht <;> rw [h] at ht <;> cases ht
  rfl

theorem run_cases {maxDepth : Option ℕ} {t : Turn} {result : Json × List Char}
    (h : run maxDepth t = .ok result) : turn maxDepth t = .ok (.inr result) ∨
      ∃ next, turn maxDepth t = .ok (.inl next) ∧ run maxDepth next = .ok result := by
  cases ht : turn maxDepth t with
  | error e =>
    rw [run] at h
    split at h <;> rename_i ht' <;> rw [ht] at ht' <;> cases ht'
    cases h
  | ok next =>
    cases next with
    | inl next => exact .inr ⟨next, rfl, by rwa [run_next ht] at h⟩
    | inr result' =>
      rw [run_last ht] at h
      cases h
      exact .inl rfl

/-! ### What the stack has still to close -/

/-- The text after `x` that closes the open containers, and the value it completes. -/
inductive Closes (maxDepth : Option ℕ) : List Open → Json → List Char → Json → Prop where
  | done {v : Json} : Closes maxDepth [] v [] v
  | array {opened : List Open} {items vs : List Json} {x v : Json} {text tail : List Char} :
      Spells text (.items vs) → DepthOk maxDepth (opened.length + depthItems vs) →
      Closes maxDepth opened (.array (items ++ x :: vs)) tail v →
      Closes maxDepth (.array items :: opened) x (text ++ tail) v
  | object {opened : List Open} {members ms : List (String × Json)} {name : String} {x v : Json}
      {text tail : List Char} :
      Spells text (.members ms) → DepthOk maxDepth (opened.length + depthMembers ms) →
      Closes maxDepth opened (.object (members ++ (name, x) :: ms)) tail v →
      Closes maxDepth (.object members name :: opened) x (text ++ tail) v

def ReadsAs (maxDepth : Option ℕ) (v : Json) (after : List Char) : Turn → Prop
  | .value opened rest => ∃ w text x tail, Blank w ∧ Spells text (.value x) ∧
      DepthOk maxDepth (opened.length + depth x) ∧ Closes maxDepth opened x tail v ∧
      rest = w ++ text ++ tail ++ after
  | .attach opened x rest => ∃ tail, Closes maxDepth opened x tail v ∧ rest = tail ++ after

theorem blank_append {w w' : List Char} (hw : Blank w) (hw' : Blank w') : Blank (w ++ w') :=
  fun c hc => (List.mem_append.1 hc).elim (hw c) (hw' c)

theorem value_reads {maxDepth : Option ℕ} {v : Json} {after rest : List Char} {opened : List Open}
    {next : Turn} (h : valueTurn maxDepth opened rest = .ok next)
    (ih : ReadsAs maxDepth v after next) : ReadsAs maxDepth v after (.value opened rest) := by
  obtain ⟨hd, hr⟩ := valueTurn_ok.1 h
  obtain ⟨w₀, hw₀, hrest⟩ := exists_blank rest
  rw [ReadsAs]
  obtain ⟨x, text, mid, rfl, hs, hx, he⟩ | ⟨w, mid, hw, rfl, he⟩ |
    ⟨w, name, w₁, key, mid, hw, hn, hw₁, rfl, he⟩ := readValue_sound hr
  · obtain ⟨tail, hc, rfl⟩ := ih
    refine ⟨w₀, text, x, tail, hw₀, hs, by rw [hx]; exact hd, hc, ?_⟩
    rw [hrest, he]
    simp only [List.append_assoc]
  · obtain ⟨w', text, y, tail, hw', hs, hdy, hc, rfl⟩ := ih
    cases hc with
    | @array _ _ vs _ _ t tail hvs hdv hc =>
      refine ⟨w₀, _, _, tail, hw₀, .array (blank_append hw hw') hs hvs, ?_, hc, ?_⟩
      · intro limit hl
        have h₁ := hdy limit hl
        have h₂ := hdv limit hl
        simp only [List.length_cons] at h₁
        simp only [depth, depthItems]
        omega
      · rw [hrest, he]
        simp only [List.append_assoc, List.cons_append]
  · obtain ⟨w₂, text, y, tail, hw₂, hs, hdy, hc, rfl⟩ := ih
    cases hc with
    | @object _ _ ms _ _ _ t tail hms hdm hc =>
      refine ⟨w₀, _, _, tail, hw₀, .object hw hn hw₁ hw₂ hs hms, ?_, hc, ?_⟩
      · intro limit hl
        have h₁ := hdy limit hl
        have h₂ := hdm limit hl
        simp only [List.length_cons] at h₁
        simp only [depth, depthMembers, depthMember]
        omega
      · rw [hrest, he]
        simp only [List.append_assoc, List.cons_append]

theorem attach_reads {maxDepth : Option ℕ} {v x : Json} {after rest : List Char}
    {innermost : Open} {opened : List Open} {next : Turn}
    (h : attachTurn x rest innermost opened = .ok next) (ih : ReadsAs maxDepth v after next)
    (hd : DepthOk maxDepth opened.length) :
    ReadsAs maxDepth v after (.attach (innermost :: opened) x rest) := by
  obtain ⟨w, mid, hw, h⟩ := attachTurn_sound h
  rw [ReadsAs]
  cases innermost with
  | array items =>
    obtain ⟨rfl, rfl⟩ | ⟨rfl, rfl⟩ := h
    · obtain ⟨w', text, y, tail, hw', hs, hdy, hc, rfl⟩ := ih
      cases hc with
      | @array _ _ vs _ _ t tail hvs hdv hc =>
        refine ⟨_, .array (.nextItem hw hw' hs hvs) ?_ (by simpa using hc), ?_⟩
        · intro limit hl
          have h₁ := hdy limit hl
          have h₂ := hdv limit hl
          simp only [List.length_cons] at h₁
          simp only [depthItems]
          omega
        · simp only [List.append_assoc, List.cons_append]
    · obtain ⟨tail, hc, rfl⟩ := ih
      refine ⟨_, .array (.lastItem hw) hd hc, ?_⟩
      simp only [List.append_assoc, List.cons_append, List.nil_append]
  | object members name =>
    obtain ⟨w', nm, w₁, key, hw', hn, hw₁, rfl, rfl⟩ | ⟨rfl, rfl⟩ := h
    · obtain ⟨w₂, text, y, tail, hw₂, hs, hdy, hc, rfl⟩ := ih
      cases hc with
      | @object _ _ ms _ _ _ t tail hms hdm hc =>
        refine ⟨_, .object (.nextMember hw hw' hn hw₁ hw₂ hs hms) ?_ (by simpa using hc), ?_⟩
        · intro limit hl
          have h₁ := hdy limit hl
          have h₂ := hdm limit hl
          simp only [List.length_cons] at h₁
          simp only [depthMembers, depthMember]
          omega
        · simp only [List.append_assoc, List.cons_append]
    · obtain ⟨tail, hc, rfl⟩ := ih
      refine ⟨_, .object (.lastMember hw) hd hc, ?_⟩
      simp only [List.append_assoc, List.cons_append, List.nil_append]

/-- The containers open where a value is attached are within the depth limit. -/
def Turn.Within (maxDepth : Option ℕ) : Turn → Prop
  | .value _ _ => True
  | .attach opened _ _ => DepthOk maxDepth opened.length

theorem within_next {maxDepth : Option ℕ} {t next : Turn} (hw : t.Within maxDepth)
    (h : turn maxDepth t = .ok (.inl next)) : next.Within maxDepth := by
  unfold turn at h
  split at h
  · rename_i opened rest
    obtain ⟨next', hv, he⟩ := map_ok.1 h
    cases he
    obtain ⟨hd, hr⟩ := valueTurn_ok.1 hv
    obtain ⟨x, text, mid, rfl, -⟩ | ⟨w, mid, -, rfl, -⟩ | ⟨w, name, w₁, key, mid, -, -, -, rfl, -⟩ :=
      readValue_sound hr
    · exact hd
    · trivial
    · trivial
  · cases h
  · rename_i innermost opened x rest
    obtain ⟨next', ha, he⟩ := map_ok.1 h
    cases he
    have hd : DepthOk maxDepth opened.length := hw.mono (Nat.le_succ _)
    obtain ⟨w, mid, -, h⟩ := attachTurn_sound ha
    cases innermost with
    | array items =>
      obtain ⟨rfl, -⟩ | ⟨rfl, -⟩ := h
      · trivial
      · exact hd
    | object members name =>
      obtain ⟨w', nm, w₁, key, -, -, -, rfl, -⟩ | ⟨rfl, -⟩ := h
      · trivial
      · exact hd

theorem run_sound {maxDepth : Option ℕ} {v : Json} {after : List Char} {t : Turn}
    (hw : t.Within maxDepth) (h : run maxDepth t = .ok (v, after)) : ReadsAs maxDepth v after t := by
  induction hn : t.rest.length using Nat.strong_induction_on generalizing t with
  | _ n ih =>
    obtain hlast | ⟨next, hnext, hrun⟩ := run_cases h
    · unfold turn at hlast
      split at hlast
      · obtain ⟨next', -, he⟩ := map_ok.1 hlast
        cases he
      · cases hlast
        exact ⟨[], .done, rfl⟩
      · obtain ⟨next', -, he⟩ := map_ok.1 hlast
        cases he
    · have hreads := ih _ (hn ▸ turn_length hnext) (within_next hw hnext) hrun rfl
      unfold turn at hnext
      split at hnext
      · obtain ⟨next', hv, he⟩ := map_ok.1 hnext
        cases he
        exact value_reads hv hreads
      · cases hnext
      · obtain ⟨next', ha, he⟩ := map_ok.1 hnext
        cases he
        exact attach_reads ha hreads (hw.mono (Nat.le_succ _))

/-! ### A derivation directs the run -/

theorem value_head {text : List Char} {v : Json} (h : Spells text (.value v)) :
    ∃ c tail, text = c :: tail ∧ isWhitespace c = false ∧ c ≠ ']' ∧ c ≠ '}' := by
  cases h with
  | number hn =>
    obtain ⟨c, tail, he, hc⟩ := number_head hn
    refine ⟨c, tail, he, ?_⟩
    have hne : ∀ d : Char, d ≠ '-' → isAsciiDigit d = false → c ≠ d := by
      rintro d hm hd rfl
      obtain h | h := hc
      · exact hm h
      · rw [hd] at h
        cases h
    have hw : isWhitespace c = false := by
      rw [← Bool.not_eq_true, isWhitespace_iff]
      rintro (h | h | h | h) <;> exact hne _ (by decide) (by decide) h
    exact ⟨hw, hne _ (by decide) (by decide), hne _ (by decide) (by decide)⟩
  | str hs =>
    obtain ⟨body, -, rfl⟩ := hs
    exact ⟨_, _, rfl, by decide⟩
  | _ => exact ⟨_, _, rfl, by decide⟩

theorem ends_blank {w rest : List Char} (hw : Blank w) (h : Ends rest) : Ends (w ++ rest) := by
  cases w with
  | nil => exact h
  | cons c w =>
    intro d hd
    cases hd
    exact .inl (isWhitespace_iff.2 (hw c (List.mem_cons_self ..)))

theorem items_ends {text : List Char} {vs : List Json} (h : Spells text (.items vs))
    (rest : List Char) : Ends (text ++ rest) := by
  cases h with
  | lastItem hw =>
    rw [List.append_assoc]
    exact ends_blank hw fun c hc => by cases hc; decide
  | nextItem hw =>
    rw [List.append_assoc]
    exact ends_blank hw fun c hc => by cases hc; decide

theorem members_ends {text : List Char} {ms : List (String × Json)}
    (h : Spells text (.members ms)) (rest : List Char) : Ends (text ++ rest) := by
  cases h with
  | lastMember hw =>
    rw [List.append_assoc]
    exact ends_blank hw fun c hc => by cases hc; decide
  | nextMember hw =>
    rw [List.append_assoc]
    exact ends_blank hw fun c hc => by cases hc; decide

def Runs (maxDepth : Option ℕ) (text : List Char) : Part → Prop
  | .value v => ∀ opened w rest, Blank w → DepthOk maxDepth (opened.length + depth v) → Ends rest →
      run maxDepth (.value opened (w ++ text ++ rest)) = run maxDepth (.attach opened v rest)
  | .items vs => ∀ opened items x rest, DepthOk maxDepth (opened.length + depthItems vs) →
      run maxDepth (.attach (.array items :: opened) x (text ++ rest)) =
        run maxDepth (.attach opened (.array (items ++ x :: vs)) rest)
  | .members ms => ∀ opened members name x rest,
      DepthOk maxDepth (opened.length + depthMembers ms) →
      run maxDepth (.attach (.object members name :: opened) x (text ++ rest)) =
        run maxDepth (.attach opened (.object (members ++ (name, x) :: ms)) rest)

theorem run_value {maxDepth : Option ℕ} {opened : List Open} {rest : List Char} {next : Turn}
    (hd : DepthOk maxDepth opened.length) (h : readValue opened (skipWhitespace rest) = .ok next) :
    run maxDepth (.value opened rest) = run maxDepth next := by
  apply run_next
  rw [turn, valueTurn_ok.2 ⟨hd, h⟩]
  rfl

theorem run_attach {maxDepth : Option ℕ} {opened : List Open} {innermost : Open} {x : Json}
    {rest : List Char} {next : Turn} (h : attachTurn x rest innermost opened = .ok next) :
    run maxDepth (.attach (innermost :: opened) x rest) = run maxDepth next := by
  apply run_next
  rw [turn, h]
  rfl

theorem skip_value {w text : List Char} {v : Json} (hw : Blank w) (h : Spells text (.value v))
    (rest : List Char) : skipWhitespace (w ++ text ++ rest) = text ++ rest := by
  obtain ⟨c, tail, rfl, hc, -⟩ := value_head h
  rw [List.append_assoc, skipWhitespace_blank hw]
  apply skipWhitespace_of_head
  intro d hd
  cases hd
  exact hc

theorem runs_atom {maxDepth : Option ℕ} {text : List Char} {v : Json} (hs : Spells text (.value v))
    (h : ∀ opened rest, Ends rest → readValue opened (text ++ rest) = .ok (.attach opened v rest)) :
    Runs maxDepth text (.value v) := by
  intro opened w rest hw hd hr
  apply run_value (hd.mono (Nat.le_add_right _ _))
  rw [skip_value hw hs]
  exact h opened rest hr

theorem readValue_word {opened : List Open} {word : String} {v : Json} {rest : List Char}
    (h : readValue opened (word.toList ++ rest) =
      complete opened (literal word v (word.toList ++ rest))) :
    readValue opened (word.toList ++ rest) = .ok (.attach opened v rest) := by
  rw [h, literal_ok.2 ⟨rfl, rfl⟩]
  rfl

theorem head_bracket {w text rest : List Char} {v : Json} (hw : Blank w)
    (h : Spells text (.value v)) : (skipWhitespace (w ++ text ++ rest)).head? ≠ some ']' := by
  obtain ⟨c, tail, rfl, -, hc, -⟩ := value_head h
  rw [skip_value hw h]
  intro he
  exact hc (Option.some.inj he)

theorem runs {maxDepth : Option ℕ} {text : List Char} {p : Part} (h : Spells text p) :
    Runs maxDepth text p := by
  have hskip : ∀ {w : List Char} {c : Char} (rest : List Char), Blank w → isWhitespace c = false →
      skipWhitespace (w ++ c :: rest) = c :: rest := by
    intro w c rest hw hc
    rw [skipWhitespace_blank hw]
    apply skipWhitespace_of_head
    intro d hd
    cases hd
    exact hc
  induction h with
  | null => exact runs_atom .null fun opened rest _ => @readValue_word opened "null" _ rest rfl
  | true => exact runs_atom .true fun opened rest _ => @readValue_word opened "true" _ rest rfl
  | false => exact runs_atom .false fun opened rest _ => @readValue_word opened "false" _ rest rfl
  | @number n hn =>
    apply runs_atom (.number hn)
    intro opened rest hr
    obtain ⟨c, tail, he, hc⟩ := number_head hn
    have hread := number_complete hn hr
    rw [he, List.cons_append] at hread ⊢
    rw [readValue_number hc, hread]
    rfl
  | @str text s hs =>
    apply runs_atom (.str hs)
    intro opened rest _
    have hread := (string_ok (stringText_head hs rest)).2 ⟨text, hs, rfl⟩
    obtain ⟨body, -, rfl⟩ := hs
    have hdispatch : readValue opened ('"' :: (body ++ ['"']) ++ rest) = complete opened
      ((string ('"' :: (body ++ ['"']) ++ rest)).map fun read => (.str read.1, read.2)) := rfl
    rw [hdispatch, hread]
    rfl
  | @emptyArray w hw =>
    apply runs_atom (.emptyArray hw)
    intro opened rest _
    have hdispatch : readValue opened ('[' :: (w ++ [']']) ++ rest) =
      openArray opened (w ++ [']'] ++ rest) := rfl
    rw [hdispatch, openArray, List.append_assoc, List.singleton_append, hskip rest hw (by decide)]
    rfl
  | @array w text rest v vs hw hs hvs ihv ihvs =>
    intro opened w₀ after hw₀ hd hr
    have hdispatch : ∀ tail, readValue opened ('[' :: (w ++ text ++ tail)) =
      openArray opened (w ++ text ++ tail) := fun tail => rfl
    have hread : readValue opened (skipWhitespace
        (w₀ ++ '[' :: (w ++ text ++ rest) ++ after)) =
        .ok (.value (.array [] :: opened) (text ++ (rest ++ after))) := by
      rw [List.append_assoc, List.cons_append, hskip _ hw₀ (by decide), List.append_assoc,
        hdispatch, openArray, if_neg (head_bracket hw hs), skip_value hw hs]
    simp only [depth, depthItems] at hd
    have hv := ihv (.array [] :: opened) [] (rest ++ after) (fun c hc => by cases hc)
      (hd.mono (by simp only [List.length_cons]; omega)) (items_ends hvs after)
    rw [run_value (hd.mono (Nat.le_add_right _ _)) hread, ← List.nil_append text, hv,
      ihvs opened [] v after (hd.mono (by omega)), List.nil_append]
  | @lastItem w hw =>
    intro opened items x rest hd
    rw [run_attach]
    rw [attachTurn, List.append_assoc, List.singleton_append, hskip rest hw (by decide)]
    rfl
  | @nextItem w w' text rest v vs hw hw' hs hvs ihv ihvs =>
    intro opened items x after hd
    simp only [depthItems] at hd
    have hnext : attachTurn x (w ++ ',' :: (w' ++ text ++ rest) ++ after) (.array items) opened =
        .ok (.value (.array (items ++ [x]) :: opened) (w' ++ text ++ (rest ++ after))) := by
      rw [attachTurn, List.append_assoc, List.cons_append, hskip _ hw (by decide),
        ← List.append_assoc _ rest after]
      rfl
    rw [run_attach hnext, ihv _ w' _ hw' (hd.mono (by simp only [List.length_cons]; omega))
      (items_ends hvs after), ihvs opened (items ++ [x]) v after (hd.mono (by omega))]
    simp only [List.append_assoc, List.cons_append, List.nil_append]
  | @emptyObject w hw =>
    apply runs_atom (.emptyObject hw)
    intro opened rest _
    have hdispatch : readValue opened ('\x7b' :: (w ++ ['\x7d']) ++ rest) =
      openObject opened (w ++ ['\x7d'] ++ rest) := rfl
    rw [hdispatch, openObject, List.append_assoc, List.singleton_append, hskip rest hw (by decide)]
    rfl
  | @object w name w₁ w₂ text rest key v ms hw hn hw₁ hw₂ hs hms ihv ihms =>
    intro opened w₀ after hw₀ hd hr
    have hdispatch : ∀ tail, readValue opened ('\x7b' :: tail) = openObject opened tail :=
      fun tail => rfl
    have hname : memberName (skipWhitespace
        (w ++ (name ++ w₁ ++ ':' :: (w₂ ++ text ++ (rest ++ after))))) =
        .ok (key, w₂ ++ text ++ (rest ++ after)) := by
      apply memberName_ok.2
      rw [skipWhitespace_blank hw]
      refine ⟨[], name, w₁, (fun c hc => by cases hc), hn, hw₁, ?_⟩
      rw [skipWhitespace_of_head]
      · simp
      · rw [List.append_assoc, stringText_head hn]
        intro c hc
        cases hc
        rfl
    have hbrace : (skipWhitespace
        (w ++ (name ++ w₁ ++ ':' :: (w₂ ++ text ++ (rest ++ after))))).head? ≠ some '\x7d' := by
      intro he
      rw [memberName, skipWhitespace_twice, if_pos] at hname
      · cases hname
      · rw [he]
        decide
    have hread : readValue opened (skipWhitespace
        (w₀ ++ '\x7b' :: (w ++ name ++ w₁ ++ ':' :: (w₂ ++ text ++ rest)) ++ after)) =
        .ok (.value (.object [] key :: opened) (w₂ ++ text ++ (rest ++ after))) := by
      have hassoc : w₀ ++ '\x7b' :: (w ++ name ++ w₁ ++ ':' :: (w₂ ++ text ++ rest)) ++ after =
          w₀ ++ '\x7b' :: (w ++ (name ++ w₁ ++ ':' :: (w₂ ++ text ++ (rest ++ after)))) := by
        simp only [List.append_assoc, List.cons_append]
      rw [hassoc, hskip _ hw₀ (by decide), hdispatch, openObject]
      dsimp only
      rw [if_neg hbrace, hname]
      rfl
    simp only [depth, depthMembers, depthMember] at hd
    rw [run_value (hd.mono (Nat.le_add_right _ _)) hread,
      ihv _ w₂ _ hw₂ (hd.mono (by simp only [List.length_cons]; omega)) (members_ends hms after),
      ihms opened [] key v after (hd.mono (by omega)), List.nil_append]
  | @lastMember w hw =>
    intro opened members name x rest hd
    rw [run_attach]
    rw [attachTurn, List.append_assoc, List.singleton_append, hskip rest hw (by decide)]
    rfl
  | @nextMember w w' name w₁ w₂ text rest key v ms hw hw' hn hw₁ hw₂ hs hms ihv ihms =>
    intro opened members name' x after hd
    simp only [depthMembers, depthMember] at hd
    have hname : memberName (w' ++ name ++ w₁ ++ ':' :: (w₂ ++ text ++ (rest ++ after))) =
        .ok (key, w₂ ++ text ++ (rest ++ after)) :=
      memberName_ok.2 ⟨w', name, w₁, hw', hn, hw₁, rfl⟩
    have hnext : attachTurn x
        (w ++ ',' :: (w' ++ name ++ w₁ ++ ':' :: (w₂ ++ text ++ rest)) ++ after)
        (.object members name') opened = .ok (.value
          (.object (members ++ [(name', x)]) key :: opened) (w₂ ++ text ++ (rest ++ after))) := by
      have hassoc : w ++ ',' :: (w' ++ name ++ w₁ ++ ':' :: (w₂ ++ text ++ rest)) ++ after =
          w ++ ',' :: (w' ++ name ++ w₁ ++ ':' :: (w₂ ++ text ++ (rest ++ after))) := by
        simp only [List.append_assoc, List.cons_append]
      rw [hassoc, attachTurn, hskip _ hw (by decide)]
      simp only [List.head?_cons, if_true, List.tail_cons, hname]
      rfl
    rw [run_attach hnext, ihv _ w₂ _ hw₂ (hd.mono (by simp only [List.length_cons]; omega))
      (members_ends hms after), ihms opened _ key v after (hd.mono (by omega))]
    simp only [List.append_assoc, List.cons_append, List.nil_append]

/-! ### Documents -/

theorem document_ok {maxDepth : Option ℕ} {input : List Char} {v : Json} :
    document maxDepth input = .ok v ↔ JsonText input v ∧ DepthOk maxDepth (depth v) := by
  constructor
  · intro h
    rw [document, bind_ok] at h
    obtain ⟨⟨v', rest⟩, hrun, h⟩ := h
    dsimp only at h
    split_ifs at h with hrest
    · cases h
    · cases h
      obtain ⟨w, text, x, tail, hw, hs, hd, hc, he⟩ := run_sound (t := .value [] input) trivial hrun
      cases hc
      obtain ⟨w', hw', he'⟩ := exists_blank rest
      rw [not_not.1 hrest, List.append_nil] at he'
      refine ⟨⟨w, text, w', hw, hs, hw', ?_⟩, by simpa using hd⟩
      rw [he, List.append_nil, he']
  · rintro ⟨⟨w, text, w', hw, hs, hw', rfl⟩, hd⟩
    have hend : Ends w' := by
      have h := @ends_blank w' [] hw' fun c hc => by cases hc
      rwa [List.append_nil] at h
    have hskip : skipWhitespace w' = [] := by
      have h := skipWhitespace_blank hw' []
      rwa [List.append_nil] at h
    have hrun := runs hs [] w w' hw (by simpa using hd) hend
    rw [run_last (t := .attach [] v w') rfl] at hrun
    rw [document, hrun]
    simp only [Except.bind, hskip]
    rfl

end Reader

namespace Json
open Grammar Reader

/-- One text spells one value. -/
theorem jsonText_unique {text : List Char} {v w : Json} (hv : JsonText text v)
    (hw : JsonText text w) : v = w := by
  have hnone : ∀ n, DepthOk none n := fun n limit h => by cases h
  have h := (@document_ok none _ _).2 ⟨hv, hnone _⟩
  rw [document_ok.2 ⟨hw, hnone _⟩] at h
  exact (Except.ok.inj h).symm

theorem parseWith_ok {input : String} {limits : ReadLimits}
    (h : input.utf8ByteSize ≤ limits.maxBytes) {v : Json} :
    parseWith input limits = .ok v ↔
      JsonText input.toList v ∧ DepthOk limits.maxDepth (depth v) := by
  rw [parseWith, if_neg (Nat.not_lt.2 h), ← document_ok]
  cases Reader.document limits.maxDepth input.toList <;> simp [Except.mapError]

/-- The reader succeeds on the texts of the grammar whose depth is within the limit, with the one
value each of them spells. -/
structure ReadsExactly (input : String) (limits : ReadLimits) : Prop where
  reads : ∀ v, parseWith input limits = .ok v ↔
    JsonText input.toList v ∧ DepthOk limits.maxDepth (depth v)
  unique : ∀ v w, JsonText input.toList v → JsonText input.toList w → v = w

theorem parseWith_readsExactly (input : String) (limits : ReadLimits)
    (h : input.utf8ByteSize ≤ limits.maxBytes) : ReadsExactly input limits :=
  ⟨fun _ => parseWith_ok h, fun _ _ => jsonText_unique⟩

theorem nested_readsExactly : ReadsExactly "[[1,2],]" ⟨64, some 3⟩ :=
  parseWith_readsExactly "[[1,2],]" ⟨64, some 3⟩ (by decide)

end Json
end FilamentCore.SemanticIr
