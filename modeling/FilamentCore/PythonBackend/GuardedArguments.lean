import FilamentCore.PythonBackend.Guard

/-!
# The accepted argument vectors as the parser reads them

The guard pairs options with their values as the parser does, but for `--name=` without a text:
there the guard takes the next token as the value, and the parser reads it for itself.
-/

namespace FilamentCore.PythonBackend.Guard

/-! ### The parser -/

/-- What the parser makes of tokens. -/
inductive Item
  | option (name : String) (value : Option String)
  | positional (token : String)
  deriving DecidableEq, Repr

def Item.name : Item → String
  | .option name _ => name
  | .positional token => token

def isValued (name : String) : Bool := (optionValues.map Prod.fst).contains name

/-- Whether the parser binds a value to an option. Of the options off the allow-list it may bind
one to any. -/
def bindsValue (others : String → Bool) (name : String) : Bool :=
  !flags.contains name && (isValued name || others name)

/-- The long options of a vector: `--name=value` binds the text after `=`, and an option with a
value the next token unless that is an option. -/
def readArgs (others : String → Bool) : List String → List Item
  | [] => []
  | token :: rest =>
    if !isLong token then .positional token :: readArgs others rest
    else if token.toList.contains '=' then
      .option (optionName token) (some (inlineValue token)) :: readArgs others rest
    else if bindsValue others token then
      match rest with
      | [] => [.option token none]
      | next :: rest =>
        if isLong next then .option token none :: readArgs others (next :: rest)
        else .option token (some next) :: readArgs others rest
    else .option token none :: readArgs others rest

/-- An option of the allow-list with a value that it may take. -/
def Item.Permitted : Item → Prop
  | .option name none => name ∈ flags
  | .option name (some value) => isValued name = true ∧ permits name value = true
  | .positional _ => False

structure WithinAllowList (items : List Item) : Prop where
  permitted : ∀ item ∈ items, item.Permitted
  allowed : ∀ item ∈ items, item.name ∈ allowedOptions ∧
    item.name ∉ prohibitedOptions ++ rejectedOptions ++ networkOptions
  once : (items.map Item.name).Nodup

/-! ### The pairs of the guard -/

def takesNext (token : String) : Bool :=
  !flags.contains (optionName token) && inlineValue token == ""

def units : List String → List (String × Option String)
  | [] => []
  | token :: rest =>
    if takesNext token then
      match rest with
      | [] => [(token, none)]
      | next :: rest => (token, some next) :: units rest
    else (token, none) :: units rest

/-- The token is an option of the allow-list by itself. -/
def IsComplete (token : String) : Prop :=
  isLong token = true ∧ (token ∈ flags ∨ '=' ∈ token.toList ∧
    isValued (optionName token) = true ∧ permits (optionName token) (inlineValue token) = true)

/-- An option without `=` has no option as its value. An option with `=` has a text after it, or
it is one that takes any text and its second token is an option for itself. -/
def ReadAlike : String × Option String → Prop
  | (token, none) => '=' ∈ token.toList → inlineValue token ≠ ""
  | (token, some next) =>
    if '=' ∈ token.toList then optionName token ∈ ["--input", "--output"] ∧ IsComplete next
    else isLong next = false

def unitNames : String × Option String → List String
  | (token, none) => [optionName token]
  | (token, some next) =>
    if '=' ∈ token.toList then [optionName token, optionName next] else [optionName token]

/-- The parser finds the options of the guard, and those in the place of a value are good too. -/
structure Paired (argv : List String) : Prop where
  alike : ∀ u ∈ units argv, ReadAlike u
  once : ((units argv).flatMap unitNames).Nodup

/-! ### Names -/

theorem optionName_plain {token : String} (h : '=' ∉ token.toList) : optionName token = token := by
  have hall : ∀ c ∈ token.toList, (c != '=') = true := by
    intro c hc
    exact bne_iff_ne.2 fun heq => h (heq ▸ hc)
  rw [optionName, List.takeWhile_eq_self_iff.2 hall, String.ofList_toList]

theorem inlineValue_plain {token : String} (h : '=' ∉ token.toList) : inlineValue token = "" := by
  have hall : ∀ c ∈ token.toList, (c != '=') = true := by
    intro c hc
    exact bne_iff_ne.2 fun heq => h (heq ▸ hc)
  rw [inlineValue, List.dropWhile_eq_nil_iff.2 hall]
  rfl

theorem valued_iff {name : String} :
    isValued name = true ↔ name ∈ optionValues.map Prod.fst := List.contains_iff_mem

theorem valued_not_flag {name : String} (h : isValued name = true) : name ∉ flags := by
  rw [valued_iff] at h
  revert name
  decide

theorem allowed_cases {name : String} (h : name ∈ allowedOptions) :
    name ∈ flags ∨ isValued name = true := by
  revert name
  decide

theorem allowed_of_flag {name : String} (h : name ∈ flags) : name ∈ allowedOptions := by
  revert name
  decide

theorem allowed_of_valued {name : String} (h : isValued name = true) : name ∈ allowedOptions := by
  rw [valued_iff] at h
  revert name
  decide

theorem allowed_apart {name : String} (h : name ∈ allowedOptions) :
    name ∉ prohibitedOptions ++ rejectedOptions ++ networkOptions := by
  revert name
  decide

theorem permits_empty {name : String} (h : isValued name = true) :
    permits name "" = true ↔ name ∈ ["--input", "--output"] := by
  rw [valued_iff] at h
  revert name
  decide

theorem no_equals_of_flag {token : String} (h : token ∈ flags) : '=' ∉ token.toList := by
  revert token
  decide

/-! ### Accepted vectors -/

/-- The option and its value are permitted. -/
inductive Accepted (token : String) : Option String → Prop
  | flag (h : optionName token ∈ flags) (empty : inlineValue token = "") : Accepted token none
  | inline (h : isValued (optionName token) = true) (text : inlineValue token ≠ "")
      (value : permits (optionName token) (inlineValue token) = true) : Accepted token none
  | next (h : isValued (optionName token) = true) (empty : inlineValue token = "")
      (value : String) (permitted : permits (optionName token) value = true) :
      Accepted token (some value)

/-- What the loop has accepted from an index on. -/
inductive Scanned : List String → List String → Prop
  | nil (seen : List String) : Scanned seen []
  | alone {seen : List String} {token : String} {rest : List String} (long : isLong token = true)
      (h : Accepted token none) : Scanned (optionName token :: seen) rest →
      Scanned seen (token :: rest)
  | pair {seen : List String} {token value : String} {rest : List String}
      (long : isLong token = true) (h : Accepted token (some value)) :
      Scanned (optionName token :: seen) rest → Scanned seen (token :: value :: rest)

theorem takeOption_ok {repr : String → String} {seen : List String} {index : ℕ} {token : String}
    {next : Option String} {taken : Bool}
    (h : takeOption repr seen index token next = .ok taken) :
    isLong token = true ∧ (taken = false ∧ Accepted token none ∨
      taken = true ∧ ∃ value, next = some value ∧ Accepted token (some value)) := by
  unfold takeOption at h
  dsimp only at h
  split at h
  · cases h
  rename_i hlong
  split at h
  · cases h
  split at h
  · cases h
  split at h
  · cases h
  split at h
  · cases h
  rename_i hallowed
  have hname : optionName token ∈ allowedOptions := by simpa using hallowed
  refine ⟨by simpa using hlong, ?_⟩
  split at h
  · rename_i hflag
    split at h
    · cases h
    · rename_i hempty
      cases h
      exact .inl ⟨rfl, .flag (by simpa using hflag) (by simpa using hempty)⟩
  · rename_i hflag
    have hvalued : isValued (optionName token) = true :=
      (allowed_cases hname).resolve_left (by simpa using hflag)
    by_cases hempty : inlineValue token = ""
    · rw [if_neg (by simpa using hempty)] at h
      cases next with
      | none => cases h
      | some value =>
        dsimp only at h
        split at h
        · rename_i hpermits
          rw [hempty] at h
          cases h
          exact .inr ⟨rfl, value, rfl, .next hvalued hempty value hpermits⟩
        · cases h
    · rw [if_pos hempty] at h
      dsimp only at h
      split at h
      · rename_i hpermits
        rw [beq_false_of_ne hempty] at h
        cases h
        exact .inl ⟨rfl, .inline hvalued hempty hpermits⟩
      · cases h

theorem scan_ok {repr : String → String} {seen : List String} {index : ℕ} {argv : List String}
    (h : scan repr seen index argv = .ok ()) : Scanned seen argv := by
  fun_induction scan repr seen index argv with
  | case1 seen index => exact .nil seen
  | case2 seen index token rest e heq => cases h
  | case3 seen index token rest heq ih =>
    obtain ⟨hlong, ⟨-, haccepted⟩ | ⟨htaken, -⟩⟩ := takeOption_ok heq
    · exact .alone hlong haccepted (ih h)
    · cases htaken
  | case4 seen index token heq =>
    obtain ⟨hlong, ⟨htaken, -⟩ | ⟨-, value, hnext, -⟩⟩ := takeOption_ok heq
    · cases htaken
    · cases hnext
  | case5 seen index token value rest heq ih =>
    obtain ⟨hlong, ⟨htaken, -⟩ | ⟨-, value', hnext, haccepted⟩⟩ := takeOption_ok heq
    · cases htaken
    · cases hnext
      exact .pair hlong haccepted (ih h)

/-! ### Units -/

theorem Scanned.head {seen rest : List String} {token : String}
    (h : Scanned seen (token :: rest)) : isLong token = true := by
  cases h with
  | alone long => exact long
  | pair long => exact long

theorem takesNext_alone {token : String} (h : Accepted token none) : takesNext token = false := by
  cases h with
  | flag h => simp [takesNext, h]
  | inline h text => simp [takesNext, text]

theorem takesNext_pair {token value : String} (h : Accepted token (some value)) :
    takesNext token = true := by
  cases h with
  | next h empty => simp [takesNext, empty, valued_not_flag h]

theorem units_alone {token : String} {rest : List String} (h : Accepted token none) :
    units (token :: rest) = (token, none) :: units rest := by
  rw [units.eq_def]
  dsimp only
  rw [takesNext_alone h]
  rfl

example : units [] = [] := by rw [units]

theorem units_pair {token value : String} {rest : List String} (h : Accepted token (some value)) :
    units (token :: value :: rest) = (token, some value) :: units rest := by
  rw [units, takesNext_pair h]
  rfl

variable {others : String → Bool}

theorem readArgs_equals {token : String} {rest : List String} (hlong : isLong token = true)
    (h : '=' ∈ token.toList) : readArgs others (token :: rest) =
      .option (optionName token) (some (inlineValue token)) :: readArgs others rest := by
  rw [readArgs.eq_def]
  dsimp only
  rw [hlong, if_neg (by decide), if_pos (List.contains_iff_mem.2 h)]

example (others : String → Bool) : readArgs others [] = [] := by rw [readArgs]

theorem readArgs_flag {token : String} {rest : List String} (hlong : isLong token = true)
    (h : token ∈ flags) :
    readArgs others (token :: rest) = .option token none :: readArgs others rest := by
  have hbinds : bindsValue others token = false := by simp [bindsValue, h]
  rw [readArgs.eq_def]
  dsimp only
  rw [hlong, if_neg (by decide), if_neg (by simpa using no_equals_of_flag h), hbinds]
  rfl

theorem readArgs_bare {token : String} {rest : List String} (hlong : isLong token = true)
    (h : '=' ∉ token.toList) (hrest : ∀ next ∈ rest.head?, isLong next = true) :
    readArgs others (token :: rest) = .option token none :: readArgs others rest := by
  rw [readArgs.eq_def]
  dsimp only
  rw [hlong, if_neg (by decide), if_neg (by simpa using h)]
  cases rest with
  | nil => split <;> rfl
  | cons next rest =>
    dsimp only
    rw [hrest next rfl]
    split <;> rfl

theorem readArgs_value {token value : String} {rest : List String} (hlong : isLong token = true)
    (h : '=' ∉ token.toList) (hvalued : isValued token = true) (hvalue : isLong value = false) :
    readArgs others (token :: value :: rest) =
      .option token (some value) :: readArgs others rest := by
  have hbinds : bindsValue others token = true := by
    simp [bindsValue, hvalued, valued_not_flag hvalued]
  rw [readArgs, hlong, if_neg (by decide), if_neg (by simpa using h), if_pos hbinds,
    if_neg (by simp [hvalue])]

theorem readArgs_hidden {token : String} {rest : List String}
    (hrest : ∀ next ∈ rest.head?, isLong next = true) :
    (∀ item ∈ readArgs others (token :: rest), item.Permitted) ↔
      IsComplete token ∧ ∀ item ∈ readArgs others rest, item.Permitted := by
  by_cases hlong : isLong token = true
  · by_cases heq : '=' ∈ token.toList
    · have hflag : token ∉ flags := fun hflag => no_equals_of_flag hflag heq
      rw [readArgs_equals hlong heq, List.forall_mem_cons]
      simp [IsComplete, hlong, heq, hflag, Item.Permitted]
    · rw [readArgs_bare hlong heq hrest, List.forall_mem_cons]
      simp [IsComplete, hlong, heq, Item.Permitted]
  · have hread : readArgs others (token :: rest) = .positional token :: readArgs others rest := by
      rw [readArgs.eq_def]
      dsimp only
      rw [if_pos (by simpa using hlong)]
    rw [hread, List.forall_mem_cons]
    simp [IsComplete, hlong, Item.Permitted]

theorem names_hidden {token : String} {rest : List String} (h : IsComplete token) :
    (readArgs others (token :: rest)).map Item.name =
      optionName token :: (readArgs others rest).map Item.name := by
  obtain ⟨hlong, hflag | ⟨heq, -⟩⟩ := h
  · rw [readArgs_flag hlong hflag, List.map_cons, optionName_plain (no_equals_of_flag hflag)]
    rfl
  · rw [readArgs_equals hlong heq]
    rfl

theorem Scanned.heads {seen rest : List String} (h : Scanned seen rest) :
    ∀ next ∈ rest.head?, isLong next = true := by
  intro next hnext
  cases rest with
  | nil => cases hnext
  | cons token rest =>
    cases hnext
    exact h.head

/-- The parser reads permitted options when each unit is read alike. -/
theorem permitted_iff {seen argv : List String} (h : Scanned seen argv) :
    (∀ item ∈ readArgs others argv, item.Permitted) ↔ ∀ u ∈ units argv, ReadAlike u := by
  induction h with
  | nil seen => simp [readArgs, units]
  | @alone seen token rest hlong haccepted hrest ih =>
    rw [units_alone haccepted, List.forall_mem_cons, ← ih]
    by_cases heq : '=' ∈ token.toList
    · rw [readArgs_equals hlong heq, List.forall_mem_cons]
      refine and_congr_left fun _ => ?_
      cases haccepted with
      | flag hflag empty =>
        have hvalued : isValued (optionName token) ≠ true := fun hv => valued_not_flag hv hflag
        simp [Item.Permitted, ReadAlike, hvalued, heq, empty]
      | inline hvalued text value => simp [Item.Permitted, ReadAlike, hvalued, value, text]
    · cases haccepted with
      | flag hflag empty =>
        rw [optionName_plain heq] at hflag
        rw [readArgs_flag hlong hflag, List.forall_mem_cons]
        simp [Item.Permitted, ReadAlike, hflag, heq]
      | inline hvalued text => exact absurd (inlineValue_plain heq) text
  | @pair seen token value rest hlong haccepted hrest ih =>
    rw [units_pair haccepted, List.forall_mem_cons, ← ih]
    cases haccepted with
    | next hvalued empty value hpermits =>
      by_cases heq : '=' ∈ token.toList
      · rw [readArgs_equals hlong heq, List.forall_mem_cons, readArgs_hidden hrest.heads, empty,
          ← and_assoc]
        refine and_congr_left fun _ => ?_
        simp only [Item.Permitted, ReadAlike, if_pos heq, hvalued, true_and, permits_empty hvalued]
      · rw [optionName_plain heq] at hvalued hpermits
        have hvalued' := valued_not_flag hvalued
        by_cases hlongv : isLong value = true
        · have hread := @readArgs_bare others token (value :: rest) hlong heq (by simpa using hlongv)
          rw [hread, List.forall_mem_cons]
          simp [Item.Permitted, ReadAlike, heq, hlongv, hvalued']
        · have hfalse : isLong value = false := by simpa using hlongv
          rw [readArgs_value hlong heq hvalued hfalse, List.forall_mem_cons]
          simp [Item.Permitted, ReadAlike, heq, hfalse, hvalued, hpermits]

theorem names_eq {seen argv : List String} (h : Scanned seen argv)
    (halike : ∀ u ∈ units argv, ReadAlike u) :
    (readArgs others argv).map Item.name = (units argv).flatMap unitNames := by
  induction h with
  | nil seen => rfl
  | @alone seen token rest hlong haccepted hrest ih =>
    rw [units_alone haccepted, List.forall_mem_cons] at halike
    rw [units_alone haccepted, List.flatMap_cons, ← ih halike.2]
    by_cases heq : '=' ∈ token.toList
    · rw [readArgs_equals hlong heq]
      rfl
    · cases haccepted with
      | flag hflag empty =>
        rw [optionName_plain heq] at hflag
        rw [readArgs_flag hlong hflag, unitNames, optionName_plain heq]
        rfl
      | inline hvalued text => exact absurd (inlineValue_plain heq) text
  | @pair seen token value rest hlong haccepted hrest ih =>
    rw [units_pair haccepted, List.forall_mem_cons] at halike
    rw [units_pair haccepted, List.flatMap_cons, ← ih halike.2, unitNames]
    cases haccepted with
    | next hvalued empty value hpermits =>
      by_cases heq : '=' ∈ token.toList
      · rw [if_pos heq, readArgs_equals hlong heq, List.map_cons]
        have hcomplete := halike.1
        rw [ReadAlike, if_pos heq] at hcomplete
        rw [names_hidden hcomplete.2]
        rfl
      · have hfalse := halike.1
        rw [ReadAlike, if_neg heq] at hfalse
        rw [optionName_plain heq] at hvalued
        rw [if_neg heq, readArgs_value hlong heq hvalued hfalse, optionName_plain heq]
        rfl

theorem Item.Permitted.allowed {item : Item} (h : item.Permitted) :
    item.name ∈ allowedOptions := by
  cases item with
  | positional token => cases h
  | option name value =>
    cases value with
    | none => exact allowed_of_flag h
    | some value => exact allowed_of_valued h.1

/-- An accepted vector is read within the allow-list when the parser pairs it as the guard. -/
theorem withinAllowList_iff (repr : String → String) (others : String → Bool) (argv : List String)
    (h : assertArgvSafe repr argv = .ok ()) :
    WithinAllowList (readArgs others argv) ↔ Paired argv := by
  have hscanned : Scanned [] argv := scan_ok h
  constructor
  · intro hwithin
    have halike := (permitted_iff hscanned).1 hwithin.permitted
    refine ⟨halike, ?_⟩
    rw [← names_eq hscanned halike]
    exact hwithin.once
  · intro hpaired
    have hpermitted := (@permitted_iff others _ _ hscanned).2 hpaired.alike
    refine ⟨hpermitted, ?_, ?_⟩
    · intro item hitem
      have hallowed := (hpermitted item hitem).allowed
      exact ⟨hallowed, allowed_apart hallowed⟩
    · rw [names_eq hscanned hpaired.alike]
      exact hpaired.once

theorem withinAllowList_iff_profile :
    assertArgvSafe id ["--input", "a.json", "--input-file-type=jsonschema", "--strict-refs"] =
      .ok () ∧
    (WithinAllowList (readArgs (fun _ => false)
      ["--input", "a.json", "--input-file-type=jsonschema", "--strict-refs"]) ↔
      Paired ["--input", "a.json", "--input-file-type=jsonschema", "--strict-refs"]) := by
  have h : assertArgvSafe id
      ["--input", "a.json", "--input-file-type=jsonschema", "--strict-refs"] = .ok () := by decide
  exact ⟨h, withinAllowList_iff id _ _ h⟩

/-- `--input=` hides `--url` from the guard. -/
theorem assertArgvSafe_hides_url :
    ¬∀ (repr : String → String) (others : String → Bool) (argv : List String),
      assertArgvSafe repr argv = .ok () → WithinAllowList (readArgs others argv) := by
  intro h
  have haccepted : assertArgvSafe id ["--input=", "--url"] = .ok () := by decide
  have hread : readArgs (fun _ => false) ["--input=", "--url"] =
      [.option "--input" (some ""), .option "--url" none] := by decide
  have hwithin := h id (fun _ => false) ["--input=", "--url"] haccepted
  rw [hread] at hwithin
  have hurl := (hwithin.allowed (.option "--url" none) (by decide)).2
  revert hurl
  decide

end FilamentCore.PythonBackend.Guard
