import Mathlib.Data.List.TakeWhile

/-!
# The argument guard (python_backend/adapter/guard.py, profiles.py)

What `assert_argv_safe` refuses of the argument vector of the generator. How the messages show a
text is Python's `repr`.
-/

namespace FilamentCore.PythonBackend.Guard

/-! ### Refusals -/

structure RefusalError where
  code : String
  message : String
  location : String
  deriving DecidableEq, Repr

def RefusalError.text (e : RefusalError) : String :=
  e.code ++ " at " ++ e.location ++ ": " ++ e.message

/-- The codes of `argumentTokens` in refusals.json. -/
def prohibitedCode : String := "PY-REF-020"
def networkCode : String := "PY-REF-021"
def unknownCode : String := "PY-REF-022"

/-! ### Options -/

def prohibitedOptions : List String :=
  ["--custom-template-dir", "--custom-formatters", "--custom-formatters-kwargs", "--validators",
    "--additional-imports", "--import-overrides", "--type-mappings", "--type-overrides",
    "--extra-template-data", "--class-decorators", "--base-class", "--base-class-map",
    "--input-model", "--install-skill"]

def rejectedOptions : List String := ["--extra-fields", "--use-missing-sentinel"]

def networkOptions : List String :=
  ["--allow-remote-refs", "--allow-private-network", "--url", "--http-backend", "--http-headers",
    "--http-query-parameters", "--http-ignore-tls", "--http-local-ref-path", "--http-timeout",
    "--lockfile", "--update-lock", "--locked", "--watch", "--watch-delay"]

def allowedOptions : List String :=
  ["--input", "--input-file-type", "--output", "--output-model-type", "--target-python-version",
    "--disable-timestamp", "--formatters", "--strict-refs", "--no-allow-remote-refs",
    "--field-constraints", "--use-annotated", "--strict-nullable", "--use-standard-collections",
    "--use-union-operator"]

/-- `_OPTION_VALUES`: no list is any value. -/
def optionValues : List (String × Option (List String)) :=
  [("--input", none), ("--output", none), ("--input-file-type", some ["jsonschema"]),
    ("--output-model-type", some ["pydantic_v2.BaseModel", "pydantic_v2.dataclass",
      "dataclasses.dataclass", "typing.TypedDict", "msgspec.Struct"]),
    ("--target-python-version", some ["3.13"]), ("--formatters", some ["builtin"])]

def flags : List String :=
  ["--disable-timestamp", "--strict-refs", "--no-allow-remote-refs", "--field-constraints",
    "--use-annotated", "--strict-nullable", "--use-standard-collections", "--use-union-operator"]

/-- `permitted is None or value in permitted`. -/
def permits (name value : String) : Bool :=
  match optionValues.lookup name with
  | some (some permitted) => permitted.contains value
  | _ => true

/-! ### Tokens -/

/-- `token.startswith("--")`. -/
def isLong (token : String) : Bool := ['-', '-'].isPrefixOf token.toList

/-- What `token.partition("=")` has before the `=`. -/
def optionName (token : String) : String := String.ofList (token.toList.takeWhile (· != '='))

/-- What it has after the `=`. -/
def inlineValue (token : String) : String :=
  String.ofList ((token.toList.dropWhile (· != '=')).drop 1)

/-! ### The vector -/

def takeOption (repr : String → String) (seen : List String) (index : ℕ) (token : String)
    (next : Option String) : Except RefusalError Bool :=
  let location := "argv[" ++ toString index ++ "]"
  let name := optionName token
  let inline := inlineValue token
  if !isLong token then
    .error ⟨unknownCode, "unexpected argument " ++ repr token ++
      "; the vector carries only allow-listed long options and their values", location⟩
  else if seen.contains name then
    .error ⟨unknownCode, "option " ++ repr name ++ " appears more than once; the profile is " ++
      "the complete argument vector and a caller adds nothing", location⟩
  else if prohibitedOptions.contains name || rejectedOptions.contains name then
    .error ⟨prohibitedCode, "prohibited generator option " ++ repr name, location⟩
  else if networkOptions.contains name then
    .error ⟨networkCode, "remote-reference or lock option " ++ repr name, location⟩
  else if !allowedOptions.contains name then
    .error ⟨unknownCode, "unrecognised option " ++ repr name ++
      "; the allow-list defaults to refuse", location⟩
  else if flags.contains name then
    if inline ≠ "" then .error ⟨unknownCode, repr name ++ " takes no value", location⟩
    else .ok false
  else
    match if inline ≠ "" then some inline else next with
    | none => .error ⟨unknownCode, repr name ++ " takes a value and none follows it", location⟩
    | some value =>
      if permits name value then .ok (inline == "")
      else .error ⟨unknownCode, repr name ++ " may not take " ++ repr value, location⟩

def scan (repr : String → String) (seen : List String) (index : ℕ) :
    List String → Except RefusalError Unit
  | [] => .ok ()
  | token :: rest =>
    match takeOption repr seen index token rest.head? with
    | .error e => .error e
    | .ok false => scan repr (optionName token :: seen) (index + 1) rest
    | .ok true =>
      match rest with
      | [] => .ok ()
      | _ :: rest => scan repr (optionName token :: seen) (index + 2) rest

def assertArgvSafe (repr : String → String) (argv : List String) : Except RefusalError Unit :=
  scan repr [] 0 argv

end FilamentCore.PythonBackend.Guard
