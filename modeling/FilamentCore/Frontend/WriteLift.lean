import FilamentCore.Frontend.Owners
import FilamentCore.Library.KeyedList
import FilamentCore.Library.Replace

/-!
# Writing a lift (crates/extraction-frontend/src/write.rs)

The output paths a lift accepts, and its write: every file whole under a temporary name beside its
final path, then the temporaries renamed into place, the diagnostics first.
-/

namespace FilamentCore.Frontend
open FilamentCore.Library

/-! ### Paths -/

/-- A path, component by component. -/
structure Path where
  rooted : Bool
  parts : List String
  deriving DecidableEq, Repr

namespace Path

def display (path : Path) : String :=
  (if path.rooted then "/" else "") ++ "/".intercalate path.parts

/-- `file_name`: none when the path ends in `..` or has no component. -/
def fileName (path : Path) : Option String :=
  path.parts.getLast?.bind fun name => if name = ".." ∨ name = "." then none else some name

def withFileName (path : Path) (name : String) : Path :=
  { path with
    parts := (if path.fileName.isSome then path.parts.dropLast else path.parts) ++ [name] }

/-- `parent()`, and `.` where that is missing or empty. -/
def directory (path : Path) : Path :=
  if path.parts = [] ∨ (path.parts.length = 1 ∧ path.rooted = false) then ⟨false, ["."]⟩
  else { path with parts := path.parts.dropLast }

end Path

def diagnosticsSuffix : String := ".diagnostics.json"

def tempSuffix : String := ".tmp"

def withSuffix (path : Path) (suffix : String) : Path :=
  path.withFileName (path.fileName.getD "" ++ suffix)

inductive Slot where
  | document | diagnostics
  deriving DecidableEq, Repr

def Slot.option : Slot → String
  | .document => "--out"
  | .diagnostics => "--diagnostics"

structure OutputPaths where
  document : Path
  diagnostics : Path
  deriving DecidableEq, Repr

def OutputPaths.new (out : Path) (diagnostics : Option Path) : OutputPaths :=
  ⟨out, diagnostics.getD (withSuffix out diagnosticsSuffix)⟩

def OutputPaths.slots (paths : OutputPaths) : List (Slot × Path) :=
  [(.diagnostics, paths.diagnostics), (.document, paths.document)]

/-! ### The host -/

abbrev Bytes := List UInt8

/-- A file: the absolute path of its directory, free of symbolic links, and its name. -/
abbrev Location := List String

/-- What the operating system answers: the directory a path names, and the error with which a step
at a location is refused. -/
structure Host where
  canonicalize : Path → Option Location
  createError : Location → Option String
  writeError : Location → Option String
  renameError : Location → Option String

abbrev Files := Location → Option Bytes

def Host.resolved (host : Host) (path : Path) : Option Location :=
  (host.canonicalize path.directory).bind fun parent => path.fileName.map fun name => parent ++ [name]

/-! ### Checking the output -/

def unwritable (message : String) : Diagnostic :=
  .withDisposition .outputUnwritable .frontend message none

def displayLocation (location : Location) : String := "/" ++ "/".intercalate location

/-- The roots no output may lie under, and what each is. -/
def fencedRoots (host : Host) (bundleRoot : Path) (moduleRoots : List Path) :
    List (String × Location) :=
  (("the bundle root", bundleRoot) :: moduleRoots.map fun root => ("a module root", root)).filterMap
    fun (what, root) => (host.canonicalize root).map fun r => (what, r)

def checkSlots (host : Host) (roots : List (String × Location)) :
    List (Slot × Path × Location) → List (Slot × Path) → Except Diagnostic Unit
  | _, [] => .ok ()
  | seen, (slot, path) :: slots =>
    match host.resolved path with
    | none => .error (unwritable (slot.option ++ " " ++ path.display ++
        " names a file in a directory that does not exist"))
    | some resolved =>
      match roots.find? fun (_, root) => root.isPrefixOf resolved with
      | some (what, root) => .error (unwritable (slot.option ++ " " ++ path.display ++
          " lies under " ++ what ++ " " ++ displayLocation root))
      | none =>
        match seen.find? fun (_, _, r) => r = resolved with
        | some (otherSlot, otherPath, _) => .error (unwritable (otherSlot.option ++ " " ++
            otherPath.display ++ " and " ++ slot.option ++ " " ++ path.display ++
            " resolve to one file"))
        | none => checkSlots host roots (seen ++ [(slot, path, resolved)]) slots

def checkOutput (host : Host) (paths : OutputPaths) (bundleRoot : Path) (moduleRoots : List Path) :
    Except Diagnostic Unit :=
  checkSlots host (fencedRoots host bundleRoot moduleRoots) [] paths.slots

/-! ### Temporary files -/

def remove (files : Files) (location : Location) : Files := Function.update files location none

/-- `Drop for Temp`: the temporaries that were not kept. -/
def dropTemps (temps : List Location) (files : Files) : Files := temps.foldl remove files

/-- `Temp::create`: the location of the temporary, written whole. -/
def createTemp (host : Host) (finalPath : Path) (bytes : Bytes) (files : Files) :
    Except String Location × Files :=
  let path := withSuffix finalPath tempSuffix
  let refused (error : String) := "temporary file " ++ path.display ++ " " ++ error
  match host.resolved path with
  | none => (.error (refused "No such file or directory (os error 2)"), files)
  | some location =>
    if (files location).isSome then (.error (refused "File exists (os error 17)"), files)
    else
      match host.createError location with
      | some error => (.error (refused error), files)
      | none =>
        match host.writeError location with
        | some error => (.error error, remove (Replace.place files location []) location)
        | none => (.ok location, Replace.place files location bytes)

/-- `rename_over`; a temporary that cannot be renamed is dropped. -/
def renameOver (host : Host) (temp : Location) (finalPath : Path) (files : Files) :
    Except String Unit × Files :=
  match files temp, host.resolved finalPath with
  | some _, some final =>
    match host.renameError final with
    | some error => (.error error, remove files temp)
    | none => (.ok (), Replace.move files temp final)
  | _, _ => (.error "No such file or directory (os error 2)", remove files temp)

/-! ### The write -/

/-- What a lift writes: the diagnostics, and the document unless the lift is blocked. -/
def planned (paths : OutputPaths) (document : Option Bytes) (diagnostics : Bytes) :
    List (Path × Bytes) :=
  (paths.diagnostics, diagnostics) :: document.toList.map fun bytes => (paths.document, bytes)

/-- The first loop of `write_lift`: the temporaries in the order of the plan. -/
def stage (host : Host) : List (Path × Bytes) → List (Path × Location) → Files →
    Except Diagnostic (List (Path × Location)) × Files
  | [], temps, files => (.ok temps, files)
  | (path, bytes) :: rest, temps, files =>
    match createTemp host path bytes files with
    | (.ok temp, after) => stage host rest (temps ++ [(path, temp)]) after
    | (.error error, after) =>
      (.error (unwritable (path.display ++ " cannot be written: " ++ error)),
        dropTemps (temps.map Prod.snd) after)

/-- The second loop. -/
def settle (host : Host) : List (Path × Location) → Files → Except Diagnostic Unit × Files
  | [], files => (.ok (), files)
  | (path, temp) :: temps, files =>
    match renameOver host temp path files with
    | (.ok (), after) => settle host temps after
    | (.error error, after) =>
      (.error (unwritable (path.display ++ " cannot be replaced: " ++ error)),
        dropTemps (temps.map Prod.snd) after)

def writeLift (host : Host) (paths : OutputPaths) (document : Option Bytes) (diagnostics : Bytes)
    (files : Files) : Except Diagnostic Unit × Files :=
  match stage host (planned paths document diagnostics) [] files with
  | (.ok temps, after) => settle host temps after
  | (.error refusal, after) => (.error refusal, after)

/-! ### The steps -/

variable {host : Host} {paths : OutputPaths} {document : Option Bytes} {diagnostics : Bytes}
  {files after : Files}

/-- The host lets a temporary be created at the location and written. -/
structure Admits (host : Host) (files : Files) (location : Location) : Prop where
  free : files location = none
  created : host.createError location = none
  written : host.writeError location = none

theorem createTemp_of_admits {path : Path} {bytes : Bytes} {temp : Location}
    (hr : host.resolved (withSuffix path tempSuffix) = some temp) (ha : Admits host files temp) :
    createTemp host path bytes files = (.ok temp, Replace.place files temp bytes) := by
  rw [createTemp, hr]
  simp [ha.free, ha.created, ha.written]

theorem createTemp_ok {path : Path} {bytes : Bytes} {temp : Location}
    (h : createTemp host path bytes files = (.ok temp, after)) :
    host.resolved (withSuffix path tempSuffix) = some temp ∧ Admits host files temp ∧
      after = Replace.place files temp bytes := by
  unfold createTemp at h
  dsimp only at h
  split at h
  · cases h
  · rename_i location hr
    by_cases hf : (files location).isSome = true
    · rw [if_pos hf] at h
      cases h
    · rw [if_neg hf] at h
      split at h
      · cases h
      · rename_i hc
        split at h
        · cases h
        · rename_i hw
          cases h
          exact ⟨hr, ⟨by simpa using hf, hc, hw⟩, rfl⟩

theorem createTemp_error {path : Path} {bytes : Bytes} {error : String}
    (h : createTemp host path bytes files = (.error error, after)) : after = files := by
  unfold createTemp at h
  dsimp only at h
  split at h
  · cases h
    rfl
  · rename_i location hr
    by_cases hf : (files location).isSome = true
    · rw [if_pos hf] at h
      cases h
      rfl
    · rw [if_neg hf] at h
      have hfree : files location = none := by simpa using hf
      split at h
      · cases h
        rfl
      · split at h
        · cases h
          rw [remove, Replace.place, Function.update_idem, ← hfree, Function.update_eq_self]
        · cases h

theorem renameOver_ok {temp : Location} {path : Path} :
    renameOver host temp path files = (.ok (), after) ↔
      ∃ final, host.resolved path = some final ∧ (files temp).isSome = true ∧
        host.renameError final = none ∧ after = Replace.move files temp final := by
  rw [renameOver]
  cases files temp with
  | none => simp
  | some bytes =>
    cases host.resolved path with
    | none => simp
    | some final =>
      cases hr : host.renameError final with
      | none => simp [hr, eq_comm]
      | some error => simp [hr]

theorem dropTemps_apply (temps : List Location) (files : Files) (l : Location) :
    dropTemps temps files l = if l ∈ temps then none else files l := by
  induction temps generalizing files with
  | nil => rfl
  | cons temp temps ih =>
    rw [dropTemps, List.foldl_cons, ← dropTemps, ih]
    by_cases h : l = temp
    · simp [remove, h]
    · simp [remove, h]

theorem dropTemps_place {temps : List Location} {temp : Location} (h : files temp = none)
    (bytes : Bytes) :
    dropTemps (temps ++ [temp]) (Replace.place files temp bytes) = dropTemps temps files := by
  funext l
  rw [dropTemps_apply, dropTemps_apply]
  by_cases hl : l = temp
  · rw [hl, h, ite_self, if_pos (List.mem_append_right _ List.mem_cons_self)]
  · rw [Replace.place, Function.update_of_ne hl]
    exact if_congr (by simp [hl]) rfl rfl

/-! ### The loops -/

/-- An entry of the plan and the way its content takes. -/
structure Staged (host : Host) (p : Path × Bytes) (e : Replace.Entry Location Bytes) : Prop where
  temp : host.resolved (withSuffix p.1 tempSuffix) = some e.temp
  final : host.resolved p.1 = some e.final
  content : e.content = p.2

/-- A temporary and the way its content takes. -/
def Tracks (host : Host) (t : Path × Location) (e : Replace.Entry Location Bytes) : Prop :=
  host.resolved t.1 = some e.final ∧ t.2 = e.temp

theorem stage_error {plan : List (Path × Bytes)} {temps : List (Path × Location)}
    {refusal : Diagnostic} (h : stage host plan temps files = (.error refusal, after)) :
    after = dropTemps (temps.map Prod.snd) files := by
  induction plan generalizing temps files with
  | nil => cases h
  | cons p plan ih =>
    obtain ⟨path, bytes⟩ := p
    rw [stage] at h
    cases hc : createTemp host path bytes files with
    | mk result placed =>
      rw [hc] at h
      cases result with
      | error error =>
        cases h
        rw [createTemp_error hc]
      | ok temp =>
        obtain ⟨_, ha, rfl⟩ := createTemp_ok hc
        have hrest := ih h
        rw [List.map_append, List.map_singleton] at hrest
        exact hrest.trans (dropTemps_place ha.free bytes)

theorem stage_ok {plan : List (Path × Bytes)} {temps temps' : List (Path × Location)}
    (hplan : ∀ p ∈ plan, (host.resolved p.1).isSome = true)
    (h : stage host plan temps files = (.ok temps', after)) :
    ∃ es tracked, List.Forall₂ (Staged host) plan es ∧ List.Forall₂ (Tracks host) tracked es ∧
      temps' = temps ++ tracked ∧ after = Replace.placed files es ∧
      (∀ e ∈ es, Admits host files e.temp) ∧ es.Pairwise fun e e' => e.temp ≠ e'.temp := by
  induction plan generalizing temps files with
  | nil =>
    cases h
    exact ⟨[], [], .nil, .nil, (List.append_nil _).symm, rfl, fun e he => (nomatch he), .nil⟩
  | cons p plan ih =>
    obtain ⟨path, bytes⟩ := p
    obtain ⟨final, hfinal⟩ := Option.isSome_iff_exists.1 (hplan _ List.mem_cons_self)
    rw [stage] at h
    cases hc : createTemp host path bytes files with
    | mk result placed =>
      rw [hc] at h
      cases result with
      | error error => cases h
      | ok temp =>
        obtain ⟨htemp, ha, rfl⟩ := createTemp_ok hc
        obtain ⟨es, tracked, hs, ht, rfl, rfl, hes, hp⟩ :=
          ih (fun p hp => hplan p (List.mem_cons_of_mem _ hp)) h
        have hne : ∀ e ∈ es, temp ≠ e.temp := by
          intro e he heq
          have hfree := (hes e he).free
          rw [← heq, Replace.place, Function.update_self] at hfree
          cases hfree
        refine ⟨⟨temp, final, bytes⟩ :: es, (path, temp) :: tracked, .cons ⟨htemp, hfinal, rfl⟩ hs,
          .cons ⟨hfinal, rfl⟩ ht, by rw [List.append_assoc, List.singleton_append], rfl, ?_,
          List.pairwise_cons.2 ⟨hne, hp⟩⟩
        intro e he
        obtain rfl | he := List.mem_cons.1 he
        · exact ha
        · obtain ⟨hfree, hcreated, hwritten⟩ := hes e he
          rw [Replace.place, Function.update_of_ne (hne e he).symm] at hfree
          exact ⟨hfree, hcreated, hwritten⟩

theorem settle_ok {temps : List (Path × Location)} {es : List (Replace.Entry Location Bytes)}
    (ht : List.Forall₂ (Tracks host) temps es) (h : settle host temps files = (.ok (), after)) :
    after = Replace.moved files es ∧ ∀ e ∈ es, host.renameError e.final = none := by
  induction ht generalizing files with
  | nil =>
    cases h
    exact ⟨rfl, fun e he => (nomatch he)⟩
  | @cons t e temps es htrack _ ih =>
    obtain ⟨path, temp⟩ := t
    obtain ⟨hfinal, rfl⟩ := htrack
    rw [settle] at h
    cases hr : renameOver host e.temp path files with
    | mk result renamed =>
      rw [hr] at h
      cases result with
      | error error => cases h
      | ok u =>
        obtain ⟨final, hf, _, hrename, rfl⟩ := renameOver_ok.1 hr
        obtain rfl := Option.some.inj (hf.symm.trans hfinal)
        obtain ⟨he, hes⟩ := ih h
        exact ⟨he, List.forall_mem_cons.2 ⟨hrename, hes⟩⟩

/-! ### All or nothing -/

theorem checkSlots_ok {roots : List (String × Location)} {seen : List (Slot × Path × Location)}
    {slots : List (Slot × Path)} (h : checkSlots host roots seen slots = .ok ()) :
    ∀ s ∈ slots, ∃ l, host.resolved s.2 = some l ∧ ∀ p ∈ seen, p.2.2 ≠ l := by
  induction slots generalizing seen with
  | nil => exact fun s hs => (nomatch hs)
  | cons s slots ih =>
    obtain ⟨slot, path⟩ := s
    unfold checkSlots at h
    split at h
    · cases h
    · rename_i location hr
      split at h
      · cases h
      · split at h
        · cases h
        · rename_i hseen
          intro s hs
          obtain rfl | hs := List.mem_cons.1 hs
          · refine ⟨location, hr, fun p hp he => ?_⟩
            have hne := List.find?_eq_none.1 hseen p hp
            exact hne (by simpa using he)
          · obtain ⟨l, hl, hne⟩ := ih h s hs
            exact ⟨l, hl, fun p hp => hne p (List.mem_append_left _ hp)⟩

theorem checkOutput_ok {bundleRoot : Path} {moduleRoots : List Path}
    (h : checkOutput host paths bundleRoot moduleRoots = .ok ()) :
    ∃ final target, host.resolved paths.diagnostics = some final ∧
      host.resolved paths.document = some target ∧ final ≠ target := by
  unfold checkOutput at h
  unfold OutputPaths.slots checkSlots at h
  split at h
  · cases h
  · rename_i final hfinal
    split at h
    · cases h
    · split at h
      · cases h
      · obtain ⟨target, htarget, hne⟩ := checkSlots_ok h _ List.mem_cons_self
        exact ⟨final, target, hfinal, htarget,
          hne (.diagnostics, paths.diagnostics, final) (by simp)⟩

theorem temp_ne {path : Path} {suffix : String} {l temp : Location} (hs : suffix ≠ "")
    (hl : host.resolved path = some l) (ht : host.resolved (withSuffix path suffix) = some temp) :
    temp ≠ l := by
  obtain ⟨parent, hparent, hl⟩ := Option.bind_eq_some_iff.1 hl
  obtain ⟨name, hname, rfl⟩ := Option.map_eq_some_iff.1 hl
  obtain ⟨parent', hparent', ht⟩ := Option.bind_eq_some_iff.1 ht
  obtain ⟨name', hname', rfl⟩ := Option.map_eq_some_iff.1 ht
  have hparts : (withSuffix path suffix).parts = path.parts.dropLast ++ [name ++ suffix] := by
    rw [withSuffix, Path.withFileName, hname]
    rfl
  intro he
  have hlast := congrArg List.getLast? he
  rw [List.getLast?_concat, List.getLast?_concat] at hlast
  rw [Path.fileName, hparts, List.getLast?_concat, Option.bind_some] at hname'
  split at hname'
  · cases hname'
  · have hself : name ++ suffix = name :=
      (Option.some.inj hname').trans (Option.some.inj hlast)
    have hlen := congrArg String.length hself
    rw [String.length_append] at hlen
    exact hs (String.length_eq_zero_iff.1 (by omega))

/-- What a lift that reports success leaves: every planned file holds its content, no temporary
remains, and no other path changed. -/
structure Written (host : Host) (plan : List (Path × Bytes)) (files after : Files) : Prop where
  outputs : ∀ p ∈ plan, ∀ l, host.resolved p.1 = some l → after l = some p.2
  temporaries : ∀ p ∈ plan, ∀ l, host.resolved (withSuffix p.1 tempSuffix) = some l →
    (∀ q ∈ plan, host.resolved q.1 ≠ some l) → after l = none
  others : ∀ l, (∀ q ∈ plan, host.resolved q.1 ≠ some l) → after l = files l

/-- A lift that reports success has written its files and nothing else, and one that cannot place
its temporaries leaves every file as it was. -/
structure AllOrNothing (host : Host) (paths : OutputPaths) (document : Option Bytes)
    (diagnostics : Bytes) (files : Files) : Prop where
  written : ∀ after, writeLift host paths document diagnostics files = (.ok (), after) →
    Written host (planned paths document diagnostics) files after
  refused : ∀ refusal after,
    stage host (planned paths document diagnostics) [] files = (.error refusal, after) →
      writeLift host paths document diagnostics files = (.error refusal, files)

/-- The diagnostics path is the temporary name of the document path, no file stands at it or at its
own temporary, and the host lets every step through. -/
def Crossed (host : Host) (paths : OutputPaths) (files : Files) : Prop :=
  ∃ temp final target, host.resolved (withSuffix paths.diagnostics tempSuffix) = some temp ∧
    host.resolved paths.diagnostics = some final ∧
    host.resolved (withSuffix paths.document tempSuffix) = some final ∧
    host.resolved paths.document = some target ∧
    Admits host files temp ∧ Admits host files final ∧
    host.renameError final = none ∧ host.renameError target = none

theorem written_of_apart {plan : List (Path × Bytes)}
    {es : List (Replace.Entry Location Bytes)} (hs : List.Forall₂ (Staged host) plan es)
    (hes : ∀ e ∈ es, Admits host files e.temp) (hp : es.Pairwise Replace.Apart) :
    Written host plan files (Replace.moved (Replace.placed files es) es) := by
  have hplaced : ∀ e ∈ es, Replace.placed files es e.temp = some e.content :=
    fun e he => Replace.placed_temp hp he
  have hfinal : ∀ l, (∀ q ∈ plan, host.resolved q.1 ≠ some l) → ∀ e ∈ es, e.final ≠ l := by
    intro l hl e he heq
    obtain ⟨p, hp, hpe⟩ := Related.exists_left hs he
    exact hl p hp (heq ▸ hpe.final)
  constructor
  · intro p hp' l hl
    obtain ⟨e, he, hpe⟩ := Related.exists_right hs hp'
    obtain rfl := Option.some.inj (hpe.final.symm.trans hl)
    rw [Replace.moved_final hp hplaced he, hpe.content]
  · intro p hp' l hl hother
    obtain ⟨e, he, hpe⟩ := Related.exists_right hs hp'
    obtain rfl := Option.some.inj (hpe.temp.symm.trans hl)
    exact Replace.moved_temp hp he (hfinal _ hother)
  · intro l hother
    by_cases ht : ∃ e ∈ es, e.temp = l
    · obtain ⟨e, he, rfl⟩ := ht
      rw [Replace.moved_temp hp he (hfinal _ hother), (hes e he).free]
    · have hne : ∀ e ∈ es, e.temp ≠ l := fun e he heq => ht ⟨e, he, heq⟩
      rw [Replace.moved_other fun e he => ⟨hne e he, hfinal _ hother e he⟩,
        Replace.placed_other hne]

theorem apart_of_not_crossed {es : List (Replace.Entry Location Bytes)} {final target : Location}
    (hfinal : host.resolved paths.diagnostics = some final)
    (htarget : host.resolved paths.document = some target) (hne : final ≠ target)
    (hs : List.Forall₂ (Staged host) (planned paths document diagnostics) es)
    (hes : ∀ e ∈ es, Admits host files e.temp) (ht : es.Pairwise fun e e' => e.temp ≠ e'.temp)
    (hrename : ∀ e ∈ es, host.renameError e.final = none)
    (h : ¬(document.isSome = true ∧ Crossed host paths files)) : es.Pairwise Replace.Apart := by
  cases document with
  | none =>
    obtain ⟨⟩ | @⟨_, e, _, _, _, ⟨⟩⟩ := hs
    exact List.pairwise_singleton _ _
  | some bytes =>
    obtain ⟨⟩ | @⟨_, e, _, _, he, _ | @⟨_, e', _, _, he', ⟨⟩⟩⟩ := hs
    obtain ⟨hfirst, _⟩ := List.pairwise_cons.1 ht
    have hf : e.final = final := Option.some.inj (he.final.symm.trans hfinal)
    have hf' : e'.final = target := Option.some.inj (he'.final.symm.trans htarget)
    have hmem : e ∈ [e, e'] := List.mem_cons_self
    have hmem' : e' ∈ [e, e'] := List.mem_cons_of_mem _ List.mem_cons_self
    have hcrossed : e'.temp ≠ e.final := by
      intro heq
      refine h ⟨rfl, e.temp, e.final, e'.final, he.temp, he.final, heq ▸ he'.temp, he'.final,
        hes e hmem, heq ▸ hes e' hmem', hrename e hmem, hrename e' hmem'⟩
    refine List.pairwise_pair.2 ⟨hfirst e' List.mem_cons_self, ?_, hcrossed⟩
    rwa [hf, hf']

/-- Where the paths cross, the lift reports success with the diagnostics at the document path and
no file at the diagnostics path. -/
theorem writeLift_crossed {bytes : Bytes} (h : Crossed host paths files)
    (hne : host.resolved paths.diagnostics ≠ host.resolved paths.document) :
    ∃ after final, writeLift host paths (some bytes) diagnostics files = (.ok (), after) ∧
      host.resolved paths.diagnostics = some final ∧ after final = none := by
  obtain ⟨temp, final, target, htemp, hfinal, hcross, htarget, ha, ha', hr, hr'⟩ := h
  have hft : final ≠ target := fun he => hne (by rw [hfinal, htarget, he])
  have htf : temp ≠ final := temp_ne (by decide) hfinal htemp
  let first := Replace.place files temp diagnostics
  let both := Replace.place first final bytes
  have hsecond : Admits host first final :=
    ⟨(Function.update_of_ne htf.symm _ _).trans ha'.free, ha'.created, ha'.written⟩
  have hstage : stage host (planned paths (some bytes) diagnostics) [] files =
      (.ok [(paths.diagnostics, temp), (paths.document, final)], both) := by
    simp only [planned, Option.toList, List.map, stage, createTemp_of_admits htemp ha,
      createTemp_of_admits hcross hsecond, List.nil_append, List.singleton_append, first, both]
  have hboth : both temp = some diagnostics :=
    (Function.update_of_ne htf _ _).trans (Function.update_self ..)
  let renamed := Replace.move both temp final
  have hrenamed : renamed final = some diagnostics := Replace.move_final.trans hboth
  have hfirst : renameOver host temp paths.diagnostics both = (.ok (), renamed) :=
    renameOver_ok.2 ⟨final, hfinal, by rw [hboth]; rfl, hr, rfl⟩
  have hlast : renameOver host final paths.document renamed =
      (.ok (), Replace.move renamed final target) :=
    renameOver_ok.2 ⟨target, htarget, by rw [hrenamed]; rfl, hr', rfl⟩
  refine ⟨Replace.move renamed final target, final, ?_, hfinal, Replace.move_temp hft⟩
  rw [writeLift, hstage]
  simp only [settle, hfirst, hlast]

theorem allOrNothing_iff {bundleRoot : Path} {moduleRoots : List Path}
    (h : checkOutput host paths bundleRoot moduleRoots = .ok ()) (document : Option Bytes)
    (diagnostics : Bytes) (files : Files) :
    AllOrNothing host paths document diagnostics files ↔
      ¬(document.isSome = true ∧ Crossed host paths files) := by
  obtain ⟨final, target, hfinal, htarget, hne⟩ := checkOutput_ok h
  constructor
  · intro hall ⟨hsome, hcrossed⟩
    obtain ⟨bytes, rfl⟩ := Option.isSome_iff_exists.1 hsome
    have hne' : host.resolved paths.diagnostics ≠ host.resolved paths.document := by
      rw [hfinal, htarget]
      exact fun he => hne (Option.some.inj he)
    obtain ⟨after, l, hrun, hl, hnone⟩ := writeLift_crossed hcrossed hne'
    have hheld := (hall.written after hrun).outputs _ List.mem_cons_self l hl
    rw [hnone] at hheld
    cases hheld
  · intro hcrossed
    constructor
    · intro after hrun
      rw [writeLift] at hrun
      cases hstage : stage host (planned paths document diagnostics) [] files with
      | mk result staged =>
        rw [hstage] at hrun
        cases result with
        | error refusal => cases hrun
        | ok temps =>
          have hplan : ∀ p ∈ planned paths document diagnostics,
              (host.resolved p.1).isSome = true := by
            intro p hp
            obtain rfl | hp := List.mem_cons.1 hp
            · exact Option.isSome_iff_exists.2 ⟨final, hfinal⟩
            · obtain ⟨bytes, _, rfl⟩ := List.mem_map.1 hp
              exact Option.isSome_iff_exists.2 ⟨target, htarget⟩
          obtain ⟨es, tracked, hs, ht, rfl, rfl, hes, hp⟩ := stage_ok hplan hstage
          obtain ⟨rfl, hrename⟩ := settle_ok ht hrun
          exact written_of_apart hs hes
            (apart_of_not_crossed hfinal htarget hne hs hes hp hrename hcrossed)
    · intro refusal after hstage
      have hafter := stage_error hstage
      rw [writeLift, hstage, hafter]
      rfl

/-- A host that lets every step through, run in the directory `/work`. -/
def openHost : Host where
  canonicalize path := some ((if path.rooted then [] else ["work"]) ++ path.parts.filter (· ≠ "."))
  createError _ := none
  writeError _ := none
  renameError _ := none

/-- `--out model.json --diagnostics model.json.tmp`. -/
def crossingPaths : OutputPaths := ⟨⟨false, ["model.json"]⟩, ⟨false, ["model.json.tmp"]⟩⟩

theorem crossingPaths_mixed :
    checkOutput openHost crossingPaths ⟨true, ["bundle"]⟩ [] = .ok () ∧
      ¬AllOrNothing openHost crossingPaths (some [1]) [2] fun _ => none := by
  have hcheck : checkOutput openHost crossingPaths ⟨true, ["bundle"]⟩ [] = .ok () := by
    decide +kernel
  refine ⟨hcheck, fun h => ?_⟩
  have hadmits : ∀ l, Admits openHost (fun _ => none) l := fun l => ⟨rfl, rfl, rfl⟩
  have hcrossed : Crossed openHost crossingPaths fun _ => none :=
    ⟨["work", "model.json.tmp.tmp"], ["work", "model.json.tmp"], ["work", "model.json"], by decide +kernel,
      by decide +kernel, by decide +kernel, by decide +kernel, hadmits _, hadmits _, rfl, rfl⟩
  obtain ⟨after, l, hrun, hl, hnone⟩ :=
    @writeLift_crossed openHost crossingPaths [2] (fun _ => none) [1] hcrossed (by decide +kernel)
  have hheld := (h.written after hrun).outputs _ List.mem_cons_self l hl
  rw [hnone] at hheld
  cases hheld

/-- With the default sidecar the paths do not cross. -/
theorem defaultPaths_written :
    checkOutput openHost (.new ⟨false, ["model.json"]⟩ none) ⟨true, ["bundle"]⟩ [] = .ok () ∧
      AllOrNothing openHost (.new ⟨false, ["model.json"]⟩ none) (some [1]) [2] fun _ => none := by
  have hcheck : checkOutput openHost (.new ⟨false, ["model.json"]⟩ none) ⟨true, ["bundle"]⟩ [] =
      .ok () := by
    decide +kernel
  refine ⟨hcheck, (allOrNothing_iff hcheck _ _ _).2 ?_⟩
  intro ⟨_, temp, final, target, _, hfinal, hcross, _⟩
  exact absurd (hfinal.trans hcross.symm) (by decide +kernel)

end FilamentCore.Frontend
