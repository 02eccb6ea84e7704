import FilamentCore.Library.Following

/-!
# Chains of a partial step

The places from one to the end that its steps lead to.
-/

namespace FilamentCore.Library.Following

variable {α : Type*} {next : α → Option α}

/-- The places from one to its end. -/
inductive Chain (next : α → Option α) : α → List α → Prop
  | stop {a : α} : next a = none → Chain next a [a]
  | step {a b : α} {path : List α} :
    next a = some b → Chain next b path → Chain next a (a :: path)

theorem Chain.unique {a : α} {path path' : List α} (h : Chain next a path)
    (h' : Chain next a path') : path = path' := by
  induction h generalizing path' with
  | stop hn =>
    cases h' with
    | stop _ => rfl
    | step hs _ =>
      rw [hn] at hs
      cases hs
  | step hs _ ih =>
    cases h' with
    | stop hn =>
      rw [hn] at hs
      cases hs
    | step hs' hc =>
      rw [hs, Option.some.injEq] at hs'
      subst hs'
      rw [ih hc]

theorem Chain.head {a : α} {path : List α} (h : Chain next a path) : ∃ rest, path = a :: rest := by
  cases h with
  | stop _ => exact ⟨[], rfl⟩
  | step _ _ => exact ⟨_, rfl⟩

theorem chain_next {a b : α} {path : List α} (hs : next a = some b) :
    Chain next a path ↔ ∃ rest, path = a :: rest ∧ Chain next b rest := by
  constructor
  · intro h
    cases h with
    | stop hn =>
      rw [hn] at hs
      cases hs
    | step hs' hc =>
      rw [hs, Option.some.injEq] at hs'
      subst hs'
      exact ⟨_, rfl, hc⟩
  · rintro ⟨rest, rfl, hc⟩
    exact .step hs hc

theorem chain_stop {a : α} {path : List α} (hn : next a = none) :
    Chain next a path ↔ path = [a] := by
  constructor
  · intro h
    exact h.unique (.stop hn)
  · rintro rfl
    exact .stop hn

theorem Chain.ends {a : α} {path : List α} (h : Chain next a path) :
    ∃ e, path.getLast? = some e ∧ Ends next a e := by
  induction h with
  | stop hn => exact ⟨_, rfl, .stop hn⟩
  | step hs hc ih =>
    obtain ⟨e, he, hends⟩ := ih
    obtain ⟨rest, rfl⟩ := hc.head
    exact ⟨e, by rw [List.getLast?_cons_cons, he], .step hs hends⟩

theorem Ends.chain {a e : α} (h : Ends next a e) :
    ∃ path, Chain next a path ∧ path.getLast? = some e := by
  induction h with
  | stop hn => exact ⟨_, .stop hn, rfl⟩
  | step hs _ ih =>
    obtain ⟨path, hc, hlast⟩ := ih
    obtain ⟨rest, rfl⟩ := hc.head
    exact ⟨_, .step hs hc, by rw [List.getLast?_cons_cons, hlast]⟩

theorem Chain.suffix {a : α} {path before rest : List α} {x : α} (h : Chain next a path)
    (hpath : path = before ++ x :: rest) : Chain next x (x :: rest) := by
  induction before generalizing a path with
  | nil =>
    obtain ⟨rest', heq⟩ := h.head
    rw [hpath, List.nil_append, List.cons.injEq] at heq
    rw [hpath, List.nil_append, ← heq.1] at h
    exact h
  | cons y before ih =>
    cases h with
    | stop hn => simp at hpath
    | step hs hc =>
      rw [List.cons_append, List.cons.injEq] at hpath
      exact ih hc hpath.2

theorem Chain.next_isSome {a : α} {path before rest : List α} {x : α} (h : Chain next a path)
    (hpath : path = before ++ x :: rest) : next x = rest.head? := by
  have hx := h.suffix hpath
  cases hx with
  | stop hn => exact hn
  | step hs hc =>
    obtain ⟨rest', rfl⟩ := hc.head
    exact hs

theorem Chain.nodup {a : α} {path : List α} (h : Chain next a path) : path.Nodup := by
  induction h with
  | stop _ => exact List.nodup_singleton _
  | @step a b path hs hc ih =>
    refine List.nodup_cons.2 ⟨fun hm => ?_, ih⟩
    obtain ⟨before, rest, hpath⟩ := List.append_of_mem hm
    have hlong := congrArg List.length ((hc.suffix hpath).unique (.step hs hc))
    have hlength := congrArg List.length hpath
    simp only [List.length_cons, List.length_append] at hlong hlength
    omega

/-- The places with a next are in a list, so a chain is at most one longer. -/
theorem Chain.length_le {a : α} {path names : List α} (h : Chain next a path)
    (hnames : ∀ x y, next x = some y → x ∈ names) : path.length ≤ names.length + 1 := by
  classical
  have hinit : ∀ x ∈ path.dropLast, x ∈ names := by
    intro x hx
    obtain ⟨before, rest, hsplit⟩ := List.append_of_mem hx
    obtain ⟨e, hlast, -⟩ := h.ends
    have hpath : path = before ++ x :: (rest ++ [e]) := by
      rw [← List.dropLast_append_getLast? e hlast, hsplit]
      simp
    have hnext := h.next_isSome hpath
    cases hrest : rest ++ [e] with
    | nil => simp at hrest
    | cons y ys =>
      rw [hrest] at hnext
      exact hnames x y hnext
  have hle := (h.nodup.sublist (List.dropLast_sublist path)).subperm hinit |>.length_le
  rw [List.length_dropLast] at hle
  omega

theorem Chain.along {a x : α} {path mid : List α} (h : Chain next a path)
    (hrun : (a :: (mid ++ [x])).IsChain fun y z => next y = some z) :
    ∃ rest, path = a :: (mid ++ x :: rest) := by
  induction mid generalizing a path with
  | nil =>
    rw [List.nil_append, List.isChain_pair] at hrun
    obtain ⟨rest, rfl, hc⟩ := (chain_next hrun).1 h
    obtain ⟨rest', rfl⟩ := hc.head
    exact ⟨rest', rfl⟩
  | cons b mid ih =>
    rw [List.cons_append, List.isChain_cons_cons] at hrun
    obtain ⟨rest, rfl, hc⟩ := (chain_next hrun.1).1 h
    obtain ⟨rest', hrest⟩ := ih hc hrun.2
    exact ⟨rest', by rw [hrest, List.cons_append]⟩

theorem Chain.prepend {a x : α} {rest mid : List α} (h : Chain next x (x :: rest))
    (hrun : (a :: (mid ++ [x])).IsChain fun y z => next y = some z) :
    Chain next a (a :: (mid ++ x :: rest)) := by
  induction mid generalizing a with
  | nil =>
    rw [List.nil_append, List.isChain_pair] at hrun
    exact .step hrun h
  | cons b mid ih =>
    rw [List.cons_append, List.isChain_cons_cons] at hrun
    exact .step hrun.1 (ih hrun.2)

end FilamentCore.Library.Following
