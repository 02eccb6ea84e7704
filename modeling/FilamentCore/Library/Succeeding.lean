import Mathlib

/-!
# Computations that succeed

What the success of a sequence of steps that may fail says of each of them.
-/

namespace FilamentCore.Library.Succeeding

variable {ε α β : Type}

theorem bind_ok {x : Except ε α} {f : α → Except ε β} {b : β} :
    (x >>= f) = .ok b ↔ ∃ a, x = .ok a ∧ f a = .ok b := by
  cases x with
  | error e => simp [bind, Except.bind]
  | ok a => simp [bind, Except.bind]

theorem pure_ok {a b : α} : (pure a : Except ε α) = .ok b ↔ a = b := by
  simp [pure, Except.pure]

theorem mapM_cons_ok {f : α → Except ε β} {a : α} {as : List α} {bs : List β} :
    (a :: as).mapM f = .ok bs ↔
      ∃ b bs', f a = .ok b ∧ as.mapM f = .ok bs' ∧ bs = b :: bs' := by
  rw [List.mapM_cons, bind_ok]
  constructor
  · rintro ⟨b, hb, h⟩
    rw [bind_ok] at h
    obtain ⟨bs', hbs, h⟩ := h
    exact ⟨b, bs', hb, hbs, (pure_ok.1 h).symm⟩
  · rintro ⟨b, bs', hb, hbs, rfl⟩
    exact ⟨b, hb, bind_ok.2 ⟨bs', hbs, rfl⟩⟩

theorem mem_of_mapM_ok {f : α → Except ε β} {as : List α} {bs : List β}
    (h : as.mapM f = .ok bs) {a : α} (ha : a ∈ as) : ∃ b ∈ bs, f a = .ok b := by
  induction as generalizing bs with
  | nil => cases ha
  | cons x xs ih =>
    obtain ⟨b, bs', hb, hbs, rfl⟩ := mapM_cons_ok.1 h
    rcases List.mem_cons.1 ha with rfl | hx
    · exact ⟨b, List.mem_cons_self, hb⟩
    · obtain ⟨c, hc, hf⟩ := ih hbs hx
      exact ⟨c, List.mem_cons_of_mem _ hc, hf⟩

theorem exists_of_mapM_ok {f : α → Except ε β} {as : List α} {bs : List β}
    (h : as.mapM f = .ok bs) {b : β} (hb : b ∈ bs) : ∃ a ∈ as, f a = .ok b := by
  induction as generalizing bs with
  | nil =>
    obtain rfl := pure_ok.1 h
    simp at hb
  | cons x xs ih =>
    obtain ⟨c, bs', hc, hbs, rfl⟩ := mapM_cons_ok.1 h
    rcases List.mem_cons.1 hb with rfl | hb
    · exact ⟨x, List.mem_cons_self, hc⟩
    · obtain ⟨a, ha, hf⟩ := ih hbs hb
      exact ⟨a, List.mem_cons_of_mem _ ha, hf⟩

theorem exists_mapM_ok {f : α → Except ε β} {as : List α} (h : ∀ a ∈ as, ∃ b, f a = .ok b) :
    ∃ bs, as.mapM f = .ok bs := by
  induction as with
  | nil => exact ⟨[], rfl⟩
  | cons a as ih =>
    obtain ⟨b, hb⟩ := h a (List.mem_cons_self ..)
    obtain ⟨bs, hbs⟩ := ih fun x hx => h x (List.mem_cons_of_mem _ hx)
    exact ⟨b :: bs, mapM_cons_ok.2 ⟨b, bs, hb, hbs, rfl⟩⟩

theorem forM_ok {f : α → Except ε Unit} {as : List α} {u : Unit} (h : as.forM f = .ok u) :
    ∀ a ∈ as, f a = .ok () := by
  induction as with
  | nil => simp
  | cons x xs ih =>
    have hb : (f x >>= fun _ => xs.forM f) = .ok u := h
    obtain ⟨_, hx, hxs⟩ := bind_ok.1 hb
    intro a ha
    rcases List.mem_cons.1 ha with rfl | hm
    · exact hx
    · exact ih hxs a hm

/-- A traversal that adds one result for each item, from which the item can be told, gives the
items again. -/
theorem foldlM_encoded {γ : Type} {step : List β → α → Except ε (List β)} {shown : α → γ}
    {encode : β → γ}
    (hstep : ∀ out a out', step out a = .ok out' → ∃ b, out' = out ++ [b] ∧ shown a = encode b)
    {as : List α} {out out' : List β} (h : as.foldlM step out = .ok out') :
    ∃ bs, out' = out ++ bs ∧ as.map shown = bs.map encode := by
  induction as generalizing out with
  | nil =>
    rw [List.foldlM_nil, pure_ok] at h
    exact ⟨[], by rw [h, List.append_nil], rfl⟩
  | cons a as ih =>
    rw [List.foldlM_cons, bind_ok] at h
    obtain ⟨mid, hmid, h⟩ := h
    obtain ⟨b, rfl, hb⟩ := hstep out a mid hmid
    obtain ⟨bs, rfl, hbs⟩ := ih h
    exact ⟨b :: bs, by rw [List.append_assoc]; rfl, by rw [List.map_cons, List.map_cons, hb, hbs]⟩

end FilamentCore.Library.Succeeding
