import Mathlib

/-!
# Memos

What was found so far, by key: the newest entry of a key counts. What every entry is known to
satisfy is kept by the entries added.
-/

namespace FilamentCore.Library

variable {κ β : Type*} [DecidableEq κ]

/-- What was found so far, by key. -/
abbrev Memo (κ β : Type*) := List (κ × β)

namespace Memo

def get (memo : Memo κ β) (key : κ) : Option β :=
  (memo.find? fun entry => entry.1 == key).map Prod.snd

theorem get_cons (name key : κ) (value : β) (memo : Memo κ β) :
    get ((name, value) :: memo) key = if name = key then some value else memo.get key := by
  unfold get
  by_cases h : name = key <;> simp [h]

theorem mem_of_get {memo : Memo κ β} {key : κ} {value : β} (h : memo.get key = some value) :
    (key, value) ∈ memo := by
  obtain ⟨⟨name, found⟩, hfind, hvalue⟩ := Option.map_eq_some_iff.1 h
  have hname : name = key := by simpa using List.find?_some hfind
  rw [← hname, ← hvalue]
  exact List.mem_of_find?_eq_some hfind

theorem get_isSome {memo : Memo κ β} {key : κ} (h : key ∈ memo.map Prod.fst) :
    (memo.get key).isSome := by
  obtain ⟨entry, hentry, hkey⟩ := List.mem_map.1 h
  rw [get, Option.isSome_map, List.find?_isSome]
  exact ⟨entry, hentry, by simpa using hkey⟩

theorem get_append {entries memo : Memo κ β} {key : κ} (h : key ∈ entries.map Prod.fst) :
    get (entries ++ memo) key = get entries key := by
  induction entries with
  | nil => cases h
  | cons entry entries ih =>
    obtain ⟨name, value⟩ := entry
    rw [List.cons_append, get_cons, get_cons]
    split
    · rfl
    · rename_i hne
      rw [List.map_cons, List.mem_cons] at h
      exact ih (h.resolve_left (Ne.symm hne))

/-- Every entry found satisfies a property of keys and values. -/
def Holds (P : κ → β → Prop) (memo : Memo κ β) : Prop :=
  ∀ key value, memo.get key = some value → P key value

variable {P : κ → β → Prop} {memo : Memo κ β}

theorem Holds.nil : Holds P ([] : Memo κ β) := by
  intro key value h
  cases h

theorem Holds.cons {name : κ} {value : β} (h : memo.Holds P) (hentry : P name value) :
    Holds P ((name, value) :: memo) := by
  intro key found hget
  rw [get_cons] at hget
  split at hget
  · rename_i hname
    rw [← Option.some.inj hget, ← hname]
    exact hentry
  · exact h key found hget

theorem Holds.append {entries : Memo κ β} (h : memo.Holds P)
    (hentries : ∀ entry ∈ entries, P entry.1 entry.2) : Holds P (entries ++ memo) := by
  induction entries with
  | nil => exact h
  | cons entry entries ih =>
    obtain ⟨hentry, hentries⟩ := List.forall_mem_cons.1 hentries
    exact (ih hentries).cons hentry

theorem Holds.foldl {γ : Type*} {queries : List γ} {ask : Memo κ β → γ → Memo κ β}
    (hask : ∀ memo query, Holds P memo → Holds P (ask memo query)) (h : memo.Holds P) :
    (queries.foldl ask memo).Holds P := by
  induction queries generalizing memo with
  | nil => exact h
  | cons query queries ih => exact ih (hask memo query h)

end Memo
end FilamentCore.Library
