import Mathlib.Data.List.Basic
import Mathlib.Logic.Function.Basic

/-!
# Files replaced through temporary files

Each new content is placed at a temporary location, and the temporaries are then moved over the
final locations in order. What a location holds at the end depends on which of these locations
coincide: no later temporary may stand where an earlier one is moved to.
-/

namespace FilamentCore.Library.Replace

variable {ι β : Type*} [DecidableEq ι]

/-- A content on its way: where it is placed first, and where it is moved to. -/
structure Entry (ι β : Type*) where
  temp : ι
  final : ι
  content : β

def place (files : ι → Option β) (l : ι) (b : β) : ι → Option β := Function.update files l (some b)

def move (files : ι → Option β) (a b : ι) : ι → Option β :=
  Function.update (Function.update files a none) b (files a)

def placed (files : ι → Option β) (es : List (Entry ι β)) : ι → Option β :=
  es.foldl (fun files e => place files e.temp e.content) files

def moved (files : ι → Option β) (es : List (Entry ι β)) : ι → Option β :=
  es.foldl (fun files e => move files e.temp e.final) files

/-- An entry does not stand in the way of a later one. -/
structure Apart (e e' : Entry ι β) : Prop where
  temps : e.temp ≠ e'.temp
  finals : e.final ≠ e'.final
  crossed : e'.temp ≠ e.final

variable {files : ι → Option β} {es : List (Entry ι β)} {e : Entry ι β} {l a b : ι}

theorem move_other (ha : l ≠ a) (hb : l ≠ b) : move files a b l = files l := by
  rw [move, Function.update_of_ne hb, Function.update_of_ne ha]

theorem move_final : move files a b b = files a := Function.update_self ..

theorem move_temp (h : a ≠ b) : move files a b a = none := by
  rw [move, Function.update_of_ne h, Function.update_self]

theorem placed_cons : placed files (e :: es) = placed (place files e.temp e.content) es := rfl

theorem moved_cons : moved files (e :: es) = moved (move files e.temp e.final) es := rfl

theorem placed_other (h : ∀ e ∈ es, e.temp ≠ l) : placed files es l = files l := by
  induction es generalizing files with
  | nil => rfl
  | cons e es ih =>
    rw [placed_cons, ih fun e' he => h e' (List.mem_cons_of_mem _ he)]
    exact Function.update_of_ne (h e List.mem_cons_self).symm _ _

theorem placed_temp (h : es.Pairwise Apart) (he : e ∈ es) :
    placed files es e.temp = some e.content := by
  induction es generalizing files with
  | nil => cases he
  | cons first es ih =>
    obtain ⟨hfirst, hrest⟩ := List.pairwise_cons.1 h
    rw [placed_cons]
    obtain rfl | he := List.mem_cons.1 he
    · rw [placed_other fun e' he' => (hfirst e' he').temps.symm]
      exact Function.update_self ..
    · exact ih hrest he

theorem moved_other (h : ∀ e ∈ es, e.temp ≠ l ∧ e.final ≠ l) : moved files es l = files l := by
  induction es generalizing files with
  | nil => rfl
  | cons e es ih =>
    obtain ⟨ht, hf⟩ := h e List.mem_cons_self
    rw [moved_cons, ih fun e' he => h e' (List.mem_cons_of_mem _ he), move_other ht.symm hf.symm]

theorem moved_final (h : es.Pairwise Apart) (hfiles : ∀ e ∈ es, files e.temp = some e.content)
    (he : e ∈ es) : moved files es e.final = some e.content := by
  induction es generalizing files with
  | nil => cases he
  | cons first es ih =>
    obtain ⟨hfirst, hrest⟩ := List.pairwise_cons.1 h
    rw [moved_cons]
    obtain rfl | he := List.mem_cons.1 he
    · rw [moved_other fun e' he' => ⟨(hfirst e' he').crossed, (hfirst e' he').finals.symm⟩,
        move_final, hfiles e List.mem_cons_self]
    · refine ih hrest (fun e' he' => ?_) he
      rw [move_other (hfirst e' he').temps.symm (hfirst e' he').crossed]
      exact hfiles e' (List.mem_cons_of_mem _ he')

theorem moved_temp (h : es.Pairwise Apart) (he : e ∈ es) (hfinal : ∀ e' ∈ es, e'.final ≠ e.temp) :
    moved files es e.temp = none := by
  induction es generalizing files with
  | nil => cases he
  | cons first es ih =>
    obtain ⟨hfirst, hrest⟩ := List.pairwise_cons.1 h
    rw [moved_cons]
    obtain rfl | he := List.mem_cons.1 he
    · rw [moved_other fun e' he' => ⟨(hfirst e' he').temps.symm,
        hfinal e' (List.mem_cons_of_mem _ he')⟩]
      exact move_temp (hfinal e List.mem_cons_self).symm
    · exact ih hrest he fun e' he' => hfinal e' (List.mem_cons_of_mem _ he')

end FilamentCore.Library.Replace
