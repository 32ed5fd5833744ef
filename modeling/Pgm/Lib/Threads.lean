import Mathlib.Data.List.Nodup
import Mathlib.Data.List.Range
import Mathlib.Logic.Function.Basic
import Mathlib.Tactic.Common

/-! A numbered family of threads, of which only the first `W` run: how many of them are at
a place of a given kind, and how the number changes when one thread moves. -/

namespace Threads

variable {π : Type} {W i : Nat} {f : Nat → π}

/-- How many of the first `W` threads are at a place with the property `p`. -/
def count (W : Nat) (p : π → Bool) (f : Nat → π) : Nat :=
  (List.range W).countP (fun i => p (f i))

theorem count_le (W : Nat) (p : π → Bool) (f : Nat → π) : count W p f ≤ W := by
  have hle := List.countP_le_length (p := fun i => p (f i)) (l := List.range W)
  rwa [List.length_range] at hle

/-- Threads of one list, one of which moves to `q`. -/
theorem countP_update {l : List Nat} (hnd : l.Nodup) (hi : i ∈ l) (p : π → Bool) (q : π) :
    l.countP (fun j => p (Function.update f i q j)) + (if p (f i) then 1 else 0) =
      l.countP (fun j => p (f j)) + (if p q then 1 else 0) := by
  induction l with
  | nil => cases hi
  | cons z l ih =>
    obtain ⟨hz, hnd⟩ := List.nodup_cons.mp hnd
    rw [List.countP_cons, List.countP_cons]
    by_cases hzi : z = i
    · subst hzi
      have hrest : l.countP (fun j => p (Function.update f z q j)) =
          l.countP (fun j => p (f j)) := by
        refine List.countP_congr (fun j hj => ?_)
        have hne : j ≠ z := fun h => hz (h ▸ hj)
        rw [Function.update_of_ne hne]
      rw [hrest, Function.update_self]
      omega
    · have hil : i ∈ l := (List.mem_cons.mp hi).resolve_left (fun h => hzi h.symm)
      have ih' := ih hnd hil
      rw [Function.update_of_ne hzi]
      omega

/-- One thread moves. -/
theorem count_update (hi : i < W) (p : π → Bool) (q : π) :
    count W p (Function.update f i q) + (if p (f i) then 1 else 0) =
      count W p f + (if p q then 1 else 0) :=
  countP_update List.nodup_range (List.mem_range.mpr hi) p q

/-- One thread moves without changing its kind. -/
theorem count_update_same (hi : i < W) {p : π → Bool} {q : π} (h : p q = p (f i)) :
    count W p (Function.update f i q) = count W p f := by
  have hcount := count_update hi p q (f := f)
  rw [h] at hcount
  omega

theorem count_pos (hi : i < W) {p : π → Bool} (h : p (f i) = true) : 0 < count W p f :=
  List.countP_pos_iff.mpr ⟨i, List.mem_range.mpr hi, h⟩

theorem count_const {p : π → Bool} {q : π} (h : p q = false) : count W p (fun _ => q) = 0 :=
  List.countP_eq_zero.mpr (fun _ _ => by simp [h])

end Threads
