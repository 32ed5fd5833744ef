import Mathlib.Data.List.Nodup
import Mathlib.Tactic.Common

/-! A loop over a list by an index: what lies before the index, what lies from it
on, and what one round moves from there to here. -/

namespace Scan

variable {α : Type} {l : List α} {i : Nat} {x y : α}

theorem countP_take_succ (h : l[i]? = some x) (p : α → Bool) :
    (l.take (i + 1)).countP p = (l.take i).countP p + if p x then 1 else 0 := by
  rw [List.take_add_one, h, List.countP_append]
  simp [List.countP_cons]

theorem take_of_end (h : l[i]? = none) : l.take i = l :=
  List.take_of_length_le (List.getElem?_eq_none_iff.mp h)

theorem drop_of_end (h : l[i]? = none) : l.drop i = [] :=
  List.drop_of_length_le (List.getElem?_eq_none_iff.mp h)

theorem drop_eq_cons (h : l[i]? = some x) : l.drop i = x :: l.drop (i + 1) := by
  obtain ⟨hlt, hget⟩ := List.getElem?_eq_some_iff.mp h
  rw [List.drop_eq_getElem_cons hlt, hget]

/-- The element in hand is not met again. -/
theorem not_mem_drop_succ (hnd : l.Nodup) (h : l[i]? = some x) : x ∉ l.drop (i + 1) := by
  have hsub := hnd.sublist (List.drop_sublist i l)
  rw [drop_eq_cons h] at hsub
  exact (List.nodup_cons.mp hsub).1

theorem mem_drop_of_succ (h : y ∈ l.drop (i + 1)) : y ∈ l.drop i := by
  rw [← List.drop_drop] at h
  exact List.mem_of_mem_drop h

theorem mem_drop_iff (h : l[i]? = some x) : y ∈ l.drop i ↔ y = x ∨ y ∈ l.drop (i + 1) := by
  rw [drop_eq_cons h, List.mem_cons]

theorem mem_take_succ (h : l[i]? = some x) : y ∈ l.take (i + 1) ↔ y ∈ l.take i ∨ y = x := by
  simp [List.take_add_one, h]

theorem not_mem_take (hnd : l.Nodup) (h : l[i]? = some x) : x ∉ l.take i := by
  intro htake
  have hdrop : x ∈ l.drop i := by
    rw [drop_eq_cons h]
    exact List.mem_cons_self
  exact List.disjoint_take_drop hnd (Nat.le_refl i) htake hdrop

theorem mem_drop_of_le {j : Nat} (h : l[j]? = some x) (hij : i ≤ j) : x ∈ l.drop i :=
  List.mem_iff_getElem?.mpr
    ⟨j - i, by rw [List.getElem?_drop, Nat.add_sub_cancel' hij]; exact h⟩

theorem countP_insert {p q : α → Bool} (hnd : l.Nodup) (hx : x ∈ l) (hp : p x = false)
    (hq : q x = true) (h : ∀ y ∈ l, y ≠ x → q y = p y) : l.countP q = l.countP p + 1 := by
  induction l with
  | nil => cases hx
  | cons z l ih =>
    obtain ⟨hz, hnd⟩ := List.nodup_cons.mp hnd
    by_cases hzx : z = x
    · subst hzx
      have hrest : l.countP q = l.countP p :=
        List.countP_congr (fun y hy => by
          rw [h y (List.mem_cons_of_mem z hy) (fun hyz => hz (hyz ▸ hy))])
      rw [List.countP_cons_of_pos hq, List.countP_cons_of_neg (by simp [hp]), hrest]
    · have hx' : x ∈ l := (List.mem_cons.mp hx).resolve_left (fun hxz => hzx hxz.symm)
      have ih' := ih hnd hx' (fun y hy => h y (List.mem_cons_of_mem z hy))
      rw [List.countP_cons, List.countP_cons, ih', h z List.mem_cons_self hzx]
      omega

/-- If as many have the stronger property as have the weaker one, all of those have it. -/
theorem forall_of_countP_eq {p q : α → Bool} (himp : ∀ y ∈ l, p y = true → q y = true)
    (heq : l.countP p = l.countP q) : ∀ y ∈ l, q y = true → p y = true := by
  induction l with
  | nil => exact fun y hy => by cases hy
  | cons z l ih =>
    have himp' : ∀ y ∈ l, p y = true → q y = true :=
      fun y hy => himp y (List.mem_cons_of_mem z hy)
    have hle : l.countP p ≤ l.countP q := List.countP_mono_left himp'
    have hz := himp z List.mem_cons_self
    rw [List.countP_cons, List.countP_cons] at heq
    intro y hy hq
    rcases List.mem_cons.mp hy with rfl | hy
    · by_contra hp
      rw [if_neg hp, if_pos hq] at heq
      omega
    · refine ih himp' ?_ y hy hq
      cases hpz : p z
      · cases hqz : q z
        · simpa [hpz, hqz] using heq
        · simp only [hpz, hqz, Bool.false_eq_true, if_false, if_true] at heq
          omega
      · simpa [hpz, hz hpz] using heq

theorem countP_lt {p q : α → Bool} (himp : ∀ y ∈ l, p y = true → q y = true) (hx : x ∈ l)
    (hp : p x = false) (hq : q x = true) : l.countP p < l.countP q := by
  rcases Nat.lt_or_eq_of_le (List.countP_mono_left himp) with hlt | heq
  · exact hlt
  · have hpx := forall_of_countP_eq himp heq x hx hq
    rw [hp] at hpx
    cases hpx

end Scan
