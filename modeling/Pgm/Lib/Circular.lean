import Mathlib.Data.List.Basic
import Mathlib.Tactic.Common

/-! Circular arrays and the bounded FIFO queue they implement. Elements are
numbered from the first one ever stored; element `i` lives in cell `i % N`, so
a window of at most `N` consecutive numbers uses pairwise different cells. -/

namespace Circular

/-- Numbers of one window of length `N` share no cell. -/
theorem eq_of_mod_eq {N i j : Nat} (h : i ≤ j) (hj : j < i + N) (hm : i % N = j % N) :
    i = j := by
  have hd : (j - i) % N = 0 := Nat.sub_mod_eq_zero_of_mod_eq hm.symm
  rw [Nat.mod_eq_of_lt (by omega)] at hd
  omega

/-- Cell `j` is used by the window `[f, y)`. -/
def Occupied (N f y j : Nat) : Prop := ∃ i, f ≤ i ∧ i < y ∧ i % N = j

theorem not_occupied_empty (N f j : Nat) : ¬ Occupied N f f j := by
  rintro ⟨i, hf, hy, _⟩
  omega

theorem occupied_push {N f y j : Nat} (h : f ≤ y) :
    Occupied N f (y + 1) j ↔ Occupied N f y j ∨ j = y % N := by
  constructor
  · rintro ⟨i, hf, hy, hj⟩
    rcases Nat.lt_succ_iff_lt_or_eq.mp hy with hlt | rfl
    · exact Or.inl ⟨i, hf, hlt, hj⟩
    · exact Or.inr hj.symm
  · rintro (⟨i, hf, hy, hj⟩ | rfl)
    · exact ⟨i, hf, by omega, hj⟩
    · exact ⟨y, h, by omega, rfl⟩

theorem occupied_pop {N f y j : Nat} (hN : y ≤ f + N) :
    Occupied N (f + 1) y j ↔ Occupied N f y j ∧ j ≠ f % N := by
  constructor
  · rintro ⟨i, hf, hy, rfl⟩
    refine ⟨⟨i, by omega, hy, rfl⟩, fun he => ?_⟩
    have := eq_of_mod_eq (N := N) (show f ≤ i by omega) (by omega) he.symm
    omega
  · rintro ⟨⟨i, hf, hy, rfl⟩, hne⟩
    have : i ≠ f := fun he => hne (by rw [he])
    exact ⟨i, by omega, hy, rfl⟩

/-- The next cell of a window that is not full is not in use. -/
theorem not_occupied_next {N f y : Nat} (hN : y < f + N) : ¬ Occupied N f y (y % N) := by
  rintro ⟨i, hf, hy, hj⟩
  have := eq_of_mod_eq (N := N) (show i ≤ y by omega) (by omega) hj
  omega

theorem cell_eq_of_offset_eq {sz i j a b : Nat} (ha : a < sz) (hb : b < sz)
    (h : i * sz + a = j * sz + b) : i = j := by
  have hpos : 0 < sz := by omega
  have hi : (i * sz + a) / sz = i := by
    rw [Nat.mul_comm, Nat.mul_add_div hpos, Nat.div_eq_of_lt ha, Nat.add_zero]
  have hj : (j * sz + b) / sz = j := by
    rw [Nat.mul_comm, Nat.mul_add_div hpos, Nat.div_eq_of_lt hb, Nat.add_zero]
  rw [← hi, ← hj, h]

end Circular

namespace Fifo

variable {α : Type}

/-- The two operations of a queue, with the value they move. -/
inductive Op (α : Type) where
  | push (v : α)
  | pop (v : α)

/-- The bounded queue: `push` needs a free place, `pop` yields the oldest
value. The result is the content after the operations, `none` when one of them
is not possible. -/
def exec [DecidableEq α] (cap : Nat) : List α → List (Op α) → Option (List α)
  | q, [] => some q
  | q, .push v :: ops => if q.length < cap then exec cap (q ++ [v]) ops else none
  | [], .pop _ :: _ => none
  | x :: q, .pop v :: ops => if x = v then exec cap q ops else none

def pushes : List (Op α) → List α
  | [] => []
  | .push v :: ops => v :: pushes ops
  | .pop _ :: ops => pushes ops

def pops : List (Op α) → List α
  | [] => []
  | .push _ :: ops => pops ops
  | .pop v :: ops => v :: pops ops

@[simp] theorem pushes_append (xs ys : List (Op α)) :
    pushes (xs ++ ys) = pushes xs ++ pushes ys := by
  induction xs with
  | nil => rfl
  | cons x xs ih => cases x <;> simp [pushes, ih]

@[simp] theorem pops_append (xs ys : List (Op α)) : pops (xs ++ ys) = pops xs ++ pops ys := by
  induction xs with
  | nil => rfl
  | cons x xs ih => cases x <;> simp [pops, ih]

section Exec
variable [DecidableEq α]

theorem exec_append {cap : Nat} {q r : List α} {xs ys : List (Op α)}
    (h : exec cap q xs = some r) : exec cap q (xs ++ ys) = exec cap r ys := by
  induction xs generalizing q with
  | nil => simp only [exec, Option.some.injEq] at h; subst h; rfl
  | cons x xs ih =>
    cases x with
    | push v =>
      simp only [List.cons_append, exec] at h ⊢
      split at h
      · rename_i hl; rw [if_pos hl]; exact ih h
      · cases h
    | pop v =>
      cases q with
      | nil => cases h
      | cons y q =>
        simp only [List.cons_append, exec] at h ⊢
        split at h
        · rename_i hy; rw [if_pos hy]; exact ih h
        · cases h

/-- Nothing is lost, duplicated or reordered: what went in is what came out
followed by what is still inside. -/
theorem pushes_eq {cap : Nat} {q r : List α} {ops : List (Op α)}
    (h : exec cap q ops = some r) : q ++ pushes ops = pops ops ++ r := by
  induction ops generalizing q with
  | nil => simp only [exec, Option.some.injEq] at h; subst h; simp [pushes, pops]
  | cons x ops ih =>
    cases x with
    | push v =>
      simp only [exec] at h
      split at h
      · simpa [pushes, pops] using ih h
      · cases h
    | pop v =>
      cases q with
      | nil => cases h
      | cons y q =>
        simp only [exec] at h
        split at h
        · rename_i hy; subst hy; simpa [pushes, pops] using ih h
        · cases h

/-- A push on a queue that holds what is left of `ps` after `n` pops. -/
theorem exec_push {cap n : Nat} {ops : List (Op α)} {ps : List α} (v : α)
    (h : exec cap [] ops = some (ps.drop n)) (hn : n ≤ ps.length) (hroom : ps.length < n + cap) :
    exec cap [] (ops ++ [.push v]) = some ((ps ++ [v]).drop n) := by
  rw [exec_append h, exec, if_pos (by rw [List.length_drop]; omega), exec,
    List.drop_append_of_le_length hn]

theorem exec_pop {cap n : Nat} {ops : List (Op α)} {ps : List α} {v : α}
    (h : exec cap [] ops = some (ps.drop n)) (hv : ps[n]? = some v) :
    exec cap [] (ops ++ [.pop v]) = some (ps.drop (n + 1)) := by
  obtain ⟨hlt, he⟩ := List.getElem?_eq_some_iff.mp hv
  rw [exec_append h, List.drop_eq_getElem_cons hlt, exec, if_pos he, exec]

end Exec

end Fifo
