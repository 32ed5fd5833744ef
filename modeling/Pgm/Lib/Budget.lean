import Mathlib.Algebra.GroupWithZero.Nat
import Mathlib.Algebra.BigOperators.Group.Finset.Piecewise
import Mathlib.Algebra.Order.BigOperators.Group.Finset
import Pgm.Lib.Lts

/-! Paying for the steps of a run. Each actor has a budget, a step costs its actor, an actor may hand
part of its budget to another one, and some actions bring credit of their own. A run is then no
longer than the first budgets and the credits together. -/

namespace Budget

/-- Actor `t` pays `x` and hands `z` to actor `c`, with a credit of `y`. -/
theorem sum_step {N t c x y z : Nat} {f f' : Nat → Nat} (ht : t < N)
    (hone : f' t + x + z ≤ f t + y) (hother : ∀ n, n ≠ t → f' n ≤ f n + if n = c then z else 0) :
    ∑ n ∈ Finset.range N, f' n + x ≤ ∑ n ∈ Finset.range N, f n + y := by
  have hmem : t ∈ Finset.range N := Finset.mem_range.mpr ht
  have hrest : ∑ n ∈ (Finset.range N).erase t, f' n ≤
      ∑ n ∈ (Finset.range N).erase t, f n + z := by
    calc ∑ n ∈ (Finset.range N).erase t, f' n
      _ ≤ ∑ n ∈ (Finset.range N).erase t, (f n + if n = c then z else 0) :=
          Finset.sum_le_sum (fun n hn => hother n (Finset.ne_of_mem_erase hn))
      _ = ∑ n ∈ (Finset.range N).erase t, f n +
          ∑ n ∈ (Finset.range N).erase t, (if n = c then z else 0) := Finset.sum_add_distrib
      _ ≤ ∑ n ∈ (Finset.range N).erase t, f n + z := by
          apply Nat.add_le_add_left
          rw [Finset.sum_ite_eq']
          split_ifs
          · exact Nat.le_refl z
          · exact Nat.zero_le z
  have hf := Finset.add_sum_erase (Finset.range N) f hmem
  have hf' := Finset.add_sum_erase (Finset.range N) f' hmem
  omega

variable {σ α : Type} {step : σ → α → Option σ}

/-- **The bound of a run.** The invariant may speak of the actions that are still to come. -/
theorem run_length {P : σ → α → Prop} {I : σ → List α → Prop} {m : σ → Nat} {credit : α → Nat}
    (hs : ∀ s a as t, I s (a :: as) → P s a → step s a = some t →
      I t as ∧ m t + 1 ≤ m s + credit a) {s t : σ} {as : List α} (hi : I s as)
    (hr : Lts.run step s as = some t) (hm : Lts.Meets step P s as) :
    m t + as.length ≤ m s + (as.map credit).sum := by
  induction as generalizing s with
  | nil =>
    simp only [Lts.run_nil, Option.some.injEq] at hr
    subst hr
    exact Nat.le_refl _
  | cons a as ih =>
    obtain ⟨u, hu, ht⟩ := (Lts.run_cons_eq_some step).mp hr
    obtain ⟨hI, hstep⟩ := hs s a as u hi hm.1 hu
    have hrest := ih hI ht (hm.2 u hu)
    simp only [List.length_cons, List.map_cons, List.sum_cons]
    omega

end Budget
