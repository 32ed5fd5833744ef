import Mathlib.Order.Monotone.Basic
import Mathlib.Order.WellFounded
import Mathlib.Tactic.Common

/-! Counting nets. A transition asks, to fire for the time `k`, that each of its places has received
`need k` units in all; a place into which its producer has put `σ` times has received `has σ`. Both
grow, so a firing that is possible stays possible until it happens.

* `lt_of_dead`: a firing that is possible has happened in every run that went on until nothing was
  possible any more;
* `lt_iff_serves`: the firings of such a run are those that its places served;
* `exists_dead`: without a cycle there are such firings for any number of puts by the sources. -/

/-- Transitions `ν` and places `ι`. A source fires when it likes. -/
structure Net (ν ι : Type) where
  source : ν → Prop
  inputs : ν → ι → Prop
  producer : ι → ν
  need : ι → Nat → Nat
  has : ι → Nat → Nat
  need_mono : ∀ e, Monotone (need e)
  has_mono : ∀ e, Monotone (has e)

namespace Net

variable {ν ι : Type} {N : Net ν ι} {σ τ : ι → Nat} {y : ν → Nat} {n : ν} {j k : Nat}

/-- After the puts `σ` the places let `n` fire for the time `k`. -/
def Serves (N : Net ν ι) (σ : ι → Nat) (n : ν) (k : Nat) : Prop :=
  ∀ e, N.inputs n e → N.need e k ≤ N.has e (σ e)

/-- After the firings `y` and the puts `τ` no transition but a source can fire. -/
def Dead (N : Net ν ι) (y : ν → Nat) (τ : ι → Nat) : Prop :=
  ∀ n, ¬ N.source n → ¬ N.Serves τ n (y n)

theorem Serves.mono (h : N.Serves σ n k) (hle : ∀ e, N.inputs n e → σ e ≤ τ e) :
    N.Serves τ n k := by
  intro e he
  exact (h e he).trans (N.has_mono e (hle e he))

theorem Serves.of_le (h : N.Serves σ n k) (hle : j ≤ k) : N.Serves σ n j := by
  intro e he
  exact (N.need_mono e hle).trans (h e he)

/-- **One firing.** -/
theorem lt_of_dead (hdead : N.Dead y τ) (hn : ¬ N.source n) (hτ : ∀ e, N.inputs n e → σ e ≤ τ e)
    (hle : k ≤ y n) (h : N.Serves σ n k) : k < y n := by
  apply lt_of_le_of_ne hle
  rintro rfl
  exact hdead n hn (h.mono hτ)

/-- **The law of the firings.** -/
theorem lt_iff_serves (hdead : N.Dead y τ) (hn : ¬ N.source n)
    (hpast : ∀ k < y n, N.Serves τ n k) : k < y n ↔ N.Serves τ n k := by
  constructor
  · exact hpast k
  · intro h
    by_contra hge
    exact hdead n hn (h.of_le (Nat.le_of_not_lt hge))

/-- Let each transition but the sources have a place that is fed by an earlier transition and asks
for more and more. Then there are firings after which the net is dead, for any puts `J` of the
sources, and each of the others puts as often as it fires. -/
theorem exists_dead {r : ν → ν → Prop} (hwf : WellFounded r) (J : ι → Nat)
    (hin : ∀ n, ¬ N.source n → ∃ e, N.inputs n e ∧ r (N.producer e) n ∧ ∀ b, ∃ k, b < N.need e k) :
    ∃ (y : ν → Nat) (τ : ι → Nat), N.Dead y τ ∧ ∀ e,
      (N.source (N.producer e) → τ e = J e) ∧ (¬ N.source (N.producer e) → τ e = y (N.producer e)) := by
  classical
  choose f hf hr hunb using hin
  choose K hK using hunb
  -- the firings of `n` are those that one of its places stops at
  let body : (n : ν) → ((m : ν) → r m n → Nat) → Nat := fun n rec =>
    if hn : N.source n then 0
    else K n hn (N.has (f n hn)
      (if N.source (N.producer (f n hn)) then J (f n hn) else rec (N.producer (f n hn)) (hr n hn)))
  let y : ν → Nat := hwf.fix body
  let τ : ι → Nat := fun e => if N.source (N.producer e) then J e else y (N.producer e)
  have hy : ∀ n, (hn : ¬ N.source n) → y n = K n hn (N.has (f n hn) (τ (f n hn))) := by
    intro n hn
    have hfix : y n = body n (fun m _ => y m) := hwf.fix_eq body n
    rw [hfix]
    exact dif_neg hn
  refine ⟨y, τ, ?_, fun e => ⟨fun h => if_pos h, fun h => if_neg h⟩⟩
  intro n hn hserves
  have hlt := hK n hn (N.has (f n hn) (τ (f n hn)))
  rw [← hy n hn] at hlt
  exact absurd (hserves (f n hn) (hf n hn)) (Nat.not_le_of_lt hlt)

end Net
