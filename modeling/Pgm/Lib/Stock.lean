import Mathlib.Data.Nat.ModEq
import Pgm.Lib.Word

/-! A queue of batches and a counter of their units, kept by two parties in two steps each. The
producer puts a batch into the queue and then adds its units to the counter; the consumer takes a
batch and then subtracts its units. The counter is a machine word, so it may wrap. -/

/-- The counter, the batches in the queue, those that are put and not counted, and those that are
taken and not paid for. -/
@[ext] structure Stock where
  units : Nat
  queued : Nat
  uncounted : Nat
  unpaid : Nat

namespace Stock

variable {w b : Nat} {v v' : Stock}

/-- The steps of the two parties, short of the consumer's payment. -/
inductive Flow (w b : Nat) (v v' : Stock) : Prop
  | keep (units : v'.units = v.units) (queued : v'.queued = v.queued)
      (uncounted : v'.uncounted = v.uncounted) (unpaid : v'.unpaid = v.unpaid)
  | put (units : v'.units = v.units) (queued : v'.queued = v.queued + 1)
      (uncounted : v'.uncounted = v.uncounted + 1) (unpaid : v'.unpaid = v.unpaid)
  | count (units : v'.units = Word.add w v.units b) (queued : v'.queued = v.queued)
      (uncounted : v.uncounted = v'.uncounted + 1) (unpaid : v'.unpaid = v.unpaid)
  | take (units : v'.units = v.units) (queued : v.queued = v'.queued + 1)
      (uncounted : v'.uncounted = v.uncounted) (unpaid : v'.unpaid = v.unpaid + 1)

structure Pays (w b : Nat) (v v' : Stock) : Prop where
  units : v'.units = Word.sub w v.units b
  queued : v'.queued = v.queued
  uncounted : v'.uncounted = v.uncounted
  unpaid : v.unpaid = v'.unpaid + 1

/-- The consumer stops, with units left that it will not pay for. -/
structure Lapses (v v' : Stock) : Prop where
  units : v'.units = v.units
  queued : v'.queued = v.queued
  uncounted : v'.uncounted = v.uncounted
  unpaid : v.unpaid ≤ v'.unpaid

/-- The counter is that of all batches put and counted, less those taken and paid for. -/
def Even (w b : Nat) (v : Stock) : Prop :=
  ∃ k, k + v.uncounted = v.queued + v.unpaid ∧ v.units = b * k % 2 ^ w

def Backed (v : Stock) : Prop := v.uncounted < v.queued + v.unpaid

instance (v : Stock) : Decidable v.Backed := inferInstanceAs (Decidable (_ < _))

/-- The counter is at most that of the batches there are. -/
def Covered (b : Nat) (v : Stock) : Prop :=
  v.units + b * v.uncounted ≤ b * (v.queued + v.unpaid)

theorem Even.covered (h : Even w b v) : Covered b v := by
  obtain ⟨k, hk, hu⟩ := h
  unfold Covered
  rw [hu, ← hk, Nat.mul_add]
  exact Nat.add_le_add_right (Nat.mod_le _ _) _

/-- A counter that is not zero has a batch behind it. -/
theorem Even.backed (h : Even w b v) (hu : v.units ≠ 0) : v.Backed := by
  obtain ⟨k, hk, hunits⟩ := h
  unfold Backed
  cases k with
  | zero => simp [hunits] at hu
  | succ k => omega

theorem Even.flow (h : Even w b v) (hf : Flow w b v v') : Even w b v' := by
  obtain ⟨k, hk, hu⟩ := h
  cases hf with
  | keep units queued uncounted unpaid | put units queued uncounted unpaid
  | take units queued uncounted unpaid => exact ⟨k, by omega, units.trans hu⟩
  | count units queued uncounted unpaid =>
    refine ⟨k + 1, by omega, ?_⟩
    rw [units, Word.add, hu, Nat.mul_succ]
    exact Nat.mod_add_mod _ _ _

theorem Covered.flow (h : Covered b v) (hf : Flow w b v v') : Covered b v' := by
  unfold Covered at h ⊢
  cases hf with
  | keep units queued uncounted unpaid =>
    rw [units, queued, uncounted, unpaid]
    exact h
  | put units queued uncounted unpaid =>
    rw [units, queued, uncounted, unpaid]
    simp only [Nat.mul_add, Nat.mul_one] at h ⊢
    omega
  | count units queued uncounted unpaid =>
    have hle := Nat.mod_le (v.units + b) (2 ^ w)
    rw [units, queued, unpaid, Word.add]
    simp only [uncounted, Nat.mul_add, Nat.mul_one] at h ⊢
    omega
  | take units queued uncounted unpaid =>
    rw [units, uncounted, unpaid]
    simp only [queued, Nat.mul_add, Nat.mul_one] at h ⊢
    omega

theorem Backed.flow (h : v.Backed) (hf : Flow w b v v') : v'.Backed := by
  unfold Backed at h ⊢
  cases hf <;> omega

/-- A payment for a batch that is there. -/
theorem Even.pay (h : Even w b v) (hb : v.Backed) (hpos : 0 < b) (hbw : b ≤ 2 ^ w)
    (hp : Pays w b v v') : Even w b v' := by
  obtain ⟨k, hk, hunits⟩ := h
  obtain ⟨units, queued, uncounted, unpaid⟩ := hp
  unfold Backed at hb
  obtain ⟨k, rfl⟩ : ∃ j, k = j + 1 := ⟨k - 1, by omega⟩
  refine ⟨k, by omega, units.trans ?_⟩
  have hlt : Word.sub w v.units b < 2 ^ w :=
    Word.sub_lt (hunits ▸ Nat.mod_lt _ (Nat.two_pow_pos w)) hpos
  have hsum : Word.sub w v.units b + b ≡ b * k + b [MOD 2 ^ w] := by
    have := Word.sub_add_mod (a := v.units) hbw 0
    rw [Nat.add_zero, Nat.add_zero, hunits, Nat.mod_mod, Nat.mul_succ] at this
    rw [hunits, Nat.mul_succ]
    exact this
  calc Word.sub w v.units b
    _ = Word.sub w v.units b % 2 ^ w := (Nat.mod_eq_of_lt hlt).symm
    _ = b * k % 2 ^ w := Nat.ModEq.add_right_cancel' b hsum

theorem Covered.lapse (h : Covered b v) (hl : Lapses v v') : Covered b v' := by
  unfold Covered at h ⊢
  rw [hl.units, hl.queued, hl.uncounted]
  exact h.trans (Nat.mul_le_mul_left b (Nat.add_le_add_left hl.unpaid _))

theorem Backed.lapse (h : v.Backed) (hl : Lapses v v') : v'.Backed := by
  unfold Backed at h ⊢
  have := hl.queued
  have := hl.uncounted
  have := hl.unpaid
  omega

end Stock
