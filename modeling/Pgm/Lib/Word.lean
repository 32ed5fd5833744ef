import Mathlib.Algebra.Group.Nat.Defs
import Mathlib.Tactic.Common

/-! Unsigned machine words of `w` bits as naturals below `2 ^ w`. -/

namespace Word

variable {w a b : Nat}

def add (w a b : Nat) : Nat := (a + b) % 2 ^ w

/-- The difference of two words, which wraps when it would be negative. -/
def sub (w a b : Nat) : Nat := if b ≤ a then a - b else 2 ^ w + a - b

def mul (w a b : Nat) : Nat := a * b % 2 ^ w

theorem add_lt (w a b : Nat) : add w a b < 2 ^ w := Nat.mod_lt _ (Nat.two_pow_pos w)

theorem add_of_lt (h : a + b < 2 ^ w) : add w a b = a + b := Nat.mod_eq_of_lt h

theorem mul_of_lt (h : a * b < 2 ^ w) : mul w a b = a * b := Nat.mod_eq_of_lt h

theorem sub_of_le (h : b ≤ a) : sub w a b = a - b := if_pos h

theorem sub_lt (ha : a < 2 ^ w) (hb : 0 < b) : sub w a b < 2 ^ w := by
  unfold sub
  split <;> omega

/-- What is taken away can be put back, modulo the word size. -/
theorem sub_add_mod (hb : b ≤ 2 ^ w) (c : Nat) :
    (sub w a b + (b + c)) % 2 ^ w = (a + c) % 2 ^ w := by
  unfold sub
  split
  · congr 1
    omega
  · rw [show 2 ^ w + a - b + (b + c) = 2 ^ w + (a + c) by omega, Nat.add_mod_left]

theorem add_mod (c : Nat) : (add w a b + c) % 2 ^ w = (a + (b + c)) % 2 ^ w := by
  rw [add, Nat.mod_add_mod, Nat.add_assoc]

def signed (w a : Nat) : Int := if a < 2 ^ (w - 1) then a else (a : Int) - (2 ^ w : Nat)

theorem signed_of_lt (h : a < 2 ^ w) : signed (w + 1) a = a := if_pos h

theorem signed_pos (h : 0 < signed (w + 1) a) (ha : a < 2 ^ (w + 1)) : 0 < a ∧ a < 2 ^ w := by
  unfold signed at h
  split at h
  · rename_i hlt
    exact ⟨by exact_mod_cast h, hlt⟩
  · have : (a : Int) < 2 ^ (w + 1) := by exact_mod_cast ha
    omega

def not (w a : Nat) : Nat := 2 ^ w - 1 - a

theorem testBit_not_low {k : Nat} (hk : k ≤ w) (i : Nat) :
    (not w (2 ^ k - 1)).testBit i = (decide (k ≤ i) && decide (i < w)) := by
  have hshift : not w (2 ^ k - 1) = (2 ^ (w - k) - 1) <<< k := by
    rw [Nat.shiftLeft_eq, Nat.sub_mul, ← Nat.pow_add, Nat.sub_add_cancel hk, Nat.one_mul, not]
    have := Nat.two_pow_pos k
    omega
  rw [hshift, Nat.testBit_shiftLeft, Nat.testBit_two_pow_sub_one]
  by_cases h : k ≤ i
  · simp only [h, decide_true, Bool.true_and]
    congr 1
    exact propext ⟨by omega, by omega⟩
  · simp [h]

/-- Masking the lowest bits out rounds down to a multiple of `2 ^ k`. -/
theorem and_not_low {k : Nat} (hk : k ≤ w) (ha : a < 2 ^ w) :
    a &&& not w (2 ^ k - 1) = a / 2 ^ k * 2 ^ k := by
  rw [← Nat.shiftRight_eq_div_pow, ← Nat.shiftLeft_eq]
  refine Nat.eq_of_testBit_eq (fun i => ?_)
  rw [Nat.testBit_and, testBit_not_low hk, Nat.testBit_shiftLeft, Nat.testBit_shiftRight]
  by_cases hi : k ≤ i
  · rw [Nat.add_sub_cancel' hi]
    by_cases hw : i < w
    · simp [hi, hw]
    · have : a < 2 ^ i := Nat.lt_of_lt_of_le ha (Nat.pow_le_pow_right (by omega) (by omega))
      simp [Nat.testBit_lt_two_pow this]
  · simp [hi]

end Word
