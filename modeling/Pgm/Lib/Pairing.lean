import Mathlib.Data.Finset.Erase
import Mathlib.Data.Finset.Insert
import Mathlib.Logic.Function.Basic
import Mathlib.Tactic.Common

/-! Owners that point to blocks of a heap, and blocks that name their owner. `Paired` says that
the two directions agree; the lemmas below are the ways in which allocation, release and exchange
change both at once. -/

namespace Pairing

variable {ι κ : Type} {ptr : ι → Option κ} {live : Finset κ}
  {back : κ → Option ι} {x y : ι} {a b : κ}

/-- An owner points to a live block that names it, and a live block that names an owner is the
one that the owner points to. -/
structure Paired (ptr : ι → Option κ) (live : Finset κ) (back : κ → Option ι) : Prop where
  points : ∀ x b, ptr x = some b → b ∈ live ∧ back b = some x
  owned : ∀ b ∈ live, ∀ x, back b = some x → ptr x = some b

theorem empty (h : ∀ x, ptr x = none) : Paired ptr ∅ back where
  points := by
    intro x b hx
    rw [h x] at hx
    cases hx
  owned := by
    intro b hb
    simp at hb

/-- No two owners share a block. -/
theorem Paired.inj (h : Paired ptr live back) (hx : ptr x = some b) (hy : ptr y = some b) :
    x = y :=
  Option.some.inj ((h.points x b hx).2.symm.trans (h.points y b hy).2)

variable [DecidableEq κ]

/-- A new block for nobody. -/
theorem Paired.add (h : Paired ptr live back) (hb : b ∉ live) :
    Paired ptr (insert b live) (Function.update back b none) where
  points := by
    intro z c hz
    obtain ⟨hlive, hback⟩ := h.points z c hz
    have hne : c ≠ b := fun he => hb (he ▸ hlive)
    exact ⟨Finset.mem_insert_of_mem hlive, by rw [Function.update_of_ne hne]; exact hback⟩
  owned := by
    intro c hc z hz
    by_cases hcb : c = b
    · rw [hcb, Function.update_self] at hz
      cases hz
    · rw [Function.update_of_ne hcb] at hz
      exact h.owned c (Finset.mem_of_mem_insert_of_ne hc hcb) z hz

/-- A block of nobody is given back to the heap. -/
theorem Paired.drop (h : Paired ptr live back) (hb : back b = none) :
    Paired ptr (live.erase b) back where
  points := by
    intro z c hz
    obtain ⟨hlive, hback⟩ := h.points z c hz
    have hne : c ≠ b := by
      rintro rfl
      rw [hb] at hback
      cases hback
    exact ⟨Finset.mem_erase.mpr ⟨hne, hlive⟩, hback⟩
  owned := by
    intro c hc z hz
    exact h.owned c (Finset.mem_of_mem_erase hc) z hz

variable [DecidableEq ι]

/-- A new block for an owner that had none. -/
theorem Paired.link (h : Paired ptr live back) (hb : b ∉ live) (hx : ptr x = none) :
    Paired (Function.update ptr x (some b)) (insert b live) (Function.update back b (some x)) where
  points := by
    intro z c hz
    by_cases hzx : z = x
    · subst hzx
      rw [Function.update_self] at hz
      obtain rfl := Option.some.inj hz
      exact ⟨Finset.mem_insert_self _ _, Function.update_self _ _ _⟩
    · rw [Function.update_of_ne hzx] at hz
      obtain ⟨hlive, hback⟩ := h.points z c hz
      have hne : c ≠ b := fun he => hb (he ▸ hlive)
      exact ⟨Finset.mem_insert_of_mem hlive, by rw [Function.update_of_ne hne]; exact hback⟩
  owned := by
    intro c hc z hz
    by_cases hcb : c = b
    · subst hcb
      rw [Function.update_self] at hz
      obtain rfl := Option.some.inj hz
      exact Function.update_self _ _ _
    · rw [Function.update_of_ne hcb] at hz
      have hptr := h.owned c (Finset.mem_of_mem_insert_of_ne hc hcb) z hz
      have hzx : z ≠ x := by
        rintro rfl
        rw [hx] at hptr
        cases hptr
      rw [Function.update_of_ne hzx]
      exact hptr

/-- The block of an owner is given back to the heap. -/
theorem Paired.unlink (h : Paired ptr live back) (hx : ptr x = some b) :
    Paired (Function.update ptr x none) (live.erase b) back where
  points := by
    intro z c hz
    by_cases hzx : z = x
    · rw [hzx, Function.update_self] at hz
      cases hz
    · rw [Function.update_of_ne hzx] at hz
      obtain ⟨hlive, hback⟩ := h.points z c hz
      have hne : c ≠ b := fun he => hzx (h.inj hz (he ▸ hx))
      exact ⟨Finset.mem_erase.mpr ⟨hne, hlive⟩, hback⟩
  owned := by
    intro c hc z hz
    obtain ⟨hne, hlive⟩ := Finset.mem_erase.mp hc
    have hptr := h.owned c hlive z hz
    have hzx : z ≠ x := by
      rintro rfl
      exact hne (Option.some.inj (hptr.symm.trans hx))
    rw [Function.update_of_ne hzx]
    exact hptr

/-- An owner exchanges its block for one of nobody. -/
theorem Paired.replace (h : Paired ptr live back) (hx : ptr x = some a) (hb : b ∈ live)
    (hnone : back b = none) :
    Paired (Function.update ptr x (some b)) live
      (Function.update (Function.update back b (some x)) a none) where
  points := by
    intro z c hz
    have hab : b ≠ a := by
      rintro rfl
      rw [(h.points x b hx).2] at hnone
      cases hnone
    by_cases hzx : z = x
    · subst hzx
      rw [Function.update_self] at hz
      obtain rfl := Option.some.inj hz
      exact ⟨hb, by rw [Function.update_of_ne hab, Function.update_self]⟩
    · rw [Function.update_of_ne hzx] at hz
      obtain ⟨hlive, hback⟩ := h.points z c hz
      have hca : c ≠ a := fun he => hzx (h.inj hz (he ▸ hx))
      have hcb : c ≠ b := by
        rintro rfl
        rw [hnone] at hback
        cases hback
      exact ⟨hlive, by rw [Function.update_of_ne hca, Function.update_of_ne hcb]; exact hback⟩
  owned := by
    intro c hc z hz
    by_cases hca : c = a
    · rw [hca, Function.update_self] at hz
      cases hz
    rw [Function.update_of_ne hca] at hz
    by_cases hcb : c = b
    · subst hcb
      rw [Function.update_self] at hz
      obtain rfl := Option.some.inj hz
      exact Function.update_self _ _ _
    · rw [Function.update_of_ne hcb] at hz
      have hptr := h.owned c hc z hz
      have hzx : z ≠ x := by
        rintro rfl
        exact hca (Option.some.inj (hptr.symm.trans hx))
      rw [Function.update_of_ne hzx]
      exact hptr

/-- Two owners exchange their blocks. -/
theorem Paired.swap (h : Paired ptr live back) (hx : ptr x = some a) (hy : ptr y = some b)
    (hab : a ≠ b) :
    Paired (Function.update (Function.update ptr x (some b)) y (some a)) live
      (Function.update (Function.update back a (some y)) b (some x)) where
  points := by
    intro z c hz
    by_cases hzy : z = y
    · subst hzy
      rw [Function.update_self] at hz
      obtain rfl := Option.some.inj hz
      exact ⟨(h.points x a hx).1, by rw [Function.update_of_ne hab, Function.update_self]⟩
    rw [Function.update_of_ne hzy] at hz
    by_cases hzx : z = x
    · subst hzx
      rw [Function.update_self] at hz
      obtain rfl := Option.some.inj hz
      exact ⟨(h.points y b hy).1, Function.update_self _ _ _⟩
    · rw [Function.update_of_ne hzx] at hz
      obtain ⟨hlive, hback⟩ := h.points z c hz
      have hca : c ≠ a := fun he => hzx (h.inj hz (he ▸ hx))
      have hcb : c ≠ b := fun he => hzy (h.inj hz (he ▸ hy))
      exact ⟨hlive, by rw [Function.update_of_ne hcb, Function.update_of_ne hca]; exact hback⟩
  owned := by
    intro c hc z hz
    have hxy : x ≠ y := by
      rintro rfl
      exact hab (Option.some.inj (hx.symm.trans hy))
    by_cases hcb : c = b
    · subst hcb
      rw [Function.update_self] at hz
      obtain rfl := Option.some.inj hz
      rw [Function.update_of_ne hxy, Function.update_self]
    rw [Function.update_of_ne hcb] at hz
    by_cases hca : c = a
    · subst hca
      rw [Function.update_self] at hz
      obtain rfl := Option.some.inj hz
      exact Function.update_self _ _ _
    · rw [Function.update_of_ne hca] at hz
      have hptr := h.owned c hc z hz
      have hzx : z ≠ x := by
        rintro rfl
        exact hca (Option.some.inj (hptr.symm.trans hx))
      have hzy : z ≠ y := by
        rintro rfl
        exact hcb (Option.some.inj (hptr.symm.trans hy))
      rw [Function.update_of_ne hzy, Function.update_of_ne hzx]
      exact hptr

end Pairing
