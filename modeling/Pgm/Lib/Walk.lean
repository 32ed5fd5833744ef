import Mathlib.Algebra.Order.Group.Defs
import Mathlib.Data.Finset.Card
import Mathlib.Data.Set.Finite.Lattice
import Mathlib.Data.Set.Finite.Lemmas
import Mathlib.Logic.Relation
import Mathlib.Order.Bounds.Basic
import Mathlib.Tactic.Common

/-! Walks along weighted edges. The edges are a relation: two places may be joined by several
edges of different weights. Without cycles among finitely many places every place is reached from
a place that no edge leads to, and the weights of the walks between two places have a least
element. -/

namespace Weighted

open Classical in
noncomputable def rank {ν : Type} (R : ν → ν → Prop) (V : Finset ν) (b : ν) : Nat :=
  (V.filter (fun a => Relation.TransGen R a b)).card

/-- Without a cycle, a place has fewer places behind it than the places it leads to. -/
theorem rank_lt {ν : Type} {R : ν → ν → Prop} {V : Finset ν} {a b : ν}
    (hacyc : ¬ Relation.TransGen R a a) (ha : a ∈ V) (hab : R a b) : rank R V a < rank R V b := by
  classical
  refine Finset.card_lt_card ⟨fun x hx => ?_, fun hss => ?_⟩
  · obtain ⟨hxV, hxa⟩ := Finset.mem_filter.mp hx
    exact Finset.mem_filter.mpr ⟨hxV, hxa.tail hab⟩
  · exact hacyc (Finset.mem_filter.mp (hss (Finset.mem_filter.mpr ⟨ha, .single hab⟩))).2

/-- Edges along which a number grows form no cycle. -/
theorem acyclic_of_rank {ν : Type} {R : ν → ν → Prop} (f : ν → Nat) (h : ∀ a b, R a b → f a < f b)
    (a : ν) : ¬ Relation.TransGen R a a := by
  have hlt : ∀ b, Relation.TransGen R a b → f a < f b := by
    intro b hb
    induction hb with
    | single hab => exact h _ _ hab
    | tail _ hbc ih => exact ih.trans (h _ _ hbc)
  exact fun hcycle => Nat.lt_irrefl _ (hlt a hcycle)

/-- Finitely many places without a cycle: the edges can be followed backwards only finitely
often. -/
theorem wellFounded_of_acyclic {ν : Type} {R : ν → ν → Prop} {V : Finset ν}
    (hV : ∀ a b, R a b → a ∈ V) (hacyc : ∀ a, ¬ Relation.TransGen R a a) : WellFounded R :=
  Subrelation.wf (fun {a b} hab => rank_lt (hacyc a) (hV a b hab) hab)
    (InvImage.wf (rank R V) wellFounded_lt)

variable {ν W : Type}

def Step (E : ν → ν → W → Prop) (a b : ν) : Prop := ∃ x, E a b x

section

variable [AddCommGroup W]

inductive Walk (E : ν → ν → W → Prop) (a : ν) : ν → W → Prop
  | nil : Walk E a a 0
  | snoc {b c : ν} {w x : W} : Walk E a b w → E b c x → Walk E a c (w + x)

variable {E : ν → ν → W → Prop} {a b : ν} {w : W}

/-- The same walk along edges with the opposite weights. -/
theorem Walk.neg (h : Walk E a b w) : Walk (fun a b x => E a b (-x)) a b (-w) := by
  induction h with
  | nil => rw [neg_zero]; exact .nil
  | @snoc b c w x _ hx ih =>
    rw [neg_add]
    exact .snoc ih (by rwa [neg_neg])

theorem walk_neg_iff : Walk (fun a b x => E a b (-x)) a b w ↔ Walk E a b (-w) := by
  constructor
  · intro h
    have h' := h.neg
    simpa only [neg_neg] using h'
  · intro h
    have h' := h.neg
    rwa [neg_neg] at h'

/-- A place is reached from one that no edge leads to. -/
theorem exists_source (hwf : WellFounded (Step E)) (b : ν) :
    ∃ a w, (∀ c, ¬ Step E c a) ∧ Walk E a b w := by
  induction b using hwf.induction with
  | _ b ih =>
    by_cases hb : ∃ c, Step E c b
    · obtain ⟨c, x, hx⟩ := hb
      obtain ⟨a, w, ha, hw⟩ := ih c ⟨x, hx⟩
      exact ⟨a, w + x, ha, hw.snoc hx⟩
    · exact ⟨b, 0, fun c hc => hb ⟨c, hc⟩, .nil⟩

theorem Walk.cases_last (h : Walk E a b w) :
    w = 0 ∨ ∃ c w' x, Walk E a c w' ∧ E c b x ∧ w = w' + x := by
  cases h with
  | nil => exact Or.inl rfl
  | snoc hw hx => exact Or.inr ⟨_, _, _, hw, hx, rfl⟩

theorem walks_finite (hwf : WellFounded (Step E)) (hfin : ∀ c, {p : ν × W | E p.1 c p.2}.Finite)
    (a b : ν) : {w | Walk E a b w}.Finite := by
  induction b using hwf.induction with
  | _ b ih =>
    have hlast : {w | Walk E a b w} ⊆ {0} ∪ ⋃ p ∈ {p : ν × W | E p.1 b p.2},
        Set.image (fun w => w + p.2) {w | Walk E a p.1 w} := by
      intro w hw
      rcases Walk.cases_last hw with rfl | ⟨c, w', x, hw', hx, rfl⟩
      · exact Or.inl rfl
      · exact Or.inr (Set.mem_biUnion (x := (c, x)) hx ⟨w', hw', rfl⟩)
    refine Set.Finite.subset ((Set.finite_singleton 0).union ?_) hlast
    exact (hfin b).biUnion (fun p hp => (ih p.1 ⟨p.2, hp⟩).image _)

end

/-- Among the walks between two places there is one of least weight. -/
theorem exists_least [AddCommGroup W] [LinearOrder W] {E : ν → ν → W → Prop} {a b : ν} {w : W}
    (hwf : WellFounded (Step E)) (hfin : ∀ c, {p : ν × W | E p.1 c p.2}.Finite)
    (hw : Walk E a b w) : ∃ x, IsLeast {w | Walk E a b w} x := by
  obtain ⟨x, hx, hle⟩ := Set.exists_min_image {w | Walk E a b w} id (walks_finite hwf hfin a b) ⟨w, hw⟩
  exact ⟨x, hx, hle⟩

theorem Walk.nonneg [AddCommGroup W] [LinearOrder W] [IsOrderedAddMonoid W]
    {E : ν → ν → W → Prop} {a b : ν} {w : W} (hE : ∀ a b x, E a b x → 0 ≤ x)
    (h : Walk E a b w) : 0 ≤ w := by
  induction h with
  | nil => exact le_rfl
  | snoc _ hx ih => exact add_nonneg ih (hE _ _ _ hx)

end Weighted
