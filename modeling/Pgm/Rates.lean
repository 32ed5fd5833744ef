import Mathlib.Algebra.Order.Field.Rat
import Mathlib.Algebra.Order.BigOperators.Ring.List
import Mathlib.Algebra.BigOperators.Group.List.Lemmas
import Mathlib.Algebra.GCDMonoid.Nat
import Mathlib.Tactic.FieldSimp
import Mathlib.Tactic.LinearCombination
import Mathlib.Tactic.Positivity
import Mathlib.Tactic.Ring
import Pgm.Lib.Walk
import Pgm.Lib.Word
import Pgm.Lib.Worklist

/-!
# The execution rates of a graph

`parse_graph_rates` starts from the rates of some nodes, `x` arrivals in `y` microseconds, and
propagates them along the edges. A node that several edges lead to gets an interval that is a
multiple of what each of them asks for, and it is visited again whenever its interval grows.

* `interval_exact`: a multiple of what an edge asks for makes the division for `x` exact;
* `step_eq`: while no product exceeds 64 bits, the code computes the exact numbers;
* `validateRate_reached`: consistent rates are never reported as incompatible;
* `rates_propagate`: the loop ends in every order, with exact rates that agree on all edges.
-/

namespace Pgm.Rates

open Worklist (State Job Act)

/-! ## The loop of `parse_graph_rates` -/

/-- `struct rate`: `x` arrivals in an interval of `y` microseconds. -/
structure Rate where
  y : Nat
  x : Nat
  deriving DecidableEq, Repr

/-- `nr_produce` and `nr_consume` of an edge, as the `int`s of the loop. -/
structure Amounts where
  produce : Nat
  consume : Nat
  produce_pos : 1 ≤ produce
  consume_pos : 1 ≤ consume
  produce_lt : produce < 2 ^ 31
  consume_lt : consume < 2 ^ 31

/-- `boost::math::gcd` and `boost::math::lcm` on `uint64_t`. A least common multiple that does not
fit is left open. -/
structure BoostMath where
  gcd : Nat → Nat → Nat
  lcm : Nat → Nat → Nat
  gcd_eq : ∀ a b, a < 2 ^ 64 → b < 2 ^ 64 → gcd a b = Nat.gcd a b
  lcm_eq : ∀ a b, a < 2 ^ 64 → b < 2 ^ 64 → Nat.lcm a b < 2 ^ 64 → lcm a b = Nat.lcm a b

variable {κ : Type} [DecidableEq κ]

/-- The loop goes by the names of nodes. `val` is `rateMap`, `todo` is `tovisit`, and `left` is what
the `for` loop over the successors has still to do, with `thisNodeRate`. -/
abbrev RateState (κ : Type) : Type := State κ Rate Amounts

/-- `(consume * thisNodeRate.y) / gcd(produce * thisNodeRate.x, consume)`. -/
def intervalY (M : BoostMath) (r : Rate) (e : Amounts) : Nat :=
  Word.mul 64 e.consume r.y / M.gcd (Word.mul 64 e.produce r.x) e.consume

/-- `(y * produce * thisNodeRate.x) / (consume * thisNodeRate.y)`. -/
def arrivalsX (y : Nat) (r : Rate) (e : Amounts) : Nat :=
  Word.mul 64 (Word.mul 64 y e.produce) r.x / Word.mul 64 e.consume r.y

def newRate (M : BoostMath) (r : Rate) (e : Amounts) : Option Rate → Option Rate
  | some oldRate =>
    let y := M.lcm (intervalY M r e) oldRate.y
    if y ≠ oldRate.y then some ⟨y, arrivalsX y r e⟩ else none
  | none =>
    let y := intervalY M r e
    some ⟨y, arrivalsX y r e⟩

/-- The loop. It may take any name to visit; `rateMap[*thisNode]` is 0 arrivals in 0 microseconds
for a name that is not there. `succs` gives the successors of a node, in the order in which
`pgm_get_successors` lists them, with the amounts of the edge between the two. -/
def step (M : BoostMath) (succs : κ → List (κ × Amounts)) (st : RateState κ) :
    Act κ → Option (RateState κ)
  | .take k =>
    if st.left.isEmpty = true ∧ k ∈ st.todo then
      some (st.visit succs k ((st.val k).getD ⟨0, 0⟩))
    else none
  | .next =>
    match st.left with
    | [] => none
    | j :: left => some (st.change j.succ left (newRate M j.read j.edge (st.val j.succ)))

/-- The rate of a root is entered. `insert` leaves an entry that is there. -/
def addRoot (st : RateState κ) (root : κ × Rate) : RateState κ :=
  { st with
    val := if (st.val root.1).isSome = true then st.val
      else Function.update st.val root.1 (some root.2)
    todo := insert root.1 st.todo }

def start (roots : List (κ × Rate)) : RateState κ := roots.foldl addRoot ⟨fun _ => none, ∅, []⟩

def Rate.same (a b : Rate) : Bool := Word.mul 64 a.x b.y == Word.mul 64 b.x a.y

/-- What `validate_rate` compares of a predecessor and the edge from it. -/
def scaledRate (scale : Nat) (p : Rate × Amounts) : Rate :=
  ⟨Word.mul 64 (Word.mul 64 p.2.produce p.1.x) scale, Word.mul 64 p.1.y p.2.consume⟩

/-- The loop over the predecessors that have rates: each is compared with the one before it. -/
def validFrom (scale : Nat) : List (Rate × Amounts) → Bool
  | [] => true
  | [_] => true
  | prev :: cur :: rest =>
    (scaledRate scale prev).same (scaledRate scale cur) && validFrom scale (cur :: rest)

/-- `validate_rate`: whether the predecessors' rates are found to be compatible. -/
def validateRate (preds : List (Rate × Amounts)) : Bool :=
  validFrom (preds.foldl (fun scale p => Word.mul 64 scale p.1.y) 1) preds

/-! ## Exact numbers -/

def interval (r : Rate) (e : Amounts) : Nat := e.consume * r.y / Nat.gcd (e.produce * r.x) e.consume

/-- The rate with interval `y` behind an edge. -/
def rateOf (y : Nat) (r : Rate) (e : Amounts) : Rate :=
  ⟨y, y * e.produce * r.x / (e.consume * r.y)⟩

/-- `newRate` without the limits of a word. -/
def joinRate (r : Rate) (e : Amounts) : Option Rate → Option Rate
  | some old =>
    if Nat.lcm (interval r e) old.y ≠ old.y then some (rateOf (Nat.lcm (interval r e) old.y) r e)
    else none
  | none => some (rateOf (interval r e) r e)

/-- No product of the step exceeds 64 bits. -/
def Fits (st : RateState κ) : Act κ → Prop
  | .take _ => True
  | .next => ∀ j ∈ st.left.head?,
    j.edge.consume * j.read.y < 2 ^ 64 ∧ j.edge.produce * j.read.x < 2 ^ 64 ∧
    (∀ old ∈ st.val j.succ, Nat.lcm (interval j.read j.edge) old.y < 2 ^ 64) ∧
    ∀ new ∈ joinRate j.read j.edge (st.val j.succ),
      new.y * j.edge.produce < 2 ^ 64 ∧ new.y * j.edge.produce * j.read.x < 2 ^ 64

instance (st : RateState κ) (act : Act κ) : Decidable (Fits st act) := by
  cases act <;> unfold Fits <;> infer_instance

/-- The divisions of the next step leave no remainder. -/
def Exact (M : BoostMath) (st : RateState κ) : Prop := ∀ j ∈ st.left.head?,
  M.gcd (Word.mul 64 j.edge.produce j.read.x) j.edge.consume ∣
    Word.mul 64 j.edge.consume j.read.y ∧
  ∀ new ∈ newRate M j.read j.edge (st.val j.succ),
    Word.mul 64 j.edge.consume j.read.y ∣
      Word.mul 64 (Word.mul 64 new.y j.edge.produce) j.read.x

section

variable {r : Rate} {e : Amounts}

theorem gcd_dvd_mul (r : Rate) (e : Amounts) :
    Nat.gcd (e.produce * r.x) e.consume ∣ e.consume * r.y :=
  (Nat.gcd_dvd_right _ _).mul_right _

theorem interval_dvd (r : Rate) (e : Amounts) : interval r e ∣ e.consume * r.y :=
  Nat.div_dvd_of_dvd (gcd_dvd_mul r e)

theorem interval_pos (hy : 0 < r.y) : 0 < interval r e :=
  Nat.pos_of_dvd_of_pos (interval_dvd r e) (Nat.mul_pos e.consume_pos hy)

/-- **Exactness.** A multiple of the interval that an edge asks for makes the division exact. -/
theorem interval_exact {y : Nat} (h : interval r e ∣ y) :
    e.consume * r.y ∣ y * e.produce * r.x := by
  obtain ⟨k, rfl⟩ := h
  obtain ⟨q, hq⟩ : Nat.gcd (e.produce * r.x) e.consume ∣ e.produce * r.x := Nat.gcd_dvd_left _ _
  have hprod : interval r e * Nat.gcd (e.produce * r.x) e.consume = e.consume * r.y :=
    Nat.div_mul_cancel (gcd_dvd_mul r e)
  refine ⟨k * q, ?_⟩
  calc interval r e * k * e.produce * r.x
      = interval r e * k * (e.produce * r.x) := by ring
    _ = interval r e * k * (Nat.gcd (e.produce * r.x) e.consume * q) := by rw [← hq]
    _ = interval r e * Nat.gcd (e.produce * r.x) e.consume * (k * q) := by ring
    _ = e.consume * r.y * (k * q) := by rw [hprod]

theorem rateOf_x {y : Nat} (h : interval r e ∣ y) :
    (rateOf y r e).x * (e.consume * r.y) = y * e.produce * r.x :=
  Nat.div_mul_cancel (interval_exact h)

/-- A new rate has an interval that the edge asks for and, if there was a rate, a larger one. -/
theorem joinRate_some {o : Option Rate} {new : Rate} (h : joinRate r e o = some new) :
    interval r e ∣ new.y ∧ new = rateOf new.y r e ∧
      (∀ old, o = some old → new.y = Nat.lcm (interval r e) old.y ∧ new.y ≠ old.y) ∧
      (o = none → new.y = interval r e) := by
  cases o with
  | none =>
    obtain rfl := Option.some.inj h
    exact ⟨Nat.dvd_refl _, rfl, by rintro old ⟨⟩, fun _ => rfl⟩
  | some old =>
    obtain ⟨hne, h⟩ := Option.ite_none_right_eq_some.mp h
    obtain rfl := Option.some.inj h
    refine ⟨Nat.dvd_lcm_left _ _, rfl, ?_, by rintro ⟨⟩⟩
    rintro old' ⟨⟩
    exact ⟨rfl, hne⟩

theorem joinRate_none {o : Option Rate} (h : joinRate r e o = none) :
    ∃ old, o = some old ∧ interval r e ∣ old.y := by
  cases o with
  | none => cases h
  | some old =>
    have heq : Nat.lcm (interval r e) old.y = old.y := by
      by_contra hne
      rw [joinRate, if_pos hne] at h
      cases h
    exact ⟨old, rfl, heq ▸ Nat.dvd_lcm_left _ _⟩

end

/-! ## Consistent rates -/

/-- A ratio of arrivals to time for every node, with which the roots and the edges agree. -/
structure Consistent (succs : κ → List (κ × Amounts)) (roots : List (κ × Rate)) (ratio : κ → ℚ) :
    Prop where
  roots : ∀ p ∈ roots, ratio p.1 = p.2.x / p.2.y
  edges : ∀ k, ∀ p ∈ succs k, ratio p.1 = ratio k * p.2.produce / p.2.consume

/-- A rate that a node may have: it has the ratio of the node, and its interval divides the bound of
the node. -/
structure Good (ratio : κ → ℚ) (bound : κ → Nat) (k : κ) (r : Rate) : Prop where
  y_pos : 0 < r.y
  x_pos : 0 < r.x
  ratio : (r.x : ℚ) = ratio k * r.y
  bounded : r.y ∣ bound k

/-- The interval that the edge asks for divides that of its target. -/
def Settled (r : Rate) (e : Amounts) (s : Rate) : Prop := interval r e ∣ s.y

def potential (bound : κ → Nat) (k : κ) : Option Rate → Nat
  | none => bound k + 1
  | some r => bound k + 1 - r.y

section

variable {ratio : κ → ℚ} {bound : κ → Nat} {k s : κ} {r : Rate} {e : Amounts}

omit [DecidableEq κ] in
/-- The rate behind an edge, with a larger interval than the edge asks for. -/
theorem Good.rateOf (h : Good ratio bound k r) (hratio : ratio s = ratio k * e.produce / e.consume)
    {y : Nat} (hpos : 0 < y) (hy : interval r e ∣ y) (hb : y ∣ bound s) :
    Good ratio bound s (rateOf y r e) := by
  have hx := rateOf_x hy
  have hden : 0 < e.consume * r.y := Nat.mul_pos e.consume_pos h.y_pos
  refine ⟨hpos, ?_, ?_, hb⟩
  · have hprod := Nat.mul_pos (Nat.mul_pos hpos e.produce_pos) h.x_pos
    rw [← hx] at hprod
    exact Nat.pos_of_mul_pos_right hprod
  · have hxq : ((Rates.rateOf y r e).x : ℚ) * (e.consume * r.y) = y * e.produce * r.x := by
      exact_mod_cast hx
    have hden' : (e.consume : ℚ) * r.y ≠ 0 := by exact_mod_cast hden.ne'
    have hc : (e.consume : ℚ) ≠ 0 := left_ne_zero_of_mul hden'
    refine mul_right_cancel₀ hden' ?_
    rw [hxq, h.ratio, hratio]
    change _ = _ * (y : ℚ) * _
    field_simp

omit [DecidableEq κ] in
theorem Good.agree (h : Good ratio bound k r) {t : Rate} (ht : Good ratio bound s t)
    (hratio : ratio s = ratio k * e.produce / e.consume) :
    t.x * e.consume * r.y = t.y * e.produce * r.x := by
  have hc : (e.consume : ℚ) ≠ 0 := by exact_mod_cast (Nat.pos_iff_ne_zero.mp e.consume_pos)
  have hq : (t.x : ℚ) * e.consume * r.y = t.y * e.produce * r.x := by
    rw [ht.ratio, h.ratio, hratio]
    field_simp
  exact_mod_cast hq

omit [DecidableEq κ] in
/-- Two edges into one node ask for the same ratio. -/
theorem Good.compatible {k' : κ} {r' : Rate} {e' : Amounts} (h : Good ratio bound k r)
    (h' : Good ratio bound k' r') (hratio : ratio s = ratio k * e.produce / e.consume)
    (hratio' : ratio s = ratio k' * e'.produce / e'.consume) :
    r.y * e.consume * (e'.produce * r'.x) = r'.y * e'.consume * (e.produce * r.x) := by
  have hc : (e.consume : ℚ) ≠ 0 := by exact_mod_cast (Nat.pos_iff_ne_zero.mp e.consume_pos)
  have hc' : (e'.consume : ℚ) ≠ 0 := by exact_mod_cast (Nat.pos_iff_ne_zero.mp e'.consume_pos)
  have heq : ratio k * e.produce * e'.consume = ratio k' * e'.produce * e.consume := by
    rw [hratio] at hratio'
    field_simp at hratio'
    linear_combination hratio'
  have hq : (r.y : ℚ) * e.consume * (e'.produce * r'.x) = r'.y * e'.consume * (e.produce * r.x) := by
    rw [h.ratio, h'.ratio]
    linear_combination (-(r.y : ℚ) * r'.y) * heq
  exact_mod_cast hq

/-- Equal products stay equal when they wrap. -/
theorem same_scaledRate {r' : Rate} {e' : Amounts} (scale : Nat)
    (h : r.y * e.consume * (e'.produce * r'.x) = r'.y * e'.consume * (e.produce * r.x)) :
    (scaledRate scale (r, e)).same (scaledRate scale (r', e')) = true := by
  have hscaled : r.y * e.consume * (e'.produce * r'.x * scale)
      = r'.y * e'.consume * (e.produce * r.x * scale) := by
    rw [← Nat.mul_assoc, h, Nat.mul_assoc]
  unfold Rate.same scaledRate
  rw [beq_iff_eq]
  simp only [Word.mul, Nat.mod_mul_mod, Nat.mul_mod_mod]
  exact congrArg (· % 2 ^ 64) hscaled

omit [DecidableEq κ] in
/-- Rates that have the ratios of their nodes are compatible. -/
theorem validateRate_of_good {preds : List (Rate × Amounts)}
    (h : ∀ p ∈ preds, ∃ k, Good ratio bound k p.1 ∧ ratio s = ratio k * p.2.produce / p.2.consume) :
    validateRate preds = true := by
  unfold validateRate
  generalize preds.foldl (fun scale p => Word.mul 64 scale p.1.y) 1 = scale
  induction preds with
  | nil => rfl
  | cons prev rest ih =>
    obtain ⟨hprev, hrest⟩ := List.forall_mem_cons.mp h
    cases rest with
    | nil => rfl
    | cons cur rest =>
      obtain ⟨k, hk, hratio⟩ := hprev
      obtain ⟨k', hk', hratio'⟩ := hrest cur List.mem_cons_self
      rw [validFrom, ih hrest, Bool.and_true]
      exact same_scaledRate scale (hk.compatible hk' hratio hratio')

end

section

variable {succs : κ → List (κ × Amounts)} {V : Finset κ} {roots : List (κ × Rate)} {ratio : κ → ℚ}
  {bound : κ → Nat} {degree : Nat}

/-- Every list of positive numbers has a common multiple. -/
theorem exists_multiple (ns : List Nat) (h : ∀ n ∈ ns, 0 < n) :
    ∃ m, 0 < m ∧ ∀ n ∈ ns, n ∣ m := by
  induction ns with
  | nil => exact ⟨1, Nat.one_pos, by simp⟩
  | cons n ns ih =>
    obtain ⟨m, hm, hdvd⟩ := ih (fun k hk => h k (List.mem_cons_of_mem n hk))
    refine ⟨n * m, Nat.mul_pos (h n List.mem_cons_self) hm, ?_⟩
    exact List.forall_mem_cons.mpr ⟨Nat.dvd_mul_right n m, fun k hk => (hdvd k hk).mul_left n⟩

omit [DecidableEq κ] in
/-- A bound for the intervals: it grows along every edge by a factor that all amounts divide. -/
theorem exists_bound (hacyc : ∀ k, ¬ Relation.TransGen (fun a b => ∃ e, (b, e) ∈ succs a) k k)
    (hroots : ∀ p ∈ roots, 0 < p.2.y) : ∃ bound : κ → Nat, (∀ k, 0 < bound k) ∧
      (∀ p ∈ roots, ∀ k, p.2.y ∣ bound k) ∧
      ∀ k ∈ V, ∀ p ∈ succs k, p.2.consume * bound k ∣ bound p.1 := by
  obtain ⟨y, hy, hydvd⟩ := exists_multiple (roots.map (fun p => p.2.y)) (List.forall_mem_map.mpr hroots)
  obtain ⟨m, hm, hdvd⟩ := exists_multiple
    (V.toList.flatMap (fun k => (succs k).map (fun p => p.2.consume))) (by
      intro n hn
      obtain ⟨k, -, hk⟩ := List.mem_flatMap.mp hn
      obtain ⟨p, -, rfl⟩ := List.mem_map.mp hk
      exact p.2.consume_pos)
  refine ⟨fun k => y * m ^ Weighted.rank (fun a b => ∃ e, (b, e) ∈ succs a) V k,
    fun k => Nat.mul_pos hy (Nat.pow_pos hm), ?_, ?_⟩
  · exact fun p hp k => (hydvd _ (List.mem_map.mpr ⟨p, hp, rfl⟩)).mul_right _
  · intro k hk p hp
    have hlt := Weighted.rank_lt (hacyc k) hk ⟨p.2, hp⟩
    have hc : p.2.consume ∣ m :=
      hdvd _ (List.mem_flatMap.mpr ⟨k, Finset.mem_toList.mpr hk, List.mem_map.mpr ⟨p, hp, rfl⟩⟩)
    calc p.2.consume * (y * m ^ Weighted.rank _ V k)
        = y * (p.2.consume * m ^ Weighted.rank _ V k) := Nat.mul_left_comm _ _ _
      _ ∣ y * (m * m ^ Weighted.rank _ V k) := mul_dvd_mul_left y (mul_dvd_mul_right hc _)
      _ = y * m ^ (Weighted.rank _ V k + 1) := by rw [Nat.pow_succ']
      _ ∣ y * m ^ Weighted.rank _ V p.1 := mul_dvd_mul_left y (pow_dvd_pow m hlt)

variable (hcons : Consistent succs roots ratio) (hclosed : ∀ k ∈ V, ∀ p ∈ succs k, p.1 ∈ V)
  (hpos : ∀ k, 0 < bound k)
  (hbound : ∀ k ∈ V, ∀ p ∈ succs k, p.2.consume * bound k ∣ bound p.1)

omit [DecidableEq κ] in
include hcons hpos hbound in
theorem joinRate_good {k s : κ} {r new : Rate} {e : Amounts} {o : Option Rate}
    (hk : k ∈ V) (h : Good ratio bound k r) (hedge : (s, e) ∈ succs k)
    (hold : ∀ v, o = some v → Good ratio bound s v) (hnew : joinRate r e o = some new) :
    Good ratio bound s new ∧ potential bound s (some new) < potential bound s o := by
  obtain ⟨hdvd, heq, hsome, hnone⟩ := joinRate_some hnew
  have hask : interval r e ∣ bound s :=
    (interval_dvd r e).trans ((mul_dvd_mul_left _ h.bounded).trans (hbound k hk _ hedge))
  have hipos := interval_pos (e := e) h.y_pos
  have hratio := hcons.edges k _ hedge
  cases o with
  | none =>
    have hy := hnone rfl
    rw [heq, hy]
    refine ⟨h.rateOf hratio hipos (Nat.dvd_refl _) hask, ?_⟩
    have hle : interval r e ≤ bound s := Nat.le_of_dvd (hpos s) hask
    simp only [potential, rateOf]
    omega
  | some old =>
    obtain ⟨hlcm, hne⟩ := hsome old rfl
    have hgood := hold old rfl
    have hb : new.y ∣ bound s := by
      rw [hlcm]
      exact Nat.lcm_dvd hask hgood.bounded
    have hy : 0 < new.y := Nat.pos_of_dvd_of_pos hb (hpos s)
    have hlt : old.y < new.y :=
      lt_of_le_of_ne (Nat.le_of_dvd hy (hlcm ▸ Nat.dvd_lcm_right _ _)) hne.symm
    refine ⟨heq ▸ h.rateOf hratio hy hdvd hb, ?_⟩
    have hle : new.y ≤ bound s := Nat.le_of_dvd (hpos s) hb
    simp only [potential]
    omega

omit [DecidableEq κ] in
include hcons hclosed hpos hbound in
theorem rules (hdegree : ∀ k ∈ V, (succs k).length ≤ degree) :
    Worklist.Rules succs joinRate V degree (Good ratio bound) Settled (potential bound) where
  closed := hclosed
  length_le := hdegree
  good hk h hedge hold hnew := (joinRate_good hcons hpos hbound hk h hedge hold hnew).1
  lowers hk h hedge hold hnew := (joinRate_good hcons hpos hbound hk h hedge hold hnew).2
  settles hnew := (joinRate_some hnew).1
  settled hnone := joinRate_none hnone
  stays hnew hset := by
    obtain ⟨-, -, hsome, -⟩ := joinRate_some hnew
    have hlcm := (hsome _ rfl).1
    exact hset.trans (hlcm ▸ Nat.dvd_lcm_right _ _)

end

/-! ## The words of the code -/

section

variable {M : BoostMath} {r : Rate} {e : Amounts} {o : Option Rate}

theorem amount_lt {n : Nat} (h : n < 2 ^ 31) : n < 2 ^ 64 := by omega

theorem gcd_words (hpx : e.produce * r.x < 2 ^ 64) :
    M.gcd (Word.mul 64 e.produce r.x) e.consume = Nat.gcd (e.produce * r.x) e.consume := by
  rw [Word.mul_of_lt hpx, M.gcd_eq _ _ hpx (amount_lt e.consume_lt)]

theorem intervalY_eq (hcy : e.consume * r.y < 2 ^ 64) (hpx : e.produce * r.x < 2 ^ 64) :
    intervalY M r e = interval r e := by
  rw [intervalY, gcd_words hpx, Word.mul_of_lt hcy, interval]

theorem arrivalsX_eq {y : Nat} (hcy : e.consume * r.y < 2 ^ 64) (hyp : y * e.produce < 2 ^ 64)
    (hypx : y * e.produce * r.x < 2 ^ 64) : ⟨y, arrivalsX y r e⟩ = rateOf y r e := by
  rw [rateOf, arrivalsX, Word.mul_of_lt hyp, Word.mul_of_lt hypx, Word.mul_of_lt hcy]

/-- While the products fit, the rate of a successor is exact. -/
theorem newRate_eq (hcy : e.consume * r.y < 2 ^ 64) (hpx : e.produce * r.x < 2 ^ 64)
    (hold : ∀ old ∈ o, old.y < 2 ^ 64 ∧ Nat.lcm (interval r e) old.y < 2 ^ 64)
    (hnew : ∀ new ∈ joinRate r e o,
      new.y * e.produce < 2 ^ 64 ∧ new.y * e.produce * r.x < 2 ^ 64) :
    newRate M r e o = joinRate r e o := by
  cases o with
  | none =>
    obtain ⟨hyp, hypx⟩ := hnew _ rfl
    simp only [newRate, joinRate, intervalY_eq hcy hpx]
    exact congrArg some (arrivalsX_eq hcy hyp hypx)
  | some old =>
    obtain ⟨hy, hlcm⟩ := hold old rfl
    have hask : interval r e < 2 ^ 64 := lt_of_le_of_lt (Nat.div_le_self _ _) hcy
    simp only [newRate, joinRate, intervalY_eq hcy hpx, M.lcm_eq _ _ hask hy hlcm]
    split
    · rename_i hne
      obtain ⟨hyp, hypx⟩ := hnew _ (if_pos hne)
      exact congrArg some (arrivalsX_eq hcy hyp hypx)
    · rfl

end

section

variable {M : BoostMath} {succs : κ → List (κ × Amounts)} {V : Finset κ}
  {roots : List (κ × Rate)} {ratio : κ → ℚ} {bound : κ → Nat} {st : RateState κ}
  (hI : Worklist.Inv succs V (Good ratio bound) Settled st)

omit [DecidableEq κ] in
include hI in
theorem newRate_next (hf : Fits st .next) {j : Job κ Rate Amounts} (hj : j ∈ st.left.head?) :
    newRate M j.read j.edge (st.val j.succ) = joinRate j.read j.edge (st.val j.succ) := by
  obtain ⟨hcy, hpx, hold, hnew⟩ := hf j hj
  refine newRate_eq hcy hpx (fun old ho => ⟨?_, hold old ho⟩) hnew
  -- an interval divides a positive common multiple, which fits
  have hgood := (hI.places _ old ho).2
  have hread := (hI.left j (List.mem_of_mem_head? hj)).2.1
  have hpos : 0 < Nat.lcm (interval j.read j.edge) old.y :=
    Nat.lcm_pos (interval_pos hread.y_pos) hgood.y_pos
  exact lt_of_le_of_lt (Nat.le_of_dvd hpos (Nat.dvd_lcm_right _ _)) (hold old ho)

include hI in
/-- **Words.** A step whose products fit is a step in exact numbers. -/
theorem step_eq {act : Act κ} (hf : Fits st act) :
    step M succs st act = Worklist.step succs joinRate st act := by
  cases act with
  | take k =>
    simp only [step, Worklist.step]
    split
    · rename_i hk
      obtain ⟨a, ha⟩ := hI.todo k hk.2
      rw [ha]
      rfl
    · rfl
  | next =>
    unfold step Worklist.step
    cases hleft : st.left with
    | nil => rfl
    | cons j left =>
      have hj : j ∈ st.left.head? := by rw [hleft]; rfl
      simp only [newRate_next hI hf hj]

omit [DecidableEq κ] in
include hI in
theorem exact_next (hf : Fits st .next) : Exact M st := by
  intro j hj
  obtain ⟨hcy, hpx, -, hnew⟩ := hf j hj
  rw [gcd_words hpx, Word.mul_of_lt hcy, newRate_next hI hf hj]
  refine ⟨gcd_dvd_mul _ _, fun new hn => ?_⟩
  obtain ⟨hyp, hypx⟩ := hnew new hn
  rw [Word.mul_of_lt hyp, Word.mul_of_lt hypx]
  exact interval_exact (joinRate_some hn).1

end

/-! ## The whole loop -/

section

variable {roots : List (κ × Rate)}

theorem addRoot_val (st : RateState κ) (p : κ × Rate) (k : κ) :
    (addRoot st p).val k = (st.val k).or (if p.1 = k then some p.2 else none) := by
  by_cases hk : p.1 = k
  · subst hk
    cases hv : st.val p.1 <;> simp [addRoot, hv]
  · have hne : k ≠ p.1 := fun h => hk h.symm
    cases hv : (st.val p.1).isSome <;> simp [addRoot, hv, hk, Function.update_of_ne hne]

theorem foldl_addRoot (st : RateState κ) :
    (∀ k, (roots.foldl addRoot st).val k =
      (st.val k).or ((roots.find? (fun p => p.1 = k)).map Prod.snd)) ∧
    (roots.foldl addRoot st).todo = st.todo ∪ (roots.map Prod.fst).toFinset ∧
    (roots.foldl addRoot st).left = st.left := by
  induction roots generalizing st with
  | nil => simp
  | cons p roots ih =>
    obtain ⟨hval, htodo, hleft⟩ := ih (addRoot st p)
    refine ⟨fun k => ?_, ?_, hleft⟩
    · rw [List.foldl_cons, hval, addRoot_val, Option.or_assoc]
      by_cases hk : p.1 = k <;> simp [hk]
    · rw [List.foldl_cons, htodo, addRoot, List.map_cons, List.toFinset_cons, Finset.insert_union,
        Finset.union_insert]

theorem start_val {k : κ} {r : Rate} (h : (start roots).val k = some r) : (k, r) ∈ roots := by
  rw [start, (foldl_addRoot _).1, Option.none_or] at h
  obtain ⟨p, hp, rfl⟩ := Option.map_eq_some_iff.mp h
  have hk : p.1 = k := by simpa using List.find?_some hp
  exact hk ▸ List.mem_of_find?_eq_some hp

theorem mem_start_todo {k : κ} : k ∈ (start roots).todo ↔ ∃ p ∈ roots, p.1 = k := by
  rw [start, (foldl_addRoot _).2.1]
  simp

theorem start_rated {p : κ × Rate} (hp : p ∈ roots) : ∃ r, (start roots).val p.1 = some r := by
  have hfind : (roots.find? (fun q => q.1 = p.1)).isSome = true :=
    List.find?_isSome.mpr ⟨p, hp, decide_eq_true rfl⟩
  obtain ⟨q, hq⟩ := Option.isSome_iff_exists.mp hfind
  exact ⟨q.2, by rw [start, (foldl_addRoot _).1, Option.none_or, hq]; rfl⟩

theorem start_inv {succs : κ → List (κ × Amounts)} {V : Finset κ} {ratio : κ → ℚ} {bound : κ → Nat}
    (hroots : ∀ p ∈ roots, p.1 ∈ V ∧ Good ratio bound p.1 p.2) :
    Worklist.Inv succs V (Good ratio bound) Settled (start roots) where
  places k r hk := hroots _ (start_val hk)
  todo k hk := by
    obtain ⟨p, hp, rfl⟩ := mem_start_todo.mp hk
    exact start_rated hp
  left j hj := by
    rw [start, (foldl_addRoot _).2.2] at hj
    cases hj
  edges k r hk hnot := absurd (mem_start_todo.mpr ⟨_, start_val hk, rfl⟩) hnot

end

/-- A loop that has not ended can go on. -/
theorem step_progress {M : BoostMath} {succs : κ → List (κ × Amounts)} {st : RateState κ}
    (hnot : ¬ st.Done) : ∃ act, (step M succs st act).isSome = true := by
  cases hleft : st.left with
  | cons j left => exact ⟨.next, by simp [step, hleft]⟩
  | nil =>
    obtain ⟨k, hk⟩ := Finset.nonempty_iff_ne_empty.mpr (fun htodo => hnot ⟨hleft, htodo⟩)
    exact ⟨.take k, by simp [step, hleft, hk]⟩

section

variable {succs : κ → List (κ × Amounts)} {V : Finset κ} {roots : List (κ × Rate)} {ratio : κ → ℚ}
  (hV : ∀ k ∈ V, ∀ p ∈ succs k, p.1 ∈ V)
  (hacyc : ∀ k, ¬ Relation.TransGen (fun a b => ∃ e, (b, e) ∈ succs a) k k)
  (hroots : ∀ p ∈ roots, p.1 ∈ V ∧ 0 < p.2.y ∧ 0 < p.2.x)
  (hcons : Consistent succs roots ratio)

include hV hacyc hroots hcons in
/-- The loop follows the rules of a worklist, and it begins in their invariant. -/
theorem exists_rules : ∃ bound degree,
    Worklist.Rules succs joinRate V degree (Good ratio bound) Settled (potential bound) ∧
    Worklist.Inv succs V (Good ratio bound) Settled (start roots) := by
  obtain ⟨bound, hpos, hroot, hbound⟩ := exists_bound (V := V) hacyc (fun p hp => (hroots p hp).2.1)
  have hgood : ∀ p ∈ roots, p.1 ∈ V ∧ Good ratio bound p.1 p.2 := by
    intro p hp
    obtain ⟨hpV, hy, hx⟩ := hroots p hp
    have hy' : (p.2.y : ℚ) ≠ 0 := by exact_mod_cast hy.ne'
    refine ⟨hpV, hy, hx, ?_, hroot p hp p.1⟩
    rw [hcons.roots p hp, div_mul_cancel₀ _ hy']
  obtain ⟨degree, hdegree⟩ : ∃ degree, ∀ k ∈ V, (succs k).length ≤ degree :=
    ⟨V.sup (fun k => (succs k).length), fun k hk => Finset.le_sup (f := fun k => (succs k).length) hk⟩
  exact ⟨bound, degree, rules hcons hV hpos hbound hdegree, start_inv hgood⟩

include hV hacyc hroots hcons in
/-- **No complaint.** While no product of the loop exceeds 64 bits, `validate_rate` never reports
consistent rates, whichever of the predecessors have one by then. Its own products may wrap. -/
theorem validateRate_reached {M : BoostMath} {st : RateState κ}
    (h : Lts.Reach (step M succs) Fits (start roots) st) {s : κ} {preds : List (κ × Amounts)}
    (hpreds : ∀ p ∈ preds, (s, p.2) ∈ succs p.1) :
    validateRate (preds.filterMap (fun p => (st.val p.1).map (fun r => (r, p.2)))) = true := by
  obtain ⟨bound, degree, hR, hI⟩ := exists_rules hV hacyc hroots hcons
  obtain ⟨acts, hrun, hmeets⟩ := h
  have hst := Worklist.run_inv hR (fun _ _ hs hf => step_eq hs hf) hI hrun hmeets
  have hrated : ∀ q ∈ preds.filterMap (fun p => (st.val p.1).map (fun r => (r, p.2))),
      ∃ k, Good ratio bound k q.1 ∧ ratio s = ratio k * q.2.produce / q.2.consume := by
    intro q hq
    obtain ⟨p, hp, hsome⟩ := List.mem_filterMap.mp hq
    obtain ⟨r, hr, rfl⟩ := Option.map_eq_some_iff.mp hsome
    exact ⟨p.1, (hst.places _ _ hr).2, hcons.edges p.1 _ (hpreds p hp)⟩
  exact validateRate_of_good hrated

end

/-- **Rate propagation.** For every acyclic graph and positive rates of its roots that are
consistent: as long as no product of the loop exceeds 64 bits, there is a bound on the number of its
steps, whatever the order in which names are taken; it never gets stuck before it ends and its
divisions leave no remainder; and when it ends, every node that can be reached from a root has a rate
that agrees exactly with those of its successors, whose intervals are multiples of what the edges
ask for. -/
theorem rates_propagate (M : BoostMath) (succs : κ → List (κ × Amounts)) (V : Finset κ)
    (roots : List (κ × Rate)) (ratio : κ → ℚ) (hV : ∀ k ∈ V, ∀ p ∈ succs k, p.1 ∈ V)
    (hacyc : ∀ k, ¬ Relation.TransGen (fun a b => ∃ e, (b, e) ∈ succs a) k k)
    (hroots : ∀ p ∈ roots, p.1 ∈ V ∧ 0 < p.2.y ∧ 0 < p.2.x)
    (hcons : Consistent succs roots ratio) :
    (∃ bound, ∀ acts st, Lts.run (step M succs) (start roots) acts = some st →
      Lts.Meets (step M succs) Fits (start roots) acts → acts.length ≤ bound) ∧
    ∀ st, Lts.Reach (step M succs) Fits (start roots) st →
      (¬ st.Done → ∃ act, (step M succs st act).isSome = true) ∧
      (Fits st .next → Exact M st) ∧
      (st.Done → ∀ p ∈ roots, ∀ k,
        Relation.ReflTransGen (fun a b => ∃ e, (b, e) ∈ succs a) p.1 k →
        ∃ r, st.val k = some r ∧ ∀ q ∈ succs k, ∃ t, st.val q.1 = some t ∧
          t.x * q.2.consume * r.y = t.y * q.2.produce * r.x ∧
          q.2.consume * r.y / Nat.gcd (q.2.produce * r.x) q.2.consume ∣ t.y) := by
  obtain ⟨bound, degree, hR, hI⟩ := exists_rules hV hacyc hroots hcons
  have hloop := fun st act (h : Worklist.Inv succs V (Good ratio bound) Settled st)
    (hf : Fits st act) => step_eq (M := M) h hf
  refine ⟨⟨(start roots).measure V degree (potential bound), fun acts st hrun hmeets => ?_⟩, ?_⟩
  · exact Worklist.run_length_le hR hloop hI hrun hmeets
  · rintro st ⟨acts, hrun, hmeets⟩
    have hst := Worklist.run_inv hR hloop hI hrun hmeets
    refine ⟨step_progress, fun hf => exact_next hst hf, fun hdone p hp k hk => ?_⟩
    obtain ⟨r₀, h₀⟩ := start_rated hp
    obtain ⟨r₁, h₁⟩ := Worklist.run_val hR hloop hI hrun hmeets h₀
    obtain ⟨r, hr⟩ := hst.done_reached hdone h₁ hk
    refine ⟨r, hr, fun q hq => ?_⟩
    obtain ⟨t, ht, hset⟩ := hst.done hdone hr hq
    exact ⟨t, ht, (hst.places k r hr).2.agree (hst.places _ t ht).2 (hcons.edges k q hq), hset⟩

/-- `boost::math` as far as the numbers fit. -/
def natMath : BoostMath where
  gcd := Nat.gcd
  lcm a b := Nat.lcm a b % 2 ^ 64
  gcd_eq _ _ _ _ := rfl
  lcm_eq _ _ _ _ h := Nat.mod_eq_of_lt h

/-- Three nodes: an edge that consumes two for one, one that consumes three for one, and an edge
past them that consumes six for one. -/
def bypass : Nat → List (Nat × Amounts)
  | 0 => [(2, ⟨1, 6, by decide, by decide, by decide, by decide⟩),
      (1, ⟨1, 2, by decide, by decide, by decide, by decide⟩)]
  | 1 => [(2, ⟨1, 3, by decide, by decide, by decide, by decide⟩)]
  | _ => []

theorem bypass_upwards {a b : Nat} (h : ∃ e, (b, e) ∈ bypass a) : a < b := by
  obtain ⟨e, he⟩ := h
  match a with
  | 0 =>
    simp only [bypass, List.mem_cons, Prod.mk.injEq, List.not_mem_nil, or_false] at he
    omega
  | 1 =>
    simp only [bypass, List.mem_cons, Prod.mk.injEq, List.not_mem_nil, or_false] at he
    omega
  | a + 2 => cases he

theorem bypass_consistent : Consistent bypass [(0, ⟨5, 1⟩)]
    (fun k => if k = 0 then 1 / 5 else if k = 1 then 1 / 10 else 1 / 30) where
  roots p hp := by
    obtain rfl := List.mem_singleton.mp hp
    norm_num
  edges k p hp := by
    match k with
    | 0 =>
      simp only [bypass, List.mem_cons, List.not_mem_nil, or_false] at hp
      rcases hp with rfl | rfl <;> norm_num
    | 1 =>
      simp only [bypass, List.mem_cons, List.not_mem_nil, or_false] at hp
      subst hp
      norm_num
    | k + 2 => cases hp

/-- One arrival in 5 microseconds at the first node is one in 30 at the last. -/
theorem rates_propagate_bypass : ∃ st,
    Lts.Reach (step natMath bypass) Fits (start [(0, ⟨5, 1⟩)]) st ∧ st.Done ∧
    (∃ r, st.val 0 = some r ∧ ∀ q ∈ bypass 0, ∃ t, st.val q.1 = some t ∧
      t.x * q.2.consume * r.y = t.y * q.2.produce * r.x ∧
      q.2.consume * r.y / Nat.gcd (q.2.produce * r.x) q.2.consume ∣ t.y) ∧
    st.val 2 = some ⟨30, 1⟩ := by
  have hd : (Lts.drive (step natMath bypass) (fun s a => decide (Fits s a)) (start [(0, ⟨5, 1⟩)])
      [.take 0, .next, .next, .take 2, .take 1, .next]).map
        (fun s => (s.val 2, s.todo, s.left.length)) = some (some ⟨30, 1⟩, ∅, 0) := by
    decide +kernel
  obtain ⟨st, hreach, hst⟩ := Lts.reach_of_drive_map (P := Fits)
    (fun _ _ h => of_decide_eq_true h) hd
  obtain ⟨hval, hst⟩ := Prod.mk.inj hst
  obtain ⟨htodo, hleft⟩ := Prod.mk.inj hst
  have hdone : st.Done := ⟨List.length_eq_zero_iff.mp hleft, htodo⟩
  have hall := rates_propagate natMath bypass {0, 1, 2} [(0, ⟨5, 1⟩)] _ (by decide)
    (Weighted.acyclic_of_rank id (fun _ _ => bypass_upwards)) (by decide) bypass_consistent
  exact ⟨st, hreach, hdone, (hall.2 st hreach).2.2 hdone _ (List.mem_singleton.mpr rfl) 0 .refl, hval⟩

end Pgm.Rates
