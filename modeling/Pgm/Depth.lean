import Mathlib.Data.Rat.Defs
import Mathlib.Algebra.Order.Ring.Rat
import Mathlib.Tactic.NormNum
import Pgm.Dag
import Pgm.Lib.Walk

/-!
# The longest path to a node

`pgm_get_max_depth` hands the edges that are no back edges to boost, with negated weights, and asks
from every node without such in-edges for the distance of the target. `bellman_ford_shortest_paths`
is a parameter; `ExactDistances` is what is assumed of it, in exact arithmetic.

* `mem_bgraph`: the three passes over the edge table are in step;
* `maxDepthLoop_least`: the loop finds the least of the distances;
* `pgmGetMaxDepth_isGreatest`: the result is the weight of a longest path from such a node.
-/

namespace Pgm.Tables

/-! ## `pgm_get_max_depth` -/

/-- `std::numeric_limits<double>::max()`. -/
def dblMax : ℚ := (2 ^ 53 - 1) * 2 ^ 971

abbrev BEdge : Type := (Nat × Nat) × ℚ

/-- `boost::bellman_ford_shortest_paths` without a root: from the number of vertices, the edges and
the distance map that it is given to the distance map that it leaves. -/
abbrev BellmanFord : Type := Nat → List BEdge → (Nat → ℚ) → Nat → ℚ

def GraphRec.nrForwardEdges (g : GraphRec) : Nat :=
  (List.range g.nrEdges).countP (fun i => !(g.edges i).isBackedge)

/-- A pass over the edges that skips back edges: `array[j++] = value(i)`. -/
def GraphRec.forwardPass {α : Type} (g : GraphRec) (value : Nat → α) : List α :=
  (List.range g.nrEdges).filterMap
    (fun i => if (g.edges i).isBackedge then none else some (value i))

def GraphRec.edgeArray (g : GraphRec) : List (Nat × Nat) :=
  g.forwardPass (fun i => ((g.edges i).producer, (g.edges i).consumer))

def GraphRec.maxWeights (g : GraphRec) (graph : Int) (wfunc : Option (EdgeHandle → ℚ)) : List ℚ :=
  match wfunc with
  | some w => g.forwardPass (fun i => -1 * w ⟨graph, i⟩)
  | none => List.replicate g.nrForwardEdges (-1)

def GraphRec.bgraph (g : GraphRec) (weights : List ℚ) : List BEdge :=
  (g.edgeArray.take g.nrForwardEdges).zip weights

def GraphRec.nrForwardIn (g : GraphRec) (i : Nat) : Nat :=
  (g.nodes i).ins.countP (fun e => !(g.edges e).isBackedge)

def startAt (i : Nat) : Nat → ℚ := Function.update (fun _ => dblMax) i 0

def maxDepthLoop (bellmanFord : BellmanFord) (g : GraphRec) (bgraph : List BEdge) (target : Nat) :
    List Nat → ℚ → ℚ
  | [], dist => dist
  | i :: is, dist =>
    if g.nrForwardIn i ≠ 0 then maxDepthLoop bellmanFord g bgraph target is dist
    else
      let d := bellmanFord g.nrNodes bgraph (startAt i)
      let adist := if d target > 0 then dblMax else d target
      maxDepthLoop bellmanFord g bgraph target is (min dist adist)

def pgmGetMaxDepth (bellmanFord : BellmanFord) (l : Lib) (target : NodeHandle)
    (wfunc : Option (EdgeHandle → ℚ)) : Except Stop ℚ :=
  match l.isValidGraph target.graph with
  | .error f => .error (.fault f)
  | .ok false => .ok (-1)
  | .ok true =>
    match pgmIsDag l target.graph true with
    | .error e => .error e
    | .ok isDag =>
      if isDag = 0 then .ok (-1)
      else if target.node < 0 then .ok (-1)
      else
        match l.graphAt target.graph with
        | .error f => .error (.fault f)
        | .ok g =>
          if target.node ≥ g.nrNodes then .ok (-1)
          else
            .ok (-1 * maxDepthLoop bellmanFord g (g.bgraph (g.maxWeights target.graph wfunc))
              target.node.toNat (List.range g.nrNodes) dblMax)

/-! ## The three passes -/

def weightOf (wfunc : Option (EdgeHandle → ℚ)) (graph : Int) (e : Nat) : ℚ :=
  match wfunc with
  | some w => w ⟨graph, e⟩
  | none => 1

def ForwardEdge (as : List Arc) (weight : Nat → ℚ) (x y : Nat) (w : ℚ) : Prop :=
  ∃ e a, as[e]? = some a ∧ a.back = false ∧ a.producer = x ∧ a.consumer = y ∧ weight e = w

section

variable {g : GraphRec} {gr : Int} {wfunc : Option (EdgeHandle → ℚ)}

theorem mem_forwardPass {α : Type} {value : Nat → α} {v : α} : v ∈ g.forwardPass value ↔
    ∃ i < g.nrEdges, (g.edges i).isBackedge = false ∧ value i = v := by
  simp only [GraphRec.forwardPass, List.mem_filterMap, List.mem_range]
  constructor
  · rintro ⟨i, hi, hv⟩
    split at hv
    · cases hv
    · rename_i hb
      exact ⟨i, hi, by simpa using hb, Option.some.inj hv⟩
  · rintro ⟨i, hi, hb, rfl⟩
    exact ⟨i, hi, by simp [hb]⟩

theorem forwardPass_length {α : Type} (value : Nat → α) :
    (g.forwardPass value).length = g.nrForwardEdges := by
  unfold GraphRec.forwardPass GraphRec.nrForwardEdges
  induction List.range g.nrEdges with
  | nil => rfl
  | cons i is ih =>
    cases hb : (g.edges i).isBackedge with
    | true => simpa [hb] using ih
    | false => simpa [hb] using ih

/-- Two passes are in step. -/
theorem zip_forwardPass {α β : Type} (f : Nat → α) (h : Nat → β) :
    (g.forwardPass f).zip (g.forwardPass h) = g.forwardPass (fun i => (f i, h i)) := by
  unfold GraphRec.forwardPass
  induction List.range g.nrEdges with
  | nil => rfl
  | cons i is ih =>
    cases hb : (g.edges i).isBackedge with
    | true => simpa [hb] using ih
    | false => simpa [hb] using ih

theorem forwardPass_const {α : Type} (v : α) :
    g.forwardPass (fun _ => v) = List.replicate g.nrForwardEdges v := by
  rw [← forwardPass_length (g := g) (fun _ => v), List.eq_replicate_iff]
  refine ⟨rfl, fun u hu => ?_⟩
  obtain ⟨i, -, -, rfl⟩ := mem_forwardPass.mp hu
  rfl

theorem maxWeights_eq : g.maxWeights gr wfunc = g.forwardPass (fun i => -weightOf wfunc gr i) := by
  cases wfunc with
  | some w => simp only [GraphRec.maxWeights, weightOf, neg_one_mul]
  | none => exact (forwardPass_const (-1)).symm

theorem getElem?_arcs {e : Nat} {a : Arc} :
    g.arcs[e]? = some a ↔ e < g.nrEdges ∧ (g.edges e).arc = a := by
  unfold GraphRec.arcs
  rw [List.getElem?_map, Option.map_eq_some_iff]
  constructor
  · rintro ⟨i, hi, rfl⟩
    obtain ⟨hlt, rfl⟩ := List.getElem?_eq_some_iff.mp hi
    simpa using hlt
  · rintro ⟨he, rfl⟩
    exact ⟨e, List.getElem?_range he, rfl⟩

/-- Every weight is applied to its own edge. -/
theorem mem_bgraph_forwardPass {value : Nat → ℚ} {x y : Nat} {v : ℚ} :
    ((x, y), v) ∈ g.bgraph (g.forwardPass value) ↔ ForwardEdge g.arcs value x y v := by
  have hzip : g.bgraph (g.forwardPass value) = g.forwardPass
      (fun i => (((g.edges i).producer, (g.edges i).consumer), value i)) := by
    unfold GraphRec.bgraph GraphRec.edgeArray
    rw [List.take_of_length_le (forwardPass_length _).le, zip_forwardPass]
  rw [hzip, mem_forwardPass]
  constructor
  · rintro ⟨i, hi, hb, he⟩
    obtain ⟨hxy, rfl⟩ := Prod.mk.inj he
    obtain ⟨rfl, rfl⟩ := Prod.mk.inj hxy
    exact ⟨i, _, getElem?_arcs.mpr ⟨hi, rfl⟩, hb, rfl, rfl, rfl⟩
  · rintro ⟨e, a, ha, hb, hp, hc, rfl⟩
    obtain ⟨he, rfl⟩ := getElem?_arcs.mp ha
    exact ⟨e, he, hb, congrArg (·, value e) (Prod.ext hp hc)⟩

theorem mem_bgraph {x y : Nat} {v : ℚ} : ((x, y), v) ∈ g.bgraph (g.maxWeights gr wfunc) ↔
    ForwardEdge g.arcs (weightOf wfunc gr) x y (-v) := by
  rw [maxWeights_eq, mem_bgraph_forwardPass]
  unfold ForwardEdge
  simp only [neg_eq_iff_eq_neg]

/-- The nodes that a search begins at are those that no forward edge leads to. -/
theorem nrForwardIn_eq_zero (h : Represents g) {i : Nat} (hi : i < g.nrNodes)
    (weight : Nat → ℚ) : g.nrForwardIn i = 0 ↔
      ∀ x, ¬ Weighted.Step (ForwardEdge g.arcs weight) x i := by
  unfold GraphRec.nrForwardIn
  rw [List.countP_eq_zero]
  constructor
  · rintro hno x ⟨w, e, a, ha, hb, -, hc, -⟩
    obtain ⟨he, rfl⟩ := getElem?_arcs.mp ha
    have hfwd : (g.edges e).isBackedge = false := hb
    exact hno e ((h.mem_ins hi).mpr ⟨he, hc⟩) (by simp [hfwd])
  · intro hno e he hb
    obtain ⟨hlt, hc⟩ := (h.mem_ins hi).mp he
    have hfwd : (g.edges e).isBackedge = false := by simpa using hb
    exact hno (g.edges e).producer
      ⟨weight e, e, _, getElem?_arcs.mpr ⟨hlt, rfl⟩, hfwd, rfl, hc, rfl⟩

/-! ## The loop -/

/-- The distance of the target in the search from `i`, as the loop takes it. -/
def adist (bellmanFord : BellmanFord) (g : GraphRec) (bgraph : List BEdge) (target i : Nat) : ℚ :=
  if bellmanFord g.nrNodes bgraph (startAt i) target > 0 then dblMax
  else bellmanFord g.nrNodes bgraph (startAt i) target

/-- A loop that takes the minimum over all `i` with `p i` finds the least value. -/
theorem loop_least {loop : List Nat → ℚ → ℚ} {p : Nat → Prop} {value : Nat → ℚ}
    (hnil : ∀ dist, loop [] dist = dist)
    (hskip : ∀ i is dist, ¬ p i → loop (i :: is) dist = loop is dist)
    (htake : ∀ i is dist, p i → loop (i :: is) dist = loop is (min dist (value i)))
    {is : List Nat} (dist : ℚ) : loop is dist ≤ dist ∧ (∀ i ∈ is, p i → loop is dist ≤ value i) ∧
      (loop is dist = dist ∨ ∃ i ∈ is, p i ∧ loop is dist = value i) := by
  induction is generalizing dist with
  | nil => exact ⟨(hnil dist).le, by simp, Or.inl (hnil dist)⟩
  | cons i is ih =>
    by_cases hin : p i
    · obtain ⟨hdist, hall, hmem⟩ := ih (min dist (value i))
      rw [htake i is dist hin]
      refine ⟨hdist.trans (min_le_left _ _), List.forall_mem_cons.mpr ⟨fun _ => ?_, hall⟩, ?_⟩
      · exact hdist.trans (min_le_right _ _)
      · rcases hmem with hmin | ⟨j, hj, hjin, he⟩
        · rcases min_choice dist (value i) with hleft | hright
          · exact Or.inl (hmin.trans hleft)
          · exact Or.inr ⟨i, List.mem_cons_self, hin, hmin.trans hright⟩
        · exact Or.inr ⟨j, List.mem_cons_of_mem i hj, hjin, he⟩
    · obtain ⟨hdist, hall, hmem⟩ := ih dist
      rw [hskip i is dist hin]
      refine ⟨hdist, List.forall_mem_cons.mpr ⟨fun h0 => absurd h0 hin, hall⟩, ?_⟩
      rcases hmem with heq | ⟨j, hj, hjin, he⟩
      · exact Or.inl heq
      · exact Or.inr ⟨j, List.mem_cons_of_mem i hj, hjin, he⟩

theorem maxDepthLoop_least {bf : BellmanFord} {es : List BEdge} {target : Nat} {is : List Nat}
    (dist : ℚ) : maxDepthLoop bf g es target is dist ≤ dist ∧
      (∀ i ∈ is, g.nrForwardIn i = 0 → maxDepthLoop bf g es target is dist ≤ adist bf g es target i) ∧
      (maxDepthLoop bf g es target is dist = dist ∨
        ∃ i ∈ is, g.nrForwardIn i = 0 ∧
          maxDepthLoop bf g es target is dist = adist bf g es target i) := by
  refine loop_least (fun _ => rfl) (fun i is dist hin => ?_) (fun i is dist hin => ?_) dist
  · rw [maxDepthLoop, if_pos hin]
  · rw [maxDepthLoop, if_neg (not_not.mpr hin)]
    rfl

end

/-! ## Longest paths -/

/-- What is assumed of `bellman_ford_shortest_paths` on a graph with `n` vertices: in a search from
`src` it leaves the least weight of a walk where there is one, and the largest number where no walk
leads. -/
def ExactDistances (bellmanFord : BellmanFord) (n : Nat) (es : List BEdge) : Prop :=
  ∀ src < n, ∀ v < n,
    (∀ x, IsLeast {w | Weighted.Walk (fun a b x => ((a, b), x) ∈ es) src v w} x →
      bellmanFord n es (startAt src) v = x) ∧
    ((∀ w, ¬ Weighted.Walk (fun a b x => ((a, b), x) ∈ es) src v w) →
      bellmanFord n es (startAt src) v = dblMax)

theorem dblMax_pos : 0 < dblMax := by
  unfold dblMax
  norm_num

section

variable {g : GraphRec} {gr : Int} {wfunc : Option (EdgeHandle → ℚ)} {bf : BellmanFord}

/-- The walks of the boost graph are those along the forward edges, negated. -/
theorem walk_bgraph {a b : Nat} {w : ℚ} :
    Weighted.Walk (fun a b x => ((a, b), x) ∈ g.bgraph (g.maxWeights gr wfunc)) a b w ↔
      Weighted.Walk (ForwardEdge g.arcs (weightOf wfunc gr)) a b (-w) := by
  have hE : (fun a b x => ((a, b), x) ∈ g.bgraph (g.maxWeights gr wfunc)) =
      fun a b x => ForwardEdge g.arcs (weightOf wfunc gr) a b (-x) := by
    funext a b x
    exact propext mem_bgraph
  rw [hE]
  exact Weighted.walk_neg_iff

theorem weightOf_nonneg (hw : ∀ w, wfunc = some w → ∀ e, 0 ≤ w e) (e : Nat) :
    0 ≤ weightOf wfunc gr e := by
  cases wfunc with
  | some w => exact hw w rfl _
  | none => exact zero_le_one

theorem step_forward {as : List Arc} {weight : Nat → ℚ} {x y : Nat} :
    Weighted.Step (ForwardEdge as weight) x y ↔ y ∈ targets true as x := by
  rw [mem_targets]
  constructor
  · rintro ⟨w, e, a, ha, hb, hp, hc, -⟩
    exact ⟨a, List.mem_of_getElem? ha, by simpa using hb, hp, hc⟩
  · rintro ⟨a, ha, hb, hp, hc⟩
    obtain ⟨e, he⟩ := List.mem_iff_getElem?.mp ha
    exact ⟨weight e, e, a, he, by simpa using hb, hp, hc, rfl⟩

theorem edges_finite (es : List BEdge) (c : Nat) :
    {p : Nat × ℚ | ((p.1, c), p.2) ∈ es}.Finite := by
  refine (List.finite_toSet (es.map (fun e => (e.1.1, e.2)))).subset (fun p hp => ?_)
  exact List.mem_map.mpr ⟨_, hp, rfl⟩

theorem forward_nonneg (hw : ∀ w, wfunc = some w → ∀ e, 0 ≤ w e) {as : List Arc} {a b : Nat}
    {w : ℚ} (h : Weighted.Walk (ForwardEdge as (weightOf wfunc gr)) a b w) : 0 ≤ w := by
  refine h.nonneg ?_
  rintro a b v ⟨e, -, -, -, -, -, rfl⟩
  exact weightOf_nonneg hw e

/-- The walks from the nodes without forward in-edges. -/
def SourceWalk (as : List Arc) (weight : Nat → ℚ) (n t : Nat) (w : ℚ) : Prop :=
  ∃ src < n, (∀ x, ¬ Weighted.Step (ForwardEdge as weight) x src) ∧
    Weighted.Walk (ForwardEdge as weight) src t w

section

variable (h : Represents g)
  (hacyc : ∀ n, ¬ Relation.TransGen (fun a b => b ∈ targets true g.arcs a) n n)
  (hw : ∀ w, wfunc = some w → ∀ e, 0 ≤ w e)
  (hbf : ExactDistances bf g.nrNodes (g.bgraph (g.maxWeights gr wfunc))) {i t : Nat}
  (hi : i < g.nrNodes) (ht : t < g.nrNodes)

include h in
theorem walk_start_lt {weight : Nat → ℚ} {a : Nat} {w : ℚ}
    (hwalk : Weighted.Walk (ForwardEdge g.arcs weight) a t w) (ht : t < g.nrNodes) :
    a < g.nrNodes := by
  induction hwalk with
  | nil => exact ht
  | snoc _ hx ih => exact ih (h.targets_lt (step_forward.mp ⟨_, hx⟩)).1

include h hacyc in
/-- Without cycles, the forward edges can be followed backwards only finitely often. -/
theorem forward_wellFounded (weight : Nat → ℚ) :
    WellFounded (Weighted.Step (ForwardEdge g.arcs weight)) := by
  have hstep : Weighted.Step (ForwardEdge g.arcs weight) = fun a b => b ∈ targets true g.arcs a := by
    funext a b
    exact propext step_forward
  rw [hstep]
  exact Weighted.wellFounded_of_acyclic (V := Finset.range g.nrNodes)
    (fun a b hab => Finset.mem_range.mpr (h.targets_lt hab).1) hacyc

include h hacyc in
theorem bgraph_wellFounded : WellFounded (Weighted.Step
    (fun a b x => ((a, b), x) ∈ g.bgraph (g.maxWeights gr wfunc))) := by
  refine Subrelation.wf (fun {a b} hab => ?_) (forward_wellFounded h hacyc (weightOf wfunc gr))
  obtain ⟨x, hx⟩ := hab
  exact ⟨-x, mem_bgraph.mp hx⟩

include h hacyc hw hbf hi ht in
/-- A search that reaches the target finds the negated weight of a longest walk. -/
theorem adist_reached {w : ℚ}
    (hwalk : Weighted.Walk (ForwardEdge g.arcs (weightOf wfunc gr)) i t w) :
    IsGreatest {w | Weighted.Walk (ForwardEdge g.arcs (weightOf wfunc gr)) i t w}
      (-adist bf g (g.bgraph (g.maxWeights gr wfunc)) t i) := by
  have hstart : Weighted.Walk (fun a b x => ((a, b), x) ∈ g.bgraph (g.maxWeights gr wfunc)) i t
      (-w) := walk_bgraph.mpr (by rwa [neg_neg])
  obtain ⟨x, hx, hle⟩ := Weighted.exists_least (bgraph_wellFounded h hacyc) (edges_finite _) hstart
  have hx' := walk_bgraph.mp hx
  have hadist : adist bf g (g.bgraph (g.maxWeights gr wfunc)) t i = x := by
    unfold adist
    rw [(hbf i hi t ht).1 x ⟨hx, hle⟩,
      if_neg (not_lt.mpr (neg_nonneg.mp (forward_nonneg hw hx')))]
  rw [hadist]
  refine ⟨hx', fun v hv => ?_⟩
  have hxv : x ≤ -v := hle (walk_bgraph.mpr (by rw [neg_neg]; exact hv))
  exact le_neg_of_le_neg hxv

include hbf hi ht in
/-- A search that does not reach the target finds the largest number. -/
theorem adist_unreached
    (hno : ∀ w, ¬ Weighted.Walk (ForwardEdge g.arcs (weightOf wfunc gr)) i t w) :
    adist bf g (g.bgraph (g.maxWeights gr wfunc)) t i = dblMax := by
  unfold adist
  rw [(hbf i hi t ht).2 (fun w hwalk => hno _ (walk_bgraph.mp hwalk)), if_pos dblMax_pos]

include h hacyc hw hbf ht in
/-- The loop gives the negated weight of a longest walk. -/
theorem maxDepthLoop_isGreatest :
    IsGreatest {w | SourceWalk g.arcs (weightOf wfunc gr) g.nrNodes t w}
      (-1 * maxDepthLoop bf g (g.bgraph (g.maxWeights gr wfunc)) t (List.range g.nrNodes)
        dblMax) := by
  obtain ⟨-, hall, hmem⟩ : _ ∧ _ ∧ _ := maxDepthLoop_least dblMax
  rw [neg_one_mul]
  generalize maxDepthLoop bf g (g.bgraph (g.maxWeights gr wfunc)) t (List.range g.nrNodes) dblMax = r
    at hall hmem ⊢
  -- some search reaches the target, so the loop finds less than the largest number
  have hr : r < dblMax := by
    obtain ⟨src, w, hsrc, hwalk⟩ :=
      Weighted.exists_source (forward_wellFounded h hacyc (weightOf wfunc gr)) t
    have hlt := walk_start_lt h hwalk ht
    have hle := hall src (List.mem_range.mpr hlt) ((nrForwardIn_eq_zero h hlt _).mpr hsrc)
    have hpos := forward_nonneg hw (adist_reached h hacyc hw hbf hlt ht hwalk).1
    exact lt_of_le_of_lt (hle.trans (neg_nonneg.mp hpos)) dblMax_pos
  obtain ⟨j, hj, hsrc, rfl⟩ := hmem.resolve_left hr.ne
  have hj := List.mem_range.mp hj
  obtain ⟨w, hwalk⟩ : ∃ w, Weighted.Walk (ForwardEdge g.arcs (weightOf wfunc gr)) j t w := by
    by_contra hno
    exact hr.ne (adist_unreached hbf hj ht (fun w hwalk => hno ⟨w, hwalk⟩))
  refine ⟨⟨j, hj, (nrForwardIn_eq_zero h hj _).mp hsrc,
    (adist_reached h hacyc hw hbf hj ht hwalk).1⟩, ?_⟩
  rintro v ⟨src, hlt, hsrc', hv⟩
  have hle := hall src (List.mem_range.mpr hlt) ((nrForwardIn_eq_zero h hlt _).mpr hsrc')
  exact ((adist_reached h hacyc hw hbf hlt ht hv).2 hv).trans (neg_le_neg hle)

end

end

/-- **The longest path from a source.** For a graph that successful calls have built with names that
are different in the bytes that are kept and with no cycle of forward edges, for every node of it
and every weight function without negative values (weight 1 without a function), in exact arithmetic
and if `bellman_ford_shortest_paths` finds exact distances: `pgm_get_max_depth` returns the largest
sum of weights of a walk along forward edges to the node, from a node that no forward edge leads
to. -/
theorem pgmGetMaxDepth_isGreatest {bellmanFord : BellmanFord} {l s : Lib} {gr : Int}
    {calls : List Call} {wfunc : Option (EdgeHandle → ℚ)} {t : Nat} (hl : NewGraph l gr)
    (hr : Lts.run (step gr) l calls = some s)
    (hnodup : ((nodeNames calls).map CStr.stored).Nodup)
    (hacyc : ∀ n, ¬ Relation.TransGen (fun a b => b ∈ targets true (arcs calls) a) n n)
    (ht : t < (nodeNames calls).length) (hw : ∀ w, wfunc = some w → ∀ e, 0 ≤ w e)
    (hbf : ExactDistances bellmanFord (nodeNames calls).length
      ((s.graphs gr.toNat).bgraph ((s.graphs gr.toNat).maxWeights gr wfunc))) :
    ∃ depth, pgmGetMaxDepth bellmanFord s ⟨gr, t⟩ wfunc = .ok depth ∧
      IsGreatest {w | SourceWalk (arcs calls) (weightOf wfunc gr) (nodeNames calls).length t w}
        depth ∧
      ((∀ x, t ∉ targets true (arcs calls) x) → depth = 0) := by
  obtain ⟨hopen, hN, harcs⟩ := run_graph hl hr
  have hgreatest := maxDepthLoop_isGreatest hopen.table (harcs ▸ hacyc) hw (hN ▸ hbf) (hN ▸ ht)
  rw [harcs, hN] at hgreatest
  obtain ⟨v, hv, -, hone⟩ := pgmIsDag_distinct hl hr hnodup true
  obtain rfl := hone.mpr hacyc
  refine ⟨_, ?_, hgreatest, ?_⟩
  · unfold pgmGetMaxDepth
    simp only [hopen.live.isValidGraph, hopen.live.graphAt, hv]
    rw [if_neg (by decide), if_neg (by omega), if_neg (by omega), hN]
    rfl
  · intro hno
    obtain ⟨src, -, -, hwalk⟩ := hgreatest.1
    rcases hwalk.cases_last with h0 | ⟨c, w', x, -, hx, -⟩
    · exact h0
    · exact absurd (step_forward.mp ⟨x, hx⟩) (hno c)

/-- The relaxation of one edge; nothing is added to the largest number. -/
def relax (d : Nat → ℚ) (e : BEdge) : Nat → ℚ :=
  if d e.1.1 = dblMax then d else Function.update d e.1.2 (min (d e.1.2) (d e.1.1 + e.2))

/-- The rounds of the Bellman–Ford algorithm, from the map that it is given. -/
def relaxRounds (es : List BEdge) (d : Nat → ℚ) : Nat → Nat → ℚ
  | 0 => d
  | n + 1 => relaxRounds es (es.foldl relax d) n

theorem walk_single {v : ℚ} {a b : Nat} {w : ℚ} :
    Weighted.Walk (fun a b x => ((a, b), x) ∈ [((0, 1), v)]) a b w ↔
      a = b ∧ w = 0 ∨ a = 0 ∧ b = 1 ∧ w = v := by
  constructor
  · intro h
    induction h with
    | nil => exact Or.inl ⟨rfl, rfl⟩
    | snoc _ hx ih =>
      obtain ⟨⟨rfl, rfl⟩, rfl⟩ : (_ ∧ _) ∧ _ := by simpa using hx
      rcases ih with ⟨rfl, rfl⟩ | ⟨-, h1, -⟩
      · exact Or.inr ⟨rfl, rfl, zero_add _⟩
      · exact absurd h1 (by decide)
  · rintro (⟨rfl, rfl⟩ | ⟨rfl, rfl, rfl⟩)
    · exact .nil
    · have h := Weighted.Walk.snoc (E := fun a b x => ((a, b), x) ∈ [((0, 1), w)])
        (.nil (a := 0)) (List.mem_singleton.mpr rfl)
      rwa [zero_add] at h

theorem exact_single {v : ℚ} {d : Nat → Nat → ℚ} (hd : ∀ a < 2, ∀ b < 2,
      d a b = if a = b then 0 else if a = 0 then v else dblMax) {a b : Nat} (ha : a < 2) (hb : b < 2) :
    (∀ x, IsLeast {w | Weighted.Walk (fun a b x => ((a, b), x) ∈ [((0, 1), v)]) a b w} x →
      d a b = x) ∧
    ((∀ w, ¬ Weighted.Walk (fun a b x => ((a, b), x) ∈ [((0, 1), v)]) a b w) →
      d a b = dblMax) := by
  simp only [walk_single, hd a ha b hb]
  refine ⟨fun x hx => ?_, fun hno => ?_⟩
  · rcases hx.1 with ⟨rfl, rfl⟩ | ⟨rfl, rfl, rfl⟩
    · exact if_pos rfl
    · rfl
  · rw [if_neg (fun h => hno 0 (Or.inl ⟨h, rfl⟩)), if_neg ?_]
    rintro rfl
    have hb0 : b ≠ 0 := fun h => hno 0 (Or.inl ⟨h.symm, rfl⟩)
    exact hno v (Or.inr ⟨rfl, by omega, rfl⟩)

theorem exactDistances_single :
    ExactDistances (fun n es d => relaxRounds es d n) 2 [((0, 1), -1)] := by
  have hvalue : ∀ a < 2, ∀ b < 2, relaxRounds [((0, 1), -1)] (startAt a) 2 b =
      if a = b then 0 else if a = 0 then -1 else dblMax := by
    decide +kernel
  exact fun a ha b hb => exact_single hvalue ha hb

/-- The graph of two nodes whose second edge is a back edge: the second node is one edge deep. -/
theorem pgmGetMaxDepth_isGreatest_loop : ∃ s, Lts.run (step 0) newLib loopCalls = some s ∧
    pgmGetMaxDepth (fun n es d => relaxRounds es d n) s ⟨0, 1⟩ none = .ok 1 ∧
      IsGreatest {w | SourceWalk (arcs loopCalls) (weightOf none 0) 2 1 w} 1 := by
  have hd : (Lts.run (step 0) newLib loopCalls).map
      (fun s => ((s.graphs 0).bgraph ((s.graphs 0).maxWeights 0 none),
        pgmGetMaxDepth (fun n es d => relaxRounds es d n) s ⟨0, 1⟩ none)) =
        some ([((0, 1), -1)], .ok 1) := by
    decide +kernel
  obtain ⟨s, hs, hes⟩ := Option.map_eq_some_iff.mp hd
  obtain ⟨hes, hone⟩ := Prod.mk.inj hes
  obtain ⟨depth, hdepth, hgreatest, -⟩ := pgmGetMaxDepth_isGreatest newLib_newGraph hs (by decide)
    (acyclic_of_upwards (by decide)) (by decide : 1 < 2) (by rintro w ⟨⟩)
    (hes ▸ exactDistances_single)
  obtain rfl := Except.ok.inj (hone.symm.trans hdepth)
  exact ⟨s, hs, hone, hgreatest⟩

end Pgm.Tables
