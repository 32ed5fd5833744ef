import Pgm.Depth

/-!
# The shortest path to a node

`pgm_get_min_depth` differs from `pgm_get_max_depth` in that the weights are not negated and that
`dijkstra_shortest_paths` does the search. `ExactShortest` is what is assumed of it, in exact
arithmetic; `pgmGetMinDepth_isLeast` says that the result is the weight of a shortest path from a
node that no forward edge leads to.
-/

namespace Pgm.Tables

/-! ## `pgm_get_min_depth` -/

/-- `boost::dijkstra_shortest_paths`: from the number of vertices, the edges and the source to the
distance map, whose values are doubles. -/
abbrev Dijkstra : Type := Nat → List BEdge → Nat → Nat → {x : ℚ // x ≤ dblMax}

def GraphRec.minWeights (g : GraphRec) (graph : Int) (wfunc : Option (EdgeHandle → ℚ)) : List ℚ :=
  match wfunc with
  | some w => g.forwardPass (fun i => w ⟨graph, i⟩)
  | none => List.replicate g.nrForwardEdges 1

def minDepthLoop (dijkstra : Dijkstra) (g : GraphRec) (bgraph : List BEdge) (target : Nat) :
    List Nat → ℚ → ℚ
  | [], dist => dist
  | i :: is, dist =>
    if g.nrForwardIn i ≠ 0 then minDepthLoop dijkstra g bgraph target is dist
    else
      let d : ℚ := dijkstra g.nrNodes bgraph i target
      let adist := if d < 0 then dblMax else d
      minDepthLoop dijkstra g bgraph target is (min dist adist)

def pgmGetMinDepth (dijkstra : Dijkstra) (l : Lib) (target : NodeHandle)
    (wfunc : Option (EdgeHandle → ℚ)) : Except Stop ℚ :=
  match l.isValidGraph target.graph with
  | .error f => .error (.fault f)
  | .ok false => .ok (-1)
  | .ok true =>
    match pgmIsDag l target.graph true with
    | .error e => .error e
    | .ok isDag =>
      if isDag = 0 then .ok (-1)
      else if target.node < 0 then .ok (-1)
      else
        match l.graphAt target.graph with
        | .error f => .error (.fault f)
        | .ok g =>
          if target.node ≥ g.nrNodes then .ok (-1)
          else
            .ok (minDepthLoop dijkstra g (g.bgraph (g.minWeights target.graph wfunc))
              target.node.toNat (List.range g.nrNodes) dblMax)

/-! ## Shortest paths -/

/-- What is assumed of `dijkstra_shortest_paths` on a graph with `n` vertices: in a search from
`src` it leaves the least weight of a walk where there is one, and the largest number where no walk
leads. -/
def ExactShortest (dijkstra : Dijkstra) (n : Nat) (es : List BEdge) : Prop :=
  ∀ src < n, ∀ v < n,
    (∀ x, IsLeast {w | Weighted.Walk (fun a b x => ((a, b), x) ∈ es) src v w} x →
      dijkstra n es src v = x) ∧
    ((∀ w, ¬ Weighted.Walk (fun a b x => ((a, b), x) ∈ es) src v w) →
      (dijkstra n es src v : ℚ) = dblMax)

/-- The distance of the target in the search from `i`, as the loop takes it. -/
def minAdist (dijkstra : Dijkstra) (g : GraphRec) (bgraph : List BEdge) (target i : Nat) : ℚ :=
  if (dijkstra g.nrNodes bgraph i target : ℚ) < 0 then dblMax else dijkstra g.nrNodes bgraph i target

section

variable {g : GraphRec} {gr : Int} {wfunc : Option (EdgeHandle → ℚ)} {dj : Dijkstra}

theorem minWeights_eq : g.minWeights gr wfunc = g.forwardPass (weightOf wfunc gr) := by
  cases wfunc with
  | some w => rfl
  | none => exact (forwardPass_const 1).symm

/-- The walks of the boost graph are those along the forward edges. -/
theorem walk_minWeights {a b : Nat} {w : ℚ} :
    Weighted.Walk (fun a b x => ((a, b), x) ∈ g.bgraph (g.minWeights gr wfunc)) a b w ↔
      Weighted.Walk (ForwardEdge g.arcs (weightOf wfunc gr)) a b w := by
  have hE : (fun a b x => ((a, b), x) ∈ g.bgraph (g.minWeights gr wfunc)) =
      ForwardEdge g.arcs (weightOf wfunc gr) := by
    funext a b x
    rw [minWeights_eq]
    exact propext mem_bgraph_forwardPass
  rw [hE]

theorem minDepthLoop_least {es : List BEdge} {target : Nat} {is : List Nat} (dist : ℚ) :
    minDepthLoop dj g es target is dist ≤ dist ∧
      (∀ i ∈ is, g.nrForwardIn i = 0 →
        minDepthLoop dj g es target is dist ≤ minAdist dj g es target i) ∧
      (minDepthLoop dj g es target is dist = dist ∨ ∃ i ∈ is, g.nrForwardIn i = 0 ∧
        minDepthLoop dj g es target is dist = minAdist dj g es target i) := by
  refine loop_least (fun _ => rfl) (fun i is dist hin => ?_) (fun i is dist hin => ?_) dist
  · rw [minDepthLoop, if_pos hin]
  · rw [minDepthLoop, if_neg (not_not.mpr hin)]
    rfl

section

variable (h : Represents g)
  (hacyc : ∀ n, ¬ Relation.TransGen (fun a b => b ∈ targets true g.arcs a) n n)
  (hw : ∀ w, wfunc = some w → ∀ e, 0 ≤ w e)
  (hdj : ExactShortest dj g.nrNodes (g.bgraph (g.minWeights gr wfunc))) {i t : Nat}
  (hi : i < g.nrNodes) (ht : t < g.nrNodes)

include h hacyc hw hdj hi ht in
/-- A search that reaches the target finds the weight of a shortest walk. -/
theorem minAdist_reached {w : ℚ}
    (hwalk : Weighted.Walk (ForwardEdge g.arcs (weightOf wfunc gr)) i t w) :
    IsLeast {w | Weighted.Walk (ForwardEdge g.arcs (weightOf wfunc gr)) i t w}
      (minAdist dj g (g.bgraph (g.minWeights gr wfunc)) t i) ∧
    minAdist dj g (g.bgraph (g.minWeights gr wfunc)) t i ≤ dblMax := by
  have hfin : ∀ c, {p : Nat × ℚ | ForwardEdge g.arcs (weightOf wfunc gr) p.1 c p.2}.Finite := by
    intro c
    refine (edges_finite (g.bgraph (g.minWeights gr wfunc)) c).subset (fun p hp => ?_)
    change _ ∈ g.bgraph (g.minWeights gr wfunc)
    rw [minWeights_eq]
    exact mem_bgraph_forwardPass.mpr hp
  obtain ⟨x, hx, hle⟩ :=
    Weighted.exists_least (forward_wellFounded h hacyc (weightOf wfunc gr)) hfin hwalk
  have hleast : (dj g.nrNodes (g.bgraph (g.minWeights gr wfunc)) i t : ℚ) = x := by
    refine (hdj i hi t ht).1 x ?_
    simp only [walk_minWeights]
    exact ⟨hx, hle⟩
  have hadist : minAdist dj g (g.bgraph (g.minWeights gr wfunc)) t i = x := by
    rw [minAdist, hleast, if_neg (not_lt.mpr (forward_nonneg hw hx))]
  rw [hadist]
  refine ⟨⟨hx, hle⟩, ?_⟩
  rw [← hleast]
  exact (dj g.nrNodes _ i t).2

include hdj hi ht in
/-- A search that does not reach the target finds the largest number. -/
theorem minAdist_unreached
    (hno : ∀ w, ¬ Weighted.Walk (ForwardEdge g.arcs (weightOf wfunc gr)) i t w) :
    minAdist dj g (g.bgraph (g.minWeights gr wfunc)) t i = dblMax := by
  have hmax := (hdj i hi t ht).2 (fun w hwalk => hno w (walk_minWeights.mp hwalk))
  rw [minAdist, hmax, if_neg (not_lt.mpr dblMax_pos.le)]

include h hacyc hw hdj ht in
/-- The loop gives the weight of a shortest walk. -/
theorem minDepthLoop_isLeast :
    IsLeast {w | SourceWalk g.arcs (weightOf wfunc gr) g.nrNodes t w}
      (minDepthLoop dj g (g.bgraph (g.minWeights gr wfunc)) t (List.range g.nrNodes) dblMax) := by
  obtain ⟨hmax, hall, hmem⟩ : _ ∧ _ ∧ _ := minDepthLoop_least dblMax
  generalize minDepthLoop dj g (g.bgraph (g.minWeights gr wfunc)) t (List.range g.nrNodes) dblMax = r
    at hmax hall hmem ⊢
  have hbelow : ∀ src < g.nrNodes,
      (∀ x, ¬ Weighted.Step (ForwardEdge g.arcs (weightOf wfunc gr)) x src) →
      r ≤ minAdist dj g (g.bgraph (g.minWeights gr wfunc)) t src :=
    fun src hlt hsrc => hall src (List.mem_range.mpr hlt) ((nrForwardIn_eq_zero h hlt _).mpr hsrc)
  constructor
  · -- the result is a distance in a search that reaches the target
    obtain ⟨src, w, hsrc, hwalk⟩ :=
      Weighted.exists_source (forward_wellFounded h hacyc (weightOf wfunc gr)) t
    have hlt := walk_start_lt h hwalk ht
    obtain ⟨hleast, hfits⟩ := minAdist_reached h hacyc hw hdj hlt ht hwalk
    by_cases hr : r = dblMax
    · have heq : r = minAdist dj g (g.bgraph (g.minWeights gr wfunc)) t src :=
        le_antisymm (hbelow src hlt hsrc) (hfits.trans hr.ge)
      exact ⟨src, hlt, hsrc, heq ▸ hleast.1⟩
    · obtain ⟨j, hj, hin, rfl⟩ := hmem.resolve_left hr
      have hj := List.mem_range.mp hj
      obtain ⟨v, hv⟩ : ∃ v, Weighted.Walk (ForwardEdge g.arcs (weightOf wfunc gr)) j t v := by
        by_contra hno
        exact hr (minAdist_unreached hdj hj ht (fun v hv => hno ⟨v, hv⟩))
      exact ⟨j, hj, (nrForwardIn_eq_zero h hj _).mp hin,
        (minAdist_reached h hacyc hw hdj hj ht hv).1.1⟩
  · rintro v ⟨src, hlt, hsrc, hv⟩
    exact (hbelow src hlt hsrc).trans ((minAdist_reached h hacyc hw hdj hlt ht hv).1.2 hv)

end

end

/-- **The shortest path from a source.** For a graph that successful calls have built with names
that are different in the bytes that are kept and with no cycle of forward edges, for every node of
it and every weight function without negative values (weight 1 without a function), in exact
arithmetic and if `dijkstra_shortest_paths` finds exact distances: `pgm_get_min_depth` returns the
least sum of weights of a walk along forward edges to the node, from a node that no forward edge
leads to. The result is a number that a double can hold. -/
theorem pgmGetMinDepth_isLeast {dijkstra : Dijkstra} {l s : Lib} {gr : Int}
    {calls : List Call} {wfunc : Option (EdgeHandle → ℚ)} {t : Nat} (hl : NewGraph l gr)
    (hr : Lts.run (step gr) l calls = some s)
    (hnodup : ((nodeNames calls).map CStr.stored).Nodup)
    (hacyc : ∀ n, ¬ Relation.TransGen (fun a b => b ∈ targets true (arcs calls) a) n n)
    (ht : t < (nodeNames calls).length) (hw : ∀ w, wfunc = some w → ∀ e, 0 ≤ w e)
    (hdj : ExactShortest dijkstra (nodeNames calls).length
      ((s.graphs gr.toNat).bgraph ((s.graphs gr.toNat).minWeights gr wfunc))) :
    ∃ depth, pgmGetMinDepth dijkstra s ⟨gr, t⟩ wfunc = .ok depth ∧
      IsLeast {w | SourceWalk (arcs calls) (weightOf wfunc gr) (nodeNames calls).length t w} depth ∧
      0 ≤ depth ∧ depth ≤ dblMax := by
  obtain ⟨hopen, hN, harcs⟩ := run_graph hl hr
  have hleast := minDepthLoop_isLeast hopen.table (harcs ▸ hacyc) hw (hN ▸ hdj) (hN ▸ ht)
  rw [harcs, hN] at hleast
  obtain ⟨v, hv, -, hone⟩ := pgmIsDag_distinct hl hr hnodup true
  obtain rfl := hone.mpr hacyc
  refine ⟨_, ?_, hleast, ?_, ?_⟩
  · unfold pgmGetMinDepth
    simp only [hopen.live.isValidGraph, hopen.live.graphAt, hv]
    rw [if_neg (by decide), if_neg (by omega), if_neg (by omega), hN]
    rfl
  · obtain ⟨src, -, -, hwalk⟩ := hleast.1
    exact forward_nonneg hw hwalk
  · exact (minDepthLoop_least dblMax).1

/-- The relaxation rounds from one node, as a distance map of doubles. -/
def relaxFrom : Dijkstra :=
  fun n es src v => ⟨min (relaxRounds es (startAt src) n v) dblMax, min_le_right _ _⟩

theorem exactShortest_single : ExactShortest relaxFrom 2 [((0, 1), 1)] := by
  have hvalue : ∀ a < 2, ∀ b < 2, (relaxFrom 2 [((0, 1), 1)] a b : ℚ) =
      if a = b then 0 else if a = 0 then 1 else dblMax := by
    decide +kernel
  exact fun a ha b hb => exact_single hvalue ha hb

/-- The graph of two nodes whose second edge is a back edge: the second node is one edge deep. -/
theorem pgmGetMinDepth_isLeast_loop : ∃ s, Lts.run (step 0) newLib loopCalls = some s ∧
    pgmGetMinDepth relaxFrom s ⟨0, 1⟩ none = .ok 1 ∧
      IsLeast {w | SourceWalk (arcs loopCalls) (weightOf none 0) 2 1 w} 1 := by
  have hd : (Lts.run (step 0) newLib loopCalls).map
      (fun s => ((s.graphs 0).bgraph ((s.graphs 0).minWeights 0 none),
        pgmGetMinDepth relaxFrom s ⟨0, 1⟩ none)) = some ([((0, 1), 1)], .ok 1) := by
    decide +kernel
  obtain ⟨s, hs, hes⟩ := Option.map_eq_some_iff.mp hd
  obtain ⟨hes, hone⟩ := Prod.mk.inj hes
  obtain ⟨depth, hdepth, hleast, -⟩ := pgmGetMinDepth_isLeast newLib_newGraph hs (by decide)
    (acyclic_of_upwards (by decide)) (by decide : 1 < 2) (by rintro w ⟨⟩)
    (hes ▸ exactShortest_single)
  obtain rfl := Except.ok.inj (hone.symm.trans hdepth)
  exact ⟨s, hs, hone, hleast⟩

end Pgm.Tables
