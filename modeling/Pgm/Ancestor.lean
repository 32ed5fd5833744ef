import Pgm.Handles

/-!
# Ancestors

`pgm_is_ancestor` searches upwards from a node with a set of the nodes it has been at. In a graph
that successful calls have built it returns, and the ancestors of a node are the nodes from which
a chain of parents leads to it (`ancestor_iff_chain`). An explicit back edge makes nobody a parent.
-/

namespace Pgm.Tables

theorem Represents.closed {g : GraphRec} (h : Represents g) : Closed g where
  nodes := h.nodes
  edges := h.edges
  lists n hn e he := by
    have hlt : e < g.nrEdges := by
      rcases he with he | he
      · exact ((h.mem_ins hn).mp he).1
      · exact ((h.mem_outs hn).mp he).1
    obtain ⟨-, -, -, hp, hc⟩ := h.attrs e hlt
    exact ⟨hlt, hp, hc⟩

section

variable {g : GraphRec} {x y : Nat}

theorem Represents.joins_lt (h : Represents g) {ignore : Bool} (hj : g.Joins ignore x y) :
    x < g.nrNodes ∧ y < g.nrNodes := by
  obtain ⟨e, he, -, rfl, rfl⟩ := hj
  exact (h.attrs e he).2.2.2

theorem mem_parents (h : Represents g) (hy : y < g.nrNodes) :
    (x : Int) ∈ g.parents y ↔ g.Joins true x y := by
  unfold GraphRec.parents GraphRec.Joins
  simp only [mem_producers, Int.toNat_natCast, h.mem_ins hy, Bool.true_and, Int.natCast_inj]
  constructor
  · rintro ⟨e, ⟨he, hc⟩, hb, hp⟩
    exact ⟨e, he, hb, hp, hc⟩
  · rintro ⟨e, he, hb, hp, hc⟩
    exact ⟨e, ⟨he, hc⟩, hb, hp⟩

theorem path_of_search (h : Represents g) (hy : y < g.nrNodes) {z : Int}
    (hz : Relation.ReflTransGen (fun a b => b ∈ g.parents a) (y : Int) z) :
    ∃ x : Nat, z = x ∧ x < g.nrNodes ∧ Relation.ReflTransGen (g.Joins true) x y := by
  induction hz with
  | refl => exact ⟨y, rfl, hy, .refl⟩
  | tail _ hp ih =>
    obtain ⟨w, rfl, hw, hpath⟩ := ih
    obtain ⟨e, -, -, rfl⟩ := mem_producers.mp hp
    have hj := (mem_parents h hw).mp hp
    exact ⟨_, rfl, (h.joins_lt hj).1, hpath.head hj⟩

theorem search_of_path (h : Represents g) (hp : Relation.ReflTransGen (g.Joins true) x y) :
    Relation.ReflTransGen (fun a b => b ∈ g.parents a) (y : Int) (x : Int) := by
  induction hp with
  | refl => exact .refl
  | tail _ hj ih => exact .head ((mem_parents h (h.joins_lt hj).2).mpr hj) ih

end

/-! ## Parents -/

def ParentOf (l : Lib) (gr : Int) (x y : Nat) : Prop :=
  NodeExists l ⟨gr, x⟩ ∧ NodeExists l ⟨gr, y⟩ ∧ (pgmIsParent l ⟨gr, y⟩ ⟨gr, x⟩).val = .ok 1

section

variable {l s : Lib} {gr : Int} {x y : Nat}

theorem nodeExists_iff : NodeExists l ⟨gr, x⟩ ↔ x < (l.graphs gr.toNat).nrNodes := by
  simp [NodeExists]

/-- The parents of a node are the other nodes that an edge, but no back edge, comes from. -/
theorem parentOf_iff (h : Represents (l.graphs gr.toNat)) (hlive : Live l gr) :
    ParentOf l gr x y ↔ x ≠ y ∧ (l.graphs gr.toNat).Joins true x y := by
  unfold ParentOf
  by_cases hxy : x = y
  · subst hxy
    obtain ⟨⟨r, hr, rfl⟩, -⟩ : (pgmIsParent l ⟨gr, x⟩ ⟨gr, x⟩).Fine (fun r => r = 0) :=
      onPair_self hlive
    refine iff_of_false (fun hpar => ?_) (fun hj => hj.1 rfl)
    cases hr.symm.trans hpar.2.2
  have hval : NodeExists l ⟨gr, x⟩ → NodeExists l ⟨gr, y⟩ → (pgmIsParent l ⟨gr, y⟩ ⟨gr, x⟩).Fine
      (fun r => r = if (x : Int) ∈ (l.graphs gr.toNat).parents y then 1 else 0) :=
    fun hx hy => onPair_fine h.closed hlive rfl (fun he => hxy (Int.ofNat.inj he).symm) hy hx
      (parentLoop_fine h.closed _ (h.closed.within_ins hy))
  constructor
  · rintro ⟨hx, hy, hpar⟩
    obtain ⟨⟨r, hr, hres⟩, -⟩ := hval hx hy
    obtain rfl := Except.ok.inj (hr.symm.trans hpar)
    refine ⟨hxy, (mem_parents h (nodeExists_iff.mp hy)).mp ?_⟩
    by_contra hno
    rw [if_neg hno] at hres
    cases hres
  · rintro ⟨-, hj⟩
    obtain ⟨hx, hy⟩ := h.joins_lt hj
    obtain ⟨⟨r, hr, hres⟩, -⟩ := hval (nodeExists_iff.mpr hx) (nodeExists_iff.mpr hy)
    rw [if_pos ((mem_parents h hy).mpr hj)] at hres
    exact ⟨nodeExists_iff.mpr hx, nodeExists_iff.mpr hy, hres ▸ hr⟩

theorem chain_of_path (h : Represents (l.graphs gr.toNat)) (hlive : Live l gr)
    (hpath : Relation.ReflTransGen ((l.graphs gr.toNat).Joins true) x y) :
    Relation.ReflTransGen (ParentOf l gr) x y := by
  induction hpath with
  | refl => exact .refl
  | @tail u v _ hj ih =>
    by_cases huv : u = v
    · exact huv ▸ ih
    · exact ih.tail ((parentOf_iff h hlive).mpr ⟨huv, hj⟩)

theorem path_of_chain (h : Represents (l.graphs gr.toNat)) (hlive : Live l gr)
    (hchain : Relation.TransGen (ParentOf l gr) x y) :
    Relation.TransGen ((l.graphs gr.toNat).Joins true) x y := by
  induction hchain with
  | single hp => exact .single ((parentOf_iff h hlive).mp hp).2
  | tail _ hp ih => exact ih.tail ((parentOf_iff h hlive).mp hp).2

theorem chain_iff_path (h : Represents (l.graphs gr.toNat)) (hlive : Live l gr) (hne : x ≠ y) :
    Relation.TransGen (ParentOf l gr) x y ↔
      Relation.ReflTransGen ((l.graphs gr.toNat).Joins true) x y := by
  refine ⟨fun hchain => (path_of_chain h hlive hchain).to_reflTransGen, fun hpath => ?_⟩
  have hchain := chain_of_path h hlive hpath
  exact (Relation.reflTransGen_iff_eq_or_transGen.mp hchain).resolve_left (Ne.symm hne)

theorem pgmIsAncestor_fine (h : Represents (l.graphs gr.toNat)) (hlive : Live l gr)
    (hy : y < (l.graphs gr.toNat).nrNodes) (hx : x < (l.graphs gr.toNat).nrNodes) (hne : x ≠ y) :
    (pgmIsAncestor l ⟨gr, y⟩ ⟨gr, x⟩).Fine (fun r => (r = 0 ∨ r = 1) ∧
      (r = 1 ↔ Relation.TransGen (ParentOf l gr) x y)) := by
  refine onPair_fine h.closed hlive rfl (fun he => hne (Int.ofNat.inj he).symm)
    (nodeExists_iff.mpr hy) (nodeExists_iff.mpr hx) ?_
  refine (ancestor_fine h.closed _ (nodeExists_iff.mpr hy)).bind (fun found hfound => ?_)
  have hiff : found.1 = true ↔ Relation.TransGen (ParentOf l gr) x y := by
    rw [chain_iff_path h hlive hne, hfound]
    constructor
    · intro hsearch
      obtain ⟨x', hx', -, hpath⟩ := path_of_search h hy hsearch
      exact Int.ofNat.inj hx' ▸ hpath
    · exact search_of_path h
  refine Traced.fine_pure ?_
  rw [← hiff]
  cases found.1 <;> simp

end

/-- **Ancestry is the closure of parenthood.** In every graph that successful calls have built and
for every two of its nodes, `pgm_is_ancestor` returns: 1 if a chain of parents leads from the one to
the other and 0 if none does. `pgm_is_descendant` gives the same answer. The chains are the paths
along the edges that are no back edges. -/
theorem ancestor_iff_chain {l s : Lib} {gr : Int} (hl : NewGraph l gr) (hs : Built gr l s)
    {a b : Nat} (ha : a < (s.graphs gr.toNat).nrNodes) (hb : b < (s.graphs gr.toNat).nrNodes)
    (hne : a ≠ b) :
    (Relation.TransGen (ParentOf s gr) b a → (pgmIsAncestor s ⟨gr, a⟩ ⟨gr, b⟩).val = .ok 1) ∧
    (¬ Relation.TransGen (ParentOf s gr) b a → (pgmIsAncestor s ⟨gr, a⟩ ⟨gr, b⟩).val = .ok 0) ∧
    (pgmIsDescendant s ⟨gr, b⟩ ⟨gr, a⟩).val = (pgmIsAncestor s ⟨gr, a⟩ ⟨gr, b⟩).val ∧
    (Relation.TransGen (ParentOf s gr) b a ↔
      Relation.TransGen ((s.graphs gr.toNat).Joins true) b a) := by
  obtain ⟨calls, hrun, -⟩ := hs
  have hopen := run_new hl hrun
  have hlive := hopen.live
  obtain ⟨⟨r, hr, hcases, hiff⟩, -⟩ := pgmIsAncestor_fine hopen.table hlive ha hb (Ne.symm hne)
  refine ⟨fun hchain => ?_, fun hno => ?_, rfl, ?_⟩
  · exact hiff.mpr hchain ▸ hr
  · have hr0 : r = 0 := hcases.resolve_right (fun h1 => hno (hiff.mp h1))
    exact hr0 ▸ hr
  · rw [chain_iff_path hopen.table hlive (Ne.symm hne), Relation.reflTransGen_iff_eq_or_transGen]
    exact or_iff_right hne

/-- In the graph of two nodes whose second edge is a back edge the first node is an ancestor of the
second, and not the other way round. -/
theorem ancestor_iff_chain_loop : ∃ s, Built 0 newLib s ∧
    (pgmIsAncestor s ⟨0, 1⟩ ⟨0, 0⟩).val = .ok 1 ∧ (pgmIsAncestor s ⟨0, 0⟩ ⟨0, 1⟩).val = .ok 0 := by
  have hd : (Lts.drive (step 0) (fun _ _ => true) newLib loopCalls).map (fun s =>
      ((s.graphs 0).nrNodes, (s.graphs 0).nrEdges, (List.range 2).map (fun e =>
        (((s.graphs 0).edges e).producer, ((s.graphs 0).edges e).consumer,
          ((s.graphs 0).edges e).isBackedge)))) =
      some (2, 2, [(0, 1, false), (1, 0, true)]) := by decide +kernel
  obtain ⟨s, hs, hview⟩ := Lts.reach_of_drive_map (P := fun _ _ => True) (fun _ _ _ => trivial) hd
  simp only [List.range_succ, List.range_zero, List.nil_append, List.cons_append, List.map_cons,
    List.map_nil, Prod.mk.injEq, List.cons.injEq] at hview
  obtain ⟨hnodes, hedges, ⟨hp0, hc0, hb0⟩, ⟨hp1, hc1, hb1⟩, -⟩ := hview
  have hzero : 0 < (s.graphs 0).nrNodes := by omega
  have hone : 1 < (s.graphs 0).nrNodes := by omega
  obtain ⟨hyes, -, -, hpath⟩ := ancestor_iff_chain newLib_newGraph hs hone hzero (by decide)
  obtain ⟨-, hno, -, hback⟩ := ancestor_iff_chain newLib_newGraph hs hzero hone (by decide)
  have hjoin : (s.graphs 0).Joins true 0 1 := ⟨0, by omega, hb0, hp0, hc0⟩
  refine ⟨s, hs, hyes (hpath.mpr (.single hjoin)), hno (fun hchain => ?_)⟩
  -- the last edge of a path to node 0 would have to be the back edge
  obtain ⟨x, -, e, he, hb, -, hc⟩ := Relation.TransGen.tail'_iff.mp (hback.mp hchain)
  change e < (s.graphs 0).nrEdges at he
  change ((s.graphs 0).edges e).consumer = 0 at hc
  change (true && ((s.graphs 0).edges e).isBackedge) = false at hb
  obtain rfl | rfl : e = 0 ∨ e = 1 := by omega
  · omega
  · simp [hb1] at hb

end Pgm.Tables
