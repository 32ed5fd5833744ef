import Pgm.Find
import Pgm.Query

/-!
# Which handles are validated

The entry points that take node handles check the graph of a handle, up to and including the
index one past the table, and leave the node to the caller. `handles_validated_iff` says for each
of them which handles it can cope with.

* `Closed`: the lists of a graph's nodes hold only its edges, and its edges join its nodes; every
  call keeps it, also one that fails;
* `onNode_fine_iff`, `onPair_fine_iff`, `traceInitEdge_fine_iff`: the checks that the entry points
  share.
-/

namespace Pgm.Tables

/-! ## `pgm_init_edge` with its accesses -/

/-- The part of `__pgm_init_edge` under the lock. -/
def GraphRec.traceAddEdge (g : GraphRec) (pathSet : Bool) (env : Env) (producer consumer : Int)
    (x : EdgeArgs) : Query (Option Nat × GraphRec) :=
  if g.nrEdges + 1 = maxEdges then pure (none, g)
  else if (g.nrNodes : Int) ≤ producer ∨ (g.nrNodes : Int) ≤ consumer then pure (none, g)
  else do
    let edge := g.nrEdges
    let g := { g with nrEdges := edge + 1 }
    -- the record of the edge is only written
    let _ ← Query.index ⟨.edges, edge, g.nrEdges⟩ (.ok ())
    let np ← g.indexNode producer
    if np.outs.length + 1 = maxDegree then pure (none, g)
    else do
      let nc ← g.indexNode consumer
      if nc.ins.length + 1 = maxDegree then pure (none, g)
      else pure (g.finishEdge pathSet env edge producer.toNat consumer.toNat x)

/-- The part of `__pgm_init_edge` from the checks of the other arguments on. -/
def traceLink (l : Lib) (env : Env) (producer consumer : NodeHandle) (x : EdgeArgs) :
    Query (Option EdgeHandle × Lib) :=
  if !l.isGraphMaster then pure (none, l)
  else if strnlen x.name nameLen ≤ 0 ∨ strnlen x.name nameLen > nameLen then pure (none, l)
  else if !x.attr.check then pure (none, l)
  else do
    let g ← l.index producer.graph
    let r ← g.traceAddEdge l.pathSet env producer.node consumer.node x
    pure (r.1.map (fun (i : Nat) => ⟨producer.graph, i⟩), l.setGraph producer.graph.toNat r.2)

/-- `__pgm_init_edge`, with its accesses. -/
def traceInitEdge (l : Lib) (env : Env) (dst : Bool) (producer consumer : NodeHandle)
    (x : EdgeArgs) : Query (Option EdgeHandle × Lib) :=
  if !dst then pure (none, l)
  else if producer.graph ≠ consumer.graph then pure (none, l)
  else do
    let valid ← l.validGraph producer.graph
    if !valid then pure (none, l) else traceLink l env producer consumer x

section

variable {l : Lib} {g : GraphRec} {α β : Type}

@[simp] theorem index_val (a : Access) (r : Except Fault α) :
    (Query.index a r).val = r.mapError .fault := rfl

@[simp] theorem index_log (a : Access) (r : Except Fault α) : (Query.index a r).log = [a] := rfl

theorem validGraph_val (l : Lib) (graph : Int) :
    (l.validGraph graph).val = (l.isValidGraph graph).mapError .fault := by
  unfold Lib.validGraph Lib.isValidGraph Lib.index
  split
  · rw [Traced.bind_val, index_val]
    cases l.graphAt graph <;> rfl
  · rfl

theorem traceAddEdge_val (pathSet : Bool) (env : Env) (p c : Int) (x : EdgeArgs) :
    (g.traceAddEdge pathSet env p c x).val = (g.addEdge pathSet env p c x).mapError .fault := by
  unfold GraphRec.traceAddEdge GraphRec.addEdge GraphRec.indexNode
  split
  · rfl
  · split
    · rfl
    · simp only [Traced.bind_val, index_val]
      change (Except.mapError Stop.fault (GraphRec.nodeAt { g with nrEdges := g.nrEdges + 1 } p)).bind _ = _
      cases GraphRec.nodeAt { g with nrEdges := g.nrEdges + 1 } p with
      | error f => rfl
      | ok np =>
        simp only [Except.mapError, Except.bind]
        split
        · rfl
        · simp only [Traced.bind_val, index_val]
          cases GraphRec.nodeAt { g with nrEdges := g.nrEdges + 1 } c with
          | error f => rfl
          | ok nc =>
            simp only [Except.mapError, Except.bind]
            split <;> rfl

theorem traceInitEdge_val (env : Env) (dst : Bool) (p c : NodeHandle) (x : EdgeArgs) :
    (traceInitEdge l env dst p c x).val = (initEdge l env dst p c x).mapError .fault := by
  unfold traceInitEdge initEdge
  split
  · rfl
  · split
    · rfl
    · rw [Traced.bind_val, validGraph_val]
      cases l.isValidGraph p.graph with
      | error f => rfl
      | ok b =>
        simp only [Except.mapError, Except.bind]
        cases b with
        | false => rfl
        | true =>
          simp only [Bool.not_true, Bool.false_eq_true, if_false, traceLink]
          split
          · rfl
          · split
            · rfl
            · split
              · rfl
              · rw [Traced.bind_val, Lib.index, index_val]
                cases l.graphAt p.graph with
                | error f => rfl
                | ok g =>
                  simp only [Except.mapError, Except.bind]
                  rw [Traced.bind_val, traceAddEdge_val]
                  cases g.addEdge l.pathSet env p.node c.node x <;> rfl

end

/-! ## Tables that lead only into each other -/

/-- The edges in the lists of the nodes are in the table, and join nodes that are. -/
structure Closed (g : GraphRec) : Prop where
  nodes : g.nrNodes < maxNodes
  edges : g.nrEdges < maxEdges
  lists : ∀ n < g.nrNodes, ∀ e, e ∈ (g.nodes n).ins ∨ e ∈ (g.nodes n).outs →
    e < g.nrEdges ∧ (g.edges e).producer < g.nrNodes ∧ (g.edges e).consumer < g.nrNodes

def Lib.Closed (l : Lib) : Prop := ∀ gr, (l.graphs gr).inUse = true → Tables.Closed (l.graphs gr)

/-- A call of `pgm_init_node`, `pgm_init_edge` or `pgm_init_backedge` on one of the graphs that
returns, with success or without. -/
def call (l : Lib) : Int × Call → Option Lib
  | (gr, .node name) =>
    match initNode l true gr name with
    | .ok (_, l') => some l'
    | .error _ => none
  | (gr, .edge env producer consumer x) =>
    match initEdge l env true ⟨gr, producer⟩ ⟨gr, consumer⟩ x with
    | .ok (_, l') => some l'
    | .error _ => none

section

variable {l l' : Lib} {g g' : GraphRec} {gr : Int}

theorem fresh_closed : Closed .fresh := ⟨by decide, by decide, fun n hn => by cases hn⟩

theorem Closed.addNode (h : Closed g) (name : CStr) : Closed (g.addNode name).2 := by
  unfold GraphRec.addNode
  split
  · exact h
  rename_i hroom
  have hnodes := h.nodes
  refine ⟨by change g.nrNodes + 1 < maxNodes; omega, h.edges, fun n hn e he => ?_⟩
  have hlt : n < g.nrNodes := by
    refine Nat.lt_of_le_of_ne (Nat.lt_succ_iff.mp hn) ?_
    -- the new node has no edges
    rintro rfl
    simp [GraphRec.setNode, NodeRec.zero] at he
  simp only [GraphRec.setNode, Function.update_of_ne hlt.ne] at he
  obtain ⟨h1, h2, h3⟩ := h.lists n hlt e he
  exact ⟨h1, Nat.lt_succ_of_lt h2, Nat.lt_succ_of_lt h3⟩

/-- What `__pgm_init_edge` leaves in the tables once both degrees have room. -/
theorem finishEdge_table (g : GraphRec) (pathSet : Bool) (env : Env) (i p c : Nat) (x : EdgeArgs) :
    ∃ r : EdgeRec, r.producer = p ∧ r.consumer = c ∧
      (g.finishEdge pathSet env i p c x).2 =
        (g.link i p c x.attr x.skips.isSome).setEdge i r := by
  unfold GraphRec.finishEdge
  simp only
  split
  · exact ⟨x.record p c, rfl, rfl, rfl⟩
  · split
    · exact ⟨x.record p c, rfl, rfl, rfl⟩
    · rename_i e hinit
      obtain ⟨-, hp, hc, -, -, -⟩ := init_same hinit
      exact ⟨e, hp, hc, setEdge_setEdge _ _ _ _⟩

theorem Closed.advance (h : Closed g) (hroom : g.nrEdges + 1 ≠ maxEdges) :
    Closed { g with nrEdges := g.nrEdges + 1 } := by
  have hedges := h.edges
  refine ⟨h.nodes, by change g.nrEdges + 1 < maxEdges; omega, fun n hn e he => ?_⟩
  obtain ⟨h1, h2⟩ := h.lists n hn e he
  exact ⟨Nat.lt_succ_of_lt h1, h2⟩

theorem Closed.link (h : Closed g) (hroom : g.nrEdges + 1 ≠ maxEdges) {p c : Nat}
    (hp : p < g.nrNodes) (hc : c < g.nrNodes) (a : Attr) (back : Bool) {r : EdgeRec}
    (hrp : r.producer = p) (hrc : r.consumer = c) :
    Closed (({ g with nrEdges := g.nrEdges + 1 }.link g.nrEdges p c a back).setEdge g.nrEdges r) := by
  have hadv := h.advance hroom
  refine ⟨hadv.nodes, hadv.edges, fun n hn e he => ?_⟩
  change e ∈ (({ g with nrEdges := g.nrEdges + 1 }.link g.nrEdges p c a back).nodes n).ins ∨
    e ∈ (({ g with nrEdges := g.nrEdges + 1 }.link g.nrEdges p c a back).nodes n).outs at he
  rw [link_nodes] at he
  have hold : e = g.nrEdges ∨ e ∈ (g.nodes n).ins ∨ e ∈ (g.nodes n).outs := by
    simp only [List.mem_append] at he
    rcases he with (he | he) | (he | he)
    · exact Or.inr (Or.inl he)
    · split at he
      · exact Or.inl (List.mem_singleton.mp he)
      · cases he
    · exact Or.inr (Or.inr he)
    · split at he
      · exact Or.inl (List.mem_singleton.mp he)
      · cases he
  simp only [GraphRec.setEdge]
  rcases hold with rfl | hold
  · rw [Function.update_self, hrp, hrc]
    exact ⟨Nat.lt_succ_self _, hp, hc⟩
  · obtain ⟨h1, h2⟩ := h.lists n hn e hold
    rw [Function.update_of_ne h1.ne]
    exact ⟨Nat.lt_succ_of_lt h1, h2⟩

theorem Closed.addEdge (h : Closed g) {pathSet : Bool} {env : Env} {p c : Int} {x : EdgeArgs}
    {ret : Option Nat} (ha : g.addEdge pathSet env p c x = .ok (ret, g')) : Closed g' := by
  rcases addEdge_cases ha with ⟨-, rfl⟩ | ⟨hroom, ⟨-, rfl⟩ | ⟨hp, hc, -, -, hfinish⟩⟩
  · exact h
  · exact h.advance hroom
  · obtain ⟨r, hrp, hrc, heq⟩ := finishEdge_table { g with nrEdges := g.nrEdges + 1 } pathSet env
      g.nrEdges p.toNat c.toNat x
    rw [hfinish] at heq
    change g' = _ at heq
    exact heq ▸ h.link hroom (by omega) (by omega) _ _ hrp hrc

theorem Lib.Closed.setGraph (h : l.Closed) {i : Nat} (hg : Tables.Closed g) :
    (l.setGraph i g).Closed := by
  intro gr huse
  simp only [Lib.setGraph] at huse ⊢
  by_cases hgr : gr = i
  · subst hgr
    rw [Function.update_self]
    exact hg
  · rw [Function.update_of_ne hgr] at huse ⊢
    exact h gr huse

theorem Lib.Closed.live (h : l.Closed) (hl : Live l gr) : Tables.Closed (l.graphs gr.toNat) :=
  h _ hl.inUse

theorem initNode_closed (h : l.Closed) {dst : Bool} {name : CStr} {ret : Option NodeHandle}
    (hi : initNode l dst gr name = .ok (ret, l')) : l'.Closed := by
  rcases initNode_cases hi with ⟨-, rfl⟩ | ⟨-, hvalid, -, rfl⟩
  · exact h
  · exact h.setGraph ((h.live (isValidGraph_true hvalid)).addNode name)

theorem initEdge_closed (h : l.Closed) {env : Env} {dst : Bool} {p c : NodeHandle} {x : EdgeArgs}
    {ret : Option EdgeHandle} (hi : initEdge l env dst p c x = .ok (ret, l')) : l'.Closed := by
  rcases initEdge_cases hi with ⟨-, rfl⟩ | ⟨-, -, hvalid, r, g', hadd, -, rfl⟩
  · exact h
  · exact h.setGraph ((h.live (isValidGraph_true hvalid)).addEdge hadd)

theorem call_closed (h : l.Closed) {a : Int × Call} (hs : call l a = some l') : l'.Closed := by
  obtain ⟨gr, c⟩ := a
  cases c with
  | node name =>
    simp only [call] at hs
    split at hs
    · rename_i hi
      obtain rfl := Option.some.inj hs
      exact initNode_closed h hi
    · cases hs
  | edge env p c x =>
    simp only [call] at hs
    split at hs
    · rename_i hi
      obtain rfl := Option.some.inj hs
      exact initEdge_closed h hi
    · cases hs

/-- The tables of a library whose graphs in use were new are closed after any calls. -/
theorem calls_closed {l₀ : Lib} (h₀ : ∀ gr, (l₀.graphs gr).inUse = true → l₀.graphs gr = .fresh)
    (hr : Lts.Reach call (fun _ _ => True) l₀ l) : l.Closed := by
  refine Lts.Reach.inv (I := Lib.Closed) ?_ (fun _ _ _ _ h _ hs => call_closed h hs) hr
  intro gr huse
  rw [h₀ gr huse]
  exact fresh_closed

end

/-! ## Accesses in range -/

/-- The query returns a value for which `Q` holds, and all its accesses are in range. -/
abbrev Query.Fine {α : Type} (m : Query α) (Q : α → Prop) : Prop := Traced.Fine Access.InRange m Q

section

variable {l : Lib} {g : GraphRec} {α β : Type} {gr : Int}

theorem index_fine {a : Access} (ha : a.InRange) (x : α) :
    (Query.index a (.ok x)).Fine (fun y => y = x) :=
  ⟨⟨x, rfl, rfl⟩, by simpa using ha⟩

theorem libIndex_fine (h : Live l gr) : (l.index gr).Fine (fun g => g = l.graphs gr.toNat) := by
  unfold Lib.index
  rw [h.graphAt]
  exact index_fine (a := ⟨.graphs, gr, maxGraphs⟩) h.valid _

theorem indexNode_fine (h : Closed g) {n : Int} (hn : 0 ≤ n ∧ n < g.nrNodes) :
    (g.indexNode n).Fine (fun r => r = g.nodes n.toNat) := by
  have hnodes := h.nodes
  unfold GraphRec.indexNode
  rw [nodeAt_eq g ⟨hn.1, by omega⟩]
  exact index_fine (a := ⟨.nodes, n, g.nrNodes⟩) hn _

theorem indexEdge_fine (h : Closed g) {e : Nat} (he : e < g.nrEdges) :
    (g.indexEdge e).Fine (fun r => r = g.edges e) := by
  have hedges := h.edges
  unfold GraphRec.indexEdge GraphRec.edgeAt
  rw [if_pos ⟨Int.natCast_nonneg e, by omega⟩, Int.toNat_natCast]
  exact index_fine (a := ⟨.edges, e, g.nrEdges⟩) ⟨Int.natCast_nonneg e, Int.ofNat_lt.mpr he⟩ _

theorem validGraph_fine (h : ¬ (l.mapped = true ∧ gr = maxGraphs)) :
    (l.validGraph gr).Fine (fun b => b = true ↔ Live l gr) := by
  unfold Lib.validGraph
  split
  · rename_i hc
    simp only [isValidHandle, Bool.and_eq_true, decide_eq_true_eq] at hc
    have hgr : 0 ≤ gr ∧ gr < maxGraphs := by
      refine ⟨hc.2.1, lt_of_le_of_ne hc.2.2 (fun he => h ⟨hc.1, he⟩)⟩
    have hidx : (l.index gr).Fine (fun g => g = l.graphs gr.toNat) := by
      unfold Lib.index Lib.graphAt
      rw [if_pos hgr]
      exact index_fine (a := ⟨.graphs, gr, maxGraphs⟩) hgr _
    refine hidx.bind (fun g hg => Traced.fine_pure ?_)
    subst hg
    exact ⟨fun hu => ⟨hc.1, hgr, hu⟩, fun hl => hl.inUse⟩
  · rename_i hc
    refine Traced.fine_pure (iff_of_false (by simp) (fun hl => hc ?_))
    simp [isValidHandle, hl.mapped, hl.valid.1, hl.valid.2.le]

/-- What comes after the test of a graph handle. -/
theorem validGraph_bind_fine {f : Bool → Query β} {Q : β → Prop} :
    ((l.validGraph gr) >>= f).Fine Q ↔ ¬ (l.mapped = true ∧ gr = maxGraphs) ∧
      (∀ b, (b = true ↔ Live l gr) → (f b).Fine Q) := by
  constructor
  · intro h
    have hne : ¬ (l.mapped = true ∧ gr = maxGraphs) := by
      rintro ⟨hm, rfl⟩
      have hlog : (⟨.graphs, maxGraphs, maxGraphs⟩ : Access) ∈ (l.validGraph maxGraphs).log := by
        unfold Lib.validGraph
        rw [if_pos (by simp [hm, isValidHandle])]
        exact Traced.log_subset_bind _ _ (by simp [Lib.index])
      obtain ⟨-, -, hgood, -⟩ := h.of_bind
      have := hgood _ hlog
      simp [Access.InRange] at this
    refine ⟨hne, fun b hb => ?_⟩
    obtain ⟨a, ha, -, hfine⟩ := h.of_bind
    obtain ⟨⟨a', ha', hiff⟩, -⟩ := validGraph_fine hne
    obtain rfl := Except.ok.inj (ha'.symm.trans ha)
    have heq : a' = b := Bool.eq_iff_iff.mpr (hiff.trans hb.symm)
    exact heq ▸ hfine
  · rintro ⟨hne, hf⟩
    exact (validGraph_fine hne).bind hf

theorem Query.Fine.node_exists {f : NodeRec → Query β} {Q : β → Prop} {n : Int}
    (h : ((g.indexNode n) >>= f).Fine Q) : 0 ≤ n ∧ n < g.nrNodes := by
  obtain ⟨-, -, hgood, -⟩ := h.of_bind
  exact hgood ⟨.nodes, n, g.nrNodes⟩ (by simp [GraphRec.indexNode])

/-! ## The loops -/

/-- The edges are in the table, and join nodes that are. -/
def Within (g : GraphRec) (es : List Nat) : Prop :=
  ∀ e ∈ es, e < g.nrEdges ∧ (g.edges e).producer < g.nrNodes ∧ (g.edges e).consumer < g.nrNodes

theorem Closed.within_ins (h : Closed g) {n : Int} (hn : 0 ≤ n ∧ n < g.nrNodes) :
    Within g (g.nodes n.toNat).ins :=
  fun e he => h.lists _ (by omega) e (Or.inl he)

theorem Closed.within_outs (h : Closed g) {n : Int} (hn : 0 ≤ n ∧ n < g.nrNodes) :
    Within g (g.nodes n.toNat).outs :=
  fun e he => h.lists _ (by omega) e (Or.inr he)

theorem Within.tail {e : Nat} {es : List Nat} (h : Within g (e :: es)) : Within g es :=
  fun e' he' => h e' (List.mem_cons_of_mem e he')

theorem indexNat_fine (h : Closed g) {n : Nat} (hn : n < g.nrNodes) :
    (g.indexNode n).Fine (fun r => r = g.nodes n) :=
  indexNode_fine h (n := n) ⟨Int.natCast_nonneg n, Int.ofNat_lt.mpr hn⟩

def GraphRec.excluded (g : GraphRec) (ignore : Bool) (e : Nat) : Bool :=
  ignore && (g.edges e).isBackedge

theorem skipEdge_fine (h : Closed g) {ignore : Bool} {e : Nat} (he : e < g.nrEdges) :
    (skipEdge g ignore e).Fine (fun b => b = g.excluded ignore e) := by
  unfold skipEdge
  split
  · rename_i hi
    refine (indexEdge_fine h he).bind (fun r hr => Traced.fine_pure ?_)
    rw [hr, GraphRec.excluded, hi, Bool.true_and]
  · rename_i hi
    rw [Bool.not_eq_true] at hi
    exact Traced.fine_pure (by rw [GraphRec.excluded, hi, Bool.false_and])

/-- The loop takes the edges that are not left out, and counts the others off. -/
theorem listLoop_fine (h : Closed g) {ignore : Bool} {item : Nat → Query α} {f : Nat → α}
    {es : List Nat} (hes : Within g es) (hitem : ∀ e ∈ es, (item e).Fine (fun x => x = f e))
    (num : Int) : (listLoop g ignore item es num).Fine (fun r =>
      r = (num - es.countP (g.excluded ignore), (es.filter (fun e => !g.excluded ignore e)).map f)) := by
  induction es generalizing num with
  | nil => exact Traced.fine_pure (by simp)
  | cons e es ih =>
    have hrest := ih hes.tail (fun e' he' => hitem e' (List.mem_cons_of_mem e he'))
    refine (skipEdge_fine h (hes e List.mem_cons_self).1).bind (fun skip hskip => ?_)
    split
    · rename_i hb
      rw [hb] at hskip
      refine (hrest (num - 1)).mono (fun r hr => hr.trans ?_)
      simp only [List.countP_cons, ← hskip, if_true, List.filter_cons, Bool.not_true,
        Bool.false_eq_true, if_false, Prod.mk.injEq, and_true]
      omega
    · rename_i hb
      rw [Bool.not_eq_true] at hb
      rw [hb] at hskip
      refine (hitem e List.mem_cons_self).bind (fun x hx => ?_)
      refine (hrest num).bind (fun rest hrest => Traced.fine_pure ?_)
      rw [hx, hrest]
      simp [← hskip]

theorem nodeItem_fine (h : Closed g) {other : EdgeRec → Nat} {e : Nat} (he : e < g.nrEdges)
    (hother : other (g.edges e) < g.nrNodes) (graph : Int) :
    (nodeItem other g graph e).Fine (fun x => x = ⟨graph, other (g.edges e)⟩) := by
  refine (indexEdge_fine h he).bind (fun r hr => ?_)
  subst hr
  exact (indexNat_fine h hother).bind (fun _ _ => Traced.fine_pure rfl)

theorem forwardCount_fine (h : Closed g) {es : List Nat} (hes : Within g es) (ret : Int) :
    (forwardCount g es ret).Fine (fun r => r = ret + es.countP (fun e => !g.excluded true e)) := by
  induction es generalizing ret with
  | nil => exact Traced.fine_pure (by simp)
  | cons e es ih =>
    refine (indexEdge_fine h (hes e List.mem_cons_self).1).bind (fun r hr => ?_)
    subst hr
    refine (ih hes.tail _).mono (fun n hn => hn.trans ?_)
    cases hb : (g.edges e).isBackedge with
    | true => simp [GraphRec.excluded, hb]
    | false =>
      simp only [GraphRec.excluded, hb, List.countP_cons, Bool.and_false, Bool.not_false, if_true,
        Bool.false_eq_true, if_false]
      omega

/-- The producers of the edges that are no back edges. -/
def GraphRec.producers (g : GraphRec) (es : List Nat) : List Int :=
  (es.filter (fun e => !(g.edges e).isBackedge)).map (fun e => ((g.edges e).producer : Int))

theorem producers_back {e : Nat} {es : List Nat} (h : (g.edges e).isBackedge = true) :
    g.producers (e :: es) = g.producers es := by
  simp [GraphRec.producers, h]

theorem producers_forward {e : Nat} {es : List Nat} (h : ¬ (g.edges e).isBackedge = true) :
    g.producers (e :: es) = ((g.edges e).producer : Int) :: g.producers es := by
  simp [GraphRec.producers, h]

theorem mem_producers {es : List Nat} {p : Int} : p ∈ g.producers es ↔
    ∃ e ∈ es, (g.edges e).isBackedge = false ∧ ((g.edges e).producer : Int) = p := by
  simp [GraphRec.producers, and_assoc]

/-- `pgm_is_parent` finds the producers of the edges that are no back edges. -/
theorem parentLoop_fine (h : Closed g) (query : Int) {es : List Nat} (hes : Within g es) :
    (parentLoop g query es).Fine (fun r => r = if query ∈ g.producers es then 1 else 0) := by
  induction es with
  | nil => exact Traced.fine_pure (by simp [GraphRec.producers])
  | cons e es ih =>
    obtain ⟨he, hp, -⟩ := hes e List.mem_cons_self
    refine (indexEdge_fine h he).bind (fun r hr => ?_)
    subst hr
    split
    · rename_i hb
      rw [producers_back hb]
      exact ih hes.tail
    · rename_i hb
      rw [producers_forward hb]
      refine (indexNat_fine h hp).bind (fun _ _ => ?_)
      split
      · rename_i hq
        exact Traced.fine_pure (by simp [hq])
      · rename_i hq
        simp only [List.mem_cons, hq, false_or]
        exact ih hes.tail

/-! ## The search for an ancestor -/

def GraphRec.parents (g : GraphRec) (n : Int) : List Int := g.producers (g.nodes n.toNat).ins

def GraphRec.indices (g : GraphRec) : Finset Int :=
  (Finset.range g.nrNodes).image (fun k : Nat => (k : Int))

theorem mem_indices {n : Int} : n ∈ g.indices ↔ 0 ≤ n ∧ n < g.nrNodes := by
  simp only [GraphRec.indices, Finset.mem_image, Finset.mem_range]
  constructor
  · rintro ⟨k, hk, rfl⟩
    exact ⟨Int.natCast_nonneg k, Int.ofNat_lt.mpr hk⟩
  · rintro ⟨h0, hn⟩
    exact ⟨n.toNat, by omega, Int.toNat_of_nonneg h0⟩

theorem Within.producers_mem {es : List Nat} (h : Within g es) {p : Int} (hp : p ∈ g.producers es) :
    0 ≤ p ∧ p < g.nrNodes := by
  obtain ⟨e, he, -, rfl⟩ := mem_producers.mp hp
  exact ⟨Int.natCast_nonneg _, Int.ofNat_lt.mpr (h e he).2.1⟩

theorem Closed.parents_mem (h : Closed g) {n p : Int} (hn : 0 ≤ n ∧ n < g.nrNodes)
    (hp : p ∈ g.parents n) : 0 ≤ p ∧ p < g.nrNodes :=
  (h.within_ins hn).producers_mem hp

theorem ancestorLoop_fine (h : Closed g)
    {rec : Int → NodeRec → Finset Int → Query (Bool × Finset Int)}
    {find : Int → Finset Int → Option (Bool × Finset Int)}
    (hrec : ∀ (p : Int) vis res, 0 ≤ p ∧ p < g.nrNodes → find p vis = some res →
      (rec p (g.nodes p.toNat) vis).Fine (fun r => r = res))
    {es : List Nat} (hes : Within g es) {vis : Finset Int} {res : Bool × Finset Int}
    (hres : Search.loop find (g.producers es) vis = some res) :
    (ancestorLoop g rec es vis).Fine (fun r => r = res) := by
  induction es generalizing vis with
  | nil => exact Traced.fine_pure (Option.some.inj hres)
  | cons e es ih =>
    obtain ⟨he, hp, -⟩ := hes e List.mem_cons_self
    refine (indexEdge_fine h he).bind (fun r hr => ?_)
    subst hr
    split
    · rename_i hb
      rw [producers_back hb] at hres
      exact ih hes.tail hres
    · rename_i hb
      rw [producers_forward hb, Search.loop] at hres
      split
      · rename_i hv
        rw [if_pos hv] at hres
        exact ih hes.tail hres
      · rename_i hv
        rw [if_neg hv] at hres
        refine (indexNat_fine h hp).bind (fun parent hparent => ?_)
        subst hparent
        have hin : 0 ≤ ((g.edges e).producer : Int) ∧ ((g.edges e).producer : Int) < g.nrNodes :=
          ⟨Int.natCast_nonneg _, Int.ofNat_lt.mpr hp⟩
        split at hres
        · cases hres
        · rename_i hfind
          refine (hrec _ _ _ hin hfind).bind (fun found hfound => ?_)
          subst hfound
          exact Traced.fine_pure (Option.some.inj hres)
        · rename_i hfind
          refine (hrec _ _ _ hin hfind).bind (fun found hfound => ?_)
          subst hfound
          exact ih hes.tail hres

theorem isAncestor_fine (h : Closed g) {query n : Int} {fuel : Nat} {vis : Finset Int}
    {res : Bool × Finset Int} (hn : 0 ≤ n ∧ n < g.nrNodes)
    (hres : Search.search g.parents query fuel n vis = some res) :
    (isAncestor g query fuel n (g.nodes n.toNat) vis).Fine (fun r => r = res) := by
  induction fuel generalizing n vis res with
  | zero => cases hres
  | succ fuel ih =>
    simp only [isAncestor]
    simp only [Search.search] at hres
    split at hres
    · rename_i hq
      rw [if_pos hq]
      exact Traced.fine_pure (Option.some.inj hres)
    · rename_i hq
      rw [if_neg hq]
      exact ancestorLoop_fine h (fun p v r hp hr => ih hp hr) (h.within_ins hn) hres

/-- `is_ancestor` returns, and finds the nodes that are reached through parents. -/
theorem ancestor_fine (h : Closed g) (query : Int) {n : Int} (hn : 0 ≤ n ∧ n < g.nrNodes) :
    (isAncestor g query (maxNodes + 1) n (g.nodes n.toNat) ∅).Fine (fun r => r.1 = true ↔
      Relation.ReflTransGen (fun a b => b ∈ g.parents a) n query) := by
  have hfuel : (g.indices \ ∅).card < maxNodes + 1 := by
    have hnodes := h.nodes
    have hcard : g.indices.card ≤ g.nrNodes :=
      Finset.card_image_le.trans (Finset.card_range _).le
    rw [Finset.sdiff_empty]
    omega
  have hnext : ∀ v ∈ g.indices, ∀ p ∈ g.parents v, p ∈ g.indices :=
    fun v hv p hp => mem_indices.mpr (h.parents_mem (mem_indices.mp hv) hp)
  obtain ⟨b, vis', hres, -⟩ : ∃ b vis',
      Search.search g.parents query (maxNodes + 1) n ∅ = some (b, vis') ∧ ∅ ⊆ vis' :=
    Search.search_isSome hnext (mem_indices.mpr hn) hfuel
  refine (isAncestor_fine h hn hres).mono (fun r hr => ?_)
  subst hr
  cases b with
  | true => exact iff_of_true rfl (Search.search_true hres)
  | false => exact iff_of_false Bool.false_ne_true (Search.not_reach_of_search hres)

end

/-! ## What the entry points check -/

def NodeExists (l : Lib) (node : NodeHandle) : Prop :=
  0 ≤ node.node ∧ node.node < (l.graphs node.graph.toNat).nrNodes

/-- The cases in which pgm.h says that the four relations return -1. -/
def Refused (l : Lib) (node query : NodeHandle) : Prop :=
  node.graph ≠ query.graph ∨ ¬ Live l node.graph ∨ ¬ NodeExists l node ∨ ¬ NodeExists l query

/-- The handles that a function of one node copes with. `is_valid_handle` lets the index after the
last graph pass, and nothing looks at the node. -/
def NodeGuard (l : Lib) (node : NodeHandle) : Prop :=
  l.mapped = true → node.graph ≠ maxGraphs ∧ (Live l node.graph → NodeExists l node)

def PairGuard (l : Lib) (node query : NodeHandle) : Prop :=
  node.graph = query.graph → l.mapped = true →
    node.graph ≠ maxGraphs ∧ (Live l node.graph → NodeExists l node ∧ NodeExists l query)

/-- The nodes that `__pgm_init_edge` copes with: it compares both with the number of nodes, and
neither with 0. The consumer is not looked at if the producer has no room for the edge. -/
def AddGuard (g : GraphRec) (producer consumer : Int) : Prop :=
  g.nrEdges + 1 ≠ maxEdges → producer < g.nrNodes → consumer < g.nrNodes →
    0 ≤ producer ∧ ((g.nodes producer.toNat).outs.length + 1 ≠ maxDegree → 0 ≤ consumer)

/-- The handles that `pgm_init_edge` copes with: the nodes matter once all other arguments have
passed. -/
def LinkGuard (l : Lib) (dst : Bool) (producer consumer : NodeHandle) (x : EdgeArgs) : Prop :=
  dst = true → producer.graph = consumer.graph → l.mapped = true →
    producer.graph ≠ maxGraphs ∧
      (Live l producer.graph → l.isGraphMaster = true → x.name.bytes ≠ [] → x.attr.check = true →
        AddGuard (l.graphs producer.graph.toNat) producer.node consumer.node)

section

variable {l : Lib} {g : GraphRec} {α β : Type}

theorem record_fine {node : NodeHandle} {f : GraphRec → NodeRec → Query α} {Q : α → Prop}
    (h : Closed (l.graphs node.graph.toNat)) (hlive : Live l node.graph) (hex : NodeExists l node)
    (hf : (f (l.graphs node.graph.toNat)
      ((l.graphs node.graph.toNat).nodes node.node.toNat)).Fine Q) :
    Query.Fine (do
      let g ← l.index node.graph
      let n ← g.indexNode node.node
      f g n) Q := by
  refine (libIndex_fine hlive).bind (fun g hg => ?_)
  subst hg
  refine (indexNode_fine h hex).bind (fun n hn => ?_)
  subst hn
  exact hf

theorem onNode_fine {bad : α} {node : NodeHandle} {f : GraphRec → NodeRec → Query α} {Q : α → Prop}
    (h : Closed (l.graphs node.graph.toNat)) (hlive : Live l node.graph) (hex : NodeExists l node)
    (hf : (f (l.graphs node.graph.toNat)
      ((l.graphs node.graph.toNat).nodes node.node.toNat)).Fine Q) :
    (onNode bad l node f).Fine Q := by
  unfold onNode
  rw [validGraph_bind_fine]
  refine ⟨fun hlast => absurd hlast.2 hlive.valid.2.ne, fun b hb => ?_⟩
  obtain rfl := hb.mpr hlive
  exact record_fine h hlive hex hf

theorem onNode_fine_iff {bad : α} {node : NodeHandle} {f : GraphRec → NodeRec → Query α}
    (hf : Live l node.graph → NodeExists l node →
      (f (l.graphs node.graph.toNat)
        ((l.graphs node.graph.toNat).nodes node.node.toNat)).Fine (fun _ => True))
    (h : l.Closed) : (onNode bad l node f).Fine (fun _ => True) ↔ NodeGuard l node := by
  unfold onNode NodeGuard
  rw [validGraph_bind_fine]
  constructor
  · rintro ⟨hne, hfine⟩ hm
    refine ⟨fun he => hne ⟨hm, he⟩, fun hlive => ?_⟩
    have hrun := hfine true (iff_of_true rfl hlive)
    obtain ⟨g, hg, -, hrun⟩ := Traced.Fine.of_bind hrun
    obtain ⟨⟨g', hg', rfl⟩, -⟩ := libIndex_fine hlive
    obtain rfl := Except.ok.inj (hg'.symm.trans hg)
    exact Query.Fine.node_exists hrun
  · intro hguard
    refine ⟨fun ⟨hm, he⟩ => (hguard hm).1 he, fun b hb => ?_⟩
    cases b with
    | false => exact Traced.fine_pure trivial
    | true =>
      have hlive := hb.mp rfl
      have hex := (hguard hlive.mapped).2 hlive
      exact record_fine (h.live hlive) hlive hex (hf hlive hex)

/-- Two different nodes that exist get past the checks. -/
theorem onPair_fine {node query : NodeHandle} {search : GraphRec → NodeRec → Query Int}
    {Q : Int → Prop} (h : Closed (l.graphs node.graph.toNat)) (hlive : Live l node.graph)
    (hgr : node.graph = query.graph) (hne : node.node ≠ query.node) (hnode : NodeExists l node)
    (hquery : NodeExists l query)
    (hsearch : (search (l.graphs node.graph.toNat)
      ((l.graphs node.graph.toNat).nodes node.node.toNat)).Fine Q) :
    (onPair l node query search).Fine Q := by
  unfold onPair
  rw [if_neg (not_not.mpr hgr), validGraph_bind_fine]
  refine ⟨fun hlast => absurd hlast.2 hlive.valid.2.ne, fun b hb => ?_⟩
  obtain rfl := hb.mpr hlive
  rw [if_neg (by simp), if_neg hne]
  refine (libIndex_fine hlive).bind (fun g hg => ?_)
  subst hg
  refine (indexNode_fine h hnode).bind (fun n hn => ?_)
  subst hn
  have hq : 0 ≤ query.node ∧ query.node < (l.graphs node.graph.toNat).nrNodes := hgr ▸ hquery
  exact (indexNode_fine h hq).bind (fun _ _ => hsearch)

/-- Two equal nodes are not related. -/
theorem onPair_self {node : NodeHandle} {search : GraphRec → NodeRec → Query Int}
    (hlive : Live l node.graph) : (onPair l node node search).Fine (fun r => r = 0) := by
  unfold onPair
  rw [if_neg (by simp), validGraph_bind_fine]
  refine ⟨fun hlast => absurd hlast.2 hlive.valid.2.ne, fun b hb => ?_⟩
  obtain rfl := hb.mpr hlive
  rw [if_neg (by simp), if_pos rfl]
  exact Traced.fine_pure rfl

/-- Nodes of different graphs, or of a graph that is not in use, are refused. -/
theorem onPair_refused {node query : NodeHandle} {search : GraphRec → NodeRec → Query Int}
    (h : node.graph = query.graph →
      ¬ Live l node.graph ∧ ¬ (l.mapped = true ∧ node.graph = maxGraphs)) :
    (onPair l node query search).Fine (fun r => r = -1) := by
  unfold onPair
  split
  · exact Traced.fine_pure rfl
  · rename_i hgr
    obtain ⟨hlive, hlast⟩ := h (not_not.mp hgr)
    rw [validGraph_bind_fine]
    refine ⟨hlast, fun b hb => ?_⟩
    obtain rfl : b = false := Bool.eq_false_iff.mpr (fun hbt => hlive (hb.mp hbt))
    exact Traced.fine_pure rfl

/-- Nodes of a graph in use that are treated as documented exist. -/
theorem onPair_exists {node query : NodeHandle} {search : GraphRec → NodeRec → Query Int}
    (hlive : Live l node.graph) (hgr : node.graph = query.graph)
    (h : (onPair l node query search).Fine (fun r => r = -1 ↔ Refused l node query)) :
    NodeExists l node ∧ NodeExists l query := by
  unfold onPair at h
  rw [if_neg (not_not.mpr hgr), validGraph_bind_fine] at h
  have hrun := h.2 true (iff_of_true rfl hlive)
  simp only [Bool.not_true, Bool.false_eq_true, if_false] at hrun
  split at hrun
  · -- two equal handles: the result is 0, so they are not refused
    obtain ⟨⟨r, hr, hiff⟩, -⟩ := hrun
    obtain rfl := Except.ok.inj hr
    by_contra hno
    have := hiff.mpr (Or.inr (Or.inr (not_and_or.mp hno)))
    omega
  · obtain ⟨g, hg, -, hrun⟩ := Traced.Fine.of_bind hrun
    obtain ⟨⟨g', hg', rfl⟩, -⟩ := libIndex_fine hlive
    obtain rfl := Except.ok.inj (hg'.symm.trans hg)
    obtain ⟨n, -, -, hquery⟩ := Traced.Fine.of_bind hrun
    have hq := Query.Fine.node_exists hquery
    rw [hgr] at hq
    exact ⟨Query.Fine.node_exists hrun, hq⟩

theorem onPair_last {node query : NodeHandle} {search : GraphRec → NodeRec → Query Int}
    {Q : Int → Prop} (hgr : node.graph = query.graph) (h : (onPair l node query search).Fine Q) :
    ¬ (l.mapped = true ∧ node.graph = maxGraphs) := by
  unfold onPair at h
  rw [if_neg (not_not.mpr hgr), validGraph_bind_fine] at h
  exact h.1

theorem not_refused {node query : NodeHandle} (hlive : Live l node.graph)
    (hgr : node.graph = query.graph) (hnode : NodeExists l node) (hquery : NodeExists l query) :
    ¬ Refused l node query := by
  rintro (h | h | h | h)
  · exact h hgr
  · exact h hlive
  · exact h hnode
  · exact h hquery

theorem onPair_fine_iff {node query : NodeHandle} {search : GraphRec → NodeRec → Query Int}
    (hsearch : Live l node.graph → NodeExists l node →
      (search (l.graphs node.graph.toNat)
        ((l.graphs node.graph.toNat).nodes node.node.toNat)).Fine (fun r => r ≠ -1))
    (h : l.Closed) : (onPair l node query search).Fine (fun r => r = -1 ↔ Refused l node query) ↔
      PairGuard l node query := by
  constructor
  · intro hfine hgr hm
    exact ⟨fun he => onPair_last hgr hfine ⟨hm, he⟩, fun hlive => onPair_exists hlive hgr hfine⟩
  · intro hguard
    by_cases hok : node.graph = query.graph ∧ Live l node.graph
    · obtain ⟨hgr, hlive⟩ := hok
      obtain ⟨hnode, hquery⟩ := (hguard hgr hlive.mapped).2 hlive
      have hnot := not_refused hlive hgr hnode hquery
      by_cases hne : node.node = query.node
      · obtain rfl : node = query := by
          cases node
          cases query
          exact congrArg₂ NodeHandle.mk hgr hne
        exact (onPair_self hlive).mono (fun r hr => iff_of_false (by omega) hnot)
      · exact (onPair_fine (h.live hlive) hlive hgr hne hnode hquery (hsearch hlive hnode)).mono
          (fun r hr => iff_of_false hr hnot)
    · have hrefused : Refused l node query := by
        rcases not_and_or.mp hok with hgr | hlive
        · exact Or.inl hgr
        · exact Or.inr (Or.inl hlive)
      refine (onPair_refused (fun hgr => ⟨fun hl => hok ⟨hgr, hl⟩, ?_⟩)).mono
        (fun r hr => iff_of_true hr hrefused)
      exact fun hlast => (hguard hgr hlast.1).1 hlast.2

theorem traceAddEdge_fine_iff {pathSet : Bool} {env : Env} {p c : Int} {x : EdgeArgs}
    (h : Closed g) :
    (g.traceAddEdge pathSet env p c x).Fine (fun _ => True) ↔ AddGuard g p c := by
  unfold GraphRec.traceAddEdge AddGuard
  split
  · rename_i hfull
    exact iff_of_true (Traced.fine_pure trivial) (fun hroom => absurd hfull hroom)
  rename_i hroom
  split
  · rename_i hlarge
    exact iff_of_true (Traced.fine_pure trivial) (fun _ hp hc => by omega)
  rename_i hsmall
  have hclosed := h.advance hroom
  constructor
  · rintro hfine - hp hc
    obtain ⟨-, -, -, hfine⟩ := Traced.Fine.of_bind hfine
    have hp0 := Query.Fine.node_exists hfine
    refine ⟨hp0.1, fun hdeg => ?_⟩
    obtain ⟨np, hnp, -, hfine⟩ := Traced.Fine.of_bind hfine
    obtain ⟨⟨np', hnp', rfl⟩, -⟩ := indexNode_fine hclosed hp0
    obtain rfl := Except.ok.inj (hnp'.symm.trans hnp)
    rw [if_neg hdeg] at hfine
    exact (Query.Fine.node_exists hfine).1
  · intro hguard
    obtain ⟨hp, hc⟩ := hguard hroom (by omega) (by omega)
    have hedge : (Query.index ⟨.edges, g.nrEdges, g.nrEdges + 1⟩ (.ok ())).Fine (fun _ => True) :=
      (index_fine (a := ⟨.edges, g.nrEdges, g.nrEdges + 1⟩)
        ⟨Int.natCast_nonneg _, Int.ofNat_lt.mpr (Nat.lt_succ_self _)⟩ ()).mono (fun _ _ => trivial)
    refine hedge.bind (fun _ _ => ?_)
    refine (indexNode_fine hclosed ⟨hp, by change p < g.nrNodes; omega⟩).bind (fun np hnp => ?_)
    subst hnp
    split
    · exact Traced.fine_pure trivial
    · rename_i hdeg
      have hin : 0 ≤ c ∧ c < g.nrNodes := ⟨hc hdeg, by omega⟩
      refine (indexNode_fine hclosed hin).bind (fun nc _ => ?_)
      split
      · exact Traced.fine_pure trivial
      · exact Traced.fine_pure trivial

theorem traceLink_fine_iff {env : Env} {p c : NodeHandle} {x : EdgeArgs} (h : l.Closed)
    (hlive : Live l p.graph) : (traceLink l env p c x).Fine (fun _ => True) ↔
      (l.isGraphMaster = true → x.name.bytes ≠ [] → x.attr.check = true →
        AddGuard (l.graphs p.graph.toNat) p.node c.node) := by
  unfold traceLink
  split
  · rename_i hmaster
    exact iff_of_true (Traced.fine_pure trivial) (fun hm => by simp [hm] at hmaster)
  rename_i hmaster
  simp only [strnlen_checks]
  split
  · rename_i hname
    exact iff_of_true (Traced.fine_pure trivial) (fun _ hn => absurd hname hn)
  rename_i hname
  split
  · rename_i hattr
    exact iff_of_true (Traced.fine_pure trivial) (fun _ _ ha => by simp [ha] at hattr)
  rename_i hattr
  have hadd : ((l.graphs p.graph.toNat).traceAddEdge l.pathSet env p.node c.node x).Fine
      (fun _ => True) ↔ AddGuard (l.graphs p.graph.toNat) p.node c.node :=
    traceAddEdge_fine_iff (h.live hlive)
  constructor
  · rintro hfine - - -
    obtain ⟨g, hg, -, hfine⟩ := Traced.Fine.of_bind hfine
    obtain ⟨⟨g', hg', rfl⟩, -⟩ := libIndex_fine hlive
    obtain rfl := Except.ok.inj (hg'.symm.trans hg)
    obtain ⟨r, hr, hlog, -⟩ := Traced.Fine.of_bind hfine
    exact hadd.mp ⟨⟨r, hr, trivial⟩, hlog⟩
  · intro hguard
    refine (libIndex_fine hlive).bind (fun g hg => ?_)
    subst hg
    have hfine := hadd.mpr (hguard (by simpa using hmaster) hname (by simpa using hattr))
    exact hfine.bind (fun _ _ => Traced.fine_pure trivial)

theorem traceInitEdge_fine_iff {env : Env} {dst : Bool} {p c : NodeHandle} {x : EdgeArgs}
    (h : l.Closed) :
    (traceInitEdge l env dst p c x).Fine (fun _ => True) ↔ LinkGuard l dst p c x := by
  unfold traceInitEdge LinkGuard
  split
  · rename_i hdst
    exact iff_of_true (Traced.fine_pure trivial) (fun hd => by simp [hd] at hdst)
  rename_i hdst
  split
  · rename_i hgr
    exact iff_of_true (Traced.fine_pure trivial) (fun _ he => absurd he hgr)
  rename_i hgr
  rw [validGraph_bind_fine]
  constructor
  · rintro ⟨hne, hfine⟩ - - hm
    refine ⟨fun he => hne ⟨hm, he⟩, fun hlive => ?_⟩
    exact (traceLink_fine_iff h hlive).mp (hfine true (iff_of_true rfl hlive))
  · intro hguard
    have hguard := hguard (by simpa using hdst) (not_not.mp hgr)
    refine ⟨fun ⟨hm, he⟩ => (hguard hm).1 he, fun b hb => ?_⟩
    cases b with
    | false => exact Traced.fine_pure trivial
    | true =>
      have hlive := hb.mp rfl
      exact (traceLink_fine_iff h hlive).mpr ((hguard hlive.mapped).2 hlive)

/-! ## The functions of one node -/

theorem listing_fine_iff {list : NodeRec → List Nat} {item : GraphRec → Int → Nat → Query α}
    {value : GraphRec → Nat → α} (h : l.Closed) {node : NodeHandle} {len : Int} {dst ignore : Bool}
    (hlist : Live l node.graph → NodeExists l node →
      Within (l.graphs node.graph.toNat)
        (list ((l.graphs node.graph.toNat).nodes node.node.toNat)))
    (hitem : ∀ g, Closed g → ∀ es, Within g es → ∀ e ∈ es,
      (item g node.graph e).Fine (fun x => x = value g e)) :
    (listing list item l node dst len ignore).Fine (fun _ => True) ↔
      (dst = true → NodeGuard l node) := by
  unfold listing
  cases dst with
  | false => exact iff_of_true (Traced.fine_pure trivial) (fun hd => by cases hd)
  | true =>
    simp only [Bool.not_true, Bool.false_eq_true, if_false, forall_const]
    refine onNode_fine_iff (fun hlive hex => ?_) h
    have hes := hlist hlive hex
    split
    · exact Traced.fine_pure trivial
    · exact (listLoop_fine (h.live hlive) hes (hitem _ (h.live hlive) _ hes) _).mono
        (fun _ _ => trivial)

theorem degreeOf_fine_iff {list : NodeRec → List Nat} (h : l.Closed) {node : NodeHandle}
    {ignore : Bool} (hlist : Live l node.graph → NodeExists l node →
      Within (l.graphs node.graph.toNat)
        (list ((l.graphs node.graph.toNat).nodes node.node.toNat))) :
    (degreeOf list l node ignore).Fine (fun _ => True) ↔ NodeGuard l node := by
  refine onNode_fine_iff (fun hlive hex => ?_) h
  split
  · exact Traced.fine_pure trivial
  · exact (forwardCount_fine (h.live hlive) (hlist hlive hex) 0).mono (fun _ _ => trivial)

theorem pgmGetDegree_fine_iff (h : l.Closed) {node : NodeHandle} {ignore : Bool} :
    (pgmGetDegree l node ignore).Fine (fun _ => True) ↔ NodeGuard l node := by
  refine onNode_fine_iff (fun hlive hex => ?_) h
  have hclosed := h.live hlive
  split
  · exact Traced.fine_pure trivial
  · exact (forwardCount_fine hclosed (hclosed.within_ins hex) 0).bind
      (fun _ _ => (forwardCount_fine hclosed (hclosed.within_outs hex) _).mono (fun _ _ => trivial))

/-! ## The relations -/

theorem pgmIsParent_fine_iff (h : l.Closed) {node query : NodeHandle} :
    (pgmIsParent l node query).Fine (fun r => r = -1 ↔ Refused l node query) ↔
      PairGuard l node query := by
  refine onPair_fine_iff (fun hlive hex => ?_) h
  have hclosed := h.live hlive
  refine (parentLoop_fine hclosed query.node (hclosed.within_ins hex)).mono (fun r hr => ?_)
  subst hr
  split <;> omega

theorem pgmIsAncestor_fine_iff (h : l.Closed) {node query : NodeHandle} :
    (pgmIsAncestor l node query).Fine (fun r => r = -1 ↔ Refused l node query) ↔
      PairGuard l node query := by
  refine onPair_fine_iff (fun hlive hex => ?_) h
  refine (ancestor_fine (h.live hlive) query.node hex).bind (fun found _ => Traced.fine_pure ?_)
  split <;> omega

end

/-! ## All entry points -/

/-- A call of one of the functions that take handles of nodes. -/
inductive Entry where
  | initEdge (env : Env) (dst : Bool) (producer consumer : NodeHandle) (x : EdgeArgs)
  | getSuccessors (node : NodeHandle) (dst : Bool) (len : Int) (ignoreBackedges : Bool)
  | getPredecessors (node : NodeHandle) (dst : Bool) (len : Int) (ignoreBackedges : Bool)
  | getEdgesOut (node : NodeHandle) (dst : Bool) (len : Int) (ignoreBackedges : Bool)
  | getEdgesIn (node : NodeHandle) (dst : Bool) (len : Int) (ignoreBackedges : Bool)
  | getDegree (node : NodeHandle) (ignoreBackedges : Bool)
  | getDegreeIn (node : NodeHandle) (ignoreBackedges : Bool)
  | getDegreeOut (node : NodeHandle) (ignoreBackedges : Bool)
  | isParent (node query : NodeHandle)
  | isChild (node query : NodeHandle)
  | isAncestor (node query : NodeHandle)
  | isDescendant (node query : NodeHandle)

/-- The call indexes the tables in range only, and a relation returns -1 for the handles that
pgm.h names, and for no others. -/
def Entry.Validates (l : Lib) : Entry → Prop
  | .initEdge env dst p c x => (traceInitEdge l env dst p c x).Fine (fun _ => True)
  | .getSuccessors n dst len ignore => (pgmGetSuccessors l n dst len ignore).Fine (fun _ => True)
  | .getPredecessors n dst len ignore =>
    (pgmGetPredecessors l n dst len ignore).Fine (fun _ => True)
  | .getEdgesOut n dst len ignore => (pgmGetEdgesOut l n dst len ignore).Fine (fun _ => True)
  | .getEdgesIn n dst len ignore => (pgmGetEdgesIn l n dst len ignore).Fine (fun _ => True)
  | .getDegree n ignore => (pgmGetDegree l n ignore).Fine (fun _ => True)
  | .getDegreeIn n ignore => (pgmGetDegreeIn l n ignore).Fine (fun _ => True)
  | .getDegreeOut n ignore => (pgmGetDegreeOut l n ignore).Fine (fun _ => True)
  | .isParent n q => (pgmIsParent l n q).Fine (fun r => r = -1 ↔ Refused l n q)
  | .isChild n q => (pgmIsChild l n q).Fine (fun r => r = -1 ↔ Refused l n q)
  | .isAncestor n q => (pgmIsAncestor l n q).Fine (fun r => r = -1 ↔ Refused l n q)
  | .isDescendant n q => (pgmIsDescendant l n q).Fine (fun r => r = -1 ↔ Refused l n q)

/-- The handles of the call are among those that the function copes with. -/
def Entry.Guarded (l : Lib) : Entry → Prop
  | .initEdge _ dst p c x => LinkGuard l dst p c x
  | .getSuccessors n dst _ _ | .getPredecessors n dst _ _ | .getEdgesOut n dst _ _
  | .getEdgesIn n dst _ _ => dst = true → NodeGuard l n
  | .getDegree n _ | .getDegreeIn n _ | .getDegreeOut n _ => NodeGuard l n
  | .isParent n q | .isChild n q | .isAncestor n q | .isDescendant n q => PairGuard l n q

section

variable {l : Lib}

theorem refused_comm {n q : NodeHandle} : Refused l n q ↔ Refused l q n := by
  unfold Refused
  by_cases hgr : n.graph = q.graph
  · rw [hgr]
    tauto
  · simp [hgr, Ne.symm hgr]

theorem pairGuard_comm {n q : NodeHandle} : PairGuard l n q ↔ PairGuard l q n := by
  unfold PairGuard
  by_cases hgr : n.graph = q.graph
  · rw [hgr]
    tauto
  · simp [hgr, Ne.symm hgr]

theorem validates_iff (h : l.Closed) (e : Entry) : e.Validates l ↔ e.Guarded l := by
  cases e with
  | initEdge env dst p c x => exact traceInitEdge_fine_iff h
  | getSuccessors n dst len ignore =>
    exact listing_fine_iff h (fun hl hex => (h.live hl).within_outs hex)
      (fun g hg es hes e he => nodeItem_fine hg (hes e he).1 (hes e he).2.2 n.graph)
  | getPredecessors n dst len ignore =>
    exact listing_fine_iff h (fun hl hex => (h.live hl).within_ins hex)
      (fun g hg es hes e he => nodeItem_fine hg (hes e he).1 (hes e he).2.1 n.graph)
  | getEdgesOut n dst len ignore =>
    exact listing_fine_iff h (fun hl hex => (h.live hl).within_outs hex)
      (fun _ _ _ _ _ _ => Traced.fine_pure rfl)
  | getEdgesIn n dst len ignore =>
    exact listing_fine_iff h (fun hl hex => (h.live hl).within_ins hex)
      (fun _ _ _ _ _ _ => Traced.fine_pure rfl)
  | getDegree n ignore => exact pgmGetDegree_fine_iff h
  | getDegreeIn n ignore =>
    exact degreeOf_fine_iff h (fun hl hex => (h.live hl).within_ins hex)
  | getDegreeOut n ignore =>
    exact degreeOf_fine_iff h (fun hl hex => (h.live hl).within_outs hex)
  | isParent n q => exact pgmIsParent_fine_iff h
  | isChild n q =>
    simp only [Entry.Validates, Entry.Guarded, refused_comm (n := n), pairGuard_comm (n := n)]
    exact pgmIsParent_fine_iff h
  | isAncestor n q => exact pgmIsAncestor_fine_iff h
  | isDescendant n q =>
    simp only [Entry.Validates, Entry.Guarded, refused_comm (n := n), pairGuard_comm (n := n)]
    exact pgmIsAncestor_fine_iff h

end

/-- **Which handles are validated.** In a library that began with new graphs, after any calls of
`pgm_init_node`, `pgm_init_edge` and `pgm_init_backedge`, successful or not: a function that takes
node handles keeps to the tables, and a relation between nodes refuses what it is documented to
refuse, exactly for the handles that its checks leave room for. -/
theorem handles_validated_iff {l₀ l : Lib}
    (h₀ : ∀ gr, (l₀.graphs gr).inUse = true → l₀.graphs gr = .fresh)
    (hr : Lts.Reach call (fun _ _ => True) l₀ l) (e : Entry) : e.Validates l ↔ e.Guarded l :=
  validates_iff (calls_closed h₀ hr) e

def twoNodes : List (Int × Call) := [(0, .node nameA), (0, .node nameB)]

theorem twoNodes_built : ∃ l, Lts.Reach call (fun _ _ => True) newLib l ∧ Live l 0 ∧
    (l.graphs 0).nrNodes = 2 := by
  have hd : (Lts.drive call (fun _ _ => true) newLib twoNodes).map
      (fun l => (l.mapped, (l.graphs 0).inUse, (l.graphs 0).nrNodes)) = some (true, true, 2) := by
    decide +kernel
  obtain ⟨l, hr, hl⟩ := Lts.reach_of_drive_map (P := fun _ _ => True) (fun _ _ _ => trivial) hd
  obtain ⟨hm, hrest⟩ := Prod.mk.inj hl
  obtain ⟨hu, hn⟩ := Prod.mk.inj hrest
  exact ⟨l, hr, ⟨hm, by decide, hu⟩, hn⟩

/-- In a graph of two nodes, the graph after the last one, the node -1 and two equal nodes that do
not exist get through. -/
theorem handles_pass : ∃ l, Lts.Reach call (fun _ _ => True) newLib l ∧ (l.graphs 0).nrNodes = 2 ∧
    ¬ (Entry.getDegreeIn ⟨128, 0⟩ false).Validates l ∧
    ¬ (Entry.getDegreeOut ⟨0, -1⟩ false).Validates l ∧
    (pgmIsParent l ⟨0, 7⟩ ⟨0, 7⟩).val = .ok 0 ∧ Refused l ⟨0, 7⟩ ⟨0, 7⟩ := by
  obtain ⟨l, hr, hlive, hn⟩ := twoNodes_built
  have hclosed : l.Closed := calls_closed (fun _ _ => rfl) hr
  have hno : ¬ NodeExists l ⟨0, 7⟩ := by
    rintro ⟨-, h7⟩
    change (7 : Int) < (l.graphs 0).nrNodes at h7
    omega
  refine ⟨l, hr, hn, ?_, ?_, ?_, Or.inr (Or.inr (Or.inl hno))⟩
  · rw [validates_iff hclosed]
    exact fun hguard => (hguard hlive.mapped).1 rfl
  · rw [validates_iff hclosed]
    intro hguard
    have h0 := ((hguard hlive.mapped).2 hlive).1
    change (0 : Int) ≤ -1 at h0
    omega
  · obtain ⟨⟨b, hb, hiff⟩, -⟩ : (l.validGraph 0).Fine (fun b => b = true ↔ Live l 0) :=
      validGraph_fine (fun h => absurd h.2 (by decide))
    obtain rfl := hiff.mpr hlive
    unfold pgmIsParent onPair
    rw [if_neg (by decide), Traced.bind_of_ok hb]
    rfl

theorem handles_validated_iff_two : ∃ l, Lts.Reach call (fun _ _ => True) newLib l ∧
    (Entry.isParent ⟨0, 1⟩ ⟨0, 0⟩).Validates l := by
  obtain ⟨l, hr, hlive, hn⟩ := twoNodes_built
  refine ⟨l, hr, (handles_validated_iff (fun _ _ => rfl) hr _).mpr ?_⟩
  rintro - -
  refine ⟨by decide, fun _ => ⟨⟨by decide, ?_⟩, by decide, ?_⟩⟩
  · change (1 : Int) < (l.graphs 0).nrNodes
    omega
  · change (0 : Int) < (l.graphs 0).nrNodes
    omega

end Pgm.Tables
