import Mathlib.Data.List.Count
import Pgm.Lib.Lts
import Pgm.Tables

/-!
# What the node and edge tables say about each other

* `Represents`: the lists, counters and masks of the nodes are those of the edge table;
* `init_calls_represent`: it holds after every sequence of successful calls on a graph;
* `initEdge_atomic_iff`: which calls for an edge change nothing when they fail.
-/

namespace Pgm.Tables

/-! ## A successful call -/

section

variable {g g' : GraphRec} {x : EdgeArgs} {p c i : Nat}

/-- What a successful `__pgm_init_edge` has checked and done. -/
structure Added (g : GraphRec) (x : EdgeArgs) (p c : Nat) (g' : GraphRec) : Prop where
  room : g.nrEdges + 1 ≠ maxEdges
  producer : p < g.nrNodes
  consumer : c < g.nrNodes
  outDegree : (g.nodes p).outs.length + 1 ≠ maxDegree
  inDegree : (g.nodes c).ins.length + 1 ≠ maxDegree
  state : ∃ e : EdgeRec, e.name = (x.record p c).name ∧ e.producer = p ∧ e.consumer = c ∧
    e.attr = x.attr ∧ e.isBackedge = x.skips.isSome ∧ e.ops = x.attr.ops ∧
    g' = ({ g with nrEdges := g.nrEdges + 1 }.link g.nrEdges p c x.attr x.skips.isSome).setEdge
      g.nrEdges e

theorem setEdge_setEdge (g : GraphRec) (i : Nat) (e e' : EdgeRec) :
    (g.setEdge i e).setEdge i e' = g.setEdge i e' := by
  unfold GraphRec.setEdge
  simp only [Function.update_idem]

/-- `ops->init` keeps what identifies the edge. -/
theorem init_same {ops : Ops} {pathSet : Bool} {env : Env} {e e' : EdgeRec}
    (h : ops.init pathSet env e = some e') : e'.name = e.name ∧ e'.producer = e.producer ∧
      e'.consumer = e.consumer ∧ e'.attr = e.attr ∧ e'.isBackedge = e.isBackedge ∧
      e'.ops = e.ops := by
  cases ops with
  | cv =>
    obtain rfl := Option.some.inj h
    exact ⟨rfl, rfl, rfl, rfl, rfl, rfl⟩
  | fifo =>
    simp only [Ops.init, Option.ite_none_right_eq_some, Option.some.injEq] at h
    obtain ⟨-, rfl⟩ := h
    exact ⟨rfl, rfl, rfl, rfl, rfl, rfl⟩
  | mq =>
    simp only [Ops.init, Option.ite_none_right_eq_some, Option.some.injEq] at h
    obtain ⟨-, rfl⟩ := h
    exact ⟨rfl, rfl, rfl, rfl, rfl, rfl⟩
  | ring =>
    simp only [Ops.init, Option.ite_none_left_eq_some, Option.map_eq_some_iff] at h
    obtain ⟨-, r, -, rfl⟩ := h
    exact ⟨rfl, rfl, rfl, rfl, rfl, rfl⟩
  | sockStream =>
    obtain rfl := Option.some.inj h
    exact ⟨rfl, rfl, rfl, rfl, rfl, rfl⟩

theorem finishEdge_init {pathSet : Bool} {env : Env}
    (h : g.finishEdge pathSet env i p c x = (some e, g')) : e = i ∧ ∃ (ops : Ops) (r : EdgeRec),
      x.attr.ops = some ops ∧ ops.init pathSet env (x.record p c) = some r ∧
      g' = (g.link i p c x.attr x.skips.isSome).setEdge i r := by
  unfold GraphRec.finishEdge at h
  cases hops : x.attr.ops with
  | none => simp [hops] at h
  | some ops =>
    simp only [hops] at h
    cases hinit : ops.init pathSet env (x.record p c) with
    | none => simp [hinit] at h
    | some r =>
      simp only [hinit, Prod.mk.injEq, Option.some.injEq] at h
      obtain ⟨rfl, rfl⟩ := h
      exact ⟨rfl, ops, r, rfl, hinit, setEdge_setEdge _ _ _ _⟩

theorem finishEdge_some {pathSet : Bool} {env : Env}
    (h : g.finishEdge pathSet env i p c x = (some e, g')) : e = i ∧ ∃ r : EdgeRec,
      r.name = (x.record p c).name ∧ r.producer = p ∧ r.consumer = c ∧ r.attr = x.attr ∧
      r.isBackedge = x.skips.isSome ∧ r.ops = x.attr.ops ∧
      g' = (g.link i p c x.attr x.skips.isSome).setEdge i r := by
  obtain ⟨hi, ops, r, hops, hinit, hg⟩ := finishEdge_init h
  obtain ⟨hname, hp, hc, ha, hb, ho⟩ := init_same hinit
  exact ⟨hi, r, hname, hp, hc, ha, hb, ho, hg⟩

theorem nodeAt_ok {n : Int} {r : NodeRec} (h : g.nodeAt n = .ok r) :
    0 ≤ n ∧ r = g.nodes n.toNat := by
  unfold GraphRec.nodeAt at h
  split at h
  · rename_i hn
    exact ⟨hn.1, (Except.ok.inj h).symm⟩
  · cases h

/-- A check that fails returns `-1` and the tables as they are. -/
theorem ok_none_inj {α β : Type} {ret : Option α} {b b' : β}
    (h : (Except.ok (none, b) : Except Fault (Option α × β)) = .ok (ret, b')) :
    ret = none ∧ b' = b := by
  cases h
  exact ⟨rfl, rfl⟩

/-- How a call that returns ends: refused with the tables as they were, refused with the counter
advanced, or after both nodes are found to have room. -/
theorem addEdge_cases {pathSet : Bool} {env : Env} {pn cn : Int} {ret : Option Nat}
    (h : g.addEdge pathSet env pn cn x = .ok (ret, g')) :
    ret = none ∧ g' = g ∨ g.nrEdges + 1 ≠ maxEdges ∧
      (ret = none ∧ g' = { g with nrEdges := g.nrEdges + 1 } ∨
        (0 ≤ pn ∧ pn < g.nrNodes) ∧ (0 ≤ cn ∧ cn < g.nrNodes) ∧
        (g.nodes pn.toNat).outs.length + 1 ≠ maxDegree ∧
        (g.nodes cn.toNat).ins.length + 1 ≠ maxDegree ∧
        { g with nrEdges := g.nrEdges + 1 }.finishEdge pathSet env g.nrEdges pn.toNat cn.toNat x =
          (ret, g')) := by
  unfold GraphRec.addEdge at h
  split at h
  · exact Or.inl (ok_none_inj h)
  rename_i hroom
  split at h
  · exact Or.inl (ok_none_inj h)
  rename_i hnodes
  refine Or.inr ⟨hroom, ?_⟩
  simp only at h
  split at h
  · cases h
  rename_i np hnp
  split at h
  · exact Or.inl (ok_none_inj h)
  rename_i hout
  split at h
  · cases h
  rename_i nc hnc
  split at h
  · exact Or.inl (ok_none_inj h)
  rename_i hin
  obtain ⟨hp, rfl⟩ := nodeAt_ok hnp
  obtain ⟨hc, rfl⟩ := nodeAt_ok hnc
  exact Or.inr ⟨⟨hp, by omega⟩, ⟨hc, by omega⟩, hout, hin, Except.ok.inj h⟩

theorem addEdge_checks {pathSet : Bool} {env : Env} {pn cn : Int}
    (h : g.addEdge pathSet env pn cn x = .ok (some i, g')) :
    (0 ≤ pn ∧ pn < g.nrNodes) ∧ (0 ≤ cn ∧ cn < g.nrNodes) ∧ g.nrEdges + 1 ≠ maxEdges ∧
      (g.nodes pn.toNat).outs.length + 1 ≠ maxDegree ∧
      (g.nodes cn.toNat).ins.length + 1 ≠ maxDegree ∧
      { g with nrEdges := g.nrEdges + 1 }.finishEdge pathSet env g.nrEdges pn.toNat cn.toNat x =
        (some i, g') := by
  rcases addEdge_cases h with ⟨hnone, -⟩ | ⟨hroom, ⟨hnone, -⟩ | ⟨hp, hc, hout, hin, hfinish⟩⟩
  · cases hnone
  · cases hnone
  · exact ⟨hp, hc, hroom, hout, hin, hfinish⟩

theorem addEdge_some {pathSet : Bool} {env : Env} {pn cn : Int}
    (h : g.addEdge pathSet env pn cn x = .ok (some i, g')) :
    0 ≤ pn ∧ 0 ≤ cn ∧ i = g.nrEdges ∧ Added g x pn.toNat cn.toNat g' := by
  obtain ⟨⟨hp, hp'⟩, ⟨hc, hc'⟩, hroom, hout, hin, hfinish⟩ := addEdge_checks h
  obtain ⟨rfl, hstate⟩ := finishEdge_some hfinish
  exact ⟨hp, hc, rfl, hroom, by omega, by omega, hout, hin, hstate⟩

/-! ## The tables after a new edge -/

def counters : List ((NodeRec → Nat) × (EdgeRec → Bool)) :=
  [(NodeRec.nrInSignaled, fun e => e.attr.isSignalDriven),
    (NodeRec.nrInData, fun e => e.attr.isDataPassing),
    (NodeRec.nrInSignaledBackedges, fun e => e.attr.isSignalDriven && e.isBackedge),
    (NodeRec.nrInDataBackedges, fun e => e.attr.isDataPassing && e.isBackedge)]

theorem countIn_counter {f : (NodeRec → Nat) × (EdgeRec → Bool)} (hf : f ∈ counters) (n : NodeRec)
    (e : EdgeRec) : f.1 (n.countIn e.attr e.isBackedge) = f.1 n + if f.2 e then 1 else 0 := by
  simp only [counters, List.mem_cons, List.not_mem_nil, or_false] at hf
  unfold NodeRec.countIn
  cases hs : e.attr.isSignalDriven <;> cases hd : e.attr.isDataPassing <;>
    rcases hf with rfl | rfl | rfl | rfl <;>
    simp [hs, hd, NodeRec.countSignaled, NodeRec.countData]

theorem counter_lists {f : (NodeRec → Nat) × (EdgeRec → Bool)} (hf : f ∈ counters) (n : NodeRec)
    (is os : List Nat) : f.1 { n with ins := is, outs := os } = f.1 n := by
  simp only [counters, List.mem_cons, List.not_mem_nil, or_false] at hf
  rcases hf with rfl | rfl | rfl | rfl <;> rfl

theorem countIn_lists (n : NodeRec) (a : Attr) (back : Bool) :
    (n.countIn a back).ins = n.ins ∧ (n.countIn a back).outs = n.outs ∧
      (n.countIn a back).name = n.name ∧ (n.countIn a back).owner = n.owner := by
  unfold NodeRec.countIn
  cases a.isSignalDriven <;> cases a.isDataPassing <;> exact ⟨rfl, rfl, rfl, rfl⟩

theorem countIn_mask {n : NodeRec} (hn : n.ins.length < 32) (a : Attr) (back : Bool) (k : Nat) :
    (n.countIn a back).signalEdgeMask.getLsbD k =
      (n.signalEdgeMask.getLsbD k || (a.isSignalDriven && decide (k = n.ins.length))) := by
  have hmask : (n.countIn a back).signalEdgeMask =
      if a.isSignalDriven then n.signalEdgeMask ||| 1#32 <<< n.ins.length else n.signalEdgeMask := by
    unfold NodeRec.countIn
    cases a.isSignalDriven <;> cases a.isDataPassing <;> rfl
  rw [hmask]
  cases a.isSignalDriven with
  | false => simp
  | true =>
    simp only [if_true, BitVec.getLsbD_or, BitVec.getLsbD_shiftLeft, BitVec.getLsbD_one,
      Bool.true_and]
    congr 1
    rw [Bool.eq_iff_iff]
    simp
    omega

/-- A node after edge number `e` is linked, for the node's role at that edge. -/
theorem link_nodes (g : GraphRec) (e p c : Nat) (a : Attr) (back : Bool) (n : Nat) :
    (g.link e p c a back).nodes n =
      { (if n = c then (g.nodes n).countIn a back else g.nodes n) with
        ins := (g.nodes n).ins ++ (if n = c then [e] else [])
        outs := (g.nodes n).outs ++ (if n = p then [e] else []) } := by
  obtain ⟨hin, hout, -, -⟩ := countIn_lists (g.nodes c) a back
  unfold GraphRec.link GraphRec.setNode
  by_cases hc : n = c <;> by_cases hp : n = p
  · subst hc hp
    simp [hin, hout]
  · subst hc
    simp [hp, hin, hout, Ne.symm hp]
  · subst hp
    simp [hc, hin, hout, Ne.symm hc]
  · simp [hc, hp]

/-! ## The representation -/

/-- The node table is the index of the edge table. -/
structure Represents (g : GraphRec) : Prop where
  outs : ∀ n < g.nrNodes, (g.nodes n).outs =
    (List.range g.nrEdges).filter (fun e => (g.edges e).producer == n)
  ins : ∀ n < g.nrNodes, (g.nodes n).ins =
    (List.range g.nrEdges).filter (fun e => (g.edges e).consumer == n)
  counts : ∀ n < g.nrNodes, ∀ f ∈ counters, f.1 (g.nodes n) =
    (g.nodes n).ins.countP (fun e => f.2 (g.edges e))
  mask : ∀ n < g.nrNodes, ∀ k, (g.nodes n).signalEdgeMask.getLsbD k = true ↔
    ∃ e, (g.nodes n).ins[k]? = some e ∧ (g.edges e).attr.isSignalDriven = true
  degree : ∀ n < g.nrNodes, (g.nodes n).ins.length < maxDegree ∧ (g.nodes n).outs.length < maxDegree
  nodes : g.nrNodes < maxNodes
  edges : g.nrEdges < maxEdges
  attrs : ∀ e < g.nrEdges, (g.edges e).attr.nrConsume ≤ (g.edges e).attr.nrThreshold ∧
    1 ≤ (g.edges e).attr.nrConsume ∧ 1 ≤ (g.edges e).attr.nrProduce ∧
    (g.edges e).producer < g.nrNodes ∧ (g.edges e).consumer < g.nrNodes

theorem fresh_represents : Represents .fresh where
  outs := by intro n hn; cases hn
  ins := by intro n hn; cases hn
  counts := by intro n hn; cases hn
  mask := by intro n hn; cases hn
  degree := by intro n hn; cases hn
  nodes := by decide
  edges := by decide
  attrs := by intro e he; cases he

/-- The edges with a property, after one more edge. -/
theorem filter_range_update {es : Nat → EdgeRec} {k : Nat} (e : EdgeRec) (q : EdgeRec → Bool) :
    (List.range (k + 1)).filter (fun i => q (Function.update es k e i)) =
      (List.range k).filter (fun i => q (es i)) ++ (if q e then [k] else []) := by
  rw [List.range_succ, List.filter_append]
  congr 1
  · refine List.filter_congr (fun i hi => ?_)
    rw [Function.update_of_ne (List.mem_range.mp hi).ne]
  · rw [List.filter_singleton, Function.update_self, Bool.cond_eq_ite]

/-- In-edges that are older than the new edge keep their record. -/
theorem countP_update {es : Nat → EdgeRec} {k : Nat} {is : List Nat} (e : EdgeRec)
    (q : EdgeRec → Bool) (his : ∀ i ∈ is, i < k) :
    is.countP (fun i => q (Function.update es k e i)) = is.countP (fun i => q (es i)) := by
  refine List.countP_congr (fun i hi => ?_)
  rw [Function.update_of_ne (his i hi).ne]

theorem Represents.mem_ins (h : Represents g) {n e : Nat} (hn : n < g.nrNodes) :
    e ∈ (g.nodes n).ins ↔ e < g.nrEdges ∧ (g.edges e).consumer = n := by
  rw [h.ins n hn, List.mem_filter, List.mem_range, beq_iff_eq]

theorem Represents.mem_outs (h : Represents g) {n e : Nat} (hn : n < g.nrNodes) :
    e ∈ (g.nodes n).outs ↔ e < g.nrEdges ∧ (g.edges e).producer = n := by
  rw [h.outs n hn, List.mem_filter, List.mem_range, beq_iff_eq]

theorem Represents.addNode (h : Represents g) {name : CStr} (ha : g.addNode name = (some i, g')) :
    Represents g' := by
  unfold GraphRec.addNode at ha
  split at ha
  · cases ha
  rename_i hroom
  obtain ⟨-, rfl⟩ := Prod.mk.inj ha
  have hnodes := h.nodes
  -- the edges all lie between older nodes
  have hnone : ∀ q : EdgeRec → Nat, (∀ e < g.nrEdges, q (g.edges e) < g.nrNodes) →
      [] = (List.range g.nrEdges).filter (fun e => q (g.edges e) == g.nrNodes) := by
    intro q hq
    symm
    rw [List.filter_eq_nil_iff]
    intro e he
    have := hq e (List.mem_range.mp he)
    simp only [beq_iff_eq]
    omega
  have hnew : ∀ n < g.nrNodes + 1, n = g.nrNodes ∨ n < g.nrNodes := by
    intro n hn
    omega
  constructor
  · intro n hn
    rcases hnew n hn with rfl | hlt
    · simp only [GraphRec.setNode, Function.update_self]
      exact hnone _ (fun e he => (h.attrs e he).2.2.2.1)
    · simp only [GraphRec.setNode, Function.update_of_ne hlt.ne]
      exact h.outs n hlt
  · intro n hn
    rcases hnew n hn with rfl | hlt
    · simp only [GraphRec.setNode, Function.update_self]
      exact hnone _ (fun e he => (h.attrs e he).2.2.2.2)
    · simp only [GraphRec.setNode, Function.update_of_ne hlt.ne]
      exact h.ins n hlt
  · intro n hn f hf
    rcases hnew n hn with rfl | hlt
    · simp only [GraphRec.setNode, Function.update_self]
      simp only [counters, List.mem_cons, List.not_mem_nil, or_false] at hf
      rcases hf with rfl | rfl | rfl | rfl <;> rfl
    · simp only [GraphRec.setNode, Function.update_of_ne hlt.ne]
      exact h.counts n hlt f hf
  · intro n hn k
    rcases hnew n hn with rfl | hlt
    · simp [GraphRec.setNode, NodeRec.zero]
    · simp only [GraphRec.setNode, Function.update_of_ne hlt.ne]
      exact h.mask n hlt k
  · intro n hn
    rcases hnew n hn with rfl | hlt
    · simp only [GraphRec.setNode, Function.update_self]
      exact ⟨by decide, by decide⟩
    · simp only [GraphRec.setNode, Function.update_of_ne hlt.ne]
      exact h.degree n hlt
  · change g.nrNodes + 1 < maxNodes
    omega
  · exact h.edges
  · intro e he
    obtain ⟨h1, h2, h3, h4, h5⟩ := h.attrs e he
    exact ⟨h1, h2, h3, Nat.lt_succ_of_lt h4, Nat.lt_succ_of_lt h5⟩

/-- The attribute checks, as far as the tokens go. -/
theorem check_amounts {a : Attr} (h : a.check = true) :
    a.nrConsume ≤ a.nrThreshold ∧ 1 ≤ a.nrConsume ∧ 1 ≤ a.nrProduce := by
  unfold Attr.check at h
  split at h
  · cases h
  split at h
  · cases h
  split at h
  · cases h
  split at h
  · cases h
  rename_i hthreshold
  split at h
  · cases h
  rename_i hpos
  simp only [Bool.or_eq_true, decide_eq_true_eq, not_or, UInt64.not_le] at hpos
  refine ⟨UInt64.not_lt.mp hthreshold, ?_, ?_⟩
  · exact UInt64.le_iff_toNat_le.mpr (UInt64.lt_iff_toNat_lt.mp hpos.1.2)
  · exact UInt64.le_iff_toNat_le.mpr (UInt64.lt_iff_toNat_lt.mp hpos.1.1)

/-- The tables after a successful call for an edge. -/
theorem Added.view (ha : Added g x p c g') : ∃ e : EdgeRec, e.name = (x.record p c).name ∧
    e.producer = p ∧ e.consumer = c ∧ e.attr = x.attr ∧ e.ops = x.attr.ops ∧
    g'.nrNodes = g.nrNodes ∧
    g'.nrEdges = g.nrEdges + 1 ∧ g'.edges = Function.update g.edges g.nrEdges e ∧
    ∀ n, g'.nodes n =
      { (if n = c then (g.nodes n).countIn e.attr e.isBackedge else g.nodes n) with
        ins := (g.nodes n).ins ++ (if n = c then [g.nrEdges] else [])
        outs := (g.nodes n).outs ++ (if n = p then [g.nrEdges] else []) } := by
  obtain ⟨e, hname, hp, hc, hattr, hback, hops, rfl⟩ := ha.state
  refine ⟨e, hname, hp, hc, hattr, hops, rfl, rfl, rfl, fun n => ?_⟩
  rw [hattr, hback]
  exact link_nodes { g with nrEdges := g.nrEdges + 1 } g.nrEdges p c x.attr x.skips.isSome n

theorem Added.inUse (ha : Added g x p c g') : g'.inUse = g.inUse := by
  obtain ⟨_, -, -, -, -, -, -, rfl⟩ := ha.state
  rfl

theorem getElem?_concat_iff {α : Type} {l : List α} {a e : α} {k : Nat} :
    (l ++ [a])[k]? = some e ↔ l[k]? = some e ∨ (k = l.length ∧ a = e) := by
  rcases Nat.lt_trichotomy k l.length with hlt | rfl | hgt
  · rw [List.getElem?_append_left hlt]
    simp [hlt.ne]
  · simp
  · rw [List.getElem?_append_right hgt.le, List.getElem?_eq_none hgt.le]
    simp [hgt.ne', List.getElem?_eq_none (l := [a]) (i := k - l.length) (by simp; omega)]

theorem Represents.addEdge_mask (h : Represents g) (ha : Added g x p c g') {n : Nat}
    (hn : n < g.nrNodes) (k : Nat) : (g'.nodes n).signalEdgeMask.getLsbD k = true ↔
      ∃ e, (g'.nodes n).ins[k]? = some e ∧ (g'.edges e).attr.isSignalDriven = true := by
  obtain ⟨e, -, -, -, -, -, -, -, hedge, hnode⟩ := ha.view
  have hself : g'.edges g.nrEdges = e := by rw [hedge, Function.update_self]
  have hget : ∀ i, (g.nodes n).ins[k]? = some i → g'.edges i = g.edges i := by
    intro i hi
    have hlt := ((h.mem_ins hn).mp (List.mem_of_getElem? hi)).1
    rw [hedge, Function.update_of_ne hlt.ne]
  have hold : (g.nodes n).signalEdgeMask.getLsbD k = true ↔
      ∃ i, (g.nodes n).ins[k]? = some i ∧ (g'.edges i).attr.isSignalDriven = true := by
    rw [h.mask n hn k]
    constructor
    · rintro ⟨i, hi, hs⟩
      exact ⟨i, hi, by rw [hget i hi]; exact hs⟩
    · rintro ⟨i, hi, hs⟩
      exact ⟨i, hi, by rw [hget i hi] at hs; exact hs⟩
  rw [hnode]
  by_cases hnc : n = c
  · simp only [hnc, if_true]
    rw [← hnc, countIn_mask (h.degree n hn).1, Bool.or_eq_true, hold, Bool.and_eq_true,
      decide_eq_true_eq]
    simp only [getElem?_concat_iff, or_and_right, exists_or]
    refine or_congr Iff.rfl ?_
    constructor
    · rintro ⟨hs, rfl⟩
      exact ⟨g.nrEdges, ⟨rfl, rfl⟩, by rw [hself]; exact hs⟩
    · rintro ⟨i, ⟨rfl, rfl⟩, hs⟩
      exact ⟨by rw [hself] at hs; exact hs, rfl⟩
  · simp only [hnc, if_false, List.append_nil]
    exact hold

/-- Both ends have room for the new edge. -/
theorem Represents.addEdge_degree (h : Represents g) (ha : Added g x p c g') {n : Nat}
    (hn : n < g.nrNodes) :
    (g'.nodes n).ins.length < maxDegree ∧ (g'.nodes n).outs.length < maxDegree := by
  obtain ⟨e, -, -, -, -, -, -, -, -, hnode⟩ := ha.view
  obtain ⟨hi, ho⟩ := h.degree n hn
  have hin := ha.inDegree
  have hout := ha.outDegree
  rw [hnode]
  simp only [List.length_append]
  constructor
  · split
    · rename_i hnc
      subst hnc
      simp only [List.length_singleton]
      omega
    · simpa using hi
  · split
    · rename_i hnp
      subst hnp
      simp only [List.length_singleton]
      omega
    · simpa using ho

/-- A new edge joins the lists of its two ends. -/
theorem Represents.addEdge (h : Represents g) (hcheck : x.attr.check = true)
    (ha : Added g x p c g') : Represents g' := by
  obtain ⟨e, -, hp, hc, hattr, -, hN, hE, hedge, hnode⟩ := ha.view
  have hroom := ha.room
  have hlimit := h.edges
  constructor
  · intro n hn
    rw [hE, hedge, hnode, h.outs n (hN ▸ hn), filter_range_update e (fun r => r.producer == n), hp]
    simp only [beq_iff_eq, eq_comm (a := n)]
  · intro n hn
    rw [hE, hedge, hnode, h.ins n (hN ▸ hn), filter_range_update e (fun r => r.consumer == n), hc]
    simp only [beq_iff_eq, eq_comm (a := n)]
  · intro n hn f hf
    rw [hN] at hn
    rw [hnode, counter_lists hf, hedge, List.countP_append,
      countP_update e f.2 (fun i hi => ((h.mem_ins hn).mp hi).1), ← h.counts n hn f hf]
    by_cases hnc : n = c
    · simp only [hnc, if_true, countIn_counter hf, List.countP_singleton, Function.update_self]
    · simp only [hnc, if_false, List.countP_nil, Nat.add_zero]
  · exact fun n hn => h.addEdge_mask ha (hN ▸ hn)
  · exact fun n hn => h.addEdge_degree ha (hN ▸ hn)
  · exact hN ▸ h.nodes
  · omega
  · intro i hi
    rw [hE] at hi
    rw [hN, hedge]
    rcases Nat.lt_succ_iff_lt_or_eq.mp hi with hlt | rfl
    · rw [Function.update_of_ne hlt.ne]
      exact h.attrs i hlt
    · rw [Function.update_self, hattr, hp, hc]
      obtain ⟨h1, h2, h3⟩ := check_amounts hcheck
      exact ⟨h1, h2, h3, ha.producer, ha.consumer⟩

/-! ## Sequences of calls -/

inductive Call where
  | node (name : CStr)
  | edge (env : Env) (producer consumer : Int) (x : EdgeArgs)

def step (gr : Int) (l : Lib) : Call → Option Lib
  | .node name =>
    match initNode l true gr name with
    | .ok (some _, l') => some l'
    | _ => none
  | .edge env producer consumer x =>
    match initEdge l env true ⟨gr, producer⟩ ⟨gr, consumer⟩ x with
    | .ok (some _, l') => some l'
    | _ => none

/-- The states that sequences of successful calls on graph `gr` lead to. -/
abbrev Built (gr : Int) (l s : Lib) : Prop := Lts.Reach (step gr) (fun _ _ => True) l s

theorem graphAt_ok {l : Lib} {gr : Int} {g : GraphRec} (h : l.graphAt gr = .ok g) :
    g = l.graphs gr.toNat := by
  unfold Lib.graphAt at h
  split at h
  · exact (Except.ok.inj h).symm
  · cases h

theorem initNode_cases {l l' : Lib} {gr : Int} {name : CStr} {ret : Option NodeHandle} {dst : Bool}
    (h : initNode l dst gr name = .ok (ret, l')) : ret = none ∧ l' = l ∨
      name.bytes ≠ [] ∧ l.isValidGraph gr = .ok true ∧
      ret = ((l.graphs gr.toNat).addNode name).1.map (fun (i : Nat) => ⟨gr, i⟩) ∧
      l' = l.setGraph gr.toNat ((l.graphs gr.toNat).addNode name).2 := by
  unfold initNode at h
  split at h
  · exact Or.inl (ok_none_inj h)
  split at h
  · cases h
  · exact Or.inl (ok_none_inj h)
  rename_i hvalid
  split at h
  · exact Or.inl (ok_none_inj h)
  split at h
  · exact Or.inl (ok_none_inj h)
  rename_i hlen
  split at h
  · cases h
  rename_i g hg
  obtain rfl := graphAt_ok hg
  obtain ⟨rfl, rfl⟩ := Prod.mk.inj (Except.ok.inj h)
  refine Or.inr ⟨?_, hvalid, rfl, rfl⟩
  rintro hname
  simp [strnlen, hname] at hlen

/-- The graph after a successful call. -/
theorem initNode_some {l l' : Lib} {gr : Int} {name : CStr} {n : NodeHandle} {dst : Bool}
    (h : initNode l dst gr name = .ok (some n, l')) : name.bytes ≠ [] ∧
      ∃ i g', (l.graphs gr.toNat).addNode name = (some i, g') ∧ n = ⟨gr, i⟩ ∧
        l' = l.setGraph gr.toNat g' := by
  rcases initNode_cases h with ⟨hnone, -⟩ | ⟨hname, -, hret, rfl⟩
  · cases hnone
  · obtain ⟨i, hi, rfl⟩ := Option.map_eq_some_iff.mp hret.symm
    exact ⟨hname, i, _, Prod.ext hi rfl, rfl, rfl⟩

theorem initEdge_cases {l l' : Lib} {env : Env} {p c : NodeHandle} {ret : Option EdgeHandle}
    {dst : Bool} (h : initEdge l env dst p c x = .ok (ret, l')) : ret = none ∧ l' = l ∨
      x.name.bytes ≠ [] ∧ x.attr.check = true ∧ l.isValidGraph p.graph = .ok true ∧
      ∃ r g', (l.graphs p.graph.toNat).addEdge l.pathSet env p.node c.node x = .ok (r, g') ∧
        ret = r.map (fun (i : Nat) => ⟨p.graph, i⟩) ∧ l' = l.setGraph p.graph.toNat g' := by
  unfold initEdge at h
  split at h
  · exact Or.inl (ok_none_inj h)
  split at h
  · exact Or.inl (ok_none_inj h)
  split at h
  · cases h
  · exact Or.inl (ok_none_inj h)
  rename_i hvalid
  split at h
  · exact Or.inl (ok_none_inj h)
  split at h
  · exact Or.inl (ok_none_inj h)
  rename_i hlen
  split at h
  · exact Or.inl (ok_none_inj h)
  rename_i hcheck
  split at h
  · cases h
  rename_i g hg
  obtain rfl := graphAt_ok hg
  split at h
  · cases h
  rename_i r g' hadd
  obtain ⟨rfl, rfl⟩ := Prod.mk.inj (Except.ok.inj h)
  refine Or.inr ⟨?_, by simpa using hcheck, hvalid, r, g', hadd, rfl, rfl⟩
  rintro hname
  simp [strnlen, hname] at hlen

theorem initEdge_some {l l' : Lib} {env : Env} {p c : NodeHandle} {e : EdgeHandle} {dst : Bool}
    (h : initEdge l env dst p c x = .ok (some e, l')) : x.name.bytes ≠ [] ∧ x.attr.check = true ∧
      ∃ i g', (l.graphs p.graph.toNat).addEdge l.pathSet env p.node c.node x = .ok (some i, g') ∧
        e = ⟨p.graph, i⟩ ∧ l' = l.setGraph p.graph.toNat g' := by
  rcases initEdge_cases h with ⟨hnone, -⟩ | ⟨hname, hcheck, -, r, g', hadd, hret, rfl⟩
  · cases hnone
  · obtain ⟨i, rfl, rfl⟩ := Option.map_eq_some_iff.mp hret.symm
    exact ⟨hname, hcheck, i, g', hadd, rfl, rfl⟩

theorem setGraph_self (l : Lib) (i : Nat) (g : GraphRec) : (l.setGraph i g).graphs i = g :=
  Function.update_self _ _ _

/-- What a successful call does to the library. -/
theorem step_cases {gr : Int} {l l' : Lib} {a : Call} (hs : step gr l a = some l') :
    ∃ g', l' = l.setGraph gr.toNat g' ∧
      ((∃ name i, a = .node name ∧ (l.graphs gr.toNat).addNode name = (some i, g')) ∨
        ∃ env p c x i, a = .edge env p c x ∧ x.attr.check = true ∧
          (l.graphs gr.toNat).addEdge l.pathSet env p c x = .ok (some i, g')) := by
  cases a with
  | node name =>
    simp only [step] at hs
    split at hs
    · rename_i n l₁ hinit
      obtain rfl := Option.some.inj hs
      obtain ⟨-, i, g', hadd, -, rfl⟩ := initNode_some hinit
      exact ⟨g', rfl, Or.inl ⟨name, i, rfl, hadd⟩⟩
    · cases hs
  | edge env producer consumer x =>
    simp only [step] at hs
    split at hs
    · rename_i e l₁ hinit
      obtain rfl := Option.some.inj hs
      obtain ⟨-, hcheck, i, g', hadd, -, rfl⟩ := initEdge_some hinit
      exact ⟨g', rfl, Or.inr ⟨env, producer, consumer, x, i, rfl, hcheck, hadd⟩⟩
    · cases hs

theorem step_represents {gr : Int} {l l' : Lib} {a : Call} (h : Represents (l.graphs gr.toNat))
    (hs : step gr l a = some l') : Represents (l'.graphs gr.toNat) := by
  obtain ⟨g', rfl, hcases⟩ := step_cases hs
  rw [setGraph_self]
  rcases hcases with ⟨name, i, -, hadd⟩ | ⟨env, p, c, x, i, -, hcheck, hadd⟩
  · exact h.addNode hadd
  · exact h.addEdge hcheck (addEdge_some hadd).2.2.2

/-- **The tables agree.** After every sequence of successful `pgm_init_node`, `pgm_init_edge` and
`pgm_init_backedge` calls on a new graph, the lists, counters and masks of its nodes are those of
its edge table, all degrees and table sizes are below their limits, and every stored edge has
passed the attribute checks and joins two nodes of the graph. -/
theorem init_calls_represent {gr : Int} {l s : Lib} (hl : l.graphs gr.toNat = .fresh)
    (hs : Built gr l s) : Represents (s.graphs gr.toNat) := by
  refine Lts.Reach.inv (I := fun s => Represents (s.graphs gr.toNat)) ?_ ?_ hs
  · rw [hl]
    exact fresh_represents
  · intro s a t _ hI _ hst
    exact step_represents hI hst

end

/-- A library set up by `pgm_init_process_local`, with new graphs. -/
def newLib : Lib := ⟨fun _ => .fresh, true, true, false⟩

def nameA : CStr := ⟨[97], by decide⟩
def nameB : CStr := ⟨[98], by decide⟩

/-- `pgm_ring_edge` with two members of four bytes. -/
def ringAttr : Attr := ⟨4, 4, 4, pgmEdgeRing ||| pgmSignaled ||| pgmDataPassing, 2⟩

def cvAttr : Attr := ⟨1, 1, 1, pgmEdgeCv ||| pgmSignaled, 0⟩

def quietEnv : Env := ⟨true, true, fun _ => 0⟩

/-- Two nodes, a ring from the first to the second and a cv back edge. -/
def loopCalls : List Call :=
  [.node nameA, .node nameB, .edge quietEnv 0 1 ⟨nameA, ringAttr, none⟩,
    .edge quietEnv 1 0 ⟨nameB, cvAttr, some 1⟩]

theorem init_calls_represent_loop : ∃ s, Built 0 newLib s ∧ (s.graphs 0).nrEdges = 2 ∧
    Represents (s.graphs 0) := by
  have hd : (Lts.drive (step 0) (fun _ _ => true) newLib loopCalls).map
      (fun s => (s.graphs 0).nrEdges) = some 2 := by decide +kernel
  obtain ⟨s, hs, hn⟩ := Lts.reach_of_drive_map (P := fun _ _ => True) (fun _ _ _ => trivial) hd
  exact ⟨s, hs, hn, init_calls_represent rfl hs⟩

/-! ## Calls that fail -/

section

variable {l : Lib} {env : Env} {dst : Bool} {p c : NodeHandle} {x : EdgeArgs} {g : GraphRec}

/-- A call that returns `-1` has left the library as it was; an access outside of a table leaves
nothing certain. -/
def Atomic (l : Lib) : Except Fault (Option EdgeHandle × Lib) → Prop
  | .ok (some _, _) => True
  | .ok (none, l') => l' = l
  | .error _ => False

/-- The handle that `is_valid_handle` lets pass although there is no such graph. -/
def StrayGraph (l : Lib) (dst : Bool) (p c : NodeHandle) : Prop :=
  dst = true ∧ p.graph = c.graph ∧ l.mapped = true ∧ p.graph = maxGraphs

/-- The call passes all checks that come before the edge counter is advanced. -/
structure Admitted (l : Lib) (dst : Bool) (p c : NodeHandle) (x : EdgeArgs) : Prop where
  out : dst = true
  graph : p.graph = c.graph
  mapped : l.mapped = true
  valid : 0 ≤ p.graph ∧ p.graph < maxGraphs
  inUse : (l.graphs p.graph.toNat).inUse = true
  master : l.isGraphMaster = true
  name : x.name.bytes ≠ []
  attr : x.attr.check = true
  room : (l.graphs p.graph.toNat).nrEdges + 1 ≠ maxEdges
  nodes : p.node < (l.graphs p.graph.toNat).nrNodes ∧ c.node < (l.graphs p.graph.toNat).nrNodes

/-- Nothing that comes after the edge counter is advanced can fail: the handles lie inside the
node table, both degrees have room, and the type is known and its `ops->init` succeeds. -/
structure Completes (g : GraphRec) (pathSet : Bool) (env : Env) (p c : Int) (x : EdgeArgs) :
    Prop where
  producer : 0 ≤ p ∧ p < maxNodes
  outDegree : (g.nodes p.toNat).outs.length + 1 ≠ maxDegree
  consumer : 0 ≤ c ∧ c < maxNodes
  inDegree : (g.nodes c.toNat).ins.length + 1 ≠ maxDegree
  init : ∃ ops e, x.attr.ops = some ops ∧
    ops.init pathSet env (x.record p.toNat c.toNat) = some e

theorem isValidGraph_eq (l : Lib) (gr : Int) : l.isValidGraph gr =
    if l.mapped = true ∧ gr = maxGraphs then .error .graph
    else .ok (decide (l.mapped = true ∧ (0 ≤ gr ∧ gr < maxGraphs) ∧
      (l.graphs gr.toNat).inUse = true)) := by
  unfold Lib.isValidGraph isValidHandle Lib.graphAt
  cases hm : l.mapped with
  | false => simp
  | true =>
    by_cases hgr : 0 ≤ gr ∧ gr < maxGraphs
    · have hne : gr ≠ maxGraphs := hgr.2.ne
      simp [hgr, hgr.2.le, hne]
    · by_cases he : gr = maxGraphs
      · subst he
        simp
      · have hout : ¬ (0 ≤ gr ∧ gr ≤ maxGraphs) := by omega
        simp [hgr, he, hout]

/-- A graph handle that names a graph in use. -/
structure Live (l : Lib) (gr : Int) : Prop where
  mapped : l.mapped = true
  valid : 0 ≤ gr ∧ gr < maxGraphs
  inUse : (l.graphs gr.toNat).inUse = true

theorem Live.isValidGraph {gr : Int} (h : Live l gr) : l.isValidGraph gr = .ok true := by
  rw [isValidGraph_eq, if_neg (fun hs => h.valid.2.ne hs.2),
    decide_eq_true ⟨h.mapped, h.valid, h.inUse⟩]

theorem Live.graphAt {gr : Int} (h : Live l gr) : l.graphAt gr = .ok (l.graphs gr.toNat) :=
  if_pos h.valid

theorem setGraph_eq_self (l : Lib) (i : Nat) : l.setGraph i (l.graphs i) = l := by
  unfold Lib.setGraph
  rw [Function.update_eq_self]

/-- Linking an edge changes neither the sizes of the tables nor the state of the graph. -/
theorem finishEdge_keeps (g : GraphRec) (pathSet : Bool) (env : Env) (e p c : Nat) (x : EdgeArgs) :
    (g.finishEdge pathSet env e p c x).2.nrEdges = g.nrEdges ∧
      (g.finishEdge pathSet env e p c x).2.nrNodes = g.nrNodes ∧
      (g.finishEdge pathSet env e p c x).2.inUse = g.inUse := by
  unfold GraphRec.finishEdge
  simp only
  split
  · exact ⟨rfl, rfl, rfl⟩
  · split <;> exact ⟨rfl, rfl, rfl⟩

theorem finishEdge_isSome (g : GraphRec) (pathSet : Bool) (env : Env) (e p c : Nat) (x : EdgeArgs) :
    (g.finishEdge pathSet env e p c x).1.isSome = true ↔ ∃ ops r, x.attr.ops = some ops ∧
      ops.init pathSet env (x.record p c) = some r := by
  unfold GraphRec.finishEdge
  cases hops : x.attr.ops with
  | none => simp
  | some ops => cases hinit : ops.init pathSet env (x.record p c) <;> simp [hinit]

/-- The edge table is full or one of the handles is too large. -/
theorem addEdge_refused {pathSet : Bool} {pn cn : Int}
    (h : g.nrEdges + 1 = maxEdges ∨ (g.nrNodes : Int) ≤ pn ∨ (g.nrNodes : Int) ≤ cn) :
    g.addEdge pathSet env pn cn x = .ok (none, g) := by
  unfold GraphRec.addEdge
  split
  · rfl
  · rename_i hroom
    rw [if_pos (h.resolve_left hroom)]

theorem nodeAt_eq (g : GraphRec) {n : Int} (hn : 0 ≤ n ∧ n < maxNodes) :
    g.nodeAt n = .ok (g.nodes n.toNat) := if_pos hn

/-- Once the counter is advanced, the call either succeeds or leaves the counter behind. -/
theorem addEdge_entered (pathSet : Bool) (env : Env) (x : EdgeArgs) {pn cn : Int}
    (hroom : g.nrEdges + 1 ≠ maxEdges) (hp : pn < g.nrNodes) (hc : cn < g.nrNodes) :
    (Completes g pathSet env pn cn x ∧ ∃ i g', g.addEdge pathSet env pn cn x = .ok (some i, g')) ∨
    (¬ Completes g pathSet env pn cn x ∧ ((∃ f, g.addEdge pathSet env pn cn x = .error f) ∨
      ∃ g', g.addEdge pathSet env pn cn x = .ok (none, g') ∧ g'.nrEdges = g.nrEdges + 1)) := by
  unfold GraphRec.addEdge
  rw [if_neg hroom, if_neg (by omega)]
  simp only
  by_cases hpn : 0 ≤ pn ∧ pn < maxNodes
  · rw [nodeAt_eq _ hpn]
    simp only
    split
    · rename_i hout
      exact Or.inr ⟨fun h => h.outDegree hout, Or.inr ⟨_, rfl, rfl⟩⟩
    rename_i hout
    by_cases hcn : 0 ≤ cn ∧ cn < maxNodes
    · rw [nodeAt_eq _ hcn]
      simp only
      split
      · rename_i hin
        exact Or.inr ⟨fun h => h.inDegree hin, Or.inr ⟨_, rfl, rfl⟩⟩
      rename_i hin
      have hsome := finishEdge_isSome { g with nrEdges := g.nrEdges + 1 } pathSet env g.nrEdges
        pn.toNat cn.toNat x
      have hkeep := (finishEdge_keeps { g with nrEdges := g.nrEdges + 1 } pathSet env g.nrEdges
        pn.toNat cn.toNat x).1
      cases hret : GraphRec.finishEdge { g with nrEdges := g.nrEdges + 1 } pathSet env g.nrEdges
          pn.toNat cn.toNat x with
      | mk ret g' =>
        rw [hret] at hsome hkeep
        cases ret with
        | some i => exact Or.inl ⟨⟨hpn, hout, hcn, hin, hsome.mp rfl⟩, i, g', rfl⟩
        | none =>
          refine Or.inr ⟨fun h => ?_, Or.inr ⟨g', rfl, hkeep⟩⟩
          cases hsome.mpr h.init
    · refine Or.inr ⟨fun h => hcn h.consumer, Or.inl ⟨.node, ?_⟩⟩
      unfold GraphRec.nodeAt
      rw [if_neg hcn]
  · refine Or.inr ⟨fun h => hpn h.producer, Or.inl ⟨.node, ?_⟩⟩
    unfold GraphRec.nodeAt
    rw [if_neg hpn]

/-- **Which calls for an edge are atomic.** A call of `pgm_init_edge` or `pgm_init_backedge`, on
any state of the library and with any arguments, leaves everything as it was when it returns `-1`
exactly when it is not given the stray graph handle and, in case it passes the checks that come
before `nr_edges` is advanced, nothing that comes after can fail. -/
theorem initEdge_atomic_iff (l : Lib) (env : Env) (dst : Bool) (p c : NodeHandle) (x : EdgeArgs) :
    Atomic l (initEdge l env dst p c x) ↔ ¬ StrayGraph l dst p c ∧
      (Admitted l dst p c x →
        Completes (l.graphs p.graph.toNat) l.pathSet env p.node c.node x) := by
  unfold initEdge
  -- a check that fails returns at once, and the call is not admitted
  have hearly : ∀ {P : Prop}, ¬ StrayGraph l dst p c → ¬ Admitted l dst p c x →
      (l = l ↔ ¬ StrayGraph l dst p c ∧ (Admitted l dst p c x → P)) := fun hs ha =>
    ⟨fun _ => ⟨hs, fun h => absurd h ha⟩, fun _ => rfl⟩
  split
  · rename_i hdst
    have hd : dst ≠ true := by simpa using hdst
    exact hearly (fun h => hd h.1) (fun h => hd h.out)
  rename_i hdst
  split
  · rename_i hgr
    exact hearly (fun h => hgr h.2.1) (fun h => hgr h.graph)
  rename_i hgr
  rw [isValidGraph_eq]
  by_cases hstray : l.mapped = true ∧ p.graph = maxGraphs
  · rw [if_pos hstray]
    refine ⟨fun h => h.elim, fun h => absurd ⟨?_, ?_, hstray⟩ h.1⟩
    · simpa using hdst
    · simpa using hgr
  rw [if_neg hstray]
  have hns : ¬ StrayGraph l dst p c := fun h => hstray h.2.2
  by_cases hvalid : l.mapped = true ∧ (0 ≤ p.graph ∧ p.graph < maxGraphs) ∧
      (l.graphs p.graph.toNat).inUse = true
  · rw [decide_eq_true hvalid]
    simp only
    split
    · rename_i hm
      have hm' : l.isGraphMaster ≠ true := by simpa using hm
      exact hearly hns (fun h => hm' h.master)
    rename_i hm
    split
    · rename_i hlen
      refine hearly hns (fun h => h.name ?_)
      unfold strnlen nameLen at hlen
      exact List.length_eq_zero_iff.mp (by omega)
    rename_i hlen
    split
    · rename_i hcheck
      have hcheck' : x.attr.check ≠ true := by simpa using hcheck
      exact hearly hns (fun h => hcheck' h.attr)
    rename_i hcheck
    rw [Lib.graphAt, if_pos hvalid.2.1]
    simp only
    by_cases href : (l.graphs p.graph.toNat).nrEdges + 1 = maxEdges ∨
        ((l.graphs p.graph.toNat).nrNodes : Int) ≤ p.node ∨
        ((l.graphs p.graph.toNat).nrNodes : Int) ≤ c.node
    · rw [addEdge_refused href]
      simp only [Option.map_none, setGraph_eq_self]
      refine hearly hns (fun h => ?_)
      rcases href with hroom | hp | hc
      · exact h.room hroom
      · exact absurd h.nodes.1 (not_lt.mpr hp)
      · exact absurd h.nodes.2 (not_lt.mpr hc)
    · have hadm : Admitted l dst p c x := by
        refine ⟨by simpa using hdst, by simpa using hgr, hvalid.1, hvalid.2.1, hvalid.2.2,
          by simpa using hm, ?_, by simpa using hcheck, fun h => href (Or.inl h), ?_⟩
        · intro hname
          simp [strnlen, hname] at hlen
        · omega
      rcases addEdge_entered l.pathSet env x hadm.room hadm.nodes.1 hadm.nodes.2 with
        ⟨hcomp, i, g', heq⟩ | ⟨hcomp, ⟨f, heq⟩ | ⟨g', heq, hnr⟩⟩
      · rw [heq]
        exact ⟨fun _ => ⟨hns, fun _ => hcomp⟩, fun _ => trivial⟩
      · rw [heq]
        exact ⟨fun h => h.elim, fun h => hcomp (h.2 hadm)⟩
      · rw [heq]
        refine ⟨fun h => ?_, fun h => absurd (h.2 hadm) hcomp⟩
        -- the counter shows the difference
        have hcount := congrArg (fun l : Lib => (l.graphs p.graph.toNat).nrEdges) h
        simp only [setGraph_self] at hcount
        omega
  · rw [decide_eq_false hvalid]
    exact hearly hns (fun h => hvalid ⟨h.mapped, h.valid, h.inUse⟩)

def fifoAttr : Attr := ⟨4, 4, 4, pgmEdgeFifo ||| pgmDataPassing, 0⟩

/-- Without a directory for its FIFO the edge cannot be created: the call returns `-1`, and the
edge is in the table and in the lists of both nodes. -/
theorem fifo_left_behind : ∃ l l', Built 0 newLib l ∧
    initEdge l quietEnv true ⟨0, 0⟩ ⟨0, 1⟩ ⟨nameA, fifoAttr, none⟩ = .ok (none, l') ∧
    (l.graphs 0).nrEdges = 0 ∧ (l'.graphs 0).nrEdges = 1 ∧ ((l'.graphs 0).nodes 0).outs = [0] ∧
    ((l'.graphs 0).nodes 1).ins = [0] ∧ ((l'.graphs 0).nodes 1).nrInData = 1 := by
  have hd : (Lts.drive (step 0) (fun _ _ => true) newLib [.node nameA, .node nameB]).bind (fun l =>
      match initEdge l quietEnv true ⟨0, 0⟩ ⟨0, 1⟩ ⟨nameA, fifoAttr, none⟩ with
      | .ok (none, l') => some ((l.graphs 0).nrEdges, (l'.graphs 0).nrEdges,
          ((l'.graphs 0).nodes 0).outs, ((l'.graphs 0).nodes 1).ins,
          ((l'.graphs 0).nodes 1).nrInData)
      | .ok (some _, _) => none
      | .error _ => none) = some (0, 1, [0], [0], 1) := by decide +kernel
  obtain ⟨l, hl, hobs⟩ := Option.bind_eq_some_iff.mp hd
  have hr : Built 0 newLib l := Lts.reach_of_drive (fun _ _ _ => trivial) hl
  split at hobs
  · rename_i l' hcall
    simp only [Option.some.injEq, Prod.mk.injEq] at hobs
    exact ⟨l, l', hr, hcall, hobs⟩
  · cases hobs
  · cases hobs

end

end Pgm.Tables
