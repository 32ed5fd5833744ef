import Pgm.Lib.Directory
import Pgm.Store

/-!
# FIFOs of the graphs in the store

The FIFO edges of the graphs in use are the keys of a `Directory`, the FIFOs are its files.

* `fifos_of_live_graphs`: no FIFO outlives its graph;
* `live_edges_have_fifos`: while new names are unused, each FIFO edge has a FIFO of its own.
-/

namespace Pgm.Tables

section

variable {hash : List UInt8 → Nat} {graphPath : List UInt8} {s s' : Store} {c : StoreCall}

/-! ## The tables of one graph -/

/-- The edge table is empty behind its end, and the edges that came to `ops->init` join nodes of the
graph. -/
structure GraphRec.Tidy (g : GraphRec) : Prop where
  beyond : ∀ e, g.nrEdges ≤ e → g.edges e = .zero
  ends : ∀ e, (g.edges e).ops ≠ none →
    (g.edges e).producer < g.nrNodes ∧ (g.edges e).consumer < g.nrNodes

def GraphRec.Short (g : GraphRec) : Prop := ∀ n < g.nrNodes, (g.nodes n).name.length < nameLen

/-- The edges of `g` are in `g'` with their FIFOs. -/
def GraphRec.Keeps (g g' : GraphRec) : Prop :=
  ∀ e, (g.edges e).ops ≠ none → (g'.edges e).ops = (g.edges e).ops ∧
    ∀ hash graphPath name, g'.fifoName hash graphPath name e = g.fifoName hash graphPath name e

section graph

variable {g g' : GraphRec}

theorem fresh_tidy : GraphRec.fresh.Tidy := ⟨fun _ _ => rfl, fun _ h => absurd rfl h⟩

theorem fifoName_congr {e : Nat} (hname : (g'.edges e).name = (g.edges e).name)
    (hpr : (g'.edges e).producer = (g.edges e).producer)
    (hco : (g'.edges e).consumer = (g.edges e).consumer)
    (hp : (g'.nodes (g.edges e).producer).cname = (g.nodes (g.edges e).producer).cname)
    (hc : (g'.nodes (g.edges e).consumer).cname = (g.nodes (g.edges e).consumer).cname)
    (hash : List UInt8 → Nat) (graphPath name : List UInt8) :
    g'.fifoName hash graphPath name e = g.fifoName hash graphPath name e := by
  have hedge : (g'.edges e).cname = (g.edges e).cname := by
    unfold EdgeRec.cname
    rw [hname, hpr]
  unfold GraphRec.fifoName fifoName
  rw [hpr, hco, hp, hc, hedge]

theorem setEdge_fifoName {e : Nat} {r : EdgeRec} (hname : r.name = (g.edges e).name)
    (hpr : r.producer = (g.edges e).producer) (hco : r.consumer = (g.edges e).consumer)
    (hash : List UInt8 → Nat) (graphPath name : List UInt8) :
    (g.setEdge e r).fifoName hash graphPath name e = g.fifoName hash graphPath name e := by
  have hrec : (g.setEdge e r).edges e = r := Function.update_self ..
  have hname' : ((g.setEdge e r).edges e).name = (g.edges e).name := by rw [hrec, hname]
  have hpr' : ((g.setEdge e r).edges e).producer = (g.edges e).producer := by rw [hrec, hpr]
  have hco' : ((g.setEdge e r).edges e).consumer = (g.edges e).consumer := by rw [hrec, hco]
  exact fifoName_congr hname' hpr' hco' rfl rfl hash graphPath name

theorem cname_of_short {n : NodeRec} (h : n.name.length < nameLen) : n.cname = n.name := if_pos h

/-- Where only the lists and owners of the nodes change, the FIFOs keep their names. -/
theorem GraphRec.Tidy.keeps (ht : g.Tidy) (hs : g.Short)
    (hnames : ∀ n < g.nrNodes, (g'.nodes n).name = (g.nodes n).name)
    (hedges : ∀ e, (g.edges e).ops ≠ none → g'.edges e = g.edges e) : g.Keeps g' := by
  intro e he
  obtain ⟨hp, hc⟩ := ht.ends e he
  have hname : ∀ n < g.nrNodes, (g'.nodes n).cname = (g.nodes n).cname := by
    intro n hn
    rw [cname_of_short (hs n hn), cname_of_short (by rw [hnames n hn]; exact hs n hn), hnames n hn]
  rw [hedges e he]
  refine ⟨rfl, fifoName_congr ?_ ?_ ?_ (hname _ hp) (hname _ hc)⟩ <;> rw [hedges e he]

theorem addNode_same (g : GraphRec) (name : CStr) :
    (g.addNode name).2.edges = g.edges ∧ (g.addNode name).2.nrEdges = g.nrEdges ∧
      (g.addNode name).2.inUse = g.inUse ∧ g.nrNodes ≤ (g.addNode name).2.nrNodes ∧
      ∀ n < g.nrNodes, (g.addNode name).2.nodes n = g.nodes n := by
  unfold GraphRec.addNode
  split
  · exact ⟨rfl, rfl, rfl, Nat.le_refl _, fun _ _ => rfl⟩
  · exact ⟨rfl, rfl, rfl, Nat.le_succ _, fun n hn => Function.update_of_ne hn.ne _ _⟩

theorem GraphRec.Tidy.addNode (h : g.Tidy) (name : CStr) : (g.addNode name).2.Tidy := by
  obtain ⟨hedges, hnr, -, hle, -⟩ := addNode_same g name
  refine ⟨fun e he => ?_, fun e he => ?_⟩
  · rw [hedges]
    rw [hnr] at he
    exact h.beyond e he
  · rw [hedges] at he ⊢
    obtain ⟨hp, hc⟩ := h.ends e he
    exact ⟨hp.trans_le hle, hc.trans_le hle⟩

theorem GraphRec.Short.addNode (h : g.Short) {name : CStr} (hname : name.bytes.length < nameLen) :
    (g.addNode name).2.Short := by
  unfold GraphRec.addNode
  split
  · exact h
  · intro n hn
    by_cases hlast : n = g.nrNodes
    · subst hlast
      simp only [GraphRec.setNode, Function.update_self, List.length_take]
      omega
    · simp only [GraphRec.setNode, Function.update_of_ne hlast]
      exact h n (Nat.lt_of_le_of_ne (Nat.lt_succ_iff.mp hn) hlast)

/-- Nodes keep their names when an edge is linked. -/
theorem linked_name (g : GraphRec) (p q : Nat) (x : EdgeArgs) (n : Nat) :
    ((g.linked p q x).nodes n).name = (g.nodes n).name := by
  have hlink := link_nodes { g with nrEdges := g.nrEdges + 1 } g.nrEdges p q x.attr x.skips.isSome n
  have hname := congrArg NodeRec.name hlink
  refine Eq.trans (b := _) hname ?_
  split
  · exact (countIn_lists (g.nodes n) x.attr x.skips.isSome).2.2.1
  · rfl

theorem linked_edges {p q : Nat} {x : EdgeArgs} {r : EdgeRec} {e : Nat} (he : e ≠ g.nrEdges) :
    ((g.linked p q x).setEdge g.nrEdges r).edges e = g.edges e := by
  unfold GraphRec.linked
  rw [setEdge_setEdge]
  exact Function.update_of_ne he _ _

theorem AddsEdge.tidy {p q : Int} {x : EdgeArgs} (h : AddsEdge g p q x g') (ht : g.Tidy)
    (hp : p < g.nrNodes) (hq : q < g.nrNodes) : g'.Tidy := by
  cases h with
  | full => exact ⟨fun e he => ht.beyond e (Nat.le_of_succ_le he), ht.ends⟩
  | link r hp0 hq0 hout hin hname hpr hco hops =>
    refine ⟨fun e he => ?_, fun e he => ?_⟩
    · have hlt : g.nrEdges < e := he
      rw [linked_edges hlt.ne']
      exact ht.beyond e hlt.le
    · by_cases hlast : e = g.nrEdges
      · subst hlast
        have hnew : ((g.linked p.toNat q.toNat x).setEdge g.nrEdges r).edges g.nrEdges = r :=
          Function.update_self ..
        rw [hnew, hpr, hco]
        change p.toNat < g.nrNodes ∧ q.toNat < g.nrNodes
        omega
      · rw [linked_edges hlast] at he ⊢
        exact ht.ends e he

theorem AddsEdge.short {p q : Int} {x : EdgeArgs} (h : AddsEdge g p q x g') (hs : g.Short) :
    g'.Short := by
  cases h with
  | full => exact hs
  | link r hp0 hq0 =>
    intro n hn
    have hname : (((g.linked p.toNat q.toNat x).setEdge g.nrEdges r).nodes n).name =
        (g.nodes n).name := linked_name g p.toNat q.toNat x n
    rw [hname]
    exact hs n hn

theorem AddsEdge.keeps {p q : Int} {x : EdgeArgs} (h : AddsEdge g p q x g') (ht : g.Tidy)
    (hs : g.Short) : g.Keeps g' := by
  cases h with
  | full => exact fun e _ => ⟨rfl, fun _ _ _ => rfl⟩
  | link r hp0 hq0 =>
    refine ht.keeps hs (fun n _ => linked_name g p.toNat q.toNat x n) (fun e he => ?_)
    refine linked_edges ?_
    rintro rfl
    rw [ht.beyond _ (Nat.le_refl _)] at he
    exact he rfl

theorem AddsEdge.inUse {p q : Int} {x : EdgeArgs} (h : AddsEdge g p q x g') :
    g'.inUse = g.inUse := by
  cases h <;> rfl

theorem setOwner_name (g : GraphRec) (n : Nat) (t : Int) (m : Nat) :
    ((g.setOwner n t).nodes m).name = (g.nodes m).name := by
  by_cases hm : m = n
  · subst hm
    simp [GraphRec.setOwner, GraphRec.setNode]
  · simp [GraphRec.setOwner, GraphRec.setNode, hm]

theorem GraphRec.Tidy.setOwner (h : g.Tidy) (n : Nat) (t : Int) : (g.setOwner n t).Tidy :=
  ⟨h.beyond, h.ends⟩

theorem GraphRec.Short.setOwner (h : g.Short) (n : Nat) (t : Int) : (g.setOwner n t).Short := by
  intro m hm
  rw [setOwner_name]
  exact h m hm

/-! ## Which FIFOs are there -/

theorem mem_fifoDestroy {pathSet : Bool} {name f : List UInt8} {fifos : List (List UInt8)} :
    f ∈ fifoDestroy pathSet name fifos ↔ f ∈ fifos ∧ (pathSet = true → f ≠ name) := by
  cases pathSet <;> simp [fifoDestroy]

theorem mem_destroyEdges {hash : List UInt8 → Nat} {graphPath name f : List UInt8} {pathSet : Bool}
    {es : List Nat} {fifos fifos' : List (List UInt8)}
    (h : g.destroyEdges hash graphPath name pathSet es fifos = .ok fifos') :
    f ∈ fifos' ↔ f ∈ fifos ∧ (pathSet = true → ∀ e ∈ es, (g.edges e).ops = some .fifo →
      f ≠ g.fifoName hash graphPath name e) := by
  induction es generalizing fifos with
  | nil =>
    obtain rfl := Except.ok.inj h
    simp
  | cons e es ih =>
    cases hops : (g.edges e).ops with
    | none => simp [GraphRec.destroyEdges, hops] at h
    | some ops =>
      cases ops with
      | fifo =>
        simp only [GraphRec.destroyEdges, hops] at h
        rw [ih h, mem_fifoDestroy]
        simp only [List.mem_cons, forall_eq_or_imp, hops, true_implies]
        tauto
      | cv | mq | ring | sockStream =>
        simp only [GraphRec.destroyEdges, hops] at h
        rw [ih h]
        simp [hops]

theorem destroyEdges_error_iff {hash : List UInt8 → Nat} {graphPath name : List UInt8}
    {pathSet : Bool} {es : List Nat} {fifos : List (List UInt8)} :
    g.destroyEdges hash graphPath name pathSet es fifos = .error .pointer ↔
      ∃ e ∈ es, (g.edges e).ops = none := by
  induction es generalizing fifos with
  | nil => simp [GraphRec.destroyEdges]
  | cons e es ih =>
    cases hops : (g.edges e).ops with
    | none => simp [GraphRec.destroyEdges, hops]
    | some ops => cases ops <;> simp [GraphRec.destroyEdges, hops, ih]

theorem mem_fifoCreate {pathSet mkfifo : Bool} {name f : List UInt8} {fifos : List (List UInt8)}
    (h : f ∈ fifoCreate pathSet mkfifo name fifos) : f = name ∨ f ∈ fifos := by
  unfold fifoCreate at h
  split_ifs at h
  · exact Or.inr h
  · exact (List.mem_cons.mp h).imp_right List.mem_of_mem_filter
  · exact Or.inr (List.mem_of_mem_filter h)

theorem mem_fifoCreate_of_ne {pathSet mkfifo : Bool} {name f : List UInt8}
    {fifos : List (List UInt8)} (hf : f ∈ fifos) (hne : f ≠ name) :
    f ∈ fifoCreate pathSet mkfifo name fifos := by
  have hkeep : f ∈ fifos.filter (· ≠ name) := List.mem_filter.mpr ⟨hf, decide_eq_true hne⟩
  unfold fifoCreate
  split_ifs
  · exact hf
  · exact List.mem_cons_of_mem _ hkeep
  · exact hkeep

theorem GraphRec.Tidy.last_ops (ht : g.Tidy) : (g.edges g.nrEdges).ops ≠ some .fifo := by
  rw [ht.beyond _ (Nat.le_refl _)]
  decide

theorem AddsEdge.linked_fifo {p q : Int} {x : EdgeArgs} (h : AddsEdge g p q x g') (ht : g.Tidy)
    (hnew : (g'.edges g.nrEdges).ops = some .fifo) (hash : List UInt8 → Nat)
    (graphPath name : List UInt8) :
    x.attr.ops = some .fifo ∧ g'.fifoName hash graphPath name g.nrEdges =
      (g.linked p.toNat q.toNat x).fifoName hash graphPath name g.nrEdges := by
  cases h with
  | full => exact absurd hnew ht.last_ops
  | link r hp0 hq0 hout hin hname hpr hco hops =>
    have hrec : ((g.linked p.toNat q.toNat x).setEdge g.nrEdges r).edges g.nrEdges = r :=
      Function.update_self ..
    have hold : (g.linked p.toNat q.toNat x).edges g.nrEdges = x.record p.toNat q.toNat :=
      Function.update_self ..
    rw [hrec] at hnew
    refine ⟨hops.symm.trans hnew, setEdge_fifoName ?_ ?_ ?_ hash graphPath name⟩
    · rw [hold, hname]
    · rw [hold, hpr]
      rfl
    · rw [hold, hco]
      rfl

theorem AddsEdge.fifos {p q : Int} {x : EdgeArgs} (h : AddsEdge g p q x g') (ht : g.Tidy)
    (hroom : g.nrEdges + 1 ≠ maxEdges) (hp : p < g.nrNodes) (hq : q < g.nrNodes)
    (hash : List UInt8 → Nat) (graphPath name : List UInt8) (pathSet : Bool) (env : Env)
    (fifos : List (List UInt8)) :
    g.addEdgeFifos hash graphPath name pathSet env p q x fifos =
      if (g'.edges g.nrEdges).ops = some .fifo then
        fifoCreate pathSet env.mkfifo (g'.fifoName hash graphPath name g.nrEdges) fifos
      else fifos := by
  have hfifo := h.linked_fifo ht
  unfold GraphRec.addEdgeFifos
  rw [if_neg hroom, if_neg (by omega)]
  cases h with
  | full hfull =>
    rcases hfull with hout | hin
    · rw [if_pos hout, if_neg ht.last_ops]
    · rw [if_pos hin, ite_self, if_neg ht.last_ops]
  | link r hp0 hq0 hout hin hname hpr hco hops =>
    have hrec : ((g.linked p.toNat q.toNat x).setEdge g.nrEdges r).edges g.nrEdges = r :=
      Function.update_self ..
    rw [if_neg hout, if_neg hin, ← hops, hrec]
    split
    · rename_i hnew
      rw [(hfifo (by rw [hrec]; exact hnew) hash graphPath name).2]
    · rfl

theorem AddsEdge.edges_of_ne {p q : Int} {x : EdgeArgs} {e : Nat} (h : AddsEdge g p q x g')
    (he : e ≠ g.nrEdges) : g'.edges e = g.edges e := by
  cases h with
  | full => rfl
  | link r => exact linked_edges he

end graph

/-! ## Slots -/

theorem put_graphs_self {i : Nat} {g : GraphRec} {m : Bool} {names : Nat → List UInt8}
    {fifos : List (List UInt8)} : (s.put m i g names fifos).lib.graphs i = g :=
  setGraph_self _ i g

theorem put_graphs_of_ne {i j : Nat} {g : GraphRec} {m : Bool} {names : Nat → List UInt8}
    {fifos : List (List UInt8)} (h : j ≠ i) :
    (s.put m i g names fifos).lib.graphs j = s.lib.graphs j :=
  Function.update_of_ne h _ _

structure Store.Tidy (s : Store) : Prop where
  tidy : ∀ i, (s.lib.graphs i).inUse = true → (s.lib.graphs i).Tidy
  short : ∀ i, (s.lib.graphs i).inUse = true → (s.lib.graphs i).Short

def shortNames (_ : Store) (c : StoreCall) : Bool :=
  match c.op with
  | .initNode _ _ name => decide (name.bytes.length < nameLen)
  | _ => true

theorem Store.Tidy.put {i : Nat} {g : GraphRec} {m : Bool} {names : Nat → List UInt8}
    {fifos : List (List UInt8)} (h : s.Tidy) (hg : g.inUse = true → g.Tidy ∧ g.Short) :
    (s.put m i g names fifos).Tidy := by
  have hboth : ∀ j, ((s.put m i g names fifos).lib.graphs j).inUse = true →
      ((s.put m i g names fifos).lib.graphs j).Tidy ∧
        ((s.put m i g names fifos).lib.graphs j).Short := by
    intro j
    by_cases hj : j = i
    · rw [hj, put_graphs_self]
      exact hg
    · rw [put_graphs_of_ne hj]
      exact fun huse => ⟨h.tidy j huse, h.short j huse⟩
  exact ⟨fun j hj => (hboth j hj).1, fun j hj => (hboth j hj).2⟩

theorem StoreMove.tidy (hm : StoreMove hash graphPath s c s') (h : s.Tidy)
    (hshort : shortNames s c = true) : s'.Tidy := by
  cases hm with
  | same => exact ⟨h.tidy, h.short⟩
  | create i name hop hlt hfree => exact h.put (fun _ => ⟨fresh_tidy, fun n hn => by cases hn⟩)
  | node i dst gr name hop huse =>
    rw [shortNames, hop] at hshort
    exact h.put (fun _ => ⟨(h.tidy i huse).addNode name,
      (h.short i huse).addNode (of_decide_eq_true hshort)⟩)
  | edge env dst p q x g' hop hadm hadd =>
    exact h.put (fun _ => ⟨hadd.tidy (h.tidy _ hadm.inUse) hadm.nodes.1 hadm.nodes.2,
      hadd.short (h.short _ hadm.inUse)⟩)
  | owner i n t hedge hnode huse =>
    exact h.put (fun _ => ⟨(h.tidy i huse).setOwner n t, (h.short i huse).setOwner n t⟩)
  | destroy i gr fifos hop huse hdestroy => exact h.put (fun hno => by cases hno)

/-! ## The directory -/

/-- The FIFO edges of the graphs in use, by slot and place, and the FIFOs. -/
def Store.dir (s : Store) (hash : List UInt8 → Nat) (graphPath : List UInt8) :
    Directory (Nat × Nat) (List UInt8) where
  keys := {k | (s.lib.graphs k.1).inUse = true ∧ ((s.lib.graphs k.1).edges k.2).ops = some .fifo}
  name k := (s.lib.graphs k.1).fifoName hash graphPath (s.names k.1) k.2
  files := {f | f ∈ s.fifos}

section put

variable {i : Nat} {g : GraphRec} {m : Bool} {names : Nat → List UInt8} {fifos : List (List UInt8)}

theorem mem_keys_put {k : Nat × Nat} :
    k ∈ ((s.put m i g names fifos).dir hash graphPath).keys ↔
      if k.1 = i then g.inUse = true ∧ (g.edges k.2).ops = some .fifo
      else k ∈ (s.dir hash graphPath).keys := by
  split
  · rename_i hk
    simp only [Store.dir, Set.mem_ofPred_eq, hk, put_graphs_self]
  · rename_i hk
    simp only [Store.dir, Set.mem_ofPred_eq, put_graphs_of_ne hk]

theorem name_put_self {e : Nat} :
    ((s.put m i g names fifos).dir hash graphPath).name (i, e) =
      g.fifoName hash graphPath (names i) e := by
  simp only [Store.dir, put_graphs_self]
  rfl

theorem name_put_of_ne {k : Nat × Nat} (hk : k.1 ≠ i) (hname : names k.1 = s.names k.1) :
    ((s.put m i g names fifos).dir hash graphPath).name k = (s.dir hash graphPath).name k := by
  simp only [Store.dir, put_graphs_of_ne hk]
  rw [← hname]
  rfl

/-- A graph whose edges are kept keeps the names of its FIFOs. -/
theorem eqOn_put (hkeeps : (s.lib.graphs i).Keeps g) :
    Set.EqOn ((s.put m i g s.names fifos).dir hash graphPath).name (s.dir hash graphPath).name
      (s.dir hash graphPath).keys := by
  rintro ⟨j, e⟩ ⟨-, hops⟩
  by_cases hj : j = i
  · subst hj
    rw [name_put_self]
    exact (hkeeps e (by rw [hops]; exact Option.some_ne_none _)).2 hash graphPath (s.names j)
  · exact name_put_of_ne hj rfl

/-- A graph that keeps its edges and gets no new FIFO edge. -/
theorem drop_put (huse : g.inUse = (s.lib.graphs i).inUse) (hkeeps : (s.lib.graphs i).Keeps g)
    (hno : ∀ e, (g.edges e).ops = some .fifo → ((s.lib.graphs i).edges e).ops = some .fifo) :
    Directory.Drop ∅ (s.dir hash graphPath) ((s.put m i g s.names s.fifos).dir hash graphPath) := by
  refine .none ?_ (eqOn_put hkeeps) rfl
  ext ⟨j, e⟩
  rw [mem_keys_put]
  split
  · rename_i hj
    obtain rfl : j = i := hj
    rw [huse]
    refine and_congr_right (fun _ => ⟨hno e, fun hops => ?_⟩)
    have hsame := (hkeeps e (by rw [hops]; exact Option.some_ne_none _)).1
    exact hsame.trans hops
  · rfl

end put

def Store.Unset (s : Store) : Prop := s.lib.pathSet = false → s.fifos = []

/-- The name that `ops->init` gives to the FIFO of a new edge. -/
def Store.newFifo (s : Store) (hash : List UInt8 → Nat) (graphPath : List UInt8)
    (p q : NodeHandle) (x : EdgeArgs) : List UInt8 :=
  ((s.lib.graphs p.graph.toNat).linked p.node.toNat q.node.toNat x).fifoName hash graphPath
    (s.names p.graph.toNat) (s.lib.graphs p.graph.toNat).nrEdges

/-- The FIFO of a new edge is made under a name that no FIFO has. -/
def unusedName (hash : List UInt8 → Nat) (graphPath : List UInt8) (s : Store) (c : StoreCall) : Bool :=
  match c.op with
  | .initEdge env _ p q x => decide (x.attr.ops ≠ some .fifo) ||
      (env.mkfifo && !s.fifos.contains (s.newFifo hash graphPath p q x))
  | _ => true

inductive DirMove (hash : List UInt8 → Nat) (graphPath : List UInt8) (s : Store) (c : StoreCall)
    (s' : Store) : Prop
  | drop (ks : Set (Nat × Nat))
      (h : Directory.Drop ks (s.dir hash graphPath) (s'.dir hash graphPath))
  | make (k : Nat × Nat) (env : Env) (dst : Bool) (p q : NodeHandle) (x : EdgeArgs)
      (hop : c.op = .initEdge env dst p q x) (hops : x.attr.ops = some .fifo)
      (hname : (s'.dir hash graphPath).name k = s.newFifo hash graphPath p q x)
      (hfifos : s'.fifos = fifoCreate s.lib.pathSet env.mkfifo (s.newFifo hash graphPath p q x) s.fifos)
      (h : Directory.Make k (s.dir hash graphPath) (s'.dir hash graphPath))

theorem dir_create {i : Nat} {name : CStr} {m : Bool} (hfree : (s.lib.graphs i).inUse = false) :
    Directory.Drop ∅ (s.dir hash graphPath)
      ((s.put m i .fresh (Function.update s.names i name.stored) s.fifos).dir hash graphPath) := by
  have hne : ∀ k ∈ (s.dir hash graphPath).keys, k.1 ≠ i := by
    rintro k ⟨huse, -⟩ rfl
    rw [hfree] at huse
    cases huse
  refine .none ?_ (fun k hk => name_put_of_ne (hne k hk) (Function.update_of_ne (hne k hk) _ _)) rfl
  ext k
  rw [mem_keys_put]
  split
  · rename_i hk
    exact ⟨fun hnew => (by cases hnew.2), fun hold => absurd hk (hne k hold)⟩
  · rfl

theorem dir_destroy {i : Nat} {m : Bool} {fifos : List (List UInt8)} (ht : s.Tidy) (hset : s.Unset)
    (huse : (s.lib.graphs i).inUse = true)
    (hdestroy : (s.lib.graphs i).destroyEdges hash graphPath (s.names i) s.lib.pathSet
      (List.range (s.lib.graphs i).nrEdges) s.fifos = .ok fifos) :
    Directory.Drop {k | k.1 = i} (s.dir hash graphPath) ((s.put m i (s.lib.graphs i).destroyed
      (Function.update s.names i []) fifos).dir hash graphPath) := by
  have hkeys : ∀ k, k ∈ ((s.put m i (s.lib.graphs i).destroyed (Function.update s.names i [])
      fifos).dir hash graphPath).keys ↔ k ∈ (s.dir hash graphPath).keys ∧ k.1 ≠ i := by
    intro k
    rw [mem_keys_put]
    split
    · rename_i hk
      exact ⟨fun hnew => (by cases hnew.1), fun hold => absurd hk hold.2⟩
    · rename_i hk
      exact ⟨fun hold => ⟨hold, hk⟩, And.left⟩
  refine ⟨Set.ext hkeys, fun k hk => ?_, ?_⟩
  · have hne := ((hkeys k).mp hk).2
    exact name_put_of_ne hne (Function.update_of_ne hne _ _)
  · ext f
    refine (mem_destroyEdges hdestroy).trans (and_congr_right (fun hf => ?_))
    -- There are no FIFOs at all without a directory.
    have hpath : s.lib.pathSet = true := by
      by_contra hno
      rw [hset (Bool.eq_false_iff.mpr hno)] at hf
      cases hf
    constructor
    · rintro hgone ⟨⟨j, e⟩, ⟨⟨-, hops⟩, rfl⟩, rfl⟩
      refine hgone hpath e (List.mem_range.mpr ?_) hops rfl
      by_contra hle
      rw [(ht.tidy j huse).beyond e (not_lt.mp hle)] at hops
      cases hops
    · intro hgone _ e _ hops heq
      exact hgone ⟨(i, e), ⟨⟨huse, hops⟩, rfl⟩, heq.symm⟩

theorem dir_edge {env : Env} {dst : Bool} {p q : NodeHandle} {x : EdgeArgs} {g' : GraphRec}
    (hop : c.op = .initEdge env dst p q x) (ht : s.Tidy)
    (hadm : Admitted (s.as c.master).lib dst p q x)
    (hadd : AddsEdge (s.lib.graphs p.graph.toNat) p.node q.node x g') :
    DirMove hash graphPath s c (s.put c.master p.graph.toNat g' s.names
      ((s.lib.graphs p.graph.toNat).addEdgeFifos hash graphPath (s.names p.graph.toNat)
        s.lib.pathSet env p.node q.node x s.fifos)) := by
  have huse : (s.lib.graphs p.graph.toNat).inUse = true := hadm.inUse
  have htidy := ht.tidy _ huse
  have hkeeps := hadd.keeps htidy (ht.short _ huse)
  rw [hadd.fifos htidy hadm.room hadm.nodes.1 hadm.nodes.2]
  generalize hi : p.graph.toNat = i at *
  split
  · rename_i hnew
    obtain ⟨hops, hname⟩ := hadd.linked_fifo htidy hnew hash graphPath (s.names i)
    have hfifo : s.newFifo hash graphPath p q x =
        g'.fifoName hash graphPath (s.names i) (s.lib.graphs i).nrEdges := by
      rw [hname, Store.newFifo, hi]
    refine .make (i, (s.lib.graphs i).nrEdges) env dst p q x hop hops ?_ (by rw [hfifo]; rfl)
      ⟨fun hk => htidy.last_ops hk.2, ?_, eqOn_put hkeeps, ?_, ?_⟩
    · rw [name_put_self, hfifo]
    · ext ⟨j, e⟩
      rw [mem_keys_put, Set.mem_insert_iff, Prod.mk.injEq]
      split
      · rename_i hj
        obtain rfl : j = i := hj
        by_cases he : e = (s.lib.graphs j).nrEdges
        · subst he
          exact ⟨fun _ => Or.inl ⟨rfl, rfl⟩, fun _ => ⟨hadd.inUse.trans huse, hnew⟩⟩
        · rw [hadd.edges_of_ne he, hadd.inUse]
          exact ⟨fun hk => Or.inr hk, fun hk => hk.resolve_left (fun heq => he heq.2)⟩
      · rename_i hj
        exact ⟨fun hk => Or.inr hk, fun hk => hk.resolve_left (fun heq => hj heq.1)⟩
    · rw [name_put_self]
      exact fun f hf => mem_fifoCreate_of_ne hf.1 hf.2
    · rw [name_put_self]
      exact fun f hf => mem_fifoCreate hf
  · rename_i hnew
    refine .drop ∅ (drop_put hadd.inUse hkeeps (fun e hops => ?_))
    by_cases he : e = (s.lib.graphs i).nrEdges
    · subst he
      exact absurd hops hnew
    · rwa [← hadd.edges_of_ne he]

theorem StoreMove.dir (hm : StoreMove hash graphPath s c s') (ht : s.Tidy) (hset : s.Unset) :
    DirMove hash graphPath s c s' := by
  cases hm with
  | same => exact .drop ∅ (.none rfl (fun _ _ => rfl) rfl)
  | create i name hop hlt hfree => exact .drop ∅ (dir_create hfree)
  | node i dst gr name hop huse =>
    obtain ⟨hedges, -, hsame, -, hnodes⟩ := addNode_same (s.lib.graphs i) name
    refine .drop ∅ (drop_put hsame ((ht.tidy i huse).keeps (ht.short i huse) (fun n hn => ?_)
      (fun e _ => congrFun hedges e)) (fun e hops => ?_))
    · rw [hnodes n hn]
    · rwa [← hedges]
  | edge env dst p q x g' hop hadm hadd => exact dir_edge hop ht hadm hadd
  | owner i n t hedge hnode huse =>
    exact .drop ∅ (drop_put rfl ((ht.tidy i huse).keeps (ht.short i huse)
      (fun k _ => setOwner_name _ n t k) (fun _ _ => rfl)) (fun _ hops => hops))
  | destroy i gr fifos hop huse hdestroy => exact .drop _ (dir_destroy ht hset huse hdestroy)

/-! ## Whole runs -/

structure Store.Empty (s : Store) : Prop where
  unused : ∀ i, (s.lib.graphs i).inUse = false
  names : ∀ i, s.names i = []
  fifos : s.fifos = []

structure FifoInv (hash : List UInt8 → Nat) (graphPath : List UInt8) (s : Store) : Prop where
  tidy : s.Tidy
  unset : s.Unset
  owned : (s.dir hash graphPath).Owned

theorem Store.Empty.files (h : s.Empty) : (s.dir hash graphPath).files = ∅ := by
  refine Set.eq_empty_of_forall_notMem (fun f hf => ?_)
  have hmem : f ∈ s.fifos := hf
  rw [h.fifos] at hmem
  cases hmem

theorem Store.Empty.inv (h : s.Empty) : FifoInv hash graphPath s where
  tidy := ⟨fun i huse => (by rw [h.unused i] at huse; cases huse),
    fun i huse => (by rw [h.unused i] at huse; cases huse)⟩
  unset _ := h.fifos
  owned := by
    unfold Directory.Owned
    rw [h.files]
    exact Set.empty_subset _

theorem Store.Empty.exact (h : s.Empty) : (s.dir hash graphPath).Exact := by
  have hkeys : (s.dir hash graphPath).keys = ∅ := by
    refine Set.eq_empty_of_forall_notMem ?_
    rintro k ⟨huse, -⟩
    rw [h.unused k.1] at huse
    cases huse
  refine ⟨?_, hkeys ▸ Set.injOn_empty _⟩
  rw [h.files, hkeys, Set.image_empty]

theorem StoreMove.pathSet (hm : StoreMove hash graphPath s c s') :
    s'.lib.pathSet = s.lib.pathSet := by
  cases hm <;> rfl

theorem DirMove.unset (hd : DirMove hash graphPath s c s')
    (hpath : s'.lib.pathSet = s.lib.pathSet) (h : s.Unset) : s'.Unset := by
  intro hno
  rw [hpath] at hno
  cases hd with
  | drop ks hdrop =>
    refine List.eq_nil_iff_forall_not_mem.mpr (fun f hf => ?_)
    have hmem : f ∈ (s'.dir hash graphPath).files := hf
    rw [hdrop.files] at hmem
    have hold : f ∈ s.fifos := hmem.1
    rw [h hno] at hold
    cases hold
  | make k env dst p q x hop hops hname hfifos =>
    rw [hfifos, hno, h hno]
    rfl

theorem step_fifoInv (h : FifoInv hash graphPath s) (hc : shortNames s c = true)
    (hs : storeStep hash graphPath s c = some s') : FifoInv hash graphPath s' := by
  have hm := storeStep_move hs
  have hd := hm.dir h.tidy h.unset
  refine ⟨hm.tidy h.tidy hc, hd.unset hm.pathSet h.unset, ?_⟩
  cases hd with
  | drop ks hdrop => exact hdrop.owned h.owned
  | make k env dst p q x hop hops hname hfifos hmake => exact hmake.owned h.owned

end

/-- **No FIFO outlives its graph.** Whatever graphs, nodes and edges are made and whichever graphs are
destroyed, every FIFO in the directory is that of a FIFO edge of a graph in use. -/
theorem fifos_of_live_graphs {hash : List UInt8 → Nat} {graphPath : List UInt8} {s₀ s : Store}
    (h₀ : s₀.Empty)
    (h : Lts.Reach (storeStep hash graphPath) (fun s c => shortNames s c = true) s₀ s) :
    (∀ f ∈ s.fifos, ∃ i e, (s.lib.graphs i).inUse = true ∧ e < (s.lib.graphs i).nrEdges ∧
      ((s.lib.graphs i).edges e).ops = some .fifo ∧
      f = (s.lib.graphs i).fifoName hash graphPath (s.names i) e) ∧
    ((∀ i, (s.lib.graphs i).inUse = false) → s.fifos = []) := by
  have hinv : FifoInv hash graphPath s :=
    h.inv h₀.inv (fun _ _ _ _ hi hp hs => step_fifoInv hi hp hs)
  have hall : ∀ f ∈ s.fifos, ∃ i e, (s.lib.graphs i).inUse = true ∧ e < (s.lib.graphs i).nrEdges ∧
      ((s.lib.graphs i).edges e).ops = some .fifo ∧
      f = (s.lib.graphs i).fifoName hash graphPath (s.names i) e := by
    intro f hf
    obtain ⟨⟨i, e⟩, ⟨huse, hops⟩, rfl⟩ := hinv.owned hf
    refine ⟨i, e, huse, ?_, hops, rfl⟩
    by_contra hle
    rw [(hinv.tidy.tidy i huse).beyond e (not_lt.mp hle)] at hops
    cases hops
  refine ⟨hall, fun hfree => List.eq_nil_iff_forall_not_mem.mpr (fun f hf => ?_)⟩
  obtain ⟨i, e, huse, -⟩ := hall f hf
  rw [hfree i] at huse
  cases huse

/-- The library after `pgm_init`. -/
def emptyStore : Store :=
  ⟨⟨fun _ => { GraphRec.fresh with inUse := false }, true, true, true⟩, fun _ => [], true, []⟩

theorem emptyStore_empty : emptyStore.Empty := ⟨fun _ => rfl, fun _ => rfl, rfl⟩

/-- Two graphs of two nodes with a FIFO edge each, of which the first is destroyed. -/
def twoGraphs : List StoreCall :=
  [⟨true, .initGraph nameA⟩, ⟨true, .initNode true 0 nameA⟩, ⟨true, .initNode true 0 nameB⟩,
    ⟨true, .initGraph nameB⟩, ⟨true, .initNode true 1 nameA⟩, ⟨true, .initNode true 1 nameB⟩,
    ⟨true, .initEdge quietEnv true ⟨0, 0⟩ ⟨0, 1⟩ ⟨nameA, fifoAttr, none⟩⟩,
    ⟨true, .initEdge quietEnv true ⟨1, 0⟩ ⟨1, 1⟩ ⟨nameA, fifoAttr, none⟩⟩,
    ⟨true, .destroyGraph 0⟩]

theorem fifos_of_two_graphs : ∃ s : Store, s.fifos.length = 1 ∧ ∀ f ∈ s.fifos, ∃ i e,
    (s.lib.graphs i).inUse = true ∧ f = (s.lib.graphs i).fifoName hashRange tmpG (s.names i) e := by
  have hd : (Lts.drive (storeStep hashRange tmpG) shortNames emptyStore twoGraphs).map
      (fun s => s.fifos.length) = some 1 := by
    decide +kernel
  obtain ⟨s, hs, hlen⟩ := Lts.reach_of_drive_map (fun _ _ hp => hp) hd
  refine ⟨s, hlen, fun f hf => ?_⟩
  obtain ⟨i, e, huse, -, -, hname⟩ := (fifos_of_live_graphs emptyStore_empty hs).1 f hf
  exact ⟨i, e, huse, hname⟩

theorem step_exact {hash : List UInt8 → Nat} {graphPath : List UInt8} {s s' : Store} {c : StoreCall}
    (h : FifoInv hash graphPath s) (hpath : s.lib.pathSet = true)
    (he : (s.dir hash graphPath).Exact) (hc : unusedName hash graphPath s c = true)
    (hs : storeStep hash graphPath s c = some s') : (s'.dir hash graphPath).Exact := by
  cases (storeStep_move hs).dir h.tidy h.unset with
  | drop ks hdrop => exact hdrop.exact he
  | make k env dst p q x hop hops hname hfifos hmake =>
    rw [unusedName, hop] at hc
    simp only [hops, ne_eq, not_true_eq_false, decide_false, Bool.false_or, Bool.and_eq_true,
      Bool.not_eq_true', List.contains_eq_mem, decide_eq_false_iff_not] at hc
    refine hmake.exact he ?_ ?_
    · have hmade : s.newFifo hash graphPath p q x ∈ s'.fifos := by
        rw [hfifos, hpath, hc.1]
        exact List.mem_cons_self
      rw [hname]
      exact hmade
    · rw [hname]
      exact hc.2

theorem exact_of_reach {hash : List UInt8 → Nat} {graphPath : List UInt8} {s₀ s : Store}
    (h₀ : s₀.Empty) (hpath : s₀.lib.pathSet = true)
    (h : Lts.Reach (storeStep hash graphPath)
      (fun s c => shortNames s c = true ∧ unusedName hash graphPath s c = true) s₀ s) :
    (s.dir hash graphPath).Exact := by
  have hinv : FifoInv hash graphPath s ∧ s.lib.pathSet = true ∧ (s.dir hash graphPath).Exact := by
    refine h.inv (I := fun s => FifoInv hash graphPath s ∧ s.lib.pathSet = true ∧
      (s.dir hash graphPath).Exact) ⟨h₀.inv, hpath, h₀.exact⟩ (fun t c t' _ hi hp hs => ?_)
    exact ⟨step_fifoInv hi.1 hp.1 hs, (storeStep_move hs).pathSet.trans hi.2.1,
      step_exact hi.1 hi.2.1 hi.2.2 hp.2 hs⟩
  exact hinv.2.2

/-- **Every FIFO edge has its FIFO.** While `mkfifo` succeeds and new FIFOs get names that are not in the
directory, the FIFOs there are exactly those of the FIFO edges of the graphs in use, one for each. -/
theorem live_edges_have_fifos {hash : List UInt8 → Nat} {graphPath : List UInt8} {s₀ s : Store}
    (h₀ : s₀.Empty) (hpath : s₀.lib.pathSet = true)
    (h : Lts.Reach (storeStep hash graphPath)
      (fun s c => shortNames s c = true ∧ unusedName hash graphPath s c = true) s₀ s) :
    (∀ f, f ∈ s.fifos ↔ ∃ i e, (s.lib.graphs i).inUse = true ∧
      ((s.lib.graphs i).edges e).ops = some .fifo ∧
      f = (s.lib.graphs i).fifoName hash graphPath (s.names i) e) ∧
    ∀ i e j d, (s.lib.graphs i).inUse = true → ((s.lib.graphs i).edges e).ops = some .fifo →
      (s.lib.graphs j).inUse = true → ((s.lib.graphs j).edges d).ops = some .fifo →
      (s.lib.graphs i).fifoName hash graphPath (s.names i) e =
        (s.lib.graphs j).fifoName hash graphPath (s.names j) d → i = j ∧ e = d := by
  have hexact := exact_of_reach h₀ hpath h
  constructor
  · intro f
    have hmem : f ∈ s.fifos ↔ f ∈ (s.dir hash graphPath).name '' (s.dir hash graphPath).keys := by
      rw [← hexact.files]
      rfl
    rw [hmem]
    constructor
    · rintro ⟨⟨i, e⟩, ⟨huse, hops⟩, rfl⟩
      exact ⟨i, e, huse, hops, rfl⟩
    · rintro ⟨i, e, huse, hops, rfl⟩
      exact ⟨(i, e), ⟨huse, hops⟩, rfl⟩
  · intro i e j d hi he hj hd heq
    have hsame := @hexact.apart (i, e) ⟨hi, he⟩ (j, d) ⟨hj, hd⟩ heq
    exact Prod.mk.inj hsame

theorem two_graphs_have_fifos : ∃ s : Store, (s.lib.graphs 1).inUse = true ∧
    ((s.lib.graphs 1).edges 0).ops = some .fifo ∧
    (s.lib.graphs 1).fifoName hashRange tmpG (s.names 1) 0 ∈ s.fifos := by
  have hd : (Lts.drive (storeStep hashRange tmpG)
      (fun s c => shortNames s c && unusedName hashRange tmpG s c) emptyStore twoGraphs).map
      (fun s => ((s.lib.graphs 1).inUse, ((s.lib.graphs 1).edges 0).ops)) =
      some (true, some .fifo) := by
    decide +kernel
  obtain ⟨s, hs, hobs⟩ := Lts.reach_of_drive_map (fun _ _ hp => Bool.and_eq_true_iff.mp hp) hd
  obtain ⟨huse, hops⟩ := Prod.mk.inj hobs
  exact ⟨s, huse, hops,
    ((live_edges_have_fifos emptyStore_empty rfl hs).1 _).mpr ⟨1, 0, huse, hops, rfl⟩⟩

end Pgm.Tables
