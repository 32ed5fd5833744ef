import Pgm.Find

/-!
# The names of FIFOs and message queues

`fifo_name` joins the names of the graph, of the two nodes and of the edge with underscores,
which names may hold themselves. `ipc_names_differ_iff` says for which two edges this gives two
names: cut at their underscores and put one after the other, the names must give different
pieces. Names without underscores and of less than 80 bytes give different names
(`plain_names_differ`).
-/

namespace Pgm.Tables

def le32 (v : Nat) : List UInt8 :=
  [v, v / 256, v / 65536, v / 16777216].map UInt8.ofNat

/-- The string in an array of `nameLen` characters that is followed by the `int` `after`. A name
of `nameLen` bytes has no NUL, and the string goes on with the bytes of `after` up to the first
that is zero. An index of a table has one among its four. -/
def readName (stored : List UInt8) (after : Nat) : List UInt8 :=
  if stored.length < nameLen then stored else stored ++ (le32 after).takeWhile (· ≠ 0)

/-- `node->name` as a string. `in[0]` follows it, which is zero in a node without in-edges. -/
def NodeRec.cname (n : NodeRec) : List UInt8 := readName n.name (n.ins.headD 0)

/-- `edge->name` as a string. `producer` follows it. -/
def EdgeRec.cname (e : EdgeRec) : List UInt8 := readName e.name e.producer

def underscore : UInt8 := 95

def edgeSuffix : List UInt8 := [46, 101, 100, 103, 101]

/-- A `size_t` as a stream prints it. -/
def decimal (n : Nat) : List UInt8 := (Nat.toDigits 10 n).map (fun d => UInt8.ofNat d.toNat)

/-- `fifo_name`. `hash` is `boost::hash<std::string>` and `graph` is `g->name`: the padding in
front of `g->lock` ends also a name of `nameLen` bytes. -/
def fifoName (hash : List UInt8 → Nat) (graphPath graph : List UInt8) (producer consumer : NodeRec)
    (edge : EdgeRec) : List UInt8 :=
  decimal (hash graphPath) ++ underscore :: (graph ++ underscore :: (producer.cname ++
    underscore :: (consumer.cname ++ underscore :: edge.cname))) ++ edgeSuffix

def mqName (hash : List UInt8 → Nat) (graphPath graph : List UInt8) (producer consumer : NodeRec)
    (edge : EdgeRec) : List UInt8 :=
  fifoName hash graphPath graph producer consumer edge

def GraphRec.fifoName (g : GraphRec) (hash : List UInt8 → Nat) (graphPath graph : List UInt8)
    (e : Nat) : List UInt8 :=
  Tables.fifoName hash graphPath graph (g.nodes (g.edges e).producer)
    (g.nodes (g.edges e).consumer) (g.edges e)

def GraphRec.mqName (g : GraphRec) (hash : List UInt8 → Nat) (graphPath graph : List UInt8)
    (e : Nat) : List UInt8 :=
  Tables.mqName hash graphPath graph (g.nodes (g.edges e).producer)
    (g.nodes (g.edges e).consumer) (g.edges e)

/-! ## Names that were given to the calls -/

/-- The names that an edge was given: those of its graph, of its nodes, and its own. -/
structure EdgeNames where
  graph : CStr
  producer : CStr
  consumer : CStr
  edge : CStr
  deriving DecidableEq

/-- The names of the `e`-th edge of a graph built by `calls`. -/
def namesOf (graph : CStr) (calls : List Call) (e : Nat) : Option EdgeNames :=
  (edgeKeys calls)[e]?.bind (fun k =>
    (nodeNames calls)[k.producer.toNat]?.bind (fun p =>
      (nodeNames calls)[k.consumer.toNat]?.map (fun c => ⟨graph, p, c, k.name⟩)))

def cut (s : List UInt8) : List (List UInt8) := s.splitOn underscore

def EdgeNames.pieces (x : EdgeNames) (g : GraphRec) (e : Nat) : List (List UInt8) :=
  cut x.graph.stored ++
    cut (readName x.producer.stored ((g.nodes (g.edges e).producer).ins.headD 0)) ++
    cut (readName x.consumer.stored ((g.nodes (g.edges e).consumer).ins.headD 0)) ++
    cut (readName x.edge.stored (g.edges e).producer)

section

variable {l s : Lib} {gr : Int} {calls : List Call} {graph : CStr} {e : Nat} {x : EdgeNames}

theorem cut_append (a b : List UInt8) : cut (a ++ underscore :: b) = cut a ++ cut b :=
  List.splitOnP_append_cons a b (by decide)

theorem cut_inj {a b : List UInt8} (h : cut a = cut b) : a = b := by
  have hjoin : ∀ c : List UInt8, [underscore].intercalate (cut c) = c :=
    fun _ => List.intercalate_splitOn underscore
  rw [← hjoin a, ← hjoin b, h]

theorem namesOf_stored (hl : NewGraph l gr) (hr : Lts.run (step gr) l calls = some s)
    (hx : namesOf graph calls e = some x) :
    x.graph = graph ∧
    ((s.graphs gr.toNat).nodes ((s.graphs gr.toNat).edges e).producer).name = x.producer.stored ∧
    ((s.graphs gr.toNat).nodes ((s.graphs gr.toNat).edges e).consumer).name = x.consumer.stored ∧
    ((s.graphs gr.toNat).edges e).name = x.edge.stored := by
  have h := (run_new hl hr).holds
  obtain ⟨k, hk, hx⟩ := Option.bind_eq_some_iff.mp hx
  obtain ⟨p, hp, hx⟩ := Option.bind_eq_some_iff.mp hx
  obtain ⟨c, hc, rfl⟩ := Option.map_eq_some_iff.mp hx
  obtain ⟨hname, hpr, hco⟩ := h.edge e k hk
  have hpn : ((s.graphs gr.toNat).edges e).producer = k.producer.toNat := by omega
  have hcn : ((s.graphs gr.toNat).edges e).consumer = k.consumer.toNat := by omega
  rw [hpn, hcn]
  exact ⟨rfl, h.node _ p hp, h.node _ c hc, hname⟩

/-- The name of an edge determines the pieces, and the pieces determine it. -/
theorem cut_fifoName (hl : NewGraph l gr) (hr : Lts.run (step gr) l calls = some s)
    (hx : namesOf graph calls e = some x) (hash : List UInt8 → Nat) (graphPath : List UInt8) :
    ∃ t, (s.graphs gr.toNat).fifoName hash graphPath graph.stored e =
      decimal (hash graphPath) ++ underscore :: t ++ edgeSuffix ∧
      cut t = x.pieces (s.graphs gr.toNat) e := by
  obtain ⟨rfl, hp, hc, he⟩ := namesOf_stored hl hr hx
  refine ⟨_, rfl, ?_⟩
  rw [cut_append, cut_append, cut_append, NodeRec.cname, NodeRec.cname, EdgeRec.cname, hp, hc, he,
    EdgeNames.pieces, List.append_assoc, List.append_assoc]

theorem fifoName_eq_iff (hash : List UInt8 → Nat) (graphPath : List UInt8) {l' s' : Lib} {gr' : Int}
    {calls' : List Call} {graph' : CStr} {e' : Nat} {y : EdgeNames} (hl : NewGraph l gr)
    (hl' : NewGraph l' gr') (hr : Lts.run (step gr) l calls = some s)
    (hr' : Lts.run (step gr') l' calls' = some s') (hx : namesOf graph calls e = some x)
    (hy : namesOf graph' calls' e' = some y) :
    (s.graphs gr.toNat).fifoName hash graphPath graph.stored e =
      (s'.graphs gr'.toNat).fifoName hash graphPath graph'.stored e' ↔
      x.pieces (s.graphs gr.toNat) e = y.pieces (s'.graphs gr'.toNat) e' := by
  obtain ⟨t, ht, hcut⟩ := cut_fifoName hl hr hx hash graphPath
  obtain ⟨t', ht', hcut'⟩ := cut_fifoName hl' hr' hy hash graphPath
  rw [ht, ht', ← hcut, ← hcut']
  constructor
  · intro h
    have h' := List.append_cancel_left (List.append_cancel_right h)
    exact congrArg cut (List.cons.inj h').2
  · intro h
    rw [cut_inj h]

/-! ## Plain names -/

/-- No underscores, and the NUL fits into the array. -/
structure CStr.Plain (c : CStr) : Prop where
  uncut : underscore ∉ c.bytes
  short : c.bytes.length < nameLen

structure EdgeNames.Plain (x : EdgeNames) : Prop where
  graph : x.graph.Plain
  producer : x.producer.Plain
  consumer : x.consumer.Plain
  edge : x.edge.Plain

theorem CStr.Plain.cut_stored {c : CStr} (h : c.Plain) : cut c.stored = [c.bytes] := by
  rw [CStr.stored, List.take_of_length_le h.short.le]
  exact List.splitOn_eq_singleton h.uncut

theorem CStr.Plain.cut_readName {c : CStr} (h : c.Plain) (after : Nat) :
    cut (readName c.stored after) = [c.bytes] := by
  have hlen : c.stored.length < nameLen := by
    rw [CStr.stored, List.take_of_length_le h.short.le]
    exact h.short
  rw [readName, if_pos hlen, h.cut_stored]

theorem EdgeNames.Plain.pieces_eq (h : x.Plain) (g : GraphRec) (e : Nat) :
    x.pieces g e = [x.graph.bytes, x.producer.bytes, x.consumer.bytes, x.edge.bytes] := by
  rw [EdgeNames.pieces, h.graph.cut_stored, h.producer.cut_readName, h.consumer.cut_readName,
    h.edge.cut_readName]
  rfl

theorem plain_names_differ (hash : List UInt8 → Nat) (graphPath : List UInt8) {l' s' : Lib}
    {gr' : Int} {calls' : List Call} {graph' : CStr} {e' : Nat} {y : EdgeNames}
    (hl : NewGraph l gr) (hl' : NewGraph l' gr') (hr : Lts.run (step gr) l calls = some s)
    (hr' : Lts.run (step gr') l' calls' = some s') (hx : namesOf graph calls e = some x)
    (hy : namesOf graph' calls' e' = some y) (hpx : x.Plain) (hpy : y.Plain) (hne : x ≠ y) :
    (s.graphs gr.toNat).fifoName hash graphPath graph.stored e ≠
      (s'.graphs gr'.toNat).fifoName hash graphPath graph'.stored e' ∧
    (s.graphs gr.toNat).mqName hash graphPath graph.stored e ≠
      (s'.graphs gr'.toNat).mqName hash graphPath graph'.stored e' := by
  have hfifo : (s.graphs gr.toNat).fifoName hash graphPath graph.stored e ≠
      (s'.graphs gr'.toNat).fifoName hash graphPath graph'.stored e' := by
    rw [Ne, fifoName_eq_iff hash graphPath hl hl' hr hr' hx hy, hpx.pieces_eq, hpy.pieces_eq]
    intro h
    simp only [List.cons.injEq, and_true] at h
    obtain ⟨hgraph, hp, hc, he⟩ := h
    refine hne ?_
    rw [EdgeNames.mk.injEq]
    exact ⟨CStr.ext hgraph, CStr.ext hp, CStr.ext hc, CStr.ext he⟩
  -- `mq_name` is `fifo_name`
  exact ⟨hfifo, hfifo⟩

end

/-- **Which edges share a name.** Two edges with different names of their own, of their nodes or
of their graph get different FIFOs and message queues exactly when the pieces between the
underscores of the four names are not the same. -/
theorem ipc_names_differ_iff (hash : List UInt8 → Nat) (graphPath : List UInt8)
    {l l' s s' : Lib} {gr gr' : Int} {calls calls' : List Call} {graph graph' : CStr} {e e' : Nat}
    {x y : EdgeNames} (hl : NewGraph l gr) (hl' : NewGraph l' gr')
    (hr : Lts.run (step gr) l calls = some s) (hr' : Lts.run (step gr') l' calls' = some s')
    (hx : namesOf graph calls e = some x) (hy : namesOf graph' calls' e' = some y) :
    (x ≠ y →
      (s.graphs gr.toNat).fifoName hash graphPath graph.stored e ≠
        (s'.graphs gr'.toNat).fifoName hash graphPath graph'.stored e' ∧
      (s.graphs gr.toNat).mqName hash graphPath graph.stored e ≠
        (s'.graphs gr'.toNat).mqName hash graphPath graph'.stored e') ↔
    (x = y ∨ x.pieces (s.graphs gr.toNat) e ≠ y.pieces (s'.graphs gr'.toNat) e') := by
  have hname := fifoName_eq_iff hash graphPath hl hl' hr hr' hx hy
  -- `mq_name` is `fifo_name`
  change (x ≠ y → _ ≠ _ ∧ (s.graphs gr.toNat).fifoName hash graphPath graph.stored e ≠
    (s'.graphs gr'.toNat).fifoName hash graphPath graph'.stored e') ↔ _
  rw [and_self, ← or_iff_not_imp_left, Ne, hname]

/-- A library set up by `pgm_init` with a directory. -/
def pathLib : Lib := { newLib with pathSet := true }

theorem pathLib_newGraph : NewGraph pathLib 0 := ⟨rfl, by decide, rfl⟩

/-- `boost::hash_range` over characters, with the documented `hash_combine` on 64 bits. -/
def hashRange (s : List UInt8) : Nat :=
  s.foldl (fun seed c =>
    seed ^^^ ((c.toNat + 0x9e3779b9 + seed * 64 + seed / 4) % 2 ^ 64)) 0

def tmpG : List UInt8 := [47, 116, 109, 112, 47, 103]

def nameC : CStr := ⟨[99], by decide⟩
def nameA_b : CStr := ⟨[97, 95, 98], by decide⟩
def nameB_c : CStr := ⟨[98, 95, 99], by decide⟩

/-- FIFO edges from `a_b` to `c` and from `a` to `b_c`. -/
def crossedCalls : List Call :=
  [.node nameA_b, .node nameC, .node nameA, .node nameB_c,
    .edge quietEnv 0 1 ⟨nameA, fifoAttr, none⟩, .edge quietEnv 2 3 ⟨nameA, fifoAttr, none⟩]

/-- The names of the nodes of edge `e` and its own, as strings. -/
def GraphRec.ipcNames (g : GraphRec) (e : Nat) : List (List UInt8) :=
  [(g.nodes (g.edges e).producer).cname, (g.nodes (g.edges e).consumer).cname, (g.edges e).cname]

/-- The two edges of `crossedCalls`, with the same name of their own, share a FIFO in every
directory. -/
theorem crossed_names : ∃ s x y, Lts.run (step 0) pathLib crossedCalls = some s ∧
    namesOf nameA crossedCalls 0 = some x ∧ namesOf nameA crossedCalls 1 = some y ∧ x ≠ y ∧
    ((s.graphs 0).edges 0).ops = some .fifo ∧ ((s.graphs 0).edges 1).ops = some .fifo ∧
    ∀ hash graphPath, (s.graphs 0).fifoName hash graphPath nameA.stored 0 =
      (s.graphs 0).fifoName hash graphPath nameA.stored 1 := by
  have hd : (Lts.run (step 0) pathLib crossedCalls).map (fun s => [0, 1].map (fun e =>
      (((s.graphs 0).edges e).ops, (s.graphs 0).ipcNames e))) =
      some [(some Ops.fifo, [[97, 95, 98], [99], [97]]),
        (some Ops.fifo, [[97], [98, 95, 99], [97]])] := by
    decide +kernel
  obtain ⟨s, hs, hobs⟩ := Option.map_eq_some_iff.mp hd
  simp only [GraphRec.ipcNames, List.map_cons, List.map_nil, Prod.mk.injEq, List.cons.injEq,
    and_true] at hobs
  obtain ⟨⟨h0, hp0, hc0, he0⟩, h1, hp1, hc1, he1⟩ := hobs
  refine ⟨s, ⟨nameA, nameA_b, nameC, nameA⟩, ⟨nameA, nameA, nameB_c, nameA⟩, hs, rfl, rfl,
    by decide, h0, h1, fun hash graphPath => ?_⟩
  rw [GraphRec.fifoName, GraphRec.fifoName, fifoName, fifoName, hp0, hc0, he0, hp1, hc1, he1]
  rfl

/-- Two FIFO edges from `a` to `b_c`, named `a` and `b_c`. -/
def parallelCalls : List Call :=
  [.node nameA, .node nameB_c,
    .edge quietEnv 0 1 ⟨nameA, fifoAttr, none⟩, .edge quietEnv 0 1 ⟨nameB_c, fifoAttr, none⟩]

def parallelNames (own : CStr) : EdgeNames := ⟨nameA, nameA, nameB_c, own⟩

theorem ipc_names_differ_iff_parallel : ∃ s, Lts.run (step 0) pathLib parallelCalls = some s ∧
    (s.graphs 0).fifoName hashRange tmpG nameA.stored 0 ≠
      (s.graphs 0).fifoName hashRange tmpG nameA.stored 1 := by
  have hd : (Lts.run (step 0) pathLib parallelCalls).map (fun s =>
      decide ((parallelNames nameA).pieces (s.graphs 0) 0 =
        (parallelNames nameB_c).pieces (s.graphs 0) 1)) = some false := by
    decide +kernel
  obtain ⟨s, hs, hobs⟩ := Option.map_eq_some_iff.mp hd
  have hx : namesOf nameA parallelCalls 0 = some (parallelNames nameA) := rfl
  have hy : namesOf nameA parallelCalls 1 = some (parallelNames nameB_c) := rfl
  have hiff := ipc_names_differ_iff hashRange tmpG pathLib_newGraph pathLib_newGraph hs hs hx hy
  exact ⟨s, hs, (hiff.mpr (Or.inr (of_decide_eq_false hobs)) (by decide)).1⟩

end Pgm.Tables
