import Pgm.Buffers
import Pgm.Machine

/-!
# The graph that the calls build

The machine runs on a `Graph`, where the lists, counters and masks of a node are read off the
edges. The source keeps them in its tables, which `pgm_init_node`, `pgm_init_edge` and
`pgm_init_backedge` fill in.

* `GraphRec.toGraph`: the graph that the tables hold;
* `calls_build_graph`: after every sequence of successful calls the tables and the graph agree, and
  the tokens, skips and rings of the new edges are those of the first state of the machine.
-/

namespace Pgm.Tables

open RingBuf

/-! ## Types and attributes -/

/-- The flags of a member of `pgm_edge_type_t`. -/
def flags : EdgeType → BitVec 32
  | .cv => pgmEdgeCv ||| pgmSignaled
  | .ring => pgmEdgeRing ||| pgmSignaled ||| pgmDataPassing
  | .fastFifo => pgmEdgeFifo ||| pgmSignaled ||| pgmDataPassing
  | .fastMq => pgmEdgeMq ||| pgmSignaled ||| pgmDataPassing
  | .fifo => pgmEdgeFifo ||| pgmDataPassing
  | .mq => pgmEdgeMq ||| pgmDataPassing
  | .sockStream => pgmEdgeSockStream ||| pgmDataPassing

/-- The member of `pgm_edge_type_t` with the given flags. -/
def typeOf (f : BitVec 32) : EdgeType :=
  ([.cv, .ring, .fastFifo, .fastMq, .fifo, .mq, .sockStream].find? (fun t => flags t == f)).getD .cv

def opsOf : EdgeType → Ops
  | .cv => .cv
  | .ring => .ring
  | .fastFifo | .fifo => .fifo
  | .fastMq | .mq => .mq
  | .sockStream => .sockStream

/-- What the code asks of the flags is what the machine asks of the type. -/
structure Reads (a : Attr) (t : EdgeType) : Prop where
  flags : a.type = flags t
  signaled : a.isSignalDriven = t.isSignalDriven
  data : a.isDataPassing = t.isDataPassing
  mq : a.has pgmEdgeMq = t.isMq
  ring : a.has pgmEdgeRing = t.isRing
  ops : a.ops = some (opsOf t)

theorem reads_typeOf {a : Attr} (ht : a.type ∈ edgeTypes) : Reads a (typeOf a.type) := by
  have hall : ∀ f ∈ edgeTypes, a.type = f → Reads a (typeOf f) := by
    intro f hf ha
    simp only [edgeTypes, List.mem_cons, List.not_mem_nil, or_false] at hf
    rcases hf with rfl | rfl | rfl | rfl | rfl | rfl | rfl <;> constructor <;>
      simp only [Attr.isSignalDriven, Attr.isDataPassing, Attr.ops, Attr.has, ha] <;> decide
  exact hall _ ht rfl

/-- The attributes as the machine has them. Both parameters are the first word of the union. -/
def Attr.toAttr (a : Attr) : EdgeAttr where
  nrProduce := a.nrProduce.toNat
  nrConsume := a.nrConsume.toNat
  nrThreshold := a.nrThreshold.toNat
  type := typeOf a.type
  nrInit := a.param.toNat
  nmemb := a.param.toNat

theorem check_kinds {a : Attr} (h : a.check = true) :
    (a.has pgmEdgeMq = true → a.nrProduce = a.nrConsume) ∧
      (a.has pgmEdgeRing = true → a.nrProduce = a.nrConsume ∧ a.param ≠ 0) := by
  unfold Attr.check at h
  split at h
  · cases h
  rename_i hmq
  split at h
  · cases h
  rename_i hring
  split at h
  · cases h
  rename_i hparam
  simp only [Bool.and_eq_true, bne_iff_ne, ne_eq, not_and, not_not, beq_iff_eq] at hmq hring hparam
  exact ⟨hmq, fun hr => ⟨hring hr, hparam hr⟩⟩

theorem toAttr_accepted {a : Attr} (hc : a.check = true) (ht : a.type ∈ edgeTypes) :
    a.toAttr.Accepted := by
  obtain ⟨hthreshold, hconsume, hproduce⟩ := check_amounts hc
  obtain ⟨hmq, hring⟩ := check_kinds hc
  have hreads := reads_typeOf ht
  rw [hreads.mq] at hmq
  rw [hreads.ring] at hring
  refine ⟨fun h => congrArg UInt64.toNat (hmq h), fun h => ?_, UInt64.le_iff_toNat_le.mp hthreshold,
    UInt64.le_iff_toNat_le.mp hproduce, UInt64.le_iff_toNat_le.mp hconsume, a.nrProduce.toNat_lt,
    a.nrThreshold.toNat_lt, a.param.toNat_lt⟩
  obtain ⟨heq, hne⟩ := hring h
  exact ⟨congrArg UInt64.toNat heq, fun h0 => hne (UInt64.toNat.inj h0)⟩

/-! ## New edges -/

/-- What a successful `__pgm_init_edge` leaves in the record of an edge. -/
structure Created (e : EdgeRec) : Prop where
  check : e.attr.check = true
  typed : e.attr.type ∈ edgeTypes
  skips : e.isBackedge = false → e.nrSkips = 0
  pending : e.nrPending = if typeOf e.attr.type = .cv then e.attr.param else 0
  ring : typeOf e.attr.type = .ring → ∃ junk,
    e.ringbuf = initRing junk e.attr.param.toNat e.attr.nrProduce.toNat ∧ e.ringbuf.isSome = true

theorem created_of_init {x : EdgeArgs} {ops : Ops} {pathSet : Bool} {env : Env} {p c : Nat}
    {e : EdgeRec} (hc : x.attr.check = true) (ht : x.attr.type ∈ edgeTypes)
    (hops : x.attr.ops = some ops) (h : ops.init pathSet env (x.record p c) = some e) :
    Created e := by
  have hskips : x.skips.isSome = false → x.skips.getD 0 = 0 := by
    cases x.skips with
    | none => exact fun _ => rfl
    | some k => exact fun h => by cases h
  have hof : opsOf (typeOf x.attr.type) = ops :=
    Option.some.inj ((reads_typeOf ht).ops.symm.trans hops)
  subst hof
  cases hk : typeOf x.attr.type with
  | cv =>
    rw [hk] at h
    obtain rfl := Option.some.inj h
    exact ⟨hc, ht, hskips, (if_pos hk).symm, fun hr => by cases hk.symm.trans hr⟩
  | ring =>
    rw [hk] at h
    simp only [opsOf, Ops.init, Option.ite_none_left_eq_some, Option.map_eq_some_iff] at h
    obtain ⟨-, r, hr, rfl⟩ := h
    refine ⟨hc, ht, hskips, (if_neg (fun h => by cases hk.symm.trans h)).symm, fun _ => ?_⟩
    exact ⟨env.junk, hr.symm, rfl⟩
  | fastFifo | fifo | fastMq | mq =>
    rw [hk] at h
    simp only [opsOf, Ops.init, Option.ite_none_right_eq_some, Option.some.injEq] at h
    obtain ⟨-, rfl⟩ := h
    exact ⟨hc, ht, hskips, (if_neg (fun h => by cases hk.symm.trans h)).symm,
      fun hr => by cases hk.symm.trans hr⟩
  | sockStream =>
    rw [hk] at h
    obtain rfl := Option.some.inj h
    exact ⟨hc, ht, hskips, (if_neg (fun h => by cases hk.symm.trans h)).symm,
      fun hr => by cases hk.symm.trans hr⟩

def EdgeRec.toEdge (e : EdgeRec) (h : Created e) : Edge where
  producer := e.producer
  consumer := e.consumer
  isBackedge := e.isBackedge
  attr := e.attr.toAttr
  skips := e.nrSkips.toNat
  accepted := toAttr_accepted h.check h.typed
  skips_forward := fun hf => congrArg UInt64.toNat (h.skips hf)

/-! ## The graph in the tables -/

structure Initialised (g : GraphRec) : Prop where
  represents : Represents g
  created : ∀ e < g.nrEdges, Created (g.edges e)

section

variable {g g' : GraphRec} {n e : Nat}

def GraphRec.edgeList (g : GraphRec) (h : Initialised g) : List Edge :=
  List.ofFn (fun i : Fin g.nrEdges => (g.edges i).toEdge (h.created i i.isLt))

theorem edgeList_length (h : Initialised g) : (g.edgeList h).length = g.nrEdges := List.length_ofFn

theorem edgeList_getD (h : Initialised g) (he : e < g.nrEdges) :
    (g.edgeList h).getD e default = (g.edges e).toEdge (h.created e he) := by
  rw [List.getD_eq_getElem?_getD, GraphRec.edgeList, List.getElem?_ofFn, dif_pos he]
  rfl

/-- The edges with a property that can be read off their records. -/
theorem edgesWith_edgeList (h : Initialised g) {p : Edge → Bool} {q : EdgeRec → Bool}
    (hpq : ∀ e he, p (EdgeRec.toEdge e he) = q e) :
    edgesWith (g.edgeList h) p = (List.range g.nrEdges).filter (fun i => q (g.edges i)) := by
  rw [edgesWith, edgeList_length]
  refine List.filter_congr (fun i hi => ?_)
  rw [edgeList_getD h (List.mem_range.mp hi)]
  exact hpq _ _

theorem edgeList_ends (h : Initialised g) :
    ∀ e ∈ g.edgeList h, e.producer < g.nrNodes ∧ e.consumer < g.nrNodes := by
  intro e he
  obtain ⟨i, rfl⟩ := List.mem_ofFn.mp he
  exact (h.represents.attrs i i.isLt).2.2.2

theorem edgeList_inDegree (h : Initialised g) (n : Nat) :
    (edgesWith (g.edgeList h) (fun e => e.consumer == n)).length < 32 := by
  rw [edgesWith_edgeList h (q := fun e => e.consumer == n) (fun _ _ => rfl)]
  by_cases hn : n < g.nrNodes
  · rw [← h.represents.ins n hn]
    exact (h.represents.degree n hn).1
  · -- no edge leads to a node that is not there
    rw [List.filter_eq_nil_iff.mpr]
    · exact Nat.zero_lt_succ 31
    · intro e he
      have hlt := (h.represents.attrs e (List.mem_range.mp he)).2.2.2.2
      simp only [beq_iff_eq]
      omega

def GraphRec.toGraph (g : GraphRec) (h : Initialised g) : Graph where
  nrNodes := g.nrNodes
  edges := g.edgeList h
  ends := edgeList_ends h
  inDegree := edgeList_inDegree h

theorem toGraph_edge (h : Initialised g) (he : e < g.nrEdges) :
    (g.toGraph h).edge e = (g.edges e).toEdge (h.created e he) := edgeList_getD h he

theorem toGraph_inEdges (h : Initialised g) (hn : n < g.nrNodes) :
    (g.toGraph h).inEdges n = (g.nodes n).ins :=
  (edgesWith_edgeList h (q := fun e => e.consumer == n) (fun _ _ => rfl)).trans
    (h.represents.ins n hn).symm

theorem toGraph_outEdges (h : Initialised g) (hn : n < g.nrNodes) :
    (g.toGraph h).outEdges n = (g.nodes n).outs :=
  (edgesWith_edgeList h (q := fun e => e.producer == n) (fun _ _ => rfl)).trans
    (h.represents.outs n hn).symm

/-- A counter of the node table counts the in-edges of the graph. -/
theorem toGraph_nrInWith (h : Initialised g) (hn : n < g.nrNodes) {p : Edge → Bool}
    {f : (NodeRec → Nat) × (EdgeRec → Bool)} (hf : f ∈ counters)
    (hp : ∀ e he, p (EdgeRec.toEdge e he) = f.2 e) :
    (g.toGraph h).nrInWith n p = f.1 (g.nodes n) := by
  rw [Graph.nrInWith, toGraph_inEdges h hn, h.represents.counts n hn f hf]
  refine List.countP_congr (fun e he => ?_)
  have hlt := ((h.represents.mem_ins hn).mp he).1
  rw [toGraph_edge h hlt, hp]

theorem toEdge_signaled (e : EdgeRec) (he : Created e) :
    (e.toEdge he).isSignalDriven = e.attr.isSignalDriven := (reads_typeOf he.typed).signaled.symm

theorem toEdge_data (e : EdgeRec) (he : Created e) :
    (e.toEdge he).isDataPassing = e.attr.isDataPassing := (reads_typeOf he.typed).data.symm

theorem toGraph_signalEdgeMask (h : Initialised g) (hn : n < g.nrNodes) :
    (g.toGraph h).signalEdgeMask n = (g.nodes n).signalEdgeMask := by
  refine BitVec.eq_of_getLsbD_eq (fun k hk => ?_)
  rw [Graph.signalEdgeMask, Graph.getLsbD_maskOf, decide_eq_true hk, Bool.true_and,
    toGraph_inEdges h hn, Bool.eq_iff_iff, h.represents.mask n hn k, List.getD_eq_getElem?_getD,
    List.getElem?_map]
  cases hget : (g.nodes n).ins[k]? with
  | none => simp
  | some e =>
    have hlt := ((h.represents.mem_ins hn).mp (List.mem_of_getElem? hget)).1
    simp [toGraph_edge h hlt, toEdge_signaled]

/-! ## The calls -/

theorem Initialised.addNode {name : CStr} {i : Nat} (h : Initialised g)
    (ha : g.addNode name = (some i, g')) : Initialised g' := by
  have hrep := h.represents.addNode ha
  unfold GraphRec.addNode at ha
  split at ha
  · cases ha
  obtain ⟨-, rfl⟩ := Prod.mk.inj ha
  exact ⟨hrep, h.created⟩

theorem Initialised.addEdge {x : EdgeArgs} {pathSet : Bool} {env : Env} {p c : Int} {i : Nat}
    (h : Initialised g) (hc : x.attr.check = true) (ht : x.attr.type ∈ edgeTypes)
    (ha : g.addEdge pathSet env p c x = .ok (some i, g')) : Initialised g' := by
  refine ⟨h.represents.addEdge hc (addEdge_some ha).2.2.2, ?_⟩
  obtain ⟨-, -, -, -, -, hfinish⟩ := addEdge_checks ha
  obtain ⟨-, ops, r, hops, hinit, rfl⟩ := finishEdge_init hfinish
  have hnew := created_of_init hc ht hops hinit
  intro k hk
  change k < g.nrEdges + 1 at hk
  change Created (Function.update g.edges g.nrEdges r k)
  rcases Nat.lt_succ_iff_lt_or_eq.mp hk with hlt | rfl
  · rw [Function.update_of_ne hlt.ne]
    exact h.created k hlt
  · rw [Function.update_self]
    exact hnew

theorem stepAny_initialised {l l' : Lib} {a : Int × Call}
    (h : ∀ gr, Initialised (l.graphs gr)) (ht : Typed l a) (hs : stepAny l a = some l') :
    ∀ gr, Initialised (l'.graphs gr) := by
  obtain ⟨gr, a⟩ := a
  obtain ⟨g', rfl, hcases⟩ := step_cases hs
  refine (Function.forall_update_iff l.graphs (fun _ g => Initialised g)).mpr ⟨?_, fun i _ => h i⟩
  rcases hcases with ⟨name, k, rfl, hadd⟩ | ⟨env, p, c, x, k, rfl, hcheck, hadd⟩
  · exact (h _).addNode hadd
  · exact (h _).addEdge hcheck ht hadd

structure Agrees (g : GraphRec) (G : Graph) : Prop where
  nrNodes : G.nrNodes = g.nrNodes
  nrEdges : G.edges.length = g.nrEdges
  ins : ∀ n < g.nrNodes, G.inEdges n = (g.nodes n).ins
  outs : ∀ n < g.nrNodes, G.outEdges n = (g.nodes n).outs
  signaled : ∀ n < g.nrNodes, G.nrInSignaled n = (g.nodes n).nrInSignaled
  data : ∀ n < g.nrNodes, G.nrInData n = (g.nodes n).nrInData
  signaledBackedges : ∀ n < g.nrNodes,
    G.nrInSignaledBackedges n = (g.nodes n).nrInSignaledBackedges
  dataBackedges : ∀ n < g.nrNodes, G.nrInDataBackedges n = (g.nodes n).nrInDataBackedges
  mask : ∀ n < g.nrNodes, G.signalEdgeMask n = (g.nodes n).signalEdgeMask
  edge : ∀ e < g.nrEdges, (G.edge e).producer = (g.edges e).producer ∧
    (G.edge e).consumer = (g.edges e).consumer ∧ (G.edge e).isBackedge = (g.edges e).isBackedge ∧
    (G.edge e).attr = (g.edges e).attr.toAttr ∧ (g.edges e).attr.type = flags (G.edge e).attr.type
  pending : ∀ junk, ∀ e < g.nrEdges, (initState junk G).nrPending e = (g.edges e).nrPending.toNat
  skips : ∀ junk, ∀ e < g.nrEdges, (initState junk G).nrSkips e = (g.edges e).nrSkips.toNat
  ring : ∀ junk, ∀ e < g.nrEdges, (G.edge e).attr.type = .ring → ∃ r, (g.edges e).ringbuf = some r ∧
    r.nmemb = ringCount (G.edge e).attr.nmemb ∧ r.membSz = (G.edge e).attr.nrProduce ∧
    r.nfree = r.nmemb - ((initState junk G).data.queue e).length

theorem toGraph_ring (h : Initialised g) (he : e < g.nrEdges)
    (hr : ((g.toGraph h).edge e).attr.type = .ring) : ∃ r, (g.edges e).ringbuf = some r ∧
      r.nmemb = ringCount ((g.toGraph h).edge e).attr.nmemb ∧
      r.membSz = ((g.toGraph h).edge e).attr.nrProduce ∧ r.nfree = r.nmemb := by
  rw [toGraph_edge h he] at hr ⊢
  obtain ⟨junk, hbuf, hsome⟩ := (h.created e he).ring hr
  obtain ⟨r, hr'⟩ := Option.isSome_iff_exists.mp hsome
  refine ⟨r, hr', ?_⟩
  rw [hbuf] at hr'
  unfold initRing at hr'
  split at hr'
  · cases hr'
  split at hr'
  · cases hr'
  obtain rfl := Option.some.inj hr'
  exact ⟨rfl, rfl, rfl⟩

theorem toGraph_agrees (h : Initialised g) : Agrees g (g.toGraph h) := by
  refine
    { nrNodes := rfl, nrEdges := edgeList_length h
      ins := fun n hn => toGraph_inEdges h hn, outs := fun n hn => toGraph_outEdges h hn
      signaled := ?_, data := ?_, signaledBackedges := ?_, dataBackedges := ?_
      mask := fun n hn => toGraph_signalEdgeMask h hn, edge := ?_, pending := ?_, skips := ?_
      ring := fun _ e he hr => toGraph_ring h he hr }
  · intro n hn
    exact toGraph_nrInWith h hn (f := counters[0]) (by simp [counters]) toEdge_signaled
  · intro n hn
    exact toGraph_nrInWith h hn (f := counters[1]) (by simp [counters]) toEdge_data
  · intro n hn
    refine toGraph_nrInWith h hn (f := counters[2]) (by simp [counters]) (fun e he => ?_)
    exact congrArg (· && e.isBackedge) (toEdge_signaled e he)
  · intro n hn
    refine toGraph_nrInWith h hn (f := counters[3]) (by simp [counters]) (fun e he => ?_)
    exact congrArg (· && e.isBackedge) (toEdge_data e he)
  · intro e he
    rw [toGraph_edge h he]
    exact ⟨rfl, rfl, rfl, rfl, (reads_typeOf (h.created e he).typed).flags⟩
  · intro _ e he
    change initPending (g.toGraph h) e = _
    rw [initPending, toGraph_edge h he, (h.created e he).pending]
    change (if typeOf (g.edges e).attr.type = .cv then _ else _) = _
    split <;> rfl
  · intro _ e he
    change ((g.toGraph h).edge e).skips = _
    rw [toGraph_edge h he]
    rfl

/-- **The calls build the graph of the machine.** After every sequence of successful
`pgm_init_node`, `pgm_init_edge` and `pgm_init_backedge` calls on new graphs, with edges of the
types of `pgm_edge_type_t`, each graph of the library is one the machine can run on: lists,
counters and masks of its nodes are those of the node table, and the first state has the tokens,
the skips and the empty rings of the edge table. -/
theorem calls_build_graph {l l' : Lib} (hl : ∀ gr, l.graphs gr = .fresh)
    (hr : Lts.Reach stepAny Typed l l') (gr : Nat) : ∃ G, Agrees (l'.graphs gr) G := by
  have h : ∀ gr, Initialised (l'.graphs gr) := by
    refine Lts.Reach.inv (I := fun l => ∀ gr, Initialised (l.graphs gr)) ?_
      (fun _ _ _ _ hI hp hst => stepAny_initialised hI hp hst) hr
    intro gr
    rw [hl gr]
    exact ⟨fresh_represents, fun e he => absurd he (Nat.not_lt_zero e)⟩
  exact ⟨_, toGraph_agrees (h gr)⟩

end

end Pgm.Tables
