import Mathlib.Algebra.Group.Nat.Defs
import Mathlib.Data.List.Basic
import Mathlib.Data.List.Nodup
import Mathlib.Data.List.Range
import Mathlib.Tactic.Common

/-! Edges, nodes and graphs once initialisation is over. An edge carries the
proof that `__pgm_init_edge` accepts its attributes. The lists `in` and `out` of
a node and its counters are those of its edges in creation order. -/

namespace Pgm

inductive EdgeType where
  | cv
  | ring
  | fastFifo
  | fastMq
  | fifo
  | mq
  | sockStream
  deriving DecidableEq, Repr

def EdgeType.isSignalDriven : EdgeType → Bool
  | .cv | .ring | .fastFifo | .fastMq => true
  | .fifo | .mq | .sockStream => false

def EdgeType.isDataPassing : EdgeType → Bool
  | .cv => false
  | .ring | .fastFifo | .fastMq | .fifo | .mq | .sockStream => true

def EdgeType.isRing : EdgeType → Bool
  | .ring => true
  | _ => false

def EdgeType.isMq : EdgeType → Bool
  | .fastMq | .mq => true
  | _ => false

/-- A FIFO or a socket: a data-passing edge over a byte stream. -/
def EdgeType.isStream : EdgeType → Bool
  | .fastFifo | .fifo | .sockStream => true
  | _ => false

theorem EdgeType.signal_or_data (t : EdgeType) : t.isSignalDriven ∨ t.isDataPassing := by
  cases t <;> simp [isSignalDriven, isDataPassing]

/-- `edge_attr_t`. Of the union only the parameters of a cv edge (`nrInit`) and
of a ring edge (`nmemb`) matter here. -/
structure EdgeAttr where
  nrProduce : Nat
  nrConsume : Nat
  nrThreshold : Nat
  type : EdgeType
  nrInit : Nat
  nmemb : Nat
  deriving DecidableEq, Repr

/-- The attribute checks of `__pgm_init_edge`, and that the token amounts are
`size_t` values. -/
structure EdgeAttr.Accepted (a : EdgeAttr) : Prop where
  mq : a.type.isMq → a.nrProduce = a.nrConsume
  ring : a.type.isRing → a.nrProduce = a.nrConsume ∧ a.nmemb ≠ 0
  threshold : a.nrConsume ≤ a.nrThreshold
  produce_pos : 0 < a.nrProduce
  consume_pos : 0 < a.nrConsume
  produce_lt : a.nrProduce < 2 ^ 64
  threshold_lt : a.nrThreshold < 2 ^ 64
  init_lt : a.nrInit < 2 ^ 64

def fifoAttr (produce consume : Nat) : EdgeAttr := ⟨produce, consume, consume, .fifo, 0, 0⟩

theorem fifoAttr_accepted {produce consume : Nat} (hp : 0 < produce) (hc : 0 < consume)
    (hp' : produce < 2 ^ 64) (hc' : consume < 2 ^ 64) : (fifoAttr produce consume).Accepted := by
  refine ⟨fun h => ?_, fun h => ?_, Nat.le_refl _, hp, hc, hp', hc', Nat.two_pow_pos 64⟩
  · cases h
  · cases h

def cvAttr (produce consume threshold init : Nat) : EdgeAttr :=
  ⟨produce, consume, threshold, .cv, init, 0⟩

theorem cvAttr_accepted {produce consume threshold init : Nat} (hp : 0 < produce)
    (hc : 0 < consume) (ht : consume ≤ threshold) (hp' : produce < 2 ^ 64)
    (ht' : threshold < 2 ^ 64) (hi : init < 2 ^ 64) :
    (cvAttr produce consume threshold init).Accepted := by
  refine ⟨fun h => ?_, fun h => ?_, ht, hp, hc, hp', ht', hi⟩
  · cases h
  · cases h

theorem line_accepted : (cvAttr 1 1 1 0).Accepted :=
  cvAttr_accepted (by decide) (by decide) (by decide) (by decide) (by decide) (by decide)

theorem fifo_accepted : (fifoAttr 1 1).Accepted :=
  fifoAttr_accepted (by decide) (by decide) (by decide) (by decide)

/-- A FIFO with messages of one byte, two of which are consumed at a time. -/
theorem halfFifo_accepted : (fifoAttr 1 2).Accepted :=
  fifoAttr_accepted (by decide) (by decide) (by decide) (by decide)

/-- The fields of `struct pgm_edge` that stay fixed after `__pgm_init_edge`, and
the initial number of skips. A forward edge has none. -/
structure Edge where
  producer : Nat
  consumer : Nat
  isBackedge : Bool
  attr : EdgeAttr
  skips : Nat
  accepted : attr.Accepted
  skips_forward : isBackedge = false → skips = 0

def Edge.isSignalDriven (e : Edge) : Bool := e.attr.type.isSignalDriven

def Edge.isDataPassing (e : Edge) : Bool := e.attr.type.isDataPassing

def defaultEdge : EdgeAttr := ⟨1, 1, 1, .cv, 0, 0⟩

theorem defaultEdge_accepted : defaultEdge.Accepted := by
  constructor <;> simp [defaultEdge, EdgeType.isMq, EdgeType.isRing]

theorem forward_skips : false = false → 0 = 0 := fun _ => rfl

def forwardEdge (producer consumer : Nat) (attr : EdgeAttr) (h : attr.Accepted) : Edge :=
  ⟨producer, consumer, false, attr, 0, h, forward_skips⟩

theorem back_skips (k : Nat) : true = false → k = 0 := by simp

def backEdge (producer consumer k : Nat) (attr : EdgeAttr) (h : attr.Accepted) : Edge :=
  ⟨producer, consumer, true, attr, k, h, back_skips k⟩

instance : Inhabited Edge := ⟨forwardEdge 0 0 defaultEdge defaultEdge_accepted⟩

/-- The edges with a given property, by index, in creation order. -/
def edgesWith (es : List Edge) (p : Edge → Bool) : List Nat :=
  (List.range es.length).filter (fun i => p (es.getD i default))

/-- A graph after its initialisation, within the limits of `__pgm_init_edge`. -/
structure Graph where
  nrNodes : Nat
  edges : List Edge
  ends : ∀ e ∈ edges, e.producer < nrNodes ∧ e.consumer < nrNodes
  inDegree : ∀ n, (edgesWith edges (fun e => e.consumer == n)).length < 32

theorem edgesWith_length_le (es : List Edge) (p : Edge → Bool) :
    (edgesWith es p).length ≤ es.length := by
  have := List.length_filter_le (fun i => p (es.getD i default)) (List.range es.length)
  rwa [List.length_range] at this

namespace Graph

def small (nrNodes : Nat) (edges : List Edge)
    (hends : ∀ e ∈ edges, e.producer < nrNodes ∧ e.consumer < nrNodes)
    (hlen : edges.length < 32) : Graph :=
  ⟨nrNodes, edges, hends, fun _ => (edgesWith_length_le edges _).trans_lt hlen⟩

theorem pair_ends (a : EdgeAttr) (h : a.Accepted) :
    ∀ e ∈ [forwardEdge 0 1 a h], e.producer < 2 ∧ e.consumer < 2 := by
  intro e he
  rw [List.mem_singleton.mp he]
  exact ⟨Nat.two_pos, Nat.one_lt_two⟩

/-- A producer, node 0, and a consumer, node 1, joined by one edge. -/
def pair (a : EdgeAttr) (h : a.Accepted) : Graph :=
  small 2 [forwardEdge 0 1 a h] (pair_ends a h) (Nat.succ_lt_succ (Nat.zero_lt_succ 30))

def line : Graph := pair (cvAttr 1 1 1 0) line_accepted

/-- `g->edges[i]`. -/
def edge (g : Graph) (i : Nat) : Edge := g.edges.getD i default

/-- `n->in[0..nr_in)`. -/
def inEdges (g : Graph) (n : Nat) : List Nat := edgesWith g.edges (fun e => e.consumer == n)

/-- `n->out[0..nr_out)`. -/
def outEdges (g : Graph) (n : Nat) : List Nat := edgesWith g.edges (fun e => e.producer == n)

/-- The number of in-edges of `n` with a given property. -/
def nrInWith (g : Graph) (n : Nat) (p : Edge → Bool) : Nat :=
  (g.inEdges n).countP (fun i => p (g.edge i))

def nrInSignaled (g : Graph) (n : Nat) : Nat := g.nrInWith n Edge.isSignalDriven

def nrInData (g : Graph) (n : Nat) : Nat := g.nrInWith n Edge.isDataPassing

def nrInSignaledBackedges (g : Graph) (n : Nat) : Nat :=
  g.nrInWith n (fun e => e.isSignalDriven && e.isBackedge)

def nrInDataBackedges (g : Graph) (n : Nat) : Nat :=
  g.nrInWith n (fun e => e.isDataPassing && e.isBackedge)

/-- The bit mask of a list of flags, lowest bit first. -/
def maskOf (bs : List Bool) : BitVec 32 := (BitVec.ofBoolListLE bs).setWidth 32

theorem getLsbD_maskOf (bs : List Bool) (j : Nat) :
    (maskOf bs).getLsbD j = (decide (j < 32) && bs.getD j false) := by
  rw [maskOf, BitVec.getLsbD_setWidth, BitVec.getLsbD_ofBoolListLE]

/-- The lowest `k` bits. -/
theorem getLsbD_allOnes_shift {k : Nat} (hk : k ≤ 32) (j : Nat) :
    (BitVec.allOnes 32 >>> (32 - k)).getLsbD j = decide (j < k) := by
  rw [BitVec.getLsbD_ushiftRight, BitVec.getLsbD_allOnes]
  congr 1
  apply propext
  omega

def signalEdgeMask (g : Graph) (n : Nat) : BitVec 32 :=
  maskOf ((g.inEdges n).map (fun i => (g.edge i).isSignalDriven))

theorem mem_inEdges {g : Graph} {n e : Nat} :
    e ∈ g.inEdges n ↔ e < g.edges.length ∧ (g.edge e).consumer = n := by
  simp [inEdges, edgesWith, edge]

theorem mem_outEdges {g : Graph} {n e : Nat} :
    e ∈ g.outEdges n ↔ e < g.edges.length ∧ (g.edge e).producer = n := by
  simp [outEdges, edgesWith, edge]

theorem inEdges_nodup (g : Graph) (n : Nat) : (g.inEdges n).Nodup :=
  List.nodup_range.filter _

theorem outEdges_nodup (g : Graph) (n : Nat) : (g.outEdges n).Nodup :=
  List.nodup_range.filter _

theorem inEdges_inj {g : Graph} {n i j e : Nat} (hi : (g.inEdges n)[i]? = some e)
    (hj : (g.inEdges n)[j]? = some e) : i = j := by
  obtain ⟨hlt, -⟩ := List.getElem?_eq_some_iff.mp hi
  exact (List.getElem?_inj hlt (g.inEdges_nodup n)).mp (hi.trans hj.symm)

theorem mem_inEdges_consumer {g : Graph} {n e : Nat} (h : e ∈ g.inEdges n) :
    (g.edge e).consumer = n := (mem_inEdges.mp h).2

theorem mem_in_of_mem_out {g : Graph} {n e : Nat} (h : e ∈ g.outEdges n) :
    e ∈ g.inEdges (g.edge e).consumer := mem_inEdges.mpr ⟨(mem_outEdges.mp h).1, rfl⟩

theorem mem_out_of_mem_in {g : Graph} {n e : Nat} (h : e ∈ g.inEdges n) :
    e ∈ g.outEdges (g.edge e).producer := mem_outEdges.mpr ⟨(mem_inEdges.mp h).1, rfl⟩

/-- The edges of a class are its forward edges and its back edges. -/
theorem nrInWith_split (g : Graph) (n : Nat) (p : Edge → Bool) :
    g.nrInWith n p = g.nrInWith n (fun e => p e && !e.isBackedge) +
      g.nrInWith n (fun e => p e && e.isBackedge) := by
  unfold nrInWith
  induction g.inEdges n with
  | nil => rfl
  | cons i is ih =>
    simp only [List.countP_cons, ih]
    cases hp : p (g.edge i) <;> cases hb : (g.edge i).isBackedge <;>
      simp only [Bool.not_true, Bool.not_false, Bool.and_true, Bool.and_false, Bool.false_eq_true,
        if_true, if_false] <;> omega

/-- The forward signaled in-edges, `nr_in_signaled - nr_in_signaled_backedges`. -/
def nrInSignaledForward (g : Graph) (n : Nat) : Nat :=
  g.nrInSignaled n - g.nrInSignaledBackedges n

/-- The forward data-passing in-edges, `nr_in_data - nr_in_data_backedges`. -/
def nrInDataForward (g : Graph) (n : Nat) : Nat := g.nrInData n - g.nrInDataBackedges n

theorem nrInSignaledForward_eq (g : Graph) (n : Nat) :
    g.nrInSignaledForward n = g.nrInWith n (fun e => e.isSignalDriven && !e.isBackedge) := by
  have := g.nrInWith_split n Edge.isSignalDriven
  unfold nrInSignaledForward nrInSignaled nrInSignaledBackedges
  omega

theorem nrInDataForward_eq (g : Graph) (n : Nat) :
    g.nrInDataForward n = g.nrInWith n (fun e => e.isDataPassing && !e.isBackedge) := by
  have := g.nrInWith_split n Edge.isDataPassing
  unfold nrInDataForward nrInData nrInDataBackedges
  omega

end Graph

def CvGraph (g : Graph) : Prop := ∀ e ∈ g.edges, e.attr.type = .cv

instance (g : Graph) : Decidable (CvGraph g) :=
  inferInstanceAs (Decidable (∀ e ∈ g.edges, e.attr.type = .cv))

theorem CvGraph.edge {g : Graph} {n e : Nat} (hcv : CvGraph g) (he : e ∈ g.inEdges n) :
    (g.edge e).attr.type = .cv := by
  obtain ⟨hlt, -⟩ := Graph.mem_inEdges.mp he
  have hget : g.edge e = g.edges[e] := by simp [Graph.edge, hlt]
  rw [hget]
  exact hcv _ (List.getElem_mem hlt)

theorem CvGraph.signaled {g : Graph} {n e : Nat} (hcv : CvGraph g) (he : e ∈ g.inEdges n) :
    (g.edge e).isSignalDriven = true := by
  rw [Edge.isSignalDriven, hcv.edge he]
  rfl

theorem CvGraph.nrInData {g : Graph} (hcv : CvGraph g) (n : Nat) : g.nrInData n = 0 := by
  unfold Graph.nrInData Graph.nrInWith
  rw [List.countP_eq_zero]
  intro e he
  rw [Edge.isDataPassing, hcv.edge he]
  simp [EdgeType.isDataPassing]

theorem CvGraph.nrInSignaled_ne {g : Graph} {n : Nat} (hcv : CvGraph g) (h : g.inEdges n ≠ []) :
    g.nrInSignaled n ≠ 0 := by
  obtain ⟨e, he⟩ := List.exists_mem_of_ne_nil _ h
  unfold Graph.nrInSignaled Graph.nrInWith
  rw [Ne, List.countP_eq_zero]
  exact fun hc => hc e he (hcv.signaled he)

end Pgm
