import Mathlib.Data.List.Range
import Mathlib.Logic.Function.Basic
import Pgm.RingBuf

/-!
# The tables behind the handles

The process-wide array of graphs with its node and edge tables, and the calls that fill it:
`pgm_init_node`, `pgm_init_edge` and `pgm_init_backedge`. A call returns `none` for `-1`. An
index that the source does not check and that lies outside its table is a `Fault`: from there
on the program is undefined.
-/

namespace Pgm.Tables

open RingBuf

/-- The bytes of a C string, without the NUL that ends it. -/
@[ext]
structure CStr where
  bytes : List UInt8
  nul_free : 0 ∉ bytes
  deriving DecidableEq

def nameLen : Nat := 80

def maxGraphs : Nat := 128

def maxNodes : Nat := 4096

def maxEdges : Nat := 4096

def maxDegree : Nat := 32

def strnlen (name : CStr) (limit : Nat) : Nat := min name.bytes.length limit

/-- Whether `strncmp` finds the first `n` bytes of two NUL-padded strings equal. -/
def strncmpEq : List UInt8 → List UInt8 → Nat → Bool
  | _, _, 0 => true
  | [], [], _ + 1 => true
  | [], _ :: _, _ + 1 => false
  | _ :: _, [], _ + 1 => false
  | x :: xs, y :: ys, n + 1 => x == y && strncmpEq xs ys n

/-! ## Edge attributes -/

def pgmEdgeCv : BitVec 32 := 0x00000001#32
def pgmEdgeFifo : BitVec 32 := 0x00000002#32
def pgmEdgeMq : BitVec 32 := 0x00000004#32
def pgmEdgeRing : BitVec 32 := 0x00000008#32
def pgmEdgeSockStream : BitVec 32 := 0x00000010#32
def pgmDataPassing : BitVec 32 := 0x40000000#32
def pgmSignaled : BitVec 32 := 0x80000000#32

/-- `edge_attr_t` as a caller fills it in: any flags in `type`. `param` is the first word of the
union, `nr_init` of a cv edge and `nmemb` of a ring edge. -/
structure Attr where
  nrProduce : UInt64
  nrConsume : UInt64
  nrThreshold : UInt64
  type : BitVec 32
  param : UInt64
  deriving DecidableEq

def Attr.has (a : Attr) (flag : BitVec 32) : Bool := a.type &&& flag != 0#32

def Attr.isSignalDriven (a : Attr) : Bool := a.has pgmSignaled

def Attr.isDataPassing (a : Attr) : Bool := a.has pgmDataPassing

/-- The attribute checks of `__pgm_init_edge`. -/
def Attr.check (a : Attr) : Bool :=
  if a.has pgmEdgeMq && a.nrProduce != a.nrConsume then false
  else if a.has pgmEdgeRing && a.nrProduce != a.nrConsume then false
  else if a.has pgmEdgeRing && a.param == 0 then false
  else if a.nrThreshold < a.nrConsume then false
  else if a.nrProduce ≤ 0 || a.nrConsume ≤ 0 || a.nrThreshold ≤ 0 then false
  else if a.type = 0#32 then false
  else true

/-! ## The records -/

inductive Ops where
  | cv
  | fifo
  | mq
  | ring
  | sockStream
  deriving DecidableEq, Repr

/-- `struct pgm_edge`. Of the union only the ring is used here; the pointers to the buffers of the
two ends are kept in `Buffers`. -/
structure EdgeRec where
  name : List UInt8
  producer : Nat
  consumer : Nat
  attr : Attr
  isBackedge : Bool
  ops : Option Ops
  nrSkips : UInt64
  nrPending : UInt64
  ringbuf : Option Ring

def EdgeRec.zero : EdgeRec := ⟨[], 0, 0, ⟨0, 0, 0, 0#32, 0⟩, false, none, 0, 0, none⟩

def unclaimed : Int := -1

/-- `struct pgm_node`. `ins` is `in[0..nr_in)` and `outs` is `out[0..nr_out)`. -/
structure NodeRec where
  name : List UInt8
  ins : List Nat
  outs : List Nat
  nrInData : Nat
  nrInSignaled : Nat
  nrInDataBackedges : Nat
  nrInSignaledBackedges : Nat
  signalEdgeMask : BitVec 32
  owner : Int
  deriving DecidableEq

def NodeRec.zero : NodeRec := ⟨[], [], [], 0, 0, 0, 0, 0#32, 0⟩

structure GraphRec where
  inUse : Bool
  nrNodes : Nat
  nrEdges : Nat
  nodes : Nat → NodeRec
  edges : Nat → EdgeRec

/-- A graph as `prepare_graph` leaves it. -/
def GraphRec.fresh : GraphRec := ⟨true, 0, 0, fun _ => .zero, fun _ => .zero⟩

def GraphRec.setNode (g : GraphRec) (i : Nat) (n : NodeRec) : GraphRec :=
  { g with nodes := Function.update g.nodes i n }

def GraphRec.setEdge (g : GraphRec) (i : Nat) (e : EdgeRec) : GraphRec :=
  { g with edges := Function.update g.edges i e }

/-- The globals of the library: `gGraphs`, whether it is set up, `gIsGraphMaster`, and whether
`gGraphPath` is set. -/
structure Lib where
  graphs : Nat → GraphRec
  mapped : Bool
  isGraphMaster : Bool
  pathSet : Bool

def Lib.setGraph (l : Lib) (i : Nat) (g : GraphRec) : Lib :=
  { l with graphs := Function.update l.graphs i g }

structure NodeHandle where
  graph : Int
  node : Int
  deriving DecidableEq

structure EdgeHandle where
  graph : Int
  edge : Int
  deriving DecidableEq

/-- An access outside of a table, or through a pointer to no live block. -/
inductive Fault where
  | graph
  | node
  | edge
  | pointer
  deriving DecidableEq, Repr

def Lib.graphAt (l : Lib) (graph : Int) : Except Fault GraphRec :=
  if 0 ≤ graph ∧ graph < maxGraphs then .ok (l.graphs graph.toNat) else .error .graph

def isValidHandle (graph : Int) : Bool := 0 ≤ graph && graph ≤ maxGraphs

def Lib.isValidGraph (l : Lib) (graph : Int) : Except Fault Bool :=
  if l.mapped && isValidHandle graph then
    match l.graphAt graph with
    | .ok g => .ok g.inUse
    | .error f => .error f
  else .ok false

def GraphRec.nodeAt (g : GraphRec) (node : Int) : Except Fault NodeRec :=
  if 0 ≤ node ∧ node < maxNodes then .ok (g.nodes node.toNat) else .error .node

/-! ## Nodes -/

/-- The part of `pgm_init_node` under the lock. -/
def GraphRec.addNode (g : GraphRec) (name : CStr) : Option Nat × GraphRec :=
  if g.nrNodes + 1 = maxNodes then (none, g)
  else
    (some g.nrNodes,
      { g.setNode g.nrNodes
          { NodeRec.zero with
            owner := unclaimed
            name := name.bytes.take (strnlen name nameLen) } with
        nrNodes := g.nrNodes + 1 })

/-- `pgm_init_node`; `dst` says that the pointer for the handle is not NULL. -/
def initNode (l : Lib) (dst : Bool) (graph : Int) (name : CStr) :
    Except Fault (Option NodeHandle × Lib) :=
  if !dst then .ok (none, l)
  else
    match l.isValidGraph graph with
    | .error f => .error f
    | .ok false => .ok (none, l)
    | .ok true =>
      if !l.isGraphMaster then .ok (none, l)
      else if strnlen name nameLen ≤ 0 ∨ strnlen name nameLen > nameLen then .ok (none, l)
      else
        match l.graphAt graph with
        | .error f => .error f
        | .ok g =>
          .ok ((g.addNode name).1.map (fun (i : Nat) => ⟨graph, i⟩),
            l.setGraph graph.toNat (g.addNode name).2)

/-! ## Edges -/

/-- What the operating system answers while an edge is created: whether `mkfifo` and
`mq_unlink` succeed (`mq_unlink` also when there is nothing to remove), and what `malloc` leaves
in the data block of a ring. -/
structure Env where
  mkfifo : Bool
  mqUnlink : Bool
  junk : Nat → UInt8

/-- The table of operations for the flags of an edge. -/
def Attr.ops (a : Attr) : Option Ops :=
  if a.has pgmEdgeCv then some .cv
  else if a.has pgmEdgeFifo then some .fifo
  else if a.has pgmEdgeMq then some .mq
  else if a.has pgmEdgeRing then some .ring
  else if a.has pgmEdgeSockStream then some .sockStream
  else none

/-- `ops->init`: `cv_create`, `fifo_create`, `mq_create`, `ring_init` and `sock_stream_create`. -/
def Ops.init (pathSet : Bool) (env : Env) (e : EdgeRec) : Ops → Option EdgeRec
  | .cv => some { e with nrPending := e.attr.param }
  | .fifo => if pathSet && env.mkfifo then some e else none
  | .mq => if env.mqUnlink then some e else none
  | .ring =>
    if e.attr.nrProduce ≠ e.attr.nrConsume then none
    else
      (initRing env.junk e.attr.param.toNat e.attr.nrProduce.toNat).map
        (fun r => { e with ringbuf := some r })
  | .sockStream => some e

def NodeRec.countSignaled (n : NodeRec) (back : Bool) : NodeRec :=
  { n with
    nrInSignaled := n.nrInSignaled + 1
    signalEdgeMask := n.signalEdgeMask ||| 1#32 <<< n.ins.length
    nrInSignaledBackedges := n.nrInSignaledBackedges + if back then 1 else 0 }

/-- A data-passing edge becomes the next in-edge of a node. -/
def NodeRec.countData (n : NodeRec) (back : Bool) : NodeRec :=
  { n with
    nrInData := n.nrInData + 1
    nrInDataBackedges := n.nrInDataBackedges + if back then 1 else 0 }

/-- The counters and the mask of the consumer, for an edge that becomes its next in-edge. -/
def NodeRec.countIn (n : NodeRec) (a : Attr) (back : Bool) : NodeRec :=
  let n := if a.isSignalDriven then n.countSignaled back else n
  if a.isDataPassing then n.countData back else n

def GraphRec.link (g : GraphRec) (edge producer consumer : Nat) (a : Attr) (back : Bool) :
    GraphRec :=
  let g := g.setNode consumer ((g.nodes consumer).countIn a back)
  let g := g.setNode producer { g.nodes producer with outs := (g.nodes producer).outs ++ [edge] }
  g.setNode consumer { g.nodes consumer with ins := (g.nodes consumer).ins ++ [edge] }

/-- What an edge is created from. `skips` is `none` for `pgm_init_edge` and the number of skips
for `pgm_init_backedge`. -/
structure EdgeArgs where
  name : CStr
  attr : Attr
  skips : Option UInt64

def EdgeArgs.record (x : EdgeArgs) (producer consumer : Nat) : EdgeRec :=
  { EdgeRec.zero with
    name := x.name.bytes.take (strnlen x.name nameLen)
    producer := producer
    consumer := consumer
    attr := x.attr
    isBackedge := x.skips.isSome
    nrSkips := x.skips.getD 0
    ops := x.attr.ops }

/-- `__pgm_init_edge` once both degrees have room. -/
def GraphRec.finishEdge (g : GraphRec) (pathSet : Bool) (env : Env) (edge producer consumer : Nat)
    (x : EdgeArgs) : Option Nat × GraphRec :=
  let g := (g.link edge producer consumer x.attr x.skips.isSome).setEdge edge
    (x.record producer consumer)
  match x.attr.ops with
  | none => (none, g)
  | some ops =>
    match ops.init pathSet env (x.record producer consumer) with
    | none => (none, g)
    | some e => (some edge, g.setEdge edge e)

/-- The part of `__pgm_init_edge` under the lock. -/
def GraphRec.addEdge (g : GraphRec) (pathSet : Bool) (env : Env) (producer consumer : Int)
    (x : EdgeArgs) : Except Fault (Option Nat × GraphRec) :=
  if g.nrEdges + 1 = maxEdges then .ok (none, g)
  else if (g.nrNodes : Int) ≤ producer ∨ (g.nrNodes : Int) ≤ consumer then .ok (none, g)
  else
    let edge := g.nrEdges
    let g := { g with nrEdges := edge + 1 }
    match g.nodeAt producer with
    | .error f => .error f
    | .ok np =>
      if np.outs.length + 1 = maxDegree then .ok (none, g)
      else
        match g.nodeAt consumer with
        | .error f => .error f
        | .ok nc =>
          if nc.ins.length + 1 = maxDegree then .ok (none, g)
          else .ok (g.finishEdge pathSet env edge producer.toNat consumer.toNat x)

/-- `__pgm_init_edge`, that is `pgm_init_edge` and `pgm_init_backedge`. -/
def initEdge (l : Lib) (env : Env) (dst : Bool) (producer consumer : NodeHandle) (x : EdgeArgs) :
    Except Fault (Option EdgeHandle × Lib) :=
  if !dst then .ok (none, l)
  else if producer.graph ≠ consumer.graph then .ok (none, l)
  else
    match l.isValidGraph producer.graph with
    | .error f => .error f
    | .ok false => .ok (none, l)
    | .ok true =>
      if !l.isGraphMaster then .ok (none, l)
      else if strnlen x.name nameLen ≤ 0 ∨ strnlen x.name nameLen > nameLen then .ok (none, l)
      else if !x.attr.check then .ok (none, l)
      else
        match l.graphAt producer.graph with
        | .error f => .error f
        | .ok g =>
          match g.addEdge l.pathSet env producer.node consumer.node x with
          | .error f => .error f
          | .ok (ret, g') =>
            .ok (ret.map (fun (i : Nat) => ⟨producer.graph, i⟩), l.setGraph producer.graph.toNat g')

end Pgm.Tables
