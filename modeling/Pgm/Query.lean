import Pgm.Buffers
import Pgm.Lib.Search
import Pgm.Lib.Traced

/-!
# The queries on nodes and edges

`pgm_get_successors`, `pgm_get_predecessors`, `pgm_get_edges_out`, `pgm_get_edges_in`, the three
degrees, and the four relations between nodes, each with a log of the places of the tables that
it indexes.
-/

namespace Pgm.Tables

inductive Table where
  | graphs
  | nodes
  | edges
  deriving DecidableEq

/-- An index into a table, and how many entries the table has. -/
structure Access where
  table : Table
  index : Int
  limit : Nat
  deriving DecidableEq

def Access.InRange (a : Access) : Prop := 0 ≤ a.index ∧ a.index < a.limit

instance (a : Access) : Decidable a.InRange :=
  inferInstanceAs (Decidable (0 ≤ a.index ∧ a.index < a.limit))

/-- Why a query ends without a result: an access outside of an array, or a recursion that goes on
for longer than the model follows it. -/
inductive Stop where
  | fault (f : Fault)
  | fuel
  deriving DecidableEq

abbrev Query (α : Type) : Type := Traced Stop Access α

def Query.index {α : Type} (a : Access) (r : Except Fault α) : Query α := ⟨r.mapError .fault, [a]⟩

def Lib.index (l : Lib) (graph : Int) : Query GraphRec :=
  .index ⟨.graphs, graph, maxGraphs⟩ (l.graphAt graph)

def GraphRec.indexNode (g : GraphRec) (node : Int) : Query NodeRec :=
  .index ⟨.nodes, node, g.nrNodes⟩ (g.nodeAt node)

def GraphRec.indexEdge (g : GraphRec) (edge : Int) : Query EdgeRec :=
  .index ⟨.edges, edge, g.nrEdges⟩ (g.edgeAt edge)

def Lib.validGraph (l : Lib) (graph : Int) : Query Bool :=
  if l.mapped && isValidHandle graph then do
    let g ← l.index graph
    pure g.inUse
  else pure false

def GraphRec.Joins (g : GraphRec) (ignoreBackedges : Bool) (x y : Nat) : Prop :=
  ∃ e < g.nrEdges, (ignoreBackedges && (g.edges e).isBackedge) = false ∧
    (g.edges e).producer = x ∧ (g.edges e).consumer = y

/-! ## Neighbours -/

/-- Whether an edge is left out. The table of the edges is looked at only for the flag. -/
def skipEdge (g : GraphRec) (ignoreBackedges : Bool) (e : Nat) : Query Bool :=
  if ignoreBackedges then do
    let r ← g.indexEdge e
    pure r.isBackedge
  else pure false

/-- The loop of the four functions that list the neighbours or the edges of a node: the number
returned, and what is stored. -/
def listLoop {α : Type} (g : GraphRec) (ignoreBackedges : Bool) (item : Nat → Query α) :
    List Nat → Int → Query (Int × List α)
  | [], num => pure (num, [])
  | e :: es, num => do
    let skip ← skipEdge g ignoreBackedges e
    if skip then listLoop g ignoreBackedges item es (num - 1)
    else do
      let x ← item e
      let rest ← listLoop g ignoreBackedges item es num
      pure (rest.1, x :: rest.2)

/-- The record of a node of a graph in use, or `bad`. -/
def onNode {α : Type} (bad : α) (l : Lib) (node : NodeHandle) (f : GraphRec → NodeRec → Query α) :
    Query α := do
  let valid ← l.validGraph node.graph
  if !valid then pure bad
  else do
    let g ← l.index node.graph
    let n ← g.indexNode node.node
    f g n

/-- The four functions: `list` is the list of edges that is gone through and `item` what is stored
for an edge. `dst` says that the array for the result is not NULL, and `len` is its length. -/
def listing {α : Type} (list : NodeRec → List Nat) (item : GraphRec → Int → Nat → Query α)
    (l : Lib) (node : NodeHandle) (dst : Bool) (len : Int) (ignoreBackedges : Bool) :
    Query (Int × List α) :=
  if !dst then pure (-1, [])
  else onNode (-1, []) l node (fun g n =>
    if len < (list n).length then pure (-1, [])
    else listLoop g ignoreBackedges (item g node.graph) (list n) (list n).length)

def nodeItem (other : EdgeRec → Nat) (g : GraphRec) (graph : Int) (e : Nat) : Query NodeHandle := do
  let r ← g.indexEdge e
  let _ ← g.indexNode (other r)
  pure ⟨graph, other r⟩

def edgeItem (_ : GraphRec) (graph : Int) (e : Nat) : Query EdgeHandle := pure ⟨graph, e⟩

def pgmGetSuccessors : Lib → NodeHandle → Bool → Int → Bool → Query (Int × List NodeHandle) :=
  listing NodeRec.outs (nodeItem EdgeRec.consumer)

def pgmGetPredecessors : Lib → NodeHandle → Bool → Int → Bool → Query (Int × List NodeHandle) :=
  listing NodeRec.ins (nodeItem EdgeRec.producer)

def pgmGetEdgesOut : Lib → NodeHandle → Bool → Int → Bool → Query (Int × List EdgeHandle) :=
  listing NodeRec.outs edgeItem

def pgmGetEdgesIn : Lib → NodeHandle → Bool → Int → Bool → Query (Int × List EdgeHandle) :=
  listing NodeRec.ins edgeItem

/-! ## Degrees -/

/-- The edges of a list that are no back edges, counted on from `ret`. -/
def forwardCount (g : GraphRec) : List Nat → Int → Query Int
  | [], ret => pure ret
  | e :: es, ret => do
    let r ← g.indexEdge e
    forwardCount g es (if r.isBackedge then ret else ret + 1)

def pgmGetDegree (l : Lib) (node : NodeHandle) (ignoreBackedges : Bool) : Query Int :=
  onNode (-1) l node (fun g n =>
    if !ignoreBackedges then pure (n.ins.length + n.outs.length)
    else do
      let ret ← forwardCount g n.ins 0
      forwardCount g n.outs ret)

/-- `pgm_get_degree_in` and `pgm_get_degree_out`, for the list of edges that they count. -/
def degreeOf (list : NodeRec → List Nat) (l : Lib) (node : NodeHandle) (ignoreBackedges : Bool) :
    Query Int :=
  onNode (-1) l node (fun g n =>
    if !ignoreBackedges then pure (list n).length else forwardCount g (list n) 0)

def pgmGetDegreeIn : Lib → NodeHandle → Bool → Query Int := degreeOf NodeRec.ins

def pgmGetDegreeOut : Lib → NodeHandle → Bool → Query Int := degreeOf NodeRec.outs

/-! ## Relations -/

/-- The loop of `pgm_is_parent`. -/
def parentLoop (g : GraphRec) (query : Int) : List Nat → Query Int
  | [] => pure 0
  | e :: es => do
    let r ← g.indexEdge e
    if r.isBackedge then parentLoop g query es
    else do
      let _ ← g.indexNode r.producer
      if query = r.producer then pure 1 else parentLoop g query es

/-- The checks of `pgm_is_parent` and `pgm_is_ancestor`, and then `search` from the record of the
node. Both return 0 for two equal handles. -/
def onPair (l : Lib) (node query : NodeHandle) (search : GraphRec → NodeRec → Query Int) :
    Query Int :=
  if node.graph ≠ query.graph then pure (-1)
  else do
    let valid ← l.validGraph node.graph
    if !valid then pure (-1)
    else if node.node = query.node then pure 0
    else do
      let g ← l.index node.graph
      let n ← g.indexNode node.node
      let _ ← g.indexNode query.node
      search g n

def pgmIsParent (l : Lib) (node query : NodeHandle) : Query Int :=
  onPair l node query (fun g n => parentLoop g query.node n.ins)

def pgmIsChild (l : Lib) (node query : NodeHandle) : Query Int := pgmIsParent l query node

/-- The loop of `is_ancestor` over the in-edges of a node, with `rec` for its recursive call. -/
def ancestorLoop (g : GraphRec) (rec : Int → NodeRec → Finset Int → Query (Bool × Finset Int)) :
    List Nat → Finset Int → Query (Bool × Finset Int)
  | [], visited => pure (false, visited)
  | e :: es, visited => do
    let r ← g.indexEdge e
    if r.isBackedge then ancestorLoop g rec es visited
    else if (r.producer : Int) ∈ visited then ancestorLoop g rec es visited
    else do
      let parent ← g.indexNode r.producer
      let found ← rec r.producer parent (insert (r.producer : Int) visited)
      if found.1 then pure found else ancestorLoop g rec es found.2

/-- `is_ancestor` for the node with index `n` and record `rec`. -/
def isAncestor (g : GraphRec) (query : Int) :
    Nat → Int → NodeRec → Finset Int → Query (Bool × Finset Int)
  | 0, _, _, _ => ⟨.error .fuel, []⟩
  | fuel + 1, n, r, visited =>
    if n = query then pure (true, visited)
    else ancestorLoop g (isAncestor g query fuel) r.ins visited

/-- `pgm_is_ancestor`. Every call of `is_ancestor` but the first has put a new index of a node into
`visited`. -/
def pgmIsAncestor (l : Lib) (node query : NodeHandle) : Query Int :=
  onPair l node query (fun g n => do
    let found ← isAncestor g query.node (maxNodes + 1) node.node n ∅
    pure (if found.1 then 1 else 0))

def pgmIsDescendant (l : Lib) (node query : NodeHandle) : Query Int := pgmIsAncestor l query node

end Pgm.Tables
