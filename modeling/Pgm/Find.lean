import Pgm.Represent

/-!
# Looking nodes and edges up by name

`pgm_find_node` and `pgm_find_edge` return the first entry whose stored name begins with the name
asked for, where both are cut off after 80 bytes. `find_undoes_init_iff` says for each lookup when
this is the entry that was meant.
-/

namespace Pgm.Tables

/-- The search of `pgm_find_node`. -/
def GraphRec.findNode (g : GraphRec) (name : CStr) : Option Nat :=
  (List.range g.nrNodes).find?
    (fun i => strncmpEq (g.nodes i).name name.bytes (strnlen name nameLen))

def findNode (l : Lib) (dst : Bool) (graph : Int) (name : CStr) : Except Fault (Option NodeHandle) :=
  if !dst then .ok none
  else
    match l.isValidGraph graph with
    | .error f => .error f
    | .ok false => .ok none
    | .ok true =>
      if strnlen name nameLen ≤ 0 ∨ strnlen name nameLen > nameLen then .ok none
      else
        match l.graphAt graph with
        | .error f => .error f
        | .ok g => .ok ((g.findNode name).map (fun (i : Nat) => ⟨graph, i⟩))

/-- The search of `pgm_find_edge`: the first edge that fits is returned if both of its ends list
it. -/
def GraphRec.findEdge (g : GraphRec) (producer consumer : Int) (name : CStr) : Option Nat :=
  match (List.range g.nrEdges).find? (fun i =>
      ((g.edges i).producer : Int) == producer && ((g.edges i).consumer : Int) == consumer &&
      strncmpEq (g.edges i).name name.bytes (strnlen name nameLen)) with
  | none => none
  | some i =>
    if i ∈ (g.nodes producer.toNat).outs ∧ i ∈ (g.nodes consumer.toNat).ins then some i else none

/-- `pgm_find_edge` with a name. -/
def findEdge (l : Lib) (dst : Bool) (producer consumer : NodeHandle) (name : CStr) :
    Except Fault (Option EdgeHandle) :=
  if !dst then .ok none
  else if producer.graph ≠ consumer.graph then .ok none
  else
    match l.isValidGraph producer.graph with
    | .error f => .error f
    | .ok false => .ok none
    | .ok true =>
      if strnlen name nameLen ≤ 0 ∨ strnlen name nameLen > nameLen then .ok none
      else
        match l.graphAt producer.graph with
        | .error f => .error f
        | .ok g =>
          .ok ((g.findEdge producer.node consumer.node name).map
            (fun (i : Nat) => ⟨producer.graph, i⟩))

/-! ## Names as they are stored and compared -/

/-- The bytes of a name that are kept. -/
def CStr.stored (name : CStr) : List UInt8 := name.bytes.take nameLen

/-- A stored name begins with the bytes that a lookup compares. -/
def Begins (stored query : CStr) : Prop := query.stored <+: stored.stored

instance (stored query : CStr) : Decidable (Begins stored query) :=
  inferInstanceAs (Decidable (query.stored <+: stored.stored))

theorem take_strnlen (name : CStr) : name.bytes.take (strnlen name nameLen) = name.stored := by
  unfold strnlen CStr.stored
  rw [List.take_eq_take_iff]
  omega

theorem strncmpEq_iff {s q : List UInt8} {n : Nat} (hn : n ≤ q.length) :
    strncmpEq s q n = true ↔ q.take n <+: s := by
  induction n generalizing s q with
  | zero => simp [strncmpEq]
  | succ n ih =>
    cases q with
    | nil => simp at hn
    | cons y q =>
      simp only [List.length_cons, Nat.add_le_add_iff_right] at hn
      cases s with
      | nil => simp [strncmpEq]
      | cons x s =>
        rw [strncmpEq, Bool.and_eq_true, ih hn, beq_iff_eq, List.take_succ_cons,
          List.cons_prefix_cons, eq_comm]

theorem strncmpEq_stored (s q : CStr) :
    strncmpEq s.stored q.bytes (strnlen q nameLen) = true ↔ Begins s q := by
  have hle : strnlen q nameLen ≤ q.bytes.length := Nat.min_le_left _ _
  rw [strncmpEq_iff hle, take_strnlen]
  rfl

/-! ## What a sequence of calls has stored -/

structure EdgeKey where
  producer : Int
  consumer : Int
  name : CStr
  deriving DecidableEq

def Call.nodeName? : Call → Option CStr
  | .node name => some name
  | .edge _ _ _ _ => none

def Call.edgeKey? : Call → Option EdgeKey
  | .node _ => none
  | .edge _ p c x => some ⟨p, c, x.name⟩

/-- The names of the nodes, in the order of their creation. -/
def nodeNames (calls : List Call) : List CStr := calls.filterMap Call.nodeName?

def edgeKeys (calls : List Call) : List EdgeKey := calls.filterMap Call.edgeKey?

/-- The tables hold the nodes `ns` and the edges `es`. -/
structure Holds (g : GraphRec) (ns : List CStr) (es : List EdgeKey) : Prop where
  inUse : g.inUse = true
  nrNodes : g.nrNodes = ns.length
  node : ∀ i name, ns[i]? = some name → (g.nodes i).name = name.stored
  nrEdges : g.nrEdges = es.length
  edge : ∀ i k, es[i]? = some k → (g.edges i).name = k.name.stored ∧
    ((g.edges i).producer : Int) = k.producer ∧ ((g.edges i).consumer : Int) = k.consumer

theorem fresh_holds : Holds .fresh [] [] where
  inUse := rfl
  nrNodes := rfl
  node := by intro i name h; simp at h
  nrEdges := rfl
  edge := by intro i k h; simp at h

section

variable {g g' : GraphRec} {ns : List CStr} {es : List EdgeKey} {l l' s : Lib} {gr : Int}

theorem Holds.addNode (h : Holds g ns es) {name : CStr} {i : Nat}
    (ha : g.addNode name = (some i, g')) : i = ns.length ∧ Holds g' (ns ++ [name]) es := by
  unfold GraphRec.addNode at ha
  split at ha
  · cases ha
  simp only [Prod.mk.injEq, Option.some.injEq] at ha
  obtain ⟨rfl, rfl⟩ := ha
  refine ⟨h.nrNodes, h.inUse, ?_, ?_, h.nrEdges, h.edge⟩
  · simp [h.nrNodes]
  · intro j nm hj
    rcases getElem?_concat_iff.mp hj with hj | ⟨rfl, rfl⟩
    · have hlt := (List.getElem?_eq_some_iff.mp hj).1
      rw [← h.nrNodes] at hlt
      simp only [GraphRec.setNode, Function.update_of_ne hlt.ne]
      exact h.node j nm hj
    · simp only [GraphRec.setNode, ← h.nrNodes, Function.update_self]
      exact take_strnlen name

theorem Holds.addEdge (h : Holds g ns es) {pathSet : Bool} {env : Env} {p c : Int} {x : EdgeArgs}
    {i : Nat} (ha : g.addEdge pathSet env p c x = .ok (some i, g')) :
    i = es.length ∧ Holds g' ns (es ++ [⟨p, c, x.name⟩]) := by
  obtain ⟨hp, hc, rfl, hadd⟩ := addEdge_some ha
  obtain ⟨e, hname, hep, hec, -, -, hN, hE, hedge, hnode⟩ := hadd.view
  refine ⟨h.nrEdges, hadd.inUse.trans h.inUse, hN.trans h.nrNodes, ?_, ?_, ?_⟩
  · intro j nm hj
    rw [hnode]
    simp only
    split
    · rw [(countIn_lists _ _ _).2.2.1]
      exact h.node j nm hj
    · exact h.node j nm hj
  · rw [hE, h.nrEdges, List.length_append, List.length_singleton]
  · intro j k hj
    rw [hedge]
    rcases getElem?_concat_iff.mp hj with hj | ⟨rfl, rfl⟩
    · have hlt := (List.getElem?_eq_some_iff.mp hj).1
      rw [← h.nrEdges] at hlt
      rw [Function.update_of_ne hlt.ne]
      exact h.edge j k hj
    · rw [← h.nrEdges, Function.update_self, hname, hep, hec]
      exact ⟨take_strnlen x.name, Int.toNat_of_nonneg hp, Int.toNat_of_nonneg hc⟩

structure NewGraph (l : Lib) (gr : Int) : Prop where
  mapped : l.mapped = true
  valid : 0 ≤ gr ∧ gr < maxGraphs
  fresh : l.graphs gr.toNat = .fresh

/-- Graph `gr` can be looked into, and it holds `ns` and `es`. -/
structure Open (l : Lib) (gr : Int) (ns : List CStr) (es : List EdgeKey) : Prop where
  mapped : l.mapped = true
  valid : 0 ≤ gr ∧ gr < maxGraphs
  table : Represents (l.graphs gr.toNat)
  holds : Holds (l.graphs gr.toNat) ns es

theorem NewGraph.open (h : NewGraph l gr) : Open l gr [] [] := by
  refine ⟨h.mapped, h.valid, ?_, ?_⟩
  · rw [h.fresh]
    exact fresh_represents
  · rw [h.fresh]
    exact fresh_holds

theorem step_open {a : Call} (h : Open l gr ns es) (hs : step gr l a = some l') :
    Open l' gr (ns ++ nodeNames [a]) (es ++ edgeKeys [a]) := by
  have htable := step_represents h.table hs
  obtain ⟨g', rfl, hcases⟩ := step_cases hs
  refine ⟨h.mapped, h.valid, htable, ?_⟩
  rw [setGraph_self]
  rcases hcases with ⟨name, i, rfl, hadd⟩ | ⟨env, p, c, x, i, rfl, -, hadd⟩
  · rw [edgeKeys, List.filterMap_cons_none rfl, List.filterMap_nil, List.append_nil]
    exact (h.holds.addNode hadd).2
  · rw [nodeNames, List.filterMap_cons_none rfl, List.filterMap_nil, List.append_nil]
    exact (h.holds.addEdge hadd).2

theorem run_open {calls : List Call} (h : Open l gr ns es)
    (hr : Lts.run (step gr) l calls = some s) :
    Open s gr (ns ++ nodeNames calls) (es ++ edgeKeys calls) := by
  induction calls generalizing l ns es with
  | nil =>
    obtain rfl := Option.some.inj hr
    simpa [nodeNames, edgeKeys] using h
  | cons a calls ih =>
    obtain ⟨l₁, hs, ht⟩ := (Lts.run_cons_eq_some (step gr)).mp hr
    have hrest := ih (step_open h hs) ht
    rwa [List.append_assoc, List.append_assoc, nodeNames, nodeNames, ← List.filterMap_append,
      edgeKeys, edgeKeys, ← List.filterMap_append] at hrest

/-! ## The lookups -/

/-- After successful calls, a graph that was new holds what they have created. -/
theorem run_new {calls : List Call} (hl : NewGraph l gr)
    (hr : Lts.run (step gr) l calls = some s) : Open s gr (nodeNames calls) (edgeKeys calls) := by
  have h := run_open hl.open hr
  rwa [List.nil_append, List.nil_append] at h

/-- A search through a table that stands for the list `xs`. -/
theorem find_first {α : Type} {xs : List α} {p : Nat → Bool} {q : α → Prop}
    (hp : ∀ i x, xs[i]? = some x → (p i = true ↔ q x)) :
    ((List.range xs.length).find? p = none ↔ ∀ x ∈ xs, ¬ q x) ∧
    ∀ i x, xs[i]? = some x → q x →
      ((List.range xs.length).find? p = some i ↔ ∀ y ∈ xs.take i, ¬ q y) := by
  constructor
  · rw [List.find?_range_eq_none]
    constructor
    · intro h x hx hq
      obtain ⟨i, hi⟩ := List.mem_iff_getElem?.mp hx
      have := h i (List.getElem?_eq_some_iff.mp hi).1
      simp [(hp i x hi).mpr hq] at this
    · intro h i hi
      have hget := List.getElem?_eq_getElem hi
      have := h _ (List.mem_of_getElem? hget)
      simpa [← hp i _ hget] using this
  · intro i x hx hq
    have hi := (List.getElem?_eq_some_iff.mp hx).1
    rw [List.find?_range_eq_some]
    constructor
    · rintro ⟨-, -, h⟩ y hy hqy
      obtain ⟨j, hj⟩ := List.mem_iff_getElem?.mp hy
      rw [List.getElem?_take] at hj
      split at hj
      · rename_i hji
        have := h j hji
        simp [(hp j y hj).mpr hqy] at this
      · cases hj
    · intro h
      refine ⟨(hp i x hx).mpr hq, List.mem_range.mpr hi, fun j hji => ?_⟩
      have hget := List.getElem?_eq_getElem (l := xs) (i := j) (by omega)
      have hmem : xs[j] ∈ xs.take i :=
        List.mem_of_getElem? (i := j) (by rw [List.getElem?_take, if_pos hji]; exact hget)
      have := h _ hmem
      simpa [← hp j _ hget] using this

theorem Open.live (h : Open l gr ns es) : Live l gr := ⟨h.mapped, h.valid, h.holds.inUse⟩

theorem strnlen_checks (name : CStr) :
    (strnlen name nameLen ≤ 0 ∨ strnlen name nameLen > nameLen) ↔ name.bytes = [] := by
  unfold strnlen nameLen
  rw [← List.length_eq_zero_iff]
  omega

theorem Live.setGraph (h : Live l gr) (huse : g.inUse = true) :
    Live (l.setGraph gr.toNat g) gr :=
  ⟨h.mapped, h.valid, by rw [setGraph_self]; exact huse⟩

/-- A name that is not empty is accepted while there is room. -/
theorem step_node (h : Live l gr) (hm : l.isGraphMaster = true) {name : CStr}
    (hname : name.bytes ≠ []) (hroom : (l.graphs gr.toNat).nrNodes + 1 ≠ maxNodes) :
    step gr l (.node name) =
      some (l.setGraph gr.toNat ((l.graphs gr.toNat).addNode name).2) := by
  simp only [step, initNode, h.isValidGraph, h.graphAt, hm, strnlen_checks, hname,
    GraphRec.addNode, if_neg hroom, Bool.not_true, Bool.false_eq_true, if_false, Option.map_some]

theorem step_edge (h : Live l gr) (hm : l.isGraphMaster = true) {env : Env} {p c : Int}
    {x : EdgeArgs} (hname : x.name.bytes ≠ []) (hcheck : x.attr.check = true) {i : Nat}
    (hadd : (l.graphs gr.toNat).addEdge l.pathSet env p c x = .ok (some i, g')) :
    step gr l (.edge env p c x) = some (l.setGraph gr.toNat g') := by
  simp only [step, initEdge, h.isValidGraph, h.graphAt, hm, strnlen_checks, hname, hcheck, hadd,
    ne_eq, not_true_eq_false, Bool.not_true, Bool.false_eq_true, if_false, Option.map_some]

/-- Only the owner of the graphs gets through. -/
theorem step_master {a : Call} (hs : step gr l a = some s) : l.isGraphMaster = true := by
  by_contra hm
  have hm : l.isGraphMaster = false := by simpa using hm
  cases a with
  | node name =>
    simp only [step, initNode, hm, Bool.not_true, Bool.false_eq_true, if_false, Bool.not_false,
      if_true] at hs
    cases hv : l.isValidGraph gr with
    | error f => simp [hv] at hs
    | ok b => cases b <;> simp [hv] at hs
  | edge env p c x =>
    simp only [step, initEdge, hm, Bool.not_true, Bool.false_eq_true, if_false, Bool.not_false,
      if_true, ne_eq, not_true_eq_false] at hs
    cases hv : l.isValidGraph gr with
    | error f => simp [hv] at hs
    | ok b => cases b <;> simp [hv] at hs

theorem step_edge_name {env : Env} {p c : Int} {x : EdgeArgs}
    (hs : step gr l (.edge env p c x) = some s) : x.name.bytes ≠ [] := by
  simp only [step] at hs
  split at hs
  · rename_i hinit
    exact (initEdge_some hinit).1
  · cases hs

theorem Open.findNode_eq (h : Open l gr ns es) (name : CStr) : findNode l true gr name =
    .ok (if name.bytes = [] then none
      else ((l.graphs gr.toNat).findNode name).map (fun (i : Nat) => ⟨gr, i⟩)) := by
  unfold findNode
  rw [h.live.isValidGraph]
  simp only [strnlen_checks, h.live.graphAt, Bool.not_true, Bool.false_eq_true,
    if_false]
  split <;> rfl

theorem Open.findEdge_eq (h : Open l gr ns es) (p c : Int) (name : CStr) :
    findEdge l true ⟨gr, p⟩ ⟨gr, c⟩ name =
      .ok (if name.bytes = [] then none
        else ((l.graphs gr.toNat).findEdge p c name).map (fun (i : Nat) => ⟨gr, i⟩)) := by
  unfold findEdge
  rw [h.live.isValidGraph]
  simp only [strnlen_checks, h.live.graphAt, Bool.not_true, Bool.false_eq_true,
    if_false, ne_eq, not_true_eq_false]
  split <;> rfl

theorem NodeHandle.mk_inj (i j : Nat) (h : (⟨gr, i⟩ : NodeHandle) = ⟨gr, j⟩) : i = j :=
  Int.ofNat.inj (NodeHandle.mk.inj h).2

theorem EdgeHandle.mk_inj (i j : Nat) (h : (⟨gr, i⟩ : EdgeHandle) = ⟨gr, j⟩) : i = j :=
  Int.ofNat.inj (EdgeHandle.mk.inj h).2

/-- The handle that is returned tells which entry was found. -/
theorem ok_map_inj {β : Type} {f : Nat → β} (hf : ∀ i j, f i = f j → i = j) {o : Option Nat}
    {i : Nat} : (Except.ok (o.map f) : Except Fault (Option β)) = .ok (some (f i)) ↔ o = some i := by
  cases o with
  | none => simp
  | some j =>
    simp only [Option.map_some, Except.ok.injEq, Option.some.injEq]
    exact ⟨hf j i, fun h => by rw [h]⟩

/-- The nodes that a lookup compares. -/
theorem Holds.node_begins (h : Holds g ns es) (name : CStr) (i : Nat) (nm : CStr)
    (hi : ns[i]? = some nm) :
    strncmpEq (g.nodes i).name name.bytes (strnlen name nameLen) = true ↔ Begins nm name := by
  rw [h.node i nm hi, strncmpEq_stored]

/-- An edge between the nodes asked for, with a name that begins with the one asked for. -/
def EdgeKey.Fits (k : EdgeKey) (p c : Int) (name : CStr) : Prop :=
  k.producer = p ∧ k.consumer = c ∧ Begins k.name name

/-- In tables that agree with each other, the edge found is listed at both of its ends. -/
theorem findEdge_listed (hg : Represents g) (p c : Int) (name : CStr) : g.findEdge p c name =
    (List.range g.nrEdges).find? (fun i =>
      ((g.edges i).producer : Int) == p && ((g.edges i).consumer : Int) == c &&
      strncmpEq (g.edges i).name name.bytes (strnlen name nameLen)) := by
  unfold GraphRec.findEdge
  split
  · rename_i hnone
    exact hnone.symm
  · rename_i i hi
    have hmem := List.mem_range.mp (List.mem_of_find?_eq_some hi)
    have hfit := List.find?_some hi
    simp only [Bool.and_eq_true, beq_iff_eq] at hfit
    obtain ⟨⟨rfl, rfl⟩, -⟩ := hfit
    obtain ⟨-, -, -, hp, hc⟩ := hg.attrs i hmem
    rw [if_pos ⟨(hg.mem_outs hp).mpr ⟨hmem, rfl⟩, (hg.mem_ins hc).mpr ⟨hmem, rfl⟩⟩, hi]

theorem Holds.edge_fits (h : Holds g ns es) (p c : Int) (name : CStr) (i : Nat) (k : EdgeKey)
    (hi : es[i]? = some k) :
    (((g.edges i).producer : Int) == p && ((g.edges i).consumer : Int) == c &&
      strncmpEq (g.edges i).name name.bytes (strnlen name nameLen)) = true ↔ k.Fits p c name := by
  obtain ⟨hname, hp, hc⟩ := h.edge i k hi
  rw [hname, hp, hc, Bool.and_eq_true, Bool.and_eq_true, beq_iff_eq, beq_iff_eq, strncmpEq_stored,
    and_assoc]
  rfl

/-- **When a lookup finds what was created.** After any sequence of successful calls on a new
graph:

* the lookup of a node that a call created returns the handle of that call exactly when no node
  created before it has a name that begins with the same bytes;
* the lookup of a name that no node was given returns `-1` exactly when it is empty or no node
  has a name that begins with it;
* and the same for the edges from one node to another.

Here a name is what is left of it after its first 80 bytes are taken. -/
theorem find_undoes_init_iff {calls : List Call} (hl : NewGraph l gr)
    (hr : Lts.run (step gr) l calls = some s) :
    (∀ pre name post l₁ n l₂, calls = pre ++ .node name :: post →
      Lts.run (step gr) l pre = some l₁ → initNode l₁ true gr name = .ok (some n, l₂) →
      (findNode s true gr name = .ok (some n) ↔ ∀ nm ∈ nodeNames pre, ¬ Begins nm name)) ∧
    (∀ name, name ∉ nodeNames calls →
      (findNode s true gr name = .ok none ↔
        name.bytes = [] ∨ ∀ nm ∈ nodeNames calls, ¬ Begins nm name)) ∧
    (∀ pre env p c x post l₁ e l₂, calls = pre ++ .edge env p c x :: post →
      Lts.run (step gr) l pre = some l₁ →
      initEdge l₁ env true ⟨gr, p⟩ ⟨gr, c⟩ x = .ok (some e, l₂) →
      (findEdge s true ⟨gr, p⟩ ⟨gr, c⟩ x.name = .ok (some e) ↔
        ∀ k ∈ edgeKeys pre, ¬ k.Fits p c x.name)) ∧
    (∀ p c name, ⟨p, c, name⟩ ∉ edgeKeys calls →
      (findEdge s true ⟨gr, p⟩ ⟨gr, c⟩ name = .ok none ↔
        name.bytes = [] ∨ ∀ k ∈ edgeKeys calls, ¬ k.Fits p c name)) := by
  have h := run_new hl hr
  refine ⟨?_, ?_, ?_, ?_⟩
  · intro pre name post l₁ n l₂ hcalls hpre hinit
    have h₁ := run_new hl hpre
    obtain ⟨hne, i, g', hadd, rfl, -⟩ := initNode_some hinit
    obtain ⟨rfl, -⟩ := h₁.holds.addNode hadd
    have hnames : nodeNames calls = nodeNames pre ++ name :: nodeNames post := by
      rw [hcalls, nodeNames, List.filterMap_append]
      rfl
    have hget : (nodeNames calls)[(nodeNames pre).length]? = some name := by simp [hnames]
    have hfind := (find_first (h.holds.node_begins name)).2 _ name hget List.prefix_rfl
    have htake : (nodeNames calls).take (nodeNames pre).length = nodeNames pre := by simp [hnames]
    rw [h.findNode_eq, if_neg hne, GraphRec.findNode, h.holds.nrNodes, ok_map_inj NodeHandle.mk_inj,
      hfind, htake]
  · intro name _
    have hfind := (find_first (h.holds.node_begins name)).1
    rw [h.findNode_eq, GraphRec.findNode, h.holds.nrNodes]
    by_cases hne : name.bytes = []
    · simp [hne]
    · simpa [hne] using hfind
  · intro pre env p c x post l₁ e l₂ hcalls hpre hinit
    have h₁ := run_new hl hpre
    obtain ⟨hne, -, i, g', hadd, rfl, -⟩ := initEdge_some hinit
    obtain ⟨rfl, -⟩ := h₁.holds.addEdge hadd
    have hkeys : edgeKeys calls = edgeKeys pre ++ ⟨p, c, x.name⟩ :: edgeKeys post := by
      rw [hcalls, edgeKeys, List.filterMap_append]
      rfl
    have hget : (edgeKeys calls)[(edgeKeys pre).length]? = some ⟨p, c, x.name⟩ := by simp [hkeys]
    have hfind := (find_first (h.holds.edge_fits p c x.name)).2 _ _ hget
      ⟨rfl, rfl, List.prefix_rfl⟩
    have htake : (edgeKeys calls).take (edgeKeys pre).length = edgeKeys pre := by simp [hkeys]
    rw [h.findEdge_eq, if_neg hne, findEdge_listed h.table, h.holds.nrEdges,
      ok_map_inj EdgeHandle.mk_inj, hfind, htake]
  · intro p c name _
    have hfind := (find_first (h.holds.edge_fits p c name)).1
    rw [h.findEdge_eq, findEdge_listed h.table, h.holds.nrEdges]
    by_cases hne : name.bytes = []
    · simp [hne]
    · simpa [hne] using hfind

end

def nameAb : CStr := ⟨[97, 98], by decide⟩

/-- After a node `ab` is created, the name `a` that was never given is found. A node `a` that is
created next cannot be found: the lookup returns the node `ab`. -/
theorem prefix_found : ∃ l₁ l₂, initNode newLib true 0 nameAb = .ok (some ⟨0, 0⟩, l₁) ∧
    findNode l₁ true 0 nameA = .ok (some ⟨0, 0⟩) ∧
    initNode l₁ true 0 nameA = .ok (some ⟨0, 1⟩, l₂) ∧
    findNode l₂ true 0 nameA = .ok (some ⟨0, 0⟩) :=
  ⟨_, _, rfl, rfl, rfl, rfl⟩

theorem newLib_newGraph : NewGraph newLib 0 := ⟨rfl, by decide, rfl⟩

/-- The second of two nodes whose names do not begin with each other is found. -/
theorem find_undoes_init_iff_loop : ∃ s l₁ l₂, Lts.run (step 0) newLib loopCalls = some s ∧
    Lts.run (step 0) newLib [.node nameA] = some l₁ ∧
    initNode l₁ true 0 nameB = .ok (some ⟨0, 1⟩, l₂) ∧
    findNode s true 0 nameB = .ok (some ⟨0, 1⟩) := by
  have hd : (Lts.run (step 0) newLib loopCalls).isSome = true := by decide +kernel
  obtain ⟨s, hs⟩ := Option.isSome_iff_exists.mp hd
  have hnone : ∀ nm ∈ nodeNames [.node nameA], ¬ Begins nm nameB := by
    intro nm hnm
    obtain rfl := List.mem_singleton.mp hnm
    decide
  refine ⟨s, _, _, hs, rfl, rfl, ?_⟩
  exact ((find_undoes_init_iff newLib_newGraph hs).1 [.node nameA] nameB _ _ _ _ rfl rfl rfl).mpr
    hnone

end Pgm.Tables
