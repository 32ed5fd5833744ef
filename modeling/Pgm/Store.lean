import Pgm.IpcName
import Pgm.Owner

/-!
# The store of graphs

`pgm_init_graph`, `pgm_find_graph` and `pgm_destroy_graph` over the slots of `gGraphs`, together with
the calls on nodes and edges and with the FIFOs that these make and remove in the graph's directory.
A run is any sequence of calls by the thread that set up the library and by others, and
`storeStep_move` says what a call can do.
-/

namespace Pgm.Tables

/-- The tables, `g->name` of each slot, whether `gGraphSharedMem` is set, and the FIFOs in the
directory `gGraphPath`. -/
structure Store where
  lib : Lib
  names : Nat → List UInt8
  shared : Bool
  fifos : List (List UInt8)

section

variable (hash : List UInt8 → Nat) (graphPath : List UInt8)

/-! ## FIFOs -/

/-- `fifo_create`: an old FIFO of the name is removed first. -/
def fifoCreate (pathSet mkfifo : Bool) (name : List UInt8) (fifos : List (List UInt8)) :
    List (List UInt8) :=
  if !pathSet then fifos
  else if mkfifo then name :: fifos.filter (· ≠ name)
  else fifos.filter (· ≠ name)

def fifoDestroy (pathSet : Bool) (name : List UInt8) (fifos : List (List UInt8)) :
    List (List UInt8) :=
  if !pathSet then fifos else fifos.filter (· ≠ name)

/-- The graph when `ops->init` of a new edge is called. -/
def GraphRec.linked (g : GraphRec) (producer consumer : Nat) (x : EdgeArgs) : GraphRec :=
  ({ g with nrEdges := g.nrEdges + 1 }.link g.nrEdges producer consumer x.attr
    x.skips.isSome).setEdge g.nrEdges (x.record producer consumer)

/-- What `__pgm_init_edge` does in the directory: `ops->init` is called if nothing fails before. -/
def GraphRec.addEdgeFifos (g : GraphRec) (name : List UInt8) (pathSet : Bool) (env : Env)
    (producer consumer : Int) (x : EdgeArgs) (fifos : List (List UInt8)) : List (List UInt8) :=
  if g.nrEdges + 1 = maxEdges then fifos
  else if (g.nrNodes : Int) ≤ producer ∨ (g.nrNodes : Int) ≤ consumer then fifos
  else if (g.nodes producer.toNat).outs.length + 1 = maxDegree then fifos
  else if (g.nodes consumer.toNat).ins.length + 1 = maxDegree then fifos
  else if x.attr.ops = some .fifo then
    fifoCreate pathSet env.mkfifo
      ((g.linked producer.toNat consumer.toNat x).fifoName hash graphPath name g.nrEdges) fifos
  else fifos

def GraphRec.destroyEdges (g : GraphRec) (name : List UInt8) (pathSet : Bool) :
    List Nat → List (List UInt8) → Except Fault (List (List UInt8))
  | [], fifos => .ok fifos
  | e :: es, fifos =>
    match (g.edges e).ops with
    | none => .error .pointer
    | some .fifo =>
      g.destroyEdges name pathSet es (fifoDestroy pathSet (g.fifoName hash graphPath name e) fifos)
    | some _ => g.destroyEdges name pathSet es fifos

/-! ## Graphs -/

def Store.openGraph (s : Store) (name : CStr) : Option Nat :=
  (List.range maxGraphs).find? (fun i => strncmpEq (s.names i) name.bytes name.bytes.length)

def Store.findGraph (s : Store) (name : CStr) : Option Nat :=
  if !s.shared then none
  else if strnlen name nameLen ≤ 0 ∨ strnlen name nameLen > nameLen then none
  else s.openGraph name

def Store.prepareGraph (s : Store) (name : CStr) : Option Nat × Store :=
  match (List.range maxGraphs).find? (fun i => !(s.lib.graphs i).inUse) with
  | none => (none, s)
  | some i =>
    let s := { s with lib := s.lib.setGraph i .fresh, names := Function.update s.names i [] }
    if strnlen name nameLen ≤ 0 ∨ strnlen name nameLen > nameLen then (none, s)
    else (some i, { s with names := Function.update s.names i (name.bytes.take nameLen) })

def Store.initGraph (s : Store) (name : CStr) : Option Nat × Store :=
  if !s.lib.mapped then (none, s)
  else if strnlen name nameLen ≤ 0 ∨ strnlen name nameLen > nameLen then (none, s)
  else if s.lib.isGraphMaster && (s.findGraph name).isNone then s.prepareGraph name
  else (none, s)

/-- The graph that `__destroy_graph` leaves: the edges stay as they are. -/
def GraphRec.destroyed (g : GraphRec) : GraphRec :=
  { g with inUse := false, nrNodes := 0, nodes := fun _ => .zero }

def Store.destroyGraph (s : Store) (graph : Int) : Except Fault (Bool × Store) :=
  if !s.lib.isGraphMaster then .ok (false, s)
  else
    match s.lib.isValidGraph graph with
    | .error f => .error f
    | .ok false => .ok (false, s)
    | .ok true =>
      match s.lib.graphAt graph with
      | .error f => .error f
      | .ok g =>
        if (List.range g.nrNodes).any (fun i => (g.nodes i).owner != unclaimed) then .ok (false, s)
        else
          match g.destroyEdges hash graphPath (s.names graph.toNat) s.lib.pathSet
              (List.range g.nrEdges) s.fifos with
          | .error f => .error f
          | .ok fifos =>
            .ok (true, { s with
              lib := s.lib.setGraph graph.toNat g.destroyed
              names := Function.update s.names graph.toNat []
              fifos := fifos })

/-- `pgm_init_edge` and `pgm_init_backedge`, with what they do in the directory. -/
def Store.initEdge (s : Store) (env : Env) (dst : Bool) (producer consumer : NodeHandle)
    (x : EdgeArgs) : Except Fault (Option EdgeHandle × Store) :=
  if !dst then .ok (none, s)
  else if producer.graph ≠ consumer.graph then .ok (none, s)
  else
    match s.lib.isValidGraph producer.graph with
    | .error f => .error f
    | .ok false => .ok (none, s)
    | .ok true =>
      if !s.lib.isGraphMaster then .ok (none, s)
      else if strnlen x.name nameLen ≤ 0 ∨ strnlen x.name nameLen > nameLen then .ok (none, s)
      else if !x.attr.check then .ok (none, s)
      else
        match s.lib.graphAt producer.graph with
        | .error f => .error f
        | .ok g =>
          match g.addEdge s.lib.pathSet env producer.node consumer.node x with
          | .error f => .error f
          | .ok (ret, g') =>
            .ok (ret.map (fun (i : Nat) => ⟨producer.graph, i⟩),
              { s with
                lib := s.lib.setGraph producer.graph.toNat g'
                fifos := g.addEdgeFifos hash graphPath (s.names producer.graph.toNat) s.lib.pathSet
                  env producer.node consumer.node x s.fifos })

/-! ## Runs -/

inductive StoreOp where
  | initGraph (name : CStr)
  | findGraph (name : CStr)
  | destroyGraph (graph : Int)
  | initNode (dst : Bool) (graph : Int) (name : CStr)
  | initEdge (env : Env) (dst : Bool) (producer consumer : NodeHandle) (x : EdgeArgs)
  | claimNode (node : NodeHandle) (tid self : Int) (o : Ends)
  | claimAnyNode (graph : Int) (dst : Bool) (tid self : Int) (o : Ends)
  | releaseNode (node : NodeHandle) (tid self : Int) (o : Ends)

inductive Reply where
  | graph (ret : Option Nat)
  | node (ret : Option NodeHandle)
  | edge (ret : Option EdgeHandle)
  | status (ok : Bool)
  deriving DecidableEq

def Store.exec (s : Store) : StoreOp → Except Fault (Reply × Store)
  | .initGraph name => .ok (.graph (s.initGraph name).1, (s.initGraph name).2)
  | .findGraph name => .ok (.graph (s.findGraph name), s)
  | .destroyGraph graph =>
    (s.destroyGraph hash graphPath graph).map (fun r => (.status r.1, r.2))
  | .initNode dst graph name =>
    (initNode s.lib dst graph name).map (fun r => (.node r.1, { s with lib := r.2 }))
  | .initEdge env dst producer consumer x =>
    (s.initEdge hash graphPath env dst producer consumer x).map (fun r => (.edge r.1, r.2))
  | .claimNode node tid self o =>
    (claimNode s.lib node tid self o).map (fun r => (.status r.1, { s with lib := r.2 }))
  | .claimAnyNode graph dst tid self o =>
    (claimAnyNode s.lib graph dst tid self o).map (fun r => (.node r.1, { s with lib := r.2 }))
  | .releaseNode node tid self o =>
    (releaseNode s.lib node tid self o).map (fun r => (.status r.1, { s with lib := r.2 }))

/-- A call and `gIsGraphMaster` of the thread that makes it. -/
structure StoreCall where
  master : Bool
  op : StoreOp

def Store.as (s : Store) (master : Bool) : Store :=
  { s with lib := { s.lib with isGraphMaster := master } }

def storeStep (s : Store) (c : StoreCall) : Option Store :=
  match (s.as c.master).exec hash graphPath c.op with
  | .ok r => some r.2
  | .error _ => none

/-! ## What a call does -/

/-- How `__pgm_init_edge` ends once it has advanced the edge counter. -/
inductive AddsEdge (g : GraphRec) (p c : Int) (x : EdgeArgs) : GraphRec → Prop
  | full (h : (g.nodes p.toNat).outs.length + 1 = maxDegree ∨
      (g.nodes c.toNat).ins.length + 1 = maxDegree) :
      AddsEdge g p c x { g with nrEdges := g.nrEdges + 1 }
  | link (r : EdgeRec) (hp : 0 ≤ p) (hc : 0 ≤ c)
      (hout : (g.nodes p.toNat).outs.length + 1 ≠ maxDegree)
      (hin : (g.nodes c.toNat).ins.length + 1 ≠ maxDegree)
      (hname : r.name = (x.record p.toNat c.toNat).name) (hpr : r.producer = p.toNat)
      (hco : r.consumer = c.toNat) (hops : r.ops = x.attr.ops) :
      AddsEdge g p c x ((g.linked p.toNat c.toNat x).setEdge g.nrEdges r)

/-- The store after a call by a thread with the flag `master` that writes slot `i`. -/
def Store.put (s : Store) (master : Bool) (i : Nat) (g : GraphRec) (names : Nat → List UInt8)
    (fifos : List (List UInt8)) : Store :=
  ⟨(s.as master).lib.setGraph i g, names, s.shared, fifos⟩

/-- A call by a thread with the flag `c.master`. Each case gives the store after it. -/
inductive StoreMove (s : Store) (c : StoreCall) : Store → Prop
  | same (h : ∀ env dst p q x, c.op = .initEdge env dst p q x →
      ¬ Admitted (s.as c.master).lib dst p q x) : StoreMove s c (s.as c.master)
  | create (i : Nat) (name : CStr) (hop : c.op = .initGraph name) (hlt : i < maxGraphs)
      (hfree : (s.lib.graphs i).inUse = false) (hname : name.bytes ≠ [])
      (hnone : s.findGraph name = none) :
      StoreMove s c (s.put c.master i .fresh (Function.update s.names i name.stored) s.fifos)
  | node (i : Nat) (dst : Bool) (gr : Int) (name : CStr) (hop : c.op = .initNode dst gr name)
      (huse : (s.lib.graphs i).inUse = true) :
      StoreMove s c (s.put c.master i ((s.lib.graphs i).addNode name).2 s.names s.fifos)
  | edge (env : Env) (dst : Bool) (p q : NodeHandle) (x : EdgeArgs) (g' : GraphRec)
      (hop : c.op = .initEdge env dst p q x) (hadm : Admitted (s.as c.master).lib dst p q x)
      (hadd : AddsEdge (s.lib.graphs p.graph.toNat) p.node q.node x g') :
      StoreMove s c (s.put c.master p.graph.toNat g' s.names
        ((s.lib.graphs p.graph.toNat).addEdgeFifos hash graphPath (s.names p.graph.toNat)
          s.lib.pathSet env p.node q.node x s.fifos))
  | owner (i n : Nat) (t : Int) (hedge : ∀ env dst p q x, c.op ≠ .initEdge env dst p q x)
      (hnode : ∀ dst gr name, c.op ≠ .initNode dst gr name)
      (huse : (s.lib.graphs i).inUse = true) :
      StoreMove s c (s.put c.master i ((s.lib.graphs i).setOwner n t) s.names s.fifos)
  | destroy (i : Nat) (gr : Int) (fifos : List (List UInt8)) (hop : c.op = .destroyGraph gr)
      (huse : (s.lib.graphs i).inUse = true)
      (hdestroy : (s.lib.graphs i).destroyEdges hash graphPath (s.names i) s.lib.pathSet
        (List.range (s.lib.graphs i).nrEdges) s.fifos = .ok fifos) :
      StoreMove s c (s.put c.master i (s.lib.graphs i).destroyed (Function.update s.names i [])
        fifos)

end

section

variable {hash : List UInt8 → Nat} {graphPath : List UInt8} {s s' : Store} {c : StoreCall}

theorem finishEdge_record (g : GraphRec) (pathSet : Bool) (env : Env) (i p q : Nat) (x : EdgeArgs) :
    ∃ r : EdgeRec, r.name = (x.record p q).name ∧ r.producer = p ∧ r.consumer = q ∧
      r.ops = x.attr.ops ∧ (g.finishEdge pathSet env i p q x).2 =
        (g.link i p q x.attr x.skips.isSome).setEdge i r := by
  unfold GraphRec.finishEdge
  simp only
  split
  · exact ⟨x.record p q, rfl, rfl, rfl, rfl, rfl⟩
  · split
    · exact ⟨x.record p q, rfl, rfl, rfl, rfl, rfl⟩
    · rename_i e hinit
      obtain ⟨hname, hp, hc, -, -, ho⟩ := init_same hinit
      exact ⟨e, hname, hp, hc, ho, setEdge_setEdge _ _ _ _⟩

theorem addEdge_ends {g g' : GraphRec} {pathSet : Bool} {env : Env} {p q : Int} {x : EdgeArgs}
    {ret : Option Nat} (hroom : g.nrEdges + 1 ≠ maxEdges) (hp : p < g.nrNodes) (hq : q < g.nrNodes)
    (h : g.addEdge pathSet env p q x = .ok (ret, g')) : AddsEdge g p q x g' := by
  unfold GraphRec.addEdge at h
  rw [if_neg hroom, if_neg (by omega)] at h
  simp only at h
  split at h
  · cases h
  rename_i np hnp
  obtain ⟨hp0, rfl⟩ := nodeAt_ok hnp
  split at h
  · rename_i hout
    obtain ⟨-, rfl⟩ := ok_none_inj h
    exact .full (Or.inl hout)
  rename_i hout
  split at h
  · cases h
  rename_i nq hnq
  obtain ⟨hq0, rfl⟩ := nodeAt_ok hnq
  split at h
  · rename_i hin
    obtain ⟨-, rfl⟩ := ok_none_inj h
    exact .full (Or.inr hin)
  rename_i hin
  obtain ⟨r, hname, hpr, hco, hops, heq⟩ := finishEdge_record { g with nrEdges := g.nrEdges + 1 }
    pathSet env g.nrEdges p.toNat q.toNat x
  have hg' : ({ g with nrEdges := g.nrEdges + 1 }.link g.nrEdges p.toNat q.toNat x.attr
      x.skips.isSome).setEdge g.nrEdges r = g' :=
    heq.symm.trans (congrArg Prod.snd (Except.ok.inj h))
  rw [← hg', ← setEdge_setEdge _ _ (x.record p.toNat q.toNat) r]
  exact .link r hp0 hq0 hout hin hname hpr hco hops

theorem isValidGraph_live {l : Lib} {gr : Int} (h : l.isValidGraph gr = .ok true) : Live l gr := by
  rw [isValidGraph_eq] at h
  split at h
  · cases h
  · obtain ⟨hm, hv, hu⟩ := of_decide_eq_true (Except.ok.inj h)
    exact ⟨hm, hv, hu⟩

theorem Store.initEdge_ends {env : Env} {dst : Bool} {p q : NodeHandle} {x : EdgeArgs}
    {ret : Option EdgeHandle} (h : s.initEdge hash graphPath env dst p q x = .ok (ret, s')) :
    (s' = s ∧ ¬ Admitted s.lib dst p q x) ∨
    (Admitted s.lib dst p q x ∧ ∃ g', AddsEdge (s.lib.graphs p.graph.toNat) p.node q.node x g' ∧
      s' = { s with
        lib := s.lib.setGraph p.graph.toNat g'
        fifos := (s.lib.graphs p.graph.toNat).addEdgeFifos hash graphPath
          (s.names p.graph.toNat) s.lib.pathSet env p.node q.node x s.fifos }) := by
  have hearly : ∀ {s₁ : Store}, (Except.ok (none, s) : Except Fault (Option EdgeHandle × Store)) =
      .ok (ret, s₁) → s₁ = s := fun heq => (ok_none_inj heq).2
  unfold Store.initEdge at h
  split at h
  · rename_i hdst
    exact Or.inl ⟨hearly h, fun ha => by simp [ha.out] at hdst⟩
  rename_i hdst
  split at h
  · rename_i hgr
    exact Or.inl ⟨hearly h, fun ha => hgr ha.graph⟩
  rename_i hgr
  split at h
  · cases h
  · rename_i hvalid
    refine Or.inl ⟨hearly h, fun ha => ?_⟩
    have hlive : Live s.lib p.graph := ⟨ha.mapped, ha.valid, ha.inUse⟩
    rw [hlive.isValidGraph] at hvalid
    cases hvalid
  rename_i hvalid
  have hlive := isValidGraph_live hvalid
  split at h
  · rename_i hm
    exact Or.inl ⟨hearly h, fun ha => by simp [ha.master] at hm⟩
  rename_i hm
  split at h
  · rename_i hlen
    exact Or.inl ⟨hearly h, fun ha => ha.name ((strnlen_checks x.name).mp hlen)⟩
  rename_i hlen
  split at h
  · rename_i hcheck
    exact Or.inl ⟨hearly h, fun ha => by simp [ha.attr] at hcheck⟩
  rename_i hcheck
  rw [hlive.graphAt] at h
  simp only at h
  split at h
  · cases h
  rename_i r g' hadd
  obtain ⟨-, rfl⟩ := Prod.mk.inj (Except.ok.inj h)
  by_cases href : (s.lib.graphs p.graph.toNat).nrEdges + 1 = maxEdges ∨
      ((s.lib.graphs p.graph.toNat).nrNodes : Int) ≤ p.node ∨
      ((s.lib.graphs p.graph.toNat).nrNodes : Int) ≤ q.node
  · rw [addEdge_refused href] at hadd
    obtain ⟨-, rfl⟩ := ok_none_inj hadd
    refine Or.inl ⟨?_, fun ha => ?_⟩
    · have hfifos : (s.lib.graphs p.graph.toNat).addEdgeFifos hash graphPath
          (s.names p.graph.toNat) s.lib.pathSet env p.node q.node x s.fifos = s.fifos := by
        unfold GraphRec.addEdgeFifos
        split_ifs with h₁ h₂
        · rfl
        · rfl
        · exact absurd (href.resolve_left h₁) h₂
        · exact absurd (href.resolve_left h₁) h₂
        · exact absurd (href.resolve_left h₁) h₂
        · exact absurd (href.resolve_left h₁) h₂
      rw [hfifos, setGraph_eq_self]
    · rcases href with hroom | hp | hq
      · exact ha.room hroom
      · exact absurd ha.nodes.1 (not_lt.mpr hp)
      · exact absurd ha.nodes.2 (not_lt.mpr hq)
  · push Not at href
    refine Or.inr ⟨⟨by simpa using hdst, by simpa using hgr, hlive.mapped, hlive.valid, hlive.inUse,
      by simpa using hm, fun hname => hlen ((strnlen_checks x.name).mpr hname),
      by simpa using hcheck, href.1, href.2⟩, g', addEdge_ends href.1 href.2.1 href.2.2 hadd, rfl⟩

theorem Store.initGraph_ends (s : Store) (name : CStr) :
    (s.initGraph name).2 = s ∨ ∃ i < maxGraphs, (s.lib.graphs i).inUse = false ∧ name.bytes ≠ [] ∧
      s.findGraph name = none ∧ (s.initGraph name).2 = { s with
        lib := s.lib.setGraph i .fresh
        names := Function.update s.names i name.stored } := by
  unfold Store.initGraph
  split
  · exact Or.inl rfl
  split
  · exact Or.inl rfl
  rename_i hlen
  split
  · rename_i hfind
    unfold Store.prepareGraph
    split
    · exact Or.inl rfl
    · rename_i i hi
      obtain ⟨hfree, hmem, -⟩ := List.find?_range_eq_some.mp hi
      rw [if_neg hlen]
      simp only [Bool.and_eq_true, Option.isNone_iff_eq_none] at hfind
      refine Or.inr ⟨i, List.mem_range.mp hmem, by simpa using hfree,
        fun hname => hlen ((strnlen_checks name).mpr hname), hfind.2, ?_⟩
      simp only [Function.update_idem]
      rfl
  · exact Or.inl rfl

theorem Store.destroyGraph_ends {gr : Int} {ret : Bool}
    (h : s.destroyGraph hash graphPath gr = .ok (ret, s')) :
    s' = s ∨ ((s.lib.graphs gr.toNat).inUse = true ∧ ∃ fifos,
      (s.lib.graphs gr.toNat).destroyEdges hash graphPath (s.names gr.toNat) s.lib.pathSet
        (List.range (s.lib.graphs gr.toNat).nrEdges) s.fifos = .ok fifos ∧
      s' = { s with
        lib := s.lib.setGraph gr.toNat (s.lib.graphs gr.toNat).destroyed
        names := Function.update s.names gr.toNat []
        fifos := fifos }) := by
  have hearly : ∀ {s₁ : Store}, (Except.ok (false, s) : Except Fault (Bool × Store)) =
      .ok (ret, s₁) → s₁ = s := fun heq => (Prod.mk.inj (Except.ok.inj heq)).2.symm
  unfold Store.destroyGraph at h
  split at h
  · exact Or.inl (hearly h)
  split at h
  · cases h
  · exact Or.inl (hearly h)
  rename_i hvalid
  have hlive := isValidGraph_live hvalid
  rw [hlive.graphAt] at h
  simp only at h
  split at h
  · exact Or.inl (hearly h)
  split at h
  · cases h
  rename_i fifos hdestroy
  obtain ⟨-, rfl⟩ := Prod.mk.inj (Except.ok.inj h)
  exact Or.inr ⟨hlive.inUse, fifos, hdestroy, rfl⟩

def SetsOwner (l l' : Lib) : Prop :=
  l' = l ∨ ∃ i n t, (l.graphs i).inUse = true ∧ l' = l.setGraph i ((l.graphs i).setOwner n t)

theorem claimNode_sets {l l' : Lib} {node : NodeHandle} {tid self : Int} {o : Ends} {ret : Bool}
    (h : claimNode l node tid self o = .ok (ret, l')) : SetsOwner l l' := by
  unfold claimNode at h
  split at h
  · cases h
  · exact Or.inl (Prod.mk.inj (Except.ok.inj h)).2.symm
  rename_i hvalid
  have hlive := isValidGraph_live hvalid
  rw [hlive.graphAt] at h
  obtain ⟨-, rfl⟩ := Prod.mk.inj (Except.ok.inj h)
  unfold GraphRec.claim
  split
  · exact Or.inl (setGraph_eq_self l _)
  split
  · exact Or.inl (setGraph_eq_self l _)
  · exact Or.inr ⟨_, _, _, hlive.inUse, rfl⟩

theorem claimAnyNode_sets {l l' : Lib} {gr : Int} {dst : Bool} {tid self : Int} {o : Ends}
    {ret : Option NodeHandle} (h : claimAnyNode l gr dst tid self o = .ok (ret, l')) :
    SetsOwner l l' := by
  unfold claimAnyNode at h
  split at h
  · cases h
  · exact Or.inl (Prod.mk.inj (Except.ok.inj h)).2.symm
  rename_i hvalid
  have hlive := isValidGraph_live hvalid
  split at h
  · exact Or.inl (Prod.mk.inj (Except.ok.inj h)).2.symm
  rw [hlive.graphAt] at h
  obtain ⟨-, rfl⟩ := Prod.mk.inj (Except.ok.inj h)
  unfold GraphRec.claimAny
  split
  · exact Or.inl (setGraph_eq_self l _)
  · exact Or.inr ⟨_, _, _, hlive.inUse, rfl⟩

theorem releaseNode_sets {l l' : Lib} {node : NodeHandle} {tid self : Int} {o : Ends} {ret : Bool}
    (h : releaseNode l node tid self o = .ok (ret, l')) : SetsOwner l l' := by
  unfold releaseNode at h
  split at h
  · cases h
  · exact Or.inl (Prod.mk.inj (Except.ok.inj h)).2.symm
  rename_i hvalid
  have hlive := isValidGraph_live hvalid
  rw [hlive.graphAt] at h
  obtain ⟨-, rfl⟩ := Prod.mk.inj (Except.ok.inj h)
  unfold GraphRec.release
  split
  · exact Or.inr ⟨_, _, _, hlive.inUse, rfl⟩
  · exact Or.inl (setGraph_eq_self l _)

theorem SetsOwner.move {l : Lib} (h : SetsOwner (s.as c.master).lib l)
    (hedge : ∀ env dst p q x, c.op ≠ .initEdge env dst p q x)
    (hnode : ∀ dst gr name, c.op ≠ .initNode dst gr name) :
    StoreMove hash graphPath s c { s.as c.master with lib := l } := by
  rcases h with rfl | ⟨i, n, t, huse, rfl⟩
  · exact .same (fun env dst p q x hop => absurd hop (hedge env dst p q x))
  · exact .owner i n t hedge hnode huse

theorem map_ok {α β : Type} {x : Except Fault α} {f : α → β} {b : β} (h : x.map f = .ok b) :
    ∃ a, x = .ok a ∧ f a = b := by
  cases x with
  | error e => cases h
  | ok a => exact ⟨a, rfl, Except.ok.inj h⟩

theorem storeStep_move (h : storeStep hash graphPath s c = some s') :
    StoreMove hash graphPath s c s' := by
  unfold storeStep at h
  split at h
  · rename_i r hexec
    obtain rfl := Option.some.inj h
    cases hop : c.op with
    | initGraph name =>
      rw [hop] at hexec
      obtain rfl := Except.ok.inj hexec
      rcases (s.as c.master).initGraph_ends name with heq | ⟨i, hlt, hfree, hname, hnone, heq⟩
      · rw [heq]
        exact .same (fun _ _ _ _ _ hop' => by rw [hop] at hop'; cases hop')
      · rw [heq]
        exact .create i name hop hlt hfree hname hnone
    | findGraph name =>
      rw [hop] at hexec
      obtain rfl := Except.ok.inj hexec
      exact .same (fun _ _ _ _ _ hop' => by rw [hop] at hop'; cases hop')
    | destroyGraph gr =>
      rw [hop] at hexec
      obtain ⟨x, hcall, rfl⟩ := map_ok hexec
      rcases Store.destroyGraph_ends hcall with heq | ⟨huse, fifos, hdestroy, heq⟩
      · rw [heq]
        exact .same (fun _ _ _ _ _ hop' => by rw [hop] at hop'; cases hop')
      · rw [heq]
        exact .destroy _ gr fifos hop huse hdestroy
    | initNode dst gr name =>
      rw [hop] at hexec
      obtain ⟨x, hcall, rfl⟩ := map_ok hexec
      rcases initNode_cases hcall with ⟨-, heq⟩ | ⟨-, hvalid, -, heq⟩
      · rw [heq]
        exact .same (fun _ _ _ _ _ hop' => by rw [hop] at hop'; cases hop')
      · rw [heq]
        exact .node _ dst gr name hop (isValidGraph_live hvalid).inUse
    | initEdge env dst p q x =>
      rw [hop] at hexec
      obtain ⟨y, hcall, rfl⟩ := map_ok hexec
      rcases Store.initEdge_ends hcall with ⟨heq, hno⟩ | ⟨hadm, g', hadd, heq⟩
      · rw [heq]
        refine .same (fun env' dst' p' q' x' hop' => ?_)
        rw [hop] at hop'
        cases hop'
        exact hno
      · rw [heq]
        exact .edge env dst p q x g' hop hadm hadd
    | claimNode node tid self o =>
      rw [hop] at hexec
      obtain ⟨x, hcall, rfl⟩ := map_ok hexec
      exact (claimNode_sets hcall).move (by simp [hop]) (by simp [hop])
    | claimAnyNode gr dst tid self o =>
      rw [hop] at hexec
      obtain ⟨x, hcall, rfl⟩ := map_ok hexec
      exact (claimAnyNode_sets hcall).move (by simp [hop]) (by simp [hop])
    | releaseNode node tid self o =>
      rw [hop] at hexec
      obtain ⟨x, hcall, rfl⟩ := map_ok hexec
      exact (releaseNode_sets hcall).move (by simp [hop]) (by simp [hop])
  · cases h

end

end Pgm.Tables
