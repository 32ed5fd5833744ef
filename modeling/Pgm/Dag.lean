import Pgm.Ancestor
import Pgm.IpcName
import Pgm.Lib.Dfs
import Pgm.Lib.Walk

/-!
# Is a graph acyclic?

`dag_visit` searches for cycles depth first, and tells nodes apart by their names.

* `run_arcs`: the edge table lists the edges in the order of their creation;
* `dagVisit_eq`: `dag_visit` is the search of `Pgm.Lib.Dfs` with the names for keys;
* `pgmIsDag_iff_acyclic`: with different names, `pgm_is_dag` decides whether the edges form a
  cycle.
-/

namespace Pgm.Tables

/-! ## `dag_visit` and `pgm_is_dag` -/

abbrev Names : Type := Dfs.State (List UInt8)

/-- The loop of `dag_visit` over the out-edges of a node, with `rec` for its recursive call. -/
def dagLoop (g : GraphRec) (ignoreExplicitBackedges : Bool)
    (rec : Nat → Names → Option (Bool × Names)) : List Nat → Names → Option (Bool × Names)
  | [], s => some (true, s)
  | e :: es, s =>
    if ignoreExplicitBackedges && (g.edges e).isBackedge then
      dagLoop g ignoreExplicitBackedges rec es s
    else if (g.nodes (g.edges e).consumer).cname ∈ s.path then some (false, s)
    else
      match rec (g.edges e).consumer s with
      | none => none
      | some (false, t) => some (false, t)
      | some (true, t) => dagLoop g ignoreExplicitBackedges rec es t

/-- `dag_visit` for the node with index `n`. -/
def dagVisit (g : GraphRec) (ignoreExplicitBackedges : Bool) :
    Nat → Nat → Names → Option (Bool × Names)
  | 0, _, _ => none
  | fuel + 1, n, s =>
    if (g.nodes n).cname ∈ s.visited then some (true, s)
    else
      match dagLoop g ignoreExplicitBackedges (dagVisit g ignoreExplicitBackedges fuel)
        (g.nodes n).outs
        ⟨insert (g.nodes n).cname s.visited, insert (g.nodes n).cname s.path⟩ with
      | none => none
      | some (false, t) => some (false, t)
      | some (true, t) => some (true, ⟨t.visited, t.path.erase (g.nodes n).cname⟩)

/-- The loop of `pgm_is_dag`. Every call of `dag_visit` that calls itself has put a new name into
`visited`. -/
def dagRoots (g : GraphRec) (ignoreExplicitBackedges : Bool) :
    List Nat → Finset (List UInt8) → Option Bool
  | [], _ => some true
  | n :: ns, visited =>
    if (g.nodes n).cname ∈ visited then dagRoots g ignoreExplicitBackedges ns visited
    else
      match dagVisit g ignoreExplicitBackedges (maxNodes + 1) n ⟨visited, ∅⟩ with
      | none => none
      | some (false, _) => some false
      | some (true, t) => dagRoots g ignoreExplicitBackedges ns t.visited

def pgmIsDag (l : Lib) (graph : Int) (ignoreExplicitBackedges : Bool) : Except Stop Int :=
  match l.isValidGraph graph with
  | .error f => .error (.fault f)
  | .ok false => .ok 0
  | .ok true =>
    match l.graphAt graph with
    | .error f => .error (.fault f)
    | .ok g =>
      match dagRoots g ignoreExplicitBackedges (List.range g.nrNodes) ∅ with
      | none => .error .fuel
      | some isDag => .ok (if isDag then 1 else 0)

/-! ## The edges, without names -/

structure Arc where
  producer : Nat
  consumer : Nat
  back : Bool
  deriving DecidableEq

def EdgeRec.arc (e : EdgeRec) : Arc := ⟨e.producer, e.consumer, e.isBackedge⟩

def Call.arc? : Call → Option Arc
  | .node _ => none
  | .edge _ p c x => some ⟨p.toNat, c.toNat, x.skips.isSome⟩

/-- The edges that the calls create, in this order. -/
def arcs (calls : List Call) : List Arc := calls.filterMap Call.arc?

def GraphRec.arcs (g : GraphRec) : List Arc := (List.range g.nrEdges).map (fun e => (g.edges e).arc)

/-- The edges that the calls create, each with its attributes. -/
def Call.link? : Call → Option (Arc × Attr)
  | .node _ => none
  | .edge _ p c x => some (⟨p.toNat, c.toNat, x.skips.isSome⟩, x.attr)

def links (calls : List Call) : List (Arc × Attr) := calls.filterMap Call.link?

def GraphRec.links (g : GraphRec) : List (Arc × Attr) :=
  (List.range g.nrEdges).map (fun e => ((g.edges e).arc, (g.edges e).attr))

/-- The nodes that the edges lead to from node `n`, without explicit back edges if these are
ignored. -/
def targets (ignoreBackedges : Bool) (as : List Arc) (n : Nat) : List Nat :=
  (as.filter (fun a => a.producer == n && !(ignoreBackedges && a.back))).map Arc.consumer

section

variable {g : GraphRec} {l s l' : Lib} {gr : Int} {calls : List Call} {as : List Arc} {ignore : Bool}
  {key : Nat → List UInt8} {n m : Nat}

theorem mem_targets : m ∈ targets ignore as n ↔
    ∃ a ∈ as, (ignore && a.back) = false ∧ a.producer = n ∧ a.consumer = m := by
  simp only [targets, List.mem_map, List.mem_filter, Bool.and_eq_true, beq_iff_eq,
    Bool.not_eq_true']
  constructor
  · rintro ⟨a, ⟨ha, hp, hb⟩, hc⟩
    exact ⟨a, ha, hb, hp, hc⟩
  · rintro ⟨a, ha, hb, hp, hc⟩
    exact ⟨a, ⟨ha, hp, hb⟩, hc⟩

theorem addNode_links {name : CStr} {i : Nat} {g' : GraphRec}
    (ha : g.addNode name = (some i, g')) : g'.links = g.links := by
  unfold GraphRec.addNode at ha
  split at ha
  · cases ha
  · obtain ⟨-, rfl⟩ := Prod.mk.inj ha
    rfl

theorem Added.links {x : EdgeArgs} {p c : Nat} {g' : GraphRec} (ha : Added g x p c g') :
    g'.links = g.links ++ [(⟨p, c, x.skips.isSome⟩, x.attr)] := by
  obtain ⟨e, -, rfl, rfl, hattr, hback, -, rfl⟩ := ha.state
  change (List.range (g.nrEdges + 1)).map (fun i => (EdgeRec.arc (Function.update g.edges g.nrEdges e i),
    (Function.update g.edges g.nrEdges e i).attr)) = _
  rw [List.range_succ, List.map_append, List.map_singleton, Function.update_self, ← hback, ← hattr]
  congr 1
  refine List.map_congr_left (fun i hi => ?_)
  rw [Function.update_of_ne (List.mem_range.mp hi).ne]

theorem step_links {a : Call} (hs : step gr l a = some l') :
    (l'.graphs gr.toNat).links = (l.graphs gr.toNat).links ++ links [a] := by
  obtain ⟨g', rfl, hcases⟩ := step_cases hs
  rw [setGraph_self]
  rcases hcases with ⟨name, i, rfl, hadd⟩ | ⟨env, p, c, x, i, rfl, -, hadd⟩
  · rw [links, List.filterMap_cons_none rfl, List.filterMap_nil, List.append_nil]
    exact addNode_links hadd
  · obtain ⟨-, -, -, hadd⟩ := addEdge_some hadd
    exact hadd.links

theorem run_links (hr : Lts.run (step gr) l calls = some s) :
    (s.graphs gr.toNat).links = (l.graphs gr.toNat).links ++ links calls := by
  induction calls generalizing l with
  | nil =>
    obtain rfl := Option.some.inj hr
    simp [links]
  | cons a calls ih =>
    obtain ⟨l₁, hs, ht⟩ := (Lts.run_cons_eq_some (step gr)).mp hr
    rw [ih ht, step_links hs, List.append_assoc, links, links, ← List.filterMap_append]
    rfl

theorem GraphRec.arcs_eq (g : GraphRec) : g.arcs = g.links.map Prod.fst := by
  rw [GraphRec.links, List.map_map]
  rfl

theorem arcs_eq_links (calls : List Call) : arcs calls = (links calls).map Prod.fst := by
  rw [links, List.map_filterMap]
  refine List.filterMap_congr (fun a _ => ?_)
  cases a <;> rfl

theorem run_arcs (hr : Lts.run (step gr) l calls = some s) :
    (s.graphs gr.toNat).arcs = (l.graphs gr.toNat).arcs ++ arcs calls := by
  rw [GraphRec.arcs_eq, GraphRec.arcs_eq, arcs_eq_links, run_links hr, List.map_append]

/-- The tables of a graph that was new, after successful calls. -/
theorem run_graph (hl : NewGraph l gr) (hr : Lts.run (step gr) l calls = some s) :
    Open s gr (nodeNames calls) (edgeKeys calls) ∧
      (s.graphs gr.toNat).nrNodes = (nodeNames calls).length ∧
      (s.graphs gr.toNat).arcs = arcs calls := by
  have hopen := run_new hl hr
  refine ⟨hopen, hopen.holds.nrNodes, ?_⟩
  rw [run_arcs hr, hl.fresh]
  rfl

/-- The edges of the table lead from node to node. -/
theorem Represents.ends (h : Represents g) :
    ∀ a ∈ g.arcs, a.producer < g.nrNodes ∧ a.consumer < g.nrNodes := by
  intro a ha
  obtain ⟨e, he, rfl⟩ := List.mem_map.mp ha
  exact (h.attrs e (List.mem_range.mp he)).2.2.2

theorem targets_lt {N : Nat} (hends : ∀ a ∈ as, a.producer < N ∧ a.consumer < N)
    (hm : m ∈ targets ignore as n) : n < N ∧ m < N := by
  obtain ⟨a, ha, -, rfl, rfl⟩ := mem_targets.mp hm
  exact hends a ha

theorem Represents.targets_lt (h : Represents g) (hm : m ∈ targets ignore g.arcs n) :
    n < g.nrNodes ∧ m < g.nrNodes := Tables.targets_lt h.ends hm

/-- The out-edges of a node, as `dag_visit` follows them. -/
theorem Represents.outs_targets (h : Represents g) (hn : n < g.nrNodes) :
    ((g.nodes n).outs.filter (fun e => !(ignore && (g.edges e).isBackedge))).map
      (fun e => (g.edges e).consumer) = targets ignore g.arcs n := by
  unfold targets GraphRec.arcs
  rw [h.outs n hn, List.filter_filter, List.filter_map, List.map_map]
  congr 1
  refine List.filter_congr (fun e _ => ?_)
  simp only [Function.comp_apply, EdgeRec.arc, Bool.and_comm]

/-- The out-edges of a node, counted among the arcs. -/
theorem Represents.outs_length (h : Represents g) (hn : n < g.nrNodes) :
    (g.nodes n).outs.length = g.arcs.countP (fun a => a.producer == n) := by
  rw [h.outs n hn, ← List.countP_eq_length_filter, GraphRec.arcs, List.countP_map]
  rfl

theorem Represents.ins_length (h : Represents g) (hn : n < g.nrNodes) :
    (g.nodes n).ins.length = g.arcs.countP (fun a => a.consumer == n) := by
  rw [h.ins n hn, ← List.countP_eq_length_filter, GraphRec.arcs, List.countP_map]
  rfl

/-! ## The search -/

/-- The lists of out-edges follow the arcs `as`, from node to node, and the nodes have the names
`key`. -/
structure Follows (g : GraphRec) (as : List Arc) (key : Nat → List UInt8) : Prop where
  small : g.nrNodes < maxNodes
  name : ∀ n < g.nrNodes, (g.nodes n).cname = key n
  outs : ∀ ignore, ∀ n < g.nrNodes,
    ((g.nodes n).outs.filter (fun e => !(ignore && (g.edges e).isBackedge))).map
      (fun e => (g.edges e).consumer) = targets ignore as n
  consumer : ∀ n < g.nrNodes, ∀ e ∈ (g.nodes n).outs, (g.edges e).consumer < g.nrNodes

/-- The name that `dag_visit` goes by. -/
def GraphRec.nodeKey (g : GraphRec) (n : Nat) : List UInt8 := (g.nodes n).cname

theorem Represents.follows (h : Represents g) : Follows g g.arcs g.nodeKey where
  small := h.nodes
  name _ _ := rfl
  outs _ _ hn := h.outs_targets hn
  consumer _ hn e he := (h.attrs e ((h.mem_outs hn).mp he).1).2.2.2.2

theorem Follows.targets_lt (h : Follows g as key) (hn : n < g.nrNodes)
    (hm : m ∈ targets ignore as n) : m < g.nrNodes := by
  rw [← h.outs ignore n hn] at hm
  obtain ⟨e, he, rfl⟩ := List.mem_map.mp hm
  exact h.consumer n hn e (List.mem_filter.mp he).1

theorem dagLoop_eq {rec rec' : Nat → Names → Option (Bool × Names)} {es : List Nat}
    (hkey : ∀ e ∈ es, (g.nodes (g.edges e).consumer).cname = key (g.edges e).consumer)
    (hrec : ∀ e ∈ es, ∀ s, rec (g.edges e).consumer s = rec' (g.edges e).consumer s) (s : Names) :
    dagLoop g ignore rec es s = Dfs.loop key rec'
      ((es.filter (fun e => !(ignore && (g.edges e).isBackedge))).map
        (fun e => (g.edges e).consumer)) s := by
  induction es generalizing s with
  | nil => rfl
  | cons e es ih =>
    obtain ⟨he, hes⟩ := List.forall_mem_cons.mp hrec
    obtain ⟨hk, hks⟩ := List.forall_mem_cons.mp hkey
    cases hback : (ignore && (g.edges e).isBackedge) with
    | true =>
      rw [List.filter_cons_of_neg (by simp [hback]), ← ih hks hes, dagLoop, if_pos hback]
    | false =>
      rw [List.filter_cons_of_pos (by simp [hback]), List.map_cons]
      simp only [dagLoop, hback, Bool.false_eq_true, if_false, Dfs.loop, hk, he, ih hks hes]
      rcases rec' (g.edges e).consumer s with - | ⟨- | -, t⟩ <;> rfl

theorem dagVisit_eq (h : Follows g as key) {fuel : Nat} (hn : n < g.nrNodes) (s : Names) :
    dagVisit g ignore fuel n s = Dfs.visit (targets ignore as) key fuel n s := by
  induction fuel generalizing n s with
  | zero => rfl
  | succ fuel ih =>
    have hconsumer : ∀ e ∈ (g.nodes n).outs, ∀ s, dagVisit g ignore fuel (g.edges e).consumer s =
        Dfs.visit (targets ignore as) key fuel (g.edges e).consumer s := by
      intro e he s
      exact ih (h.consumer n hn e he) s
    have hkey : ∀ e ∈ (g.nodes n).outs, _ := fun e he => h.name _ (h.consumer n hn e he)
    simp only [dagVisit, Dfs.visit, dagLoop_eq hkey hconsumer, h.outs ignore n hn, h.name n hn,
      Dfs.State.enter]
    rcases Dfs.loop key (Dfs.visit (targets ignore as) key fuel) (targets ignore as n)
      ⟨insert (key n) s.visited, insert (key n) s.path⟩
      with - | ⟨- | -, t⟩ <;> rfl

theorem dagRoots_eq (h : Follows g as key) {ns : List Nat} (hns : ∀ n ∈ ns, n < g.nrNodes)
    (visited : Finset (List UInt8)) : dagRoots g ignore ns visited =
      Dfs.roots (targets ignore as) key (maxNodes + 1) ns visited := by
  induction ns generalizing visited with
  | nil => rfl
  | cons n ns ih =>
    obtain ⟨hn, hns⟩ := List.forall_mem_cons.mp hns
    simp only [dagRoots, Dfs.roots, dagVisit_eq h hn, h.name n hn, ih hns]
    rcases Dfs.visit (targets ignore as) key (maxNodes + 1) n ⟨visited, ∅⟩
      with - | ⟨- | -, t⟩ <;> rfl

theorem keys_card_lt (key : Nat → List UInt8) {N : Nat} (hnodes : N < maxNodes) :
    ((Finset.range N).image key).card < maxNodes + 1 := by
  have hcard := (Finset.card_image_le (s := Finset.range N) (f := key)).trans
    (Finset.card_range _).le
  omega

/-- `pgm_is_dag` returns on every graph, and its answer is that of the search. -/
theorem pgmIsDag_search (h : Follows (l.graphs gr.toNat) as key) (hlive : Live l gr)
    (ignore : Bool) :
    ∃ b, Dfs.roots (targets ignore as) key (maxNodes + 1)
        (List.range (l.graphs gr.toNat).nrNodes) ∅ = some b ∧
      pgmIsDag l gr ignore = .ok (if b then 1 else 0) := by
  obtain ⟨b, hb⟩ : ∃ b, Dfs.roots (targets ignore as) key (maxNodes + 1)
      (List.range (l.graphs gr.toNat).nrNodes) ∅ = some b :=
    Dfs.roots_isSome (U := {n | n < (l.graphs gr.toNat).nrNodes})
      (fun a ha m hm => h.targets_lt ha hm)
      (fun a ha => Finset.mem_image_of_mem _ (Finset.mem_range.mpr ha))
      (fun n hn => List.mem_range.mp hn)
      (by rw [Finset.sdiff_empty]; exact keys_card_lt _ h.small)
  refine ⟨b, hb, ?_⟩
  unfold pgmIsDag
  rw [hlive.isValidGraph, hlive.graphAt]
  simp only
  rw [dagRoots_eq h (fun n hn => List.mem_range.mp hn), hb]

/-! ## Different names -/

theorem take_readName {stored : List UInt8} (h : stored.length ≤ nameLen) (after : Nat) :
    (readName stored after).take nameLen = stored := by
  unfold readName
  split
  · exact List.take_of_length_le h
  · rename_i hlen
    rw [← Nat.le_antisymm h (Nat.le_of_not_lt hlen)]
    exact List.take_left

theorem Holds.key_stored {ns : List CStr} {es : List EdgeKey} (h : Holds g ns es) {name : CStr}
    (hn : ns[n]? = some name) : (g.nodeKey n).take nameLen = name.stored := by
  unfold GraphRec.nodeKey NodeRec.cname
  rw [h.node n name hn]
  exact take_readName (List.length_take_le _ _) _

/-- Nodes whose arrays differ have different names. -/
theorem nodeKey_inj {ns : List CStr} {es : List EdgeKey} (h : Holds g ns es)
    (hnodup : (ns.map CStr.stored).Nodup) (hn : n < g.nrNodes) (hm : m < g.nrNodes)
    (he : g.nodeKey n = g.nodeKey m) : n = m := by
  rw [h.nrNodes] at hn hm
  have hn' := h.key_stored (List.getElem?_eq_getElem hn)
  have hm' := h.key_stored (List.getElem?_eq_getElem hm)
  have hget : (ns.map CStr.stored)[n]? = (ns.map CStr.stored)[m]? := by
    rw [List.getElem?_map, List.getElem?_map, List.getElem?_eq_getElem hn,
      List.getElem?_eq_getElem hm, Option.map_some, Option.map_some, ← hn', ← hm', he]
  exact (List.getElem?_inj (by simpa using hn) hnodup).mp hget

/-- Short names are kept as they are. -/
theorem stored_nodup {ns : List CStr} (hnodup : ns.Nodup)
    (hshort : ∀ name ∈ ns, name.bytes.length < nameLen) : (ns.map CStr.stored).Nodup := by
  refine hnodup.map_on (fun a ha b hb he => CStr.ext ?_)
  have hstored : ∀ name ∈ ns, name.stored = name.bytes :=
    fun name hn => List.take_of_length_le (hshort name hn).le
  rw [← hstored a ha, ← hstored b hb, he]

/-- The search decides acyclicity when the names keep the nodes apart. -/
theorem roots_targets_iff {N : Nat} (hN : N < maxNodes)
    (hends : ∀ a ∈ as, a.producer < N ∧ a.consumer < N)
    (hinj : ∀ n < N, ∀ m < N, key n = key m → n = m) (ignore : Bool) :
    ∃ b, Dfs.roots (targets ignore as) key (maxNodes + 1) (List.range N) ∅ = some b ∧
      (b = true ↔ ∀ n, ¬ Dfs.Cyclic (targets ignore as) n) := by
  obtain ⟨b, hb, hiff⟩ := Dfs.roots_iff (U := {n | n < N})
    (fun a _ m hm => (targets_lt hends hm).2) hinj
    (fun n => List.mem_range)
    (fun a ha => Finset.mem_image_of_mem key (Finset.mem_range.mpr ha)) (keys_card_lt key hN)
  refine ⟨b, hb, hiff.trans ⟨fun hno n hcyc => ?_, fun hno a _ => hno a⟩⟩
  obtain ⟨m, hm, -⟩ := Relation.TransGen.head'_iff.mp hcyc
  exact hno n (targets_lt hends hm).1 hcyc

/-- The answer for names that keep the nodes apart. -/
theorem pgmIsDag_distinct (hl : NewGraph l gr) (hr : Lts.run (step gr) l calls = some s)
    (hnodup : ((nodeNames calls).map CStr.stored).Nodup) (ignore : Bool) :
    ∃ v, pgmIsDag s gr ignore = .ok v ∧ (v = 0 ∨ v = 1) ∧
      (v = 1 ↔ ∀ n, ¬ Dfs.Cyclic (targets ignore (arcs calls)) n) := by
  obtain ⟨hopen, -, harcs⟩ := run_graph hl hr
  obtain ⟨b, hb, hv⟩ := pgmIsDag_search hopen.table.follows hopen.live ignore
  obtain ⟨b', hb', hiff⟩ := roots_targets_iff hopen.table.nodes hopen.table.ends
    (fun n hn m hm he => nodeKey_inj hopen.holds hnodup hn hm he) ignore
  obtain rfl := Option.some.inj (hb.symm.trans hb')
  rw [harcs] at hiff
  refine ⟨_, hv, by cases b <;> simp, ?_⟩
  have hone : (if b then 1 else 0 : Int) = 1 ↔ b = true := by cases b <;> simp
  rw [hone, hiff]

end

/-- **`pgm_is_dag` decides acyclicity.** For a graph that successful calls have built with different
names that are shorter than `nameLen`, and whether explicit back edges are ignored or not: the
search returns, with 1 if the edges form no cycle and with 0 if they do. -/
theorem pgmIsDag_iff_acyclic {l s : Lib} {gr : Int} {calls : List Call} (hl : NewGraph l gr)
    (hr : Lts.run (step gr) l calls = some s) (hnodup : (nodeNames calls).Nodup)
    (hshort : ∀ name ∈ nodeNames calls, name.bytes.length < nameLen)
    (ignoreExplicitBackedges : Bool) :
    ∃ v, pgmIsDag s gr ignoreExplicitBackedges = .ok v ∧ (v = 0 ∨ v = 1) ∧
      (v = 1 ↔ ∀ n, ¬ Relation.TransGen
        (fun a b => b ∈ targets ignoreExplicitBackedges (arcs calls) a) n n) :=
  pgmIsDag_distinct hl hr (stored_nodup hnodup hshort) ignoreExplicitBackedges

/-- Arcs that lead upwards close no cycle. -/
theorem acyclic_of_upwards {ignore : Bool} {as : List Arc}
    (hall : ∀ a ∈ as, (ignore && a.back) = false → a.producer < a.consumer) (n : Nat) :
    ¬ Relation.TransGen (fun a b => b ∈ targets ignore as a) n n := by
  refine Weighted.acyclic_of_rank id (fun a b h => ?_) n
  obtain ⟨arc, harc, hback, rfl, rfl⟩ := mem_targets.mp h
  exact hall arc harc hback

/-- The graph of two nodes whose second edge is a back edge. -/
theorem pgmIsDag_iff_acyclic_loop : ∃ s, Lts.run (step 0) newLib loopCalls = some s ∧
    pgmIsDag s 0 true = .ok 1 ∧ pgmIsDag s 0 false = .ok 0 := by
  have hd : (Lts.run (step 0) newLib loopCalls).isSome = true := by decide +kernel
  obtain ⟨s, hs⟩ := Option.isSome_iff_exists.mp hd
  have hnodup : (nodeNames loopCalls).Nodup := by decide
  have hshort : ∀ name ∈ nodeNames loopCalls, name.bytes.length < nameLen := by decide
  obtain ⟨v, hv, -, hiff⟩ := pgmIsDag_iff_acyclic newLib_newGraph hs hnodup hshort true
  obtain ⟨w, hw, hcases, hiff'⟩ := pgmIsDag_iff_acyclic newLib_newGraph hs hnodup hshort false
  refine ⟨s, hs, ?_, ?_⟩
  · -- the edge that is left leads upwards
    have hone : v = 1 := hiff.mpr (acyclic_of_upwards (by decide))
    exact hone ▸ hv
  · have hcyc : Relation.TransGen (fun a b => b ∈ targets false (arcs loopCalls) a) 0 0 :=
      .tail (.single (by decide : 1 ∈ targets false (arcs loopCalls) 0)) (by decide)
    have hzero : w = 0 := hcases.resolve_right (fun h1 => hiff'.mp h1 0 hcyc)
    exact hzero ▸ hw

end Pgm.Tables
