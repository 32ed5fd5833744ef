import Pgm.Parse

/-!
# The graph that a description draws

The calls that `parse_graph_description` makes for its elements may fail: for want of room in the edge
table, for want of room at a node, and for the amounts. `sketch` says which edges there are in the
end, as a function of the description, and `run_shows` that the tables hold these.

* `parse_threw_iff`: which strings are answered by an exception;
* `circular_iff`: for names that differ within their arrays, the search at the end finds the cycles of
  the edges that were drawn, and `parse_cycle_iff` says so of the parser.
-/

namespace Pgm.Tables.Parse

/-- The edge table: how many entries are taken, and the edges that join nodes, with their entries. An
edge for which one of its nodes has no room takes an entry and joins nothing. -/
structure Sketch where
  taken : Nat
  edges : List (Nat × Arc)

def Sketch.outs (k : Sketch) (n : Nat) : List Nat :=
  (k.edges.filter (fun e => e.2.producer == n)).map Prod.fst

def Sketch.ins (k : Sketch) (n : Nat) : List Nat :=
  (k.edges.filter (fun e => e.2.consumer == n)).map Prod.fst

/-- `pgm_init_edge` between two nodes of the graph. -/
def Sketch.add (k : Sketch) (a : Attr) (p c : Nat) : Sketch :=
  if a.check = false ∨ k.taken + 1 = maxEdges then k
  else if (k.outs p).length + 1 = maxDegree ∨ (k.ins c).length + 1 = maxDegree then
    { k with taken := k.taken + 1 }
  else ⟨k.taken + 1, k.edges ++ [(k.taken, ⟨p, c, false⟩)]⟩

def Sketch.draw (lexicalCast : Str → Option Int) (ns : List Str) (k : Sketch) (eStr : Str) : Sketch :=
  match readElement lexicalCast eStr with
  | .skip => k
  | .refuse _ => k
  | .edge p c nrProduce nrConsume nrThreshold =>
    k.add (edgeAttr nrProduce nrConsume nrThreshold) (ns.idxOf p) (ns.idxOf c)

def sketch (lexicalCast : Str → Option Int) (ns es : List Str) : Sketch :=
  es.foldl (Sketch.draw lexicalCast ns) ⟨0, []⟩

def Sketch.arcs (k : Sketch) : List Arc := k.edges.map Prod.snd

/-- The name that `dag_visit` goes by. The first in-edge follows it in memory. -/
def Sketch.key (k : Sketch) (ns : List Str) (n : Nat) : List UInt8 :=
  readName (cstr (ns.getD n [])).stored ((k.ins n).headD 0)

/-- The search of `pgm_is_dag` finds a cycle. -/
def Sketch.Circular (k : Sketch) (ns : List Str) : Prop :=
  Dfs.roots (targets true k.arcs) (k.key ns) (maxNodes + 1) (List.range ns.length) ∅ = some false

structure Shows (ns : List Str) (k : Sketch) (g : GraphRec) : Prop where
  nrNodes : g.nrNodes = ns.length
  nrEdges : g.nrEdges = k.taken
  name : ∀ n < ns.length, (g.nodes n).name = (cstr (ns.getD n [])).stored
  outs : ∀ n < ns.length, (g.nodes n).outs = k.outs n
  ins : ∀ n < ns.length, (g.nodes n).ins = k.ins n
  below : ∀ e ∈ k.edges, e.1 < k.taken
  arc : ∀ e ∈ k.edges, (g.edges e.1).arc = e.2

def Sketch.Within (N : Nat) (k : Sketch) : Prop :=
  ∀ a ∈ k.arcs, a.producer < N ∧ a.consumer < N

section

variable {lexicalCast : Str → Option Int} {env : Env} {l l' s : Lib} {g : GraphRec} {gr : Int}
  {k : Sketch} {x : EdgeArgs} {ns es : List Str} {eStr : Str} {i j : Nat}

theorem ops_of_cv {a : Attr} (htype : a.type = pgmEdgeCv ||| pgmSignaled) : a.ops = some .cv := by
  unfold Attr.ops Attr.has
  rw [htype]
  decide

/-- `__pgm_init_edge` under the lock, for a condition variable edge between nodes of the graph. -/
theorem addEdge_cv (hsmall : g.nrNodes < maxNodes) (hi : i < g.nrNodes) (hj : j < g.nrNodes)
    (hops : x.attr.ops = some .cv) (pathSet : Bool) (env : Env) :
    g.nrEdges + 1 = maxEdges ∧ g.addEdge pathSet env i j x = .ok (none, g) ∨
    g.nrEdges + 1 ≠ maxEdges ∧
      (((g.nodes i).outs.length + 1 = maxDegree ∨ (g.nodes j).ins.length + 1 = maxDegree) ∧
        g.addEdge pathSet env i j x = .ok (none, { g with nrEdges := g.nrEdges + 1 }) ∨
      (g.nodes i).outs.length + 1 ≠ maxDegree ∧ (g.nodes j).ins.length + 1 ≠ maxDegree ∧
        ∃ g', g.addEdge pathSet env i j x = .ok (some g.nrEdges, g')) := by
  have hpn : GraphRec.nodeAt { g with nrEdges := g.nrEdges + 1 } i = .ok (g.nodes i) :=
    nodeAt_eq _ ⟨Int.natCast_nonneg i, Int.ofNat_lt.mpr (hi.trans hsmall)⟩
  have hcn : GraphRec.nodeAt { g with nrEdges := g.nrEdges + 1 } j = .ok (g.nodes j) :=
    nodeAt_eq _ ⟨Int.natCast_nonneg j, Int.ofNat_lt.mpr (hj.trans hsmall)⟩
  unfold GraphRec.addEdge
  by_cases hroom : g.nrEdges + 1 = maxEdges
  · exact Or.inl ⟨hroom, if_pos hroom⟩
  rw [if_neg hroom, if_neg (by omega)]
  simp only [hpn, hcn]
  refine Or.inr ⟨hroom, ?_⟩
  by_cases hout : (g.nodes i).outs.length + 1 = maxDegree
  · exact Or.inl ⟨Or.inl hout, if_pos hout⟩
  rw [if_neg hout]
  by_cases hin : (g.nodes j).ins.length + 1 = maxDegree
  · exact Or.inl ⟨Or.inr hin, if_pos hin⟩
  rw [if_neg hin]
  refine Or.inr ⟨hout, hin, ?_⟩
  simp only [GraphRec.finishEdge, hops, Ops.init]
  exact ⟨_, rfl⟩

/-! ## One edge -/

/-- The entries with an end at `n`, when one more comes behind them. -/
theorem entries_concat (f : Arc → Nat) (es : List (Nat × Arc)) (t : Nat) (a : Arc) (n : Nat) :
    ((es ++ [(t, a)]).filter (fun e => f e.2 == n)).map Prod.fst =
      (es.filter (fun e => f e.2 == n)).map Prod.fst ++ if n = f a then [t] else [] := by
  by_cases hn : n = f a
  · subst hn
    simp
  · simp [hn, Ne.symm hn]

theorem outs_concat (k : Sketch) (p c n : Nat) :
    Sketch.outs ⟨k.taken + 1, k.edges ++ [(k.taken, ⟨p, c, false⟩)]⟩ n =
      k.outs n ++ if n = p then [k.taken] else [] :=
  entries_concat Arc.producer k.edges k.taken ⟨p, c, false⟩ n

theorem ins_concat (k : Sketch) (p c n : Nat) :
    Sketch.ins ⟨k.taken + 1, k.edges ++ [(k.taken, ⟨p, c, false⟩)]⟩ n =
      k.ins n ++ if n = c then [k.taken] else [] :=
  entries_concat Arc.consumer k.edges k.taken ⟨p, c, false⟩ n

/-- An entry is taken, and nothing is joined. -/
theorem Shows.take (h : Shows ns k g) :
    Shows ns { k with taken := k.taken + 1 } { g with nrEdges := g.nrEdges + 1 } where
  nrNodes := h.nrNodes
  nrEdges := congrArg (· + 1) h.nrEdges
  name := h.name
  outs := h.outs
  ins := h.ins
  below e he := (h.below e he).trans (Nat.lt_succ_self _)
  arc := h.arc

theorem Shows.added {p c : Nat} {g' : GraphRec} (h : Shows ns k g) (hx : x.skips = none)
    (ha : Added g x p c g') :
    Shows ns ⟨k.taken + 1, k.edges ++ [(k.taken, ⟨p, c, false⟩)]⟩ g' := by
  obtain ⟨e, -, hep, hec, -, hback, -, rfl⟩ := ha.state
  obtain ⟨_, -, -, -, -, -, hN, hE, -, hnode⟩ := ha.view
  refine ⟨hN.trans h.nrNodes, hE.trans (congrArg (· + 1) h.nrEdges), fun n hn => ?_, fun n hn => ?_,
    fun n hn => ?_, ?_, ?_⟩
  · rw [hnode, ← h.name n hn]
    change (if n = c then _ else _ : NodeRec).name = _
    split
    · exact (countIn_lists _ _ _).2.2.1
    · rfl
  · rw [hnode, outs_concat, ← h.outs n hn, ← h.nrEdges]
  · rw [hnode, ins_concat, ← h.ins n hn, ← h.nrEdges]
  · intro y hy
    rcases List.mem_append.mp hy with hold | hnew
    · exact (h.below y hold).trans (Nat.lt_succ_self _)
    · rw [List.mem_singleton.mp hnew]
      exact Nat.lt_succ_self _
  · intro y hy
    change (Function.update g.edges g.nrEdges e y.1).arc = y.2
    rcases List.mem_append.mp hy with hold | hnew
    · have hlt := h.below y hold
      rw [Function.update_of_ne (by rw [h.nrEdges]; exact hlt.ne)]
      exact h.arc y hold
    · rw [List.mem_singleton.mp hnew, h.nrEdges, Function.update_self]
      rw [EdgeRec.arc, hep, hec, hback, hx]
      rfl

/-- **One call.** -/
theorem Shows.attempt (hready : Ready gr ns.length l) (h : Shows ns k (l.graphs gr.toNat))
    (hi : i < ns.length) (hj : j < ns.length) (hname : x.name.bytes ≠ [])
    (hops : x.attr.ops = some .cv) (hx : x.skips = none)
    (ha : attempt gr l (.edge env i j x) = some l') :
    Shows ns (k.add x.attr i j) (l'.graphs gr.toNat) := by
  unfold Parse.attempt call Tables.initEdge at ha
  simp only [hready.live.isValidGraph, hready.live.graphAt, hready.master, ne_eq,
    not_true_eq_false, Bool.not_true, Bool.false_eq_true, if_false, strnlen_checks, hname] at ha
  unfold Sketch.add
  cases hcheck : x.attr.check with
  | false =>
    simp only [hcheck, Bool.not_false, if_true, Option.some.injEq] at ha
    subst ha
    rwa [if_pos (Or.inl rfl)]
  | true =>
    simp only [hcheck, Bool.not_true, Bool.false_eq_true, if_false] at ha
    have hsmall := hready.small
    rw [← h.nrNodes] at hi hj hsmall
    simp only [← h.nrEdges, Bool.true_eq_false, false_or, ← h.outs i (h.nrNodes ▸ hi),
      ← h.ins j (h.nrNodes ▸ hj)]
    rcases addEdge_cv hsmall hi hj hops l.pathSet env with ⟨hroom, hadd⟩ |
      ⟨hroom, ⟨hfull, hadd⟩ | ⟨hout, hin, g', hadd⟩⟩
    · rw [hadd] at ha
      cases ha
      rw [if_pos hroom, setGraph_self]
      exact h
    · rw [hadd] at ha
      cases ha
      rw [if_neg hroom, if_pos hfull, setGraph_self, h.nrEdges]
      exact h.nrEdges ▸ h.take
    · rw [hadd] at ha
      cases ha
      rw [if_neg hroom, if_neg (by tauto), setGraph_self, h.nrEdges]
      exact h.added hx (addEdge_some hadd).2.2.2

/-- **One element.** -/
theorem Shows.draw (hready : Ready gr ns.length l) (h : Shows ns k (l.graphs gr.toNat))
    (hs : Sound lexicalCast ns eStr)
    (hr : Lts.run (Parse.attempt gr) l (edgeCall? lexicalCast env ns eStr).toList = some l') :
    Ready gr ns.length l' ∧ Shows ns (k.draw lexicalCast ns eStr) (l'.graphs gr.toNat) := by
  unfold edgeCall? at hr
  unfold Sketch.draw
  rcases readElement_spec lexicalCast eStr with ⟨href, -⟩ |
    ⟨-, ⟨hskip, -⟩ | ⟨p, c, a, b, t, hparts, hedge⟩⟩
  · exact absurd href hs.1
  · rw [hskip] at hr ⊢
    cases hr
    exact ⟨hready, h⟩
  · obtain ⟨hp, hc⟩ := hs.2 p c hparts
    have hi := List.idxOf_lt_length_of_mem hp
    have hj := List.idxOf_lt_length_of_mem hc
    rw [hedge] at hr ⊢
    obtain ⟨l₁, hcall, hend⟩ := (Lts.run_cons_eq_some (Parse.attempt gr)).mp hr
    cases hend
    obtain ⟨ret, l₂, hinit, hready'⟩ := hready.initEdge env
      (edgeArgs (firstToken p) (firstToken c) a b t) hi hj
    have hsame : l₂ = l' := by
      simpa only [Parse.attempt, call, hinit, Option.some.injEq] using hcall
    exact ⟨hsame ▸ hready', h.attempt (x := edgeArgs (firstToken p) (firstToken c) a b t) hready hi hj
      (by simp [edgeArgs, makeEdgeName, cstr]) (ops_of_cv rfl) rfl hcall⟩

/-- **All elements.** -/
theorem run_shows (hready : Ready gr ns.length l) (h : Shows ns k (l.graphs gr.toNat))
    (hs : ∀ eStr ∈ es, Sound lexicalCast ns eStr)
    (hr : Lts.run (attempt gr) l (edgeCalls lexicalCast env ns es) = some s) :
    Ready gr ns.length s ∧
      Shows ns (es.foldl (Sketch.draw lexicalCast ns) k) (s.graphs gr.toNat) := by
  induction es generalizing l k with
  | nil =>
    cases hr
    exact ⟨hready, h⟩
  | cons eStr es ih =>
    obtain ⟨hhead, htail⟩ := List.forall_mem_cons.mp hs
    rw [edgeCalls, List.filterMap_eq_flatMap_toList, List.flatMap_cons,
      ← List.filterMap_eq_flatMap_toList] at hr
    obtain ⟨l₁, hfirst, hrest⟩ := (Lts.run_append_eq_some (attempt gr)).mp hr
    obtain ⟨hready', h'⟩ := h.draw hready hhead hfirst
    exact ih hready' h' htail hrest

theorem shows_nodes (hl : NewGraph l gr) (hr : Lts.run (step gr) l (nodeCalls ns) = some s) :
    Shows ns ⟨0, []⟩ (s.graphs gr.toNat) := by
  obtain ⟨hopen, hN, harcs⟩ := run_graph hl hr
  rw [nodeNames_nodeCalls, List.length_map] at hN
  have hE : (s.graphs gr.toNat).nrEdges = 0 := by
    have hnone : arcs (nodeCalls ns) = [] := by simp [arcs, nodeCalls, Call.arc?]
    rw [hnone] at harcs
    simpa [GraphRec.arcs] using harcs
  refine ⟨hN, hE, fun n hn => hopen.holds.node n _ ?_, fun n hn => ?_, fun n hn => ?_, ?_, ?_⟩
  · simp [nodeNames_nodeCalls, hn]
  · rw [hopen.table.outs n (hN ▸ hn), hE]
    rfl
  · rw [hopen.table.ins n (hN ▸ hn), hE]
    rfl
  all_goals simp

/-! ## The search -/

theorem Sketch.Within.draw (hs : Sound lexicalCast ns eStr) (h : k.Within ns.length) :
    (k.draw lexicalCast ns eStr).Within ns.length := by
  unfold Sketch.draw
  rcases readElement_spec lexicalCast eStr with ⟨href, -⟩ |
    ⟨-, ⟨hskip, -⟩ | ⟨p, c, a, b, t, hparts, hedge⟩⟩
  · exact absurd href hs.1
  · rwa [hskip]
  · obtain ⟨hp, hc⟩ := hs.2 p c hparts
    rw [hedge]
    simp only [Sketch.add]
    split_ifs
    · exact h
    · exact h
    · intro x hx
      rw [Sketch.arcs, List.map_append] at hx
      rcases List.mem_append.mp hx with hold | hnew
      · exact h x hold
      · rw [List.mem_singleton.mp hnew]
        exact ⟨List.idxOf_lt_length_of_mem hp, List.idxOf_lt_length_of_mem hc⟩

theorem sketch_within (hs : ∀ eStr ∈ es, Sound lexicalCast ns eStr) :
    (sketch lexicalCast ns es).Within ns.length := by
  have hfold : ∀ k : Sketch, k.Within ns.length →
      (es.foldl (Sketch.draw lexicalCast ns) k).Within ns.length := by
    induction es with
    | nil => exact fun _ h => h
    | cons eStr es ih =>
      obtain ⟨hhead, htail⟩ := List.forall_mem_cons.mp hs
      exact fun k h => ih htail _ (h.draw hhead)
  exact hfold _ (by rintro a ⟨⟩)

theorem Shows.follows (h : Shows ns k g) (hk : k.Within ns.length) (hsmall : ns.length < maxNodes) :
    Follows g k.arcs (k.key ns) := by
  have hedge : ∀ e ∈ k.edges, (g.edges e.1).isBackedge = e.2.back ∧
      (g.edges e.1).consumer = e.2.consumer := by
    intro e he
    exact ⟨congrArg Arc.back (h.arc e he), congrArg Arc.consumer (h.arc e he)⟩
  refine ⟨h.nrNodes ▸ hsmall, fun n hn => ?_, fun ignore n hn => ?_, fun n hn i hi => ?_⟩
  · rw [h.nrNodes] at hn
    rw [NodeRec.cname, h.name n hn, h.ins n hn, Sketch.key]
  · rw [h.outs n (h.nrNodes ▸ hn), Sketch.outs, targets, Sketch.arcs, List.filter_map, List.map_map,
      List.filter_filter, List.filter_map, List.map_map]
    have hfilter : k.edges.filter (fun e => !(ignore && (g.edges e.1).isBackedge) &&
        e.2.producer == n) = k.edges.filter (fun e => e.2.producer == n && !(ignore && e.2.back)) := by
      refine List.filter_congr (fun e he => ?_)
      rw [(hedge e he).1, Bool.and_comm]
    refine (congrArg _ hfilter).trans (List.map_congr_left (fun e he => ?_))
    exact (hedge e (List.mem_filter.mp he).1).2
  · rw [h.outs n (h.nrNodes ▸ hn), Sketch.outs] at hi
    obtain ⟨e, he, rfl⟩ := List.mem_map.mp hi
    have hin := (List.mem_filter.mp he).1
    rw [(hedge e hin).2, h.nrNodes]
    exact (hk e.2 (List.mem_map_of_mem hin)).2

/-- The answer of `pgm_is_dag` after the calls of a description. -/
theorem pgmIsDag_circular (hready : Ready gr ns.length s) (h : Shows ns k (s.graphs gr.toNat))
    (hk : k.Within ns.length) : pgmIsDag s gr true = .ok 0 ↔ k.Circular ns := by
  obtain ⟨b, hb, hdag⟩ := pgmIsDag_search (h.follows hk hready.small) hready.live true
  rw [h.nrNodes] at hb
  rw [hdag, Sketch.Circular, hb]
  cases b <;> simp

/-- **Which descriptions are answered by an exception.** Every element before the first one that
throws has to be sound; if all are, the edges that they draw are searched for a cycle. -/
theorem parse_threw_iff (lexicalCast : Str → Option Int) (env : Env) (hl : NewGraph l gr)
    (hm : l.isGraphMaster = true) (desc : Str) :
    (∃ e, (parseGraphDescription lexicalCast env l gr desc).1 = .threw e) ↔
      Stops lexicalCast (placed (nodeNames desc)) (desc.splitOn comma) ∨
      (∀ eStr ∈ desc.splitOn comma, Sound lexicalCast (placed (nodeNames desc)) eStr) ∧
        (sketch lexicalCast (placed (nodeNames desc)) (desc.splitOn comma)).Circular
          (placed (nodeNames desc)) := by
  obtain ⟨w, hadd, hw, hrun, -, -⟩ := addNodes_wired hl hm (nodeNames_nodup desc)
  unfold parseGraphDescription
  rw [hadd]
  simp only
  rcases addEdges_spec lexicalCast env hw (names_seen desc) with ⟨hstop, e, w', he⟩ |
    ⟨hall, w', he, -, hrun'⟩ | ⟨hgo, hbad, w', he⟩
  · rw [he]
    exact ⟨fun _ => Or.inl hstop, fun _ => ⟨e, rfl⟩⟩
  · obtain ⟨hready, hshows⟩ := run_shows hw.ready (shows_nodes hl hrun) hall hrun'
    rw [he, or_iff_right (not_stops_of_sound hall), and_iff_right hall,
      ← pgmIsDag_circular (k := sketch lexicalCast _ _) hready hshows (sketch_within hall)]
    simp only [checkDag]
    cases pgmIsDag w'.lib gr true with
    | error f => simp
    | ok v => by_cases hv : v = 0 <;> simp [hv]
  · rw [he]
    simp [hgo, hbad]

/-- For names that differ within their arrays the search finds the cycles of the edges. -/
theorem circular_iff (hk : k.Within ns.length) (hsmall : ns.length < maxNodes)
    (hnodup : (ns.map (fun name => (cstr name).stored)).Nodup) :
    k.Circular ns ↔ ∃ n, Relation.TransGen (fun a b => b ∈ targets true k.arcs a) n n := by
  have hstored : ∀ n, (k.key ns n).take nameLen = (cstr (ns.getD n [])).stored :=
    fun n => take_readName (List.length_take_le _ _) _
  have hinj : ∀ n < ns.length, ∀ m < ns.length, k.key ns n = k.key ns m → n = m := by
    intro n hn m hm heq
    have hsame := (hstored n).symm.trans ((congrArg _ heq).trans (hstored m))
    have hget : (ns.map (fun name => (cstr name).stored))[n]? =
        (ns.map (fun name => (cstr name).stored))[m]? := by
      simpa [hn, hm] using hsame
    exact (List.getElem?_inj (by simpa using hn) hnodup).mp hget
  obtain ⟨b, hb, hiff⟩ := roots_targets_iff hsmall hk hinj true
  rw [Sketch.Circular, hb, Option.some.injEq, ← Bool.not_eq_true, hiff]
  push Not
  rfl

/-- Sound elements are answered by an exception when their edges close a cycle. -/
theorem parse_cycle_iff (lexicalCast : Str → Option Int) (env : Env) (hl : NewGraph l gr)
    (hm : l.isGraphMaster = true) {desc : Str}
    (hsound : ∀ eStr ∈ desc.splitOn comma, Sound lexicalCast (placed (nodeNames desc)) eStr)
    (hnodup : ((placed (nodeNames desc)).map (fun name => (cstr name).stored)).Nodup) :
    (∃ e, (parseGraphDescription lexicalCast env l gr desc).1 = .threw e) ↔
      ∃ n, Relation.TransGen (fun a b => b ∈ targets true
        (sketch lexicalCast (placed (nodeNames desc)) (desc.splitOn comma)).arcs a) n n := by
  obtain ⟨w, -, hw, -⟩ := addNodes_wired hl hm (nodeNames_nodup desc)
  rw [parse_threw_iff lexicalCast env hl hm, or_iff_right (not_stops_of_sound hsound),
    and_iff_right hsound, circular_iff (sketch_within hsound) hw.ready.small hnodup]

end

end Pgm.Tables.Parse
