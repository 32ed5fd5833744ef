import Pgm.Dag

/-!
# `pgm_is_dag` and the names of the nodes

Names may repeat, and `dag_visit` takes nodes of one name for one node: it never enters the second
of them, and it takes an edge between them for a cycle. `pgmIsDag_same_iff` says for which edges
the names do not matter.

* `run_alike`: calls with other names succeed as well;
* `pgmIsDag_descending`, `pgmIsDag_blocked`: edges that give one answer under all names;
* `exists_merged`, `exists_hidden`: names under which the answer is 0, and names under which it
  is 1.
-/

namespace Pgm.Tables

/-! ## Calls that differ in the names of nodes -/

inductive SameButName : Call → Call → Prop
  | node (a b : CStr) : SameButName (.node a) (.node b)
  | edge (env : Env) (producer consumer : Int) (x : EdgeArgs) :
    SameButName (.edge env producer consumer x) (.edge env producer consumer x)

/-- The library and graph `gr` without the names of its nodes and without its edge table. -/
structure Alike (gr : Int) (l l' : Lib) : Prop where
  live : Live l' gr
  master : l'.isGraphMaster = l.isGraphMaster
  pathSet : l'.pathSet = l.pathSet
  nrNodes : (l'.graphs gr.toNat).nrNodes = (l.graphs gr.toNat).nrNodes
  nrEdges : (l'.graphs gr.toNat).nrEdges = (l.graphs gr.toNat).nrEdges
  lists : ∀ n, ((l'.graphs gr.toNat).nodes n).ins = ((l.graphs gr.toNat).nodes n).ins ∧
    ((l'.graphs gr.toNat).nodes n).outs = ((l.graphs gr.toNat).nodes n).outs

section

variable {l l' s s' : Lib} {gr : Int} {calls calls' : List Call} {g g' : GraphRec}

/-- An edge finds room in a graph whose lists are as long. -/
theorem addEdge_alike (hnodes : g.nrNodes < maxNodes) (hN : g'.nrNodes = g.nrNodes)
    (hE : g'.nrEdges = g.nrEdges)
    (hlists : ∀ n, (g'.nodes n).ins = (g.nodes n).ins ∧ (g'.nodes n).outs = (g.nodes n).outs)
    {pathSet : Bool} {env : Env} {p c : Int} {x : EdgeArgs} {i : Nat} {h : GraphRec}
    (hadd : g.addEdge pathSet env p c x = .ok (some i, h)) :
    ∃ h', g'.addEdge pathSet env p c x = .ok (some i, h') := by
  obtain ⟨⟨hp, hp'⟩, ⟨hc, hc'⟩, hroom, hout, hin, hfinish⟩ := addEdge_checks hadd
  obtain ⟨rfl, ops, r, hops, hinit, -⟩ := finishEdge_init hfinish
  rw [← (hlists p.toNat).2] at hout
  rw [← (hlists c.toNat).1] at hin
  have hpn : GraphRec.nodeAt { g' with nrEdges := g'.nrEdges + 1 } p = .ok (g'.nodes p.toNat) :=
    nodeAt_eq _ ⟨hp, by omega⟩
  have hcn : GraphRec.nodeAt { g' with nrEdges := g'.nrEdges + 1 } c = .ok (g'.nodes c.toNat) :=
    nodeAt_eq _ ⟨hc, by omega⟩
  rw [← hE]
  unfold GraphRec.addEdge
  rw [if_neg (by omega), if_neg (by omega)]
  simp only [hpn, hcn, if_neg hout, if_neg hin, GraphRec.finishEdge, hops, hinit]
  exact ⟨_, rfl⟩

theorem Alike.addNode (h : Alike gr l l') (name name' : CStr)
    (hroom : (l.graphs gr.toNat).nrNodes + 1 ≠ maxNodes) :
    Alike gr (l.setGraph gr.toNat ((l.graphs gr.toNat).addNode name).2)
      (l'.setGraph gr.toNat ((l'.graphs gr.toNat).addNode name').2) := by
  have hroom' : (l'.graphs gr.toNat).nrNodes + 1 ≠ maxNodes := h.nrNodes ▸ hroom
  simp only [GraphRec.addNode, if_neg hroom, if_neg hroom']
  refine ⟨h.live.setGraph h.live.inUse, h.master, h.pathSet, ?_, ?_, ?_⟩
  · simp only [setGraph_self, h.nrNodes]
  · simp only [setGraph_self]
    exact h.nrEdges
  · intro n
    simp only [setGraph_self, GraphRec.setNode, h.nrNodes]
    by_cases hn : n = (l.graphs gr.toNat).nrNodes
    · subst hn
      simp only [Function.update_self, and_self]
    · simp only [Function.update_of_ne hn]
      exact h.lists n

theorem Alike.addEdge (h : Alike gr l l') {x : EdgeArgs} {p c : Nat}
    (hadded : Added (l.graphs gr.toNat) x p c g) (hadded' : Added (l'.graphs gr.toNat) x p c g') :
    Alike gr (l.setGraph gr.toNat g) (l'.setGraph gr.toNat g') := by
  obtain ⟨_, -, -, -, -, -, hN, hE, -, hnode⟩ := hadded.view
  obtain ⟨_, -, -, -, -, -, hN', hE', -, hnode'⟩ := hadded'.view
  refine ⟨h.live.setGraph (hadded'.inUse.trans h.live.inUse), h.master, h.pathSet, ?_, ?_, ?_⟩
  · simp only [setGraph_self]
    rw [hN, hN', h.nrNodes]
  · simp only [setGraph_self]
    rw [hE, hE', h.nrEdges]
  · intro n
    simp only [setGraph_self, hnode, hnode', h.nrEdges, (h.lists n).1, (h.lists n).2, and_self]

/-- Calls that are the same but for the names of nodes succeed together. -/
theorem step_alike {a a' : Call} (h : Alike gr l l') (ht : Represents (l.graphs gr.toNat))
    (ha : SameButName a a') (hname : ∀ name ∈ a'.nodeName?, name.bytes ≠ [])
    (hs : step gr l a = some s) : ∃ s', step gr l' a' = some s' ∧ Alike gr s s' := by
  have hm := step_master hs
  rw [← h.master] at hm
  obtain ⟨g₁, rfl, ⟨nm, i, rfl, hadd⟩ | ⟨env, p, c, x, i, rfl, hcheck, hadd⟩⟩ := step_cases hs
  · cases ha with
    | node name name' =>
      have hroom : (l.graphs gr.toNat).nrNodes + 1 ≠ maxNodes := by
        intro hfull
        simp [GraphRec.addNode, hfull] at hadd
      obtain rfl : ((l.graphs gr.toNat).addNode nm).2 = g₁ := congrArg Prod.snd hadd
      exact ⟨_, step_node h.live hm (hname name' rfl) (h.nrNodes ▸ hroom), h.addNode nm name' hroom⟩
  · cases ha with
    | edge =>
      obtain ⟨g₂, hadd'⟩ := addEdge_alike ht.nodes h.nrNodes h.nrEdges h.lists hadd
      rw [← h.pathSet] at hadd'
      exact ⟨_, step_edge h.live hm (step_edge_name hs) hcheck hadd',
        h.addEdge (addEdge_some hadd).2.2.2 (addEdge_some hadd').2.2.2⟩

theorem run_alike (h : Alike gr l l') (ht : Represents (l.graphs gr.toNat))
    (hc : List.Forall₂ SameButName calls calls')
    (hname : ∀ name ∈ nodeNames calls', name.bytes ≠ [])
    (hr : Lts.run (step gr) l calls = some s) : ∃ s', Lts.run (step gr) l' calls' = some s' := by
  induction hc generalizing l l' with
  | nil => exact ⟨l', rfl⟩
  | @cons a a' calls calls' ha _ ih =>
    obtain ⟨t, hs, hrest⟩ := (Lts.run_cons_eq_some (step gr)).mp hr
    have hhead : ∀ name ∈ a'.nodeName?, name.bytes ≠ [] := by
      intro name hn
      exact hname name (List.mem_filterMap.mpr ⟨a', List.mem_cons_self, hn⟩)
    have htail : ∀ name ∈ nodeNames calls', name.bytes ≠ [] := by
      intro name hn
      obtain ⟨b, hb, hbn⟩ := List.mem_filterMap.mp hn
      exact hname name (List.mem_filterMap.mpr ⟨b, List.mem_cons_of_mem a' hb, hbn⟩)
    obtain ⟨t', hs', ht'⟩ := step_alike h ht ha hhead hs
    obtain ⟨s', hr'⟩ := ih ht' (step_represents ht hs) htail hrest
    exact ⟨s', (Lts.run_cons_eq_some (step gr)).mpr ⟨t', hs', hr'⟩⟩

theorem arcs_same (hc : List.Forall₂ SameButName calls calls') : arcs calls' = arcs calls := by
  induction hc with
  | nil => rfl
  | cons ha _ ih =>
    cases ha with
    | node a b => exact ih
    | edge env p c x => exact congrArg (List.cons _) ih

theorem nodeNames_length_same (hc : List.Forall₂ SameButName calls calls') :
    (nodeNames calls').length = (nodeNames calls).length := by
  induction hc with
  | nil => rfl
  | cons ha _ ih =>
    cases ha with
    | node a b => exact congrArg Nat.succ ih
    | edge env p c x => exact ih

/-! ## Other names for the nodes -/

/-- The calls with the name `f i` for node `i`, counted from `k` on. -/
def rename (f : Nat → CStr) : Nat → List Call → List Call
  | _, [] => []
  | k, .node _ :: calls => .node (f k) :: rename f (k + 1) calls
  | k, .edge env p c x :: calls => .edge env p c x :: rename f k calls

theorem rename_same (f : Nat → CStr) (k : Nat) (calls : List Call) :
    List.Forall₂ SameButName calls (rename f k calls) := by
  induction calls generalizing k with
  | nil => exact .nil
  | cons a calls ih =>
    cases a with
    | node name => exact .cons (.node _ _) (ih (k + 1))
    | edge env p c x => exact .cons (.edge _ _ _ _) (ih k)

theorem rename_names (f : Nat → CStr) (k : Nat) (calls : List Call) :
    nodeNames (rename f k calls) = (List.range' k (nodeNames calls).length).map f := by
  induction calls generalizing k with
  | nil => rfl
  | cons a calls ih =>
    cases a with
    | node name => exact congrArg (List.cons (f k)) (ih (k + 1))
    | edge env p c x => exact ih k

/-- Names of two bytes, different for the indices of a table. -/
def shortName (k : Nat) : CStr where
  bytes := [UInt8.ofNat (1 + k / 128 % 128), UInt8.ofNat (1 + k % 128)]
  nul_free := by
    simp only [List.mem_cons, List.not_mem_nil, or_false, not_or]
    constructor <;> intro h <;> have := congrArg UInt8.toNat h <;> simp at this <;> omega

theorem shortName_inj {j k : Nat} (hj : j < maxNodes) (hk : k < maxNodes)
    (h : (shortName j).bytes = (shortName k).bytes) : j = k := by
  unfold maxNodes at hj hk
  simp only [shortName, List.cons.injEq, and_true] at h
  have h1 := congrArg UInt8.toNat h.1
  have h2 := congrArg UInt8.toNat h.2
  simp only [UInt8.toNat_ofNat'] at h1 h2
  omega

/-- The answer is that of the search over the edges that the calls have created. -/
theorem pgmIsDag_calls (hl : NewGraph l gr) (hr : Lts.run (step gr) l calls = some s)
    (ignore : Bool) : ∃ b, Dfs.roots (targets ignore (arcs calls)) (s.graphs gr.toNat).nodeKey
        (maxNodes + 1) (List.range (nodeNames calls).length) ∅ = some b ∧
      pgmIsDag s gr ignore = .ok (if b then 1 else 0) := by
  obtain ⟨hopen, hN, harcs⟩ := run_graph hl hr
  have hanswer := pgmIsDag_search hopen.table.follows hopen.live ignore
  rwa [harcs, hN] at hanswer

theorem targets_calls_lt (hl : NewGraph l gr) (hr : Lts.run (step gr) l calls = some s)
    {ignore : Bool} {n m : Nat} (hm : m ∈ targets ignore (arcs calls) n) :
    n < (nodeNames calls).length ∧ m < (nodeNames calls).length := by
  obtain ⟨hopen, hN, harcs⟩ := run_graph hl hr
  rw [← harcs] at hm
  rw [← hN]
  exact hopen.table.targets_lt hm

/-- A name that is shorter than the array is read back. -/
theorem nodeKey_of_short {ns : List CStr} {es : List EdgeKey} {n : Nat} (h : Holds g ns es)
    {name : CStr} (hn : ns[n]? = some name) (hshort : name.bytes.length < nameLen) :
    g.nodeKey n = name.bytes := by
  have hstored : name.stored = name.bytes := List.take_of_length_le hshort.le
  unfold GraphRec.nodeKey NodeRec.cname readName
  rw [h.node n name hn, hstored, if_pos hshort]

/-- The nodes can be given the short names of any indices. -/
theorem exists_renamed (hl : NewGraph l gr) (hr : Lts.run (step gr) l calls = some s)
    (f : Nat → Nat) : ∃ calls' s', List.Forall₂ SameButName calls calls' ∧
      Lts.run (step gr) l calls' = some s' ∧
      ∀ n < (nodeNames calls).length, (s'.graphs gr.toNat).nodeKey n = (shortName (f n)).bytes := by
  have hlive : Live l gr := ⟨hl.mapped, hl.valid, by rw [hl.fresh]; rfl⟩
  have halike : Alike gr l l := ⟨hlive, rfl, rfl, rfl, rfl, fun _ => ⟨rfl, rfl⟩⟩
  have hsame := rename_same (fun n => shortName (f n)) 0 calls
  have hnames := rename_names (fun n => shortName (f n)) 0 calls
  obtain ⟨s', hr'⟩ := run_alike halike hl.open.table hsame (by
    intro name hn
    rw [hnames] at hn
    obtain ⟨k, -, rfl⟩ := List.mem_map.mp hn
    simp [shortName]) hr
  refine ⟨_, s', hsame, hr', fun n hn => ?_⟩
  refine nodeKey_of_short (run_new hl hr').holds ?_ (by simp [shortName, nameLen])
  rw [hnames, List.getElem?_map, List.getElem?_range' hn]
  simp

end

/-! ## Edges for which names do not matter -/

def Descending (ignoreBackedges : Bool) (as : List Arc) : Prop :=
  ∀ n, ∀ m ∈ targets ignoreBackedges as n, m < n

section

variable {l l' s s' : Lib} {gr : Int} {calls calls' : List Call} {ignore : Bool}

theorem range_append {k n : Nat} {as bs : List Nat} (h : List.range k = as ++ n :: bs) :
    as = List.range n := by
  have hlen : as.length < k := by
    have := congrArg List.length h
    simp at this
    omega
  have hn : n = as.length := by
    have := congrArg (fun xs => xs[as.length]?) h
    simpa [hlen] using this.symm
  have htake := congrArg (List.take as.length) h
  rw [List.take_left, List.take_range, Nat.min_eq_left hlen.le] at htake
  rw [hn, htake]

theorem pgmIsDag_descending (hl : NewGraph l gr) (hr : Lts.run (step gr) l calls = some s)
    (h : Descending ignore (arcs calls)) : pgmIsDag s gr ignore = .ok 1 := by
  obtain ⟨b, hb, hv⟩ := pgmIsDag_calls hl hr ignore
  have htrue : Dfs.roots (targets ignore (arcs calls)) (s.graphs gr.toNat).nodeKey (4095 + 2)
      (List.range (nodeNames calls).length ++ []) ∅ = some true := by
    rw [Dfs.roots_append]
    · rfl
    · intro as n bs he m hm
      rw [range_append he]
      exact Or.inr (List.mem_range.mpr (h n m hm))
  rw [List.append_nil] at htrue
  obtain rfl := Option.some.inj (htrue.symm.trans hb)
  exact hv

/-- The first node that is visited is node 0. -/
theorem range_eq_cons {k : Nat} (hk : 0 < k) : ∃ ns, List.range k = 0 :: ns := by
  obtain ⟨j, rfl⟩ : ∃ j, k = j + 1 := ⟨k - 1, by omega⟩
  exact ⟨_, List.range_succ_eq_map⟩

theorem pgmIsDag_blocked (hl : NewGraph l gr) (hr : Lts.run (step gr) l calls = some s)
    (h : Dfs.Blocked (targets ignore (arcs calls)) [] 0) : pgmIsDag s gr ignore = .ok 0 := by
  obtain ⟨b, hb, hv⟩ := pgmIsDag_calls hl hr ignore
  have hsucc : ∃ m, m ∈ targets ignore (arcs calls) 0 := by
    cases h with
    | back hm _ => exact ⟨_, hm⟩
    | first hfirst _ => exact ⟨_, hfirst ▸ List.mem_cons_self⟩
  obtain ⟨m, hm⟩ := hsucc
  obtain ⟨ns, hns⟩ := range_eq_cons (targets_calls_lt hl hr hm).1
  rw [hns] at hb
  cases b with
  | true => exact absurd hb (Dfs.roots_blocked h)
  | false => exact hv

/-! ## Names that change the answer -/

theorem nodeNames_length_lt (hl : NewGraph l gr) (hr : Lts.run (step gr) l calls = some s) :
    (nodeNames calls).length < maxNodes := by
  obtain ⟨hopen, hN, -⟩ := run_graph hl hr
  exact hN ▸ hopen.table.nodes

theorem range_split {u k : Nat} (h : u < k) : ∃ rest, List.range k = List.range u ++ u :: rest := by
  obtain ⟨j, rfl⟩ : ∃ j, k = u + (j + 1) := ⟨k - u - 1, by omega⟩
  rw [List.range_add, List.range_succ_eq_map, List.map_cons]
  exact ⟨_, rfl⟩

/-- If an edge leads to a node that is not older, its ends can be given one name so that the edge
is taken for a cycle. -/
theorem exists_merged (hl : NewGraph l gr) (hr : Lts.run (step gr) l calls = some s)
    (h : ¬ Descending ignore (arcs calls)) : ∃ calls' s', List.Forall₂ SameButName calls calls' ∧
      Lts.run (step gr) l calls' = some s' ∧ pgmIsDag s' gr ignore = .ok 0 := by
  have hex : ∃ u, ∃ v ∈ targets ignore (arcs calls) u, u ≤ v := by
    simpa [Descending] using h
  classical
  -- the oldest node with such an edge; the nodes before it are gone through first
  obtain ⟨v, hv, huv⟩ := Nat.find_spec hex
  have hmin : ∀ n < Nat.find hex, ∀ m ∈ targets ignore (arcs calls) n, m < n := by
    intro n hn m hm
    have := Nat.find_min hex hn
    push Not at this
    exact this m hm
  generalize Nat.find hex = u at hv huv hmin
  obtain ⟨hu, hvN⟩ := targets_calls_lt hl hr hv
  obtain ⟨calls', s', hsame, hr', hkey⟩ := exists_renamed hl hr (fun n => if n = v then u else n)
  refine ⟨calls', s', hsame, hr', ?_⟩
  obtain ⟨b, hb, hval⟩ := pgmIsDag_calls hl hr' ignore
  rw [arcs_same hsame, nodeNames_length_same hsame] at hb
  cases b with
  | false => exact hval
  | true =>
    exfalso
    have hN := nodeNames_length_lt hl hr
    obtain ⟨rest, hrest⟩ := range_split hu
    have hback : ∀ as n bs, List.range u = as ++ n :: bs → ∀ m ∈ targets ignore (arcs calls) n,
        (s'.graphs gr.toNat).nodeKey m ∈ (∅ : Finset (List UInt8)) ∨ m ∈ as := by
      intro as n bs he m hm
      have hn : n < u := List.mem_range.mp (by rw [he]; simp)
      rw [range_append he]
      exact Or.inr (List.mem_range.mpr (hmin n hn m hm))
    have hbad : Dfs.roots (targets ignore (arcs calls)) (s'.graphs gr.toNat).nodeKey (4095 + 2)
        (List.range u ++ u :: rest) ∅ = some true := hrest ▸ hb
    rw [Dfs.roots_append hback] at hbad
    refine Dfs.roots_merged ?_ hv ?_ hbad
    · -- the nodes before `u` have names of their own
      rw [Finset.empty_union, List.mem_toFinset, List.mem_map]
      rintro ⟨j, hj, he⟩
      have hj := List.mem_range.mp hj
      rw [hkey j (by omega), hkey u hu, if_neg (by omega), ite_self] at he
      exact absurd (shortName_inj (by omega) (by omega) he) hj.ne
    · rw [hkey v hvN, hkey u hu, if_pos rfl, ite_self]

/-- If the first successors of node 0 come to an end and none leads back, all nodes can be given
names of these. Then everything counts as visited after them. -/
theorem exists_hidden (hl : NewGraph l gr) (hr : Lts.run (step gr) l calls = some s)
    (h0 : 0 < (nodeNames calls).length) (h : ¬ Dfs.Blocked (targets ignore (arcs calls)) [] 0) :
    ∃ calls' s', List.Forall₂ SameButName calls calls' ∧
      Lts.run (step gr) l calls' = some s' ∧ pgmIsDag s' gr ignore = .ok 1 := by
  have hN := nodeNames_length_lt hl hr
  obtain ⟨cs, hclear, hnodup, hcs⟩ := Dfs.clear_of_not_blocked
    (V := Finset.range (nodeNames calls).length)
    (fun a _ m hm => Finset.mem_range.mpr (targets_calls_lt hl hr hm).2) h
    (Finset.mem_range.mpr h0) List.not_mem_nil
  have hlt : ∀ a ∈ 0 :: cs, a < (nodeNames calls).length :=
    fun a ha => Finset.mem_range.mp (hcs a ha).1
  obtain ⟨z, hz, hsink⟩ := hclear.exists_sink
  obtain ⟨calls', s', hsame, hr', hkey⟩ :=
    exists_renamed hl hr (fun n => if n ∈ 0 :: cs then n else z)
  refine ⟨calls', s', hsame, hr', ?_⟩
  obtain ⟨b, hb, hval⟩ := pgmIsDag_calls hl hr' ignore
  rw [arcs_same hsame, nodeNames_length_same hsame] at hb
  obtain ⟨ns, hns⟩ := range_eq_cons h0
  have hlen : (0 :: cs).length < maxNodes + 1 := by
    have hsub : (0 :: cs).toFinset ⊆ Finset.range (nodeNames calls).length :=
      fun a ha => (hcs a (List.mem_toFinset.mp ha)).1
    have hcard := Finset.card_le_card hsub
    rw [List.toFinset_card_of_nodup hnodup, Finset.card_range] at hcard
    omega
  have htrue : Dfs.roots (targets ignore (arcs calls)) (s'.graphs gr.toNat).nodeKey (maxNodes + 1)
      (0 :: ns) ∅ = some true := by
    refine Dfs.roots_clear (U := {n | n < (nodeNames calls).length})
      (fun a _ m hm => (targets_calls_lt hl hr hm).2) hclear ?_ ?_ ?_ hlen
    · intro x hx a ha he
      rw [hkey x hx, hkey a (hlt a ha), if_pos ha] at he
      split at he
      · exact Or.inl (shortName_inj (lt_trans hx hN) (lt_trans (hlt a ha) hN) he)
      · obtain rfl := shortName_inj (lt_trans (hlt z hz) hN) (lt_trans (hlt a ha) hN) he
        exact Or.inr hsink
    · intro x hx
      by_cases hxc : x ∈ 0 :: cs
      · exact ⟨x, hxc, rfl⟩
      · refine ⟨z, hz, ?_⟩
        rw [hkey x hx, hkey z (hlt z hz), if_neg hxc, if_pos hz]
    · intro a ha
      exact List.mem_range.mp (hns ▸ ha)
  rw [hns] at hb
  obtain rfl := Option.some.inj (htrue.symm.trans hb)
  exact hval

end

/-- **When the names do not matter.** For a graph that successful calls have built, and all calls
that differ from these in the names of nodes only: `pgm_is_dag` gives the same answer under all
names exactly if every edge leads to an older node, or if from node 0 on along the first successors
some node leads back to itself or to a node before it. Names that are different in the bytes that
are kept give the same answer for all edges. -/
theorem pgmIsDag_same_iff {l s : Lib} {gr : Int} {calls : List Call} (hl : NewGraph l gr)
    (hr : Lts.run (step gr) l calls = some s) (ignoreExplicitBackedges : Bool) :
    ((∀ calls' s', List.Forall₂ SameButName calls calls' →
        Lts.run (step gr) l calls' = some s' →
        pgmIsDag s' gr ignoreExplicitBackedges = pgmIsDag s gr ignoreExplicitBackedges) ↔
      Descending ignoreExplicitBackedges (arcs calls) ∨
        Dfs.Blocked (targets ignoreExplicitBackedges (arcs calls)) [] 0) ∧
    ∀ calls' s', List.Forall₂ SameButName calls calls' → Lts.run (step gr) l calls' = some s' →
      ((nodeNames calls).map CStr.stored).Nodup → ((nodeNames calls').map CStr.stored).Nodup →
      pgmIsDag s' gr ignoreExplicitBackedges = pgmIsDag s gr ignoreExplicitBackedges := by
  refine ⟨⟨fun hall => ?_, ?_⟩, ?_⟩
  · by_contra hno
    obtain ⟨hdesc, hblock⟩ := not_or.mp hno
    have h0 : 0 < (nodeNames calls).length := by
      by_contra hzero
      refine hdesc (fun n m hm => ?_)
      have := (targets_calls_lt hl hr hm).1
      omega
    obtain ⟨calls₀, s₀, hsame₀, hr₀, hv₀⟩ := exists_merged hl hr hdesc
    obtain ⟨calls₁, s₁, hsame₁, hr₁, hv₁⟩ := exists_hidden hl hr h0 hblock
    have heq := (hall calls₀ s₀ hsame₀ hr₀).trans (hall calls₁ s₁ hsame₁ hr₁).symm
    rw [hv₀, hv₁] at heq
    cases heq
  · rintro (hdesc | hblock) calls' s' hsame hr'
    · rw [pgmIsDag_descending hl hr hdesc,
        pgmIsDag_descending hl hr' (arcs_same hsame ▸ hdesc)]
    · rw [pgmIsDag_blocked hl hr hblock, pgmIsDag_blocked hl hr' (arcs_same hsame ▸ hblock)]
  · intro calls' s' hsame hr' hnodup hnodup'
    obtain ⟨v, hv, hcases, hiff⟩ := pgmIsDag_distinct hl hr hnodup ignoreExplicitBackedges
    obtain ⟨v', hv', hcases', hiff'⟩ := pgmIsDag_distinct hl hr' hnodup' ignoreExplicitBackedges
    rw [arcs_same hsame, ← hiff] at hiff'
    rw [hv, hv']
    congr 1
    omega

def twoNodeCalls (name : CStr) (producer consumer : Int) : List Call :=
  [.node nameA, .node name, .edge quietEnv producer consumer ⟨nameA, cvAttr, none⟩]

theorem answer_of_eval (calls : List Call) (v : Int)
    (h : (Lts.run (step 0) newLib calls).bind (fun s => (pgmIsDag s 0 true).toOption) = some v) :
    ∃ s, Lts.run (step 0) newLib calls = some s ∧ pgmIsDag s 0 true = .ok v := by
  obtain ⟨s, hs, hv⟩ := Option.bind_eq_some_iff.mp h
  refine ⟨s, hs, ?_⟩
  cases hdag : pgmIsDag s 0 true with
  | error e => simp [hdag, Except.toOption] at hv
  | ok w => simpa [hdag, Except.toOption] using hv

theorem twoNodeCalls_same (name name' : CStr) (p c : Int) :
    List.Forall₂ SameButName (twoNodeCalls name p c) (twoNodeCalls name' p c) :=
  .cons (.node _ _) (.cons (.node _ _) (.cons (.edge _ _ _ _) .nil))

/-- Two nodes of one name: the edge from the first to the second is taken for a cycle, and a self
loop of the second is not found. -/
theorem names_change_answer :
    (∃ s s', List.Forall₂ SameButName (twoNodeCalls nameB 0 1) (twoNodeCalls nameA 0 1) ∧
      Lts.run (step 0) newLib (twoNodeCalls nameB 0 1) = some s ∧
      Lts.run (step 0) newLib (twoNodeCalls nameA 0 1) = some s' ∧
      pgmIsDag s 0 true = .ok 1 ∧ pgmIsDag s' 0 true = .ok 0) ∧
    ∃ s s', List.Forall₂ SameButName (twoNodeCalls nameB 1 1) (twoNodeCalls nameA 1 1) ∧
      Lts.run (step 0) newLib (twoNodeCalls nameB 1 1) = some s ∧
      Lts.run (step 0) newLib (twoNodeCalls nameA 1 1) = some s' ∧
      pgmIsDag s 0 true = .ok 0 ∧ pgmIsDag s' 0 true = .ok 1 := by
  obtain ⟨s₁, hs₁, hv₁⟩ := answer_of_eval (twoNodeCalls nameB 0 1) 1 (by decide +kernel)
  obtain ⟨s₂, hs₂, hv₂⟩ := answer_of_eval (twoNodeCalls nameA 0 1) 0 (by decide +kernel)
  obtain ⟨s₃, hs₃, hv₃⟩ := answer_of_eval (twoNodeCalls nameB 1 1) 0 (by decide +kernel)
  obtain ⟨s₄, hs₄, hv₄⟩ := answer_of_eval (twoNodeCalls nameA 1 1) 1 (by decide +kernel)
  exact ⟨⟨s₁, s₂, twoNodeCalls_same _ _ _ _, hs₁, hs₂, hv₁, hv₂⟩,
    s₃, s₄, twoNodeCalls_same _ _ _ _, hs₃, hs₄, hv₃, hv₄⟩

theorem pgmIsDag_same_iff_two : ∃ s, Lts.run (step 0) newLib (twoNodeCalls nameB 1 0) = some s ∧
    ∀ calls' s', List.Forall₂ SameButName (twoNodeCalls nameB 1 0) calls' →
      Lts.run (step 0) newLib calls' = some s' → pgmIsDag s' 0 true = pgmIsDag s 0 true := by
  have hd : (Lts.run (step 0) newLib (twoNodeCalls nameB 1 0)).isSome = true := by decide +kernel
  obtain ⟨s, hs⟩ := Option.isSome_iff_exists.mp hd
  refine ⟨s, hs, (pgmIsDag_same_iff newLib_newGraph hs true).1.mpr (Or.inl ?_)⟩
  have hall : ∀ a ∈ arcs (twoNodeCalls nameB 1 0), a.consumer < a.producer := by decide
  intro n m hm
  obtain ⟨a, ha, -, rfl, rfl⟩ := mem_targets.mp hm
  exact hall a ha

end Pgm.Tables
