import Mathlib.Data.List.TakeWhile
import Pgm.Degree
import Pgm.Grammar
import Pgm.Rates

/-!
# The graph that the rates are propagated in

`parse_graph_rates` finds a node by its name, lists its successors in an array that has its degree as
length, and finds each edge by the name that `make_edge_name` gives it. Names are compared as
prefixes, but the parser creates the nodes in the order of their names, and a name comes after its
prefixes.

* `findNode_described`, `findEdge_described`: the lookups find what was described;
* `successorsOf_eq`: a visit of a node sees the elements of the description that it produces for;
* `described_acyclic`: if the parser returns, these have no cycle.
-/

namespace Pgm.Tables.Parse

/-! ## The lookups of `parse_graph_rates` -/

def pgmGetName (l : Lib) (node : NodeHandle) : Query (Option Str) :=
  onNode none l node (fun _ n => pure (some n.cname))

/-- A number of an edge, which the library has as a `size_t` and returns as an `int`. -/
def edgeNumber (number : Attr → UInt64) (l : Lib) (edge : EdgeHandle) : Query Int := do
  let valid ← l.validGraph edge.graph
  if !valid then pure (-1)
  else do
    let g ← l.index edge.graph
    let e ← g.indexEdge edge.edge
    pure (BitVec.ofNat 32 (number e.attr).toNat).toInt

def pgmGetNrProduce : Lib → EdgeHandle → Query Int := edgeNumber Attr.nrProduce

def pgmGetNrConsume : Lib → EdgeHandle → Query Int := edgeNumber Attr.nrConsume

/-- What the loop finds out about a successor: its name, and the amounts of the edge. There is
nothing to go on with if the edge is not found. -/
def readSuccessor (l : Lib) (n succ : NodeHandle) : Option (Str × Int × Int) := do
  let sname ← (← (pgmGetName l succ).val.toOption)
  let nname ← (← (pgmGetName l n).val.toOption)
  let e ← (← (findEdge l true n succ (cstr (makeEdgeName nname sname))).toOption)
  let produce ← (pgmGetNrProduce l e).val.toOption
  let consume ← (pgmGetNrConsume l e).val.toOption
  return (sname, produce, consume)

def readSuccessors (l : Lib) (n : NodeHandle) : List NodeHandle → Option (List (Str × Int × Int))
  | [] => some []
  | succ :: rest => do
    let found ← readSuccessor l n succ
    let others ← readSuccessors l n rest
    return found :: others

/-- A visit of the node with this name. The array for the successors comes from `calloc`. -/
def successorsOf (l : Lib) (graph : Int) (name : Str) : Option (List (Str × Int × Int)) := do
  let n ← (← (findNode l true graph (cstr name)).toOption)
  let numSuccessors ← (pgmGetDegreeOut l n true).val.toOption
  let listed ← (pgmGetSuccessors l n true numSuccessors true).val.toOption
  let zeros : List NodeHandle := List.replicate numSuccessors.toNat ⟨0, 0⟩
  readSuccessors l n ((listed.2 ++ zeros).take numSuccessors.toNat)

/-! ## What they find -/

/-- The names are strings without NUL that fit into their arrays, in their order, and there is at
most one edge from one node to another. -/
structure Tame (es : List Element) (names : List Str) : Prop where
  nonempty : ∀ name ∈ names, name ≠ []
  nul_free : ∀ name ∈ names, 0 ∉ name
  short : ∀ name ∈ names, name.length < nameLen
  sorted : names.Pairwise (· ≤ ·)
  nodup : names.Nodup
  ends : ∀ e ∈ es, e.producer.bytes ∈ names ∧ e.consumer.bytes ∈ names
  numbers : ∀ e ∈ es, ∀ n ∈ e.numerals, n.value ≤ intMax
  simple : es.Pairwise (fun a b =>
    ¬ (a.producer.bytes = b.producer.bytes ∧ a.consumer.bytes = b.consumer.bytes))

/-- The elements that a node produces for, with their places in the description. -/
def elementsFrom (es : List Element) (name : Str) : List (Element × Nat) :=
  es.zipIdx.filter (fun p => p.1.producer.bytes = name)

theorem elementsFrom_fst (es : List Element) (name : Str) :
    (elementsFrom es name).map Prod.fst = es.filter (fun e => e.producer.bytes = name) := by
  rw [← List.zipIdx_map_fst 0 es, List.filter_map]
  simp [elementsFrom, Function.comp_def]

theorem cstr_of_nul_free {name : Str} (h : 0 ∉ name) : (cstr name).bytes = name := by
  refine List.takeWhile_eq_self_iff.mpr (fun b hb => ?_)
  simpa using fun h0 : b = 0 => h (h0 ▸ hb)

section

variable {l s : Lib} {gr : Int} {env : Env} {es : List Element} {e : Element} {names : List Str}
  {name : Str} {i j : Nat}

theorem Tame.stored (h : Tame es names) (hname : name ∈ names) : (cstr name).stored = name := by
  rw [CStr.stored, cstr_of_nul_free (h.nul_free name hname)]
  exact List.take_of_length_le (h.short name hname).le

variable (htame : Tame es names) (hl : NewGraph l gr)
  (hr : Lts.run (step gr) l (nodeCalls names ++ es.map (Element.call env names)) = some s)

include htame hl hr

/-- A node is found by its name: the nodes before it have smaller names, and those are no extensions
of it. -/
theorem findNode_described (hi : names[i]? = some name) :
    findNode s true gr (cstr name) = .ok (some ⟨gr, i⟩) := by
  have hname := List.mem_of_getElem? hi
  obtain ⟨hopen, -, -⟩ := run_graph hl hr
  rw [nodeNames_calls] at hopen
  have hne : (cstr name).bytes ≠ [] := by
    rw [cstr_of_nul_free (htame.nul_free name hname)]
    exact htame.nonempty name hname
  have hget : (names.map cstr)[i]? = some (cstr name) := by rw [List.getElem?_map, hi, Option.map_some]
  rw [hopen.findNode_eq, if_neg hne, ok_map_inj NodeHandle.mk_inj, GraphRec.findNode,
    hopen.holds.nrNodes,
    (find_first (hopen.holds.node_begins (cstr name))).2 i _ hget List.prefix_rfl]
  intro nm hnm hbegins
  rw [← List.map_take] at hnm
  obtain ⟨other, hother, rfl⟩ := List.mem_map.mp hnm
  rw [Begins, htame.stored hname, htame.stored (List.mem_of_mem_take hother)] at hbegins
  obtain ⟨j, hj, rfl⟩ := List.mem_take_iff_getElem.mp hother
  obtain ⟨hilt, rfl⟩ := List.getElem?_eq_some_iff.mp hi
  have hji : j < i := by omega
  have hle := List.pairwise_iff_getElem.mp htame.sorted j i (by omega) hilt hji
  have heq := List.le_antisymm hle hbegins.le
  exact hji.ne ((List.Nodup.getElem_inj_iff htame.nodup).mp heq)

theorem findEdge_described (hj : es[j]? = some e) :
    findEdge s true ⟨gr, names.idxOf e.producer.bytes⟩ ⟨gr, names.idxOf e.consumer.bytes⟩
      (cstr (makeEdgeName e.producer.bytes e.consumer.bytes)) = .ok (some ⟨gr, j⟩) := by
  obtain ⟨hopen, -, -⟩ := run_graph hl hr
  rw [edgeKeys_calls] at hopen
  have hne : (cstr (makeEdgeName e.producer.bytes e.consumer.bytes)).bytes ≠ [] := by
    simp [makeEdgeName, cstr]
  have hget : (es.map (fun e => (⟨names.idxOf e.producer.bytes, names.idxOf e.consumer.bytes,
      cstr (makeEdgeName e.producer.bytes e.consumer.bytes)⟩ : EdgeKey)))[j]? = some
        ⟨names.idxOf e.producer.bytes, names.idxOf e.consumer.bytes,
          cstr (makeEdgeName e.producer.bytes e.consumer.bytes)⟩ := by
    rw [List.getElem?_map, hj, Option.map_some]
  rw [hopen.findEdge_eq, if_neg hne, ok_map_inj EdgeHandle.mk_inj, findEdge_listed hopen.table,
    hopen.holds.nrEdges, (find_first (hopen.holds.edge_fits _ _ _)).2 j _ hget
      ⟨rfl, rfl, List.prefix_rfl⟩]
  -- an edge before it has other ends
  intro k hk hfits
  rw [← List.map_take] at hk
  obtain ⟨other, hother, rfl⟩ := List.mem_map.mp hk
  obtain ⟨i, hi, rfl⟩ := List.mem_take_iff_getElem.mp hother
  obtain ⟨hjlt, rfl⟩ := List.getElem?_eq_some_iff.mp hj
  have hsame := List.pairwise_iff_getElem.mp htame.simple i j (by omega) hjlt (by omega)
  have hends := htame.ends es[i] (List.getElem_mem _)
  refine hsame ⟨?_, ?_⟩
  · exact (List.idxOf_inj hends.1).mp (Int.ofNat.inj hfits.1)
  · exact (List.idxOf_inj hends.2).mp (Int.ofNat.inj hfits.2.1)

theorem pgmGetName_described (hi : names[i]? = some name) :
    (pgmGetName s ⟨gr, i⟩).val = .ok (some name) := by
  have hname := List.mem_of_getElem? hi
  obtain ⟨htable, hlive, hN, hnode, -⟩ := tables_of_run hl hr
  have hilt : i < (s.graphs gr.toNat).nrNodes := hN ▸ (List.getElem?_eq_some_iff.mp hi).1
  have hex : NodeExists s ⟨gr, i⟩ := ⟨Int.natCast_nonneg i, Int.ofNat_lt.mpr hilt⟩
  refine Query.Fine.val_eq (onNode_fine htable.closed hlive hex (Traced.fine_pure ?_))
  have hstored : ((s.graphs gr.toNat).nodes i).name = name :=
    (hnode i name hi).trans (htame.stored hname)
  change some (readName ((s.graphs gr.toNat).nodes i).name _) = _
  rw [hstored, readName, if_pos (htame.short name hname)]

omit htame in
theorem edgeNumber_described (hj : es[j]? = some e) {number : Attr → UInt64} {v : Nat}
    (hv : (number (edgeAttr e.nrProduce e.nrConsume e.nrThreshold)).toNat = v) (hle : v ≤ intMax) :
    (edgeNumber number s ⟨gr, j⟩).val = .ok (v : Int) := by
  obtain ⟨htable, hlive, -, -, hlinks⟩ := tables_of_run hl hr
  obtain ⟨hE, hedge⟩ := edges_of_links hlinks
  have hjlt : j < (s.graphs gr.toNat).nrEdges := hE ▸ (List.getElem?_eq_some_iff.mp hj).1
  have hattr := (hedge j e hj).2
  refine Query.Fine.val_eq (validGraph_bind_fine.mpr
    ⟨fun hlast => absurd hlast.2 hlive.valid.2.ne, fun b hb => ?_⟩)
  obtain rfl := hb.mpr hlive
  refine (libIndex_fine hlive).bind (fun g hg => ?_)
  subst hg
  refine (indexEdge_fine htable.closed hjlt).bind (fun r hr => Traced.fine_pure ?_)
  subst hr
  unfold intMax at hle
  have hnat : (BitVec.ofNat 32 v).toNat = v := by
    rw [BitVec.toNat_ofNat]
    omega
  rw [hattr, hv, BitVec.toInt_eq_toNat_of_lt (by omega), hnat]

theorem readSuccessor_described (hj : es[j]? = some e) :
    readSuccessor s ⟨gr, names.idxOf e.producer.bytes⟩ ⟨gr, names.idxOf e.consumer.bytes⟩ =
      some (e.consumer.bytes, (e.nrProduce : Int), (e.nrConsume : Int)) := by
  have he := List.mem_of_getElem? hj
  have hnum := htame.numbers e he
  obtain ⟨hp, hc⟩ := htame.ends e he
  have hfrom := pgmGetName_described htame hl hr (List.getElem?_idxOf hp)
  have hto := pgmGetName_described htame hl hr (List.getElem?_idxOf hc)
  have hfind := findEdge_described htame hl hr hj
  have hproduce : (pgmGetNrProduce s ⟨gr, j⟩).val = .ok (e.nrProduce : Int) :=
    edgeNumber_described hl hr hj (toNat_ofInt (nrProduce_bounds hnum).2) (nrProduce_bounds hnum).2
  have hconsume : (pgmGetNrConsume s ⟨gr, j⟩).val = .ok (e.nrConsume : Int) :=
    edgeNumber_described hl hr hj (toNat_ofInt (nrConsume_bounds hnum).2) (nrConsume_bounds hnum).2
  simp [readSuccessor, hfrom, hto, hfind, hproduce, hconsume, Except.toOption]

omit htame hl hr in
theorem readSuccessors_map {n : NodeHandle} {ps : List (Element × Nat)}
    {f : Element × Nat → NodeHandle} {g : Element × Nat → Str × Int × Int}
    (h : ∀ p ∈ ps, readSuccessor s n (f p) = some (g p)) :
    readSuccessors s n (ps.map f) = some (ps.map g) := by
  induction ps with
  | nil => rfl
  | cons p ps ih =>
    obtain ⟨hp, hps⟩ := List.forall_mem_cons.mp h
    simp [readSuccessors, hp, ih hps]

omit hl hr in
/-- The arcs that leave a node are those of the elements that it produces for. -/
theorem keptArcs_described (name : Str) :
    keptArcs Arc.producer true (es.map (Element.arc names)) (names.idxOf name) =
      (elementsFrom es name).map (fun p => (p.1.arc names, p.2)) := by
  unfold keptArcs elementsFrom
  rw [List.zipIdx_map, List.filter_map]
  refine congrArg _ (List.filter_congr (fun p hp => ?_))
  have he := (htame.ends p.1 (List.fst_mem_of_mem_zipIdx hp)).1
  rw [Bool.eq_iff_iff]
  simp [Element.arc, List.idxOf_inj he]

/-- The degree of a node and the list of its successors are those of the elements that it produces
for. No edge is a back edge, so the degree is the length that the list needs. -/
theorem lists_described (hname : name ∈ names) :
    ListsDegree (pgmGetDegreeOut s ⟨gr, names.idxOf name⟩ true)
      (fun len => pgmGetSuccessors s ⟨gr, names.idxOf name⟩ true len true)
      ((elementsFrom es name).map (fun p => ⟨gr, names.idxOf p.1.consumer.bytes⟩)) := by
  obtain ⟨htable, hlive, hN, -, hlinks⟩ := tables_of_run hl hr
  have harcs : (s.graphs gr.toNat).arcs = es.map (Element.arc names) := by
    rw [GraphRec.arcs_eq, hlinks, List.map_map]
    rfl
  have hlt : names.idxOf name < (s.graphs gr.toNat).nrNodes :=
    hN ▸ List.idxOf_lt_length_of_mem hname
  have hex : NodeExists s ⟨gr, names.idxOf name⟩ := ⟨Int.natCast_nonneg _, Int.ofNat_lt.mpr hlt⟩
  have hc := htable.closed
  have houts : ((s.graphs gr.toNat).nodes (names.idxOf name)).outs =
      (List.range (s.graphs gr.toNat).nrEdges).filter
        (fun e => Arc.producer ((s.graphs gr.toNat).edges e).arc == names.idxOf name) :=
    htable.outs _ hlt
  have hback : ∀ a ∈ (s.graphs gr.toNat).arcs, a.producer = names.idxOf name → a.back = false := by
    rw [harcs]
    intro a ha _
    obtain ⟨e, -, rfl⟩ := List.mem_map.mp ha
    rfl
  have hboth : ListsDegree (pgmGetDegreeOut s ⟨gr, names.idxOf name⟩ true)
      (fun len => pgmGetSuccessors s ⟨gr, names.idxOf name⟩ true len true)
      ((keptArcs Arc.producer true (s.graphs gr.toNat).arcs (names.idxOf name)).map
        (fun p => ⟨gr, p.1.consumer⟩)) :=
    (listsDegree_iff rfl hc hlive hex rfl (hc.within_outs hex) houts
      (fun e he => nodeItem_fine hc (hc.within_outs hex e he).1 (hc.within_outs hex e he).2.2 gr)
      true).mpr (fun _ => hback)
  rw [harcs, keptArcs_described htame name, List.map_map] at hboth
  exact hboth

/-- **A visit.** The loop finds the successors and the amounts that were described, in the order of
the description. -/
theorem successorsOf_eq (hname : name ∈ names) : successorsOf s gr name =
    some ((es.filter (fun e => e.producer.bytes = name)).map
      (fun e => (e.consumer.bytes, (e.nrProduce : Int), (e.nrConsume : Int)))) := by
  have hfind := findNode_described htame hl hr (List.getElem?_idxOf hname)
  obtain ⟨hdegree, hlist⟩ := lists_described htame hl hr hname
  have hone : ∀ p ∈ elementsFrom es name,
      readSuccessor s ⟨gr, names.idxOf name⟩ ⟨gr, names.idxOf p.1.consumer.bytes⟩ =
        some (p.1.consumer.bytes, (p.1.nrProduce : Int), (p.1.nrConsume : Int)) := by
    intro p hp
    obtain ⟨hmem, hfrom⟩ := List.mem_filter.mp hp
    have hj : es[p.2]? = some p.1 := List.mem_zipIdx_iff_getElem?.mp hmem
    rw [← of_decide_eq_true hfrom]
    exact readSuccessor_described htame hl hr hj
  have hread := readSuccessors_map hone
  rw [← elementsFrom_fst, List.map_map]
  simp only [successorsOf, hfind, hdegree, hlist, Except.toOption, Option.bind_eq_bind,
    Option.bind_some, Int.toNat_natCast, List.take_left']
  exact hread

/-- If `pgm_is_dag` finds no cycle, the elements have none. -/
theorem described_acyclic {v : Int} (hv : pgmIsDag s gr true = .ok v) (hne : v ≠ 0) (name : Str) :
    ¬ Relation.TransGen (fun a b => ∃ e ∈ es, e.producer.bytes = a ∧ e.consumer.bytes = b)
      name name := by
  have hstored : ((Tables.nodeNames (nodeCalls names ++ es.map (Element.call env names))).map
      CStr.stored).Nodup := by
    have hself : (names.map cstr).map CStr.stored = names := by
      rw [List.map_map]
      exact (List.map_congr_left (fun n hn => htame.stored hn)).trans (List.map_id names)
    rw [nodeNames_calls, hself]
    exact htame.nodup
  obtain ⟨v', hv', hcases, hiff⟩ := pgmIsDag_distinct hl hr hstored true
  obtain rfl := Except.ok.inj (hv'.symm.trans hv)
  have hacyc := hiff.mp (hcases.resolve_left hne)
  rw [arcs_calls] at hacyc
  intro hcycle
  refine hacyc (names.idxOf name) (hcycle.lift names.idxOf ?_)
  rintro a b ⟨e, he, rfl, rfl⟩
  exact mem_targets.mpr ⟨e.arc names, List.mem_map_of_mem he, rfl, rfl, rfl⟩

end

/-! ## The graph of a description -/

def Element.amounts (e : Element) (h : ∀ n ∈ e.numerals, n.value ≤ intMax) : Rates.Amounts where
  produce := e.nrProduce
  consume := e.nrConsume
  produce_pos := (nrProduce_bounds h).1
  consume_pos := (nrConsume_bounds h).1
  produce_lt := Nat.lt_succ_of_le (nrProduce_bounds h).2
  consume_lt := Nat.lt_succ_of_le (nrConsume_bounds h).2

/-- The successors of a name, as the elements have them. -/
def succs (es : List Element) (h : ∀ e ∈ es, ∀ n ∈ e.numerals, n.value ≤ intMax) (name : Str) :
    List (Str × Rates.Amounts) :=
  (es.filter (fun e => e.producer.bytes = name)).pmap
    (fun e he => (e.consumer.bytes, e.amounts he)) (fun e he => h e (List.mem_of_mem_filter he))

section

variable {lexicalCast : Str → Option Int} {l : Lib} {gr : Int} {es : List Element}

theorem mem_succs {h : ∀ e ∈ es, ∀ n ∈ e.numerals, n.value ≤ intMax} {name : Str}
    {p : Str × Rates.Amounts} (hp : p ∈ succs es h name) :
    ∃ e ∈ es, e.producer.bytes = name ∧ e.consumer.bytes = p.1 := by
  obtain ⟨e, he, rfl⟩ := List.mem_pmap.mp hp
  obtain ⟨hmem, hfrom⟩ := List.mem_filter.mp he
  exact ⟨e, hmem, of_decide_eq_true hfrom, rfl⟩

theorem checkDag_returned {w w' : Work} (h : checkDag gr w = (.returned, w')) :
    w' = w ∧ ∃ v, pgmIsDag w.lib gr true = .ok v ∧ v ≠ 0 := by
  unfold checkDag at h
  split at h
  · simp at h
  · rename_i v hv
    obtain ⟨hend, rfl⟩ := Prod.mk.inj h
    refine ⟨rfl, v, hv, fun h0 => ?_⟩
    rw [if_pos h0] at hend
    cases hend

theorem tame_of_fits {hne : es ≠ []} (hfits : Fits es (Description.edges es hne).names)
    (hnul : ∀ name ∈ (Description.edges es hne).names, 0 ∉ name)
    (hshort : ∀ name ∈ (Description.edges es hne).names, name.length < nameLen)
    (hsimple : es.Pairwise (fun a b =>
      ¬ (a.producer.bytes = b.producer.bytes ∧ a.consumer.bytes = b.consumer.bytes))) :
    Tame es (Description.edges es hne).names where
  nonempty _ hn := names_ne_nil hn
  nul_free := hnul
  short := hshort
  sorted := List.pairwise_insertionSort (· ≤ ·) _
  nodup := names_nodup hne
  ends _ he := mem_names he
  numbers := hfits.numbers
  simple := hsimple

/-- **From the description to the rates.** If the parser returns for a description that fits, whose
names are strings that fit into their arrays, with at most one edge from one node to another, then
the loop of `parse_graph_rates` sees the described successors at every node, they are nodes of the
description again, and they have no cycle. -/
theorem described_rates (hcast : ReadsNumerals lexicalCast) (hl : NewGraph l gr)
    (hm : l.isGraphMaster = true) (env : Env) (hne : es ≠ [])
    (hfits : Fits es (Description.edges es hne).names)
    (hnul : ∀ name ∈ (Description.edges es hne).names, 0 ∉ name)
    (hshort : ∀ name ∈ (Description.edges es hne).names, name.length < nameLen)
    (hsimple : es.Pairwise (fun a b =>
      ¬ (a.producer.bytes = b.producer.bytes ∧ a.consumer.bytes = b.consumer.bytes)))
    {w : Work} (hparse : parseGraphDescription lexicalCast env l gr (Description.edges es hne).text =
      (.returned, w)) :
    (∀ name ∈ (Description.edges es hne).names, successorsOf w.lib gr name =
      some ((succs es hfits.numbers name).map
        (fun p => (p.1, (p.2.produce : Int), (p.2.consume : Int))))) ∧
    (∀ name ∈ (Description.edges es hne).names, ∀ p ∈ succs es hfits.numbers name,
      p.1 ∈ (Description.edges es hne).names) ∧
    ∀ name, ¬ Relation.TransGen (fun a b => ∃ x, (b, x) ∈ succs es hfits.numbers a) name name := by
  have htame := tame_of_fits hfits hnul hshort hsimple
  obtain ⟨w', hrun, hend, -, -⟩ := parse_of_fits hcast hl hm env hne hfits
  obtain ⟨rfl, v, hv, hne0⟩ := checkDag_returned (hend.symm.trans hparse)
  refine ⟨fun name hn => ?_, fun name _ p hp => ?_, fun name hcycle => ?_⟩
  · rw [successorsOf_eq htame hl hrun hn, succs, List.map_pmap]
    simp [Element.amounts]
  · obtain ⟨e, he, -, hto⟩ := mem_succs hp
    exact hto ▸ (htame.ends e he).2
  · refine described_acyclic htame hl hrun hv hne0 name (hcycle.lift id ?_)
    rintro a b ⟨x, hx⟩
    exact mem_succs hx

end

/-- `a.2:b.3.4,b:c`, seen from the first node. -/
example : successorsOf (parseGraphDescription lexicalCastInt quietEnv newLib 0
    [97, 46, 50, 58, 98, 46, 51, 46, 52, 44, 98, 58, 99]).2.lib 0 [97] = some [([98], 2, 3)] := by
  decide +kernel

end Pgm.Tables.Parse
