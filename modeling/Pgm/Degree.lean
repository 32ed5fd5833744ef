import Pgm.Dag

/-!
# Degrees and lists of neighbours

A caller sizes its array with `pgm_get_degree_out` or `pgm_get_degree_in` and has it filled by one of
the four functions that list neighbours or edges. `lists_degree_iff` says when that works: the
length is compared with the number of all edges of the node, also when back edges are left out of
the list and of the degree.
-/

namespace Pgm.Tables

/-- The edges whose end `own` is node `n`, in the order of their creation and with their indices.
Back edges are left out if they are to be ignored. -/
def keptArcs (own : Arc → Nat) (ignore : Bool) (as : List Arc) (n : Nat) : List (Arc × Nat) :=
  as.zipIdx.filter (fun p => own p.1 == n && !(ignore && p.1.back))

/-- The degree is the number of `expected` entries, and an array of that length gets all of them. -/
def ListsDegree {α : Type} (degree : Query Int) (list : Int → Query (Int × List α))
    (expected : List α) : Prop :=
  degree.val = .ok expected.length ∧
    (list expected.length).val = .ok (expected.length, expected)

section

variable {l : Lib} {g : GraphRec} {α : Type}

theorem Query.Fine.val_eq {m : Query α} {a : α} (h : m.Fine (fun x => x = a)) : m.val = .ok a := by
  obtain ⟨⟨x, hx, rfl⟩, -⟩ := h
  exact hx

theorem kept_length_add (ignore : Bool) (es : List Nat) :
    (es.filter (fun e => !g.excluded ignore e)).length + es.countP (g.excluded ignore) =
      es.length := by
  have hsplit : es.length = es.countP (g.excluded ignore) + es.countP (fun e => !g.excluded ignore e) := by
    simpa using List.length_eq_countP_add_countP (g.excluded ignore) (l := es)
  rw [hsplit, ← List.countP_eq_length_filter, Nat.add_comm]

theorem arcs_zipIdx : g.arcs.zipIdx = (List.range g.nrEdges).map (fun e => ((g.edges e).arc, e)) := by
  refine List.ext_getElem (by simp [GraphRec.arcs]) (fun i h₁ h₂ => ?_)
  simp [GraphRec.arcs]

/-- The edges of a node that are not left out, in terms of the edges alone. -/
theorem kept_eq {es : List Nat} {own : Arc → Nat} {n : Nat}
    (hes : es = (List.range g.nrEdges).filter (fun e => own (g.edges e).arc == n))
    (ignore : Bool) (f : Arc × Nat → α) :
    (es.filter (fun e => !g.excluded ignore e)).map (fun e => f ((g.edges e).arc, e)) =
      (keptArcs own ignore g.arcs n).map f := by
  unfold keptArcs
  rw [hes, arcs_zipIdx, List.filter_filter, List.filter_map, List.map_map]
  congr 1
  refine List.filter_congr (fun e _ => ?_)
  exact Bool.and_comm _ _

/-- No edge of a node is left out. -/
theorem excluded_none_iff {es : List Nat} {own : Arc → Nat} {n : Nat}
    (hes : es = (List.range g.nrEdges).filter (fun e => own (g.edges e).arc == n)) (ignore : Bool) :
    es.countP (g.excluded ignore) = 0 ↔
      (ignore = true → ∀ a ∈ g.arcs, own a = n → a.back = false) := by
  simp only [List.countP_eq_zero, hes, List.mem_filter, List.mem_range, beq_iff_eq, GraphRec.arcs,
    List.mem_map, GraphRec.excluded]
  constructor
  · rintro h rfl a ⟨e, he, rfl⟩ hown
    simpa [EdgeRec.arc] using h e ⟨he, hown⟩
  · rintro h e ⟨he, hown⟩
    cases ignore with
    | true => simpa [EdgeRec.arc] using h rfl _ ⟨e, he, rfl⟩ hown
    | false => exact Bool.false_ne_true

section

variable {node : NodeHandle} {list : NodeRec → List Nat} {item : GraphRec → Int → Nat → Query α}
  {es : List Nat} (hg : l.graphs node.graph.toNat = g) (h : Closed g) (hlive : Live l node.graph)
  (hex : NodeExists l node) (hes : list (g.nodes node.node.toNat) = es) (hwithin : Within g es)

include hg h hlive hex hes hwithin

theorem degreeOf_val (ignore : Bool) : (degreeOf list l node ignore).val =
    .ok (es.filter (fun e => !g.excluded ignore e)).length := by
  subst hg
  refine Query.Fine.val_eq (onNode_fine h hlive hex ?_)
  rw [hes]
  cases ignore with
  | true =>
    refine (forwardCount_fine h hwithin 0).mono (fun r hr => hr.trans ?_)
    rw [Int.zero_add, List.countP_eq_length_filter]
  | false =>
    refine Traced.fine_pure ?_
    simp [GraphRec.excluded]

/-- The list has what is not left out, but only an array for all edges is accepted. -/
theorem listing_val {f : Nat → α}
    (hitem : ∀ e ∈ es, (item g node.graph e).Fine (fun x => x = f e)) (len : Int) (ignore : Bool) :
    (listing list item l node true len ignore).val =
      .ok (if len < es.length then (-1, [])
        else ((es.filter (fun e => !g.excluded ignore e)).length,
          (es.filter (fun e => !g.excluded ignore e)).map f)) := by
  subst hg
  refine Query.Fine.val_eq (onNode_fine h hlive hex ?_)
  rw [hes]
  split
  · exact Traced.fine_pure rfl
  · refine (listLoop_fine h hwithin hitem _).mono (fun r hr => hr.trans ?_)
    have hadd := kept_length_add (g := l.graphs node.graph.toNat) ignore es
    refine Prod.ext ?_ rfl
    dsimp only
    omega

/-- The two agree exactly if nothing is left out. -/
theorem listsDegree_iff {own : Arc → Nat} {n : Nat} {f : Arc × Nat → α}
    (hown : es = (List.range g.nrEdges).filter (fun e => own (g.edges e).arc == n))
    (hitem : ∀ e ∈ es, (item g node.graph e).Fine (fun x => x = f ((g.edges e).arc, e)))
    (ignore : Bool) :
    ListsDegree (degreeOf list l node ignore)
        (fun len => listing list item l node true len ignore)
        ((keptArcs own ignore g.arcs n).map f) ↔
      (ignore = true → ∀ a ∈ g.arcs, own a = n → a.back = false) := by
  rw [← excluded_none_iff hown, ← kept_eq hown]
  have hadd := kept_length_add (g := g) ignore es
  unfold ListsDegree
  rw [degreeOf_val hg h hlive hex hes hwithin, listing_val hg h hlive hex hes hwithin hitem,
    List.length_map]
  constructor
  · rintro ⟨-, hval⟩
    by_contra hsome
    rw [if_pos (by omega)] at hval
    have hcount : (-1 : Int) = _ := congrArg Prod.fst (Except.ok.inj hval)
    omega
  · intro hnone
    exact ⟨rfl, by rw [if_neg (by omega)]⟩

end

end

/-- **Degrees and lists.** For a graph that successful calls have built, every node of it and either
value of the flag: an array that is as long as the degree gets the edges of the node, or their other
ends, in the order of their creation, exactly if no back edge of the node is to be left out. -/
theorem lists_degree_iff {l s : Lib} {gr : Int} {calls : List Call} {t : Nat} (hl : NewGraph l gr)
    (hr : Lts.run (step gr) l calls = some s) (ht : t < (nodeNames calls).length) (ignore : Bool) :
    (ListsDegree (pgmGetDegreeOut s ⟨gr, t⟩ ignore)
        (fun len => pgmGetSuccessors s ⟨gr, t⟩ true len ignore)
        ((keptArcs Arc.producer ignore (arcs calls) t).map (fun p => ⟨gr, p.1.consumer⟩)) ↔
      (ignore = true → ∀ a ∈ arcs calls, a.producer = t → a.back = false)) ∧
    (ListsDegree (pgmGetDegreeOut s ⟨gr, t⟩ ignore)
        (fun len => pgmGetEdgesOut s ⟨gr, t⟩ true len ignore)
        ((keptArcs Arc.producer ignore (arcs calls) t).map (fun p => ⟨gr, p.2⟩)) ↔
      (ignore = true → ∀ a ∈ arcs calls, a.producer = t → a.back = false)) ∧
    (ListsDegree (pgmGetDegreeIn s ⟨gr, t⟩ ignore)
        (fun len => pgmGetPredecessors s ⟨gr, t⟩ true len ignore)
        ((keptArcs Arc.consumer ignore (arcs calls) t).map (fun p => ⟨gr, p.1.producer⟩)) ↔
      (ignore = true → ∀ a ∈ arcs calls, a.consumer = t → a.back = false)) ∧
    (ListsDegree (pgmGetDegreeIn s ⟨gr, t⟩ ignore)
        (fun len => pgmGetEdgesIn s ⟨gr, t⟩ true len ignore)
        ((keptArcs Arc.consumer ignore (arcs calls) t).map (fun p => ⟨gr, p.2⟩)) ↔
      (ignore = true → ∀ a ∈ arcs calls, a.consumer = t → a.back = false)) := by
  obtain ⟨hopen, hN, harcs⟩ := run_graph hl hr
  have htN : t < (s.graphs gr.toNat).nrNodes := hN ▸ ht
  have hex : NodeExists s ⟨gr, t⟩ := ⟨Int.natCast_nonneg t, Int.ofNat_lt.mpr htN⟩
  have hc := hopen.table.closed
  have houts : ((s.graphs gr.toNat).nodes t).outs = (List.range (s.graphs gr.toNat).nrEdges).filter
      (fun e => Arc.producer ((s.graphs gr.toNat).edges e).arc == t) := hopen.table.outs t htN
  have hins : ((s.graphs gr.toNat).nodes t).ins = (List.range (s.graphs gr.toNat).nrEdges).filter
      (fun e => Arc.consumer ((s.graphs gr.toNat).edges e).arc == t) := hopen.table.ins t htN
  rw [← harcs]
  refine ⟨?_, ?_, ?_, ?_⟩
  · exact listsDegree_iff rfl hc hopen.live hex rfl (hc.within_outs hex) houts
      (fun e he => nodeItem_fine hc (hc.within_outs hex e he).1 (hc.within_outs hex e he).2.2 gr)
      ignore
  · exact listsDegree_iff rfl hc hopen.live hex rfl (hc.within_outs hex) houts
      (fun e _ => Traced.fine_pure (P := fun x => x = EdgeHandle.mk gr e) rfl) ignore
  · exact listsDegree_iff rfl hc hopen.live hex rfl (hc.within_ins hex) hins
      (fun e he => nodeItem_fine hc (hc.within_ins hex e he).1 (hc.within_ins hex e he).2.1 gr)
      ignore
  · exact listsDegree_iff rfl hc hopen.live hex rfl (hc.within_ins hex) hins
      (fun e _ => Traced.fine_pure (P := fun x => x = EdgeHandle.mk gr e) rfl) ignore

/-- The node that a back edge leads to: its list of successors has the length of its degree. -/
theorem lists_degree_loop : ∃ s, Lts.run (step 0) newLib loopCalls = some s ∧
    ListsDegree (pgmGetDegreeOut s ⟨0, 0⟩ true) (fun len => pgmGetSuccessors s ⟨0, 0⟩ true len true)
      [⟨0, 1⟩] := by
  have hsome : (Lts.run (step 0) newLib loopCalls).isSome = true := by decide +kernel
  obtain ⟨s, hs⟩ := Option.isSome_iff_exists.mp hsome
  have hiff := (lists_degree_iff (t := 0) newLib_newGraph hs (by decide) true).1
  exact ⟨s, hs, hiff.mpr (by decide)⟩

/-- The node that a back edge leaves has degree 0 without it, and an array of that length is
refused. -/
theorem degree_too_short : ∃ s, Lts.run (step 0) newLib loopCalls = some s ∧
    (pgmGetDegreeOut s ⟨0, 1⟩ true).val = .ok 0 ∧
    (pgmGetSuccessors s ⟨0, 1⟩ true 0 true).val = .ok (-1, []) ∧
    ¬ ListsDegree (pgmGetDegreeOut s ⟨0, 1⟩ true)
      (fun len => pgmGetSuccessors s ⟨0, 1⟩ true len true)
      ((keptArcs Arc.producer true (arcs loopCalls) 1).map (fun p => ⟨0, p.1.consumer⟩)) := by
  have hd : (Lts.run (step 0) newLib loopCalls).map (fun s => ((pgmGetDegreeOut s ⟨0, 1⟩ true).val,
      (pgmGetSuccessors s ⟨0, 1⟩ true 0 true).val)) = some (.ok 0, .ok (-1, [])) := by
    decide +kernel
  obtain ⟨s, hs, hv⟩ := Option.map_eq_some_iff.mp hd
  obtain ⟨hdegree, hlist⟩ := Prod.mk.inj hv
  refine ⟨s, hs, hdegree, hlist, fun hboth => ?_⟩
  have hkept : keptArcs Arc.producer true (arcs loopCalls) 1 = [] := by decide
  rw [hkept] at hboth
  have := hlist.symm.trans hboth.2
  simp at this

end Pgm.Tables
