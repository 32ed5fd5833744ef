import Mathlib.Data.Nat.Digits.Defs
import Pgm.Described

/-!
# The documented descriptions

The help text of pgmrt gives the form of a description. Here it is a type of its own, with the text
that is written for each value, and the parser is compared with it.

* `Description`, `Creates`: what can be written, and the graph that it stands for;
* `Malformed`: an element with too many colons, or too many fields on one side;
* `parse_implements_iff`: which descriptions create their graph, and which malformed strings are
  rejected.
-/

namespace Pgm.Tables.Parse

/-! ## The form -/

structure Name where
  bytes : Str
  nonempty : bytes ≠ []
  plain : ∀ b ∈ bytes, b ≠ comma ∧ b ≠ colon ∧ b ≠ dot

def decimal (digits : Str) : Nat :=
  Nat.ofDigits 10 (digits.reverse.map (fun b => b.toNat - 48))

/-- A positive integer, as it is written. -/
structure Numeral where
  digits : Str
  isDigit : ∀ b ∈ digits, 48 ≤ b ∧ b ≤ 57
  positive : 0 < decimal digits

def Numeral.value (n : Numeral) : Nat := decimal n.digits

/-- `<name>[.produce]:<name>[.consume[.threshold]]`. -/
structure Element where
  producer : Name
  produce : Option Numeral
  consumer : Name
  consume : Option (Numeral × Option Numeral)
  ordered : ∀ c t, consume = some (c, some t) → c.value ≤ t.value

namespace Element

variable (e : Element)

def nrProduce : Nat := (e.produce.map Numeral.value).getD 1

def nrConsume : Nat := (e.consume.map (fun n => n.1.value)).getD 1

def nrThreshold : Nat := ((e.consume.bind Prod.snd).map Numeral.value).getD 1

def consumeNumerals : List Numeral :=
  match e.consume with
  | none => []
  | some (n, t) => n :: t.toList

def numerals : List Numeral := e.produce.toList ++ e.consumeNumerals

def left : Str := [dot].intercalate (e.producer.bytes :: e.produce.toList.map Numeral.digits)

def right : Str := [dot].intercalate (e.consumer.bytes :: e.consumeNumerals.map Numeral.digits)

def text : Str := [colon].intercalate [e.left, e.right]

end Element

/-- The descriptions of the help text: a list of edges, or a single node. -/
inductive Description where
  | edges (elements : List Element) (nonempty : elements ≠ [])
  | single (name : Name)

namespace Description

def text : Description → Str
  | .edges es _ => [comma].intercalate (es.map Element.text)
  | .single name => name.bytes ++ [colon]

def elements : Description → List Element
  | .edges es _ => es
  | .single _ => []

/-- The distinct names, in the order of `std::set`. -/
def names : Description → List Str
  | .edges es _ => (es.flatMap (fun e => [e.producer.bytes, e.consumer.bytes])).dedup.insertionSort (· ≤ ·)
  | .single name => [name.bytes]

end Description

/-- There is one node for each name and one edge for each element, as the element says, and the
vectors hold their handles. -/
structure Creates (gr : Int) (d : Description) (r : Ending × Work) : Prop where
  defined : r.1 ≠ .undefined
  nodes : r.2.nodes = (List.range d.names.length).map (fun (i : Nat) => some ⟨gr, i⟩)
  edges : r.2.edges = (List.range d.elements.length).map (fun (j : Nat) => some ⟨gr, j⟩)
  nrNodes : (r.2.lib.graphs gr.toNat).nrNodes = d.names.length
  nrEdges : (r.2.lib.graphs gr.toNat).nrEdges = d.elements.length
  node : ∀ i name, d.names[i]? = some name →
    ((r.2.lib.graphs gr.toNat).nodes i).name = (cstr name).stored
  edge : ∀ j e, d.elements[j]? = some e →
    d.names[((r.2.lib.graphs gr.toNat).edges j).producer]? = some e.producer.bytes ∧
    d.names[((r.2.lib.graphs gr.toNat).edges j).consumer]? = some e.consumer.bytes ∧
    ((r.2.lib.graphs gr.toNat).edges j).attr.nrProduce.toNat = e.nrProduce ∧
    ((r.2.lib.graphs gr.toNat).edges j).attr.nrConsume.toNat = e.nrConsume ∧
    ((r.2.lib.graphs gr.toNat).edges j).attr.nrThreshold.toNat = e.nrThreshold

def intMax : Nat := 2147483647

/-- What `boost::lexical_cast<int>` does with a positive integer. -/
def ReadsNumerals (lexicalCast : Str → Option Int) : Prop :=
  ∀ n : Numeral, lexicalCast n.digits = if n.value ≤ intMax then some (n.value : Int) else none

/-- A list of edges that pgmrt can take: the numbers are numbers of an `int`, what is consumed does
not exceed the threshold, also where this is the default, no name begins with NUL, and the tables
have room. -/
structure Fits (es : List Element) (names : List Str) : Prop where
  numbers : ∀ e ∈ es, ∀ n ∈ e.numerals, n.value ≤ intMax
  amounts : ∀ e ∈ es, e.nrConsume ≤ e.nrThreshold
  named : ∀ name ∈ names, name.head? ≠ some 0
  nodes : names.length < maxNodes
  edges : es.length < maxEdges
  degree : ∀ name, es.countP (fun e => e.producer.bytes = name) < maxDegree ∧
    es.countP (fun e => e.consumer.bytes = name) < maxDegree

/-- The single-node form never fits. -/
def Description.Fits (d : Description) : Prop :=
  match d with
  | .edges es _ => Parse.Fits es d.names
  | .single _ => False

/-- Some element has more than one colon, more than two fields before it or more than three behind
it. -/
def Malformed (desc : Str) : Prop :=
  ∃ eStr ∈ desc.splitOn comma, 2 < (eStr.splitOn colon).length ∨
    ∃ p c, eStr.splitOn colon = [p, c] ∧ (2 < (p.splitOn dot).length ∨ 3 < (c.splitOn dot).length)

/-! ## What is read -/

section

variable {lexicalCast : Str → Option Int} {env : Env} {l s : Lib} {gr : Int} {es : List Element}
  {e : Element} {ns : List Str}

theorem Numeral.plain (n : Numeral) : ∀ b ∈ n.digits, b ≠ comma ∧ b ≠ colon ∧ b ≠ dot := by
  intro b hb
  obtain ⟨hlo, hhi⟩ := n.isDigit b hb
  refine ⟨?_, ?_, ?_⟩
  · rintro rfl
    exact absurd hlo (by decide)
  · rintro rfl
    exact absurd hhi (by decide)
  · rintro rfl
    exact absurd hlo (by decide)

theorem fields_plain (name : Name) (ns : List Numeral) :
    ∀ f ∈ name.bytes :: ns.map Numeral.digits, comma ∉ f ∧ colon ∉ f ∧ dot ∉ f := by
  have hplain : ∀ f ∈ name.bytes :: ns.map Numeral.digits,
      ∀ b ∈ f, b ≠ comma ∧ b ≠ colon ∧ b ≠ dot := by
    intro f hf
    rcases List.mem_cons.mp hf with rfl | hf
    · exact name.plain
    · obtain ⟨n, -, rfl⟩ := List.mem_map.mp hf
      exact n.plain
  exact fun f hf => ⟨fun h => (hplain f hf _ h).1 rfl, fun h => (hplain f hf _ h).2.1 rfl,
    fun h => (hplain f hf _ h).2.2 rfl⟩

theorem splitOn_left (e : Element) :
    e.left.splitOn dot = e.producer.bytes :: e.produce.toList.map Numeral.digits :=
  List.splitOn_intercalate dot (fun f hf => (fields_plain e.producer _ f hf).2.2) (by simp)

theorem splitOn_right (e : Element) :
    e.right.splitOn dot = e.consumer.bytes :: e.consumeNumerals.map Numeral.digits :=
  List.splitOn_intercalate dot (fun f hf => (fields_plain e.consumer _ f hf).2.2) (by simp)

theorem side_plain (e : Element) : ∀ f ∈ [e.left, e.right], comma ∉ f ∧ colon ∉ f := by
  have hl := fields_plain e.producer e.produce.toList
  have hr := fields_plain e.consumer e.consumeNumerals
  simp only [List.mem_cons, List.not_mem_nil, or_false]
  rintro f (rfl | rfl)
  · exact ⟨Split.notMem_intercalate (by decide) (fun f hf => (hl f hf).1),
      Split.notMem_intercalate (by decide) (fun f hf => (hl f hf).2.1)⟩
  · exact ⟨Split.notMem_intercalate (by decide) (fun f hf => (hr f hf).1),
      Split.notMem_intercalate (by decide) (fun f hf => (hr f hf).2.1)⟩

theorem splitOn_text (e : Element) : e.text.splitOn colon = [e.left, e.right] :=
  List.splitOn_intercalate colon (fun f hf => (side_plain e f hf).2) (by simp)

theorem splitOn_texts (hne : es ≠ []) :
    ([comma].intercalate (es.map Element.text)).splitOn comma = es.map Element.text := by
  refine List.splitOn_intercalate comma (fun f hf => ?_) (by simpa using hne)
  obtain ⟨e, -, rfl⟩ := List.mem_map.mp hf
  exact Split.notMem_intercalate (by decide) (fun f hf => (side_plain e f hf).1)

theorem firstToken_left (e : Element) : firstToken e.left = e.producer.bytes :=
  firstToken_of_splitOn (splitOn_left e)

theorem firstToken_right (e : Element) : firstToken e.right = e.consumer.bytes :=
  firstToken_of_splitOn (splitOn_right e)

theorem nodeNames_text (hne : es ≠ []) :
    nodeNames (Description.edges es hne).text = (Description.edges es hne).names := by
  have hparts : (Description.edges es hne).text.splitOnP (fun b => b == comma || b == colon) =
      es.flatMap (fun e => [e.left, e.right]) := by
    rw [Split.splitOnP_or]
    change (([comma].intercalate (es.map Element.text)).splitOn comma).flatMap
      (fun t => t.splitOn colon) = _
    rw [splitOn_texts hne, List.flatMap_map]
    exact List.flatMap_congr (fun e _ => splitOn_text e)
  unfold nodeNames Description.names
  rw [hparts, List.map_flatMap]
  simp only [List.map_cons, List.map_nil, firstToken_left, firstToken_right]

theorem readProduce_left (hcast : ReadsNumerals lexicalCast) (e : Element) :
    readProduce lexicalCast e.left =
      if ∀ n ∈ e.produce.toList, n.value ≤ intMax then .ok (e.producer.bytes, (e.nrProduce : Int))
      else .error .badLexicalCast := by
  unfold readProduce
  rw [splitOn_left]
  cases hp : e.produce with
  | none => simp [Element.left, Element.nrProduce, hp]
  | some n =>
    by_cases hn : n.value ≤ intMax <;>
      simp [castInt, hcast n, hn, Element.nrProduce, hp, bind, Except.bind, pure, Except.pure]

theorem readConsume_right (hcast : ReadsNumerals lexicalCast) (e : Element) :
    readConsume lexicalCast e.right =
      if ∀ n ∈ e.consumeNumerals, n.value ≤ intMax then
        .ok (e.consumer.bytes, (e.nrConsume : Int), (e.nrThreshold : Int))
      else .error .badLexicalCast := by
  unfold readConsume
  rw [splitOn_right]
  unfold Element.consumeNumerals Element.nrConsume Element.nrThreshold Element.right
    Element.consumeNumerals
  cases hc : e.consume with
  | none => simp
  | some nt =>
    obtain ⟨n, t⟩ := nt
    cases t with
    | none =>
      by_cases hn : n.value ≤ intMax <;>
        simp [castInt, hcast n, hn, bind, Except.bind, pure, Except.pure]
    | some t =>
      by_cases hn : n.value ≤ intMax <;> by_cases ht : t.value ≤ intMax <;>
        simp [castInt, hcast n, hcast t, hn, ht, bind, Except.bind, pure, Except.pure]

theorem readElement_text (hcast : ReadsNumerals lexicalCast) (e : Element) :
    readElement lexicalCast e.text =
      if ∀ n ∈ e.numerals, n.value ≤ intMax then
        .edge e.producer.bytes e.consumer.bytes e.nrProduce e.nrConsume e.nrThreshold
      else .refuse .badLexicalCast := by
  unfold readElement Element.numerals
  simp only [splitOn_text, readProduce_left hcast, readConsume_right hcast, List.forall_mem_append]
  by_cases hp : ∀ n ∈ e.produce.toList, n.value ≤ intMax
  · by_cases hc : ∀ n ∈ e.consumeNumerals, n.value ≤ intMax
    · rw [if_pos hp, if_pos hc, if_pos ⟨hp, hc⟩]
    · rw [if_pos hp, if_neg hc, if_neg (fun h => hc h.2)]
  · have hnum : ¬ ((∀ n ∈ e.produce.toList, n.value ≤ intMax) ∧
        ∀ n ∈ e.consumeNumerals, n.value ≤ intMax) := fun h => hp h.1
    rw [if_neg hp, if_neg hnum]

/-! ## The calls -/

def Element.call (env : Env) (ns : List Str) (e : Element) : Call :=
  .edge env (ns.idxOf e.producer.bytes) (ns.idxOf e.consumer.bytes)
    (edgeArgs e.producer.bytes e.consumer.bytes e.nrProduce e.nrConsume e.nrThreshold)

def Element.arc (ns : List Str) (e : Element) : Arc :=
  ⟨ns.idxOf e.producer.bytes, ns.idxOf e.consumer.bytes, false⟩

theorem edgeCall?_text (hcast : ReadsNumerals lexicalCast) (env : Env) (ns : List Str)
    (e : Element) : edgeCall? lexicalCast env ns e.text =
      if ∀ n ∈ e.numerals, n.value ≤ intMax then some (e.call env ns) else none := by
  unfold edgeCall?
  rw [readElement_text hcast]
  by_cases hnum : ∀ n ∈ e.numerals, n.value ≤ intMax
  · rw [if_pos hnum, if_pos hnum]
    rfl
  · rw [if_neg hnum, if_neg hnum]

theorem edgeCalls_texts (hcast : ReadsNumerals lexicalCast) (env : Env) (ns : List Str)
    (hnum : ∀ e ∈ es, ∀ n ∈ e.numerals, n.value ≤ intMax) :
    edgeCalls lexicalCast env ns (es.map Element.text) = es.map (Element.call env ns) := by
  rw [edgeCalls, List.filterMap_map, ← List.filterMap_eq_map]
  refine List.filterMap_congr (fun e he => ?_)
  rw [Function.comp_apply, edgeCall?_text hcast, if_pos (hnum e he)]
  rfl

/-- What a function that passes over nodes finds in the calls of a description. -/
theorem filterMap_calls {β : Type} (f : Call → Option β) (g : Element → β)
    (hnode : ∀ name, f (.node name) = none) (hedge : ∀ e, f (Element.call env ns e) = some (g e))
    (names : List Str) (es : List Element) :
    (nodeCalls names ++ es.map (Element.call env ns)).filterMap f = es.map g := by
  have hnodes : (nodeCalls names).filterMap f = [] := by
    simp [nodeCalls, hnode]
  rw [List.filterMap_append, hnodes, List.nil_append, List.filterMap_map, ← List.filterMap_eq_map]
  exact List.filterMap_congr (fun e _ => hedge e)

theorem links_calls (names : List Str) (es : List Element) :
    links (nodeCalls names ++ es.map (Element.call env ns)) =
      es.map (fun e => (e.arc ns, edgeAttr e.nrProduce e.nrConsume e.nrThreshold)) :=
  filterMap_calls Call.link? _ (fun _ => rfl) (fun _ => rfl) names es

theorem edgeKeys_calls (names : List Str) (es : List Element) :
    edgeKeys (nodeCalls names ++ es.map (Element.call env ns)) =
      es.map (fun e => ⟨ns.idxOf e.producer.bytes, ns.idxOf e.consumer.bytes,
        cstr (makeEdgeName e.producer.bytes e.consumer.bytes)⟩) :=
  filterMap_calls Call.edgeKey? _ (fun _ => rfl) (fun _ => rfl) names es

theorem arcs_calls (names : List Str) (es : List Element) :
    arcs (nodeCalls names ++ es.map (Element.call env ns)) = es.map (Element.arc ns) :=
  filterMap_calls Call.arc? _ (fun _ => rfl) (fun _ => rfl) names es

theorem nodeNames_calls (names : List Str) (es : List Element) :
    Tables.nodeNames (nodeCalls names ++ es.map (Element.call env ns)) = names.map cstr := by
  have hedges : (es.map (Element.call env ns)).filterMap Call.nodeName? = [] := by
    simp [Element.call, List.filterMap_eq_nil_iff, Call.nodeName?]
  rw [Tables.nodeNames, List.filterMap_append, hedges, List.append_nil]
  exact nodeNames_nodeCalls names

/-- The arc and the attributes of each edge, in the order of the elements. -/
theorem edges_of_links {g : GraphRec}
    (h : g.links = es.map (fun e => (e.arc ns, edgeAttr e.nrProduce e.nrConsume e.nrThreshold))) :
    g.nrEdges = es.length ∧ ∀ j e, es[j]? = some e → (g.edges j).arc = e.arc ns ∧
      (g.edges j).attr = edgeAttr e.nrProduce e.nrConsume e.nrThreshold := by
  have hlen : g.nrEdges = es.length := by
    have hcongr := congrArg List.length h
    simpa [GraphRec.links] using hcongr
  refine ⟨hlen, fun j e hj => ?_⟩
  have hlt := hlen ▸ (List.getElem?_eq_some_iff.mp hj).1
  have hget : g.links[j]? = some ((g.edges j).arc, (g.edges j).attr) := by
    simp [GraphRec.links, hlt]
  rw [h, List.getElem?_map, hj, Option.map_some] at hget
  exact ⟨(Prod.mk.inj (Option.some.inj hget)).1.symm, (Prod.mk.inj (Option.some.inj hget)).2.symm⟩

/-- The numbers of an element that fits become a `size_t` unchanged. -/
theorem toNat_ofInt {v : Nat} (h : v ≤ intMax) : (UInt64.ofInt (v : Int)).toNat = v := by
  unfold intMax at h
  simp only [UInt64.ofInt, UInt64.toNat_ofNat']
  omega

theorem nrProduce_bounds (h : ∀ n ∈ e.numerals, n.value ≤ intMax) :
    1 ≤ e.nrProduce ∧ e.nrProduce ≤ intMax := by
  unfold Element.numerals at h
  unfold Element.nrProduce
  cases hp : e.produce with
  | none => simp [intMax]
  | some n =>
    have hn := h n (by simp [hp])
    exact ⟨n.positive, hn⟩

theorem nrConsume_bounds (h : ∀ n ∈ e.numerals, n.value ≤ intMax) :
    1 ≤ e.nrConsume ∧ e.nrConsume ≤ intMax := by
  unfold Element.numerals Element.consumeNumerals at h
  unfold Element.nrConsume
  cases hc : e.consume with
  | none => simp [intMax]
  | some nt =>
    have hn := h nt.1 (by simp [hc])
    exact ⟨nt.1.positive, hn⟩

theorem nrThreshold_bounds (h : ∀ n ∈ e.numerals, n.value ≤ intMax) :
    1 ≤ e.nrThreshold ∧ e.nrThreshold ≤ intMax := by
  unfold Element.numerals Element.consumeNumerals at h
  unfold Element.nrThreshold
  cases hc : e.consume.bind Prod.snd with
  | none => simp [intMax]
  | some t =>
    obtain ⟨⟨n, o⟩, hnt, ho⟩ := Option.bind_eq_some_iff.mp hc
    have ht := h t (by simp [hnt, show o = some t from ho])
    exact ⟨t.positive, ht⟩

/-- Which attributes of a condition variable edge pass the checks. -/
theorem check_of_cv {a : Attr} (htype : a.type = pgmEdgeCv ||| pgmSignaled)
    (hp : 1 ≤ a.nrProduce.toNat) (hc : 1 ≤ a.nrConsume.toNat)
    (ht : a.nrConsume.toNat ≤ a.nrThreshold.toNat) : a.check = true := by
  have hmq : a.has pgmEdgeMq = false := by
    unfold Attr.has
    rw [htype]
    decide
  have hring : a.has pgmEdgeRing = false := by
    unfold Attr.has
    rw [htype]
    decide
  have hne : a.type ≠ 0#32 := by
    rw [htype]
    decide
  unfold Attr.check
  simp only [hmq, hring, hne, Bool.false_and, Bool.false_eq_true, if_false, Bool.or_eq_true,
    decide_eq_true_eq, UInt64.lt_iff_toNat_lt, UInt64.le_iff_toNat_le, UInt64.toNat_zero]
  rw [if_neg (by omega), if_neg (by omega)]

theorem Element.check (hnum : ∀ n ∈ e.numerals, n.value ≤ intMax)
    (hle : e.nrConsume ≤ e.nrThreshold) :
    (edgeAttr e.nrProduce e.nrConsume e.nrThreshold).check = true := by
  have hp := nrProduce_bounds hnum
  have hc := nrConsume_bounds hnum
  have ht := nrThreshold_bounds hnum
  refine check_of_cv rfl ?_ ?_ ?_
  · exact (toNat_ofInt hp.2).symm ▸ hp.1
  · exact (toNat_ofInt hc.2).symm ▸ hc.1
  · exact (toNat_ofInt hc.2).symm ▸ (toNat_ofInt ht.2).symm ▸ hle

/-! ## Room for the edges -/

/-- A call for a condition variable edge between the first `k` nodes that passes the checks. -/
def Plain (k : Nat) : Call → Prop
  | .node _ => False
  | .edge _ p c x => (0 ≤ p ∧ p < k) ∧ (0 ≤ c ∧ c < k) ∧ x.name.bytes ≠ [] ∧
    x.attr.check = true ∧ x.attr.ops = some .cv

/-- The edges that leave and that enter each node are few enough. -/
def Sparse (as : List Arc) : Prop :=
  ∀ n, as.countP (fun a => a.producer == n) < maxDegree ∧
    as.countP (fun a => a.consumer == n) < maxDegree

theorem step_plain {k : Nat} {a : Call} {as : List Arc} (h : Represents (l.graphs gr.toNat))
    (hready : Ready gr k l) (ha : Plain k a)
    (hE : (l.graphs gr.toNat).nrEdges + 1 < maxEdges)
    (hdeg : Sparse ((l.graphs gr.toNat).arcs ++ (arcs [a] ++ as))) :
    ∃ t, step gr l a = some t ∧ Ready gr k t ∧
      (t.graphs gr.toNat).nrEdges = (l.graphs gr.toNat).nrEdges + 1 := by
  cases a with
  | node name => exact ha.elim
  | edge env p c x =>
    obtain ⟨hp, hc, hname, hcheck, hops⟩ := ha
    have hsmall := hready.small
    rw [← hready.nodes] at hp hc hsmall
    have hpn : p.toNat < (l.graphs gr.toNat).nrNodes := by omega
    have hcn : c.toNat < (l.graphs gr.toNat).nrNodes := by omega
    have hout := (hdeg p.toNat).1
    have hin := (hdeg c.toNat).2
    simp only [List.countP_append, arcs, List.filterMap_cons, Call.arc?, List.filterMap_nil,
      List.countP_singleton, BEq.rfl, if_true, ← h.outs_length hpn, ← h.ins_length hcn] at hout hin
    have hcompletes : Completes (l.graphs gr.toNat) l.pathSet env p c x :=
      ⟨⟨hp.1, by omega⟩, by omega, ⟨hc.1, by omega⟩, by omega, .cv, _, hops, rfl⟩
    rcases addEdge_entered l.pathSet env x (by omega) hp.2 hc.2 with ⟨-, i, g', hadd⟩ | ⟨hno, -⟩
    · have hs := step_edge hready.live hready.master hname hcheck hadd
      exact ⟨_, hs, hready.addEdge hadd, (initEdge_of_step hs).2⟩
    · exact absurd hcompletes hno

theorem run_plain {k : Nat} {calls : List Call} (h : Represents (l.graphs gr.toNat))
    (hready : Ready gr k l) (hcalls : ∀ a ∈ calls, Plain k a)
    (hE : (l.graphs gr.toNat).nrEdges + calls.length < maxEdges)
    (hdeg : Sparse ((l.graphs gr.toNat).arcs ++ arcs calls)) :
    ∃ s, Lts.run (step gr) l calls = some s := by
  induction calls generalizing l with
  | nil => exact ⟨l, rfl⟩
  | cons a calls ih =>
    obtain ⟨ha, hcalls⟩ := List.forall_mem_cons.mp hcalls
    have hsplit : arcs (a :: calls) = arcs [a] ++ arcs calls := by
      rw [arcs, arcs, arcs, ← List.filterMap_append]
      rfl
    rw [hsplit] at hdeg
    rw [List.length_cons] at hE
    obtain ⟨t, hs, ht, hnext⟩ := step_plain h hready ha (by omega) hdeg
    have hone : Lts.run (step gr) l [a] = some t :=
      (Lts.run_cons_eq_some (step gr)).mpr ⟨t, hs, rfl⟩
    rw [← List.append_assoc, ← run_arcs hone] at hdeg
    obtain ⟨s, hr⟩ := ih (step_represents h hs) ht hcalls (by omega) hdeg
    exact ⟨s, (Lts.run_cons_eq_some (step gr)).mpr ⟨t, hs, hr⟩⟩

/-! ## The documented descriptions -/

theorem cstr_bytes_ne_nil {name : Str} : (cstr name).bytes ≠ [] ↔ name ≠ [] ∧ name.head? ≠ some 0 := by
  cases name with
  | nil => simp [cstr]
  | cons b bs => simp [cstr, List.takeWhile_cons]

theorem placed_eq_self {names : List Str} (h : ∀ name ∈ names, (cstr name).bytes ≠ [])
    (hlen : names.length < maxNodes) : placed names = names := by
  unfold placed
  rw [List.filter_eq_self.mpr (fun name hn => decide_eq_true (h name hn)),
    List.take_of_length_le (by omega)]

/-- If every name has a node, then the names are placed as they are. -/
theorem placed_eq_of_subset {names : List Str} (hnd : names.Nodup) (h : names ⊆ placed names) :
    placed names = names := by
  have hsub : (placed names).Sublist names := (List.take_sublist _ _).trans List.filter_sublist
  exact hsub.eq_of_length_le (hnd.subperm h).length_le

theorem handleIn_self {names : List Str} (hnd : names.Nodup) :
    names.map (handleIn gr names) = (List.range names.length).map (fun (i : Nat) => some ⟨gr, i⟩) := by
  refine List.ext_getElem (by simp) (fun i hi hi' => ?_)
  rw [List.length_map] at hi
  simp [handleIn, hnd.idxOf_getElem i hi]

theorem mem_names {hne : es ≠ []} (he : e ∈ es) :
    e.producer.bytes ∈ (Description.edges es hne).names ∧
      e.consumer.bytes ∈ (Description.edges es hne).names := by
  simp only [Description.names, List.mem_insertionSort, List.mem_dedup, List.mem_flatMap]
  exact ⟨⟨e, he, by simp⟩, ⟨e, he, by simp⟩⟩

/-- The loop over the edges decides about the vectors and the library. -/
theorem parse_work {desc : Str} {w : Work}
    (hadd : addNodes gr (nodeNames desc) ⟨l, [], [], []⟩ = some w) :
    (parseGraphDescription lexicalCast env l gr desc).2 =
      (addEdges lexicalCast env (desc.splitOn comma) w).2 := by
  unfold parseGraphDescription
  rw [hadd]
  simp only
  split
  · rename_i w' he
    rw [he]
    unfold checkDag
    split <;> rfl
  · rename_i he
    rw [he]
  · rename_i he
    rw [he]

theorem sound_text (hcast : ReadsNumerals lexicalCast) (hnum : ∀ n ∈ e.numerals, n.value ≤ intMax)
    (hp : e.producer.bytes ∈ ns) (hc : e.consumer.bytes ∈ ns) : Sound lexicalCast ns e.text := by
  refine ⟨?_, fun p c hparts => ?_⟩
  · rcases readElement_spec lexicalCast e.text with ⟨-, x, hx⟩ | ⟨hok, -⟩
    · rw [readElement_text hcast, if_pos hnum] at hx
      cases hx
    · exact hok
  · rw [splitOn_text] at hparts
    obtain ⟨rfl, rfl⟩ : e.left = p ∧ e.right = c := by simpa using hparts
    rw [firstToken_left, firstToken_right]
    exact ⟨hp, hc⟩

theorem tables_of_run (hl : NewGraph l gr) {names : List Str}
    (hr : Lts.run (step gr) l (nodeCalls names ++ es.map (Element.call env names)) = some s) :
    Represents (s.graphs gr.toNat) ∧ Live s gr ∧ (s.graphs gr.toNat).nrNodes = names.length ∧
      (∀ i name, names[i]? = some name → ((s.graphs gr.toNat).nodes i).name = (cstr name).stored) ∧
      (s.graphs gr.toNat).links =
        es.map (fun e => (e.arc names, edgeAttr e.nrProduce e.nrConsume e.nrThreshold)) := by
  obtain ⟨hopen, hN, -⟩ := run_graph hl hr
  have hlinks := run_links hr
  rw [hl.fresh, links_calls] at hlinks
  rw [nodeNames_calls, List.length_map] at hN
  refine ⟨hopen.table, hopen.live, hN, fun i name hi => hopen.holds.node i (cstr name) ?_, hlinks⟩
  rw [nodeNames_calls, List.getElem?_map, hi, Option.map_some]

theorem countP_producer (es : List Element) (ns : List Str) (n : Nat) :
    (es.map (Element.arc ns)).countP (fun a => a.producer == n) =
      es.countP (fun e => ns.idxOf e.producer.bytes == n) := List.countP_map

theorem countP_consumer (es : List Element) (ns : List Str) (n : Nat) :
    (es.map (Element.arc ns)).countP (fun a => a.consumer == n) =
      es.countP (fun e => ns.idxOf e.consumer.bytes == n) := List.countP_map

/-- The elements that a node is an end of are those that have its name there. -/
theorem countP_idxOf {f : Element → Str} (hf : ∀ e ∈ es, f e ∈ ns) (n : Nat) :
    ∃ name, es.countP (fun e => ns.idxOf (f e) == n) ≤ es.countP (fun e => f e = name) := by
  refine ⟨(ns[n]?).getD [], List.countP_mono_left (fun e he hn => ?_)⟩
  rw [beq_iff_eq] at hn
  rw [← hn, List.getElem?_idxOf (hf e he)]
  simp

theorem countP_name {f : Element → Str} (hf : ∀ e ∈ es, f e ∈ ns) (name : Str) :
    es.countP (fun e => f e = name) = 0 ∨ name ∈ ns ∧
      es.countP (fun e => f e = name) ≤ es.countP (fun e => ns.idxOf (f e) == ns.idxOf name) := by
  by_cases hname : name ∈ ns
  · refine Or.inr ⟨hname, List.countP_mono_left (fun e _ hn => ?_)⟩
    rw [of_decide_eq_true hn]
    exact beq_self_eq_true _
  · refine Or.inl (List.countP_eq_zero.mpr (fun e he hn => hname ?_))
    exact of_decide_eq_true hn ▸ hf e he

/-- The state in which the loop over the edges is entered, for a list of edges. -/
theorem nodes_of_edges (hl : NewGraph l gr) (hm : l.isGraphMaster = true) (hne : es ≠ []) :
    ∃ w, addNodes gr (nodeNames (Description.edges es hne).text) ⟨l, [], [], []⟩ = some w ∧
      Wired gr (Description.edges es hne).names (placed (Description.edges es hne).names) w ∧
      Lts.run (step gr) l (nodeCalls (placed (Description.edges es hne).names)) = some w.lib ∧
      w.nodes = (Description.edges es hne).names.map
        (handleIn gr (placed (Description.edges es hne).names)) ∧ w.edges = [] := by
  have hnd := nodeNames_nodup (Description.edges es hne).text
  rw [nodeNames_text hne] at hnd ⊢
  exact addNodes_wired hl hm hnd

theorem seen_of_edges (hne : es ≠ []) : ∀ eStr ∈ es.map Element.text, ∀ p c,
    eStr.splitOn colon = [p, c] → firstToken p ∈ (Description.edges es hne).names ∧
      firstToken c ∈ (Description.edges es hne).names := by
  have hseen := names_seen (Description.edges es hne).text
  rw [nodeNames_text hne] at hseen
  exact splitOn_texts hne ▸ hseen

theorem names_nodup (hne : es ≠ []) : (Description.edges es hne).names.Nodup := by
  rw [← nodeNames_text hne]
  exact nodeNames_nodup _

theorem names_ne_nil {hne : es ≠ []} {name : Str} (h : name ∈ (Description.edges es hne).names) :
    name ≠ [] := by
  simp only [Description.names, List.mem_insertionSort, List.mem_dedup, List.mem_flatMap,
    List.mem_cons, List.not_mem_nil, or_false] at h
  obtain ⟨e, -, rfl | rfl⟩ := h
  · exact e.producer.nonempty
  · exact e.consumer.nonempty

/-- The calls for elements that fit are all plain, and the graph stays sparse. -/
theorem Fits.plain {names : List Str} (hfits : Fits es names) (env : Env)
    (hmem : ∀ e ∈ es, e.producer.bytes ∈ names ∧ e.consumer.bytes ∈ names) :
    (∀ a ∈ es.map (Element.call env names), Plain names.length a) ∧
      Sparse (es.map (Element.arc names)) := by
  constructor
  · intro a ha
    obtain ⟨e, he, rfl⟩ := List.mem_map.mp ha
    have hp := List.idxOf_lt_length_of_mem (hmem e he).1
    have hc := List.idxOf_lt_length_of_mem (hmem e he).2
    refine ⟨⟨by omega, by omega⟩, ⟨by omega, by omega⟩, ?_,
      e.check (hfits.numbers e he) (hfits.amounts e he), ops_of_cv rfl⟩
    simp [edgeArgs, makeEdgeName, cstr]
  · intro n
    rw [countP_producer, countP_consumer]
    obtain ⟨p, hp⟩ := countP_idxOf (fun e he => (hmem e he).1) n
    obtain ⟨c, hc⟩ := countP_idxOf (fun e he => (hmem e he).2) n
    exact ⟨hp.trans_lt (hfits.degree p).1, hc.trans_lt (hfits.degree c).2⟩

/-- In tables that agree, no name is at the same end of too many elements. -/
theorem degree_of_table {g : GraphRec} {names : List Str} (h : Represents g)
    (hN : g.nrNodes = names.length) (harcs : g.arcs = es.map (Element.arc names))
    (hmem : ∀ e ∈ es, e.producer.bytes ∈ names ∧ e.consumer.bytes ∈ names) (name : Str) :
    es.countP (fun e => e.producer.bytes = name) < maxDegree ∧
      es.countP (fun e => e.consumer.bytes = name) < maxDegree := by
  constructor
  · rcases countP_name (fun e he => (hmem e he).1) name with hzero | ⟨hname, hle⟩
    · rw [hzero]
      decide
    · have hlt := hN ▸ List.idxOf_lt_length_of_mem hname
      have hdeg := (h.degree _ hlt).2
      rw [h.outs_length hlt, harcs, countP_producer] at hdeg
      exact hle.trans_lt hdeg
  · rcases countP_name (fun e he => (hmem e he).2) name with hzero | ⟨hname, hle⟩
    · rw [hzero]
      decide
    · have hlt := hN ▸ List.idxOf_lt_length_of_mem hname
      have hdeg := (h.degree _ hlt).1
      rw [h.ins_length hlt, harcs, countP_consumer] at hdeg
      exact hle.trans_lt hdeg

/-- For a description that fits all calls succeed, and the parser comes to the check at the end. -/
theorem parse_of_fits (hcast : ReadsNumerals lexicalCast) (hl : NewGraph l gr)
    (hm : l.isGraphMaster = true) (env : Env) (hne : es ≠ [])
    (hfits : Fits es (Description.edges es hne).names) : ∃ w : Work,
      Lts.run (step gr) l (nodeCalls (Description.edges es hne).names ++
        es.map (Element.call env (Description.edges es hne).names)) = some w.lib ∧
      parseGraphDescription lexicalCast env l gr (Description.edges es hne).text = checkDag gr w ∧
      w.nodes = (List.range (Description.edges es hne).names.length).map
        (fun (i : Nat) => some ⟨gr, i⟩) ∧
      w.edges = (List.range es.length).map (fun (j : Nat) => some ⟨gr, j⟩) := by
  have hmem : ∀ e ∈ es, e.producer.bytes ∈ (Description.edges es hne).names ∧
      e.consumer.bytes ∈ (Description.edges es hne).names := fun e he => mem_names he
  have hplaced : placed (Description.edges es hne).names = (Description.edges es hne).names :=
    placed_eq_self (fun name hn => cstr_bytes_ne_nil.mpr ⟨names_ne_nil hn, hfits.named name hn⟩)
      hfits.nodes
  obtain ⟨w, hadd, hw, hrun, hnodes, hedges⟩ := nodes_of_edges hl hm hne
  rw [hplaced] at hw hrun hnodes
  obtain ⟨hopen, -, harcs⟩ := run_graph hl hrun
  have hnone : arcs (nodeCalls (Description.edges es hne).names) = [] := by
    simp [arcs, nodeCalls, Call.arc?]
  rw [hnone] at harcs
  have hzero : (w.lib.graphs gr.toNat).nrEdges = 0 := by
    simpa [GraphRec.arcs] using harcs
  have hnew : arcs (es.map (Element.call env (Description.edges es hne).names)) = _ :=
    arcs_calls [] es
  obtain ⟨hplain, hsparse⟩ := hfits.plain env hmem
  obtain ⟨s, hs⟩ := run_plain hopen.table hw.ready hplain
    (by rw [hzero, List.length_map, Nat.zero_add]; exact hfits.edges)
    (by rw [harcs, List.nil_append, hnew]; exact hsparse)
  -- the loop makes these calls
  have hloop := addEdges_of_run hw (seen_of_edges hne)
    (List.forall_mem_map.mpr fun e he =>
      sound_text hcast (hfits.numbers e he) (hmem e he).1 (hmem e he).2)
    (List.forall_mem_map.mpr fun e he => by
      rw [edgeCall?_text hcast, if_pos (hfits.numbers e he), Option.isSome_some])
    ((edgeCalls_texts hcast env _ hfits.numbers).symm ▸ hs)
  have hsplit : (Description.edges es hne).text.splitOn comma = es.map Element.text :=
    splitOn_texts hne
  rw [hedges, hzero, List.nil_append, List.length_map, ← List.range_eq_range'] at hloop
  refine ⟨⟨s, w.nodeMap, w.nodes, (List.range es.length).map (fun (j : Nat) => some ⟨gr, j⟩)⟩,
    Lts.run_append (step gr) hrun hs, ?_, hnodes.trans (handleIn_self (names_nodup hne)), rfl⟩
  simp only [parseGraphDescription, hadd, hsplit, hloop]

theorem creates_of_fits (hcast : ReadsNumerals lexicalCast) (hl : NewGraph l gr)
    (hm : l.isGraphMaster = true) (env : Env) (hne : es ≠ [])
    (hfits : Fits es (Description.edges es hne).names) :
    Creates gr (.edges es hne)
      (parseGraphDescription lexicalCast env l gr (Description.edges es hne).text) := by
  obtain ⟨w, hrun, hparse, hnodes, hedges⟩ := parse_of_fits hcast hl hm env hne hfits
  obtain ⟨htable, hlive, hN, hnode, hlinks⟩ := tables_of_run hl hrun
  obtain ⟨hE, hedge⟩ := edges_of_links hlinks
  obtain ⟨b, -, hb⟩ := pgmIsDag_search htable.follows hlive true
  rw [hparse, checkDag, hb]
  refine ⟨by cases b <;> simp, hnodes, hedges, hN, hE, hnode, fun j e hj => ?_⟩
  have he : e ∈ es := List.mem_of_getElem? hj
  have hmem : e.producer.bytes ∈ (Description.edges es hne).names ∧
      e.consumer.bytes ∈ (Description.edges es hne).names := mem_names he
  obtain ⟨harc, hattr⟩ := hedge j e hj
  have hp : ((w.lib.graphs gr.toNat).edges j).producer = _ := congrArg Arc.producer harc
  have hc : ((w.lib.graphs gr.toNat).edges j).consumer = _ := congrArg Arc.consumer harc
  have hnum := hfits.numbers e he
  simp only [hp, hc, hattr, Element.arc, List.getElem?_idxOf hmem.1, List.getElem?_idxOf hmem.2,
    edgeAttr, toNat_ofInt (nrProduce_bounds hnum).2,
    toNat_ofInt (nrConsume_bounds hnum).2, toNat_ofInt (nrThreshold_bounds hnum).2, and_self]

theorem fits_of_creates (hcast : ReadsNumerals lexicalCast) (hl : NewGraph l gr)
    (hm : l.isGraphMaster = true) (env : Env) (hne : es ≠ [])
    (hcreates : Creates gr (.edges es hne)
      (parseGraphDescription lexicalCast env l gr (Description.edges es hne).text)) :
    Fits es (Description.edges es hne).names := by
  have hmem : ∀ e ∈ es, e.producer.bytes ∈ (Description.edges es hne).names ∧
      e.consumer.bytes ∈ (Description.edges es hne).names := fun e he => mem_names he
  obtain ⟨w, hadd, hw, hrun, hnodes, hedges⟩ := nodes_of_edges hl hm hne
  have hsplit : (Description.edges es hne).text.splitOn comma = es.map Element.text :=
    splitOn_texts hne
  obtain ⟨hkeep, added, hadded, -, hall⟩ := addEdges_vectors lexicalCast env hw (seen_of_edges hne)
  have hwork : (parseGraphDescription lexicalCast env l gr (Description.edges es hne).text).2 = _ :=
    parse_work hadd
  rw [hsplit] at hwork
  -- every name has a node
  have hplaced : placed (Description.edges es hne).names = (Description.edges es hne).names := by
    refine placed_eq_of_subset (names_nodup hne) (fun name hn => ?_)
    have hvec := hcreates.nodes
    rw [hwork, hkeep, hnodes] at hvec
    have hin := List.mem_map_of_mem (f := handleIn gr (placed (Description.edges es hne).names)) hn
    rw [hvec] at hin
    obtain ⟨i, -, hi⟩ := List.mem_map.mp hin
    by_contra hnot
    rw [handleIn, if_neg hnot] at hi
    cases hi
  -- and every element an edge
  have hvec := hcreates.edges
  rw [hwork, hadded, hedges, List.nil_append] at hvec
  obtain ⟨hcalls, hrun'⟩ := hall (by simp [hvec, Description.elements]) (by simp [hvec])
  have hnum : ∀ e ∈ es, ∀ n ∈ e.numerals, n.value ≤ intMax := by
    intro e he
    by_contra hbig
    have hcall := hcalls e.text (List.mem_map_of_mem he)
    rw [edgeCall?_text hcast, if_neg hbig] at hcall
    cases hcall
  rw [edgeCalls_texts hcast env _ hnum, hplaced] at hrun'
  rw [hplaced] at hrun
  obtain ⟨htable, -, hN, -, hlinks⟩ := tables_of_run hl (Lts.run_append (step gr) hrun hrun')
  obtain ⟨hE, hedge⟩ := edges_of_links hlinks
  refine ⟨hnum, fun e he => ?_, fun name hn => ?_, hN ▸ htable.nodes, hE ▸ htable.edges,
    fun name => ?_⟩
  · obtain ⟨j, hj⟩ := List.mem_iff_getElem?.mp he
    have hle := (htable.attrs j (hE ▸ (List.getElem?_eq_some_iff.mp hj).1)).1
    rw [(hedge j e hj).2, UInt64.le_iff_toNat_le] at hle
    simpa only [edgeAttr, toNat_ofInt (nrConsume_bounds (hnum e he)).2,
      toNat_ofInt (nrThreshold_bounds (hnum e he)).2] using hle
  · rw [← hplaced] at hn
    have hkept := (List.mem_filter.mp (List.mem_of_mem_take hn)).2
    exact (cstr_bytes_ne_nil.mp (of_decide_eq_true hkept)).2
  · refine degree_of_table htable hN ?_ hmem name
    rw [GraphRec.arcs_eq, hlinks, List.map_map]
    rfl

/-- A name without a node is left in the vector: the empty one, behind the colon of the single-node
form. -/
theorem single_not_creates (lexicalCast : Str → Option Int) (hl : NewGraph l gr)
    (hm : l.isGraphMaster = true) (env : Env) (name : Name) :
    ¬ Creates gr (.single name)
      (parseGraphDescription lexicalCast env l gr (Description.single name).text) := by
  intro hcreates
  obtain ⟨w, hadd, hw, -, hnodes, -⟩ :=
    addNodes_wired hl hm (nodeNames_nodup (Description.single name).text)
  -- behind the colon there is nothing
  have hempty : [] ∈ nodeNames (Description.single name).text := by
    have hcomma : comma ∉ (Description.single name).text := by
      simpa [Description.text, comma, colon] using fun h => (name.plain comma h).1 rfl
    have hcolon : (Description.single name).text.splitOn colon = [name.bytes, []] := by
      have hjoin : ([colon].intercalate [name.bytes, []]).splitOn colon = [name.bytes, []] :=
        List.splitOn_intercalate colon
          (by simpa using fun h => (name.plain colon h).2.1 rfl) (by simp)
      simpa [List.intercalate, Description.text] using hjoin
    refine mem_nodeNames.mpr ⟨(Description.single name).text, ?_, [], ?_, rfl⟩
    · simp [Split.splitOn_of_notMem hcomma]
    · simp [hcolon]
  have hvec := hcreates.nodes
  rw [parse_work hadd, (addEdges_vectors lexicalCast env hw (names_seen _)).1, hnodes] at hvec
  have hin := List.mem_map_of_mem
    (f := handleIn gr (placed (nodeNames (Description.single name).text))) hempty
  rw [hvec] at hin
  obtain ⟨i, -, hi⟩ := List.mem_map.mp hin
  have hnot : [] ∉ placed (nodeNames (Description.single name).text) := fun h => by
    have hkept := (List.mem_filter.mp (List.mem_of_mem_take h)).2
    exact of_decide_eq_true hkept rfl
  rw [handleIn, if_neg hnot] at hi
  cases hi

end

/-- **What the parser implements.** On a new graph that the caller owns, and for every behaviour of
`boost::lexical_cast` that reads positive integers as documented: a description of the documented
form creates exactly its nodes and edges if and only if it is a list of edges that fits; and a
malformed string is answered by an exception if and only if its first element that is not sound
throws, or all are sound and the search of `pgm_is_dag` finds a cycle in the edges that they draw. -/
theorem parse_implements_iff {lexicalCast : Str → Option Int} {l : Lib} {gr : Int}
    (hcast : ReadsNumerals lexicalCast) (hl : NewGraph l gr) (hm : l.isGraphMaster = true)
    (env : Env) :
    (∀ d : Description,
      Creates gr d (parseGraphDescription lexicalCast env l gr d.text) ↔ d.Fits) ∧
    ∀ desc, Malformed desc →
      ((∃ e, (parseGraphDescription lexicalCast env l gr desc).1 = .threw e) ↔
        Stops lexicalCast (placed (nodeNames desc)) (desc.splitOn comma) ∨
        (∀ eStr ∈ desc.splitOn comma, Sound lexicalCast (placed (nodeNames desc)) eStr) ∧
          (sketch lexicalCast (placed (nodeNames desc)) (desc.splitOn comma)).Circular
            (placed (nodeNames desc))) := by
  refine ⟨fun d => ?_, fun desc _ => parse_threw_iff lexicalCast env hl hm desc⟩
  cases d with
  | edges es hne => exact ⟨fits_of_creates hcast hl hm env hne, creates_of_fits hcast hl hm env hne⟩
  | single name => exact iff_of_false (single_not_creates lexicalCast hl hm env name) not_false

def lexicalCastInt (s : Str) : Option Int :=
  if s ≠ [] ∧ s.all (fun b => 48 ≤ b && b ≤ 57) = true ∧ decimal s ≤ intMax then some (decimal s)
  else none

theorem lexicalCastInt_reads : ReadsNumerals lexicalCastInt := by
  intro n
  have hne : n.digits ≠ [] := by
    intro h
    have hpos := n.positive
    simp [h, decimal] at hpos
  unfold lexicalCastInt
  by_cases hv : n.value ≤ intMax
  · have hdigits : n.digits.all (fun b => 48 ≤ b && b ≤ 57) = true := by
      simpa using n.isDigit
    rw [if_pos hv, if_pos ⟨hne, hdigits, hv⟩]
    rfl
  · rw [if_neg hv, if_neg (fun h => hv h.2.2)]

def plainA : Name := ⟨[97], by decide, by simp [comma, colon, dot]⟩
def plainB : Name := ⟨[98], by decide, by simp [comma, colon, dot]⟩

def pair : Description := .edges [⟨plainA, none, plainB, none, by rintro _ _ ⟨⟩⟩] (by simp)

theorem parse_implements_iff_pair :
    Creates 0 pair (parseGraphDescription lexicalCastInt quietEnv newLib 0 pair.text) ∧
      ∃ e, (parseGraphDescription lexicalCastInt quietEnv newLib 0 [97, 58, 98, 58, 99]).1 =
        .threw e := by
  obtain ⟨hcreates, hthrows⟩ :=
    parse_implements_iff lexicalCastInt_reads newLib_newGraph rfl quietEnv
  refine ⟨(hcreates pair).mpr ?_, (hthrows _ ?_).mpr (Or.inl ?_)⟩
  · refine ⟨by simp [Element.numerals, Element.consumeNumerals], by decide, by decide +kernel,
      by decide +kernel, by decide, fun name => ⟨?_, ?_⟩⟩
    · exact List.countP_le_length.trans_lt (by decide)
    · exact List.countP_le_length.trans_lt (by decide)
  · exact ⟨[97, 58, 98, 58, 99], by decide +kernel, Or.inl (by decide +kernel)⟩
  · exact ⟨[], [97, 58, 98, 58, 99], [], by decide +kernel, by simp, Or.inl (by decide +kernel)⟩

/-- `a:b.1.1.1`, with a field too many, and the single-node form `a:`. -/
theorem four_fields_accepted :
    Malformed [97, 58, 98, 46, 49, 46, 49, 46, 49] ∧
    (parseGraphDescription lexicalCastInt quietEnv newLib 0
      [97, 58, 98, 46, 49, 46, 49, 46, 49]).1 = .returned ∧
    ¬ Creates 0 (.single plainA)
      (parseGraphDescription lexicalCastInt quietEnv newLib 0 (Description.single plainA).text) := by
  refine ⟨⟨[97, 58, 98, 46, 49, 46, 49, 46, 49], by decide +kernel,
    Or.inr ⟨[97], [98, 46, 49, 46, 49, 46, 49], by decide +kernel, Or.inr (by decide +kernel)⟩⟩,
    by decide +kernel, single_not_creates lexicalCastInt newLib_newGraph rfl quietEnv plainA⟩

end Pgm.Tables.Parse
