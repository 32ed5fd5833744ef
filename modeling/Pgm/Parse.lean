import Mathlib.Data.List.Dedup
import Mathlib.Data.List.Sort
import Pgm.Dag
import Pgm.Handles
import Pgm.Lib.Split

/-!
# The description of a graph

`parse_graph_description` of pgmrt goes over the description twice: it cuts it at commas and colons
for the names of the nodes, and at commas and then at colons for the edges. `CheckError` prints and
goes on, so a handle may be used that no successful call has set.

* `mem_nodeNames`: the two passes agree on the names, for every string;
* `addNodes_eq`: the names that get a node;
* `addEdges_of_run`, `addEdges_vectors`: a handle for every element means that all calls have
  succeeded.
-/

namespace Pgm.Tables.Parse

/-! ## `parse_graph_description` -/

abbrev Str : Type := List UInt8

def comma : UInt8 := 44
def colon : UInt8 := 58
def dot : UInt8 := 46

/-- `c_str()`, up to the first NUL. -/
def cstr (s : Str) : CStr where
  bytes := s.takeWhile (fun b => b ≠ 0)
  nul_free h := by simpa using List.all_eq_true.mp List.all_takeWhile 0 h

def makeEdgeName (a b : Str) : Str := [101, 100, 103, 101, 95] ++ a ++ [95] ++ b

def firstToken (s : Str) : Str := (s.splitOn dot).headD []

/-- `nodeNames`, a set of strings and so in their order and without repetitions. -/
def nodeNames (desc : Str) : List Str :=
  ((desc.splitOnP (fun b => b == comma || b == colon)).map firstToken).dedup.insertionSort (· ≤ ·)

/-- What is thrown: a `runtime_error` with a text and the part of the description that it quotes, or
`bad_lexical_cast`. -/
inductive Exn where
  | runtimeError (text : String) (quoted : Str)
  | badLexicalCast
  deriving DecidableEq

/-- What the loop over the edges makes of an element. -/
inductive Reading where
  | skip
  | refuse (e : Exn)
  | edge (producer consumer : Str) (nrProduce nrConsume nrThreshold : Int)
  deriving DecidableEq

section

variable (lexicalCast : Str → Option Int)

def castInt (s : Str) : Except Exn Int :=
  match lexicalCast s with
  | some n => .ok n
  | none => .error .badLexicalCast

/-- The part before the colon: the name and `nr_produce`. -/
def readProduce (s : Str) : Except Exn (Str × Int) :=
  match s.splitOn dot with
  | [] | [_] => .ok (s, 1)
  | [name, n] => do
    let nrProduce ← castInt lexicalCast n
    pure (name, nrProduce)
  | _ :: _ :: _ :: _ => .error (.runtimeError "Invalid produce description: " s)

/-- The part behind the colon: the name, `nr_consume` and `nr_threshold`. A third number is not
looked at, nor is the second one then. -/
def readConsume (s : Str) : Except Exn (Str × Int × Int) :=
  match s.splitOn dot with
  | [] | [_] => .ok (s, 1, 1)
  | [name, n] | [name, n, _, _] => do
    let nrConsume ← castInt lexicalCast n
    pure (name, nrConsume, 1)
  | [name, n, t] => do
    let nrConsume ← castInt lexicalCast n
    let nrThreshold ← castInt lexicalCast t
    pure (name, nrConsume, nrThreshold)
  | _ :: _ :: _ :: _ :: _ :: _ => .error (.runtimeError "Invalid consume description: " s)

/-- One element of the description, cut at its colons. -/
def readElement (eStr : Str) : Reading :=
  match eStr.splitOn colon with
  | [] | [_] => .skip
  | [p, c] =>
    match readProduce lexicalCast p, readConsume lexicalCast c with
    | .error e, _ => .refuse e
    | .ok _, .error e => .refuse e
    | .ok (producer, nrProduce), .ok (consumer, nrConsume, nrThreshold) =>
      .edge producer consumer nrProduce nrConsume nrThreshold
  | _ :: _ :: _ :: _ => .refuse (.runtimeError "Invalid edge description: " eStr)

/-- The library, `nodeMap`, `nodes` and `edges`. A handle is `none` if the call that should have set
it has failed. -/
structure Work where
  lib : Lib
  nodeMap : List (Str × Option NodeHandle)
  nodes : List (Option NodeHandle)
  edges : List (Option EdgeHandle)

/-- How the function ends, or how a part of it has gone on to the next: it is undefined after an
access outside of the tables or the use of a handle that was never set. -/
inductive Ending where
  | returned
  | threw (e : Exn)
  | undefined
  deriving DecidableEq

def addNode (graph : Int) (w : Work) (name : Str) : Option Work :=
  match initNode w.lib true graph (cstr name) with
  | .error _ => none
  | .ok (n, l) =>
    some { w with lib := l, nodeMap := w.nodeMap ++ [(name, n)], nodes := w.nodes ++ [n] }

def addNodes (graph : Int) : List Str → Work → Option Work
  | [], w => some w
  | name :: names, w => (addNode graph w name).bind (addNodes graph names)

/-- `nodeMap[name]`, which is a handle of zeros if the name is not there. -/
def Work.handle (w : Work) (name : Str) : Option NodeHandle :=
  (w.nodeMap.lookup name).getD (some ⟨0, 0⟩)

/-- `cv_attr`, where an `int` becomes a `size_t`. -/
def edgeAttr (nrProduce nrConsume nrThreshold : Int) : Attr :=
  ⟨.ofInt nrProduce, .ofInt nrConsume, .ofInt nrThreshold, pgmEdgeCv ||| pgmSignaled, 0⟩

def edgeArgs (producer consumer : Str) (nrProduce nrConsume nrThreshold : Int) : EdgeArgs :=
  ⟨cstr (makeEdgeName producer consumer), edgeAttr nrProduce nrConsume nrThreshold, none⟩

def addEdge (env : Env) (w : Work) (eStr : Str) : Ending × Work :=
  match readElement lexicalCast eStr with
  | .skip => (.returned, w)
  | .refuse e => (.threw e, w)
  | .edge producer consumer nrProduce nrConsume nrThreshold =>
    match w.handle producer, w.handle consumer with
    | some p, some c =>
      match initEdge w.lib env true p c
        (edgeArgs producer consumer nrProduce nrConsume nrThreshold) with
      | .error _ => (.undefined, w)
      | .ok (e, l) => (.returned, { w with lib := l, edges := w.edges ++ [e] })
    | none, _ => (.undefined, w)
    | some _, none => (.undefined, w)

def addEdges (env : Env) : List Str → Work → Ending × Work
  | [], w => (.returned, w)
  | eStr :: es, w =>
    match addEdge lexicalCast env w eStr with
    | (.returned, w') => addEdges env es w'
    | (.threw e, w') => (.threw e, w')
    | (.undefined, w') => (.undefined, w')

def checkDag (graph : Int) (w : Work) : Ending × Work :=
  match pgmIsDag w.lib graph true with
  | .error _ => (.undefined, w)
  | .ok isDag => (if isDag = 0 then .threw (.runtimeError "graph is not acyclic" []) else .returned, w)

/-- `parse_graph_description`, for empty vectors. -/
def parseGraphDescription (env : Env) (l : Lib) (graph : Int) (desc : Str) : Ending × Work :=
  match addNodes graph (nodeNames desc) ⟨l, [], [], []⟩ with
  | none => (.undefined, ⟨l, [], [], []⟩)
  | some w =>
    match addEdges lexicalCast env (desc.splitOn comma) w with
    | (.returned, w') => checkDag graph w'
    | (.threw e, w') => (.threw e, w')
    | (.undefined, w') => (.undefined, w')

/-! ## The elements that throw -/

/-- The part before the colon has too many fields, or no number in its second. -/
def BadProduce (s : Str) : Prop :=
  2 < (s.splitOn dot).length ∨ ∃ n ∈ (s.splitOn dot)[1]?, lexicalCast n = none

/-- The part behind the colon has too many fields for the test that the code makes, or no number in a
field that it reads. -/
def BadConsume (s : Str) : Prop :=
  4 < (s.splitOn dot).length ∨ (∃ n ∈ (s.splitOn dot)[1]?, lexicalCast n = none) ∨
    (s.splitOn dot).length = 3 ∧ ∃ n ∈ (s.splitOn dot)[2]?, lexicalCast n = none

def Refused (eStr : Str) : Prop :=
  2 < (eStr.splitOn colon).length ∨ ∃ p c, eStr.splitOn colon = [p, c] ∧
    (BadProduce lexicalCast p ∨ BadConsume lexicalCast c)

/-- The loop goes on to the next element: this one has no colon, or it can be read and both of its
names are among `ns`. -/
def Sound (ns : List Str) (eStr : Str) : Prop :=
  ¬ Refused lexicalCast eStr ∧ ∀ p c, eStr.splitOn colon = [p, c] →
    firstToken p ∈ ns ∧ firstToken c ∈ ns

end

section

variable {lexicalCast : Str → Option Int} {desc eStr s name : Str}

theorem firstToken_of_splitOn {x : Str} {xs : List Str} (h : s.splitOn dot = x :: xs) :
    firstToken s = x := by
  simp [firstToken, h]

/-- A part without dots is its own first field. -/
theorem firstToken_of_single {x : Str} (h : s.splitOn dot = [x]) : firstToken s = s := by
  rw [firstToken_of_splitOn h, Split.eq_of_splitOn_singleton h]

theorem readProduce_spec (lexicalCast : Str → Option Int) (s : Str) :
    BadProduce lexicalCast s ∧ (∃ e, readProduce lexicalCast s = .error e) ∨
    ¬ BadProduce lexicalCast s ∧ ∃ n, readProduce lexicalCast s = .ok (firstToken s, n) := by
  unfold readProduce BadProduce
  split
  · rename_i h
    exact absurd h (List.splitOnP_ne_nil _ _)
  · rename_i x h
    rw [firstToken_of_single h]
    simp [h]
  · rename_i x n h
    rw [firstToken_of_splitOn h]
    cases hn : lexicalCast n <;> simp [h, castInt, hn, bind, Except.bind, pure, Except.pure]
  · rename_i h
    simp [h]

theorem readConsume_spec (lexicalCast : Str → Option Int) (s : Str) :
    BadConsume lexicalCast s ∧ (∃ e, readConsume lexicalCast s = .error e) ∨
    ¬ BadConsume lexicalCast s ∧ ∃ n t, readConsume lexicalCast s = .ok (firstToken s, n, t) := by
  unfold readConsume BadConsume
  split
  · rename_i h
    exact absurd h (List.splitOnP_ne_nil _ _)
  · rename_i x h
    rw [firstToken_of_single h]
    simp [h]
  · rename_i x n h
    rw [firstToken_of_splitOn h]
    cases hn : lexicalCast n <;> simp [h, castInt, hn, bind, Except.bind, pure, Except.pure]
  · rename_i x n _ _ h
    rw [firstToken_of_splitOn h]
    cases hn : lexicalCast n <;> simp [h, castInt, hn, bind, Except.bind, pure, Except.pure]
  · rename_i x n t h
    rw [firstToken_of_splitOn h]
    cases hn : lexicalCast n <;> cases ht : lexicalCast t <;>
      simp [h, castInt, hn, ht, bind, Except.bind, pure, Except.pure]
  · rename_i h
    simp [h]

/-- What the loop makes of an element, told from its fields. -/
theorem readElement_spec (lexicalCast : Str → Option Int) (eStr : Str) :
    Refused lexicalCast eStr ∧ (∃ e, readElement lexicalCast eStr = .refuse e) ∨
    ¬ Refused lexicalCast eStr ∧
      (readElement lexicalCast eStr = .skip ∧ (eStr.splitOn colon).length = 1 ∨
      ∃ p c a b t, eStr.splitOn colon = [p, c] ∧
        readElement lexicalCast eStr = .edge (firstToken p) (firstToken c) a b t) := by
  unfold readElement Refused
  split
  · rename_i h
    exact absurd h (List.splitOnP_ne_nil _ _)
  · rename_i x h
    simp [h]
  · rename_i p c h
    rcases readProduce_spec lexicalCast p with ⟨hbad, e, he⟩ | ⟨hgood, a, ha⟩
    · simp [h, hbad, he]
    · rcases readConsume_spec lexicalCast c with ⟨hbad, e, he⟩ | ⟨hgood', b, t, hb⟩
      · simp [h, hbad, he, ha]
      · simp [h, hgood, hgood', ha, hb]
  · rename_i h
    simp [h]

theorem mem_nodeNames : name ∈ nodeNames desc ↔
    ∃ eStr ∈ desc.splitOn comma, ∃ part ∈ eStr.splitOn colon, firstToken part = name := by
  unfold nodeNames
  rw [List.mem_insertionSort, List.mem_dedup, Split.splitOnP_or]
  simp only [List.mem_map, List.mem_flatMap, List.splitOn]
  constructor
  · rintro ⟨part, ⟨e, he, hpart⟩, rfl⟩
    exact ⟨e, he, part, hpart, rfl⟩
  · rintro ⟨e, he, part, hpart, rfl⟩
    exact ⟨part, ⟨e, he, hpart⟩, rfl⟩

theorem nodeNames_nodup (desc : Str) : (nodeNames desc).Nodup :=
  (List.perm_insertionSort _ _).nodup_iff.mpr (List.nodup_dedup _)

end

/-! ## The nodes -/

/-- The names that get a node: not those that are empty up to the first NUL, and not more than the
table has room for. -/
def placed (names : List Str) : List Str :=
  (names.filter (fun name => (cstr name).bytes ≠ [])).take (maxNodes - 1)

def handleIn (gr : Int) (ns : List Str) (name : Str) : Option NodeHandle :=
  if name ∈ ns then some ⟨gr, ns.idxOf name⟩ else none

def nodeCalls (ns : List Str) : List Call := ns.map (fun name => .node (cstr name))

section

variable {l : Lib} {gr : Int} {names ns : List Str} {name : Str} {w : Work}

theorem placed_concat (names : List Str) (name : Str) : placed (names ++ [name]) =
    if (cstr name).bytes ≠ [] ∧ (placed names).length + 1 ≠ maxNodes then placed names ++ [name]
    else placed names := by
  unfold placed
  rw [List.filter_append, List.take_append, List.length_take]
  generalize names.filter (fun name => (cstr name).bytes ≠ []) = kept
  by_cases hname : (cstr name).bytes = []
  · simp [hname]
  · have hlast : [name].filter (fun name => (cstr name).bytes ≠ []) = [name] := by simp [hname]
    rw [hlast]
    unfold maxNodes
    split
    · rename_i h
      rw [List.take_of_length_le (l := [name]) (by rw [List.length_singleton]; omega)]
    · rename_i h
      have hfull : 4096 - 1 ≤ kept.length := by
        by_contra hlt
        exact h ⟨hname, by omega⟩
      rw [Nat.sub_eq_zero_of_le hfull, List.take_zero, List.append_nil]

theorem placed_subset (names : List Str) : placed names ⊆ names :=
  fun _ h => (List.mem_filter.mp (List.mem_of_mem_take h)).1

theorem handleIn_concat {ns : List Str} {other : Str} (hne : other ≠ name) :
    handleIn gr (ns ++ [name]) other = handleIn gr ns other := by
  unfold handleIn
  by_cases hmem : other ∈ ns
  · rw [if_pos hmem, if_pos (List.mem_append_left _ hmem), List.idxOf_append_of_mem hmem]
  · rw [if_neg hmem, if_neg (by simp [hmem, hne])]

theorem handleIn_last {ns : List Str} (hnew : name ∉ ns) :
    handleIn gr (ns ++ [name]) name = some ⟨gr, ns.length⟩ := by
  unfold handleIn
  rw [if_pos (by simp), List.idxOf_append_of_notMem hnew]
  simp

theorem addNodes_append (names more : List Str) (w : Work) :
    addNodes gr (names ++ more) w = (addNodes gr names w).bind (addNodes gr more) := by
  induction names generalizing w with
  | nil => rfl
  | cons name names ih =>
    simp only [List.cons_append, addNodes]
    cases addNode gr w name with
    | none => rfl
    | some w' => exact ih w'

theorem initNode_live (h : Live l gr) (hm : l.isGraphMaster = true) (name : CStr) :
    initNode l true gr name =
      if name.bytes ≠ [] ∧ (l.graphs gr.toNat).nrNodes + 1 ≠ maxNodes then
        .ok (some ⟨gr, (l.graphs gr.toNat).nrNodes⟩,
          l.setGraph gr.toNat ((l.graphs gr.toNat).addNode name).2)
      else .ok (none, l) := by
  unfold initNode
  simp only [h.isValidGraph, hm, strnlen_checks, h.graphAt, Bool.not_true, Bool.false_eq_true,
    if_false]
  by_cases hname : name.bytes = []
  · rw [if_pos hname, if_neg (fun hn => hn.1 hname)]
  · rw [if_neg hname]
    unfold GraphRec.addNode
    by_cases hroom : (l.graphs gr.toNat).nrNodes + 1 = maxNodes
    · rw [if_pos hroom, if_neg (fun hn => hn.2 hroom)]
      simp only [Option.map_none, setGraph_eq_self]
    · rw [if_neg hroom, if_pos ⟨hname, hroom⟩]
      rfl

theorem nodeNames_nodeCalls (ns : List Str) : Tables.nodeNames (nodeCalls ns) = ns.map cstr := by
  unfold Tables.nodeNames nodeCalls
  rw [List.filterMap_map]
  exact congrFun List.filterMap_eq_map' ns

/-- **The nodes.** The loop over the names returns, with a node for each name that is placed. -/
theorem addNodes_eq (hl : NewGraph l gr) (hm : l.isGraphMaster = true) (hnd : names.Nodup) :
    ∃ s, Lts.run (step gr) l (nodeCalls (placed names)) = some s ∧ s.isGraphMaster = true ∧
      addNodes gr names ⟨l, [], [], []⟩ =
        some ⟨s, names.map (fun name => (name, handleIn gr (placed names) name)),
          names.map (handleIn gr (placed names)), []⟩ := by
  induction names using List.reverseRecOn with
  | nil => exact ⟨l, rfl, hm, rfl⟩
  | append_singleton names name ih =>
    obtain ⟨hnd', -, hnew⟩ := List.nodup_append.mp hnd
    obtain ⟨s, hs, hm', hadd⟩ := ih hnd'
    obtain ⟨hopen, hN, -⟩ := run_graph hl hs
    rw [nodeNames_nodeCalls, List.length_map] at hN
    have hne : ∀ other ∈ names, other ≠ name := fun other ho => hnew other ho name (by simp)
    have hfresh : name ∉ placed names := fun h => hne name (placed_subset names h) rfl
    rw [addNodes_append, hadd, placed_concat]
    simp only [Option.bind_some, addNodes, addNode, initNode_live hopen.live hm', hN]
    split
    · rename_i hroom
      have hstep := step_node hopen.live hm' hroom.1 (hN ▸ hroom.2)
      have hkeep : ∀ other ∈ names, handleIn gr (placed names ++ [name]) other =
          handleIn gr (placed names) other := fun other ho => handleIn_concat (hne other ho)
      have hpairs : names.map (fun other => (other, handleIn gr (placed names ++ [name]) other)) =
          names.map (fun other => (other, handleIn gr (placed names) other)) :=
        List.map_congr_left (fun other ho => by rw [hkeep other ho])
      refine ⟨s.setGraph gr.toNat ((s.graphs gr.toNat).addNode (cstr name)).2, ?_, hm', ?_⟩
      · rw [nodeCalls, List.map_append]
        exact Lts.run_append (step gr) hs ((Lts.run_cons_eq_some (step gr)).mpr ⟨_, hstep, rfl⟩)
      · rw [List.map_append, List.map_append, hpairs, List.map_congr_left hkeep, List.map_singleton,
          List.map_singleton, handleIn_last hfresh]
        rfl
    · refine ⟨s, hs, hm', ?_⟩
      rw [List.map_append, List.map_append, List.map_singleton, List.map_singleton, handleIn,
        if_neg hfresh]
      rfl

end

/-! ## The edges -/

structure Ready (gr : Int) (k : Nat) (l : Lib) : Prop where
  live : Live l gr
  master : l.isGraphMaster = true
  nodes : (l.graphs gr.toNat).nrNodes = k
  small : k < maxNodes

structure Wired (gr : Int) (names ns : List Str) (w : Work) : Prop where
  map : w.nodeMap = names.map (fun name => (name, handleIn gr ns name))
  ready : Ready gr ns.length w.lib

/-- The first element that is not sound is one that throws. -/
def Stops (lexicalCast : Str → Option Int) (ns es : List Str) : Prop :=
  ∃ before eStr after, es = before ++ eStr :: after ∧ (∀ x ∈ before, Sound lexicalCast ns x) ∧
    Refused lexicalCast eStr

def edgeCall? (lexicalCast : Str → Option Int) (env : Env) (ns : List Str) (eStr : Str) :
    Option Call :=
  match readElement lexicalCast eStr with
  | .skip => none
  | .refuse _ => none
  | .edge p c nrProduce nrConsume nrThreshold =>
    some (.edge env (ns.idxOf p) (ns.idxOf c) (edgeArgs p c nrProduce nrConsume nrThreshold))

def edgeCalls (lexicalCast : Str → Option Int) (env : Env) (ns es : List Str) : List Call :=
  es.filterMap (edgeCall? lexicalCast env ns)

def attempt (gr : Int) (l : Lib) (a : Call) : Option Lib := call l (gr, a)

section

variable {lexicalCast : Str → Option Int} {env : Env} {l l' s : Lib} {g g' : GraphRec} {gr : Int}
  {k i j : Nat} {x : EdgeArgs} {names ns es : List Str} {name eStr : Str} {w w' : Work}

theorem addEdge_keeps {pathSet : Bool} {p c : Int} {ret : Option Nat}
    (h : g.addEdge pathSet env p c x = .ok (ret, g')) :
    g'.nrNodes = g.nrNodes ∧ g'.inUse = g.inUse := by
  rcases addEdge_cases h with ⟨-, rfl⟩ | ⟨-, ⟨-, rfl⟩ | ⟨-, -, -, -, hfinish⟩⟩
  · exact ⟨rfl, rfl⟩
  · exact ⟨rfl, rfl⟩
  · have hkeep := (finishEdge_keeps { g with nrEdges := g.nrEdges + 1 } pathSet env g.nrEdges
      p.toNat c.toNat x).2
    rw [hfinish] at hkeep
    exact hkeep

theorem addEdge_returns (g : GraphRec) (pathSet : Bool) (env : Env) (x : EdgeArgs)
    (hi : i < maxNodes) (hj : j < maxNodes) :
    ∃ ret g', g.addEdge pathSet env i j x = .ok (ret, g') := by
  unfold GraphRec.addEdge
  simp only [nodeAt_eq _ ⟨Int.natCast_nonneg i, Int.ofNat_lt.mpr hi⟩,
    nodeAt_eq _ ⟨Int.natCast_nonneg j, Int.ofNat_lt.mpr hj⟩]
  split
  · exact ⟨_, _, rfl⟩
  split
  · exact ⟨_, _, rfl⟩
  split
  · exact ⟨_, _, rfl⟩
  split
  · exact ⟨_, _, rfl⟩
  · exact ⟨_, _, rfl⟩

theorem Ready.addEdge (h : Ready gr k l) {pathSet : Bool} {p c : Int} {ret : Option Nat}
    (hadd : (l.graphs gr.toNat).addEdge pathSet env p c x = .ok (ret, g')) :
    Ready gr k (l.setGraph gr.toNat g') := by
  obtain ⟨hN, huse⟩ := addEdge_keeps hadd
  exact ⟨h.live.setGraph (huse.trans h.live.inUse), h.master, by rw [setGraph_self, hN, h.nodes],
    h.small⟩

theorem Ready.initEdge (h : Ready gr k l) (env : Env) (x : EdgeArgs) (hi : i < k) (hj : j < k) :
    ∃ ret l', initEdge l env true ⟨gr, i⟩ ⟨gr, j⟩ x = .ok (ret, l') ∧ Ready gr k l' := by
  obtain ⟨r, g', hadd⟩ := addEdge_returns (l.graphs gr.toNat) l.pathSet env x
    (hi.trans h.small) (hj.trans h.small)
  unfold Tables.initEdge
  simp only [h.live.isValidGraph, h.live.graphAt, h.master, hadd, ne_eq, not_true_eq_false,
    Bool.not_true, Bool.false_eq_true, if_false]
  split
  · exact ⟨none, l, rfl, h⟩
  split
  · exact ⟨none, l, rfl, h⟩
  · exact ⟨_, _, rfl, h.addEdge hadd⟩

theorem lookup_map_pair {β : Type} (f : Str → β) (hname : name ∈ names) :
    (names.map (fun n => (n, f n))).lookup name = some (f name) := by
  induction names with
  | nil => cases hname
  | cons n names ih =>
    by_cases hn : name = n
    · subst hn
      simp
    · rw [List.map_cons, List.lookup_cons, beq_eq_false_iff_ne.mpr hn]
      exact ih ((List.mem_cons.mp hname).resolve_left hn)

theorem Wired.handle (h : Wired gr names ns w) (hname : name ∈ names) :
    w.handle name = handleIn gr ns name := by
  rw [Work.handle, h.map, lookup_map_pair _ hname, Option.getD_some]

/-- The loop body, for names that both passes have seen. -/
theorem addEdge_spec (lexicalCast : Str → Option Int) (env : Env) (h : Wired gr names ns w)
    (hnames : ∀ p c, eStr.splitOn colon = [p, c] → firstToken p ∈ names ∧ firstToken c ∈ names) :
    Refused lexicalCast eStr ∧ (∃ e, addEdge lexicalCast env w eStr = (.threw e, w)) ∨
    Sound lexicalCast ns eStr ∧ (∃ w', addEdge lexicalCast env w eStr = (.returned, w') ∧
      Wired gr names ns w' ∧
      Lts.run (attempt gr) w.lib (edgeCall? lexicalCast env ns eStr).toList = some w'.lib) ∨
    ¬ Refused lexicalCast eStr ∧ ¬ Sound lexicalCast ns eStr ∧
      addEdge lexicalCast env w eStr = (.undefined, w) := by
  unfold addEdge edgeCall?
  rcases readElement_spec lexicalCast eStr with ⟨href, e, he⟩ |
    ⟨hok, ⟨hskip, hone⟩ | ⟨p, c, a, b, t, hparts, hedge⟩⟩
  · exact Or.inl ⟨href, e, by rw [he]⟩
  · refine Or.inr (Or.inl ⟨⟨hok, fun p c hparts => ?_⟩, w, by rw [hskip], h, by rw [hskip]; rfl⟩)
    rw [hparts] at hone
    cases hone
  · obtain ⟨hp, hc⟩ := hnames p c hparts
    simp only [hedge, h.handle hp, h.handle hc, handleIn]
    by_cases hpn : firstToken p ∈ ns
    · by_cases hcn : firstToken c ∈ ns
      · obtain ⟨ret, l', hinit, hready⟩ := h.ready.initEdge env
          (edgeArgs (firstToken p) (firstToken c) a b t) (List.idxOf_lt_length_of_mem hpn)
          (List.idxOf_lt_length_of_mem hcn)
        rw [if_pos hpn, if_pos hcn]
        simp only [hinit]
        refine Or.inr (Or.inl ⟨⟨hok, fun p' c' hparts' => ?_⟩, _, rfl, ⟨h.map, hready⟩, ?_⟩)
        · obtain ⟨rfl, rfl⟩ : p = p' ∧ c = c' := by simpa using hparts.symm.trans hparts'
          exact ⟨hpn, hcn⟩
        · exact (Lts.run_cons_eq_some (attempt gr)).mpr
            ⟨l', by simp only [attempt, call, hinit], rfl⟩
      · rw [if_pos hpn, if_neg hcn]
        exact Or.inr (Or.inr ⟨hok, fun hs => hcn (hs.2 p c hparts).2, rfl⟩)
    · rw [if_neg hpn]
      exact Or.inr (Or.inr ⟨hok, fun hs => hpn (hs.2 p c hparts).1, rfl⟩)

theorem stops_cons : Stops lexicalCast ns (eStr :: es) ↔
    Refused lexicalCast eStr ∨ Sound lexicalCast ns eStr ∧ Stops lexicalCast ns es := by
  constructor
  · rintro ⟨before, e, after, hes, hbefore, href⟩
    cases before with
    | nil =>
      obtain ⟨rfl, -⟩ := List.cons.inj hes
      exact Or.inl href
    | cons x before =>
      obtain ⟨rfl, rfl⟩ := List.cons.inj hes
      obtain ⟨hx, hbefore⟩ := List.forall_mem_cons.mp hbefore
      exact Or.inr ⟨hx, before, e, after, rfl, hbefore, href⟩
  · rintro (href | ⟨hs, before, e, after, rfl, hbefore, href⟩)
    · exact ⟨[], eStr, es, rfl, by simp, href⟩
    · exact ⟨eStr :: before, e, after, rfl, List.forall_mem_cons.mpr ⟨hs, hbefore⟩, href⟩

/-- How the loop over the edges ends. -/
theorem addEdges_spec (lexicalCast : Str → Option Int) (env : Env) (h : Wired gr names ns w)
    (hnames : ∀ eStr ∈ es, ∀ p c, eStr.splitOn colon = [p, c] →
      firstToken p ∈ names ∧ firstToken c ∈ names) :
    Stops lexicalCast ns es ∧ (∃ e w', addEdges lexicalCast env es w = (.threw e, w')) ∨
    (∀ eStr ∈ es, Sound lexicalCast ns eStr) ∧
      (∃ w', addEdges lexicalCast env es w = (.returned, w') ∧ Wired gr names ns w' ∧
        Lts.run (attempt gr) w.lib (edgeCalls lexicalCast env ns es) = some w'.lib) ∨
    ¬ Stops lexicalCast ns es ∧ (¬ ∀ eStr ∈ es, Sound lexicalCast ns eStr) ∧
      ∃ w', addEdges lexicalCast env es w = (.undefined, w') := by
  induction es generalizing w with
  | nil => exact Or.inr (Or.inl ⟨by simp, w, rfl, h, rfl⟩)
  | cons eStr es ih =>
    obtain ⟨hhead, htail⟩ := List.forall_mem_cons.mp hnames
    simp only [addEdges, stops_cons, List.forall_mem_cons]
    rcases addEdge_spec lexicalCast env h hhead with ⟨href, e, he⟩ | ⟨hs, w', he, hw', hrun⟩ |
      ⟨hok, hns, he⟩
    · rw [he]
      exact Or.inl ⟨Or.inl href, e, w, rfl⟩
    · rw [he]
      have hok := hs.1
      rcases ih hw' htail with ⟨hstop, hthrew⟩ | ⟨hall, w'', he', hw'', hrun'⟩ | ⟨hgo, hbad, hund⟩
      · exact Or.inl ⟨Or.inr ⟨hs, hstop⟩, hthrew⟩
      · refine Or.inr (Or.inl ⟨⟨hs, hall⟩, w'', he', hw'', ?_⟩)
        rw [edgeCalls, List.filterMap_eq_flatMap_toList] at hrun' ⊢
        exact Lts.run_append (attempt gr) hrun hrun'
      · exact Or.inr (Or.inr ⟨by tauto, by tauto, hund⟩)
    · rw [he]
      exact Or.inr (Or.inr ⟨by tauto, by tauto, w, rfl⟩)

/-- The library calls of an element whose names have nodes. -/
theorem addEdge_edge (env : Env) (h : Wired gr names ns w) {p c : Str} {a b t : Int}
    (hread : readElement lexicalCast eStr = .edge p c a b t) (hp : p ∈ names ∧ p ∈ ns)
    (hc : c ∈ names ∧ c ∈ ns) : addEdge lexicalCast env w eStr =
      match initEdge w.lib env true ⟨gr, ns.idxOf p⟩ ⟨gr, ns.idxOf c⟩ (edgeArgs p c a b t) with
      | .error _ => (.undefined, w)
      | .ok (e, l) => (.returned, { w with lib := l, edges := w.edges ++ [e] }) := by
  unfold addEdge
  simp only [hread, h.handle hp.1, h.handle hc.1, handleIn, if_pos hp.2, if_pos hc.2]

/-- A call that succeeds is answered with the next handle. -/
theorem initEdge_of_step {p c : Int} (hs : step gr l (.edge env p c x) = some s) :
    initEdge l env true ⟨gr, p⟩ ⟨gr, c⟩ x = .ok (some ⟨gr, (l.graphs gr.toNat).nrEdges⟩, s) ∧
      (s.graphs gr.toNat).nrEdges = (l.graphs gr.toNat).nrEdges + 1 := by
  simp only [step] at hs
  split at hs
  · rename_i hinit
    obtain rfl := Option.some.inj hs
    obtain ⟨-, -, i, g', hadd, rfl, rfl⟩ := initEdge_some hinit
    obtain ⟨-, -, rfl, hadded⟩ := addEdge_some hadd
    obtain ⟨_, -, -, -, -, -, -, hE, -, -⟩ := hadded.view
    exact ⟨hinit, by rw [setGraph_self, hE]⟩
  · cases hs

theorem edgeCall?_eq_some {a : Call} (h : edgeCall? lexicalCast env ns eStr = some a) :
    ∃ p c np nc nt, eStr.splitOn colon = [p, c] ∧
      readElement lexicalCast eStr = .edge (firstToken p) (firstToken c) np nc nt ∧
      a = .edge env (ns.idxOf (firstToken p)) (ns.idxOf (firstToken c))
        (edgeArgs (firstToken p) (firstToken c) np nc nt) := by
  unfold edgeCall? at h
  rcases readElement_spec lexicalCast eStr with ⟨-, e, he⟩ |
    ⟨-, ⟨he, -⟩ | ⟨p, c, np, nc, nt, hparts, he⟩⟩
  · simp [he] at h
  · simp [he] at h
  · rw [he] at h
    exact ⟨p, c, np, nc, nt, hparts, he, (Option.some.inj h).symm⟩

/-- If the calls succeed, the loop returns with a handle for each. -/
theorem addEdges_of_run (h : Wired gr names ns w)
    (hnames : ∀ eStr ∈ es, ∀ p c, eStr.splitOn colon = [p, c] →
      firstToken p ∈ names ∧ firstToken c ∈ names)
    (hsound : ∀ eStr ∈ es, Sound lexicalCast ns eStr)
    (hcalls : ∀ eStr ∈ es, (edgeCall? lexicalCast env ns eStr).isSome = true)
    (hr : Lts.run (step gr) w.lib (edgeCalls lexicalCast env ns es) = some s) :
    addEdges lexicalCast env es w = (.returned, { w with
      lib := s
      edges := w.edges ++ (List.range' (w.lib.graphs gr.toNat).nrEdges es.length).map
        (fun (j : Nat) => some ⟨gr, j⟩) }) := by
  induction es generalizing w with
  | nil =>
    obtain rfl := Option.some.inj hr
    simp [addEdges]
  | cons eStr es ih =>
    obtain ⟨hhead, htail⟩ := List.forall_mem_cons.mp hnames
    obtain ⟨hsound, hsounds⟩ := List.forall_mem_cons.mp hsound
    obtain ⟨hcall, hcalls⟩ := List.forall_mem_cons.mp hcalls
    obtain ⟨a, ha⟩ := Option.isSome_iff_exists.mp hcall
    rw [edgeCalls, List.filterMap_cons_some ha] at hr
    obtain ⟨t, hs, ht⟩ := (Lts.run_cons_eq_some (step gr)).mp hr
    obtain ⟨p, c, np, nc, nt, hparts, hread, rfl⟩ := edgeCall?_eq_some ha
    obtain ⟨hinit, hE⟩ := initEdge_of_step hs
    have hstep := addEdge_edge env h hread ⟨(hhead p c hparts).1, (hsound.2 p c hparts).1⟩
      ⟨(hhead p c hparts).2, (hsound.2 p c hparts).2⟩
    rw [hinit] at hstep
    obtain ⟨w', hw', hwired⟩ : ∃ w', addEdge lexicalCast env w eStr = (.returned, w') ∧
        Wired gr names ns w' := by
      rcases addEdge_spec lexicalCast env h hhead with ⟨href, -⟩ | ⟨-, w', he, hw', -⟩ | ⟨-, hns, -⟩
      · exact absurd href hsound.1
      · exact ⟨w', he, hw'⟩
      · exact absurd hsound hns
    obtain rfl : w' = _ := (Prod.mk.inj (hw'.symm.trans hstep)).2
    simp only [addEdges, hstep, ih hwired htail hsounds hcalls ht, hE, List.length_cons,
      List.range'_succ, List.map_cons, List.append_assoc, List.singleton_append]

theorem addEdge_vectors (lexicalCast : Str → Option Int) (env : Env) (h : Wired gr names ns w)
    (hnames : ∀ p c, eStr.splitOn colon = [p, c] → firstToken p ∈ names ∧ firstToken c ∈ names) :
    (addEdge lexicalCast env w eStr).2.nodes = w.nodes ∧
    ((addEdge lexicalCast env w eStr).2.edges = w.edges ∨
      ∃ e, (addEdge lexicalCast env w eStr).2.edges = w.edges ++ [e] ∧
        (e ≠ none → ∃ a, edgeCall? lexicalCast env ns eStr = some a ∧
          step gr w.lib a = some (addEdge lexicalCast env w eStr).2.lib)) := by
  rcases readElement_spec lexicalCast eStr with ⟨-, e, he⟩ |
    ⟨-, ⟨he, -⟩ | ⟨p, c, np, nc, nt, hparts, he⟩⟩
  · simp [addEdge, he]
  · simp [addEdge, he]
  obtain ⟨hp, hc⟩ := hnames p c hparts
  by_cases hin : firstToken p ∈ ns ∧ firstToken c ∈ ns
  · rw [addEdge_edge env h he ⟨hp, hin.1⟩ ⟨hc, hin.2⟩]
    cases hinit : Tables.initEdge w.lib env true ⟨gr, ns.idxOf (firstToken p)⟩
        ⟨gr, ns.idxOf (firstToken c)⟩ (edgeArgs (firstToken p) (firstToken c) np nc nt) with
    | error f => exact ⟨rfl, Or.inl rfl⟩
    | ok r =>
      obtain ⟨e, l'⟩ := r
      refine ⟨rfl, Or.inr ⟨e, rfl, fun hne => ⟨_, by simp only [edgeCall?, he]; rfl, ?_⟩⟩⟩
      obtain ⟨i, rfl⟩ := Option.ne_none_iff_exists'.mp hne
      simp only [step, hinit]
  · have hund : addEdge lexicalCast env w eStr = (.undefined, w) := by
      simp only [addEdge, he, h.handle hp, h.handle hc, handleIn]
      by_cases hpn : firstToken p ∈ ns
      · rw [if_pos hpn, if_neg (fun hcn => hin ⟨hpn, hcn⟩)]
      · rw [if_neg hpn]
    rw [hund]
    exact ⟨rfl, Or.inl rfl⟩

/-- A handle for every element can only come from calls that have all succeeded. -/
theorem addEdges_vectors (lexicalCast : Str → Option Int) (env : Env) (h : Wired gr names ns w)
    (hnames : ∀ eStr ∈ es, ∀ p c, eStr.splitOn colon = [p, c] →
      firstToken p ∈ names ∧ firstToken c ∈ names) :
    (addEdges lexicalCast env es w).2.nodes = w.nodes ∧
    ∃ added, (addEdges lexicalCast env es w).2.edges = w.edges ++ added ∧
      added.length ≤ es.length ∧ (added.length = es.length → none ∉ added →
        (∀ eStr ∈ es, (edgeCall? lexicalCast env ns eStr).isSome = true) ∧
        Lts.run (step gr) w.lib (edgeCalls lexicalCast env ns es) =
          some (addEdges lexicalCast env es w).2.lib) := by
  induction es generalizing w with
  | nil => exact ⟨rfl, [], by simp [addEdges], le_rfl, fun _ _ => ⟨by simp, rfl⟩⟩
  | cons eStr es ih =>
    obtain ⟨hhead, htail⟩ := List.forall_mem_cons.mp hnames
    obtain ⟨hnodes, hedges⟩ := addEdge_vectors lexicalCast env h hhead
    rcases addEdge_spec lexicalCast env h hhead with ⟨-, e, he⟩ | ⟨-, w', he, hw', -⟩ | ⟨-, -, he⟩
    · simp only [addEdges, he]
      exact ⟨trivial, [], by simp, by simp, fun hlen => by simp at hlen⟩
    · simp only [addEdges, he] at hnodes hedges ⊢
      obtain ⟨hnodes', added, hadded, hlen, hall⟩ := ih hw' htail
      refine ⟨hnodes'.trans hnodes, ?_⟩
      rcases hedges with hsame | ⟨o, ho, hcall⟩
      · refine ⟨added, hsame ▸ hadded, by simp; omega, fun hfull => ?_⟩
        rw [List.length_cons] at hfull
        omega
      · refine ⟨o :: added, ?_, by simpa using hlen, fun hfull hnone => ?_⟩
        · rw [hadded, ho, List.append_assoc, List.singleton_append]
        · rw [List.mem_cons, not_or] at hnone
          obtain ⟨a, ha, hstep⟩ := hcall (Ne.symm hnone.1)
          obtain ⟨hcalls, hrun⟩ := hall (by simpa using hfull) hnone.2
          refine ⟨List.forall_mem_cons.mpr ⟨by rw [ha]; rfl, hcalls⟩, ?_⟩
          rw [edgeCalls, List.filterMap_cons_some ha]
          exact (Lts.run_cons_eq_some (step gr)).mpr ⟨w'.lib, hstep, hrun⟩
    · simp only [addEdges, he]
      exact ⟨trivial, [], by simp, by simp, fun hlen => by simp at hlen⟩

theorem not_stops_of_sound (h : ∀ eStr ∈ es, Sound lexicalCast ns eStr) :
    ¬ Stops lexicalCast ns es := by
  rintro ⟨before, e, after, rfl, -, href⟩
  exact (h e (by simp)).1 href

/-- The loop over the edges is entered with every name in `nodeMap`. -/
theorem addNodes_wired (hl : NewGraph l gr) (hm : l.isGraphMaster = true) (hnd : names.Nodup) :
    ∃ w, addNodes gr names ⟨l, [], [], []⟩ = some w ∧ Wired gr names (placed names) w ∧
      Lts.run (step gr) l (nodeCalls (placed names)) = some w.lib ∧
      w.nodes = names.map (handleIn gr (placed names)) ∧ w.edges = [] := by
  obtain ⟨s, hs, hm', hadd⟩ := addNodes_eq hl hm hnd
  obtain ⟨hopen, hN, -⟩ := run_graph hl hs
  rw [nodeNames_nodeCalls, List.length_map] at hN
  exact ⟨_, hadd, ⟨rfl, hopen.live, hm', hN, hN ▸ hopen.table.nodes⟩, hs, rfl, rfl⟩

theorem names_seen (desc : Str) : ∀ eStr ∈ desc.splitOn comma, ∀ p c,
    eStr.splitOn colon = [p, c] → firstToken p ∈ nodeNames desc ∧ firstToken c ∈ nodeNames desc := by
  intro eStr he p c hparts
  exact ⟨mem_nodeNames.mpr ⟨eStr, he, p, by simp [hparts], rfl⟩,
    mem_nodeNames.mpr ⟨eStr, he, c, by simp [hparts], rfl⟩⟩

end

end Pgm.Tables.Parse
