import Mathlib.Data.Finset.Lattice.Fold
import Mathlib.Order.Lattice.Nat
import Pgm.Lib.Pairing
import Pgm.Owner

/-!
# The buffers of the ends of an edge

A claim gives every end of a data-passing edge that it opens a buffer, and a release frees it. In
between, `pgm_swap_edge_buf_p`, `pgm_swap_edge_buf_c` and `pgm_swap_edge_bufs` exchange buffers,
which are recorded twice: as the pointer of the end and in the header of the buffer.
`buffers_paired` says that the two records agree after every sequence of these calls.
-/

namespace Pgm.Tables

open Pairing

/-! ## Headers and pointers -/

def badEdge : EdgeHandle := ⟨-1, -1⟩

/-- `pgm_memory_hdr_t`. The cookie of a live block is in order. -/
structure Hdr where
  usersize : UInt64
  assignedEdge : EdgeHandle
  producerFlag : Bool
  deriving DecidableEq

/-- One end of an edge: its pointer `buf_out` or `buf_in`. -/
structure End where
  graph : Nat
  edge : Nat
  producer : Bool
  deriving DecidableEq

/-- `malloc`. The block may depend on all allocations so far, but it is not one in use. -/
structure Allocator where
  pick : Nat → Finset Nat → Nat
  fresh : ∀ k live, pick k live ∉ live

/-- The library, the pointers of the ends, the live blocks with their headers, and the number of
allocations so far. -/
structure Bufs where
  lib : Lib
  ptr : End → Option Nat
  live : Finset Nat
  hdr : Nat → Hdr
  allocs : Nat

def Lib.edgeOf (l : Lib) (x : End) : EdgeRec := (l.graphs x.graph).edges x.edge

def Lib.sizeOf (l : Lib) (x : End) : UInt64 :=
  if x.producer then (l.edgeOf x).attr.nrProduce else (l.edgeOf x).attr.nrConsume

def EdgeRec.hasBuffers (e : EdgeRec) : Bool :=
  match e.ops with
  | none | some .cv => false
  | some .fifo | some .mq | some .ring | some .sockStream => true

def GraphRec.edgeAt (g : GraphRec) (edge : Int) : Except Fault EdgeRec :=
  if 0 ≤ edge ∧ edge < maxEdges then .ok (g.edges edge.toNat) else .error .edge

/-! ## Allocation -/

/-- `pgm_malloc`, where `malloc` does not fail. The flag of the header is left as it is in the block. -/
def Bufs.malloc (A : Allocator) (s : Bufs) (nbytes : UInt64) : Nat × Bufs :=
  let b := A.pick s.allocs s.live
  (b, { s with
    live := insert b s.live
    hdr := Function.update s.hdr b ⟨nbytes, badEdge, (s.hdr b).producerFlag⟩
    allocs := s.allocs + 1 })

def mallocEdgeBuf (A : Allocator) (s : Bufs) (edge : EdgeHandle) (producer : Bool) :
    Except Fault (Option Nat × Bufs) :=
  match s.lib.isValidGraph edge.graph with
  | .error f => .error f
  | .ok false => .ok (none, s)
  | .ok true =>
    match s.lib.graphAt edge.graph with
    | .error f => .error f
    | .ok g =>
      match g.edgeAt edge.edge with
      | .error f => .error f
      | .ok e =>
        let r := s.malloc A (if producer then e.attr.nrProduce else e.attr.nrConsume)
        .ok (some r.1, r.2)

/-- `pgm_free`. It only warns when the buffer is assigned. -/
def pgmFree (s : Bufs) : Option Nat → Except Fault Bufs
  | none => .ok s
  | some b => if b ∈ s.live then .ok { s with live := s.live.erase b } else .error .pointer

/-- An end is opened: `__pgm_malloc_edge_buf`. -/
def openEnd (A : Allocator) (s : Bufs) (x : End) : Bufs :=
  if (s.lib.edgeOf x).hasBuffers then
    let r := s.malloc A (s.lib.sizeOf x)
    { r.2 with
      hdr := Function.update r.2.hdr r.1 ⟨s.lib.sizeOf x, ⟨x.graph, x.edge⟩, x.producer⟩
      ptr := Function.update r.2.ptr x (some r.1) }
  else s

def closeEnd (s : Bufs) (x : End) : Bufs :=
  if (s.lib.edgeOf x).hasBuffers then
    match s.ptr x with
    | none => s
    | some b => { s with live := s.live.erase b, ptr := Function.update s.ptr x none }
  else s

def Lib.inEnds (l : Lib) (gr n : Nat) : List End :=
  ((l.graphs gr).nodes n).ins.map (fun e => ⟨gr, e, false⟩)

def Lib.outEnds (l : Lib) (gr n : Nat) : List End :=
  ((l.graphs gr).nodes n).outs.map (fun e => ⟨gr, e, true⟩)

/-- The loops of `__pgm_claim_node`. -/
def openNode (A : Allocator) (s : Bufs) (gr n : Nat) : Bufs :=
  (s.lib.inEnds gr n ++ s.lib.outEnds gr n).foldl (openEnd A) s

/-- The loops of `pgm_release_node`. -/
def closeNode (s : Bufs) (gr n : Nat) : Bufs :=
  (s.lib.outEnds gr n ++ s.lib.inEnds gr n).foldl closeEnd s

/-- `pgm_claim_node` when every end opens. -/
def claimBufs (A : Allocator) (s : Bufs) (node : NodeHandle) (tid self : Int) :
    Except Fault (Bool × Bufs) :=
  match claimNode s.lib node tid self allOpen with
  | .error f => .error f
  | .ok (false, l) => .ok (false, { s with lib := l })
  | .ok (true, l) => .ok (true, openNode A { s with lib := l } node.graph.toNat node.node.toNat)

/-- `pgm_claim_any_node` when every end opens. -/
def claimAnyBufs (A : Allocator) (s : Bufs) (graph : Int) (dst : Bool) (tid self : Int) :
    Except Fault (Option NodeHandle × Bufs) :=
  match claimAnyNode s.lib graph dst tid self allOpen with
  | .error f => .error f
  | .ok (none, l) => .ok (none, { s with lib := l })
  | .ok (some n, l) => .ok (some n, openNode A { s with lib := l } graph.toNat n.node.toNat)

/-- `pgm_release_node` when every end closes. -/
def releaseBufs (s : Bufs) (node : NodeHandle) (tid self : Int) : Except Fault (Bool × Bufs) :=
  match releaseNode s.lib node tid self allOpen with
  | .error f => .error f
  | .ok (false, l) => .ok (false, { s with lib := l })
  | .ok (true, l) => .ok (true, { closeNode s node.graph.toNat node.node.toNat with lib := l })

/-! ## Exchanges -/

/-- `__pgm_swap_edge_buf`: `none` when the new buffer is rejected, otherwise the old buffer. -/
def swapEdgeBuf (s : Bufs) (edge : EdgeHandle) (newBuf : Option Nat) (producer : Bool) :
    Except Fault (Option Nat × Bufs) :=
  match newBuf with
  | none => .ok (none, s)
  | some b =>
    match s.lib.isValidGraph edge.graph with
    | .error f => .error f
    | .ok false => .ok (none, s)
    | .ok true =>
      match s.lib.graphAt edge.graph with
      | .error f => .error f
      | .ok g =>
        match g.edgeAt edge.edge with
        | .error f => .error f
        | .ok e =>
          if !e.attr.isDataPassing then .ok (none, s)
          else if b ∉ s.live then .error .pointer
          else if (s.hdr b).assignedEdge.graph ≠ badEdge.graph ∧
              (s.hdr b).assignedEdge.edge ≠ badEdge.edge then .ok (none, s)
          else
            match s.ptr ⟨edge.graph.toNat, edge.edge.toNat, producer⟩ with
            | none => .error .pointer
            | some old =>
              if (s.hdr b).usersize ≠ (s.hdr old).usersize then .ok (none, s)
              else
                let hdr := Function.update s.hdr b
                  ⟨(s.hdr b).usersize, edge, (s.hdr old).producerFlag⟩
                let hdr := Function.update hdr old { hdr old with assignedEdge := badEdge }
                .ok (some old, { s with
                  hdr := hdr
                  ptr := Function.update s.ptr ⟨edge.graph.toNat, edge.edge.toNat, producer⟩
                    (some b) })

def Hdr.isAssigned (h : Hdr) : Bool :=
  !(h.assignedEdge.graph == badEdge.graph && h.assignedEdge.edge == badEdge.edge)

/-- The end that a header names, if its edge lies inside the tables. -/
def Hdr.slot (h : Hdr) : Except Fault End :=
  if 0 ≤ h.assignedEdge.graph ∧ h.assignedEdge.graph < maxGraphs then
    if 0 ≤ h.assignedEdge.edge ∧ h.assignedEdge.edge < maxEdges then
      .ok ⟨h.assignedEdge.graph.toNat, h.assignedEdge.edge.toNat, h.producerFlag⟩
    else .error .edge
  else .error .graph

def swapEdgeBufs (s : Bufs) : Option Nat → Option Nat → Except Fault (Bool × Bufs)
  | some a, some b =>
    if a = b then .ok (false, s)
    else if a ∉ s.live ∨ b ∉ s.live then .error .pointer
    else if !(s.hdr a).isAssigned then .ok (false, s)
    else if !(s.hdr b).isAssigned then .ok (false, s)
    else if (s.hdr a).usersize ≠ (s.hdr b).usersize then .ok (false, s)
    else
      match (s.hdr a).slot, (s.hdr b).slot with
      | .ok x, .ok y =>
        .ok (true, { s with
          ptr := Function.update (Function.update s.ptr x (s.ptr y)) y (s.ptr x)
          hdr := Function.update (Function.update s.hdr a
              ⟨(s.hdr a).usersize, (s.hdr b).assignedEdge, (s.hdr b).producerFlag⟩) b
            ⟨(s.hdr b).usersize, (s.hdr a).assignedEdge, (s.hdr a).producerFlag⟩ })
      | .error f, _ => .error f
      | _, .error f => .error f
  | _, _ => .ok (false, s)

/-! ## Runs -/

inductive BufCall where
  | claim (node : NodeHandle) (tid self : Nat)
  | claimAny (graph : Int) (dst : Bool) (tid self : Nat)
  | release (node : NodeHandle) (tid self : Nat)
  | malloc (edge : EdgeHandle) (producer : Bool)
  | free (b : Option Nat)
  | swap (edge : EdgeHandle) (b : Option Nat) (producer : Bool)
  | swapBufs (a b : Option Nat)

/-- The state after a call, `none` when it leaves the tables or the live blocks. -/
def bufStep (A : Allocator) (s : Bufs) : BufCall → Option Bufs
  | .claim node tid self => (claimBufs A s node tid self).toOption.map Prod.snd
  | .claimAny graph dst tid self => (claimAnyBufs A s graph dst tid self).toOption.map Prod.snd
  | .release node tid self => (releaseBufs s node tid self).toOption.map Prod.snd
  | .malloc edge producer => (mallocEdgeBuf A s edge producer).toOption.map Prod.snd
  | .free b => (pgmFree s b).toOption
  | .swap edge b producer => (swapEdgeBuf s edge b producer).toOption.map Prod.snd
  | .swapBufs a b => (swapEdgeBufs s a b).toOption.map Prod.snd

def FreesUnassigned (s : Bufs) : BufCall → Prop
  | .free (some b) => (s.hdr b).isAssigned = false
  | _ => True

instance (s : Bufs) (a : BufCall) : Decidable (FreesUnassigned s a) :=
  match a with
  | .free (some b) => inferInstanceAs (Decidable ((s.hdr b).isAssigned = false))
  | .free none | .claim .. | .claimAny .. | .release .. | .malloc .. | .swap .. | .swapBufs .. =>
    inferInstanceAs (Decidable True)

/-! ## What pointers and headers say about each other -/

def Hdr.end? (h : Hdr) : Option End :=
  if h.isAssigned then
    some ⟨h.assignedEdge.graph.toNat, h.assignedEdge.edge.toNat, h.producerFlag⟩
  else none

/-- The headers as seen by `Paired`. -/
def backs (hdr : Nat → Hdr) (b : Nat) : Option End := (hdr b).end?

/-- The ends in `O` have a buffer of their size that names them, and no other buffer names an end. -/
structure Assigned (s : Bufs) (O : End → Prop) : Prop where
  paired : Paired s.ptr s.live (backs s.hdr)
  named : ∀ b ∈ s.live, (s.hdr b).assignedEdge = badEdge ∨
    ∃ gr e : Nat, (s.hdr b).assignedEdge = ⟨gr, e⟩
  sizes : ∀ x b, s.ptr x = some b → (s.hdr b).usersize = s.lib.sizeOf x
  opened : ∀ x, (s.ptr x).isSome = true ↔ O x

section

variable {A : Allocator} {s s' : Bufs} {O : End → Prop} {x y : End}

theorem isAssigned_iff {h : Hdr} : h.isAssigned = true ↔ h.assignedEdge ≠ badEdge := by
  obtain ⟨-, ⟨gr, e⟩, -⟩ := h
  simp [Hdr.isAssigned, badEdge]
  tauto

theorem end?_named (n : UInt64) (gr e : Nat) (flag : Bool) :
    Hdr.end? ⟨n, ⟨gr, e⟩, flag⟩ = some ⟨gr, e, flag⟩ := by
  have : Hdr.isAssigned ⟨n, ⟨gr, e⟩, flag⟩ = true := by
    rw [isAssigned_iff]
    simp [badEdge]
  simp [Hdr.end?, this]

theorem end?_bad (n : UInt64) (flag : Bool) : Hdr.end? ⟨n, badEdge, flag⟩ = none := by
  simp [Hdr.end?, Hdr.isAssigned]

theorem backs_update (hdr : Nat → Hdr) (b : Nat) (h : Hdr) :
    backs (Function.update hdr b h) = Function.update (backs hdr) b h.end? := by
  funext c
  unfold backs
  rw [Function.update_apply, Function.update_apply]
  split <;> rfl

/-- The header of a buffer that is assigned names its edge and its role. -/
theorem end?_eq_some {h : Hdr} (hn : h.assignedEdge = badEdge ∨
    ∃ gr e : Nat, h.assignedEdge = ⟨gr, e⟩) (he : h.end? = some x) :
    h.assignedEdge = ⟨x.graph, x.edge⟩ ∧ h.producerFlag = x.producer := by
  obtain ⟨n, edge, flag⟩ := h
  rcases hn with rfl | ⟨gr, e, rfl⟩
  · rw [end?_bad] at he
    cases he
  · rw [end?_named] at he
    obtain rfl := Option.some.inj he
    exact ⟨rfl, rfl⟩

/-- A buffer that an end points to, and its header. -/
theorem Assigned.hdr_eq (h : Assigned s O) {b : Nat} (hx : s.ptr x = some b) :
    b ∈ s.live ∧ s.hdr b = ⟨s.lib.sizeOf x, ⟨x.graph, x.edge⟩, x.producer⟩ := by
  obtain ⟨hlive, hback⟩ := h.paired.points x b hx
  obtain ⟨hedge, hflag⟩ := end?_eq_some (h.named b hlive) hback
  have hsize := h.sizes x b hx
  rw [← hsize, ← hedge, ← hflag]
  exact ⟨hlive, rfl⟩

theorem Assigned.malloc (h : Assigned s O) (n : UInt64) : Assigned (s.malloc A n).2 O := by
  have hfresh := A.fresh s.allocs s.live
  refine ⟨?_, ?_, ?_, h.opened⟩
  · simp only [Bufs.malloc, backs_update, end?_bad]
    exact h.paired.add hfresh
  · intro b hb
    simp only [Bufs.malloc, Finset.mem_insert] at hb ⊢
    rw [Function.update_apply]
    split
    · exact Or.inl rfl
    · rename_i hne
      exact h.named b (hb.resolve_left hne)
  · intro x b hx
    have hlive := (h.paired.points x b hx).1
    have hne : b ≠ A.pick s.allocs s.live := fun he => hfresh (he ▸ hlive)
    simp only [Bufs.malloc, Function.update_of_ne hne]
    exact h.sizes x b hx

theorem Assigned.free (h : Assigned s O) {b : Nat} (hb : (s.hdr b).isAssigned = false) :
    Assigned { s with live := s.live.erase b } O := by
  refine ⟨h.paired.drop ?_, ?_, h.sizes, h.opened⟩
  · unfold backs Hdr.end?
    rw [hb]
    rfl
  · intro c hc
    exact h.named c (Finset.mem_of_mem_erase hc)

/-! ## Opening and closing -/

theorem openEnd_lib (A : Allocator) (s : Bufs) (x : End) : (openEnd A s x).lib = s.lib := by
  unfold openEnd
  split <;> rfl

theorem closeEnd_lib (s : Bufs) (x : End) : (closeEnd s x).lib = s.lib := by
  unfold closeEnd
  split
  · split <;> rfl
  · rfl

theorem Assigned.openEnd (h : Assigned s O) (hx : ¬ O x) :
    Assigned (openEnd A s x) (fun y => O y ∨ (y = x ∧ (s.lib.edgeOf y).hasBuffers = true)) := by
  have hnone : s.ptr x = none := by
    rw [← Option.not_isSome_iff_eq_none, h.opened]
    exact hx
  cases hbuf : (s.lib.edgeOf x).hasBuffers with
  | false =>
    have hsame : Tables.openEnd A s x = s := by
      unfold Tables.openEnd
      rw [hbuf]
      rfl
    rw [hsame]
    refine ⟨h.paired, h.named, h.sizes, fun y => ?_⟩
    rw [h.opened]
    refine ⟨Or.inl, ?_⟩
    rintro (hy | ⟨rfl, hy⟩)
    · exact hy
    · rw [hbuf] at hy
      cases hy
  | true =>
    have hfresh := A.fresh s.allocs s.live
    set b := A.pick s.allocs s.live with hb
    have hopen : Tables.openEnd A s x =
        { s with
          live := insert b s.live
          hdr := Function.update s.hdr b ⟨s.lib.sizeOf x, ⟨x.graph, x.edge⟩, x.producer⟩
          allocs := s.allocs + 1
          ptr := Function.update s.ptr x (some b) } := by
      unfold Tables.openEnd Bufs.malloc
      rw [hbuf]
      simp only [if_true, Function.update_idem, ← hb]
    rw [hopen]
    refine ⟨?_, ?_, ?_, ?_⟩
    · simp only [backs_update, end?_named]
      exact h.paired.link hfresh hnone
    · intro c hc
      simp only [Finset.mem_insert] at hc
      simp only
      rw [Function.update_apply]
      split
      · exact Or.inr ⟨x.graph, x.edge, rfl⟩
      · rename_i hne
        exact h.named c (hc.resolve_left hne)
    · intro y c hy
      simp only at hy ⊢
      by_cases hyx : y = x
      · subst hyx
        rw [Function.update_self] at hy
        obtain rfl := Option.some.inj hy
        rw [Function.update_self]
      · rw [Function.update_of_ne hyx] at hy
        have hne : c ≠ b := fun he => hfresh (he ▸ (h.paired.points y c hy).1)
        rw [Function.update_of_ne hne]
        exact h.sizes y c hy
    · intro y
      simp only
      by_cases hyx : y = x
      · subst hyx
        simp [hbuf]
      · rw [Function.update_of_ne hyx, h.opened]
        simp [hyx]

theorem Assigned.openEnds {xs : List End} (h : Assigned s O) (hnd : xs.Nodup)
    (hx : ∀ x ∈ xs, ¬ O x) : Assigned (xs.foldl (Tables.openEnd A) s)
      (fun y => O y ∨ (y ∈ xs ∧ (s.lib.edgeOf y).hasBuffers = true)) := by
  induction xs generalizing s O with
  | nil => simpa using h
  | cons x xs ih =>
    obtain ⟨hnot, hnd⟩ := List.nodup_cons.mp hnd
    have hone := h.openEnd (A := A) (hx x List.mem_cons_self)
    have hrest := ih hone hnd (fun y hy hO => hO.elim (hx y (List.mem_cons_of_mem x hy))
      (fun hyx => hnot (hyx.1 ▸ hy)))
    rw [openEnd_lib] at hrest
    refine ⟨hrest.paired, hrest.named, hrest.sizes, fun y => (hrest.opened y).trans ?_⟩
    rw [List.mem_cons]
    tauto

theorem Assigned.closeEnd (h : Assigned s O) (hx : O x → (s.lib.edgeOf x).hasBuffers = true) :
    Assigned (closeEnd s x) (fun y => O y ∧ y ≠ x) := by
  cases hp : s.ptr x with
  | none =>
    have hsame : Tables.closeEnd s x = s := by
      unfold Tables.closeEnd
      rw [hp]
      split <;> rfl
    have hnot : ¬ O x := by
      rw [← h.opened, hp]
      simp
    rw [hsame]
    refine ⟨h.paired, h.named, h.sizes, fun y => ?_⟩
    rw [h.opened]
    exact ⟨fun hy => ⟨hy, fun he => hnot (he ▸ hy)⟩, And.left⟩
  | some b =>
    have hO : O x := by
      rw [← h.opened, hp]
      rfl
    have hclose : Tables.closeEnd s x =
        { s with live := s.live.erase b, ptr := Function.update s.ptr x none } := by
      unfold Tables.closeEnd
      rw [hx hO, hp]
      rfl
    rw [hclose]
    refine ⟨h.paired.unlink hp, ?_, ?_, ?_⟩
    · intro c hc
      exact h.named c (Finset.mem_of_mem_erase hc)
    · intro y c hy
      simp only at hy
      by_cases hyx : y = x
      · rw [hyx, Function.update_self] at hy
        cases hy
      · rw [Function.update_of_ne hyx] at hy
        exact h.sizes y c hy
    · intro y
      simp only
      by_cases hyx : y = x
      · simp [hyx]
      · rw [Function.update_of_ne hyx, h.opened]
        simp [hyx]

theorem Assigned.closeEnds (h : Assigned s O) (xs : List End)
    (hx : ∀ x ∈ xs, O x → (s.lib.edgeOf x).hasBuffers = true) :
    Assigned (xs.foldl Tables.closeEnd s) (fun y => O y ∧ y ∉ xs) := by
  induction xs generalizing s O with
  | nil => simpa using h
  | cons x xs ih =>
    have hone := h.closeEnd (hx x List.mem_cons_self)
    have hrest := ih hone (fun y hy hO => by
      rw [closeEnd_lib]
      exact hx y (List.mem_cons_of_mem x hy) hO.1)
    refine ⟨hrest.paired, hrest.named, hrest.sizes, fun y => (hrest.opened y).trans ?_⟩
    rw [List.mem_cons]
    tauto

theorem foldl_lib {f : Bufs → End → Bufs} (hf : ∀ s x, (f s x).lib = s.lib) (xs : List End)
    (s : Bufs) : (xs.foldl f s).lib = s.lib := by
  induction xs generalizing s with
  | nil => rfl
  | cons x xs ih => exact (ih (f s x)).trans (hf s x)

/-! ## Exchanges -/

/-- A buffer of nobody takes the place of the buffer of an end. -/
theorem Assigned.replace (h : Assigned s O) {old b : Nat} (hx : s.ptr x = some old)
    (hb : b ∈ s.live) (hbad : (s.hdr b).assignedEdge = badEdge)
    (hsize : (s.hdr b).usersize = (s.hdr old).usersize) :
    Assigned { s with
      hdr := Function.update (Function.update s.hdr b
        ⟨(s.hdr b).usersize, ⟨x.graph, x.edge⟩, (s.hdr old).producerFlag⟩) old
        { Function.update s.hdr b
          ⟨(s.hdr b).usersize, ⟨x.graph, x.edge⟩, (s.hdr old).producerFlag⟩ old with
          assignedEdge := badEdge }
      ptr := Function.update s.ptr x (some b) } O := by
  obtain ⟨hold, hhdr⟩ := h.hdr_eq hx
  have hne : old ≠ b := by
    rintro rfl
    rw [hhdr] at hbad
    simp [badEdge] at hbad
  have hnone : backs s.hdr b = none := by
    unfold backs Hdr.end? Hdr.isAssigned
    rw [hbad]
    rfl
  rw [Function.update_of_ne hne, hhdr]
  refine ⟨?_, ?_, ?_, ?_⟩
  · simp only [backs_update, end?_named, end?_bad]
    exact h.paired.replace hx hb hnone
  · intro c hc
    simp only [Function.update_apply]
    split
    · exact Or.inl rfl
    · split
      · exact Or.inr ⟨x.graph, x.edge, rfl⟩
      · exact h.named c hc
  · intro y c hy
    simp only at hy ⊢
    by_cases hyx : y = x
    · subst hyx
      rw [Function.update_self] at hy
      obtain rfl := Option.some.inj hy
      rw [Function.update_of_ne hne.symm, Function.update_self]
      simp only
      rw [hsize, hhdr]
    · rw [Function.update_of_ne hyx] at hy
      have hco : c ≠ old := fun he => hyx (h.paired.inj hy (he ▸ hx))
      have hcb : c ≠ b := by
        rintro rfl
        rw [(h.paired.points y c hy).2] at hnone
        cases hnone
      rw [Function.update_of_ne hco, Function.update_of_ne hcb]
      exact h.sizes y c hy
  · intro y
    simp only
    by_cases hyx : y = x
    · subst hyx
      rw [Function.update_self, ← h.opened, hx]
      simp
    · rw [Function.update_of_ne hyx]
      exact h.opened y

/-- Two ends exchange their buffers of the same size. -/
theorem Assigned.swap (h : Assigned s O) {a b : Nat} (hx : s.ptr x = some a) (hy : s.ptr y = some b)
    (hab : a ≠ b) (hsize : (s.hdr a).usersize = (s.hdr b).usersize) :
    Assigned { s with
      ptr := Function.update (Function.update s.ptr x (s.ptr y)) y (s.ptr x)
      hdr := Function.update (Function.update s.hdr a
          ⟨(s.hdr a).usersize, (s.hdr b).assignedEdge, (s.hdr b).producerFlag⟩) b
        ⟨(s.hdr b).usersize, (s.hdr a).assignedEdge, (s.hdr a).producerFlag⟩ } O := by
  obtain ⟨ha, hha⟩ := h.hdr_eq hx
  obtain ⟨hb, hhb⟩ := h.hdr_eq hy
  rw [hx, hy]
  refine ⟨?_, ?_, ?_, ?_⟩
  · rw [hha, hhb]
    simp only [backs_update, end?_named]
    exact h.paired.swap hx hy hab
  · intro c hc
    simp only [Function.update_apply, hha, hhb]
    split
    · exact Or.inr ⟨x.graph, x.edge, rfl⟩
    · split
      · exact Or.inr ⟨y.graph, y.edge, rfl⟩
      · exact h.named c hc
  · intro z c hz
    simp only at hz ⊢
    by_cases hzy : z = y
    · subst hzy
      rw [Function.update_self] at hz
      obtain rfl := Option.some.inj hz
      rw [Function.update_of_ne hab, Function.update_self]
      simp only
      rw [hsize]
      exact h.sizes z b hy
    rw [Function.update_of_ne hzy] at hz
    by_cases hzx : z = x
    · subst hzx
      rw [Function.update_self] at hz
      obtain rfl := Option.some.inj hz
      rw [Function.update_self]
      simp only
      rw [← hsize]
      exact h.sizes z a hx
    · rw [Function.update_of_ne hzx] at hz
      have hca : c ≠ a := fun he => hzx (h.paired.inj hz (he ▸ hx))
      have hcb : c ≠ b := fun he => hzy (h.paired.inj hz (he ▸ hy))
      rw [Function.update_of_ne hcb, Function.update_of_ne hca]
      exact h.sizes z c hz
  · intro z
    simp only [← h.opened, Function.update_apply]
    split
    · rename_i hzy
      rw [hzy, hy]
      simp
    · split
      · rename_i hzx
        rw [hzx, hx]
        simp
      · rfl

/-! ## The graphs -/

def Lib.nodeOf (l : Lib) (x : End) : Nat :=
  if x.producer then (l.edgeOf x).producer else (l.edgeOf x).consumer

/-- An end of a data-passing edge whose node is claimed. -/
structure Lib.EndOpen (l : Lib) (x : End) : Prop where
  graph : x.graph < maxGraphs
  inUse : (l.graphs x.graph).inUse = true
  edge : x.edge < (l.graphs x.graph).nrEdges
  data : (l.edgeOf x).attr.isDataPassing = true
  claimed : ((l.graphs x.graph).nodes (l.nodeOf x)).owner ≠ unclaimed

/-- Every graph in use has tables that agree with each other, and its data-passing edges are those
with buffers, as is the case for the types of `pgm_edge_type_t`. -/
def Lib.Sound (l : Lib) : Prop :=
  ∀ gr < maxGraphs, (l.graphs gr).inUse = true → Represents (l.graphs gr) ∧
    ∀ e < (l.graphs gr).nrEdges, ((l.graphs gr).edges e).hasBuffers =
      ((l.graphs gr).edges e).attr.isDataPassing

def Lib.give (l : Lib) (gr n : Nat) (t : Int) : Lib := l.setGraph gr ((l.graphs gr).setOwner n t)

theorem setOwner_node (g : GraphRec) (n : Nat) (t : Int) (m : Nat) :
    (g.setOwner n t).nodes m = { g.nodes m with owner := if m = n then t else (g.nodes m).owner } := by
  unfold GraphRec.setOwner GraphRec.setNode
  simp only [Function.update_apply]
  split
  · rename_i hm
    rw [hm]
  · rfl

theorem counter_owner {f : (NodeRec → Nat) × (EdgeRec → Bool)} (hf : f ∈ counters) (n : NodeRec)
    (o : Int) : f.1 { n with owner := o } = f.1 n := by
  simp only [counters, List.mem_cons, List.not_mem_nil, or_false] at hf
  rcases hf with rfl | rfl | rfl | rfl <;> rfl

theorem Represents.setOwner {g : GraphRec} (h : Represents g) (n : Nat) (t : Int) :
    Represents (g.setOwner n t) := by
  refine ⟨?_, ?_, ?_, ?_, ?_, h.nodes, h.edges, h.attrs⟩
  · intro m hm
    rw [setOwner_node]
    exact h.outs m hm
  · intro m hm
    rw [setOwner_node]
    exact h.ins m hm
  · intro m hm f hf
    rw [setOwner_node, counter_owner hf]
    exact h.counts m hm f hf
  · intro m hm k
    rw [setOwner_node]
    exact h.mask m hm k
  · intro m hm
    rw [setOwner_node]
    exact h.degree m hm

section

variable {l : Lib} {gr n : Nat} {t : Int}

/-- A graph after a change of owner: everything else is as before. -/
theorem give_graph (l : Lib) (gr n : Nat) (t : Int) (i : Nat) : (l.give gr n t).graphs i =
    if i = gr then (l.graphs gr).setOwner n t else l.graphs i := by
  unfold Lib.give Lib.setGraph
  simp only [Function.update_apply]

theorem give_edgeOf (l : Lib) (gr n : Nat) (t : Int) (x : End) :
    (l.give gr n t).edgeOf x = l.edgeOf x := by
  unfold Lib.edgeOf
  rw [give_graph]
  split
  · rename_i he
    rw [he]
    rfl
  · rfl

theorem give_frame (l : Lib) (gr n : Nat) (t : Int) (i : Nat) :
    ((l.give gr n t).graphs i).inUse = (l.graphs i).inUse ∧
    ((l.give gr n t).graphs i).nrEdges = (l.graphs i).nrEdges ∧
    ∀ m, (((l.give gr n t).graphs i).nodes m).owner =
      if i = gr ∧ m = n then t else ((l.graphs i).nodes m).owner := by
  rw [give_graph]
  by_cases he : i = gr
  · subst he
    simp only [if_true, true_and]
    refine ⟨rfl, rfl, fun m => ?_⟩
    rw [setOwner_node]
  · simp [he]

theorem Lib.Sound.give (h : l.Sound) (gr n : Nat) (t : Int) : (l.give gr n t).Sound := by
  intro i hi huse
  rw [(give_frame l gr n t i).1] at huse
  obtain ⟨hrep, hbuf⟩ := h i hi huse
  rw [give_graph]
  split
  · rename_i he
    subst he
    exact ⟨hrep.setOwner n t, hbuf⟩
  · exact ⟨hrep, hbuf⟩

theorem give_nodeOf (l : Lib) (gr n : Nat) (t : Int) (x : End) :
    (l.give gr n t).nodeOf x = l.nodeOf x := by
  unfold Lib.nodeOf
  rw [give_edgeOf]

theorem give_sizeOf (l : Lib) (gr n : Nat) (t : Int) (x : End) :
    (l.give gr n t).sizeOf x = l.sizeOf x := by
  unfold Lib.sizeOf
  rw [give_edgeOf]

theorem mem_ends (h : l.Sound) (hgr : gr < maxGraphs) (huse : (l.graphs gr).inUse = true)
    (hn : n < (l.graphs gr).nrNodes) (x : End) : x ∈ l.inEnds gr n ++ l.outEnds gr n ↔
      x.graph = gr ∧ x.edge < (l.graphs gr).nrEdges ∧ l.nodeOf x = n := by
  have hrep := (h gr hgr huse).1
  obtain ⟨xg, xe, xp⟩ := x
  simp only [List.mem_append, Lib.inEnds, Lib.outEnds, List.mem_map, End.mk.injEq, hrep.mem_ins hn,
    hrep.mem_outs hn, Lib.nodeOf, Lib.edgeOf]
  cases xp with
  | false =>
    simp only [Bool.false_eq_true, if_false, and_false, exists_false, or_false, reduceCtorEq]
    constructor
    · rintro ⟨e, ⟨he, hc⟩, rfl, rfl, -⟩
      exact ⟨rfl, he, hc⟩
    · rintro ⟨rfl, he, hc⟩
      exact ⟨xe, ⟨he, hc⟩, rfl, rfl, trivial⟩
  | true =>
    simp only [if_true, reduceCtorEq, and_false, exists_false, false_or]
    constructor
    · rintro ⟨e, ⟨he, hc⟩, rfl, rfl, -⟩
      exact ⟨rfl, he, hc⟩
    · rintro ⟨rfl, he, hc⟩
      exact ⟨xe, ⟨he, hc⟩, rfl, rfl, trivial⟩

theorem ends_nodup (h : l.Sound) (hgr : gr < maxGraphs) (huse : (l.graphs gr).inUse = true)
    (hn : n < (l.graphs gr).nrNodes) : (l.inEnds gr n ++ l.outEnds gr n).Nodup := by
  have hrep := (h gr hgr huse).1
  have hins : ((l.graphs gr).nodes n).ins.Nodup := by
    rw [hrep.ins n hn]
    exact List.nodup_range.filter _
  have houts : ((l.graphs gr).nodes n).outs.Nodup := by
    rw [hrep.outs n hn]
    exact List.nodup_range.filter _
  refine List.Nodup.append ?_ ?_ ?_
  · exact hins.map (fun a b hab => (End.mk.inj hab).2.1)
  · exact houts.map (fun a b hab => (End.mk.inj hab).2.1)
  · intro x hx hx'
    obtain ⟨e, -, rfl⟩ := List.mem_map.mp hx
    obtain ⟨e', -, he⟩ := List.mem_map.mp hx'
    exact absurd (End.mk.inj he).2.2 (by decide)

theorem endOpen_give (l : Lib) (gr n : Nat) (t : Int) (x : End) : (l.give gr n t).EndOpen x ↔
    x.graph < maxGraphs ∧ (l.graphs x.graph).inUse = true ∧ x.edge < (l.graphs x.graph).nrEdges ∧
    (l.edgeOf x).attr.isDataPassing = true ∧
    (if x.graph = gr ∧ l.nodeOf x = n then t
      else ((l.graphs x.graph).nodes (l.nodeOf x)).owner) ≠ unclaimed := by
  obtain ⟨huse, hedges, howner⟩ := give_frame l gr n t x.graph
  rw [← howner]
  constructor
  · rintro ⟨h1, h2, h3, h4, h5⟩
    exact ⟨h1, huse ▸ h2, hedges ▸ h3, give_edgeOf l gr n t x ▸ h4, give_nodeOf l gr n t x ▸ h5⟩
  · rintro ⟨h1, h2, h3, h4, h5⟩
    refine ⟨h1, huse ▸ h2, hedges ▸ h3, ?_, ?_⟩
    · rw [give_edgeOf]
      exact h4
    · rw [give_nodeOf]
      exact h5

theorem endOpen_claim (h : l.Sound) (hgr : gr < maxGraphs) (huse : (l.graphs gr).inUse = true)
    (hn : n < (l.graphs gr).nrNodes) (hfree : ((l.graphs gr).nodes n).owner = unclaimed)
    (ht : t ≠ unclaimed) (x : End) : (l.give gr n t).EndOpen x ↔ l.EndOpen x ∨
      (x ∈ l.inEnds gr n ++ l.outEnds gr n ∧ (l.edgeOf x).hasBuffers = true) := by
  rw [endOpen_give, mem_ends h hgr huse hn]
  by_cases hx : x.graph = gr ∧ l.nodeOf x = n
  · obtain ⟨hxg, hxn⟩ := hx
    have hbuf : x.edge < (l.graphs gr).nrEdges →
        (l.edgeOf x).hasBuffers = (l.edgeOf x).attr.isDataPassing := by
      intro he
      unfold Lib.edgeOf
      rw [hxg]
      exact (h gr hgr huse).2 x.edge he
    rw [if_pos ⟨hxg, hxn⟩, hxg]
    constructor
    · rintro ⟨-, -, he, hd, -⟩
      exact Or.inr ⟨⟨rfl, he, hxn⟩, (hbuf he).trans hd⟩
    · rintro (ho | ⟨⟨-, he, -⟩, hb⟩)
      · refine absurd ?_ ho.claimed
        rw [hxg, hxn]
        exact hfree
      · exact ⟨hgr, huse, he, (hbuf he).symm.trans hb, ht⟩
  · rw [if_neg hx]
    constructor
    · rintro ⟨h1, h2, h3, h4, h5⟩
      exact Or.inl ⟨h1, h2, h3, h4, h5⟩
    · rintro (ho | ⟨⟨hxg, -, hxn⟩, -⟩)
      · exact ⟨ho.graph, ho.inUse, ho.edge, ho.data, ho.claimed⟩
      · exact absurd ⟨hxg, hxn⟩ hx

theorem endOpen_release (h : l.Sound) (hgr : gr < maxGraphs) (huse : (l.graphs gr).inUse = true)
    (hn : n < (l.graphs gr).nrNodes) (x : End) : (l.give gr n unclaimed).EndOpen x ↔
      l.EndOpen x ∧ x ∉ l.outEnds gr n ++ l.inEnds gr n := by
  have hmem : x ∈ l.outEnds gr n ++ l.inEnds gr n ↔ _ :=
    (by simp only [List.mem_append, or_comm] : _ ↔ x ∈ l.inEnds gr n ++ l.outEnds gr n).trans
      (mem_ends h hgr huse hn x)
  rw [endOpen_give, hmem]
  by_cases hx : x.graph = gr ∧ l.nodeOf x = n
  · rw [if_pos hx]
    constructor
    · rintro ⟨-, -, -, -, h5⟩
      exact absurd rfl h5
    · rintro ⟨ho, hnot⟩
      exact absurd ⟨hx.1, hx.1 ▸ ho.edge, hx.2⟩ hnot
  · rw [if_neg hx]
    constructor
    · rintro ⟨h1, h2, h3, h4, h5⟩
      exact ⟨⟨h1, h2, h3, h4, h5⟩, fun hc => hx ⟨hc.1, hc.2.2⟩⟩
    · rintro ⟨ho, -⟩
      exact ⟨ho.graph, ho.inUse, ho.edge, ho.data, ho.claimed⟩

theorem Lib.EndOpen.hasBuffers {x : End} (h : l.Sound) (hx : l.EndOpen x) :
    (l.edgeOf x).hasBuffers = true :=
  ((h x.graph hx.graph hx.inUse).2 x.edge hx.edge).trans hx.data

end

/-! ## The calls keep the invariant -/

/-- The tables are sound, and exactly the open ends have a buffer. -/
structure BufInv (s : Bufs) : Prop where
  sound : s.lib.Sound
  assigned : Assigned s s.lib.EndOpen

theorem Assigned.setLib {l : Lib} {O' : End → Prop} (h : Assigned s O)
    (hsize : ∀ x, l.sizeOf x = s.lib.sizeOf x) (hO : ∀ x, O x ↔ O' x) :
    Assigned { s with lib := l } O' :=
  ⟨h.paired, h.named, fun x b hx => (h.sizes x b hx).trans (hsize x).symm,
    fun x => (h.opened x).trans (hO x)⟩

theorem BufInv.openNode {gr n : Nat} {t : Int} (h : BufInv s) (hgr : gr < maxGraphs)
    (huse : (s.lib.graphs gr).inUse = true) (hn : n < (s.lib.graphs gr).nrNodes)
    (hfree : ((s.lib.graphs gr).nodes n).owner = unclaimed) (ht : t ≠ unclaimed) :
    BufInv (openNode A { s with lib := s.lib.give gr n t } gr n) := by
  have hsound := h.sound.give gr n t
  have hlists : (s.lib.give gr n t).inEnds gr n = s.lib.inEnds gr n ∧
      (s.lib.give gr n t).outEnds gr n = s.lib.outEnds gr n := by
    unfold Lib.inEnds Lib.outEnds
    rw [give_graph, if_pos rfl, setOwner_node]
    exact ⟨rfl, rfl⟩
  have hone : Assigned { s with lib := s.lib.give gr n t } s.lib.EndOpen :=
    h.assigned.setLib (give_sizeOf _ _ _ _) (fun _ => Iff.rfl)
  have hclosed : ∀ x ∈ s.lib.inEnds gr n ++ s.lib.outEnds gr n, ¬ s.lib.EndOpen x := by
    intro x hx ho
    obtain ⟨hxg, -, hxn⟩ := (mem_ends h.sound hgr huse hn x).mp hx
    refine ho.claimed ?_
    rw [hxg, hxn]
    exact hfree
  have hall := hone.openEnds (A := A) (ends_nodup h.sound hgr huse hn) hclosed
  unfold Tables.openNode
  simp only [hlists]
  have hlib := foldl_lib (openEnd_lib A) (s.lib.inEnds gr n ++ s.lib.outEnds gr n)
    { s with lib := s.lib.give gr n t }
  refine ⟨?_, hall.paired, hall.named, hall.sizes, fun x => (hall.opened x).trans ?_⟩
  · rw [hlib]
    exact hsound
  · rw [hlib, endOpen_claim h.sound hgr huse hn hfree ht]
    simp only [give_edgeOf]

theorem BufInv.closeNode {gr n : Nat} (h : BufInv s) (hgr : gr < maxGraphs)
    (huse : (s.lib.graphs gr).inUse = true) (hn : n < (s.lib.graphs gr).nrNodes) :
    BufInv { closeNode s gr n with lib := s.lib.give gr n unclaimed } := by
  have hall := h.assigned.closeEnds (s.lib.outEnds gr n ++ s.lib.inEnds gr n)
    (fun x _ ho => ho.hasBuffers h.sound)
  refine ⟨h.sound.give gr n unclaimed, hall.setLib (fun x => ?_) (fun x => ?_)⟩
  · rw [foldl_lib closeEnd_lib]
    exact give_sizeOf _ _ _ _ _
  · rw [endOpen_release h.sound hgr huse hn]

/-! What the calls on owners have checked, when every end opens and closes. -/

theorem isValidGraph_true {l : Lib} {gr : Int} (h : l.isValidGraph gr = .ok true) : Live l gr := by
  rw [isValidGraph_eq] at h
  split at h
  · cases h
  · obtain ⟨hm, hv, hu⟩ := of_decide_eq_true (Except.ok.inj h)
    exact ⟨hm, hv, hu⟩

theorem claimNode_cases {l l' : Lib} {node : NodeHandle} {tid self : Int} {ret : Bool}
    (h : claimNode l node tid self allOpen = .ok (ret, l')) :
    (ret = false ∧ l' = l) ∨ (ret = true ∧ Live l node.graph ∧
      node.node.toNat < (l.graphs node.graph.toNat).nrNodes ∧
      ((l.graphs node.graph.toNat).nodes node.node.toNat).owner = unclaimed ∧
      l' = l.give node.graph.toNat node.node.toNat (threadOf tid self)) := by
  unfold claimNode at h
  split at h
  · cases h
  · obtain ⟨rfl, rfl⟩ := Prod.mk.inj (Except.ok.inj h)
    exact Or.inl ⟨rfl, rfl⟩
  · rename_i hv
    have hl := isValidGraph_true hv
    rw [hl.graphAt] at h
    simp only [GraphRec.claim, endsOk_allOpen] at h
    split at h
    · obtain ⟨rfl, rfl⟩ := Prod.mk.inj (Except.ok.inj h)
      exact Or.inl ⟨rfl, setGraph_eq_self _ _⟩
    rename_i hn
    split at h
    · obtain ⟨rfl, rfl⟩ := Prod.mk.inj (Except.ok.inj h)
      exact Or.inl ⟨rfl, setGraph_eq_self _ _⟩
    rename_i hfree
    obtain ⟨rfl, rfl⟩ := Prod.mk.inj (Except.ok.inj h)
    exact Or.inr ⟨rfl, hl, by omega, not_not.mp hfree, rfl⟩

theorem claimAnyNode_cases {l l' : Lib} {graph : Int} {dst : Bool} {tid self : Int}
    {ret : Option NodeHandle} (h : claimAnyNode l graph dst tid self allOpen = .ok (ret, l')) :
    (ret = none ∧ l' = l) ∨ ∃ n : Nat, ret = some ⟨graph, n⟩ ∧ Live l graph ∧
      n < (l.graphs graph.toNat).nrNodes ∧
      ((l.graphs graph.toNat).nodes n).owner = unclaimed ∧
      l' = l.give graph.toNat n (threadOf tid self) := by
  unfold claimAnyNode at h
  split at h
  · cases h
  · obtain ⟨rfl, rfl⟩ := Prod.mk.inj (Except.ok.inj h)
    exact Or.inl ⟨rfl, rfl⟩
  · rename_i hv
    have hl := isValidGraph_true hv
    split at h
    · obtain ⟨rfl, rfl⟩ := Prod.mk.inj (Except.ok.inj h)
      exact Or.inl ⟨rfl, rfl⟩
    rw [hl.graphAt] at h
    simp only [GraphRec.claimAny, endsOk_allOpen, if_true] at h
    cases hfind : (l.graphs graph.toNat).unclaimed? with
    | none =>
      simp only [hfind] at h
      obtain ⟨rfl, rfl⟩ := Prod.mk.inj (Except.ok.inj h)
      exact Or.inl ⟨rfl, setGraph_eq_self _ _⟩
    | some n =>
      simp only [hfind] at h
      obtain ⟨rfl, rfl⟩ := Prod.mk.inj (Except.ok.inj h)
      obtain ⟨hfree, hmem, -⟩ := List.find?_range_eq_some.mp hfind
      exact Or.inr ⟨n, rfl, hl, List.mem_range.mp hmem, eq_of_beq hfree, rfl⟩

theorem releaseNode_cases {l l' : Lib} {node : NodeHandle} {tid self : Int} {ret : Bool}
    (h : releaseNode l node tid self allOpen = .ok (ret, l')) :
    (ret = false ∧ l' = l) ∨ (ret = true ∧ Live l node.graph ∧
      node.node.toNat < (l.graphs node.graph.toNat).nrNodes ∧
      l' = l.give node.graph.toNat node.node.toNat unclaimed) := by
  unfold releaseNode at h
  split at h
  · cases h
  · obtain ⟨rfl, rfl⟩ := Prod.mk.inj (Except.ok.inj h)
    exact Or.inl ⟨rfl, rfl⟩
  · rename_i hv
    have hl := isValidGraph_true hv
    rw [hl.graphAt] at h
    simp only [GraphRec.release, endsOk_allOpen] at h
    split at h
    · rename_i hacc
      obtain ⟨rfl, rfl⟩ := Prod.mk.inj (Except.ok.inj h)
      refine Or.inr ⟨rfl, hl, ?_, rfl⟩
      simp only [GraphRec.accepts, Bool.not_eq_true', Bool.or_eq_false_iff,
        decide_eq_false_iff_not] at hacc
      omega
    · obtain ⟨rfl, rfl⟩ := Prod.mk.inj (Except.ok.inj h)
      exact Or.inl ⟨rfl, setGraph_eq_self _ _⟩

theorem toOption_snd {α : Type} {e : Except Fault (α × Bufs)}
    (h : e.toOption.map Prod.snd = some s') : ∃ r, e = .ok (r, s') := by
  cases e with
  | error f => cases h
  | ok p => exact ⟨p.1, congrArg Except.ok (Prod.ext rfl (Option.some.inj h))⟩

theorem BufInv.claim {node : NodeHandle} {tid self : Nat} {ret : Bool} (h : BufInv s)
    (hc : claimBufs A s node tid self = .ok (ret, s')) : BufInv s' := by
  unfold claimBufs at hc
  split at hc
  · cases hc
  · rename_i l hclaim
    obtain ⟨-, rfl⟩ := Prod.mk.inj (Except.ok.inj hc)
    rcases claimNode_cases hclaim with ⟨-, rfl⟩ | ⟨hret, -⟩
    · exact h
    · cases hret
  · rename_i l hclaim
    obtain ⟨-, rfl⟩ := Prod.mk.inj (Except.ok.inj hc)
    rcases claimNode_cases hclaim with ⟨hret, -⟩ | ⟨-, hl, hn, hfree, rfl⟩
    · cases hret
    · exact h.openNode ((Int.toNat_lt hl.valid.1).mpr hl.valid.2) hl.inUse hn hfree
        (threadOf_ne tid self)

theorem BufInv.claimAny {graph : Int} {dst : Bool} {tid self : Nat} {ret : Option NodeHandle}
    (h : BufInv s) (hc : claimAnyBufs A s graph dst tid self = .ok (ret, s')) : BufInv s' := by
  unfold claimAnyBufs at hc
  split at hc
  · cases hc
  · rename_i l hclaim
    obtain ⟨-, rfl⟩ := Prod.mk.inj (Except.ok.inj hc)
    rcases claimAnyNode_cases hclaim with ⟨-, rfl⟩ | ⟨n, hret, -⟩
    · exact h
    · cases hret
  · rename_i node l hclaim
    obtain ⟨-, rfl⟩ := Prod.mk.inj (Except.ok.inj hc)
    rcases claimAnyNode_cases hclaim with ⟨hret, -⟩ | ⟨n, hret, hl, hn, hfree, rfl⟩
    · cases hret
    · obtain rfl := Option.some.inj hret
      exact h.openNode ((Int.toNat_lt hl.valid.1).mpr hl.valid.2) hl.inUse hn hfree
        (threadOf_ne tid self)

theorem BufInv.release {node : NodeHandle} {tid self : Nat} {ret : Bool} (h : BufInv s)
    (hc : releaseBufs s node tid self = .ok (ret, s')) : BufInv s' := by
  unfold releaseBufs at hc
  split at hc
  · cases hc
  · rename_i l hrel
    obtain ⟨-, rfl⟩ := Prod.mk.inj (Except.ok.inj hc)
    rcases releaseNode_cases hrel with ⟨-, rfl⟩ | ⟨hret, -⟩
    · exact h
    · cases hret
  · rename_i l hrel
    obtain ⟨-, rfl⟩ := Prod.mk.inj (Except.ok.inj hc)
    rcases releaseNode_cases hrel with ⟨hret, -⟩ | ⟨-, hl, hn, rfl⟩
    · cases hret
    · exact h.closeNode ((Int.toNat_lt hl.valid.1).mpr hl.valid.2) hl.inUse hn

theorem BufInv.malloc {edge : EdgeHandle} {producer : Bool} {ret : Option Nat} (h : BufInv s)
    (hc : mallocEdgeBuf A s edge producer = .ok (ret, s')) : BufInv s' := by
  unfold mallocEdgeBuf at hc
  split at hc
  · cases hc
  · obtain ⟨-, rfl⟩ := Prod.mk.inj (Except.ok.inj hc)
    exact h
  split at hc
  · cases hc
  split at hc
  · cases hc
  obtain ⟨-, rfl⟩ := Prod.mk.inj (Except.ok.inj hc)
  exact ⟨h.sound, h.assigned.malloc _⟩

theorem edgeAt_ok {g : GraphRec} {edge : Int} {e : EdgeRec} (h : g.edgeAt edge = .ok e) :
    0 ≤ edge := by
  unfold GraphRec.edgeAt at h
  split at h
  · rename_i he
    exact he.1
  · cases h

/-- A header that does not name both a graph and an edge names neither. -/
theorem named_bad {h : Hdr} (hn : h.assignedEdge = badEdge ∨
    ∃ gr e : Nat, h.assignedEdge = ⟨gr, e⟩)
    (hb : ¬ (h.assignedEdge.graph ≠ badEdge.graph ∧ h.assignedEdge.edge ≠ badEdge.edge)) :
    h.assignedEdge = badEdge := by
  refine hn.resolve_right ?_
  rintro ⟨gr, e, he⟩
  rw [he] at hb
  simp only [badEdge] at hb
  omega

/-- A call of `__pgm_swap_edge_buf` is rejected and changes nothing, or it exchanges a live buffer
that is not assigned with that of an open end. -/
theorem swapEdgeBuf_cases {edge : EdgeHandle} {b : Option Nat} {producer : Bool} {ret : Option Nat}
    (hc : swapEdgeBuf s edge b producer = .ok (ret, s')) : (ret = none ∧ s' = s) ∨
      ∃ c old, Live s.lib edge.graph ∧ 0 ≤ edge.edge ∧ c ∈ s.live ∧
        ¬ ((s.hdr c).assignedEdge.graph ≠ badEdge.graph ∧
          (s.hdr c).assignedEdge.edge ≠ badEdge.edge) ∧
        s.ptr ⟨edge.graph.toNat, edge.edge.toNat, producer⟩ = some old ∧
        (s.hdr c).usersize = (s.hdr old).usersize ∧ ret = some old ∧
        s' = { s with
          hdr := Function.update (Function.update s.hdr c
            ⟨(s.hdr c).usersize, edge, (s.hdr old).producerFlag⟩) old
            { Function.update s.hdr c ⟨(s.hdr c).usersize, edge, (s.hdr old).producerFlag⟩ old with
              assignedEdge := badEdge }
          ptr := Function.update s.ptr ⟨edge.graph.toNat, edge.edge.toNat, producer⟩ (some c) } := by
  have hsame : (Except.ok (none, s) : Except Fault (Option Nat × Bufs)) = .ok (ret, s') →
      ret = none ∧ s' = s := by
    intro h
    obtain ⟨rfl, rfl⟩ := Prod.mk.inj (Except.ok.inj h)
    exact ⟨rfl, rfl⟩
  unfold swapEdgeBuf at hc
  split at hc
  · exact Or.inl (hsame hc)
  rename_i c
  split at hc
  · cases hc
  · exact Or.inl (hsame hc)
  rename_i hv
  split at hc
  · cases hc
  split at hc
  · cases hc
  rename_i e hedge
  split at hc
  · exact Or.inl (hsame hc)
  split at hc
  · cases hc
  rename_i hlive
  split at hc
  · exact Or.inl (hsame hc)
  rename_i hbad
  split at hc
  · cases hc
  rename_i old hptr
  split at hc
  · exact Or.inl (hsame hc)
  rename_i hsize
  obtain ⟨rfl, rfl⟩ := Prod.mk.inj (Except.ok.inj hc)
  exact Or.inr ⟨c, old, isValidGraph_true hv, edgeAt_ok hedge, not_not.mp hlive, hbad, hptr,
    not_not.mp hsize, rfl, rfl⟩

theorem BufInv.swap {edge : EdgeHandle} {b : Option Nat} {producer : Bool} {ret : Option Nat}
    (h : BufInv s) (hc : swapEdgeBuf s edge b producer = .ok (ret, s')) : BufInv s' := by
  rcases swapEdgeBuf_cases hc with ⟨-, rfl⟩ | ⟨c, old, hl, he, hlive, hbad, hptr, hsize, -, rfl⟩
  · exact h
  · have hb := named_bad (h.assigned.named c hlive) hbad
    have hrep := h.assigned.replace hptr hlive hb hsize
    simp only [Int.toNat_of_nonneg hl.valid.1, Int.toNat_of_nonneg he] at hrep
    exact ⟨h.sound, hrep⟩

/-- A live buffer offered to an end with a buffer is taken or rejected. -/
theorem swapEdgeBuf_ok {edge : EdgeHandle} {producer : Bool} {b old : Nat}
    (hl : Live s.lib edge.graph) (he : 0 ≤ edge.edge ∧ edge.edge < maxEdges) (hb : b ∈ s.live)
    (hold : s.ptr ⟨edge.graph.toNat, edge.edge.toNat, producer⟩ = some old) :
    ∃ r, swapEdgeBuf s edge (some b) producer = .ok r := by
  simp only [swapEdgeBuf, hl.isValidGraph, hl.graphAt, GraphRec.edgeAt, if_pos he, hold,
    if_neg (not_not.mpr hb)]
  split
  · exact ⟨_, rfl⟩
  split
  · exact ⟨_, rfl⟩
  split
  · exact ⟨_, rfl⟩
  · exact ⟨_, rfl⟩

/-- A live buffer offered to an open end is taken or rejected. -/
theorem BufInv.swap_ok (h : BufInv s) (hx : s.lib.EndOpen x) {b : Nat} (hb : b ∈ s.live) :
    ∃ r, swapEdgeBuf s ⟨x.graph, x.edge⟩ (some b) x.producer = .ok r := by
  have hedges := (h.sound x.graph hx.graph hx.inUse).1.edges
  obtain ⟨old, hold⟩ := Option.isSome_iff_exists.mp ((h.assigned.opened x).mpr hx)
  cases hm : s.lib.mapped with
  | false =>
    have hv : s.lib.isValidGraph x.graph = .ok false := by
      rw [isValidGraph_eq, hm]
      simp
    simp only [swapEdgeBuf, hv]
    exact ⟨_, rfl⟩
  | true =>
    have hl : Live s.lib x.graph :=
      ⟨hm, ⟨Int.natCast_nonneg _, Int.ofNat_lt.mpr hx.graph⟩, hx.inUse⟩
    have he : 0 ≤ (x.edge : Int) ∧ (x.edge : Int) < maxEdges :=
      ⟨Int.natCast_nonneg _, Int.ofNat_lt.mpr (hx.edge.trans hedges)⟩
    exact swapEdgeBuf_ok hl he hb hold

/-- The slot named by the header of an assigned buffer is the end that points to it. -/
theorem BufInv.slot_eq (h : BufInv s) {b : Nat} (hb : b ∈ s.live)
    (ha : (s.hdr b).isAssigned = true) : ∃ x, (s.hdr b).slot = .ok x ∧ s.ptr x = some b := by
  obtain ⟨x, hback⟩ : ∃ x, backs s.hdr b = some x := ⟨_, if_pos ha⟩
  have hptr := h.assigned.paired.owned b hb x hback
  obtain ⟨-, hhdr⟩ := h.assigned.hdr_eq hptr
  have hopen : s.lib.EndOpen x := (h.assigned.opened x).mp (by rw [hptr]; rfl)
  have hedges := (h.sound x.graph hopen.graph hopen.inUse).1.edges
  have hg : (0 : Int) ≤ x.graph ∧ (x.graph : Int) < maxGraphs :=
    ⟨Int.natCast_nonneg _, Int.ofNat_lt.mpr hopen.graph⟩
  have he : (0 : Int) ≤ x.edge ∧ (x.edge : Int) < maxEdges :=
    ⟨Int.natCast_nonneg _, Int.ofNat_lt.mpr (hopen.edge.trans hedges)⟩
  refine ⟨x, ?_, hptr⟩
  rw [hhdr]
  simp only [Hdr.slot, if_pos hg, if_pos he, Int.toNat_natCast]

/-- A call of `pgm_swap_edge_bufs` is rejected and changes nothing, or it exchanges the buffers of
two ends. -/
theorem swapEdgeBufs_cases {a b : Option Nat} {ret : Bool}
    (hc : swapEdgeBufs s a b = .ok (ret, s')) : (ret = false ∧ s' = s) ∨
      ∃ c d x y, c ∈ s.live ∧ d ∈ s.live ∧ c ≠ d ∧ (s.hdr c).isAssigned = true ∧
        (s.hdr d).isAssigned = true ∧ (s.hdr c).usersize = (s.hdr d).usersize ∧
        (s.hdr c).slot = .ok x ∧ (s.hdr d).slot = .ok y ∧ ret = true ∧
        s' = { s with
          ptr := Function.update (Function.update s.ptr x (s.ptr y)) y (s.ptr x)
          hdr := Function.update (Function.update s.hdr c
              ⟨(s.hdr c).usersize, (s.hdr d).assignedEdge, (s.hdr d).producerFlag⟩) d
            ⟨(s.hdr d).usersize, (s.hdr c).assignedEdge, (s.hdr c).producerFlag⟩ } := by
  have hsame : (Except.ok (false, s) : Except Fault (Bool × Bufs)) = .ok (ret, s') →
      ret = false ∧ s' = s := by
    intro h
    obtain ⟨rfl, rfl⟩ := Prod.mk.inj (Except.ok.inj h)
    exact ⟨rfl, rfl⟩
  unfold swapEdgeBufs at hc
  split at hc
  · rename_i c d
    split at hc
    · exact Or.inl (hsame hc)
    rename_i hne
    split at hc
    · cases hc
    rename_i hlive
    split at hc
    · exact Or.inl (hsame hc)
    rename_i hca
    split at hc
    · exact Or.inl (hsame hc)
    rename_i hda
    split at hc
    · exact Or.inl (hsame hc)
    rename_i hsize
    split at hc
    · rename_i x y hx hy
      obtain ⟨rfl, rfl⟩ := Prod.mk.inj (Except.ok.inj hc)
      obtain ⟨hc', hd'⟩ := not_or.mp hlive
      exact Or.inr ⟨c, d, x, y, not_not.mp hc', not_not.mp hd', hne, by simpa using hca,
        by simpa using hda, not_not.mp hsize, hx, hy, rfl, rfl⟩
    · cases hc
    · cases hc
  · exact Or.inl (hsame hc)

theorem BufInv.swapBufs {a b : Option Nat} {ret : Bool} (h : BufInv s)
    (hc : swapEdgeBufs s a b = .ok (ret, s')) : BufInv s' := by
  rcases swapEdgeBufs_cases hc with
    ⟨-, rfl⟩ | ⟨c, d, x, y, hcl, hdl, hne, hca, hda, hsize, hx, hy, -, rfl⟩
  · exact h
  · obtain ⟨x', hx', hpx⟩ := h.slot_eq hcl hca
    obtain ⟨y', hy', hpy⟩ := h.slot_eq hdl hda
    obtain rfl := Except.ok.inj (hx.symm.trans hx')
    obtain rfl := Except.ok.inj (hy.symm.trans hy')
    exact ⟨h.sound, h.assigned.swap hpx hpy hne hsize⟩

/-- Two live buffers are exchanged or rejected. -/
theorem BufInv.swapBufs_ok (h : BufInv s) {a b : Nat} (ha : a ∈ s.live) (hb : b ∈ s.live) :
    ∃ r, swapEdgeBufs s (some a) (some b) = .ok r := by
  have hlive : ¬ (a ∉ s.live ∨ b ∉ s.live) := by simp [ha, hb]
  simp only [swapEdgeBufs, if_neg hlive]
  split
  · exact ⟨_, rfl⟩
  split
  · exact ⟨_, rfl⟩
  rename_i haa
  split
  · exact ⟨_, rfl⟩
  rename_i hba
  split
  · exact ⟨_, rfl⟩
  obtain ⟨x, hx, -⟩ := h.slot_eq ha (by simpa using haa)
  obtain ⟨y, hy, -⟩ := h.slot_eq hb (by simpa using hba)
  rw [hx, hy]
  exact ⟨_, rfl⟩

/-- Every call keeps the pointers and the headers together. -/
theorem bufStep_inv {a : BufCall} (h : BufInv s) (hp : FreesUnassigned s a)
    (hs : bufStep A s a = some s') : BufInv s' := by
  cases a with
  | claim node tid self =>
    obtain ⟨r, hr⟩ := toOption_snd hs
    exact h.claim hr
  | claimAny graph dst tid self =>
    obtain ⟨r, hr⟩ := toOption_snd hs
    exact h.claimAny hr
  | release node tid self =>
    obtain ⟨r, hr⟩ := toOption_snd hs
    exact h.release hr
  | malloc edge producer =>
    obtain ⟨r, hr⟩ := toOption_snd hs
    exact h.malloc hr
  | free b =>
    cases b with
    | none =>
      obtain rfl := Option.some.inj hs
      exact h
    | some b =>
      simp only [bufStep, pgmFree] at hs
      split at hs
      · obtain rfl := Option.some.inj hs
        exact ⟨h.sound, h.assigned.free hp⟩
      · cases hs
  | swap edge b producer =>
    obtain ⟨r, hr⟩ := toOption_snd hs
    exact h.swap hr
  | swapBufs a b =>
    obtain ⟨r, hr⟩ := toOption_snd hs
    exact h.swapBufs hr

/-! ## Whole runs -/

/-- No node is claimed, no end has a buffer and no buffer is live. -/
structure BufStart (s : Bufs) : Prop where
  sound : s.lib.Sound
  free : ∀ gr < maxGraphs, (s.lib.graphs gr).inUse = true → ∀ n < (s.lib.graphs gr).nrNodes,
    ((s.lib.graphs gr).nodes n).owner = unclaimed
  ptr : ∀ x, s.ptr x = none
  live : s.live = ∅

theorem BufStart.inv (h : BufStart s) : BufInv s := by
  refine ⟨h.sound, ?_, ?_, ?_, ?_⟩
  · rw [h.live]
    exact Pairing.empty h.ptr
  · rw [h.live]
    intro b hb
    simp at hb
  · intro x b hx
    rw [h.ptr x] at hx
    cases hx
  · intro x
    rw [h.ptr x]
    refine iff_of_false (by simp) (fun ho => ho.claimed ?_)
    obtain ⟨-, -, -, hp, hc⟩ := (h.sound x.graph ho.graph ho.inUse).1.attrs x.edge ho.edge
    refine h.free x.graph ho.graph ho.inUse _ ?_
    unfold Lib.nodeOf Lib.edgeOf
    split
    · exact hp
    · exact hc

/-- The types of `pgm_edge_type_t`. -/
def edgeTypes : List (BitVec 32) :=
  [pgmEdgeCv ||| pgmSignaled, pgmEdgeRing ||| pgmSignaled ||| pgmDataPassing,
    pgmEdgeFifo ||| pgmSignaled ||| pgmDataPassing, pgmEdgeMq ||| pgmSignaled ||| pgmDataPassing,
    pgmEdgeFifo ||| pgmDataPassing, pgmEdgeMq ||| pgmDataPassing,
    pgmEdgeSockStream ||| pgmDataPassing]

def stepAny (l : Lib) (a : Int × Call) : Option Lib := step a.1 l a.2

/-- A new edge has one of the types of `pgm_edge_type_t`. -/
def Typed (_ : Lib) : Int × Call → Prop
  | (_, .edge _ _ _ x) => x.attr.type ∈ edgeTypes
  | (_, .node _) => True

instance (l : Lib) (a : Int × Call) : Decidable (Typed l a) :=
  match a with
  | (_, .edge _ _ _ x) => inferInstanceAs (Decidable (x.attr.type ∈ edgeTypes))
  | (_, .node _) => inferInstanceAs (Decidable True)

/-- A graph whose tables agree with each other and whose nodes are all unclaimed. -/
structure Unopened (g : GraphRec) : Prop where
  represents : Represents g
  data : ∀ e < g.nrEdges, (g.edges e).hasBuffers = (g.edges e).attr.isDataPassing
  free : ∀ n < g.nrNodes, (g.nodes n).owner = unclaimed

/-- The edges of the types of `pgm_edge_type_t` have buffers when they pass data. -/
theorem hasBuffers_of_type {e : EdgeRec} (ht : e.attr.type ∈ edgeTypes)
    (ho : e.ops = e.attr.ops) : e.hasBuffers = e.attr.isDataPassing := by
  have hall : ∀ t ∈ edgeTypes, ∀ a : Attr, a.type = t → ∀ e : EdgeRec, e.ops = a.ops →
      e.hasBuffers = a.isDataPassing := by
    intro t ht a ha e he
    simp only [edgeTypes, List.mem_cons, List.not_mem_nil, or_false] at ht
    unfold EdgeRec.hasBuffers Attr.isDataPassing
    rw [he]
    unfold Attr.ops Attr.has
    rw [ha]
    rcases ht with rfl | rfl | rfl | rfl | rfl | rfl | rfl <;> decide
  exact hall _ ht _ rfl e ho

theorem Unopened.addNode {g g' : GraphRec} {name : CStr} {i : Nat} (h : Unopened g)
    (ha : g.addNode name = (some i, g')) : Unopened g' := by
  have hrep := h.represents.addNode ha
  unfold GraphRec.addNode at ha
  split at ha
  · cases ha
  obtain ⟨-, rfl⟩ := Prod.mk.inj ha
  refine ⟨hrep, h.data, fun n hn => ?_⟩
  simp only [GraphRec.setNode, Function.update_apply]
  split
  · rfl
  · rename_i hne
    exact h.free n (lt_of_le_of_ne (Nat.lt_succ_iff.mp hn) hne)

theorem countIn_owner (n : NodeRec) (a : Attr) (back : Bool) : (n.countIn a back).owner = n.owner := by
  unfold NodeRec.countIn
  dsimp only
  split <;> split <;> rfl

theorem Unopened.addEdge {g g' : GraphRec} {x : EdgeArgs} {p c : Nat} (h : Unopened g)
    (hcheck : x.attr.check = true) (ht : x.attr.type ∈ edgeTypes) (ha : Added g x p c g') :
    Unopened g' := by
  obtain ⟨e, -, -, -, hattr, hops, hN, hE, hedge, hnode⟩ := ha.view
  refine ⟨h.represents.addEdge hcheck ha, ?_, ?_⟩
  · intro i hi
    rw [hE] at hi
    rw [hedge]
    rcases Nat.lt_succ_iff_lt_or_eq.mp hi with hlt | rfl
    · rw [Function.update_of_ne hlt.ne]
      exact h.data i hlt
    · rw [Function.update_self]
      exact hasBuffers_of_type (hattr ▸ ht) (hattr ▸ hops)
  · intro n hn
    rw [hN] at hn
    rw [hnode]
    dsimp only
    split
    · rw [countIn_owner]
      exact h.free n hn
    · exact h.free n hn

theorem stepAny_unopened {l l' : Lib} {a : Int × Call} (h : ∀ gr, Unopened (l.graphs gr))
    (ht : Typed l a) (hs : stepAny l a = some l') : ∀ gr, Unopened (l'.graphs gr) := by
  obtain ⟨gr, a⟩ := a
  intro i
  obtain ⟨g', rfl, hcases⟩ := step_cases hs
  simp only [Lib.setGraph, Function.update_apply]
  split
  · rename_i hi
    subst hi
    rcases hcases with ⟨name, k, rfl, hadd⟩ | ⟨env, p, c, x, k, rfl, hcheck, hadd⟩
    · exact (h _).addNode hadd
    · exact (h _).addEdge hcheck ht (addEdge_some hadd).2.2.2
  · exact h i

theorem bufStart_of_calls {l l' : Lib} (hl : ∀ gr, l.graphs gr = .fresh)
    (hr : Lts.Reach stepAny Typed l l') (hdr : Nat → Hdr) (k : Nat) :
    BufStart ⟨l', fun _ => none, ∅, hdr, k⟩ := by
  have h : ∀ gr, Unopened (l'.graphs gr) := by
    refine Lts.Reach.inv (I := fun l => ∀ gr, Unopened (l.graphs gr)) ?_
      (fun _ _ _ _ hI hp hst => stepAny_unopened hI hp hst) hr
    intro gr
    rw [hl gr]
    exact ⟨fresh_represents, nofun, nofun⟩
  exact ⟨fun gr _ _ => ⟨(h gr).represents, (h gr).data⟩, fun gr _ _ => (h gr).free,
    fun _ => rfl, rfl⟩

/-- **Buffers and ends are paired.** From a library without claimed nodes and buffers, after any
sequence of claims and releases with no failing operation, allocations, exchanges of live buffers
at open ends and releases of unassigned buffers:

* every open end of a data-passing edge points to a live buffer whose header has the end's size,
  edge and role;
* a live buffer that is assigned is pointed to by the end that its header names, and by no other;
* a live buffer that is not assigned is pointed to by no end;
* a rejected exchange changes nothing;
* an exchange of a live buffer at an open end, or of two live buffers, stays inside the tables. -/
theorem buffers_paired {s₀ : Bufs} (h₀ : BufStart s₀)
    (hs : Lts.Reach (bufStep A) FreesUnassigned s₀ s) :
    (∀ x, s.lib.EndOpen x → ∃ b ∈ s.live, s.ptr x = some b ∧
      s.hdr b = ⟨s.lib.sizeOf x, ⟨x.graph, x.edge⟩, x.producer⟩) ∧
    (∀ b ∈ s.live, (s.hdr b).assignedEdge ≠ badEdge → ∃ x, s.lib.EndOpen x ∧
      (s.hdr b).assignedEdge = ⟨x.graph, x.edge⟩ ∧ (s.hdr b).producerFlag = x.producer ∧
      ∀ y, s.ptr y = some b ↔ y = x) ∧
    (∀ b ∈ s.live, (s.hdr b).assignedEdge = badEdge → ∀ x, s.ptr x ≠ some b) ∧
    (∀ edge b producer s', swapEdgeBuf s edge b producer = .ok (none, s') → s' = s) ∧
    (∀ a b s', swapEdgeBufs s a b = .ok (false, s') → s' = s) ∧
    (∀ x b, s.lib.EndOpen x → b ∈ s.live →
      ∃ r, swapEdgeBuf s ⟨x.graph, x.edge⟩ (some b) x.producer = .ok r) ∧
    (∀ a b, a ∈ s.live → b ∈ s.live → ∃ r, swapEdgeBufs s (some a) (some b) = .ok r) := by
  have h : BufInv s := Lts.Reach.inv (I := BufInv) h₀.inv
    (fun _ _ _ _ hI hp hst => bufStep_inv hI hp hst) hs
  refine ⟨?_, ?_, ?_, ?_, ?_, ?_, ?_⟩
  · intro x hx
    obtain ⟨b, hb⟩ := Option.isSome_iff_exists.mp ((h.assigned.opened x).mpr hx)
    obtain ⟨hlive, hhdr⟩ := h.assigned.hdr_eq hb
    exact ⟨b, hlive, hb, hhdr⟩
  · intro b hb ha
    obtain ⟨x, hback⟩ : ∃ x, backs s.hdr b = some x := ⟨_, if_pos (isAssigned_iff.mpr ha)⟩
    have hptr := h.assigned.paired.owned b hb x hback
    obtain ⟨hedge, hflag⟩ := end?_eq_some (h.assigned.named b hb) hback
    refine ⟨x, (h.assigned.opened x).mp (by rw [hptr]; rfl), hedge, hflag, fun y => ?_⟩
    exact ⟨fun hy => h.assigned.paired.inj hy hptr, fun hy => hy ▸ hptr⟩
  · intro b hb hbad x hx
    obtain ⟨-, hhdr⟩ := h.assigned.hdr_eq hx
    rw [hhdr] at hbad
    simp [badEdge] at hbad
  · intro edge b producer s' hc
    rcases swapEdgeBuf_cases hc with ⟨-, hsame⟩ | ⟨c, old, -, -, -, -, -, -, hret, -⟩
    · exact hsame
    · cases hret
  · intro a b s' hc
    rcases swapEdgeBufs_cases hc with ⟨-, hsame⟩ | ⟨c, d, x, y, -, -, -, -, -, -, -, -, hret, -⟩
    · exact hsame
    · cases hret
  · intro x b hx hb
    exact h.swap_ok hx hb
  · intro a b ha hb
    exact h.swapBufs_ok ha hb

end

def upAllocator : Allocator where
  pick _ live := live.sup id + 1
  fresh _ _ := fun h => absurd (Finset.le_sup (f := id) h) (Nat.not_succ_le_self _)

/-- Both nodes of the loop are claimed, a new buffer is put in place of the ring's `buf_out`, the
buffers of the two ends of the ring change places, and the old buffer is freed. -/
def exchangeCalls : List BufCall :=
  [.claim ⟨0, 0⟩ 1 1, .claim ⟨0, 1⟩ 2 2, .malloc ⟨0, 0⟩ true, .swap ⟨0, 0⟩ (some 3) true,
    .swapBufs (some 3) (some 2), .free (some 1)]

theorem buffers_paired_exchange : ∃ s₀ s, BufStart s₀ ∧
    Lts.Reach (bufStep upAllocator) FreesUnassigned s₀ s ∧ s.live = {2, 3} ∧
    ∃ x, s.lib.EndOpen x ∧ x = ⟨0, 0, true⟩ ∧ ∀ y, s.ptr y = some 2 ↔ y = x := by
  have hd : ((Lts.drive stepAny (fun l a => decide (Typed l a)) newLib
      (loopCalls.map (Prod.mk 0))).bind (fun l =>
        (Lts.drive (bufStep upAllocator) (fun s a => decide (FreesUnassigned s a))
          ⟨l, fun _ => none, ∅, fun _ => ⟨0, badEdge, false⟩, 0⟩ exchangeCalls).map
        (fun s => (s.live, (s.hdr 2).assignedEdge, s.ptr ⟨0, 0, true⟩)))) =
      some ({2, 3}, ⟨0, 0⟩, some 2) := by decide +kernel
  obtain ⟨l, hl, hd⟩ := Option.bind_eq_some_iff.mp hd
  obtain ⟨s, hs, hobs⟩ := Option.map_eq_some_iff.mp hd
  obtain ⟨hlive, hedge, hptr⟩ : s.live = {2, 3} ∧ (s.hdr 2).assignedEdge = ⟨0, 0⟩ ∧
      s.ptr ⟨0, 0, true⟩ = some 2 := by simpa using hobs
  have h₀ := bufStart_of_calls (fun _ => rfl)
    (Lts.reach_of_drive (fun _ _ => of_decide_eq_true) hl) (fun _ => ⟨0, badEdge, false⟩) 0
  have hr := Lts.reach_of_drive (P := FreesUnassigned) (fun _ _ => of_decide_eq_true) hs
  have hmem : 2 ∈ s.live := by rw [hlive]; decide
  obtain ⟨x, hx, -, -, hall⟩ := (buffers_paired h₀ hr).2.1 2 hmem (by rw [hedge]; decide)
  exact ⟨_, s, h₀, hr, hlive, x, hx, ((hall _).mp hptr).symm, hall⟩

end Pgm.Tables
