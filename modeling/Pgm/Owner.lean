import Pgm.Represent

/-!
# Who owns a node

`pgm_claim_node`, `pgm_claim_any_node` and `pgm_release_node`, with an answer from the environment
for every operation that opens or closes one end of an edge. A run keeps the outcomes of its calls
in a log, from which it can be read off who should own a node. `ownership_iff` says that the owner
fields agree with the log along a run exactly when no claim fails to open an end.
-/

namespace Pgm.Tables

/-! ## The calls -/

/-- Which of the operations on the ends of a node succeed, by the edge. -/
structure Ends where
  consumer : Nat → Bool
  producer : Nat → Bool

/-- The operations on the ends of node `n` all return 0. The source goes on after one that does
not and remembers the error. -/
def GraphRec.endsOk (g : GraphRec) (n : Nat) (o : Ends) : Bool :=
  (g.nodes n).ins.all o.consumer && (g.nodes n).outs.all o.producer

def GraphRec.setOwner (g : GraphRec) (n : Nat) (t : Int) : GraphRec :=
  g.setNode n { g.nodes n with owner := t }

/-- The thread that a call is for: `self` is what `pgm_gettid` returns. -/
def threadOf (tid self : Int) : Int := if tid = 0 then self else tid

/-- `pgm_claim_node` on a valid graph. -/
def GraphRec.claim (g : GraphRec) (node tid self : Int) (o : Ends) : Bool × GraphRec :=
  if node < 0 ∨ node ≥ g.nrNodes then (false, g)
  else if (g.nodes node.toNat).owner ≠ unclaimed then (false, g)
  else (g.endsOk node.toNat o, g.setOwner node.toNat (threadOf tid self))

def claimNode (l : Lib) (node : NodeHandle) (tid self : Int) (o : Ends) :
    Except Fault (Bool × Lib) :=
  match l.isValidGraph node.graph with
  | .error f => .error f
  | .ok false => .ok (false, l)
  | .ok true =>
    match l.graphAt node.graph with
    | .error f => .error f
    | .ok g =>
      .ok ((g.claim node.node tid self o).1,
        l.setGraph node.graph.toNat (g.claim node.node tid self o).2)

def GraphRec.unclaimed? (g : GraphRec) : Option Nat :=
  (List.range g.nrNodes).find? (fun i => (g.nodes i).owner == unclaimed)

/-- `pgm_claim_any_node` on a valid graph. -/
def GraphRec.claimAny (g : GraphRec) (tid self : Int) (o : Ends) : Option Nat × GraphRec :=
  match g.unclaimed? with
  | none => (none, g)
  | some i => (if g.endsOk i o then some i else none, g.setOwner i (threadOf tid self))

def claimAnyNode (l : Lib) (graph : Int) (dst : Bool) (tid self : Int) (o : Ends) :
    Except Fault (Option NodeHandle × Lib) :=
  match l.isValidGraph graph with
  | .error f => .error f
  | .ok false => .ok (none, l)
  | .ok true =>
    if !dst then .ok (none, l)
    else
      match l.graphAt graph with
      | .error f => .error f
      | .ok g =>
        .ok ((g.claimAny tid self o).1.map (fun (i : Nat) => ⟨graph, i⟩),
          l.setGraph graph.toNat (g.claimAny tid self o).2)

/-- The test of `pgm_release_node`. -/
def GraphRec.accepts (g : GraphRec) (node tid : Int) : Bool :=
  !(node < 0 || node ≥ g.nrNodes || (g.nodes node.toNat).owner != tid ||
    (g.nodes node.toNat).owner == unclaimed)

/-- `pgm_release_node` on a valid graph. -/
def GraphRec.release (g : GraphRec) (node tid self : Int) (o : Ends) : Bool × GraphRec :=
  if g.accepts node (threadOf tid self) then
    (g.endsOk node.toNat o, g.setOwner node.toNat unclaimed)
  else (false, g)

def releaseNode (l : Lib) (node : NodeHandle) (tid self : Int) (o : Ends) :
    Except Fault (Bool × Lib) :=
  match l.isValidGraph node.graph with
  | .error f => .error f
  | .ok false => .ok (false, l)
  | .ok true =>
    match l.graphAt node.graph with
    | .error f => .error f
    | .ok g =>
      .ok ((g.release node.node tid self o).1,
        l.setGraph node.graph.toNat (g.release node.node tid self o).2)

/-! ## Runs and their outcomes -/

inductive Outcome where
  /-- A claim of node `n` for thread `t` returned 0. -/
  | claimed (n : Nat) (t : Int)
  /-- A claim returned -1. -/
  | refused
  /-- A release of node `n` by thread `t` passed the test. -/
  | released (n : Nat) (t : Int)
  /-- A release did not pass the test. -/
  | ignored
  deriving DecidableEq

/-- The library and the outcomes so far, newest first. -/
structure Owned where
  lib : Lib
  log : List Outcome

/-- A call on one graph, by a thread with kernel id `self` and for thread `tid`. -/
inductive OwnCall where
  | claim (node : Int) (tid self : Nat) (o : Ends)
  | claimAny (tid self : Nat) (o : Ends)
  | release (node : Int) (tid self : Nat) (o : Ends)

def ownStep (gr : Int) (s : Owned) : OwnCall → Option Owned
  | .claim node tid self o =>
    match claimNode s.lib ⟨gr, node⟩ tid self o with
    | .error _ => none
    | .ok (true, l) => some ⟨l, .claimed node.toNat (threadOf tid self) :: s.log⟩
    | .ok (false, l) => some ⟨l, .refused :: s.log⟩
  | .claimAny tid self o =>
    match claimAnyNode s.lib gr true tid self o with
    | .error _ => none
    | .ok (some n, l) => some ⟨l, .claimed n.node.toNat (threadOf tid self) :: s.log⟩
    | .ok (none, l) => some ⟨l, .refused :: s.log⟩
  | .release node tid self o =>
    match releaseNode s.lib ⟨gr, node⟩ tid self o with
    | .error _ => none
    | .ok (_, l) =>
      if (s.lib.graphs gr.toNat).accepts node (threadOf tid self) then
        some ⟨l, .released node.toNat (threadOf tid self) :: s.log⟩
      else some ⟨l, .ignored :: s.log⟩

/-- A claim of `n` for `t` returned 0, and no release of `n` by `t` was accepted since then. -/
def HeldBy (log : List Outcome) (n : Nat) (t : Int) : Prop :=
  ∃ later earlier, log = later ++ .claimed n t :: earlier ∧ .released n t ∉ later

def Owned.owner (s : Owned) (gr : Int) (n : Nat) : Int := ((s.lib.graphs gr.toNat).nodes n).owner

def Owned.nrNodes (s : Owned) (gr : Int) : Nat := (s.lib.graphs gr.toNat).nrNodes

def OwnersMatch (gr : Int) (s : Owned) : Prop :=
  ∀ n < s.nrNodes gr, (s.owner gr n ≠ unclaimed ↔ ∃ t, HeldBy s.log n t) ∧
    ∀ t, HeldBy s.log n t → s.owner gr n = t

/-- What is asked of a call that leads from `s` to `s'`. -/
structure Exclusive (gr : Int) (s : Owned) (a : OwnCall) (s' : Owned) : Prop where
  owners : OwnersMatch gr s'
  /-- A node is claimed only while nobody holds it. -/
  once : ∀ n t, s'.log.head? = some (.claimed n t) → ∀ u, ¬ HeldBy s.log n u
  /-- A claim that fails changes no owner. -/
  refused : s'.log.head? = some .refused → ∀ n, s'.owner gr n = s.owner gr n
  /-- A claim of any node fails only when there is none left. -/
  exhausted : ∀ tid self o, a = .claimAny tid self o → s'.log.head? = some .refused →
    ∀ n < s.nrNodes gr, s.owner gr n ≠ unclaimed

/-- If the call comes to open the ends of a node, all of them can be opened. -/
def Opens (gr : Int) (s : Owned) : OwnCall → Prop
  | .claim node _ _ o => 0 ≤ node → node < s.nrNodes gr → s.owner gr node.toNat = unclaimed →
      (s.lib.graphs gr.toNat).endsOk node.toNat o = true
  | .claimAny _ _ o => ∀ n, (s.lib.graphs gr.toNat).unclaimed? = some n →
      (s.lib.graphs gr.toNat).endsOk n o = true
  | .release _ _ _ _ => True

section

variable {gr : Int} {s s' : Owned} {a : OwnCall}

/-! ## What a call can do -/

/-- The library after node `n` of graph `gr` got owner `t`. -/
def Owned.give (s : Owned) (gr : Int) (n : Nat) (t : Int) : Lib :=
  s.lib.setGraph gr.toNat ((s.lib.graphs gr.toNat).setOwner n t)

/-- What a call on a valid graph leads to. -/
inductive OwnMove (gr : Int) (s : Owned) : OwnCall → Owned → Prop
  /-- A claim sets the owner and opens all ends. -/
  | took {a : OwnCall} {n : Nat} {t : Int} (hn : n < s.nrNodes gr)
      (hfree : s.owner gr n = unclaimed) (ht : t ≠ unclaimed) (ho : Opens gr s a) :
      OwnMove gr s a ⟨s.give gr n t, .claimed n t :: s.log⟩
  /-- A claim sets the owner and cannot open all ends. -/
  | leaked {a : OwnCall} {n : Nat} {t : Int} (hn : n < s.nrNodes gr)
      (hfree : s.owner gr n = unclaimed) (ht : t ≠ unclaimed) (ho : ¬ Opens gr s a) :
      OwnMove gr s a ⟨s.give gr n t, .refused :: s.log⟩
  /-- A claim finds no node to take. -/
  | refused {a : OwnCall} (ho : Opens gr s a) (hall : ∀ tid self o, a = .claimAny tid self o →
      ∀ n < s.nrNodes gr, s.owner gr n ≠ unclaimed) : OwnMove gr s a ⟨s.lib, .refused :: s.log⟩
  /-- A release by the owner. -/
  | released {node : Int} {tid self : Nat} {o : Ends} {n : Nat} {t : Int} (hn : n < s.nrNodes gr)
      (hown : s.owner gr n = t) (ht : t ≠ unclaimed) :
      OwnMove gr s (.release node tid self o) ⟨s.give gr n unclaimed, .released n t :: s.log⟩
  /-- A release by someone else. -/
  | ignored {node : Int} {tid self : Nat} {o : Ends} :
      OwnMove gr s (.release node tid self o) ⟨s.lib, .ignored :: s.log⟩

theorem threadOf_ne (tid self : Nat) : threadOf tid self ≠ unclaimed := by
  unfold threadOf unclaimed
  split <;> omega

theorem claimNode_eq {l : Lib} (hl : Live l gr) (node tid self : Int) (o : Ends) :
    claimNode l ⟨gr, node⟩ tid self o = .ok (((l.graphs gr.toNat).claim node tid self o).1,
      l.setGraph gr.toNat ((l.graphs gr.toNat).claim node tid self o).2) := by
  unfold claimNode
  simp only [hl.isValidGraph, hl.graphAt]

theorem claimAnyNode_eq {l : Lib} (hl : Live l gr) (tid self : Int) (o : Ends) :
    claimAnyNode l gr true tid self o =
      .ok (((l.graphs gr.toNat).claimAny tid self o).1.map (fun (i : Nat) => ⟨gr, i⟩),
        l.setGraph gr.toNat ((l.graphs gr.toNat).claimAny tid self o).2) := by
  unfold claimAnyNode
  simp only [hl.isValidGraph, hl.graphAt, Bool.not_true, Bool.false_eq_true, if_false]

theorem releaseNode_eq {l : Lib} (hl : Live l gr) (node tid self : Int) (o : Ends) :
    releaseNode l ⟨gr, node⟩ tid self o = .ok (((l.graphs gr.toNat).release node tid self o).1,
      l.setGraph gr.toNat ((l.graphs gr.toNat).release node tid self o).2) := by
  unfold releaseNode
  simp only [hl.isValidGraph, hl.graphAt]

theorem ownStep_claim (hl : Live s.lib gr) (node : Int) (tid self : Nat) (o : Ends) :
    ∃ s', ownStep gr s (.claim node tid self o) = some s' ∧
      OwnMove gr s (.claim node tid self o) s' := by
  by_cases hn : node < 0 ∨ node ≥ (s.lib.graphs gr.toNat).nrNodes
  · have hc : (s.lib.graphs gr.toNat).claim node tid self o = (false, s.lib.graphs gr.toNat) :=
      if_pos hn
    simp only [ownStep, claimNode_eq hl, hc, setGraph_eq_self]
    refine ⟨_, rfl, .refused (fun h0 hlt _ => ?_) nofun⟩
    unfold Owned.nrNodes at hlt
    omega
  by_cases hfree : ((s.lib.graphs gr.toNat).nodes node.toNat).owner = unclaimed
  · have hc : (s.lib.graphs gr.toNat).claim node tid self o =
        ((s.lib.graphs gr.toNat).endsOk node.toNat o,
          (s.lib.graphs gr.toNat).setOwner node.toNat (threadOf tid self)) := by
      unfold GraphRec.claim
      rw [if_neg hn, if_neg (not_not.mpr hfree)]
    have hlt : node.toNat < s.nrNodes gr := by
      unfold Owned.nrNodes
      omega
    have hne := threadOf_ne tid self
    cases hends : (s.lib.graphs gr.toNat).endsOk node.toNat o with
    | true =>
      simp only [ownStep, claimNode_eq hl, hc, hends]
      exact ⟨_, rfl, .took hlt hfree hne (fun _ _ _ => hends)⟩
    | false =>
      simp only [ownStep, claimNode_eq hl, hc, hends]
      refine ⟨_, rfl, .leaked hlt hfree hne (fun ho => ?_)⟩
      have htrue := ho (by omega) (by unfold Owned.nrNodes; omega) hfree
      rw [hends] at htrue
      cases htrue
  · have hc : (s.lib.graphs gr.toNat).claim node tid self o = (false, s.lib.graphs gr.toNat) := by
      unfold GraphRec.claim
      rw [if_neg hn, if_pos hfree]
    simp only [ownStep, claimNode_eq hl, hc, setGraph_eq_self]
    exact ⟨_, rfl, .refused (fun _ _ h => absurd h hfree) nofun⟩

theorem ownStep_claimAny (hl : Live s.lib gr) (tid self : Nat) (o : Ends) :
    ∃ s', ownStep gr s (.claimAny tid self o) = some s' ∧
      OwnMove gr s (.claimAny tid self o) s' := by
  cases hfind : (s.lib.graphs gr.toNat).unclaimed? with
  | none =>
    have hc : (s.lib.graphs gr.toNat).claimAny tid self o = (none, s.lib.graphs gr.toNat) := by
      unfold GraphRec.claimAny
      rw [hfind]
    simp only [ownStep, claimAnyNode_eq hl, hc, setGraph_eq_self, Option.map_none]
    refine ⟨_, rfl, .refused (fun n hn => by rw [hfind] at hn; cases hn) ?_⟩
    intro _ _ _ _ n hn howner
    have hno := List.find?_range_eq_none.mp hfind n hn
    rw [Bool.not_eq_true', beq_eq_false_iff_ne] at hno
    exact hno howner
  | some n =>
    obtain ⟨hfree, hmem, -⟩ := List.find?_range_eq_some.mp hfind
    have hlt : n < s.nrNodes gr := List.mem_range.mp hmem
    have hfree' : s.owner gr n = unclaimed := eq_of_beq hfree
    have hne := threadOf_ne tid self
    have hc : (s.lib.graphs gr.toNat).claimAny tid self o =
        (if (s.lib.graphs gr.toNat).endsOk n o then some n else none,
          (s.lib.graphs gr.toNat).setOwner n (threadOf tid self)) := by
      unfold GraphRec.claimAny
      rw [hfind]
    cases hends : (s.lib.graphs gr.toNat).endsOk n o with
    | true =>
      simp only [ownStep, claimAnyNode_eq hl, hc, hends, if_true, Option.map_some, Int.toNat_natCast]
      refine ⟨_, rfl, .took hlt hfree' hne (fun m hm => ?_)⟩
      obtain rfl : n = m := Option.some.inj (hfind.symm.trans hm)
      exact hends
    | false =>
      simp only [ownStep, claimAnyNode_eq hl, hc, hends, Bool.false_eq_true, if_false,
        Option.map_none]
      refine ⟨_, rfl, .leaked hlt hfree' hne (fun ho => ?_)⟩
      have htrue := ho n hfind
      rw [hends] at htrue
      cases htrue

theorem ownStep_release (hl : Live s.lib gr) (node : Int) (tid self : Nat) (o : Ends) :
    ∃ s', ownStep gr s (.release node tid self o) = some s' ∧
      OwnMove gr s (.release node tid self o) s' := by
  cases hacc : (s.lib.graphs gr.toNat).accepts node (threadOf tid self) with
  | true =>
    have hc : (s.lib.graphs gr.toNat).release node tid self o =
        ((s.lib.graphs gr.toNat).endsOk node.toNat o,
          (s.lib.graphs gr.toNat).setOwner node.toNat unclaimed) := if_pos hacc
    simp only [ownStep, releaseNode_eq hl, hc, hacc, if_true]
    simp only [GraphRec.accepts, Bool.not_eq_true', Bool.or_eq_false_iff, decide_eq_false_iff_not,
      bne_eq_false_iff_eq, beq_eq_false_iff_ne] at hacc
    obtain ⟨⟨⟨h0, hlt⟩, hown⟩, hne⟩ := hacc
    refine ⟨_, rfl, .released ?_ hown (hown ▸ hne)⟩
    unfold Owned.nrNodes
    omega
  | false =>
    have hc : (s.lib.graphs gr.toNat).release node tid self o = (false, s.lib.graphs gr.toNat) := by
      unfold GraphRec.release
      rw [hacc]
      rfl
    simp only [ownStep, releaseNode_eq hl, hc, hacc, setGraph_eq_self, Bool.false_eq_true, if_false]
    exact ⟨_, rfl, .ignored⟩

theorem ownStep_move (hl : Live s.lib gr) (a : OwnCall) :
    ∃ s', ownStep gr s a = some s' ∧ OwnMove gr s a s' := by
  cases a with
  | claim node tid self o => exact ownStep_claim hl node tid self o
  | claimAny tid self o => exact ownStep_claimAny hl tid self o
  | release node tid self o => exact ownStep_release hl node tid self o

/-! ## Owners and outcomes -/

theorem heldBy_cons {x : Outcome} {log : List Outcome} {n : Nat} {t : Int} :
    HeldBy (x :: log) n t ↔ x = .claimed n t ∨ (x ≠ .released n t ∧ HeldBy log n t) := by
  constructor
  · rintro ⟨later, earlier, hlog, hno⟩
    cases later with
    | nil => exact Or.inl (List.cons.inj hlog).1
    | cons y later =>
      obtain ⟨rfl, hrest⟩ := List.cons.inj hlog
      rw [List.mem_cons, not_or] at hno
      exact Or.inr ⟨fun h => hno.1 h.symm, later, earlier, hrest, hno.2⟩
  · rintro (rfl | ⟨hx, later, earlier, rfl, hno⟩)
    · exact ⟨[], log, rfl, List.not_mem_nil⟩
    · refine ⟨x :: later, earlier, rfl, ?_⟩
      rw [List.mem_cons, not_or]
      exact ⟨fun h => hx h.symm, hno⟩

/-- An outcome that is neither a claim nor a release changes nothing. -/
theorem heldBy_skip {x : Outcome} {log : List Outcome} (hc : ∀ n t, x ≠ .claimed n t)
    (hr : ∀ n t, x ≠ .released n t) (n : Nat) (t : Int) : HeldBy (x :: log) n t ↔ HeldBy log n t := by
  rw [heldBy_cons]
  exact ⟨fun h => h.elim (fun h => absurd h (hc n t)) And.right, fun h => Or.inr ⟨hr n t, h⟩⟩

theorem not_heldBy {n : Nat} (hm : OwnersMatch gr s) (hn : n < s.nrNodes gr)
    (hfree : s.owner gr n = unclaimed) (t : Int) : ¬ HeldBy s.log n t := fun h =>
  (hm n hn).1.mpr ⟨t, h⟩ hfree

theorem give_owner (s : Owned) (gr : Int) (n : Nat) (t : Int) (log : List Outcome) (m : Nat) :
    Owned.owner ⟨s.give gr n t, log⟩ gr m = if m = n then t else s.owner gr m := by
  unfold Owned.owner Owned.give
  rw [setGraph_self]
  unfold GraphRec.setOwner GraphRec.setNode
  simp only [Function.update_apply]
  split <;> rfl

theorem give_nrNodes (s : Owned) (gr : Int) (n : Nat) (t : Int) (log : List Outcome) :
    Owned.nrNodes ⟨s.give gr n t, log⟩ gr = s.nrNodes gr := by
  unfold Owned.nrNodes Owned.give
  rw [setGraph_self]
  rfl

theorem OwnMove.live (hl : Live s.lib gr) (h : OwnMove gr s a s') : Live s'.lib gr := by
  have hgive : ∀ n t, Live (s.give gr n t) gr := fun n t => by
    refine ⟨hl.mapped, hl.valid, ?_⟩
    unfold Owned.give
    rw [setGraph_self]
    exact hl.inUse
  cases h with
  | took => exact hgive _ _
  | leaked => exact hgive _ _
  | refused => exact hl
  | released => exact hgive _ _
  | ignored => exact hl

theorem OwnersMatch.skip {x : Outcome} (hm : OwnersMatch gr s) (hc : ∀ n t, x ≠ .claimed n t)
    (hr : ∀ n t, x ≠ .released n t) : OwnersMatch gr ⟨s.lib, x :: s.log⟩ := by
  intro n hn
  simp only [heldBy_skip hc hr]
  exact hm n hn

/-- A call keeps owners and outcomes together exactly when it can open what it has to open. -/
theorem OwnMove.exclusive_iff (hm : OwnersMatch gr s) (h : OwnMove gr s a s') :
    Exclusive gr s a s' ↔ Opens gr s a := by
  cases h with
  | took hn hfree ht ho =>
    rename_i n t
    refine iff_of_true ⟨?_, ?_, nofun, nofun⟩ ho
    · intro m hmn
      rw [give_nrNodes] at hmn
      simp only [give_owner, heldBy_cons]
      by_cases he : m = n
      · subst he
        have hno := not_heldBy hm hn hfree
        simp only [if_true]
        refine ⟨iff_of_true ht ⟨t, Or.inl rfl⟩, ?_⟩
        rintro u (hu | ⟨-, hu⟩)
        · cases hu
          rfl
        · exact absurd hu (hno u)
      · have hother : ∀ u, Outcome.claimed n t ≠ .claimed m u := fun u h => he (by cases h; rfl)
        simp only [he, if_false, hother, false_or, ne_eq, reduceCtorEq, not_false_eq_true, true_and]
        exact hm m hmn
    · intro m u hlast v
      cases hlast
      exact not_heldBy hm hn hfree v
  | leaked hn hfree ht ho =>
    rename_i n t
    refine iff_of_false (fun h => ?_) ho
    -- the owner is set although no claim succeeded
    have hmatch := (h.owners n (by rw [give_nrNodes]; exact hn)).1
    simp only [give_owner, if_true, heldBy_skip (x := .refused) nofun nofun] at hmatch
    obtain ⟨u, hu⟩ := hmatch.mp ht
    exact not_heldBy hm hn hfree u hu
  | refused ho hall =>
    exact iff_of_true ⟨hm.skip nofun nofun, nofun, fun _ _ => rfl,
      fun tid self o ha _ => hall tid self o ha⟩ ho
  | released hn hown ht =>
    rename_i node tid self o n t
    refine iff_of_true ⟨?_, nofun, nofun, nofun⟩ trivial
    intro m hmn
    rw [give_nrNodes] at hmn
    simp only [give_owner, heldBy_cons, reduceCtorEq, false_or]
    by_cases he : m = n
    · subst he
      have hnone : ∀ u, ¬ (Outcome.released m t ≠ .released m u ∧ HeldBy s.log m u) := by
        rintro u ⟨hne, hu⟩
        exact hne (by rw [← hown, (hm m hmn).2 u hu])
      simp only [if_true]
      refine ⟨iff_of_false (by simp) ?_, fun u hu => absurd hu (hnone u)⟩
      rintro ⟨u, hu⟩
      exact hnone u hu
    · have hother : ∀ u, Outcome.released n t ≠ .released m u := fun u h => he (by cases h; rfl)
      simp only [he, if_false, ne_eq, hother, not_false_eq_true, true_and]
      exact hm m hmn
  | ignored =>
    exact iff_of_true ⟨hm.skip nofun nofun, nofun, nofun, nofun⟩ trivial

/-! ## Whole runs -/

theorem ownRun_total (hl : Live s.lib gr) (calls : List OwnCall) :
    ∃ s', Lts.run (ownStep gr) s calls = some s' := by
  induction calls generalizing s with
  | nil => exact ⟨s, rfl⟩
  | cons a calls ih =>
    obtain ⟨s₁, hs, hmove⟩ := ownStep_move hl a
    obtain ⟨s', hr⟩ := ih (hmove.live hl)
    exact ⟨s', (Lts.run_cons_eq_some (ownStep gr)).mpr ⟨s₁, hs, hr⟩⟩

theorem meets_exclusive_iff (hl : Live s.lib gr) (hm : OwnersMatch gr s) (calls : List OwnCall) :
    Lts.Meets (ownStep gr) (fun s a => ∀ s', ownStep gr s a = some s' → Exclusive gr s a s') s calls ↔
      Lts.Meets (ownStep gr) (Opens gr) s calls := by
  induction calls generalizing s with
  | nil => exact Iff.rfl
  | cons a calls ih =>
    obtain ⟨s₁, hs, hmove⟩ := ownStep_move hl a
    have hex := hmove.exclusive_iff hm
    have hnext : ∀ t, ownStep gr s a = some t → s₁ = t := fun t ht =>
      Option.some.inj (hs.symm.trans ht)
    constructor
    · rintro ⟨hx, hrest⟩
      refine ⟨hex.mp (hx s₁ hs), fun t ht => ?_⟩
      obtain rfl := hnext t ht
      exact (ih (hmove.live hl) (hx s₁ hs).owners).mp (hrest s₁ hs)
    · rintro ⟨ho, hrest⟩
      refine ⟨fun t ht => hnext t ht ▸ hex.mpr ho, fun t ht => ?_⟩
      obtain rfl := hnext t ht
      exact (ih (hmove.live hl) (hex.mpr ho).owners).mpr (hrest s₁ hs)

/-- **Ownership is exclusive as long as the ends open.** On a graph in use of which no node is
claimed, every sequence of claims and releases runs to its end, whatever the operations on the
ends answer. Along it every call keeps the owner fields in step with the outcomes, claims no node
that is held, changes no owner when it fails, and fails to find a node only when there is none,
exactly when every claim that comes to open the ends of a node can open all of them. -/
theorem ownership_iff {l : Lib} (hl : Live l gr)
    (hfree : ∀ n < (l.graphs gr.toNat).nrNodes, ((l.graphs gr.toNat).nodes n).owner = unclaimed)
    (calls : List OwnCall) :
    (∃ s, Lts.run (ownStep gr) ⟨l, []⟩ calls = some s) ∧
    (Lts.Meets (ownStep gr) (fun s a => ∀ s', ownStep gr s a = some s' → Exclusive gr s a s')
        ⟨l, []⟩ calls ↔
      Lts.Meets (ownStep gr) (Opens gr) ⟨l, []⟩ calls) := by
  refine ⟨ownRun_total hl calls, meets_exclusive_iff hl ?_ calls⟩
  intro n hn
  have hnone : ∀ t, ¬ HeldBy [] n t := by
    rintro t ⟨later, earlier, h, -⟩
    simp at h
  exact ⟨iff_of_false (not_not.mpr (hfree n hn)) (fun ⟨t, ht⟩ => hnone t ht),
    fun t ht => absurd ht (hnone t)⟩

end

def allOpen : Ends := ⟨fun _ => true, fun _ => true⟩

def fifoPair : Lib :=
  ⟨fun _ =>
    { inUse := true
      nrNodes := 2
      nrEdges := 1
      nodes := fun n =>
        { NodeRec.zero with
          owner := unclaimed
          ins := if n = 1 then [0] else []
          outs := if n = 0 then [0] else []
          nrInData := if n = 1 then 1 else 0 }
      edges := fun _ => EdgeArgs.record ⟨nameA, fifoAttr, none⟩ 0 1 }, true, true, true⟩

theorem fifoPair_live : Live fifoPair 0 := ⟨rfl, by decide, rfl⟩

theorem endsOk_allOpen (g : GraphRec) (n : Nat) : g.endsOk n allOpen = true := by
  simp [GraphRec.endsOk, allOpen]

/-- A claim, a claim of any node, a claim of a node that is held, and a release. -/
def pairCalls : List OwnCall :=
  [.claim 0 5 1 allOpen, .claimAny 6 1 allOpen, .claim 0 7 1 allOpen, .release 0 5 1 allOpen]

theorem ownership_iff_pair : Lts.Meets (ownStep 0)
    (fun s a => ∀ s', ownStep 0 s a = some s' → Exclusive 0 s a s') ⟨fifoPair, []⟩ pairCalls := by
  refine (ownership_iff fifoPair_live (by decide) _).2.mpr ?_
  refine (Lts.meets_of_forall (p := fun a => a ∈ pairCalls) (fun _ ha => ha)).mono ?_
  intro s a ha
  simp only [pairCalls, List.mem_cons, List.not_mem_nil, or_false] at ha
  rcases ha with rfl | rfl | rfl | rfl
  · exact fun _ _ _ => endsOk_allOpen _ _
  · exact fun _ _ => endsOk_allOpen _ _
  · exact fun _ _ _ => endsOk_allOpen _ _
  · trivial

/-- A consumer whose FIFO cannot be opened: the claim returns `-1` and the node stays claimed. -/
theorem failed_claim_leaks : ∃ l, claimNode fifoPair ⟨0, 1⟩ 5 1 ⟨fun _ => false, fun _ => true⟩ =
      .ok (false, l) ∧
    ((fifoPair.graphs 0).nodes 1).owner = unclaimed ∧ ((l.graphs 0).nodes 1).owner = 5 :=
  ⟨_, rfl, rfl, rfl⟩

end Pgm.Tables
