import Pgm.Rings
import Pgm.Shutdown

/-! Wake-ups that a blocked write holds back. `pgm_produce` writes to all out-edges before it wakes
up anyone, and a write to a full ring spins until the ring's consumer makes room. A wake-up on its
list is late for that long, and lost when the ring's consumer depends on the node that sleeps. -/

namespace Pgm

open Function (update)

def ringFull (g : Graph) (s : State) (e : Nat) : Bool :=
  decide (RingBuf.ringCount (g.edge e).attr.nmemb ≤ (s.data.queue e).length)

/-- The thread spins in `write_ring`. -/
def Pc.spins (g : Graph) (s : State) : Pc → Bool
  | .prod _ _ _ _ (.ringWrite _ e _ _) => ringFull g s e
  | _ => false

/-- A producer spins on a full ring, every other owner sleeps, and one of them could fire. -/
def Withheld (g : Graph) (s : State) : Prop :=
  ∃ t n, (s.pc t).spins g s = true ∧
    (∀ t' < g.nrNodes, t' ≠ t → s.pc t' = .wait .asleep) ∧
    s.pc n = .wait .asleep ∧ nrReadyEdges g s n = g.nrInSignaled n

def NodeActs (g : Graph) (a : Act) : Prop := a.thread < g.nrNodes ∧ OwnerActs a

instance (g : Graph) (a : Act) : Decidable (NodeActs g a) :=
  inferInstanceAs (Decidable (_ ∧ _))

/-- All in-edges of `n` are ready and its owner, in its second test or asleep, has missed it. -/
def missed (g : Graph) (s : State) (n : Nat) : Bool :=
  decide (nrReadyEdges g s n = g.nrInSignaled n) &&
    match s.pc n with
    | .wait (.scan true i r _) => decide (r < readyIn g s n i)
    | .wait w => w.failed
    | _ => false

/-- The action takes a normal `pgm_produce` to its write on a full ring, with a node on its list
that has missed its turn. -/
def withholds (g : Graph) (s : State) : Act → Bool
  | .run t _ =>
    match s.pc t with
    | .prod n .normal _ _ (.send i tw) =>
      match (g.outEdges n)[i]? with
      | some e => (g.edge e).attr.type.isRing && ringFull g s e && tw.any (missed g s)
      | none => false
    | _ => false
  | _ => false

/-- A thread that does not spin owes node `n` a wake-up. -/
def Due (g : Graph) (s : State) (n : Nat) : Prop :=
  ∃ t, (s.pc t).owes g n ∧ (s.pc t).spins g s = false

/-- The debt to a node all of whose in-edges are ready. -/
def DueIfReady (g : Graph) (s : State) (n : Nat) : Prop := AllReady g s n → Due g s n

section

variable {junk : Junk} {g : Graph} {s s' : State} {a : Act} {eff : Effect} {p : Pc} {n e t : Nat}

/-- A thread that does not spin goes on not to spin while others move: only its own writes fill its
rings. -/
theorem spins_of_ne (hg : CvRingGraph g) (hi : RingPlace g s) (hm : Move g s a eff p)
    (ht : t ≠ a.thread) (h : (s.pc t).spins g s = false) :
    (((s.apply g a.thread eff).setPc a.thread p).pc t).spins g
      ((s.apply g a.thread eff).setPc a.thread p) = false := by
  rcases pc_of_ne (g := g) (s := s) eff p ht with heq | ⟨-, -, heq⟩
  · rw [heq]
    cases hpc : s.pc t with
    | prod m cmd w err q =>
      rw [hpc] at h
      cases q with
      | ringWrite i e x tw =>
        have hroom : (s.data.queue e).length < RingBuf.ringCount (g.edge e).attr.nmemb := by
          simpa [Pc.spins, ringFull] using h
        have hout : e ∈ g.outEdges m := List.mem_of_getElem? (hi.place t m cmd w err _ hpc)
        have hprod : (g.edge e).producer ≠ a.thread := by
          rw [(Graph.mem_outEdges.mp hout).2, ← hi.owner t m cmd w err _ hpc]
          exact ht
        have hle := (hm.queue hg hi e).resolve_right (fun h => hprod h.1)
        exact decide_eq_false (Nat.not_le_of_lt (Nat.lt_of_le_of_lt hle hroom))
      | _ => rfl
    | _ => rfl
  · rw [heq]
    rfl

/-- A thread that owes a wake-up to a node that has missed its turn does not start to spin. -/
theorem Move.not_spins (hm : Move g s a eff p) (hw : withholds g s a = false)
    (ho : (s.pc a.thread).owes g n) (hmiss : missed g s n = true) :
    p.spins g ((s.apply g a.thread eff).setPc a.thread p) = false := by
  cases hm with
  | callWait n last hpc | callComplete t n last hpc | callTerminate t n last hpc | spurious t hpc
  | wait t ans w eff p hpc hm =>
    simp only [Act.thread, hpc] at ho
    exact absurd ho id
  | prod t m ans cmd w err q eff p hpc hm =>
    simp only [Act.thread, hpc] at ho
    cases hm with
    | ring i e tw x hi hc hd hx =>
      subst hc
      have hmem : n ∈ tw := by
        rcases ho with h | h | h
        · exact h
        · exact absurd h id
        · exact absurd h id
      by_contra hfull
      have hfull' : ringFull g s e = true := Bool.eq_true_of_not_eq_false hfull
      have hany : tw.any (missed g s) = true := List.any_eq_true.mpr ⟨n, hmem, hmiss⟩
      simp [withholds, hpc, hi, hd, hfull', hany] at hw
    | written i e buf tw =>
      unfold afterData
      split <;> rfl
    | _ => rfl

theorem Move.not_spins_of_send (hm : Move g s a (.addTokens e) p) (s' : State) :
    p.spins g s' = false := by
  cases hm with
  | wait t ans w eff p hpc hm => cases hm
  | prod t m ans cmd w err q eff p hpc hm =>
    cases hm with
    | tokens => rfl

theorem missed_of_scan {i r rn : Nat} (hpc : s.pc n = .wait (.scan true i r rn))
    (hr : r < readyIn g s n i) (hall : AllReady g s n) : missed g s n = true := by
  simp [missed, hpc, hr, allReady_iff.mp hall]

theorem missed_of_failed {w : WaitPc} (hpc : s.pc n = .wait w) (hw : w.failed = true)
    (hall : AllReady g s n) : missed g s n = true := by
  cases w with
  | scan => cases hw
  | _ => simp [missed, hpc, hw, allReady_iff.mp hall]

/-- An in-edge that gets ready leaves a debt of a thread that goes on. -/
theorem due_of_new (hm : Move g s a eff p) (hn : n ≠ a.thread) (he : e ∈ g.inEdges n)
    (hr : readyEdge g ((s.apply g a.thread eff).setPc a.thread p) e = true) :
    readyEdge g s e = true ∨ Due g ((s.apply g a.thread eff).setPc a.thread p) n := by
  refine (foreign_ready hm hn he hr).imp id ?_
  rintro ⟨rfl, ho⟩
  refine ⟨a.thread, ?_, ?_⟩
  · rw [setPc_pc_self]
    exact ho
  · rw [setPc_pc_self]
    exact hm.not_spins_of_send _

/-- The debt of a node that has missed its turn is kept. -/
theorem Due.step (hg : CvRingGraph g) (hi : RingPlace g s) (hm : Move g s a eff p)
    (hw : withholds g s a = false) (hmiss : missed g s n = true) (hdue : Due g s n)
    (howes : (s.pc a.thread).owes g n → p.owes g n) :
    Due g ((s.apply g a.thread eff).setPc a.thread p) n := by
  obtain ⟨t, ho, hns⟩ := hdue
  by_cases ht : t = a.thread
  · subst ht
    refine ⟨a.thread, ?_, ?_⟩
    · rw [setPc_pc_self]
      exact howes ho
    · rw [setPc_pc_self]
      exact hm.not_spins hw ho hmiss
  · exact ⟨t, owes_of_ne ht ho, spins_of_ne hg hi hm ht hns⟩

theorem due_keeps (hg : CvRingGraph g) (hl : LockInv s) (hi : RingPlace g s) (hm : Move g s a eff p)
    (hw : withholds g s a = false) :
    KeepsDebt g (DueIfReady g) s ((s.apply g a.thread eff).setPc a.thread p) a eff n := by
  -- from a state without the turn to one with it, an in-edge gets ready
  have hnew : n ≠ a.thread → ¬ AllReady g s n →
      DueIfReady g ((s.apply g a.thread eff).setPc a.thread p) n := by
    intro hn hnot hall
    by_contra hno
    exact hnot (fun e he hs => (due_of_new hm hn he (hall e he hs)).resolve_right hno)
  refine ⟨fun hn i r rn hpc hr hD => ?_, fun hn w hpc hpc' hf hall hD => ?_,
    fun hn e he hr => ?_, fun hn w hpc heff hD hall => ?_⟩
  · by_cases hall : AllReady g s n
    · refine fun _ => (hD hall).step hg hi hm hw (missed_of_scan hpc hr hall) (fun ho => ?_)
      exact hm.owes_step_locked hl hn (by rw [hpc]; rfl) ho
    · exact hnew hn hall
  · refine fun _ => (hD hall).step hg hi hm hw (missed_of_failed hpc hf hall) (fun ho => ?_)
    exact (hm.owes_step ho hall).resolve_right (not_signaled hl hm hn hpc (failed_locked hf) hpc')
  · exact (due_of_new hm hn he hr).imp id (fun hdue _ => hdue)
  · subst hn
    have hall₀ : AllReady g s a.thread := by rcases heff with rfl | rfl <;> exact hall
    obtain ⟨t, ho, hns⟩ := hD hall₀
    have ht : t ≠ a.thread := by
      rintro rfl
      rw [hpc] at ho
      exact ho
    exact ⟨t, owes_of_ne ht ho, spins_of_ne hg hi hm ht hns⟩

structure DueInv (g : Graph) (s : State) : Prop where
  locks : LockInv s
  place : RingPlace g s
  test : ∀ n, TestInv g (DueIfReady g) s n

theorem step_dueInv (hg : CvRingGraph g) (ha : OwnerActs a) (hw : withholds g s a = false)
    (hi : DueInv g s) (h : step g s a = some s') : DueInv g s' := by
  refine ⟨step_lockInv hi.locks h, step_ringPlace hg ha hi.place h, fun n => ?_⟩
  obtain ⟨eff, p, hm, rfl⟩ := step_move h
  exact step_testInv hm (due_keeps hg hi.locks hi.place hm hw) (hi.test n)

/-- **A blocked write withholds no wake-up.** In every run in which no `pgm_produce` comes to a write
on a full ring with a node on its list that has missed its turn, no state is reached in which a
producer spins on a full ring, every other owner sleeps and one of the sleeping nodes could fire. -/
theorem no_withheld_wakeup (hg : CvRingGraph g)
    (h : Lts.Reach (step g) (fun s a => NodeActs g a ∧ withholds g s a = false) (initState junk g) s) :
    ¬ Withheld g s := by
  have hinv : DueInv g s := Lts.Reach.inv (I := DueInv g)
    ⟨initState_lockInv junk g, initState_ringPlace junk g, initState_testInv junk g _⟩
    (fun _ _ _ _ hi hp hs => step_dueInv hg hp.1.2 hp.2 hi hs) h
  rintro ⟨t, n, hspin, hasleep, hpc, hready⟩
  have hall := allReady_iff.mpr hready
  obtain ⟨t', ho, hns⟩ := (hinv.test n).test _ hpc rfl hall hall
  -- whoever owes the wake-up is the producer that spins
  by_cases ht : t' = t
  · rw [ht, hspin] at hns
    cases hns
  · by_cases hlt : t' < g.nrNodes
    · rw [hasleep t' hlt ht] at ho
      exact ho
    · have hidle : s.pc t' = .idle none :=
        idle_of_reach h (fun s a hp heq => hlt (heq ▸ hp.1.1)) rfl
      rw [hidle] at ho
      exact ho

end

/-! ## A wake-up that is withheld for good -/

theorem pairs_accepted : (cvAttr 1 2 2 0).Accepted :=
  cvAttr_accepted (by decide) (by decide) (by decide) (by decide) (by decide) (by decide)

/-- Node 0 feeds node 1 by a cv edge and node 2 by a ring, and node 1 feeds node 2. -/
def bypassEdges : List Edge :=
  [forwardEdge 0 1 (cvAttr 1 2 2 0) pairs_accepted,
    forwardEdge 0 2 (ringAttrOf 1 1 1) ring_accepted,
    forwardEdge 1 2 (cvAttr 1 1 1 0) line_accepted]

theorem bypassEdges_small : (∀ e ∈ bypassEdges, e.producer < 3 ∧ e.consumer < 3) ∧
    bypassEdges.length < 32 := by decide

def bypass : Graph := .small 3 bypassEdges bypassEdges_small.1 bypassEdges_small.2

def bypassFirst : List Act := List.flatten [[.complete 0 0], runs 0 2, [.run 0 (.user [7])], runs 0 9]

def bypassSecond : List Act := List.flatten [[.complete 0 0], runs 0 2, [.run 0 (.user [8])]]

def bypassSleep : List Act := List.flatten [[.wait 1], runs 1 9, [.wait 2], runs 2 11]

/-- Node 0 spins with the wake-up of node 1 on its list, and nobody else is awake. -/
theorem bypass_withheld :
    CvRingGraph bypass ∧ Acyclic bypass ∧
    (∀ e ∈ bypass.edges, e.attr.type = .ring →
      e.attr.nrThreshold ≤ e.attr.nrProduce * RingBuf.ringCount e.attr.nmemb) ∧
    ∃ s, Lts.Reach (step bypass) (fun _ a => NodeActs bypass a) (initState zeroed bypass) s ∧
      Withheld bypass s := by
  refine ⟨by decide, acyclic_of_lt (by decide), by decide, ?_⟩
  have hd : (Lts.drive (step bypass) (fun _ a => decide (NodeActs bypass a)) (initState zeroed bypass)
      (bypassSleep ++ bypassFirst ++ bypassSecond)).map (fun s => (s.pc 0, s.pc 1, s.pc 2,
        s.data.queue 1, nrReadyEdges bypass s 1)) =
      some (.prod 0 .normal false false (.ringWrite 1 1 [8] [1]), .wait .asleep, .wait .asleep,
        [[7]], 1) := rfl
  obtain ⟨s, hs, hobs⟩ := Lts.reach_of_drive_map (fun s a h => of_decide_eq_true h) hd
  simp only [Prod.mk.injEq] at hobs
  obtain ⟨h0, h1, h2, hqueue, hready⟩ := hobs
  refine ⟨s, hs, 0, 1, ?_, fun t ht hne => ?_, h1, hready⟩
  · rw [h0]
    simp only [Pc.spins, ringFull, hqueue]
    decide
  · have ht' : t < 3 := ht
    obtain rfl | rfl : t = 1 ∨ t = 2 := by omega
    · exact h1
    · exact h2

/-- Node 2 sleeps, node 0 spins, and node 1, which has not slept, takes its tokens. The write of node 0
withholds nothing. -/
theorem bypass_awake :
    ∃ s, Lts.Reach (step bypass) (fun s a => NodeActs bypass a ∧ withholds bypass s a = false)
        (initState zeroed bypass) s ∧ (s.pc 0).spins bypass s = true ∧ s.pc 2 = .wait .asleep ∧
      s.fired 1 = 1 ∧ ¬ Withheld bypass s := by
  have hd : (Lts.drive (step bypass)
      (fun s a => decide (NodeActs bypass a ∧ withholds bypass s a = false)) (initState zeroed bypass)
      (.wait 2 :: runs 2 11 ++ bypassFirst ++ bypassSecond ++ .wait 1 :: runs 1 9)).map
        (fun s => ((s.pc 0).spins bypass s, s.pc 2, s.fired 1)) =
      some (true, .wait .asleep, 1) := rfl
  obtain ⟨s, hs, hobs⟩ := Lts.reach_of_drive_map (fun s a h => of_decide_eq_true h) hd
  simp only [Prod.mk.injEq] at hobs
  obtain ⟨hspin, hpc, hfired⟩ := hobs
  exact ⟨s, hs, hspin, hpc, hfired, no_withheld_wakeup (by decide) hs⟩

end Pgm
