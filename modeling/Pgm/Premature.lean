import Pgm.Consume
import Pgm.Count

/-! No node ends too early. `nr_terminate_signals` counts a producer when its terminate
signal comes, and `nr_terminate_msgs` a FIFO, socket or message queue when its terminate
message is read, once each. A ring is counted whenever `pgm_recv_data` finds it empty
after the terminate command. Where it does not come back to a ring it has counted, both
counters are right, and `pgm_wait` returns `PGM_TERMINATE` only to a node all of whose
forward producers have terminated. -/

namespace Pgm

open Function (update)

def comesToRing (g : Graph) (s : State) : Act → Option Nat
  | .run n _ =>
    match s.pc n with
    | .wait (.recv _ r) =>
      match r.pc with
      | .edge i => (g.inEdges n)[i]?.filter (fun e => (g.edge e).attr.type.isRing)
      | _ => none
    | _ => none
  | _ => none

/-- No action comes back to a ring that has been counted in `nr_terminate_msgs`. -/
def RingsOnce (g : Graph) (s : State) (a : Act) : Prop :=
  ∀ e ∈ comesToRing g s a, s.data.counted e = 0

instance (g : Graph) (s : State) (a : Act) : Decidable (RingsOnce g s a) :=
  inferInstanceAs (Decidable (∀ e ∈ comesToRing g s a, _))

def WaitPc.dataStatus : WaitPc → Option WaitStatus
  | .dataDone _ dat => some dat
  | _ => none

/-- A wait that is here takes the producer of the in-edge `e` to have terminated. -/
def Pc.Ends (e : Edge) : Pc → Prop
  | .idle last => last = some .terminate
  | .wait w => Pc.ending (.wait w) = true ∨
      (w.status = some .exhaustedAndTerminate ∧ e.isSignalDriven = true) ∨
      (w.dataStatus = some .exhaustedAndTerminate ∧ e.isDataPassing = true)
  | .prod _ _ inWait _ _ => inWait = true

structure CountInv (g : Graph) (s : State) : Prop where
  chan : ChanInv g s
  fresh : ∀ n tok r i e, s.pc n = .wait (.recv tok r) → r.pc = .ringEmpty i e →
    s.data.counted e = 0
  msgs : ∀ n, s.data.nrTerminateMsgs n =
    (g.inEdges n).countP (fun e => decide (s.data.counted e ≠ 0))
  ends : ∀ n, ∀ e ∈ g.inEdges n, (s.pc n).Ends (g.edge e) → (g.edge e).isBackedge = false →
    s.terminated (g.edge e).producer = true

section

variable {junk : Junk} {g : Graph} {s s' : State} {a : Act} {eff : Effect} {p : Pc} {n e : Nat}

theorem uncounted_of_counts (hi : CountInv g s) (hi' : ChanInv g s')
    (hdata : s'.data = (s.apply g a.thread eff).data) {t : Nat} {tok : WaitStatus} {r : Recv}
    (he : e ∈ g.inEdges t) (hc : CountsAt t e s.data (s.apply g a.thread eff).data)
    (hpc : s.pc t = .wait (.recv tok r)) (hat : r.pc.Counting e) : s.data.counted e = 0 := by
  cases hr : r.pc with
  | ringEmpty i e' =>
    rw [hr] at hat
    cases hat
    exact hi.fresh t tok r i e hpc hr
  | read i e' =>
    have hplace := hi.chan.place t tok r hpc
    rw [hr] at hat hplace
    cases hat
    have hle := (hi'.edges e (Graph.mem_inEdges.mp he).1).counted_le hplace.2.2
    have hcount : (s'.data.chan e).counted = s.data.counted e + 1 := by
      rw [hdata]
      simp [Data.chan, hc.1]
    omega
  | _ => rw [hr] at hat; exact absurd hat id

/-! ## The invariant -/

theorem msgs_step (hi : CountInv g s) (hm : Move g s a eff p)
    (hfirst : ∀ e ∈ g.inEdges a.thread,
      CountsAt a.thread e s.data (s.apply g a.thread eff).data →
      (∃ tok r, s.pc a.thread = .wait (.recv tok r) ∧ r.pc.Counting e) → s.data.counted e = 0)
    (n : Nat) : (s.apply g a.thread eff).data.nrTerminateMsgs n =
      (g.inEdges n).countP (fun e => decide ((s.apply g a.thread eff).data.counted e ≠ 0)) := by
  rcases hm.counts hi.chan with ⟨hc, hmsgs⟩ | ⟨e, he, hcounts, hat⟩
  · rw [hc, hmsgs]
    exact hi.msgs n
  · have hzero := hfirst e he hcounts hat
    obtain ⟨hc, hmsgs⟩ := hcounts
    rw [hc, hmsgs]
    by_cases hn : n = a.thread
    · subst hn
      have hlt : (g.inEdges a.thread).countP (fun e => decide (s.data.counted e ≠ 0)) < 32 :=
        List.countP_le_length.trans_lt (g.inDegree a.thread)
      rw [Function.update_self, hi.msgs a.thread, Word.add_of_lt (by omega)]
      refine (Scan.countP_insert (g.inEdges_nodup _) he ?_ ?_ (fun y _ hy => ?_)).symm
      · simp [hzero]
      · simp
      · rw [Function.update_of_ne hy]
    · rw [Function.update_of_ne hn, hi.msgs n]
      refine List.countP_congr (fun y hy => ?_)
      have hne : y ≠ e := by
        rintro rfl
        exact hn ((Graph.mem_inEdges_consumer hy).symm.trans (Graph.mem_inEdges_consumer he))
      rw [Function.update_of_ne hne]

theorem RecvMove.entersRing {skips : Nat → Nat} {d d' : Data} {r r' : Recv} {ans : Answer}
    (hm : RecvMove g n skips d r ans d' (.more r')) {i : Nat} (hr : r'.pc = .ringEmpty i e) :
    d' = d ∧ r.pc = .edge i ∧ (g.inEdges n)[i]? = some e ∧
      (g.edge e).attr.type.isRing = true := by
  generalize hnx : RecvNext.more r' = nx at hm
  cases hm with
  | ringCmd i' e' hpc ha hring =>
    cases hnx
    simp only at hr
    split_ifs at hr
    cases hr
    exact ⟨rfl, hpc, ha.1, hring⟩
  | selecting | selected | pass | enter | ringStop | ringMore | ringRead =>
    cases hnx
    cases hr
  | selectFailed | out => cases hnx
  | read i' e' d' nx hpc h =>
    cases readStep_after h with
    | again r'' hagain => cases hnx; rw [hagain] at hr; cases hr
    | next r'' hnext => cases hnx; rw [hnext] at hr; cases hr
    | block m => cases hnx; cases hr
    | fail => cases hnx

theorem Move.entersRing (hring : RingsOnce g s a) (hm : Move g s a eff p) {tok : WaitStatus}
    {r : Recv} {i : Nat} (hp : p = .wait (.recv tok r)) (hr : r.pc = .ringEmpty i e) :
    (s.apply g a.thread eff).data.counted e = 0 := by
  cases hm with
  | wait t ans w eff p hpc hm =>
    cases hm with
    | recvStart tok r h hstart =>
      cases hp
      unfold recvStart at hstart
      simp only at hstart
      split at hstart <;> cases hstart
      cases hr
    | recv tok r r' d h =>
      cases hp
      obtain ⟨hd, hedge, he, hisRing⟩ := (recvStep_move h).entersRing hr
      subst hd
      refine hring e ?_
      simp [comesToRing, hpc, hedge, he, hisRing]
    | allReady l | someReady l | noTerm l | allTerm l | notAllTerm l =>
      cases l <;> simp [granted, mustWait] at hp
    | _ => cases hp
  | prod t m ans cmd w err q eff p hpc hm => exact absurd hp (hm.not_wait _)
  | callWait | callComplete | callTerminate | spurious => cases hp

theorem fresh_step (hring : RingsOnce g s a) (hi : CountInv g s) (hm : Move g s a eff p)
    {tok : WaitStatus} {r : Recv} {i : Nat}
    (hpc : ((s.apply g a.thread eff).setPc a.thread p).pc n = .wait (.recv tok r))
    (hr : r.pc = .ringEmpty i e) : (s.apply g a.thread eff).data.counted e = 0 := by
  by_cases hn : n = a.thread
  · subst hn
    rw [setPc_pc_self] at hpc
    exact hm.entersRing hring hpc hr
  · rcases pc_of_ne (g := g) (s := s) eff p hn with heq | ⟨-, -, heq⟩
    · rw [heq] at hpc
      have hzero := hi.fresh n tok r i e hpc hr
      have hplace := hi.chan.place n tok r hpc
      rw [hr] at hplace
      have he := List.mem_of_getElem? hplace.1
      rcases hm.counts hi.chan with ⟨hc, -⟩ | ⟨e', he', ⟨hc, -⟩, -⟩
      · rw [hc]
        exact hzero
      · have hne : e ≠ e' := by
          rintro rfl
          exact hn ((Graph.mem_inEdges_consumer he).symm.trans (Graph.mem_inEdges_consumer he'))
        rw [hc, Function.update_of_ne hne]
        exact hzero
    · cases heq.symm.trans hpc

/-- All forward data-passing in-edges have been counted. -/
theorem ended_of_recvOut {d : Data} {st : WaitStatus} (hst : st ≠ .exhaustedAndTerminate)
    (hmsgs : d.nrTerminateMsgs n = (g.inEdges n).countP (fun e => decide (d.counted e ≠ 0)))
    (hstop : ∀ e ∈ g.inEdges n, d.counted e ≠ 0 → Stopped g s e ∧ (g.edge e).isDataPassing = true)
    (hout : recvOut g n d st = .exhaustedAndTerminate) (he : e ∈ g.inEdges n)
    (hdata : (g.edge e).isDataPassing = true) (hf : (g.edge e).isBackedge = false) :
    Stopped g s e := by
  unfold recvOut at hout
  split_ifs at hout with hfull
  · have heq := hfull.2
    rw [hmsgs, g.nrInDataForward_eq] at heq
    have himp : ∀ e ∈ g.inEdges n, decide (d.counted e ≠ 0) = true →
        ((g.edge e).isDataPassing && !(g.edge e).isBackedge) = true := by
      intro e he hc
      obtain ⟨hs, hd⟩ := hstop e he (of_decide_eq_true hc)
      simp [hd, hs.forward]
    have hc := Scan.forall_of_countP_eq himp heq e he (by simp [hdata, hf])
    exact (hstop e he (of_decide_eq_true hc)).1
  · exact absurd hout hst

theorem ChanInv.stopped_of_counted (hi : ChanInv g s) (he : e ∈ g.inEdges n)
    (hc : s.data.counted e ≠ 0) : Stopped g s e ∧ (g.edge e).isDataPassing = true := by
  obtain ⟨hstop, hdata⟩ := (hi.edges e (Graph.mem_inEdges.mp he).1).counted hc
  exact ⟨of_decide_eq_true hstop, hdata⟩

/-- The steps of `pgm_wait`. -/
theorem ends_own {t : Nat} {ans : Answer} {w : WaitPc} (hi : CountInv g s)
    (hpc : s.pc t = .wait w) (hm : WaitMove g s t ans w eff p)
    (hmsgs : (s.apply g t eff).data.nrTerminateMsgs t = (g.inEdges t).countP
      (fun e => decide ((s.apply g t eff).data.counted e ≠ 0)))
    (hstop : ∀ e ∈ g.inEdges t, (s.apply g t eff).data.counted e ≠ 0 →
      Stopped g ((s.apply g t eff).setPc t p) e ∧ (g.edge e).isDataPassing = true)
    (he : e ∈ g.inEdges t) (hends : p.Ends (g.edge e)) (hf : (g.edge e).isBackedge = false) :
    (s.apply g t eff).terminated (g.edge e).producer = true := by
  have hold : (Pc.wait w).Ends (g.edge e) →
      (s.apply g t eff).terminated (g.edge e).producer = true := by
    intro h
    exact terminated_mono (hi.ends t e he (by rw [hpc]; exact h) hf)
  have hstatus : ∀ tok, w.status = some tok →
      tok = .exhaustedAndTerminate → (g.edge e).isSignalDriven = true →
      (s.apply g t eff).terminated (g.edge e).producer = true :=
    fun tok hw htok hs => hold (Or.inr (Or.inl ⟨by rw [hw, htok], hs⟩))
  cases hm with
  | startData h =>
    rcases hends with hc | ⟨-, hs⟩ | ⟨hc, -⟩
    · cases hc
    · exact absurd hs (List.countP_eq_zero.mp h e he)
    · cases hc
  | allTerm l h =>
    rcases hends with hc | ⟨-, hs⟩ | ⟨hc, -⟩
    · cases l <;> cases hc
    · exact (hi.chan.term.all_sent h he hs hf).terminated
    · cases l <;> cases hc
  | unlock tok | recvStart tok | recv tok =>
    rcases hends with hc | ⟨htok, hs⟩ | ⟨hc, -⟩
    · cases hc
    · exact hstatus tok rfl (Option.some.inj htok) hs
    · cases hc
  | noData tok h =>
    rcases hends with hc | ⟨htok, hs⟩ | ⟨-, hd⟩
    · cases hc
    · exact hstatus tok rfl (Option.some.inj htok) hs
    · exact absurd hd (List.countP_eq_zero.mp h e he)
  | recvNone tok st h hr =>
    rcases hends with hc | ⟨htok, hs⟩ | ⟨hdat, hd⟩
    · cases hc
    · exact hstatus tok rfl (Option.some.inj htok) hs
    · have hout := (recvStart_done hr).symm.trans (Option.some.inj hdat)
      exact (ended_of_recvOut (by decide) hmsgs hstop hout he hd hf).terminated
  | recvDone tok st r d h =>
    rcases hends with hc | ⟨htok, hs⟩ | ⟨hdat, hd⟩
    · cases hc
    · exact hstatus tok rfl (Option.some.inj htok) hs
    · obtain ⟨st₀, hne, hst⟩ := (recvStep_move h).done
      have hout := hst.symm.trans (Option.some.inj hdat)
      exact (ended_of_recvOut hne hmsgs hstop hout he hd hf).terminated
  | toSkips tok dat h =>
    rcases hends with hret | ⟨hc, -⟩ | ⟨hc, -⟩
    · have hboth : tok = .exhaustedAndTerminate ∧ dat = .exhaustedAndTerminate := by
        unfold waitRet at hret
        split_ifs at hret with hboth
        · exact hboth
        · cases hret
        · cases hret
      rcases (g.edge e).attr.type.signal_or_data with hs | hd
      · exact hstatus tok rfl hboth.1 hs
      · exact hold (Or.inr (Or.inr ⟨congrArg some hboth.2, hd⟩))
    · cases hc
    · cases hc
  | consumed ret i hend =>
    rcases hends with hret | ⟨hc, -⟩ | ⟨hc, -⟩
    · cases ret with
      | terminate => exact absurd rfl (hi.chan.term.taking t _ i hpc)
      | ok | error => cases hret
    · cases hc
    · cases hc
  | skip ret i e' he' h | skipPass ret i e' he' h =>
    rcases hends with hret | ⟨hc, -⟩ | ⟨hc, -⟩
    · exact hold (Or.inl (by cases ret <;> first | rfl | cases hret))
    · cases hc
    · cases hc
  | terminate i hend => exact hold (Or.inl rfl)
  | fire i hend | fail i hend => cases hends
  | allReady l | someReady l | noTerm l | notAllTerm l =>
    cases l <;> simp [Pc.Ends, granted, mustWait, WaitPc.status, WaitPc.dataStatus, Pc.ending] at hends
  | _ => simp [Pc.Ends, WaitPc.status, WaitPc.dataStatus, Pc.ending] at hends

theorem ends_step (hi : CountInv g s) (hm : Move g s a eff p)
    (hmsgs : (s.apply g a.thread eff).data.nrTerminateMsgs a.thread =
      (g.inEdges a.thread).countP (fun e => decide ((s.apply g a.thread eff).data.counted e ≠ 0)))
    (hstop : ∀ e ∈ g.inEdges a.thread, (s.apply g a.thread eff).data.counted e ≠ 0 →
      Stopped g ((s.apply g a.thread eff).setPc a.thread p) e ∧ (g.edge e).isDataPassing = true)
    (he : e ∈ g.inEdges n)
    (hends : (((s.apply g a.thread eff).setPc a.thread p).pc n).Ends (g.edge e))
    (hf : (g.edge e).isBackedge = false) :
    (s.apply g a.thread eff).terminated (g.edge e).producer = true := by
  by_cases hn : n = a.thread
  · subst hn
    rw [setPc_pc_self] at hends
    cases hm with
    | wait t ans w eff p hpc hm => exact ends_own hi hpc hm hmsgs hstop he hends hf
    | prod t m ans cmd w err q eff p hpc hm =>
      refine terminated_mono (hi.ends t e he ?_ hf)
      simp only [hpc, Pc.Ends]
      cases hm with
      | done =>
        cases w with
        | true => rfl
        | false => cases hends
      | _ => exact hends
    | callWait | callComplete | callTerminate | spurious =>
      simp [Pc.Ends, WaitPc.status, WaitPc.dataStatus, Pc.ending] at hends
  · rcases pc_of_ne (g := g) (s := s) eff p hn with heq | ⟨-, -, heq⟩
    · rw [heq] at hends
      exact terminated_mono (hi.ends n e he hends hf)
    · rw [heq] at hends
      simp [Pc.Ends, WaitPc.status, WaitPc.dataStatus, Pc.ending] at hends

theorem step_countInv (ha : AtMostOnce s a) (hh : Healthy a) (hring : RingsOnce g s a)
    (hi : CountInv g s) (h : step g s a = some s') : CountInv g s' := by
  have hchan := step_chanInv ha hh hi.chan h
  obtain ⟨eff, p, hm, rfl⟩ := step_move h
  have hmsgs := msgs_step hi hm (fun e he hc ⟨tok, r, hpc, hat⟩ =>
    uncounted_of_counts hi hchan rfl he hc hpc hat)
  refine ⟨hchan, fun n tok r i e hpc hr => fresh_step hring hi hm hpc hr, hmsgs,
    fun n e he hends hf => ends_step hi hm (hmsgs _) (fun e he hc => ?_) he hends hf⟩
  exact hchan.stopped_of_counted he hc

theorem initState_countInv (junk : Junk) (g : Graph) : CountInv g (initState junk g) := by
  refine ⟨initState_chanInv junk g, by rintro _ _ _ _ _ ⟨⟩, fun n => ?_,
    fun n e _ hends => by cases hends⟩
  exact (List.countP_eq_zero.mpr fun e _ => by simp [initState]).symm

/-- **No premature termination.** Let nodes complete before they terminate, and terminate
at most once, and let reads and writes be short or would-block at worst. In every run in
which `pgm_recv_data` does not come back to a ring that it has counted, `pgm_wait` has
returned `PGM_TERMINATE` only to nodes all of whose forward producers have terminated. -/
theorem no_premature_termination
    (h : Lts.Reach (step g) (fun s a => AtMostOnce s a ∧ Healthy a ∧ RingsOnce g s a)
      (initState junk g) s)
    (hpc : s.pc n = .idle (some .terminate)) (he : e ∈ g.inEdges n)
    (hf : (g.edge e).isBackedge = false) : s.terminated (g.edge e).producer = true := by
  have hinv : CountInv g s := Lts.Reach.inv (initState_countInv junk g)
    (fun s a s' _ hi hp hs => step_countInv hp.1 hp.2.1 hp.2.2 hi hs) h
  exact hinv.ends n e he (by rw [hpc]; exact rfl) hf

end

/-! ## A ring that is counted twice -/

def ringAttr : EdgeAttr := ⟨1, 1, 1, .ring, 0, 2⟩

theorem ringAttr_accepted : ringAttr.Accepted := by
  constructor <;> simp [ringAttr, EdgeType.isMq, EdgeType.isRing]

def ringFifoEdges : List Edge :=
  [forwardEdge 0 2 ringAttr ringAttr_accepted, forwardEdge 1 2 (fifoAttr 1 2) halfFifo_accepted]

theorem ringFifoEdges_small : (∀ e ∈ ringFifoEdges, e.producer < 3 ∧ e.consumer < 3) ∧
    ringFifoEdges.length < 32 := by decide

def ringFifoGraph : Graph := .small 3 ringFifoEdges ringFifoEdges_small.1 ringFifoEdges_small.2

def sendByte : List Act :=
  List.flatten [[.complete 1 1, .run 1 (.user [7]), .run 1 (.bytes 2)], runs 1 2]

/-- Node 0 terminates, node 1 sends half of what node 2 consumes, node 2 waits and would
block on the FIFO, node 1 sends the other half, and node 2 goes on. -/
def recountRun : List Act :=
  List.flatten [[.terminate 0 0], runs 0 7, sendByte, [.wait 2], runs 2 7, [.run 2 (.ready 2)],
    runs 2 4, [.run 2 (.bytes 2), .run 2 .eagain], sendByte, [.run 2 (.ready 2)], runs 2 4,
    [.run 2 (.bytes 1), .run 2 (.bytes 1)], runs 2 7]

/-- Node 2 ends while node 1 is at work. -/
theorem ring_recounted :
    ∃ s, Lts.Reach (step ringFifoGraph) (fun s a => AtMostOnce s a ∧ Healthy a)
        (initState zeroed ringFifoGraph) s ∧
      s.pc 2 = .idle (some .terminate) ∧ 1 ∈ ringFifoGraph.inEdges 2 ∧
      (ringFifoGraph.edge 1).isBackedge = false ∧ (ringFifoGraph.edge 1).producer = 1 ∧
      s.terminated 1 = false ∧ s.data.counted 0 = 2 := by
  have hd : (Lts.drive (step ringFifoGraph) (fun s a => decide (AtMostOnce s a ∧ Healthy a))
      (initState zeroed ringFifoGraph) recountRun).map (fun s => decide
        (s.pc 2 = .idle (some .terminate) ∧ s.terminated 1 = false ∧ s.data.counted 0 = 2)) =
      some true := by decide +kernel
  obtain ⟨s, hs, hobs⟩ := Lts.reach_of_drive_map (fun s a h => of_decide_eq_true h) hd
  obtain ⟨hpc, hterm, hcount⟩ := of_decide_eq_true hobs
  exact ⟨s, hs, hpc, by decide, rfl, rfl, hterm, hcount⟩

/-- Node 2 is given a member of the ring and two bytes, both producers terminate, and node
2 waits again. -/
def ringFifoRun : List Act :=
  List.flatten [[.complete 0 0, .run 0 (.user [5])], runs 0 10, sendByte, sendByte, [.wait 2],
    runs 2 5, [.run 2 (.ready 2)], runs 2 4, [.run 2 (.bytes 2), .run 2 (.bytes 1),
    .run 2 (.bytes 1)], runs 2 8, [.terminate 0 0], runs 0 7, [.terminate 1 1], runs 1 1,
    [.run 1 (.bytes 1)], runs 1 2, [.wait 2], runs 2 7, [.run 2 (.ready 2)], runs 2 4,
    [.run 2 (.bytes 1)], runs 2 7]

theorem ringFifo_ends :
    ∃ s, Lts.Reach (step ringFifoGraph)
        (fun s a => AtMostOnce s a ∧ Healthy a ∧ RingsOnce ringFifoGraph s a)
        (initState zeroed ringFifoGraph) s ∧
      s.pc 2 = .idle (some .terminate) ∧ s.fired 2 = 1 ∧ s.terminated 0 = true ∧
      s.terminated 1 = true := by
  have hd : (Lts.drive (step ringFifoGraph)
      (fun s a => decide (AtMostOnce s a ∧ Healthy a ∧ RingsOnce ringFifoGraph s a))
      (initState zeroed ringFifoGraph) ringFifoRun).map
        (fun s => decide (s.pc 2 = .idle (some .terminate) ∧ s.fired 2 = 1)) = some true := by
    decide +kernel
  obtain ⟨s, hs, hobs⟩ := Lts.reach_of_drive_map (fun s a h => of_decide_eq_true h) hd
  obtain ⟨hpc, hfired⟩ := of_decide_eq_true hobs
  exact ⟨s, hs, hpc, hfired, no_premature_termination (e := 0) hs hpc (by decide) rfl,
    no_premature_termination (e := 1) hs hpc (by decide) rfl⟩

end Pgm
