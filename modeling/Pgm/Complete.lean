import Pgm.Consume
import Pgm.Drain

/-! The end of a node. Let the producers of all forward in-edges have executed
`pgm_terminate`, and let these edges hold neither tokens nor data. The next `pgm_wait`
then finds all terminate signals on its quick path, reads and counts all terminate
messages in one pass, and calls `pgm_terminate`, provided that none of the messages has
been read before, that the forward edges are of both kinds that the node waits for, and
that the back edges it reads hold what it consumes. -/

namespace Pgm

open Function (update)

/-- The forward in-edges of `n` have nothing left to give. -/
structure Exhausted (g : Graph) (s : State) (n : Nat) : Prop where
  forward : ∃ e ∈ g.inEdges n, (g.edge e).isBackedge = false
  ended : ∀ e ∈ g.inEdges n, (g.edge e).isBackedge = false → Ended s (g.edge e).producer
  tokens : ∀ e ∈ g.inEdges n, (g.edge e).isBackedge = false → (g.edge e).isSignalDriven = true →
    s.nrPending e < (g.edge e).attr.nrThreshold
  data : ∀ e ∈ g.inEdges n, (g.edge e).isBackedge = false → (g.edge e).isDataPassing = true →
    (s.data.chan e).Empty (g.edge e).attr

/-- A node can be told to end: there is a forward signaled in-edge if there is a signaled
one, and a forward data-passing one if there is a data-passing one. -/
structure Endable (g : Graph) (n : Nat) : Prop where
  signaled : g.nrInSignaled n ≠ 0 → g.nrInSignaledForward n ≠ 0
  data : g.nrInData n ≠ 0 → g.nrInDataForward n ≠ 0

/-- Nothing keeps `pgm_recv_data` from one pass over the in-edges: no terminate message has
been read, and the back edges to be read hold what is consumed. -/
structure Unread (g : Graph) (s : State) (n : Nat) : Prop where
  forward : ∀ e ∈ g.inEdges n, s.data.counted e = 0
  back : ∀ e ∈ g.inEdges n, (g.edge e).isBackedge = true → (g.edge e).isDataPassing = true →
    s.nrSkips e = 0 → (s.data.chan e).Holds (g.edge e).attr (g.edge e).attr.nrConsume

theorem exhausted_iff {g : Graph} {s : State} {n : Nat} : Exhausted g s n ↔
    (∃ e ∈ g.inEdges n, (g.edge e).isBackedge = false) ∧
      ∀ e ∈ g.inEdges n, (g.edge e).isBackedge = false → Ended s (g.edge e).producer ∧
        ((g.edge e).isSignalDriven = true → s.nrPending e < (g.edge e).attr.nrThreshold) ∧
        ((g.edge e).isDataPassing = true → (s.data.chan e).Empty (g.edge e).attr) :=
  ⟨fun ⟨h, hend, htok, hdat⟩ =>
      ⟨h, fun e he hf => ⟨hend e he hf, htok e he hf, hdat e he hf⟩⟩,
    fun ⟨h, hall⟩ => ⟨h, fun e he hf => (hall e he hf).1, fun e he hf => (hall e he hf).2.1,
      fun e he hf => (hall e he hf).2.2⟩⟩

instance (g : Graph) (s : State) (n : Nat) : Decidable (Exhausted g s n) :=
  decidable_of_iff _ exhausted_iff.symm

theorem unread_iff {g : Graph} {s : State} {n : Nat} : Unread g s n ↔
    (∀ e ∈ g.inEdges n, s.data.counted e = 0) ∧
      ∀ e ∈ g.inEdges n, (g.edge e).isBackedge = true → (g.edge e).isDataPassing = true →
        s.nrSkips e = 0 → (s.data.chan e).Holds (g.edge e).attr (g.edge e).attr.nrConsume :=
  ⟨fun ⟨h, hb⟩ => ⟨h, hb⟩, fun ⟨h, hb⟩ => ⟨h, hb⟩⟩

instance (g : Graph) (s : State) (n : Nat) : Decidable (Unread g s n) :=
  decidable_of_iff _ unread_iff.symm

def WaitPc.Draining (g : Graph) (n : Nat) (skips : Nat → Nat) (d : Data) : WaitPc → Prop
  | .start => Pending g n skips d (fun _ => 0) 0
  | .scan l i r rn => l = false ∧ g.nrInSignaled n ≠ 0 ∧ rn = 0 ∧
      r ≤ ((g.inEdges n).take i).countP
        (fun e => (g.edge e).isSignalDriven && (g.edge e).isBackedge) ∧
      Pending g n skips d (fun _ => 0) 0
  | .termNonzero l | .termAll l =>
      l = false ∧ g.nrInSignaled n ≠ 0 ∧ Pending g n skips d (fun _ => 0) 0
  | .tokensDone tok => tok = .exhaustedAndTerminate ∧ Pending g n skips d (fun _ => 0) 0
  | .recv tok r => tok = .exhaustedAndTerminate ∧ g.nrInData n ≠ 0 ∧
      (∀ e, (g.edge e).attr.type.isMq = true → r.dest e = 0) ∧ r.Draining g n skips ∧
      Pending g n skips d r.dest r.pc.pos
  | .dataDone tok dat => tok = .exhaustedAndTerminate ∧ dat = .exhaustedAndTerminate
  | .skips ret _ => ret = .terminate
  | _ => False

structure Waiting (g : Graph) (s : State) (n : Nat) : Prop where
  live : s.terminated n = false
  ended : ∀ e ∈ g.inEdges n, (g.edge e).isBackedge = false → Ended s (g.edge e).producer
  tokens : ∀ e ∈ g.inEdges n, (g.edge e).isBackedge = false → readyEdge g s e = false
  here : ∃ w, s.pc n = .wait w ∧ w.Draining g n s.nrSkips s.data

def endCost (g : Graph) (n : Nat) : Nat := (g.inEdges n).length + 2

def WaitPc.left (g : Graph) (n : Nat) (d : Data) : WaitPc → Nat
  | .start => (g.inEdges n).length + passCost g n 0 + endCost g n + 39
  | .scan _ i _ _ => (g.inEdges n).length - i + passCost g n 0 + endCost g n + 38
  | .termNonzero _ => passCost g n 0 + endCost g n + 37
  | .termAll _ => passCost g n 0 + endCost g n + 36
  | .tokensDone _ => passCost g n 0 + endCost g n + 35
  | .recv _ r => r.left g n d + endCost g n
  | .dataDone _ _ => endCost g n
  | .skips _ i => (g.inEdges n).length - i + 1
  | _ => 0

def ProdPc.Closing : ProdPc → Prop
  | .write _ _ buf _ => buf = [pgmTerminate]
  | .ringWrite _ _ _ _ | .recheck _ _ _ _ => False
  | _ => True

def Closing (s : State) (n : Nat) : Prop :=
  ∃ err q, s.pc n = .prod n .terminate true err q ∧ q.Closing

def InEnd (g : Graph) (s : State) (n : Nat) : Prop := Waiting g s n ∨ Closing s n

/-- The steps of `pgm_terminate` from out-edge number `i` on. -/
def closeCost (g : Graph) (n i : Nat) (toWake : List Nat) : Nat :=
  6 * ((g.outEdges n).length - i) + 3 * toWake.length + 2

def ProdPc.left (g : Graph) (n : Nat) : ProdPc → Nat
  | .send i tw => closeCost g n i tw
  | .write i _ _ tw => closeCost g n (i + 1) tw + 5
  | .tokens i _ tw => closeCost g n (i + 1) tw + 4
  | .wake todo => 3 * todo.length + 1
  | .signal _ todo => 3 * todo.length + 3
  | .unlock _ todo => 3 * todo.length + 2
  | .ringWrite _ _ _ _ | .recheck _ _ _ _ => 0

def Pc.left (g : Graph) (n : Nat) (d : Data) : Pc → Nat
  | .wait w => w.left g n d + closeCost g n 0 []
  | .prod _ _ _ _ q => q.left g n
  | .idle _ => 0

/-- How many steps `pgm_wait` makes at most until it has returned. -/
def waitBound (g : Graph) (n : Nat) : Nat :=
  (g.inEdges n).length + passCost g n 0 + endCost g n + 39 + closeCost g n 0 []

/-- The lock that a thread in `pgm_produce` is to take next. -/
def Pc.awaits : Pc → Option Nat
  | .prod _ _ _ _ (.wake (c :: _)) => some c
  | _ => none

/-- The call of `pgm_recv_data` that a thread is in. -/
def Pc.reading : Pc → Option Recv
  | .wait (.recv _ r) => some r
  | _ => none

def Pc.writing : Pc → Bool
  | .prod _ _ _ _ (.write _ _ _ _) => true
  | _ => false

/-- The operating system tells the owner of `n` the truth while it reads, and takes its
terminate messages. -/
def Pc.Honest (g : Graph) (n : Nat) (d : Data) (ans : Answer) (p : Pc) : Prop :=
  (∀ r ∈ p.reading, r.Honest g n d ans) ∧ (p.writing = true → ans ≠ .eagain)

def InCall (g : Graph) (n : Nat) (s : State) : Act → Prop
  | .run t ans => t = n → (s.pc n).Honest g n s.data ans
  | .wait t | .complete t _ | .terminate t _ => t ≠ n
  | .spurious _ => True

def InWait (g : Graph) (n : Nat) (s : State) (a : Act) : Prop :=
  AtMostOnce s a ∧ Healthy a ∧ InCall g n s a

instance (g : Graph) (n : Nat) (d : Data) (ans : Answer) (p : Pc) : Decidable (p.Honest g n d ans) :=
  inferInstanceAs (Decidable ((∀ r ∈ p.reading, _) ∧ (p.writing = true → ans ≠ .eagain)))

instance (g : Graph) (n : Nat) (s : State) : (a : Act) → Decidable (InCall g n s a)
  | .run t ans => inferInstanceAs (Decidable (t = n → (s.pc n).Honest g n s.data ans))
  | .wait t | .complete t _ | .terminate t _ => inferInstanceAs (Decidable (t ≠ n))
  | .spurious _ => inferInstanceAs (Decidable True)

instance (g : Graph) (n : Nat) (s : State) (a : Act) : Decidable (InWait g n s a) :=
  inferInstanceAs (Decidable (AtMostOnce s a ∧ Healthy a ∧ InCall g n s a))

/-- What holds in every run of nodes that terminate at most once, besides `ChanInv`. -/
structure BaseInv (g : Graph) (s : State) : Prop where
  chan : ChanInv g s
  held : HeldInv s
  skips : ∀ e, s.nrSkips e ≤ (g.edge e).skips
  msgs : ∀ n, (∀ e ∈ g.inEdges n, s.data.counted e = 0) → s.data.nrTerminateMsgs n = 0

section

variable {junk : Junk} {g : Graph} {s s' : State} {a : Act} {eff : Effect} {p : Pc} {n e : Nat}

theorem apply_nrSkips_le {t : Nat} : (s.apply g t eff).nrSkips e ≤ s.nrSkips e := by
  cases eff with
  | decSkips e' =>
    by_cases he : e = e'
    · subst he
      simp [State.apply]
    · simp [State.apply, he]
  | _ => exact Nat.le_refl _

theorem step_baseInv (ha : AtMostOnce s a) (hh : Healthy a) (hi : BaseInv g s)
    (h : step g s a = some s') : BaseInv g s' := by
  have hchan := step_chanInv ha hh hi.chan h
  have hheld := step_heldInv hi.held h
  obtain ⟨eff, p, hm, rfl⟩ := step_move h
  refine ⟨hchan, hheld, fun e => (apply_nrSkips_le (g := g)).trans (hi.skips e), fun n hzero => ?_⟩
  rcases hm.counts hi.chan with ⟨hc, hmsgs⟩ | ⟨e, he, ⟨hc, hmsgs⟩, -⟩
  · change ∀ e ∈ g.inEdges n, (s.apply g a.thread eff).data.counted e = 0 at hzero
    change (s.apply g a.thread eff).data.nrTerminateMsgs n = 0
    rw [hmsgs]
    rw [hc] at hzero
    exact hi.msgs n hzero
  · change ∀ e ∈ g.inEdges n, (s.apply g a.thread eff).data.counted e = 0 at hzero
    change (s.apply g a.thread eff).data.nrTerminateMsgs n = 0
    rw [hmsgs]
    rw [hc] at hzero
    by_cases hn : n = a.thread
    · subst hn
      have := hzero e he
      rw [Function.update_self] at this
      cases this
    · rw [Function.update_of_ne hn]
      refine hi.msgs n (fun e' he' => ?_)
      rw [← hzero e' he', Function.update_of_ne (ne_of_inEdges he' he hn)]

theorem initState_baseInv (junk : Junk) (g : Graph) : BaseInv g (initState junk g) :=
  ⟨initState_chanInv junk g, initState_heldInv junk g, fun _ => Nat.le_refl _, fun _ _ => rfl⟩

theorem reach_baseInv
    (h : Lts.Reach (step g) (fun s a => AtMostOnce s a ∧ Healthy a) (initState junk g) s) :
    BaseInv g s :=
  Lts.Reach.inv (initState_baseInv junk g) (fun _ _ _ _ hi hp hs => step_baseInv hp.1 hp.2 hi hs) h

/-- A forward edge is never skipped. -/
theorem BaseInv.unskipped (hi : BaseInv g s) (hf : (g.edge e).isBackedge = false) :
    s.nrSkips e = 0 :=
  Nat.le_zero.mp ((hi.skips e).trans_eq ((g.edge e).skips_forward hf))

/-- What the channels of the in-edges are like when the forward producers are done. -/
theorem ChanInv.settled (hi : ChanInv g s)
    (hended : ∀ e ∈ g.inEdges n, (g.edge e).isBackedge = false → Ended s (g.edge e).producer) :
    Settled g n s.data := by
  refine ⟨fun e he hf => ?_, fun e he hb => ?_⟩
  · have hend := hended e he hf
    have hok := hi.edges e (Graph.mem_inEdges.mp he).1
    unfold EdgeOk at hok
    have hnot : (s.pc (g.edge e).producer).ahead g = [] ∧
        (s.pc (g.edge e).producer).unwritten e = none := by
      cases hpc : s.pc (g.edge e).producer with
      | prod k cmd w err q => exact absurd hpc (hend.not_prod hi.term)
      | _ => exact ⟨rfl, rfl⟩
    have hstop : Stopped g s e := ⟨hf, hend.terminated, by rw [hnot.1]; simp⟩
    rwa [decide_eq_true hstop, hnot.2] at hok
  · have hok := hi.edges e (Graph.mem_inEdges.mp he).1
    unfold EdgeOk at hok
    have hstop : ¬ Stopped g s e := by
      intro hs
      rw [hs.forward] at hb
      cases hb
    rw [decide_eq_false hstop] at hok
    exact ⟨_, hok⟩

/-! ## The owner's steps -/

/-- The call of `pgm_recv_data` inside of the wait. -/
theorem drainCtx {tok : WaitStatus} {r : Recv} (hi : BaseInv g s)
    (hended : ∀ e ∈ g.inEdges n, (g.edge e).isBackedge = false → Ended s (g.edge e).producer)
    (hpc : s.pc n = .wait (.recv tok r))
    (hdr : (WaitPc.recv tok r).Draining g n s.nrSkips s.data) :
    DrainCtx g n s.nrSkips s.data r :=
  ⟨hi.chan.settled hended, fun _ _ hf => hi.unskipped hf, hi.chan.dest n tok r hpc, hdr.2.2.1,
    hdr.2.2.2.1, hdr.2.2.2.2⟩

theorem back_lt_signaled (h : g.nrInSignaledForward n ≠ 0) :
    g.nrInSignaledBackedges n < g.nrInSignaled n := by
  unfold Graph.nrInSignaledForward at h
  omega

/-- Only back edges still have tokens. -/
theorem Waiting.ready_back (hw : Waiting g s n) (he : e ∈ g.inEdges n)
    (hr : readyEdge g s e = true) :
    (g.edge e).isSignalDriven = true ∧ (g.edge e).isBackedge = true := by
  refine ⟨readyEdge_signaled hr, ?_⟩
  by_contra hf
  have := hw.tokens e he (by simpa using hf)
  rw [hr] at this
  cases this

/-- A forward data-passing in-edge is there to be read. -/
theorem Endable.exists_active (hend : Endable g n) (hi : BaseInv g s) (h : g.nrInData n ≠ 0) :
    ∃ j e, Active g n s.nrSkips j e := by
  have hsome := hend.data h
  rw [g.nrInDataForward_eq] at hsome
  obtain ⟨e, he, hfd⟩ := List.countP_pos_iff.mp (Nat.pos_of_ne_zero hsome)
  rw [Bool.and_eq_true, Bool.not_eq_true'] at hfd
  obtain ⟨j, hj⟩ := List.mem_iff_getElem?.mp he
  exact ⟨j, e, hj, hfd.1, hi.unskipped hfd.2⟩

/-- **One step of the owner.** -/
theorem draining_own {ans : Answer} {w : WaitPc} (hend : Endable g n) (hi : BaseInv g s)
    (hw : Waiting g s n) (hpc : s.pc n = .wait w)
    (hdr : w.Draining g n s.nrSkips s.data)
    (hhonest : ∀ tok r, w = .recv tok r → r.Honest g n s.data ans)
    (heof : ans ≠ .eof) (hfail : ans ≠ .failed) (hm : WaitMove g s n ans w eff p) :
    p = .prod n .terminate true false (.send 0 []) ∨ ∃ w', p = .wait w' ∧
      w'.Draining g n (s.apply g n eff).nrSkips (s.apply g n eff).data ∧
      w'.left g n (s.apply g n eff).data < w.left g n s.data := by
  have hfull := full_of_ended hi.chan.term hw.ended
  have hgo : ∀ w', w'.Draining g n s.nrSkips s.data → w'.left g n s.data < w.left g n s.data →
      Pc.wait w' = .prod n .terminate true false (.send 0 []) ∨ ∃ v, Pc.wait w' = .wait v ∧
        v.Draining g n s.nrSkips s.data ∧ v.left g n s.data < w.left g n s.data :=
    fun w' hd hl => Or.inr ⟨w', rfl, hd, hl⟩
  cases hm with
  | start h =>
    refine hgo _ ⟨rfl, h, rfl, Nat.zero_le _, hdr⟩ ?_
    simp only [WaitPc.left]
    omega
  | startData h =>
    refine hgo _ ⟨rfl, hdr⟩ ?_
    simp only [WaitPc.left]
    omega
  | read l i r rn e he =>
    obtain ⟨rfl, hne, rfl, hle, hp⟩ := hdr
    obtain ⟨hlt, -⟩ := List.getElem?_eq_some_iff.mp he
    have hready := hw.ready_back (List.mem_of_getElem? he)
    refine hgo _ ⟨rfl, hne, ?_, ?_, hp⟩ ?_
    · refine if_neg (fun hc => ?_)
      rw [Bool.and_eq_true, Bool.not_eq_true'] at hc
      exact absurd ((hready hc.1).2.symm.trans hc.2) (by decide)
    · rw [Scan.countP_take_succ he]
      split
      · rename_i hr
        rw [(hready hr).1, (hready hr).2]
        exact Nat.succ_le_succ hle
      · exact hle.trans (Nat.le_add_right _ _)
    · simp only [WaitPc.left]
      omega
  | allReady l i r rn he hr =>
    obtain ⟨-, hne, -, hle, -⟩ := hdr
    rw [Scan.take_of_end he, hr] at hle
    exact absurd hle (Nat.not_le.mpr (back_lt_signaled (hend.signaled hne)))
  | someReady l i r rn he hr hn => exact absurd hdr.2.2.1 hn
  | noneReady l i r rn he hr hn =>
    obtain ⟨rfl, hne, -, -, hp⟩ := hdr
    refine hgo _ ⟨rfl, hne, hp⟩ ?_
    simp only [WaitPc.left]
    omega
  | someTerm l h =>
    refine hgo _ hdr ?_
    simp only [WaitPc.left]
    omega
  | noTerm l h => exact absurd (hfull.symm.trans h) (hend.signaled hdr.2.1)
  | allTerm l h =>
    obtain ⟨rfl, -, hp⟩ := hdr
    refine hgo (.tokensDone .exhaustedAndTerminate) ⟨rfl, hp⟩ ?_
    simp only [WaitPc.left]
    omega
  | notAllTerm l h => exact absurd hfull h
  | noData tok h =>
    refine hgo _ ⟨hdr.1, rfl⟩ ?_
    simp only [WaitPc.left]
    omega
  | recvStart tok r h hr =>
    obtain ⟨hplace, hdest, hsel⟩ := drain_start hr
    refine hgo _ ⟨hdr.1, h, fun e _ => by rw [hdest], hplace, ?_⟩ ?_
    · rw [hdest, hsel]
      exact hdr.2
    · have hbits : nrWaiting r.toWait ≤ 32 := by
        have := List.countP_le_length (p := r.toWait.getLsbD) (l := List.range 32)
        rwa [List.length_range] at this
      simp only [WaitPc.left, left_select hsel]
      omega
  | recvNone tok st h hr =>
    obtain ⟨j, e, hact⟩ := hend.exists_active hi h
    exact absurd hact (not_active_of_recvStart_done hr j e)
  | recv tok r r' d h =>
    have hctx := drainCtx hi hw.ended hpc hdr
    have hdrain := drain_step hctx (hend.data hdr.2.1) (hhonest tok r rfl) heof hfail (recvStep_move h)
    rcases hdrain with hdone | ⟨r'', hmore, hmq, hplace, hp, hleft⟩
    · cases hdone
    · cases hmore
      exact Or.inr ⟨_, rfl, ⟨hdr.1, hdr.2.1, hmq, hplace, hp⟩, Nat.add_lt_add_right hleft _⟩
  | recvDone tok st r d h =>
    have hctx := drainCtx hi hw.ended hpc hdr
    have hdrain := drain_step hctx (hend.data hdr.2.1) (hhonest tok r rfl) heof hfail (recvStep_move h)
    rcases hdrain with hdone | ⟨r'', hmore, -⟩
    · cases hdone
      refine Or.inr ⟨_, rfl, ⟨hdr.1, rfl⟩, ?_⟩
      have hpos : 0 < r.left g n s.data := by
        unfold Recv.left
        split <;> omega
      simp only [WaitPc.left]
      omega
    · cases hmore
  | toConsume tok dat h hr =>
    obtain ⟨rfl, rfl⟩ := hdr
    exact absurd rfl hr
  | toSkips tok dat h =>
    obtain ⟨rfl, rfl⟩ := hdr
    refine hgo _ rfl ?_
    simp only [WaitPc.left, endCost]
    omega
  | skip ret i e he h | skipPass ret i e he h =>
    obtain ⟨hlt, -⟩ := List.getElem?_eq_some_iff.mp he
    refine Or.inr ⟨_, rfl, hdr, ?_⟩
    simp only [WaitPc.left]
    omega
  | terminate i he => exact Or.inl rfl
  | fire i he | fail i he => cases hdr
  | lock | relock | cvWait | unlock | consume | consumePass | consumed => exact absurd hdr id

/-! ## The steps of the others -/

theorem Chan.Holds.mono {c c' : Chan} {at' : EdgeAttr} {k : Nat} (h : c.Holds at' k)
    (hg : Grows c c') : c'.Holds at' k := by
  have hqueue : c.queue ≠ [] → c'.queue ≠ [] := by
    intro hne hnil
    have hpre := hg.queue
    rw [hnil] at hpre
    exact hne (List.prefix_nil.mp hpre)
  refine ⟨fun hs => ?_, fun hq => hqueue (h.mq hq), fun hr => hqueue (h.ring hr)⟩
  obtain ⟨ys, hys⟩ := hg.stream
  rw [hg.nextTag, ← hys]
  exact (h.stream hs).trans (Framing.strip_length_le _ _ _)

theorem pending_foreign {dest : Nat → Nat} {j : Nat} (hi : BaseInv g s) (hh : Healthy a)
    (hm : Move g s a eff p) (hn : n ≠ a.thread)
    (hended : ∀ e ∈ g.inEdges n, (g.edge e).isBackedge = false → Ended s (g.edge e).producer)
    (hp : Pending g n s.nrSkips s.data dest j) :
    Pending g n (s.apply g a.thread eff).nrSkips (s.apply g a.thread eff).data dest j := by
  refine ⟨?_, fun e he hf hd => ?_, fun e he hb hd hsk => ?_⟩
  · rw [← hp.msgs]
    rcases hm.counts hi.chan with ⟨-, hmsgs⟩ | ⟨e, -, ⟨-, hmsgs⟩, -⟩
    · rw [hmsgs]
    · rw [hmsgs, Function.update_of_ne hn]
  · have hmem := List.mem_of_mem_drop he
    have hsame := (foreign_chan hi.chan hh hm hn hmem).2
      (fun m cmd w err q => (hended e hmem hf).not_prod hi.chan.term)
    rw [hsame]
    exact hp.forward e he hf hd
  · have hmem := List.mem_of_mem_drop he
    rw [foreign_nrSkips hm hn hmem] at hsk
    exact (hp.back e he hb hd hsk).mono (foreign_chan hi.chan hh hm hn hmem).1

theorem recv_draining_congr {skips skips' : Nat → Nat} {r : Recv}
    (hs : ∀ e ∈ g.inEdges n, skips' e = skips e) (h : r.Draining g n skips) :
    r.Draining g n skips' := by
  have hact : ∀ {i e}, Active g n skips i e → Active g n skips' i e :=
    fun ha => ⟨ha.1, ha.2.1, (hs _ ha.mem).trans ha.2.2⟩
  unfold Recv.Draining at h ⊢
  cases hpc : r.pc with
  | select err =>
    rw [hpc] at h
    refine ⟨h.1, fun i hi => ?_⟩
    obtain ⟨e, ha, hr⟩ := h.2 i hi
    exact ⟨e, hact ha, hr⟩
  | edge i => trivial
  | ringEmpty i e | ringRead i e | read i e =>
    rw [hpc] at h
    exact ⟨hact h.1, h.2⟩

/-- What is left of a call depends on the tags of the node's in-edges only. -/
theorem recv_left_congr {skips : Nat → Nat} {d d' : Data} {r : Recv}
    (hd : ∀ e ∈ g.inEdges n, d'.nextTag e = d.nextTag e) (h : r.Draining g n skips) :
    r.left g n d' = r.left g n d := by
  unfold Recv.Draining at h
  cases hpc : r.pc with
  | read i e =>
    rw [hpc] at h
    rw [left_read hpc, left_read hpc, hd e h.1.mem]
  | _ => simp only [Recv.left, hpc]

theorem waiting_foreign (hi : BaseInv g s) (ha : AtMostOnce s a) (hh : Healthy a)
    (hm : Move g s a eff p) (hn : n ≠ a.thread) (hw : Waiting g s n) :
    Waiting g ((s.apply g a.thread eff).setPc a.thread p) n ∧
      (((s.apply g a.thread eff).setPc a.thread p).pc n).left g n (s.apply g a.thread eff).data =
        (s.pc n).left g n s.data := by
  obtain ⟨w, hpc, hdr⟩ := hw.here
  have hpc' : ((s.apply g a.thread eff).setPc a.thread p).pc n = .wait w := by
    rcases pc_of_ne (g := g) (s := s) eff p hn with heq | ⟨-, hasleep, -⟩
    · exact heq.trans hpc
    · obtain rfl := Pc.wait.inj (hpc.symm.trans hasleep)
      exact absurd hdr id
  have hskips : ∀ e ∈ g.inEdges n, (s.apply g a.thread eff).nrSkips e = s.nrSkips e :=
    fun e he => foreign_nrSkips hm hn he
  have htags : ∀ e ∈ g.inEdges n, (s.apply g a.thread eff).data.nextTag e = s.data.nextTag e :=
    fun e he => (foreign_chan hi.chan hh hm hn he).1.nextTag
  have hpend : ∀ dest j, Pending g n s.nrSkips s.data dest j →
      Pending g n (s.apply g a.thread eff).nrSkips (s.apply g a.thread eff).data dest j :=
    fun dest j hp => pending_foreign hi hh hm hn hw.ended hp
  refine ⟨⟨?_, fun e he hf => (hw.ended e he hf).step hi.chan.term ha hm, fun e he hf => ?_,
    w, hpc', ?_⟩, ?_⟩
  · exact (apply_terminated ha hm hn).trans hw.live
  · have hadd : eff ≠ .addTokens e := by
      rintro rfl
      have hlive := (hi.chan.term.live hm.sendsOn).1
      rw [(hw.ended e he hf).terminated] at hlive
      cases hlive
    exact not_ready_of_le (hw.tokens e he hf) (foreign_nrPending hm hn he hadd) (hskips e he).le
  · change w.Draining g n (s.apply g a.thread eff).nrSkips (s.apply g a.thread eff).data
    cases w with
    | start => exact hpend _ _ hdr
    | scan l i r rn => exact ⟨hdr.1, hdr.2.1, hdr.2.2.1, hdr.2.2.2.1, hpend _ _ hdr.2.2.2.2⟩
    | termNonzero l | termAll l => exact ⟨hdr.1, hdr.2.1, hpend _ _ hdr.2.2⟩
    | tokensDone tok => exact ⟨hdr.1, hpend _ _ hdr.2⟩
    | recv tok r =>
      obtain ⟨htok, hdata, hmq, hplace, hp⟩ := hdr
      exact ⟨htok, hdata, hmq, recv_draining_congr hskips hplace, hpend _ _ hp⟩
    | _ => exact hdr
  · rw [hpc', hpc]
    cases w with
    | recv tok r =>
      simp only [Pc.left, WaitPc.left]
      rw [recv_left_congr htags hdr.2.2.2.1]
    | _ => rfl

/-! ## The last call -/

theorem closeCost_succ {i : Nat} {tw : List Nat} (h : (g.outEdges n)[i]? = some e) :
    closeCost g n i tw = closeCost g n (i + 1) tw + 6 := by
  obtain ⟨hlt, -⟩ := List.getElem?_eq_some_iff.mp h
  unfold closeCost
  omega

theorem terminate_written {d d' : Data} {ans : Answer} {nx : SendNext} (hagain : ans ≠ .eagain)
    (h : sendStdStep g d e [pgmTerminate] ans = some (d', nx)) : ∃ ok, nx = .done ok := by
  obtain ⟨⟨res, d₁⟩, hw, hx⟩ := Option.map_eq_some_iff.mp h
  cases ans with
  | bytes k =>
    simp only [Data.write] at hw
    split_ifs at hw with hmq hk
    · cases hw
      cases hx
      exact ⟨true, rfl⟩
    · cases hw
      obtain rfl : k = 1 := Nat.le_antisymm hk.2 hk.1
      cases hx
      exact ⟨true, rfl⟩
  | eagain => exact absurd rfl hagain
  | failed =>
    cases hw
    cases hx
    exact ⟨false, rfl⟩
  | _ => cases hw

/-- **One step of the last call.** -/
theorem closing_own {err : Bool} {ans : Answer} {q : ProdPc} (hq : q.Closing)
    (hagain : (Pc.prod n .terminate true err q).writing = true → ans ≠ .eagain)
    (hm : ProdMove g s n .terminate true err ans q eff p) :
    p = .idle (some .terminate) ∨ ∃ err' q', p = .prod n .terminate true err' q' ∧ q'.Closing ∧
      q'.left g n < q.left g n := by
  have hgo : ∀ err' q', q'.Closing → q'.left g n < q.left g n →
      Pc.prod n .terminate true err' q' = .idle (some .terminate) ∨
        ∃ err'' q'', Pc.prod n .terminate true err' q' = .prod n .terminate true err'' q'' ∧
          q''.Closing ∧ q''.left g n < q.left g n :=
    fun err' q' hc hl => Or.inr ⟨err', q', rfl, hc, hl⟩
  cases hm with
  | sent i tw hi =>
    refine hgo _ _ trivial ?_
    simp only [ProdPc.left, closeCost]
    omega
  | backedge i e tw hi =>
    refine hgo _ _ trivial ?_
    simp only [ProdPc.left, closeCost_succ hi]
    omega
  | cvEdge i e tw hi | ringCmd i e tw hi =>
    refine hgo _ _ trivial ?_
    simp only [ProdPc.left, closeCost_succ hi]
    omega
  | lastMessage i e tw hi =>
    refine hgo _ _ rfl ?_
    simp only [ProdPc.left, closeCost_succ hi]
    omega
  | write i e buf buf' tw d h =>
    obtain rfl : buf = [pgmTerminate] := hq
    obtain ⟨ok, hok⟩ := terminate_written (hagain rfl) h
    cases hok
  | written i e buf tw d ok h =>
    unfold afterData
    split
    · refine hgo _ _ trivial ?_
      simp only [ProdPc.left]
      omega
    · refine hgo _ _ trivial ?_
      simp only [ProdPc.left]
      omega
  | termSignal i e tw hc =>
    refine hgo _ _ trivial ?_
    simp only [ProdPc.left, closeCost, List.length_append, List.length_singleton]
    omega
  | done => exact Or.inl rfl
  | lockTerm c cs h hc =>
    refine hgo _ _ trivial ?_
    simp only [ProdPc.left, List.length_cons]
    omega
  | signal c cs | unlock c cs =>
    refine hgo _ _ trivial ?_
    simp only [ProdPc.left]
    omega
  | ring i e tw x hi hc | message i e tw x hi hc => cases hc
  | tokens i e tw hc => cases hc
  | lock c cs h hc => cases hc
  | ringWrite | recheck | recheckAll | recheckShort => exact absurd hq id

theorem Closing.foreign (eff : Effect) (p : Pc) (hn : n ≠ a.thread) (hc : Closing s n) :
    Closing ((s.apply g a.thread eff).setPc a.thread p) n ∧
      ((s.apply g a.thread eff).setPc a.thread p).pc n = s.pc n := by
  obtain ⟨err, q, hpc, hq⟩ := hc
  rcases pc_of_ne (g := g) (s := s) eff p hn with heq | ⟨-, hasleep, -⟩
  · exact ⟨⟨err, q, heq.trans hpc, hq⟩, heq⟩
  · rw [hpc] at hasleep
    cases hasleep

/-! ## The whole wait -/

/-- The wait takes no tokens and keeps its node alive until it ends. -/
theorem draining_frame {ans : Answer} {w w' : WaitPc} {skips : Nat → Nat} {d : Data}
    (hdr : w.Draining g n skips d) (hm : WaitMove g s n ans w eff (.wait w')) :
    (s.apply g n eff).nrPending = s.nrPending ∧
      (s.apply g n eff).terminated = s.terminated := by
  cases hm with
  | consume => exact absurd hdr id
  | _ => exact ⟨rfl, rfl⟩

theorem waiting_own {t : Nat} {ans : Answer} {w : WaitPc} (hend : Endable g t)
    (hi : BaseInv g s) (hp : InWait g t s (.run t ans)) (hpc : s.pc t = .wait w)
    (hm : WaitMove g s t ans w eff p) (hw : Waiting g s t) :
    InEnd g ((s.apply g t eff).setPc t p) t ∧
      p.left g t (s.apply g t eff).data < (s.pc t).left g t s.data := by
  obtain ⟨v, hpc', hdr⟩ := hw.here
  obtain rfl := Pc.wait.inj (hpc'.symm.trans hpc)
  obtain ⟨ha, hh, hcall⟩ := hp
  have hmove : Move g s (.run t ans) eff p := .wait t ans _ eff p hpc hm
  have hhonest : ∀ tok r, v = .recv tok r → r.Honest g t s.data ans := by
    rintro tok r rfl
    refine (hcall rfl).1 r ?_
    rw [hpc]
    rfl
  rw [hpc]
  rcases draining_own hend hi hw hpc hdr hhonest hh.1 hh.2 hm with rfl | ⟨w', rfl, hdr', hlt⟩
  · refine ⟨Or.inr ⟨false, .send 0 [], setPc_pc_self, trivial⟩, ?_⟩
    cases hm with
    | terminate i he =>
      simp only [Pc.left, ProdPc.left, WaitPc.left]
      omega
  · obtain ⟨hpending, hterm⟩ := draining_frame hdr hm
    refine ⟨Or.inl ⟨?_, fun e he hf => (hw.ended e he hf).step hi.chan.term ha hmove,
      fun e he hf => ?_, w', setPc_pc_self, hdr'⟩, Nat.add_lt_add_right hlt _⟩
    · exact (congrFun hterm t).trans hw.live
    · exact not_ready_of_le (hw.tokens e he hf) (congrFun hpending e) (apply_nrSkips_le (g := g))

/-- **One step while the wait lasts.** The owner comes nearer to its return, and nobody
else takes it back. -/
theorem inEnd_step (hend : Endable g n) (hi : BaseInv g s) (hp : InWait g n s a)
    (he : InEnd g s n) (h : step g s a = some s') :
    s'.pc n = .idle (some .terminate) ∨ (InEnd g s' n ∧
      (s'.pc n).left g n s'.data + (if a.thread == n then 1 else 0) ≤
        (s.pc n).left g n s.data) := by
  obtain ⟨eff, p, hm, rfl⟩ := step_move h
  by_cases hn : n = a.thread
  · subst hn
    rw [setPc_pc_self, if_pos (beq_self_eq_true _)]
    change _ ∨ (_ ∧ p.left g a.thread (s.apply g a.thread eff).data + 1 ≤ _)
    cases hm with
    | callWait t last hpc | callComplete t m last hpc | callTerminate t m last hpc =>
      exact absurd rfl hp.2.2
    | spurious t hpc =>
      rcases he with hw | ⟨err, q, hpc', -⟩
      · obtain ⟨w, hpc', hdr⟩ := hw.here
        obtain rfl := Pc.wait.inj (hpc'.symm.trans hpc)
        exact absurd hdr id
      · cases hpc'.symm.trans hpc
    | wait t ans w eff p hpc hm =>
      rcases he with hw | ⟨err, q, hpc', -⟩
      · exact Or.inr (waiting_own hend hi hp hpc hm hw)
      · cases hpc'.symm.trans hpc
    | prod t m ans cmd w err q eff p hpc hm =>
      rcases he with hw | ⟨err', q', hpc', hq⟩
      · obtain ⟨w', hpc', -⟩ := hw.here
        cases hpc'.symm.trans hpc
      · cases hpc'.symm.trans hpc
        have hagain := (hp.2.2 rfl).2
        rw [hpc'] at hagain
        rcases closing_own hq hagain hm with rfl | ⟨err'', q'', rfl, hq'', hlt⟩
        · exact Or.inl rfl
        · refine Or.inr ⟨Or.inr ⟨err'', q'', setPc_pc_self, hq''⟩, ?_⟩
          rw [hpc']
          exact hlt
  · right
    rw [if_neg (by simpa using Ne.symm hn)]
    rcases he with hw | hc
    · obtain ⟨hw', hleft⟩ := waiting_foreign hi hp.1 hp.2.1 hm hn hw
      exact ⟨Or.inl hw', hleft.le⟩
    · obtain ⟨hc', hpc⟩ := hc.foreign (g := g) eff p hn
      refine ⟨Or.inr hc', ?_⟩
      rw [hpc]
      obtain ⟨err, q, hpc', -⟩ := hc
      rw [hpc']
      exact Nat.le_refl _

theorem InEnd.busy (h : InEnd g s n) :
    (∀ last, s.pc n ≠ .idle last) ∧ 0 < (s.pc n).left g n s.data := by
  rcases h with hw | ⟨err, q, hpc, hq⟩
  · obtain ⟨w, hpc, -⟩ := hw.here
    rw [hpc]
    exact ⟨by rintro last ⟨⟩, Nat.lt_add_left _ (Nat.succ_pos _)⟩
  · rw [hpc]
    refine ⟨by rintro last ⟨⟩, ?_⟩
    cases q with
    | ringWrite | recheck => exact absurd hq id
    | _ => exact Nat.succ_pos _

/-- A wait that has returned stays so while its owner makes no other call. -/
theorem returned_step (hp : InWait g n s a) (hr : s.pc n = .idle (some .terminate))
    (h : step g s a = some s') : s'.pc n = .idle (some .terminate) := by
  obtain ⟨eff, p, hm, rfl⟩ := step_move h
  by_cases hn : n = a.thread
  · subst hn
    cases hm with
    | callWait t last hpc | callComplete t m last hpc | callTerminate t m last hpc =>
      exact absurd rfl hp.2.2
    | wait t ans w eff p hpc hm | prod t m ans cmd w err q eff p hpc hm | spurious t hpc =>
      cases hr.symm.trans hpc
  · rcases pc_of_ne (g := g) (s := s) eff p hn with heq | ⟨-, hasleep, -⟩
    · exact heq.trans hr
    · cases hr.symm.trans hasleep

/-! ## The wait is never blocked -/

theorem draining_enabled {w : WaitPc} (hi : BaseInv g s) (hw : Waiting g s n)
    (hpc : s.pc n = .wait w) (hdr : w.Draining g n s.nrSkips s.data) :
    ∃ ans, (waitStep g s n ans w).isSome = true ∧ (Pc.wait w).Honest g n s.data ans ∧
      ans ≠ .eof ∧ ans ≠ .failed := by
  have hgo : ∀ ans, (Pc.wait w).reading = none → (Pc.wait w).Honest g n s.data ans := by
    intro ans hnone
    refine ⟨fun r hr => ?_, by rintro ⟨⟩⟩
    rw [hnone] at hr
    cases hr
  cases w with
  | recv tok r =>
    obtain ⟨ans, hsome, hhonest, heof, hfail⟩ := drain_enabled (drainCtx hi hw.ended hpc hdr)
    obtain ⟨⟨d, nx⟩, hstep⟩ := Option.isSome_iff_exists.mp hsome
    refine ⟨ans, ?_, ⟨fun r' hr' => ?_, by rintro ⟨⟩⟩, heof, hfail⟩
    · simp only [waitStep, hstep]
      cases nx <;> rfl
    · cases hr'
      exact hhonest
  | start | termNonzero l | termAll l | dataDone tok dat =>
    exact ⟨.go, rfl, hgo _ rfl, by simp, by simp⟩
  | scan l i r rn | skips ret i =>
    refine ⟨.go, ?_, hgo _ rfl, by simp, by simp⟩
    simp only [waitStep]
    split <;> rfl
  | tokensDone tok =>
    refine ⟨.go, ?_, hgo _ rfl, by simp, by simp⟩
    simp only [waitStep]
    split_ifs
    · rfl
    · split <;> rfl
  | _ => exact absurd hdr id

theorem closing_enabled {err : Bool} {q : ProdPc} (hq : q.Closing)
    (hfree : ∀ c ∈ (Pc.prod n .terminate true err q).awaits, s.lock c = none) :
    ∃ ans, (prodStep g s n .terminate true err ans q).isSome = true ∧ ans ≠ .eagain ∧
      ans ≠ .eof ∧ ans ≠ .failed := by
  refine ⟨.bytes 1, ?_, by simp, by simp, by simp⟩
  cases q with
  | send i tw =>
    simp only [prodStep]
    split
    · simp only [sendEdge, Option.isSome_map]
      split_ifs <;> rfl
    · rfl
  | write i e buf tw =>
    obtain rfl : buf = [pgmTerminate] := hq
    have hone : 0 < 1 ∧ 1 ≤ [pgmTerminate].length := by decide
    simp only [prodStep, sendStdStep, Data.write, if_pos hone]
    split_ifs <;> rfl
  | tokens i e tw => rfl
  | wake todo =>
    cases todo with
    | nil => rfl
    | cons c cs =>
      simp only [prodStep, hfree c rfl, if_true]
      rfl
  | signal c cs | unlock c cs => rfl
  | ringWrite i e x tw | recheck c i r cs => exact absurd hq id

/-- Who holds a lock can go on. -/
theorem holder_enabled {t c : Nat} (h : (s.pc t).holds t = some c) :
    (threadStep g s t .go).isSome = true ∧ (s.pc t).ending = false := by
  unfold threadStep
  cases hpc : s.pc t with
  | idle last => rw [hpc] at h; cases h
  | wait w =>
    rw [hpc] at h
    refine ⟨?_, ?_⟩
    · cases w with
      | scan l i r rn =>
        simp only [waitStep]
        split <;> rfl
      | termNonzero l | termAll l | cvWait | unlock st => rfl
      | _ => cases h
    · cases w with
      | skips ret i => cases h
      | _ => rfl
  | prod m cmd inWait err q =>
    rw [hpc] at h
    refine ⟨?_, rfl⟩
    cases q with
    | recheck c i r cs =>
      simp only [prodStep]
      split <;> rfl
    | signal c cs | unlock c cs => rfl
    | _ => cases h

/-- **The wait can go on**, or the thread that holds the lock for which it waits can. -/
theorem inEnd_enabled (hi : BaseInv g s) (he : InEnd g s n) :
    ∃ a s', InWait g n s a ∧ step g s a = some s' ∧
      (a.thread = n ∨ ∃ c ∈ (s.pc n).awaits, s.lock c = some a.thread) := by
  have hgo : ∀ t ans, (threadStep g s t ans).isSome = true → ∃ s', step g s (.run t ans) = some s' := by
    intro t ans hsome
    obtain ⟨x, hx⟩ := Option.isSome_iff_exists.mp hsome
    exact ⟨_, by simp only [step, actStep, hx, Option.map_some]; rfl⟩
  rcases he with hw | ⟨err, q, hpc, hq⟩
  · obtain ⟨w, hpc, hdr⟩ := hw.here
    obtain ⟨ans, hsome, hhonest, heof, hfail⟩ := draining_enabled hi hw hpc hdr
    obtain ⟨s', hs'⟩ := hgo n ans (by simpa only [threadStep, hpc] using hsome)
    refine ⟨.run n ans, s', ⟨fun _ => hw.live, ⟨heof, hfail⟩, fun _ => ?_⟩, hs', Or.inl rfl⟩
    rw [hpc]
    exact hhonest
  · by_cases hfree : ∀ c ∈ (s.pc n).awaits, s.lock c = none
    · rw [hpc] at hfree
      obtain ⟨ans, hsome, hagain, heof, hfail⟩ := closing_enabled (g := g) hq hfree
      obtain ⟨s', hs'⟩ := hgo n ans (by simpa only [threadStep, hpc] using hsome)
      refine ⟨.run n ans, s', ⟨fun hend => ?_, ⟨heof, hfail⟩, fun _ => ?_⟩, hs', Or.inl rfl⟩
      · rw [hpc] at hend
        cases hend
      · rw [hpc]
        exact ⟨by rintro r ⟨⟩, fun _ => hagain⟩
    · push Not at hfree
      obtain ⟨c, hc, hlock⟩ := hfree
      obtain ⟨t, ht⟩ := Option.ne_none_iff_exists'.mp hlock
      obtain ⟨hsome, hend⟩ := holder_enabled (g := g) (hi.held c t ht)
      obtain ⟨s', hs'⟩ := hgo t .go hsome
      refine ⟨.run t .go, s', ⟨fun h => ?_, ⟨by simp, by simp⟩, fun htn => ?_⟩, hs',
        Or.inr ⟨c, hc, ht⟩⟩
      · rw [hend] at h
        cases h
      · rw [hpc]
        exact ⟨by rintro r ⟨⟩, fun _ => by simp⟩

theorem waiting_start {last : Option WaitRet} (hi : BaseInv g s) (hpc : s.pc n = .idle last)
    (hlive : s.terminated n = false) (hex : Exhausted g s n) (hun : Unread g s n)
    (h : step g s (.wait n) = some s') : Waiting g s' n ∧ s'.pc n = .wait .start := by
  have hs' : s' = s.setPc n (.wait .start) := by
    simp only [step, actStep, hpc, Option.map_some, Option.some.injEq] at h
    exact h.symm
  subst hs'
  have hself : (s.setPc n (.wait .start)).pc n = .wait .start := Function.update_self _ _ _
  refine ⟨⟨hlive, fun e he hf => ?_, fun e he hf => ?_, .start, hself, ?_⟩, hself⟩
  · exact (hex.ended e he hf).step hi.chan.term (a := .wait n) trivial (.callWait n last hpc)
  · change readyEdge g s e = false
    by_contra hr
    rw [Bool.not_eq_false, readyEdge_iff, hi.unskipped hf] at hr
    rcases hr with ⟨hs, hle | hlt⟩
    · exact absurd hle (Nat.not_le.mpr (hex.tokens e he hf hs))
    · exact absurd hlt (Nat.lt_irrefl 0)
  · refine ⟨?_, fun e he hf hd => ?_, fun e he hb hd hsk => ?_⟩
    · exact hi.msgs n hun.forward
    · have hmem := List.mem_of_mem_drop he
      exact ⟨hun.forward e hmem, hex.data e hmem hf hd⟩
    · exact hun.back e (List.mem_of_mem_drop he) hb hd hsk

def RecvPc.selecting : RecvPc → Bool
  | .select _ => true
  | _ => false

/-- The wait is in `select()`, for descriptors to which nobody writes any more. -/
def Stalled (g : Graph) (s : State) (n : Nat) : Prop :=
  ∃ r ∈ (s.pc n).reading, r.pc.selecting = true ∧ r.toWait ≠ 0 ∧
    ∀ i < 32, r.toWait.getLsbD i = true → ∃ e ∈ (g.inEdges n)[i]?,
      Ended s (g.edge e).producer ∧ ¬ (s.data.chan e).Readable

instance (g : Graph) (s : State) (n : Nat) : Decidable (Stalled g s n) :=
  inferInstanceAs (Decidable (∃ r ∈ (s.pc n).reading, _ ∧ _ ∧ ∀ i < 32, _))

theorem reading_eq {r : Recv} (h : r ∈ (s.pc n).reading) : ∃ tok, s.pc n = .wait (.recv tok r) := by
  unfold Pc.reading at h
  split at h
  · cases h
    exact ⟨_, ‹_›⟩
  · cases h

/-- A `select()` for descriptors that cannot be read does not return. -/
theorem select_blocked {r : Recv} {ans : Answer} {skips : Nat → Nat} {d : Data}
    (hsel : r.pc.selecting = true) (hw : r.toWait ≠ 0)
    (hbits : ∀ i < 32, r.toWait.getLsbD i = true →
      ∃ e ∈ (g.inEdges n)[i]?, ¬ (d.chan e).Readable)
    (hhonest : r.Honest g n d ans) : recvStep g n skips d r ans = none := by
  unfold Recv.Honest at hhonest
  cases hpc : r.pc with
  | select err =>
    rw [hpc] at hhonest
    obtain ⟨s, hs, hread⟩ := hhonest hw
    cases ans with
    | ready s' =>
      obtain rfl : s' = s := Option.some.inj hs
      have hnot : ¬ (s' ≠ 0 ∧ s' &&& r.toWait = s') := by
        rintro ⟨hne, hsub⟩
        obtain ⟨i, hi, hset, hbit⟩ := exists_common_bit hne hsub
        obtain ⟨e, he, hno⟩ := hbits i hi hbit
        exact hno (hread (e, i) (List.mem_zipIdx_iff_getElem?.mpr he) hset)
      unfold recvStep
      rw [hpc]
      simp only [Option.map_eq_none_iff]
      unfold selectStep
      rw [if_neg hw]
      exact if_neg hnot
    | _ => cases hs
  | _ => rw [hpc] at hsel; cases hsel

theorem Stalled.blocked {ans : Answer} (h : Stalled g s n) (hp : InWait g n s (.run n ans)) :
    step g s (.run n ans) = none := by
  obtain ⟨r, hr, hsel, hw, hbits⟩ := h
  obtain ⟨tok, hpc⟩ := reading_eq hr
  have hnone : recvStep g n s.nrSkips s.data r ans = none :=
    select_blocked hsel hw (fun i hi hbit => by
      obtain ⟨e, he, -, hno⟩ := hbits i hi hbit
      exact ⟨e, he, hno⟩) ((hp.2.2 rfl).1 r hr)
  simp only [step, actStep, threadStep, hpc, waitStep, hnone, Option.map_none]

theorem Stalled.step (hi : BaseInv g s) (hp : InWait g n s a) (h : Stalled g s n)
    (hs : step g s a = some s') : Stalled g s' n := by
  by_cases hn : n = a.thread
  · -- the owner makes no other call, and in its wait it cannot move
    obtain ⟨r, hr, -⟩ := id h
    obtain ⟨tok, hpc⟩ := reading_eq hr
    cases a with
    | run t ans =>
      obtain rfl : n = t := hn
      rw [h.blocked hp] at hs
      cases hs
    | wait t | complete t m | terminate t m => exact absurd hn.symm hp.2.2
    | spurious t =>
      obtain rfl : n = t := hn
      simp [Pgm.step, actStep, hpc] at hs
  · obtain ⟨eff, p, hm, rfl⟩ := step_move hs
    obtain ⟨r, hr, hsel, hw, hbits⟩ := h
    obtain ⟨tok, hpc⟩ := reading_eq hr
    have hpc' : ((s.apply g a.thread eff).setPc a.thread p).pc n = s.pc n := by
      rcases pc_of_ne (g := g) (s := s) eff p hn with heq | ⟨-, hasleep, -⟩
      · exact heq
      · cases hpc.symm.trans hasleep
    refine ⟨r, by rw [hpc']; exact hr, hsel, hw, fun i hi' hbit => ?_⟩
    obtain ⟨e, he, hend, hno⟩ := hbits i hi' hbit
    refine ⟨e, he, hend.step hi.chan.term hp.1 hm, ?_⟩
    have hsame := (foreign_chan hi.chan hp.2.1 hm hn (List.mem_of_getElem? he)).2
      (fun m cmd w err q => hend.not_prod hi.chan.term)
    change ¬ ((s.apply g a.thread eff).data.chan e).Readable
    rw [hsame]
    exact hno

/-- **A stalled wait never returns.** -/
theorem stalled_run {as : List Act} (hi : BaseInv g s) (h : Stalled g s n)
    (hrun : Lts.run (step g) s as = some s') (hmeets : Lts.Meets (step g) (InWait g n) s as) :
    Stalled g s' n :=
  (Lts.run_inv (I := fun s => BaseInv g s ∧ Stalled g s n)
    (fun _ _ _ hi hp hs => ⟨step_baseInv hp.1 hp.2.1 hi.1 hs, hi.2.step hi.1 hp hs⟩)
    ⟨hi, h⟩ hrun hmeets).2

end

/-- Node 0 sends a token and node 1 terminates. Node 2 waits: it is given the token, and reads
the terminate message. Then node 0 terminates. -/
def readEarly : List Act :=
  List.flatten [[.complete 0 0], runs 0 10, [.terminate 1 1], runs 1 1, [.run 1 (.bytes 1)],
    runs 1 2, [.wait 2], runs 2 5, [.run 2 (.ready 2)], runs 2 3, [.run 2 (.bytes 1)], runs 2 8,
    [.terminate 0 0], runs 0 7]

/-- Nodes 0 and 1 feed node 2 as before, and node 3 gives back what node 2 sends it, by a FIFO
that is skipped once. -/
def loopEdges : List Edge :=
  mixedEdges ++ [forwardEdge 2 3 (cvAttr 1 1 1 0) line_accepted,
    backEdge 3 2 1 (fifoAttr 1 1) fifo_accepted]

theorem loopEdges_small : (∀ e ∈ loopEdges, e.producer < 4 ∧ e.consumer < 4) ∧
    loopEdges.length < 32 := by decide

def loopGraph : Graph := .small 4 loopEdges loopEdges_small.1 loopEdges_small.2

/-- All nodes run once, and nodes 0 and 1 terminate. -/
def loopOnce : List Act :=
  List.flatten [[.complete 0 0], runs 0 11, [.complete 1 1, .run 1 (.user [7]), .run 1 (.bytes 2)],
    runs 1 2, [.wait 2], runs 2 6, [.run 2 (.ready 2)], runs 2 3, [.run 2 (.bytes 2)], runs 2 11,
    [.complete 2 2], runs 2 9, [.wait 3], runs 3 9,
    [.complete 3 3, .run 3 (.user [8]), .run 3 (.bytes 2)], runs 3 2, [.terminate 0 0], runs 0 7,
    [.terminate 1 1, .run 1 .go, .run 1 (.bytes 1)], runs 1 2]

def loopWait : List Act :=
  List.flatten [runs 2 8, [.run 2 (.ready 6)], runs 2 3, [.run 2 (.bytes 1)], runs 2 1,
    [.run 2 (.bytes 2)], runs 2 13]

end Pgm
