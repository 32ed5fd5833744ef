import Pgm.Ready

/-! Graphs of cv and ring edges whose nodes are run by their owners: where the threads can be in
`pgm_produce` and `pgm_recv_data`, and what a step does to a ring. -/

namespace Pgm

open Function (update)

def CvRingGraph (g : Graph) : Prop := ∀ e ∈ g.edges, e.attr.type = .cv ∨ e.attr.type = .ring

instance (g : Graph) : Decidable (CvRingGraph g) :=
  inferInstanceAs (Decidable (∀ e ∈ g.edges, _))

def ringAttrOf (produce threshold nmemb : Nat) : EdgeAttr :=
  ⟨produce, produce, threshold, .ring, 0, nmemb⟩

theorem ringAttrOf_accepted {produce threshold nmemb : Nat} (hp : 0 < produce)
    (ht : produce ≤ threshold) (hn : nmemb ≠ 0) (ht' : threshold < 2 ^ 64) :
    (ringAttrOf produce threshold nmemb).Accepted :=
  ⟨fun _ => rfl, fun _ => ⟨rfl, hn⟩, ht, hp, hp, ht.trans_lt ht', ht', Nat.two_pow_pos 64⟩

theorem ring_accepted : (ringAttrOf 1 1 1).Accepted :=
  ringAttrOf_accepted (by decide) (by decide) (by decide) (by decide)

def OwnerActs : Act → Prop
  | .complete t n | .terminate t n => t = n
  | .wait _ | .run _ _ | .spurious _ => True

instance : (a : Act) → Decidable (OwnerActs a)
  | .complete t n | .terminate t n => inferInstanceAs (Decidable (t = n))
  | .wait _ | .run _ _ | .spurious _ => inferInstanceAs (Decidable True)

/-- Where a producer of cv and ring edges may be. -/
def ProdPc.RingOnly (cmd : Command) : ProdPc → Prop
  | .write _ _ _ _ => False
  | .ringWrite _ _ _ _ => cmd = .normal
  | _ => True

def Recv.RingOnly (g : Graph) (n : Nat) (skips : Nat → Nat) (r : Recv) : Prop :=
  match r.pc with
  | .select err => err = false ∧ r.toWait = 0
  | .edge _ => True
  | .ringEmpty i e | .ringRead i e => Active g n skips i e
  | .read _ _ => False

structure RingPlace (g : Graph) (s : State) : Prop where
  place : PlaceInv g s
  owner : ∀ t n cmd w err q, s.pc t = .prod n cmd w err q → t = n
  sends : ∀ t n cmd w err q, s.pc t = .prod n cmd w err q → q.RingOnly cmd
  recv : ∀ n tok r, s.pc n = .wait (.recv tok r) → r.RingOnly g n s.nrSkips

section

variable {g : Graph} {s s' : State} {a : Act} {eff : Effect} {p : Pc} {n e t : Nat}

theorem CvRingGraph.edge (hg : CvRingGraph g) (he : e ∈ g.inEdges n) :
    (g.edge e).attr.type = .cv ∨ (g.edge e).attr.type = .ring := by
  obtain ⟨hlt, -⟩ := Graph.mem_inEdges.mp he
  have hget : g.edge e = g.edges[e] := by simp [Graph.edge, hlt]
  rw [hget]
  exact hg _ (List.getElem_mem hlt)

theorem CvRingGraph.signaled (hg : CvRingGraph g) (he : e ∈ g.inEdges n) :
    (g.edge e).isSignalDriven = true := by
  rcases hg.edge he with h | h <;> rw [Edge.isSignalDriven, h] <;> rfl

theorem CvRingGraph.isRing (hg : CvRingGraph g) (he : e ∈ g.inEdges n)
    (hd : (g.edge e).isDataPassing = true) : (g.edge e).attr.type.isRing = true := by
  rcases hg.edge he with h | h
  · rw [Edge.isDataPassing, h] at hd
    cases hd
  · rw [h]
    rfl

theorem lt_of_ring (hr : (g.edge e).attr.type = .ring) : e < g.edges.length := by
  by_contra hge
  have hdef : g.edge e = default := by simp [Graph.edge, hge]
  rw [hdef] at hr
  cases hr

theorem ringData (hr : (g.edge e).attr.type = .ring) : (g.edge e).isDataPassing = true := by
  rw [Edge.isDataPassing, hr]
  rfl

theorem mem_in_of_ring (hr : (g.edge e).attr.type = .ring) :
    e ∈ g.inEdges (g.edge e).consumer := Graph.mem_inEdges.mpr ⟨lt_of_ring hr, rfl⟩

/-- No in-edge is waited for with `select()`. -/
theorem recvStart_ringOnly {skips : Nat → Nat} {d : Data} {r : Recv} (hg : CvRingGraph g)
    (h : recvStart g n skips d = .more r) : r.pc = .select false ∧ r.toWait = 0 := by
  unfold recvStart at h
  simp only at h
  split at h
  · cases h
  · cases h
    have hdeg : (g.inEdges n).length < 32 := g.inDegree n
    refine ⟨rfl, BitVec.eq_of_getLsbD_eq (fun j hj32 => ?_)⟩
    simp only [BitVec.getLsbD_and, BitVec.getLsbD_not, BitVec.getLsbD_or,
      Graph.getLsbD_allOnes_shift hdeg.le, Graph.signalEdgeMask, Graph.getLsbD_maskOf]
    by_cases hj : j < (g.inEdges n).length
    · simp [hj, hj32, hg.signaled (List.getElem_mem hj)]
    · simp [hj]

theorem Recv.RingOnly.step {skips : Nat → Nat} {d d' : Data} {r r' : Recv} {ans : Answer}
    (hg : CvRingGraph g) (hr : r.RingOnly g n skips)
    (hm : RecvMove g n skips d r ans d' (.more r')) : r'.RingOnly g n skips := by
  unfold Recv.RingOnly at hr ⊢
  generalize hnx : RecvNext.more r' = nx at hm
  cases hm with
  | selecting err err' m hpc hw =>
    rw [hpc] at hr
    exact absurd hr.2 hw
  | selected | pass | ringStop | ringRead =>
    cases hnx
    trivial
  | selectFailed | out => cases hnx
  | enter i e hpc ha hring =>
    rw [hg.isRing ha.mem ha.2.1] at hring
    cases hring
  | ringCmd i e hpc ha hring =>
    cases hnx
    cases isTerminate (d.ringCmd e) <;> exact ha
  | ringMore i e hpc =>
    cases hnx
    rw [hpc] at hr
    exact hr
  | read i e d' nx hpc =>
    rw [hpc] at hr
    exact hr.elim

theorem nrInSignaled_ne (hg : CvRingGraph g) (he : e ∈ g.inEdges n) : g.nrInSignaled n ≠ 0 := by
  unfold Graph.nrInSignaled Graph.nrInWith
  rw [Ne, List.countP_eq_zero]
  exact fun hc => hc e he (hg.signaled he)

theorem nrInData_ne (he : e ∈ g.inEdges n) (hr : (g.edge e).attr.type = .ring) :
    g.nrInData n ≠ 0 := by
  unfold Graph.nrInData Graph.nrInWith
  rw [Ne, List.countP_eq_zero]
  intro hc
  have := hc e he
  simp [Edge.isDataPassing, hr, EdgeType.isDataPassing] at this

/-! ## Where the threads are -/

/-- No message is written on a descriptor. -/
theorem ProdMove.ringOnly {m : Nat} {cmd : Command} {w err : Bool} {ans : Answer} {q : ProdPc}
    (hg : CvRingGraph g) (hq : q.RingOnly cmd) (hm : ProdMove g s m cmd w err ans q eff p)
    {m' : Nat} {cmd' : Command} {w' err' : Bool} {q' : ProdPc} (hp : p = .prod m' cmd' w' err' q') :
    m' = m ∧ q'.RingOnly cmd' := by
  cases hm with
  | ring i e tw x hi hc => cases hp; exact ⟨rfl, hc⟩
  | message i e tw x hi hc hd hr | lastMessage i e tw hi hc hb hd hr =>
    rw [hg.isRing (Graph.mem_in_of_mem_out (List.mem_of_getElem? hi)) hd] at hr
    cases hr
  | write | written => exact hq.elim
  | done => cases hp
  | _ => cases hp; exact ⟨rfl, trivial⟩

theorem Move.ringOnly_prod (hg : CvRingGraph g) (ha : OwnerActs a) (hi : RingPlace g s)
    (hm : Move g s a eff p) {m : Nat} {cmd : Command} {w err : Bool} {q : ProdPc}
    (hp : p = .prod m cmd w err q) : a.thread = m ∧ q.RingOnly cmd := by
  cases hm with
  | callComplete t n | callTerminate t n => cases hp; exact ⟨ha, trivial⟩
  | callWait | spurious => cases hp
  | wait t ans v eff p hpc hm =>
    cases hm with
    | terminate => cases hp; exact ⟨rfl, trivial⟩
    | _ => cases hp
  | prod t n ans cmd w err q eff p hpc hm =>
    obtain ⟨rfl, hq⟩ := hm.ringOnly hg (hi.sends t n cmd w err q hpc) hp
    exact ⟨hi.owner t _ cmd w err q hpc, hq⟩

theorem Move.ringOnly_recv (hg : CvRingGraph g) (hi : RingPlace g s) (hm : Move g s a eff p)
    {tok : WaitStatus} {r : Recv} (hp : p = .wait (.recv tok r)) :
    r.RingOnly g a.thread (s.apply g a.thread eff).nrSkips := by
  cases hm with
  | callWait | callComplete | callTerminate | spurious => cases hp
  | prod t n ans cmd w err q eff p hpc hm => exact absurd hp (hm.not_wait _)
  | wait t ans v eff p hpc hm =>
    cases hm with
    | recvStart tok r h hr =>
      cases hp
      obtain ⟨hsel, hw⟩ := recvStart_ringOnly hg hr
      unfold Recv.RingOnly
      rw [hsel]
      exact ⟨rfl, hw⟩
    | recv tok r₀ r₁ d h =>
      cases hp
      exact (hi.recv t _ r₀ hpc).step hg (recvStep_move h)
    | allReady l | someReady l | noTerm l | allTerm l | notAllTerm l => cases l <;> cases hp
    | _ => cases hp

theorem Recv.RingOnly.congr {skips skips' : Nat → Nat} {r : Recv}
    (h : ∀ e ∈ g.inEdges n, skips' e = skips e) (hr : r.RingOnly g n skips) :
    r.RingOnly g n skips' := by
  unfold Recv.RingOnly at hr ⊢
  split at hr <;> first | exact hr | exact ⟨hr.1, hr.2.1, (h _ hr.mem).trans hr.2.2⟩

theorem step_ringPlace (hg : CvRingGraph g) (ha : OwnerActs a) (hi : RingPlace g s)
    (h : step g s a = some s') : RingPlace g s' := by
  have hplace := step_placeInv hi.place h
  obtain ⟨eff, p, hm, rfl⟩ := step_move h
  have hprod : ∀ t n cmd w err q,
      ((s.apply g a.thread eff).setPc a.thread p).pc t = .prod n cmd w err q →
      t = n ∧ q.RingOnly cmd := by
    intro t n cmd w err q hq
    by_cases ht : t = a.thread
    · subst ht
      rw [setPc_pc_self] at hq
      exact hm.ringOnly_prod hg ha hi hq
    · rcases pc_of_ne (g := g) (s := s) eff p ht with heq | ⟨-, -, heq⟩
      · rw [heq] at hq
        exact ⟨hi.owner t n cmd w err q hq, hi.sends t n cmd w err q hq⟩
      · rw [heq] at hq
        cases hq
  refine ⟨hplace, fun t n cmd w err q hq => (hprod t n cmd w err q hq).1,
    fun t n cmd w err q hq => (hprod t n cmd w err q hq).2, fun n tok r hr => ?_⟩
  by_cases hn : n = a.thread
  · subst hn
    rw [setPc_pc_self] at hr
    exact hm.ringOnly_recv hg hi hr
  · rcases pc_of_ne (g := g) (s := s) eff p hn with heq | ⟨-, -, heq⟩
    · exact (hi.recv n tok r (heq ▸ hr)).congr (fun e he => foreign_nrSkips hm hn he)
    · rw [heq] at hr
      cases hr

theorem initState_ringPlace (junk : Junk) (g : Graph) : RingPlace g (initState junk g) :=
  ⟨initState_placeInv junk g, by rintro _ _ _ _ _ _ ⟨⟩, by rintro _ _ _ _ _ _ ⟨⟩, by rintro _ _ _ ⟨⟩⟩

/-! ## What a step does to a ring -/

/-- A step of `pgm_recv_data` stays at its edge, passes it by, takes a member, or is the last. -/
inductive RingMove (g : Graph) (n : Nat) (skips : Nat → Nat) (d : Data) (r : Recv) :
    Data → RecvNext → Prop
  | stay (d' : Data) (r' : Recv) (hq : d'.queue = d.queue) (hpos : r'.pc.pos = r.pc.pos) :
      RingMove g n skips d r d' (.more r')
  | pass (d' : Data) (r' : Recv) (e : Nat) (hq : d'.queue = d.queue)
      (hi : (g.inEdges n)[r.pc.pos]? = some e) (hpos : r'.pc.pos = r.pc.pos + 1)
      (h : ¬ Active g n skips r.pc.pos e ∨ d.queue e = []) : RingMove g n skips d r d' (.more r')
  | take (d' : Data) (r' : Recv) (e : Nat) (x : List UInt8) (q : List (List UInt8))
      (ha : Active g n skips r.pc.pos e) (hx : d.queue e = x :: q)
      (hq : d'.queue = update d.queue e q) (hpos : r'.pc.pos = r.pc.pos + 1) :
      RingMove g n skips d r d' (.more r')
  | out (d' : Data) (st : WaitStatus) (hq : d'.queue = d.queue)
      (hi : (g.inEdges n)[r.pc.pos]? = none) : RingMove g n skips d r d' (.done st)

theorem RecvMove.ring {skips : Nat → Nat} {d d' : Data} {r : Recv} {ans : Answer} {nx : RecvNext}
    (hg : CvRingGraph g) (hr : r.RingOnly g n skips) (hm : RecvMove g n skips d r ans d' nx) :
    RingMove g n skips d r d' nx := by
  unfold Recv.RingOnly at hr
  cases hm with
  | selecting err err' m hpc hw =>
    rw [hpc] at hr
    exact absurd hr.2 hw
  | selectFailed hpc =>
    rw [hpc] at hr
    exact absurd hr.1 (by simp)
  | selected hpc => exact .stay _ _ rfl (by rw [hpc]; rfl)
  | out i hpc hi => exact .out _ _ rfl (by rw [hpc]; exact hi)
  | pass i e hpc hi hn =>
    exact .pass _ _ e rfl (by rw [hpc]; exact hi) (by rw [hpc]; rfl) (by rw [hpc]; exact .inl hn)
  | enter i e hpc ha hring =>
    rw [hg.isRing ha.mem ha.2.1] at hring
    cases hring
  | ringCmd i e hpc ha hring =>
    refine .stay _ _ rfl ?_
    rw [hpc]
    cases isTerminate (d.ringCmd e) <;> rfl
  | ringStop i e hpc hq =>
    rw [hpc] at hr
    exact .pass _ _ e rfl (by rw [hpc]; exact hr.1) (by rw [hpc]; rfl) (.inr hq)
  | ringMore i e hpc hq => exact .stay _ _ rfl (by rw [hpc]; rfl)
  | ringRead i e x q hpc hq =>
    rw [hpc] at hr
    exact .take _ _ e x q (by rw [hpc]; exact hr) hq rfl (by rw [hpc]; rfl)
  | read i e d' nx hpc h =>
    rw [hpc] at hr
    exact hr.elim

/-- A wait touches the rings of its own in-edges only. -/
theorem WaitMove.queue_of_ne {ans : Answer} {w : WaitPc} (hg : CvRingGraph g)
    (hi : RingPlace g s) (hpc : s.pc t = .wait w) (hm : WaitMove g s t ans w eff p)
    (he : e ∉ g.inEdges t) : (s.apply g t eff).data.queue e = s.data.queue e := by
  cases hm with
  | recv tok r r' d h =>
    cases (recvStep_move h).ring hg (hi.recv t tok r hpc) with
    | stay _ hq | pass _ e' hq => exact congrFun hq e
    | take _ e' x q ha hx hq =>
      have hne : e ≠ e' := by
        rintro rfl
        exact he ha.mem
      exact (congrFun hq e).trans (Function.update_of_ne hne _ _)
  | recvDone tok st r d h =>
    cases (recvStep_move h).ring hg (hi.recv t tok r hpc) with
    | out _ hq => exact congrFun hq e
  | _ => rfl

/-- A ring grows only by its producer's write, which finds it with room. -/
theorem Move.queue (hg : CvRingGraph g) (hi : RingPlace g s) (hm : Move g s a eff p) (e : Nat) :
    ((s.apply g a.thread eff).data.queue e).length ≤ (s.data.queue e).length ∨
    ((g.edge e).producer = a.thread ∧ ((s.apply g a.thread eff).data.queue e).length ≤
      RingBuf.ringCount (g.edge e).attr.nmemb) := by
  cases hm with
  | wait t ans w eff p hpc hm =>
    left
    cases hm with
    | recv tok r r' d hstep =>
      cases (recvStep_move hstep).ring hg (hi.recv t tok r hpc) with
      | stay _ hq | pass _ e' hq => exact (congrArg List.length (congrFun hq e)).le
      | take _ e' x q ha hx hq =>
        refine (congrArg List.length (congrFun hq e)).trans_le ?_
        by_cases he : e = e'
        · subst he
          rw [Function.update_self, hx]
          exact Nat.le_succ _
        · rw [Function.update_of_ne he]
    | recvDone tok st r d hstep =>
      cases (recvStep_move hstep).ring hg (hi.recv t tok r hpc) with
      | out _ hq => exact (congrArg List.length (congrFun hq e)).le
    | _ => exact Nat.le_refl _
  | prod t n ans cmd w err q eff p hpc hm =>
    cases hm with
    | write | written => exact (hi.sends t n cmd w err _ hpc).elim
    | ringWrite i e' x tw hlt =>
      by_cases he : e = e'
      · subst he
        have hout : (g.outEdges n)[i]? = some e := hi.place t n cmd w err _ hpc
        refine Or.inr ⟨?_, ?_⟩
        · rw [(Graph.mem_outEdges.mp (List.mem_of_getElem? hout)).2]
          exact (hi.owner t n cmd w err _ hpc).symm
        · simpa [State.apply, Nat.succ_le_iff] using hlt
      · exact Or.inl (by simp [State.apply, he])
    | _ => exact Or.inl (Nat.le_refl _)
  | _ => exact Or.inl (Nat.le_refl _)

/-- A ring never holds more than its members. -/
theorem Move.room (hg : CvRingGraph g) (hi : RingPlace g s) (hm : Move g s a eff p)
    (hle : (s.data.queue e).length ≤ RingBuf.ringCount (g.edge e).attr.nmemb) :
    ((s.apply g a.thread eff).data.queue e).length ≤
      RingBuf.ringCount (g.edge e).attr.nmemb := by
  rcases hm.queue hg hi e with h | h
  · exact h.trans hle
  · exact h.2

end

end Pgm
