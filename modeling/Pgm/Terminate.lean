import Pgm.Ready

/-! The terminate signals of a graph. When every node is run by its owner, completes
only before it terminates and terminates at most once, `nr_terminate_signals` of a node
counts the forward signaled in-edges whose producer has sent its signal, each of them
once, and no token is sent on such an edge any more. -/

namespace Pgm

open Function (update)

def Pc.ending : Pc → Bool
  | .wait (.skips .terminate _) => true
  | _ => false

/-- A node is run by its owner, completes only before it terminates, and terminates at
most once. -/
def AtMostOnce (s : State) : Act → Prop
  | .complete t n | .terminate t n => t = n ∧ s.terminated n = false
  | .run t _ => (s.pc t).ending = true → s.terminated t = false
  | .wait _ | .spurious _ => True

instance (s : State) : (a : Act) → Decidable (AtMostOnce s a)
  | .complete t n | .terminate t n => inferInstanceAs (Decidable (t = n ∧ s.terminated n = false))
  | .run t _ => inferInstanceAs (Decidable ((s.pc t).ending = true → s.terminated t = false))
  | .wait _ | .spurious _ => inferInstanceAs (Decidable True)

/-- The out-edges that the pass of `pgm_produce` has not done with. -/
def ProdPc.unsent (g : Graph) (n : Nat) : ProdPc → List Nat
  | .send i _ | .write i _ _ _ | .ringWrite i _ _ _ | .tokens i _ _ => (g.outEdges n).drop i
  | .wake _ | .recheck _ _ _ _ | .signal _ _ | .unlock _ _ => []

/-- What a pass of `pgm_terminate` has still to do, as `f` tells it from its place. -/
def Pc.todo (f : Nat → ProdPc → List Nat) : Pc → List Nat
  | .prod n .terminate _ _ q => f n q
  | _ => []

/-- The out-edges whose terminate signal has not been added. -/
def Pc.unsent (g : Graph) (p : Pc) : List Nat := p.todo (fun n q => q.unsent g n)

/-- The producer of the forward edge `e` has added its terminate signal. -/
structure SignalSent (g : Graph) (s : State) (e : Nat) : Prop where
  signaled : (g.edge e).isSignalDriven = true
  forward : (g.edge e).isBackedge = false
  terminated : s.terminated (g.edge e).producer = true
  sent : e ∉ (s.pc (g.edge e).producer).unsent g

theorem signalSent_iff {g : Graph} {s : State} {e : Nat} :
    SignalSent g s e ↔ (g.edge e).isSignalDriven = true ∧ (g.edge e).isBackedge = false ∧
      s.terminated (g.edge e).producer = true ∧ e ∉ (s.pc (g.edge e).producer).unsent g :=
  ⟨fun ⟨h1, h2, h3, h4⟩ => ⟨h1, h2, h3, h4⟩, fun ⟨h1, h2, h3, h4⟩ => ⟨h1, h2, h3, h4⟩⟩

instance (g : Graph) (s : State) (e : Nat) : Decidable (SignalSent g s e) :=
  decidable_of_iff _ signalSent_iff.symm

/-- What is known of the edge in hand. -/
def ProdPc.Sends (g : Graph) (cmd : Command) : ProdPc → Prop
  | .write _ e _ _ => (cmd = .terminate → (g.edge e).isBackedge = false) ∧
      (g.edge e).isDataPassing = true ∧ (g.edge e).attr.type.isRing = false
  | .ringWrite _ e _ _ => (cmd = .terminate → (g.edge e).isBackedge = false) ∧
      (g.edge e).attr.type.isRing = true
  | .tokens _ e _ => (cmd = .terminate → (g.edge e).isBackedge = false) ∧
      (g.edge e).isSignalDriven = true
  | _ => True

def Pc.terminating : Pc → Bool
  | .prod _ .terminate _ _ _ => true
  | _ => false

/-- `pgm_terminate` has been executed for node `n`. -/
structure Ended (s : State) (n : Nat) : Prop where
  terminated : s.terminated n = true
  done : (s.pc n).terminating = false

theorem ended_iff {s : State} {n : Nat} :
    Ended s n ↔ s.terminated n = true ∧ (s.pc n).terminating = false :=
  ⟨fun ⟨h1, h2⟩ => ⟨h1, h2⟩, fun ⟨h1, h2⟩ => ⟨h1, h2⟩⟩

instance (s : State) (n : Nat) : Decidable (Ended s n) := decidable_of_iff _ ended_iff.symm

structure TermInv (g : Graph) (s : State) : Prop where
  place : PlaceInv g s
  owner : ∀ t n cmd w err q, s.pc t = .prod n cmd w err q → t = n
  command : ∀ n cmd w err q, s.pc n = .prod n cmd w err q →
    (s.terminated n = true ↔ cmd = .terminate)
  sends : ∀ n cmd w err q, s.pc n = .prod n cmd w err q → q.Sends g cmd
  signals : ∀ n, s.nrTerminateSignals n = (g.inEdges n).countP (fun e => decide (SignalSent g s e))
  taking : ∀ n ret i, s.pc n = .wait (.consume ret i) → ret ≠ .terminate

section

variable {g : Graph} {s s' : State} {a : Act} {eff : Effect} {p : Pc} {n e : Nat}

theorem signalDriven_of_isRing {t : EdgeType} (h : t.isRing = true) : t.isSignalDriven = true := by
  cases t <;> first | rfl | cases h

theorem afterData_sends {cmd : Command} {i : Nat} (tw : List Nat)
    (h : cmd = .terminate → (g.edge e).isBackedge = false) : (afterData g i e tw).Sends g cmd := by
  unfold afterData
  split
  · exact ⟨h, ‹_›⟩
  · trivial

theorem ProdMove.sends {m : Nat} {cmd : Command} {w err : Bool} {ans : Answer} {q : ProdPc}
    (hm : ProdMove g s m cmd w err ans q eff p) (hq : q.Sends g cmd) {m' : Nat} {cmd' : Command}
    {w' err' : Bool} {q' : ProdPc} (hp : p = .prod m' cmd' w' err' q') : q'.Sends g cmd' := by
  cases hm with
  | cvEdge i e tw hi hb hd =>
    cases hp
    refine ⟨hb, ((g.edge e).attr.type.signal_or_data).resolve_right (fun h => ?_)⟩
    rw [Edge.isDataPassing] at hd
    rw [hd] at h
    cases h
  | ring i e tw x hi hc hd =>
    cases hp
    exact ⟨fun h => absurd (hc.symm.trans h) (by decide), hd⟩
  | ringCmd i e tw hi hc hb hd =>
    cases hp
    exact ⟨fun _ => hb, signalDriven_of_isRing hd⟩
  | message i e tw x hi hc hd hr =>
    cases hp
    exact ⟨fun h => absurd (hc.symm.trans h) (by decide), hd, hr⟩
  | lastMessage i e tw hi hc hb hd hr =>
    cases hp
    exact ⟨fun _ => hb, hd, hr⟩
  | write => cases hp; exact hq
  | written => cases hp; exact afterData_sends _ hq.1
  | ringWrite => cases hp; exact ⟨hq.1, signalDriven_of_isRing hq.2⟩
  | recheckAll | recheckShort | sent | backedge | tokens | termSignal | lock | lockTerm | recheck
  | signal | unlock => cases hp; trivial
  | done => cases hp

/-! ## One signal for each edge -/

/-- The out-edges of the node that `pgm_terminate` runs for. -/
theorem ProdMove.unsent {m : Nat} {w err : Bool} {ans : Answer} {q : ProdPc}
    (hm : ProdMove g s m .terminate w err ans q eff p) (hat : q.At g m) (hq : q.Sends g .terminate)
    (hs : (g.edge e).isSignalDriven = true) (hf : (g.edge e).isBackedge = false) :
    (e ∈ p.unsent g ↔ e ∈ q.unsent g m ∧ eff ≠ .addTerminate e) ∧
      (eff = .addTerminate e → e ∈ q.unsent g m) := by
  cases hm with
  | sent i tw hi => simp [Pc.unsent, Pc.todo, ProdPc.unsent, Scan.drop_of_end hi]
  | backedge i e' tw hi hc hb =>
    have hne : e ≠ e' := by
      rintro rfl
      rw [hf] at hb
      cases hb
    simp [Pc.unsent, Pc.todo, ProdPc.unsent, Scan.mem_drop_iff hi, hne]
  | written i e' buf tw d ok h =>
    unfold afterData
    by_cases hs' : (g.edge e').isSignalDriven = true
    · simp [Pc.unsent, Pc.todo, ProdPc.unsent, if_pos hs']
    · have hne : e ≠ e' := by
        rintro rfl
        exact hs' hs
      simp [Pc.unsent, Pc.todo, ProdPc.unsent, if_neg hs', Scan.mem_drop_iff hat, hne]
  | termSignal i e' tw hc =>
    by_cases hee : e = e'
    · subst hee
      simp [Pc.unsent, Pc.todo, ProdPc.unsent, Scan.mem_drop_iff hat,
        Scan.not_mem_drop_succ (g.outEdges_nodup m) hat]
    · have hee' : e' ≠ e := fun h => hee h.symm
      simp [Pc.unsent, Pc.todo, ProdPc.unsent, Scan.mem_drop_iff hat, hee, hee']
  | ring i e' tw x hi hc | message i e' tw x hi hc | tokens i e' tw hc | lock c cs h hc => cases hc
  | _ => simp [Pc.unsent, Pc.todo, ProdPc.unsent]

theorem Move.addTerminate (hi : TermInv g s) (hm : Move g s a (.addTerminate e) p) :
    e ∈ g.outEdges a.thread ∧
      ∃ w err q, s.pc a.thread = .prod a.thread .terminate w err q := by
  cases hm with
  | prod t m ans cmd w err q eff p hpc hm =>
    obtain rfl : t = m := hi.owner t m cmd w err q hpc
    cases hm with
    | termSignal i e tw hc =>
      exact ⟨List.mem_of_getElem? (hi.place _ _ _ _ _ _ hpc), w, err, _, hc ▸ hpc⟩
  | wait t ans w eff p hpc hm => cases hm

theorem Move.terminates (ha : AtMostOnce s a) (hm : Move g s a (.terminate n) p) :
    n = a.thread ∧ s.terminated n = false ∧ ∃ w, p = .prod n .terminate w false (.send 0 []) := by
  cases hm with
  | callTerminate t n last hpc => exact ⟨ha.1.symm, ha.2, false, rfl⟩
  | wait t ans w eff p hpc hm =>
    cases hm with
    | terminate i hend => exact ⟨rfl, ha (by rw [hpc]; rfl), true, rfl⟩
  | prod t m ans cmd w err q eff p hpc hm => cases hm

theorem apply_terminated (ha : AtMostOnce s a) (hm : Move g s a eff p) (hn : n ≠ a.thread) :
    (s.apply g a.thread eff).terminated n = s.terminated n := by
  cases eff with
  | terminate m =>
    have hne : n ≠ m := fun h => hn (h.trans (hm.terminates ha).1)
    simp [State.apply, hne]
  | _ => rfl

/-- Outside of a pass there is nothing left to do. -/
theorem Move.todo_nil (f : Nat → ProdPc → List Nat) (hm : Move g s a eff p)
    (hpc : ∀ m w err q, s.pc a.thread ≠ .prod m .terminate w err q) (heff : ∀ n, eff ≠ .terminate n) :
    (s.pc a.thread).todo f = [] ∧ p.todo f = [] := by
  cases hm with
  | callTerminate t n => exact absurd rfl (heff n)
  | callWait n last h | callComplete t n last h | spurious t h =>
    simp only [Act.thread, h]
    exact ⟨rfl, rfl⟩
  | wait t ans w eff p h hm =>
    simp only [Act.thread, h]
    cases hm with
    | terminate i hend => exact absurd rfl (heff t)
    | _ => exact ⟨rfl, rfl⟩
  | prod t m ans cmd w err q eff p h hm =>
    cases cmd with
    | terminate => exact absurd h (hpc m w err q)
    | normal =>
      simp only [Act.thread, h]
      cases hm <;> exact ⟨rfl, rfl⟩

/-- A step outside of the pass for the producer of `e` leaves alone what is known of `e`. -/
theorem outside_pass {f : Nat → ProdPc → List Nat} (hf : ∀ n, f n (.send 0 []) = g.outEdges n)
    (hi : TermInv g s) (ha : AtMostOnce s a) (hm : Move g s a eff p)
    (he : e ∈ g.outEdges (g.edge e).producer)
    (hno : (g.edge e).producer = a.thread →
      ∀ w err q, s.pc a.thread ≠ .prod a.thread .terminate w err q) :
    (s.apply g a.thread eff).terminated (g.edge e).producer = true ∧
        e ∉ (((s.apply g a.thread eff).setPc a.thread p).pc (g.edge e).producer).todo f ↔
      s.terminated (g.edge e).producer = true ∧ e ∉ (s.pc (g.edge e).producer).todo f := by
  by_cases ht : (g.edge e).producer = a.thread
  · by_cases heff : ∃ n, eff = .terminate n
    · -- the pass begins, and all out-edges are still to come
      obtain ⟨n, rfl⟩ := heff
      obtain ⟨rfl, hterm, w, rfl⟩ := hm.terminates ha
      rw [ht, setPc_pc_self, hterm]
      have hmem : e ∈ Pc.todo f (.prod a.thread .terminate w false (.send 0 [])) := by
        rw [ht] at he
        simpa only [Pc.todo, hf] using he
      simp [hmem]
    · obtain ⟨hun, hun'⟩ := hm.todo_nil f
        (fun m w err q h => hno ht w err q (by rwa [← hi.owner _ m _ w err q h] at h))
        (fun n h => heff ⟨n, h⟩)
      rw [ht, setPc_pc_self, hun, hun']
      cases eff with
      | terminate n => exact absurd ⟨n, rfl⟩ heff
      | _ => exact Iff.rfl
  · rw [apply_terminated ha hm ht]
    rcases pc_of_ne (g := g) (s := s) eff p ht with heq | ⟨-, hpc, heq⟩
    · rw [heq]
    · rw [heq, hpc]
      exact Iff.rfl

/-- The steps of `pgm_terminate`. -/
theorem signalSent_prod {t : Nat} {w err : Bool} {ans : Answer} {q : ProdPc} (hi : TermInv g s)
    (hpc : s.pc t = .prod t .terminate w err q) (hm : ProdMove g s t .terminate w err ans q eff p)
    (ht : (g.edge e).producer = t) :
    (SignalSent g ((s.apply g t eff).setPc t p) e ↔ SignalSent g s e ∨ eff = .addTerminate e) ∧
    (eff = .addTerminate e → ¬ SignalSent g s e ∧ (g.edge e).isBackedge = false ∧
      (g.edge e).isSignalDriven = true) := by
  have hsends := hi.sends t .terminate w err q hpc
  have hadd : eff = .addTerminate e →
      (g.edge e).isBackedge = false ∧ (g.edge e).isSignalDriven = true := by
    rintro rfl
    cases hm with
    | termSignal i e tw hc => exact ⟨hsends.1 rfl, hsends.2⟩
  by_cases hfs : (g.edge e).isSignalDriven = true ∧ (g.edge e).isBackedge = false
  · obtain ⟨hun, hmem⟩ := hm.unsent (hi.place t t .terminate w err q hpc) hsends hfs.1 hfs.2
    have hterm : s.terminated t = true := (hi.command t .terminate w err q hpc).mpr rfl
    have hterm' : ((s.apply g t eff).setPc t p).terminated t = true := by
      cases hm <;> exact hterm
    have hsent : SignalSent g s e ↔ e ∉ q.unsent g t := by
      rw [signalSent_iff, ht, hpc]
      simp [hfs, hterm, Pc.unsent, Pc.todo]
    have hsent' : SignalSent g ((s.apply g t eff).setPc t p) e ↔ e ∉ p.unsent g := by
      rw [signalSent_iff, ht, setPc_pc_self]
      simp [hfs, hterm']
    refine ⟨?_, fun h => ⟨fun hs => hsent.mp hs (hmem h), hfs.2, hfs.1⟩⟩
    rw [hsent, hsent', hun, not_and_or, not_not]
  · refine ⟨⟨fun h => absurd ⟨h.signaled, h.forward⟩ hfs, ?_⟩, fun h => absurd (hadd h).symm hfs⟩
    rintro (h | h)
    · exact absurd ⟨h.signaled, h.forward⟩ hfs
    · exact absurd (hadd h).symm hfs

/-- **One step.** A signal is sent when it is added, and stays sent. -/
theorem signalSent_step (hi : TermInv g s) (ha : AtMostOnce s a) (hm : Move g s a eff p)
    (he : e ∈ g.outEdges (g.edge e).producer) :
    (SignalSent g ((s.apply g a.thread eff).setPc a.thread p) e ↔
      SignalSent g s e ∨ eff = .addTerminate e) ∧
    (eff = .addTerminate e → ¬ SignalSent g s e ∧ (g.edge e).isBackedge = false ∧
      (g.edge e).isSignalDriven = true) := by
  by_cases hin : (g.edge e).producer = a.thread ∧
      ∃ w err q, s.pc a.thread = .prod a.thread .terminate w err q
  · obtain ⟨ht, w, err, q, hpc⟩ := hin
    cases hm with
    | prod t m ans cmd w' err' q' eff p hpc' hm =>
      simp only [Act.thread] at hpc ht ⊢
      cases hpc.symm.trans hpc'
      exact signalSent_prod hi hpc hm ht
    | callWait n last h | callComplete t n last h | callTerminate t n last h | spurious t h
    | wait t ans w eff p h hm => cases h.symm.trans hpc
  · have hadd : eff ≠ .addTerminate e := by
      rintro rfl
      obtain ⟨hout, w, err, q, hpc⟩ := hm.addTerminate hi
      exact hin ⟨(Graph.mem_outEdges.mp hout).2, w, err, q, hpc⟩
    have hsame : SignalSent g ((s.apply g a.thread eff).setPc a.thread p) e ↔
        SignalSent g s e := by
      have := outside_pass (f := fun n q => q.unsent g n) (fun n => rfl) hi ha hm he
        (fun ht w err q hpc => hin ⟨ht, w, err, q, hpc⟩)
      rw [signalSent_iff, signalSent_iff]
      exact and_congr_right fun _ => and_congr_right fun _ => this
    exact ⟨hsame.trans (by simp [hadd]), fun h => absurd h hadd⟩

theorem signals_step (hi : TermInv g s) (ha : AtMostOnce s a) (hm : Move g s a eff p) (n : Nat) :
    ((s.apply g a.thread eff).setPc a.thread p).nrTerminateSignals n = (g.inEdges n).countP
      (fun e => decide (SignalSent g ((s.apply g a.thread eff).setPc a.thread p) e)) := by
  have hsame : ∀ e ∈ g.inEdges n, eff ≠ .addTerminate e →
      decide (SignalSent g ((s.apply g a.thread eff).setPc a.thread p) e) =
        decide (SignalSent g s e) := by
    intro e he hne
    have := (signalSent_step hi ha hm (Graph.mem_out_of_mem_in he)).1
    simp only [hne, or_false] at this
    exact decide_eq_decide.mpr this
  by_cases hadd : ∃ e ∈ g.inEdges n, eff = .addTerminate e
  · obtain ⟨e, he, rfl⟩ := hadd
    have hstep := signalSent_step hi ha hm (Graph.mem_out_of_mem_in he)
    have hbound : (g.inEdges n).countP (fun e => decide (SignalSent g s e)) < 32 :=
      List.countP_le_length.trans_lt (g.inDegree n)
    rw [Scan.countP_insert (g.inEdges_nodup n) he (decide_eq_false (hstep.2 rfl).1)
      (decide_eq_true (hstep.1.mpr (Or.inr rfl))) (fun y hy hne => hsame y hy (by simpa using hne.symm)),
      ← hi.signals n]
    change update _ _ _ n = _
    rw [Graph.mem_inEdges_consumer he, Function.update_self, hi.signals n, Word.add_of_lt (by omega)]
  · have hsignals : (s.apply g a.thread eff).nrTerminateSignals n = s.nrTerminateSignals n := by
      cases eff with
      | addTerminate e =>
        have hout := (hm.addTerminate hi).1
        have hne : n ≠ (g.edge e).consumer := by
          rintro rfl
          exact hadd ⟨e, Graph.mem_in_of_mem_out hout, rfl⟩
        simp [State.apply, hne]
      | _ => rfl
    change (s.apply g a.thread eff).nrTerminateSignals n = _
    rw [hsignals, hi.signals n]
    exact List.countP_congr (fun e he => by rw [hsame e he (fun h => hadd ⟨e, he, h⟩)])

/-- A normal pass ends before its node terminates. -/
theorem Move.command (hi : TermInv g s) (ha : AtMostOnce s a) (hm : Move g s a eff p) {m : Nat}
    {cmd : Command} {w err : Bool} {q : ProdPc} (hp : p = .prod m cmd w err q) :
    a.thread = m ∧ ((s.apply g a.thread eff).terminated m = true ↔ cmd = .terminate) ∧
      q.Sends g cmd := by
  cases hm with
  | callComplete t n last hpc =>
    cases hp
    exact ⟨ha.1, by simp [State.apply, ha.2], trivial⟩
  | callTerminate t n last hpc =>
    cases hp
    exact ⟨ha.1, by simp [State.apply], trivial⟩
  | wait t ans w eff p hpc hm =>
    cases hm with
    | terminate i hend =>
      cases hp
      exact ⟨rfl, by simp [State.apply], trivial⟩
    | _ => cases hp
  | prod t m ans cmd w err q eff p hpc hm =>
    obtain rfl : t = m := hi.owner t m cmd w err q hpc
    have hcmd := hi.command t cmd w err q hpc
    have hsends := hm.sends (hi.sends t cmd w err q hpc) hp
    cases hm with
    | done => cases hp
    | _ =>
      cases hp
      exact ⟨rfl, hcmd, hsends⟩
  | callWait | spurious => cases hp

theorem Move.taking (hi : TermInv g s) (hm : Move g s a eff p) {ret : WaitRet} {i : Nat}
    (hp : p = .wait (.consume ret i)) : ret ≠ .terminate := by
  cases hm with
  | wait t ans w eff p hpc hm =>
    cases hm with
    | toConsume tok dat h hr => cases hp; exact hr
    | consume ret j e he h => cases hp; exact hi.taking t _ j hpc
    | consumePass ret j e he h => cases hp; exact hi.taking t _ j hpc
    | allReady l | someReady l | noTerm l | allTerm l | notAllTerm l =>
      cases l <;> simp [granted, mustWait] at hp
    | _ => cases hp
  | prod t m ans cmd w err q eff p hpc hm => exact absurd hp (hm.not_wait _)
  | callWait | callComplete | callTerminate | spurious => cases hp

theorem step_termInv (ha : AtMostOnce s a) (hi : TermInv g s) (h : step g s a = some s') :
    TermInv g s' := by
  have hplace := step_placeInv hi.place h
  obtain ⟨eff, p, hm, rfl⟩ := step_move h
  have hprod : ∀ t m cmd w err q,
      ((s.apply g a.thread eff).setPc a.thread p).pc t = .prod m cmd w err q →
      t = m ∧ ((s.apply g a.thread eff).terminated m = true ↔ cmd = .terminate) ∧
        q.Sends g cmd := by
    intro t m cmd w err q hpc
    by_cases ht : t = a.thread
    · subst ht
      rw [setPc_pc_self] at hpc
      exact hm.command hi ha hpc
    · rcases pc_of_ne (g := g) (s := s) eff p ht with heq | ⟨-, -, heq⟩
      · rw [heq] at hpc
        obtain rfl : t = m := hi.owner t m cmd w err q hpc
        rw [apply_terminated ha hm ht]
        exact ⟨rfl, hi.command t cmd w err q hpc, hi.sends t cmd w err q hpc⟩
      · rw [heq] at hpc
        cases hpc
  refine ⟨hplace, fun t m cmd w err q hpc => (hprod t m cmd w err q hpc).1,
    fun n cmd w err q hpc => (hprod n n cmd w err q hpc).2.1,
    fun n cmd w err q hpc => (hprod n n cmd w err q hpc).2.2, signals_step hi ha hm,
    fun n ret i hpc => ?_⟩
  by_cases hn : n = a.thread
  · subst hn
    rw [setPc_pc_self] at hpc
    exact hm.taking hi hpc
  · rcases pc_of_ne (g := g) (s := s) eff p hn with heq | ⟨-, -, heq⟩
    · exact hi.taking n ret i (heq.symm.trans hpc)
    · cases heq.symm.trans hpc

theorem initState_termInv (junk : Junk) (g : Graph) : TermInv g (initState junk g) := by
  refine ⟨initState_placeInv junk g, ?_, ?_, ?_, fun n => ?_, by rintro _ _ _ ⟨⟩⟩
  · rintro _ _ _ _ _ _ ⟨⟩
  · rintro _ _ _ _ _ ⟨⟩
  · rintro _ _ _ _ _ ⟨⟩
  · refine (List.countP_eq_zero.mpr fun e _ h => ?_).symm
    cases (of_decide_eq_true h).terminated

/-! ## All signals are in -/

/-- The counter has reached the number of forward in-edges. -/
theorem TermInv.all_sent (hi : TermInv g s)
    (hfull : s.nrTerminateSignals n = g.nrInSignaledForward n) (he : e ∈ g.inEdges n)
    (hs : (g.edge e).isSignalDriven = true) (hf : (g.edge e).isBackedge = false) :
    SignalSent g s e := by
  rw [hi.signals n, g.nrInSignaledForward_eq] at hfull
  have himp : ∀ e ∈ g.inEdges n, decide (SignalSent g s e) = true →
      ((g.edge e).isSignalDriven && !(g.edge e).isBackedge) = true := by
    intro e _ h
    have hsent := of_decide_eq_true h
    simp [hsent.signaled, hsent.forward]
  exact of_decide_eq_true (Scan.forall_of_countP_eq himp hfull e he (by simp [hs, hf]))

theorem TermInv.signals_lt (hi : TermInv g s) (n : Nat) : s.nrTerminateSignals n < 32 := by
  rw [hi.signals n]
  exact List.countP_le_length.trans_lt (g.inDegree n)

/-- A node for which `pgm_terminate` has been executed produces no more. -/
theorem Ended.not_prod {m k : Nat} {cmd : Command} {w err : Bool} {q : ProdPc} (h : Ended s m)
    (hi : TermInv g s) : s.pc m ≠ .prod k cmd w err q := by
  intro hpc
  obtain rfl : m = k := hi.owner m k cmd w err q hpc
  obtain rfl := (hi.command m cmd w err q hpc).mp h.terminated
  have hdone := h.done
  rw [hpc] at hdone
  cases hdone

theorem Ended.step {m : Nat} (h : Ended s m) (hi : TermInv g s) (ha : AtMostOnce s a)
    (hm : Move g s a eff p) : Ended ((s.apply g a.thread eff).setPc a.thread p) m := by
  refine ⟨terminated_mono h.terminated, ?_⟩
  by_cases ht : m = a.thread
  · subst ht
    rw [setPc_pc_self]
    cases hm with
    | callComplete t n last hpc | callTerminate t n last hpc =>
      have hno := ha.2
      rw [← ha.1, show s.terminated t = true from h.terminated] at hno
      cases hno
    | wait t ans w eff p hpc hm =>
      cases hm with
      | terminate i hend =>
        have hno := ha (by rw [hpc]; rfl)
        rw [show s.terminated t = true from h.terminated] at hno
        cases hno
      | _ => rfl
    | prod t m ans cmd w err q eff p hpc hm => exact absurd hpc (h.not_prod hi)
    | callWait | spurious => rfl
  · rcases pc_of_ne (g := g) (s := s) eff p ht with heq | ⟨-, -, heq⟩
    · rw [heq]
      exact h.done
    · rw [heq]
      rfl

/-- When the producers of all forward in-edges are done, all terminate signals are in. -/
theorem full_of_ended (hi : TermInv g s)
    (h : ∀ e ∈ g.inEdges n, (g.edge e).isBackedge = false → Ended s (g.edge e).producer) :
    s.nrTerminateSignals n = g.nrInSignaledForward n := by
  rw [hi.signals n, g.nrInSignaledForward_eq]
  refine List.countP_congr (fun e he => ?_)
  simp only [decide_eq_true_eq, Bool.and_eq_true, Bool.not_eq_true']
  refine ⟨fun hs => ⟨hs.signaled, hs.forward⟩, fun ⟨hs, hf⟩ => ⟨hs, hf, (h e he hf).terminated, ?_⟩⟩
  cases hpc : s.pc (g.edge e).producer with
  | prod k cmd w err q => exact absurd hpc ((h e he hf).not_prod hi)
  | _ => simp [Pc.unsent, Pc.todo]

/-- Tokens are sent for nodes that have not terminated. -/
theorem TermInv.live (hi : TermInv g s) (h : sendsOn s a = some e) :
    s.terminated (g.edge e).producer = false ∧ (g.edge e).isSignalDriven = true := by
  unfold Pgm.sendsOn at h
  split at h
  · rename_i t ans
    split at h
    · rename_i n w err i e' tw hpc
      cases h
      obtain rfl : t = n := hi.owner t n .normal w err _ hpc
      have hmem : e ∈ g.outEdges t := List.mem_of_getElem? (hi.place _ _ _ _ _ _ hpc)
      refine ⟨Bool.eq_false_iff.mpr (fun hterm => ?_), (hi.sends t .normal w err _ hpc).2⟩
      rw [(Graph.mem_outEdges.mp hmem).2, hi.command t .normal w err _ hpc] at hterm
      cases hterm
    · cases h
  · cases h

theorem SignalSent.frozen (hsent : SignalSent g s e) (hi : TermInv g s) :
    sendsOn s a ≠ some e := by
  intro h
  have hlive := (hi.live h).1
  rw [hsent.terminated] at hlive
  cases hlive

/-- Once all signals are in, none is added. -/
theorem full_step (hi : TermInv g s) (ha : AtMostOnce s a) (hm : Move g s a eff p)
    (hfull : s.nrTerminateSignals n = g.nrInSignaledForward n) :
    (s.apply g a.thread eff).nrTerminateSignals n = s.nrTerminateSignals n := by
  cases eff with
  | addTerminate e =>
    have hout := (hm.addTerminate hi).1
    have hne : n ≠ (g.edge e).consumer := by
      rintro rfl
      have hin := Graph.mem_in_of_mem_out hout
      obtain ⟨hnot, hf, hs⟩ := (signalSent_step hi ha hm (Graph.mem_out_of_mem_in hin)).2 rfl
      exact hnot (hi.all_sent hfull hin hs hf)
    simp [State.apply, hne]
  | _ => rfl

end

end Pgm
