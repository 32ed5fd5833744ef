import Mathlib.Algebra.Order.Monoid.Unbundled.Basic
import Pgm.Lib.Firing
import Pgm.Workers

/-! What the threads of `pgmrt` have done when they come to rest does not depend on how they were
scheduled.

* `step_serveInv`: every wait that returned 0 was served by the tokens its in-edges had received in
  all, and a node sends once for each of its jobs;
* `rest_dead`: at rest no node is served once more, since no wake-up was lost;
* `activation_law`: at rest the number of jobs of a node is read off its in-edges;
* `schedule_independent`: two runs whose sources have sent alike come to rest alike, and no run
  gets ahead of one at rest. -/

namespace Pgm

open Function (update)

/-- The tokens that an edge must have received in all for wait number `k` of its consumer to
return 0. The waits are counted from 0. -/
def Edge.need (e : Edge) (k : Nat) : Nat :=
  if k < e.skips then 0 else e.attr.nrThreshold + e.attr.nrConsume * (k - e.skips)

/-- The tokens that edge `e` has received in all after `σ` sends. -/
def received (g : Graph) (e σ : Nat) : Nat := initPending g e + (g.edge e).attr.nrProduce * σ

theorem Edge.need_mono (e : Edge) : Monotone e.need := by
  intro j k hjk
  unfold Edge.need
  split_ifs with hj hk hk
  · exact Nat.le_refl 0
  · exact Nat.zero_le _
  · omega
  · apply Nat.add_le_add_left
    exact Nat.mul_le_mul_left _ (Nat.sub_le_sub_right hjk _)

theorem received_mono (g : Graph) (e : Nat) : Monotone (received g e) := by
  intro σ τ h
  apply Nat.add_le_add_left
  exact Nat.mul_le_mul_left _ h

def firingNet (g : Graph) : Net Nat Nat where
  source := IsSrc g
  inputs n e := e ∈ g.inEdges n
  producer e := (g.edge e).producer
  need e := (g.edge e).need
  has := received g
  need_mono e := (g.edge e).need_mono
  has_mono := received_mono g

def WaitPc.taking : WaitPc → Bool
  | .consume _ _ | .skips .ok _ => true
  | _ => false

structure ServeInv (g : Graph) (s : State) : Prop where
  work : WorkInv g s
  past : ∀ n k, k < s.fired n → (firingNet g).Serves s.sends n k
  now : ∀ n w, s.pc n = .wait w → w.taking = true → (firingNet g).Serves s.sends n (s.fired n)
  sends : ∀ n e, ¬ IsSrc g n → e ∈ g.outEdges n → s.sends e + (s.pc n).owed g e = s.fired n

/-- The sources are idle, and the threads of the other nodes are blocked in `pgm_cv_wait`. -/
def Resting (g : Graph) (s : State) : Prop :=
  ∀ n < g.nrNodes, (IsSrc g n → (s.pc n).isIdle = true) ∧ (¬ IsSrc g n → (s.pc n).isAsleep = true)

instance (g : Graph) (s : State) : Decidable (Resting g s) :=
  inferInstanceAs (Decidable (∀ n < g.nrNodes, (_ → _) ∧ (¬ _ → _)))

section

variable {junk : Junk} {g : Graph} {s s' t : State} {a : Act} {eff : Effect} {p : Pc} {n e j : Nat}

/-! ## Every wait was served -/

/-- Between two takings of tokens an in-edge is ready when it has received what the next wait
needs. -/
theorem ready_iff_need (hs : (g.edge e).isSignalDriven = true) (hi : EdgeLedger g s n j e)
    (hcons : (s.pc n).consumed j = 0) (hskip : (s.pc n).skipped j = 0) :
    readyEdge g s e = true ↔ (g.edge e).need (s.fired n) ≤ received g e (s.sends e) := by
  have hpend := hi.pending
  have hskips := hi.skips
  rw [hcons, Nat.add_zero] at hpend
  rw [hskip, Nat.add_zero] at hskips
  rw [readyEdge_iff, and_iff_right hs, received, ← hpend, Edge.need]
  split_ifs with hlt
  · constructor
    · exact fun _ => Nat.zero_le _
    · intro _
      right
      omega
  · constructor
    · rintro (hle | hpos)
      · omega
      · omega
    · intro hle
      left
      omega

theorem sends_le (g : Graph) (s : State) (t : Nat) (eff : Effect) (e : Nat) :
    s.sends e ≤ (s.apply g t eff).sends e := by
  cases eff with
  | addTokens e' =>
    by_cases he : e = e'
    · subst he
      simp [State.apply]
    · simp [State.apply, he]
  | _ => exact Nat.le_refl _

theorem not_leaving {w : WaitPc} (hi : LoopInv g s) (hpc : s.pc n = .wait w)
    (hw : (Pc.wait w).ending = false) : ¬ Leaving s n := by
  have hold := hi.loop n
  rw [hpc] at hold
  rintro (hterm | hend)
  · rw [hold.2.1] at hterm
    cases hterm
  · rw [hpc, hw] at hend
    cases hend

/-- A wait outside of the taking of tokens has its in-edges ready when it is served. -/
theorem allReady_iff_serves (hcv : CvGraph g) (hi : WorkInv g s) {w : WaitPc}
    (hpc : s.pc n = .wait w) (hw : (Pc.wait w).ending = false)
    (hquiet : ∀ j, (Pc.wait w).consumed j = 0 ∧ (Pc.wait w).skipped j = 0) :
    AllReady g s n ↔ (firingNet g).Serves s.sends n (s.fired n) := by
  have hone : ∀ e ∈ g.inEdges n, readyEdge g s e = true ↔
      (g.edge e).need (s.fired n) ≤ received g e (s.sends e) := by
    intro e he
    obtain ⟨j, hj, hje⟩ := List.getElem_of_mem he
    have hget : (g.inEdges n)[j]? = some e := by rw [List.getElem?_eq_getElem hj, hje]
    exact ready_iff_need (hcv.signaled he)
      (hi.edges n j e hget (not_leaving hi.base hpc hw))
      (by rw [hpc]; exact (hquiet j).1) (by rw [hpc]; exact (hquiet j).2)
  constructor
  · intro h e he
    exact (hone e he).mp (h e he (hcv.signaled he))
  · intro h e he _
    exact (hone e he).mpr (h e he)

/-- The wait that begins to take tokens is served. -/
theorem serves_of_granted (hcv : CvGraph g) (hi : WorkInv g s) {dat : WaitStatus}
    (hpc : s.pc n = .wait (.dataDone .success dat)) :
    (firingNet g).Serves s.sends n (s.fired n) :=
  (allReady_iff_serves hcv hi hpc rfl (fun _ => ⟨rfl, rfl⟩)).mp ((hi.ready n).granted _ hpc rfl)

theorem WaitMove.taking {ans : Answer} {v w : WaitPc} (hcv : CvGraph g) (hi : ServeInv g s)
    (hpc : s.pc n = .wait v) (hm : WaitMove g s n ans v eff p) (hp : p = .wait w)
    (hw : w.taking = true) : (firingNet g).Serves s.sends n (s.fired n) := by
  have hret := hi.work.base.loop n
  rw [hpc] at hret
  cases hm with
  | toConsume tok dat h hr =>
    rcases hi.work.cv.decided (a := .run n ans) tok dat hpc with ⟨rfl, -⟩ | ⟨-, hend⟩
    · exact serves_of_granted hcv hi.work hpc
    · exact absurd hend hr
  | toSkips tok dat h =>
    rcases hi.work.cv.decided (a := .run n ans) tok dat hpc with ⟨rfl, -⟩ | ⟨-, hend⟩
    · exact serves_of_granted hcv hi.work hpc
    · cases hp
      rw [hend] at hw
      cases hw
  | consume | consumePass => exact hi.now n _ hpc rfl
  | consumed ret i => exact hi.now n _ hpc rfl
  | skip ret i | skipPass ret i =>
    cases hp
    cases ret with
    | ok => exact hi.now n _ hpc rfl
    | _ => cases hw
  | allReady l | someReady l | noTerm l | allTerm l | notAllTerm l =>
    cases l <;> cases hp <;> cases hw
  | terminate | fire | fail => cases hp
  | _ =>
    cases hp
    cases hw

theorem Move.fires (hm : Move g s a (.fire n) p) : ∃ i, s.pc n = .wait (.skips .ok i) := by
  cases hm with
  | wait t ans w eff p hpc hm =>
    cases hm with
    | fire i hend => exact ⟨i, hpc⟩
  | prod t m ans cmd w err q eff p hpc hm => cases hm

/-- A wait returned 0 in this step, or the number of jobs is what it was. -/
theorem fired_cases (g : Graph) (s : State) (t : Nat) (eff : Effect) (n : Nat) :
    eff = .fire n ∧ (s.apply g t eff).fired n = s.fired n + 1 ∨
      (s.apply g t eff).fired n = s.fired n := by
  cases eff with
  | fire m =>
    by_cases hn : n = m
    · subst hn
      exact Or.inl ⟨rfl, Function.update_self _ _ _⟩
    · exact Or.inr (Function.update_of_ne hn _ _)
  | _ => exact Or.inr rfl

/-- **One step.** -/
theorem step_serveInv (hcv : CvGraph g) (ha : WorkAct g s a) (hi : ServeInv g s)
    (h : step g s a = some s') : ServeInv g s' := by
  have hwork := step_workInv hcv ha hi.work h
  have hsends : ∀ n e, ¬ IsSrc g n → e ∈ g.outEdges n →
      s'.sends e + (s'.pc n).owed g e = s'.fired n := by
    intro n e hn he
    have hstep := step_sends hcv ha.1 hi.work.base he h
    have hcall : sourceCall g n a = 0 := if_neg (fun hc => hn hc.1)
    have hold := hi.sends n e hn he
    omega
  obtain ⟨eff, p, hm, rfl⟩ := step_move h
  have hmono : ∀ n k, (firingNet g).Serves s.sends n k →
      (firingNet g).Serves ((s.apply g a.thread eff).setPc a.thread p).sends n k :=
    fun n k hs => hs.mono (fun e _ => sends_le g s a.thread eff e)
  refine ⟨hwork, fun n k hk => ?_, fun n w hw htake => ?_, hsends⟩
  · apply hmono
    rcases fired_cases g s a.thread eff n with ⟨rfl, hfired⟩ | hfired
    · obtain ⟨i, hpc⟩ := hm.fires
      have hk' : k < s.fired n + 1 := hfired ▸ hk
      rcases Nat.lt_succ_iff_lt_or_eq.mp hk' with hlt | rfl
      · exact hi.past n k hlt
      · exact hi.now n _ hpc rfl
    · exact hi.past n k (hfired ▸ hk)
  · have hfired : (s.apply g a.thread eff).fired n = s.fired n := by
      rcases fired_cases g s a.thread eff n with ⟨rfl, -⟩ | hfired
      · -- the thread that fires is idle afterwards
        obtain rfl := hm.fire_own
        rw [setPc_pc_self] at hw
        cases hm with
        | wait t ans v eff p hpc hm =>
          cases hm
          cases hw
        | prod t m ans cmd v err q eff p hpc hm => cases hm
      · exact hfired
    apply hmono
    change (firingNet g).Serves s.sends n ((s.apply g a.thread eff).fired n)
    rw [hfired]
    by_cases hn : n = a.thread
    · subst hn
      rw [setPc_pc_self] at hw
      cases hm with
      | wait t ans v eff p hpc hm => exact hm.taking hcv hi hpc hw htake
      | prod t m ans cmd v err q eff p hpc hm => exact absurd hw (hm.not_wait w)
      | callWait | spurious =>
        cases hw
        cases htake
      | callComplete | callTerminate => cases hw
    · rcases pc_of_ne (g := g) (s := s) eff p hn with heq | ⟨-, -, heq⟩
      · exact hi.now n w (heq.symm.trans hw) htake
      · cases heq.symm.trans hw
        cases htake

theorem initState_serveInv (junk : Junk) (g : Graph) : ServeInv g (initState junk g) :=
  ⟨initState_workInv junk g, by rintro _ _ ⟨⟩, by rintro _ _ ⟨⟩, fun _ _ _ _ => rfl⟩

theorem serveInv_of_reach (hcv : CvGraph g) (h : Lts.Reach (step g) (WorkAct g) (initState junk g) s) :
    ServeInv g s :=
  Lts.Reach.inv (I := ServeInv g) (initState_serveInv junk g)
    (fun _ _ _ _ hi hp hs => step_serveInv hcv hp hi hs) h

/-! ## At rest -/

theorem Graph.lt_of_mem_in (he : e ∈ g.inEdges n) : n < g.nrNodes := by
  obtain ⟨hlt, hc⟩ := Graph.mem_inEdges.mp he
  have hget : g.edge e = g.edges[e] := by simp [Graph.edge, hlt]
  rw [← hc, hget]
  exact (g.ends _ (List.getElem_mem hlt)).2

/-- A node that is not a source is a node of the graph. -/
theorem lt_of_not_src (hn : ¬ IsSrc g n) : n < g.nrNodes := by
  obtain ⟨e, he⟩ := List.exists_mem_of_ne_nil _ hn
  exact Graph.lt_of_mem_in he

theorem Resting.asleep (hrest : Resting g s) (hn : ¬ IsSrc g n) : s.pc n = .wait .asleep :=
  Pc.eq_asleep ((hrest n (lt_of_not_src hn)).2 hn)

/-- No thread is inside `pgm_produce`. -/
theorem Resting.quiet (hi : LoopInv g s) (hrest : Resting g s) :
    ∀ t m cmd w err q, s.pc t ≠ .prod m cmd w err q := by
  intro t m cmd w err q hpc
  by_cases ht : t < g.nrNodes
  · by_cases hsrc : IsSrc g t
    · have hidle := (hrest t ht).1 hsrc
      rw [hpc] at hidle
      cases hidle
    · rw [hrest.asleep hsrc] at hpc
      cases hpc
  · have htop := hi.nodes t (Nat.le_of_not_lt ht)
    rw [hpc] at htop
    cases htop

/-- **Nothing is left to do at rest.** -/
theorem rest_dead (hcv : CvGraph g) (hi : WorkInv g s) (hwake : ∀ n, WakeInv g s n)
    (hrest : Resting g s) : (firingNet g).Dead s.fired s.sends := by
  intro n hn hserves
  have hpc := hrest.asleep hn
  have hall := (allReady_iff_serves hcv hi hpc rfl (fun _ => ⟨rfl, rfl⟩)).mpr hserves
  exact ((hwake n).asleep hpc (hrest.quiet hi.base)).1 hall

theorem work_wakeInv (hcv : CvGraph g) (h : Lts.Reach (step g) (WorkAct g) (initState junk g) s) :
    ∀ n, WakeInv g s n :=
  reach_wakeInv (fun _ _ hr hp =>
    keepsReady_of_noOverflow ((workInv_of_reach hcv hr).cv.noOverflow hp.2)) h

/-- At rest a node that is not a source has sent once for each of its jobs. -/
theorem ServeInv.sends_rest (hi : ServeInv g s) (hrest : Resting g s) (hn : ¬ IsSrc g n)
    (he : e ∈ g.outEdges n) : s.sends e = s.fired n := by
  have hsends := hi.sends n e hn he
  rw [hrest.asleep hn] at hsends
  exact hsends

/-- **The activation law.** When the threads of `pgmrt` have come to rest, wait number `k` of a node
has returned 0 exactly when each in-edge has received the tokens for it: none as long as the edge
has skips, and from then on the threshold beyond what the earlier waits consumed. An in-edge has
received its initial tokens and those of one send for each job of its producer. -/
theorem activation_law (hcv : CvGraph g) (h : Lts.Reach (step g) (WorkAct g) (initState junk g) s)
    (hrest : Resting g s) (hn : ¬ IsSrc g n) :
    (∀ k, k < s.fired n ↔ ∀ e ∈ g.inEdges n, (g.edge e).need k ≤
      (g.edge e).attr.nrInit + (g.edge e).attr.nrProduce * s.sends e) ∧
    ∀ e ∈ g.inEdges n, ¬ IsSrc g (g.edge e).producer → s.sends e = s.fired (g.edge e).producer := by
  have hi := serveInv_of_reach hcv h
  have hdead := rest_dead hcv hi.work (work_wakeInv hcv h) hrest
  constructor
  · intro k
    rw [Net.lt_iff_serves hdead hn (hi.past n)]
    apply forall₂_congr
    intro e he
    have hinit : initPending g e = (g.edge e).attr.nrInit := if_pos (hcv.edge he)
    change (g.edge e).need k ≤ received g e (s.sends e) ↔ _
    rw [received, hinit]
  · intro e he hsrc
    exact hi.sends_rest hrest hsrc (Graph.mem_out_of_mem_in he)

/-! ## Two runs -/

theorem fired_le_dead {y τ : Nat → Nat} (hcv : CvGraph g)
    (h : Lts.Reach (step g) (WorkAct g) (initState junk g) s) (hdead : (firingNet g).Dead y τ)
    (hτ : ∀ e < g.edges.length, ¬ IsSrc g (g.edge e).producer → y (g.edge e).producer ≤ τ e)
    (hsrc : ∀ e < g.edges.length, IsSrc g (g.edge e).producer → s.sends e ≤ τ e)
    (hn : ¬ IsSrc g n) : s.fired n ≤ y n := by
  -- the hypothesis on the sends is a premise of the invariant: earlier states have sent less
  have hrun : (∀ e < g.edges.length, IsSrc g (g.edge e).producer → s.sends e ≤ τ e) →
      ∀ n, ¬ IsSrc g n → s.fired n ≤ y n := by
    refine Lts.Reach.inv (I := fun s =>
      (∀ e < g.edges.length, IsSrc g (g.edge e).producer → s.sends e ≤ τ e) →
        ∀ n, ¬ IsSrc g n → s.fired n ≤ y n) (fun _ n _ => Nat.zero_le _) ?_ h
    intro s a s' hr hind hp hs hle n hn
    have hi := serveInv_of_reach hcv hr
    obtain ⟨eff, p, hm, rfl⟩ := step_move hs
    have hle' : ∀ e < g.edges.length, IsSrc g (g.edge e).producer → s.sends e ≤ τ e :=
      fun e he hps => (sends_le g s a.thread eff e).trans (hle e he hps)
    have hfired := hind hle'
    rcases fired_cases g s a.thread eff n with ⟨rfl, hone⟩ | hsame
    · obtain ⟨i, hpc⟩ := hm.fires
      change (s.apply g a.thread (.fire n)).fired n ≤ y n
      rw [hone]
      refine Net.lt_of_dead hdead hn (fun e he => ?_) (hfired n hn) (hi.now n _ hpc rfl)
      have hlt := (Graph.mem_inEdges.mp he).1
      by_cases hps : IsSrc g (g.edge e).producer
      · exact hle' e hlt hps
      · have hsent := hi.sends _ e hps (Graph.mem_out_of_mem_in he)
        calc s.sends e
          _ ≤ s.fired (g.edge e).producer := by omega
          _ ≤ y (g.edge e).producer := hfired _ hps
          _ ≤ τ e := hτ e hlt hps
    · change (s.apply g a.thread eff).fired n ≤ y n
      rw [hsame]
      exact hfired n hn
  exact hrun hsrc n hn

theorem fired_le_rest (hcv : CvGraph g) (hs : Lts.Reach (step g) (WorkAct g) (initState junk g) s)
    (ht : Lts.Reach (step g) (WorkAct g) (initState junk g) t) (hrest : Resting g t)
    (hle : ∀ e < g.edges.length, IsSrc g (g.edge e).producer → s.sends e ≤ t.sends e)
    (hn : ¬ IsSrc g n) : s.fired n ≤ t.fired n := by
  have hi := serveInv_of_reach hcv ht
  refine fired_le_dead hcv hs (rest_dead hcv hi.work (work_wakeInv hcv ht) hrest)
    (fun e he hps => ?_) hle hn
  exact (hi.sends_rest hrest hps (Graph.mem_outEdges.mpr ⟨he, rfl⟩)).ge

theorem ServeInv.rest_ledger (hi : ServeInv g s) (hrest : Resting g s) (he : e < g.edges.length) :
    s.nrPending e + (g.edge e).attr.nrConsume * (s.fired (g.edge e).consumer - (g.edge e).skips) =
      received g e (s.sends e) ∧
    s.nrSkips e = (g.edge e).skips - s.fired (g.edge e).consumer := by
  have hin : e ∈ g.inEdges (g.edge e).consumer := Graph.mem_inEdges.mpr ⟨he, rfl⟩
  have hn : ¬ IsSrc g (g.edge e).consumer := List.ne_nil_of_mem hin
  have hpc := hrest.asleep hn
  obtain ⟨j, hj, hje⟩ := List.getElem_of_mem hin
  have hget : (g.inEdges (g.edge e).consumer)[j]? = some e := by
    rw [List.getElem?_eq_getElem hj, hje]
  have hedge := hi.work.edges _ j e hget (not_leaving hi.work.base hpc rfl)
  have hpend := hedge.pending
  have hskips := hedge.skips
  rw [hpc] at hpend hskips
  exact ⟨hpend, hskips⟩

/-- **Schedules do not matter.** Let run `t` have come to rest, and let the sources of run `s` have
sent no more than those of `t`. Then no node of `s` has had more jobs than in `t`, whether or not
`s` is at rest and whatever has terminated there. If `s` is at rest too and its sources have sent
alike, then all nodes have had as many jobs, and all sends, token counters and skips agree. -/
theorem schedule_independent (hcv : CvGraph g)
    (hs : Lts.Reach (step g) (WorkAct g) (initState junk g) s)
    (ht : Lts.Reach (step g) (WorkAct g) (initState junk g) t) (hrest : Resting g t)
    (hle : ∀ e < g.edges.length, IsSrc g (g.edge e).producer → s.sends e ≤ t.sends e) :
    (∀ n, ¬ IsSrc g n → s.fired n ≤ t.fired n) ∧
    (Resting g s →
      (∀ e < g.edges.length, IsSrc g (g.edge e).producer → s.sends e = t.sends e) →
      (∀ n, ¬ IsSrc g n → s.fired n = t.fired n) ∧
      ∀ e < g.edges.length, s.sends e = t.sends e ∧ s.nrPending e = t.nrPending e ∧
        s.nrSkips e = t.nrSkips e) := by
  refine ⟨fun n hn => fired_le_rest hcv hs ht hrest hle hn, fun hrest' heq => ?_⟩
  have hfired : ∀ n, ¬ IsSrc g n → s.fired n = t.fired n := by
    intro n hn
    apply Nat.le_antisymm
    · exact fired_le_rest hcv hs ht hrest hle hn
    · exact fired_le_rest hcv ht hs hrest' (fun e he hps => (heq e he hps).ge) hn
  have his := serveInv_of_reach hcv hs
  have hit := serveInv_of_reach hcv ht
  refine ⟨hfired, fun e he => ?_⟩
  have hsends : s.sends e = t.sends e := by
    by_cases hps : IsSrc g (g.edge e).producer
    · exact heq e he hps
    · have hout : e ∈ g.outEdges (g.edge e).producer := Graph.mem_outEdges.mpr ⟨he, rfl⟩
      rw [his.sends_rest hrest' hps hout, hit.sends_rest hrest hps hout, hfired _ hps]
  have hcons : ¬ IsSrc g (g.edge e).consumer :=
    List.ne_nil_of_mem (Graph.mem_inEdges.mpr ⟨he, rfl⟩)
  obtain ⟨hpend, hskips⟩ := his.rest_ledger hrest' he
  obtain ⟨hpend', hskips'⟩ := hit.rest_ledger hrest he
  rw [hfired _ hcons, hsends] at hpend
  refine ⟨hsends, ?_, ?_⟩
  · omega
  · rw [hskips, hskips', hfired _ hcons]

end

/-! ## Two schedules of a line -/

def lineEager : List Act :=
  List.flatten [[.complete 0 0], runs 0 9, [.wait 1], runs 1 9, [.complete 1 1], runs 1 2, [.wait 1],
    runs 1 9]

/-- The consumer falls asleep first, and wakes up once for nothing. -/
def lineLazy : List Act :=
  List.flatten [[.wait 1], runs 1 9, [.spurious 1], runs 1 5, [.complete 0 0], runs 0 9, runs 1 10,
    [.complete 1 1], runs 1 2, [.wait 1], runs 1 9]

theorem line_rests (as : List Act)
    (h : (Lts.drive (step .line) (fun s a => decide (WorkAct .line s a)) (initState zeroed .line) as).map
      (fun s => decide (Resting .line s ∧ s.sends 0 = 1)) = some true) :
    ∃ s, Lts.Reach (step .line) (WorkAct .line) (initState zeroed .line) s ∧ Resting .line s ∧
      s.sends 0 = 1 := by
  obtain ⟨s, hs, hobs⟩ := Lts.reach_of_drive_map (fun s a h => of_decide_eq_true h) h
  exact ⟨s, hs, of_decide_eq_true hobs⟩

theorem line_activated :
    ∃ s, Lts.Reach (step .line) (WorkAct .line) (initState zeroed .line) s ∧ Resting .line s ∧
      ¬ IsSrc .line 1 ∧ ∀ k, k < s.fired 1 ↔ ∀ e ∈ Graph.line.inEdges 1, (Graph.line.edge e).need k ≤
        (Graph.line.edge e).attr.nrInit + (Graph.line.edge e).attr.nrProduce * s.sends e := by
  obtain ⟨s, hs, hrest, -⟩ := line_rests lineLazy (by decide +kernel)
  exact ⟨s, hs, hrest, by decide, (activation_law (by decide) hs hrest (by decide)).1⟩

theorem line_schedules_agree :
    ∃ s t, Lts.Reach (step .line) (WorkAct .line) (initState zeroed .line) s ∧
      Lts.Reach (step .line) (WorkAct .line) (initState zeroed .line) t ∧ Resting .line s ∧
      Resting .line t ∧ s.sends 0 = 1 ∧ s.fired 1 = t.fired 1 ∧ s.nrPending 0 = t.nrPending 0 := by
  obtain ⟨s, hs, hrest, hone⟩ := line_rests lineEager (by decide +kernel)
  obtain ⟨t, ht, hrest', hone'⟩ := line_rests lineLazy (by decide +kernel)
  have heq : ∀ e < Graph.line.edges.length, IsSrc .line (Graph.line.edge e).producer →
      s.sends e = t.sends e := by
    intro e he _
    obtain rfl : e = 0 := Nat.lt_one_iff.mp he
    rw [hone, hone']
  have hall := (schedule_independent (by decide) hs ht hrest' (fun e he h => (heq e he h).le)).2
    hrest heq
  exact ⟨s, t, hs, ht, hrest, hrest', hone, hall.1 1 (by decide), (hall.2 0 (by decide)).2.1⟩

end Pgm
