import Pgm.Lib.Budget
import Pgm.Schedule

/-! The threads of `pgmrt` come to rest. When the forward edges have no cycle, a number of calls of
`pgm_complete` by the sources is answered by so many steps and no more: every wait that returns 0
uses up tokens, every wake-up was paid for by the send that made it, and a thread that wakes up for
nothing goes back to sleep.

* `Move.fuel`: what a step costs its thread;
* `step_budget`: no step makes the budget of all threads grow, beyond a call of a source or a
  spurious wake-up;
* `comes_to_rest`: the bound of a run;
* `tree_shuts_down`: in a graph where no two edges lead to one node the threads run to their end. -/

namespace Pgm

open Function (update)

/-- The steps of a wait until it is blocked or returns. There are at most 31 in-edges. -/
def WaitPc.fuel : WaitPc → Nat
  | .start => 141
  | .scan false i _ _ => (32 - i) + 108
  | .termNonzero false => 107
  | .termAll false => 106
  | .lock | .woken => 105
  | .scan true i _ _ => (32 - i) + 72
  | .termNonzero true => 71
  | .termAll true => 70
  | .cvWait => 1
  | .asleep => 0
  | .unlock _ => 69
  | .tokensDone _ => 68
  | .recv _ _ => 0
  | .dataDone _ _ => 67
  | .consume _ i => (32 - i) + 34
  | .skips _ i => (32 - i) + 1

/-- The steps of `pgm_produce` for a node with `out` out-edges, and 105 for each thread that it may
still wake up. -/
def ProdPc.fuel (out : Nat) : ProdPc → Nat
  | .send i tw => 2 * (out - i) + 141 * (tw.length + (out - i)) + 2
  | .write _ _ _ _ | .ringWrite _ _ _ _ => 0
  | .tokens i _ tw => 2 * (out - i) + 141 * (tw.length + (out - i)) + 1
  | .wake todo => 141 * todo.length + 1
  | .recheck _ i _ todo => (32 - i) + 108 + (141 * todo.length + 1)
  | .signal _ todo => 107 + (141 * todo.length + 1)
  | .unlock _ todo => 1 + (141 * todo.length + 1)

def prodCost (g : Graph) : Nat := 143 * g.edges.length + 2

/-- A job: `pgm_complete` and the next wait. -/
def jobCost (g : Graph) : Nat := prodCost g + 143

/-- The steps of the thread of node `n` until its next job, or until it has done its job. -/
def Pc.fuel (g : Graph) (n : Nat) : Pc → Nat
  | .idle none => if IsSrc g n then 0 else 142
  | .idle (some .ok) => jobCost g
  | .idle (some _) => 0
  | .wait w => w.fuel
  | .prod m cmd _ _ q =>
    q.fuel (g.outEdges m).length + if cmd = .normal ∧ ¬ IsSrc g m then 142 else 0

def Effect.handed : Effect → Nat
  | .signal _ => 105
  | _ => 0

def Effect.gain (g : Graph) : Effect → Nat
  | .fire _ => jobCost g
  | .terminate _ => prodCost g + 1
  | _ => 0

/-- What an action from outside brings in. -/
def Act.credit (g : Graph) : Act → Nat
  | .complete _ n => if IsSrc g n then prodCost g + 1 else 0
  | .spurious _ => 106
  | _ => 0

def Effect.wakes : Effect → Nat
  | .signal c => c
  | _ => 0

def isSourceCall (g : Graph) : Act → Bool
  | .complete _ n => decide (IsSrc g n)
  | _ => false

def isSpurious : Act → Bool
  | .spurious _ => true
  | _ => false

/-- No thread can make a step or a call. A blocked thread may still wake up for nothing. -/
def Halted (g : Graph) (s : State) : Prop :=
  ∀ a s', WorkThread g s a → step g s a = some s' → isSpurious a = true

def Fed (g : Graph) : Prop := ∀ n < g.nrNodes, Source g n → IsSrc g n

instance (g : Graph) : Decidable (Fed g) :=
  inferInstanceAs (Decidable (∀ n < g.nrNodes, _ → _))

def nodeBudget (g : Graph) (y : Nat → Nat) (s : State) (n : Nat) : Nat :=
  (s.pc n).fuel g n + (y n - s.fired n) * jobCost g + if s.terminated n then 0 else prodCost g + 1

def budget (g : Graph) (y : Nat → Nat) (s : State) : Nat :=
  ∑ n ∈ Finset.range g.nrNodes, nodeBudget g y s n

section

variable {junk : Junk} {g : Graph} {s s' : State} {a : Act} {eff : Effect} {p : Pc} {n e : Nat}

theorem Graph.lt_of_in_at {i : Nat} (hi : (g.inEdges n)[i]? = some e) : i < 32 := by
  obtain ⟨hlt, -⟩ := List.getElem?_eq_some_iff.mp hi
  exact hlt.trans (g.inDegree n)

theorem Graph.lt_of_out_at {i : Nat} (hi : (g.outEdges n)[i]? = some e) :
    i < (g.outEdges n).length := (List.getElem?_eq_some_iff.mp hi).1

theorem send_le_prodCost (g : Graph) (n : Nat) :
    (ProdPc.send 0 []).fuel (g.outEdges n).length ≤ prodCost g := by
  have hle : (g.outEdges n).length ≤ g.edges.length := edgesWith_length_le _ _
  simp only [ProdPc.fuel, prodCost, List.length_nil]
  omega

/-! ## What a step costs -/

theorem WaitMove.fuel {ans : Answer} {w : WaitPc} (hcv : CvGraph g) (hi : WorkInv g s)
    (hpc : s.pc n = .wait w) (hm : WaitMove g s n ans w eff p) :
    p.fuel g n + 1 ≤ w.fuel + eff.gain g := by
  cases hm with
  | read l i r rn e he =>
    have hlt := Graph.lt_of_in_at he
    cases l <;> simp only [Pc.fuel, WaitPc.fuel, Effect.gain] <;> omega
  | consume ret i e he | consumePass ret i e he | skip ret i e he | skipPass ret i e he =>
    have hlt := Graph.lt_of_in_at he
    simp only [Pc.fuel, WaitPc.fuel, Effect.gain]
    omega
  | allReady l | someReady l | noneReady l | someTerm l | noTerm l | allTerm l | notAllTerm l =>
    cases l <;> simp only [granted, mustWait, if_true, if_false, Bool.false_eq_true, Pc.fuel,
      WaitPc.fuel, Effect.gain] <;> omega
  | recvStart tok r h | recvNone tok st h => exact absurd (hcv.nrInData n) h
  | recv tok r | recvDone tok st r => exact absurd hpc (hi.cv.ended.noRecv n tok r)
  | terminate i hend =>
    have hsend := send_le_prodCost g n
    simp only [Pc.fuel, WaitPc.fuel, Effect.gain, reduceCtorEq, false_and, if_false]
    omega
  | fire i hend =>
    simp only [Pc.fuel, WaitPc.fuel, Effect.gain]
    omega
  | fail i hend =>
    have hret := hi.base.loop n
    rw [hpc] at hret
    exact absurd rfl hret.2.2
  | _ =>
    simp only [Pc.fuel, WaitPc.fuel, Effect.gain]
    omega

theorem ProdMove.fuel {ans : Answer} {cmd : Command} {w err : Bool} {q : ProdPc} (hcv : CvGraph g)
    (hi : LoopInv g s) (hpc : s.pc n = .prod n cmd w err q)
    (hm : ProdMove g s n cmd w err ans q eff p) :
    p.fuel g n + 1 + eff.handed ≤ (s.pc n).fuel g n := by
  have hat := hi.term.place n n cmd w err q hpc
  have hloop := hi.loop n
  obtain ⟨hwrite, hring⟩ := hi.term.no_write hcv hpc
  rw [hpc] at hloop ⊢
  cases hm with
  | backedge i e' tw he | cvEdge i e' tw he =>
    have hlt := Graph.lt_of_out_at he
    simp only [Pc.fuel, ProdPc.fuel, Effect.handed]
    omega
  | ring i e' tw x he hc hd =>
    rw [hcv.not_ring (List.mem_of_getElem? he)] at hd
    cases hd
  | ringCmd i e' tw he hc hb hd =>
    rw [hcv.not_ring (List.mem_of_getElem? he)] at hd
    cases hd
  | message i e' tw x he hc hd =>
    rw [hcv.not_data (List.mem_of_getElem? he)] at hd
    cases hd
  | lastMessage i e' tw he hc hb hd =>
    rw [hcv.not_data (List.mem_of_getElem? he)] at hd
    cases hd
  | write i e' buf buf' tw => exact absurd rfl (hwrite i e' buf tw)
  | written i e' buf tw => exact absurd rfl (hwrite i e' buf tw)
  | ringWrite i e' x tw => exact absurd rfl (hring i e' x tw)
  | tokens i e' tw =>
    have hlt := Graph.lt_of_out_at hat
    have hlen : (if crosses g s e' then tw ++ [(g.edge e').consumer] else tw).length ≤
        tw.length + 1 := by
      split_ifs
      · simp
      · exact Nat.le_succ _
    simp only [Pc.fuel, ProdPc.fuel, Effect.handed]
    omega
  | termSignal i e' tw =>
    have hlt := Graph.lt_of_out_at hat
    simp only [Pc.fuel, ProdPc.fuel, Effect.handed, List.length_append, List.length_singleton]
    omega
  | done =>
    cases w with
    | true =>
      simp only [if_true, Pc.fuel, ProdPc.fuel, Effect.handed]
      omega
    | false =>
      simp only [Bool.false_eq_true, if_false, Pc.fuel, ProdPc.fuel, Effect.handed]
      by_cases hsrc : IsSrc g n
      · simp [hsrc]
      · -- a pass of `pgm_terminate` in the loop of another node is made by its wait
        have hcmd : cmd = .normal := by
          cases cmd with
          | normal => rfl
          | terminate => exact absurd (hloop.mpr ⟨rfl, hsrc⟩) (by decide)
        simp [hsrc, hcmd]
  | recheck c i r e' cs he =>
    have hlt := Graph.lt_of_in_at he
    simp only [Pc.fuel, ProdPc.fuel, Effect.handed]
    omega
  | lock c cs | lockTerm c cs =>
    simp only [Pc.fuel, ProdPc.fuel, Effect.handed, List.length_cons]
    omega
  | _ =>
    simp only [Pc.fuel, ProdPc.fuel, Effect.handed]
    omega

/-- **The cost of a step to its thread.** -/
theorem Move.fuel (hcv : CvGraph g) (ha : WorkThread g s a) (hi : WorkInv g s)
    (hm : Move g s a eff p) :
    p.fuel g a.thread + 1 + eff.handed ≤
      (s.pc a.thread).fuel g a.thread + eff.gain g + a.credit g := by
  cases hm with
  | callWait n last hpc =>
    obtain ⟨-, hsrc, htop⟩ := ha
    simp only [Act.thread, hpc] at htop ⊢
    cases last with
    | none => simp [Pc.fuel, WaitPc.fuel, Effect.handed, Effect.gain, Act.credit, hsrc]
    | some ret => cases htop
  | callComplete t n last hpc =>
    obtain ⟨rfl, -, -, hcase⟩ := ha
    have hsend := send_le_prodCost g t
    by_cases hsrc : IsSrc g t
    · obtain rfl := hi.base.source_idle hsrc hpc
      simp only [Act.thread, hpc, Pc.fuel, Effect.handed, Effect.gain, Act.credit, hsrc, if_true,
        not_true_eq_false, and_false, if_false]
      omega
    · obtain rfl := hi.base.hasJob hpc (hcase.resolve_left hsrc)
      simp only [Act.thread, hpc, Pc.fuel, Effect.handed, Effect.gain, Act.credit, hsrc, jobCost,
        if_false, not_false_eq_true, and_self, if_true]
      omega
  | callTerminate t n last hpc =>
    obtain ⟨rfl, -, -, hsrc⟩ := ha
    obtain rfl := hi.base.source_idle hsrc hpc
    have hsend := send_le_prodCost g t
    simp only [Act.thread, hpc, Pc.fuel, Effect.handed, Effect.gain, Act.credit, hsrc, if_true,
      reduceCtorEq, false_and, if_false]
    omega
  | wait t ans w eff p hpc hm =>
    have hcost := hm.fuel hcv hi hpc
    have hhand : eff.handed = 0 := by cases hm <;> rfl
    simp only [Act.thread, hpc, Act.credit]
    change _ ≤ w.fuel + _ + 0
    omega
  | prod t m ans cmd w err q eff p hpc hm =>
    obtain rfl : t = m := hi.base.term.owner t m cmd w err q hpc
    have hcost := hm.fuel hcv hi.base hpc
    simp only [Act.thread, Act.credit]
    omega
  | spurious t hpc =>
    simp [Act.thread, hpc, Pc.fuel, WaitPc.fuel, Effect.handed, Effect.gain, Act.credit]

/-! ## The budget of all threads -/

/-- A job and the end of a node are taken off what the node is still to do. -/
theorem gain_le {y : Nat → Nat} (honce : AtMostOnce s a) (hm : Move g s a eff p)
    (hy : ∀ n, eff = .fire n → s.fired n < y n) :
    (y a.thread - (s.apply g a.thread eff).fired a.thread) * jobCost g +
        (if (s.apply g a.thread eff).terminated a.thread then 0 else prodCost g + 1) + eff.gain g ≤
      (y a.thread - s.fired a.thread) * jobCost g +
        if s.terminated a.thread then 0 else prodCost g + 1 := by
  cases eff with
  | fire m =>
    obtain rfl := hm.fire_own
    have hlt := hy a.thread rfl
    have hsub : y a.thread - s.fired a.thread = y a.thread - (s.fired a.thread + 1) + 1 := by omega
    have hfired : (s.apply g a.thread (.fire a.thread)).fired a.thread = s.fired a.thread + 1 :=
      Function.update_self _ _ _
    rw [hfired, hsub, Nat.succ_mul]
    change _ + (if s.terminated a.thread then 0 else prodCost g + 1) + jobCost g ≤ _
    omega
  | terminate m =>
    obtain ⟨rfl, hterm, -⟩ := hm.terminates honce
    simp [State.apply, Effect.gain, hterm]
  | _ => exact Nat.le_refl _

/-- **One step of the budget.** -/
theorem step_budget {y : Nat → Nat} (hcv : CvGraph g) (ha : WorkThread g s a) (hi : WorkInv g s)
    (h : step g s a = some s') (hy : ∀ n, s.fired n < s'.fired n → s'.fired n ≤ y n) :
    budget g y s' + 1 ≤ budget g y s + a.credit g := by
  have honce := hi.base.atMostOnce ha
  obtain ⟨eff, p, hm, rfl⟩ := step_move h
  have hcost := hm.fuel hcv ha hi
  have hgain := gain_le (y := y) honce hm (by
    rintro n rfl
    have hone : (s.apply g a.thread (.fire n)).fired n = s.fired n + 1 := Function.update_self _ _ _
    have hle : (s.apply g a.thread (.fire n)).fired n ≤ y n :=
      hy n (hone.symm ▸ Nat.lt_succ_self _)
    omega)
  refine Budget.sum_step (c := eff.wakes) (z := eff.handed) (hm.work_lt ha hi.base) ?_ (fun n hn => ?_)
  · unfold nodeBudget
    rw [setPc_pc_self]
    change p.fuel g a.thread + (y a.thread - (s.apply g a.thread eff).fired a.thread) * jobCost g +
      (if (s.apply g a.thread eff).terminated a.thread then 0 else prodCost g + 1) + 1 +
        eff.handed ≤ _
    omega
  · have hfuel : (((s.apply g a.thread eff).setPc a.thread p).pc n).fuel g n ≤
        (s.pc n).fuel g n + if n = eff.wakes then eff.handed else 0 := by
      rcases pc_of_ne (g := g) (s := s) eff p hn with heq | ⟨rfl, hasleep, heq⟩
      · rw [heq]
        exact Nat.le_add_right _ _
      · simp [heq, hasleep, Pc.fuel, WaitPc.fuel, Effect.wakes, Effect.handed]
    unfold nodeBudget
    change _ + (y n - (s.apply g a.thread eff).fired n) * jobCost g +
      (if (s.apply g a.thread eff).terminated n then 0 else prodCost g + 1) ≤ _
    rw [fired_of_ne hm hn, apply_terminated honce hm hn]
    omega

/-! ## The bound -/

theorem Edge.need_unbounded (e : Edge) (b : Nat) : ∃ k, b < e.need k := by
  refine ⟨e.skips + (b + 1), ?_⟩
  have hle : b + 1 ≤ e.attr.nrConsume * (b + 1) :=
    Nat.le_mul_of_pos_left _ e.accepted.consume_pos
  rw [Edge.need, if_neg (by omega), Nat.add_sub_cancel_left]
  omega

/-- Without a cycle the producers of a node come before it. -/
theorem Acyclic.wellFounded (hac : Acyclic g) : WellFounded (Feeds g) := by
  rw [WellFounded.wellFounded_iff_has_min]
  rintro S ⟨n, hn⟩
  by_cases hlt : n < g.nrNodes
  · obtain ⟨m, -, hm, hmin⟩ := hac.exists_first (P := (· ∈ S)) ⟨n, hlt, hn⟩
    exact ⟨m, hm, fun x hx hf => hmin x hf hx⟩
  · refine ⟨n, hn, fun x _ hf => ?_⟩
    obtain ⟨e, he, -, -, rfl⟩ := hf
    exact hlt (g.ends e he).2

/-- There are firings after which nothing is left to do, when each source sends `J` times. -/
theorem exists_dead_firings (hac : Acyclic g) (hfed : Fed g) (J : Nat) :
    ∃ y τ : Nat → Nat, (firingNet g).Dead y τ ∧ ∀ e,
      (IsSrc g (g.edge e).producer → τ e = J) ∧
      (¬ IsSrc g (g.edge e).producer → τ e = y (g.edge e).producer) := by
  refine Net.exists_dead (N := firingNet g) hac.wellFounded (fun _ => J) (fun n hn => ?_)
  have hsource : ¬ Source g n := fun h => hn (hfed n (lt_of_not_src hn) h)
  unfold Source at hsource
  push Not at hsource
  obtain ⟨e, he, hforward⟩ := hsource
  exact ⟨e, he, feeds_of_mem he (Bool.eq_false_iff.mpr hforward), (g.edge e).need_unbounded⟩

theorem credit_sum (g : Graph) (as : List Act) :
    (as.map (Act.credit g)).sum =
      (prodCost g + 1) * as.countP (isSourceCall g) + 106 * as.countP isSpurious := by
  induction as with
  | nil => rfl
  | cons a as ih =>
    rw [List.map_cons, List.sum_cons, ih, List.countP_cons, List.countP_cons]
    cases a with
    | complete t n =>
      by_cases hsrc : IsSrc g n
      · simp [Act.credit, isSourceCall, isSpurious, hsrc, Nat.mul_succ]
        omega
      · simp [Act.credit, isSourceCall, isSpurious, hsrc]
    | spurious t =>
      simp [Act.credit, isSourceCall, isSpurious, Nat.mul_succ]
      omega
    | _ => simp [Act.credit, isSourceCall, isSpurious]

theorem sourceCall_le (g : Graph) (n : Nat) (a : Act) :
    sourceCall g n a ≤ if isSourceCall g a then 1 else 0 := by
  unfold sourceCall
  split_ifs with h hc
  · exact Nat.le_refl 1
  · obtain ⟨hsrc, rfl⟩ := h
    simp [isSourceCall, hsrc] at hc
  · exact Nat.zero_le _
  · exact Nat.zero_le _

theorem source_fired (hi : LoopInv g s) (hsrc : IsSrc g n) (hm : Move g s a eff p) :
    (s.apply g a.thread eff).fired n = s.fired n := by
  rcases fired_cases g s a.thread eff n with ⟨rfl, -⟩ | h
  · obtain ⟨i, hpc⟩ := hm.fires
    exact absurd hsrc (hi.inEdges_ne hpc)
  · exact h

/-- What the sources have sent, what they owe and their calls still to come are within `J`. -/
def SourcesWithin (junk : Junk) (g : Graph) (J : Nat) (s : State) (rest : List Act) : Prop :=
  Lts.Reach (step g) (WorkAct g) (initState junk g) s ∧
    ∀ n e, IsSrc g n → e ∈ g.outEdges n →
      s.sends e + (s.pc n).owed g e + rest.countP (isSourceCall g) ≤ J

theorem step_sourcesWithin {J : Nat} {rest : List Act} (hcv : CvGraph g) (ha : WorkAct g s a)
    (hi : SourcesWithin junk g J s (a :: rest)) (hs : step g s a = some s') :
    SourcesWithin junk g J s' rest := by
  obtain ⟨hreach, hsent⟩ := hi
  have hwork := (workInv_of_reach hcv hreach).base
  refine ⟨hreach.next ha hs, ?_⟩
  intro n e hsrc he
  have hold := hsent n e hsrc he
  have hstep := step_sends hcv ha.1 hwork he hs
  have hcall := sourceCall_le g n a
  rw [List.countP_cons] at hold
  have hfired : s'.fired n = s.fired n := by
    obtain ⟨eff, p, hmove, rfl⟩ := step_move hs
    exact source_fired hwork hsrc hmove
  omega

/-- **Coming to rest.** Let the forward edges of a cv graph have no cycle, and let every node with
in-edges have a forward one. Then for every number `J` there is a bound on the steps that all
threads of `pgmrt` together make in any run, whatever the schedule, in which the sources call
`pgm_complete` at most `J` times. A spurious wake-up adds at most 106 steps. -/
theorem comes_to_rest (hcv : CvGraph g) (hac : Acyclic g) (hfed : Fed g) (J : Nat) :
    ∃ B, ∀ as s, Lts.run (step g) (initState junk g) as = some s →
      Lts.Meets (step g) (WorkAct g) (initState junk g) as → as.countP (isSourceCall g) ≤ J →
      as.length ≤ B + 106 * as.countP isSpurious := by
  obtain ⟨y, τ, hdead, hτ⟩ := exists_dead_firings hac hfed J
  refine ⟨budget g y (initState junk g) + (prodCost g + 1) * J, fun as s hr hm hJ => ?_⟩
  have hstart : SourcesWithin junk g J (initState junk g) as := by
    refine ⟨Lts.Reach.refl _, fun n e hsrc he => ?_⟩
    change 0 + 0 + _ ≤ J
    omega
  have hlength : budget g y s + as.length ≤
      budget g y (initState junk g) + (as.map (Act.credit g)).sum := by
    refine Budget.run_length (I := SourcesWithin junk g J) ?_ hstart hr hm
    intro s a rest s' hi ha hs
    have hwork := workInv_of_reach hcv hi.1
    have hi' := step_sourcesWithin hcv ha hi hs
    refine ⟨hi', step_budget hcv ha.1 hwork hs (fun n hlt => ?_)⟩
    have hnode : ¬ IsSrc g n := by
      intro hsrc
      obtain ⟨eff, p, hmove, rfl⟩ := step_move hs
      have hsame := source_fired hwork.base hsrc hmove
      exact absurd hlt (by change ¬ _ < (s.apply g a.thread eff).fired n; omega)
    -- no node fires more often than the dead firings allow
    refine fired_le_dead hcv hi'.1 hdead (fun e _ hps => ((hτ e).2 hps).ge) (fun e he hps => ?_) hnode
    have hle := hi'.2 _ e hps (Graph.mem_outEdges.mpr ⟨he, rfl⟩)
    rw [(hτ e).1 hps]
    omega
  have hcredit : (as.map (Act.credit g)).sum ≤
      (prodCost g + 1) * J + 106 * as.countP isSpurious := by
    rw [credit_sum]
    exact Nat.add_le_add_right (Nat.mul_le_mul_left _ hJ) _
  omega

/-! ## The end -/

theorem step_run {t : Nat} (h : (threadStep g s t .go).isSome = true) :
    ∃ s', step g s (.run t .go) = some s' := by
  obtain ⟨x, hx⟩ := Option.isSome_iff_exists.mp h
  exact ⟨(s.apply g t x.1).setPc t x.2, by simp only [step, actStep, hx]; rfl⟩

theorem step_of_holds {t : Nat} (h : (s.pc t).holds t = some n) :
    ∃ s', step g s (.run t .go) = some s' := by
  apply step_run
  unfold threadStep
  cases hpc : s.pc t with
  | idle last =>
    rw [hpc] at h
    cases h
  | wait w =>
    rw [hpc] at h
    cases w with
    | scan l i r rn =>
      simp only [waitStep]
      split <;> rfl
    | termNonzero | termAll | cvWait | unlock => rfl
    | _ => cases h
  | prod m cmd w err q =>
    rw [hpc] at h
    cases q with
    | recheck c i r cs =>
      simp only [prodStep]
      split <;> rfl
    | signal | unlock => rfl
    | _ => cases h

/-- A lock that is taken keeps a graph from halting. -/
theorem Halted.free (hhalt : Halted g s) (hheld : HeldInv s) (n : Nat) : s.lock n = none := by
  cases hlock : s.lock n with
  | none => rfl
  | some t =>
    obtain ⟨s', hs'⟩ := step_of_holds (g := g) (hheld n t hlock)
    have hspurious := hhalt (.run t .go) s' trivial hs'
    cases hspurious

theorem Halted.no_step {t : Nat} (hhalt : Halted g s) : threadStep g s t .go = none := by
  by_contra hsome
  obtain ⟨s', hs'⟩ := step_run (Option.isSome_iff_ne_none.mpr hsome)
  have hspurious := hhalt (.run t .go) s' trivial hs'
  cases hspurious

theorem Halted.asleep (hcv : CvGraph g) (hi : CvInv g s) (hheld : HeldInv s)
    (hhalt : Halted g s) {w : WaitPc} (hpc : s.pc n = .wait w) : w = .asleep := by
  have hstep : threadStep g s n .go = none := hhalt.no_step
  have hfree := hhalt.free hheld n
  unfold threadStep at hstep
  rw [hpc] at hstep
  cases w with
  | asleep => rfl
  | start | termNonzero | termAll | cvWait | unlock | dataDone => cases hstep
  | scan l i r rn =>
    simp only [waitStep] at hstep
    split at hstep <;> cases hstep
  | lock | woken =>
    simp only [waitStep, hfree, if_true] at hstep
    cases hstep
  | tokensDone tok =>
    simp only [waitStep, hcv.nrInData n, if_true] at hstep
    cases hstep
  | recv tok r => exact absurd hpc (hi.ended.noRecv n tok r)
  | consume ret i =>
    simp only [waitStep] at hstep
    split at hstep <;> cases hstep
  | skips ret i =>
    simp only [waitStep] at hstep
    split at hstep <;> cases hstep

/-- In a halted graph no thread is inside `pgm_produce`. -/
theorem Halted.no_prod (hcv : CvGraph g) (hi : LoopInv g s) (hheld : HeldInv s)
    (hhalt : Halted g s) {cmd : Command} {w err : Bool} {q : ProdPc} :
    s.pc n ≠ .prod n cmd w err q := by
  intro hpc
  have hstep : threadStep g s n .go = none := hhalt.no_step
  obtain ⟨hwrite, hring⟩ := hi.term.no_write hcv hpc
  unfold threadStep at hstep
  rw [hpc] at hstep
  cases q with
  | send i tw =>
    simp only [prodStep] at hstep
    split at hstep
    · rename_i e he
      have hdata := hcv.not_data (List.mem_of_getElem? he)
      simp only [sendEdge, hdata, Bool.false_eq_true, if_false] at hstep
      split_ifs at hstep <;> cases hstep
    · cases hstep
  | write i e buf tw => exact hwrite i e buf tw rfl
  | ringWrite i e x tw => exact hring i e x tw rfl
  | tokens i e tw => cases cmd <;> cases hstep
  | wake todo =>
    cases todo with
    | nil => cases hstep
    | cons c cs =>
      simp only [prodStep, hhalt.free hheld c, if_true] at hstep
      cases hstep
  | recheck c i r cs =>
    simp only [prodStep] at hstep
    split at hstep <;> cases hstep
  | signal | unlock => cases hstep

/-- In a halted graph each thread has ended or is blocked. -/
theorem Halted.atRest (hcv : CvGraph g) (hi : WorkInv g s) (hheld : HeldInv s)
    (hhalt : Halted g s) (hn : n < g.nrNodes) : AtRest s n := by
  have hloop := hi.base.loop n
  cases hpc : s.pc n with
  | wait w =>
    right
    rw [hhalt.asleep hcv hi.cv hheld hpc] at hpc
    rw [hpc]
    rfl
  | prod m cmd w err q =>
    obtain rfl : n = m := hi.base.term.owner n m cmd w err q hpc
    exact absurd hpc (hhalt.no_prod hcv hi.base hheld)
  | idle last =>
    left
    rw [hpc] at hloop
    refine ⟨by rw [hpc]; rfl, ?_⟩
    by_contra hterm
    rw [Bool.not_eq_true] at hterm
    -- the thread would go on with its loop
    cases last with
    | none =>
      by_cases hsrc : IsSrc g n
      · have := hhalt (.terminate n n) _ ⟨rfl, hn, hterm, hsrc⟩ (by simp only [step, actStep, hpc]; rfl)
        cases this
      · have := hhalt (.wait n) _ ⟨hn, hsrc, by rw [hpc]; rfl⟩ (by simp only [step, actStep, hpc]; rfl)
        cases this
    | some ret =>
      cases ret with
      | ok =>
        have := hhalt (.complete n n) _ ⟨rfl, hn, hterm, Or.inr (by rw [hpc]; rfl)⟩
          (by simp only [step, actStep, hpc]; rfl)
        cases this
      | terminate =>
        rw [hloop.2] at hterm
        cases hterm
      | error => exact hloop

theorem WorkThread.lifecycle (hfed : Fed g) (hi : LoopInv g s) (ha : WorkThread g s a) :
    Lifecycle g s a := by
  cases a with
  | wait n =>
    obtain ⟨hn, hsrc, htop⟩ := ha
    refine ⟨hn, fun h => hsrc (hfed n hn h), ?_⟩
    have hloop := hi.loop n
    cases hpc : s.pc n with
    | idle last =>
      rw [hpc] at hloop htop
      cases last with
      | none => exact hloop hsrc
      | some ret => cases htop
    | _ => rw [hpc] at htop; cases htop
  | complete t n => exact ⟨ha.1, ha.2.1, ha.2.2.1⟩
  | terminate t n =>
    obtain ⟨ht, hn, hterm, hsrc⟩ := ha
    refine ⟨ht, hn, fun e he => ?_, hterm⟩
    rw [hsrc] at he
    cases he
  | run | spurious => trivial

theorem shutInv_of_work (hcv : CvGraph g) (hfed : Fed g)
    (h : Lts.Reach (step g) (WorkAct g) (initState junk g) s) : ShutInv g s ∧ HeldInv s :=
  Lts.Reach.inv (I := fun s => ShutInv g s ∧ HeldInv s)
    ⟨initState_shutInv junk g, initState_heldInv junk g⟩
    (fun _ _ _ hr hi hp hs =>
      ⟨step_shutInv (hp.1.lifecycle hfed (workInv_of_reach hcv hr).base) hi.1 hs,
        step_heldInv hi.2 hs⟩) h

theorem not_starved (htree : (g.inEdges n).length ≤ 1) : ¬ Starved g s n := by
  rintro ⟨-, -, ⟨e, he, -, hready⟩, ⟨e', he', -, hnot⟩⟩
  have heq : e = e' := by
    obtain ⟨i, hi, rfl⟩ := List.getElem_of_mem he
    obtain ⟨j, hj, rfl⟩ := List.getElem_of_mem he'
    congr 1
    omega
  rw [heq, hnot] at hready
  cases hready

/-- **Trees shut down.** Let no two edges of a cv graph without forward cycles lead to one node. The
threads of `pgmrt` can go on exactly as long as some node has not terminated: when nothing is left
but spurious wake-ups, every node has terminated and its thread is done. -/
theorem tree_shuts_down (hcv : CvGraph g) (hac : Acyclic g) (hfed : Fed g)
    (htree : ∀ n, (g.inEdges n).length ≤ 1)
    (h : Lts.Reach (step g) (WorkAct g) (initState junk g) s) :
    Halted g s ↔ ∀ n < g.nrNodes, Finished s n := by
  have hi := workInv_of_reach hcv h
  obtain ⟨hshut, hheld⟩ := shutInv_of_work hcv hfed h
  constructor
  · intro hhalt
    by_contra hnot
    push Not at hnot
    obtain ⟨n, -, -, hstarved⟩ := starved_of_stuck hcv hac hshut (work_wakeInv hcv h)
      ⟨fun n hn => hhalt.atRest hcv hi hheld hn, hnot⟩
    exact not_starved (htree n) hstarved
  · intro hfin a s' ha hs
    have hidle : ∀ t, ∃ last, s.pc t = .idle last := by
      intro t
      by_cases ht : t < g.nrNodes
      · have hp := (hfin t ht).1
        cases hpc : s.pc t with
        | idle last => exact ⟨last, rfl⟩
        | _ => rw [hpc] at hp; cases hp
      · have hp := hi.base.nodes t (Nat.le_of_not_lt ht)
        cases hpc : s.pc t with
        | idle last => exact ⟨last, rfl⟩
        | _ => rw [hpc] at hp; cases hp
    cases a with
    | wait n => exact absurd (hfin n ha.1).2 (by rw [(ha.lifecycle hfed hi.base).2.2]; decide)
    | complete t n => exact absurd (hfin n ha.2.1).2 (by rw [ha.2.2.1]; decide)
    | terminate t n => exact absurd (hfin n ha.2.1).2 (by rw [ha.2.2.1]; decide)
    | run t ans =>
      obtain ⟨last, hpc⟩ := hidle t
      simp [step, actStep, threadStep, hpc] at hs
    | spurious t => rfl

end

/-! ## A line runs to its end -/

/-- One token goes down the line, and both threads end. -/
def lineWork : List Act :=
  List.flatten [[.complete 0 0], runs 0 9, [.wait 1], runs 1 9, [.complete 1 1], runs 1 2,
    [.terminate 0 0], runs 0 7, [.wait 1], runs 1 11]

theorem line_run : (Lts.drive (step .line) (fun s a => decide (WorkAct .line s a))
    (initState zeroed Graph.line) lineWork).map (fun s => decide (Finished s 0 ∧ Finished s 1)) =
      some true := by decide +kernel

/-- The run of the line is one of those that the bound is for. -/
theorem line_bounded :
    ∃ B s, Lts.run (step .line) (initState zeroed .line) lineWork = some s ∧
      lineWork.countP (isSourceCall .line) = 1 ∧ lineWork.length = 43 ∧
      lineWork.length ≤ B + 106 * lineWork.countP isSpurious := by
  obtain ⟨B, hB⟩ := comes_to_rest (g := .line) (by decide) (acyclic_of_lt (by decide)) (by decide) 1
  obtain ⟨s, hs, -⟩ := Option.map_eq_some_iff.mp line_run
  obtain ⟨hr, hm⟩ := Lts.run_of_drive (P := WorkAct .line) (fun s a h => of_decide_eq_true h) hs
  exact ⟨B, s, hr, by decide, by decide, hB lineWork s hr hm (by decide)⟩

def lineLeft : List Act := List.flatten [[.wait 1], runs 1 9, [.terminate 0 0], runs 0 7]

/-- While only the source has ended something is left to do, and then the line comes to its end. -/
theorem line_halts : ∃ s t,
    Lts.Reach (step .line) (WorkAct .line) (initState zeroed .line) s ∧ Finished s 0 ∧
      (∃ a s', WorkThread .line s a ∧ step .line s a = some s' ∧ isSpurious a = false) ∧
    Lts.Reach (step .line) (WorkAct .line) (initState zeroed .line) t ∧ Halted .line t := by
  have hedges : ∀ n, (Graph.line.inEdges n).length ≤ 1 := fun n => edgesWith_length_le _ _
  have hd : (Lts.drive (step .line) (fun s a => decide (WorkAct .line s a))
      (initState zeroed Graph.line) lineLeft).map
        (fun s => decide (Finished s 0 ∧ ¬ Finished s 1)) = some true := by decide +kernel
  obtain ⟨s, hs, hobs⟩ := Lts.reach_of_drive_map (fun s a h => of_decide_eq_true h) hd
  obtain ⟨hfin, hnot⟩ := of_decide_eq_true hobs
  obtain ⟨t, ht, hend⟩ := Lts.reach_of_drive_map (fun s a h => of_decide_eq_true h) line_run
  obtain ⟨hfin₀, hfin₁⟩ := of_decide_eq_true hend
  refine ⟨s, t, hs, hfin, ?_, ht, ?_⟩
  · by_contra hno
    push Not at hno
    exact hnot ((tree_shuts_down (by decide) (acyclic_of_lt (by decide)) (by decide) hedges hs).mp
      (fun a s' ha hs' => by simpa using hno a s' ha hs') 1 (by decide))
  · refine (tree_shuts_down (by decide) (acyclic_of_lt (by decide)) (by decide) hedges ht).mpr
      (fun n hn => ?_)
    rcases Nat.lt_succ_iff_lt_or_eq.mp hn with hlt | rfl
    · obtain rfl : n = 0 := Nat.lt_one_iff.mp hlt
      exact hfin₀
    · exact hfin₁

end Pgm
