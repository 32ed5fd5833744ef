import Pgm.Ledger
import Pgm.Shutdown

/-! The threads of `pgmrt`. Each node is run by one `work_thread`: a source completes and at last
terminates, every other node waits, does its job and completes until its wait returns
`PGM_TERMINATE`. In a graph of cv edges these threads keep a ledger even while nodes terminate:

* `step_workInv`: where each thread is in its loop, and the accounts of all edges whose consumer
  has not begun to terminate;
* `step_sends`: a node that is not a source sends its tokens once for each job, and a source once
  for each call of `pgm_complete`. -/

namespace Pgm

open Function (update)

/-- `isSrc` in a graph that `pgmrt` builds: there are no back edges in it. The `pgm_get_degree_in` of
`work_thread` leaves back edges out, so that a node with nothing else would not wait for them. -/
def IsSrc (g : Graph) (n : Nat) : Prop := g.inEdges n = []

instance (g : Graph) (n : Nat) : Decidable (IsSrc g n) :=
  inferInstanceAs (Decidable (g.inEdges n = []))

/-- At the top of the loop of `work_thread`. -/
def Pc.atTop : Pc → Bool
  | .idle none => true
  | _ => false

/-- `pgm_wait` returned and `ret != PGM_TERMINATE`. -/
def Pc.hasJob : Pc → Bool
  | .idle (some .ok) | .idle (some .error) => true
  | _ => false

/-- The calls of `work_thread`. When a source is to stop is up to `job`. -/
def WorkThread (g : Graph) (s : State) : Act → Prop
  | .wait n => n < g.nrNodes ∧ ¬ IsSrc g n ∧ (s.pc n).atTop = true
  | .complete t n => t = n ∧ n < g.nrNodes ∧ s.terminated n = false ∧
      (IsSrc g n ∨ (s.pc n).hasJob = true)
  | .terminate t n => t = n ∧ n < g.nrNodes ∧ s.terminated n = false ∧ IsSrc g n
  | .run _ _ | .spurious _ => True

instance (g : Graph) (s : State) : (a : Act) → Decidable (WorkThread g s a)
  | .wait n => inferInstanceAs (Decidable (n < g.nrNodes ∧ ¬ IsSrc g n ∧ (s.pc n).atTop = true))
  | .complete t n => inferInstanceAs (Decidable (t = n ∧ n < g.nrNodes ∧ s.terminated n = false ∧
      (IsSrc g n ∨ (s.pc n).hasJob = true)))
  | .terminate t n => inferInstanceAs
      (Decidable (t = n ∧ n < g.nrNodes ∧ s.terminated n = false ∧ IsSrc g n))
  | .run _ _ | .spurious _ => inferInstanceAs (Decidable True)

/-- The threads of `pgmrt`, with totals below `2 ^ 64`. -/
def WorkAct (g : Graph) (s : State) (a : Act) : Prop := WorkThread g s a ∧ TotalsBelow g s a

instance (g : Graph) (s : State) (a : Act) : Decidable (WorkAct g s a) :=
  inferInstanceAs (Decidable (_ ∧ _))

def WaitPc.Returns : WaitPc → Prop
  | .consume ret _ => ret = .ok
  | .skips ret _ => ret ≠ .error
  | _ => True

/-- Where the thread of a node can be, when `src` says whether the node is a source and `term`
whether it has terminated. -/
def Pc.Loop (src : Prop) (term : Bool) : Pc → Prop
  | .idle none => ¬ src → term = false
  | .idle (some .ok) => ¬ src ∧ term = false
  | .idle (some .error) => False
  | .idle (some .terminate) => ¬ src ∧ term = true
  | .wait w => ¬ src ∧ term = false ∧ w.Returns
  | .prod _ cmd inWait _ _ => inWait = true ↔ cmd = .terminate ∧ ¬ src

/-- The running wait returns 0 or `PGM_TERMINATE`, as its token side has it. -/
def Decided (s : State) : Act → Prop
  | .run t _ => ∀ tok dat, s.pc t = .wait (.dataDone tok dat) →
      tok = .success ∧ waitRet tok dat = .ok ∨
        tok = .exhaustedAndTerminate ∧ waitRet tok dat = .terminate
  | _ => True

structure LoopInv (g : Graph) (s : State) : Prop where
  term : TermInv g s
  nodes : ∀ t, g.nrNodes ≤ t → (s.pc t).atTop = true
  loop : ∀ n, (s.pc n).Loop (IsSrc g n) (s.terminated n)

/-- The node has terminated, or its wait is about to terminate it. -/
def Leaving (s : State) (n : Nat) : Prop := s.terminated n = true ∨ (s.pc n).ending = true

/-- 1 when the node owes its tokens on edge `e` for a job or a call of `pgm_complete`. -/
def Pc.owed (g : Graph) (e : Nat) : Pc → Nat
  | .idle (some .ok) => 1
  | .prod n .normal _ _ q => if e ∈ q.unsent g n then 1 else 0
  | _ => 0

def sourceCall (g : Graph) (n : Nat) (a : Act) : Nat :=
  if IsSrc g n ∧ a = .complete n n then 1 else 0

section

variable {junk : Junk} {g : Graph} {s s' : State} {a : Act} {eff : Effect} {p : Pc} {n e j : Nat}

/-! ## The loop -/

theorem Pc.Loop.terminating {src : Prop} {term : Bool} {p : Pc} (h : p.Loop src term)
    (hp : p.ending = true) : term = false := by
  cases p with
  | wait w => exact h.2.1
  | _ => cases hp

theorem LoopInv.atMostOnce (hi : LoopInv g s) (ha : WorkThread g s a) : AtMostOnce s a := by
  cases a with
  | wait n => trivial
  | complete t n => exact ⟨ha.1, ha.2.2.1⟩
  | terminate t n => exact ⟨ha.1, ha.2.2.1⟩
  | run t ans => exact (hi.loop t).terminating
  | spurious t => trivial

theorem WaitMove.loop {ans : Answer} {w : WaitPc} (hi : LoopInv g s)
    (hdec : Decided s (.run n ans)) (hpc : s.pc n = .wait w) (hm : WaitMove g s n ans w eff p) :
    p.Loop (IsSrc g n) ((s.apply g n eff).terminated n) := by
  have hold := hi.loop n
  rw [hpc] at hold
  obtain ⟨hsrc, hterm, hret⟩ := hold
  cases hm with
  | toConsume tok dat h hr =>
    rcases hdec tok dat hpc with ⟨-, hok⟩ | ⟨-, hend⟩
    · exact ⟨hsrc, hterm, hok⟩
    · exact absurd hend hr
  | toSkips tok dat h =>
    refine ⟨hsrc, hterm, ?_⟩
    rcases hdec tok dat hpc with ⟨-, hok⟩ | ⟨-, hend⟩
    · simp [WaitPc.Returns, hok]
    · simp [WaitPc.Returns, hend]
  | consume | consumePass | skip | skipPass => exact ⟨hsrc, hterm, hret⟩
  | consumed ret i hend =>
    have hok : ret = .ok := hret
    subst hok
    exact ⟨hsrc, hterm, by simp [WaitPc.Returns]⟩
  | terminate i hend => exact ⟨fun _ => ⟨rfl, hsrc⟩, fun _ => rfl⟩
  | fire i hend => exact ⟨hsrc, hterm⟩
  | fail i hend => exact absurd rfl hret
  | allReady l | someReady l | noTerm l | allTerm l | notAllTerm l =>
    cases l <;> exact ⟨hsrc, hterm, trivial⟩
  | _ => exact ⟨hsrc, hterm, trivial⟩

theorem ProdMove.loop {ans : Answer} {cmd : Command} {w err : Bool} {q : ProdPc}
    (hi : LoopInv g s) (hpc : s.pc n = .prod n cmd w err q)
    (hm : ProdMove g s n cmd w err ans q eff p) :
    p.Loop (IsSrc g n) ((s.apply g n eff).terminated n) := by
  have hold := hi.loop n
  rw [hpc] at hold
  have hcmd := hi.term.command n cmd w err q hpc
  cases hm with
  | done =>
    cases w with
    | true =>
      obtain ⟨hc, hsrc⟩ := hold.mp rfl
      exact ⟨hsrc, hcmd.mpr hc⟩
    | false =>
      intro hsrc
      by_contra hterm
      rw [Bool.not_eq_false] at hterm
      exact absurd (hold.mpr ⟨hcmd.mp hterm, hsrc⟩) (by decide)
  | _ => exact hold

theorem Move.loop (ha : WorkThread g s a) (hdec : Decided s a) (hi : LoopInv g s)
    (hm : Move g s a eff p) :
    p.Loop (IsSrc g a.thread) ((s.apply g a.thread eff).terminated a.thread) := by
  cases hm with
  | callWait n last hpc =>
    obtain ⟨-, hsrc, htop⟩ := ha
    have hold := hi.loop n
    rw [hpc] at hold htop
    cases last with
    | none => exact ⟨hsrc, hold hsrc, trivial⟩
    | some ret => cases htop
  | callComplete t n last hpc => simp [Pc.Loop]
  | callTerminate t n last hpc =>
    obtain ⟨rfl, -, -, hsrc⟩ := ha
    simp [Pc.Loop, Act.thread, hsrc]
  | wait t ans w eff p hpc hm => exact hm.loop hi hdec hpc
  | prod t m ans cmd w err q eff p hpc hm =>
    obtain rfl : t = m := hi.term.owner t m cmd w err q hpc
    exact hm.loop hi hpc
  | spurious t hpc =>
    have hold := hi.loop t
    rw [hpc] at hold
    exact hold

/-- Only the threads of the nodes run. -/
theorem Move.work_lt (ha : WorkThread g s a) (hi : LoopInv g s) (hm : Move g s a eff p) :
    a.thread < g.nrNodes := by
  have hbusy : ∀ t, (s.pc t).atTop = false → t < g.nrNodes := by
    intro t ht
    by_contra hle
    rw [hi.nodes t (Nat.le_of_not_lt hle)] at ht
    cases ht
  cases hm with
  | callWait n last hpc => exact ha.1
  | callComplete t n last hpc | callTerminate t n last hpc =>
    obtain ⟨rfl, hlt, -⟩ := ha
    exact hlt
  | wait t ans w eff p hpc hm => exact hbusy t (by rw [hpc]; rfl)
  | prod t m ans cmd w err q eff p hpc hm => exact hbusy t (by rw [hpc]; rfl)
  | spurious t hpc => exact hbusy t (by rw [hpc]; rfl)

theorem step_loopInv (ha : WorkThread g s a) (hdec : Decided s a) (hi : LoopInv g s)
    (h : step g s a = some s') : LoopInv g s' := by
  have honce := hi.atMostOnce ha
  have hterm := step_termInv honce hi.term h
  obtain ⟨eff, p, hm, rfl⟩ := step_move h
  have hothers : ∀ t, t ≠ a.thread → s.pc t = .wait .asleep ∧
      ((s.apply g a.thread eff).setPc a.thread p).pc t = .wait .woken ∨
      ((s.apply g a.thread eff).setPc a.thread p).pc t = s.pc t := by
    intro t ht
    rcases pc_of_ne (g := g) (s := s) eff p ht with heq | ⟨-, hold, heq⟩
    · exact Or.inr heq
    · exact Or.inl ⟨hold, heq⟩
  refine ⟨hterm, fun t ht => ?_, fun n => ?_⟩
  · have hne : t ≠ a.thread := by
      have := hm.work_lt ha hi
      omega
    have hold := hi.nodes t ht
    rcases hothers t hne with ⟨hasleep, -⟩ | heq
    · rw [hasleep] at hold
      cases hold
    · rw [heq]
      exact hold
  · by_cases hn : n = a.thread
    · subst hn
      rw [setPc_pc_self]
      exact hm.loop ha hdec hi
    · have hold := hi.loop n
      change Pc.Loop _ ((s.apply g a.thread eff).terminated n) _
      rw [apply_terminated honce hm hn]
      rcases hothers n hn with ⟨hasleep, heq⟩ | heq
      · rw [hasleep] at hold
        rw [heq]
        exact hold
      · rw [heq]
        exact hold

theorem initState_loopInv (junk : Junk) (g : Graph) : LoopInv g (initState junk g) :=
  ⟨initState_termInv junk g, fun _ _ => rfl, fun _ _ => rfl⟩

/-! ## The accounts -/

/-- In a cv graph the data side has nothing to say. -/
theorem CvInv.decided (hi : CvInv g s) : Decided s a := by
  cases a with
  | run t ans =>
    intro tok dat hpc
    rw [hi.ended.dataDone t tok dat hpc]
    rcases (hi.ready t).status _ tok hpc rfl with rfl | rfl
    · exact Or.inl ⟨rfl, rfl⟩
    · exact Or.inr ⟨rfl, rfl⟩
  | _ => trivial

theorem LoopInv.inEdges_ne {w : WaitPc} (hi : LoopInv g s) (hpc : s.pc n = .wait w) :
    g.inEdges n ≠ [] := by
  have hold := hi.loop n
  rw [hpc] at hold
  exact hold.1

/-- A step of a wait on the account of an in-edge, unless it begins to terminate the node. -/
theorem ledger_wait {ans : Answer} {w : WaitPc} (hcv : CvGraph g) (hi : LoopInv g s)
    (hinv : CvInv g s) (hready : ReadyInv g (·.attr.nrThreshold) s n) (hpc : s.pc n = .wait w)
    (hm : WaitMove g s n ans w eff p) (he : (g.inEdges n)[j]? = some e)
    (hopen : ¬ Leaving ((s.apply g n eff).setPc n p) n) (hold : EdgeLedger g s n j e) :
    EdgeLedger g ((s.apply g n eff).setPc n p) n j e := by
  have hin := hcv.nrInSignaled_ne (hi.inEdges_ne hpc)
  by_cases hplain : w.Plain
  · exact ledger_own hcv hpc ⟨hin, hplain⟩ hready hm he hold
  · have hret := hi.loop n
    rw [hpc] at hret
    have hquiet : eff = .skip ∨ eff = .release n → p.consumed j = 0 ∧ p.skipped j = 0 →
        (s.pc n).consumed j = 0 ∧ (s.pc n).skipped j = 0 →
        EdgeLedger g ((s.apply g n eff).setPc n p) n j e := by
      intro heff hnew hwas
      rcases heff with rfl | rfl <;>
        exact ledger_quiet hold hwas hnew (by simp) (by simp) (by simp) (by simp)
    have hend : p.ending = true → EdgeLedger g ((s.apply g n eff).setPc n p) n j e := by
      intro hp
      refine absurd (Or.inr ?_) hopen
      rw [setPc_pc_self]
      exact hp
    cases hm with
    | allTerm l | notAllTerm l =>
      apply hquiet (Or.inl rfl) _ (by rw [hpc]; exact ⟨rfl, rfl⟩)
      cases l <;> exact ⟨rfl, rfl⟩
    | unlock st => exact hquiet (Or.inr rfl) ⟨rfl, rfl⟩ (by rw [hpc]; exact ⟨rfl, rfl⟩)
    | noData tok h => exact hquiet (Or.inl rfl) ⟨rfl, rfl⟩ (by rw [hpc]; exact ⟨rfl, rfl⟩)
    | recvStart tok r h | recvNone tok st h => exact absurd (hcv.nrInData n) h
    | recv tok r | recvDone tok st r => exact absurd hpc (hinv.ended.noRecv n tok r)
    | toConsume tok dat h hr =>
      exact hquiet (Or.inl rfl) ⟨rfl, rfl⟩ (by rw [hpc]; exact ⟨rfl, rfl⟩)
    | toSkips tok dat h =>
      rcases hinv.decided (a := .run n ans) tok dat hpc with ⟨-, hok⟩ | ⟨-, hterm⟩
      · exact absurd ⟨hin, by rw [hok]; decide⟩ h
      · exact hend (by rw [hterm]; rfl)
    | consume ret | consumePass ret | consumed ret => exact absurd hret.2.2 hplain
    | skip ret i | skipPass ret i =>
      cases ret with
      | ok => exact absurd rfl hplain
      | terminate => exact hend rfl
      | error => exact absurd rfl hret.2.2
    | terminate i => exact absurd (Or.inl (by simp [State.apply, State.setPc])) hopen
    | fire i => exact absurd rfl hplain
    | fail i => exact absurd rfl hret.2.2
    | _ => exact absurd trivial hplain

/-- All that holds of a graph run by the threads of `pgmrt`. -/
structure WorkInv (g : Graph) (s : State) : Prop where
  base : LoopInv g s
  cv : CvInv g s
  ready : ∀ n, ReadyInv g (·.attr.nrThreshold) s n
  edges : ∀ n j e, (g.inEdges n)[j]? = some e → ¬ Leaving s n → EdgeLedger g s n j e

theorem Move.leaving (hm : Move g s a eff p) (h : Leaving s n) :
    Leaving ((s.apply g a.thread eff).setPc a.thread p) n := by
  rcases h with hterm | hend
  · exact Or.inl (terminated_mono hterm)
  · by_cases hn : n = a.thread
    · subst hn
      cases hm with
      | wait t ans w eff p hpc hm =>
        simp only [Act.thread, hpc] at hend
        cases hm with
        | skip ret | skipPass ret =>
          right
          rw [setPc_pc_self]
          cases ret <;> first | rfl | cases hend
        | terminate i => exact Or.inl (by simp [State.apply, State.setPc, Act.thread])
        | _ => cases hend
      | callWait n last hpc | callComplete t n last hpc | callTerminate t n last hpc
      | prod t n ans cmd w err q eff p hpc hm | spurious t hpc =>
        simp only [Act.thread, hpc] at hend
        cases hend
    · rcases pc_of_ne (g := g) (s := s) eff p hn with heq | ⟨-, hasleep, -⟩
      · exact Or.inr (heq ▸ hend)
      · rw [hasleep] at hend
        cases hend

/-- **One step of the threads.** -/
theorem step_workInv (hcv : CvGraph g) (ha : WorkAct g s a) (hi : WorkInv g s)
    (h : step g s a = some s') : WorkInv g s' := by
  have hno := hi.cv.noOverflow ha.2
  refine ⟨step_loopInv ha.1 hi.cv.decided hi.base h, step_cvInv hcv ha.2 hi.cv h,
    step_readyInv (fun e => le_rfl) hno hi.cv.ended.tested hi.ready h, fun n j e he hopen => ?_⟩
  obtain ⟨eff, p, hm, rfl⟩ := step_move h
  have hedge := hi.edges n j e he (fun hc => hopen (hm.leaving hc))
  by_cases hn : n = a.thread
  · subst hn
    have hno' : eff = .addTokens e → s.nrPending e + (g.edge e).attr.nrProduce < 2 ^ 64 := by
      rintro rfl
      exact hno e hm.sendsOn
    cases hm with
    | wait t ans w eff p hpc hm => exact ledger_wait hcv hi.base hi.cv (hi.ready t) hpc hm he hopen hedge
    | prod t m ans cmd w err q eff p hpc hm =>
      refine ledger_quiet hedge (by simp only [Act.thread, hpc]; exact ⟨rfl, rfl⟩) ?_ ?_ ?_ ?_ hno'
      all_goals cases hm <;> first | exact ⟨rfl, rfl⟩ | simp
    | callWait n last hpc | callComplete t n last hpc | callTerminate t n last hpc
    | spurious t hpc =>
      exact ledger_quiet hedge (by simp only [Act.thread, hpc]; exact ⟨rfl, rfl⟩) ⟨rfl, rfl⟩
        (by simp) (by simp) (by simp) hno'
  · exact ledger_foreign hno hm hn he hedge

theorem initState_workInv (junk : Junk) (g : Graph) : WorkInv g (initState junk g) := by
  refine ⟨initState_loopInv junk g, initState_cvInv junk g, initState_readyInv junk g _,
    fun n j e _ _ => ⟨?_, ?_⟩⟩
  · simp [initState, Pc.consumed]
  · simp [initState, Pc.skipped]

theorem workInv_of_reach (hcv : CvGraph g) (h : Lts.Reach (step g) (WorkAct g) (initState junk g) s) :
    WorkInv g s :=
  Lts.Reach.inv (I := WorkInv g) (initState_workInv junk g)
    (fun _ _ _ _ hi hp hs => step_workInv hcv hp hi hs) h

/-! ## The sends -/

theorem CvGraph.not_data (hcv : CvGraph g) (he : e ∈ g.outEdges n) :
    (g.edge e).isDataPassing = false := by
  rw [Edge.isDataPassing, hcv.edge (Graph.mem_in_of_mem_out he)]
  rfl

theorem CvGraph.not_ring (hcv : CvGraph g) (he : e ∈ g.outEdges n) :
    (g.edge e).attr.type.isRing = false := by
  rw [hcv.edge (Graph.mem_in_of_mem_out he)]
  rfl

/-- In a cv graph `pgm_produce` comes from an edge straight to its atomic add. -/
theorem TermInv.no_write (hi : TermInv g s) (hcv : CvGraph g) {cmd : Command} {w err : Bool}
    {q : ProdPc} (hpc : s.pc n = .prod n cmd w err q) :
    (∀ i e buf tw, q ≠ .write i e buf tw) ∧ ∀ i e x tw, q ≠ .ringWrite i e x tw := by
  have hat := hi.place n n cmd w err q hpc
  have hsends := hi.sends n cmd w err q hpc
  constructor
  · rintro i e buf tw rfl
    exact absurd (hcv.not_data (List.mem_of_getElem? hat)) (by rw [hsends.2.1]; decide)
  · rintro i e x tw rfl
    exact absurd (hcv.not_ring (List.mem_of_getElem? hat)) (by rw [hsends.2]; decide)

theorem ProdMove.owed {ans : Answer} {cmd : Command} {w err : Bool} {q : ProdPc} (hcv : CvGraph g)
    (hi : TermInv g s) (hpc : s.pc n = .prod n cmd w err q)
    (hm : ProdMove g s n cmd w err ans q eff p) :
    (s.apply g n eff).sends e + p.owed g e = s.sends e + (s.pc n).owed g e := by
  have hat := hi.place n n cmd w err q hpc
  obtain ⟨hwrite, hring⟩ := hi.no_write hcv hpc
  rw [hpc]
  cases hm with
  | sent i tw hi => cases cmd <;> simp [State.apply, Pc.owed, ProdPc.unsent, Scan.drop_of_end hi]
  | backedge i e' tw hi hc =>
    subst hc
    rfl
  | ring i e' tw x hi hc hd =>
    rw [hcv.not_ring (List.mem_of_getElem? hi)] at hd
    cases hd
  | message i e' tw x hi hc hd =>
    rw [hcv.not_data (List.mem_of_getElem? hi)] at hd
    cases hd
  | ringCmd i e' tw hi hc | lastMessage i e' tw hi hc =>
    subst hc
    rfl
  | write i e' buf buf' tw => exact absurd rfl (hwrite i e' buf tw)
  | written i e' buf tw => exact absurd rfl (hwrite i e' buf tw)
  | ringWrite i e' x tw => exact absurd rfl (hring i e' x tw)
  | tokens i e' tw hc =>
    subst hc
    have hnot := Scan.not_mem_drop_succ (g.outEdges_nodup n) hat
    by_cases hee : e = e'
    · subst hee
      simp [State.apply, Pc.owed, ProdPc.unsent, Scan.mem_drop_iff hat, hnot]
    · by_cases hmem : e ∈ (g.outEdges n).drop (i + 1) <;>
        simp [State.apply, Pc.owed, ProdPc.unsent, Scan.mem_drop_iff hat, hee, hmem]
  | termSignal i e' tw hc =>
    subst hc
    rfl
  | done => cases cmd <;> cases w <;> rfl
  | _ => cases cmd <;> rfl

theorem Move.addTokens_out (hi : TermInv g s) (hm : Move g s a (.addTokens e) p) :
    e ∈ g.outEdges a.thread := by
  cases hm with
  | prod t m ans cmd w err q eff p hpc hm =>
    obtain rfl : t = m := hi.owner t m cmd w err q hpc
    cases hm with
    | tokens i e tw hc => exact List.mem_of_getElem? (hi.place t t cmd w err _ hpc)
  | wait t ans w eff p hpc hm => cases hm

theorem sends_of_ne (hi : TermInv g s) (hm : Move g s a eff p)
    (hp : (g.edge e).producer ≠ a.thread) : (s.apply g a.thread eff).sends e = s.sends e := by
  cases eff with
  | addTokens e' =>
    have hne : e ≠ e' := by
      rintro rfl
      exact hp (Graph.mem_outEdges.mp (hm.addTokens_out hi)).2
    simp [State.apply, hne]
  | _ => rfl

theorem fired_of_ne (hm : Move g s a eff p) (hn : n ≠ a.thread) :
    (s.apply g a.thread eff).fired n = s.fired n := by
  cases eff with
  | fire n' =>
    have hne : n ≠ n' := by
      rintro rfl
      exact hn hm.fire_own
    simp [State.apply, hne]
  | _ => rfl

theorem LoopInv.source_idle {last : Option WaitRet} (hi : LoopInv g s) (hsrc : IsSrc g n)
    (hpc : s.pc n = .idle last) : last = none := by
  have hold := hi.loop n
  rw [hpc] at hold
  cases last with
  | none => rfl
  | some ret =>
    cases ret with
    | ok | terminate => exact absurd hsrc hold.1
    | error => exact absurd hold id

/-- The thread of another node that has a job has had a wait return 0. -/
theorem LoopInv.hasJob {last : Option WaitRet} (hi : LoopInv g s) (hpc : s.pc n = .idle last)
    (hjob : (s.pc n).hasJob = true) : last = some .ok := by
  have hold := hi.loop n
  rw [hpc] at hold hjob
  cases last with
  | none => cases hjob
  | some ret =>
    cases ret with
    | ok => rfl
    | terminate => cases hjob
    | error => exact absurd hold id

/-- What the thread of a node does to the tokens it owes on an out-edge. -/
theorem Move.owed (hcv : CvGraph g) (ha : WorkThread g s a) (hi : LoopInv g s)
    (hm : Move g s a eff p) (he : e ∈ g.outEdges a.thread) :
    (s.apply g a.thread eff).sends e + p.owed g e + s.fired a.thread =
      s.sends e + (s.pc a.thread).owed g e + (s.apply g a.thread eff).fired a.thread +
        sourceCall g a.thread a := by
  cases hm with
  | callWait n last hpc =>
    have htop := ha.2.2
    simp only [Act.thread, hpc] at htop ⊢
    cases last with
    | none => simp [State.apply, Pc.owed, sourceCall]
    | some ret => cases htop
  | callComplete t n last hpc =>
    obtain ⟨rfl, -, -, hcase⟩ := ha
    simp only [Act.thread] at he ⊢
    by_cases hsrc : IsSrc g t
    · obtain rfl := hi.source_idle hsrc hpc
      simp only [State.apply, Pc.owed, ProdPc.unsent, List.drop_zero, sourceCall, hpc, hsrc, he,
        if_true, and_self]
      omega
    · obtain rfl := hi.hasJob hpc (hcase.resolve_left hsrc)
      simp [State.apply, Pc.owed, ProdPc.unsent, sourceCall, hpc, hsrc, he]
  | callTerminate t n last hpc =>
    obtain ⟨rfl, -, -, hsrc⟩ := ha
    obtain rfl := hi.source_idle hsrc hpc
    simp [State.apply, Pc.owed, sourceCall, Act.thread, hpc]
  | wait t ans w eff p hpc hm =>
    simp only [Act.thread, hpc]
    cases hm with
    | fire i hend => simp [State.apply, Pc.owed, sourceCall]; omega
    | _ => simp [State.apply, Pc.owed, sourceCall]
  | prod t m ans cmd w err q eff p hpc hm =>
    obtain rfl : t = m := hi.term.owner t m cmd w err q hpc
    have howed := hm.owed (e := e) hcv hi.term hpc
    have hfired : (s.apply g t eff).fired t = s.fired t := by cases hm <;> rfl
    simp only [Act.thread, sourceCall]
    rw [hfired, howed]
    simp
  | spurious t hpc => simp [State.apply, Pc.owed, sourceCall, Act.thread, hpc]

/-- **One step of the sends.** A node that is not a source sends once for each wait that has
returned 0, and a source once for each call of `pgm_complete`. -/
theorem step_sends (hcv : CvGraph g) (ha : WorkThread g s a) (hi : LoopInv g s)
    (he : e ∈ g.outEdges n) (h : step g s a = some s') :
    s'.sends e + (s'.pc n).owed g e + s.fired n =
      s.sends e + (s.pc n).owed g e + s'.fired n + sourceCall g n a := by
  obtain ⟨eff, p, hm, rfl⟩ := step_move h
  by_cases hn : n = a.thread
  · subst hn
    rw [setPc_pc_self]
    exact hm.owed hcv ha hi he
  · have hprod : (g.edge e).producer ≠ a.thread := by
      rw [(Graph.mem_outEdges.mp he).2]
      exact hn
    have hcall : sourceCall g n a = 0 := by
      apply if_neg
      rintro ⟨-, rfl⟩
      exact hn rfl
    have howed : (((s.apply g a.thread eff).setPc a.thread p).pc n).owed g e =
        (s.pc n).owed g e := by
      rcases pc_of_ne (g := g) (s := s) eff p hn with heq | ⟨-, hasleep, heq⟩
      · rw [heq]
      · rw [heq, hasleep]
        rfl
    change (s.apply g a.thread eff).sends e + _ + _ = _ + _ + (s.apply g a.thread eff).fired n + _
    rw [howed, hcall, sends_of_ne hi.term hm hprod, fired_of_ne hm hn, Nat.add_zero]

end

end Pgm
