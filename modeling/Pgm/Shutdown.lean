import Mathlib.Data.Fintype.EquivFin
import Mathlib.Order.WellFounded
import Pgm.Terminate
import Pgm.Wakeup

/-! The end of a graph. Sources complete and then terminate, every other node waits and
completes until its wait returns `PGM_TERMINATE`. A graph whose forward edges have no
cycle comes to rest before all nodes have terminated in one way only: a node has all its
terminate signals and tokens on a forward in-edge, but not on all of its in-edges
(`stuck_starves`). Without back edges into it such a node, once asleep, never terminates
(`starved_forever`). -/

namespace Pgm

def Source (g : Graph) (n : Nat) : Prop := ∀ e ∈ g.inEdges n, (g.edge e).isBackedge = true

instance (g : Graph) (n : Nat) : Decidable (Source g n) :=
  inferInstanceAs (Decidable (∀ e ∈ g.inEdges n, _))

/-- Sources complete and terminate, the other nodes wait and complete, all of them by
their owners and until they have terminated. -/
def Lifecycle (g : Graph) (s : State) : Act → Prop
  | .wait n => n < g.nrNodes ∧ ¬ Source g n ∧ s.terminated n = false
  | .complete t n => t = n ∧ n < g.nrNodes ∧ s.terminated n = false
  | .terminate t n => t = n ∧ n < g.nrNodes ∧ Source g n ∧ s.terminated n = false
  | .run _ _ | .spurious _ => True

instance (g : Graph) (s : State) : (a : Act) → Decidable (Lifecycle g s a)
  | .wait n => inferInstanceAs (Decidable (n < g.nrNodes ∧ ¬ Source g n ∧ s.terminated n = false))
  | .complete t n => inferInstanceAs (Decidable (t = n ∧ n < g.nrNodes ∧ s.terminated n = false))
  | .terminate t n => inferInstanceAs
      (Decidable (t = n ∧ n < g.nrNodes ∧ Source g n ∧ s.terminated n = false))
  | .run _ _ | .spurious _ => inferInstanceAs (Decidable True)

def Pc.isAsleep : Pc → Bool
  | .wait .asleep => true
  | _ => false

theorem Pc.eq_asleep {p : Pc} (h : p.isAsleep = true) : p = .wait .asleep := by
  cases p with
  | wait w => cases w <;> first | rfl | cases h
  | _ => cases h

/-- The node has terminated and its owner has nothing left to do. -/
def Finished (s : State) (n : Nat) : Prop := (s.pc n).isIdle = true ∧ s.terminated n = true

/-- The owner has finished, or is blocked in `pgm_cv_wait`. -/
def AtRest (s : State) (n : Nat) : Prop := Finished s n ∨ (s.pc n).isAsleep = true

/-- All threads are at rest, and some node has not terminated. -/
def Stuck (g : Graph) (s : State) : Prop :=
  (∀ n < g.nrNodes, AtRest s n) ∧ ∃ n < g.nrNodes, ¬ Finished s n

instance (s : State) (n : Nat) : Decidable (Finished s n) :=
  inferInstanceAs (Decidable ((s.pc n).isIdle = true ∧ s.terminated n = true))

instance (s : State) (n : Nat) : Decidable (AtRest s n) :=
  inferInstanceAs (Decidable (Finished s n ∨ (s.pc n).isAsleep = true))

instance (g : Graph) (s : State) : Decidable (Stuck g s) :=
  inferInstanceAs (Decidable ((∀ n < g.nrNodes, AtRest s n) ∧ ∃ n < g.nrNodes, ¬ Finished s n))

/-- The node has all its terminate signals, tokens on a forward in-edge, and too few on
another in-edge. -/
def Starved (g : Graph) (s : State) (n : Nat) : Prop :=
  s.terminated n = false ∧ s.nrTerminateSignals n = g.nrInSignaledForward n ∧
    (∃ e ∈ g.inEdges n, (g.edge e).isBackedge = false ∧ readyEdge g s e = true) ∧
    ∃ e ∈ g.inEdges n, (g.edge e).isSignalDriven = true ∧ readyEdge g s e = false

instance (g : Graph) (s : State) (n : Nat) : Decidable (Starved g s n) :=
  inferInstanceAs (Decidable (_ ∧ _ ∧ (∃ e ∈ g.inEdges n, _) ∧ ∃ e ∈ g.inEdges n, _))

def settles (s : State) : Act → Option Nat
  | .run t _ =>
    match s.pc t with
    | .wait .cvWait => some t
    | .prod _ .terminate _ _ (.wake []) => some t
    | _ => none
  | _ => none

/-- The last thread does not come to rest while a node is starved. -/
def NoneStarved (g : Graph) (s : State) (a : Act) : Prop :=
  ∀ t ∈ settles s a, (∀ n < g.nrNodes, n ≠ t → AtRest s n) → ∀ n < g.nrNodes, ¬ Starved g s n

instance (g : Graph) (s : State) (a : Act) : Decidable (NoneStarved g s a) :=
  inferInstanceAs (Decidable (∀ t ∈ settles s a, (∀ n < g.nrNodes, _) → ∀ n < g.nrNodes, _))

def Feeds (g : Graph) (m n : Nat) : Prop :=
  ∃ e ∈ g.edges, e.isBackedge = false ∧ e.producer = m ∧ e.consumer = n

def Acyclic (g : Graph) : Prop := ∀ n, ¬ Relation.TransGen (Feeds g) n n

structure ShutInv (g : Graph) (s : State) : Prop where
  term : TermInv g s
  nodes : ∀ t, g.nrNodes ≤ t → (s.pc t).isIdle = true
  waiting : ∀ n w, s.pc n = .wait w → ¬ Source g n ∧ s.terminated n = false

section

variable {junk : Junk} {g : Graph} {s s' : State} {a : Act} {eff : Effect} {p : Pc} {n e : Nat}

theorem ShutInv.atMostOnce (hi : ShutInv g s) (ha : Lifecycle g s a) : AtMostOnce s a := by
  cases a with
  | wait n => trivial
  | complete t n => exact ⟨ha.1, ha.2.2⟩
  | terminate t n => exact ⟨ha.1, ha.2.2.2⟩
  | run t ans =>
    intro hend
    cases hpc : s.pc t with
    | wait w => exact (hi.waiting t w hpc).2
    | _ => rw [hpc] at hend; cases hend
  | spurious t => trivial

/-- Only the nodes' owners run. -/
theorem Move.thread_lt (hi : ShutInv g s) (ha : Lifecycle g s a) (hm : Move g s a eff p) :
    a.thread < g.nrNodes := by
  have hbusy : ∀ t, (s.pc t).isIdle = false → t < g.nrNodes := by
    intro t ht
    by_contra hle
    rw [hi.nodes t (Nat.le_of_not_lt hle)] at ht
    cases ht
  cases hm with
  | callWait n last hpc => exact ha.1
  | callComplete t n last hpc | callTerminate t n last hpc =>
    change t < g.nrNodes
    rw [ha.1]
    exact ha.2.1
  | wait t ans w eff p hpc hm => exact hbusy t (by rw [hpc]; rfl)
  | prod t m ans cmd w err q eff p hpc hm => exact hbusy t (by rw [hpc]; rfl)
  | spurious t hpc => exact hbusy t (by rw [hpc]; rfl)

theorem step_shutInv (ha : Lifecycle g s a) (hi : ShutInv g s) (h : step g s a = some s') :
    ShutInv g s' := by
  have hterm := step_termInv (hi.atMostOnce ha) hi.term h
  obtain ⟨eff, p, hm, rfl⟩ := step_move h
  refine ⟨hterm, fun t ht => ?_, fun n w hpc => ?_⟩
  · have hne : t ≠ a.thread := by
      have := hm.thread_lt hi ha
      omega
    rcases pc_of_ne (g := g) (s := s) eff p hne with heq | ⟨-, hold, -⟩
    · rw [heq]
      exact hi.nodes t ht
    · have hidle := hi.nodes t ht
      rw [hold] at hidle
      cases hidle
  · by_cases hn : n = a.thread
    · subst hn
      rw [setPc_pc_self] at hpc
      cases hm with
      | callWait n last hidle => exact ha.2
      | wait t ans v eff p hwait hm =>
        have hold := hi.waiting t v hwait
        cases hm with
        | terminate => cases hpc
        | _ => exact hold
      | prod t m ans cmd v err q eff p hprod hm => exact absurd hpc (hm.not_wait w)
      | spurious t hasleep => exact hi.waiting t _ hasleep
      | callComplete | callTerminate => cases hpc
    · change _ ∧ (s.apply g a.thread eff).terminated n = false
      rw [apply_terminated (hi.atMostOnce ha) hm hn]
      rcases pc_of_ne (g := g) (s := s) eff p hn with heq | ⟨-, hold, -⟩
      · exact hi.waiting n w (heq.symm.trans hpc)
      · exact hi.waiting n _ hold

theorem initState_shutInv (junk : Junk) (g : Graph) : ShutInv g (initState junk g) :=
  ⟨initState_termInv junk g, fun _ _ => rfl, by rintro _ _ ⟨⟩⟩

/-! ## A node that nothing feeds any more -/

theorem Feeds.lt {m : Nat} (h : Feeds g m n) : m < g.nrNodes := by
  obtain ⟨e, he, -, rfl, -⟩ := h
  exact (g.ends e he).1

theorem feeds_of_mem (he : e ∈ g.inEdges n) (hf : (g.edge e).isBackedge = false) :
    Feeds g (g.edge e).producer n := by
  obtain ⟨hlt, hc⟩ := Graph.mem_inEdges.mp he
  have hget : g.edge e = g.edges[e] := by simp [Graph.edge, hlt]
  exact ⟨g.edge e, by rw [hget]; exact List.getElem_mem hlt, hf, rfl, hc⟩

/-- Without a cycle, a property that some node has is had by one whose forward producers
do not have it. -/
theorem Acyclic.exists_first (hac : Acyclic g) {P : Nat → Prop} (h : ∃ n < g.nrNodes, P n) :
    ∃ n < g.nrNodes, P n ∧ ∀ m, Feeds g m n → ¬ P m := by
  let r : Fin g.nrNodes → Fin g.nrNodes → Prop := fun a b => Relation.TransGen (Feeds g) a b
  have htrans : IsTrans (Fin g.nrNodes) r := ⟨fun a b c => Relation.TransGen.trans⟩
  have hirrefl : Std.Irrefl r := ⟨fun a => hac a⟩
  have hwf : WellFounded r := Finite.wellFounded_of_trans_of_irrefl r
  obtain ⟨n, hn, hp⟩ := h
  obtain ⟨x, hx, hmin⟩ := hwf.has_min {x | P x.1} ⟨⟨n, hn⟩, hp⟩
  refine ⟨x, x.2, hx, fun m hm hpm => ?_⟩
  exact hmin ⟨m, hm.lt⟩ hpm (Relation.TransGen.single hm)

theorem TermInv.keepsReady (hi : TermInv g s) : KeepsReady g s a := by
  intro e hsend hf hfull _
  have hin := hi.place.sendsOn hsend
  have hsent := hi.all_sent hfull hin (hi.live hsend).2 hf
  exact absurd hsend (hsent.frozen hi)

theorem Finished.ended (h : Finished s n) : Ended s n := by
  refine ⟨h.2, ?_⟩
  have hidle := h.1
  cases hpc : s.pc n with
  | idle last => rfl
  | _ => rw [hpc] at hidle; cases hidle

theorem forward_pos (hcv : CvGraph g) (h : ¬ Source g n) : g.nrInSignaledForward n ≠ 0 := by
  rw [g.nrInSignaledForward_eq]
  intro hzero
  refine h (fun e he => ?_)
  have := List.countP_eq_zero.mp hzero e he
  simpa [hcv.signaled he] using this

/-- **The one way to get stuck.** -/
theorem starved_of_stuck (hcv : CvGraph g) (hac : Acyclic g) (hi : ShutInv g s)
    (hwake : ∀ n, WakeInv g s n) (h : Stuck g s) :
    ∃ n < g.nrNodes, s.pc n = .wait .asleep ∧ Starved g s n := by
  obtain ⟨hrest, hopen⟩ := h
  obtain ⟨n, hn, hnot, hfirst⟩ := hac.exists_first hopen
  have hquiet : ∀ t m cmd w err q, s.pc t ≠ .prod m cmd w err q := by
    intro t m cmd w err q hpc
    by_cases ht : t < g.nrNodes
    · rcases hrest t ht with hfin | hasleep
      · have hidle := hfin.1
        rw [hpc] at hidle
        cases hidle
      · rw [hpc] at hasleep
        cases hasleep
    · have hidle := hi.nodes t (Nat.le_of_not_lt ht)
      rw [hpc] at hidle
      cases hidle
  have hasleep : s.pc n = .wait .asleep := Pc.eq_asleep ((hrest n hn).resolve_left hnot)
  obtain ⟨hsource, hterm⟩ := hi.waiting n _ hasleep
  have hfull := full_of_ended hi.term
    (fun e he hf => (not_not.mp (hfirst _ (feeds_of_mem he hf))).ended)
  obtain ⟨hall, htermReady⟩ := (hwake n).asleep hasleep hquiet
  refine ⟨n, hn, hasleep, hterm, hfull, ?_, ?_⟩
  · by_contra hno
    refine htermReady ⟨fun e he hf => ?_, ?_, hfull⟩
    · by_contra hr
      exact hno ⟨e, he, hf, by simpa using hr⟩
    · rw [hfull]
      exact forward_pos hcv hsource
  · by_contra hno
    refine hall (fun e he hs => ?_)
    by_contra hr
    exact hno ⟨e, he, hs, by simpa using hr⟩

/-- The step by which the last thread comes to rest changes no counter. -/
theorem Move.rests (hi : ShutInv g s) (hm : Move g s a eff p)
    (hrest : AtRest ((s.apply g a.thread eff).setPc a.thread p) a.thread) :
    settles s a = some a.thread ∧ (eff = .skip ∨ ∃ n, eff = .release n) := by
  have hp : p.isIdle = true ∧ (s.apply g a.thread eff).terminated a.thread = true ∨
      p.isAsleep = true := by
    rw [AtRest, Finished, setPc_pc_self] at hrest
    exact hrest
  cases hm with
  | wait t ans w eff p hpc hm =>
    have hterm := (hi.waiting t w hpc).2
    cases hm with
    | cvWait => exact ⟨by simp [settles, hpc, Act.thread], Or.inr ⟨t, rfl⟩⟩
    | fire | fail =>
      rcases hp with ⟨-, hp⟩ | hp
      · exact absurd (hterm.symm.trans hp) (by decide)
      · cases hp
    | allReady l | someReady l | noTerm l | allTerm l | notAllTerm l =>
      cases l <;> simp [Pc.isIdle, Pc.isAsleep, granted, mustWait] at hp
    | _ => simp [Pc.isIdle, Pc.isAsleep] at hp
  | prod t m ans cmd w err q eff p hpc hm =>
    cases hm with
    | done =>
      obtain rfl : t = m := hi.term.owner t m cmd w err _ hpc
      rcases hp with ⟨-, hp⟩ | hp
      · have hcmd := (hi.term.command t cmd w err _ hpc).mp hp
        subst hcmd
        exact ⟨by simp [settles, hpc, Act.thread], Or.inl rfl⟩
      · cases w <;> cases hp
    | _ => simp [Pc.isIdle, Pc.isAsleep] at hp
  | callWait | callComplete | callTerminate | spurious => simp [Pc.isIdle, Pc.isAsleep] at hp

theorem step_not_stuck (hi : ShutInv g s) (ha : Lifecycle g s a) (hnone : NoneStarved g s a)
    (h : step g s a = some s')
    (hstarved : Stuck g s' → ∃ n < g.nrNodes, s'.pc n = .wait .asleep ∧ Starved g s' n) :
    ¬ Stuck g s' := by
  intro hstuck
  obtain ⟨n, hn, -, hs⟩ := hstarved hstuck
  obtain ⟨eff, p, hm, rfl⟩ := step_move h
  obtain ⟨hsettles, heff⟩ := hm.rests hi (hstuck.1 _ (hm.thread_lt hi ha))
  have hothers : ∀ m < g.nrNodes, m ≠ a.thread → AtRest s m := by
    intro m hm' hne
    have hrest := hstuck.1 m hm'
    have hpc : ((s.apply g a.thread eff).setPc a.thread p).pc m = s.pc m := by
      rcases pc_of_ne (g := g) (s := s) eff p hne with heq | ⟨rfl, -, -⟩
      · exact heq
      · rcases heff with heff | ⟨_, heff⟩ <;> cases heff
    rw [AtRest, Finished, hpc] at hrest
    rcases heff with rfl | ⟨_, rfl⟩ <;> exact hrest
  refine hnone a.thread hsettles hothers n hn ?_
  rcases heff with rfl | ⟨_, rfl⟩ <;> exact hs

theorem shutInv_of_reach {P : State → Act → Prop} (hP : ∀ s a, P s a → Lifecycle g s a)
    (h : Lts.Reach (step g) P (initState junk g) s) : ShutInv g s :=
  Lts.Reach.inv (initState_shutInv junk g) (fun s a _ _ hi hp hs => step_shutInv (hP s a hp) hi hs) h

theorem stuck_starves {P : State → Act → Prop} (hP : ∀ s a, P s a → Lifecycle g s a)
    (hcv : CvGraph g) (hac : Acyclic g) (h : Lts.Reach (step g) P (initState junk g) s)
    (hstuck : Stuck g s) : ∃ n < g.nrNodes, s.pc n = .wait .asleep ∧ Starved g s n :=
  starved_of_stuck hcv hac (shutInv_of_reach hP h)
    (reach_wakeInv (fun _ _ hr _ => (shutInv_of_reach hP hr).term.keepsReady) h) hstuck

/-- **Shutdown.** Let the forward edges of a cv graph have no cycle, let sources complete
and then terminate, and let the other nodes wait and complete until they terminate. In
every run in which the last thread never comes to rest while a node is starved, no state
is stuck. -/
theorem shutdown_never_stuck (hcv : CvGraph g) (hac : Acyclic g)
    (h : Lts.Reach (step g) (fun s a => Lifecycle g s a ∧ NoneStarved g s a) (initState junk g) s) :
    ¬ Stuck g s := by
  refine Lts.Reach.inv (I := fun s => ¬ Stuck g s) ?_ (fun s a s' hr _ hp hs => ?_) h
  · rintro ⟨hrest, n, hn, hnot⟩
    rcases hrest n hn with hfin | hasleep
    · exact hnot hfin
    · cases hasleep
  · exact step_not_stuck (shutInv_of_reach (fun _ _ h => h.1) hr) hp.1 hp.2 hs
      (stuck_starves (fun _ _ h => h.1) hcv hac (hr.next hp hs))

/-! ## A starved node -/

/-- Where the owner of a starved node is once it has slept: it counts the in-edges again, finds some
of them ready but not all, and goes back to sleep. -/
def Pc.Trapped (g : Graph) (s : State) (n : Nat) : Pc → Prop
  | .wait (.scan _ i r rn) => r ≤ readyIn g s n i ∧ ((∃ e ∈ (g.inEdges n).take i,
      (g.edge e).isBackedge = false ∧ readyEdge g s e = true) → rn ≠ 0)
  | .wait .lock | .wait .woken | .wait .cvWait | .wait .asleep => True
  | _ => False

theorem not_finished_of_trapped (h : (s.pc n).Trapped g s n) : ¬ Finished s n := by
  rintro ⟨hidle, -⟩
  cases hpc : s.pc n with
  | idle last =>
    rw [hpc] at h
    exact h
  | _ =>
    rw [hpc] at hidle
    cases hidle

/-- Only the ready edges count. -/
theorem trapped_congr {q : Pc} (hready : ∀ e ∈ g.inEdges n, readyEdge g s' e = readyEdge g s e)
    (h : q.Trapped g s n) : q.Trapped g s' n := by
  unfold Pc.Trapped at h ⊢
  split at h
  · rename_i l i r rn
    have hcount : readyIn g s' n i = readyIn g s n i :=
      List.countP_congr (fun e he => by rw [hready e (List.mem_of_mem_take he)])
    rw [hcount]
    refine ⟨h.1, fun ⟨e, he, hf, hr⟩ => h.2 ⟨e, he, hf, ?_⟩⟩
    rwa [← hready e (List.mem_of_mem_take he)]
  all_goals exact h

theorem starved_congr (hready : ∀ e ∈ g.inEdges n, readyEdge g s' e = readyEdge g s e)
    (hterm : s'.terminated n = s.terminated n)
    (hsig : s'.nrTerminateSignals n = s.nrTerminateSignals n) (h : Starved g s n) :
    Starved g s' n := by
  obtain ⟨hopen, hfull, ⟨e, he, hf, hr⟩, d, hd, hs, hnot⟩ := h
  exact ⟨hterm.trans hopen, hsig.trans hfull, ⟨e, he, hf, (hready e he).trans hr⟩,
    d, hd, hs, (hready d hd).trans hnot⟩

/-- The owner goes round its loop and changes nothing that counts. -/
theorem WaitMove.trapped {ans : Answer} {w : WaitPc} (hm : WaitMove g s n ans w eff p)
    (hst : Starved g s n) (h : (Pc.wait w).Trapped g s n) :
    p.Trapped g s n ∧ (eff = .skip ∨ eff = .acquire n ∨ eff = .release n) := by
  obtain ⟨-, -, ⟨e, he, hf, hr⟩, d, hd, hs, hnot⟩ := hst
  cases hm with
  | read l i r rn x hi =>
    refine ⟨⟨?_, ?_⟩, Or.inl rfl⟩
    · have hle := h.1
      rw [readyIn_succ hi]
      split <;> omega
    · rintro ⟨y, hy, hfy, hry⟩
      rcases (Scan.mem_take_succ hi).mp hy with hold | rfl
      · have hpos := h.2 ⟨y, hold, hfy, hry⟩
        split <;> omega
      · simp [hry, hfy]
  | allReady l i r rn hi hcount =>
    -- an edge is not ready
    have hle : g.nrInSignaled n ≤ readyIn g s n i := hcount ▸ h.1
    have hall : AllReady g s n := by
      refine allReady_iff.mpr (Nat.le_antisymm ?_ ?_)
      · exact List.countP_mono_left (fun _ _ => readyEdge_signaled)
      · rwa [readyIn, Scan.take_of_end hi] at hle
    rw [hall d hd hs] at hnot
    cases hnot
  | someReady l i r rn hi hcount hn => cases l <;> exact ⟨trivial, Or.inl rfl⟩
  | noneReady l i r rn hi hcount hn =>
    -- a forward edge is
    exact absurd hn (h.2 ⟨e, by rwa [Scan.take_of_end hi], hf, hr⟩)
  | lock hfree | relock hfree =>
    exact ⟨⟨Nat.zero_le _, by rintro ⟨y, ⟨⟩, -⟩⟩, Or.inr (Or.inl rfl)⟩
  | cvWait => exact ⟨trivial, Or.inr (Or.inr rfl)⟩
  | _ => exact h.elim

theorem step_starved (hfwd : ∀ e ∈ g.inEdges n, (g.edge e).isBackedge = false) (hi : ShutInv g s)
    (ha : Lifecycle g s a) (hst : Starved g s n) (hp : (s.pc n).Trapped g s n)
    (h : step g s a = some s') : Starved g s' n ∧ (s'.pc n).Trapped g s' n := by
  obtain ⟨eff, p, hm, rfl⟩ := step_move h
  by_cases hn : n = a.thread
  · have hown : p.Trapped g s n ∧ (eff = .skip ∨ eff = .acquire n ∨ eff = .release n) := by
      cases hm with
      | wait t ans w eff p hpc hm =>
        obtain rfl : n = t := hn
        rw [hpc] at hp
        exact hm.trapped hst hp
      | spurious t hpc => exact ⟨trivial, Or.inl rfl⟩
      | callWait t last hpc | callComplete t m last hpc | callTerminate t m last hpc
      | prod t m ans cmd w err q eff p hpc hm =>
        obtain rfl : n = t := hn
        rw [hpc] at hp
        exact hp.elim
    subst hn
    rw [setPc_pc_self]
    obtain ⟨htrap, heff⟩ := hown
    rcases heff with rfl | rfl | rfl <;> exact ⟨hst, htrap⟩
  · have hready : ∀ e ∈ g.inEdges n,
        readyEdge g ((s.apply g a.thread eff).setPc a.thread p) e = readyEdge g s e := by
      intro e he
      have hadd : eff ≠ .addTokens e := by
        rintro rfl
        have hsend := hm.sendsOn
        exact (hi.term.all_sent hst.2.1 he (hi.term.live hsend).2 (hfwd e he)).frozen hi.term hsend
      have hpending := foreign_nrPending hm hn he hadd
      have hskips := foreign_nrSkips hm hn he
      simp only [readyEdge, State.setPc, hpending, hskips]
    refine ⟨starved_congr hready (apply_terminated (hi.atMostOnce ha) hm hn)
      (full_step hi.term (hi.atMostOnce ha) hm hst.2.1) hst, trapped_congr hready ?_⟩
    rcases pc_of_ne (g := g) (s := s) eff p hn with heq | ⟨-, -, heq⟩
    · rwa [heq]
    · rw [heq]
      trivial

/-- **Starved for good.** A node that is starved and asleep, and that has no back edges to feed it,
never terminates: whatever wakes it up, it goes back to sleep. -/
theorem starved_forever (h : Lts.Reach (step g) (Lifecycle g) (initState junk g) s)
    (hfwd : ∀ e ∈ g.inEdges n, (g.edge e).isBackedge = false) (hst : Starved g s n)
    (hasleep : s.pc n = .wait .asleep) {as : List Act} {t : State}
    (hr : Lts.run (step g) s as = some t) (hm : Lts.Meets (step g) (Lifecycle g) s as) :
    Starved g t n ∧ ¬ Finished t n := by
  have hinv : ShutInv g t ∧ Starved g t n ∧ (t.pc n).Trapped g t n := by
    refine Lts.run_inv (I := fun t => ShutInv g t ∧ Starved g t n ∧ (t.pc n).Trapped g t n) ?_
      ⟨shutInv_of_reach (fun _ _ h => h) h, hst, by rw [hasleep]; trivial⟩ hr hm
    rintro s a t ⟨hi, hst, hp⟩ ha hs
    exact ⟨step_shutInv ha hi hs, step_starved hfwd hi ha hst hp hs⟩
  exact ⟨hinv.2.1, not_finished_of_trapped hinv.2.2⟩

theorem acyclic_of_lt (h : ∀ e ∈ g.edges, e.isBackedge = false → e.producer < e.consumer) :
    Acyclic g := by
  have hlt : ∀ m n, Relation.TransGen (Feeds g) m n → m < n := by
    intro m n hmn
    induction hmn with
    | single hf =>
      obtain ⟨e, he, hb, rfl, rfl⟩ := hf
      exact h e he hb
    | tail _ hf ih =>
      obtain ⟨e, he, hb, rfl, rfl⟩ := hf
      exact ih.trans (h e he hb)
  exact fun n hn => Nat.lt_irrefl n (hlt n n hn)

end

/-! ## A join with a token left -/

def mergeEdges : List Edge :=
  [forwardEdge 0 2 (cvAttr 1 1 1 0) line_accepted, forwardEdge 1 2 (cvAttr 1 1 1 0) line_accepted]

theorem mergeEdges_small : (∀ e ∈ mergeEdges, e.producer < 3 ∧ e.consumer < 3) ∧
    mergeEdges.length < 32 := by decide

def mergeGraph : Graph := .small 3 mergeEdges mergeEdges_small.1 mergeEdges_small.2

/-- Node 0 completes once, both sources terminate, and node 2 waits. -/
def mergeRun : List Act :=
  List.flatten [[.complete 0 0], runs 0 9, [.terminate 0 0], runs 0 7, [.terminate 1 1], runs 1 7,
    [.wait 2], runs 2 9]

/-- Node 2 holds a token on one in-edge and waits for the other for ever. -/
theorem merge_stuck :
    ∃ s, Lts.Reach (step mergeGraph) (Lifecycle mergeGraph) (initState zeroed mergeGraph) s ∧
      CvGraph mergeGraph ∧ Acyclic mergeGraph ∧ Stuck mergeGraph s := by
  have hd : (Lts.drive (step mergeGraph) (fun s a => decide (Lifecycle mergeGraph s a))
      (initState zeroed mergeGraph) mergeRun).map (fun s => decide (Stuck mergeGraph s)) =
        some true := by
    decide +kernel
  obtain ⟨s, hs, hstuck⟩ := Lts.reach_of_drive_map (fun s a h => of_decide_eq_true h) hd
  exact ⟨s, hs, by decide, acyclic_of_lt (by decide), of_decide_eq_true hstuck⟩

/-- Node 2 falls asleep, both sources complete and wake it up, and all three terminate. -/
def joinEnd : List Act :=
  List.flatten [[.wait 2], runs 2 11, [.complete 0 0], runs 0 9, [.complete 1 1], runs 1 10, runs 2 13,
    [.terminate 0 0], runs 0 7, [.terminate 1 1], runs 1 7, [.wait 2], runs 2 13]

theorem join_shuts_down :
    ∃ s, Lts.Reach (step mergeGraph)
        (fun s a => Lifecycle mergeGraph s a ∧ NoneStarved mergeGraph s a)
        (initState zeroed mergeGraph) s ∧ s.fired 2 = 1 ∧ (∀ n < 3, Finished s n) ∧
      ¬ Stuck mergeGraph s := by
  have hd : (Lts.drive (step mergeGraph)
      (fun s a => decide (Lifecycle mergeGraph s a ∧ NoneStarved mergeGraph s a))
      (initState zeroed mergeGraph) joinEnd).map
        (fun s => decide (s.fired 2 = 1 ∧ ∀ n < 3, Finished s n)) = some true := by decide +kernel
  obtain ⟨s, hs, hfin⟩ := Lts.reach_of_drive_map (fun s a h => of_decide_eq_true h) hd
  obtain ⟨hfired, hfin⟩ := of_decide_eq_true hfin
  exact ⟨s, hs, hfired, hfin, shutdown_never_stuck (by decide) (acyclic_of_lt (by decide)) hs⟩

/-- Node 2 wakes up, counts one ready in-edge of two and goes back to sleep. -/
theorem merge_starves : ∃ s t,
    Lts.Reach (step mergeGraph) (Lifecycle mergeGraph) (initState zeroed mergeGraph) s ∧
    Lts.run (step mergeGraph) s (.spurious 2 :: runs 2 5) = some t ∧
    (t.pc 2).isAsleep = true ∧ Starved mergeGraph t 2 ∧ ¬ Finished t 2 := by
  have hd : ((Lts.drive (step mergeGraph) (fun s a => decide (Lifecycle mergeGraph s a))
      (initState zeroed mergeGraph) mergeRun).bind (fun s =>
        (Lts.drive (step mergeGraph) (fun s a => decide (Lifecycle mergeGraph s a)) s
          (.spurious 2 :: runs 2 5)).map (fun t =>
            (decide (Starved mergeGraph s 2), (s.pc 2).isAsleep, (t.pc 2).isAsleep)))) =
      some (true, true, true) := by decide +kernel
  obtain ⟨s, hs, hd⟩ := Option.bind_eq_some_iff.mp hd
  obtain ⟨t, ht, hobs⟩ := Option.map_eq_some_iff.mp hd
  obtain ⟨hst, hpcs⟩ := Prod.mk.inj hobs
  obtain ⟨hpc, hpc'⟩ := Prod.mk.inj hpcs
  have hp : ∀ (s : State) (a : Act), decide (Lifecycle mergeGraph s a) = true →
      Lifecycle mergeGraph s a := fun _ _ h => of_decide_eq_true h
  have hreach := Lts.reach_of_drive hp hs
  have ht' := Lts.run_of_drive hp ht
  exact ⟨s, t, hreach, ht'.1, hpc',
    starved_forever hreach (by decide) (of_decide_eq_true hst) (Pc.eq_asleep hpc) ht'.1 ht'.2⟩

end Pgm
