import Pgm.Consume
import Pgm.Terminate

/-! The tokens left at termination. `pgm_wait_for_tokens` reads the counters of the
in-edges one by one and the terminate signals after that, so a producer that sends its
last tokens and its terminate signal in between may be overlooked. Where that does not
happen, a node terminates with all its forward in-edges short of their thresholds. -/

namespace Pgm

open Function (update)

/-- How many in-edges the owner of `n` has read in a test that has found no forward in-edge
ready, as long as `nr_terminate_signals` may still decide the test. -/
def Pc.passed (g : Graph) (n : Nat) : Pc → Option Nat
  | .wait (.scan _ i _ 0) => some i
  | .wait (.termNonzero _) | .wait (.termAll _) => some (g.inEdges n).length
  | _ => none

/-- A forward in-edge has become ready after the owner has read it, and the owner has no
ready one left to read. -/
def Overtaken (g : Graph) (s : State) (n : Nat) : Prop :=
  ∃ i ∈ (s.pc n).passed g n,
    (∃ e ∈ (g.inEdges n).take i, (g.edge e).isBackedge = false ∧ readyEdge g s e = true) ∧
    ∀ e ∈ (g.inEdges n).drop i, (g.edge e).isBackedge = false → readyEdge g s e = false

instance (g : Graph) (s : State) (n : Nat) : Decidable (Overtaken g s n) :=
  inferInstanceAs (Decidable (∃ i ∈ (s.pc n).passed g n, _))

/-- The edge whose terminate signal an action adds. -/
def terminatesOn (s : State) : Act → Option Nat
  | .run t _ =>
    match s.pc t with
    | .prod _ .terminate _ _ (.tokens _ e _) => some e
    | _ => none
  | _ => none

/-- The last terminate signal of a node does not come while its owner is overtaken. -/
def NoRace (g : Graph) (s : State) (a : Act) : Prop :=
  ∀ e ∈ terminatesOn s a,
    s.nrTerminateSignals (g.edge e).consumer + 1 = g.nrInSignaledForward (g.edge e).consumer →
    ¬ Overtaken g s (g.edge e).consumer

instance (g : Graph) (s : State) (a : Act) : Decidable (NoRace g s a) :=
  inferInstanceAs (Decidable (∀ e ∈ terminatesOn s a, _))

/-- The token side of the wait has decided to end, and what follows. -/
def Pc.over : Pc → Bool
  | .wait w => w.status == some .exhaustedAndTerminate || Pc.ending (.wait w)
  | .prod _ _ inWait _ _ => inWait
  | .idle (some .terminate) => true
  | _ => false

structure LastInv (g : Graph) (s : State) (n : Nat) : Prop where
  window : s.nrTerminateSignals n = g.nrInSignaledForward n → ¬ Overtaken g s n
  decided : (s.pc n).over = true → s.nrTerminateSignals n = g.nrInSignaledForward n ∧
    ∀ e ∈ g.inEdges n, (g.edge e).isBackedge = false → readyEdge g s e = false

section

variable {junk : Junk} {g : Graph} {s s' : State} {a : Act} {eff : Effect} {p : Pc} {n e : Nat}

theorem readyEdge_congr (hp : s'.nrPending e = s.nrPending e) (hs : s'.nrSkips e = s.nrSkips e) :
    readyEdge g s' e = readyEdge g s e := by
  simp only [readyEdge, hp, hs]

theorem Overtaken.congr (h : Overtaken g s' n) (hpc : (s'.pc n).passed g n = (s.pc n).passed g n)
    (hr : ∀ e ∈ g.inEdges n, (g.edge e).isBackedge = false →
      readyEdge g s' e = readyEdge g s e) : Overtaken g s n := by
  obtain ⟨i, hi, ⟨e, he, hf, hready⟩, hrest⟩ := h
  rw [hpc] at hi
  refine ⟨i, hi, ⟨e, he, hf, ?_⟩, fun e he hf => ?_⟩
  · rw [← hr e (List.mem_of_mem_take he) hf]
    exact hready
  · rw [← hr e (List.mem_of_mem_drop he) hf]
    exact hrest e he hf

theorem not_overtaken (h : (s.pc n).passed g n = none) : ¬ Overtaken g s n := by
  rintro ⟨i, hi, -⟩
  rw [h] at hi
  cases hi

/-- The forward in-edges do not change any more once all terminate signals are in, but
for what the owner takes. -/
theorem ready_frozen (hi : TermInv g s) (hm : Move g s a eff p)
    (hfull : s.nrTerminateSignals n = g.nrInSignaledForward n) (he : e ∈ g.inEdges n)
    (hf : (g.edge e).isBackedge = false) (hsub : eff ≠ .subTokens e) (hdec : eff ≠ .decSkips e) :
    readyEdge g ((s.apply g a.thread eff).setPc a.thread p) e = readyEdge g s e := by
  by_cases hs : (g.edge e).isSignalDriven = true
  · have hadd : eff ≠ .addTokens e := by
      rintro rfl
      exact (hi.all_sent hfull he hs hf).frozen hi hm.sendsOn
    refine readyEdge_congr ?_ ?_
    · cases eff with
      | addTokens e' =>
        have hne : e ≠ e' := fun h => hadd (by rw [h])
        simp [State.apply, State.setPc, hne]
      | subTokens e' =>
        have hne : e ≠ e' := fun h => hsub (by rw [h])
        simp [State.apply, State.setPc, hne]
      | _ => rfl
    · cases eff with
      | decSkips e' =>
        have hne : e ≠ e' := fun h => hdec (by rw [h])
        simp [State.apply, State.setPc, hne]
      | _ => rfl
  · simp [readyEdge, hs]

theorem Move.terminatesOn (hm : Move g s a (.addTerminate e) p) : terminatesOn s a = some e := by
  cases hm with
  | prod t m ans cmd w err q eff p hpc hm =>
    cases hm with
    | termSignal i e tw hc =>
      subst hc
      simp [Pgm.terminatesOn, hpc]
  | wait t ans w eff p hpc hm => cases hm

theorem last_signal (ht : TermInv g s)
    (hfull : (s.apply g a.thread eff).nrTerminateSignals n = g.nrInSignaledForward n)
    (hold : s.nrTerminateSignals n ≠ g.nrInSignaledForward n) :
    ∃ e, eff = .addTerminate e ∧ (g.edge e).consumer = n ∧
      s.nrTerminateSignals n + 1 = g.nrInSignaledForward n := by
  cases eff with
  | addTerminate e =>
    by_cases hc : n = (g.edge e).consumer
    · subst hc
      refine ⟨e, rfl, rfl, ?_⟩
      have hlt := ht.signals_lt (g.edge e).consumer
      simp only [State.apply, Function.update_self] at hfull
      rwa [Word.add_of_lt (by omega)] at hfull
    · exact absurd (by simpa [State.apply, hc] using hfull) hold
  | _ => exact absurd hfull hold

/-- Steps of other threads. -/
theorem lastInv_foreign (ht : TermInv g s) (ha : AtMostOnce s a) (hrace : NoRace g s a)
    (hm : Move g s a eff p) (hn : n ≠ a.thread) (hi : LastInv g s n) :
    LastInv g ((s.apply g a.thread eff).setPc a.thread p) n := by
  have hready : ∀ e ∈ g.inEdges n, (g.edge e).isBackedge = false →
      s.nrTerminateSignals n = g.nrInSignaledForward n →
      readyEdge g ((s.apply g a.thread eff).setPc a.thread p) e = readyEdge g s e := by
    intro e he hf hfull
    refine ready_frozen ht hm hfull he hf (fun h => ?_) (fun h => ?_)
    · exact ne_of_inEdges he (hm.own_edge (Or.inl h)) hn rfl
    · exact ne_of_inEdges he (hm.own_edge (Or.inr h)) hn rfl
  have hpc : ((s.apply g a.thread eff).setPc a.thread p).pc n = s.pc n ∨
      ((s.apply g a.thread eff).setPc a.thread p).pc n = .wait .woken :=
    (pc_of_ne (g := g) (s := s) eff p hn).imp id (fun h => h.2.2)
  refine ⟨fun hfull => ?_, fun hover => ?_⟩
  · rcases hpc with hpc | hpc
    · by_cases hold : s.nrTerminateSignals n = g.nrInSignaledForward n
      · exact fun ho => hi.window hold
          (ho.congr (by rw [hpc]) (fun e he hf => hready e he hf hold))
      · obtain ⟨e, rfl, rfl, hlast⟩ := last_signal ht hfull hold
        exact fun ho => hrace e hm.terminatesOn hlast (ho.congr (by rw [hpc]) (fun _ _ _ => rfl))
    · exact not_overtaken (by rw [hpc]; rfl)
  · rcases hpc with hpc | hpc
    · rw [hpc] at hover
      obtain ⟨hfull, hshort⟩ := hi.decided hover
      refine ⟨(full_step ht ha hm hfull).trans hfull, fun e he hf => ?_⟩
      rw [hready e he hf hfull]
      exact hshort e he hf
    · rw [hpc] at hover
      cases hover

theorem overtaken_read {t i r rn : Nat} {l : Bool} (hpc : s.pc t = .wait (.scan l i r rn))
    (he : (g.inEdges t)[i]? = some e)
    (ho : Overtaken g ((s.apply g t .skip).setPc t (.wait (.scan l (i + 1)
      (if readyEdge g s e then r + 1 else r)
      (if readyEdge g s e && !(g.edge e).isBackedge then rn + 1 else rn)))) t) :
    Overtaken g s t := by
  obtain ⟨j, hj, ⟨e', he', hf', hr'⟩, hrest⟩ := ho
  rw [setPc_pc_self] at hj
  by_cases hcount : (readyEdge g s e && !(g.edge e).isBackedge) = true
  · simp [Pc.passed, hcount] at hj
  · simp only [hcount, if_false, Bool.false_eq_true] at hj
    cases rn with
    | succ rn => cases hj
    | zero =>
      cases hj
      have hshort : (g.edge e).isBackedge = false → readyEdge g s e = false := by
        intro hf
        simpa [hf] using hcount
      refine ⟨i, by rw [hpc]; rfl, ⟨e', ?_, hf', hr'⟩, fun y hy hf => ?_⟩
      · rw [List.take_add_one, he] at he'
        rcases List.mem_append.mp he' with he' | he'
        · exact he'
        · obtain rfl : e' = e := by simpa using he'
          exact absurd ((hshort hf').symm.trans hr') (by decide)
      · rcases (Scan.mem_drop_iff he).mp hy with rfl | hy
        · exact hshort hf
        · exact hrest y hy hf

/-- At the end of the scan all in-edges have been read. -/
theorem overtaken_scanned {t i r rn : Nat} {l : Bool} (hpc : s.pc t = .wait (.scan l i r rn))
    (hend : (g.inEdges t)[i]? = none) (hrn : rn = 0)
    (ho : Overtaken g ((s.apply g t .skip).setPc t (.wait (.termNonzero l))) t) :
    Overtaken g s t := by
  obtain ⟨j, hj, ⟨e, he, hf, hr⟩, -⟩ := ho
  subst hrn
  refine ⟨i, by rw [hpc]; rfl, ⟨e, ?_, hf, hr⟩, fun y hy => ?_⟩
  · rw [Scan.take_of_end hend]
    exact List.mem_of_mem_take he
  · rw [Scan.drop_of_end hend] at hy
    cases hy

theorem window_own {t : Nat} {ans : Answer} {w : WaitPc} (hpc : s.pc t = .wait w)
    (hm : WaitMove g s t ans w eff p) (hi : ¬ Overtaken g s t) :
    ¬ Overtaken g ((s.apply g t eff).setPc t p) t := by
  cases hm with
  | start h | lock h | relock h =>
    rintro ⟨i, hi, ⟨e, he, -⟩, -⟩
    rw [setPc_pc_self] at hi
    cases hi
    cases he
  | read l i r rn e he => exact fun ho => hi (overtaken_read hpc he ho)
  | noneReady l i r rn hend hr hn => exact fun ho => hi (overtaken_scanned hpc hend hn ho)
  | someTerm l h =>
    refine fun ho => hi (ho.congr ?_ (fun _ _ _ => rfl))
    rw [setPc_pc_self, hpc]
    rfl
  | allReady l | someReady l | noTerm l | allTerm l | notAllTerm l =>
    refine not_overtaken ?_
    rw [setPc_pc_self]
    cases l <;> rfl
  | _ => exact not_overtaken (by rw [setPc_pc_self]; rfl)

/-- Nothing left to read, and nothing overtaken: all forward in-edges are short. -/
theorem short_of_passed (hp : (s.pc n).passed g n = some (g.inEdges n).length)
    (ho : ¬ Overtaken g s n) (he : e ∈ g.inEdges n) (hf : (g.edge e).isBackedge = false) :
    readyEdge g s e = false := by
  by_contra hr
  refine ho ⟨_, hp, ⟨e, ?_, hf, by simpa using hr⟩, fun y hy => ?_⟩
  · rw [List.take_length]
    exact he
  · rw [List.drop_length] at hy
    cases hy

/-- A node without signaled in-edges has all its signals. -/
theorem full_of_none (ht : TermInv g s) (h : g.nrInSignaled n = 0) :
    s.nrTerminateSignals n = g.nrInSignaledForward n ∧
      ∀ e ∈ g.inEdges n, readyEdge g s e = false := by
  have hnone : ∀ e ∈ g.inEdges n, ¬ (g.edge e).isSignalDriven = true := List.countP_eq_zero.mp h
  refine ⟨?_, fun e he => ?_⟩
  · have hzero : s.nrTerminateSignals n = 0 := by
      rw [ht.signals n, List.countP_eq_zero]
      exact fun e he hs => hnone e he (of_decide_eq_true hs).signaled
    rw [hzero, Graph.nrInSignaledForward, h, Nat.zero_sub]
  · by_contra hr
    exact hnone e he (readyEdge_signaled (by simpa using hr))

theorem ending_of_over {ret : WaitRet} {i : Nat} (h : (Pc.wait (.skips ret i)).over = true) :
    ret = .terminate := by
  cases ret with
  | terminate => rfl
  | ok | error => cases h

/-- The steps of `pgm_wait` after the decision. -/
theorem over_own {t : Nat} {ans : Answer} {w : WaitPc} (ht : TermInv g s) (hpc : s.pc t = .wait w)
    (hm : WaitMove g s t ans w eff p) (hi : LastInv g s t) (hover : p.over = true) :
    ((s.apply g t eff).setPc t p).nrTerminateSignals t = g.nrInSignaledForward t ∧
      ∀ e ∈ g.inEdges t, (g.edge e).isBackedge = false →
        readyEdge g ((s.apply g t eff).setPc t p) e = false := by
  have hold : w.status = some .exhaustedAndTerminate ∨ (Pc.wait w).ending = true →
      s.nrTerminateSignals t = g.nrInSignaledForward t ∧
        ∀ e ∈ g.inEdges t, (g.edge e).isBackedge = false → readyEdge g s e = false := by
    intro h
    refine hi.decided ?_
    rw [hpc]
    simpa [Pc.over] using h
  cases hm with
  | startData h =>
    obtain ⟨hfull, hnone⟩ := full_of_none ht h
    exact ⟨hfull, fun e he _ => hnone e he⟩
  | allTerm l h =>
    refine ⟨h, fun e he hf => ?_⟩
    exact short_of_passed (s := s) (by rw [hpc]; rfl) (hi.window h) he hf
  | unlock tok | noData tok | recvStart tok | recvNone tok | recv tok | recvDone tok =>
    refine hold (Or.inl ?_)
    simpa [Pc.over, WaitPc.status, Pc.ending] using hover
  | toSkips tok dat h =>
    refine hold (Or.inl ?_)
    have hret := ending_of_over hover
    unfold waitRet at hret
    split_ifs at hret with htok
    exact congrArg some htok.1
  | skip ret i e he h =>
    obtain rfl := ending_of_over hover
    obtain ⟨hfull, hshort⟩ := hold (Or.inr rfl)
    refine ⟨hfull, fun e' he' hf => not_ready_of_le (hshort e' he' hf) rfl ?_⟩
    change update s.nrSkips e (s.nrSkips e - 1) e' ≤ s.nrSkips e'
    by_cases hee : e' = e
    · subst hee
      rw [Function.update_self]
      exact Nat.sub_le _ _
    · rw [Function.update_of_ne hee]
  | skipPass ret i e he h =>
    obtain rfl := ending_of_over hover
    exact hold (Or.inr rfl)
  | terminate i hend => exact hold (Or.inr rfl)
  | allReady l | someReady l | noTerm l | notAllTerm l =>
    cases l <;> simp [Pc.over, granted, mustWait, WaitPc.status, Pc.ending] at hover
  | consumed ret i hend => exact absurd (ending_of_over hover) (ht.taking t ret i hpc)
  | _ => simp [Pc.over, WaitPc.status, Pc.ending] at hover

/-- The steps of the closing `pgm_terminate`. -/
theorem over_prod {m : Nat} {cmd : Command} {w err : Bool} {ans : Answer} {q : ProdPc}
    (hm : ProdMove g s m cmd w err ans q eff p) (hover : p.over = true) :
    (Pc.prod m cmd w err q).over = true ∧ (∀ e, eff ≠ .subTokens e) ∧ ∀ e, eff ≠ .decSkips e := by
  cases hm with
  | done =>
    cases w with
    | true => exact ⟨rfl, by simp, by simp⟩
    | false => cases hover
  | _ => exact ⟨hover, by simp, by simp⟩

theorem step_lastInv (ht : TermInv g s) (ha : AtMostOnce s a) (hrace : NoRace g s a)
    (hi : ∀ n, LastInv g s n) (h : step g s a = some s') (n : Nat) : LastInv g s' n := by
  obtain ⟨eff, p, hm, rfl⟩ := step_move h
  by_cases hn : n = a.thread
  · subst hn
    cases hm with
    | wait t ans w eff p hpc hm =>
      refine ⟨fun hfull => ?_, fun hover => ?_⟩
      · refine window_own hpc hm ((hi t).window ?_)
        cases hm <;> exact hfull
      · rw [setPc_pc_self] at hover
        exact over_own ht hpc hm (hi t) hover
    | prod t m ans cmd w err q eff p hpc hm' =>
      refine ⟨fun _ => not_overtaken ?_, fun hover => ?_⟩
      · rw [setPc_pc_self]
        cases hm' <;> rfl
      · rw [setPc_pc_self] at hover
        have hm : Move g s (.run t ans) eff p := .prod t m ans cmd w err q eff p hpc hm'
        obtain ⟨hover', hsub, hdec⟩ := over_prod hm' hover
        obtain ⟨hfull, hshort⟩ := (hi t).decided (by rw [hpc]; exact hover')
        refine ⟨(full_step ht ha hm hfull).trans hfull, fun e he hf => ?_⟩
        rw [ready_frozen ht hm hfull he hf (hsub e) (hdec e)]
        exact hshort e he hf
    | callWait | spurious | callComplete | callTerminate =>
      refine ⟨fun _ => not_overtaken ?_, fun hover => ?_⟩
      · rw [setPc_pc_self]
        rfl
      · rw [setPc_pc_self] at hover
        cases hover
  · exact lastInv_foreign ht ha hrace hm hn (hi n)

theorem initState_lastInv (junk : Junk) (g : Graph) (n : Nat) : LastInv g (initState junk g) n :=
  ⟨fun _ => not_overtaken rfl, by rintro ⟨⟩⟩

/-- **No token is lost.** Let nodes complete before they terminate, and terminate at most
once. In every run in which no last terminate signal comes while its receiver is
overtaken, a node to which `pgm_wait` has returned `PGM_TERMINATE` has all forward
signaled in-edges short of their thresholds. -/
theorem no_token_lost
    (h : Lts.Reach (step g) (fun s a => AtMostOnce s a ∧ NoRace g s a) (initState junk g) s)
    (hpc : s.pc n = .idle (some .terminate)) (he : e ∈ g.inEdges n)
    (hs : (g.edge e).isSignalDriven = true) (hf : (g.edge e).isBackedge = false) :
    s.nrPending e < (g.edge e).attr.nrThreshold := by
  have hinv : TermInv g s ∧ ∀ n, LastInv g s n :=
    Lts.Reach.inv (I := fun s => TermInv g s ∧ ∀ n, LastInv g s n)
      ⟨initState_termInv junk g, initState_lastInv junk g⟩
      (fun s a s' _ hi hp hs =>
        ⟨step_termInv hp.1 hi.1 hs, step_lastInv hi.1 hp.1 hp.2 hi.2 hs⟩) h
  have hshort := ((hinv.2 n).decided (by rw [hpc]; rfl)).2 e he hf
  by_contra hle
  have hready : readyEdge g s e = true := readyEdge_iff.mpr ⟨hs, Or.inl (Nat.le_of_not_lt hle)⟩
  rw [hshort] at hready
  cases hready

end

/-! ## A producer that ends between two reads -/

/-- Node 1 reads the counter of its in-edge, node 0 sends a token and terminates, and
node 1 reads its terminate signals. -/
def overtakenRun : List Act :=
  List.flatten [[.wait 1], runs 1 2, [.complete 0 0], runs 0 9, [.terminate 0 0], runs 0 7, runs 1 9]

/-- The token is there when `pgm_wait` returns `PGM_TERMINATE`. -/
theorem token_lost :
    ∃ s, Lts.Reach (step .line) AtMostOnce (initState zeroed Graph.line) s ∧
      s.pc 1 = .idle (some .terminate) ∧ 0 ∈ Graph.line.inEdges 1 ∧ CvGraph Graph.line ∧
      (Graph.line.edge 0).isBackedge = false ∧
      ¬ s.nrPending 0 < (Graph.line.edge 0).attr.nrThreshold := by
  have hd : (Lts.drive (step .line) (fun s a => decide (AtMostOnce s a)) (initState zeroed Graph.line)
      overtakenRun).map (fun s => decide (s.pc 1 = .idle (some .terminate) ∧ s.nrPending 0 = 1)) =
      some true := by decide +kernel
  obtain ⟨s, hs, hobs⟩ := Lts.reach_of_drive_map (fun s a h => of_decide_eq_true h) hd
  obtain ⟨hpc, hpend⟩ := of_decide_eq_true hobs
  refine ⟨s, hs, hpc, by decide, by decide, rfl, ?_⟩
  rw [hpend]
  decide

/-- A token is sent and taken, and both nodes terminate. -/
def orderlyRun : List Act :=
  List.flatten [[.complete 0 0], runs 0 9, [.wait 1], runs 1 9, [.terminate 0 0], runs 0 7,
    [.wait 1], runs 1 11]

theorem orderly_end :
    ∃ s, Lts.Reach (step .line) (fun s a => AtMostOnce s a ∧ NoRace .line s a)
        (initState zeroed Graph.line) s ∧
      s.pc 1 = .idle (some .terminate) ∧ s.nrPending 0 < 1 := by
  have hd : (Lts.drive (step .line) (fun s a => decide (AtMostOnce s a ∧ NoRace .line s a))
      (initState zeroed Graph.line) orderlyRun).map
        (fun s => decide (s.pc 1 = .idle (some .terminate))) = some true := by decide +kernel
  obtain ⟨s, hs, hobs⟩ := Lts.reach_of_drive_map (fun s a h => of_decide_eq_true h) hd
  have hpc := of_decide_eq_true hobs
  exact ⟨s, hs, hpc, no_token_lost (e := 0) hs hpc (by decide) rfl rfl⟩

end Pgm
