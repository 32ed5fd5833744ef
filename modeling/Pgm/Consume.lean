import Pgm.Ready

/-! What `pgm_wait` may take. Between a successful test and `pgm_consume_tokens` other
threads only add tokens, so an in-edge that was ready is ready when its tokens are
taken. The one way around the test is a node whose token side has ended while its data
side goes on. -/

namespace Pgm

open Function (update)

/-- What the token side of the wait has come to. -/
def WaitPc.status : WaitPc → Option WaitStatus
  | .unlock st | .tokensDone st | .recv st _ | .dataDone st _ => some st
  | _ => none

/-- The node for which an action goes on to `pgm_consume_tokens` after the token side
has reported `WaitExhaustedAndTerminate`. -/
def consumesExhausted (g : Graph) (s : State) : Act → Option Nat
  | .run n _ =>
    match s.pc n with
    | .wait (.dataDone .exhaustedAndTerminate dat) =>
      if g.nrInSignaled n ≠ 0 ∧ waitRet .exhaustedAndTerminate dat ≠ .terminate then some n else none
    | _ => none
  | _ => none

/-- No action does so. -/
def Tested (g : Graph) (s : State) (a : Act) : Prop := consumesExhausted g s a = none

instance (g : Graph) (s : State) (a : Act) : Decidable (Tested g s a) :=
  inferInstanceAs (Decidable (consumesExhausted g s a = none))

/-- From the test to the taking of tokens, for a property `R` that the test finds on the in-edges and
a property `C` that the taking needs. -/
structure GrantInv (g : Graph) (R : State → Nat → Bool) (C : State → Nat → Prop) (s : State)
    (n : Nat) : Prop where
  scan : ∀ l i r rn, s.pc n = .wait (.scan l i r rn) → r ≤ ((g.inEdges n).take i).countP (R s)
  status : ∀ w st, s.pc n = .wait w → w.status = some st →
    st = .success ∨ st = .exhaustedAndTerminate
  granted : ∀ w, s.pc n = .wait w → w.status = some .success → ∀ e ∈ g.inEdges n,
    (g.edge e).isSignalDriven = true → R s e = true
  consume : ∀ ret i, s.pc n = .wait (.consume ret i) → ∀ e ∈ (g.inEdges n).drop i,
    (g.edge e).isSignalDriven = true → s.nrSkips e = 0 → C s e

/-- At least `b` tokens to take from. -/
abbrev ReadyInv (g : Graph) (b : Edge → Nat) : State → Nat → Prop :=
  GrantInv g (readyEdge g) (fun s e => b (g.edge e) ≤ s.nrPending e)

section

variable {junk : Junk} {g : Graph} {b : Edge → Nat} {R : State → Nat → Bool} {C : State → Nat → Prop}
  {s s' : State} {a : Act} {eff : Effect} {p : Pc} {n e : Nat}

/-- Nothing is asked of an owner outside of the test and the taking. -/
theorem grantInv_trivial (hp : ∀ w, s.pc n = .wait w → w.status = none ∧
    (∀ l i r rn, w ≠ .scan l i r rn) ∧ ∀ ret i, w ≠ .consume ret i) : GrantInv g R C s n := by
  refine ⟨fun l i r rn h => ?_, fun w st h hst => ?_, fun w h hst => ?_, fun ret i h => ?_⟩
  · exact absurd rfl ((hp _ h).2.1 l i r rn)
  · rw [(hp w h).1] at hst; cases hst
  · rw [(hp w h).1] at hst; cases hst
  · exact absurd rfl ((hp _ h).2.2 ret i)

/-- The token side has come to a status, or keeps it. -/
theorem grantInv_status {w : WaitPc} {st : WaitStatus} (hpc : s.pc n = .wait w)
    (hw : w.status = some st) (hst : st = .success ∨ st = .exhaustedAndTerminate)
    (hall : st = .success → ∀ e ∈ g.inEdges n, (g.edge e).isSignalDriven = true → R s e = true) :
    GrantInv g R C s n := by
  refine ⟨fun l i r rn h => ?_, fun w' st' h hst' => ?_, fun w' h hst' => ?_, fun ret i h => ?_⟩
  all_goals rw [hpc] at h; cases h
  · cases hw
  · rw [hw] at hst'
    cases hst'
    exact hst
  · rw [hw] at hst'
    cases hst'
    exact hall rfl
  · cases hw

theorem grantInv_scan {l : Bool} {i r rn : Nat} (hpc : s.pc n = .wait (.scan l i r rn))
    (hle : r ≤ ((g.inEdges n).take i).countP (R s)) : GrantInv g R C s n := by
  refine ⟨fun l i r rn h => ?_, fun w st h hst => ?_, fun w h hst => ?_, fun ret i h => ?_⟩
  all_goals rw [hpc] at h; cases h
  · exact hle
  · cases hst
  · cases hst

theorem grantInv_consume {ret : WaitRet} {i : Nat} (hpc : s.pc n = .wait (.consume ret i))
    (h : ∀ e ∈ (g.inEdges n).drop i, (g.edge e).isSignalDriven = true → s.nrSkips e = 0 →
      C s e) : GrantInv g R C s n := by
  refine ⟨fun l i r rn hp => ?_, fun w st hp hst => ?_, fun w hp hst => ?_, fun ret i hp => ?_⟩
  all_goals rw [hpc] at hp; cases hp
  · cases hst
  · cases hst
  · exact h

theorem granted_status (l : Bool) (st : WaitStatus) : (granted l st).status = some st := by
  cases l <;> rfl

/-- What a step must leave alone for the grants of node `n` to last: only the taking of tokens and
the end of a skip may spoil an in-edge. -/
structure Keeps (g : Graph) (R : State → Nat → Bool) (C : State → Nat → Prop) (s s' : State)
    (eff : Effect) (n : Nat) : Prop where
  signaled : ∀ e, R s e = true → (g.edge e).isSignalDriven = true
  ready : ∀ l i r rn, s.pc n = .wait (.scan l i r rn) → ∀ e ∈ g.inEdges n,
    readyEdge g s e = true → R s e = true
  start : ∀ e ∈ g.inEdges n, R s e = true → s.nrSkips e = 0 → C s e
  keep : ∀ e ∈ g.inEdges n, eff ≠ .subTokens e → eff ≠ .decSkips e → R s e = true → R s' e = true
  keepTokens : ∀ e ∈ g.inEdges n, eff ≠ .subTokens e → eff ≠ .decSkips e → C s e → C s' e

theorem grantInv_foreign (hm : Move g s a eff p) (hn : n ≠ a.thread)
    (hk : Keeps g R C s ((s.apply g a.thread eff).setPc a.thread p) eff n)
    (hi : GrantInv g R C s n) : GrantInv g R C ((s.apply g a.thread eff).setPc a.thread p) n := by
  -- the thread that steps lowers counters and skips of its own in-edges only
  have hsub : ∀ e ∈ g.inEdges n, eff ≠ .subTokens e := fun e he heff =>
    ne_of_inEdges he (hm.own_edge (Or.inl heff)) hn rfl
  have hdec : ∀ e ∈ g.inEdges n, eff ≠ .decSkips e := fun e he heff =>
    ne_of_inEdges he (hm.own_edge (Or.inr heff)) hn rfl
  have hkeep : ∀ e ∈ g.inEdges n, R s e = true →
      R ((s.apply g a.thread eff).setPc a.thread p) e = true :=
    fun e he => hk.keep e he (hsub e he) (hdec e he)
  rcases pc_of_ne (g := g) (s := s) eff p hn with hpc | ⟨-, -, hwoken⟩
  · refine ⟨fun l i r rn hp => ?_, fun w st hp hst => ?_, fun w hp hst => ?_,
      fun ret i hp e he hs hsk => ?_⟩
    · refine (hi.scan l i r rn (hpc ▸ hp)).trans ?_
      exact List.countP_mono_left (fun e he => hkeep e (List.mem_of_mem_take he))
    · exact hi.status w st (hpc ▸ hp) hst
    · intro e he hs
      exact hkeep e he (hi.granted w (hpc ▸ hp) hst e he hs)
    · have he' := List.mem_of_mem_drop he
      have hsk' : s.nrSkips e = 0 := (foreign_nrSkips hm hn he').symm.trans hsk
      exact hk.keepTokens e he' (hsub e he') (hdec e he') (hi.consume ret i (hpc ▸ hp) e he hs hsk')
  · refine ⟨fun l i r rn hp => ?_, fun w st hp hst => ?_, fun w hp hst => ?_, fun ret i hp => ?_⟩
    all_goals rw [hwoken] at hp; cases hp
    all_goals cases hst

theorem granted_tokens {t : Nat} {tok dat : WaitStatus} {ans : Answer}
    (hstart : ∀ e ∈ g.inEdges t, R s e = true → s.nrSkips e = 0 → C s e)
    (htest : Tested g s (.run t ans)) (hpc : s.pc t = .wait (.dataDone tok dat))
    (hi : GrantInv g R C s t) (h : g.nrInSignaled t ≠ 0) (hr : waitRet tok dat ≠ .terminate)
    (he : e ∈ g.inEdges t) (hs : (g.edge e).isSignalDriven = true) (hsk : s.nrSkips e = 0) :
    C s e := by
  rcases hi.status _ tok hpc rfl with rfl | rfl
  · exact hstart e he (hi.granted _ hpc rfl e he hs) hsk
  · simp [Tested, consumesExhausted, hpc, h, hr] at htest

theorem grantInv_own {t : Nat} {ans : Answer} {w : WaitPc} (htest : Tested g s (.run t ans))
    (hpc : s.pc t = .wait w) (hm : WaitMove g s t ans w eff p)
    (hk : Keeps g R C s ((s.apply g t eff).setPc t p) eff t) (hi : GrantInv g R C s t) :
    GrantInv g R C ((s.apply g t eff).setPc t p) t := by
  cases hm with
  | start h | lock h | relock h => exact grantInv_scan setPc_pc_self (Nat.zero_le _)
  | read l i r rn e he =>
    have hle := hi.scan l i r rn hpc
    have hone : readyEdge g s e = true → R s e = true :=
      hk.ready l i r rn hpc e (List.mem_of_getElem? he)
    refine grantInv_scan setPc_pc_self (le_trans ?_ (List.countP_mono_left (fun e' he' =>
      hk.keep e' (List.mem_of_mem_take he') nofun nofun)))
    rw [Scan.countP_take_succ he]
    split_ifs with hready hR
    · omega
    · exact absurd (hone hready) hR
    · omega
    · exact hle
  | startData h => exact grantInv_status setPc_pc_self rfl (Or.inr rfl) nofun
  | allReady l i r rn hend hr =>
    refine grantInv_status setPc_pc_self (granted_status l _) (Or.inl rfl) (fun _ e he hs => ?_)
    have hle := hi.scan l i r rn hpc
    rw [Scan.take_of_end hend] at hle
    have hle' : (g.inEdges t).countP (R s) ≤ g.nrInSignaled t :=
      List.countP_mono_left (fun e _ h => hk.signaled e h)
    have hcount : (g.inEdges t).countP (R s) = g.nrInSignaled t := le_antisymm hle' (hr ▸ hle)
    have hall := Scan.forall_of_countP_eq (fun e _ h => hk.signaled e h) hcount
    exact hk.keep e he nofun nofun (hall e he hs)
  | allTerm l h => exact grantInv_status setPc_pc_self (granted_status l _) (Or.inr rfl) nofun
  | unlock tok | noData tok h | recvStart tok r h hr | recvNone tok st h hr | recv tok r r' d h
  | recvDone tok st r d h =>
    refine grantInv_status setPc_pc_self rfl (hi.status _ tok hpc rfl) (fun hc e he hs => ?_)
    exact hk.keep e he nofun nofun (hi.granted _ hpc (congrArg some hc) e he hs)
  | toConsume tok dat h hr =>
    refine grantInv_consume setPc_pc_self (fun e he hs hsk => ?_)
    have he' := List.mem_of_mem_drop he
    exact hk.keepTokens e he' nofun nofun (granted_tokens hk.start htest hpc hi h hr he' hs hsk)
  | consume ret i e he h =>
    refine grantInv_consume setPc_pc_self (fun e' he' hs hsk => ?_)
    have hne : e ≠ e' := by
      rintro rfl
      exact Scan.not_mem_drop_succ (g.inEdges_nodup t) he he'
    have hold := hi.consume ret i hpc e' (Scan.mem_drop_of_succ he') hs hsk
    refine hk.keepTokens e' (List.mem_of_mem_drop he') ?_ nofun hold
    exact fun heq => hne (Effect.subTokens.inj heq)
  | consumePass ret i e he h =>
    refine grantInv_consume setPc_pc_self (fun e' he' hs hsk => ?_)
    exact hk.keepTokens e' (List.mem_of_mem_drop he') nofun nofun
      (hi.consume ret i hpc e' (Scan.mem_drop_of_succ he') hs hsk)
  | someReady l | noTerm l | notAllTerm l =>
    refine grantInv_trivial ?_
    rw [setPc_pc_self]
    rintro _ ⟨⟩
    cases l <;> simp [mustWait, WaitPc.status]
  | terminate | fire | fail => exact grantInv_trivial (by rw [setPc_pc_self]; rintro _ ⟨⟩)
  | _ => exact grantInv_trivial (by rw [setPc_pc_self]; rintro _ ⟨⟩; simp [WaitPc.status])

/-- **One step keeps the grants.** -/
theorem step_grantInv (htest : Tested g s a) (hm : Move g s a eff p)
    (hk : Keeps g R C s ((s.apply g a.thread eff).setPc a.thread p) eff n)
    (hi : GrantInv g R C s n) : GrantInv g R C ((s.apply g a.thread eff).setPc a.thread p) n := by
  by_cases hn : n = a.thread
  · subst hn
    cases hm with
    | wait t ans w eff p hpc hm => exact grantInv_own htest hpc hm hk hi
    | prod t m ans cmd w err q eff p hpc hm =>
      exact grantInv_trivial (by rw [setPc_pc_self]; exact fun v hv => absurd hv (hm.not_wait v))
    | callWait | spurious =>
      exact grantInv_trivial (by rw [setPc_pc_self]; rintro _ ⟨⟩; simp [WaitPc.status])
    | callComplete | callTerminate =>
      exact grantInv_trivial (by rw [setPc_pc_self]; rintro _ ⟨⟩)
  · exact grantInv_foreign hm hn hk hi

theorem Move.consuming (hm : Move g s a (.subTokens e) p) :
    ∃ ret i, s.pc a.thread = .wait (.consume ret i) ∧ (g.inEdges a.thread)[i]? = some e ∧
      (g.edge e).isSignalDriven = true ∧ s.nrSkips e = 0 := by
  cases hm with
  | wait t ans w eff p hpc hm =>
    cases hm with
    | consume ret i e he h => exact ⟨ret, i, hpc, he, h⟩
  | prod t m ans cmd w err q eff p hpc hm => cases hm

/-- Tokens are taken from a granted edge. -/
theorem Move.takes (hi : ∀ n, GrantInv g R C s n) (hm : Move g s a (.subTokens e) p) : C s e := by
  obtain ⟨ret, i, hpc, he, hs, hsk⟩ := hm.consuming
  refine (hi a.thread).consume ret i hpc e ?_ hs hsk
  rw [Scan.drop_eq_cons he]
  exact List.mem_cons_self

theorem initState_grantInv (junk : Junk) (g : Graph) (R : State → Nat → Bool)
    (C : State → Nat → Prop) (n : Nat) : GrantInv g R C (initState junk g) n :=
  grantInv_trivial (by rintro _ ⟨⟩)

/-- Without an overflow a counter falls by the taking of tokens only. -/
theorem nrPending_le (hno : NoOverflow g s a) (hm : Move g s a eff p)
    (hsub : eff ≠ .subTokens e) : s.nrPending e ≤ (s.apply g a.thread eff).nrPending e := by
  cases eff with
  | addTokens e' =>
    by_cases he : e = e'
    · subst he
      simp only [State.apply, Function.update_self]
      rw [Word.add_of_lt (hno e hm.sendsOn)]
      exact Nat.le_add_right _ _
    · simp [State.apply, he]
  | subTokens e' =>
    have hne : e ≠ e' := fun h => hsub (h ▸ rfl)
    simp [State.apply, hne]
  | _ => exact Nat.le_refl _

theorem nrSkips_eq {t : Nat} (hdec : eff ≠ .decSkips e) :
    (s.apply g t eff).nrSkips e = s.nrSkips e := by
  cases eff with
  | decSkips e' =>
    have hne : e ≠ e' := fun h => hdec (h ▸ rfl)
    simp [State.apply, hne]
  | _ => rfl

theorem step_readyInv (hb : ∀ e, b e ≤ e.attr.nrThreshold) (hno : NoOverflow g s a)
    (htest : Tested g s a) (hi : ∀ n, ReadyInv g b s n) (h : step g s a = some s') (n : Nat) :
    ReadyInv g b s' n := by
  obtain ⟨eff, p, hm, rfl⟩ := step_move h
  refine step_grantInv htest hm ?_ (hi n)
  refine ⟨fun e hr => readyEdge_signaled hr, fun _ _ _ _ _ e _ hr => hr, fun e _ hr hsk => ?_,
    fun e _ hsub hdec hr => ?_, fun e _ hsub _ hle => hle.trans (nrPending_le hno hm hsub)⟩
  · rcases (readyEdge_iff.mp hr).2 with hle | hlt
    · exact (hb _).trans hle
    · omega
  · obtain ⟨hs, hr⟩ := readyEdge_iff.mp hr
    refine readyEdge_iff.mpr ⟨hs, hr.imp ?_ ?_⟩
    · exact fun h => h.trans (nrPending_le hno hm hsub)
    · exact fun h => h.trans_eq (nrSkips_eq hdec).symm

theorem initState_readyInv (junk : Junk) (g : Graph) (b : Edge → Nat) (n : Nat) :
    ReadyInv g b (initState junk g) n := initState_grantInv junk g _ _ n

/-- **No underflow.** In every run in which no send overflows a counter, and in which no
wait goes on to take tokens after its token side has ended, `pgm_consume_tokens` takes
`nr_consume` from a counter that holds at least as much. -/
theorem consume_never_underflows
    (h : Lts.Reach (step g) (fun s a => NoOverflow g s a ∧ Tested g s a)
      (initState junk g) s) {ret : WaitRet} {i : Nat} (hpc : s.pc n = .wait (.consume ret i))
    (he : (g.inEdges n)[i]? = some e) (hs : (g.edge e).isSignalDriven = true)
    (hsk : s.nrSkips e = 0) : (g.edge e).attr.nrConsume ≤ s.nrPending e := by
  have hinv : ∀ n, ReadyInv g (·.attr.nrConsume) s n :=
    Lts.Reach.inv (I := fun s => ∀ n, ReadyInv g (·.attr.nrConsume) s n)
      (initState_readyInv junk g _)
      (fun s a s' _ hi hp hs => step_readyInv (fun e => e.accepted.threshold) hp.1 hp.2 hi hs) h
  exact (hinv n).consume ret i hpc e (by rw [Scan.drop_eq_cons he]; exact List.mem_cons_self) hs hsk

/-! ## cv graphs -/

/-- In a cv graph the data side of a wait is always ended. -/
structure DataEnded (s : State) : Prop where
  noRecv : ∀ n tok r, s.pc n ≠ .wait (.recv tok r)
  dataDone : ∀ n tok dat, s.pc n = .wait (.dataDone tok dat) → dat = .exhaustedAndTerminate

theorem WaitMove.dataEnded (hcv : CvGraph g) {t : Nat} {ans : Answer} {w : WaitPc}
    (hw : ∀ tok r, w ≠ .recv tok r) (hm : WaitMove g s t ans w eff p) :
    (∀ tok r, p ≠ .wait (.recv tok r)) ∧
      ∀ tok dat, p = .wait (.dataDone tok dat) → dat = .exhaustedAndTerminate := by
  cases hm with
  | recvStart tok r h | recvNone tok st h => exact absurd (hcv.nrInData t) h
  | recv tok r | recvDone tok st r => exact absurd rfl (hw tok r)
  | noData tok h => exact ⟨by simp, by rintro _ _ ⟨⟩; rfl⟩
  | allReady l | someReady l | noTerm l | allTerm l | notAllTerm l =>
    cases l <;> exact ⟨by simp [granted, mustWait], by simp [granted, mustWait]⟩
  | _ => exact ⟨by simp, by simp⟩

theorem Move.dataEnded (hcv : CvGraph g) (hi : DataEnded s) (hm : Move g s a eff p) :
    (∀ tok r, p ≠ .wait (.recv tok r)) ∧
      ∀ tok dat, p = .wait (.dataDone tok dat) → dat = .exhaustedAndTerminate := by
  cases hm with
  | wait t ans w eff p hpc hm =>
    refine hm.dataEnded hcv (fun tok r hw => ?_)
    rw [hw] at hpc
    exact hi.noRecv t tok r hpc
  | prod t m ans cmd w err q eff p hpc hm =>
    exact ⟨fun tok r => hm.not_wait _, fun tok dat h => absurd h (hm.not_wait _)⟩
  | _ => exact ⟨by simp, by simp⟩

theorem step_dataEnded (hcv : CvGraph g) (hi : DataEnded s) (h : step g s a = some s') :
    DataEnded s' := by
  obtain ⟨eff, p, hm, rfl⟩ := step_move h
  obtain ⟨hp₁, hp₂⟩ := hm.dataEnded hcv hi
  have hpc : ∀ n, ((s.apply g a.thread eff).setPc a.thread p).pc n = p ∨
      ((s.apply g a.thread eff).setPc a.thread p).pc n = s.pc n ∨
      ((s.apply g a.thread eff).setPc a.thread p).pc n = .wait .woken := by
    intro n
    by_cases hn : n = a.thread
    · subst hn
      exact Or.inl setPc_pc_self
    · exact Or.inr ((pc_of_ne (g := g) (s := s) eff p hn).imp id (fun h => h.2.2))
  refine ⟨fun n tok r hn => ?_, fun n tok dat hn => ?_⟩
  · rcases hpc n with heq | heq | heq <;> rw [heq] at hn
    · exact hp₁ tok r hn
    · exact hi.noRecv n tok r hn
    · cases hn
  · rcases hpc n with heq | heq | heq <;> rw [heq] at hn
    · exact hp₂ tok dat hn
    · exact hi.dataDone n tok dat hn
    · cases hn

theorem initState_dataEnded (junk : Junk) (g : Graph) : DataEnded (initState junk g) :=
  ⟨by rintro _ _ _ ⟨⟩, by rintro _ _ _ ⟨⟩⟩

theorem DataEnded.tested (hi : DataEnded s) : Tested g s a := by
  unfold Tested consumesExhausted
  split
  · rename_i t ans
    split
    · rename_i dat hpc
      rw [hi.dataDone t _ dat hpc, if_neg (fun h => h.2 rfl)]
    · rfl
  · rfl

/-- No counter of a cv graph holds more than was ever put there. -/
structure CvInv (g : Graph) (s : State) : Prop where
  ended : DataEnded s
  ready : ∀ n, ReadyInv g (·.attr.nrConsume) s n
  total : ∀ e, s.nrPending e ≤ initPending g e + (g.edge e).attr.nrProduce * s.sends e

theorem CvInv.noOverflow (hi : CvInv g s) (ha : TotalsBelow g s a) : NoOverflow g s a := by
  intro e he
  have htotal : _ < _ := ha e he
  have hle := hi.total e
  rw [Nat.mul_succ] at htotal
  omega

/-- Only the taking of tokens could take a counter above its total, by a wrap. -/
theorem total_apply {t : Nat}
    (hle : s.nrPending e ≤ initPending g e + (g.edge e).attr.nrProduce * s.sends e)
    (hsub : eff = .subTokens e → (g.edge e).attr.nrConsume ≤ s.nrPending e) :
    (s.apply g t eff).nrPending e ≤
      initPending g e + (g.edge e).attr.nrProduce * (s.apply g t eff).sends e := by
  cases eff with
  | addTokens e' =>
    by_cases he : e = e'
    · subst he
      simp only [State.apply, Function.update_self]
      have := Nat.mod_le (s.nrPending e + (g.edge e).attr.nrProduce) (2 ^ 64)
      rw [Nat.mul_succ, Word.add]
      omega
    · simpa [State.apply, he] using hle
  | subTokens e' =>
    by_cases he : e = e'
    · subst he
      simp only [State.apply, Function.update_self]
      rw [Word.sub_of_le (hsub rfl)]
      omega
    · simpa [State.apply, he] using hle
  | _ => exact hle

theorem step_cvInv (hcv : CvGraph g) (ha : TotalsBelow g s a) (hi : CvInv g s)
    (h : step g s a = some s') : CvInv g s' := by
  refine ⟨step_dataEnded hcv hi.ended h, step_readyInv (fun e => e.accepted.threshold)
    (hi.noOverflow ha) hi.ended.tested hi.ready h, fun e => ?_⟩
  obtain ⟨eff, p, hm, rfl⟩ := step_move h
  refine total_apply (hi.total e) ?_
  rintro rfl
  exact hm.takes hi.ready

theorem initState_cvInv (junk : Junk) (g : Graph) : CvInv g (initState junk g) :=
  ⟨initState_dataEnded junk g, initState_readyInv junk g _, fun _ => Nat.le_add_right _ _⟩

end

/-! ## A token side that has ended while the data side goes on -/

/-- Node 0 feeds node 2 by a cv edge, node 1 by a FIFO. -/
def mixedEdges : List Edge :=
  [forwardEdge 0 2 (cvAttr 1 1 1 0) line_accepted, forwardEdge 1 2 (fifoAttr 1 1) fifo_accepted]

theorem mixedEdges_small : (∀ e ∈ mixedEdges, e.producer < 3 ∧ e.consumer < 3) ∧
    mixedEdges.length < 32 := by decide

def mixedGraph : Graph := .small 3 mixedEdges mixedEdges_small.1 mixedEdges_small.2

/-- Node 0 terminates without a token, node 1 sends one message, and node 2 waits. -/
def mixedRun : List Act :=
  List.flatten [[.terminate 0 0], runs 0 7, [.complete 1 1, .run 1 (.user [7]), .run 1 (.bytes 2)],
    runs 1 2, [.wait 2], runs 2 7, [.run 2 (.ready 2)], runs 2 3, [.run 2 (.bytes 2)], runs 2 2]

/-- The wait of node 2 is about to take a token from an empty counter. -/
theorem mixed_underflows :
    ∃ s, Lts.Reach (step mixedGraph) (NoOverflow mixedGraph) (initState zeroed mixedGraph) s ∧
      s.pc 2 = .wait (.consume .ok 0) ∧ (mixedGraph.inEdges 2)[0]? = some 0 ∧
      (mixedGraph.edge 0).isSignalDriven = true ∧ s.nrSkips 0 = 0 ∧ s.nrPending 0 = 0 ∧
      (mixedGraph.edge 0).attr.nrConsume = 1 ∧
      (step mixedGraph s (.run 2 .go)).map (fun s => s.nrPending 0) = some (2 ^ 64 - 1) := by
  have hd : (Lts.drive (step mixedGraph) (fun s a => decide (NoOverflow mixedGraph s a))
      (initState zeroed mixedGraph) mixedRun).map (fun s => (s.pc 2, s.nrSkips 0, s.nrPending 0,
        (step mixedGraph s (.run 2 .go)).map (fun s => s.nrPending 0))) =
      some (.wait (.consume .ok 0), 0, 0, some (2 ^ 64 - 1)) := rfl
  obtain ⟨s, hs, hobs⟩ := Lts.reach_of_drive_map (fun s a h => of_decide_eq_true h) hd
  simp only [Prod.mk.injEq] at hobs
  obtain ⟨hpc, hsk, hpend, hstep⟩ := hobs
  exact ⟨s, hs, hpc, rfl, rfl, hsk, hpend, rfl, hstep⟩

def lineRun : List Act :=
  List.flatten [[.complete 0 0], runs 0 8, [.wait 1], runs 1 5]

theorem line_takes_token :
    ∃ s, Lts.Reach (step .line) (fun s a => NoOverflow .line s a ∧ Tested .line s a)
        (initState zeroed .line) s ∧
      s.pc 1 = .wait (.consume .ok 0) ∧ 1 ≤ s.nrPending 0 := by
  have hd : (Lts.drive (step .line) (fun s a => decide (NoOverflow .line s a ∧ Tested .line s a))
      (initState zeroed .line) lineRun).map
        (fun s => (s.pc 1, s.nrSkips 0)) = some (.wait (.consume .ok 0), 0) := rfl
  obtain ⟨s, hs, hobs⟩ := Lts.reach_of_drive_map (fun s a h => of_decide_eq_true h) hd
  obtain ⟨hpc, hsk⟩ := Prod.mk.inj hobs
  exact ⟨s, hs, hpc, consume_never_underflows hs hpc (e := 0) rfl rfl hsk⟩

end Pgm
