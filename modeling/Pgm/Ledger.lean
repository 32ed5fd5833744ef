import Pgm.Consume

/-! The token ledger of a cv graph: each counter is what was put in at the start and
sent since, less what the returned waits took, and a back edge is spared from as
many waits as it had skips. -/

namespace Pgm

open Function (update)

def CompleteOrWait (g : Graph) : Act → Prop
  | .wait n => g.inEdges n ≠ []
  | .terminate _ _ => False
  | _ => True

instance (g : Graph) : (a : Act) → Decidable (CompleteOrWait g a)
  | .wait n => inferInstanceAs (Decidable (g.inEdges n ≠ []))
  | .terminate _ _ => inferInstanceAs (Decidable False)
  | .complete _ _ | .run _ _ | .spurious _ => inferInstanceAs (Decidable True)

def LedgerAct (g : Graph) (s : State) (a : Act) : Prop := CompleteOrWait g a ∧ TotalsBelow g s a

def WaitPc.Plain : WaitPc → Prop
  | .termAll _ | .recv _ _ => False
  | .unlock st | .tokensDone st => st = .success
  | .dataDone tok dat => tok = .success ∧ dat = .exhaustedAndTerminate
  | .consume ret _ | .skips ret _ => ret = .ok
  | _ => True

def Pc.Plain (g : Graph) (t : Nat) : Pc → Prop
  | .idle _ => True
  | .wait w => g.nrInSignaled t ≠ 0 ∧ w.Plain
  | .prod _ cmd _ _ _ => cmd = .normal

structure PlainInv (g : Graph) (s : State) : Prop where
  pc : ∀ t, (s.pc t).Plain g t
  signals : ∀ n, s.nrTerminateSignals n = 0

/-- 1 when the running wait is past edge number `j` in `pgm_consume_tokens`. -/
def Pc.consumed (j : Nat) : Pc → Nat
  | .wait (.consume _ i) => if j < i then 1 else 0
  | .wait (.skips _ _) => 1
  | _ => 0

/-- 1 when the running wait is past edge number `j` in `pgm_consume_skips`. -/
def Pc.skipped (j : Nat) : Pc → Nat
  | .wait (.skips _ i) => if j < i then 1 else 0
  | _ => 0

structure EdgeLedger (g : Graph) (s : State) (n j e : Nat) : Prop where
  pending : s.nrPending e +
      (g.edge e).attr.nrConsume * (s.fired n + (s.pc n).consumed j - (g.edge e).skips) =
    initPending g e + (g.edge e).attr.nrProduce * s.sends e
  skips : s.nrSkips e = (g.edge e).skips - (s.fired n + (s.pc n).skipped j)

section

variable {junk : Junk} {g : Graph} {s s' : State} {a : Act} {eff : Effect} {p : Pc} {n j e : Nat}

/-! ## Nobody terminates -/

theorem WaitMove.plain (hcv : CvGraph g) (hsig : s.nrTerminateSignals n = 0) {ans : Answer}
    {w : WaitPc} (hw : (Pc.wait w).Plain g n) (hm : WaitMove g s n ans w eff p) : p.Plain g n := by
  obtain ⟨hin, hw⟩ := hw
  cases hm with
  | startData h => exact absurd h hin
  | someTerm l h => exact absurd hsig h
  | allTerm | notAllTerm | recv | recvDone => exact absurd hw id
  | recvStart tok r h | recvNone tok st h => exact absurd (hcv.nrInData n) h
  | allReady l => cases l <;> exact ⟨hin, rfl⟩
  | someReady l | noTerm l => cases l <;> exact ⟨hin, trivial⟩
  | unlock st => exact ⟨hin, hw⟩
  | noData tok h => exact ⟨hin, hw, rfl⟩
  | toConsume tok dat | toSkips tok dat =>
    obtain ⟨rfl, rfl⟩ := hw
    exact ⟨hin, rfl⟩
  | consume | consumePass | consumed | skip | skipPass => exact ⟨hin, hw⟩
  | terminate i hi => cases hw
  | fire | fail => trivial
  | start | read | noneReady | lock | relock | cvWait => exact ⟨hin, trivial⟩

theorem ProdMove.plain {m t : Nat} {cmd : Command} {w err : Bool} {ans : Answer} {q : ProdPc}
    (hc : cmd = .normal) (hm : ProdMove g s m cmd w err ans q eff p) : p.Plain g t := by
  cases hm <;> first | exact hc | trivial

theorem step_plainInv (hcv : CvGraph g) (ha : LedgerAct g s a) (hi : PlainInv g s)
    (h : step g s a = some s') : PlainInv g s' := by
  obtain ⟨eff, p, hm, rfl⟩ := step_move h
  have hp : p.Plain g a.thread := by
    cases hm with
    | callWait n last hpc => exact ⟨hcv.nrInSignaled_ne ha.1, trivial⟩
    | callComplete => rfl
    | callTerminate t n => exact absurd ha.1 id
    | wait t ans w eff p hpc hm => exact hm.plain hcv (hi.signals t) (hpc ▸ hi.pc t)
    | prod t m ans cmd w err q eff p hpc hm =>
      have hc := hi.pc t
      rw [hpc] at hc
      exact hm.plain hc
    | spurious t hpc =>
      have hc := hi.pc t
      rw [hpc] at hc
      exact ⟨hc.1, trivial⟩
  constructor
  · intro t
    by_cases ht : t = a.thread
    · subst ht
      rw [setPc_pc_self]
      exact hp
    · rcases pc_of_ne (g := g) (s := s) eff p ht with heq | ⟨-, hpc, heq⟩
      · rw [heq]; exact hi.pc t
      · have hc := hi.pc t
        rw [hpc] at hc
        rw [heq]
        exact ⟨hc.1, trivial⟩
  · intro n
    change (s.apply g a.thread eff).nrTerminateSignals n = 0
    cases eff with
    | addTerminate e =>
      cases hm with
      | prod t m ans cmd w err q eff p hpc hm =>
        have hc := hi.pc t
        rw [hpc] at hc
        cases hm with
        | termSignal i e tw hc' => rw [hc'] at hc; cases hc
      | wait t ans w eff p hpc hm => cases hm
    | _ => exact hi.signals n

/-! ## The account of one edge -/

/-- Whatever is not taken from the edge leaves its account balanced. -/
theorem account_apply {X : Nat} {t : Nat}
    (h : s.nrPending e + X = initPending g e + (g.edge e).attr.nrProduce * s.sends e)
    (hsub : eff ≠ .subTokens e)
    (hno : eff = .addTokens e → s.nrPending e + (g.edge e).attr.nrProduce < 2 ^ 64) :
    (s.apply g t eff).nrPending e + X =
      initPending g e + (g.edge e).attr.nrProduce * (s.apply g t eff).sends e := by
  cases eff with
  | addTokens e' =>
    by_cases he : e = e'
    · subst he
      simp only [State.apply, Function.update_self]
      rw [Word.add_of_lt (hno rfl), Nat.mul_succ]
      omega
    · simpa [State.apply, he] using h
  | subTokens e' =>
    have he : e ≠ e' := by
      rintro rfl
      exact hsub rfl
    simpa [State.apply, he] using h
  | _ => exact h

theorem Move.fire_own (hm : Move g s a (.fire n) p) : n = a.thread := by
  cases hm with
  | wait t ans w eff p hpc hm => cases hm; rfl
  | prod t m ans cmd w err q eff p hpc hm => cases hm

theorem ledger_foreign (hno : NoOverflow g s a) (hm : Move g s a eff p) (hn : n ≠ a.thread)
    (he : (g.inEdges n)[j]? = some e) (hi : EdgeLedger g s n j e) :
    EdgeLedger g ((s.apply g a.thread eff).setPc a.thread p) n j e := by
  have he' : e ∈ g.inEdges n := List.mem_of_getElem? he
  have hfired : (s.apply g a.thread eff).fired n = s.fired n := by
    cases eff with
    | fire n' =>
      have hne : n ≠ n' := by
        rintro rfl
        exact hn hm.fire_own
      simp [State.apply, hne]
    | _ => rfl
  have hpc : (((s.apply g a.thread eff).setPc a.thread p).pc n).consumed j = (s.pc n).consumed j ∧
      (((s.apply g a.thread eff).setPc a.thread p).pc n).skipped j = (s.pc n).skipped j := by
    rcases pc_of_ne (g := g) (s := s) eff p hn with heq | ⟨-, hold, heq⟩
    · rw [heq]; exact ⟨rfl, rfl⟩
    · rw [heq, hold]; exact ⟨rfl, rfl⟩
  constructor
  · rw [hpc.1]
    change (s.apply g a.thread eff).nrPending e + _ * ((s.apply g a.thread eff).fired n + _ - _) = _
    rw [hfired]
    refine account_apply hi.pending ?_ ?_
    · rintro rfl
      exact ne_of_inEdges he' (hm.own_edge (Or.inl rfl)) hn rfl
    · rintro rfl
      exact hno e hm.sendsOn
  · rw [hpc.2]
    change (s.apply g a.thread eff).nrSkips e = _ - ((s.apply g a.thread eff).fired n + _)
    rw [hfired, foreign_nrSkips hm hn he']
    exact hi.skips

/-- A step of the owner that is neither in the taking of tokens nor in the skips. -/
theorem ledger_quiet {t : Nat} (hi : EdgeLedger g s t j e)
    (hold : (s.pc t).consumed j = 0 ∧ (s.pc t).skipped j = 0)
    (hnew : p.consumed j = 0 ∧ p.skipped j = 0)
    (hsub : eff ≠ .subTokens e) (hdec : eff ≠ .decSkips e) (hfire : eff ≠ .fire t)
    (hno : eff = .addTokens e → s.nrPending e + (g.edge e).attr.nrProduce < 2 ^ 64) :
    EdgeLedger g ((s.apply g t eff).setPc t p) t j e := by
  have hfired : (s.apply g t eff).fired t = s.fired t := by
    cases eff with
    | fire n' =>
      have hne : t ≠ n' := by
        rintro rfl
        exact hfire rfl
      simp [State.apply, hne]
    | _ => rfl
  have hpend := hi.pending
  have hsk := hi.skips
  rw [hold.1] at hpend
  rw [hold.2] at hsk
  constructor
  · rw [setPc_pc_self, hnew.1]
    change (s.apply g t eff).nrPending e + _ * ((s.apply g t eff).fired t + _ - _) = _
    rw [hfired]
    exact account_apply hpend hsub hno
  · rw [setPc_pc_self, hnew.2]
    change (s.apply g t eff).nrSkips e = _ - ((s.apply g t eff).fired t + _)
    rw [hfired, ← hsk]
    cases eff with
    | decSkips e' =>
      have hne : e ≠ e' := by
        rintro rfl
        exact hdec rfl
      simp [State.apply, hne]
    | _ => rfl

/-- The tokens of one in-edge are taken. -/
theorem ledger_consume {t i e' : Nat} {ret : WaitRet} (hpc : s.pc t = .wait (.consume ret i))
    (he : (g.inEdges t)[j]? = some e) (hi' : (g.inEdges t)[i]? = some e') (hsk : s.nrSkips e' = 0)
    (hle : (g.edge e').attr.nrConsume ≤ s.nrPending e') (hi : EdgeLedger g s t j e) :
    EdgeLedger g ((s.apply g t (.subTokens e')).setPc t (.wait (.consume ret (i + 1)))) t j e := by
  have hpend := hi.pending
  have hskips := hi.skips
  rw [hpc] at hpend hskips
  simp only [Pc.consumed, Pc.skipped, Nat.add_zero] at hpend hskips
  refine ⟨?_, by rw [setPc_pc_self]; exact hskips⟩
  rw [setPc_pc_self]
  simp only [State.setPc, State.apply, Pc.consumed]
  by_cases hij : i = j
  · subst hij
    obtain rfl : e' = e := Option.some.inj (hi'.symm.trans he)
    rw [Function.update_self, Word.sub_of_le hle]
    rw [if_neg (Nat.lt_irrefl i)] at hpend
    rw [if_pos (Nat.lt_succ_self i), show s.fired t + 1 - (g.edge e').skips =
      s.fired t + 0 - (g.edge e').skips + 1 by omega, Nat.mul_succ]
    omega
  · have hne : e ≠ e' := by
      rintro rfl
      exact hij (Graph.inEdges_inj hi' he)
    rw [Function.update_of_ne hne]
    have hlt : (j < i + 1) = (j < i) := propext ⟨by omega, by omega⟩
    simpa only [hlt] using hpend

/-- An in-edge with skips left is passed over. -/
theorem ledger_consumePass {t i e' : Nat} {ret : WaitRet} (hpc : s.pc t = .wait (.consume ret i))
    (he : (g.inEdges t)[j]? = some e) (hi' : (g.inEdges t)[i]? = some e') (hsk : s.nrSkips e' ≠ 0)
    (hi : EdgeLedger g s t j e) :
    EdgeLedger g ((s.apply g t .skip).setPc t (.wait (.consume ret (i + 1)))) t j e := by
  have hpend := hi.pending
  have hskips := hi.skips
  rw [hpc] at hpend hskips
  simp only [Pc.consumed, Pc.skipped, Nat.add_zero] at hpend hskips
  refine ⟨?_, by rw [setPc_pc_self]; exact hskips⟩
  rw [setPc_pc_self]
  simp only [State.setPc, State.apply, Pc.consumed]
  rw [← hpend]
  by_cases hij : i = j
  · subst hij
    obtain rfl : e' = e := Option.some.inj (hi'.symm.trans he)
    rw [if_neg (Nat.lt_irrefl i), if_pos (Nat.lt_succ_self i),
      show s.fired t + 1 - (g.edge e').skips = s.fired t + 0 - (g.edge e').skips by omega]
  · have hlt : (j < i + 1) = (j < i) := propext ⟨by omega, by omega⟩
    simp only [hlt]

theorem ledger_skip {t i e' : Nat} {ret : WaitRet} (hpc : s.pc t = .wait (.skips ret i))
    (he : (g.inEdges t)[j]? = some e) (hi' : (g.inEdges t)[i]? = some e')
    (heff : eff = .decSkips e' ∨ (eff = .skip ∧ s.nrSkips e' = 0)) (hi : EdgeLedger g s t j e) :
    EdgeLedger g ((s.apply g t eff).setPc t (.wait (.skips ret (i + 1)))) t j e := by
  have hpend := hi.pending
  have hskips := hi.skips
  rw [hpc] at hpend hskips
  simp only [Pc.consumed, Pc.skipped] at hpend hskips
  constructor
  · rw [setPc_pc_self]
    rcases heff with rfl | ⟨rfl, -⟩ <;> exact hpend
  · rw [setPc_pc_self]
    change (s.apply g t eff).nrSkips e = _ - ((s.apply g t eff).fired t + if j < i + 1 then 1 else 0)
    by_cases hij : i = j
    · subst hij
      obtain rfl : e' = e := Option.some.inj (hi'.symm.trans he)
      rw [if_pos (Nat.lt_succ_self i)]
      rw [if_neg (Nat.lt_irrefl i)] at hskips
      rcases heff with rfl | ⟨rfl, hz⟩
      · simp only [State.apply, Function.update_self]
        omega
      · simp only [State.apply]
        omega
    · have hlt : (j < i + 1) = (j < i) := propext ⟨by omega, by omega⟩
      have hne : e ≠ e' := by
        rintro rfl
        exact hij (Graph.inEdges_inj hi' he)
      simp only [hlt]
      rcases heff with rfl | ⟨rfl, -⟩
      · simpa [State.apply, hne] using hskips
      · exact hskips

theorem lt_of_end {t i : Nat} (he : (g.inEdges t)[j]? = some e) (hi : (g.inEdges t)[i]? = none) :
    j < i := by
  have hlen := List.getElem?_eq_none_iff.mp hi
  obtain ⟨hlt, -⟩ := List.getElem?_eq_some_iff.mp he
  omega

theorem ledger_own {t : Nat} {ans : Answer} {w : WaitPc} (hcv : CvGraph g)
    (hpc : s.pc t = .wait w) (hplain : (Pc.wait w).Plain g t)
    (hready : ReadyInv g (·.attr.nrThreshold) s t) (hm : WaitMove g s t ans w eff p)
    (he : (g.inEdges t)[j]? = some e) (hi : EdgeLedger g s t j e) :
    EdgeLedger g ((s.apply g t eff).setPc t p) t j e := by
  cases hm with
  | consume ret i e' hi' h =>
    have hle := hready.consume ret i hpc e' (by rw [Scan.drop_eq_cons hi']; exact List.mem_cons_self)
      h.1 h.2
    exact ledger_consume hpc he hi' h.2 ((g.edge e').accepted.threshold.trans hle) hi
  | consumePass ret i e' hi' h =>
    have hs := hcv.signaled (List.mem_of_getElem? hi')
    exact ledger_consumePass hpc he hi' (fun hz => h ⟨hs, hz⟩) hi
  | consumed ret i hend =>
    have hlt := lt_of_end he hend
    have hpend := hi.pending
    have hskips := hi.skips
    rw [hpc] at hpend hskips
    simp only [Pc.consumed, Pc.skipped, if_pos hlt] at hpend hskips
    exact ⟨by rw [setPc_pc_self]; exact hpend, by
      rw [setPc_pc_self]
      simpa [Pc.skipped, State.apply, State.setPc] using hskips⟩
  | skip ret i e' hi' h => exact ledger_skip hpc he hi' (Or.inl rfl) hi
  | skipPass ret i e' hi' h => exact ledger_skip hpc he hi' (Or.inr ⟨rfl, h⟩) hi
  | fire i hend =>
    have hlt := lt_of_end he hend
    have hpend := hi.pending
    have hskips := hi.skips
    rw [hpc] at hpend hskips
    simp only [Pc.consumed, Pc.skipped, if_pos hlt] at hpend hskips
    constructor
    · rw [setPc_pc_self]
      simpa [State.apply, State.setPc, Pc.consumed] using hpend
    · rw [setPc_pc_self]
      simpa [State.apply, State.setPc, Pc.skipped] using hskips
  | terminate i hend => cases hplain.2
  | fail i hend => cases hplain.2
  | toSkips tok dat h =>
    obtain ⟨hin, rfl, rfl⟩ := hplain
    exact absurd ⟨hin, by decide⟩ h
  | toConsume tok dat h hr =>
    exact ledger_quiet hi (by rw [hpc]; exact ⟨rfl, rfl⟩) ⟨rfl, rfl⟩ (by simp) (by simp) (by simp)
      (by simp)
  | allReady l | someReady l | noTerm l | allTerm l | notAllTerm l =>
    exact ledger_quiet hi (by rw [hpc]; exact ⟨rfl, rfl⟩) (by cases l <;> exact ⟨rfl, rfl⟩)
      (by simp) (by simp) (by simp) (by simp)
  | _ =>
    exact ledger_quiet hi (by rw [hpc]; exact ⟨rfl, rfl⟩) ⟨rfl, rfl⟩ (by simp) (by simp) (by simp)
      (by simp)

/-- All that holds of a graph whose nodes complete and wait. -/
structure LedgerInv (g : Graph) (s : State) : Prop where
  cv : CvInv g s
  plain : PlainInv g s
  ready : ∀ n, ReadyInv g (·.attr.nrThreshold) s n
  edges : ∀ n j e, (g.inEdges n)[j]? = some e → EdgeLedger g s n j e

theorem step_ledgerInv (hcv : CvGraph g) (ha : LedgerAct g s a) (hi : LedgerInv g s)
    (h : step g s a = some s') : LedgerInv g s' := by
  have hno := hi.cv.noOverflow ha.2
  refine ⟨step_cvInv hcv ha.2 hi.cv h, step_plainInv hcv ha hi.plain h,
    step_readyInv (fun e => le_rfl) hno hi.cv.ended.tested hi.ready h, fun n j e he => ?_⟩
  have hedge := hi.edges n j e he
  obtain ⟨eff, p, hm, rfl⟩ := step_move h
  by_cases hn : n = a.thread
  · subst hn
    have hno' : eff = .addTokens e → s.nrPending e + (g.edge e).attr.nrProduce < 2 ^ 64 := by
      rintro rfl
      exact hno e hm.sendsOn
    cases hm with
    | wait t ans w eff p hpc hm =>
      exact ledger_own hcv hpc (hpc ▸ hi.plain.pc t) (hi.ready t) hm he hedge
    | prod t m ans cmd w err q eff p hpc hm =>
      refine ledger_quiet hedge (by simp only [Act.thread, hpc]; exact ⟨rfl, rfl⟩) ?_ ?_ ?_ ?_ hno'
      all_goals cases hm <;> first | exact ⟨rfl, rfl⟩ | simp
    | callWait n last hpc | callComplete t n last hpc | callTerminate t n last hpc
    | spurious t hpc =>
      exact ledger_quiet hedge (by simp only [Act.thread, hpc]; exact ⟨rfl, rfl⟩) ⟨rfl, rfl⟩
        (by simp) (by simp) (by simp) hno'
  · exact ledger_foreign hno hm hn he hedge

theorem initState_ledgerInv (junk : Junk) (g : Graph) : LedgerInv g (initState junk g) := by
  refine ⟨initState_cvInv junk g, ⟨fun _ => trivial, fun _ => rfl⟩, initState_readyInv junk g _,
    fun n j e _ => ⟨?_, ?_⟩⟩
  · simp [initState, Pc.consumed]
  · simp [initState, Pc.skipped]

/-- **Token ledger.** Between two waits of its consumer, which has had `F` waits return 0,
a counter holds what was put there less `nr_consume` for each wait beyond the initial
skips, and the skips left are the initial ones less `F`. A wait beyond the skips has at
least the threshold before it takes its tokens. -/
theorem token_ledger (hcv : CvGraph g) (h : Lts.Reach (step g) (LedgerAct g) (initState junk g) s)
    (he : (g.inEdges n)[j]? = some e) :
    ((∀ w, s.pc n ≠ .wait w) →
      s.nrPending e + (g.edge e).attr.nrConsume * (s.fired n - (g.edge e).skips) =
        (g.edge e).attr.nrInit + (g.edge e).attr.nrProduce * s.sends e ∧
      s.nrSkips e = (g.edge e).skips - s.fired n) ∧
    ∀ ret i, s.pc n = .wait (.consume ret i) → i ≤ j → (g.edge e).skips < s.fired n + 1 →
      (g.edge e).attr.nrThreshold ≤ s.nrPending e := by
  have hinv : LedgerInv g s := Lts.Reach.inv (initState_ledgerInv junk g)
    (fun s a s' _ hi hp hs => step_ledgerInv hcv hp hi hs) h
  have he' : e ∈ g.inEdges n := List.mem_of_getElem? he
  have hedge := hinv.edges n j e he
  refine ⟨fun hpc => ?_, fun ret i hpc hij hF => ?_⟩
  · have hpend := hedge.pending
    have hskips := hedge.skips
    have hinit : initPending g e = (g.edge e).attr.nrInit := if_pos (hcv.edge he')
    cases hp : s.pc n with
    | wait w => exact absurd hp (hpc w)
    | idle last | prod m cmd w err q =>
      rw [hp] at hpend hskips
      rw [← hinit]
      exact ⟨hpend, hskips⟩
  · have hskips := hedge.skips
    rw [hpc] at hskips
    simp only [Pc.skipped] at hskips
    refine (hinv.ready n).consume ret i hpc e ?_ (hcv.signaled he') (by omega)
    exact Scan.mem_drop_of_le he hij

end

/-! ## An edge that is skipped once -/

def feedbackEdges : List Edge :=
  [forwardEdge 0 1 (cvAttr 1 1 1 0) line_accepted, backEdge 1 0 1 (cvAttr 1 1 1 0) line_accepted]

theorem feedbackEdges_small : (∀ e ∈ feedbackEdges, e.producer < 2 ∧ e.consumer < 2) ∧
    feedbackEdges.length < 32 := by decide

def feedback : Graph := .small 2 feedbackEdges feedbackEdges_small.1 feedbackEdges_small.2

/-- A token goes round. The first wait of node 0 skips the back edge, the second takes the token. -/
def feedbackRun : List Act :=
  List.flatten [[.wait 0], runs 0 9, [.complete 0 0], runs 0 9, [.wait 1], runs 1 9, [.complete 1 1],
    runs 1 9, [.wait 0], runs 0 9]

instance (g : Graph) (s : State) (a : Act) : Decidable (LedgerAct g s a) :=
  inferInstanceAs (Decidable (_ ∧ _))

theorem feedback_ledger :
    ∃ s, Lts.Reach (step feedback) (LedgerAct feedback) (initState zeroed feedback) s ∧
      s.pc 0 = .idle (some .ok) ∧ s.sends 1 = 1 ∧ s.fired 0 = 2 ∧
      s.nrPending 1 + 1 * (2 - 1) = 0 + 1 * 1 ∧ s.nrSkips 1 = 1 - 2 := by
  have hd : (Lts.drive (step feedback) (fun s a => decide (LedgerAct feedback s a))
      (initState zeroed feedback) feedbackRun).map (fun s => (s.pc 0, s.sends 1, s.fired 0)) =
        some (.idle (some .ok), 1, 2) := rfl
  obtain ⟨s, hs, hobs⟩ := Lts.reach_of_drive_map (fun s a h => of_decide_eq_true h) hd
  simp only [Prod.mk.injEq] at hobs
  obtain ⟨hpc, hsends, hfired⟩ := hobs
  have hledger := (token_ledger (n := 0) (j := 0) (e := 1) (by decide) hs rfl).1
    (by rw [hpc]; simp)
  rw [hsends, hfired] at hledger
  exact ⟨s, hs, hpc, hsends, hfired, hledger⟩

end Pgm
