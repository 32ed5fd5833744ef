import Pgm.Consume

/-! No wake-up of `pgm_cv_wait` is lost. A producer that makes a node's condition true
owes the node a wake-up: it has the node on its list `to_wake`, or it holds the
node's lock and is about to find all in-edges ready, or about to signal. The debt
is created in the same atomic step that makes the condition true, and it cannot be
paid off while the owner holds the lock for its second test. -/

namespace Pgm

open Function (update)

def ProdPc.wakeList : ProdPc → List Nat
  | .send _ tw | .write _ _ _ tw | .ringWrite _ _ _ tw | .tokens _ _ tw => tw
  | .wake todo | .recheck _ _ _ todo | .signal _ todo | .unlock _ todo => todo

/-- The producer has found all in-edges of `n` ready so far. -/
def ProdPc.rechecks (g : Graph) (n : Nat) : ProdPc → Prop
  | .recheck c i r _ => c = n ∧ r = signaledIn g n i
  | _ => False

def ProdPc.signals (n : Nat) : ProdPc → Prop
  | .signal c _ => c = n
  | _ => False

/-- The thread will signal `n`, as long as all in-edges of `n` stay ready. -/
def Pc.owes (g : Graph) (n : Nat) : Pc → Prop
  | .prod _ _ _ _ q => n ∈ q.wakeList ∨ q.rechecks g n ∨ q.signals n
  | _ => False

def Pc.owesTerm (n : Nat) : Pc → Prop
  | .prod _ .terminate _ _ q => n ∈ q.wakeList ∨ q.signals n
  | _ => False

def Owed (g : Graph) (s : State) (n : Nat) : Prop := ∃ t, (s.pc t).owes g n

def OwedTerm (s : State) (n : Nat) : Prop := ∃ t, (s.pc t).owesTerm n

/-- A send does not make a ready forward edge unready once all terminate signals of the
consumer are in. -/
def KeepsReady (g : Graph) (s : State) (a : Act) : Prop :=
  ∀ e, sendsOn s a = some e → (g.edge e).isBackedge = false →
    s.nrTerminateSignals (g.edge e).consumer = g.nrInSignaledForward (g.edge e).consumer →
    (g.edge e).attr.nrThreshold ≤ s.nrPending e →
    (g.edge e).attr.nrThreshold ≤ Word.add 64 (s.nrPending e) (g.edge e).attr.nrProduce

section

variable {junk : Junk} {g : Graph} {s s' : State} {a : Act} {eff : Effect} {p : Pc} {n e : Nat}

/-! ## Debts -/

theorem owes_of_wakeList {m : Nat} {cmd : Command} {w err : Bool} {q : ProdPc}
    (h : n ∈ q.wakeList) : (Pc.prod m cmd w err q).owes g n := Or.inl h

theorem afterData_wakeList (i e : Nat) (tw : List Nat) : (afterData g i e tw).wakeList = tw := by
  unfold afterData
  split <;> rfl

/-- A node on the list stays there, or its turn has come. -/
theorem ProdMove.wakeList_step {m : Nat} {cmd : Command} {w err : Bool} {ans : Answer} {q : ProdPc}
    (hm : ProdMove g s m cmd w err ans q eff p) (h : n ∈ q.wakeList) :
    p.owes g n ∧ (cmd = .terminate → p.owesTerm n) := by
  cases hm with
  | done => cases h
  | written i e buf tw =>
    refine ⟨owes_of_wakeList (by rw [afterData_wakeList]; exact h), ?_⟩
    rintro rfl
    exact Or.inl (by rw [afterData_wakeList]; exact h)
  | tokens i e tw hc =>
    subst hc
    refine ⟨owes_of_wakeList ?_, fun hc => by cases hc⟩
    simp only [ProdPc.wakeList]
    split
    · exact List.mem_append_left _ h
    · exact h
  | termSignal i e tw hc =>
    subst hc
    exact ⟨owes_of_wakeList (List.mem_append_left _ h), fun _ => Or.inl (List.mem_append_left _ h)⟩
  | lock c cs hl hc =>
    subst hc
    refine ⟨?_, fun hc => by cases hc⟩
    rcases List.mem_cons.mp h with rfl | h
    · exact Or.inr (Or.inl ⟨rfl, rfl⟩)
    · exact owes_of_wakeList h
  | lockTerm c cs hl hc =>
    subst hc
    rcases List.mem_cons.mp h with rfl | h
    · exact ⟨Or.inr (Or.inr rfl), fun _ => Or.inr rfl⟩
    · exact ⟨owes_of_wakeList h, fun _ => Or.inl h⟩
  | _ =>
    refine ⟨owes_of_wakeList h, ?_⟩
    rintro rfl
    exact Or.inl h

/-- A re-check goes on while all in-edges are ready, and ends in the signal. -/
theorem ProdMove.rechecks_step {m : Nat} {cmd : Command} {w err : Bool} {ans : Answer} {q : ProdPc}
    (hm : ProdMove g s m cmd w err ans q eff p) (h : q.rechecks g n) (hall : AllReady g s n) :
    p.owes g n := by
  cases hm with
  | recheck c i r e cs hi =>
    obtain ⟨rfl, rfl⟩ := h
    refine Or.inr (Or.inl ⟨rfl, ?_⟩)
    rw [signaledIn_succ hi]
    cases hs : (g.edge e).isSignalDriven
    · have hr : readyEdge g s e = false := Bool.eq_false_iff.mpr (fun h => by
        rw [readyEdge_signaled h] at hs; cases hs)
      simp [hr]
    · simp [hall e (List.mem_of_getElem? hi) hs]
  | recheckAll c i r cs hi hr =>
    obtain ⟨rfl, -⟩ := h
    exact Or.inr (Or.inr rfl)
  | recheckShort c i r cs hi hr =>
    obtain ⟨rfl, rfl⟩ := h
    exact absurd (signaledIn_all hi) hr
  | _ => exact absurd h id

theorem ProdMove.signals_step {m : Nat} {cmd : Command} {w err : Bool} {ans : Answer} {q : ProdPc}
    (hm : ProdMove g s m cmd w err ans q eff p) (h : q.signals n) : eff = .signal n := by
  cases hm with
  | signal c cs => exact congrArg Effect.signal h
  | _ => exact absurd h id

/-- The lock that a debt at its last stage needs. -/
theorem holds_of_engaged {q : ProdPc} (h : q.rechecks g n ∨ q.signals n) : q.lockOf = some n := by
  cases q with
  | recheck c i r todo =>
    rcases h with ⟨rfl, -⟩ | h
    · rfl
    · exact absurd h id
  | signal c todo =>
    rcases h with h | h
    · exact absurd h id
    · exact congrArg some h
  | _ => rcases h with h | h <;> exact absurd h id

theorem Move.owes_step (hm : Move g s a eff p) (h : (s.pc a.thread).owes g n)
    (hall : AllReady g s n) : p.owes g n ∨ eff = .signal n := by
  cases hm with
  | prod t m ans cmd w err q eff p hpc hm =>
    simp only [Act.thread, hpc] at h
    rcases h with h | h | h
    · exact Or.inl (hm.wakeList_step h).1
    · exact Or.inl (hm.rechecks_step h hall)
    · exact Or.inr (hm.signals_step h)
  | callWait n last hpc | callComplete t n last hpc | callTerminate t n last hpc | spurious t hpc
  | wait t ans w eff p hpc hm =>
    simp only [Act.thread, hpc] at h
    exact absurd h id

theorem Move.owesTerm_step (hm : Move g s a eff p) (h : (s.pc a.thread).owesTerm n) :
    p.owesTerm n ∨ eff = .signal n := by
  cases hm with
  | prod t m ans cmd w err q eff p hpc hm =>
    simp only [Act.thread, hpc] at h
    cases cmd with
    | normal => exact absurd h id
    | terminate =>
      rcases h with h | h
      · exact Or.inl ((hm.wakeList_step h).2 rfl)
      · exact Or.inr (hm.signals_step h)
  | callWait n last hpc | callComplete t n last hpc | callTerminate t n last hpc | spurious t hpc
  | wait t ans w eff p hpc hm =>
    simp only [Act.thread, hpc] at h
    exact absurd h id

/-- While the owner of `n` holds the lock, a producer with `n` on its list keeps it. -/
theorem Move.owes_step_locked (hl : LockInv s) (hm : Move g s a eff p) (hn : n ≠ a.thread)
    (hh : (s.pc n).holds n = some n) (h : (s.pc a.thread).owes g n) : p.owes g n := by
  cases hm with
  | prod t m ans cmd w err q eff p hpc hm =>
    simp only [Act.thread, hpc] at h
    rcases h with h | h
    · exact (hm.wakeList_step h).1
    · have hq : (s.pc t).holds t = some n := by rw [hpc]; exact holds_of_engaged h
      exact absurd (hl.unique hh hq) hn
  | callWait n last hpc | callComplete t n last hpc | callTerminate t n last hpc | spurious t hpc
  | wait t ans w eff p hpc hm =>
    simp only [Act.thread, hpc] at h
    exact absurd h id

/-- The debts of the threads that do not move stay. -/
theorem owes_of_ne {t : Nat} (ht : t ≠ a.thread) (h : (s.pc t).owes g n) :
    (((s.apply g a.thread eff).setPc a.thread p).pc t).owes g n := by
  rcases pc_of_ne (g := g) (s := s) eff p ht with heq | ⟨-, hpc, -⟩
  · rw [heq]; exact h
  · rw [hpc] at h; exact absurd h id

theorem owesTerm_of_ne {t : Nat} (ht : t ≠ a.thread) (h : (s.pc t).owesTerm n) :
    (((s.apply g a.thread eff).setPc a.thread p).pc t).owesTerm n := by
  rcases pc_of_ne (g := g) (s := s) eff p ht with heq | ⟨-, hpc, -⟩
  · rw [heq]; exact h
  · rw [hpc] at h; exact absurd h id

theorem owed_of_mover (h : p.owes g n) : Owed g ((s.apply g a.thread eff).setPc a.thread p) n :=
  ⟨a.thread, by rw [setPc_pc_self]; exact h⟩

theorem owedTerm_of_mover (h : p.owesTerm n) :
    OwedTerm ((s.apply g a.thread eff).setPc a.thread p) n :=
  ⟨a.thread, by rw [setPc_pc_self]; exact h⟩

theorem Owed.step_locked (h : Owed g s n) (hl : LockInv s) (hm : Move g s a eff p)
    (hn : n ≠ a.thread) (hh : (s.pc n).holds n = some n) :
    Owed g ((s.apply g a.thread eff).setPc a.thread p) n := by
  obtain ⟨t, ht⟩ := h
  by_cases hta : t = a.thread
  · subst hta
    exact owed_of_mover (hm.owes_step_locked hl hn hh ht)
  · exact ⟨t, owes_of_ne hta ht⟩

theorem Owed.step_ready (h : Owed g s n) (hm : Move g s a eff p) (hall : AllReady g s n)
    (hsig : eff ≠ .signal n) : Owed g ((s.apply g a.thread eff).setPc a.thread p) n := by
  obtain ⟨t, ht⟩ := h
  by_cases hta : t = a.thread
  · subst hta
    exact owed_of_mover ((hm.owes_step ht hall).resolve_right hsig)
  · exact ⟨t, owes_of_ne hta ht⟩

theorem OwedTerm.step (h : OwedTerm s n) (hm : Move g s a eff p) (hsig : eff ≠ .signal n) :
    OwedTerm ((s.apply g a.thread eff).setPc a.thread p) n := by
  obtain ⟨t, ht⟩ := h
  by_cases hta : t = a.thread
  · subst hta
    exact owedTerm_of_mover ((hm.owesTerm_step ht).resolve_right hsig)
  · exact ⟨t, owesTerm_of_ne hta ht⟩

/-! ## Steps of the other threads -/

/-- An edge gets ready only by a send that owes its consumer a wake-up. -/
theorem foreign_ready (hm : Move g s a eff p) (hn : n ≠ a.thread) (he : e ∈ g.inEdges n)
    (hr : readyEdge g ((s.apply g a.thread eff).setPc a.thread p) e = true) :
    readyEdge g s e = true ∨ (eff = .addTokens e ∧ p.owes g n) := by
  obtain ⟨hs, hr⟩ := readyEdge_iff.mp hr
  change _ ≤ (s.apply g a.thread eff).nrPending e ∨ 0 < (s.apply g a.thread eff).nrSkips e at hr
  rw [foreign_nrSkips hm hn he] at hr
  by_cases hadd : eff = .addTokens e
  · subst hadd
    rcases hr with hr | hr
    · by_cases hold : (g.edge e).attr.nrThreshold ≤ s.nrPending e
      · exact Or.inl (readyEdge_iff.mpr ⟨hs, Or.inl hold⟩)
      · right
        have hcross : crosses g s e = true := by
          simp only [State.apply, Function.update_self] at hr
          simp [crosses, hr, Nat.lt_of_not_le hold]
        cases hm with
        | prod t m ans cmd w err q eff p hpc hm =>
          cases hm with
          | tokens i e tw hc =>
            refine ⟨rfl, owes_of_wakeList ?_⟩
            simp only [ProdPc.wakeList, hcross, if_true, Graph.mem_inEdges_consumer he]
            exact List.mem_append_right _ List.mem_cons_self
        | wait t ans w eff p hpc hm => cases hm
    · exact Or.inl (readyEdge_iff.mpr ⟨hs, Or.inr hr⟩)
  · rw [foreign_nrPending hm hn he hadd] at hr
    exact Or.inl (readyEdge_iff.mpr ⟨hs, hr⟩)

theorem foreign_unready (hk : KeepsReady g s a) (hm : Move g s a eff p) (hn : n ≠ a.thread)
    (he : e ∈ g.inEdges n) (hf : (g.edge e).isBackedge = false)
    (hall : s.nrTerminateSignals n = g.nrInSignaledForward n) (hr : readyEdge g s e = true) :
    readyEdge g ((s.apply g a.thread eff).setPc a.thread p) e = true := by
  obtain ⟨hs, hr⟩ := readyEdge_iff.mp hr
  refine readyEdge_iff.mpr ⟨hs, ?_⟩
  change _ ≤ (s.apply g a.thread eff).nrPending e ∨ 0 < (s.apply g a.thread eff).nrSkips e
  rw [foreign_nrSkips hm hn he]
  rcases hr with hr | hr
  · left
    by_cases hadd : eff = .addTokens e
    · subst hadd
      simp only [State.apply, Function.update_self]
      exact hk e hm.sendsOn hf (by rw [Graph.mem_inEdges_consumer he]; exact hall) hr
    · rw [foreign_nrPending hm hn he hadd]
      exact hr
  · exact Or.inr hr

/-- The number of terminate signals changes only by a producer that will signal. -/
theorem foreign_signals (hm : Move g s a eff p) :
    (s.apply g a.thread eff).nrTerminateSignals n = s.nrTerminateSignals n ∨ p.owesTerm n := by
  cases eff with
  | addTerminate e =>
    by_cases hc : n = (g.edge e).consumer
    · right
      cases hm with
      | prod t m ans cmd w err q eff p hpc hm =>
        cases hm with
        | termSignal i e tw hc' =>
          subst hc'
          exact Or.inl (List.mem_append_right _ (by rw [hc]; exact List.mem_cons_self))
      | wait t ans w eff p hpc hm => cases hm
    · left
      simp [State.apply, hc]
  | _ => exact Or.inl rfl

/-! ## The second test -/

/-- The owner holds the lock and has found an in-edge short, or waits. -/
def WaitPc.failed : WaitPc → Bool
  | .termNonzero l | .termAll l => l
  | .cvWait | .asleep => true
  | _ => false

def WaitPc.waits : WaitPc → Bool
  | .cvWait | .asleep => true
  | _ => false

/-- The forward in-edges that the second test has counted as ready. -/
def WaitPc.nrNormal : WaitPc → Nat
  | .scan true _ _ rn => rn
  | _ => 0

/-- What holds for node `n` from the owner's second test on: an in-edge that the test
has passed as short is still short, unless there is a debt `D` to the node. -/
structure TestInv (g : Graph) (D : State → Nat → Prop) (s : State) (n : Nat) : Prop where
  count : ∀ i r rn, s.pc n = .wait (.scan true i r rn) → r ≤ signaledIn g n i
  scan : ∀ i r rn, s.pc n = .wait (.scan true i r rn) → D s n ∨ readyIn g s n i ≤ r
  test : ∀ w, s.pc n = .wait w → w.failed = true → AllReady g s n → D s n

/-- What a step must do with the debts `D` to node `n`: it keeps one that the owner has come to
depend on, and it leaves one when it makes an in-edge ready. -/
structure KeepsDebt (g : Graph) (D : State → Nat → Prop) (s s' : State) (a : Act) (eff : Effect)
    (n : Nat) : Prop where
  scan : n ≠ a.thread → ∀ i r rn, s.pc n = .wait (.scan true i r rn) → r < readyIn g s n i →
    D s n → D s' n
  test : n ≠ a.thread → ∀ w, s.pc n = .wait w → s'.pc n = .wait w → w.failed = true →
    AllReady g s n → D s n → D s' n
  ready : n ≠ a.thread → ∀ e ∈ g.inEdges n, readyEdge g s' e = true →
    readyEdge g s e = true ∨ D s' n
  own : n = a.thread → ∀ w, s.pc n = .wait w → eff = .skip ∨ eff = .release n → D s n → D s' n

variable {D : State → Nat → Prop}

/-- Nothing is asked of an owner that is not in its second test. -/
theorem testInv_trivial (hp : ∀ w, s.pc n = .wait w → w.failed = false ∧
    ∀ i r rn, w ≠ .scan true i r rn) : TestInv g D s n := by
  refine ⟨fun i r rn h => ?_, fun i r rn h => ?_, fun w h hw => ?_⟩
  · exact absurd rfl ((hp _ h).2 i r rn)
  · exact absurd rfl ((hp _ h).2 i r rn)
  · rw [(hp w h).1] at hw; cases hw

/-- Steps of other threads. -/
theorem testInv_foreign (hn : n ≠ a.thread)
    (hd : KeepsDebt g D s ((s.apply g a.thread eff).setPc a.thread p) a eff n)
    (hi : TestInv g D s n) : TestInv g D ((s.apply g a.thread eff).setPc a.thread p) n := by
  rcases pc_of_ne (g := g) (s := s) eff p hn with hpc | ⟨-, -, hwoken⟩
  · -- an in-edge that gets ready leaves a debt
    have hready : D ((s.apply g a.thread eff).setPc a.thread p) n ∨
        ∀ e ∈ g.inEdges n, readyEdge g ((s.apply g a.thread eff).setPc a.thread p) e = true →
          readyEdge g s e = true := by
      by_cases ho : D ((s.apply g a.thread eff).setPc a.thread p) n
      · exact Or.inl ho
      · exact Or.inr (fun e he hr => (hd.ready hn e he hr).resolve_right ho)
    refine ⟨fun i r rn hp => hi.count i r rn (hpc ▸ hp), fun i r rn hp => ?_,
      fun w hp hw hall => ?_⟩
    · have hp₀ : s.pc n = _ := hpc ▸ hp
      by_cases hle : readyIn g s n i ≤ r
      · refine hready.imp id fun hmono => le_trans ?_ hle
        exact List.countP_mono_left (fun e he => hmono e (List.mem_of_mem_take he))
      · have hD := (hi.scan i r rn hp₀).resolve_right hle
        exact Or.inl (hd.scan hn i r rn hp₀ (Nat.lt_of_not_le hle) hD)
    · have hp₀ : s.pc n = _ := hpc ▸ hp
      rcases hready with ho | hmono
      · exact ho
      · have hall₀ : AllReady g s n := fun e he hs => hmono e he (hall e he hs)
        exact hd.test hn w hp₀ hp hw hall₀ (hi.test w hp₀ hw hall₀)
  · refine ⟨fun i r rn hp => ?_, fun i r rn hp => ?_, fun w hp hw => ?_⟩
    all_goals rw [hwoken] at hp; cases hp
    cases hw

/-- The owner reads one more in-edge under the lock. -/
theorem testInv_read {t i r rn rn' : Nat} (hpc : s.pc t = .wait (.scan true i r rn))
    (hi : (g.inEdges t)[i]? = some e) (hinv : TestInv g D s t)
    (hown : D s t → D ((s.apply g t .skip).setPc t (.wait (.scan true (i + 1)
      (if readyEdge g s e then r + 1 else r) rn'))) t) :
    TestInv g D ((s.apply g t .skip).setPc t (.wait (.scan true (i + 1)
      (if readyEdge g s e then r + 1 else r) rn'))) t := by
  have hcount := hinv.count i r rn hpc
  refine ⟨fun i' r' rn' hp => ?_, fun i' r' rn' hp => ?_, fun w hp hw => ?_⟩
  all_goals rw [setPc_pc_self] at hp; cases hp
  · rw [signaledIn_succ hi]
    cases hr : readyEdge g s e
    · simp only [Bool.false_eq_true, if_false]
      omega
    · simp only [readyEdge_signaled hr, if_true]
      omega
  · rcases hinv.scan i r rn hpc with ho | hle
    · exact Or.inl (hown ho)
    · right
      change readyIn g s t (i + 1) ≤ _
      rw [readyIn_succ hi]
      split <;> omega
  · cases hw

/-- The owner has found an in-edge short and still holds the lock. -/
theorem testInv_failed {t : Nat} {w' : WaitPc} (hscan : ∀ i r rn, w' ≠ .scan true i r rn)
    (heff : eff = .skip ∨ eff = .release t)
    (hown : D s t → D ((s.apply g t eff).setPc t (.wait w')) t)
    (htest : AllReady g s t → D s t) : TestInv g D ((s.apply g t eff).setPc t (.wait w')) t := by
  refine ⟨fun i r rn hp => ?_, fun i r rn hp => ?_, fun v hp hv hall => hown (htest ?_)⟩
  · rw [setPc_pc_self] at hp
    cases hp
    exact absurd rfl (hscan i r rn)
  · rw [setPc_pc_self] at hp
    cases hp
    exact absurd rfl (hscan i r rn)
  · rcases heff with rfl | rfl <;> exact hall

/-- The end of the scan under the lock: if all in-edges are ready now, the ones that were
short have left a debt. -/
theorem TestInv.debt_of_short {t i r rn : Nat} (hpc : s.pc t = .wait (.scan true i r rn))
    (hi : (g.inEdges t)[i]? = none) (hr : r ≠ g.nrInSignaled t) (hinv : TestInv g D s t)
    (hall : AllReady g s t) : D s t := by
  have hcount := hinv.count i r rn hpc
  rw [signaledIn_all hi] at hcount
  refine (hinv.scan i r rn hpc).resolve_right (fun hle => ?_)
  rw [readyIn_of_allReady hall, signaledIn_all hi] at hle
  omega

theorem testInv_own {t : Nat} {ans : Answer} {w : WaitPc} (hpc : s.pc t = .wait w)
    (hm : WaitMove g s t ans w eff p)
    (hown : eff = .skip ∨ eff = .release t → D s t → D ((s.apply g t eff).setPc t p) t)
    (hinv : TestInv g D s t) : TestInv g D ((s.apply g t eff).setPc t p) t := by
  cases hm with
  | read l i r rn e hi =>
    cases l with
    | true => exact testInv_read hpc hi hinv (hown (Or.inl rfl))
    | false => exact testInv_trivial (by rw [setPc_pc_self]; rintro _ ⟨⟩; simp [WaitPc.failed])
  | someReady l i r rn hi hr hn =>
    cases l with
    | true =>
      exact testInv_failed (by simp [mustWait]) (Or.inl rfl) (hown (Or.inl rfl))
        (TestInv.debt_of_short hpc hi hr hinv)
    | false =>
      exact testInv_trivial (by rw [setPc_pc_self]; rintro _ ⟨⟩; simp [mustWait, WaitPc.failed])
  | noneReady l i r rn hi hr hn =>
    cases l with
    | true =>
      exact testInv_failed (by simp) (Or.inl rfl) (hown (Or.inl rfl))
        (TestInv.debt_of_short hpc hi hr hinv)
    | false => exact testInv_trivial (by rw [setPc_pc_self]; rintro _ ⟨⟩; simp [WaitPc.failed])
  | someTerm l h =>
    cases l with
    | true => exact testInv_failed (by simp) (Or.inl rfl) (hown (Or.inl rfl)) (hinv.test _ hpc rfl)
    | false => exact testInv_trivial (by rw [setPc_pc_self]; rintro _ ⟨⟩; simp [WaitPc.failed])
  | noTerm l h | notAllTerm l h =>
    cases l with
    | true =>
      exact testInv_failed (by simp [mustWait]) (Or.inl rfl) (hown (Or.inl rfl))
        (hinv.test _ hpc rfl)
    | false =>
      exact testInv_trivial (by rw [setPc_pc_self]; rintro _ ⟨⟩; simp [mustWait, WaitPc.failed])
  | cvWait =>
    exact testInv_failed (by simp) (Or.inr rfl) (hown (Or.inr rfl)) (hinv.test _ hpc rfl)
  | lock h | relock h =>
    refine ⟨fun i r rn hp => ?_, fun i r rn hp => ?_, fun w hp hw => ?_⟩
    all_goals rw [setPc_pc_self] at hp; cases hp
    · exact Nat.zero_le _
    · exact Or.inr (Nat.le_refl 0)
    · cases hw
  | allReady l | allTerm l =>
    refine testInv_trivial ?_
    rw [setPc_pc_self]
    rintro _ ⟨⟩
    cases l <;> simp [granted, WaitPc.failed]
  | terminate | fire | fail =>
    exact testInv_trivial (by rw [setPc_pc_self]; rintro _ ⟨⟩)
  | _ => exact testInv_trivial (by rw [setPc_pc_self]; rintro _ ⟨⟩; simp [WaitPc.failed])

/-- **One step of the second test**, for any debts that the step keeps. -/
theorem step_testInv (hm : Move g s a eff p)
    (hd : KeepsDebt g D s ((s.apply g a.thread eff).setPc a.thread p) a eff n)
    (hi : TestInv g D s n) : TestInv g D ((s.apply g a.thread eff).setPc a.thread p) n := by
  by_cases hn : n = a.thread
  · subst hn
    cases hm with
    | wait t ans w eff p hpc hm => exact testInv_own hpc hm (hd.own rfl w hpc) hi
    | prod t m ans cmd w err q eff p hpc hm =>
      exact testInv_trivial (by rw [setPc_pc_self]; exact fun v hv => absurd hv (hm.not_wait v))
    | callWait | spurious =>
      exact testInv_trivial (by rw [setPc_pc_self]; rintro _ ⟨⟩; simp [WaitPc.failed])
    | callComplete | callTerminate =>
      exact testInv_trivial (by rw [setPc_pc_self]; rintro _ ⟨⟩)
  · exact testInv_foreign hn hd hi

theorem initState_testInv (junk : Junk) (g : Graph) (D : State → Nat → Prop) (n : Nat) :
    TestInv g D (initState junk g) n := testInv_trivial (by rintro _ ⟨⟩)

/-! ## The invariant -/

/-- What holds for node `n` from the owner's second test on: an in-edge that the test
has passed as short is still short, unless a wake-up is owed, and the same for the terminate
signals. -/
structure WakeInv (g : Graph) (s : State) (n : Nat) : Prop where
  count : ∀ i r rn, s.pc n = .wait (.scan true i r rn) → r ≤ signaledIn g n i
  scan : ∀ i r rn, s.pc n = .wait (.scan true i r rn) → Owed g s n ∨ readyIn g s n i ≤ r
  normal : ∀ i r rn, s.pc n = .wait (.scan true i r rn) → rn ≠ 0 → TermReady g s n → OwedTerm s n
  test : ∀ w, s.pc n = .wait w → w.failed = true → AllReady g s n → Owed g s n
  term : ∀ w, s.pc n = .wait w → w.waits = true → TermReady g s n → OwedTerm s n

theorem WakeInv.testInv (h : WakeInv g s n) : TestInv g (Owed g) s n := ⟨h.count, h.scan, h.test⟩

theorem Move.signal_holds (hm : Move g s a (.signal n) p) :
    (s.pc a.thread).holds a.thread = some n := by
  cases hm with
  | prod t m ans cmd w err q eff p hpc hm =>
    cases hm with
    | signal c cs => simp only [Act.thread, hpc]; rfl
  | wait t ans w eff p hpc hm => cases hm

/-- The owner is not signaled while it holds the lock, and it leaves its wait when it is. -/
theorem not_signaled (hl : LockInv s) (hm : Move g s a eff p) (hn : n ≠ a.thread) {w : WaitPc}
    (hpc : s.pc n = .wait w) (hw : w.locked = true ∨ w = .asleep)
    (hpc' : ((s.apply g a.thread eff).setPc a.thread p).pc n = .wait w) : eff ≠ .signal n := by
  rintro rfl
  rcases hw with hw | rfl
  · have hh : (s.pc n).holds n = some n := by rw [hpc]; simp [Pc.holds, hw]
    exact hn (hl.unique hh hm.signal_holds)
  · rw [setPc_pc_of_ne hn] at hpc'
    simp [State.apply, hpc, wakeUp] at hpc'

theorem failed_locked {w : WaitPc} (h : w.failed = true) : w.locked = true ∨ w = .asleep := by
  cases w with
  | termNonzero l | termAll l => exact Or.inl h
  | cvWait => exact Or.inl rfl
  | asleep => exact Or.inr rfl
  | _ => cases h

theorem failed_of_waits {w : WaitPc} (h : w.waits = true) : w.failed = true := by
  cases w <;> first | rfl | cases h

/-- The owner's step keeps the debts of the others. -/
theorem Owed.own {w : WaitPc} (h : Owed g s n) (hpc : s.pc a.thread = .wait w) :
    Owed g ((s.apply g a.thread eff).setPc a.thread p) n := by
  obtain ⟨t, ht⟩ := h
  refine ⟨t, owes_of_ne ?_ ht⟩
  rintro rfl
  rw [hpc] at ht
  exact ht

theorem OwedTerm.own {w : WaitPc} (h : OwedTerm s n) (hpc : s.pc a.thread = .wait w) :
    OwedTerm ((s.apply g a.thread eff).setPc a.thread p) n := by
  obtain ⟨t, ht⟩ := h
  refine ⟨t, owesTerm_of_ne ?_ ht⟩
  rintro rfl
  rw [hpc] at ht
  exact ht

theorem owed_keeps (hl : LockInv s) (hm : Move g s a eff p) :
    KeepsDebt g (Owed g) s ((s.apply g a.thread eff).setPc a.thread p) a eff n := by
  refine ⟨fun hn i r rn hpc _ ho => ?_, fun hn w hpc hpc' hw hall ho => ?_,
    fun hn e he hr => ?_, fun hn w hpc _ ho => ?_⟩
  · exact ho.step_locked hl hm hn (by rw [hpc]; rfl)
  · exact ho.step_ready hm hall (not_signaled hl hm hn hpc (failed_locked hw) hpc')
  · exact (foreign_ready hm hn he hr).imp id (fun h => owed_of_mover h.2)
  · subst hn
    exact ho.own hpc

/-- The terminate signals, steps of other threads. -/
theorem termReady_foreign (hk : KeepsReady g s a) (hm : Move g s a eff p) (hn : n ≠ a.thread)
    (ht : TermReady g ((s.apply g a.thread eff).setPc a.thread p) n) :
    OwedTerm ((s.apply g a.thread eff).setPc a.thread p) n ∨ TermReady g s n := by
  obtain ⟨hnone, hsome, hall⟩ := ht
  rcases foreign_signals (n := n) hm with hsig | ho
  · right
    change (s.apply g a.thread eff).nrTerminateSignals n ≠ 0 at hsome
    change (s.apply g a.thread eff).nrTerminateSignals n = _ at hall
    rw [hsig] at hsome hall
    refine ⟨fun e he hb => ?_, hsome, hall⟩
    by_contra hr
    have := foreign_unready hk hm hn he hb hall (by simpa using hr)
    rw [hnone e he hb] at this
    cases this
  · exact Or.inl (owedTerm_of_mover ho)

/-- The debts of the terminate signals from the second test on. -/
structure TermTest (g : Graph) (s : State) (n : Nat) : Prop where
  normal : ∀ i r rn, s.pc n = .wait (.scan true i r rn) → rn ≠ 0 → TermReady g s n → OwedTerm s n
  term : ∀ w, s.pc n = .wait w → w.waits = true → TermReady g s n → OwedTerm s n

theorem termTest_trivial (hp : ∀ w, s.pc n = .wait w → w.waits = false ∧ w.nrNormal = 0) :
    TermTest g s n := by
  refine ⟨fun i r rn h hrn => ?_, fun w h hw => ?_⟩
  · exact absurd (hp _ h).2 hrn
  · rw [(hp w h).1] at hw; cases hw

theorem termTest_foreign (hl : LockInv s) (hk : KeepsReady g s a) (hm : Move g s a eff p)
    (hn : n ≠ a.thread) (hi : TermTest g s n) :
    TermTest g ((s.apply g a.thread eff).setPc a.thread p) n := by
  rcases pc_of_ne (g := g) (s := s) eff p hn with hpc | ⟨-, -, hwoken⟩
  · refine ⟨fun i r rn hp hrn ht => ?_, fun w hp hw ht => ?_⟩
    · have hp₀ : s.pc n = _ := hpc ▸ hp
      rcases termReady_foreign hk hm hn ht with ho | ht₀
      · exact ho
      · exact (hi.normal i r rn hp₀ hrn ht₀).step hm (not_signaled hl hm hn hp₀ (Or.inl rfl) hp)
    · have hp₀ : s.pc n = _ := hpc ▸ hp
      rcases termReady_foreign hk hm hn ht with ho | ht₀
      · exact ho
      · exact (hi.term w hp₀ hw ht₀).step hm
          (not_signaled hl hm hn hp₀ (failed_locked (failed_of_waits hw)) hp)
  · exact termTest_trivial (by rw [hwoken]; rintro _ ⟨⟩; exact ⟨rfl, rfl⟩)

theorem termTest_waits {t : Nat} {w w' : WaitPc} (hpc : s.pc t = .wait w)
    (hscan : ∀ i r rn, w' ≠ .scan true i r rn) (heff : eff = .skip ∨ eff = .release t)
    (hterm : TermReady g s t → OwedTerm s t) :
    TermTest g ((s.apply g t eff).setPc t (.wait w')) t := by
  have hown : OwedTerm s t → OwedTerm ((s.apply g t eff).setPc t (.wait w')) t :=
    fun h => h.own (a := .spurious t) hpc
  refine ⟨fun i r rn hp => ?_, fun v hp hv ht => hown (hterm ?_)⟩
  · rw [setPc_pc_self] at hp
    cases hp
    exact absurd rfl (hscan i r rn)
  · rcases heff with rfl | rfl <;> exact ⟨ht.none, ht.some, ht.all⟩

theorem termTest_own {t : Nat} {ans : Answer} {w : WaitPc} (hpc : s.pc t = .wait w)
    (hm : WaitMove g s t ans w eff p) (hinv : TermTest g s t) :
    TermTest g ((s.apply g t eff).setPc t p) t := by
  cases hm with
  | read l i r rn e hi =>
    cases l with
    | true =>
      refine ⟨fun i' r' rn' hp hrn ht => ?_, fun w hp hw => ?_⟩
      all_goals rw [setPc_pc_self] at hp; cases hp
      · by_cases hrn₀ : rn = 0
        · -- this edge was counted, so a forward in-edge is ready
          have hready : readyEdge g s e = true ∧ (g.edge e).isBackedge = false := by
            by_contra hno
            simp only [not_and, Bool.not_eq_false] at hno
            apply hrn
            cases hr : readyEdge g s e
            · simpa using hrn₀
            · simpa [hno hr] using hrn₀
          have hnone : readyEdge g s e = false := ht.none e (List.mem_of_getElem? hi) hready.2
          rw [hready.1] at hnone
          cases hnone
        · exact (hinv.normal i r rn hpc hrn₀ ⟨ht.none, ht.some, ht.all⟩).own (a := .spurious t) hpc
      · cases hw
    | false => exact termTest_trivial (by rw [setPc_pc_self]; rintro _ ⟨⟩; exact ⟨rfl, rfl⟩)
  | someReady l i r rn hi hr hn =>
    cases l with
    | true =>
      exact termTest_waits hpc (by simp [mustWait]) (Or.inl rfl) (hinv.normal i r rn hpc hn)
    | false => exact termTest_trivial (by rw [setPc_pc_self]; rintro _ ⟨⟩; exact ⟨rfl, rfl⟩)
  | noTerm l h =>
    cases l with
    | true =>
      exact termTest_waits hpc (by simp [mustWait]) (Or.inl rfl) (fun ht => absurd h ht.some)
    | false => exact termTest_trivial (by rw [setPc_pc_self]; rintro _ ⟨⟩; exact ⟨rfl, rfl⟩)
  | notAllTerm l h =>
    cases l with
    | true =>
      exact termTest_waits hpc (by simp [mustWait]) (Or.inl rfl) (fun ht => absurd ht.all h)
    | false => exact termTest_trivial (by rw [setPc_pc_self]; rintro _ ⟨⟩; exact ⟨rfl, rfl⟩)
  | cvWait => exact termTest_waits hpc (by simp) (Or.inr rfl) (hinv.term _ hpc rfl)
  | lock h | relock h =>
    refine termTest_trivial ?_
    rw [setPc_pc_self]
    rintro _ ⟨⟩
    exact ⟨rfl, rfl⟩
  | allReady l | allTerm l =>
    refine termTest_trivial ?_
    rw [setPc_pc_self]
    rintro _ ⟨⟩
    cases l <;> exact ⟨rfl, rfl⟩
  | terminate | fire | fail => exact termTest_trivial (by rw [setPc_pc_self]; rintro _ ⟨⟩)
  | _ => exact termTest_trivial (by rw [setPc_pc_self]; rintro _ ⟨⟩; exact ⟨rfl, rfl⟩)

theorem step_termTest (hl : LockInv s) (hk : KeepsReady g s a) (hm : Move g s a eff p)
    (hi : TermTest g s n) : TermTest g ((s.apply g a.thread eff).setPc a.thread p) n := by
  by_cases hn : n = a.thread
  · subst hn
    cases hm with
    | wait t ans w eff p hpc hm => exact termTest_own hpc hm hi
    | prod t m ans cmd w err q eff p hpc hm =>
      exact termTest_trivial (by rw [setPc_pc_self]; exact fun v hv => absurd hv (hm.not_wait v))
    | callWait | spurious =>
      exact termTest_trivial (by rw [setPc_pc_self]; rintro _ ⟨⟩; exact ⟨rfl, rfl⟩)
    | callComplete | callTerminate =>
      exact termTest_trivial (by rw [setPc_pc_self]; rintro _ ⟨⟩)
  · exact termTest_foreign hl hk hm hn hi

theorem step_wakeInv (hl : LockInv s) (hk : KeepsReady g s a) (hinv : ∀ n, WakeInv g s n)
    (h : step g s a = some s') (n : Nat) : WakeInv g s' n := by
  obtain ⟨eff, p, hm, rfl⟩ := step_move h
  have htest := step_testInv hm (owed_keeps hl hm) (hinv n).testInv
  have hterm := step_termTest hl hk hm ⟨(hinv n).normal, (hinv n).term⟩
  exact ⟨htest.count, htest.scan, hterm.normal, htest.test, hterm.term⟩

theorem initState_wakeInv (junk : Junk) (g : Graph) (n : Nat) : WakeInv g (initState junk g) n := by
  have htest := initState_testInv junk g (Owed g) n
  have hterm : TermTest g (initState junk g) n := termTest_trivial (by rintro _ ⟨⟩)
  exact ⟨htest.count, htest.scan, hterm.normal, htest.test, hterm.term⟩

/-- In every run whose sends keep ready edges ready, the wake invariant holds. -/
theorem reach_wakeInv {P : State → Act → Prop} (hP : ∀ s a, Lts.Reach (step g) P (initState junk g) s →
    P s a → KeepsReady g s a) (h : Lts.Reach (step g) P (initState junk g) s) (n : Nat) :
    WakeInv g s n := by
  have hinv : LockInv s ∧ ∀ n, WakeInv g s n :=
    Lts.Reach.inv (I := fun s => LockInv s ∧ ∀ n, WakeInv g s n)
      ⟨initState_lockInv junk g, initState_wakeInv junk g⟩
      (fun s a s' hr hi hp hs =>
        ⟨step_lockInv hi.1 hs, step_wakeInv hi.1 (hP s a hr hp) hi.2 hs⟩) h
  exact hinv.2 n

/-- A blocked owner without a debt has neither wake condition true. -/
theorem WakeInv.asleep (hinv : WakeInv g s n) (hpc : s.pc n = .wait .asleep)
    (hquiet : ∀ t m cmd w err q, s.pc t ≠ .prod m cmd w err q) :
    ¬ AllReady g s n ∧ ¬ TermReady g s n := by
  constructor
  · intro hall
    obtain ⟨t, ht⟩ := hinv.test _ hpc rfl hall
    cases hp : s.pc t with
    | prod m cmd w err q => exact hquiet t m cmd w err q hp
    | _ => rw [hp] at ht; exact ht
  · intro hterm
    obtain ⟨t, ht⟩ := hinv.term _ hpc rfl hterm
    cases hp : s.pc t with
    | prod m cmd w err q => exact hquiet t m cmd w err q hp
    | _ => rw [hp] at ht; exact ht

theorem keepsReady_of_noOverflow (h : NoOverflow g s a) : KeepsReady g s a := by
  intro e he _ _ hle
  rw [Word.add_of_lt (h e he)]
  omega

/-- **No lost wake-up.** In a cv graph whose token totals stay below `2 ^ 64`, an owner that
is blocked in `pgm_cv_wait` while no thread is inside `pgm_produce` has neither wake
condition true. -/
theorem no_lost_wakeup (hcv : CvGraph g) (h : Lts.Reach (step g) (TotalsBelow g) (initState junk g) s)
    (hquiet : ∀ t m cmd w err q, s.pc t ≠ .prod m cmd w err q) (hpc : s.pc n = .wait .asleep) :
    nrReadyEdges g s n ≠ g.nrInSignaled n ∧
    ¬ (nrReadyNormal g s n = 0 ∧ s.nrTerminateSignals n ≠ 0 ∧
      s.nrTerminateSignals n = g.nrInSignaled n - g.nrInSignaledBackedges n) := by
  have hkeep : ∀ s a, Lts.Reach (step g) (TotalsBelow g) (initState junk g) s → TotalsBelow g s a →
      KeepsReady g s a := by
    intro s a hr ha
    have hcvInv : CvInv g s := Lts.Reach.inv (initState_cvInv junk g)
      (fun s a s' _ hi hp hs => step_cvInv hcv hp hi hs) hr
    exact keepsReady_of_noOverflow (hcvInv.noOverflow ha)
  obtain ⟨hall, hterm⟩ := (reach_wakeInv hkeep h n).asleep hpc hquiet
  exact ⟨fun hr => hall (allReady_iff.mpr hr), fun ht => hterm (termReady_iff.mpr ht)⟩

end

/-! ## A consumer is woken up -/

/-- The consumer falls asleep, is woken up for a token, takes it, and falls asleep again. -/
def sleepTwice : List Act :=
  List.flatten [[.wait 1], runs 1 9, [.complete 0 0], runs 0 9, runs 1 10, [.wait 1], runs 1 9]

theorem consumer_sleeps_again :
    ∃ s, Lts.Reach (step .line) (TotalsBelow .line) (initState zeroed Graph.line) s ∧
      s.pc 1 = .wait .asleep ∧ s.fired 1 = 1 ∧
      nrReadyEdges Graph.line s 1 ≠ Graph.line.nrInSignaled 1 := by
  have hd : (Lts.drive (step .line)
      (fun s a => decide (TotalsBelow .line s a ∧ a.thread < 2)) (initState zeroed Graph.line)
      sleepTwice).map (fun s => (s.pc 0, s.pc 1, s.fired 1)) =
        some (.idle none, .wait .asleep, 1) := rfl
  obtain ⟨s, hs, hobs⟩ := Lts.reach_of_drive_map (fun s a h => of_decide_eq_true h) hd
  simp only [Prod.mk.injEq] at hobs
  obtain ⟨hidle, hpc, hfired⟩ := hobs
  have hreach : Lts.Reach (step .line) (TotalsBelow .line) (initState zeroed Graph.line) s :=
    hs.mono (fun s a h => h.1)
  have hquiet : ∀ t m cmd w err q, s.pc t ≠ .prod m cmd w err q := by
    intro t m cmd w err q hp
    obtain rfl | rfl | ht : t = 0 ∨ t = 1 ∨ 2 ≤ t := by omega
    · rw [hidle] at hp
      cases hp
    · rw [hpc] at hp
      cases hp
    · have hnone : s.pc t = .idle none :=
        idle_of_reach hs (fun s a h => by have := h.2; omega) rfl
      rw [hnone] at hp
      cases hp
  exact ⟨s, hreach, hpc, hfired, (no_lost_wakeup (by decide) hreach hquiet hpc).1⟩

end Pgm
