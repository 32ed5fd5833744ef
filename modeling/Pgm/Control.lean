import Pgm.Moves

/-! Which thread holds which lock, and what a step leaves alone. A node's lock is
held by its owner from the second test of `pgm_wait_for_tokens` to `pgm_cv_wait`,
and by a producer around its re-check and signal. -/

namespace Pgm

open Function (update)

def Pc.isIdle : Pc → Bool
  | .idle _ => true
  | _ => false

def WaitPc.locked : WaitPc → Bool
  | .scan l _ _ _ | .termNonzero l | .termAll l => l
  | .cvWait | .unlock _ => true
  | _ => false

def ProdPc.lockOf : ProdPc → Option Nat
  | .recheck c _ _ _ | .signal c _ | .unlock c _ => some c
  | _ => none

def Pc.holds (t : Nat) : Pc → Option Nat
  | .idle _ => none
  | .wait w => if w.locked then some t else none
  | .prod _ _ _ _ q => q.lockOf

def LockInv (s : State) : Prop := ∀ t n, (s.pc t).holds t = some n → s.lock n = some t

section

variable {g : Graph} {s s' : State} {a : Act} {eff : Effect} {p : Pc} {t n : Nat}

@[simp] theorem setPc_pc_self : (s.setPc t p).pc t = p := Function.update_self _ _ _

theorem setPc_pc_of_ne {t' : Nat} (h : t' ≠ t) : (s.setPc t p).pc t' = s.pc t' :=
  Function.update_of_ne h _ _

/-- A step changes the place of another thread only by waking it up. -/
theorem apply_pc (eff : Effect) (t' : Nat) :
    (s.apply g t eff).pc t' = s.pc t' ∨
      (eff = .signal t' ∧ s.pc t' = .wait .asleep ∧ (s.apply g t eff).pc t' = .wait .woken) := by
  cases eff with
  | signal c =>
    by_cases hc : t' = c
    · subst hc
      simp only [State.apply, Function.update_self, true_and]
      cases hp : s.pc t' with
      | wait w => cases w <;> simp [wakeUp]
      | _ => simp [wakeUp]
    · left
      simp [State.apply, hc]
  | _ => exact Or.inl rfl

theorem pc_of_ne (eff : Effect) (p : Pc) (h : t ≠ a.thread) :
    ((s.apply g a.thread eff).setPc a.thread p).pc t = s.pc t ∨
      (eff = .signal t ∧ s.pc t = .wait .asleep ∧
        ((s.apply g a.thread eff).setPc a.thread p).pc t = .wait .woken) := by
  rw [setPc_pc_of_ne h]
  exact apply_pc eff t

/-! ## The locks -/

inductive LockStep (s : State) (t : Nat) (p : Pc) : Effect → Prop
  | acquire (n : Nat) (hfree : s.lock n = none) (hnone : (s.pc t).holds t = none)
      (hp : p.holds t = some n) : LockStep s t p (.acquire n)
  | release (n : Nat) (hheld : (s.pc t).holds t = some n) (hp : p.holds t = none) :
      LockStep s t p (.release n)
  | keep (eff : Effect) (hlock : (s.apply g t eff).lock = s.lock)
      (hp : p.holds t = (s.pc t).holds t) : LockStep s t p eff

theorem afterData_lockOf (i e : Nat) (tw : List Nat) : (afterData g i e tw).lockOf = none := by
  unfold afterData
  split <;> rfl

theorem WaitMove.lockStep {ans : Answer} {w : WaitPc} (hpc : s.pc t = .wait w)
    (hm : WaitMove g s t ans w eff p) : LockStep (g := g) s t p eff := by
  cases hm with
  | lock h | relock h => exact .acquire t h (by rw [hpc]; rfl) rfl
  | cvWait | unlock st => exact .release t (by rw [hpc]; rfl) rfl
  | allReady l | someReady l | noTerm l | allTerm l | notAllTerm l =>
    exact .keep _ rfl (by rw [hpc]; cases l <;> rfl)
  | _ => exact .keep _ rfl (by rw [hpc]; rfl)

theorem ProdMove.lockStep {ans : Answer} {cmd : Command} {inWait err : Bool} {q : ProdPc}
    (hpc : s.pc t = .prod n cmd inWait err q)
    (hm : ProdMove g s n cmd inWait err ans q eff p) : LockStep (g := g) s t p eff := by
  cases hm with
  | lock c cs h | lockTerm c cs h => exact .acquire c h (by rw [hpc]; rfl) rfl
  | unlock c cs => exact .release c (by rw [hpc]; rfl) rfl
  | written => exact .keep _ rfl (by rw [hpc]; exact afterData_lockOf _ _ _)
  | _ => exact .keep _ rfl (by rw [hpc]; rfl)

theorem Move.lockStep (hm : Move g s a eff p) : LockStep (g := g) s a.thread p eff := by
  cases hm with
  | callWait n last hpc | callComplete t n last hpc | callTerminate t n last hpc | spurious t hpc =>
    exact .keep _ rfl (by simp only [Act.thread]; rw [hpc]; rfl)
  | wait t ans w eff p hpc hm => exact hm.lockStep hpc
  | prod t n ans cmd inWait err q eff p hpc hm => exact hm.lockStep hpc

theorem step_lockInv (hi : LockInv s) (h : step g s a = some s') : LockInv s' := by
  obtain ⟨eff, p, hm, rfl⟩ := step_move h
  intro t n hh
  by_cases ht : t = a.thread
  · subst ht
    rw [setPc_pc_self] at hh
    cases hm.lockStep with
    | acquire n' hfree hnone hp =>
      obtain rfl : n' = n := Option.some.inj (hp.symm.trans hh)
      exact Function.update_self _ _ _
    | release n' hheld hp => rw [hp] at hh; cases hh
    | keep eff hlock hp =>
      change (s.apply g a.thread eff).lock n = _
      rw [hlock]
      exact hi _ n (hp ▸ hh)
  · have hold : s.lock n = some t := by
      rcases pc_of_ne (g := g) (s := s) eff p ht with heq | ⟨-, -, heq⟩
      · rw [heq] at hh
        exact hi t n hh
      · rw [heq] at hh
        cases hh
    change (s.apply g a.thread eff).lock n = _
    cases hm.lockStep with
    | acquire n' hfree hnone hp =>
      have hne : n ≠ n' := by
        rintro rfl
        rw [hfree] at hold
        cases hold
      simpa [State.apply, hne] using hold
    | release n' hheld hp =>
      have hne : n ≠ n' := by
        rintro rfl
        rw [hi _ _ hheld] at hold
        exact ht (Option.some.inj hold).symm
      simpa [State.apply, hne] using hold
    | keep eff hlock hp => rw [hlock]; exact hold

theorem initState_lockInv (junk : Junk) (g : Graph) : LockInv (initState junk g) := by
  intro t n hh
  cases hh

def HeldInv (s : State) : Prop := ∀ n t, s.lock n = some t → (s.pc t).holds t = some n

theorem step_heldInv (hi : HeldInv s) (h : step g s a = some s') : HeldInv s' := by
  obtain ⟨eff, p, hm, rfl⟩ := step_move h
  intro n t hlock
  change (s.apply g a.thread eff).lock n = some t at hlock
  have hkept : s.lock n = some t → t ≠ a.thread →
      (((s.apply g a.thread eff).setPc a.thread p).pc t).holds t = some n := by
    intro hold ht
    rcases pc_of_ne (g := g) (s := s) eff p ht with heq | ⟨-, hasleep, -⟩
    · rw [heq]
      exact hi n t hold
    · have := hi n t hold
      rw [hasleep] at this
      cases this
  cases hm.lockStep with
  | acquire n' hfree hnone hp =>
    by_cases hn : n = n'
    · subst hn
      obtain rfl : a.thread = t := by simpa [State.apply] using hlock
      rw [setPc_pc_self]
      exact hp
    · have hold : s.lock n = some t := by simpa [State.apply, hn] using hlock
      refine hkept hold ?_
      rintro rfl
      cases (hi n _ hold).symm.trans hnone
  | release n' hheld hp =>
    have hn : n ≠ n' := by
      rintro rfl
      simp [State.apply] at hlock
    have hold : s.lock n = some t := by simpa [State.apply, hn] using hlock
    refine hkept hold ?_
    rintro rfl
    exact hn (Option.some.inj ((hi n _ hold).symm.trans hheld))
  | keep eff hlock' hp =>
    rw [hlock'] at hlock
    by_cases ht : t = a.thread
    · subst ht
      rw [setPc_pc_self, hp]
      exact hi n _ hlock
    · exact hkept hlock ht

theorem initState_heldInv (junk : Junk) (g : Graph) : HeldInv (initState junk g) := by
  intro n t hlock
  cases hlock

/-- Two threads never hold the same lock. -/
theorem LockInv.unique (hi : LockInv s) {t t' : Nat} (h : (s.pc t).holds t = some n)
    (h' : (s.pc t').holds t' = some n) : t = t' :=
  Option.some.inj ((hi t n h).symm.trans (hi t' n h'))

/-! ## The edge in hand -/

/-- While a producer sends on an edge, it is `out[i]` of its node. -/
def ProdPc.At (g : Graph) (n : Nat) : ProdPc → Prop
  | .write i e _ _ | .ringWrite i e _ _ | .tokens i e _ => (g.outEdges n)[i]? = some e
  | _ => True

def PlaceInv (g : Graph) (s : State) : Prop :=
  ∀ t n cmd w err q, s.pc t = .prod n cmd w err q → q.At g n

theorem afterData_at {i e : Nat} (tw : List Nat) (h : (g.outEdges n)[i]? = some e) :
    (afterData g i e tw).At g n := by
  unfold afterData
  split
  · exact h
  · trivial

theorem ProdMove.place {m : Nat} {cmd : Command} {w err : Bool} {ans : Answer} {q : ProdPc}
    (hm : ProdMove g s m cmd w err ans q eff p) (hq : q.At g m) {m' : Nat} {cmd' : Command}
    {w' err' : Bool} {q' : ProdPc} (hp : p = .prod m' cmd' w' err' q') : q'.At g m' := by
  cases hm with
  | cvEdge i e tw hi | ring i e tw x hi | ringCmd i e tw hi | message i e tw x hi
  | lastMessage i e tw hi => cases hp; exact hi
  | write | ringWrite => cases hp; exact hq
  | written => cases hp; exact afterData_at _ hq
  | recheckAll | recheckShort | sent | backedge | tokens | termSignal | lock | lockTerm | recheck
  | signal | unlock => cases hp; trivial
  | done => cases hp

theorem step_placeInv (hi : PlaceInv g s) (h : step g s a = some s') : PlaceInv g s' := by
  obtain ⟨eff, p, hm, rfl⟩ := step_move h
  intro t n cmd w err q hq
  by_cases ht : t = a.thread
  · subst ht
    rw [setPc_pc_self] at hq
    cases hm with
    | wait t ans v eff p hpc hm =>
      cases hm with
      | terminate => cases hq; trivial
      | _ => cases hq
    | prod t m ans cmd w err q eff p hpc hm => exact hm.place (hi t m cmd w err q hpc) hq
    | callComplete | callTerminate => cases hq; trivial
    | callWait | spurious => cases hq
  · rcases pc_of_ne (g := g) (s := s) eff p ht with heq | ⟨-, -, heq⟩
    · rw [heq] at hq
      exact hi t n cmd w err q hq
    · rw [heq] at hq
      cases hq

theorem initState_placeInv (junk : Junk) (g : Graph) : PlaceInv g (initState junk g) := by
  intro t n cmd w err q hq
  cases hq

/-- Tokens are sent on edges of the graph. -/
theorem PlaceInv.sendsOn (hi : PlaceInv g s) {e : Nat} (h : sendsOn s a = some e) :
    e ∈ g.inEdges (g.edge e).consumer := by
  unfold Pgm.sendsOn at h
  split at h
  · rename_i t ans
    split at h
    · rename_i n w err i e' tw hpc
      cases h
      exact Graph.mem_in_of_mem_out (List.mem_of_getElem? (hi _ _ _ _ _ _ hpc))
    · cases h
  · cases h

/-- Whether a call has returned can be read off. -/
instance decidableIdle (last : Option WaitRet) : (p : Pc) → Decidable (p = .idle last)
  | .idle l => decidable_of_iff (l = last) (by simp)
  | .wait _ | .prod _ _ _ _ _ => isFalse (by simp)

/-- A thread that takes no part in a run stays idle. -/
theorem idle_of_reach {P : State → Act → Prop} {s₀ : State} {last : Option WaitRet}
    (h : Lts.Reach (step g) P s₀ s) (hP : ∀ s a, P s a → t ≠ a.thread)
    (h₀ : s₀.pc t = .idle last) : s.pc t = .idle last := by
  refine Lts.Reach.inv (I := fun s => s.pc t = .idle last) h₀ (fun s a s' _ hi hp hs => ?_) h
  obtain ⟨eff, p, -, rfl⟩ := step_move hs
  rcases pc_of_ne (g := g) (s := s) eff p (hP s a hp) with heq | ⟨-, hpc, -⟩
  · rw [heq]; exact hi
  · rw [hi] at hpc; cases hpc

end

end Pgm
