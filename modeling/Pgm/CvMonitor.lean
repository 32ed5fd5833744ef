import Pgm.Condvar
import Pgm.Lib.Monitor
import Pgm.Lib.Refine

/-!
# The condition variable as a monitor

`cv_wait` and `cv_signal` over a futex do what a monitor with one condition does.

* `Move`: what each access is, with the event that the monitor sees of it;
* `Move.matches`: an access is a step of the monitor, or the monitor does not see it;
* `condvar_refines_monitor`: every run is one of the monitor, in which each call of `cv_wait` goes to
  sleep once and takes the lock again once, and each call of `cv_signal` signals once.
-/

namespace Pgm.Condvar

open Function (update update_of_ne)
open Lts (Matches)

def Pc.underway : Pc → Bool
  | .futexWait _ => true
  | _ => false

/-- Where the monitor sees a thread that was `since` signals ago at its read of `seq`. A thread that
has missed a signal on its way to the futex will not block any more. -/
def Pc.place (since : Nat) : Pc → Monitor.Place
  | .futexWait _ => if since = 0 then .asleep else .woken
  | .blocked => .asleep
  | .relock => .woken
  | _ => .outside

def monitor (s : State) : Monitor Nat := ⟨s.lock, fun t => (s.pc t).place (s.since t)⟩

def emits (s : State) : Act → Option (Monitor.Event Nat)
  | .lock t => some (.enter t)
  | .unlock t => some (.leave t)
  | .wait _ | .signal _ => none
  | .go t =>
    match s.pc t with
    | .waitUnlock _ => some (.sleep t)
    | .relock => some (.reenter t)
    | .sigTest => if 0 < Word.signed 32 s.waiters then none else some (.signal t none)
    | .sigBump => some (.stir (fun u => (s.pc u).underway))
    | .sigWake => some (.signal t none)
    | _ => none
  | .wake t u => some (.signal t (some u))
  | .spurious t => some (.stir (fun u => u == t))

inductive Move (s : State) : Act → Option (Monitor.Event Nat) → State → Prop
  | lock (t : Nat) (hpc : s.pc t = .idle) (hfree : s.lock = none) :
      Move s (.lock t) (some (.enter t)) ({ s with lock := some t }.goto t .held)
  | unlock (t : Nat) (hpc : s.pc t = .held) :
      Move s (.unlock t) (some (.leave t)) ({ s with lock := none }.goto t .idle)
  | wait (t : Nat) (hpc : s.pc t = .held) : Move s (.wait t) none (s.goto t .waitSeq)
  | signal (t : Nat) (hpc : s.pc t = .held) : Move s (.signal t) none (s.goto t .sigTest)
  | readSeq (t : Nat) (hpc : s.pc t = .waitSeq) :
      Move s (.go t) none ({ s with since := update s.since t 0 }.goto t (.waitLoad s.seq))
  | load (t q : Nat) (hpc : s.pc t = .waitLoad q) :
      Move s (.go t) none (s.goto t (.waitStore q s.waiters))
  | store (t q v : Nat) (hpc : s.pc t = .waitStore q v) :
      Move s (.go t) none ({ s with waiters := Word.add 32 v 1 }.goto t (.waitUnlock q))
  | sleep (t q : Nat) (hpc : s.pc t = .waitUnlock q) :
      Move s (.go t) (some (.sleep t)) ({ s with lock := none }.goto t (.futexWait q))
  | block (t q : Nat) (hpc : s.pc t = .futexWait q) (he : s.seq = q) :
      Move s (.go t) none ({ s with queue := s.queue ++ [t] }.goto t .blocked)
  | pass (t q : Nat) (hpc : s.pc t = .futexWait q) (he : s.seq ≠ q) :
      Move s (.go t) none (s.goto t .relock)
  | relock (t : Nat) (hpc : s.pc t = .relock) (hfree : s.lock = none) :
      Move s (.go t) (some (.reenter t)) ({ s with lock := some t }.goto t .doneLoad)
  | doneLoad (t : Nat) (hpc : s.pc t = .doneLoad) :
      Move s (.go t) none (s.goto t (.doneStore s.waiters))
  | doneStore (t v : Nat) (hpc : s.pc t = .doneStore v) :
      Move s (.go t) none ({ s with waiters := Word.sub 32 v 1 }.goto t .held)
  | waiters (t : Nat) (hpc : s.pc t = .sigTest) : Move s (.go t) none (s.goto t .sigBump)
  | noWaiters (t : Nat) (hpc : s.pc t = .sigTest) (h : ¬ 0 < Word.signed 32 s.waiters) :
      Move s (.go t) (some (.signal t none)) (s.goto t .held)
  | bump (t : Nat) (hpc : s.pc t = .sigBump) :
      Move s (.go t) (some (.stir (fun u => (s.pc u).underway)))
        ({ s with seq := Word.add 32 s.seq 1, since := fun x => s.since x + 1 }.goto t .sigWake)
  | nobody (t : Nat) (hpc : s.pc t = .sigWake) (hq : s.queue = []) :
      Move s (.go t) (some (.signal t none)) (s.goto t .held)
  | wake (t u : Nat) (hpc : s.pc t = .sigWake) (hu : u ∈ s.queue) :
      Move s (.wake t u) (some (.signal t (some u))) ((s.unblock u).goto t .held)
  | spurious (t : Nat) (hpc : s.pc t = .blocked) :
      Move s (.spurious t) (some (.stir (fun u => u == t))) (s.unblock t)

/-- In `cv_wait`, and has the lock from before. -/
def Pc.beforeSleep : Pc → Bool
  | .waitSeq | .waitLoad _ | .waitStore _ _ | .waitUnlock _ => true
  | _ => false

/-- In `cv_wait`, and does not have the lock again. -/
def Pc.beforeReturn : Pc → Bool
  | .relock => true
  | p => p.inWait

/-- The action is a call of thread `t` that has to lead to an event of kind `k`. -/
def Act.calls (k : Monitor.Kind) (t : Nat) : Act → Bool
  | .lock u => k == .enter && u == t
  | .unlock u => k == .leave && u == t
  | .wait u => (k == .sleep || k == .reenter) && u == t
  | .signal u => k == .signal && u == t
  | .go _ | .wake _ _ | .spurious _ => false

/-- The call has been made, and its event of kind `k` is still to come. -/
def Pc.owes (p : Pc) : Monitor.Kind → Bool
  | .enter | .leave => false
  | .sleep => p.beforeSleep
  | .signal => p.signalling
  | .reenter => p.beforeReturn

section

variable {s s' : State} {a : Act} {t u : Nat} {p : Pc} {o : Option (Monitor.Event Nat)}

theorem go_move (h : go s t = some s') : Move s (.go t) (emits s (.go t)) s' := by
  unfold go at h
  unfold emits
  cases hpc : s.pc t with
  | waitSeq =>
    simp only [hpc, Option.some.injEq] at h ⊢
    exact h ▸ .readSeq t hpc
  | waitLoad q =>
    simp only [hpc, Option.some.injEq] at h ⊢
    exact h ▸ .load t q hpc
  | waitStore q v =>
    simp only [hpc, Option.some.injEq] at h ⊢
    exact h ▸ .store t q v hpc
  | waitUnlock q =>
    simp only [hpc, Option.some.injEq] at h ⊢
    exact h ▸ .sleep t q hpc
  | futexWait q =>
    simp only [hpc] at h ⊢
    split at h
    · exact Option.some.inj h ▸ .block t q hpc ‹_›
    · exact Option.some.inj h ▸ .pass t q hpc ‹_›
  | relock =>
    simp only [hpc] at h ⊢
    obtain ⟨hfree, hs⟩ := Option.ite_none_right_eq_some.mp h
    exact Option.some.inj hs ▸ .relock t hpc hfree
  | doneLoad =>
    simp only [hpc, Option.some.injEq] at h ⊢
    exact h ▸ .doneLoad t hpc
  | doneStore v =>
    simp only [hpc, Option.some.injEq] at h ⊢
    exact h ▸ .doneStore t v hpc
  | sigTest =>
    simp only [hpc] at h ⊢
    split at h
    · rename_i hpos
      rw [if_pos hpos]
      exact Option.some.inj h ▸ .waiters t hpc
    · rename_i hpos
      rw [if_neg hpos]
      exact Option.some.inj h ▸ .noWaiters t hpc hpos
  | sigBump =>
    simp only [hpc, Option.some.injEq] at h ⊢
    exact h ▸ .bump t hpc
  | sigWake =>
    simp only [hpc] at h ⊢
    obtain ⟨hq, hs⟩ := Option.ite_none_right_eq_some.mp h
    exact Option.some.inj hs ▸ .nobody t hpc hq
  | idle | held | blocked => simp [hpc] at h

theorem step_move (h : step s a = some s') : Move s a (emits s a) s' := by
  cases a with
  | lock t =>
    obtain ⟨⟨-, hpc, hfree⟩, hs⟩ := Option.ite_none_right_eq_some.mp h
    exact Option.some.inj hs ▸ .lock t hpc hfree
  | unlock t =>
    obtain ⟨hpc, hs⟩ := Option.ite_none_right_eq_some.mp h
    exact Option.some.inj hs ▸ .unlock t hpc
  | wait t =>
    obtain ⟨hpc, hs⟩ := Option.ite_none_right_eq_some.mp h
    exact Option.some.inj hs ▸ .wait t hpc
  | signal t =>
    obtain ⟨hpc, hs⟩ := Option.ite_none_right_eq_some.mp h
    exact Option.some.inj hs ▸ .signal t hpc
  | go t => exact go_move h
  | wake t u =>
    obtain ⟨⟨hpc, hu⟩, hs⟩ := Option.ite_none_right_eq_some.mp h
    exact Option.some.inj hs ▸ .wake t u hpc hu
  | spurious t =>
    obtain ⟨hpc, hs⟩ := Option.ite_none_right_eq_some.mp h
    exact Option.some.inj hs ▸ .spurious t hpc

/-! ## How old the values of `seq` are -/

/-- A value of `seq` is that of a word, it is fresh as long as its thread has the lock, and after the
increment of `cv_signal` no thread on its way to the futex has a fresh one. -/
structure Fresh (s : State) : Prop where
  word : ∀ t q, (s.pc t).expects = some q → q < 2 ^ 32
  held : ∀ t q, (s.pc t).expects = some q → (s.pc t).holds = true → s.since t = 0
  bumped : ∀ u, s.pc u = .sigWake → ∀ t q, s.pc t = .futexWait q → 0 < s.since t

/-- A thread goes on with a value of `seq` that it had before, and not to `FUTEX_WAKE`. -/
theorem Fresh.goto {l : Option Nat} {w : Nat} {k : List Nat} (hf : Fresh s)
    (hexp : ∀ q, p.expects = some q → (s.pc t).expects = some q)
    (hheld : ∀ q, p.expects = some q → p.holds = true → (s.pc t).holds = true)
    (hwake : p ≠ .sigWake)
    (hway : ∀ q, p = .futexWait q → ∀ u, u ≠ t → s.pc u ≠ .sigWake) :
    Fresh ({ s with lock := l, waiters := w, queue := k }.goto t p) := by
  refine ⟨?_, ?_, ?_⟩
  · exact forall_update (Q := fun _ p => ∀ q, p.expects = some q → q < 2 ^ 32)
      (fun x _ => hf.word x) (fun q hq => hf.word t q (hexp q hq))
  · exact forall_update
      (Q := fun x p => ∀ q, p.expects = some q → p.holds = true → s.since x = 0)
      (fun x _ => hf.held x) (fun q hq hh => hf.held t q (hexp q hq) (hheld q hq hh))
  · intro u hu x q hx
    have hut : u ≠ t := by
      rintro rfl
      exact hwake (by simpa [State.goto] using hu)
    have hold : s.pc u = .sigWake := by simpa [State.goto, update_of_ne hut] using hu
    by_cases hxt : x = t
    · subst hxt
      have hp : p = .futexWait q := by simpa [State.goto] using hx
      exact absurd hold (hway q hp u hut)
    · exact hf.bumped u hold x q (by simpa [State.goto, update_of_ne hxt] using hx)

/-- The thread is not on its way to the futex. -/
theorem Fresh.goto_plain {l : Option Nat} {w : Nat} {k : List Nat} (hf : Fresh s)
    (hexp : p.expects = none) (hwake : p ≠ .sigWake) :
    Fresh ({ s with lock := l, waiters := w, queue := k }.goto t p) := by
  refine hf.goto ?_ ?_ hwake ?_
  · intro q hq
    rw [hexp] at hq
    cases hq
  · intro q hq
    rw [hexp] at hq
    cases hq
  · rintro q rfl
    cases hexp

theorem Fresh.readSeq (hf : Fresh s) (hi : Inv s) (hpc : s.pc t = .waitSeq) :
    Fresh ({ s with since := update s.since t 0 }.goto t (.waitLoad s.seq)) := by
  have hhold : (s.pc t).holds = true := by rw [hpc]; rfl
  refine ⟨?_, ?_, ?_⟩
  · refine forall_update (Q := fun _ p => ∀ q, p.expects = some q → q < 2 ^ 32)
      (fun x _ => hf.word x) ?_
    rintro q ⟨⟩
    exact hi.word
  · intro x q hq hh
    by_cases hx : x = t
    · subst hx
      simp [State.goto]
    · simp only [State.goto, update_of_ne hx] at hq hh ⊢
      exact hf.held x q hq hh
  · intro u hu x q hx
    have hut : u ≠ t := by
      rintro rfl
      simp [State.goto] at hu
    have hold : s.pc u = .sigWake := by simpa [State.goto, update_of_ne hut] using hu
    exact absurd (hi.unique (by rw [hold]; rfl) hhold) hut

theorem Fresh.bump (hf : Fresh s) (hi : Inv s) (hpc : s.pc t = .sigBump) : Fresh
    ({ s with seq := Word.add 32 s.seq 1, since := fun x => s.since x + 1 }.goto t .sigWake) := by
  have hhold : (s.pc t).holds = true := by rw [hpc]; rfl
  refine ⟨?_, ?_, ?_⟩
  · exact forall_update (Q := fun _ p => ∀ q, p.expects = some q → q < 2 ^ 32)
      (fun x _ => hf.word x) (by rintro q ⟨⟩)
  · -- only the signalling thread has the lock, and it has no value of `seq`
    intro x q hq hh
    have hx : x ≠ t := by
      rintro rfl
      simp [State.goto, Pc.expects] at hq
    have hh : (s.pc x).holds = true := by simpa [State.goto, update_of_ne hx] using hh
    exact absurd (hi.unique hh hhold) hx
  · intro u _ x q _
    exact Nat.succ_pos _

/-- No other thread is inside `cv_signal` while one has the lock. -/
theorem Inv.not_sigWake (hi : Inv s) (hh : (s.pc t).holds = true) (hu : u ≠ t) :
    s.pc u ≠ .sigWake := by
  intro hpc
  exact hu (hi.unique (by rw [hpc]; rfl) hh)

theorem Move.fresh (hi : Inv s) (hf : Fresh s) (hm : Move s a o s') : Fresh s' := by
  cases hm with
  | readSeq t hpc => exact hf.readSeq hi hpc
  | bump t hpc => exact hf.bump hi hpc
  | load t q hpc | store t q v hpc =>
    refine hf.goto ?_ ?_ (by simp) (by simp)
    · intro q' hq
      rw [hpc]
      exact hq
    · intro _ _ _
      rw [hpc]
      rfl
  | sleep t q hpc =>
    refine hf.goto ?_ (by simp [Pc.holds]) (by simp) ?_
    · intro q' hq
      rw [hpc]
      exact hq
    · intro _ _ u hu
      exact hi.not_sigWake (by rw [hpc]; rfl) hu
  | wake t u hpc hu =>
    have hmid : Fresh (s.unblock u) := hf.goto_plain rfl (by simp)
    exact hmid.goto_plain rfl (by simp)
  | _ => exact hf.goto_plain rfl (by simp)

theorem start_fresh : Fresh start :=
  ⟨by rintro _ _ ⟨⟩, by rintro _ _ ⟨⟩, by rintro _ ⟨⟩⟩

/-! ## The monitor -/

theorem monitor_goto (s : State) (l : Option Nat) (w : Nat) (k : List Nat) (t : Nat) (p : Pc) :
    monitor ({ s with lock := l, waiters := w, queue := k }.goto t p) =
      ⟨l, update (monitor s).place t (p.place (s.since t))⟩ := by
  unfold monitor State.goto
  congr 1
  funext x
  by_cases hx : x = t
  · subst hx
    simp
  · simp [update_of_ne hx]

/-- The thread may take the lock or give it back, but stays where the monitor sees it. -/
theorem monitor_lock (s : State) (l : Option Nat) (w : Nat) (k : List Nat)
    (h : p.place (s.since t) = (s.pc t).place (s.since t)) :
    monitor ({ s with lock := l, waiters := w, queue := k }.goto t p) =
      { monitor s with owner := l } := by
  have hplace : (s.pc t).place (s.since t) = (monitor s).place t := rfl
  rw [monitor_goto, h, hplace, Function.update_eq_self]

/-- The thread moves without being seen. -/
theorem monitor_same (s : State) (w : Nat) (k : List Nat)
    (h : p.place (s.since t) = (s.pc t).place (s.since t)) :
    monitor ({ s with waiters := w, queue := k }.goto t p) = monitor s :=
  monitor_lock s s.lock w k h

theorem counted_of_asleep (h : (monitor s).place t = .asleep) : (s.pc t).counted = true := by
  simp only [monitor] at h
  cases hpc : s.pc t <;> rw [hpc] at h <;> first | rfl | cases h

/-- `waiters` is 0 when the test of `cv_signal` fails. -/
theorem Inv.nobody (hi : Inv s) (h : ¬ 0 < Word.signed 32 s.waiters) :
    (monitor s).place t ≠ .asleep := by
  intro hasleep
  exact h (hi.waiters_pos (counted_of_asleep hasleep))

/-- After the increment only blocked threads are asleep. -/
theorem Fresh.blocked (hf : Fresh s) (hpc : s.pc u = .sigWake)
    (h : (monitor s).place t = .asleep) : s.pc t = .blocked := by
  simp only [monitor] at h
  cases hp : s.pc t with
  | futexWait q =>
    have hpos := hf.bumped u hpc t q hp
    rw [hp] at h
    simp [Pc.place, hpos.ne'] at h
  | blocked => rfl
  | _ =>
    rw [hp] at h
    cases h

/-- The increment of `seq` wakes those on their way to the futex. -/
theorem monitor_bump (hpc : s.pc t = .sigBump) :
    monitor ({ s with seq := Word.add 32 s.seq 1, since := fun x => s.since x + 1 }.goto t .sigWake) =
      { monitor s with
        place := Monitor.stirred (fun u => (s.pc u).underway) (monitor s).place } := by
  unfold monitor State.goto
  congr 1
  funext x
  unfold Monitor.stirred
  by_cases hx : x = t
  · subst hx
    simp [hpc, Pc.place]
  · simp only [update_of_ne hx]
    cases hp : s.pc x with
    | futexWait q =>
      by_cases hz : s.since x = 0 <;> simp [Pc.place, Pc.underway, hz]
    | _ => simp [Pc.place, Pc.underway]

theorem monitor_unblock (s : State) (t : Nat) :
    monitor (s.unblock t) = { monitor s with place := update (monitor s).place t .woken } :=
  monitor_goto s s.lock s.waiters (s.queue.erase t) t .relock

/-- A thread that wakes up by itself. -/
theorem stirred_one (hpc : s.pc t = .blocked) :
    Monitor.stirred (fun u => u == t) (monitor s).place = update (monitor s).place t .woken := by
  funext x
  unfold Monitor.stirred
  by_cases hx : x = t
  · subst hx
    simp [monitor, hpc, Pc.place]
  · simp [hx]

/-- **One access.** -/
theorem Move.matches (hi : Inv s) (hf : Fresh s) (hfew : FewSignals s a) (hm : Move s a o s') :
    Matches Monitor.Step (monitor s) (monitor s') o := by
  cases hm with
  | lock t hpc hfree =>
    have hplace : Pc.held.place (s.since t) = (s.pc t).place (s.since t) := by rw [hpc]; rfl
    rw [monitor_lock s _ _ _ hplace]
    exact .enter t hfree (by simp [monitor, hpc, Pc.place])
  | unlock t hpc =>
    have hplace : Pc.idle.place (s.since t) = (s.pc t).place (s.since t) := by rw [hpc]; rfl
    rw [monitor_lock s _ _ _ hplace]
    exact .leave t (hi.lock t (by rw [hpc]; rfl))
  | readSeq t hpc =>
    -- the thread is outside, however old its value of `seq` is
    change monitor _ = monitor s
    unfold monitor State.goto
    congr 1
    funext x
    by_cases hx : x = t
    · subst hx
      simp [hpc, Pc.place]
    · simp [update_of_ne hx]
  | sleep t q hpc =>
    have hzero : s.since t = 0 := hf.held t q (by rw [hpc]; rfl) (by rw [hpc]; rfl)
    have hgoto := monitor_goto s none s.waiters s.queue t (.futexWait q)
    rw [hzero] at hgoto
    exact hgoto ▸ .sleep t (hi.lock t (by rw [hpc]; rfl))
  | block t q hpc he =>
    have hzero := hi.since_eq_zero hpc (hfew t q rfl hpc) he
    exact monitor_same s s.waiters _ (by rw [hpc]; simp [Pc.place, hzero])
  | pass t q hpc he =>
    -- the value differs, so the thread has missed a signal
    have hpos : s.since t ≠ 0 := by
      intro hzero
      have hseq := hi.seq t q (by rw [hpc]; rfl)
      have hword := hf.word t q (by rw [hpc]; rfl)
      rw [hzero, Nat.add_zero, Nat.mod_eq_of_lt hword] at hseq
      exact he hseq
    exact monitor_same s s.waiters s.queue (by rw [hpc]; simp [Pc.place, hpos])
  | relock t hpc hfree =>
    have hgoto := monitor_goto s (some t) s.waiters s.queue t .doneLoad
    exact hgoto ▸ .reenter t hfree (by simp [monitor, hpc, Pc.place])
  | noWaiters t hpc h =>
    have hsame : monitor (s.goto t .held) = monitor s :=
      monitor_same s s.waiters s.queue (by rw [hpc]; rfl)
    rw [hsame]
    exact .nobody t (hi.lock t (by rw [hpc]; rfl)) (fun u => hi.nobody h)
  | bump t hpc =>
    rw [monitor_bump hpc]
    exact .stir _
  | nobody t hpc hq =>
    have hsame : monitor (s.goto t .held) = monitor s :=
      monitor_same s s.waiters s.queue (by rw [hpc]; rfl)
    rw [hsame]
    refine .nobody t (hi.lock t (by rw [hpc]; rfl)) ?_
    intro u hasleep
    have hmem := (hi.queue u).mpr (hf.blocked hpc hasleep)
    rw [hq] at hmem
    cases hmem
  | wake t u hpc hu =>
    have hb := (hi.queue u).mp hu
    have htu : t ≠ u := by
      rintro rfl
      rw [hpc] at hb
      cases hb
    have hpc' : (s.unblock u).pc t = .sigWake := by
      simpa [State.unblock, State.goto, update_of_ne htu] using hpc
    have hsame : monitor ((s.unblock u).goto t .held) = monitor (s.unblock u) :=
      monitor_same (p := .held) (s.unblock u) _ _ (by rw [hpc']; rfl)
    rw [hsame, monitor_unblock]
    exact .wake t u (hi.lock t (by rw [hpc]; rfl)) (by simp [monitor, hb, Pc.place])
  | spurious t hpc =>
    rw [monitor_unblock, ← stirred_one hpc]
    exact .stir _
  | wait t hpc | signal t hpc | load t q hpc | store t q v hpc | doneLoad t hpc
  | doneStore t v hpc | waiters t hpc =>
    exact monitor_same s _ s.queue (by rw [hpc]; rfl)

/-! ## Every run -/

/-- A thread returns from the futex: this is no event of its own. -/
theorem owes_unblock (k : Monitor.Kind) (hpc : s.pc u = .blocked) :
    ((s.unblock u).pc t).owes k = (s.pc t).owes k := by
  by_cases hx : t = u
  · subst hx
    cases k <;> simp [State.unblock, State.goto, hpc, Pc.owes, Pc.beforeSleep, Pc.signalling,
      Pc.beforeReturn, Pc.inWait]
  · simp [State.unblock, State.goto, update_of_ne hx]

/-- **One access.** The calls and the events of a thread. -/
theorem Move.account (hi : Inv s) (hm : Move s a o s') (k : Monitor.Kind) (t : Nat) :
    o.toList.countP (Monitor.Event.isBy k t) + ((s'.pc t).owes k).toNat =
      ((s.pc t).owes k).toNat + (if a.calls k t then 1 else 0) := by
  cases hm with
  | wake x u hpc hu =>
    have hb := (hi.queue u).mp hu
    have hxu : x ≠ u := by
      rintro rfl
      rw [hpc] at hb
      cases hb
    by_cases hx : t = x
    · subst hx
      cases k <;> simp [State.goto, hpc, Act.calls, Monitor.Event.isBy, Pc.owes, Pc.beforeSleep,
        Pc.signalling, Pc.beforeReturn, Pc.inWait]
    · have hold := owes_unblock (t := t) k hb
      simp only [State.goto, update_of_ne hx, hold]
      simp [Act.calls, Monitor.Event.isBy, Ne.symm hx]
  | spurious x hpc =>
    rw [owes_unblock k hpc]
    simp [Act.calls, Monitor.Event.isBy]
  | lock x hpc | unlock x hpc | wait x hpc | signal x hpc | readSeq x hpc | load x q hpc
  | store x q v hpc | sleep x q hpc | block x q hpc | pass x q hpc | relock x hpc | doneLoad x hpc
  | doneStore x v hpc | waiters x hpc | noWaiters x hpc | bump x hpc | nobody x hpc =>
    by_cases hx : t = x
    · subst hx
      cases k <;> simp [State.goto, hpc, Act.calls, Monitor.Event.isBy, Pc.owes, Pc.beforeSleep,
        Pc.signalling, Pc.beforeReturn, Pc.inWait]
    · simp [State.goto, Act.calls, Monitor.Event.isBy, update_of_ne hx, Ne.symm hx]

def events (as : List Act) : List (Monitor.Event Nat) := Lts.trace step emits start as

/-- **The condition variable is a monitor.** Let fewer than `2 ^ 32` signals come between a thread's
read of `seq` and its call of the futex. Then what the threads do to the lock and the variable is a
run of the monitor: going to sleep gives the lock back in one step, a signal wakes a thread unless
none is asleep, and a thread that has slept takes the lock before it goes on. Each call leads to one
event of its kind, but for calls that have not come to it. -/
theorem condvar_refines_monitor {s : State} {as : List Act} (hr : Lts.run step start as = some s)
    (hm : Lts.Meets step FewSignals start as) :
    Lts.Path Monitor.Step Monitor.start (events as) (monitor s) ∧
      ∀ k t, (events as).countP (Monitor.Event.isBy k t) + ((s.pc t).owes k).toNat =
        as.countP (Act.calls k t) := by
  have hkeep : ∀ s a t, Inv s ∧ Fresh s → step s a = some t → Inv t ∧ Fresh t := by
    rintro s a t ⟨hi, hf⟩ hs
    exact ⟨step_inv hi hs, (step_move hs).fresh hi hf⟩
  constructor
  · have hstart : monitor start = Monitor.start := rfl
    rw [← hstart]
    apply Lts.Path.of_run (I := fun s => Inv s ∧ Fresh s) (P := FewSignals) monitor
    · intro s a t hi hfew hs
      exact ⟨hkeep s a t hi hs, (step_move hs).matches hi.1 hi.2 hfew⟩
    · exact ⟨start_inv, start_fresh⟩
    · exact hr
    · exact hm
  · intro k t
    have hcount := Lts.countP_trace (I := fun s => Inv s ∧ Fresh s) (P := FewSignals)
      (c := Act.calls k t) (d := Monitor.Event.isBy k t) (w := fun s => ((s.pc t).owes k).toNat)
      (fun s a u hi _ hs => ⟨hkeep s a u hi hs, (step_move hs).account hi.1 k t⟩)
      ⟨start_inv, start_fresh⟩ hr hm
    have hzero : ((start.pc t).owes k).toNat = 0 := by cases k <;> rfl
    rw [hzero, Nat.zero_add] at hcount
    exact hcount

end

/-- One thread is blocked and another on its way to the futex when the signal comes: the monitor sees
one signal, and both have woken up. -/
theorem signal_monitored : ∃ s, Lts.run step start (twoWaiters ++ .signal 1 :: signalRun) = some s ∧
    Lts.Meets step FewSignals start (twoWaiters ++ .signal 1 :: signalRun) ∧
    Lts.Path Monitor.Step Monitor.start (events (twoWaiters ++ .signal 1 :: signalRun)) (monitor s) ∧
    (events (twoWaiters ++ .signal 1 :: signalRun)).countP (Monitor.Event.isBy .signal 1) = 1 ∧
    (monitor s).place 0 = .woken ∧ (monitor s).place 2 = .woken := by
  have hd : (Lts.drive step fewSignals start (twoWaiters ++ .signal 1 :: signalRun)).map
      (fun s => (s.pc 0, s.pc 1, s.pc 2)) = some (.relock, .held, .relock) := by decide +kernel
  obtain ⟨s, hs, hobs⟩ := Option.map_eq_some_iff.mp hd
  simp only [Prod.mk.injEq] at hobs
  obtain ⟨h0, h1, h2⟩ := hobs
  obtain ⟨hr, hm⟩ := Lts.run_of_drive fewSignals_sound hs
  obtain ⟨hpath, hcount⟩ := condvar_refines_monitor hr hm
  have hone := hcount .signal 1
  rw [h1] at hone
  exact ⟨s, hr, hm, hpath, hone.trans (by decide), by simp [monitor, h0, Pc.place],
    by simp [monitor, h2, Pc.place]⟩

end Pgm.Condvar
