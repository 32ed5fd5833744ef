import Pgm.Lib.Circular
import Pgm.Lib.Lts
import Pgm.Lib.Threads
import Pgm.Lib.Word

/-!
# The condition variable over a futex

`step` interleaves the memory accesses and system calls of threads that call `cv_wait` and
`cv_signal` on one `cv_t`, each with the lock held. The kernel is what its contract says:
`FUTEX_WAIT` compares the word and blocks in one step, `FUTEX_WAKE` releases one of the
blocked threads, whichever it likes, and a blocked thread may return at any time.

* `Inv`: `waiters` counts the threads between its increment and its decrement, and a thread
  on its way to the futex knows how far `seq` has moved;
* `SignalMove`: what can happen at all while a thread is inside `cv_signal`;
* `condvar_loses_no_signal`: a signal with a thread to release releases one.
-/

namespace Pgm.Condvar

open Function (update update_of_ne)

/-- The next access of a thread. `mode` only selects the private or the shared form of the
two system calls. -/
inductive Pc where
  /-- Without the lock. -/
  | idle
  /-- With the lock, outside of `cv_wait` and `cv_signal`. -/
  | held
  /-- `cv_wait`: `seq = cv->seq`. -/
  | waitSeq
  /-- `cv_wait`: the read of `++cv->waiters`. -/
  | waitLoad (seq : Nat)
  /-- `cv_wait`: the write of `++cv->waiters`. -/
  | waitStore (seq v : Nat)
  /-- `cv_wait`: `spin_unlock(l)`. -/
  | waitUnlock (seq : Nat)
  /-- `cv_wait`: the call of `FUTEX_WAIT`. -/
  | futexWait (seq : Nat)
  /-- Blocked in `FUTEX_WAIT`. -/
  | blocked
  /-- `cv_wait`: `spin_lock(l)`. -/
  | relock
  /-- `cv_wait`: the read of `--cv->waiters`. -/
  | doneLoad
  /-- `cv_wait`: the write of `--cv->waiters`. -/
  | doneStore (v : Nat)
  /-- `cv_signal`: `if(cv->waiters > 0)`. -/
  | sigTest
  /-- `cv_signal`: `__sync_fetch_and_add(&cv->seq, 1)`. -/
  | sigBump
  /-- `cv_signal`: the call of `FUTEX_WAKE`. -/
  | sigWake
  deriving DecidableEq

/-- The lock, the variable, the kernel's queue of blocked threads, and the threads. `since t`
is the number of increments of `seq` since `t` has read it. -/
structure State where
  lock : Option Nat
  seq : Nat
  waiters : Nat
  queue : List Nat
  pc : Nat → Pc
  since : Nat → Nat

inductive Act where
  | lock (t : Nat)
  | unlock (t : Nat)
  /-- Thread `t` calls `cv_wait`. -/
  | wait (t : Nat)
  /-- Thread `t` calls `cv_signal`. -/
  | signal (t : Nat)
  /-- The next access of thread `t`. -/
  | go (t : Nat)
  /-- The `FUTEX_WAKE` of thread `t` releases `u`. -/
  | wake (t u : Nat)
  /-- `FUTEX_WAIT` returns to `t` without a wake-up. -/
  | spurious (t : Nat)
  deriving DecidableEq

/-- How many threads there can be: they are told apart by positive values of `pid_t`, a
signed type of 32 bits. -/
def maxThreads : Nat := 2 ^ 31 - 1

def State.goto (s : State) (t : Nat) (p : Pc) : State := { s with pc := update s.pc t p }

def State.unblock (s : State) (t : Nat) : State :=
  { s with queue := s.queue.erase t }.goto t .relock

def go (s : State) (t : Nat) : Option State :=
  match s.pc t with
  | .waitSeq => some ({ s with since := update s.since t 0 }.goto t (.waitLoad s.seq))
  | .waitLoad q => some (s.goto t (.waitStore q s.waiters))
  | .waitStore q v => some ({ s with waiters := Word.add 32 v 1 }.goto t (.waitUnlock q))
  | .waitUnlock q => some ({ s with lock := none }.goto t (.futexWait q))
  | .futexWait q =>
    if s.seq = q then some ({ s with queue := s.queue ++ [t] }.goto t .blocked)
    else some (s.goto t .relock)
  | .relock => if s.lock = none then some ({ s with lock := some t }.goto t .doneLoad) else none
  | .doneLoad => some (s.goto t (.doneStore s.waiters))
  | .doneStore v => some ({ s with waiters := Word.sub 32 v 1 }.goto t .held)
  | .sigTest =>
    if 0 < Word.signed 32 s.waiters then some (s.goto t .sigBump) else some (s.goto t .held)
  | .sigBump =>
    some ({ s with seq := Word.add 32 s.seq 1, since := fun x => s.since x + 1 }.goto t .sigWake)
  | .sigWake => if s.queue = [] then some (s.goto t .held) else none
  | .idle | .held | .blocked => none

def step (s : State) : Act → Option State
  | .lock t =>
    if t < maxThreads ∧ s.pc t = .idle ∧ s.lock = none then
      some ({ s with lock := some t }.goto t .held)
    else none
  | .unlock t => if s.pc t = .held then some ({ s with lock := none }.goto t .idle) else none
  | .wait t => if s.pc t = .held then some (s.goto t .waitSeq) else none
  | .signal t => if s.pc t = .held then some (s.goto t .sigTest) else none
  | .go t => go s t
  | .wake t u =>
    if s.pc t = .sigWake ∧ u ∈ s.queue then some ((s.unblock u).goto t .held) else none
  | .spurious t => if s.pc t = .blocked then some (s.unblock t) else none

def start : State := ⟨none, 0, 0, [], fun _ => .idle, fun _ => 0⟩

/-- Fewer than `2 ^ 32` signals between a thread's read of `seq` and its call of the futex. -/
def FewSignals (s : State) (a : Act) : Prop :=
  ∀ t q, a = .go t → s.pc t = .futexWait q → s.since t < 2 ^ 32

/-! ## What the threads know -/

def Pc.holds : Pc → Bool
  | .idle | .futexWait _ | .blocked | .relock => false
  | _ => true

/-- The value of `seq` that the thread has read and not yet used. -/
def Pc.expects : Pc → Option Nat
  | .waitLoad q | .waitStore q _ | .waitUnlock q | .futexWait q => some q
  | _ => none

/-- The value of `waiters` that the thread has read and not yet replaced. -/
def Pc.loaded : Pc → Option Nat
  | .waitStore _ v | .doneStore v => some v
  | _ => none

/-- Between the increment and the decrement of `waiters`. -/
def Pc.counted : Pc → Bool
  | .waitUnlock _ | .futexWait _ | .blocked | .relock | .doneLoad | .doneStore _ => true
  | _ => false

structure Inv (s : State) : Prop where
  idle : ∀ t, maxThreads ≤ t → s.pc t = .idle
  lock : ∀ t, (s.pc t).holds = true → s.lock = some t
  seq : ∀ t q, (s.pc t).expects = some q → s.seq = (q + s.since t) % 2 ^ 32
  word : s.seq < 2 ^ 32
  nodup : s.queue.Nodup
  queue : ∀ t, t ∈ s.queue ↔ s.pc t = .blocked
  waiters : s.waiters = Threads.count maxThreads Pc.counted s.pc
  loaded : ∀ t v, (s.pc t).loaded = some v → v = s.waiters

section

variable {s s' : State} {a : Act} {t u : Nat} {p : Pc}

/-- What every thread knows, when one of them has moved. -/
theorem forall_update {Q : Nat → Pc → Prop} {f : Nat → Pc} (h : ∀ x, x ≠ t → Q x (f x))
    (ht : Q t p) (x : Nat) : Q x (update f t p x) := by
  by_cases hx : x = t
  · subst hx
    rw [Function.update_self]
    exact ht
  · rw [update_of_ne hx]
    exact h x hx

theorem Inv.lt (hi : Inv s) (h : s.pc t ≠ .idle) : t < maxThreads :=
  Nat.lt_of_not_le (fun hle => h (hi.idle t hle))

theorem Inv.unique (hi : Inv s) (ht : (s.pc t).holds = true) (hu : (s.pc u).holds = true) :
    t = u := Option.some.inj ((hi.lock t ht).symm.trans (hi.lock u hu))

theorem holds_of_loaded {v : Nat} (h : p.loaded = some v) : p.holds = true := by
  cases p <;> first | rfl | cases h

theorem not_mem_queue (hi : Inv s) (h : s.pc t ≠ .blocked) : t ∉ s.queue :=
  fun hm => h ((hi.queue t).mp hm)

/-- Thread `t` goes on to `p`, with a new holder of the lock and a new queue. -/
theorem Inv.move (hi : Inv s) (ht : t < maxThreads) {l : Option Nat} {k : List Nat}
    (hother : ∀ x, x ≠ t → (s.pc x).holds = true → l = some x)
    (hself : p.holds = true → l = some t)
    (hexp : ∀ q, p.expects = some q → s.seq = (q + s.since t) % 2 ^ 32)
    (hnd : k.Nodup) (hk : ∀ x, x ≠ t → (x ∈ k ↔ x ∈ s.queue)) (hb : t ∈ k ↔ p = .blocked)
    (hc : p.counted = (s.pc t).counted) (hload : ∀ v, p.loaded = some v → v = s.waiters) :
    Inv ({ s with lock := l, queue := k }.goto t p) where
  idle := forall_update (Q := fun x p => maxThreads ≤ x → p = .idle)
    (fun x _ => hi.idle x) (fun hle => absurd ht (by omega))
  lock := forall_update (Q := fun x p => p.holds = true → l = some x) hother hself
  seq := forall_update (Q := fun x p => ∀ q, p.expects = some q → s.seq = (q + s.since x) % 2 ^ 32)
    (fun x _ => hi.seq x) hexp
  word := hi.word
  nodup := hnd
  queue := forall_update (Q := fun x p => x ∈ k ↔ p = .blocked)
    (fun x hx => (hk x hx).trans (hi.queue x)) hb
  waiters := hi.waiters.trans (Threads.count_update_same ht hc).symm
  loaded := forall_update (Q := fun _ p => ∀ v, p.loaded = some v → v = s.waiters)
    (fun x _ => hi.loaded x) hload

/-- Thread `t` goes on, and takes or gives back the lock if it likes. -/
theorem Inv.goto (hi : Inv s) (ht : t < maxThreads) (l : Option Nat)
    (hother : ∀ x, x ≠ t → (s.pc x).holds = true → l = some x)
    (hself : p.holds = true → l = some t)
    (hexp : ∀ q, p.expects = some q → s.seq = (q + s.since t) % 2 ^ 32)
    (hq : s.pc t ≠ .blocked) (hb : p ≠ .blocked) (hc : p.counted = (s.pc t).counted)
    (hload : ∀ v, p.loaded = some v → v = s.waiters) :
    Inv ({ s with lock := l }.goto t p) :=
  hi.move ht hother hself hexp hi.nodup (fun _ _ => Iff.rfl)
    (iff_of_false (not_mem_queue hi hq) hb) hc hload

/-- The thread with the lock goes on and keeps it. -/
theorem Inv.goto_held (hi : Inv s) (hh : (s.pc t).holds = true)
    (hexp : ∀ q, p.expects = some q → s.seq = (q + s.since t) % 2 ^ 32) (hb : p ≠ .blocked)
    (hc : p.counted = (s.pc t).counted) (hload : ∀ v, p.loaded = some v → v = s.waiters) :
    Inv (s.goto t p) :=
  hi.goto (hi.lt (fun h => by rw [h] at hh; cases hh)) s.lock (fun x _ => hi.lock x)
    (fun _ => hi.lock t hh) hexp (fun h => by rw [h] at hh; cases hh) hb hc hload

/-- The thread with the lock goes on to a place where it has nothing in hand. -/
theorem Inv.goto_plain (hi : Inv s) (hh : (s.pc t).holds = true) (hp : p.holds = true)
    (hexp : p.expects = none) (hload : p.loaded = none) (hc : p.counted = (s.pc t).counted) :
    Inv (s.goto t p) :=
  hi.goto_held hh (fun q hq => by rw [hexp] at hq; cases hq)
    (fun hb => by rw [hb] at hp; cases hp) hc (fun v hv => by rw [hload] at hv; cases hv)

/-- The one with the lock replaces `waiters`. -/
theorem Inv.store (hi : Inv s) (hh : (s.pc t).holds = true) {v : Nat} (hp : p.holds = true)
    (hexp : ∀ q, p.expects = some q → (s.pc t).expects = some q) (hload : p.loaded = none)
    (hv : v = Threads.count maxThreads Pc.counted (update s.pc t p)) :
    Inv ({ s with waiters := v }.goto t p) where
  idle := forall_update (Q := fun x p => maxThreads ≤ x → p = .idle) (fun x _ => hi.idle x)
    (fun hle => by rw [hi.idle t hle] at hh; cases hh)
  lock := forall_update (Q := fun x p => p.holds = true → s.lock = some x)
    (fun x _ => hi.lock x) (fun _ => hi.lock t hh)
  seq := forall_update (Q := fun x p => ∀ q, p.expects = some q → s.seq = (q + s.since x) % 2 ^ 32)
    (fun x _ => hi.seq x) (fun q hq => hi.seq t q (hexp q hq))
  word := hi.word
  nodup := hi.nodup
  queue := forall_update (Q := fun x p => x ∈ s.queue ↔ p = .blocked) (fun x _ => hi.queue x)
    (iff_of_false (not_mem_queue hi (fun hb => by rw [hb] at hh; cases hh))
      (fun hb => by rw [hb] at hp; cases hp))
  waiters := hv
  loaded := by
    -- whoever has read `waiters` has the lock, and that is the thread that writes
    refine forall_update (Q := fun _ p => ∀ w, p.loaded = some w → w = v) (fun x hx w hw => ?_) ?_
    · exact absurd (hi.unique (holds_of_loaded hw) hh) hx
    · intro w hw
      rw [hload] at hw
      cases hw

/-- `__sync_fetch_and_add(&cv->seq, 1)`: every thread on its way to the futex is one signal
further behind. -/
theorem Inv.bump (hi : Inv s) (hpc : s.pc t = .sigBump) :
    Inv ({ s with seq := Word.add 32 s.seq 1, since := fun x => s.since x + 1 }.goto t .sigWake) := by
  have hmove : Inv (s.goto t .sigWake) :=
    hi.goto_plain (by rw [hpc]; rfl) rfl rfl rfl (by rw [hpc]; rfl)
  refine ⟨hmove.idle, hmove.lock, ?_, Word.add_lt 32 _ _, hmove.nodup, hmove.queue, hmove.waiters,
    hmove.loaded⟩
  intro x q hq
  have hseq := hmove.seq x q hq
  change Word.add 32 s.seq 1 = (q + (s.since x + 1)) % 2 ^ 32
  rw [Word.add, show s.seq = _ from hseq, Nat.mod_add_mod]
  rfl

/-- The futex finds the expected value and blocks the thread. -/
theorem Inv.block {q : Nat} (hi : Inv s) (hpc : s.pc t = .futexWait q) :
    Inv ({ s with queue := s.queue ++ [t] }.goto t .blocked) := by
  have hnew : t ∉ s.queue := not_mem_queue hi (by simp [hpc])
  refine hi.move (hi.lt (by simp [hpc])) (fun x _ => hi.lock x) (fun h => by cases h)
    (fun q hq => by cases hq) ?_ (fun x hx => ?_) (by simp) (by rw [hpc]; rfl)
    (fun v hv => by cases hv)
  · exact List.nodup_append'.mpr ⟨hi.nodup, List.nodup_singleton t, by simpa using hnew⟩
  · rw [List.mem_append, List.mem_singleton, or_iff_left hx]

/-- A blocked thread returns. -/
theorem Inv.unblock (hi : Inv s) (hpc : s.pc t = .blocked) : Inv (s.unblock t) :=
  hi.move (hi.lt (by simp [hpc])) (fun x _ => hi.lock x) (fun h => by cases h)
    (fun q hq => by cases hq) (hi.nodup.erase t)
    (fun x hx => by rw [hi.nodup.mem_erase_iff, and_iff_right hx])
    (by simp [hi.nodup.mem_erase_iff]) (by rw [hpc]; rfl) (fun v hv => by cases hv)

/-- A thread that has not read `seq` forgets how old its value is. -/
theorem Inv.forget (hi : Inv s) (h : (s.pc t).expects = none) (n : Nat) :
    Inv { s with since := update s.since t n } := by
  refine ⟨hi.idle, hi.lock, fun x q hq => ?_, hi.word, hi.nodup, hi.queue, hi.waiters, hi.loaded⟩
  have hx : x ≠ t := by
    rintro rfl
    rw [h] at hq
    cases hq
  simpa [update_of_ne hx] using hi.seq x q hq

/-- `++cv->waiters` and `--cv->waiters` do not wrap: there are too few threads. -/
theorem count_lt (f : Nat → Pc) : Threads.count maxThreads Pc.counted f < 2 ^ 31 :=
  Nat.lt_of_le_of_lt (Threads.count_le _ _ _) (by decide)

theorem Inv.take_lock (hi : Inv s) (ht : t < maxThreads) (hfree : s.lock = none)
    (hq : s.pc t ≠ .blocked) (hb : p ≠ .blocked) (hexp : p.expects = none)
    (hload : p.loaded = none) (hc : p.counted = (s.pc t).counted) :
    Inv ({ s with lock := some t }.goto t p) := by
  refine hi.goto ht (some t) (fun x _ hh => ?_) (fun _ => rfl)
    (fun q hq => by rw [hexp] at hq; cases hq) hq hb hc (fun v hv => by rw [hload] at hv; cases hv)
  have hl := hi.lock x hh
  rw [hfree] at hl
  cases hl

theorem Inv.give_lock (hi : Inv s) (hh : (s.pc t).holds = true) (hp : p.holds = false)
    (hb : p ≠ .blocked) (hexp : ∀ q, p.expects = some q → (s.pc t).expects = some q)
    (hc : p.counted = (s.pc t).counted) : Inv ({ s with lock := none }.goto t p) := by
  refine hi.goto (hi.lt (fun h => by rw [h] at hh; cases hh)) none (fun x hx hx' => ?_)
    (fun h => by rw [hp] at h; cases h) (fun q hq => hi.seq t q (hexp q hq))
    (fun h => by rw [h] at hh; cases hh) hb hc (fun v hv => ?_)
  · exact absurd (hi.unique hx' hh) hx
  · rw [holds_of_loaded hv] at hp
    cases hp

theorem Inv.readSeq (hi : Inv s) (hpc : s.pc t = .waitSeq) :
    Inv ({ s with since := update s.since t 0 }.goto t (.waitLoad s.seq)) := by
  have hf := hi.forget (t := t) (by rw [hpc]; rfl) 0
  refine hf.goto_held (by change (s.pc t).holds = true; rw [hpc]; rfl) ?_ (by simp) ?_
    (fun v hv => by cases hv)
  · intro q hq
    obtain rfl := Option.some.inj hq
    change s.seq = (s.seq + update s.since t 0 t) % 2 ^ 32
    rw [Function.update_self, Nat.add_zero, Nat.mod_eq_of_lt hi.word]
  · change _ = (s.pc t).counted
    rw [hpc]
    rfl

/-- The write of `++cv->waiters`. -/
theorem Inv.increment {q v : Nat} (hi : Inv s) (hpc : s.pc t = .waitStore q v) :
    Inv ({ s with waiters := Word.add 32 v 1 }.goto t (.waitUnlock q)) := by
  have hcount := Threads.count_update (f := s.pc) (hi.lt (t := t) (by simp [hpc]))
    Pc.counted (.waitUnlock q)
  have hv : v = s.waiters := hi.loaded t v (by rw [hpc]; rfl)
  have hlt := count_lt (update s.pc t (.waitUnlock q))
  simp only [hpc, Pc.counted, Bool.false_eq_true, if_false, if_true] at hcount
  refine hi.store (by rw [hpc]; rfl) rfl (fun q' hq => by rw [hpc]; exact hq) rfl ?_
  rw [Word.add_of_lt (by rw [hv, hi.waiters]; omega), hv, hi.waiters]
  omega

/-- The write of `--cv->waiters`. -/
theorem Inv.decrement {v : Nat} (hi : Inv s) (hpc : s.pc t = .doneStore v) :
    Inv ({ s with waiters := Word.sub 32 v 1 }.goto t .held) := by
  have hcount := Threads.count_update (f := s.pc) (hi.lt (t := t) (by simp [hpc])) Pc.counted .held
  have hv : v = s.waiters := hi.loaded t v (by rw [hpc]; rfl)
  simp only [hpc, Pc.counted, Bool.false_eq_true, if_false, if_true] at hcount
  refine hi.store (by rw [hpc]; rfl) rfl (fun q' hq => by cases hq) rfl ?_
  rw [Word.sub_of_le (by rw [hv, hi.waiters]; omega), hv, hi.waiters]
  omega

theorem go_inv (hi : Inv s) (hst : go s t = some s') : Inv s' := by
  unfold go at hst
  cases hpc : s.pc t with
  | waitSeq =>
    simp only [hpc, Option.some.injEq] at hst
    exact hst ▸ hi.readSeq hpc
  | waitLoad q =>
    simp only [hpc, Option.some.injEq] at hst
    subst hst
    exact hi.goto_held (by rw [hpc]; rfl) (fun q' hq => hi.seq t q' (by rw [hpc]; exact hq))
      (by simp) (by rw [hpc]; rfl) (fun v hv => (Option.some.inj hv).symm)
  | waitStore q v =>
    simp only [hpc, Option.some.injEq] at hst
    exact hst ▸ hi.increment hpc
  | waitUnlock q =>
    simp only [hpc, Option.some.injEq] at hst
    exact hst ▸ hi.give_lock (by rw [hpc]; rfl) rfl (by simp) (fun q' hq => by rw [hpc]; exact hq)
      (by rw [hpc]; rfl)
  | futexWait q =>
    simp only [hpc] at hst
    split at hst
    · obtain rfl := Option.some.inj hst
      exact hi.block hpc
    · obtain rfl := Option.some.inj hst
      exact hi.goto (hi.lt (by simp [hpc])) s.lock (fun x _ => hi.lock x) (fun h => by cases h)
        (fun q hq => by cases hq) (by simp [hpc]) (by simp) (by rw [hpc]; rfl)
        (fun v hv => by cases hv)
  | relock =>
    simp only [hpc] at hst
    split at hst
    · rename_i hfree
      obtain rfl := Option.some.inj hst
      exact hi.take_lock (hi.lt (by simp [hpc])) hfree (by simp [hpc]) (by simp) rfl rfl
        (by rw [hpc]; rfl)
    · cases hst
  | doneLoad =>
    simp only [hpc, Option.some.injEq] at hst
    subst hst
    exact hi.goto_held (by rw [hpc]; rfl) (fun q' hq => by cases hq) (by simp) (by rw [hpc]; rfl)
      (fun v hv => (Option.some.inj hv).symm)
  | doneStore v =>
    simp only [hpc, Option.some.injEq] at hst
    exact hst ▸ hi.decrement hpc
  | sigTest =>
    simp only [hpc] at hst
    split at hst <;> obtain rfl := Option.some.inj hst
    · exact hi.goto_plain (by rw [hpc]; rfl) rfl rfl rfl (by rw [hpc]; rfl)
    · exact hi.goto_plain (by rw [hpc]; rfl) rfl rfl rfl (by rw [hpc]; rfl)
  | sigBump =>
    simp only [hpc, Option.some.injEq] at hst
    exact hst ▸ hi.bump hpc
  | sigWake =>
    simp only [hpc] at hst
    split at hst
    · obtain rfl := Option.some.inj hst
      exact hi.goto_plain (by rw [hpc]; rfl) rfl rfl rfl (by rw [hpc]; rfl)
    · cases hst
  | idle | held | blocked => simp [hpc] at hst

theorem step_inv (hi : Inv s) (hst : step s a = some s') : Inv s' := by
  cases a with
  | lock t =>
    obtain ⟨⟨ht, hpc, hfree⟩, hs⟩ := Option.ite_none_right_eq_some.mp hst
    obtain rfl := Option.some.inj hs
    exact hi.take_lock ht hfree (by simp [hpc]) (by simp) rfl rfl (by rw [hpc]; rfl)
  | unlock t =>
    obtain ⟨hpc, hs⟩ := Option.ite_none_right_eq_some.mp hst
    obtain rfl := Option.some.inj hs
    exact hi.give_lock (by rw [hpc]; rfl) rfl (by simp) (fun q hq => by cases hq) (by rw [hpc]; rfl)
  | wait t | signal t =>
    obtain ⟨hpc, hs⟩ := Option.ite_none_right_eq_some.mp hst
    obtain rfl := Option.some.inj hs
    exact hi.goto_plain (by rw [hpc]; rfl) rfl rfl rfl (by rw [hpc]; rfl)
  | go t => exact go_inv hi hst
  | wake t u =>
    obtain ⟨⟨hpc, hu⟩, hs⟩ := Option.ite_none_right_eq_some.mp hst
    obtain rfl := Option.some.inj hs
    have hb := (hi.queue u).mp hu
    have htu : t ≠ u := by
      rintro rfl
      rw [hpc] at hb
      cases hb
    have hpc' : (s.unblock u).pc t = .sigWake := by
      simpa [State.unblock, State.goto, update_of_ne htu] using hpc
    exact (hi.unblock hb).goto_plain (by rw [hpc']; rfl) rfl rfl rfl (by rw [hpc']; rfl)
  | spurious t =>
    obtain ⟨hpc, hs⟩ := Option.ite_none_right_eq_some.mp hst
    obtain rfl := Option.some.inj hs
    exact hi.unblock hpc

theorem start_inv : Inv start where
  idle := fun _ _ => rfl
  lock := fun _ h => by cases h
  seq := fun _ _ h => by cases h
  word := by decide
  nodup := List.nodup_nil
  queue := fun _ => iff_of_false (by simp [start]) (by simp [start])
  waiters := (Threads.count_const rfl).symm
  loaded := fun _ _ h => by cases h

/-! ## One call of `cv_signal` -/

def Pc.signalling : Pc → Bool
  | .sigTest | .sigBump | .sigWake => true
  | _ => false

/-- Inside `cv_wait`, up to the return of the futex. -/
def Pc.inWait : Pc → Bool
  | .waitSeq | .waitLoad _ | .waitStore _ _ | .waitUnlock _ | .futexWait _ | .blocked => true
  | _ => false

/-- The futex has returned, or it will find another value of `seq` and not block. -/
def Released (s : State) (t : Nat) : Prop :=
  (s.pc t).inWait = false ∨ ∃ q, s.pc t = .futexWait q ∧ 0 < s.since t

/-- The futex blocks only a thread that has missed no signal. -/
theorem Inv.since_eq_zero {q : Nat} (hi : Inv s) (hpc : s.pc t = .futexWait q)
    (hlt : s.since t < 2 ^ 32) (he : s.seq = q) : s.since t = 0 := by
  have hseq := hi.seq t q (by rw [hpc]; rfl)
  have hmod : q % 2 ^ 32 = (q + s.since t) % 2 ^ 32 := by
    rw [← hseq, he, Nat.mod_eq_of_lt (he ▸ hi.word)]
  have := Circular.eq_of_mod_eq (Nat.le_add_right _ _) (by omega) hmod
  omega

/-- What can happen while `u` is inside `cv_signal`: the others do not have the lock. -/
inductive SignalMove (s : State) (u : Nat) : State → Prop where
  | block (t q : Nat) : s.pc t = .futexWait q → s.since t = 0 →
      SignalMove s u ({ s with queue := s.queue ++ [t] }.goto t .blocked)
  | pass (t q : Nat) : s.pc t = .futexWait q → SignalMove s u (s.goto t .relock)
  | spurious (t : Nat) : s.pc t = .blocked → SignalMove s u (s.unblock t)
  | test : s.pc u = .sigTest → SignalMove s u (s.goto u .sigBump)
  | none : s.pc u = .sigTest → ¬ 0 < Word.signed 32 s.waiters → SignalMove s u (s.goto u .held)
  | bump : s.pc u = .sigBump → SignalMove s u
      ({ s with seq := Word.add 32 s.seq 1, since := fun x => s.since x + 1 }.goto u .sigWake)
  | wake (t : Nat) : s.pc u = .sigWake → s.pc t = .blocked →
      SignalMove s u ((s.unblock t).goto u .held)
  | empty : s.pc u = .sigWake → s.queue = [] → SignalMove s u (s.goto u .held)

theorem holds_of_signalling (h : p.signalling = true) : p.holds = true := by
  cases p <;> first | rfl | cases h

theorem go_signalMove (hi : Inv s) (hu : (s.pc u).signalling = true)
    (hf : ∀ q, s.pc t = .futexWait q → s.since t < 2 ^ 32) (hst : go s t = some s') :
    SignalMove s u s' := by
  have huh := holds_of_signalling hu
  unfold go at hst
  by_cases ht : (s.pc t).holds = true
  · obtain rfl := hi.unique ht huh
    cases hpc : s.pc t with
    | sigTest =>
      simp only [hpc] at hst
      split at hst <;> obtain rfl := Option.some.inj hst
      · exact .test hpc
      · rename_i hw
        exact .none hpc hw
    | sigBump =>
      simp only [hpc, Option.some.injEq] at hst
      subst hst
      exact .bump hpc
    | sigWake =>
      simp only [hpc] at hst
      split at hst
      · rename_i hq
        obtain rfl := Option.some.inj hst
        exact .empty hpc hq
      · cases hst
    | _ => rw [hpc] at hu; cases hu
  · cases hpc : s.pc t with
    | futexWait q =>
      simp only [hpc] at hst
      split at hst
      · rename_i he
        obtain rfl := Option.some.inj hst
        exact .block t q hpc (hi.since_eq_zero hpc (hf q hpc) he)
      · obtain rfl := Option.some.inj hst
        exact .pass t q hpc
    | relock => simp [hpc, hi.lock u huh] at hst
    | idle | blocked => simp [hpc] at hst
    | _ => rw [hpc] at ht; exact absurd rfl ht

theorem step_signalMove (hi : Inv s) (hu : (s.pc u).signalling = true) (hf : FewSignals s a)
    (hst : step s a = some s') : SignalMove s u s' := by
  have huh := holds_of_signalling hu
  cases a with
  | lock t => simp [step, hi.lock u huh] at hst
  | unlock t | wait t | signal t =>
    obtain ⟨hpc, -⟩ := Option.ite_none_right_eq_some.mp hst
    obtain rfl := hi.unique (t := t) (by rw [hpc]; rfl) huh
    rw [hpc] at hu
    cases hu
  | go t => exact go_signalMove hi hu (fun q hq => hf t q rfl hq) hst
  | wake t v =>
    obtain ⟨⟨hpc, hv⟩, hs⟩ := Option.ite_none_right_eq_some.mp hst
    obtain rfl := hi.unique (t := t) (by rw [hpc]; rfl) huh
    obtain rfl := Option.some.inj hs
    exact .wake v hpc ((hi.queue v).mp hv)
  | spurious t =>
    obtain ⟨hpc, hs⟩ := Option.ite_none_right_eq_some.mp hst
    obtain rfl := Option.some.inj hs
    exact .spurious t hpc

/-- What holds between the call of `cv_signal` by `u` in the state `s₀` and its return. -/
structure Signalled (s₀ : State) (u : Nat) (s : State) : Prop where
  inside : ∀ v, (s₀.pc v).inWait = true →
    s.pc v = .blocked ∨ s.pc v = .relock ∨ ∃ q, s.pc v = .futexWait q
  waits : ∀ v q, s.pc v = .futexWait q → ¬ Released s₀ v ∨ 0 < s.since v
  blocked : ∀ v, s.pc v = .blocked → ¬ Released s₀ v
  bumped : s.pc u = .sigWake → ∀ v q, s.pc v = .futexWait q → 0 < s.since v
  done : s.pc u = .held → ∀ t, ¬ Released s₀ t → ∃ v, ¬ Released s₀ v ∧ Released s v

variable {s₀ : State}

theorem inWait_of_not_released (h : ¬ Released s t) : (s.pc t).inWait = true := by
  unfold Released at h
  rw [not_or, Bool.not_eq_false] at h
  exact h.1

theorem released_of_relock (h : s.pc t = .relock) : Released s t := Or.inl (by rw [h]; rfl)

/-- Another thread goes on from `futexWait` or `blocked`, to `blocked` or past the futex. -/
theorem Signalled.other (h : Signalled s₀ u s) (hu : (s.pc u).signalling = true)
    (ht : s.pc t = .blocked ∨ ∃ q, s.pc t = .futexWait q)
    (hp : p = .relock ∨ p = .blocked ∧ ¬ Released s₀ t) (k : List Nat) :
    Signalled s₀ u ({ s with queue := k }.goto t p) := by
  have hut : u ≠ t := by
    rintro rfl
    rcases ht with hpc | ⟨q, hpc⟩ <;> rw [hpc] at hu <;> cases hu
  have hnf : ∀ q, p ≠ .futexWait q := by
    rcases hp with rfl | ⟨rfl, -⟩ <;> simp
  refine ⟨?_, ?_, ?_, ?_, ?_⟩
  · refine forall_update (Q := fun v p => (s₀.pc v).inWait = true →
      p = .blocked ∨ p = .relock ∨ ∃ q, p = .futexWait q) (fun v _ => h.inside v) ?_
    exact fun _ => hp.elim (fun he => Or.inr (Or.inl he)) (fun he => Or.inl he.1)
  · refine forall_update (Q := fun v p => ∀ q, p = .futexWait q →
      ¬ Released s₀ v ∨ 0 < s.since v) (fun v _ => h.waits v) ?_
    exact fun q hq => absurd hq (hnf q)
  · refine forall_update (Q := fun v p => p = .blocked → ¬ Released s₀ v)
      (fun v _ => h.blocked v) ?_
    rintro rfl
    rcases hp with hp | hp
    · cases hp
    · exact hp.2
  · intro hw
    have hw' : s.pc u = .sigWake := by simpa [State.goto, update_of_ne hut] using hw
    refine forall_update (Q := fun v p => ∀ q, p = .futexWait q → 0 < s.since v)
      (fun v _ => h.bumped hw' v) ?_
    exact fun q hq => absurd hq (hnf q)
  · intro hd
    have hd' : s.pc u = .held := by simpa [State.goto, update_of_ne hut] using hd
    rw [hd'] at hu
    cases hu

theorem Signalled.self (h : Signalled s₀ u s) (hu : (s.pc u).signalling = true)
    (hp : p.holds = true) (hw : p = .sigWake → ∀ v q, s.pc v = .futexWait q → 0 < s.since v)
    (hd : p = .held → ∀ t, ¬ Released s₀ t → ∃ v, ¬ Released s₀ v ∧ Released (s.goto u p) v) :
    Signalled s₀ u (s.goto u p) := by
  have hpu : ∀ v, (s₀.pc v).inWait = true → v ≠ u := by
    rintro v hv rfl
    rcases h.inside v hv with hpc | hpc | ⟨q, hpc⟩ <;> rw [hpc] at hu <;> cases hu
  have hother : ∀ v, (s.goto u p).pc v = s.pc v ∨ ((s.goto u p).pc v).holds = true := by
    refine forall_update (Q := fun v p => p = s.pc v ∨ p.holds = true) (fun v _ => Or.inl rfl) ?_
    exact Or.inr hp
  have hwaits : ∀ v q, (s.goto u p).pc v = .futexWait q → s.pc v = .futexWait q := by
    intro v q hq
    rcases hother v with he | he
    · exact he.symm.trans hq
    · rw [hq] at he
      cases he
  have hself : (s.goto u p).pc u = p := by simp [State.goto]
  refine ⟨?_, fun v q hq => h.waits v q (hwaits v q hq), ?_, ?_, ?_⟩
  · intro v hv
    have hpc : (s.goto u p).pc v = s.pc v := update_of_ne (hpu v hv) _ _
    rw [hpc]
    exact h.inside v hv
  · intro v hb
    rcases hother v with he | he
    · exact h.blocked v (he.symm.trans hb)
    · rw [hb] at he
      cases he
  · exact fun he v q hq => hw (hself.symm.trans he) v q (hwaits v q hq)
  · exact fun he => hd (hself.symm.trans he)

theorem Inv.waiters_pos (hi : Inv s) (h : (s.pc t).counted = true) :
    0 < Word.signed 32 s.waiters := by
  have hpos := Threads.count_pos (hi.lt (t := t) (fun he => by rw [he] at h; cases h)) h
  rw [hi.waiters, Word.signed_of_lt (count_lt s.pc)]
  exact_mod_cast hpos

theorem Signalled.move (h : Signalled s₀ u s) (hi : Inv s) (hu : (s.pc u).signalling = true)
    (hm : SignalMove s u s') : Signalled s₀ u s' := by
  cases hm with
  | block t q hpc hz =>
    refine h.other hu (Or.inr ⟨q, hpc⟩) (Or.inr ⟨rfl, ?_⟩) _
    exact (h.waits t q hpc).resolve_right (by omega)
  | pass t q hpc => exact h.other hu (Or.inr ⟨q, hpc⟩) (Or.inl rfl) s.queue
  | spurious t hpc => exact h.other hu (Or.inl hpc) (Or.inl rfl) _
  | test => exact h.self hu rfl (fun he => by cases he) (fun he => by cases he)
  | none hpc hw =>
    refine h.self hu rfl (fun he => by cases he) (fun _ t ht => ?_)
    refine absurd (hi.waiters_pos (t := t) ?_) hw
    rcases h.inside t (inWait_of_not_released ht) with he | he | ⟨q, he⟩ <;> rw [he] <;> rfl
  | bump hpc =>
    have hb : Signalled s₀ u { s with seq := Word.add 32 s.seq 1, since := fun x => s.since x + 1 } :=
      ⟨h.inside, fun v q _ => Or.inr (Nat.succ_pos _), h.blocked,
        fun _ v q _ => Nat.succ_pos _, fun he => by rw [show s.pc u = .held from he] at hpc; cases hpc⟩
    exact hb.self hu rfl (fun _ v q _ => Nat.succ_pos _) (fun he => by cases he)
  | wake t hpc hb =>
    have htu : u ≠ t := by
      rintro rfl
      rw [hpc] at hb
      cases hb
    have hun : Signalled s₀ u (s.unblock t) := h.other hu (Or.inl hb) (Or.inl rfl) _
    refine hun.self (by simpa [State.unblock, State.goto, update_of_ne htu] using hu) rfl
      (fun he => by cases he) (fun _ _ _ => ⟨t, h.blocked t hb, ?_⟩)
    exact released_of_relock (by simp [State.unblock, State.goto, update_of_ne htu.symm])
  | empty hpc hq =>
    refine h.self hu rfl (fun he => by cases he) (fun _ t ht => ⟨t, ht, ?_⟩)
    have hin := inWait_of_not_released ht
    have htu : t ≠ u := by
      rintro rfl
      rcases h.inside t hin with he | he | ⟨q, he⟩ <;> rw [hpc] at he <;> cases he
    have hpct : (s.goto u .held).pc t = s.pc t := update_of_ne htu _ _
    rcases h.inside t hin with he | he | ⟨q, he⟩
    · have hmem := (hi.queue t).mpr he
      rw [hq] at hmem
      cases hmem
    · exact released_of_relock (hpct.trans he)
    · exact Or.inr ⟨q, hpct.trans he, h.bumped hpc t q he⟩

theorem signalled_call (hi : Inv s) (hpc : s.pc u = .held) :
    Signalled s u (s.goto u .sigTest) := by
  have hother : ∀ v p, p ≠ Pc.sigTest → (s.goto u .sigTest).pc v = p → s.pc v = p := by
    intro v p hp he
    by_cases hv : v = u
    · subst hv
      simp only [State.goto, Function.update_self] at he
      exact absurd he.symm hp
    · simpa [State.goto, update_of_ne hv] using he
  refine ⟨?_, ?_, ?_, ?_, ?_⟩
  · intro v hv
    have hvu : v ≠ u := by
      rintro rfl
      rw [hpc] at hv
      cases hv
    have hnh : ¬ (s.pc v).holds = true := fun hh => hvu (hi.unique hh (by rw [hpc]; rfl))
    have hpcv : (s.goto u .sigTest).pc v = s.pc v := update_of_ne hvu _ _
    rw [hpcv]
    cases hc : s.pc v with
    | futexWait q => exact Or.inr (Or.inr ⟨q, rfl⟩)
    | blocked => exact Or.inl rfl
    | relock => exact Or.inr (Or.inl rfl)
    | idle => rw [hc] at hv; cases hv
    | _ => rw [hc] at hnh; exact absurd rfl hnh
  · intro v q hq
    have hq' := hother v _ (by simp) hq
    rcases Nat.eq_zero_or_pos (s.since v) with hz | hz
    · left
      rintro (hr | ⟨q', -, hpos⟩)
      · rw [hq'] at hr
        cases hr
      · omega
    · exact Or.inr hz
  · intro v hb
    have hb' := hother v _ (by simp) hb
    rintro (hr | ⟨q, hq, -⟩)
    · rw [hb'] at hr
      cases hr
    · rw [hb'] at hq
      cases hq
  · intro hw
    simp [State.goto] at hw
  · intro hd
    simp [State.goto] at hd

/-- A thread that was inside `cv_wait`, and had missed a signal, is past the futex or still on
its way to it. -/
theorem Signalled.released (h : Signalled s₀ u s) (hr : Released s₀ t)
    (hin : (s₀.pc t).inWait = true) : Released s t := by
  rcases h.inside t hin with he | he | ⟨q, he⟩
  · exact absurd hr (h.blocked t he)
  · exact released_of_relock he
  · exact Or.inr ⟨q, he, (h.waits t q he).resolve_left (fun hn => hn hr)⟩

end

/-- `waiters` is the number of threads between its increment and its decrement; the futex does
not block a thread that has missed a signal; and a call of `cv_signal`, from its beginning in
`s` to its return in `s₁`, releases a thread that is inside `cv_wait` before the return of the
futex, if there is one, and one that was not released yet, if there is one. -/
theorem condvar_loses_no_signal {s : State} (hs : Lts.Reach step FewSignals start s) :
    Word.signed 32 s.waiters = Threads.count maxThreads Pc.counted s.pc ∧
    (∀ t q s', s.pc t = .futexWait q → 0 < s.since t → FewSignals s (.go t) →
      step s (.go t) = some s' → s'.pc t = .relock) ∧
    ∀ u s' as s₁, step s (.signal u) = some s' → Lts.run step s' as = some s₁ →
      Lts.Meets step (fun s a => FewSignals s a ∧ (s.pc u).signalling = true) s' as →
      s₁.pc u = .held →
      (∀ t, (s.pc t).inWait = true → ∃ v, (s.pc v).inWait = true ∧ Released s₁ v) ∧
      ∀ t, ¬ Released s t → ∃ v, ¬ Released s v ∧ Released s₁ v := by
  have hi : Inv s := Lts.Reach.inv start_inv (fun _ _ _ _ hi _ hst => step_inv hi hst) hs
  refine ⟨?_, ?_, ?_⟩
  · rw [hi.waiters]
    exact Word.signed_of_lt (count_lt s.pc)
  · intro t q s' hpc hpos hf hst
    have hne : s.seq ≠ q := by
      intro he
      have := hi.since_eq_zero hpc (hf t q rfl hpc) he
      omega
    simp only [step, go, hpc, if_neg hne, Option.some.injEq] at hst
    subst hst
    simp [State.goto]
  · intro u s' as s₁ hcall hrun hm hret
    simp only [step] at hcall
    split at hcall
    · rename_i hpc
      have hi' : Inv s' := step_inv (a := .signal u) hi (by simpa [step, hpc] using hcall)
      obtain rfl := Option.some.inj hcall
      have hend : Inv s₁ ∧ Signalled s u s₁ := Lts.run_inv
        (I := fun s₁ => Inv s₁ ∧ Signalled s u s₁)
        (fun r a r' hr hp hst =>
          ⟨step_inv hr.1 hst, hr.2.move hr.1 hp.2 (step_signalMove hr.1 hp.2 hp.1 hst)⟩)
        ⟨hi', signalled_call hi hpc⟩ hrun hm
      refine ⟨fun t ht => ?_, hend.2.done hret⟩
      by_cases hr : Released s t
      · exact ⟨t, ht, hend.2.released hr ht⟩
      · obtain ⟨v, hv, hv'⟩ := hend.2.done hret t hr
        exact ⟨v, inWait_of_not_released hv, hv'⟩
    · cases hcall

def fewSignals (s : State) : Act → Bool
  | .go t =>
    match s.pc t with
    | .futexWait _ => s.since t < 2 ^ 32
    | _ => true
  | _ => true

theorem fewSignals_sound (s : State) (a : Act) (h : fewSignals s a = true) : FewSignals s a := by
  rintro t q rfl hpc
  simpa [fewSignals, hpc] using h

/-- Thread 0 is blocked, thread 2 is on its way to the futex, and thread 1 has the lock. -/
def twoWaiters : List Act :=
  [.lock 0, .wait 0, .go 0, .go 0, .go 0, .go 0, .go 0,
    .lock 2, .wait 2, .go 2, .go 2, .go 2, .go 2, .lock 1]

/-- Thread 2 comes to the futex between the two steps of the signal. -/
def signalRun : List Act := [.go 1, .go 1, .go 2, .wake 1 0]

theorem condvar_loses_no_signal_two : ∃ s s' s₁, Lts.Reach step FewSignals start s ∧
    s.pc 0 = .blocked ∧ s.pc 2 = .futexWait 0 ∧ step s (.signal 1) = some s' ∧
    Lts.run step s' signalRun = some s₁ ∧ s₁.pc 0 = .relock ∧ s₁.pc 2 = .relock ∧
    ∃ v, ¬ Released s v ∧ Released s₁ v := by
  obtain ⟨s, hs⟩ : ∃ s, Lts.drive step fewSignals start twoWaiters = some s :=
    Option.isSome_iff_exists.mp (by decide +kernel)
  have hobs : (Lts.drive step fewSignals start twoWaiters).map
      (fun s => (s.pc 0, s.pc 2, s.pc 1)) = some (.blocked, .futexWait 0, .held) := by
    decide +kernel
  have hrun : ((Lts.drive step fewSignals start twoWaiters).bind (fun s => step s (.signal 1))).bind
      (fun s' => (Lts.drive step (fun s a => fewSignals s a && (s.pc 1).signalling) s'
        signalRun).map (fun s₁ => (s₁.pc 1, s₁.pc 0, s₁.pc 2))) =
      some (.held, .relock, .relock) := by decide +kernel
  rw [hs, Option.map_some, Option.some.injEq, Prod.mk.injEq, Prod.mk.injEq] at hobs
  obtain ⟨h0, h2, -⟩ := hobs
  rw [hs, Option.bind_some] at hrun
  obtain ⟨s', hcall, hrun⟩ := Option.bind_eq_some_iff.mp hrun
  obtain ⟨s₁, hd, hobs⟩ := Option.map_eq_some_iff.mp hrun
  simp only [Prod.mk.injEq] at hobs
  obtain ⟨hret, h0', h2'⟩ := hobs
  obtain ⟨hr, hm⟩ := Lts.run_of_drive
    (P := fun s a => FewSignals s a ∧ (s.pc 1).signalling = true)
    (fun s a h => by
      rw [Bool.and_eq_true] at h
      exact ⟨fewSignals_sound s a h.1, h.2⟩) hd
  have hreach := Lts.reach_of_drive fewSignals_sound hs
  have hblocked : ¬ Released s 0 := by
    rintro (h | ⟨q, h, -⟩) <;> rw [h0] at h <;> cases h
  obtain ⟨-, -, hsig⟩ := condvar_loses_no_signal hreach
  exact ⟨s, s', s₁, hreach, h0, h2, hcall, hr, h0', h2',
    (hsig 1 s' signalRun s₁ hcall hr hm hret).2 0 hblocked⟩

end Pgm.Condvar
