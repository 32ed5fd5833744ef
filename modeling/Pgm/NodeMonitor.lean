import Pgm.Control
import Pgm.Lib.Monitor
import Pgm.Lib.Refine

/-! The lock and the condition variable of a node, as `pgm_wait_for_tokens` and `pgm_produce` use
them, are a monitor with one condition.

* `Pc.cvCall`: the call on a node's lock or condition variable at which a thread is;
* `nodes_are_monitors`: every run is for each node a run of its monitor, and what the monitor of a
  node allows a thread at a call to do, the thread can do. -/

namespace Pgm

open Function (update)
open Lts (Matches)

def Pc.cvCall (t : Nat) : Pc → Option (Nat × Monitor.Kind)
  | .wait .lock => some (t, .enter)
  | .wait .woken => some (t, .reenter)
  | .wait .cvWait => some (t, .sleep)
  | .wait (.unlock _) => some (t, .leave)
  | .prod _ _ _ _ (.wake (c :: _)) => some (c, .enter)
  | .prod _ _ _ _ (.signal c _) => some (c, .signal)
  | .prod _ _ _ _ (.unlock c _) => some (c, .leave)
  | _ => none

/-- Where the monitor of a node sees the thread that waits for it. -/
def Pc.cvPlace : Pc → Monitor.Place
  | .wait .asleep => .asleep
  | .wait .woken => .woken
  | _ => .outside

/-- Only the thread of a node waits for it. -/
def nodeMonitor (s : State) (n : Nat) : Monitor Nat :=
  ⟨s.lock n, fun t => if t = n then (s.pc n).cvPlace else .outside⟩

def wakes (s : State) (n : Nat) : Option Nat :=
  if (s.pc n).cvPlace = .asleep then some n else none

/-- What the monitor of node `n` sees of an action. -/
def nodeEvent (n : Nat) (s : State) : Act → Option (Monitor.Event Nat)
  | .run t _ =>
    match (s.pc t).cvCall t with
    | some (m, k) => if m = n then some (k.event t (wakes s n)) else none
    | none => none
  | .spurious t => if t = n then some (.stir (fun u => u == t)) else none
  | .wait _ | .complete _ _ | .terminate _ _ => none

def callEffect (n : Nat) : Monitor.Kind → Effect
  | .enter | .reenter => .acquire n
  | .leave | .sleep => .release n
  | .signal => .signal n

structure CallStep (s : State) (t n : Nat) (k : Monitor.Kind) (eff : Effect) (p : Pc) : Prop where
  effect : eff = callEffect n k
  free : k = .enter ∨ k = .reenter → s.lock n = none
  own : k = .sleep ∨ k = .reenter → t = n
  holds : k = .leave ∨ k = .sleep ∨ k = .signal → (s.pc t).holds t = some n
  before : (s.pc t).cvPlace = if k = .reenter then .woken else .outside
  after : p.cvPlace = if k = .sleep then .asleep else .outside

/-- Everything about the step of a thread that is not. -/
structure PlainStep (g : Graph) (s : State) (t : Nat) (eff : Effect) (p : Pc) : Prop where
  lock : (s.apply g t eff).lock = s.lock
  pc : (s.apply g t eff).pc = s.pc
  before : (s.pc t).cvPlace = .outside
  after : p.cvPlace = .outside

section

variable {junk : Junk} {g : Graph} {s s' : State} {a : Act} {eff : Effect} {p : Pc} {t n m : Nat}
  {k : Monitor.Kind} {ans : Answer}

theorem WaitMove.call {w : WaitPc} (hpc : s.pc t = .wait w) (hm : WaitMove g s t ans w eff p)
    (hc : (s.pc t).cvCall t = some (n, k)) : CallStep s t n k eff p := by
  rw [hpc] at hc
  cases hm with
  | lock h | relock h =>
    cases hc
    exact ⟨rfl, fun _ => h, fun _ => rfl, by simp, by rw [hpc]; rfl, rfl⟩
  | cvWait | unlock st =>
    cases hc
    exact ⟨rfl, by simp, fun _ => rfl, fun _ => by rw [hpc]; rfl, by rw [hpc]; rfl, rfl⟩
  | _ => cases hc

theorem ProdMove.call {cmd : Command} {b err : Bool} {q : ProdPc}
    (hpc : s.pc t = .prod m cmd b err q) (hm : ProdMove g s m cmd b err ans q eff p)
    (hc : (s.pc t).cvCall t = some (n, k)) : CallStep s t n k eff p := by
  rw [hpc] at hc
  cases hm with
  | lock c cs h | lockTerm c cs h =>
    cases hc
    exact ⟨rfl, fun _ => h, by simp, by simp, by rw [hpc]; rfl, rfl⟩
  | signal c cs | unlock c cs =>
    cases hc
    exact ⟨rfl, by simp, by simp, fun _ => by rw [hpc]; rfl, by rw [hpc]; rfl, rfl⟩
  | _ => cases hc

theorem Move.call (hm : Move g s (.run t ans) eff p) (hc : (s.pc t).cvCall t = some (n, k)) :
    CallStep s t n k eff p := by
  cases hm with
  | wait t ans w eff p hpc hm => exact hm.call hpc hc
  | prod t m ans cmd b err q eff p hpc hm => exact hm.call hpc hc

theorem WaitMove.noCall {w : WaitPc} (hpc : s.pc t = .wait w) (hm : WaitMove g s t ans w eff p)
    (hc : (s.pc t).cvCall t = none) : PlainStep g s t eff p := by
  have hbefore : w ≠ .asleep → w ≠ .woken → (s.pc t).cvPlace = .outside := by
    intro hasleep hwoken
    rw [hpc]
    cases w <;> first | rfl | exact absurd rfl hasleep | exact absurd rfl hwoken
  rw [hpc] at hc
  cases hm with
  | lock | relock | cvWait | unlock => cases hc
  | allReady l | someReady l | noTerm l | allTerm l | notAllTerm l =>
    exact ⟨rfl, rfl, hbefore (by simp) (by simp), by cases l <;> rfl⟩
  | _ => exact ⟨rfl, rfl, hbefore (by simp) (by simp), rfl⟩

theorem ProdMove.noCall {cmd : Command} {b err : Bool} {q : ProdPc}
    (hpc : s.pc t = .prod m cmd b err q) (hm : ProdMove g s m cmd b err ans q eff p)
    (hc : (s.pc t).cvCall t = none) : PlainStep g s t eff p := by
  have hbefore : (s.pc t).cvPlace = .outside := by rw [hpc]; rfl
  rw [hpc] at hc
  cases hm with
  | lock | lockTerm | signal | unlock => cases hc
  | _ => exact ⟨rfl, rfl, hbefore, rfl⟩

theorem Move.noCall (hm : Move g s (.run t ans) eff p) (hc : (s.pc t).cvCall t = none) :
    PlainStep g s t eff p := by
  cases hm with
  | wait t ans w eff p hpc hm => exact hm.noCall hpc hc
  | prod t m ans cmd b err q eff p hpc hm => exact hm.noCall hpc hc

/-! ## The monitor after a step -/

theorem nodeMonitor_same (hlock : s'.lock n = s.lock n)
    (hplace : (s'.pc n).cvPlace = (s.pc n).cvPlace) : nodeMonitor s' n = nodeMonitor s n := by
  unfold nodeMonitor
  rw [hlock, hplace]

theorem PlainStep.same (h : PlainStep g s t eff p) :
    nodeMonitor ((s.apply g t eff).setPc t p) n = nodeMonitor s n := by
  refine nodeMonitor_same (congrFun h.lock n) ?_
  by_cases hn : n = t
  · subst hn
    rw [setPc_pc_self, h.after, h.before]
  · rw [setPc_pc_of_ne hn, h.pc]

theorem CallStep.other (h : CallStep s t m k eff p) (hn : m ≠ n) :
    nodeMonitor ((s.apply g t eff).setPc t p) n = nodeMonitor s n := by
  have hlock : (s.apply g t eff).lock n = s.lock n := by
    rw [h.effect]
    cases k <;> simp [callEffect, State.apply, Ne.symm hn]
  have hpc : (s.apply g t eff).pc n = s.pc n := by
    rw [h.effect]
    cases k <;> simp [callEffect, State.apply, Ne.symm hn]
  refine nodeMonitor_same hlock ?_
  by_cases ht : n = t
  · subst ht
    -- the thread of a node sleeps and wakes up for its own node only
    have hsleep : ¬ (k = .sleep ∨ k = .reenter) := fun hk => hn (h.own hk).symm
    push Not at hsleep
    rw [setPc_pc_self, h.after, h.before, if_neg hsleep.1, if_neg hsleep.2]
  · rw [setPc_pc_of_ne ht, hpc]

theorem cvPlace_wakeUp (p : Pc) :
    (wakeUp p).cvPlace = if p.cvPlace = .asleep then .woken else p.cvPlace := by
  cases p with
  | wait w => cases w <;> rfl
  | _ => rfl

/-- The monitor is told by the lock of its node and the place of the node's thread. -/
theorem nodeMonitor_eq {l : Option Nat} {f : Nat → Monitor.Place} (hlock : s.lock n = l)
    (hplace : (s.pc n).cvPlace = f n) (hother : ∀ u, u ≠ n → f u = .outside) :
    nodeMonitor s n = ⟨l, f⟩ := by
  unfold nodeMonitor
  rw [hlock]
  congr 1
  funext u
  split_ifs with hu
  · rw [hu, hplace]
  · exact (hother u hu).symm

theorem nodeMonitor_place_of_ne (h : t ≠ n) : (nodeMonitor s n).place t = .outside := if_neg h

theorem nodeMonitor_place_self : (nodeMonitor s n).place n = (s.pc n).cvPlace := if_pos rfl

/-- The thread takes the lock or gives it back, and the monitor sees it outside before and after. -/
theorem nodeMonitor_lock {l : Option Nat} (hlock : (s.apply g t eff).lock n = l)
    (hpc : (s.apply g t eff).pc = s.pc) (hp : p.cvPlace = (s.pc t).cvPlace) :
    nodeMonitor ((s.apply g t eff).setPc t p) n = { nodeMonitor s n with owner := l } := by
  refine nodeMonitor_eq hlock ?_ (fun u hu => nodeMonitor_place_of_ne hu)
  rw [nodeMonitor_place_self]
  by_cases hn : n = t
  · subst hn
    rw [setPc_pc_self, hp]
  · rw [setPc_pc_of_ne hn, hpc]

/-- The thread of the node takes its lock or gives it back, and goes to another place. -/
theorem nodeMonitor_own {l : Option Nat} (hlock : (s.apply g n eff).lock n = l) :
    nodeMonitor ((s.apply g n eff).setPc n p) n =
      ⟨l, update (nodeMonitor s n).place n p.cvPlace⟩ := by
  refine nodeMonitor_eq hlock ?_ ?_
  · rw [setPc_pc_self, Function.update_self]
  · intro u hu
    rw [Function.update_of_ne hu]
    exact nodeMonitor_place_of_ne hu

/-- A signal wakes the thread of the node if it is asleep, and does nothing else. -/
theorem nodeMonitor_signal (hp : p.cvPlace = .outside) (hbefore : (s.pc t).cvPlace = .outside) :
    nodeMonitor ((s.apply g t (.signal n)).setPc t p) n =
      if (s.pc n).cvPlace = .asleep then
        { nodeMonitor s n with place := update (nodeMonitor s n).place n .woken }
      else nodeMonitor s n := by
  have hplace : (((s.apply g t (.signal n)).setPc t p).pc n).cvPlace =
      if (s.pc n).cvPlace = .asleep then .woken else (s.pc n).cvPlace := by
    by_cases hn : n = t
    · subst hn
      rw [setPc_pc_self, hp, hbefore]
      rfl
    · rw [setPc_pc_of_ne hn, ← cvPlace_wakeUp]
      simp [State.apply]
  split_ifs at hplace ⊢ with hasleep
  · refine nodeMonitor_eq rfl ?_ ?_
    · rw [hplace, Function.update_self]
    · intro u hu
      rw [Function.update_of_ne hu]
      exact nodeMonitor_place_of_ne hu
  · exact nodeMonitor_same rfl hplace

theorem CallStep.matches (hi : LockInv s) (h : CallStep s t n k eff p) :
    Monitor.Step (nodeMonitor s n) (k.event t (wakes s n))
      (nodeMonitor ((s.apply g t eff).setPc t p) n) := by
  obtain ⟨rfl, hfree, hown, hholds, hbefore, hafter⟩ := h
  cases k with
  | enter =>
    have hlock : (s.apply g t (callEffect n .enter)).lock n = some t := Function.update_self _ _ _
    rw [nodeMonitor_lock hlock rfl (hafter.trans hbefore.symm)]
    refine .enter t (hfree (Or.inl rfl)) ?_
    by_cases htn : t = n
    · rw [← htn, nodeMonitor_place_self, hbefore]
      rfl
    · exact nodeMonitor_place_of_ne htn
  | leave =>
    have hlock : (s.apply g t (callEffect n .leave)).lock n = none := Function.update_self _ _ _
    rw [nodeMonitor_lock hlock rfl (hafter.trans hbefore.symm)]
    exact .leave t (hi t n (hholds (Or.inl rfl)))
  | sleep =>
    obtain rfl : t = n := hown (Or.inl rfl)
    have hlock : (s.apply g t (callEffect t .sleep)).lock t = none := Function.update_self _ _ _
    rw [nodeMonitor_own hlock, hafter]
    exact .sleep t (hi t t (hholds (Or.inr (Or.inl rfl))))
  | reenter =>
    obtain rfl : t = n := hown (Or.inr rfl)
    have hlock : (s.apply g t (callEffect t .reenter)).lock t = some t :=
      Function.update_self _ _ _
    rw [nodeMonitor_own hlock, hafter]
    refine .reenter t (hfree (Or.inr rfl)) ?_
    rw [nodeMonitor_place_self, hbefore]
    rfl
  | signal =>
    have howner : (nodeMonitor s n).owner = some t := hi t n (hholds (Or.inr (Or.inr rfl)))
    rw [callEffect, nodeMonitor_signal hafter hbefore]
    unfold wakes
    split_ifs with hasleep
    · exact .wake t n howner (nodeMonitor_place_self.trans hasleep)
    · refine .nobody t howner ?_
      intro u
      by_cases hu : u = n
      · rw [hu, nodeMonitor_place_self]
        exact hasleep
      · rw [nodeMonitor_place_of_ne hu]
        simp

theorem nodeMonitor_spurious (hpc : s.pc n = .wait .asleep) :
    nodeMonitor (s.setPc n (.wait .woken)) n =
      { nodeMonitor s n with
        place := Monitor.stirred (fun u => u == n) (nodeMonitor s n).place } := by
  refine nodeMonitor_eq rfl ?_ ?_
  · rw [setPc_pc_self]
    simp [Monitor.stirred, nodeMonitor_place_self, hpc, Pc.cvPlace]
  · intro u hu
    simp [Monitor.stirred, nodeMonitor_place_of_ne hu]

theorem nodeEvent_run (hc : (s.pc t).cvCall t = some (m, k)) : nodeEvent n s (.run t ans) =
    if m = n then some (k.event t (wakes s n)) else none := by
  simp only [nodeEvent, hc]

/-- **One step.** -/
theorem step_nodeMonitor (hi : LockInv s) (h : step g s a = some s') (n : Nat) :
    Matches Monitor.Step (nodeMonitor s n) (nodeMonitor s' n) (nodeEvent n s a) := by
  obtain ⟨eff, p, hm, rfl⟩ := step_move h
  cases a with
  | run t ans =>
    cases hc : (s.pc t).cvCall t with
    | none =>
      simp only [nodeEvent, hc]
      exact (hm.noCall hc).same
    | some c =>
      obtain ⟨m, k⟩ := c
      rw [nodeEvent_run hc]
      by_cases hn : m = n
      · subst hn
        rw [if_pos rfl]
        exact (hm.call hc).matches hi
      · rw [if_neg hn]
        exact (hm.call hc).other hn
  | spurious t =>
    cases hm with
    | spurious _ hpc =>
      simp only [nodeEvent, Act.thread]
      by_cases hn : t = n
      · subst hn
        rw [if_pos rfl]
        exact nodeMonitor_spurious hpc ▸ .stir _
      · rw [if_neg hn]
        exact nodeMonitor_same rfl (by rw [setPc_pc_of_ne (Ne.symm hn)]; rfl)
  | wait m =>
    cases hm with
    | callWait _ last hpc => exact PlainStep.same ⟨rfl, rfl, by rw [Act.thread, hpc]; rfl, rfl⟩
  | complete t m =>
    cases hm with
    | callComplete _ _ last hpc =>
      exact PlainStep.same ⟨rfl, rfl, by rw [Act.thread, hpc]; rfl, rfl⟩
  | terminate t m =>
    cases hm with
    | callTerminate _ _ last hpc =>
      exact PlainStep.same ⟨rfl, rfl, by rw [Act.thread, hpc]; rfl, rfl⟩

/-! ## What the monitor allows -/

/-- A thread at a call makes a step when it finds the lock that it needs free. -/
theorem exists_step_of_call (hc : (s.pc t).cvCall t = some (n, k))
    (hfree : k = .enter ∨ k = .reenter → s.lock n = none) :
    ∃ s', step g s (.run t .go) = some s' := by
  have hstep : (threadStep g s t .go).isSome = true := by
    unfold threadStep
    cases hpc : s.pc t with
    | idle last =>
      rw [hpc] at hc
      cases hc
    | wait w =>
      rw [hpc] at hc
      cases w with
      | lock | woken =>
        cases hc
        simp [waitStep, hfree]
      | cvWait | unlock => rfl
      | _ => cases hc
    | prod m cmd b err q =>
      rw [hpc] at hc
      cases q with
      | wake tw =>
        cases tw with
        | nil => cases hc
        | cons c cs =>
          cases hc
          simp [prodStep, hfree]
      | signal | unlock => rfl
      | _ => cases hc
  obtain ⟨x, hx⟩ := Option.isSome_iff_exists.mp hstep
  exact ⟨(s.apply g t x.1).setPc t x.2, by simp only [step, actStep, hx]; rfl⟩

theorem signal_wakes {w : Option Nat} {m : Monitor Nat}
    (h : Monitor.Step (nodeMonitor s n) (.signal t w) m) : w = wakes s n := by
  unfold wakes
  cases h with
  | wake _ u howner hu =>
    have hun : u = n := by
      by_contra hne
      rw [nodeMonitor_place_of_ne hne] at hu
      cases hu
    subst hun
    rw [nodeMonitor_place_self] at hu
    rw [if_pos hu]
  | nobody _ howner hno =>
    have hn := hno n
    rw [nodeMonitor_place_self] at hn
    rw [if_neg hn]

theorem step_of_allowed (hi : LockInv s) (hc : (s.pc t).cvCall t = some (n, k))
    {e : Monitor.Event Nat} (he : e.isBy k t = true) {m : Monitor Nat}
    (h : Monitor.Step (nodeMonitor s n) e m) :
    ∃ s', step g s (.run t .go) = some s' ∧ nodeMonitor s' n = m := by
  have hevent : e = k.event t (wakes s n) := by
    cases e with
    | signal u w =>
      simp only [Monitor.Event.isBy, Bool.and_eq_true, beq_iff_eq] at he
      obtain ⟨rfl, rfl⟩ := he
      rw [signal_wakes h]
      rfl
    | stir w => cases he
    | enter u | leave u | sleep u | reenter u =>
      simp only [Monitor.Event.isBy, Bool.and_eq_true, beq_iff_eq] at he
      obtain ⟨rfl, rfl⟩ := he
      rfl
  have hfree : k = .enter ∨ k = .reenter → s.lock n = none := by
    rintro (rfl | rfl) <;> subst hevent <;> cases h <;> assumption
  obtain ⟨s', hs⟩ := exists_step_of_call (g := g) hc hfree
  refine ⟨s', hs, ?_⟩
  have hmatch := step_nodeMonitor hi hs n
  rw [nodeEvent_run hc, if_pos rfl, ← hevent] at hmatch
  exact Monitor.Step.unique hmatch h

/-- When the monitor lets threads wake up by themselves, the thread of the node does, or nothing
happens. -/
theorem step_of_stir {w : Nat → Bool} {m : Monitor Nat}
    (h : Monitor.Step (nodeMonitor s n) (.stir w) m) :
    m = nodeMonitor s n ∨ ∃ s', step g s (.spurious n) = some s' ∧ nodeMonitor s' n = m := by
  cases h
  by_cases hasleep : (s.pc n).cvPlace = .asleep ∧ w n = true
  · right
    have hpc : s.pc n = .wait .asleep := by
      cases hp : s.pc n with
      | wait v =>
        rw [hp] at hasleep
        cases v <;> first | rfl | cases hasleep.1
      | _ =>
        rw [hp] at hasleep
        cases hasleep.1
    refine ⟨s.setPc n (.wait .woken), by simp [step, actStep, hpc, State.apply, Act.thread], ?_⟩
    refine nodeMonitor_eq rfl ?_ ?_
    · rw [setPc_pc_self, Monitor.stirred, nodeMonitor_place_self, if_pos hasleep]
      rfl
    · intro u hu
      simp [Monitor.stirred, nodeMonitor_place_of_ne hu]
  · left
    symm
    refine nodeMonitor_eq rfl ?_ ?_
    · rw [Monitor.stirred, nodeMonitor_place_self, if_neg hasleep]
    · intro u hu
      simp [Monitor.stirred, nodeMonitor_place_of_ne hu]

/-- **Each node is a monitor.** Whatever the threads do, what happens to the lock and the condition
variable of a node is a run of the monitor. Conversely, at the end of every run a thread that is at
a call on them can take each step that the monitor allows for the call, and the thread of the node
can wake up whenever the monitor lets it. -/
theorem nodes_are_monitors {as : List Act} (hr : Lts.run (step g) (initState junk g) as = some s)
    (n : Nat) :
    Lts.Path Monitor.Step Monitor.start (Lts.trace (step g) (nodeEvent n) (initState junk g) as)
        (nodeMonitor s n) ∧
      (∀ t k e m, (s.pc t).cvCall t = some (n, k) → e.isBy k t = true →
        Monitor.Step (nodeMonitor s n) e m →
        ∃ s', step g s (.run t .go) = some s' ∧ nodeMonitor s' n = m) ∧
      ∀ w m, Monitor.Step (nodeMonitor s n) (.stir w) m →
        m = nodeMonitor s n ∨ ∃ s', step g s (.spurious n) = some s' ∧ nodeMonitor s' n = m := by
  have hmeets : Lts.Meets (step g) (fun _ _ => True) (initState junk g) as :=
    Lts.meets_of_forall (fun _ _ => trivial)
  have hlock : LockInv s :=
    Lts.run_inv (fun _ _ _ hi _ hs => step_lockInv hi hs) (initState_lockInv junk g) hr hmeets
  refine ⟨?_, fun t k e m hc he h => step_of_allowed hlock hc he h, fun w m h => step_of_stir h⟩
  have hstart : nodeMonitor (initState junk g) n = Monitor.start :=
    nodeMonitor_eq rfl rfl (fun _ _ => rfl)
  rw [← hstart]
  apply Lts.Path.of_run (I := LockInv) (P := fun _ _ => True) (fun s => nodeMonitor s n)
  · intro s a t hi _ hs
    exact ⟨step_lockInv hi hs, step_nodeMonitor hi hs n⟩
  · exact initState_lockInv junk g
  · exact hr
  · exact hmeets

end

/-- The consumer of a line has found no token. -/
def lineAsleep : List Act := .wait 1 :: runs 1 9

/-- Its monitor sees it asleep, and it can wake up. -/
theorem line_monitored : ∃ s, Lts.run (step .line) (initState zeroed .line) lineAsleep = some s ∧
    (nodeMonitor s 1).place 1 = .asleep ∧
    Lts.Path Monitor.Step Monitor.start
      (Lts.trace (step .line) (nodeEvent 1) (initState zeroed .line) lineAsleep) (nodeMonitor s 1) ∧
    ∃ s', step .line s (.spurious 1) = some s' ∧ (nodeMonitor s' 1).place 1 = .woken := by
  have hd : (Lts.run (step .line) (initState zeroed .line) lineAsleep).map
      (fun s => (nodeMonitor s 1).place 1) = some .asleep := by decide +kernel
  obtain ⟨s, hr, hplace⟩ := Option.map_eq_some_iff.mp hd
  obtain ⟨hpath, -, hstir⟩ := nodes_are_monitors hr 1
  refine ⟨s, hr, hplace, hpath, ?_⟩
  have hwoken : Monitor.stirred (fun _ => true) (nodeMonitor s 1).place 1 = .woken :=
    if_pos ⟨hplace, rfl⟩
  rcases hstir _ _ (.stir (fun _ => true)) with heq | ⟨s', hs, heq⟩
  · have hsame := congrFun (congrArg Monitor.place heq) 1
    rw [hplace] at hsame
    cases hwoken.symm.trans hsame
  · exact ⟨s', hs, (congrFun (congrArg Monitor.place heq) 1).trans hwoken⟩

end Pgm
