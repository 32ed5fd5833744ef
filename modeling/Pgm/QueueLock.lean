import Mathlib.Data.List.Nodup
import Mathlib.Logic.Function.Basic
import Pgm.Lib.FairLock

/-!
# The queue lock

`step` interleaves the memory accesses of any number of threads that repeat `__ql_lock`, a
critical section and `__ql_unlock` on one `queuelock_t`. The queue is nowhere stored: `Inv`
rebuilds it from `tail`, from the `next` fields that are already written, and from the
threads that have swapped `tail` and not yet written their predecessor's `next`.

* `step_inv`: every access keeps the invariant, for a queue that it extends or shortens;
* `queue_lock_correct`: the lock serves in the order of the successful compare-and-swaps,
  one thread at a time, and no thread waits without somebody who will release it.
-/

namespace Pgm.QueueLock

open Function (update update_of_ne)
open FairLock (arrivals entries)

/-- The next memory access of a thread. A `queuenode_t` is named by the thread that owns it;
the null pointer is `none`. -/
inductive Pc where
  /-- Outside of lock and unlock. -/
  | idle
  /-- `self->next = NULL`. -/
  | clearNext
  /-- `self->blocked = 1`. -/
  | setBlocked
  /-- `prev = q->tail`. -/
  | readTail
  /-- `__sync_bool_compare_and_swap(&q->tail, prev, self)`. -/
  | swap (prev : Option Nat)
  /-- `prev->next = self`. -/
  | link (prev : Nat)
  /-- `while(self->blocked)`. -/
  | spin
  /-- Between `__ql_lock` and `__ql_unlock`. -/
  | crit
  /-- `!self->next`. -/
  | testNext
  /-- `__sync_bool_compare_and_swap(&q->tail, self, 0)`. -/
  | release
  /-- `while(!self->next)`. -/
  | awaitNext
  /-- `if(self->next)`. -/
  | haveNext
  /-- The read of `self->next` in `self->next->blocked = 0`. -/
  | loadNext
  /-- The write of `self->next->blocked = 0`. -/
  | wake (u : Nat)
  /-- A write through the null pointer. -/
  | crash
  deriving DecidableEq

/-- The lock, the nodes and the threads. The log holds the successful swaps of `tail` by
`__ql_lock`, and the ends of `__ql_lock` and beginnings of `__ql_unlock`. -/
structure State where
  tail : Option Nat
  next : Nat → Option Nat
  blocked : Nat → Bool
  pc : Nat → Pc
  log : List (FairLock.Op Nat)

def State.goto (s : State) (t : Nat) (p : Pc) : State := { s with pc := update s.pc t p }

def State.setNext (s : State) (n : Nat) (v : Option Nat) : State :=
  { s with next := update s.next n v }

def State.setBlocked (s : State) (n : Nat) (b : Bool) : State :=
  { s with blocked := update s.blocked n b }

def State.record (s : State) (x : FairLock.Op Nat) : State := { s with log := s.log ++ [x] }

/-- The next access of thread `t`. The fences of the source have no effect here, as all
accesses are interleaved. -/
def step (s : State) (t : Nat) : Option State :=
  match s.pc t with
  | .idle => some (s.goto t .clearNext)
  | .clearNext => some ((s.setNext t none).goto t .setBlocked)
  | .setBlocked => some ((s.setBlocked t true).goto t .readTail)
  | .readTail => some (s.goto t (.swap s.tail))
  | .swap prev =>
    if s.tail = prev then
      let s' := { s with tail := some t }.record (.arrive t)
      match prev with
      | none => some ((s'.goto t .crit).record (.enter t))
      | some p => some (s'.goto t (.link p))
    else some (s.goto t .readTail)
  | .link p => some ((s.setNext p (some t)).goto t .spin)
  | .spin => if s.blocked t then some s else some ((s.goto t .crit).record (.enter t))
  | .crit => some ((s.goto t .testNext).record (.leave t))
  | .testNext => some (s.goto t (if s.next t = none then .release else .haveNext))
  | .release =>
    if s.tail = some t then some ({ s with tail := none }.goto t .haveNext)
    else some (s.goto t .awaitNext)
  | .awaitNext => if s.next t = none then some s else some (s.goto t .haveNext)
  | .haveNext => some (s.goto t (if s.next t = none then .idle else .loadNext))
  | .loadNext =>
    match s.next t with
    | some u => some (s.goto t (.wake u))
    | none => some (s.goto t .crash)
  | .wake u => some ((s.setBlocked u false).goto t .idle)
  | .crash => none

/-- After `ql_init`, with nodes of any content. -/
def start (next : Nat → Option Nat) (blocked : Nat → Bool) : State where
  tail := none
  next := next
  blocked := blocked
  pc := fun _ => .idle
  log := []

/-! ## The queue behind the accesses -/

/-- What a thread outside of the queue knows, from its `next` and `blocked`. -/
def Outside (next : Option Nat) (blocked : Bool) : Pc → Prop
  | .idle | .clearNext => True
  | .setBlocked => next = none
  | .readTail | .swap _ => next = none ∧ blocked = true
  -- the one that has set `tail` back to null: nobody stands behind it
  | .haveNext => next = none
  | _ => False

/-- What the first of the queue knows: it has the lock, or has been given it. -/
def Leads (next : Option Nat) (blocked : Bool) : Pc → Prop
  | .spin => blocked = false
  | .crit | .testNext | .release | .awaitNext => True
  | .haveNext | .loadNext => next ≠ none
  | .wake u => next = some u
  | _ => False

/-- The part `q` of the queue that stands behind `p`: each thread waits, and its
predecessor's `next` is null until the thread has written it. -/
def Behind (s : State) : Nat → List Nat → Prop
  | p, [] => s.next p = none
  | p, t :: q =>
    (s.pc t = .link p ∧ s.next p = none ∨ s.pc t = .spin ∧ s.next p = some t) ∧
      s.blocked t = true ∧ Behind s t q

def Line (s : State) : List Nat → Prop
  | [] => True
  | h :: q => Leads (s.next h) (s.blocked h) (s.pc h) ∧ Behind s h q

/-- The lock as its users see it, when `q` is the queue. -/
def State.view (s : State) : List Nat → FairLock.State Nat
  | [] => FairLock.empty
  | h :: q =>
    match s.pc h with
    | .spin => ⟨none, h :: q⟩
    | .crit => ⟨some h, q⟩
    | _ => ⟨none, q⟩

/-- The invariant: `q` are the threads that have swapped `tail` and not passed the lock on,
in the order of their swaps. -/
structure Inv (q : List Nat) (s : State) : Prop where
  nodup : q.Nodup
  tail : s.tail = q.getLast?
  line : Line s q
  outside : ∀ t, t ∉ q → Outside (s.next t) (s.blocked t) (s.pc t)
  suffix : q <:+ arrivals s.log
  log : Lts.run FairLock.step FairLock.empty s.log = some (s.view q)

section

variable {s s' : State} {t h l : Nat} {q : List Nat}

/-! ## Frames -/

theorem Behind.congr (hb : Behind s l q) (hn : ∀ x ∈ l :: q, s'.next x = s.next x)
    (hp : ∀ x ∈ q, s'.pc x = s.pc x ∧ s'.blocked x = s.blocked x) : Behind s' l q := by
  induction q generalizing l with
  | nil => exact (hn l List.mem_cons_self).trans hb
  | cons t q ih =>
    obtain ⟨hlink, hbl, hrest⟩ := hb
    obtain ⟨hpc, hbt⟩ := hp t List.mem_cons_self
    refine ⟨?_, hbt.trans hbl, ih hrest ?_ ?_⟩
    · rw [hpc, hn l List.mem_cons_self]
      exact hlink
    · exact fun x hx => hn x (List.mem_cons_of_mem l hx)
    · exact fun x hx => hp x (List.mem_cons_of_mem t hx)

theorem view_congr (hp : ∀ x ∈ q, s'.pc x = s.pc x) : s'.view q = s.view q := by
  cases q with
  | nil => rfl
  | cons h q => simp only [State.view, hp h List.mem_cons_self]

theorem Line.congr (hl : Line s q)
    (hs : ∀ x ∈ q, s'.next x = s.next x ∧ s'.blocked x = s.blocked x ∧ s'.pc x = s.pc x) :
    Line s' q := by
  cases q with
  | nil => trivial
  | cons h q =>
    obtain ⟨hlead, hb⟩ := hl
    obtain ⟨hn, hbl, hpc⟩ := hs h List.mem_cons_self
    refine ⟨by rw [hn, hbl, hpc]; exact hlead, hb.congr (fun x hx => (hs x hx).1) ?_⟩
    intro x hx
    have hx' := hs x (List.mem_cons_of_mem h hx)
    exact ⟨hx'.2.2, hx'.2.1⟩

theorem Behind.waits (hb : Behind s l q) (ht : t ∈ q) :
    (s.pc t = .spin ∨ ∃ p ∈ l :: q, s.pc t = .link p) ∧ s.blocked t = true := by
  induction q generalizing l with
  | nil => cases ht
  | cons a q ih =>
    obtain ⟨hlink, hbl, hrest⟩ := hb
    rcases List.mem_cons.mp ht with rfl | ht
    · refine ⟨?_, hbl⟩
      rcases hlink with ⟨hpc, -⟩ | ⟨hpc, -⟩
      · exact Or.inr ⟨l, List.mem_cons_self, hpc⟩
      · exact Or.inl hpc
    · obtain ⟨hpc, hbt⟩ := ih hrest ht
      refine ⟨hpc.imp_right ?_, hbt⟩
      rintro ⟨p, hp, hpc⟩
      exact ⟨p, List.mem_cons_of_mem l hp, hpc⟩

/-- A thread at any place but the two where threads wait in the queue is its first. -/
theorem Inv.eq_head (hi : Inv (h :: q) s) (ht : t ∈ h :: q) (hs : s.pc t ≠ .spin)
    (hl : ∀ p, s.pc t ≠ .link p) : t = h := by
  rcases List.mem_cons.mp ht with rfl | ht
  · rfl
  · rcases (hi.line.2.waits ht).1 with hpc | ⟨p, -, hpc⟩
    · exact absurd hpc hs
    · exact absurd hpc (hl p)

/-! ## Steps outside of the queue -/

/-- A thread that is not in the queue does something to its own node. -/
theorem Inv.outside_step (hi : Inv q s) (ht : t ∉ q) (htail : s'.tail = s.tail)
    (hlog : s'.log = s.log)
    (hs : ∀ x, x ≠ t → s'.next x = s.next x ∧ s'.blocked x = s.blocked x ∧ s'.pc x = s.pc x)
    (hout : Outside (s'.next t) (s'.blocked t) (s'.pc t)) : Inv q s' where
  nodup := hi.nodup
  tail := htail.trans hi.tail
  line := hi.line.congr (fun x hx => hs x (ne_of_mem_of_not_mem hx ht))
  outside := by
    intro x hx
    by_cases he : x = t
    · subst he
      exact hout
    · obtain ⟨hn, hb, hp⟩ := hs x he
      rw [hn, hb, hp]
      exact hi.outside x hx
  suffix := by rw [hlog]; exact hi.suffix
  log := by
    rw [hlog, hi.log, view_congr (fun x hx => (hs x (ne_of_mem_of_not_mem hx ht)).2.2)]

/-- The queue grows at its end. -/
theorem Behind.snoc {p : Nat} (hb : Behind s l q) (hlast : (l :: q).getLast? = some p)
    (hpc : s.pc t = .link p) (hn : s.next t = none) (hbl : s.blocked t = true) :
    Behind s l (q ++ [t]) := by
  induction q generalizing l with
  | nil =>
    obtain rfl : l = p := by simpa using hlast
    exact ⟨Or.inl ⟨hpc, hb⟩, hbl, hn⟩
  | cons a q ih => exact ⟨hb.1, hb.2.1, ih hb.2.2 (by rwa [List.getLast?_cons_cons] at hlast)⟩

theorem view_snoc (h : Nat) (q : List Nat) :
    s.view (h :: q ++ [t]) = ⟨(s.view (h :: q)).inside, (s.view (h :: q)).line ++ [t]⟩ := by
  simp only [State.view, List.cons_append]
  split <;> rfl

theorem not_mem_view (ht : t ∉ h :: q) :
    (s.view (h :: q)).inside ≠ some t ∧ t ∉ (s.view (h :: q)).line := by
  rw [List.mem_cons, not_or] at ht
  simp only [State.view]
  split <;> simp_all [eq_comm]

theorem suffix_snoc (hs : q <:+ arrivals s.log) : q ++ [t] <:+ arrivals (s.log ++ [.arrive t]) := by
  obtain ⟨pre, hpre⟩ := hs
  refine ⟨pre, ?_⟩
  rw [FairLock.arrivals_append, ← hpre, FairLock.arrivals_arrive, List.append_assoc]

/-- A successful swap on a lock that nobody has. -/
theorem Inv.enter_free (hi : Inv [] s) (hn : s.next t = none) :
    Inv [t] ((({ s with tail := some t }.record (.arrive t)).goto t .crit).record (.enter t)) where
  nodup := List.nodup_singleton t
  tail := rfl
  line := by
    refine ⟨?_, hn⟩
    simp [State.goto, State.record, Leads]
  outside := by
    intro x hx
    have hne : x ≠ t := fun he => hx (by simp [he])
    simpa [State.goto, State.record, update_of_ne hne] using hi.outside x (by simp)
  suffix := by
    change [t] <:+ arrivals (s.log ++ [.arrive t] ++ [.enter t])
    rw [FairLock.arrivals_append, FairLock.arrivals_enter, List.append_nil]
    exact suffix_snoc hi.suffix
  log := by
    have harr := FairLock.run_snoc hi.log (FairLock.step_arrive (t := t) (by simp) (by simp))
    have hent := FairLock.run_snoc harr FairLock.step_enter
    simpa [State.view, State.goto, State.record] using hent

/-- A successful swap on a lock with a queue. -/
theorem Inv.enqueue {p : Nat} (hi : Inv (h :: q) s) (ht : t ∉ h :: q) (hp : s.tail = some p)
    (hn : s.next t = none) (hbl : s.blocked t = true) :
    Inv (h :: q ++ [t]) (({ s with tail := some t }.record (.arrive t)).goto t (.link p)) := by
  have hother : ∀ x, x ≠ t → update s.pc t (.link p) x = s.pc x := fun x hx => update_of_ne hx _ _
  have hmem : ∀ x ∈ h :: q, x ≠ t := fun x hx => ne_of_mem_of_not_mem hx ht
  refine ⟨?_, List.getLast?_concat.symm, ⟨?_, ?_⟩, ?_, suffix_snoc hi.suffix, ?_⟩
  · exact List.nodup_append'.mpr ⟨hi.nodup, List.nodup_singleton t, by simpa using ht⟩
  · have hlead := hi.line.1
    simpa [State.goto, State.record, hother h (hmem h List.mem_cons_self)] using hlead
  · refine Behind.snoc (p := p) (hi.line.2.congr (fun _ _ => rfl) ?_) ?_ ?_ hn hbl
    · exact fun x hx => ⟨hother x (hmem x (List.mem_cons_of_mem h hx)), rfl⟩
    · rw [← hi.tail, hp]
    · simp [State.goto]
  · intro x hx
    rw [List.mem_append, not_or, List.mem_singleton] at hx
    simpa [State.goto, State.record, hother x hx.2] using hi.outside x hx.1
  · obtain ⟨hin, hline⟩ := not_mem_view (s := s) ht
    have hrun := FairLock.run_snoc hi.log (FairLock.step_arrive hin hline)
    rw [view_snoc, view_congr (s := s) (fun x hx => hother x (hmem x hx))]
    exact hrun

/-! ## Steps of waiting threads -/

/-- The thread tells its predecessor about itself. -/
theorem Behind.link {p : Nat} (hb : Behind s l q) (hnd : (l :: q).Nodup) (ht : t ∈ q)
    (hpc : s.pc t = .link p) : Behind ((s.setNext p (some t)).goto t .spin) l q := by
  induction q generalizing l with
  | nil => cases ht
  | cons a q ih =>
    obtain ⟨hlink, hbl, hrest⟩ := hb
    obtain ⟨hl, hnd'⟩ := List.nodup_cons.mp hnd
    obtain ⟨ha, -⟩ := List.nodup_cons.mp hnd'
    rcases List.mem_cons.mp ht with rfl | htq
    · -- the predecessor is the one before it
      obtain ⟨rfl, -⟩ : p = l ∧ s.next l = none := by
        rcases hlink with ⟨hpc', hn⟩ | ⟨hpc', -⟩
        · exact ⟨Pc.link.inj (hpc.symm.trans hpc'), hn⟩
        · rw [hpc] at hpc'
          cases hpc'
      refine ⟨Or.inr ?_, hbl, hrest.congr ?_ ?_⟩
      · simp [State.goto, State.setNext]
      · exact fun x hx => update_of_ne (ne_of_mem_of_not_mem hx hl) _ _
      · exact fun x hx => ⟨update_of_ne (ne_of_mem_of_not_mem hx ha) _ _, rfl⟩
    · have hpl : l ≠ p := by
        rintro rfl
        rcases (hrest.waits htq).1 with hsp | ⟨p', hp', hpc'⟩
        · rw [hpc] at hsp
          cases hsp
        · rw [hpc, Pc.link.injEq] at hpc'
          exact hl (hpc' ▸ hp')
      have hat : a ≠ t := fun he => ha (he ▸ htq)
      refine ⟨?_, hbl, ih hrest hnd' htq⟩
      simpa [State.goto, State.setNext, update_of_ne hat, update_of_ne hpl] using hlink

theorem Behind.link_next {p : Nat} (hb : Behind s l q) (ht : t ∈ q) (hpc : s.pc t = .link p) :
    s.next p = none := by
  induction q generalizing l with
  | nil => cases ht
  | cons a q ih =>
    rcases List.mem_cons.mp ht with rfl | htq
    · rcases hb.1 with ⟨hpc', hn⟩ | ⟨hpc', -⟩
      · obtain rfl := Pc.link.inj (hpc.symm.trans hpc')
        exact hn
      · rw [hpc] at hpc'
        cases hpc'
    · exact ih hb.2.2 htq

theorem Inv.link {p : Nat} (hi : Inv (h :: q) s) (ht : t ∈ q) (hpc : s.pc t = .link p) :
    Inv (h :: q) ((s.setNext p (some t)).goto t .spin) := by
  have hht : h ≠ t := fun he => (List.nodup_cons.mp hi.nodup).1 (he ▸ ht)
  have hp : p ∈ h :: q := by
    rcases (hi.line.2.waits ht).1 with hsp | ⟨p', hp', hpc'⟩
    · rw [hpc] at hsp
      cases hsp
    · rw [hpc, Pc.link.injEq] at hpc'
      exact hpc' ▸ hp'
  refine ⟨hi.nodup, hi.tail, ⟨?_, hi.line.2.link hi.nodup ht hpc⟩, ?_, hi.suffix, ?_⟩
  · -- if the predecessor is the first, it has not looked at its `next` yet
    have hlead := hi.line.1
    by_cases hhp : h = p
    · subst hhp
      rw [hi.line.2.link_next ht hpc] at hlead
      simp only [State.goto, State.setNext, update_of_ne hht]
      cases hpc' : s.pc h <;> rw [hpc'] at hlead <;> simp_all [Leads]
    · simpa [State.goto, State.setNext, update_of_ne hht, update_of_ne hhp] using hlead
  · intro x hx
    have hxt : x ≠ t := fun he => hx (he ▸ List.mem_cons_of_mem h ht)
    have hxp : x ≠ p := fun he => hx (he ▸ hp)
    simpa [State.goto, State.setNext, update_of_ne hxt, update_of_ne hxp] using hi.outside x hx
  · -- the view depends on the first thread only
    have hv : ((s.setNext p (some t)).goto t .spin).view (h :: q) = s.view (h :: q) := by
      simp [State.view, State.goto, State.setNext, update_of_ne hht]
    rw [hv]
    exact hi.log

/-! ## Steps of the first thread -/

/-- The first of the queue goes on to `p` and the log grows by `ops`. -/
theorem Inv.leader (hi : Inv (h :: q) s) (p : Pc) (ops : List (FairLock.Op Nat))
    (hl : Leads (s.next h) (s.blocked h) p) (ha : arrivals ops = [])
    (hv : Lts.run FairLock.step (s.view (h :: q)) ops = some ((s.goto h p).view (h :: q))) :
    Inv (h :: q) { s.goto h p with log := s.log ++ ops } := by
  obtain ⟨hh, -⟩ := List.nodup_cons.mp hi.nodup
  refine ⟨hi.nodup, hi.tail, ⟨?_, ?_⟩, ?_, ?_, Lts.run_append _ hi.log hv⟩
  · simpa [State.goto] using hl
  · refine hi.line.2.congr (fun _ _ => rfl) (fun x hx => ⟨?_, rfl⟩)
    exact update_of_ne (ne_of_mem_of_not_mem hx hh) _ _
  · intro x hx
    have hne : x ≠ h := fun he => hx (he ▸ List.mem_cons_self)
    simpa [State.goto, update_of_ne hne] using hi.outside x hx
  · change h :: q <:+ arrivals (s.log ++ ops)
    rw [FairLock.arrivals_append, ha, List.append_nil]
    exact hi.suffix

/-- The places of `__ql_unlock` before the write to `next->blocked`. -/
def Pc.unlocking : Pc → Bool
  | .testNext | .release | .awaitNext | .haveNext | .loadNext | .wake _ => true
  | _ => false

theorem view_unlocking (hp : (s.pc h).unlocking = true) : s.view (h :: q) = ⟨none, q⟩ := by
  cases hpc : s.pc h <;> rw [hpc] at hp <;> simp_all [Pc.unlocking, State.view]

/-- The first thread goes on within `__ql_unlock`. -/
theorem Inv.unlocking (hi : Inv (h :: q) s) {p : Pc} (hs : (s.pc h).unlocking = true)
    (hp : p.unlocking = true) (hl : Leads (s.next h) (s.blocked h) p) :
    Inv (h :: q) (s.goto h p) := by
  have hp' : ((s.goto h p).pc h).unlocking = true := by simpa [State.goto] using hp
  have hstep := hi.leader p [] hl rfl (by
    rw [Lts.run_nil, view_unlocking hs, view_unlocking hp'])
  rw [List.append_nil] at hstep
  exact hstep

/-- `tail` goes back to null: the first thread was the only one. -/
theorem Inv.release (hi : Inv (h :: q) s) (hpc : s.pc h = .release) (ht : s.tail = some h) :
    Inv [] ({ s with tail := none }.goto h .haveNext) := by
  obtain ⟨hh, -⟩ := List.nodup_cons.mp hi.nodup
  obtain rfl : q = [] := by
    cases q with
    | nil => rfl
    | cons a q =>
      have hlast := hi.tail.symm.trans ht
      rw [List.getLast?_cons_cons] at hlast
      exact absurd (List.mem_of_getLast? hlast) hh
  refine ⟨List.nodup_nil, rfl, trivial, ?_, List.nil_suffix, ?_⟩
  · intro x _
    by_cases hx : x = h
    · subst hx
      simpa [State.goto, Outside, Behind] using hi.line.2
    · simpa [State.goto, update_of_ne hx] using hi.outside x (by simpa using hx)
  · have hlog := hi.log
    rw [view_unlocking (by rw [hpc]; rfl)] at hlog
    exact hlog

/-- The lock is passed on to the second thread. -/
theorem Inv.wake {u : Nat} (hi : Inv (h :: q) s) (hpc : s.pc h = .wake u) :
    ∃ q', Inv q' ((s.setBlocked u false).goto h .idle) := by
  have hnext : s.next h = some u := by
    have hlead := hi.line.1
    rwa [hpc] at hlead
  have hlog := hi.log
  rw [view_unlocking (by rw [hpc]; rfl)] at hlog
  cases q with
  | nil =>
    have hnone : s.next h = none := hi.line.2
    rw [hnext] at hnone
    cases hnone
  | cons a q =>
    obtain ⟨hlink, -, hrest⟩ := hi.line.2
    obtain ⟨hspin, rfl⟩ : s.pc a = .spin ∧ a = u := by
      rcases hlink with ⟨-, hnone⟩ | ⟨hspin, hsome⟩
      · rw [hnext] at hnone
        cases hnone
      · exact ⟨hspin, Option.some.inj (hsome.symm.trans hnext)⟩
    obtain ⟨hh, hnd⟩ := List.nodup_cons.mp hi.nodup
    obtain ⟨ha, -⟩ := List.nodup_cons.mp hnd
    have hah : a ≠ h := fun he => hh (he ▸ List.mem_cons_self)
    refine ⟨a :: q, hnd, ?_, ⟨?_, ?_⟩, ?_, ?_, ?_⟩
    · exact hi.tail.trans List.getLast?_cons_cons
    · simp [State.goto, State.setBlocked, update_of_ne hah, hspin, Leads]
    · refine hrest.congr (fun _ _ => rfl) (fun x hx => ⟨?_, ?_⟩)
      · exact update_of_ne (ne_of_mem_of_not_mem (List.mem_cons_of_mem a hx) hh) _ _
      · exact update_of_ne (ne_of_mem_of_not_mem hx ha) _ _
    · intro x hx
      have hxa : x ≠ a := fun he => hx (he ▸ List.mem_cons_self)
      by_cases hxh : x = h
      · subst hxh
        simp [State.goto, Outside]
      · simpa [State.goto, State.setBlocked, update_of_ne hxa, update_of_ne hxh] using
          hi.outside x (fun hm => hx ((List.mem_cons.mp hm).resolve_left hxh))
    · exact (List.suffix_cons h (a :: q)).trans hi.suffix
    · have hv : ((s.setBlocked a false).goto h .idle).view (a :: q) = ⟨none, a :: q⟩ := by
        simp [State.view, State.goto, State.setBlocked, update_of_ne hah, hspin]
      rw [hv]
      exact hlog

/-! ## Runs -/

/-- The thread has written to its own node at most. -/
theorem outside_goto (hi : Inv q s) (ht : t ∉ q) {p : Pc}
    (hout : Outside (s.next t) (s.blocked t) p) : Inv q (s.goto t p) :=
  hi.outside_step ht rfl rfl (fun x hx => ⟨rfl, rfl, update_of_ne hx _ _⟩)
    (by simpa [State.goto] using hout)

theorem step_outside (hi : Inv q s) (ht : t ∉ q) (hst : step s t = some s') : ∃ q', Inv q' s' := by
  have hout := hi.outside t ht
  unfold step at hst
  cases hpc : s.pc t with
  | idle =>
    simp only [hpc, Option.some.injEq] at hst
    subst hst
    exact ⟨q, outside_goto hi ht trivial⟩
  | clearNext =>
    simp only [hpc, Option.some.injEq] at hst
    subst hst
    refine ⟨q, hi.outside_step ht rfl rfl (fun x hx => ⟨?_, rfl, ?_⟩) ?_⟩
    · exact update_of_ne hx _ _
    · exact update_of_ne hx _ _
    · simp [State.goto, State.setNext, Outside]
  | setBlocked =>
    simp only [hpc, Option.some.injEq] at hst
    subst hst
    rw [hpc] at hout
    refine ⟨q, hi.outside_step ht rfl rfl (fun x hx => ⟨rfl, ?_, ?_⟩) ?_⟩
    · exact update_of_ne hx _ _
    · exact update_of_ne hx _ _
    · simpa [State.goto, State.setBlocked, Outside] using hout
  | readTail =>
    simp only [hpc, Option.some.injEq] at hst
    subst hst
    rw [hpc] at hout
    exact ⟨q, outside_goto hi ht hout⟩
  | swap prev =>
    rw [hpc] at hout
    simp only [hpc] at hst
    split at hst
    · rename_i htail
      cases prev with
      | none =>
        obtain rfl := Option.some.inj hst
        obtain rfl : q = [] := List.getLast?_eq_none_iff.mp (hi.tail.symm.trans htail)
        exact ⟨[t], hi.enter_free hout.1⟩
      | some p =>
        obtain rfl := Option.some.inj hst
        cases q with
        | nil =>
          have hnone := hi.tail.symm.trans htail
          cases hnone
        | cons h q => exact ⟨h :: q ++ [t], hi.enqueue ht htail hout.1 hout.2⟩
    · obtain rfl := Option.some.inj hst
      exact ⟨q, outside_goto hi ht hout⟩
  | haveNext =>
    rw [hpc] at hout
    simp only [hpc, Option.some.injEq, if_pos (show s.next t = none from hout)] at hst
    subst hst
    exact ⟨q, outside_goto hi ht trivial⟩
  | _ => rw [hpc] at hout; exact absurd hout id

theorem step_behind (hi : Inv (h :: q) s) (ht : t ∈ q) (hst : step s t = some s') :
    ∃ q', Inv q' s' := by
  obtain ⟨hw, hbl⟩ := hi.line.2.waits ht
  unfold step at hst
  rcases hw with hpc | ⟨p, -, hpc⟩
  · simp only [hpc, hbl, if_true, Option.some.injEq] at hst
    subst hst
    exact ⟨h :: q, hi⟩
  · simp only [hpc, Option.some.injEq] at hst
    subst hst
    exact ⟨h :: q, hi.link ht hpc⟩

theorem step_leader (hi : Inv (h :: q) s) (hst : step s h = some s') : ∃ q', Inv q' s' := by
  have hlead := hi.line.1
  unfold step at hst
  cases hpc : s.pc h with
  | spin =>
    rw [hpc] at hlead
    simp only [hpc, show s.blocked h = false from hlead, Bool.false_eq_true, if_false,
      Option.some.injEq] at hst
    subst hst
    refine ⟨h :: q, hi.leader .crit [.enter h] trivial rfl ?_⟩
    refine (Lts.run_cons_eq_some _).mpr ⟨⟨some h, q⟩, ?_, ?_⟩
    · simp [State.view, hpc]
    · simp [State.view, State.goto]
  | crit =>
    simp only [hpc, Option.some.injEq] at hst
    subst hst
    refine ⟨h :: q, hi.leader .testNext [.leave h] trivial rfl ?_⟩
    refine (Lts.run_cons_eq_some _).mpr ⟨⟨none, q⟩, ?_, ?_⟩
    · simp [State.view, hpc]
    · simp [State.view, State.goto]
  | testNext =>
    simp only [hpc, Option.some.injEq] at hst
    subst hst
    split
    · exact ⟨h :: q, hi.unlocking (by rw [hpc]; rfl) rfl trivial⟩
    · rename_i hn
      exact ⟨h :: q, hi.unlocking (by rw [hpc]; rfl) rfl hn⟩
  | release =>
    simp only [hpc] at hst
    split at hst
    · rename_i htail
      obtain rfl := Option.some.inj hst
      exact ⟨[], hi.release hpc htail⟩
    · obtain rfl := Option.some.inj hst
      exact ⟨h :: q, hi.unlocking (by rw [hpc]; rfl) rfl trivial⟩
  | awaitNext =>
    simp only [hpc] at hst
    split at hst
    · obtain rfl := Option.some.inj hst
      exact ⟨h :: q, hi⟩
    · rename_i hn
      obtain rfl := Option.some.inj hst
      exact ⟨h :: q, hi.unlocking (by rw [hpc]; rfl) rfl hn⟩
  | haveNext =>
    rw [hpc] at hlead
    simp only [hpc, Option.some.injEq, if_neg (show s.next h ≠ none from hlead)] at hst
    subst hst
    exact ⟨h :: q, hi.unlocking (by rw [hpc]; rfl) rfl hlead⟩
  | loadNext =>
    rw [hpc] at hlead
    obtain ⟨u, hu⟩ := Option.ne_none_iff_exists'.mp hlead
    simp only [hpc, hu, Option.some.injEq] at hst
    subst hst
    exact ⟨h :: q, hi.unlocking (by rw [hpc]; rfl) rfl hu⟩
  | wake u =>
    simp only [hpc, Option.some.injEq] at hst
    subst hst
    exact hi.wake hpc
  | _ => rw [hpc] at hlead; exact absurd hlead id

/-- Every access keeps the invariant. -/
theorem step_inv (hi : Inv q s) (hst : step s t = some s') : ∃ q', Inv q' s' := by
  by_cases ht : t ∈ q
  · cases q with
    | nil => cases ht
    | cons h q =>
      rcases List.mem_cons.mp ht with rfl | ht
      · exact step_leader hi hst
      · exact step_behind hi ht hst
  · exact step_outside hi ht hst

theorem start_inv (next : Nat → Option Nat) (blocked : Nat → Bool) :
    Inv [] (start next blocked) where
  nodup := List.nodup_nil
  tail := rfl
  line := trivial
  outside := fun _ _ => trivial
  suffix := List.nil_suffix
  log := rfl

theorem reach_inv {next : Nat → Option Nat} {blocked : Nat → Bool}
    (hs : Lts.Reach step (fun _ _ => True) (start next blocked) s) : ∃ q, Inv q s :=
  Lts.Reach.inv (I := fun s => ∃ q, Inv q s) ⟨[], start_inv next blocked⟩
    (fun _ _ _ _ ⟨_, hi⟩ _ hst => step_inv hi hst) hs

/-! ## What the queue is for -/

/-- The thread has swapped `tail` and `blocked` has not been cleared. -/
def State.Waits (s : State) (t : Nat) : Prop :=
  s.blocked t = true ∧ ((∃ p, s.pc t = .link p) ∨ s.pc t = .spin)

/-- The last swap of `p` was the one right before the last swap of `t`. -/
def Precedes (log : List (FairLock.Op Nat)) (p t : Nat) : Prop :=
  ∃ as bs, arrivals log = as ++ p :: t :: bs ∧ p ∉ bs ∧ t ∉ bs

/-- `p` is inside `__ql_unlock`, and its write to `blocked` of `t` is still to come. -/
def State.Delivers (s : State) (p t : Nat) : Prop :=
  match s.pc p with
  | .testNext | .release | .awaitNext => s.tail ≠ some p
  | .haveNext | .loadNext => s.next p = some t
  | .wake u => u = t
  | _ => False

/-- The neighbours of the queue. -/
theorem Behind.pred (hb : Behind s l q) (ht : t ∈ q) : ∃ p as bs, l :: q = as ++ p :: t :: bs ∧
    (s.pc t = .link p ∧ s.next p = none ∨ s.pc t = .spin ∧ s.next p = some t) := by
  induction q generalizing l with
  | nil => cases ht
  | cons a q ih =>
    rcases List.mem_cons.mp ht with rfl | ht
    · exact ⟨l, [], q, rfl, hb.1⟩
    · obtain ⟨p, as, bs, hq, hlink⟩ := ih hb.2.2 ht
      exact ⟨p, l :: as, bs, by rw [hq]; rfl, hlink⟩

/-- The first of the queue has the lock, or will have it, or is about to pass it on. -/
theorem Inv.leader_delivers (hi : Inv (h :: q) s) (htail : s.tail ≠ some h)
    (hnext : s.next h = none ∨ s.next h = some t) :
    s.pc h = .spin ∨ s.pc h = .crit ∨ s.Delivers h t := by
  have hlead := hi.line.1
  unfold State.Delivers
  cases hpc : s.pc h with
  | spin => exact Or.inl rfl
  | crit => exact Or.inr (Or.inl rfl)
  | testNext | release | awaitNext => exact Or.inr (Or.inr htail)
  | haveNext | loadNext =>
    rw [hpc] at hlead
    exact Or.inr (Or.inr (hnext.resolve_left hlead))
  | wake u =>
    rw [hpc] at hlead
    have hu : s.next h = some u := hlead
    rw [hu] at hnext
    exact Or.inr (Or.inr (Option.some.inj (hnext.resolve_left (by simp))))
  | _ => rw [hpc] at hlead; exact absurd hlead id

theorem Inv.waits_behind (hi : Inv q s) (hw : s.Waits t) : ∃ h r, q = h :: r ∧ t ∈ r := by
  by_cases ht : t ∈ q
  · cases q with
    | nil => cases ht
    | cons h r =>
      refine ⟨h, r, rfl, (List.mem_cons.mp ht).resolve_left ?_⟩
      rintro rfl
      have hlead := hi.line.1
      obtain ⟨hbl, ⟨p, hpc⟩ | hpc⟩ := hw <;> rw [hpc] at hlead
      · exact hlead
      · rw [show s.blocked t = false from hlead] at hbl
        cases hbl
  · have hout := hi.outside t ht
    obtain ⟨-, ⟨p, hpc⟩ | hpc⟩ := hw <;> rw [hpc] at hout <;> exact absurd hout id

/-- No thread waits without somebody before it. -/
theorem Inv.handoff (hi : Inv q s) (hw : s.Waits t) : ∃ p, Precedes s.log p t ∧
    ((∃ l, s.pc p = .link l) ∨ s.pc p = .spin ∨ s.pc p = .crit ∨ s.Delivers p t) := by
  obtain ⟨h, r, rfl, ht⟩ := hi.waits_behind hw
  obtain ⟨p, as, bs, hq, hlink⟩ := hi.line.2.pred ht
  have hnd := hi.nodup
  rw [hq] at hnd
  obtain ⟨-, hnd, -⟩ := List.nodup_append'.mp hnd
  obtain ⟨hp, hnd⟩ := List.nodup_cons.mp hnd
  obtain ⟨htb, -⟩ := List.nodup_cons.mp hnd
  refine ⟨p, ?_, ?_⟩
  · obtain ⟨pre, hpre⟩ := hi.suffix
    refine ⟨pre ++ as, bs, ?_, fun hm => hp (List.mem_cons_of_mem t hm), htb⟩
    rw [← hpre, hq, List.append_assoc]
  · have hmem : p ∈ h :: r := by rw [hq]; simp
    rcases List.mem_cons.mp hmem with rfl | hmem
    · -- a thread stands behind the first one, so `tail` does not name it
      have htail : s.tail ≠ some p := by
        rw [hi.tail, hq, List.getLast?_append_cons, List.getLast?_cons_cons]
        exact fun hl => hp (List.mem_of_getLast? hl)
      exact Or.inr (hi.leader_delivers htail (hlink.imp And.right And.right))
    · rcases (hi.line.2.waits hmem).1 with hpc | ⟨l, -, hpc⟩
      · exact Or.inr (Or.inl hpc)
      · exact Or.inl ⟨l, hpc⟩

/-- The thread between lock and unlock is the one inside. -/
theorem Inv.crit_iff (hi : Inv q s) : s.pc t = .crit ↔ (s.view q).inside = some t := by
  have hcrit : s.pc t = .crit → t ∈ q := by
    intro hpc
    by_contra ht
    have hout := hi.outside t ht
    rw [hpc] at hout
    exact hout
  cases q with
  | nil => exact ⟨fun hpc => absurd (hcrit hpc) (by simp), fun h => by cases h⟩
  | cons h q =>
    constructor
    · intro hpc
      obtain rfl := hi.eq_head (hcrit hpc) (by simp [hpc]) (by simp [hpc])
      simp [State.view, hpc]
    · intro hin
      simp only [State.view] at hin
      split at hin
      · cases hin
      · rename_i hpc
        obtain rfl := Option.some.inj hin
        exact hpc
      · cases hin

theorem Inv.ne_crash (hi : Inv q s) (t : Nat) : s.pc t ≠ .crash := by
  intro hpc
  have hout := hi.outside t
  rw [hpc] at hout
  cases q with
  | nil => exact hout (by simp)
  | cons h q =>
    obtain rfl := hi.eq_head (by_contra hout) (by simp [hpc]) (by simp [hpc])
    have hlead := hi.line.1
    rw [hpc] at hlead
    exact hlead

end

/-- The queue lock excludes, serves in the order of the successful swaps of `tail`, and loses
no hand-off: whoever waits has a predecessor that waits, is in its critical section, or is
about to clear its `blocked`. -/
theorem queue_lock_correct {next : Nat → Option Nat} {blocked : Nat → Bool} {s : State}
    (hs : Lts.Reach step (fun _ _ => True) (start next blocked) s) :
    (∀ t u, s.pc t = .crit → s.pc u = .crit → t = u) ∧
    entries s.log <+: arrivals s.log ∧
    (∀ t, s.Waits t → ∃ p, Precedes s.log p t ∧
      ((∃ l, s.pc p = .link l) ∨ s.pc p = .spin ∨ s.pc p = .crit ∨ s.Delivers p t)) ∧
    (∃ a, Lts.run FairLock.step FairLock.empty s.log = some a ∧
      ∀ t, s.pc t = .crit ↔ a.inside = some t) ∧
    ∀ t, s.pc t ≠ .crash := by
  obtain ⟨q, hi⟩ := reach_inv hs
  refine ⟨?_, FairLock.entries_prefix hi.log, fun t => hi.handoff,
    ⟨s.view q, hi.log, fun t => hi.crit_iff⟩, hi.ne_crash⟩
  intro t u ht hu
  have hin := (hi.crit_iff.mp ht).symm.trans (hi.crit_iff.mp hu)
  exact Option.some.inj hin

/-- Thread 1 swaps `tail` while thread 0 is in its critical section, and thread 0 fails to set
`tail` back before thread 1 has written `next`. -/
def raceTrace : List Nat := List.replicate 5 0 ++ List.replicate 5 1 ++ List.replicate 4 0

theorem queue_lock_correct_race : ∃ s,
    Lts.Reach step (fun _ _ => True) (start (fun _ => none) (fun _ => false)) s ∧
    s.pc 0 = .awaitNext ∧ s.pc 1 = .link 0 ∧ s.log = [.arrive 0, .enter 0, .arrive 1, .leave 0] ∧
    (∃ p, Precedes s.log p 1 ∧
      ((∃ l, s.pc p = .link l) ∨ s.pc p = .spin ∨ s.pc p = .crit ∨ s.Delivers p 1)) := by
  have hd : (Lts.drive step (fun _ _ => true) (start (fun _ => none) (fun _ => false))
      raceTrace).map (fun s => (s.pc 0, s.pc 1, s.blocked 1, s.log)) =
      some (.awaitNext, .link 0, true, [.arrive 0, .enter 0, .arrive 1, .leave 0]) := by
    decide +kernel
  obtain ⟨s, hs, ho⟩ := Lts.reach_of_drive_map (P := fun _ _ => True) (fun _ _ _ => trivial) hd
  simp only [Prod.mk.injEq] at ho
  obtain ⟨h0, h1, hb, hlog⟩ := ho
  obtain ⟨-, -, hw, -, -⟩ := queue_lock_correct hs
  exact ⟨s, hs, h0, h1, hlog, hw 1 ⟨hb, Or.inl ⟨0, h1⟩⟩⟩

end Pgm.QueueLock
