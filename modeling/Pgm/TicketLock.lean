import Mathlib.Data.List.Nodup
import Mathlib.Data.List.Perm.Subperm
import Mathlib.Logic.Function.Basic
import Pgm.Lib.Circular
import Pgm.Lib.FairLock
import Pgm.Lib.Word

/-!
# The ticket lock

`step` interleaves the atomic accesses of `W` threads that repeat `__tl_lock`, a critical
section and `__tl_unlock` on one `ticketlock_t`. `ticketid_t` has `w` bits and `data` twice
as many: `w` is 32 where `unsigned long` has 64 bits, and 16 elsewhere. Both counters wrap;
with less than `2 ^ w` threads the tickets that are out are still all different.
-/

namespace Pgm.TicketLock

open Function (update update_of_ne)
open FairLock (arrivals entries)

/-- The member `owner`, the low half of `data`. -/
def owner (w data : Nat) : Nat := data % 2 ^ w

/-- The member `next`, the high half of `data`. -/
def next (w data : Nat) : Nat := data / 2 ^ w % 2 ^ w

/-- `__sync_fetch_and_add(&t->data, TL_INC)`. -/
def takeTicket (w data : Nat) : Nat := Word.add (w + w) data (2 ^ w)

/-- `__sync_fetch_and_add(&t->owner, 1)`, on the low half only. -/
def serveNext (w data : Nat) : Nat := data / 2 ^ w * 2 ^ w + Word.add w (owner w data) 1

inductive Pc where
  /-- `__sync_fetch_and_add(&t->data, TL_INC)`, when the thread comes to `__tl_lock`. -/
  | idle
  /-- `while(updated.next != t->owner)`. -/
  | spin (ticket : Nat)
  /-- Between `__tl_lock` and `__tl_unlock`. -/
  | crit
  /-- `__sync_fetch_and_add(&t->owner, 1)`. -/
  | release
  deriving DecidableEq

structure State where
  data : Nat
  pc : Nat → Pc
  log : List (FairLock.Op Nat)

def State.goto (s : State) (t : Nat) (p : Pc) : State := { s with pc := update s.pc t p }

def State.record (s : State) (x : FairLock.Op Nat) : State := { s with log := s.log ++ [x] }

/-- The next access of thread `t`. `__tl_lock` first compares the two halves of the word that
its fetch-and-add has returned. -/
def step (w W : Nat) (s : State) (t : Nat) : Option State :=
  if t < W then
    match s.pc t with
    | .idle =>
      let s' := { s with data := takeTicket w s.data }.record (.arrive t)
      if next w s.data = owner w s.data then some ((s'.goto t .crit).record (.enter t))
      else some (s'.goto t (.spin (next w s.data)))
    | .spin ticket =>
      if ticket = owner w s.data then some ((s.goto t .crit).record (.enter t)) else some s
    | .crit => some ((s.goto t .release).record (.leave t))
    | .release => some ({ s with data := serveNext w s.data }.goto t .idle)
  else none

def start : State := ⟨0, fun _ => .idle, []⟩

/-! ## The two halves of the word -/

section

variable (w data : Nat)

theorem owner_lt : owner w data < 2 ^ w := Nat.mod_lt _ (Nat.two_pow_pos w)

theorem owner_takeTicket : owner w (takeTicket w data) = owner w data := by
  have hdvd : 2 ^ w ∣ 2 ^ (w + w) := Nat.pow_dvd_pow 2 (by omega)
  rw [owner, takeTicket, Word.add, Nat.mod_mod_of_dvd _ hdvd, Nat.add_mod_right, owner]

theorem next_takeTicket : next w (takeTicket w data) = (next w data + 1) % 2 ^ w := by
  rw [next, takeTicket, Word.add, Nat.pow_add, Nat.mod_mul_right_div_self, Nat.mod_mod,
    Nat.add_div_right _ (Nat.two_pow_pos w), next, Nat.mod_add_mod]

theorem owner_serveNext : owner w (serveNext w data) = (owner w data + 1) % 2 ^ w := by
  rw [owner, serveNext, Nat.mul_add_mod', Word.add, Nat.mod_mod]

theorem next_serveNext : next w (serveNext w data) = next w data := by
  have hlt : Word.add w (owner w data) 1 < 2 ^ w := Word.add_lt w _ _
  rw [next, serveNext, Nat.mul_comm, Nat.mul_add_div (Nat.two_pow_pos w), Nat.div_eq_of_lt hlt,
    Nat.add_zero, next]

end

/-- The owner wraps and the tickets stay. -/
example : serveNext 32 0x5ffffffff = 0x500000000 := by decide

/-! ## The line -/

/-- Where a thread can be when `k` tickets are to be served before its own. -/
def Holds (w owner k : Nat) : Pc → Prop
  | .idle => False
  | .spin ticket => ticket = (owner + k) % 2 ^ w
  | .crit | .release => k = 0

/-- The lock as its users see it, when `q` are the threads with a ticket. -/
def State.view (s : State) : List Nat → FairLock.State Nat
  | [] => FairLock.empty
  | h :: q =>
    match s.pc h with
    | .crit => ⟨some h, q⟩
    | .release => ⟨none, q⟩
    | _ => ⟨none, h :: q⟩

/-- The invariant: `q` are the threads with a ticket, in the order of their numbers. -/
structure Inv (w W : Nat) (q : List Nat) (s : State) : Prop where
  nodup : q.Nodup
  lt : ∀ t ∈ q, t < W
  tickets : next w s.data = (owner w s.data + q.length) % 2 ^ w
  holds : ∀ k t, q[k]? = some t → Holds w (owner w s.data) k (s.pc t)
  outside : ∀ t, t ∉ q → s.pc t = .idle
  log : Lts.run FairLock.step FairLock.empty s.log = some (s.view q)

section

variable {w W t h k : Nat} {q : List Nat} {s s' : State}

theorem Inv.length_le (hi : Inv w W q s) : q.length ≤ W := by
  have hsub : q ⊆ List.range W := fun t ht => List.mem_range.mpr (hi.lt t ht)
  have hle := (hi.nodup.subperm hsub).length_le
  rwa [List.length_range] at hle

/-- A ticket equal to the owner's is the one that is served: less than `2 ^ w` are out. -/
theorem eq_zero_of_served {d : Nat} (hk : k < 2 ^ w) (he : (owner w d + k) % 2 ^ w = owner w d) :
    k = 0 := by
  have hmod : owner w d % 2 ^ w = (owner w d + k) % 2 ^ w := by
    rw [he, Nat.mod_eq_of_lt (owner_lt w d)]
  have heq := Circular.eq_of_mod_eq (Nat.le_add_right _ _) (by omega) hmod
  omega

/-- The first of the line is at a place where it has, or will have, the lock. -/
theorem Inv.eq_head (hi : Inv w W (h :: q) s) (ht : t ∈ h :: q)
    (hk : ∀ k, Holds w (owner w s.data) k (s.pc t) → k = 0) : t = h := by
  obtain ⟨k, hkt⟩ := List.mem_iff_getElem?.mp ht
  obtain rfl := hk k (hi.holds k t hkt)
  simpa using hkt.symm

theorem Inv.mem_of_pc (hi : Inv w W q s) (hpc : s.pc t ≠ .idle) : t ∈ q := by
  by_contra ht
  exact hpc (hi.outside t ht)

/-! ## Steps -/

/-- The thread at the front goes on to `p` with the lock still its own. -/
theorem Inv.leader (hi : Inv w W (h :: q) s) {p : Pc} {x : FairLock.Op Nat}
    (hp : Holds w (owner w s.data) 0 p)
    (hv : FairLock.step (s.view (h :: q)) x = some ((s.goto h p).view (h :: q))) :
    Inv w W (h :: q) ((s.goto h p).record x) := by
  obtain ⟨hh, -⟩ := List.nodup_cons.mp hi.nodup
  refine ⟨hi.nodup, hi.lt, hi.tickets, ?_, ?_, FairLock.run_snoc hi.log hv⟩
  · intro k t hk
    cases k with
    | zero =>
      obtain rfl : h = t := by simpa using hk
      simpa [State.goto, State.record] using hp
    | succ k =>
      have hne : t ≠ h := ne_of_mem_of_not_mem (List.mem_of_getElem? (by simpa using hk)) hh
      simpa [State.goto, State.record, update_of_ne hne] using hi.holds (k + 1) t hk
  · intro t ht
    have hne : t ≠ h := fun he => ht (he ▸ List.mem_cons_self)
    simpa [State.goto, State.record, update_of_ne hne] using hi.outside t ht

/-- A thread takes a ticket and stands at the end of the line. -/
theorem Inv.arrive (hi : Inv w W q s) (htW : t < W) (ht : t ∉ q) {p : Pc}
    (hp : Holds w (owner w s.data) q.length p) {log : List (FairLock.Op Nat)}
    (hlog : Lts.run FairLock.step FairLock.empty log =
      some ((s.goto t p).view (q ++ [t]))) :
    Inv w W (q ++ [t]) ⟨takeTicket w s.data, update s.pc t p, log⟩ where
  nodup := List.nodup_append'.mpr ⟨hi.nodup, List.nodup_singleton t, by simpa using ht⟩
  lt := by
    intro x hx
    rcases List.mem_append.mp hx with hx | hx
    · exact hi.lt x hx
    · rw [List.mem_singleton.mp hx]
      exact htW
  tickets := by
    rw [next_takeTicket, owner_takeTicket, hi.tickets, List.length_append, List.length_singleton,
      Nat.mod_add_mod, Nat.add_assoc]
  holds := by
    intro k x hk
    rw [owner_takeTicket]
    rcases Nat.lt_or_ge k q.length with hlt | hge
    · rw [List.getElem?_append_left hlt] at hk
      have hne : x ≠ t := ne_of_mem_of_not_mem (List.mem_of_getElem? hk) ht
      simpa [update_of_ne hne] using hi.holds k x hk
    · rw [List.getElem?_append_right hge, List.getElem?_singleton] at hk
      split at hk
      · obtain rfl := Option.some.inj hk
        obtain rfl : k = q.length := by omega
        simpa using hp
      · cases hk
  outside := by
    intro x hx
    rw [List.mem_append, not_or, List.mem_singleton] at hx
    simpa [update_of_ne hx.2] using hi.outside x hx.1
  log := hlog

theorem view_snoc (ht : t ∉ h :: q) (p : Pc) : (s.goto t p).view (h :: q ++ [t]) =
    ⟨(s.view (h :: q)).inside, (s.view (h :: q)).line ++ [t]⟩ := by
  have hne : h ≠ t := fun he => ht (he ▸ List.mem_cons_self)
  simp only [State.view, State.goto, List.cons_append, update_of_ne hne]
  cases s.pc h <;> rfl

theorem not_mem_view (ht : t ∉ h :: q) :
    (s.view (h :: q)).inside ≠ some t ∧ t ∉ (s.view (h :: q)).line := by
  rw [List.mem_cons, not_or] at ht
  simp only [State.view]
  cases s.pc h <;> simp_all [eq_comm]

/-- `__sync_fetch_and_add(&t->data, TL_INC)`. The snapshot shows equal halves only when no
ticket is out. -/
theorem Inv.take (hW : W < 2 ^ w) (hi : Inv w W q s) (htW : t < W) (hpc : s.pc t = .idle)
    (hst : step w W s t = some s') : ∃ q', Inv w W q' s' := by
  have ht : t ∉ q := by
    intro hm
    obtain ⟨k, hk⟩ := List.mem_iff_getElem?.mp hm
    have hh := hi.holds k t hk
    rw [hpc] at hh
    exact hh
  have hlen := hi.length_le
  simp only [step, if_pos htW, hpc] at hst
  refine ⟨q ++ [t], ?_⟩
  cases q with
  | nil =>
    have hfree : next w s.data = owner w s.data := by
      rw [hi.tickets, List.length_nil, Nat.add_zero, Nat.mod_eq_of_lt (owner_lt w s.data)]
    rw [if_pos hfree] at hst
    obtain rfl := Option.some.inj hst
    have harr := FairLock.run_snoc hi.log (FairLock.step_arrive (t := t) (by simp) (by simp))
    have hent := FairLock.run_snoc harr FairLock.step_enter
    refine hi.arrive htW ht (p := .crit) rfl ?_
    simpa [State.view, State.goto, State.record] using hent
  | cons h q =>
    have hbusy : next w s.data ≠ owner w s.data := by
      intro he
      have := eq_zero_of_served (Nat.lt_of_le_of_lt hlen hW) (hi.tickets.symm.trans he)
      simp at this
    rw [if_neg hbusy] at hst
    obtain rfl := Option.some.inj hst
    obtain ⟨hin, hline⟩ := not_mem_view (s := s) ht
    refine hi.arrive htW ht (p := .spin _) hi.tickets ?_
    rw [view_snoc ht]
    exact FairLock.run_snoc hi.log (FairLock.step_arrive hin hline)

/-- `while(updated.next != t->owner)`. -/
theorem Inv.spin {ticket : Nat} (hW : W < 2 ^ w) (hi : Inv w W q s) (htW : t < W)
    (hpc : s.pc t = .spin ticket) (hst : step w W s t = some s') : ∃ q', Inv w W q' s' := by
  have ht : t ∈ q := hi.mem_of_pc (by simp [hpc])
  obtain ⟨k, hk⟩ := List.mem_iff_getElem?.mp ht
  have hticket := hi.holds k t hk
  rw [hpc] at hticket
  have hklt : k < 2 ^ w := by
    have := (List.getElem?_eq_some_iff.mp hk).1
    have := hi.length_le
    omega
  simp only [step, if_pos htW, hpc] at hst
  split at hst
  · rename_i hserved
    obtain rfl := Option.some.inj hst
    obtain rfl := eq_zero_of_served hklt (hticket.symm.trans hserved)
    cases q with
    | nil => cases ht
    | cons h q =>
      obtain rfl : h = t := by simpa using hk
      refine ⟨h :: q, hi.leader rfl ?_⟩
      simp [State.view, State.goto, hpc]
  · obtain rfl := Option.some.inj hst
    exact ⟨q, hi⟩

/-- `__sync_fetch_and_add(&t->owner, 1)`: the line moves up. -/
theorem Inv.serve (hi : Inv w W (h :: q) s) (hpc : s.pc h = .release) :
    Inv w W q ({ s with data := serveNext w s.data }.goto h .idle) := by
  obtain ⟨hh, hnd⟩ := List.nodup_cons.mp hi.nodup
  have hsucc : ∀ k, (owner w s.data + (k + 1)) % 2 ^ w =
      (owner w (serveNext w s.data) + k) % 2 ^ w := by
    intro k
    rw [owner_serveNext, Nat.mod_add_mod, Nat.add_assoc, Nat.add_comm 1 k]
  have hpcs : ∀ x, x ≠ h → update s.pc h .idle x = s.pc x := fun x hx => update_of_ne hx _ _
  have hholds : ∀ k t, q[k]? = some t →
      s.pc t = .spin ((owner w (serveNext w s.data) + k) % 2 ^ w) := by
    intro k t hk
    have hold := hi.holds (k + 1) t (by simpa using hk)
    cases ht : s.pc t with
    | spin ticket =>
      rw [ht] at hold
      rw [show ticket = _ from hold, hsucc]
    | _ => rw [ht] at hold; simp [Holds] at hold
  refine ⟨hnd, fun t ht => hi.lt t (List.mem_cons_of_mem h ht), ?_, ?_, ?_, ?_⟩
  · change next w (serveNext w s.data) = _
    rw [next_serveNext, hi.tickets, List.length_cons, hsucc]
    rfl
  · intro k t hk
    have hne : t ≠ h := ne_of_mem_of_not_mem (List.mem_of_getElem? hk) hh
    simp [State.goto, hpcs t hne, hholds k t hk, Holds]
  · intro t ht
    by_cases he : t = h
    · subst he
      simp [State.goto]
    · simpa [State.goto, hpcs t he] using hi.outside t (by simp [he, ht])
  · have hlog := hi.log
    simp only [State.view, hpc] at hlog
    refine hlog.trans (congrArg some ?_)
    cases q with
    | nil => rfl
    | cons a q =>
      have hne : a ≠ h := fun he => hh (he ▸ List.mem_cons_self)
      simp [State.view, State.goto, hpcs a hne, hholds 0 a rfl]

/-- Every access keeps the invariant. -/
theorem step_inv (hW : W < 2 ^ w) (hi : Inv w W q s) (hst : step w W s t = some s') :
    ∃ q', Inv w W q' s' := by
  by_cases htW : t < W
  · cases hpc : s.pc t with
    | idle => exact hi.take hW htW hpc hst
    | spin ticket => exact hi.spin hW htW hpc hst
    | crit =>
      have ht : t ∈ q := hi.mem_of_pc (by simp [hpc])
      cases q with
      | nil => cases ht
      | cons h q =>
        obtain rfl := hi.eq_head ht (by simp [hpc, Holds])
        simp only [step, if_pos htW, hpc, Option.some.injEq] at hst
        subst hst
        refine ⟨t :: q, hi.leader rfl ?_⟩
        simp [State.view, State.goto, hpc]
    | release =>
      have ht : t ∈ q := hi.mem_of_pc (by simp [hpc])
      cases q with
      | nil => cases ht
      | cons h q =>
        obtain rfl := hi.eq_head ht (by simp [hpc, Holds])
        simp only [step, if_pos htW, hpc, Option.some.injEq] at hst
        subst hst
        exact ⟨q, hi.serve hpc⟩
  · simp [step, htW] at hst

theorem start_inv (w W : Nat) : Inv w W [] start where
  nodup := List.nodup_nil
  lt := by simp
  tickets := by simp [start, next, owner]
  holds := by simp
  outside := fun _ _ => rfl
  log := rfl

theorem Inv.crit_iff (hi : Inv w W q s) : s.pc t = .crit ↔ (s.view q).inside = some t := by
  have hcrit : s.pc t = .crit → t ∈ q := fun hpc => hi.mem_of_pc (by simp [hpc])
  cases q with
  | nil => exact ⟨fun hpc => absurd (hcrit hpc) (by simp), fun h => by cases h⟩
  | cons h q =>
    constructor
    · intro hpc
      obtain rfl := hi.eq_head (hcrit hpc) (by simp [hpc, Holds])
      simp [State.view, hpc]
    · intro hin
      simp only [State.view] at hin
      cases hpc : s.pc h <;> rw [hpc] at hin <;> cases hin
      exact hpc

end

/-- Mutual exclusion and service in the order of the tickets, in every run of every length, and
each counter wraps without a trace in the other. -/
theorem ticket_lock_correct (w : Nat) {W : Nat} (hW : W < 2 ^ w) {s : State}
    (hs : Lts.Reach (step w W) (fun _ _ => True) start s) :
    (∀ t u, s.pc t = .crit → s.pc u = .crit → t = u) ∧
    entries s.log <+: arrivals s.log ∧
    (∃ a, Lts.run FairLock.step FairLock.empty s.log = some a ∧
      ∀ t, s.pc t = .crit ↔ a.inside = some t) ∧
    ∀ data, next w (serveNext w data) = next w data ∧
      owner w (takeTicket w data) = owner w data := by
  obtain ⟨q, hi⟩ : ∃ q, Inv w W q s :=
    Lts.Reach.inv (I := fun s => ∃ q, Inv w W q s) ⟨[], start_inv w W⟩
      (fun _ _ _ _ ⟨_, hi⟩ _ hst => step_inv hW hi hst) hs
  refine ⟨?_, FairLock.entries_prefix hi.log, ⟨s.view q, hi.log, fun t => hi.crit_iff⟩,
    fun d => ⟨next_serveNext w d, owner_takeTicket w d⟩⟩
  intro t u ht hu
  have hin := (hi.crit_iff.mp ht).symm.trans (hi.crit_iff.mp hu)
  exact Option.some.inj hin

/-- Two threads take turns, each waiting for the other, until both counters of two bits have wrapped.
Then thread 0 has the lock and thread 1 the first ticket again. -/
def wrapTurns : List Nat :=
  [0, 1, 0, 0, 1, 0, 1, 1, 0, 1, 0, 0, 1, 0, 1, 1, 0, 1]

theorem ticket_lock_correct_wrap : ∃ s, Lts.Reach (step 2 2) (fun _ _ => True) start s ∧
    (arrivals s.log).length = 6 ∧ s.pc 0 = .crit ∧ s.pc 1 = .spin 1 ∧ s.data = 0x8 ∧
    ∀ t, s.pc t = .crit → t = 0 := by
  have hd : (Lts.drive (step 2 2) (fun _ _ => true) start wrapTurns).map
      (fun s => ((arrivals s.log).length, s.pc 0, s.pc 1, s.data)) =
        some (6, .crit, .spin 1, 0x8) := by
    decide +kernel
  obtain ⟨s, hs, ho⟩ := Lts.reach_of_drive_map (P := fun _ _ => True) (fun _ _ _ => trivial) hd
  simp only [Prod.mk.injEq] at ho
  obtain ⟨hlog, h0, h1, hdata⟩ := ho
  obtain ⟨hex, -⟩ := ticket_lock_correct 2 (by decide) hs
  exact ⟨s, hs, hlog, h0, h1, hdata, fun t ht => hex t 0 ht h0⟩

end Pgm.TicketLock
