import Pgm.Control
import Pgm.Lib.Scan

/-! Which in-edges of a node are ready, and who can change that. The counters of a
node's in-edges are lowered by the node's owner only, and its skips as well; other
threads only add tokens and terminate signals. -/

namespace Pgm

open Function (update)

def nrReadyEdges (g : Graph) (s : State) (n : Nat) : Nat := (g.inEdges n).countP (readyEdge g s)

/-- `nr_ready_normal` of the second `pgm_nr_ready_edges`. -/
def nrReadyNormal (g : Graph) (s : State) (n : Nat) : Nat :=
  (g.inEdges n).countP (fun e => readyEdge g s e && !(g.edge e).isBackedge)

def readyIn (g : Graph) (s : State) (n i : Nat) : Nat :=
  ((g.inEdges n).take i).countP (readyEdge g s)

/-- The signaled ones among the first `i` in-edges. -/
def signaledIn (g : Graph) (n i : Nat) : Nat :=
  ((g.inEdges n).take i).countP (fun e => (g.edge e).isSignalDriven)

def AllReady (g : Graph) (s : State) (n : Nat) : Prop :=
  ∀ e ∈ g.inEdges n, (g.edge e).isSignalDriven = true → readyEdge g s e = true

/-- The second wake condition: no forward in-edge is ready, and every producer of a
forward signaled in-edge has sent its terminate signal. -/
structure TermReady (g : Graph) (s : State) (n : Nat) : Prop where
  none : ∀ e ∈ g.inEdges n, (g.edge e).isBackedge = false → readyEdge g s e = false
  some : s.nrTerminateSignals n ≠ 0
  all : s.nrTerminateSignals n = g.nrInSignaledForward n

section

variable {g : Graph} {s s' : State} {a : Act} {eff : Effect} {p : Pc} {n e i : Nat}

theorem readyEdge_signaled (h : readyEdge g s e = true) : (g.edge e).isSignalDriven = true := by
  simp only [readyEdge, Bool.and_eq_true] at h
  exact h.1

theorem readyEdge_iff : readyEdge g s e = true ↔ (g.edge e).isSignalDriven = true ∧
    ((g.edge e).attr.nrThreshold ≤ s.nrPending e ∨ 0 < s.nrSkips e) := by
  simp [readyEdge]

theorem not_ready_of_le (h : readyEdge g s e = false) (hp : s'.nrPending e = s.nrPending e)
    (hs : s'.nrSkips e ≤ s.nrSkips e) : readyEdge g s' e = false := by
  by_contra hr
  rw [Bool.not_eq_false, readyEdge_iff, hp] at hr
  have hold : readyEdge g s e = true :=
    readyEdge_iff.mpr ⟨hr.1, hr.2.imp id (fun h => Nat.lt_of_lt_of_le h hs)⟩
  rw [h] at hold
  cases hold

theorem readyIn_succ (hi : (g.inEdges n)[i]? = some e) :
    readyIn g s n (i + 1) = readyIn g s n i + if readyEdge g s e then 1 else 0 :=
  Scan.countP_take_succ hi _

theorem signaledIn_succ (hi : (g.inEdges n)[i]? = some e) :
    signaledIn g n (i + 1) = signaledIn g n i + if (g.edge e).isSignalDriven then 1 else 0 :=
  Scan.countP_take_succ hi _

theorem signaledIn_all (hi : (g.inEdges n)[i]? = none) : signaledIn g n i = g.nrInSignaled n := by
  rw [signaledIn, Scan.take_of_end hi]
  rfl

theorem allReady_iff : AllReady g s n ↔ nrReadyEdges g s n = g.nrInSignaled n := by
  constructor
  · intro h
    exact List.countP_congr (fun e he => ⟨readyEdge_signaled, h e he⟩)
  · intro h
    exact Scan.forall_of_countP_eq (fun e _ => readyEdge_signaled) h

theorem readyIn_of_allReady (h : AllReady g s n) (i : Nat) :
    readyIn g s n i = signaledIn g n i := by
  apply List.countP_congr
  intro e he
  exact ⟨readyEdge_signaled, h e (List.mem_of_mem_take he)⟩

theorem termReady_iff : TermReady g s n ↔ nrReadyNormal g s n = 0 ∧
    s.nrTerminateSignals n ≠ 0 ∧ s.nrTerminateSignals n = g.nrInSignaledForward n := by
  have hzero : nrReadyNormal g s n = 0 ↔
      ∀ e ∈ g.inEdges n, (g.edge e).isBackedge = false → readyEdge g s e = false := by
    unfold nrReadyNormal
    rw [List.countP_eq_zero]
    refine forall₂_congr fun e _ => ?_
    cases readyEdge g s e <;> cases (g.edge e).isBackedge <;> simp
  constructor
  · rintro ⟨h1, h2, h3⟩
    exact ⟨hzero.mpr h1, h2, h3⟩
  · rintro ⟨h1, h2, h3⟩
    exact ⟨hzero.mp h1, h2, h3⟩

/-! ## Who changes what -/

/-- The owner of a node lowers the counters and skips of its own in-edges only. -/
theorem Move.own_edge (hm : Move g s a eff p) :
    (eff = .subTokens e ∨ eff = .decSkips e) → e ∈ g.inEdges a.thread := by
  intro heff
  cases hm with
  | wait t ans w eff p hpc hm =>
    cases hm with
    | consume ret i e' hi | skip ret i e' hi =>
      rcases heff with heff | heff <;> cases heff
      exact List.mem_of_getElem? hi
    | _ => rcases heff with heff | heff <;> cases heff
  | prod t n ans cmd inWait err q eff p hpc hm =>
    cases hm <;> rcases heff with heff | heff <;> cases heff
  | _ => rcases heff with heff | heff <;> cases heff

theorem terminated_mono {t m : Nat} (h : s.terminated m = true) :
    (s.apply g t eff).terminated m = true := by
  cases eff with
  | terminate k =>
    by_cases hk : m = k
    · simp [State.apply, hk]
    · simpa [State.apply, hk] using h
  | _ => exact h

theorem ne_of_inEdges {e' n' : Nat} (h : e ∈ g.inEdges n) (h' : e' ∈ g.inEdges n') (hn : n ≠ n') :
    e ≠ e' := by
  rintro rfl
  exact hn ((Graph.mem_inEdges_consumer h).symm.trans (Graph.mem_inEdges_consumer h'))

theorem foreign_nrSkips (hm : Move g s a eff p) (hn : n ≠ a.thread) (he : e ∈ g.inEdges n) :
    (s.apply g a.thread eff).nrSkips e = s.nrSkips e := by
  cases eff with
  | decSkips e' =>
    have hne := ne_of_inEdges he (hm.own_edge (Or.inr rfl)) hn
    simp [State.apply, hne]
  | _ => rfl

theorem foreign_nrPending (hm : Move g s a eff p) (hn : n ≠ a.thread) (he : e ∈ g.inEdges n)
    (hadd : eff ≠ .addTokens e) : (s.apply g a.thread eff).nrPending e = s.nrPending e := by
  cases eff with
  | subTokens e' =>
    have hne := ne_of_inEdges he (hm.own_edge (Or.inl rfl)) hn
    simp [State.apply, hne]
  | addTokens e' =>
    have hne : e ≠ e' := by
      rintro rfl
      exact hadd rfl
    simp [State.apply, hne]
  | _ => rfl

/-- Tokens are added by a normal `pgm_produce` at its atomic add. -/
theorem Move.sendsOn (hm : Move g s a (.addTokens e) p) : sendsOn s a = some e := by
  cases hm with
  | prod t m ans cmd w err q eff p hpc hm =>
    cases hm with
    | tokens i e tw hc =>
      subst hc
      simp [Pgm.sendsOn, hpc]
  | wait t ans w eff p hpc hm => cases hm

end

end Pgm
