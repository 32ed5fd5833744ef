import Pgm.Consume
import Pgm.Lib.Stock
import Pgm.Rings

/-! Tokens and ring contents. A producer writes a member into the ring and then adds its tokens, a
consumer reads a member and then subtracts them, so the counter of a ring edge follows the ring
through four separate steps. The members in the ring, the one that is written and not yet counted,
and the one that is read and not yet subtracted together say what the counter holds. -/

namespace Pgm

open Function (update)

/-- A node is run by its owner, and not waited for once it has terminated. -/
def ByOwner (s : State) : Act → Prop
  | .wait n => s.terminated n = false
  | .complete t n | .terminate t n => t = n
  | .run _ _ | .spurious _ => True

instance (s : State) : (a : Act) → Decidable (ByOwner s a)
  | .wait n => inferInstanceAs (Decidable (s.terminated n = false))
  | .complete t n | .terminate t n => inferInstanceAs (Decidable (t = n))
  | .run _ _ | .spurious _ => inferInstanceAs (Decidable True)

/-- 1 when the producer has written a member of edge `e` and not yet added its tokens. -/
def Pc.uncounted (e : Nat) : Pc → Nat
  | .prod _ .normal _ _ (.tokens _ e' _) => if e' = e then 1 else 0
  | _ => 0

/-- 1 when the wait is past its read of the in-edge `e` of node `n` and has not yet subtracted its
tokens, or will not do so any more. -/
def Pc.unpaid (g : Graph) (n e : Nat) : Pc → Nat
  | .wait (.recv _ r) => if e ∈ (g.inEdges n).take r.pc.pos then 1 else 0
  | .wait (.dataDone _ _) => 1
  | .wait (.consume _ i) => if e ∈ (g.inEdges n).drop i then 1 else 0
  | .wait (.skips .terminate _) => 1
  | _ => 0

/-- 1 when the consumer of `e` has read a member and not subtracted its tokens, or has
terminated. -/
def State.unpaid (g : Graph) (s : State) (e : Nat) : Nat :=
  if s.terminated (g.edge e).consumer then 1
  else if s.nrSkips e = 0 then (s.pc (g.edge e).consumer).unpaid g (g.edge e).consumer e
  else 0

def State.stock (g : Graph) (s : State) (e : Nat) : Stock :=
  ⟨s.nrPending e, (s.data.queue e).length, (s.pc (g.edge e).producer).uncounted e, s.unpaid g e⟩

def WaitPc.ends : WaitPc → Bool
  | .unlock .exhaustedAndTerminate | .tokensDone .exhaustedAndTerminate
  | .recv .exhaustedAndTerminate _ | .dataDone .exhaustedAndTerminate _ => true
  | .skips .terminate _ => true
  | _ => false

def Pc.ends : Pc → Bool
  | .wait w => w.ends
  | _ => false

/-- The node has terminated, or the token side of its running wait has ended. -/
def Ending (s : State) (n : Nat) : Prop := s.terminated n = true ∨ (s.pc n).ends = true

def NotEnded (s : State) : Prop := ∀ n w, s.pc n = .wait w → s.terminated n = false

section

variable {junk : Junk} {g : Graph} {s s' : State} {a : Act} {eff : Effect} {p : Pc} {n e t : Nat}

theorem ByOwner.ownerActs (h : ByOwner s a) : OwnerActs a := by
  cases a with
  | complete | terminate => exact h
  | _ => trivial

theorem Move.terminated_of_ne (ha : OwnerActs a) (hm : Move g s a eff p) (hn : n ≠ a.thread) :
    (s.apply g a.thread eff).terminated n = s.terminated n := by
  cases hm with
  | callTerminate t m last hpc =>
    have hne : n ≠ m := fun h => hn (h.trans ha.symm)
    simp [State.apply, hne]
  | wait t ans w eff p hpc hm =>
    cases hm with
    | terminate i hi =>
      have hne : n ≠ t := hn
      simp [State.apply, hne]
    | _ => rfl
  | prod t m ans cmd w err q eff p hpc hm => cases hm <;> rfl
  | _ => rfl

theorem Move.waiting (ha : ByOwner s a) (hi : NotEnded s) (hm : Move g s a eff p) {w : WaitPc}
    (hp : p = .wait w) : (s.apply g a.thread eff).terminated a.thread = false := by
  cases hm with
  | callWait n last hpc => exact ha
  | spurious t hpc => exact hi t _ hpc
  | callComplete | callTerminate => cases hp
  | prod t n ans cmd w err q eff p hpc hm => exact absurd hp (hm.not_wait _)
  | wait t ans v eff p hpc hm =>
    have hold := hi t _ hpc
    cases hm with
    | terminate | fire | fail => cases hp
    | _ => exact hold

theorem step_notEnded (ha : ByOwner s a) (hi : NotEnded s) (h : step g s a = some s') :
    NotEnded s' := by
  obtain ⟨eff, p, hm, rfl⟩ := step_move h
  intro n w hw
  by_cases hn : n = a.thread
  · subst hn
    rw [setPc_pc_self] at hw
    exact hm.waiting ha hi hw
  · refine (hm.terminated_of_ne ha.ownerActs hn).trans ?_
    rcases pc_of_ne (g := g) (s := s) eff p hn with heq | ⟨-, hasleep, -⟩
    · exact hi n w (heq ▸ hw)
    · exact hi n _ hasleep

/-! ## What a step does to a ring edge -/

theorem uncounted_of_ne (hn : t ≠ a.thread) :
    (((s.apply g a.thread eff).setPc a.thread p).pc t).uncounted e = (s.pc t).uncounted e := by
  rcases pc_of_ne (g := g) (s := s) eff p hn with heq | ⟨-, hasleep, heq⟩
  · rw [heq]
  · rw [heq, hasleep]
    rfl

theorem unpaid_of_ne (hn : n ≠ a.thread) :
    (((s.apply g a.thread eff).setPc a.thread p).pc n).unpaid g n e = (s.pc n).unpaid g n e := by
  rcases pc_of_ne (g := g) (s := s) eff p hn with heq | ⟨-, hasleep, heq⟩
  · rw [heq]
  · rw [heq, hasleep]
    rfl

/-- How a step leaves the producer's part of the stock alone. -/
theorem uncounted_keep (h : (g.edge e).producer = a.thread →
    p.uncounted e = (s.pc a.thread).uncounted e) :
    (((s.apply g a.thread eff).setPc a.thread p).pc (g.edge e).producer).uncounted e =
      (s.pc (g.edge e).producer).uncounted e := by
  by_cases ht : (g.edge e).producer = a.thread
  · rw [ht, setPc_pc_self]
    exact h ht
  · exact uncounted_of_ne ht

theorem State.unpaid_congr
    (hterm : s'.terminated (g.edge e).consumer = s.terminated (g.edge e).consumer)
    (hskips : s'.nrSkips e = s.nrSkips e)
    (hpc : (s'.pc (g.edge e).consumer).unpaid g (g.edge e).consumer e =
      (s.pc (g.edge e).consumer).unpaid g (g.edge e).consumer e) :
    s'.unpaid g e = s.unpaid g e := by
  unfold State.unpaid
  rw [hterm, hskips, hpc]

theorem State.unpaid_le (g : Graph) (s : State) (e : Nat) : s.unpaid g e ≤ 1 := by
  unfold State.unpaid Pc.unpaid
  split_ifs
  · exact Nat.le_refl 1
  · split <;> first | exact Nat.zero_le 1 | exact Nat.le_refl 1 | (split_ifs <;> omega)
  · exact Nat.zero_le 1

/-- `pgm_produce` subtracts nothing. -/
theorem ProdMove.unpaid {m : Nat} {ans : Answer} {cmd : Command} {w err : Bool} {q : ProdPc}
    (hpc : s.pc t = .prod m cmd w err q) (hm : ProdMove g s m cmd w err ans q eff p) :
    ((s.apply g t eff).setPc t p).unpaid g e = s.unpaid g e := by
  refine State.unpaid_congr (by cases hm <;> rfl) (by cases hm <;> rfl) ?_
  by_cases ht : (g.edge e).consumer = t
  · rw [ht, setPc_pc_self, hpc]
    cases hm <;> rfl
  · exact unpaid_of_ne (a := .run t ans) ht

/-- The steps of the producer: it writes a member, and then counts its tokens. -/
theorem ProdMove.stock {ans : Answer} {cmd : Command} {w err : Bool} {q : ProdPc}
    (hi : RingPlace g s) (hpc : s.pc t = .prod t cmd w err q)
    (hm : ProdMove g s t cmd w err ans q eff p) (hr : (g.edge e).attr.type = .ring) :
    Stock.Flow 64 (g.edge e).attr.nrProduce (s.stock g e)
      (((s.apply g t eff).setPc t p).stock g e) := by
  have hunpaid := hm.unpaid (e := e) hpc
  have hkeep : (s.apply g t eff).nrPending e = s.nrPending e →
      (s.apply g t eff).data.queue e = s.data.queue e →
      ((g.edge e).producer = t → p.uncounted e = (s.pc t).uncounted e) →
      Stock.Flow 64 (g.edge e).attr.nrProduce (s.stock g e)
        (((s.apply g t eff).setPc t p).stock g e) := by
    intro hpend hqueue hunc
    exact .keep hpend (congrArg List.length hqueue) (uncounted_keep (a := .run t ans) hunc) hunpaid
  -- the edge in hand is an out-edge of the thread's node
  have hplace := hi.place t t cmd w err q hpc
  have hsends := hi.sends t t cmd w err q hpc
  cases hm with
  | cvEdge i e' tw hi' hb hd =>
    refine hkeep rfl rfl (fun _ => ?_)
    have hne : e' ≠ e := by
      rintro rfl
      rw [Edge.isDataPassing, hr] at hd
      cases hd
    rw [hpc]
    cases cmd
    · exact if_neg hne
    · rfl
  | ringCmd i e' tw hi' hc => exact hkeep rfl rfl (fun _ => by rw [hpc, hc]; rfl)
  | write | written => exact hsends.elim
  | ringWrite i e' x tw hlt =>
    obtain rfl : cmd = .normal := hsends
    by_cases he : e' = e
    · subst he
      have hprod : (g.edge e').producer = t := (Graph.mem_outEdges.mp (List.mem_of_getElem? hplace)).2
      refine .put rfl ?_ ?_ hunpaid
      · simp [State.stock, State.apply, State.setPc]
      · simp [State.stock, hprod, hpc, Pc.uncounted]
    · refine hkeep rfl ?_ (fun _ => ?_)
      · simp [State.apply, Ne.symm he]
      · rw [hpc]
        exact if_neg he
  | tokens i e' tw hc =>
    subst hc
    by_cases he : e' = e
    · subst he
      have hprod : (g.edge e').producer = t := (Graph.mem_outEdges.mp (List.mem_of_getElem? hplace)).2
      refine .count ?_ rfl ?_ hunpaid
      · simp [State.stock, State.apply, State.setPc]
      · simp [State.stock, hprod, hpc, Pc.uncounted]
    · refine hkeep ?_ rfl (fun _ => ?_)
      · simp [State.apply, Ne.symm he]
      · rw [hpc]
        exact (if_neg he).symm
  | termSignal i e' tw hc => exact hkeep rfl rfl (fun _ => by rw [hpc, hc]; rfl)
  | done => exact hkeep rfl rfl (fun _ => by rw [hpc]; cases cmd <;> rfl)
  | _ => exact hkeep rfl rfl (fun _ => by rw [hpc]; cases cmd <;> rfl)

/-- What a step does to a ring edge. Once the token side of the consumer has ended, members may be
left over that it will not pay for. -/
inductive RingStep (g : Graph) (s s' : State) (eff : Effect) (e : Nat) : Prop
  | flow (h : Stock.Flow 64 (g.edge e).attr.nrProduce (s.stock g e) (s'.stock g e))
  | pay (heff : eff = .subTokens e)
      (h : Stock.Pays 64 (g.edge e).attr.nrProduce (s.stock g e) (s'.stock g e))
  | lapse (hend : Ending s' (g.edge e).consumer) (h : Stock.Lapses (s.stock g e) (s'.stock g e))

/-- What the test finds out about a signaled edge: a ring has a member to take. -/
def backed (g : Graph) (s : State) (e : Nat) : Bool :=
  (g.edge e).isSignalDriven && decide ((g.edge e).attr.type = .ring → s.nrSkips e = 0 →
    (s.stock g e).Backed)

/-- The members a wait takes are there from its test to its last subtraction. -/
def RingGrant (g : Graph) (s : State) (n : Nat) : Prop :=
  GrantInv g (backed g) (fun s e => (g.edge e).attr.type = .ring → (s.stock g e).Backed) s n

theorem backed_iff : backed g s e = true ↔ (g.edge e).isSignalDriven = true ∧
    ((g.edge e).attr.type = .ring → s.nrSkips e = 0 → (s.stock g e).Backed) := by
  rw [backed, Bool.and_eq_true, decide_eq_true_eq]

theorem WaitMove.uncounted {ans : Answer} {w : WaitPc} (hpc : s.pc t = .wait w)
    (hm : WaitMove g s t ans w eff p) :
    (((s.apply g t eff).setPc t p).pc (g.edge e).producer).uncounted e =
      (s.pc (g.edge e).producer).uncounted e := by
  refine uncounted_keep (a := .run t ans) (fun _ => ?_)
  simp only [Act.thread]
  rw [hpc]
  cases hm <;> rfl

theorem WaitMove.stock_of_ne {ans : Answer} {w : WaitPc} (hg : CvRingGraph g)
    (hi : RingPlace g s) (hpc : s.pc t = .wait w) (hm : WaitMove g s t ans w eff p)
    (hr : (g.edge e).attr.type = .ring) (hc : (g.edge e).consumer ≠ t) :
    Stock.Flow 64 (g.edge e).attr.nrProduce (s.stock g e)
      (((s.apply g t eff).setPc t p).stock g e) := by
  have hM : Move g s (.run t ans) eff p := .wait t ans w eff p hpc hm
  have hin := mem_in_of_ring hr
  have hadd : eff ≠ .addTokens e := by
    rintro rfl
    cases hm
  have hnot : e ∉ g.inEdges t := fun h => hc (Graph.mem_inEdges_consumer h)
  have hown : OwnerActs (.run t ans) := True.intro
  refine .keep (foreign_nrPending hM hc hin hadd) ?_ (hm.uncounted hpc) ?_
  · exact congrArg List.length (hm.queue_of_ne hg hi hpc hnot)
  · exact State.unpaid_congr (hM.terminated_of_ne hown hc) (foreign_nrSkips hM hc hin)
      (unpaid_of_ne (a := .run t ans) hc)

/-! The wait of the consumer. It has not terminated, so only its place and the skips of the edge
say what it has not paid for. -/

theorem unpaid_of_wait {w : WaitPc} (hwait : NotEnded s) (hpc : s.pc t = .wait w)
    (hc : (g.edge e).consumer = t) :
    s.unpaid g e = if s.nrSkips e = 0 then (Pc.wait w).unpaid g t e else 0 := by
  unfold State.unpaid
  rw [hc, hwait t w hpc, hpc]
  rfl

theorem unpaid_after (s : State) (eff : Effect) (p : Pc) (hc : (g.edge e).consumer = t)
    (ht : (s.apply g t eff).terminated t = false) :
    ((s.apply g t eff).setPc t p).unpaid g e =
      if (s.apply g t eff).nrSkips e = 0 then p.unpaid g t e else 0 := by
  unfold State.unpaid
  rw [hc, setPc_pc_self]
  change (if (s.apply g t eff).terminated t = true then 1 else _) = _
  rw [ht]
  rfl

/-- A step of the wait that moves neither tokens nor members. -/
theorem WaitMove.ringKeep {ans : Answer} {w : WaitPc} (hwait : NotEnded s)
    (hpc : s.pc t = .wait w) (hm : WaitMove g s t ans w eff p) (hc : (g.edge e).consumer = t)
    (hpend : (s.apply g t eff).nrPending e = s.nrPending e)
    (hqueue : (s.apply g t eff).data.queue e = s.data.queue e)
    (hterm : (s.apply g t eff).terminated t = s.terminated t)
    (hskips : (s.apply g t eff).nrSkips e = s.nrSkips e)
    (hu : s.nrSkips e = 0 → p.unpaid g t e = (Pc.wait w).unpaid g t e) :
    RingStep g s ((s.apply g t eff).setPc t p) eff e := by
  refine .flow (.keep hpend (congrArg List.length hqueue) (hm.uncounted hpc) ?_)
  change State.unpaid g _ e = State.unpaid g s e
  rw [unpaid_after s eff p hc (hterm.trans (hwait t w hpc)), unpaid_of_wait hwait hpc hc, hskips]
  split_ifs with h0
  · exact hu h0
  · rfl

/-- A step of the wait after which the token side has ended. -/
theorem WaitMove.ringLapse {ans : Answer} {w : WaitPc} (hpc : s.pc t = .wait w)
    (hm : WaitMove g s t ans w eff p) (hc : (g.edge e).consumer = t)
    (hpend : (s.apply g t eff).nrPending e = s.nrPending e)
    (hqueue : (s.apply g t eff).data.queue e = s.data.queue e) (hends : p.ends = true)
    (hu : s.unpaid g e ≤ ((s.apply g t eff).setPc t p).unpaid g e) :
    RingStep g s ((s.apply g t eff).setPc t p) eff e := by
  refine .lapse (Or.inr ?_) ⟨hpend, congrArg List.length hqueue, hm.uncounted hpc, hu⟩
  rw [hc, setPc_pc_self]
  exact hends

/-- A wait whose test succeeded finds a member in each ring that it has not read yet. -/
theorem RingGrant.queue_ne {r : Recv} (hg : CvRingGraph g) (hwait : NotEnded s)
    (hgrant : RingGrant g s t) (hpc : s.pc t = .wait (.recv .success r))
    (hr : (g.edge e).attr.type = .ring) (hi : (g.inEdges t)[r.pc.pos]? = some e)
    (hskips : s.nrSkips e = 0) : s.data.queue e ≠ [] := by
  intro hnil
  have hin := List.mem_of_getElem? hi
  have hc := Graph.mem_inEdges_consumer hin
  have hback := (backed_iff.mp (hgrant.granted _ hpc rfl e hin (hg.signaled hin))).2 hr hskips
  have hnone : (s.stock g e).unpaid = 0 := by
    change s.unpaid g e = 0
    rw [unpaid_of_wait hwait hpc hc, if_pos hskips]
    exact if_neg (Scan.not_mem_take (g.inEdges_nodup t) hi)
  have hempty : (s.stock g e).queued = 0 := by simp [State.stock, hnil]
  unfold Stock.Backed at hback
  omega

/-- A step of `pgm_recv_data` that passes the ring by. An empty ring is passed by only when the
token side has ended. -/
theorem WaitMove.ringPass {ans : Answer} {tok : WaitStatus} {r r' : Recv} {d : Data}
    (hg : CvRingGraph g) (hwait : NotEnded s) (hgrant : RingGrant g s t)
    (hpc : s.pc t = .wait (.recv tok r))
    (hm : WaitMove g s t ans (.recv tok r) (.data d) (.wait (.recv tok r')))
    (hr : (g.edge e).attr.type = .ring) (hq : d.queue = s.data.queue)
    (hi : (g.inEdges t)[r.pc.pos]? = some e) (hpos : r'.pc.pos = r.pc.pos + 1)
    (hor : ¬ Active g t s.nrSkips r.pc.pos e ∨ s.data.queue e = []) :
    RingStep g s ((s.apply g t (.data d)).setPc t (.wait (.recv tok r'))) (.data d) e := by
  have hc := Graph.mem_inEdges_consumer (List.mem_of_getElem? hi)
  have hkeep := hm.ringKeep hwait hpc hc rfl (congrFun hq e) rfl rfl
  rcases hor with hna | hnil
  · exact hkeep (fun hsk => absurd ⟨hi, ringData hr, hsk⟩ hna)
  · rcases hgrant.status _ tok hpc rfl with rfl | rfl
    · exact hkeep (fun hsk => absurd hnil (hgrant.queue_ne hg hwait hpc hr hi hsk))
    · refine hm.ringLapse hpc hc rfl (congrFun hq e) rfl ?_
      rw [unpaid_after s (.data d) _ hc (hwait t _ hpc), unpaid_of_wait hwait hpc hc]
      have hmem : e ∈ (g.inEdges t).take r'.pc.pos := by
        rw [hpos, Scan.mem_take_succ hi]
        exact Or.inr rfl
      simp only [State.apply, Pc.unpaid, hmem, if_true]
      split_ifs <;> omega

theorem WaitMove.ringRecv {ans : Answer} {tok : WaitStatus} {r r' : Recv} {d : Data}
    (hg : CvRingGraph g) (hwait : NotEnded s) (hgrant : RingGrant g s t)
    (hpc : s.pc t = .wait (.recv tok r))
    (hm : WaitMove g s t ans (.recv tok r) (.data d) (.wait (.recv tok r')))
    (hr : (g.edge e).attr.type = .ring) (hc : (g.edge e).consumer = t)
    (hread : RingMove g t s.nrSkips s.data r d (.more r')) :
    RingStep g s ((s.apply g t (.data d)).setPc t (.wait (.recv tok r'))) (.data d) e := by
  cases hread with
  | stay _ hq hpos =>
    exact hm.ringKeep hwait hpc hc rfl (congrFun hq e) rfl rfl
      (fun _ => by simp only [Pc.unpaid, hpos])
  | pass _ e' hq hi hpos hor =>
    by_cases he : e' = e
    · subst he
      exact hm.ringPass hg hwait hgrant hpc hr hq hi hpos hor
    · refine hm.ringKeep hwait hpc hc rfl (congrFun hq e) rfl rfl (fun _ => ?_)
      simp [Pc.unpaid, hpos, Scan.mem_take_succ hi, Ne.symm he]
  | take _ e' x q ha hx hq hpos =>
    by_cases he : e' = e
    · subst he
      refine .flow (.take rfl ?_ (hm.uncounted hpc) ?_)
      · change (s.data.queue e').length = (d.queue e').length + 1
        rw [hq, hx, Function.update_self]
        rfl
      · change State.unpaid g _ e' = State.unpaid g s e' + 1
        rw [unpaid_after s (.data d) _ hc (hwait t _ hpc), unpaid_of_wait hwait hpc hc]
        have hsk : s.nrSkips e' = 0 := ha.2.2
        have hnot := Scan.not_mem_take (g.inEdges_nodup t) ha.1
        simp [State.apply, hsk, Pc.unpaid, hpos, Scan.mem_take_succ ha.1, hnot]
    · refine hm.ringKeep hwait hpc hc rfl ?_ rfl rfl (fun _ => ?_)
      · exact (congrFun hq e).trans (Function.update_of_ne (Ne.symm he) _ _)
      · simp [Pc.unpaid, hpos, Scan.mem_take_succ ha.1, Ne.symm he]

theorem WaitMove.ringStep {ans : Answer} {w : WaitPc} (hg : CvRingGraph g) (hi : RingPlace g s)
    (hwait : NotEnded s) (hgrant : RingGrant g s t) (hpc : s.pc t = .wait w)
    (hm : WaitMove g s t ans w eff p) (hr : (g.edge e).attr.type = .ring)
    (hc : (g.edge e).consumer = t) :
    RingStep g s ((s.apply g t eff).setPc t p) eff e := by
  have hin : e ∈ g.inEdges t := hc ▸ mem_in_of_ring hr
  have hterm := hwait t w hpc
  have hunc := hm.uncounted (e := e) hpc
  have hbefore := unpaid_of_wait hwait hpc hc
  have hkeep := hm.ringKeep hwait hpc hc
  have hlapse := hm.ringLapse hpc hc
  cases hm with
  | allReady l | someReady l | noTerm l | allTerm l | notAllTerm l =>
    exact hkeep rfl rfl rfl rfl (fun _ => by cases l <;> rfl)
  | noData tok h => exact absurd h (nrInData_ne hin hr)
  | recvStart tok r h hr' =>
    refine hkeep rfl rfl rfl rfl (fun _ => ?_)
    simp [Pc.unpaid, (recvStart_ringOnly hg hr').1, RecvPc.pos]
  | recvNone tok st h hr' =>
    refine hkeep rfl rfl rfl rfl (fun hsk => ?_)
    obtain ⟨j, hj⟩ := List.mem_iff_getElem?.mp hin
    exact absurd ⟨hj, ringData hr, hsk⟩ (not_active_of_recvStart_done hr' j e)
  | recv tok r r' d h =>
    exact WaitMove.ringRecv hg hwait hgrant hpc (.recv tok r r' d h) hr hc
      ((recvStep_move h).ring hg (hi.recv t tok r hpc))
  | recvDone tok st r d h =>
    cases (recvStep_move h).ring hg (hi.recv t tok r hpc) with
    | out _ hq hend =>
      refine hkeep rfl (congrFun hq e) rfl rfl (fun _ => ?_)
      simp only [Pc.unpaid, Scan.take_of_end hend, hin, if_true]
  | toConsume tok dat h hret =>
    refine hkeep rfl rfl rfl rfl (fun _ => ?_)
    simp [Pc.unpaid, hin]
  | toSkips tok dat h =>
    have hret : waitRet tok dat = .terminate := by
      by_contra hne
      exact h ⟨nrInSignaled_ne hg hin, hne⟩
    exact hkeep rfl rfl rfl rfl (fun _ => by rw [hret]; rfl)
  | consume ret i e' hi' h =>
    by_cases he : e' = e
    · subst he
      refine .pay rfl ⟨?_, rfl, hunc, ?_⟩
      · simp [State.stock, State.apply, State.setPc,
          ((g.edge e').accepted.ring (by rw [hr]; rfl)).1]
      · change State.unpaid g s e' = State.unpaid g _ e' + 1
        rw [unpaid_after s (.subTokens e') _ hc hterm, hbefore]
        have hnot := Scan.not_mem_drop_succ (g.inEdges_nodup t) hi'
        simp [State.apply, h.2, Pc.unpaid, hnot, Scan.mem_drop_iff hi']
    · refine hkeep ?_ rfl rfl rfl (fun _ => ?_)
      · simp [State.apply, Ne.symm he]
      · simp [Pc.unpaid, Scan.mem_drop_iff hi', Ne.symm he]
  | consumePass ret i e' hi' h =>
    refine hkeep rfl rfl rfl rfl (fun hsk => ?_)
    have hne : e ≠ e' := by
      rintro rfl
      exact h ⟨hg.signaled hin, hsk⟩
    simp [Pc.unpaid, Scan.mem_drop_iff hi', hne]
  | consumed ret i hend =>
    have hzero : (Pc.wait (.consume ret i)).unpaid g t e = 0 := by
      simp [Pc.unpaid, Scan.drop_of_end hend]
    cases ret with
    | terminate =>
      refine hlapse rfl rfl rfl ?_
      rw [hbefore, hzero, ite_self]
      exact Nat.zero_le _
    | _ => exact hkeep rfl rfl rfl rfl (fun _ => hzero.symm)
  | skip ret i e' hi' h =>
    by_cases he : e' = e
    · subst he
      have hzero : s.unpaid g e' = 0 := by rw [hbefore, if_neg (by omega)]
      cases ret with
      | terminate =>
        refine hlapse rfl rfl rfl ?_
        rw [hzero]
        exact Nat.zero_le _
      | _ =>
        refine .flow (.keep rfl rfl hunc ?_)
        change State.unpaid g _ e' = s.unpaid g e'
        rw [unpaid_after s (.decSkips e') _ hc hterm, hzero]
        exact ite_self _
    · refine hkeep rfl rfl rfl ?_ (fun _ => by cases ret <;> rfl)
      simp [State.apply, Ne.symm he]
  | skipPass ret i e' hi' h => exact hkeep rfl rfl rfl rfl (fun _ => by cases ret <;> rfl)
  | terminate i hend =>
    have hone : ((s.apply g t (.terminate t)).setPc t
        (.prod t .terminate true false (.send 0 []))).unpaid g e = 1 := by
      simp [State.unpaid, hc, State.apply, State.setPc]
    refine .lapse (Or.inl ?_) ⟨rfl, rfl, hunc, ?_⟩
    · simp [hc, State.apply, State.setPc]
    · exact (s.unpaid_le g e).trans_eq hone.symm
  | _ => exact hkeep rfl rfl rfl rfl (fun _ => rfl)

/-- A step that leaves memory alone and does not come from a call in the middle. -/
theorem stock_of_pc (hpend : (s.apply g a.thread eff).nrPending e = s.nrPending e)
    (hqueue : (s.apply g a.thread eff).data.queue e = s.data.queue e)
    (hskips : (s.apply g a.thread eff).nrSkips e = s.nrSkips e)
    (hterm : (s.apply g a.thread eff).terminated (g.edge e).consumer =
      s.terminated (g.edge e).consumer)
    (hunc : p.uncounted e = (s.pc a.thread).uncounted e)
    (hunp : p.unpaid g a.thread e = (s.pc a.thread).unpaid g a.thread e) :
    Stock.Flow 64 (g.edge e).attr.nrProduce (s.stock g e)
      (((s.apply g a.thread eff).setPc a.thread p).stock g e) := by
  refine .keep hpend (congrArg List.length hqueue) (uncounted_keep (fun _ => hunc)) ?_
  refine State.unpaid_congr hterm hskips ?_
  by_cases hc : (g.edge e).consumer = a.thread
  · rw [hc, setPc_pc_self]
    exact hunp
  · exact unpaid_of_ne hc

/-- **One step of a ring edge.** -/
theorem Move.ringStep (hg : CvRingGraph g) (ha : OwnerActs a) (hi : RingPlace g s)
    (hwait : NotEnded s) (hgrant : ∀ n, RingGrant g s n) (hm : Move g s a eff p)
    (hr : (g.edge e).attr.type = .ring) :
    RingStep g s ((s.apply g a.thread eff).setPc a.thread p) eff e := by
  cases hm with
  | callWait n last hpc | callComplete t n last hpc | spurious t hpc =>
    refine .flow (stock_of_pc rfl rfl rfl rfl ?_ ?_) <;> simp only [Act.thread] <;> rw [hpc] <;> rfl
  | callTerminate t n last hpc =>
    obtain rfl : t = n := ha
    by_cases hc : (g.edge e).consumer = t
    · have hone : ((s.apply g t (.terminate t)).setPc t
          (.prod t .terminate false false (.send 0 []))).unpaid g e = 1 := by
        simp [State.unpaid, hc, State.apply, State.setPc]
      refine .lapse (Or.inl ?_) ⟨rfl, rfl, ?_, (s.unpaid_le g e).trans_eq hone.symm⟩
      · simp [hc, State.apply, State.setPc, Act.thread]
      · exact uncounted_keep (fun _ => by simp only [Act.thread]; rw [hpc]; rfl)
    · refine .flow (stock_of_pc rfl rfl rfl ?_ ?_ ?_)
      · simp [State.apply, hc]
      · simp only [Act.thread]; rw [hpc]; rfl
      · simp only [Act.thread]; rw [hpc]; rfl
  | wait t ans w eff p hpc hm =>
    by_cases hc : (g.edge e).consumer = t
    · exact hm.ringStep hg hi hwait (hgrant t) hpc hr hc
    · exact .flow (hm.stock_of_ne hg hi hpc hr hc)
  | prod t n ans cmd w err q eff p hpc hm =>
    obtain rfl := hi.owner t n cmd w err q hpc
    exact .flow (hm.stock hi hpc hr)

/-! ## Every run -/

theorem WaitMove.ends {ans : Answer} {w : WaitPc} (hn : g.nrInSignaled t ≠ 0)
    (htest : Tested g s (.run t ans)) (hpc : s.pc t = .wait w) (hm : WaitMove g s t ans w eff p)
    (hw : w.ends = true) : (s.apply g t eff).terminated t = true ∨ p.ends = true := by
  cases hm with
  | terminate i hi => exact Or.inl (by simp [State.apply])
  | toConsume tok dat h hr =>
    cases tok with
    | exhaustedAndTerminate => simp [Tested, consumesExhausted, hpc, h, hr] at htest
    | _ => cases hw
  | toSkips tok dat h =>
    have hret : waitRet tok dat = .terminate := by
      by_contra hne
      exact h ⟨hn, hne⟩
    rw [hret]
    exact Or.inr rfl
  | unlock tok | noData tok | recvStart tok | recvNone tok | recv tok | recvDone tok =>
    cases tok with
    | exhaustedAndTerminate => exact Or.inr rfl
    | _ => cases hw
  | skip ret | skipPass ret =>
    cases ret with
    | terminate => exact Or.inr rfl
    | _ => cases hw
  | _ => cases hw

theorem Move.ending (htest : Tested g s a) (hm : Move g s a eff p) (hn : g.nrInSignaled n ≠ 0)
    (h : Ending s n) : Ending ((s.apply g a.thread eff).setPc a.thread p) n := by
  rcases h with hterm | hends
  · exact Or.inl (terminated_mono hterm)
  · by_cases ht : n = a.thread
    · subst ht
      unfold Ending
      rw [setPc_pc_self]
      cases hm with
      | callWait n last hpc | callComplete t n last hpc | callTerminate t n last hpc
      | spurious t hpc | prod t m ans cmd w err q eff p hpc hm =>
        simp only [Act.thread] at hends
        rw [hpc] at hends
        cases hends
      | wait t ans w eff p hpc hm =>
        simp only [Act.thread] at hends
        rw [hpc] at hends
        exact hm.ends hn htest hpc hends
    · rcases pc_of_ne (g := g) (s := s) eff p ht with heq | ⟨-, hasleep, -⟩
      · exact Or.inr (heq ▸ hends)
      · rw [hasleep] at hends
        cases hends

structure RingInv (g : Graph) (s : State) : Prop where
  place : RingPlace g s
  waiting : NotEnded s
  grant : ∀ n, RingGrant g s n
  even : ∀ e, (g.edge e).attr.type = .ring → ¬ Ending s (g.edge e).consumer →
    (s.stock g e).Even 64 (g.edge e).attr.nrProduce
  covered : ∀ e, (g.edge e).attr.type = .ring → (s.stock g e).Covered (g.edge e).attr.nrProduce

theorem not_ending {w : WaitPc} (hi : NotEnded s) (hpc : s.pc n = .wait w)
    (hw : w.ends = false) : ¬ Ending s n := by
  rintro (hterm | hends)
  · rw [hi n w hpc] at hterm
    cases hterm
  · rw [hpc] at hends
    cases hw.symm.trans hends

/-- What the test calls ready has a member behind it. -/
theorem RingInv.backed_of_ready (hi : RingInv g s) {w : WaitPc} (hpc : s.pc n = .wait w)
    (hw : w.ends = false) (he : e ∈ g.inEdges n) (hready : readyEdge g s e = true) :
    backed g s e = true := by
  obtain ⟨hs, hor⟩ := readyEdge_iff.mp hready
  refine backed_iff.mpr ⟨hs, fun hr hsk => ?_⟩
  have hle : (g.edge e).attr.nrThreshold ≤ s.nrPending e := hor.resolve_right (by omega)
  have hend : ¬ Ending s (g.edge e).consumer := by
    rw [Graph.mem_inEdges_consumer he]
    exact not_ending hi.waiting hpc hw
  refine (hi.even e hr hend).backed (Nat.pos_iff_ne_zero.mp ?_)
  have hacc := (g.edge e).accepted
  exact (hacc.consume_pos.trans_le hacc.threshold).trans_le hle

theorem RingStep.backed (h : RingStep g s s' eff e) (heff : eff ≠ .subTokens e)
    (hb : (s.stock g e).Backed) : (s'.stock g e).Backed := by
  cases h with
  | flow h => exact hb.flow h
  | pay h => exact absurd h heff
  | lapse _ h => exact hb.lapse h

theorem RingInv.keeps (hg : CvRingGraph g) (ha : OwnerActs a) (hi : RingInv g s)
    (hm : Move g s a eff p) (n : Nat) :
    Keeps g (backed g) (fun s e => (g.edge e).attr.type = .ring → (s.stock g e).Backed) s
      ((s.apply g a.thread eff).setPc a.thread p) eff n := by
  refine ⟨fun e h => (backed_iff.mp h).1, fun l i r rn hpc e he => hi.backed_of_ready hpc rfl he,
    fun e _ h hsk hr => (backed_iff.mp h).2 hr hsk, fun e _ hsub hdec h => ?_,
    fun e _ hsub _ h hr => (hm.ringStep hg ha hi.place hi.waiting hi.grant hr).backed hsub (h hr)⟩
  obtain ⟨hs, hb⟩ := backed_iff.mp h
  refine backed_iff.mpr ⟨hs, fun hr hsk => ?_⟩
  exact (hm.ringStep hg ha hi.place hi.waiting hi.grant hr).backed hsub
    (hb hr ((nrSkips_eq hdec).symm.trans hsk))

/-- A payment is made by a wait that has not ended, for a member that is there. -/
theorem RingInv.pays (hi : RingInv g s) (hm : Move g s a (.subTokens e) p)
    (hr : (g.edge e).attr.type = .ring) :
    (s.stock g e).Even 64 (g.edge e).attr.nrProduce ∧ (s.stock g e).Backed := by
  refine ⟨hi.even e hr ?_, hm.takes hi.grant hr⟩
  obtain ⟨ret, i, hpc, he, -⟩ := hm.consuming
  rw [Graph.mem_inEdges_consumer (List.mem_of_getElem? he)]
  exact not_ending hi.waiting hpc rfl

theorem step_ringInv (hg : CvRingGraph g) (ha : ByOwner s a) (htest : Tested g s a)
    (hi : RingInv g s) (h : step g s a = some s') : RingInv g s' := by
  have hplace := step_ringPlace hg ha.ownerActs hi.place h
  have hwait := step_notEnded ha hi.waiting h
  obtain ⟨eff, p, hm, rfl⟩ := step_move h
  have hpay : ∀ e, (g.edge e).attr.type = .ring → eff = .subTokens e →
      (s.stock g e).Even 64 (g.edge e).attr.nrProduce ∧ (s.stock g e).Backed := by
    rintro e hr rfl
    exact hi.pays hm hr
  have hacc : ∀ e, 0 < (g.edge e).attr.nrProduce ∧ (g.edge e).attr.nrProduce ≤ 2 ^ 64 :=
    fun e => ⟨(g.edge e).accepted.produce_pos, (g.edge e).accepted.produce_lt.le⟩
  refine ⟨hplace, hwait, fun n => step_grantInv htest hm (hi.keeps hg ha.ownerActs hm n) (hi.grant n),
    fun e hr hend => ?_, fun e hr => ?_⟩
  · have hold : ¬ Ending s (g.edge e).consumer := fun h =>
      hend (hm.ending htest (nrInSignaled_ne hg (mem_in_of_ring hr)) h)
    cases hm.ringStep hg ha.ownerActs hi.place hi.waiting hi.grant hr with
    | flow h => exact (hi.even e hr hold).flow h
    | pay heff h => exact (hi.even e hr hold).pay (hpay e hr heff).2 (hacc e).1 (hacc e).2 h
    | lapse hend' h => exact absurd hend' hend
  · cases hm.ringStep hg ha.ownerActs hi.place hi.waiting hi.grant hr with
    | flow h => exact (hi.covered e hr).flow h
    | pay heff h =>
      obtain ⟨heven, hback⟩ := hpay e hr heff
      exact (heven.pay hback (hacc e).1 (hacc e).2 h).covered
    | lapse hend' h => exact (hi.covered e hr).lapse h

theorem initState_ringInv (junk : Junk) (g : Graph) : RingInv g (initState junk g) := by
  have heven : ∀ e, (g.edge e).attr.type = .ring →
      ((initState junk g).stock g e).Even 64 (g.edge e).attr.nrProduce := by
    intro e hr
    refine ⟨0, ?_, ?_⟩
    · have hunpaid : (initState junk g).unpaid g e = 0 := ite_self 0
      simp only [State.stock, hunpaid]
      rfl
    · simp [State.stock, initState, initPending, hr]
  exact ⟨initState_ringPlace junk g, by rintro _ _ ⟨⟩, initState_grantInv junk g _ _,
    fun e hr _ => heven e hr, fun e hr => (heven e hr).covered⟩

theorem ringInv_of_reach (hg : CvRingGraph g)
    (h : Lts.Reach (step g) (fun s a => ByOwner s a ∧ Tested g s a) (initState junk g) s) :
    RingInv g s :=
  Lts.Reach.inv (I := RingInv g) (initState_ringInv junk g)
    (fun _ _ _ _ hi hp hs => step_ringInv hg hp.1 hp.2 hi hs) h

/-- **Tokens and ring contents.** A wait whose test has succeeded finds a member in every ring that
it reads. The counter of a ring is at most that of the members in the ring, and one more from the
consumer's pass over the edge to its subtraction, or for good once the consumer has ended. -/
theorem tokens_match_ring (hg : CvRingGraph g)
    (h : Lts.Reach (step g) (fun s a => ByOwner s a ∧ Tested g s a) (initState junk g) s) :
    (∀ e, (g.edge e).attr.type = .ring →
      s.nrPending e ≤ (g.edge e).attr.nrProduce * ((s.data.queue e).length + s.unpaid g e)) ∧
    ∀ n r i e, s.pc n = .wait (.recv .success r) → r.pc = .ringRead i e → s.data.queue e ≠ [] := by
  have hi := ringInv_of_reach hg h
  refine ⟨fun e hr => ?_, fun n r i e hpc hrpc hnil => ?_⟩
  · exact le_trans (Nat.le_add_right _ _) (hi.covered e hr)
  · have hplace := hi.place.recv n _ r hpc
    unfold Recv.RingOnly at hplace
    rw [hrpc] at hplace
    have hactive : Active g n s.nrSkips i e := hplace
    have hin := hactive.mem
    have hr : (g.edge e).attr.type = .ring := by
      have := hg.isRing hin hactive.2.1
      rcases hg.edge hin with h | h
      · rw [h] at this
        cases this
      · exact h
    have hback := (backed_iff.mp ((hi.grant n).granted _ hpc rfl e hin (hg.signaled hin))).2 hr
      hactive.2.2
    have hunpaid : s.unpaid g e = 0 := by
      have hnot := Scan.not_mem_take (g.inEdges_nodup n) hactive.1
      simp [State.unpaid, Graph.mem_inEdges_consumer hin, hi.waiting n _ hpc, hpc, Pc.unpaid,
        hrpc, RecvPc.pos, hnot]
    simp [Stock.Backed, State.stock, hnil, hunpaid] at hback

end

/-! ## A ring between two nodes -/

/-- A ring of one member that carries single bytes. -/
def ringPair : Graph := .pair (ringAttrOf 1 1 1) ring_accepted

/-- A member is sent, and the wait is about to read it. -/
def ringRun : List Act :=
  List.flatten [[.complete 0 0, .run 0 (.user [7])], runs 0 9, [.wait 1], runs 1 6]

/-- Where a wait with tokens is in `pgm_recv_data`. -/
def Pc.grantedRead : Pc → Option RecvPc
  | .wait (.recv .success r) => some r.pc
  | _ => none

theorem Pc.grantedRead_eq {p : Pc} {q : RecvPc} (h : p.grantedRead = some q) :
    ∃ r, p = .wait (.recv .success r) ∧ r.pc = q := by
  unfold Pc.grantedRead at h
  split at h
  · cases h
    exact ⟨_, rfl, rfl⟩
  · cases h

/-- Between the read of the ring and the subtraction the counter is ahead of the ring. -/
theorem ring_read_ahead :
    ∃ s, Lts.Reach (step ringPair) (fun s a => ByOwner s a ∧ Tested ringPair s a)
        (initState zeroed ringPair) s ∧ (ringPair.edge 0).attr.type = .ring ∧ s.terminated 0 = false ∧
      (ringPair.edge 0).attr.nrProduce * (s.data.queue 0).length < s.nrPending 0 := by
  have hd : (Lts.drive (step ringPair) (fun s a => decide (ByOwner s a ∧ Tested ringPair s a))
      (initState zeroed ringPair) (ringRun ++ runs 1 1)).map
        (fun s => (s.terminated 0, s.data.queue 0, s.nrPending 0)) = some (false, [], 1) := rfl
  obtain ⟨s, hs, hobs⟩ := Lts.reach_of_drive_map (fun s a h => of_decide_eq_true h) hd
  simp only [Prod.mk.injEq] at hobs
  obtain ⟨hterm, hqueue, hpend⟩ := hobs
  exact ⟨s, hs, rfl, hterm, by rw [hqueue, hpend]; decide⟩

/-- Before the read both are there. -/
theorem ring_read_matched :
    CvRingGraph ringPair ∧
    ∃ s, Lts.Reach (step ringPair) (fun s a => ByOwner s a ∧ Tested ringPair s a)
        (initState zeroed ringPair) s ∧ (∃ r, s.pc 1 = .wait (.recv .success r) ∧ r.pc = .ringRead 0 0) ∧
      s.nrPending 0 ≤ 1 * ((s.data.queue 0).length + s.unpaid ringPair 0) ∧
      s.data.queue 0 ≠ [] := by
  have hg : CvRingGraph ringPair := by decide
  have hd : (Lts.drive (step ringPair) (fun s a => decide (ByOwner s a ∧ Tested ringPair s a))
      (initState zeroed ringPair) ringRun).map (fun s => (s.pc 1).grantedRead) =
        some (some (.ringRead 0 0)) := rfl
  obtain ⟨s, hs, hobs⟩ := Lts.reach_of_drive_map (fun s a h => of_decide_eq_true h) hd
  obtain ⟨r, hpc, hr⟩ := Pc.grantedRead_eq hobs
  have hmatch := tokens_match_ring hg hs
  exact ⟨hg, s, hs, ⟨r, hpc, hr⟩, hmatch.1 0 rfl, hmatch.2 1 r 0 0 hpc hr⟩

end Pgm
