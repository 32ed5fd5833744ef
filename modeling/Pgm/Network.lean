import Pgm.Count
import Pgm.Lib.Kahn
import Pgm.RingTokens
import Pgm.Workers

/-! A graph of cv and ring edges, run by the threads of `pgmrt`, is a network of processes. The run
is watched: `record` notes the members that are written into the rings and what the buffers hold when
a wait returns 0. The recorded runs are runs of the network. As in every running graph, an edge has a
ring of its own, large enough for its members.

* `step_netInv`: one step of the threads is a step of the network or none, and the rings and the
  buffers hold what the network says;
* `jobs_get_messages`: each job gets the member whose turn it is, none lost, doubled or exchanged;
* `messages_determined`: when what a node writes is a function of what its jobs were given, the
  members on an edge and what the jobs of a node are given do not depend on the schedule. -/

namespace Pgm

open Function (update)

/-- What was written into the rings, and what the jobs were given. -/
abbrev Record := Kahn.State Nat Nat (List UInt8)

def readsRing (g : Graph) (n e : Nat) : Bool :=
  decide (e ∈ g.inEdges n) && (g.edge e).attr.type.isRing

def network (junk : Junk) (g : Graph) : Kahn Nat Nat (List UInt8) where
  source := IsSrc g
  reads := readsRing g
  producer e := (g.edge e).producer
  skips e := (g.edge e).skips
  init := initBuf junk g
  other := []

def buffers (g : Graph) (s : State) (n : Nat) : Nat → List UInt8 :=
  fun e => if readsRing g n e then s.data.bufIn e else []

def record (g : Graph) (s : State) (h : Record) : Act → Record
  | .run t _ =>
    match s.pc t with
    | .prod _ _ _ _ (.ringWrite _ e x _) => { h with sent := update h.sent e (h.sent e ++ [x]) }
    | .wait (.skips .ok i) =>
      if ((g.inEdges t)[i]?).isNone then
        { h with jobs := update h.jobs t (h.jobs t ++ [buffers g s t]) }
      else h
    | _ => h
  | _ => h

def watch (g : Graph) (w : State × Record) (a : Act) : Option (State × Record) :=
  (step g w.1 a).map (fun s' => (s', record g w.1 w.2 a))

/-- What the user leaves in the buffer of an edge meets `P`. -/
def Writes (g : Graph) (P : Record → Nat → List UInt8 → Prop) (w : State × Record) : Act → Prop
  | .run t (.user x) => ∀ n b err i tw, w.1.pc t = .prod n .normal b err (.send i tw) →
      ∀ e, (g.outEdges n)[i]? = some e → P w.2 e x
  | _ => True

/-- The threads of `pgmrt`. No wait goes on to take tokens after its token side has ended. -/
def NetAct (g : Graph) (w : State × Record) (a : Act) : Prop :=
  WorkThread g w.1 a ∧ Tested g w.1 a

instance (g : Graph) (w : State × Record) (a : Act) : Decidable (NetAct g w a) :=
  inferInstanceAs (Decidable (_ ∧ _))

/-- What the producer of `e` computes next: `f e k js` for its job number `k`, having been given
`js`. -/
def nextMember (g : Graph) (f : Nat → Nat → List (Nat → List UInt8) → List UInt8) (h : Record)
    (e : Nat) : List UInt8 :=
  f e (h.sent e).length ((h.jobs (g.edge e).producer).take ((h.sent e).length + 1))

/-- What the user leaves in the buffer is what the node computes. -/
def computes (g : Graph) (f : Nat → Nat → List (Nat → List UInt8) → List UInt8)
    (w : State × Record) : Act → Bool
  | .run t (.user x) =>
    match w.1.pc t with
    | .prod n .normal _ _ (.send i _) =>
      match (g.outEdges n)[i]? with
      | some e => x == nextMember g f w.2 e
      | none => true
    | _ => true
  | _ => true

/-- The out-edges that the pass has not written to. -/
def ProdPc.toWrite (g : Graph) (n : Nat) : ProdPc → List Nat
  | .send i _ | .write i _ _ _ | .ringWrite i _ _ _ => (g.outEdges n).drop i
  | .tokens i _ _ => (g.outEdges n).drop (i + 1)
  | .wake _ | .recheck _ _ _ _ | .signal _ _ | .unlock _ _ => []

/-- 1 when a job is to be followed by a write to edge `e`. -/
def Pc.toWrite (g : Graph) (e : Nat) : Pc → Nat
  | .idle (some .ok) => 1
  | .prod n .normal _ _ q => if e ∈ q.toWrite g n then 1 else 0
  | _ => 0

/-- 1 when the running wait is past its read of the in-edge `e` of node `n`. -/
def Pc.hasRead (g : Graph) (n e : Nat) : Pc → Nat
  | .wait (.recv _ r) => if e ∈ (g.inEdges n).take r.pc.pos then 1 else 0
  | .wait (.dataDone _ _) | .wait (.consume _ _) | .wait (.skips _ _) => 1
  | _ => 0

/-- The members that node `n` has read from its in-edge `e`. -/
def State.nrRead (g : Graph) (s : State) (n e : Nat) : Nat :=
  s.fired n + (s.pc n).hasRead g n e - (g.edge e).skips

/-- The ring and the buffer of an in-edge of node `n`, after what was written to it. -/
structure RingHolds (junk : Junk) (g : Graph) (s : State) (sent : List (List UInt8)) (n e : Nat) :
    Prop where
  le : s.nrRead g n e ≤ sent.length
  queue : s.data.queue e = sent.drop (s.nrRead g n e)
  buf : s.data.bufIn e =
    if s.nrRead g n e = 0 then initBuf junk g e else sent.getD (s.nrRead g n e - 1) (initBuf junk g e)

structure RecvInv (s : State) : Prop where
  dest : ∀ n tok r, s.pc n = .wait (.recv tok r) → ∀ e, r.dest e = 0
  done : ∀ n tok dat, s.pc n = .wait (.dataDone tok dat) →
    dat = .success ∨ dat = .exhaustedAndTerminate

/-- Whether a member may be written depends on what its edge and its producer have seen. -/
def Local (g : Graph) (P : Record → Nat → List UInt8 → Prop) : Prop :=
  ∀ h h' e x, h.sent e = h'.sent e → h.jobs (g.edge e).producer = h'.jobs (g.edge e).producer →
    P h e x → P h' e x

structure NetInv (junk : Junk) (g : Graph) (P : Record → Nat → List UInt8 → Prop) (s : State)
    (h : Record) : Prop where
  ring : RingInv g s
  loop : LoopInv g s
  recv : RecvInv s
  reach : (network junk g).Reach P h
  jobs : ∀ n, (h.jobs n).length = s.fired n
  sent : ∀ n e, ¬ IsSrc g n → e ∈ g.outEdges n → (g.edge e).attr.type = .ring →
    (h.sent e).length + (s.pc n).toWrite g e = s.fired n
  user : ∀ n b err i e x tw, s.pc n = .prod n .normal b err (.ringWrite i e x tw) →
    P h e x ∧ x.length = (g.edge e).attr.nrProduce ∧ (g.edge e).attr.type = .ring
  size : ∀ e x, x ∈ h.sent e → x.length = (g.edge e).attr.nrProduce
  skips : ∀ n j e, (g.inEdges n)[j]? = some e → ¬ Ending s n →
    s.nrSkips e = (g.edge e).skips - (s.fired n + (s.pc n).skipped j)
  holds : ∀ n e, e ∈ g.inEdges n → (g.edge e).attr.type = .ring → ¬ Ending s n →
    RingHolds junk g s (h.sent e) n e

section

variable {junk : Junk} {g : Graph} {P : Record → Nat → List UInt8 → Prop} {s s' : State}
  {h : Record} {a : Act} {eff : Effect} {p : Pc} {n e j t : Nat}

theorem isRing_iff : (g.edge e).attr.type.isRing = true ↔ (g.edge e).attr.type = .ring := by
  cases (g.edge e).attr.type <;> simp [EdgeType.isRing]

theorem readsRing_iff :
    readsRing g n e = true ↔ e ∈ g.inEdges n ∧ (g.edge e).attr.type = .ring := by
  rw [readsRing, Bool.and_eq_true, decide_eq_true_iff, isRing_iff]

/-! ## The data side of a wait -/

/-- A step of `pgm_recv_data` on ring edges: it stays at its edge, passes it by, takes a member into
the buffer, or is the last. -/
inductive ReadMove (g : Graph) (n : Nat) (skips : Nat → Nat) (d : Data) (r : Recv) :
    Data → RecvNext → Prop
  | stay (d' : Data) (r' : Recv) (hq : d'.queue = d.queue) (hb : d'.bufIn = d.bufIn)
      (hd : r'.dest = r.dest) (hpos : r'.pc.pos = r.pc.pos) : ReadMove g n skips d r d' (.more r')
  | pass (d' : Data) (r' : Recv) (e : Nat) (hq : d'.queue = d.queue) (hb : d'.bufIn = d.bufIn)
      (hd : r'.dest = r.dest) (hi : (g.inEdges n)[r.pc.pos]? = some e)
      (hpos : r'.pc.pos = r.pc.pos + 1) (h : ¬ Active g n skips r.pc.pos e ∨ d.queue e = []) :
      ReadMove g n skips d r d' (.more r')
  | take (d' : Data) (r' : Recv) (e : Nat) (x : List UInt8) (q : List (List UInt8))
      (ha : Active g n skips r.pc.pos e) (hx : d.queue e = x :: q)
      (hq : d'.queue = update d.queue e q)
      (hb : d'.bufIn = update d.bufIn e (store (d.bufIn e) (r.dest e) x))
      (hd : r'.dest = r.dest) (hpos : r'.pc.pos = r.pc.pos + 1) :
      ReadMove g n skips d r d' (.more r')
  | out (d' : Data) (st : WaitStatus) (hq : d'.queue = d.queue) (hb : d'.bufIn = d.bufIn)
      (hi : (g.inEdges n)[r.pc.pos]? = none)
      (hst : st = .success ∨ st = .exhaustedAndTerminate) : ReadMove g n skips d r d' (.done st)

theorem recvOut_success (g : Graph) (n : Nat) (d : Data) :
    recvOut g n d .success = .success ∨ recvOut g n d .success = .exhaustedAndTerminate := by
  unfold recvOut
  split_ifs
  · exact Or.inr rfl
  · exact Or.inl rfl

theorem RecvMove.readMove {skips : Nat → Nat} {d d' : Data} {r : Recv} {ans : Answer} {nx : RecvNext}
    (hg : CvRingGraph g) (hr : r.RingOnly g n skips) (hm : RecvMove g n skips d r ans d' nx) :
    ReadMove g n skips d r d' nx := by
  unfold Recv.RingOnly at hr
  cases hm with
  | selecting err err' m hpc hw =>
    rw [hpc] at hr
    exact absurd hr.2 hw
  | selectFailed hpc =>
    rw [hpc] at hr
    exact absurd hr.1 (by simp)
  | selected hpc => exact .stay _ _ rfl rfl rfl (by rw [hpc]; rfl)
  | out i hpc hi => exact .out _ _ rfl rfl (by rw [hpc]; exact hi) (recvOut_success g n _)
  | pass i e hpc hi hn =>
    exact .pass _ _ e rfl rfl rfl (by rw [hpc]; exact hi) (by rw [hpc]; rfl)
      (by rw [hpc]; exact .inl hn)
  | enter i e hpc ha hring =>
    rw [hg.isRing ha.mem ha.2.1] at hring
    cases hring
  | ringCmd i e hpc ha hring =>
    refine .stay _ _ rfl rfl rfl ?_
    rw [hpc]
    cases isTerminate (d.ringCmd e) <;> rfl
  | ringStop i e hpc hq =>
    rw [hpc] at hr
    exact .pass _ _ e rfl rfl rfl (by rw [hpc]; exact hr.1) (by rw [hpc]; rfl) (.inr hq)
  | ringMore i e hpc hq => exact .stay _ _ rfl rfl rfl (by rw [hpc]; rfl)
  | ringRead i e x q hpc hq =>
    rw [hpc] at hr
    exact .take _ _ e x q (by rw [hpc]; exact hr) hq rfl rfl rfl (by rw [hpc]; rfl)
  | read i e d' nx hpc h =>
    rw [hpc] at hr
    exact hr.elim

theorem recvStart_status {skips : Nat → Nat} {d : Data} {st : WaitStatus}
    (h : recvStart g n skips d = .done st) : st = .success ∨ st = .exhaustedAndTerminate := by
  rw [recvStart_done h]
  exact recvOut_success g n d

theorem recvStart_more {skips : Nat → Nat} {d : Data} {r : Recv}
    (h : recvStart g n skips d = .more r) : r.pc.pos = 0 ∧ ∀ e, r.dest e = 0 := by
  unfold recvStart at h
  simp only at h
  split at h
  · cases h
  · cases h
    exact ⟨rfl, fun _ => rfl⟩

theorem Move.recvInv (hg : CvRingGraph g) (hp : RingPlace g s) (hi : RecvInv s)
    (hm : Move g s a eff p) :
    (∀ tok r, p = .wait (.recv tok r) → ∀ e, r.dest e = 0) ∧
      ∀ tok dat, p = .wait (.dataDone tok dat) → dat = .success ∨ dat = .exhaustedAndTerminate := by
  cases hm with
  | wait t ans w eff p hpc hm =>
    cases hm with
    | recvStart tok r h hr =>
      refine ⟨?_, by simp⟩
      rintro _ _ ⟨⟩
      exact (recvStart_more hr).2
    | recv tok r r' d h =>
      refine ⟨?_, by simp⟩
      rintro _ _ ⟨⟩ e
      have hold := hi.dest t tok r hpc e
      cases (recvStep_move h).readMove hg (hp.recv t tok r hpc) with
      | stay _ hq hb hd | pass _ e hq hb hd | take _ e x q ha hx hq hb hd =>
        exact (congrFun hd _).trans hold
    | noData tok h =>
      refine ⟨by simp, ?_⟩
      rintro _ _ ⟨⟩
      exact Or.inr rfl
    | recvNone tok st h hr =>
      refine ⟨by simp, ?_⟩
      rintro _ _ ⟨⟩
      exact recvStart_status hr
    | recvDone tok st r d h =>
      refine ⟨by simp, ?_⟩
      rintro _ _ ⟨⟩
      cases (recvStep_move h).readMove hg (hp.recv t tok r hpc) with
      | out _ hq hb hend hst => exact hst
    | allReady l | someReady l | noTerm l | allTerm l | notAllTerm l =>
      cases l <;> exact ⟨by simp [granted, mustWait], by simp [granted, mustWait]⟩
    | _ => exact ⟨by simp, by simp⟩
  | prod t m ans cmd w err q eff p hpc hm =>
    exact ⟨fun _ _ h => absurd h (hm.not_wait _), fun _ _ h => absurd h (hm.not_wait _)⟩
  | _ => exact ⟨by simp, by simp⟩

theorem step_recvInv (hg : CvRingGraph g) (hp : RingPlace g s) (hi : RecvInv s)
    (h : step g s a = some s') : RecvInv s' := by
  obtain ⟨eff, p, hm, rfl⟩ := step_move h
  obtain ⟨hdest, hdone⟩ := hm.recvInv hg hp hi
  constructor
  · intro n tok r hpc
    by_cases hn : n = a.thread
    · subst hn
      rw [setPc_pc_self] at hpc
      exact hdest tok r hpc
    · rcases pc_of_ne (g := g) (s := s) eff p hn with heq | ⟨-, -, heq⟩
      · exact hi.dest n tok r (heq.symm.trans hpc)
      · cases heq.symm.trans hpc
  · intro n tok dat hpc
    by_cases hn : n = a.thread
    · subst hn
      rw [setPc_pc_self] at hpc
      exact hdone tok dat hpc
    · rcases pc_of_ne (g := g) (s := s) eff p hn with heq | ⟨-, -, heq⟩
      · exact hi.done n tok dat (heq.symm.trans hpc)
      · cases heq.symm.trans hpc

/-- A wait that the test let through returns 0, and one whose token side has ended returns
`PGM_TERMINATE`. -/
theorem RecvInv.decided (hg : CvRingGraph g) (hr : RingInv g s) (hl : LoopInv g s) (hi : RecvInv s)
    (htest : Tested g s a) : Decided s a := by
  cases a with
  | run t ans =>
    intro tok dat hpc
    have hin : g.nrInSignaled t ≠ 0 := by
      obtain ⟨e, he⟩ := List.exists_mem_of_ne_nil _ (hl.inEdges_ne hpc)
      exact nrInSignaled_ne hg he
    rcases (hr.grant t).status _ tok hpc rfl with rfl | rfl
    · rcases hi.done t _ dat hpc with rfl | rfl
      · exact Or.inl ⟨rfl, rfl⟩
      · exact Or.inl ⟨rfl, rfl⟩
    · rcases hi.done t _ dat hpc with rfl | rfl
      · have hret : waitRet .exhaustedAndTerminate .success ≠ .terminate := by decide
        simp [Tested, consumesExhausted, hpc, hin, hret] at htest
      · exact Or.inr ⟨rfl, rfl⟩
  | _ => trivial

/-! ## The skips -/

def SkipsLeft (g : Graph) (s : State) (n j e : Nat) : Prop :=
  s.nrSkips e = (g.edge e).skips - (s.fired n + (s.pc n).skipped j)

/-- A step of the owner outside of `pgm_consume_skips`. -/
theorem skipsLeft_quiet (eff : Effect) (p : Pc) (hi : SkipsLeft g s t j e) (hold : (s.pc t).skipped j = 0)
    (hnew : p.skipped j = 0) (hdec : eff ≠ .decSkips e)
    (hfire : (s.apply g t eff).fired t = s.fired t) :
    SkipsLeft g ((s.apply g t eff).setPc t p) t j e := by
  unfold SkipsLeft at hi ⊢
  rw [setPc_pc_self, hnew]
  rw [hold] at hi
  change (s.apply g t eff).nrSkips e = _ - ((s.apply g t eff).fired t + 0)
  rw [nrSkips_eq hdec, hfire]
  exact hi

theorem skipsLeft_skip {i e' : Nat} {ret : WaitRet} (hpc : s.pc t = .wait (.skips ret i))
    (he : (g.inEdges t)[j]? = some e) (hi' : (g.inEdges t)[i]? = some e')
    (heff : eff = .decSkips e' ∨ (eff = .skip ∧ s.nrSkips e' = 0)) (hi : SkipsLeft g s t j e) :
    SkipsLeft g ((s.apply g t eff).setPc t (.wait (.skips ret (i + 1)))) t j e := by
  unfold SkipsLeft at hi ⊢
  rw [hpc] at hi
  rw [setPc_pc_self]
  simp only [Pc.skipped] at hi ⊢
  have hfired : ((s.apply g t eff).setPc t (.wait (.skips ret (i + 1)))).fired t = s.fired t := by
    rcases heff with rfl | ⟨rfl, -⟩ <;> rfl
  rw [hfired]
  by_cases hij : i = j
  · subst hij
    obtain rfl : e' = e := Option.some.inj (hi'.symm.trans he)
    rw [if_neg (Nat.lt_irrefl i)] at hi
    rw [if_pos (Nat.lt_succ_self i)]
    rcases heff with rfl | ⟨rfl, hz⟩
    · change update s.nrSkips e' (s.nrSkips e' - 1) e' = _
      rw [Function.update_self]
      omega
    · change s.nrSkips e' = _
      omega
  · have hne : e ≠ e' := by
      rintro rfl
      exact hij (Graph.inEdges_inj hi' he)
    have hlt : (j < i + 1) = (j < i) := propext ⟨by omega, by omega⟩
    simp only [hlt]
    rcases heff with rfl | ⟨rfl, -⟩
    · change update s.nrSkips e' (s.nrSkips e' - 1) e = _
      rw [Function.update_of_ne hne]
      exact hi
    · exact hi

theorem WaitMove.skipsLeft {ans : Answer} {w : WaitPc} (hpc : s.pc t = .wait w)
    (hfail : ∀ i, w ≠ .skips .error i) (hm : WaitMove g s t ans w eff p)
    (he : (g.inEdges t)[j]? = some e) (hopen : (s.apply g t eff).terminated t = false)
    (hi : SkipsLeft g s t j e) :
    SkipsLeft g ((s.apply g t eff).setPc t p) t j e := by
  have hquiet := skipsLeft_quiet eff p hi
  rw [hpc] at hquiet
  cases hm with
  | skip ret i e' hi' h => exact skipsLeft_skip hpc he hi' (Or.inl rfl) hi
  | skipPass ret i e' hi' h => exact skipsLeft_skip hpc he hi' (Or.inr ⟨rfl, h⟩) hi
  | fire i hend =>
    have hlt := lt_of_end he hend
    unfold SkipsLeft at hi ⊢
    rw [hpc] at hi
    rw [setPc_pc_self]
    simp only [Pc.skipped, if_pos hlt] at hi
    simpa [State.apply, State.setPc, Pc.skipped] using hi
  | terminate i hend => simp [State.apply] at hopen
  | fail i hend => exact absurd rfl (hfail i)
  | allReady l | someReady l | noTerm l | allTerm l | notAllTerm l =>
    exact hquiet rfl (by cases l <;> rfl) (by simp) rfl
  | _ => exact hquiet rfl rfl (by simp) rfl

/-- A step of any thread, as long as no wait for the node fails and the node has not terminated. -/
theorem Move.skipsLeft (hm : Move g s a eff p) (hfail : ∀ i, s.pc n ≠ .wait (.skips .error i))
    (he : (g.inEdges n)[j]? = some e) (hopen : (s.apply g a.thread eff).terminated n = false)
    (hi : SkipsLeft g s n j e) :
    SkipsLeft g ((s.apply g a.thread eff).setPc a.thread p) n j e := by
  by_cases hn : n = a.thread
  · subst hn
    have hquiet := skipsLeft_quiet eff p hi
    cases hm with
    | wait t ans w eff p hpc hm =>
      refine hm.skipsLeft hpc (fun i hw => ?_) he hopen hi
      exact hfail i (hpc.trans (congrArg Pc.wait hw))
    | prod t m ans cmd w err q eff p hpc hm =>
      simp only [Act.thread, hpc] at hquiet ⊢
      exact hquiet rfl (by cases hm <;> rfl) (by cases hm <;> simp) (by cases hm <;> rfl)
    | callWait n last hpc | callComplete t n last hpc | callTerminate t n last hpc
    | spurious t hpc =>
      simp only [Act.thread, hpc] at hquiet ⊢
      exact hquiet rfl rfl (by simp) rfl
  · have hskipped : (((s.apply g a.thread eff).setPc a.thread p).pc n).skipped j =
        (s.pc n).skipped j := by
      rcases pc_of_ne (g := g) (s := s) eff p hn with heq | ⟨-, hasleep, heq⟩
      · rw [heq]
      · rw [heq, hasleep]
        rfl
    unfold SkipsLeft at hi ⊢
    rw [hskipped]
    change (s.apply g a.thread eff).nrSkips e = _ - ((s.apply g a.thread eff).fired n + _)
    rw [foreign_nrSkips hm hn (List.mem_of_getElem? he), fired_of_ne hm hn]
    exact hi

/-! ## The writes -/

theorem record_ringWrite {ans : Answer} {m i : Nat} {cmd : Command} {w err : Bool} {x : List UInt8}
    {tw : List Nat} (hpc : s.pc t = .prod m cmd w err (.ringWrite i e x tw)) :
    record g s h (.run t ans) = { h with sent := update h.sent e (h.sent e ++ [x]) } := by
  simp only [record, hpc]

theorem record_fire {ans : Answer} {i : Nat} (hpc : s.pc t = .wait (.skips .ok i))
    (hend : (g.inEdges t)[i]? = none) : record g s h (.run t ans) =
      { h with jobs := update h.jobs t (h.jobs t ++ [buffers g s t]) } := by
  simp only [record, hpc, hend, Option.isNone_none, if_true]

/-- What a step of `pgm_produce` writes is off its list. -/
theorem ProdMove.toWrite {ans : Answer} {cmd : Command} {w err : Bool} {q : ProdPc}
    (hg : CvRingGraph g) (hr : RingPlace g s) (hpc : s.pc n = .prod n cmd w err q)
    (hm : ProdMove g s n cmd w err ans q eff p) (hring : (g.edge e).attr.type = .ring) :
    ((record g s h (.run n ans)).sent e).length + p.toWrite g e =
      (h.sent e).length + (s.pc n).toWrite g e := by
  have hat := hr.place n n cmd w err q hpc
  have hsends := hr.sends n n cmd w err q hpc
  cases hm with
  | sent i tw hi =>
    simp only [record, hpc]
    cases cmd <;> simp [Pc.toWrite, ProdPc.toWrite, Scan.drop_of_end hi]
  | backedge i e' tw hi hc | ringCmd i e' tw hi hc | lastMessage i e' tw hi hc
  | termSignal i e' tw hc =>
    subst hc
    simp only [record, hpc]
    rfl
  | cvEdge i e' tw hi hb hd =>
    have hne : e ≠ e' := by
      rintro rfl
      rw [ringData hring] at hd
      cases hd
    simp only [record, hpc]
    cases cmd with
    | normal =>
      by_cases hmem : e ∈ (g.outEdges n).drop (i + 1) <;>
        simp [Pc.toWrite, ProdPc.toWrite, Scan.mem_drop_iff hi, hne, hmem]
    | terminate => rfl
  | message i e' tw x hi hc hd hnot =>
    rw [hg.isRing (Graph.mem_in_of_mem_out (List.mem_of_getElem? hi)) hd] at hnot
    cases hnot
  | write | written => exact hsends.elim
  | ringWrite i e' x tw hlt =>
    obtain rfl : cmd = .normal := hsends
    rw [record_ringWrite hpc, hpc]
    have hnot := Scan.not_mem_drop_succ (g.outEdges_nodup n) hat
    by_cases hee : e = e'
    · subst hee
      simp [Pc.toWrite, ProdPc.toWrite, Scan.mem_drop_iff hat, hnot]
    · by_cases hmem : e ∈ (g.outEdges n).drop (i + 1) <;>
        simp [Pc.toWrite, ProdPc.toWrite, Scan.mem_drop_iff hat, hee, hmem]
  | tokens i e' tw hc =>
    simp only [record, hpc]
    cases cmd <;> rfl
  | done =>
    simp only [record, hpc]
    cases cmd <;> cases w <;> rfl
  | _ =>
    simp only [record, hpc]
    cases cmd <;> rfl

/-- The record of a step that is neither a write to a ring nor the return of 0. -/
theorem WaitMove.record_sent {ans : Answer} {w : WaitPc} (hpc : s.pc t = .wait w) :
    (record g s h (.run t ans)).sent = h.sent := by
  simp only [record, hpc]
  split
  · cases ‹Pc.wait w = _›
  · split_ifs <;> rfl
  · rfl

/-- The thread of a node writes once for each of its jobs. -/
theorem Move.toWrite (hg : CvRingGraph g) (ha : WorkThread g s a) (hr : RingPlace g s)
    (hl : LoopInv g s) (hm : Move g s a eff p) (hn : ¬ IsSrc g a.thread)
    (he : e ∈ g.outEdges a.thread) (hring : (g.edge e).attr.type = .ring) :
    ((record g s h a).sent e).length + p.toWrite g e + s.fired a.thread =
      (h.sent e).length + (s.pc a.thread).toWrite g e +
        (s.apply g a.thread eff).fired a.thread := by
  cases hm with
  | callWait n last hpc =>
    have htop := ha.2.2
    simp only [Act.thread, hpc] at htop ⊢
    cases last with
    | none => simp [record, State.apply, Pc.toWrite]
    | some ret => cases htop
  | callComplete t n last hpc =>
    obtain ⟨rfl, -, -, hcase⟩ := ha
    obtain rfl := hl.hasJob hpc (hcase.resolve_left hn)
    simp only [Act.thread] at he ⊢
    simp [record, State.apply, Pc.toWrite, ProdPc.toWrite, hpc, he]
  | callTerminate t n last hpc =>
    obtain ⟨rfl, -, -, hsrc⟩ := ha
    exact absurd hsrc hn
  | wait t ans w eff p hpc hm =>
    simp only [Act.thread]
    rw [WaitMove.record_sent hpc, hpc]
    cases hm with
    | fire i hend =>
      simp only [State.apply, Function.update_self, Pc.toWrite]
      omega
    | _ => simp [State.apply, Pc.toWrite]
  | prod t m ans cmd w err q eff p hpc hm =>
    obtain rfl : t = m := hl.term.owner t m cmd w err q hpc
    have hwrite := hm.toWrite (h := h) hg hr hpc hring
    have hfired : (s.apply g t eff).fired t = s.fired t := by cases hm <;> rfl
    simp only [Act.thread]
    rw [hfired, hwrite]
  | spurious t hpc => simp [record, State.apply, Pc.toWrite, Act.thread, hpc]

/-- Only the producer of an edge writes to it. -/
theorem Move.record_of_ne (hl : LoopInv g s) (hm : Move g s a eff p)
    (hp : (g.edge e).producer ≠ a.thread) : (record g s h a).sent e = h.sent e := by
  cases hm with
  | wait t ans w eff p hpc hm => rw [WaitMove.record_sent hpc]
  | prod t m ans cmd w err q eff p hpc hm =>
    obtain rfl : t = m := hl.term.owner t m cmd w err q hpc
    cases hq : q with
    | ringWrite i e' x tw =>
      subst hq
      have hat := hl.term.place t t cmd w err _ hpc
      have hne : e ≠ e' := by
        rintro rfl
        exact hp (Graph.mem_outEdges.mp (List.mem_of_getElem? hat)).2
      rw [record_ringWrite hpc]
      exact Function.update_of_ne hne _ _
    | _ =>
      subst hq
      simp only [record, hpc]
  | _ => rfl

/-! ## The rings and the buffers -/

theorem RingHolds.congr {sent : List (List UInt8)} (hi : RingHolds junk g s sent n e)
    (hread : s'.nrRead g n e = s.nrRead g n e) (hqueue : s'.data.queue e = s.data.queue e)
    (hbuf : s'.data.bufIn e = s.data.bufIn e) : RingHolds junk g s' sent n e := by
  obtain ⟨hle, hq, hb⟩ := hi
  rw [← hread] at hle hq hb
  exact ⟨hle, hqueue.trans hq, hbuf.trans hb⟩

/-- A member is written. -/
theorem RingHolds.write {sent : List (List UInt8)} {x : List UInt8} (hi : RingHolds junk g s sent n e)
    (hread : s'.nrRead g n e = s.nrRead g n e)
    (hqueue : s'.data.queue e = s.data.queue e ++ [x])
    (hbuf : s'.data.bufIn e = s.data.bufIn e) : RingHolds junk g s' (sent ++ [x]) n e := by
  obtain ⟨hle, hq, hb⟩ := hi
  rw [← hread] at hle hq hb
  refine ⟨?_, ?_, ?_⟩
  · rw [List.length_append]
    omega
  · rw [hqueue, hq, List.drop_append_of_le_length hle]
  · rw [hbuf, hb]
    split_ifs with hz
    · rfl
    · rw [List.getD_append _ _ _ _ (by omega)]

theorem store_member {buf x : List UInt8} (h : buf.length = x.length) : store buf 0 x = x := by
  simp [store, h]

theorem RingHolds.length {sent : List (List UInt8)} (hi : RingHolds junk g s sent n e)
    (hsize : ∀ x ∈ sent, x.length = (g.edge e).attr.nrConsume) :
    (s.data.bufIn e).length = (g.edge e).attr.nrConsume := by
  rw [hi.buf]
  split_ifs with hz
  · exact length_initBuf junk g e
  · have hle := hi.le
    rw [List.getD_eq_getElem _ _ (by omega)]
    exact hsize _ (List.getElem_mem _)

/-- A member is read into the buffer. -/
theorem RingHolds.take {sent q : List (List UInt8)} {x : List UInt8} (hi : RingHolds junk g s sent n e)
    (hsize : ∀ x ∈ sent, x.length = (g.edge e).attr.nrConsume)
    (hread : s'.nrRead g n e = s.nrRead g n e + 1) (hx : s.data.queue e = x :: q)
    (hqueue : s'.data.queue e = q) (hbuf : s'.data.bufIn e = store (s.data.bufIn e) 0 x) :
    RingHolds junk g s' sent n e := by
  have hlength := hi.length hsize
  obtain ⟨hle, hq, -⟩ := hi
  have hdrop : sent.drop (s.nrRead g n e) = x :: q := hq.symm.trans hx
  have hlt : s.nrRead g n e < sent.length := by
    by_contra hge
    rw [List.drop_eq_nil_of_le (Nat.le_of_not_lt hge)] at hdrop
    cases hdrop
  rw [List.drop_eq_getElem_cons hlt] at hdrop
  obtain ⟨hxe, hqe⟩ := List.cons.inj hdrop
  refine ⟨?_, ?_, ?_⟩
  · rw [hread]
    exact hlt
  · rw [hqueue, hread]
    exact hqe.symm
  · have hmem : x ∈ sent := hxe ▸ List.getElem_mem hlt
    rw [hbuf, store_member (hlength.trans (hsize x hmem).symm), hread, if_neg (Nat.succ_ne_zero _),
      Nat.add_sub_cancel, List.getD_eq_getElem _ _ hlt]
    exact hxe.symm

theorem ring_size (hring : (g.edge e).attr.type = .ring) {sent : List (List UInt8)}
    (hsize : ∀ x ∈ sent, x.length = (g.edge e).attr.nrProduce) :
    ∀ x ∈ sent, x.length = (g.edge e).attr.nrConsume := by
  have heq := ((g.edge e).accepted.ring (by rw [hring]; rfl)).1
  intro x hx
  rw [← heq]
  exact hsize x hx

theorem nrRead_of_skips {k : Nat} (hsk : SkipsLeft g s n j e) (hq : (s.pc n).skipped j = 0)
    (hne : s.nrSkips e ≠ 0) (hk : k ≤ 1) : s.fired n + k - (g.edge e).skips = 0 := by
  unfold SkipsLeft at hsk
  rw [hq] at hsk
  omega

theorem WaitMove.holds_recv {ans : Answer} {tok : WaitStatus} {r r' : Recv} {d : Data}
    (hg : CvRingGraph g) (hi : NetInv junk g P s h) (hpc : s.pc n = .wait (.recv tok r))
    (hstep : recvStep g n s.nrSkips s.data r ans = some (d, .more r'))
    (he : (g.inEdges n)[j]? = some e) (hring : (g.edge e).attr.type = .ring)
    (hsk : SkipsLeft g s n j e) (hopen : ¬ Ending s n) (hold : RingHolds junk g s (h.sent e) n e) :
    RingHolds junk g ((s.apply g n (.data d)).setPc n (.wait (.recv tok r'))) (h.sent e) n e := by
  have hin := List.mem_of_getElem? he
  have htok : tok = .success := by
    rcases (hi.ring.grant n).status _ tok hpc rfl with rfl | rfl
    · rfl
    · exact absurd (Or.inr (by rw [hpc]; rfl)) hopen
  subst htok
  have hskipped : (s.pc n).skipped j = 0 := by rw [hpc]; rfl
  have hbefore : s.nrRead g n e =
      s.fired n + (if e ∈ (g.inEdges n).take r.pc.pos then 1 else 0) - (g.edge e).skips := by
    unfold State.nrRead
    rw [hpc]
    rfl
  have hafter : ((s.apply g n (.data d)).setPc n (.wait (.recv .success r'))).nrRead g n e =
      s.fired n + (if e ∈ (g.inEdges n).take r'.pc.pos then 1 else 0) - (g.edge e).skips := by
    unfold State.nrRead
    rw [setPc_pc_self]
    rfl
  cases (recvStep_move hstep).readMove hg (hi.ring.place.recv n _ r hpc) with
  | stay _ hq hb hd hpos =>
    refine hold.congr ?_ (congrFun hq e) (congrFun hb e)
    rw [hafter, hbefore, hpos]
  | pass _ e' hq hb hd hi' hpos hor =>
    refine hold.congr ?_ (congrFun hq e) (congrFun hb e)
    rw [hafter, hbefore, hpos]
    by_cases hee : e = e'
    · subst hee
      -- only an edge with skips left is passed by
      have hne : s.nrSkips e ≠ 0 := by
        intro hz
        rcases hor with hna | hnil
        · exact hna ⟨hi', ringData hring, hz⟩
        · exact (hi.ring.grant n).queue_ne hg hi.ring.waiting hpc hring hi' hz hnil
      rw [nrRead_of_skips hsk hskipped hne (by split_ifs <;> omega),
        nrRead_of_skips hsk hskipped hne (by split_ifs <;> omega)]
    · simp [Scan.mem_take_succ hi', hee]
  | take _ e' x q ha hx hq hb hd hpos =>
    by_cases hee : e = e'
    · subst hee
      have hnot := Scan.not_mem_take (g.inEdges_nodup n) ha.1
      have hz : s.nrSkips e = 0 := ha.2.2
      refine hold.take (ring_size hring (hi.size e)) ?_ hx ?_ ?_ (q := q)
      · rw [hafter, hbefore, hpos]
        simp only [Scan.mem_take_succ ha.1, hnot, or_true, if_true, if_false]
        unfold SkipsLeft at hsk
        rw [hskipped] at hsk
        omega
      · exact (congrFun hq e).trans (Function.update_self _ _ _)
      · refine (congrFun hb e).trans ?_
        rw [Function.update_self, hi.recv.dest n _ r hpc e]
    · refine hold.congr ?_ ?_ ?_
      · rw [hafter, hbefore, hpos]
        simp [Scan.mem_take_succ ha.1, hee]
      · exact (congrFun hq e).trans (Function.update_of_ne hee _ _)
      · exact (congrFun hb e).trans (Function.update_of_ne hee _ _)

theorem WaitMove.holds {ans : Answer} {w : WaitPc} (hg : CvRingGraph g) (hi : NetInv junk g P s h)
    (hpc : s.pc n = .wait w) (hm : WaitMove g s n ans w eff p) (he : (g.inEdges n)[j]? = some e)
    (hring : (g.edge e).attr.type = .ring) (hopen : ¬ Ending s n)
    (hopen' : ¬ Ending ((s.apply g n eff).setPc n p) n) :
    RingHolds junk g ((s.apply g n eff).setPc n p) (h.sent e) n e := by
  have hin := List.mem_of_getElem? he
  have hold := hi.holds n e hin hring hopen
  have hsk : SkipsLeft g s n j e := hi.skips n j e he hopen
  have hquiet : (s.apply g n eff).data.queue e = s.data.queue e →
      (s.apply g n eff).data.bufIn e = s.data.bufIn e →
      (s.apply g n eff).fired n + p.hasRead g n e - (g.edge e).skips =
        s.fired n + (Pc.wait w).hasRead g n e - (g.edge e).skips →
      RingHolds junk g ((s.apply g n eff).setPc n p) (h.sent e) n e := by
    intro hq hb hread
    refine hold.congr ?_ hq hb
    unfold State.nrRead
    rw [setPc_pc_self, hpc]
    exact hread
  cases hm with
  | recv tok r r' d hstep => exact WaitMove.holds_recv hg hi hpc hstep he hring hsk hopen hold
  | recvDone tok st r d hstep =>
    cases (recvStep_move hstep).readMove hg (hi.ring.place.recv n tok r hpc) with
    | out _ hq hb hend hst =>
      refine hquiet (congrFun hq e) (congrFun hb e) ?_
      simp [Pc.hasRead, Scan.take_of_end hend, hin, State.apply]
  | recvStart tok r hdata hr =>
    refine hquiet rfl rfl ?_
    simp [Pc.hasRead, (recvStart_more hr).1, State.apply]
  | recvNone tok st hdata hr =>
    -- all in-edges have skips left
    have hne : s.nrSkips e ≠ 0 := fun hz =>
      not_active_of_recvStart_done hr j e ⟨he, ringData hring, hz⟩
    have hskipped : (s.pc n).skipped j = 0 := by rw [hpc]; rfl
    refine hquiet rfl rfl ?_
    exact (nrRead_of_skips hsk hskipped hne (Nat.le_refl 1)).trans
      (nrRead_of_skips hsk hskipped hne (Nat.zero_le 1)).symm
  | noData tok hdata => exact absurd hdata (nrInData_ne hin hring)
  | fire i hend => exact hquiet rfl rfl (by simp [Pc.hasRead, State.apply])
  | terminate i hend => exact absurd (Or.inl (by simp [State.apply, State.setPc])) hopen'
  | fail i hend =>
    have hret := hi.loop.loop n
    rw [hpc] at hret
    exact absurd rfl hret.2.2
  | allReady l | someReady l | noTerm l | allTerm l | notAllTerm l =>
    exact hquiet rfl rfl (by cases l <;> rfl)
  | _ => exact hquiet rfl rfl rfl

/-- A wait fills the buffers of its own in-edges only. -/
theorem WaitMove.bufIn_of_ne {ans : Answer} {w : WaitPc} (hg : CvRingGraph g)
    (hr : RingPlace g s) (hpc : s.pc t = .wait w) (hm : WaitMove g s t ans w eff p)
    (he : e ∉ g.inEdges t) : (s.apply g t eff).data.bufIn e = s.data.bufIn e := by
  cases hm with
  | recv tok r r' d hstep =>
    cases (recvStep_move hstep).readMove hg (hr.recv t tok r hpc) with
    | stay _ hq hb | pass _ e' hq hb => exact congrFun hb e
    | take _ e' x q ha hx hq hb =>
      have hne : e ≠ e' := by
        rintro rfl
        exact he ha.mem
      exact (congrFun hb e).trans (Function.update_of_ne hne _ _)
  | recvDone tok st r d hstep =>
    cases (recvStep_move hstep).readMove hg (hr.recv t tok r hpc) with
    | out _ hq hb => exact congrFun hb e
  | _ => rfl

/-- Only the wait of a node counts as its reads. -/
theorem Move.nrRead (hm : Move g s a eff p) (hown : n = a.thread →
      p.hasRead g n e = 0 ∧ (s.pc n).hasRead g n e = 0 ∧
        (s.apply g a.thread eff).fired n = s.fired n) :
    ((s.apply g a.thread eff).setPc a.thread p).nrRead g n e = s.nrRead g n e := by
  unfold State.nrRead
  by_cases hn : n = a.thread
  · obtain ⟨hnew, hold, hfired⟩ := hown hn
    subst hn
    rw [setPc_pc_self, hnew, hold]
    exact congrArg (fun k => k + 0 - (g.edge e).skips) hfired
  · have hread : (((s.apply g a.thread eff).setPc a.thread p).pc n).hasRead g n e =
        (s.pc n).hasRead g n e := by
      rcases pc_of_ne (g := g) (s := s) eff p hn with heq | ⟨-, hasleep, heq⟩
      · rw [heq]
      · rw [heq, hasleep]
        rfl
    rw [hread]
    exact congrArg (fun k => k + _ - (g.edge e).skips) (fired_of_ne hm hn)

/-- A pass over the out-edges: a member is appended to its ring. -/
theorem ProdMove.holds {ans : Answer} {cmd : Command} {b err : Bool} {q : ProdPc} {m : Nat}
    (hr : RingPlace g s) (hpc : s.pc t = .prod m cmd b err q)
    (hm : ProdMove g s m cmd b err ans q eff p) (hold : RingHolds junk g s (h.sent e) n e)
    (hread : ((s.apply g t eff).setPc t p).nrRead g n e = s.nrRead g n e) :
    RingHolds junk g ((s.apply g t eff).setPc t p) ((record g s h (.run t ans)).sent e) n e := by
  have hsends := hr.sends t m cmd b err q hpc
  cases hm with
  | ringWrite i e' x tw hlt =>
    rw [record_ringWrite hpc]
    dsimp only
    by_cases hee : e = e'
    · subst hee
      rw [Function.update_self]
      exact hold.write hread (Function.update_self _ _ _) rfl
    · rw [Function.update_of_ne hee]
      exact hold.congr hread (Function.update_of_ne hee _ _) rfl
  | write | written => exact hsends.elim
  | _ =>
    simp only [record, hpc]
    exact hold.congr hread rfl rfl

theorem Move.holds (hg : CvRingGraph g) (hi : NetInv junk g P s h) (hm : Move g s a eff p)
    (he : (g.inEdges n)[j]? = some e) (hring : (g.edge e).attr.type = .ring)
    (hopen : ¬ Ending s n)
    (hopen' : ¬ Ending ((s.apply g a.thread eff).setPc a.thread p) n) :
    RingHolds junk g ((s.apply g a.thread eff).setPc a.thread p) ((record g s h a).sent e) n e := by
  have hin := List.mem_of_getElem? he
  have hold := hi.holds n e hin hring hopen
  have hread := hm.nrRead (n := n) (e := e)
  cases hm with
  | wait t ans w eff p hpc hm =>
    rw [WaitMove.record_sent hpc]
    by_cases hn : n = t
    · subst hn
      exact hm.holds hg hi hpc he hring hopen hopen'
    · have hnot : e ∉ g.inEdges t := by
        intro hmem
        exact hn ((Graph.mem_inEdges_consumer hin).symm.trans (Graph.mem_inEdges_consumer hmem))
      exact hold.congr (hread (fun h => absurd h hn))
        (hm.queue_of_ne hg hi.ring.place hpc hnot) (hm.bufIn_of_ne hg hi.ring.place hpc hnot)
  | prod t m ans cmd b err q eff p hpc hm =>
    refine hm.holds hi.ring.place hpc hold (hread ?_)
    rintro rfl
    simp only [Act.thread]
    rw [hpc]
    exact ⟨by cases hm <;> rfl, rfl, by cases hm <;> rfl⟩
  | callWait m last hpc | callComplete t m last hpc | callTerminate t m last hpc
  | spurious t hpc =>
    refine hold.congr (hread ?_) rfl rfl
    rintro rfl
    simp only [Act.thread]
    rw [hpc]
    exact ⟨rfl, rfl, rfl⟩

/-! ## The steps of the network -/

theorem record_jobs_of_ne (hn : n ≠ a.thread) : (record g s h a).jobs n = h.jobs n := by
  cases a with
  | run t ans =>
    simp only [record]
    split
    · rfl
    · split_ifs
      · exact Function.update_of_ne hn _ _
      · rfl
    · rfl
  | _ => rfl

/-- A wait that returns 0 is one more job, and so is nothing else. -/
theorem Move.jobs (hm : Move g s a eff p) :
    ((record g s h a).jobs a.thread).length + s.fired a.thread =
      (h.jobs a.thread).length + (s.apply g a.thread eff).fired a.thread := by
  cases hm with
  | wait t ans w eff p hpc hm =>
    simp only [Act.thread]
    cases hm with
    | fire i hend =>
      rw [record_fire hpc hend]
      simp only [Function.update_self, List.length_append, List.length_singleton, State.apply]
      omega
    | skip ret i e hi hlt | skipPass ret i e hi hz =>
      cases ret <;> simp [record, hpc, hi, State.apply]
    | terminate | fail => simp [record, hpc, State.apply]
    | _ => simp [record, hpc, State.apply]
  | prod t m ans cmd b err q eff p hpc hm =>
    simp only [Act.thread]
    have hjobs : (record g s h (.run t ans)).jobs = h.jobs := by
      simp only [record, hpc]
      cases q <;> rfl
    have hfired : (s.apply g t eff).fired t = s.fired t := by cases hm <;> rfl
    rw [hjobs, hfired]
  | _ => rfl

/-- When a wait returns 0, its buffers hold what the network junk gives to the job. -/
theorem NetInv.buffers_eq {i : Nat} (hi : NetInv junk g P s h) (hpc : s.pc t = .wait (.skips .ok i)) :
    buffers g s t = (network junk g).given h.sent t (h.jobs t).length := by
  have hopen : ¬ Ending s t := not_ending hi.ring.waiting hpc rfl
  funext e
  unfold buffers Kahn.given
  change (if readsRing g t e then _ else _) = if readsRing g t e then _ else _
  split_ifs with hr
  · obtain ⟨hin, hring⟩ := readsRing_iff.mp hr
    have hbuf := (hi.holds t e hin hring hopen).buf
    have hread : s.nrRead g t e = s.fired t + 1 - (g.edge e).skips := by
      unfold State.nrRead
      rw [hpc]
      rfl
    rw [hbuf, hread, hi.jobs t]
    unfold Kahn.view
    change _ = if s.fired t < (g.edge e).skips then initBuf junk g e else _
    by_cases hlt : s.fired t < (g.edge e).skips
    · rw [if_pos (by omega), if_pos hlt]
    · rw [if_neg (by omega), if_neg hlt]
      congr 1
      change _ = s.fired t - (g.edge e).skips
      omega
  · rfl

theorem NetInv.job {i : Nat} (hi : NetInv junk g P s h) (hpc : s.pc t = .wait (.skips .ok i)) :
    (network junk g).Step P h { h with jobs := update h.jobs t (h.jobs t ++ [buffers g s t]) } := by
  have hopen : ¬ Ending s t := not_ending hi.ring.waiting hpc rfl
  have hsrc : ¬ IsSrc g t := by
    have hloop := hi.loop.loop t
    rw [hpc] at hloop
    exact hloop.1
  rw [hi.buffers_eq hpc]
  refine .job h t hsrc ?_
  intro e hr
  obtain ⟨hin, hring⟩ := readsRing_iff.mp hr
  have hle := (hi.holds t e hin hring hopen).le
  unfold State.nrRead at hle
  rw [hpc] at hle
  simp only [Pc.hasRead] at hle
  change (h.jobs t).length < (g.edge e).skips + (h.sent e).length
  rw [hi.jobs t]
  omega

/-- The write into a ring puts a message of the network. -/
theorem NetInv.put {i : Nat} {b err : Bool} {x : List UInt8} {tw : List Nat}
    (hi : NetInv junk g P s h) (hpc : s.pc t = .prod t .normal b err (.ringWrite i e x tw)) :
    (network junk g).Step P h { h with sent := update h.sent e (h.sent e ++ [x]) } := by
  obtain ⟨hx, -, hring⟩ := hi.user t b err i e x tw hpc
  have hat : (g.outEdges t)[i]? = some e := hi.ring.place.place t t .normal b err _ hpc
  have hout := List.mem_of_getElem? hat
  have hprod : (g.edge e).producer = t := (Graph.mem_outEdges.mp hout).2
  refine .put h e x ?_ hx
  intro hsrc
  change ¬ IsSrc g (g.edge e).producer at hsrc
  change (h.sent e).length < (h.jobs (g.edge e).producer).length
  rw [hprod] at hsrc ⊢
  have hsent := hi.sent t e hsrc hout hring
  rw [hpc] at hsent
  simp only [Pc.toWrite, ProdPc.toWrite, Scan.mem_drop_iff hat, true_or, if_true] at hsent
  rw [hi.jobs t]
  omega

/-- What the watched step adds to the run of the network. -/
theorem Move.netReach (hi : NetInv junk g P s h) (hm : Move g s a eff p) :
    (network junk g).Reach P (record g s h a) := by
  cases hm with
  | wait t ans w eff p hpc hm =>
    cases hm with
    | fire i hend =>
      rw [record_fire hpc hend]
      exact hi.reach.tail (hi.job hpc)
    | skip ret i e hi' hlt | skipPass ret i e hi' hz =>
      have hrec : record g s h (.run t ans) = h := by cases ret <;> simp [record, hpc, hi']
      rw [hrec]
      exact hi.reach
    | _ =>
      simp only [record, hpc]
      exact hi.reach
  | prod t m ans cmd b err q eff p hpc hm =>
    obtain rfl : t = m := hi.loop.term.owner t m cmd b err q hpc
    have hsends := hi.ring.place.sends t t cmd b err q hpc
    cases hm with
    | ringWrite i e x tw hlt =>
      obtain rfl : cmd = .normal := hsends
      rw [record_ringWrite hpc]
      exact hi.reach.tail (hi.put hpc)
    | _ =>
      simp only [record, hpc]
      exact hi.reach
  | _ => exact hi.reach

/-- What goes into a ring is what the user left in the buffer. -/
theorem step_ringWrite {ans : Answer} {m m' i i' : Nat} {b b' err err' : Bool} {x : List UInt8}
    {tw tw' : List Nat} (hpc : s.pc t = .prod m .normal b err (.send i tw))
    (hs : step g s (.run t ans) = some s')
    (hpc' : s'.pc t = .prod m' .normal b' err' (.ringWrite i' e x tw')) :
    ans = .user x ∧ (g.outEdges m)[i]? = some e := by
  simp only [step, actStep, threadStep, hpc, prodStep, Act.thread, Option.map_eq_some_iff] at hs
  obtain ⟨⟨eff, p⟩, hprod, rfl⟩ := hs
  rw [setPc_pc_self] at hpc'
  subst hpc'
  cases he : (g.outEdges m)[i]? with
  | none => simp [he] at hprod
  | some e' =>
    simp only [he, Option.map_eq_some_iff, Prod.mk.injEq, Pc.prod.injEq] at hprod
    obtain ⟨⟨eff', q⟩, hsend, rfl, rfl, -, rfl, rfl, hq⟩ := hprod
    simp only at hq
    subst hq
    unfold sendEdge at hsend
    simp only [reduceCtorEq, false_and, if_false] at hsend
    split_ifs at hsend with hd
    · unfold sendNormal at hsend
      split at hsend
      · split_ifs at hsend with hx hring
        · cases hsend
          exact ⟨rfl, rfl⟩
        · cases hsend
      · cases hsend
    · cases hsend

theorem Move.ringWrite_from {m i : Nat} {b err : Bool} {x : List UInt8} {tw : List Nat}
    (hm : Move g s a eff p) (hp : p = .prod m .normal b err (.ringWrite i e x tw)) :
    ∃ t ans, a = .run t ans ∧ s.pc t = .prod m .normal b err (.send i tw) ∧
      x.length = (g.edge e).attr.nrProduce ∧ (g.edge e).attr.type = .ring := by
  cases hm with
  | prod t m' ans cmd b' err' q eff p hpc hm =>
    cases hm with
    | ring i e tw x hi hc hd hx =>
      cases hp
      exact ⟨t, ans, rfl, hpc, hx, isRing_iff.mp hd⟩
    | written i e buf tw d ok h =>
      unfold afterData at hp
      split_ifs at hp <;> cases hp
    | _ => cases hp
  | wait t ans w eff p hpc hm =>
    cases hm <;> cases hp
  | _ => cases hp

/-- What is about to be written may be written. -/
theorem step_user (hP : Local g P) (hw : Writes g P (s, h) a) (hi : NetInv junk g P s h)
    (hs : step g s a = some s') {b err : Bool} {i : Nat} {x : List UInt8} {tw : List Nat}
    (hpc : s'.pc n = .prod n .normal b err (.ringWrite i e x tw)) :
    P (record g s h a) e x ∧ x.length = (g.edge e).attr.nrProduce ∧
      (g.edge e).attr.type = .ring := by
  have hstep := hs
  obtain ⟨eff, p, hm, rfl⟩ := step_move hs
  by_cases hn : n = a.thread
  · -- the thread has just read the user's buffer
    subst hn
    have hp := hpc
    rw [setPc_pc_self] at hp
    obtain ⟨t, ans, rfl, hfrom, hx, hring⟩ := hm.ringWrite_from hp
    obtain ⟨rfl, hat⟩ := step_ringWrite hfrom hstep hpc
    have hrec : record g s h (.run t (.user x)) = h := by simp only [record, hfrom]
    rw [hrec]
    exact ⟨hw _ b err i tw hfrom e hat, hx, hring⟩
  · rcases pc_of_ne (g := g) (s := s) eff p hn with heq | ⟨-, -, heq⟩
    · have hold := heq.symm.trans hpc
      obtain ⟨hx, hsize, hring⟩ := hi.user n b err i e x tw hold
      have hat : (g.outEdges n)[i]? = some e := hi.ring.place.place n n .normal b err _ hold
      have hprod : (g.edge e).producer = n :=
        (Graph.mem_outEdges.mp (List.mem_of_getElem? hat)).2
      refine ⟨hP h _ e x ?_ ?_ hx, hsize, hring⟩
      · exact (hm.record_of_ne hi.loop (hprod ▸ hn)).symm
      · exact (record_jobs_of_ne (hprod ▸ hn)).symm
    · cases heq.symm.trans hpc

/-- Every member fills its ring's slot. -/
theorem Move.size (hi : NetInv junk g P s h) (hm : Move g s a eff p) {x : List UInt8}
    (hx : x ∈ (record g s h a).sent e) : x.length = (g.edge e).attr.nrProduce := by
  cases hm with
  | wait t ans w eff p hpc hm =>
    rw [WaitMove.record_sent hpc] at hx
    exact hi.size e x hx
  | prod t m ans cmd b err q eff p hpc hm =>
    obtain rfl : t = m := hi.loop.term.owner t m cmd b err q hpc
    have hsends := hi.ring.place.sends t t cmd b err q hpc
    cases hm with
    | ringWrite i e' y tw hlt =>
      obtain rfl : cmd = .normal := hsends
      rw [record_ringWrite hpc] at hx
      by_cases hee : e = e'
      · subst hee
        simp only [Function.update_self, List.mem_append, List.mem_singleton] at hx
        rcases hx with hx | rfl
        · exact hi.size e x hx
        · exact (hi.user t b err i e x tw hpc).2.1
      · simp only [Function.update_of_ne hee] at hx
        exact hi.size e x hx
    | _ =>
      simp only [record, hpc] at hx
      exact hi.size e x hx
  | _ => exact hi.size e x hx

/-! ## Every run -/

theorem WorkThread.byOwner (hl : LoopInv g s) (ha : WorkThread g s a) : ByOwner s a := by
  cases a with
  | wait n =>
    obtain ⟨-, hsrc, htop⟩ := ha
    have hloop := hl.loop n
    unfold Pc.atTop at htop
    split at htop
    · rename_i hpc
      rw [hpc] at hloop
      exact hloop hsrc
    · cases htop
  | complete t n => exact ha.1
  | terminate t n => exact ha.1
  | _ => trivial

/-- **One step.** -/
theorem step_netInv (hg : CvRingGraph g) (hP : Local g P) (ha : NetAct g (s, h) a)
    (hw : Writes g P (s, h) a) (hi : NetInv junk g P s h) (hs : step g s a = some s') :
    NetInv junk g P s' (record g s h a) := by
  have hwork : WorkThread g s a := ha.1
  have htest : Tested g s a := ha.2
  have hring := step_ringInv hg (hwork.byOwner hi.loop) htest hi.ring hs
  have hloop := step_loopInv hwork (hi.recv.decided hg hi.ring hi.loop htest) hi.loop hs
  have hrecv := step_recvInv hg hi.ring.place hi.recv hs
  have huser : ∀ n b err i e x tw, s'.pc n = .prod n .normal b err (.ringWrite i e x tw) →
      P (record g s h a) e x ∧ x.length = (g.edge e).attr.nrProduce ∧
        (g.edge e).attr.type = .ring :=
    fun _ _ _ _ _ _ _ hpc => step_user hP hw hi hs hpc
  obtain ⟨eff, p, hm, rfl⟩ := step_move hs
  -- a node that has not ended had not ended before
  have hopen : ∀ n e, e ∈ g.inEdges n →
      ¬ Ending ((s.apply g a.thread eff).setPc a.thread p) n → ¬ Ending s n := by
    intro n e he hnew hold
    exact hnew (hm.ending htest (nrInSignaled_ne hg he) hold)
  refine ⟨hring, hloop, hrecv, hm.netReach hi, ?_, ?_, huser, ?_, ?_, ?_⟩
  · intro n
    by_cases hn : n = a.thread
    · subst hn
      have hstep := hm.jobs (h := h)
      have hold := hi.jobs a.thread
      change _ = (s.apply g a.thread eff).fired a.thread
      omega
    · rw [record_jobs_of_ne hn, hi.jobs n]
      exact (fired_of_ne hm hn).symm
  · intro n e hsrc he hr
    have hold := hi.sent n e hsrc he hr
    by_cases hn : n = a.thread
    · subst hn
      have hstep := hm.toWrite (h := h) hg hwork hi.ring.place hi.loop hsrc he hr
      rw [setPc_pc_self]
      change _ = (s.apply g a.thread eff).fired a.thread
      omega
    · have hprod : (g.edge e).producer = n := (Graph.mem_outEdges.mp he).2
      have hpcs : (((s.apply g a.thread eff).setPc a.thread p).pc n).toWrite g e =
          (s.pc n).toWrite g e := by
        rcases pc_of_ne (g := g) (s := s) eff p hn with heq | ⟨-, hasleep, heq⟩
        · rw [heq]
        · rw [heq, hasleep]
          rfl
      rw [hm.record_of_ne hi.loop (hprod ▸ hn), hpcs, hold]
      exact (fired_of_ne hm hn).symm
  · intro e x hx
    exact hm.size hi hx
  · intro n j e he hend
    have hold := hopen n e (List.mem_of_getElem? he) hend
    refine hm.skipsLeft (fun i hpc => ?_) he ?_ (hi.skips n j e he hold)
    · have hloop := hi.loop.loop n
      rw [hpc] at hloop
      exact hloop.2.2 rfl
    · exact Bool.eq_false_iff.mpr (fun hterm => hend (Or.inl hterm))
  · intro n e he hr hend
    obtain ⟨j, hj⟩ := List.mem_iff_getElem?.mp he
    exact hm.holds hg hi hj hr (hopen n e he hend) hend

theorem initState_netInv (junk : Junk) (g : Graph) (P : Record → Nat → List UInt8 → Prop) :
    NetInv junk g P (initState junk g) Kahn.start where
  ring := initState_ringInv junk g
  loop := initState_loopInv junk g
  recv := ⟨by rintro _ _ _ ⟨⟩, by rintro _ _ _ ⟨⟩⟩
  reach := .refl
  jobs _ := rfl
  sent _ _ _ _ _ := rfl
  user := by rintro _ _ _ _ _ _ _ ⟨⟩
  size := by rintro _ _ ⟨⟩
  skips _ _ _ _ _ := rfl
  holds n e _ _ _ := by
    have hread : (initState junk g).nrRead g n e = 0 := Nat.zero_sub _
    refine ⟨?_, ?_, ?_⟩
    · rw [hread]
      exact Nat.zero_le _
    · rw [hread]
      rfl
    · rw [hread]
      rfl

theorem netInv_of_reach (hg : CvRingGraph g) (hP : Local g P)
    (hr : Lts.Reach (watch g) (fun w a => NetAct g w a ∧ Writes g P w a)
      (initState junk g, Kahn.start) (s, h)) : NetInv junk g P s h := by
  refine Lts.Reach.inv (I := fun w => NetInv junk g P w.1 w.2) (initState_netInv junk g P) ?_ hr
  rintro ⟨s, h⟩ a w - hi ⟨ha, hw⟩ hs
  obtain ⟨s', hs', rfl⟩ := Option.map_eq_some_iff.mp hs
  exact step_netInv hg hP ha hw hi hs'

theorem local_next (f : Nat → Nat → List (Nat → List UInt8) → List UInt8) :
    Local g (fun h e x => x = nextMember g f h e) := by
  intro h h' e x hsent hjobs hx
  rw [hx]
  unfold nextMember
  rw [hsent]
  exact congrArg (fun js => f e _ (List.take _ js)) hjobs

theorem writes_of_computes {f : Nat → Nat → List (Nat → List UInt8) → List UInt8}
    {w : State × Record} (hc : computes g f w a = true) :
    Writes g (fun h e x => x = nextMember g f h e) w a := by
  unfold Writes
  split
  · intro n b err i tw hpc e he
    simpa [computes, hpc, he] using hc
  · trivial

/-- **Delivery.** Job number `k` of a node finds in the buffer of a ring, after its skips, member
number `k - skips` of all that were ever written into it: none is lost, doubled or exchanged, in any
interleaving. Before that the buffer is as it was allocated. -/
theorem jobs_get_messages (hg : CvRingGraph g)
    (hr : Lts.Reach (watch g) (NetAct g) (initState junk g, Kahn.start) (s, h)) {k : Nat}
    {js : Nat → List UInt8} (hjob : (h.jobs n)[k]? = some js) (he : e ∈ g.inEdges n)
    (hring : (g.edge e).attr.type = .ring) :
    (k < (g.edge e).skips → js e = initBuf junk g e) ∧
    ((g.edge e).skips ≤ k → (h.sent e)[k - (g.edge e).skips]? = some (js e)) := by
  have hreach : Lts.Reach (watch g) (fun w a => NetAct g w a ∧ Writes g (fun _ _ _ => True) w a)
      (initState junk g, Kahn.start) (s, h) := by
    refine hr.mono ?_
    intro w a ha
    refine ⟨ha, ?_⟩
    unfold Writes
    split
    · exact fun _ _ _ _ _ _ _ _ => trivial
    · trivial
  have hi := netInv_of_reach hg (fun _ _ _ _ _ _ _ => trivial) hreach
  obtain ⟨hgiven, hlt⟩ := hi.reach.fed.jobs n k js hjob
  have hreads : readsRing g n e = true := readsRing_iff.mpr ⟨he, hring⟩
  have hlt : k < (g.edge e).skips + (h.sent e).length := hlt e hreads
  have hview : js e = if k < (g.edge e).skips then initBuf junk g e
      else (h.sent e).getD (k - (g.edge e).skips) (initBuf junk g e) := by
    rw [hgiven]
    exact if_pos hreads
  constructor
  · intro hk
    rw [hview, if_pos hk]
  · intro hk
    rw [hview, if_neg (Nat.not_lt.mpr hk), List.getD_eq_getElem _ _ (by omega)]
    exact List.getElem?_eq_getElem (by omega)

/-- **Determinism.** Two runs of the threads, in which what a node writes is the same function of
what its jobs were given, put the same members into each ring and give the same to the jobs of each
node, as far as both have come. Both begin with the same bytes in the buffers, which the jobs see
while there are skips left. -/
theorem messages_determined (hg : CvRingGraph g)
    {f : Nat → Nat → List (Nat → List UInt8) → List UInt8} {h' : Record}
    (hr : Lts.Reach (watch g) (fun w a => NetAct g w a ∧ computes g f w a = true)
      (initState junk g, Kahn.start) (s, h))
    (hr' : Lts.Reach (watch g) (fun w a => NetAct g w a ∧ computes g f w a = true)
      (initState junk g, Kahn.start) (s', h')) :
    (∀ e, h.sent e <+: h'.sent e ∨ h'.sent e <+: h.sent e) ∧
      ∀ n, h.jobs n <+: h'.jobs n ∨ h'.jobs n <+: h.jobs n := by
  have hnet : ∀ {s h}, Lts.Reach (watch g) (fun w a => NetAct g w a ∧ computes g f w a = true)
      (initState junk g, Kahn.start) (s, h) →
      (network junk g).Reach (fun h e x => x = nextMember g f h e) h := by
    intro s h hr
    have hw := hr.mono (fun w a ha => And.intro ha.1 (writes_of_computes ha.2))
    exact (netInv_of_reach hg (local_next f) hw).reach
  obtain ⟨hsent, hjobs⟩ := Kahn.agree (hnet hr) (hnet hr')
  exact ⟨fun e => (hsent e).total, fun n => (hjobs n).total⟩

end

/-! ## Two members through a ring -/

def ringSend (x : UInt8) : List Act :=
  List.flatten [[.complete 0 0, .run 0 (.user [x])], runs 0 9]

def ringTwo : List Act :=
  List.flatten [ringSend 7, [.wait 1], runs 1 13, [.complete 1 1], runs 1 2, ringSend 8, [.wait 1],
    runs 1 13]

/-- The consumer waits before the only byte is sent. -/
def ringOne : List Act :=
  List.flatten [[.wait 1], runs 1 4, ringSend 7]

def countUp : Nat → Nat → List (Nat → List UInt8) → List UInt8 :=
  fun _ k _ => [UInt8.ofNat (k + 7)]

/-- The second job gets the second byte. -/
theorem ring_delivers :
    CvRingGraph ringPair ∧ ∃ s h js,
      Lts.Reach (watch ringPair) (NetAct ringPair) (initState zeroed ringPair, Kahn.start) (s, h) ∧
      (h.jobs 1)[1]? = some js ∧ h.sent 0 = [[7], [8]] ∧ (h.sent 0)[1]? = some (js 0) := by
  have hg : CvRingGraph ringPair := by decide
  have hd : (Lts.drive (watch ringPair) (fun w a => decide (NetAct ringPair w a))
      (initState zeroed ringPair, Kahn.start) ringTwo).map
        (fun w => (w.2.sent 0, (w.2.jobs 1).length)) = some ([[7], [8]], 2) := rfl
  obtain ⟨⟨s, h⟩, hr, hobs⟩ := Lts.reach_of_drive_map (fun w a h => of_decide_eq_true h) hd
  simp only [Prod.mk.injEq] at hobs
  obtain ⟨hsent, hlen⟩ := hobs
  obtain ⟨js, hjs⟩ : ∃ js, (h.jobs 1)[1]? = some js :=
    ⟨_, List.getElem?_eq_getElem (by omega)⟩
  have hdeliver := jobs_get_messages hg hr (e := 0) hjs (by decide) rfl
  exact ⟨hg, s, h, js, hr, hjs, hsent, hdeliver.2 (Nat.zero_le 1)⟩

/-- What the shorter run sent is the beginning of what the longer one did. -/
theorem ring_runs_agree :
    CvRingGraph ringPair ∧ ∃ s h s' h',
      Lts.Reach (watch ringPair)
        (fun w a => NetAct ringPair w a ∧ computes ringPair countUp w a = true)
        (initState zeroed ringPair, Kahn.start) (s, h) ∧
      Lts.Reach (watch ringPair)
        (fun w a => NetAct ringPair w a ∧ computes ringPair countUp w a = true)
        (initState zeroed ringPair, Kahn.start) (s', h') ∧
      (h.sent 0).length = 1 ∧ (h'.sent 0).length = 2 ∧ h.sent 0 <+: h'.sent 0 := by
  have hg : CvRingGraph ringPair := by decide
  have hone : (Lts.drive (watch ringPair)
      (fun w a => decide (NetAct ringPair w a ∧ computes ringPair countUp w a = true))
      (initState zeroed ringPair, Kahn.start) ringOne).map (fun w => (w.2.sent 0).length) =
        some 1 := rfl
  have htwo : (Lts.drive (watch ringPair)
      (fun w a => decide (NetAct ringPair w a ∧ computes ringPair countUp w a = true))
      (initState zeroed ringPair, Kahn.start) ringTwo).map (fun w => (w.2.sent 0).length) =
        some 2 := rfl
  obtain ⟨⟨s, h⟩, hr, hlen⟩ := Lts.reach_of_drive_map (fun w a h => of_decide_eq_true h) hone
  obtain ⟨⟨s', h'⟩, hr', hlen'⟩ := Lts.reach_of_drive_map (fun w a h => of_decide_eq_true h) htwo
  simp only at hlen hlen'
  refine ⟨hg, s, h, s', h', hr, hr', hlen, hlen', ?_⟩
  rcases (messages_determined hg hr hr').1 0 with hle | hle
  · exact hle
  · have hlong := hle.length_le
    omega

end Pgm
