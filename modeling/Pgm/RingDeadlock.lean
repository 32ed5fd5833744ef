import Pgm.RingTokens

/-! One ring edge between a producer and a consumer. The producer fills the ring and blocks in its
write, the consumer sleeps until the counter comes to the threshold. Both wait for good when a full
ring holds fewer tokens than the threshold, and only then. -/

namespace Pgm

open Function (update)

/-- The producer, node 0, repeats `pgm_complete`; the consumer, node 1, repeats `pgm_wait`. -/
def PairPlay : Act → Prop
  | .complete t n => t = 0 ∧ n = 0
  | .wait n => n = 1
  | .run _ _ | .spurious _ => True
  | .terminate _ _ => False

instance : (a : Act) → Decidable (PairPlay a)
  | .complete t n => inferInstanceAs (Decidable (t = 0 ∧ n = 0))
  | .wait n => inferInstanceAs (Decidable (n = 1))
  | .run _ _ | .spurious _ => inferInstanceAs (Decidable True)
  | .terminate _ _ => inferInstanceAs (Decidable False)

/-- The producer is in its write on a full ring, and the consumer sleeps for more tokens. -/
structure RingStuck (attr : EdgeAttr) (s : State) : Prop where
  producer : ∃ n cmd w err i x tw, s.pc 0 = .prod n cmd w err (.ringWrite i 0 x tw)
  full : RingBuf.ringCount attr.nmemb ≤ (s.data.queue 0).length
  consumer : s.pc 1 = .wait .asleep
  short : s.nrPending 0 < attr.nrThreshold

def Pc.Plays : Pc → Prop
  | .idle _ => True
  | .wait w => w.ends = false ∧ ∀ i, w ≠ .consume .terminate i
  | .prod _ cmd _ _ _ => cmd = .normal

/-- Nobody terminates, and only node 1 is waited for. -/
structure Playing (s : State) : Prop where
  signals : s.nrTerminateSignals 1 = 0
  terminated : ∀ n, s.terminated n = false
  plays : ∀ t, (s.pc t).Plays
  consumer : ∀ n w, s.pc n = .wait w → n = 1

section

variable {junk : Junk} {attr : EdgeAttr} {h : attr.Accepted} {g : Graph} {s s' : State} {a : Act}
  {eff : Effect} {p : Pc} {n e t : Nat}

theorem pair_cvRing (hr : attr.type = .ring) : CvRingGraph (.pair attr h) := by
  intro e he
  rw [List.mem_singleton.mp he]
  exact Or.inr hr

theorem pair_outEdges : (Graph.pair attr h).outEdges 0 = [0] := rfl

theorem pair_inEdges : (Graph.pair attr h).inEdges 1 = [0] := rfl

theorem pair_edge : (Graph.pair attr h).edge 0 = forwardEdge 0 1 attr h := rfl

theorem pair_signaled (hr : attr.type = .ring) :
    ((Graph.pair attr h).edge 0).isSignalDriven = true := by
  rw [Edge.isSignalDriven, pair_edge]
  exact congrArg EdgeType.isSignalDriven hr

theorem pair_nrInSignaled (hr : attr.type = .ring) : (Graph.pair attr h).nrInSignaled 1 = 1 := by
  rw [Graph.nrInSignaled, Graph.nrInWith, pair_inEdges]
  simp [pair_signaled hr]

theorem pair_nrInSignaledForward (hr : attr.type = .ring) :
    (Graph.pair attr h).nrInSignaledForward 1 = 1 := by
  rw [Graph.nrInSignaledForward_eq, Graph.nrInWith, pair_inEdges]
  simp [pair_signaled hr, show ((Graph.pair attr h).edge 0).isBackedge = false from rfl]

/-! ## No deadlock when a full ring is enough -/

theorem WaitMove.plays {ans : Answer} {w : WaitPc} (hr : attr.type = .ring)
    (hsig : s.nrTerminateSignals 1 = 0) (hw : (Pc.wait w).Plays)
    (hm : WaitMove (.pair attr h) s 1 ans w eff p) : p.Plays ∧ ∀ n, eff ≠ .terminate n := by
  obtain ⟨hends, hret⟩ := hw
  cases hm with
  | startData hz =>
    rw [pair_nrInSignaled hr] at hz
    cases hz
  | allTerm l hall =>
    rw [pair_nrInSignaledForward hr, hsig] at hall
    cases hall
  | allReady l | someReady l | noTerm l | notAllTerm l =>
    cases l <;> exact ⟨⟨rfl, nofun⟩, nofun⟩
  | unlock tok | noData tok | recvStart tok | recvNone tok | recv tok | recvDone tok =>
    cases tok with
    | exhaustedAndTerminate => cases hends
    | _ => exact ⟨⟨rfl, nofun⟩, nofun⟩
  | toConsume tok dat hn hne =>
    refine ⟨⟨rfl, fun i heq => hne ?_⟩, nofun⟩
    injection heq
  | toSkips tok dat hn =>
    have hret : waitRet tok dat = .terminate := by
      by_contra hne
      exact hn ⟨by rw [pair_nrInSignaled hr]; decide, hne⟩
    unfold waitRet at hret
    split at hret
    · rename_i hboth
      rw [hboth.1] at hends
      cases hends
    · split at hret <;> cases hret
  | consume ret i e hi hs | consumePass ret i e hi hs =>
    refine ⟨⟨rfl, fun j heq => hret i ?_⟩, nofun⟩
    injection heq with heq
    rw [heq]
  | consumed ret i hi =>
    cases ret with
    | terminate => exact absurd rfl (hret i)
    | _ => exact ⟨⟨rfl, nofun⟩, nofun⟩
  | skip ret i e hi | skipPass ret i e hi =>
    cases ret with
    | terminate => cases hends
    | _ => exact ⟨⟨rfl, nofun⟩, nofun⟩
  | terminate => cases hends
  | fire | fail => exact ⟨trivial, nofun⟩
  | _ => exact ⟨⟨rfl, nofun⟩, nofun⟩

theorem ProdMove.plays {m : Nat} {w err : Bool} {ans : Answer} {q : ProdPc}
    (hm : ProdMove g s m .normal w err ans q eff p) :
    p.Plays ∧ (∀ n, eff ≠ .terminate n) ∧ ∀ e, eff ≠ .addTerminate e := by
  cases hm with
  | termSignal i e tw hc => cases hc
  | done => exact ⟨trivial, nofun, nofun⟩
  | _ => exact ⟨rfl, nofun, nofun⟩

theorem Move.plays (hr : attr.type = .ring) (ha : PairPlay a) (hi : Playing s)
    (hm : Move (.pair attr h) s a eff p) :
    p.Plays ∧ (∀ n, eff ≠ .terminate n) ∧ (∀ e, eff ≠ .addTerminate e) ∧
      ∀ w, p = .wait w → a.thread = 1 := by
  cases hm with
  | callWait n last hpc => exact ⟨⟨rfl, nofun⟩, nofun, nofun, fun _ _ => ha⟩
  | callComplete => exact ⟨rfl, nofun, nofun, nofun⟩
  | callTerminate => exact ha.elim
  | spurious t hpc => exact ⟨⟨rfl, nofun⟩, nofun, nofun, fun _ _ => hi.consumer t _ hpc⟩
  | wait t ans w eff p hpc hm =>
    obtain rfl := hi.consumer t w hpc
    obtain ⟨hp, heff⟩ := hm.plays hr hi.signals (hpc ▸ hi.plays 1)
    refine ⟨hp, heff, ?_, fun _ _ => rfl⟩
    rintro e rfl
    cases hm
  | prod t n ans cmd w err q eff p hpc hm =>
    have hcmd : (s.pc t).Plays := hi.plays t
    rw [hpc] at hcmd
    obtain rfl : cmd = .normal := hcmd
    obtain ⟨hp, hterm, hsig⟩ := hm.plays
    exact ⟨hp, hterm, hsig, fun v hv => absurd hv (hm.not_wait v)⟩

theorem step_playing (hr : attr.type = .ring) (ha : PairPlay a) (hi : Playing s)
    (hs : step (.pair attr h) s a = some s') : Playing s' := by
  obtain ⟨eff, p, hm, rfl⟩ := step_move hs
  obtain ⟨hp, hterm, hsig, hwait⟩ := hm.plays hr ha hi
  have hothers : ∀ t, t ≠ a.thread → ∀ q,
      ((s.apply (.pair attr h) a.thread eff).setPc a.thread p).pc t = q →
      q = s.pc t ∨ (s.pc t = .wait .asleep ∧ q = .wait .woken) := by
    rintro t ht q rfl
    exact (pc_of_ne eff p ht).imp id (fun hw => hw.2)
  refine ⟨?_, fun n => ?_, fun t => ?_, fun n w hw => ?_⟩
  · cases eff with
    | addTerminate e => exact absurd rfl (hsig e)
    | _ => exact hi.signals
  · cases eff with
    | terminate m => exact absurd rfl (hterm m)
    | _ => exact hi.terminated n
  · by_cases ht : t = a.thread
    · rw [ht, setPc_pc_self]
      exact hp
    · rcases hothers t ht _ rfl with heq | ⟨-, heq⟩
      · rw [heq]
        exact hi.plays t
      · rw [heq]
        exact ⟨rfl, nofun⟩
  · by_cases hn : n = a.thread
    · rw [hn, setPc_pc_self] at hw
      rw [hn]
      exact hwait w hw
    · rcases hothers n hn _ hw with heq | ⟨hasleep, -⟩
      · exact hi.consumer n w heq.symm
      · exact hi.consumer n _ hasleep

theorem initState_playing (junk : Junk) (g : Graph) : Playing (initState junk g) :=
  ⟨rfl, fun _ => rfl, fun _ => trivial, by rintro _ _ ⟨⟩⟩

theorem Playing.byOwner (hi : Playing s) (ha : PairPlay a) : ByOwner s a := by
  cases a with
  | wait n => exact hi.terminated n
  | complete t n => exact ha.1.trans ha.2.symm
  | terminate => exact ha.elim
  | run => trivial
  | spurious => trivial

theorem Playing.tested (hi : Playing s) : Tested g s a := by
  unfold Tested consumesExhausted
  split
  · rename_i t ans
    split
    · rename_i dat hpc
      have hplays := hi.plays t
      rw [hpc] at hplays
      cases hplays.1
    · rfl
  · rfl

structure PairInv (attr : EdgeAttr) (h : attr.Accepted) (s : State) : Prop where
  playing : Playing s
  ring : RingInv (.pair attr h) s
  room : (s.data.queue 0).length ≤ RingBuf.ringCount attr.nmemb

theorem pairInv_of_reach (hr : attr.type = .ring)
    (hs : Lts.Reach (step (.pair attr h)) (fun _ a => PairPlay a) (initState junk (.pair attr h)) s) :
    PairInv attr h s := by
  refine Lts.Reach.inv (I := PairInv attr h) ⟨initState_playing junk _, initState_ringInv junk _, ?_⟩
    (fun s a s' _ hi ha hstep => ⟨step_playing hr ha hi.playing hstep, ?_, ?_⟩) hs
  · exact Nat.zero_le _
  · exact step_ringInv (pair_cvRing hr) (hi.playing.byOwner ha) hi.playing.tested hi.ring hstep
  · obtain ⟨eff, p, hm, rfl⟩ := step_move hstep
    exact hm.room (e := 0) (pair_cvRing hr) hi.ring.place hi.room

/-- A producer in front of its write and a consumer asleep are even: the counter is that of the
members in the ring. -/
theorem PairInv.pending (hr : attr.type = .ring) (hi : PairInv attr h s)
    (hst : RingStuck attr s) :
    s.nrPending 0 = attr.nrProduce * RingBuf.ringCount attr.nmemb % 2 ^ 64 := by
  obtain ⟨n, cmd, w, err, i, x, tw, hpc⟩ := hst.producer
  have hend : ¬ Ending s 1 := not_ending hi.ring.waiting hst.consumer rfl
  obtain ⟨k, hk, hunits⟩ := hi.ring.even 0 hr hend
  have hunc : (s.stock (.pair attr h) 0).uncounted = 0 := by
    change (s.pc 0).uncounted 0 = 0
    rw [hpc]
    cases cmd <;> rfl
  have hunp : (s.stock (.pair attr h) 0).unpaid = 0 := by
    change s.unpaid (.pair attr h) 0 = 0
    have hcons : ((Graph.pair attr h).edge 0).consumer = 1 := rfl
    unfold State.unpaid
    rw [hcons, hi.playing.terminated 1, hst.consumer]
    exact ite_self 0
  have hfull : (s.stock (.pair attr h) 0).queued = RingBuf.ringCount attr.nmemb :=
    le_antisymm hi.room hst.full
  have hcap : k = RingBuf.ringCount attr.nmemb := by omega
  rw [← hcap]
  exact hunits

/-! ## A deadlock when it is not -/

/-- What the two threads and the edge have come to. -/
structure Stage (s : State) (p q : Pc) (members tokens : Nat) (lock : Option Nat) : Prop where
  producer : s.pc 0 = p
  consumer : s.pc 1 = q
  members : (s.data.queue 0).length = members
  tokens : s.nrPending 0 = tokens
  lock : s.lock 1 = lock
  skips : s.nrSkips 0 = 0
  signals : s.nrTerminateSignals 1 = 0

/-- A run of the two comes to this. -/
def Staged (junk : Junk) (attr : EdgeAttr) (h : attr.Accepted) (p q : Pc)
    (members tokens : Nat) (lock : Option Nat) : Prop :=
  ∃ s, Lts.Reach (step (.pair attr h)) (fun _ a => PairPlay a) (initState junk (.pair attr h)) s ∧
    Stage s p q members tokens lock

variable {p' q q' : Pc} {k m k' m' : Nat} {l l' : Option Nat}

theorem Staged.next (hst : Staged junk attr h p q k m l) (a : Act) (ha : PairPlay a)
    (hnext : ∀ s, Stage s p q k m l → ∃ eff r, actStep (.pair attr h) s a = some (eff, r) ∧
      Stage ((s.apply (.pair attr h) a.thread eff).setPc a.thread r) p' q' k' m' l') :
    Staged junk attr h p' q' k' m' l' := by
  obtain ⟨s, hreach, hs⟩ := hst
  obtain ⟨eff, r, hact, hs'⟩ := hnext s hs
  have hstep : step (.pair attr h) s a =
      some ((s.apply (.pair attr h) a.thread eff).setPc a.thread r) := by
    rw [step, hact]
    rfl
  exact ⟨_, hreach.next ha hstep, hs'⟩

/-- A step of the producer that leaves memory alone. -/
theorem Staged.producer (hst : Staged junk attr h p q k m l) (a : Act) (ha : PairPlay a)
    (ht : a.thread = 0)
    (hact : ∀ s, Stage s p q k m l → actStep (.pair attr h) s a = some (.skip, p')) :
    Staged junk attr h p' q k m l := by
  refine hst.next a ha (fun s hs => ⟨_, _, hact s hs, ?_⟩)
  rw [ht]
  exact ⟨setPc_pc_self, (setPc_pc_of_ne (by decide)).trans hs.consumer, hs.members, hs.tokens,
    hs.lock, hs.skips, hs.signals⟩

/-- A step of the consumer that leaves memory alone. -/
theorem Staged.consumer (hst : Staged junk attr h p q k m l) (a : Act) (ha : PairPlay a)
    (ht : a.thread = 1)
    (hact : ∀ s, Stage s p q k m l → actStep (.pair attr h) s a = some (.skip, q')) :
    Staged junk attr h p q' k m l := by
  refine hst.next a ha (fun s hs => ⟨_, _, hact s hs, ?_⟩)
  rw [ht]
  exact ⟨(setPc_pc_of_ne (by decide)).trans hs.producer, setPc_pc_self, hs.members, hs.tokens,
    hs.lock, hs.skips, hs.signals⟩

def producing (q : ProdPc) : Pc := .prod 0 .normal false false q

theorem Staged.write (hr : attr.type = .ring) {last : Option WaitRet} {x : List UInt8}
    (hx : x.length = attr.nrProduce) (hst : Staged junk attr h (.idle last) q k m l) :
    Staged junk attr h (producing (.ringWrite 0 0 x [])) q k m l := by
  have hsend : Staged junk attr h (producing (.send 0 [])) q k m l := by
    refine hst.producer (.complete 0 0) ⟨rfl, rfl⟩ rfl (fun s hs => ?_)
    simp only [actStep, hs.producer]
    rfl
  refine hsend.producer (.run 0 (.user x)) trivial rfl (fun s hs => ?_)
  have hdata : ((Graph.pair attr h).edge 0).isDataPassing = true := ringData hr
  have hring : ((Graph.pair attr h).edge 0).attr.type.isRing = true :=
    congrArg EdgeType.isRing hr
  simp only [actStep, threadStep, hs.producer, producing, prodStep, pair_outEdges,
    List.getElem?_cons_zero, sendEdge, hdata, sendNormal, hring]
  simp [pair_edge, forwardEdge, hx]

theorem Staged.member (hr : attr.type = .ring) {last : Option WaitRet}
    {x : List UInt8} (hx : x.length = attr.nrProduce)
    (hst : Staged junk attr h (.idle last) q k m l) (hk : k < RingBuf.ringCount attr.nmemb) :
    Staged junk attr h (producing (.wake (if m < attr.nrThreshold ∧
        attr.nrThreshold ≤ Word.add 64 m attr.nrProduce then [1] else []))) q (k + 1)
      (Word.add 64 m attr.nrProduce) l := by
  have hwrite : Staged junk attr h (producing (.tokens 0 0 [])) q (k + 1) m l := by
    refine (hst.write hr hx).next (.run 0 .go) trivial (fun s hs => ?_)
    have hroom : (s.data.queue 0).length <
        RingBuf.ringCount ((Graph.pair attr h).edge 0).attr.nmemb := hs.members.trans_lt hk
    refine ⟨.data { s.data with queue := update s.data.queue 0 (s.data.queue 0 ++ [x]) },
      producing (.tokens 0 0 []), ?_, setPc_pc_self,
      (setPc_pc_of_ne (by decide)).trans hs.consumer, ?_, hs.tokens, hs.lock, hs.skips, hs.signals⟩
    · simp only [actStep, threadStep, hs.producer, producing, prodStep, if_pos hroom]
    · simp [State.setPc, State.apply, Act.thread, hs.members]
  have hcount : Staged junk attr h (producing (.send 1 (if m < attr.nrThreshold ∧
      attr.nrThreshold ≤ Word.add 64 m attr.nrProduce then [1] else []))) q (k + 1)
      (Word.add 64 m attr.nrProduce) l := by
    refine hwrite.next (.run 0 .go) trivial (fun s hs => ?_)
    refine ⟨.addTokens 0, producing (.send 1 _), ?_, setPc_pc_self,
      (setPc_pc_of_ne (by decide)).trans hs.consumer, hs.members, ?_, hs.lock, hs.skips, hs.signals⟩
    · simp [actStep, threadStep, hs.producer, producing, prodStep, crosses, hs.tokens, pair_edge,
        forwardEdge]
    · simp [State.setPc, State.apply, hs.tokens, pair_edge, forwardEdge]
  refine hcount.producer (.run 0 .go) trivial rfl (fun s hs => ?_)
  simp only [actStep, threadStep, hs.producer, producing, prodStep, pair_outEdges]
  rfl

/-- The producer wakes up nobody and returns. -/
theorem Staged.woken (hst : Staged junk attr h (producing (.wake [])) q k m l) :
    Staged junk attr h (.idle none) q k m l := by
  refine hst.producer (.run 0 .go) trivial rfl (fun s hs => ?_)
  simp only [actStep, threadStep, hs.producer, producing, prodStep]
  rfl

/-- The producer finds the consumer's edge ready and signals. -/
theorem Staged.signaled (hr : attr.type = .ring) {last : Option WaitRet}
    (hst : Staged junk attr h (producing (.wake [1])) (.idle last) k m none)
    (hm : attr.nrThreshold ≤ m) :
    Staged junk attr h (producing (.wake [])) (.idle last) k m none := by
  have hlock : Staged junk attr h (producing (.recheck 1 0 0 [])) (.idle last) k m (some 0) := by
    refine hst.next (.run 0 .go) trivial (fun s hs => ?_)
    refine ⟨.acquire 1, producing (.recheck 1 0 0 []), ?_, setPc_pc_self,
      (setPc_pc_of_ne (by decide)).trans hs.consumer, hs.members, hs.tokens, ?_, hs.skips, hs.signals⟩
    · simp [actStep, threadStep, hs.producer, producing, prodStep, hs.lock]
    · simp [State.setPc, State.apply, Act.thread]
  have hcheck : Staged junk attr h (producing (.recheck 1 1 1 [])) (.idle last) k m (some 0) := by
    refine hlock.producer (.run 0 .go) trivial rfl (fun s hs => ?_)
    have hready : readyEdge (.pair attr h) s 0 = true :=
      readyEdge_iff.mpr ⟨pair_signaled hr, Or.inl (hm.trans_eq hs.tokens.symm)⟩
    simp only [actStep, threadStep, hs.producer, producing, prodStep, pair_inEdges,
      List.getElem?_cons_zero, hready]
    rfl
  have hsignal : Staged junk attr h (producing (.signal 1 [])) (.idle last) k m (some 0) := by
    refine hcheck.producer (.run 0 .go) trivial rfl (fun s hs => ?_)
    simp only [actStep, threadStep, hs.producer, producing, prodStep, pair_inEdges,
      pair_nrInSignaled hr]
    rfl
  have hunlock : Staged junk attr h (producing (.unlock 1 [])) (.idle last) k m (some 0) := by
    refine hsignal.next (.run 0 .go) trivial (fun s hs => ?_)
    refine ⟨.signal 1, producing (.unlock 1 []), ?_, setPc_pc_self, ?_, hs.members, hs.tokens,
      hs.lock, hs.skips, hs.signals⟩
    · simp only [actStep, threadStep, hs.producer, producing, prodStep]
    · simp [State.setPc, State.apply, Act.thread, hs.consumer, wakeUp]
  refine hunlock.next (.run 0 .go) trivial (fun s hs => ?_)
  refine ⟨.release 1, producing (.wake []), ?_, setPc_pc_self,
    (setPc_pc_of_ne (by decide)).trans hs.consumer, hs.members, hs.tokens, ?_, hs.skips, hs.signals⟩
  · simp only [actStep, threadStep, hs.producer, producing, prodStep]
  · simp [State.setPc, State.apply, Act.thread]

theorem Staged.complete (hr : attr.type = .ring) {last last' : Option WaitRet}
    (hst : Staged junk attr h (.idle last) (.idle last') k m none)
    (hk : k < RingBuf.ringCount attr.nmemb) :
    Staged junk attr h (.idle none) (.idle last') (k + 1) (Word.add 64 m attr.nrProduce) none := by
  have hmember := hst.member hr (List.length_replicate (a := 0)) hk
  split_ifs at hmember with hcross
  · exact (hmember.signaled hr hcross.2).woken
  · exact hmember.woken

/-- The ring is filled while the consumer does not wait. -/
theorem staged_fill (hr : attr.type = .ring) (hk : k ≤ RingBuf.ringCount attr.nmemb) :
    Staged junk attr h (.idle none) (.idle none) k (attr.nrProduce * k % 2 ^ 64) none := by
  induction k with
  | zero =>
    refine ⟨_, .refl _, rfl, rfl, rfl, ?_, rfl, rfl, rfl⟩
    simp [initState, initPending, pair_edge, forwardEdge, hr]
  | succ k ih =>
    have hnext := (ih (by omega)).complete hr hk
    rwa [Word.add, Nat.mod_add_mod, ← Nat.mul_succ] at hnext

/-- A scan of the in-edge that finds too few tokens. -/
theorem Staged.scan (hr : attr.type = .ring) {b : Bool} (hm : m < attr.nrThreshold)
    (hst : Staged junk attr h p (.wait (.scan b 0 0 0)) k m l) :
    Staged junk attr h p (.wait (mustWait b)) k m l := by
  have hread : Staged junk attr h p (.wait (.scan b 1 0 0)) k m l := by
    refine hst.consumer (.run 1 .go) trivial rfl (fun s hs => ?_)
    have hready : readyEdge (.pair attr h) s 0 = false := by
      have hle : ¬ attr.nrThreshold ≤ s.nrPending 0 := by
        rw [hs.tokens]
        omega
      simp [readyEdge, hs.skips, pair_edge, forwardEdge, hle]
    simp only [actStep, threadStep, hs.consumer, waitStep, pair_inEdges, List.getElem?_cons_zero,
      hready]
    rfl
  have hnone : Staged junk attr h p (.wait (.termNonzero b)) k m l := by
    refine hread.consumer (.run 1 .go) trivial rfl (fun s hs => ?_)
    simp only [actStep, threadStep, hs.consumer, waitStep, pair_inEdges, scanned,
      pair_nrInSignaled hr]
    rfl
  refine hnone.consumer (.run 1 .go) trivial rfl (fun s hs => ?_)
  simp only [actStep, threadStep, hs.consumer, waitStep, if_pos hs.signals]

/-- The consumer waits for tokens and falls asleep. -/
theorem Staged.sleep (hr : attr.type = .ring) {last : Option WaitRet} (hm : m < attr.nrThreshold)
    (hst : Staged junk attr h p (.idle last) k m none) :
    Staged junk attr h p (.wait .asleep) k m none := by
  have hcall : Staged junk attr h p (.wait .start) k m none := by
    refine hst.consumer (.wait 1) rfl rfl (fun s hs => ?_)
    simp only [actStep, hs.consumer]
  have hstart : Staged junk attr h p (.wait (.scan false 0 0 0)) k m none := by
    refine hcall.consumer (.run 1 .go) trivial rfl (fun s hs => ?_)
    simp only [actStep, threadStep, hs.consumer, waitStep, pair_nrInSignaled hr]
    rfl
  have hlock : Staged junk attr h p (.wait (.scan true 0 0 0)) k m (some 1) := by
    refine (hstart.scan hr hm).next (.run 1 .go) trivial (fun s hs => ?_)
    refine ⟨.acquire 1, .wait (.scan true 0 0 0), ?_,
      (setPc_pc_of_ne (by decide)).trans hs.producer, setPc_pc_self, hs.members, hs.tokens, ?_,
      hs.skips, hs.signals⟩
    · simp [actStep, threadStep, hs.consumer, mustWait, waitStep, hs.lock]
    · simp [State.setPc, State.apply, Act.thread]
  refine (hlock.scan hr hm).next (.run 1 .go) trivial (fun s hs => ?_)
  refine ⟨.release 1, .wait .asleep, ?_, (setPc_pc_of_ne (by decide)).trans hs.producer,
    setPc_pc_self, hs.members, hs.tokens, ?_, hs.skips, hs.signals⟩
  · simp [actStep, threadStep, hs.consumer, mustWait, waitStep]
  · simp [State.setPc, State.apply, Act.thread]

/-- **A ring can deadlock exactly when it is too small for its threshold.** -/
theorem ring_deadlock_iff (hr : attr.type = .ring) :
    (∀ s, Lts.Reach (step (.pair attr h)) (fun _ a => PairPlay a) (initState junk (.pair attr h)) s →
      ¬ RingStuck attr s) ↔
    attr.nrThreshold ≤ attr.nrProduce * RingBuf.ringCount attr.nmemb % 2 ^ 64 := by
  constructor
  · intro hnone
    by_contra hlt
    obtain ⟨s, hs, hst⟩ := ((staged_fill (h := h) hr (Nat.le_refl _)).write hr
      (List.length_replicate (a := 0))).sleep hr (Nat.lt_of_not_le hlt)
    refine hnone s hs ⟨⟨_, _, _, _, _, _, _, hst.producer⟩, hst.members.ge, hst.consumer, ?_⟩
    rw [hst.tokens]
    exact Nat.lt_of_not_le hlt
  · intro hle s hs hst
    have hpend := (pairInv_of_reach hr hs).pending hr hst
    have hshort := hst.short
    omega

/-- A ring of one member with a threshold of one is large enough. -/
theorem ring_pair_plays :
    (ringAttrOf 1 1 1).type = .ring ∧
    ∀ s, Lts.Reach (step ringPair) (fun _ a => PairPlay a) (initState zeroed ringPair) s →
      ¬ RingStuck (ringAttrOf 1 1 1) s :=
  ⟨rfl, (ring_deadlock_iff rfl).mpr (by decide)⟩

end

/-! ## A ring of one member with a threshold of two -/

theorem smallRing_accepted : (ringAttrOf 1 2 1).Accepted :=
  ringAttrOf_accepted (by decide) (by decide) (by decide) (by decide)

def smallRing : Graph := .pair (ringAttrOf 1 2 1) smallRing_accepted

/-- One `pgm_complete`, a second one up to its write, and a `pgm_wait`. -/
def smallRun : List Act :=
  List.flatten [[.complete 0 0, .run 0 (.user [7])], runs 0 4, [.complete 0 0, .run 0 (.user [8])],
    [.wait 1], runs 1 9]

theorem smallRing_stuck :
    ∃ s, Lts.Reach (step smallRing) (fun _ a => PairPlay a) (initState zeroed smallRing) s ∧
      RingStuck (ringAttrOf 1 2 1) s := by
  have hd : (Lts.drive (step smallRing) (fun _ a => decide (PairPlay a)) (initState zeroed smallRing)
      smallRun).map (fun s => (s.pc 0, s.pc 1, s.data.queue 0, s.nrPending 0)) =
      some (producing (.ringWrite 0 0 [8] []), .wait .asleep, [[7]], 1) := rfl
  obtain ⟨s, hs, hobs⟩ := Lts.reach_of_drive_map (fun s a h => of_decide_eq_true h) hd
  simp only [Prod.mk.injEq] at hobs
  obtain ⟨hprod, hcons, hqueue, hpend⟩ := hobs
  refine ⟨s, hs, ⟨_, _, _, _, _, _, _, hprod⟩, ?_, hcons, ?_⟩
  · rw [hqueue]
    decide
  · rw [hpend]
    decide

end Pgm
