import Pgm.Lib.Reader
import Pgm.Link
import Pgm.Tap

/-! What flows over a data-passing edge of a running graph. The graph may have edges of all kinds, and
the writes and reads are cut and interleaved at will. No two edges share a FIFO, a queue or an
address: two producers of one FIFO would mix their bytes. `live_edges_have_fifos` says when the FIFOs
of a process are different.

* `step_flowInv`: along every run the consumer's end of the edge is a reader that cuts the payload
  into pieces of `nr_consume` bytes;
* `jobs_get_bytes`: each job gets the piece whose turn it is, until the end of the edge has been
  found. -/

namespace Pgm

open Function (update)

/-- `pgm_recv_data` returns before it has come to the end of its in-edges. -/
def givesUp (g : Graph) (s : State) : Act → Bool
  | .run t ans =>
    match s.pc t with
    | .wait (.recv _ r) =>
      match r.pc, recvStep g t s.nrSkips s.data r ans with
      | .edge _, _ => false
      | _, some (_, .done _) => true
      | _, _ => false
    | _ => false
  | _ => false

/-- Nodes are run by their owners and not after they have terminated, reads and writes are short or
would block and do nothing worse, and no call of `pgm_recv_data` gives up or comes back to edge `e`. -/
structure FlowAct (g : Graph) (e : Nat) (s : State) (a : Act) : Prop where
  owner : ByOwner s a
  once : AtMostOnce s a
  healthy : Healthy a
  reads : givesUp g s a = false
  spares : rereads g e s a = false

instance (g : Graph) (e : Nat) (s : State) (a : Act) : Decidable (FlowAct g e s a) :=
  decidable_of_iff (ByOwner s a ∧ AtMostOnce s a ∧ Healthy a ∧ givesUp g s a = false ∧
    rereads g e s a = false) ⟨fun ⟨h₁, h₂, h₃, h₄, h₅⟩ => ⟨h₁, h₂, h₃, h₄, h₅⟩,
      fun ⟨h₁, h₂, h₃, h₄, h₅⟩ => ⟨h₁, h₂, h₃, h₄, h₅⟩⟩

/-- Neither side of the wait has failed. -/
def WaitPc.Sound : WaitPc → Prop
  | .unlock st | .tokensDone st | .recv st _ => st = .success ∨ st = .exhaustedAndTerminate
  | .dataDone tok dat => (tok = .success ∨ tok = .exhaustedAndTerminate) ∧
      (dat = .success ∨ dat = .exhaustedAndTerminate)
  | .consume ret _ | .skips ret _ => ret ≠ .error
  | _ => True

/-- What the running call of `pgm_recv_data` has read of edge `e`, if it has not done with it. -/
def Pc.taking (g : Graph) (n e : Nat) : Pc → List UInt8
  | .wait (.recv _ r) => if e ∈ (g.inEdges n).take r.pc.pos then [] else r.taken e
  | _ => []

def State.reader (g : Graph) (s : State) (n e : Nat) : Reader UInt8 where
  done := s.nrRead g n e
  taken := (s.pc n).taking g n e
  rest := (s.data.chan e).payload (g.edge e).attr (s.more g e)
  buf := s.data.bufIn e

/-- The edge before its end has been found. `sent` is the payload. -/
structure Flowing (junk : Junk) (g : Graph) (s : State) (sent : List UInt8) (n e : Nat) :
    Prop where
  ok : (s.reader g n e).Ok (g.edge e).attr.nrConsume (initBuf junk g e) sent
  dest : ∀ tok r, s.pc n = .wait (.recv tok r) → e ∉ (g.inEdges n).take r.pc.pos →
    r.dest e = (r.taken e).length
  whole : (g.edge e).attr.type.isStream = false → ∀ tok r, s.pc n = .wait (.recv tok r) →
    e ∉ (g.inEdges n).take r.pc.pos → r.taken e = []
  idle : ∀ tok r, s.pc n = .wait (.recv tok r) → s.nrSkips e ≠ 0 → r.taken e = [] ∧ r.dest e = 0

/-- What job number `k` has found in the buffer of edge `e`. -/
structure Given (junk : Junk) (g : Graph) (sent : List UInt8) (counted e k : Nat)
    (buf : List UInt8) : Prop where
  early : k < (g.edge e).skips → buf = initBuf junk g e
  later : (g.edge e).skips ≤ k →
    ((k - (g.edge e).skips + 1) * (g.edge e).attr.nrConsume ≤ sent.length ∧
      buf = (sent.drop ((k - (g.edge e).skips) * (g.edge e).attr.nrConsume)).take
        (g.edge e).attr.nrConsume) ∨
    (counted ≠ 0 ∧ sent.length < (k - (g.edge e).skips + 1) * (g.edge e).attr.nrConsume)

/-- Edge `e`, in-edge number `j` of node `n`. -/
structure FlowInv (junk : Junk) (g : Graph) (n j e : Nat) (s : State) (h : Record) : Prop where
  chan : ChanInv g s
  waiting : NotEnded s
  sound : ∀ m w, s.pc m = .wait w → w.Sound
  skips : s.terminated n = false → SkipsLeft g s n j e
  count : (h.jobs n).length = s.fired n
  jobs : ∀ k js, (h.jobs n)[k]? = some js →
    Given junk g (h.sent e).flatten (s.data.counted e) e k (js e)
  member : ∀ t m cmd w err i e x tw, s.pc t = .prod m cmd w err (.ringWrite i e x tw) →
    cmd = .normal ∧ x.length = (g.edge e).attr.nrConsume
  ring : (g.edge e).attr.type.isRing = true → RingOk g s e
  reading : ∀ tok r i, s.pc n = .wait (.recv tok r) → r.pc.on = some (i, e) → s.nrSkips e = 0
  flowing : s.terminated n = false → s.data.counted e = 0 → Flowing junk g s (h.sent e).flatten n e
  ended : s.terminated n = false → s.data.counted e ≠ 0 →
    (h.sent e).flatten.length < s.nrRead g n e * (g.edge e).attr.nrConsume

section

variable {junk : Junk} {g : Graph} {s s' : State} {h : Record} {a : Act} {eff : Effect} {p : Pc}
  {n j e t : Nat}

/-! ## No wait fails -/

/-- A call that does not give up has come to the end of its in-edges. -/
theorem recvDone_out {ans : Answer} {tok st : WaitStatus} {r : Recv} {d : Data}
    (hup : givesUp g s (.run t ans) = false) (hpc : s.pc t = .wait (.recv tok r))
    (hstep : recvStep g t s.nrSkips s.data r ans = some (d, .done st)) :
    (g.inEdges t)[r.pc.pos]? = none ∧ d = s.data ∧ st = recvOut g t s.data .success := by
  simp only [givesUp, hpc, hstep] at hup
  cases hr : r.pc with
  | edge i =>
    rw [hr] at hup
    have hm := recvStep_move hstep
    cases hm with
    | out i' hpc' hi =>
      cases hr.symm.trans hpc'
      exact ⟨hi, rfl, rfl⟩
    | selectFailed hpc' => cases hr.symm.trans hpc'
    | read i' e' d nx hpc' => cases hr.symm.trans hpc'
  | _ =>
    rw [hr] at hup
    cases hup

theorem waitRet_sound {tok dat : WaitStatus} (htok : tok = .success ∨ tok = .exhaustedAndTerminate)
    (hdat : dat = .success ∨ dat = .exhaustedAndTerminate) : waitRet tok dat ≠ .error := by
  rcases htok with rfl | rfl <;> rcases hdat with rfl | rfl <;> decide

theorem WaitMove.sound {ans : Answer} {w w' : WaitPc} (hup : givesUp g s (.run t ans) = false)
    (hpc : s.pc t = .wait w) (hi : w.Sound) (hm : WaitMove g s t ans w eff p)
    (hp : p = .wait w') : w'.Sound := by
  cases hm with
  | startData h =>
    cases hp
    exact Or.inr rfl
  | allReady l i r rn h hr =>
    cases hp
    cases l <;> exact Or.inl rfl
  | allTerm l h =>
    cases hp
    cases l <;> exact Or.inr rfl
  | someReady l | noTerm l | notAllTerm l =>
    cases hp
    cases l <;> trivial
  | noData tok h =>
    cases hp
    exact ⟨hi, Or.inr rfl⟩
  | recvNone tok st h hr =>
    cases hp
    exact ⟨hi, recvStart_status hr⟩
  | recvDone tok st r d hstep =>
    cases hp
    obtain ⟨-, -, rfl⟩ := recvDone_out hup hpc hstep
    exact ⟨hi, recvOut_success g t _⟩
  | toConsume tok dat h hr =>
    cases hp
    exact waitRet_sound hi.1 hi.2
  | toSkips tok dat h =>
    cases hp
    exact waitRet_sound hi.1 hi.2
  | unlock st | recvStart tok r h hr | recv tok r r' d hstep | consume ret i e hi' h
  | consumePass ret i e hi' h | consumed ret i hi' | skip ret i e hi' h | skipPass ret i e hi' h =>
    cases hp
    exact hi
  | _ => cases hp <;> trivial

theorem step_sound (hup : givesUp g s a = false) (hi : ∀ m w, s.pc m = .wait w → w.Sound)
    (hm : Move g s a eff p) {m : Nat} {w : WaitPc}
    (hpc : ((s.apply g a.thread eff).setPc a.thread p).pc m = .wait w) : w.Sound := by
  by_cases hn : m = a.thread
  · subst hn
    rw [setPc_pc_self] at hpc
    cases hm with
    | wait t ans w' eff p hpc' hm => exact hm.sound hup hpc' (hi t w' hpc') hpc
    | prod t m ans cmd b err q eff p hpc' hm => exact absurd hpc (hm.not_wait _)
    | callWait | spurious => cases hpc; trivial
    | callComplete | callTerminate => cases hpc
  · rcases pc_of_ne (g := g) (s := s) eff p hn with heq | ⟨-, -, heq⟩
    · exact hi m w (heq.symm.trans hpc)
    · cases heq.symm.trans hpc
      trivial

/-! ## The consumer's call -/

theorem reader_of_recv {tok : WaitStatus} {r : Recv} (hpc : s.pc n = .wait (.recv tok r)) :
    s.reader g n e =
      ⟨s.fired n + (if e ∈ (g.inEdges n).take r.pc.pos then 1 else 0) - (g.edge e).skips,
        if e ∈ (g.inEdges n).take r.pc.pos then [] else r.taken e,
        (s.data.chan e).payload (g.edge e).attr (s.more g e), s.data.bufIn e⟩ := by
  simp only [State.reader, State.nrRead, hpc, Pc.hasRead, Pc.taking]

/-- A step of a thread that has the same in hand before and after it. -/
theorem more_of_step (eff : Effect)
    (hp : p.inHand (g.edge e).attr.type.isRing e = (s.pc t).inHand (g.edge e).attr.type.isRing e) :
    ((s.apply g t eff).setPc t p).more g e = s.more g e := by
  unfold State.more
  by_cases ht : (g.edge e).producer = t
  · rw [ht, setPc_pc_self, hp]
  · rcases pc_of_ne (g := g) (s := s) (a := .run t .go) eff p ht with heq | ⟨-, hold, heq⟩
    · exact congrArg (Pc.inHand _ e) heq
    · have hnew : (((s.apply g t eff).setPc t p).pc (g.edge e).producer).inHand
          (g.edge e).attr.type.isRing e = none := congrArg (Pc.inHand _ e) heq
      rw [hnew, hold]
      rfl

theorem skips_le_fired (hsk : SkipsLeft g s n j e) (hq : (s.pc n).skipped j = 0)
    (hz : s.nrSkips e = 0) : (g.edge e).skips ≤ s.fired n := by
  unfold SkipsLeft at hsk
  rw [hq] at hsk
  omega

section recv

variable {tok : WaitStatus} {r r' : Recv} {d : Data} {sent : List UInt8}

/-- The state after a step of `pgm_recv_data`. -/
def State.received (g : Graph) (s : State) (n : Nat) (tok : WaitStatus) (d : Data) (r : Recv) :
    State :=
  (s.apply g n (.data d)).setPc n (.wait (.recv tok r))

theorem reader_received (hpc : s.pc n = .wait (.recv tok r)) :
    (s.received g n tok d r').reader g n e =
      ⟨s.fired n + (if e ∈ (g.inEdges n).take r'.pc.pos then 1 else 0) - (g.edge e).skips,
        if e ∈ (g.inEdges n).take r'.pc.pos then [] else r'.taken e,
        (d.chan e).payload (g.edge e).attr (s.more g e), d.bufIn e⟩ := by
  have hnew : (s.received g n tok d r').pc n = .wait (.recv tok r') := setPc_pc_self
  have hmore : (s.received g n tok d r').more g e = s.more g e :=
    more_of_step (.data d) (by rw [hpc]; rfl)
  rw [reader_of_recv hnew, hmore]
  rfl

/-- A step of `pgm_recv_data` by the consumer of the edge. -/
theorem Flowing.recv (hflow : Flowing junk g s sent n e) (hpc : s.pc n = .wait (.recv tok r))
    (he : (g.inEdges n)[j]? = some e) (hsk : SkipsLeft g s n j e)
    (hdest : (g.edge e).attr.type.isStream = true → r.dest e < (g.edge e).attr.nrConsume)
    (hact : ∀ i, r.pc.on = some (i, e) → i = j ∧ r.pc.pos = i ∧ s.nrSkips e = 0)
    {nx : RecvNext} (hm : EdgeMove g n e s.nrSkips (s.more g e) s.data r d nx)
    (hnx : nx = .more r') :
    (d.counted e = s.data.counted e ∧ Flowing junk g (s.received g n tok d r') sent n e) ∨
      (d.counted e ≠ 0 ∧
        sent.length < (s.received g n tok d r').nrRead g n e * (g.edge e).attr.nrConsume) := by
  have hnew : (s.received g n tok d r').pc n = .wait (.recv tok r') := setPc_pc_self
  have hskipped : (s.pc n).skipped j = 0 := by rw [hpc]; rfl
  have hok := hflow.ok
  rw [reader_of_recv hpc] at hok
  cases hm with
  | same d' r'' hu hpos =>
    cases hnx
    refine Or.inl ⟨hu.data.counted, ?_, ?_, ?_, ?_⟩
    · rw [reader_received hpc, hu.data.chan, hu.data.bufIn, hu.taken _ rfl]
      simp only [hpos]
      exact hok
    · intro tok' r'' hpc' hnot
      cases hnew.symm.trans hpc'
      rw [hu.dest _ rfl, hu.taken _ rfl]
      exact hflow.dest tok r hpc (mt hpos.mpr hnot)
    · intro hs tok' r'' hpc' hnot
      cases hnew.symm.trans hpc'
      rw [hu.taken _ rfl]
      exact hflow.whole hs tok r hpc (mt hpos.mpr hnot)
    · intro tok' r'' hpc' hskip
      cases hnew.symm.trans hpc'
      rw [hu.dest _ rfl, hu.taken _ rfl]
      exact hflow.idle tok r hpc hskip
  | skipped d' r'' hu hskip =>
    cases hnx
    obtain ⟨htaken, hdest₀⟩ := hflow.idle tok r hpc hskip
    have hzero : ∀ k ≤ 1, s.fired n + k - (g.edge e).skips = 0 :=
      fun k hk => nrRead_of_skips hsk hskipped hskip hk
    refine Or.inl ⟨hu.data.counted, ?_, ?_, ?_, ?_⟩
    · rw [reader_received hpc, hu.data.chan, hu.data.bufIn, hu.taken _ rfl, htaken]
      rw [htaken] at hok
      rw [hzero _ (by split_ifs <;> omega), ite_self] at hok ⊢
      exact hok
    · intro tok' r'' hpc' hnot
      cases hnew.symm.trans hpc'
      rw [hu.dest _ rfl, hu.taken _ rfl, htaken, hdest₀]
      rfl
    · intro hs tok' r'' hpc' _
      cases hnew.symm.trans hpc'
      rw [hu.taken _ rfl, htaken]
    · intro tok' r'' hpc' _
      cases hnew.symm.trans hpc'
      rw [hu.dest _ rfl, hu.taken _ rfl]
      exact ⟨htaken, hdest₀⟩
  | payload i d' bs hs hon hrest hbuf hlen hzero hsame =>
    cases hnx
    obtain ⟨rfl, hpos, hz⟩ := hact i hon
    have hahead := Scan.not_mem_take (g.inEdges_nodup n) he
    have htaken : r.dest e = (r.taken e).length :=
      hflow.dest tok r hpc (by rw [hpos]; exact hahead)
    refine Or.inl ⟨hsame, ?_, ?_, ?_, ?_⟩
    · rw [reader_received hpc]
      rw [hpos] at hok
      simp only [RecvPc.pos, hahead, if_false] at hok ⊢
      have hstep := hok.take hrest (by rw [← htaken]; exact hlen)
      simpa [Recv.advance, hbuf, store, Reader.overwrite, htaken] using hstep
    · intro tok' r'' hpc' _
      cases hnew.symm.trans hpc'
      simp [Recv.advance, htaken]
    · intro hs'
      rw [hs] at hs'
      cases hs'
    · intro tok' r'' hpc' hskip
      exact absurd hz hskip
  | complete i d' bs hon hrest hbuf hlen hzero hsame =>
    cases hnx
    obtain ⟨rfl, hpos, hz⟩ := hact i hon
    have hahead := Scan.not_mem_take (g.inEdges_nodup n) he
    have hpassed : e ∈ (g.inEdges n).take (i + 1) := (Scan.mem_take_succ he).mpr (Or.inr rfl)
    have htaken : r.dest e = (r.taken e).length :=
      hflow.dest tok r hpc (by rw [hpos]; exact hahead)
    have hfired := skips_le_fired hsk hskipped hz
    refine Or.inl ⟨hsame, ?_, ?_, ?_, ?_⟩
    · rw [reader_received hpc]
      rw [hpos] at hok
      simp only [RecvPc.pos, hahead, hpassed, if_false, if_true] at hok ⊢
      have hstep := hok.finish hrest (by rw [← htaken]; exact hlen)
      have hdone : s.fired n + 1 - (g.edge e).skips = s.fired n + 0 - (g.edge e).skips + 1 := by
        omega
      rw [hdone]
      simpa [hbuf, store, Reader.overwrite, htaken] using hstep
    · intro tok' r'' hpc' hnot
      cases hnew.symm.trans hpc'
      exact absurd hpassed hnot
    · intro _ tok' r'' hpc' hnot
      cases hnew.symm.trans hpc'
      exact absurd hpassed hnot
    · intro tok' r'' hpc' hskip
      exact absurd hz hskip
  | stop i d' hon hrest hone =>
    cases hnx
    obtain ⟨rfl, hpos, hz⟩ := hact i hon
    have hahead := Scan.not_mem_take (g.inEdges_nodup n) he
    have hpassed : e ∈ (g.inEdges n).take (i + 1) := (Scan.mem_take_succ he).mpr (Or.inr rfl)
    have hnot : e ∉ (g.inEdges n).take r.pc.pos := by rw [hpos]; exact hahead
    have hfired := skips_le_fired hsk hskipped hz
    refine Or.inr ⟨hone, ?_⟩
    have hshort : (r.taken e).length < (g.edge e).attr.nrConsume := by
      by_cases hs : (g.edge e).attr.type.isStream = true
      · rw [← hflow.dest tok r hpc hnot]
        exact hdest hs
      · rw [hflow.whole (Bool.eq_false_of_not_eq_true hs) tok r hpc hnot]
        exact (g.edge e).accepted.consume_pos
    rw [hpos] at hok
    simp only [hahead, if_false] at hok
    have hend := hok.lt_of_end hrest hshort
    have hreads : (s.received g n tok d { r with pc := .edge (i + 1) }).nrRead g n e =
        s.fired n + 1 - (g.edge e).skips := by
      have hnext : (s.received g n tok d { r with pc := .edge (i + 1) }).reader g n e = _ :=
        reader_received hpc
      simpa [State.reader, RecvPc.pos, hpassed] using congrArg Reader.done hnext
    have hdone : s.fired n + 1 - (g.edge e).skips = s.fired n + 0 - (g.edge e).skips + 1 := by
      omega
    rw [hreads, hdone]
    exact hend

end recv

/-- Payload may be sent meanwhile, and the consumer's call stays where it is or begins. -/
theorem Flowing.send {sent x : List UInt8} (hflow : Flowing junk g s sent n e)
    (hreader : s'.reader g n e =
      { s.reader g n e with rest := (s.reader g n e).rest ++ x })
    (hrecv : ∀ tok r, s'.pc n = .wait (.recv tok r) →
      (s.pc n = .wait (.recv tok r) ∧ s'.nrSkips e = s.nrSkips e) ∨
        (r.taken e = [] ∧ r.dest e = 0)) : Flowing junk g s' (sent ++ x) n e := by
  refine ⟨?_, ?_, ?_, ?_⟩
  · rw [hreader]
    exact hflow.ok.send x
  · intro tok r hpc hnot
    rcases hrecv tok r hpc with ⟨hold, -⟩ | ⟨htaken, hdest⟩
    · exact hflow.dest tok r hold hnot
    · rw [htaken, hdest]
      rfl
  · intro hs tok r hpc hnot
    rcases hrecv tok r hpc with ⟨hold, -⟩ | ⟨htaken, -⟩
    · exact hflow.whole hs tok r hold hnot
    · exact htaken
  · intro tok r hpc hskip
    rcases hrecv tok r hpc with ⟨hold, hsame⟩ | hfresh
    · exact hflow.idle tok r hold (hsame ▸ hskip)
    · exact hfresh

theorem Flowing.congr {sent : List UInt8} (hflow : Flowing junk g s sent n e)
    (hreader : s'.reader g n e = s.reader g n e)
    (hrecv : ∀ tok r, s'.pc n = .wait (.recv tok r) →
      (s.pc n = .wait (.recv tok r) ∧ s'.nrSkips e = s.nrSkips e) ∨
        (r.taken e = [] ∧ r.dest e = 0)) : Flowing junk g s' sent n e := by
  have hsend := hflow.send (x := []) (hreader.trans (by rw [List.append_nil])) hrecv
  rwa [List.append_nil] at hsend

theorem recvStart_fresh {skips : Nat → Nat} {d : Data} {r : Recv}
    (h : recvStart g n skips d = .more r) : r.taken e = [] ∧ r.dest e = 0 := by
  unfold recvStart at h
  simp only at h
  split at h
  · cases h
  · cases h
    exact ⟨rfl, rfl⟩

theorem nrInData_ne_zero (he : e ∈ g.inEdges n) (hdata : (g.edge e).isDataPassing = true) :
    g.nrInData n ≠ 0 := by
  unfold Graph.nrInData Graph.nrInWith
  rw [Ne, List.countP_eq_zero]
  intro hnone
  exact hnone e he hdata

/-- The wait of the consumer outside of `pgm_recv_data`. -/
theorem WaitMove.reader {ans : Answer} {w : WaitPc} (hm : WaitMove g s n ans w eff p)
    (hpc : s.pc n = .wait w) (hdata : (g.edge e).isDataPassing = true)
    (he : (g.inEdges n)[j]? = some e) (hup : givesUp g s (.run n ans) = false) (hsound : w.Sound)
    (hsk : SkipsLeft g s n j e) (hopen : (s.apply g n eff).terminated n = false)
    (hout : ∀ tok r r' d, w = .recv tok r →
      recvStep g n s.nrSkips s.data r ans ≠ some (d, .more r')) :
    ((s.apply g n eff).setPc n p).reader g n e = s.reader g n e ∧
      (s.apply g n eff).data = s.data ∧
      ∀ tok r, p = .wait (.recv tok r) → r.taken e = [] ∧ r.dest e = 0 := by
  have hquiet : (s.apply g n eff).data = s.data →
      p.inHand (g.edge e).attr.type.isRing e = none →
      (s.apply g n eff).fired n + p.hasRead g n e - (g.edge e).skips =
        s.fired n + (Pc.wait w).hasRead g n e - (g.edge e).skips →
      p.taking g n e = (Pc.wait w).taking g n e →
      ((s.apply g n eff).setPc n p).reader g n e = s.reader g n e := by
    intro hd hmore hread htaking
    have hsame : ((s.apply g n eff).setPc n p).more g e = s.more g e :=
      more_of_step eff (by rw [hmore, hpc]; rfl)
    simp only [State.reader, State.nrRead, hsame, setPc_pc_self, hpc, htaking]
    change Reader.mk ((s.apply g n eff).fired n + _ - _) _
      (((s.apply g n eff).data.chan e).payload _ _) ((s.apply g n eff).data.bufIn e) = _
    rw [hread, hd]
  cases hm with
  | recv tok r r' d hstep => exact absurd hstep (hout tok r r' d rfl)
  | recvDone tok st r d hstep =>
    obtain ⟨hend, rfl, -⟩ := recvDone_out hup hpc hstep
    refine ⟨hquiet rfl rfl ?_ ?_, rfl, by rintro _ _ ⟨⟩⟩
    · simp [Pc.hasRead, Scan.take_of_end hend, List.mem_of_getElem? he, State.apply]
    · simp [Pc.taking, Scan.take_of_end hend, List.mem_of_getElem? he]
  | recvStart tok r hn hr =>
    have hfresh : r.taken e = [] ∧ r.dest e = 0 := recvStart_fresh hr
    refine ⟨hquiet rfl rfl ?_ ?_, rfl, ?_⟩
    · simp [Pc.hasRead, (recvStart_more hr).1, State.apply]
    · simp [Pc.taking, (recvStart_more hr).1, hfresh.1]
    · rintro _ _ ⟨⟩
      exact hfresh
  | recvNone tok st hn hr =>
    -- all in-edges have skips left
    have hne : s.nrSkips e ≠ 0 := fun hz => not_active_of_recvStart_done hr j e ⟨he, hdata, hz⟩
    have hz : (s.pc n).skipped j = 0 := by rw [hpc]; rfl
    refine ⟨hquiet rfl rfl ?_ rfl, rfl, by rintro _ _ ⟨⟩⟩
    exact (nrRead_of_skips hsk hz hne (Nat.le_refl 1)).trans
      (nrRead_of_skips hsk hz hne (Nat.zero_le 1)).symm
  | noData tok hn => exact absurd hn (nrInData_ne_zero (List.mem_of_getElem? he) hdata)
  | fire i hend =>
    exact ⟨hquiet rfl rfl (by simp [Pc.hasRead, State.apply]) rfl, rfl, by rintro _ _ ⟨⟩⟩
  | terminate i hend => simp [State.apply] at hopen
  | fail i hend => exact absurd rfl hsound
  | allReady l | someReady l | noTerm l | allTerm l | notAllTerm l =>
    refine ⟨hquiet rfl rfl (by cases l <;> rfl) (by cases l <;> rfl), rfl, ?_⟩
    cases l <;> rintro _ _ ⟨⟩
  | _ => exact ⟨hquiet rfl rfl rfl rfl, rfl, by rintro _ _ ⟨⟩⟩

/-- After the end has been found nothing is read. -/
theorem over_recv {tok : WaitStatus} {r r' : Recv} {d : Data} {sent : List UInt8}
    (hover : sent.length < s.nrRead g n e * (g.edge e).attr.nrConsume)
    (hpc : s.pc n = .wait (.recv tok r)) (hcounted : s.data.counted e ≠ 0)
    (he : (g.inEdges n)[j]? = some e) (hsk : SkipsLeft g s n j e)
    (hact : ∀ i, r.pc.on = some (i, e) → i = j) {nx : RecvNext}
    (hm : EdgeMove g n e s.nrSkips (s.more g e) s.data r d nx) (hnx : nx = .more r') :
    sent.length < (s.received g n tok d r').nrRead g n e * (g.edge e).attr.nrConsume := by
  have hread : s.nrRead g n e =
      s.fired n + (if e ∈ (g.inEdges n).take r.pc.pos then 1 else 0) - (g.edge e).skips :=
    congrArg Reader.done (reader_of_recv hpc)
  cases hm with
  | same d' r'' hu hpos =>
    cases hnx
    have hnext : (s.received g n tok d r').nrRead g n e = _ :=
      congrArg Reader.done (reader_received hpc)
    simp only [hpos] at hnext
    rw [hnext, ← hread]
    exact hover
  | skipped d' r'' hu hskip =>
    have hskipped : (s.pc n).skipped j = 0 := by rw [hpc]; rfl
    rw [hread, nrRead_of_skips hsk hskipped hskip (by split_ifs <;> omega), Nat.zero_mul] at hover
    exact absurd hover (Nat.not_lt_zero _)
  | payload i d' bs hs hon hrest hbuf hlen hzero | complete i d' bs hon hrest hbuf hlen hzero =>
    exact absurd hzero hcounted
  | stop i d' hon hrest hone =>
    cases hnx
    obtain rfl := hact i hon
    have hpassed : e ∈ (g.inEdges n).take (i + 1) := (Scan.mem_take_succ he).mpr (Or.inr rfl)
    have hnext : (s.received g n tok d { r with pc := .edge (i + 1) }).reader g n e = _ :=
      reader_received hpc
    have hreads : (s.received g n tok d { r with pc := .edge (i + 1) }).nrRead g n e =
        s.fired n + 1 - (g.edge e).skips := by
      simpa [State.reader, RecvPc.pos, hpassed] using congrArg Reader.done hnext
    refine lt_of_lt_of_le hover (Nat.mul_le_mul_right _ ?_)
    rw [hread]
    refine le_trans ?_ hreads.ge
    split_ifs <;> omega

theorem WaitMove.flow {ans : Answer} {w : WaitPc} (hm : WaitMove g s n ans w eff p)
    (hi : FlowInv junk g n j e s h) (hpc : s.pc n = .wait w) (ha : FlowAct g e s (.run n ans))
    (hdata : (g.edge e).isDataPassing = true) (he : (g.inEdges n)[j]? = some e) :
    (s.data.counted e ≠ 0 → (s.apply g n eff).data.counted e ≠ 0) ∧
      ((s.apply g n eff).terminated n = false →
        ((s.apply g n eff).data.counted e = 0 →
          Flowing junk g ((s.apply g n eff).setPc n p) (h.sent e).flatten n e) ∧
        ((s.apply g n eff).data.counted e ≠ 0 → (h.sent e).flatten.length <
          ((s.apply g n eff).setPc n p).nrRead g n e * (g.edge e).attr.nrConsume)) := by
  have hterm : s.terminated n = false := hi.waiting n w hpc
  have hsk := hi.skips hterm
  have hquiet : (∀ tok r r' d, w = .recv tok r →
      recvStep g n s.nrSkips s.data r ans ≠ some (d, .more r')) → (s.apply g n eff).data = s.data →
      (s.data.counted e ≠ 0 → (s.apply g n eff).data.counted e ≠ 0) ∧
      ((s.apply g n eff).terminated n = false →
        ((s.apply g n eff).data.counted e = 0 →
          Flowing junk g ((s.apply g n eff).setPc n p) (h.sent e).flatten n e) ∧
        ((s.apply g n eff).data.counted e ≠ 0 → (h.sent e).flatten.length <
          ((s.apply g n eff).setPc n p).nrRead g n e * (g.edge e).attr.nrConsume)) := by
    intro hout hsame
    rw [hsame]
    refine ⟨id, fun hopen => ?_⟩
    obtain ⟨hreader, -, hfresh⟩ :=
      hm.reader hpc hdata he ha.reads (hi.sound n w hpc) hsk hopen hout
    refine ⟨fun hzero => (hi.flowing hterm hzero).congr hreader ?_, fun hc => ?_⟩
    · intro tok r hpc'
      rw [setPc_pc_self] at hpc'
      exact Or.inr (hfresh tok r hpc')
    · have hdone : _ = s.nrRead g n e := congrArg Reader.done hreader
      exact lt_of_lt_of_eq (hi.ended hterm hc) (by rw [← hdone]; rfl)
  cases hm with
  | recv tok r r' d hstep =>
    have hwhole : (g.edge e).attr.type.isStream = false → s.data.counted e = 0 →
        e ∉ (g.inEdges n).take r.pc.pos → r.dest e = 0 := by
      intro hs hzero hnot
      have hflow := hi.flowing hterm hzero
      rw [hflow.dest tok r hpc hnot, hflow.whole hs tok r hpc hnot]
      rfl
    have hact : ∀ i, r.pc.on = some (i, e) → i = j ∧ r.pc.pos = i ∧ s.nrSkips e = 0 := by
      intro i hon
      have hskip := hi.reading tok r i hpc hon
      have hplace := hi.chan.place n tok r hpc
      cases hr : r.pc with
      | read i' e' | ringEmpty i' e' | ringRead i' e' =>
        rw [hr] at hon hplace
        cases hon
        exact ⟨Graph.inEdges_inj hplace.1 he, rfl, hskip⟩
      | select | edge =>
        rw [hr] at hon
        cases hon
    have hmove := (recvStep_move hstep).edgeMove hdata (List.mem_of_getElem? he) hi.chan hi.ring hpc
      hwhole ha.healthy.1 ha.healthy.2 ha.spares rfl
    refine ⟨hmove.counted, fun _ => ?_⟩
    by_cases hzero : s.data.counted e = 0
    · rcases (hi.flowing hterm hzero).recv hpc he hsk (hi.chan.dest n tok r hpc e) hact hmove rfl
        with ⟨hsame, hflow⟩ | ⟨hc, hover⟩
      · exact ⟨fun _ => hflow, fun hc => absurd (hsame.trans hzero) hc⟩
      · exact ⟨fun hz => absurd hz hc, fun _ => hover⟩
    · have hover := over_recv (hi.ended hterm hzero) hpc hzero he hsk (fun i hon => (hact i hon).1)
        hmove rfl
      exact ⟨fun hz => absurd hz (hmove.counted hzero), fun _ => hover⟩
  | recvDone tok st r d hstep =>
    obtain ⟨-, rfl, -⟩ := recvDone_out ha.reads hpc hstep
    refine hquiet ?_ rfl
    rintro tok' r' r'' d' hw hstep'
    cases hw
    cases hstep.symm.trans hstep'
  | _ =>
    refine hquiet ?_ rfl
    rintro _ _ _ _ ⟨⟩

/-! ## The steps of the others -/

theorem taking_of_step (hown : n = a.thread →
      p.taking g n e = [] ∧ (s.pc n).taking g n e = []) :
    (((s.apply g a.thread eff).setPc a.thread p).pc n).taking g n e = (s.pc n).taking g n e := by
  by_cases hn : n = a.thread
  · obtain ⟨hnew, hold⟩ := hown hn
    subst hn
    rw [setPc_pc_self, hnew, hold]
  · rcases pc_of_ne (g := g) (s := s) eff p hn with heq | ⟨-, hasleep, heq⟩
    · rw [heq]
    · rw [heq, hasleep]
      rfl

theorem reader_eq_send {x : List UInt8} (hread : s'.nrRead g n e = s.nrRead g n e)
    (htaking : (s'.pc n).taking g n e = (s.pc n).taking g n e)
    (hrest : (s'.data.chan e).payload (g.edge e).attr (s'.more g e) =
      (s.data.chan e).payload (g.edge e).attr (s.more g e) ++ x)
    (hbuf : s'.data.bufIn e = s.data.bufIn e) :
    s'.reader g n e = { s.reader g n e with rest := (s.reader g n e).rest ++ x } := by
  simp only [State.reader, hread, htaking, hrest, hbuf]

/-- The step sends `x` on edge `e`, and nothing else happens to the edge. -/
structure Sends (g : Graph) (h : Record) (n e : Nat) (s : State) (a : Act) (s' : State)
    (x : List UInt8) : Prop where
  sent : ((note g s h a).sent e).flatten = (h.sent e).flatten ++ x
  reader : s'.reader g n e = { s.reader g n e with rest := (s.reader g n e).rest ++ x }
  counted : s'.data.counted e = s.data.counted e
  uncounted : x ≠ [] → s.data.counted e = 0

/-- What a step does to the edge, if it is none of the consumer's wait. -/
theorem Move.sends (hm : Move g s a eff p) (hi : ChanInv g s)
    (hstep : step g s a = some ((s.apply g a.thread eff).setPc a.thread p)) (hh : Healthy a)
    (hdata : (g.edge e).isDataPassing = true) (he : e ∈ g.inEdges n)
    (hno : ∀ w, s.pc n = .wait w → a.thread = n → w = .asleep) :
    ∃ x, Sends g h n e s a ((s.apply g a.thread eff).setPc a.thread p) x := by
  have hread := hm.nrRead (n := n) (e := e)
  -- a step that sends nothing on the edge
  have hquiet : (∀ x, begun g s a ≠ some (e, x)) →
      SameEdge e s.data (s.apply g a.thread eff).data →
      ((s.apply g a.thread eff).setPc a.thread p).more g e = s.more g e →
      (n = a.thread → p.hasRead g n e = 0 ∧ (s.pc n).hasRead g n e = 0 ∧
        (s.apply g a.thread eff).fired n = s.fired n) →
      (n = a.thread → p.taking g n e = [] ∧ (s.pc n).taking g n e = []) →
      ∃ x, Sends g h n e s a ((s.apply g a.thread eff).setPc a.thread p) x := by
    intro hb hd hmore hown hown'
    refine ⟨[], ?_, reader_eq_send (hread hown) (taking_of_step hown') ?_ hd.bufIn, hd.counted,
      fun hx => absurd rfl hx⟩
    · rw [note_sent_of_ne hb, List.append_nil]
    · rw [hmore, List.append_nil]
      exact congrArg (Chan.payload (g.edge e).attr · (s.more g e)) hd.chan
  cases hm with
  | wait t ans w eff p hpc hm =>
    have hne : n ≠ t := by
      rintro rfl
      obtain rfl := hno w hpc rfl
      cases hm
    have hout : e ∉ g.inEdges t := by
      intro hmem
      exact hne ((Graph.mem_inEdges_consumer he).symm.trans (Graph.mem_inEdges_consumer hmem))
    have hb : ∀ x, begun g s (.run t ans) ≠ some (e, x) := by
      intro x hb
      obtain ⟨t', m, b, err, i, tw, ha, hpc', -⟩ := begun_eq_some hb
      cases ha
      cases hpc.symm.trans hpc'
    refine hquiet hb (hm.same_of_ne hi hpc hout) (more_of_step eff ?_)
      (fun h => absurd h hne) (fun h => absurd h hne)
    simp only [Act.thread, hpc]
    cases hm <;> rfl
  | prod t m ans cmd w err q eff p hpc hm =>
    obtain rfl : t = m := hi.term.owner t m cmd w err q hpc
    have hown : n = t → p.hasRead g n e = 0 ∧ (s.pc n).hasRead g n e = 0 ∧
        (s.apply g t eff).fired n = s.fired n := by
      rintro rfl
      rw [hpc]
      exact ⟨by cases hm <;> rfl, rfl, by cases hm <;> rfl⟩
    have hown' : n = t → p.taking g n e = [] ∧ (s.pc n).taking g n e = [] := by
      rintro rfl
      rw [hpc]
      exact ⟨by cases hm <;> rfl, rfl⟩
    by_cases hprod : (g.edge e).producer = t
    · obtain ⟨x, hsent, hrest, hzero⟩ := hm.payload hi hpc hstep hh.2 hdata hprod
        (Graph.mem_inEdges.mp he).1 (h := h)
      exact ⟨x, hsent, reader_eq_send (hread hown) (taking_of_step hown') hrest
        (congrFun hm.bufIn e), (hm.grows (e := e)).counted, hzero⟩
    · have hchan := hm.frame (t := t) (hi.term.place t t cmd w err q hpc) hprod
      have hb : ∀ x, begun g s (.run t ans) ≠ some (e, x) := by
        intro x hb
        obtain ⟨t', m, b, err, i, tw, ha, hpc', hat⟩ := begun_eq_some hb
        cases ha
        cases hpc.symm.trans hpc'
        exact hprod (Graph.mem_outEdges.mp (List.mem_of_getElem? hat)).2
      refine hquiet hb ⟨hchan, congrFun hm.bufIn e⟩ ?_ hown hown'
      unfold State.more
      rcases pc_of_ne (g := g) (s := s) (a := .run t ans) eff p hprod with heq | ⟨-, hold, heq⟩
      · rw [heq]
      · rw [heq, hold]
        rfl
  | callWait m last hpc | callComplete t m last hpc | callTerminate t m last hpc
  | spurious t hpc =>
    refine hquiet ?_ (.refl e _) (more_of_step _ ?_) ?_ ?_
    · rintro x ⟨⟩
    · simp only [Act.thread, hpc]
      rfl
    · rintro rfl
      simp only [Act.thread]
      rw [hpc]
      exact ⟨rfl, rfl, rfl⟩
    · rintro rfl
      simp only [hpc]
      exact ⟨rfl, rfl⟩

/-! ## Every step -/

theorem Given.mono {sent x : List UInt8} {counted counted' k : Nat} {buf : List UInt8}
    (hgiven : Given junk g sent counted e k buf) (hx : x ≠ [] → counted = 0)
    (hc : counted ≠ 0 → counted' ≠ 0) : Given junk g (sent ++ x) counted' e k buf := by
  refine ⟨hgiven.early, fun hle => ?_⟩
  rcases hgiven.later hle with ⟨hlen, hbuf⟩ | ⟨hcounted, hlen⟩
  · refine Or.inl ⟨?_, ?_⟩
    · rw [List.length_append]
      omega
    · have hpiece : Reader.piece (g.edge e).attr.nrConsume [] (sent ++ x) (k - (g.edge e).skips + 1) =
          Reader.piece (g.edge e).attr.nrConsume [] sent (k - (g.edge e).skips + 1) :=
        Reader.piece_append hlen x
      exact hbuf.trans hpiece.symm
  · obtain rfl : x = [] := by
      by_contra hne
      exact hcounted (hx hne)
    exact Or.inr ⟨hc hcounted, by rwa [List.append_nil]⟩

/-- The job that a wait returns with. -/
theorem FlowInv.given {i : Nat} (hi : FlowInv junk g n j e s h) (hpc : s.pc n = .wait (.skips .ok i)) :
    Given junk g (h.sent e).flatten (s.data.counted e) e (s.fired n) (s.data.bufIn e) := by
  have hterm : s.terminated n = false := hi.waiting n _ hpc
  have hread : s.nrRead g n e = s.fired n + 1 - (g.edge e).skips := by
    rw [State.nrRead, hpc]
    rfl
  by_cases hzero : s.data.counted e = 0
  · have hok := (hi.flowing hterm hzero).ok
    have htaken : (s.reader g n e).taken = [] := by
      simp only [State.reader, hpc]
      rfl
    have hle : s.nrRead g n e * (g.edge e).attr.nrConsume ≤ (h.sent e).flatten.length := hok.le
    have hbuf : s.data.bufIn e = Reader.piece (g.edge e).attr.nrConsume (initBuf junk g e)
        (h.sent e).flatten (s.nrRead g n e) := hok.last htaken
    refine ⟨fun hlt => ?_, fun hskips => Or.inl ?_⟩
    · rw [hbuf, hread, Nat.sub_eq_zero_of_le hlt]
      rfl
    · rw [hread, Nat.sub_add_comm hskips] at hle hbuf
      exact ⟨hle, hbuf⟩
  · have hover := hi.ended hterm hzero
    rw [hread] at hover
    refine ⟨fun hlt => ?_, fun hskips => Or.inr ⟨hzero, ?_⟩⟩
    · rw [Nat.sub_eq_zero_of_le hlt, Nat.zero_mul] at hover
      exact absurd hover (Nat.not_lt_zero _)
    · rwa [Nat.sub_add_comm hskips] at hover

/-- What a step does to the edge, where `x` is sent with it. -/
structure Carries (junk : Junk) (g : Graph) (h : Record) (n e : Nat) (s : State) (a : Act) (s' : State)
    (x : List UInt8) : Prop where
  sent : ((note g s h a).sent e).flatten = (h.sent e).flatten ++ x
  uncounted : x ≠ [] → s.data.counted e = 0
  counted : s.data.counted e ≠ 0 → s'.data.counted e ≠ 0
  flowing : s'.terminated n = false → s'.data.counted e = 0 →
    Flowing junk g s' ((h.sent e).flatten ++ x) n e
  ended : s'.terminated n = false → s'.data.counted e ≠ 0 →
    ((h.sent e).flatten ++ x).length < s'.nrRead g n e * (g.edge e).attr.nrConsume

/-- `pgm_recv_data` is entered with steps of the wait only. -/
theorem Move.recv_of_ne {tok : WaitStatus} {r : Recv} (hm : Move g s a eff p)
    (he : e ∈ g.inEdges n) (hno : ∀ w, s.pc n = .wait w → a.thread = n → w = .asleep)
    (hpc : ((s.apply g a.thread eff).setPc a.thread p).pc n = .wait (.recv tok r)) :
    s.pc n = .wait (.recv tok r) ∧ (s.apply g a.thread eff).nrSkips e = s.nrSkips e := by
  by_cases hn : n = a.thread
  · subst hn
    rw [setPc_pc_self] at hpc
    cases hm with
    | wait t ans w eff p hpc' hm =>
      obtain rfl := hno w hpc' rfl
      cases hm
    | prod t m ans cmd w err q eff p hpc' hm => exact absurd hpc (hm.not_wait _)
    | callWait | callComplete | callTerminate | spurious => cases hpc
  · refine ⟨?_, foreign_nrSkips hm hn he⟩
    rcases pc_of_ne (g := g) (s := s) eff p hn with heq | ⟨-, -, heq⟩
    · exact heq.symm.trans hpc
    · cases heq.symm.trans hpc

theorem Sends.carries {x : List UInt8} (hsend : Sends g h n e s a s' x) (hi : FlowInv junk g n j e s h)
    (hterm : s'.terminated n = false → s.terminated n = false)
    (hrecv : ∀ tok r, s'.pc n = .wait (.recv tok r) →
      s.pc n = .wait (.recv tok r) ∧ s'.nrSkips e = s.nrSkips e) : Carries junk g h n e s a s' x where
  sent := hsend.sent
  uncounted := hsend.uncounted
  counted := by
    rw [hsend.counted]
    exact id
  flowing hopen hzero :=
    (hi.flowing (hterm hopen) (hsend.counted.symm.trans hzero)).send hsend.reader
      (fun tok r hpc => Or.inl (hrecv tok r hpc))
  ended hopen hc := by
    rw [hsend.counted] at hc
    obtain rfl : x = [] := by
      by_contra hne
      exact hc (hsend.uncounted hne)
    have hread : s'.nrRead g n e = s.nrRead g n e := congrArg Reader.done hsend.reader
    rw [List.append_nil, hread]
    exact hi.ended (hterm hopen) hc

theorem Move.carries (hm : Move g s a eff p)
    (hstep : step g s a = some ((s.apply g a.thread eff).setPc a.thread p))
    (hdata : (g.edge e).isDataPassing = true) (he : (g.inEdges n)[j]? = some e)
    (ha : FlowAct g e s a) (hi : FlowInv junk g n j e s h) :
    ∃ x, Carries junk g h n e s a ((s.apply g a.thread eff).setPc a.thread p) x := by
  have hmem := List.mem_of_getElem? he
  by_cases hno : ∀ w, s.pc n = .wait w → a.thread = n → w = .asleep
  · obtain ⟨x, hsend⟩ := hm.sends (h := h) hi.chan hstep ha.healthy hdata hmem hno
    refine ⟨x, hsend.carries hi (fun hopen => ?_) (fun tok r => hm.recv_of_ne hmem hno)⟩
    exact Bool.eq_false_of_not_eq_true
      (fun hold => absurd (hopen.symm.trans (terminated_mono hold)) (by decide))
  · -- the consumer is in its wait
    push Not at hno
    obtain ⟨w, hpc, hthread, hw⟩ := hno
    cases hm with
    | wait t ans w' eff p hpc' hm =>
      obtain rfl : t = n := hthread
      cases hpc.symm.trans hpc'
      obtain ⟨hcounted, hflow⟩ := hm.flow hi hpc ha hdata he
      have hb : ∀ x, begun g s (.run t ans) ≠ some (e, x) := by
        intro x hb
        obtain ⟨t', m, b, err, i, tw, hact, hpc', -⟩ := begun_eq_some hb
        cases hact
        cases hpc.symm.trans hpc'
      refine ⟨[], ?_, fun hx => absurd rfl hx, hcounted, fun hopen hzero => ?_, fun hopen hc => ?_⟩
      · rw [note_sent_of_ne hb, List.append_nil]
      · rw [List.append_nil]
        exact (hflow hopen).1 hzero
      · rw [List.append_nil]
        exact (hflow hopen).2 hc
    | prod t m ans cmd b err q eff p hpc' hm =>
      obtain rfl : t = n := hthread
      cases hpc.symm.trans hpc'
    | callWait m last hpc' =>
      obtain rfl : m = n := hthread
      cases hpc.symm.trans hpc'
    | callComplete t m last hpc' | callTerminate t m last hpc' =>
      obtain rfl : t = n := hthread
      cases hpc.symm.trans hpc'
    | spurious t hpc' =>
      obtain rfl : t = n := hthread
      cases hpc.symm.trans hpc'
      exact absurd rfl hw

/-- An edge is read only without skips. -/
theorem RecvMove.reading {ans : Answer} {r r' : Recv} {d : Data} {nx : RecvNext} {i : Nat}
    (hm : RecvMove g n s.nrSkips s.data r ans d nx) (hnx : nx = .more r')
    (hold : ∀ i, r.pc.on = some (i, e) → s.nrSkips e = 0) (hr : r'.pc.on = some (i, e)) :
    s.nrSkips e = 0 := by
  cases hm with
  | enter i' e' hpc hact =>
    cases hnx
    cases hr
    exact hact.2.2
  | ringCmd i' e' hpc hact =>
    cases hnx
    cases hterm : isTerminate (s.data.ringCmd e') <;> simp only [hterm] at hr <;> cases hr <;>
      exact hact.2.2
  | ringMore i' e' hpc hq =>
    cases hnx
    cases hr
    exact hold i (by rw [hpc]; rfl)
  | read i' e' d nx hpc hread =>
    subst hnx
    have hafter := readStep_after hread
    generalize hnx : RecvNext.more r' = nx at hafter
    cases hafter with
    | again r'' hpc' =>
      cases hnx
      rw [hpc'] at hr
      cases hr
      exact hold i (by rw [hpc]; rfl)
    | next r'' hpc' =>
      cases hnx
      rw [hpc'] at hr
      cases hr
    | block m =>
      cases hnx
      cases hr
    | fail => cases hnx
  | selectFailed | out => cases hnx
  | selecting | selected | pass | ringStop | ringRead =>
    cases hnx
    cases hr

theorem recvStart_pc {skips : Nat → Nat} {d : Data} {r : Recv}
    (h : recvStart g n skips d = .more r) : ∃ b, r.pc = .select b := by
  unfold recvStart at h
  simp only at h
  split at h
  · cases h
  · cases h
    exact ⟨false, rfl⟩

theorem WaitMove.reading {ans : Answer} {w : WaitPc} {tok : WaitStatus} {r : Recv} {i : Nat}
    (hm : WaitMove g s n ans w eff p)
    (hold : ∀ tok r i, w = .recv tok r → r.pc.on = some (i, e) → s.nrSkips e = 0)
    (hp : p = .wait (.recv tok r)) (hr : r.pc.on = some (i, e)) :
    (s.apply g n eff).nrSkips e = 0 := by
  cases hm with
  | recvStart tok' r' hn hstart =>
    cases hp
    obtain ⟨b, hpc⟩ := recvStart_pc hstart
    rw [hpc] at hr
    cases hr
  | recv tok' r₀ r' d hstep =>
    cases hp
    exact (recvStep_move hstep).reading rfl (fun i => hold tok r₀ i rfl) hr
  | allReady l | someReady l | noTerm l | allTerm l | notAllTerm l => cases l <;> cases hp
  | _ => cases hp

theorem step_reading {tok : WaitStatus} {r : Recv} {i : Nat} (hm : Move g s a eff p)
    (he : e ∈ g.inEdges n)
    (hi : ∀ tok r i, s.pc n = .wait (.recv tok r) → r.pc.on = some (i, e) → s.nrSkips e = 0)
    (hpc : ((s.apply g a.thread eff).setPc a.thread p).pc n = .wait (.recv tok r))
    (hr : r.pc.on = some (i, e)) : (s.apply g a.thread eff).nrSkips e = 0 := by
  by_cases hno : ∀ w, s.pc n = .wait w → a.thread = n → w = .asleep
  · obtain ⟨hold, hsame⟩ := hm.recv_of_ne he hno hpc
    exact hsame.trans (hi tok r i hold hr)
  · push Not at hno
    obtain ⟨w, hpc', hthread, hw⟩ := hno
    subst hthread
    rw [setPc_pc_self] at hpc
    cases hm with
    | wait t ans w' eff p hpc'' hm =>
      refine hm.reading (fun tok r i hw => hi tok r i ?_) hpc hr
      rw [← hw]
      exact hpc''
    | prod t m ans cmd b err q eff p hpc'' hm => exact absurd hpc (hm.not_wait _)
    | callWait | callComplete | callTerminate | spurious => cases hpc

/-! ## Rings -/

/-- A member in hand is of the ring's size, and the producer has not terminated. -/
theorem step_member
    (hi : ∀ t m cmd w err i e x tw, s.pc t = .prod m cmd w err (.ringWrite i e x tw) →
      cmd = .normal ∧ x.length = (g.edge e).attr.nrConsume)
    (hm : Move g s a eff p) {t m i e : Nat} {cmd : Command} {w err : Bool} {x : List UInt8}
    {tw : List Nat} (hpc : ((s.apply g a.thread eff).setPc a.thread p).pc t =
      .prod m cmd w err (.ringWrite i e x tw)) :
    cmd = .normal ∧ x.length = (g.edge e).attr.nrConsume := by
  by_cases ht : t = a.thread
  · subst ht
    rw [setPc_pc_self] at hpc
    cases hm with
    | wait t ans w' eff p hpc' hm => cases hm <;> cases hpc
    | prod t m' ans cmd' w' err' q eff p hpc' hm =>
      cases hm with
      | ring i' e' tw' y hat hc hd hx =>
        cases hpc
        exact ⟨hc, hx.trans ((g.edge e).accepted.ring hd).1⟩
      | written i' e' buf tw' d ok hsend =>
        unfold afterData at hpc
        split at hpc <;> cases hpc
      | _ => cases hpc
    | callWait | callComplete | callTerminate | spurious => cases hpc
  · rcases pc_of_ne (g := g) (s := s) eff p ht with heq | ⟨-, -, heq⟩
    · exact hi t m cmd w err i e x tw (heq.symm.trans hpc)
    · cases heq.symm.trans hpc

theorem more_of_stopped (hi : ChanInv g s)
    (hmember : ∀ t m cmd w err i e x tw, s.pc t = .prod m cmd w err (.ringWrite i e x tw) →
      cmd = .normal ∧ x.length = (g.edge e).attr.nrConsume)
    (hr : (g.edge e).attr.type.isRing = true) (hstop : Stopped g s e) : s.more g e = none := by
  have hterm := hstop.terminated
  cases hpc : s.pc (g.edge e).producer with
  | prod m cmd w err q =>
    cases q with
    | ringWrite i e' x tw =>
      obtain rfl := hi.term.owner _ m cmd w err _ hpc
      obtain ⟨rfl, -⟩ := hmember _ _ cmd w err i e' x tw hpc
      cases (hi.term.command _ .normal w err _ hpc).mp hterm
    | write i e' buf tw => simp [State.more, hpc, Pc.inHand, hr]
    | _ => rw [State.more, hpc]; rfl
  | _ => rw [State.more, hpc]; rfl

inductive QueueMove (g : Graph) (s : State) (e : Nat) (d : Data) : Prop
  | same (hq : d.queue e = s.data.queue e) (hc : d.counted e = s.data.counted e)
  | put (x : List UInt8) (hx : x.length = (g.edge e).attr.nrConsume) (hno : ¬ Stopped g s e)
      (hq : d.queue e = s.data.queue e ++ [x]) (hc : d.counted e = s.data.counted e)
  | take (x : List UInt8) (hq : s.data.queue e = x :: d.queue e)
      (hc : d.counted e = s.data.counted e)
  | stop (hq : d.queue e = [])

theorem SameEdge.queueMove {d : Data} (h : SameEdge e s.data d) : QueueMove g s e d :=
  .same h.queue h.counted

theorem RecvMove.queueMove {ans : Answer} {tok : WaitStatus} {r : Recv} {d : Data} {nx : RecvNext}
    (hm : RecvMove g t s.nrSkips s.data r ans d nx) (hi : ChanInv g s)
    (hpc : s.pc t = .wait (.recv tok r)) (hr : (g.edge e).attr.type.isRing = true) :
    QueueMove g s e d := by
  have hplace := hi.place t tok r hpc
  cases hm with
  | ringStop i e' hpc' hq =>
    by_cases hee : e = e'
    · subst hee
      exact .stop hq
    · exact .same rfl (Function.update_of_ne hee _ _)
  | ringRead i e' x q hpc' hq =>
    by_cases hee : e = e'
    · subst hee
      refine .take x ?_ rfl
      simp [hq]
    · exact .same (Function.update_of_ne hee _ _) rfl
  | read i e' d nx hpc' hread =>
    rw [hpc'] at hplace
    have hee : e ≠ e' := by
      rintro rfl
      rw [hplace.2.2] at hr
      cases hr
    exact (readStep_untouched hee hread).data.queueMove
  | _ => exact .same rfl rfl

theorem Move.queueMove (hm : Move g s a eff p) (hi : ChanInv g s)
    (hmember : ∀ t m cmd w err i e x tw, s.pc t = .prod m cmd w err (.ringWrite i e x tw) →
      cmd = .normal ∧ x.length = (g.edge e).attr.nrConsume)
    (hr : (g.edge e).attr.type.isRing = true) :
    QueueMove g s e (s.apply g a.thread eff).data := by
  cases hm with
  | wait t ans w eff p hpc hm =>
    cases hm with
    | recv tok r r' d hstep => exact (recvStep_move hstep).queueMove hi hpc hr
    | recvDone tok st r d hstep => exact (recvStep_move hstep).queueMove hi hpc hr
    | _ => exact .same rfl rfl
  | prod t m ans cmd w err q eff p hpc hm =>
    obtain rfl : t = m := hi.term.owner t m cmd w err q hpc
    have hsends := hi.term.sends t cmd w err q hpc
    have hplace := hi.term.place t t cmd w err q hpc
    have hother : ∀ {e' : Nat} {buf : List UInt8} {d : Data} {nx : SendNext},
        (g.edge e').attr.type.isRing = false → sendStdStep g s.data e' buf ans = some (d, nx) →
        QueueMove g s e d := by
      intro e' buf d nx hr' hsend
      have hee : e ≠ e' := by
        rintro rfl
        rw [hr] at hr'
        cases hr'
      have hchan := sendStdStep_frame hsend hee
      exact .same (congrArg Chan.queue hchan) (congrArg Chan.counted hchan)
    cases hm with
    | write i e' buf buf' tw d hsend => exact hother hsends.2.2 hsend
    | written i e' buf tw d ok hsend => exact hother hsends.2.2 hsend
    | ringWrite i e' x tw hlt =>
      by_cases hee : e = e'
      · subst hee
        obtain ⟨rfl, hx⟩ := hmember t t cmd w err i e x tw hpc
        refine .put x hx (fun hstop => ?_) (Function.update_self ..) rfl
        have hterm := hstop.terminated
        rw [(Graph.mem_outEdges.mp (List.mem_of_getElem? hplace)).2] at hterm
        cases (hi.term.command t .normal w err _ hpc).mp hterm
      · exact .same (Function.update_of_ne hee _ _) rfl
    | _ => exact .same rfl rfl
  | _ => exact .same rfl rfl

theorem QueueMove.ringOk {d : Data} (hm : QueueMove g s e d) (he : e < g.edges.length)
    (hi : ChanInv g s) (hok : RingOk g s e) :
    (∀ x ∈ d.queue e, x.length = (g.edge e).attr.nrConsume) ∧ (d.counted e ≠ 0 → d.queue e = []) := by
  cases hm with
  | same hq hc =>
    rw [hq, hc]
    exact ⟨hok.size, hok.drained⟩
  | put x hx hno hq hc =>
    rw [hq, hc]
    refine ⟨fun y hy => ?_, fun hcounted => ?_⟩
    · rcases List.mem_append.mp hy with hy | hy
      · exact hok.size y hy
      · rw [List.mem_singleton.mp hy, hx]
    · exact absurd (of_decide_eq_true ((hi.edges e he).counted hcounted).1) hno
  | take x hq hc =>
    rw [hc]
    refine ⟨fun y hy => hok.size y (by rw [hq]; exact List.mem_cons_of_mem _ hy), fun hcounted => ?_⟩
    rw [hok.drained hcounted] at hq
    cases hq
  | stop hq =>
    rw [hq]
    exact ⟨by rintro x ⟨⟩, fun _ => rfl⟩

/-! ## Every run -/

theorem step_flowInv (hdata : (g.edge e).isDataPassing = true) (he : (g.inEdges n)[j]? = some e)
    (ha : FlowAct g e s a) (hi : FlowInv junk g n j e s h) (hstep : step g s a = some s') :
    FlowInv junk g n j e s' (note g s h a) := by
  have hchan := step_chanInv ha.once ha.healthy hi.chan hstep
  have hwaiting := step_notEnded ha.owner hi.waiting hstep
  obtain ⟨eff, p, hm, rfl⟩ := step_move hstep
  obtain ⟨x, hcarry⟩ := hm.carries hstep hdata he ha hi
  have hmember : ∀ t m cmd w err i e x tw, ((s.apply g a.thread eff).setPc a.thread p).pc t =
      .prod m cmd w err (.ringWrite i e x tw) →
      cmd = .normal ∧ x.length = (g.edge e).attr.nrConsume :=
    fun t m cmd w err i e x tw => step_member hi.member hm
  refine ⟨hchan, hwaiting, fun m w => step_sound ha.reads hi.sound hm, fun hopen => ?_, ?_, ?_,
    hmember, fun hr => ?_, fun tok r i => step_reading hm (List.mem_of_getElem? he) hi.reading, ?_, ?_⟩
  · have hterm : s.terminated n = false := Bool.eq_false_of_not_eq_true
      (fun hold => absurd (hopen.symm.trans (terminated_mono hold)) (by decide))
    refine hm.skipsLeft (fun i hpc => ?_) he hopen (hi.skips hterm)
    exact absurd rfl (hi.sound n _ hpc)
  · have hfired := hm.returning (n := n)
    by_cases hr : returning g s a = some n
    · rw [if_pos hr] at hfired
      rw [note_jobs hr, List.length_append, List.length_singleton, hi.count]
      exact hfired.symm
    · rw [if_neg hr] at hfired
      rw [note_jobs_of_ne hr, hi.count]
      exact hfired.symm
  · intro k js hjs
    rw [hcarry.sent]
    have hold : ∀ k js, (h.jobs n)[k]? = some js →
        Given junk g ((h.sent e).flatten ++ x) ((s.apply g a.thread eff).data.counted e) e k (js e) :=
      fun k js hjs => (hi.jobs k js hjs).mono hcarry.uncounted hcarry.counted
    by_cases hr : returning g s a = some n
    · rw [note_jobs hr] at hjs
      rcases Kahn.getElem?_snoc hjs with hjs | ⟨rfl, rfl⟩
      · exact hold k js hjs
      · obtain ⟨ans, i, rfl, hpc, hend⟩ := returning_eq_some hr
        rw [hi.count]
        exact (hi.given hpc).mono hcarry.uncounted hcarry.counted
    · rw [note_jobs_of_ne hr] at hjs
      exact hold k js hjs
  · have hlt := (Graph.mem_inEdges.mp (List.mem_of_getElem? he)).1
    obtain ⟨hsize, hdrained⟩ := (hm.queueMove hi.chan hi.member hr).ringOk hlt hi.chan (hi.ring hr)
    exact ⟨hsize, hdrained, more_of_stopped hchan hmember hr⟩
  · rw [hcarry.sent]
    exact hcarry.flowing
  · rw [hcarry.sent]
    exact hcarry.ended

theorem initState_flowInv (junk : Junk) (g : Graph) (n j e : Nat) :
    FlowInv junk g n j e (initState junk g) Kahn.start := by
  have hread : (initState junk g).reader g n e = ⟨0, [], [], initBuf junk g e⟩ := by
    simp [State.reader, State.nrRead, State.more, initState, Pc.hasRead, Pc.taking, Pc.inHand,
      Chan.payload, Data.chan, initBuf, Framing.strip]
  refine ⟨initState_chanInv junk g, by rintro _ _ ⟨⟩, by rintro _ _ ⟨⟩, fun _ => ?_, rfl, ?_,
    by rintro _ _ _ _ _ _ _ _ _ ⟨⟩, fun _ => ⟨by rintro x ⟨⟩, fun _ => rfl, fun _ => rfl⟩,
    by rintro _ _ _ ⟨⟩, fun _ _ => ⟨?_, by rintro _ _ ⟨⟩, by rintro _ _ _ ⟨⟩, by rintro _ _ ⟨⟩⟩,
    fun _ hc => ?_⟩
  · simp [SkipsLeft, initState, Pc.skipped]
  · rintro k js ⟨⟩
  · rw [hread]
    refine ⟨?_, ?_, ?_, rfl, fun _ => rfl⟩
    · simp
    · simp [Kahn.start]
    · simp [initBuf]
  · exact absurd rfl hc

theorem flowInv_of_reach (hdata : (g.edge e).isDataPassing = true)
    (he : (g.inEdges n)[j]? = some e)
    (hr : Lts.Reach (tap g) (fun w a => FlowAct g e w.1 a) (initState junk g, Kahn.start) (s, h)) :
    FlowInv junk g n j e s h := by
  refine Lts.Reach.inv (I := fun w => FlowInv junk g n j e w.1 w.2)
    (initState_flowInv junk g n j e) ?_ hr
  rintro ⟨s, h⟩ a w - hi ha hstep
  obtain ⟨s', hs', rfl⟩ := Option.map_eq_some_iff.mp hstep
  exact step_flowInv hdata he ha hi hs'

/-- **Delivery.** Job number `k` of a node finds in the buffer of a data-passing edge, after its skips,
piece number `k - skips` of the payload that was ever sent over it, where the pieces are of
`nr_consume` bytes and the messages of `nr_produce`. There is no such piece only after the end of the
edge has been found. Before the skips are used up the buffer is as it was allocated. -/
theorem jobs_get_bytes (hdata : (g.edge e).isDataPassing = true) (he : e ∈ g.inEdges n)
    (hr : Lts.Reach (tap g) (fun w a => FlowAct g e w.1 a) (initState junk g, Kahn.start) (s, h))
    {k : Nat} {js : Nat → List UInt8} (hjob : (h.jobs n)[k]? = some js) :
    (k < (g.edge e).skips → js e = initBuf junk g e) ∧
    ((g.edge e).skips ≤ k →
      ((k - (g.edge e).skips + 1) * (g.edge e).attr.nrConsume ≤ (h.sent e).flatten.length →
        js e = ((h.sent e).flatten.drop ((k - (g.edge e).skips) * (g.edge e).attr.nrConsume)).take
          (g.edge e).attr.nrConsume) ∧
      ((h.sent e).flatten.length < (k - (g.edge e).skips + 1) * (g.edge e).attr.nrConsume →
        s.data.counted e ≠ 0)) := by
  obtain ⟨j, hj⟩ := List.mem_iff_getElem?.mp he
  have hgiven := (flowInv_of_reach hdata hj hr).jobs k js hjob
  refine ⟨hgiven.early, fun hk => ?_⟩
  rcases hgiven.later hk with ⟨hle, hbuf⟩ | ⟨hcounted, hlt⟩
  · exact ⟨fun _ => hbuf, fun hlt => absurd hlt (Nat.not_lt.mpr hle)⟩
  · exact ⟨fun hle => absurd hle (Nat.not_le.mpr hlt), fun _ => hcounted⟩

end

/-! ## Two messages of three bytes for jobs of two -/

/-- The source sends three bytes, the write in two parts. -/
def pipeSend (x : List UInt8) : List Act :=
  [.complete 0 0, .run 0 (.user x), .run 0 (.bytes 1), .run 0 .eagain, .run 0 (.bytes 3)] ++ runs 0 2

/-- The consumer waits, and its reads are of these sizes. -/
def pipeJob (ks : List Nat) : List Act :=
  [.wait 1] ++ runs 1 2 ++ [.run 1 (.ready 1)] ++ runs 1 2 ++ ks.map (fun k => .run 1 (.bytes k)) ++
    runs 1 4

/-- The second job gets its first byte before the second message is sent. -/
def pipeTwo : List Act :=
  List.flatten [pipeSend [1, 2, 3], pipeJob [3], [.complete 1 1], runs 1 2, pipeSend [4, 5, 6],
    pipeJob [1, 1, 1]]

/-- The second job gets the end of the first message and the beginning of the second. -/
theorem pipe_delivers :
    (pipeGraph.edge 0).isDataPassing = true ∧ 0 ∈ pipeGraph.inEdges 1 ∧ ∃ s h js,
      Lts.Reach (tap pipeGraph) (fun w a => FlowAct pipeGraph 0 w.1 a)
        (initState zeroed pipeGraph, Kahn.start) (s, h) ∧
      (h.jobs 1)[1]? = some js ∧ h.sent 0 = [[1, 2, 3], [4, 5, 6]] ∧ js 0 = [3, 4] := by
  have hdata : (pipeGraph.edge 0).isDataPassing = true := by decide
  have he : 0 ∈ pipeGraph.inEdges 1 := by decide
  have hd : (Lts.drive (tap pipeGraph) (fun w a => decide (FlowAct pipeGraph 0 w.1 a))
      (initState zeroed pipeGraph, Kahn.start) pipeTwo).map
        (fun w => (w.2.sent 0, (w.2.jobs 1).length)) = some ([[1, 2, 3], [4, 5, 6]], 2) := rfl
  obtain ⟨⟨s, h⟩, hr, hobs⟩ := Lts.reach_of_drive_map (fun w a h => of_decide_eq_true h) hd
  simp only [Prod.mk.injEq] at hobs
  obtain ⟨hsent, hlen⟩ := hobs
  obtain ⟨js, hjs⟩ : ∃ js, (h.jobs 1)[1]? = some js :=
    ⟨_, List.getElem?_eq_getElem (by omega)⟩
  have hbytes := ((jobs_get_bytes hdata he hr hjs).2 (by decide)).1
  rw [hsent] at hbytes
  exact ⟨hdata, he, s, h, js, hr, hjs, hsent, hbytes (by decide)⟩

end Pgm
