import Pgm.Stream
import Pgm.Terminate

/-! What is on the data-passing edges of a running graph. A FIFO or socket holds framed
messages, a message queue whole ones, and a ring has its command. The terminate message
comes last on each of them, it is not sent on back edges, and a FIFO, socket or message
queue gives it to `pgm_recv_data` once. -/

namespace Pgm

open Function (update)

/-- What a channel holds, and how often it was counted in `nr_terminate_msgs`. -/
structure Chan where
  nextTag : Nat
  stream : List UInt8
  queue : List (List UInt8)
  ringCmd : UInt8
  counted : Nat

def Data.chan (d : Data) (e : Nat) : Chan :=
  ⟨d.nextTag e, d.stream e, d.queue e, d.ringCmd e, d.counted e⟩

/-- A channel is as its producer has left it: `t` tells whether the terminate message has
been begun, and `more` is what is left to write of the message in hand. -/
structure ChanOk (a : EdgeAttr) (t : Bool) (more : Option (List UInt8)) (c : Chan) : Prop where
  counted : c.counted ≠ 0 → t = true ∧ a.type.isDataPassing = true
  stream : a.type.isStream = true →
    (c.counted = 0 ∧ Framing.Framed pgmNormal pgmTerminate a.nrProduce t c.nextTag
      (c.stream ++ more.getD [])) ∨
    (c.counted = 1 ∧ t = true ∧ c.stream = [] ∧ more.getD [] = [])
  mq : a.type.isMq = true →
    (c.counted = 0 ∧ c.nextTag = 0 ∧
      Framing.Queued pgmNormal pgmTerminate a.nrProduce t (c.queue ++ more.toList)) ∨
    (c.counted = 1 ∧ t = true ∧ c.nextTag ≠ 0)
  ring : a.type.isRing = true → (isTerminate c.ringCmd = true ↔ t = true)

section chan

variable {a : EdgeAttr} {t : Bool} {more : Option (List UInt8)} {c : Chan}

theorem EdgeType.exclusive (ty : EdgeType) :
    (ty.isStream = true → ty.isMq = false ∧ ty.isRing = false) ∧
      (ty.isMq = true → ty.isRing = false) := by
  cases ty <;> simp [EdgeType.isStream, EdgeType.isMq, EdgeType.isRing]

/-- Only data-passing edges are read. -/
theorem EdgeType.data_of_kind {ty : EdgeType}
    (h : ty.isStream = true ∨ ty.isMq = true ∨ ty.isRing = true) : ty.isDataPassing = true := by
  cases ty <;> simp_all [EdgeType.isStream, EdgeType.isMq, EdgeType.isRing, EdgeType.isDataPassing]

theorem EdgeType.kind_of_data {ty : EdgeType} (h : ty.isDataPassing = true) :
    ty.isStream = true ∨ ty.isMq = true ∨ ty.isRing = true := by
  cases ty <;> simp_all [EdgeType.isStream, EdgeType.isMq, EdgeType.isRing, EdgeType.isDataPassing]

theorem isTerminate_pgmTerminate : isTerminate pgmTerminate = true := by decide

theorem ChanOk.uncounted (h : ChanOk a false more c) : c.counted = 0 := by
  by_contra hc
  cases (h.counted hc).1

/-- A message is put on the channel after what is there. -/
theorem ChanOk.begin (h : ChanOk a false none c) (hr : a.type.isRing = false)
    {m : List UInt8} (hs : Framing.Framed pgmNormal pgmTerminate a.nrProduce t 0 m)
    (hq : Framing.Queued pgmNormal pgmTerminate a.nrProduce t [m]) : ChanOk a t (some m) c := by
  have hzero := h.uncounted
  refine ⟨fun hc => absurd hzero hc, fun hst => ?_, fun hmq => ?_, fun hring => ?_⟩
  · rcases h.stream hst with ⟨-, hf⟩ | ⟨-, ht, -⟩
    · exact Or.inl ⟨hzero, by simpa using hf.append (by simpa using hs)⟩
    · cases ht
  · rcases h.mq hmq with ⟨-, htag, hf⟩ | ⟨-, ht, -⟩
    · exact Or.inl ⟨hzero, htag, by simpa using hf.append (by simpa using hq)⟩
    · cases ht
  · rw [hr] at hring
    cases hring

theorem ChanOk.setRing (h : ChanOk a false none c) (hr : a.type.isRing = true) :
    ChanOk a true none { c with ringCmd := pgmTerminate } := by
  have hzero := h.uncounted
  refine ⟨fun hc => absurd hzero hc, fun hst => ?_, fun hmq => ?_,
    fun _ => ⟨fun _ => rfl, fun _ => isTerminate_pgmTerminate⟩⟩
  · rw [(a.type.exclusive.1 hst).2] at hr
    cases hr
  · rw [a.type.exclusive.2 hmq] at hr
    cases hr

theorem ChanOk.cv (h : ChanOk a t none c) (hd : a.type.isDataPassing = false) :
    ChanOk a true none c := by
  have hkind : ¬ (a.type.isStream = true ∨ a.type.isMq = true ∨ a.type.isRing = true) := by
    intro hk
    rw [EdgeType.data_of_kind hk] at hd
    cases hd
  refine ⟨fun hc => ⟨rfl, (h.counted hc).2⟩, fun hk => ?_, fun hk => ?_, fun hk => ?_⟩
  · exact absurd (Or.inl hk) hkind
  · exact absurd (Or.inr (Or.inl hk)) hkind
  · exact absurd (Or.inr (Or.inr hk)) hkind

/-- Bytes go from the message in hand to the stream. -/
theorem ChanOk.written (h : ChanOk a t more c) (hs : a.type.isStream = true) {s : List UInt8}
    {more' : Option (List UInt8)} (heq : s ++ more'.getD [] = c.stream ++ more.getD []) :
    ChanOk a t more' { c with stream := s } := by
  refine ⟨h.counted, fun _ => ?_, fun hmq => ?_, h.ring⟩
  · rcases h.stream hs with ⟨hzero, hf⟩ | ⟨hone, ht, hst, hm⟩
    · exact Or.inl ⟨hzero, by rw [heq]; exact hf⟩
    · rw [hst, hm, List.append_nil] at heq
      obtain ⟨rfl, hm'⟩ := List.append_eq_nil_iff.mp heq
      exact Or.inr ⟨hone, ht, rfl, hm'⟩
  · rw [(a.type.exclusive.1 hs).1] at hmq
    cases hmq

/-- The message in hand goes to the message queue. -/
theorem ChanOk.queued {buf : List UInt8} (h : ChanOk a t (some buf) c) (hq : a.type.isMq = true) :
    ChanOk a t none { c with queue := c.queue ++ [buf] } := by
  refine ⟨h.counted, fun hs => ?_, fun _ => ?_, h.ring⟩
  · rw [(a.type.exclusive.1 hs).1] at hq
    cases hq
  · rcases h.mq hq with ⟨hzero, htag, hf⟩ | ⟨hone, ht, htag⟩
    · exact Or.inl ⟨hzero, htag, by simpa using hf⟩
    · exact Or.inr ⟨hone, ht, htag⟩

theorem ChanOk.ringQueue (h : ChanOk a t more c) (hr : a.type.isRing = true)
    (q : List (List UInt8)) (more' : Option (List UInt8)) : ChanOk a t more' { c with queue := q } := by
  refine ⟨h.counted, fun hst => ?_, fun hmq => ?_, h.ring⟩
  · rw [(a.type.exclusive.1 hst).2] at hr
    cases hr
  · rw [a.type.exclusive.2 hmq] at hr
    cases hr

end chan

/-! ## The producer's side -/

/-- The out-edges whose terminate message has not been begun. -/
def ProdPc.ahead (g : Graph) (n : Nat) : ProdPc → List Nat
  | .send i _ => (g.outEdges n).drop i
  | .write i _ _ _ | .ringWrite i _ _ _ | .tokens i _ _ => (g.outEdges n).drop (i + 1)
  | .wake _ | .recheck _ _ _ _ | .signal _ _ | .unlock _ _ => []

def Pc.ahead (g : Graph) (p : Pc) : List Nat := p.todo (fun n q => q.ahead g n)

/-- The producer of the forward edge `e` has begun its terminate message on `e`. -/
structure Stopped (g : Graph) (s : State) (e : Nat) : Prop where
  forward : (g.edge e).isBackedge = false
  terminated : s.terminated (g.edge e).producer = true
  begun : e ∉ (s.pc (g.edge e).producer).ahead g

theorem stopped_iff {g : Graph} {s : State} {e : Nat} :
    Stopped g s e ↔ (g.edge e).isBackedge = false ∧
      s.terminated (g.edge e).producer = true ∧ e ∉ (s.pc (g.edge e).producer).ahead g :=
  ⟨fun ⟨h1, h2, h3⟩ => ⟨h1, h2, h3⟩, fun ⟨h1, h2, h3⟩ => ⟨h1, h2, h3⟩⟩

instance (g : Graph) (s : State) (e : Nat) : Decidable (Stopped g s e) :=
  decidable_of_iff _ stopped_iff.symm

/-- What a producer has still to write on edge `e` of the message in hand. -/
def Pc.unwritten (e : Nat) : Pc → Option (List UInt8)
  | .prod _ _ _ _ (.write _ e' buf _) => if e' = e then some buf else none
  | _ => none

def EdgeOk (g : Graph) (s : State) (e : Nat) : Prop :=
  ChanOk (g.edge e).attr (decide (Stopped g s e)) ((s.pc (g.edge e).producer).unwritten e)
    (s.data.chan e)

def ProdPc.next (g : Graph) (n : Nat) : ProdPc → Option Nat
  | .send i _ => (g.outEdges n)[i]?
  | _ => none

/-- Where `pgm_recv_data` for node `n` may be. -/
def RecvPc.InHand (g : Graph) (s : State) (n : Nat) : RecvPc → Prop
  | .select _ | .edge _ => True
  | .read i e => (g.inEdges n)[i]? = some e ∧ (g.edge e).isDataPassing = true ∧
      (g.edge e).attr.type.isRing = false
  | .ringEmpty i e => (g.inEdges n)[i]? = some e ∧ (g.edge e).attr.type.isRing = true ∧
      Stopped g s e
  | .ringRead i e => (g.inEdges n)[i]? = some e ∧ (g.edge e).attr.type.isRing = true

structure ChanInv (g : Graph) (s : State) : Prop where
  term : TermInv g s
  edges : ∀ e < g.edges.length, EdgeOk g s e
  dest : ∀ n tok r, s.pc n = .wait (.recv tok r) →
    ∀ e, (g.edge e).attr.type.isStream = true → r.dest e < (g.edge e).attr.nrConsume
  place : ∀ n tok r, s.pc n = .wait (.recv tok r) → r.pc.InHand g s n

/-- Reads and writes are short or would block, and do nothing worse. -/
def Healthy : Act → Prop
  | .run _ ans => ans ≠ .eof ∧ ans ≠ .failed
  | _ => True

instance : (a : Act) → Decidable (Healthy a)
  | .run _ ans => inferInstanceAs (Decidable (ans ≠ .eof ∧ ans ≠ .failed))
  | .wait _ | .complete _ _ | .terminate _ _ | .spurious _ => inferInstanceAs (Decidable True)

section

variable {g : Graph} {s s' : State} {a : Act} {eff : Effect} {p : Pc} {n e : Nat}

/-- The terminate message of an edge is begun when a pass of `pgm_terminate` takes it up. -/
theorem ProdMove.ahead {m : Nat} {w err : Bool} {ans : Answer} {q : ProdPc}
    (hm : ProdMove g s m .terminate w err ans q eff p) (hat : q.At g m)
    (hf : (g.edge e).isBackedge = false) :
    (e ∈ p.ahead g ↔ e ∈ q.ahead g m ∧ q.next g m ≠ some e) ∧
      (q.next g m = some e → e ∈ q.ahead g m) := by
  have htake : ∀ i e', (g.outEdges m)[i]? = some e' →
      (e ∈ (g.outEdges m).drop (i + 1) ↔ e ∈ (g.outEdges m).drop i ∧ ¬ e' = e) ∧
        (e' = e → e ∈ (g.outEdges m).drop i) := by
    intro i e' hi
    rw [Scan.mem_drop_iff hi]
    by_cases hee : e' = e
    · subst hee
      simp [Scan.not_mem_drop_succ (g.outEdges_nodup m) hi]
    · have hee' : e ≠ e' := fun h => hee h.symm
      simp [hee, hee']
  cases hm with
  | sent i tw hi => simp [Pc.ahead, Pc.todo, ProdPc.ahead, ProdPc.next, Scan.drop_of_end hi, hi]
  | backedge i e' tw hi hc hb =>
    have hne : ¬ e' = e := by
      rintro rfl
      rw [hf] at hb
      cases hb
    simpa [Pc.ahead, Pc.todo, ProdPc.ahead, ProdPc.next, hi, hne] using (htake i e' hi).1
  | cvEdge i e' tw hi | ringCmd i e' tw hi | lastMessage i e' tw hi =>
    simpa [Pc.ahead, Pc.todo, ProdPc.ahead, ProdPc.next, hi] using htake i e' hi
  | written i e' buf tw d ok h =>
    unfold afterData
    split <;> simp [Pc.ahead, Pc.todo, ProdPc.ahead, ProdPc.next]
  | ring i e' tw x hi hc | message i e' tw x hi hc | tokens i e' tw hc | lock c cs h hc => cases hc
  | _ => simp [Pc.ahead, Pc.todo, ProdPc.ahead, ProdPc.next]

theorem ProdMove.terminated {m t : Nat} {cmd : Command} {w err : Bool} {ans : Answer} {q : ProdPc}
    (hm : ProdMove g s m cmd w err ans q eff p) :
    (s.apply g t eff).terminated = s.terminated := by
  cases hm <;> rfl

/-- When the terminate message of an edge is begun. -/
theorem stopped_prod {t : Nat} {cmd : Command} {w err : Bool} {ans : Answer} {q : ProdPc}
    (hi : TermInv g s) (hpc : s.pc t = .prod t cmd w err q)
    (hm : ProdMove g s t cmd w err ans q eff p) (ht : (g.edge e).producer = t) :
    (Stopped g ((s.apply g t eff).setPc t p) e ↔ Stopped g s e ∨
      (cmd = .terminate ∧ (g.edge e).isBackedge = false ∧ q.next g t = some e)) ∧
    (Stopped g s e → cmd = .terminate ∧ q.next g t ≠ some e) := by
  have hterm : ((s.apply g t eff).setPc t p).terminated t = s.terminated t :=
    congrFun hm.terminated t
  have hcmd := hi.command t cmd w err q hpc
  rw [stopped_iff, stopped_iff, ht, setPc_pc_self, hterm, hpc, hcmd]
  cases cmd with
  | normal => simp
  | terminate =>
    by_cases hf : (g.edge e).isBackedge = false
    · obtain ⟨hahead, hnext⟩ := hm.ahead (hi.place t t .terminate w err q hpc) hf
      have hq : (Pc.prod t .terminate w err q).ahead g = q.ahead g t := rfl
      rw [hahead, hq]
      simp only [hf, true_and, not_and_or, not_not]
      exact fun hno h => hno (hnext h)
    · simp [hf]

theorem chan_congr {d d' : Data} (h₁ : d'.nextTag e = d.nextTag e) (h₂ : d'.stream e = d.stream e)
    (h₃ : d'.queue e = d.queue e) (h₄ : d'.ringCmd e = d.ringCmd e)
    (h₅ : d'.counted e = d.counted e) : d'.chan e = d.chan e := by
  simp only [Data.chan, h₁, h₂, h₃, h₄, h₅]

theorem framed_message {a : EdgeAttr} {x : List UInt8} (hx : x.length = a.nrProduce) :
    Framing.Framed pgmNormal pgmTerminate a.nrProduce false 0 (stdMessage pgmNormal x) ∧
      Framing.Queued pgmNormal pgmTerminate a.nrProduce false [stdMessage pgmNormal x] := by
  have hmsg : stdMessage pgmNormal x = pgmNormal :: x := rfl
  rw [hmsg]
  refine ⟨Or.inr ⟨rfl, ?_⟩, Or.inr ⟨⟨x, rfl, hx⟩, rfl⟩⟩
  have hframed : Framing.Framed pgmNormal pgmTerminate a.nrProduce false x.length (x ++ []) :=
    Framing.framed_payload rfl
  rwa [List.append_nil, hx] at hframed

theorem framed_lastMessage (a : EdgeAttr) :
    Framing.Framed pgmNormal pgmTerminate a.nrProduce true 0 (stdMessage pgmTerminate []) ∧
      Framing.Queued pgmNormal pgmTerminate a.nrProduce true [stdMessage pgmTerminate []] :=
  ⟨Or.inl ⟨rfl, rfl, rfl⟩, Or.inl ⟨rfl, rfl, rfl⟩⟩

/-- A write touches its own edge only. -/
theorem sendStdStep_frame {d d' : Data} {buf : List UInt8} {ans : Answer} {nx : SendNext} {e' : Nat}
    (h : sendStdStep g d e buf ans = some (d', nx)) (hne : e' ≠ e) : d'.chan e' = d.chan e' := by
  obtain ⟨⟨res, d₁⟩, hw, hx⟩ := Option.map_eq_some_iff.mp h
  have hd : d' = d₁ := by
    cases res <;> cases hx <;> rfl
  subst hd
  cases ans with
  | bytes k =>
    simp only [Data.write] at hw
    split_ifs at hw
    · cases hw
      exact chan_congr rfl rfl (Function.update_of_ne hne _ _) rfl rfl
    · cases hw
      exact chan_congr rfl (Function.update_of_ne hne _ _) rfl rfl rfl
  | eagain | failed =>
    cases hw
    rfl
  | _ => cases hw

theorem sendStdStep_chan {t : Bool} {d d' : Data} {buf : List UInt8} {ans : Answer} {nx : SendNext}
    (hdata : (g.edge e).isDataPassing = true) (hring : (g.edge e).attr.type.isRing = false)
    (hfail : ans ≠ .failed) (h : sendStdStep g d e buf ans = some (d', nx))
    (hi : ChanOk (g.edge e).attr t (some buf) (d.chan e)) :
    (∀ buf', nx = .more buf' → ChanOk (g.edge e).attr t (some buf') (d'.chan e)) ∧
      ∀ ok, nx = .done ok → ChanOk (g.edge e).attr t none (d'.chan e) := by
  by_cases hs : (g.edge e).attr.type.isStream = true
  · obtain ⟨st, rfl, heq⟩ := sendStdStep_stream hs hfail h
    have hchan : ({ d with stream := update d.stream e st } : Data).chan e =
        { d.chan e with stream := st } := by
      simp [Data.chan]
    refine ⟨?_, ?_⟩
    · rintro buf' rfl
      rw [hchan]
      exact hi.written hs heq
    · rintro ok rfl
      rw [hchan]
      exact hi.written hs heq
  · have hmq : (g.edge e).attr.type.isMq = true := by
      rcases EdgeType.kind_of_data hdata with h | h | h
      · exact absurd h hs
      · exact h
      · rw [hring] at h
        cases h
    obtain ⟨⟨res, d₁⟩, hw, hx⟩ := Option.map_eq_some_iff.mp h
    cases ans with
    | bytes k =>
      simp only [Data.write, hmq, if_true, Option.some.injEq, Prod.mk.injEq] at hw
      obtain ⟨rfl, rfl⟩ := hw
      simp only [if_true, Prod.mk.injEq] at hx
      obtain ⟨rfl, rfl⟩ := hx
      refine ⟨?_, fun ok _ => ?_⟩
      · rintro buf' ⟨⟩
      · have hchan : ({ d with queue := update d.queue e (d.queue e ++ [buf]) } : Data).chan e =
            { d.chan e with queue := (d.chan e).queue ++ [buf] } := by
          simp [Data.chan]
        rw [hchan]
        exact hi.queued hmq
    | eagain =>
      cases hw
      cases hx
      refine ⟨?_, ?_⟩
      · rintro buf' ⟨⟩
        exact hi
      · rintro ok ⟨⟩
    | failed => exact absurd rfl hfail
    | _ => cases hw

theorem afterData_unwritten {m i e' : Nat} {cmd : Command} {w err : Bool} (tw : List Nat) :
    (Pc.prod m cmd w err (afterData g i e' tw)).unwritten e = none := by
  unfold afterData
  split <;> rfl

theorem edgeOk_begin {t : Nat} {w err : Bool} {ans : Answer} {q : ProdPc}
    (hm : ProdMove g s t .terminate w err ans q eff p) (hf : (g.edge e).isBackedge = false)
    (hnext : q.next g t = some e) (hok : ChanOk (g.edge e).attr false none (s.data.chan e)) :
    ChanOk (g.edge e).attr true (p.unwritten e) ((s.apply g t eff).data.chan e) := by
  cases hm with
  | sent i tw hi =>
    rw [ProdPc.next, hi] at hnext
    cases hnext
  | backedge i e' tw hi hc hb =>
    rw [ProdPc.next, hi] at hnext
    cases hnext
    rw [hf] at hb
    cases hb
  | cvEdge i e' tw hi hb hd =>
    rw [ProdPc.next, hi] at hnext
    cases hnext
    exact hok.cv hd
  | ringCmd i e' tw hi hc hb hr =>
    rw [ProdPc.next, hi] at hnext
    cases hnext
    have hchan : (s.apply g t (.data { s.data with
        ringCmd := update s.data.ringCmd e pgmTerminate })).data.chan e =
        { s.data.chan e with ringCmd := pgmTerminate } := by
      simp [Data.chan, State.apply]
    rw [hchan]
    exact hok.setRing hr
  | lastMessage i e' tw hi hc hb hd hr =>
    rw [ProdPc.next, hi] at hnext
    cases hnext
    simp only [Pc.unwritten, if_true]
    exact hok.begin hr (framed_lastMessage _).1 (framed_lastMessage _).2
  | ring i e' tw x hi hc | message i e' tw x hi hc => cases hc
  | _ => cases hnext

/-- The other steps of `pgm_produce`. -/
theorem edgeOk_keep {t : Nat} {cmd : Command} {w err : Bool} {ans : Answer} {q : ProdPc} {b : Bool}
    (hq : q.Sends g cmd) (hm : ProdMove g s t cmd w err ans q eff p) (hfail : ans ≠ .failed)
    (hnext : ¬ (cmd = .terminate ∧ (g.edge e).isBackedge = false ∧ q.next g t = some e))
    (hb : cmd = .normal → b = false)
    (hok : ChanOk (g.edge e).attr b ((Pc.prod t cmd w err q).unwritten e) (s.data.chan e)) :
    ChanOk (g.edge e).attr b (p.unwritten e) ((s.apply g t eff).data.chan e) := by
  cases hm with
  | ringCmd i e' tw hi hc hf hr =>
    have hne : e ≠ e' := by
      rintro rfl
      exact hnext ⟨hc, hf, hi⟩
    have hchan : (s.apply g t (.data { s.data with
        ringCmd := update s.data.ringCmd e' pgmTerminate })).data.chan e = s.data.chan e :=
      chan_congr rfl rfl rfl (Function.update_of_ne hne _ _) rfl
    rw [hchan]
    exact hok
  | message i e' tw x hi hc hd hr hx =>
    obtain rfl := hb hc
    by_cases hee : e' = e
    · subst hee
      simp only [Pc.unwritten, if_true]
      exact hok.begin hr (framed_message hx).1 (framed_message hx).2
    · simp only [Pc.unwritten, if_neg hee]
      exact hok
  | lastMessage i e' tw hi hc hf =>
    have hne : e' ≠ e := by
      rintro rfl
      exact hnext ⟨hc, hf, hi⟩
    simp only [Pc.unwritten, if_neg hne]
    exact hok
  | write i e' buf buf' tw d h =>
    by_cases hee : e' = e
    · subst hee
      simp only [Pc.unwritten, if_true] at hok ⊢
      exact (sendStdStep_chan hq.2.1 hq.2.2 hfail h hok).1 buf' rfl
    · simp only [Pc.unwritten, if_neg hee] at hok ⊢
      change ChanOk _ _ _ (d.chan e)
      rw [sendStdStep_frame h (fun h => hee h.symm)]
      exact hok
  | written i e' buf tw d ok h =>
    rw [afterData_unwritten]
    by_cases hee : e' = e
    · subst hee
      simp only [Pc.unwritten, if_true] at hok
      exact (sendStdStep_chan hq.2.1 hq.2.2 hfail h hok).2 ok rfl
    · simp only [Pc.unwritten, if_neg hee] at hok
      change ChanOk _ _ _ (d.chan e)
      rw [sendStdStep_frame h (fun h => hee h.symm)]
      exact hok
  | ringWrite i e' x tw h =>
    by_cases hee : e = e'
    · subst hee
      have hchan : (s.apply g t (.data { s.data with
          queue := update s.data.queue e (s.data.queue e ++ [x]) })).data.chan e =
          { s.data.chan e with queue := s.data.queue e ++ [x] } := by
        simp [Data.chan, State.apply]
      rw [hchan]
      exact hok.ringQueue hq.2 _ _
    · have hchan : (s.apply g t (.data { s.data with
          queue := update s.data.queue e' (s.data.queue e' ++ [x]) })).data.chan e =
          s.data.chan e :=
        chan_congr rfl rfl (Function.update_of_ne hee _ _) rfl rfl
      rw [hchan]
      exact hok
  | _ => exact hok

/-! ## The consumer's side -/

theorem chan_countTerminate (d : Data) (n e : Nat) :
    (d.countTerminate n e).chan e = { d.chan e with counted := d.counted e + 1 } := by
  simp [Data.countTerminate, Data.chan]

theorem chan_countTerminate_of_ne (d : Data) {e' : Nat} (h : e' ≠ e) :
    (d.countTerminate n e).chan e' = d.chan e' :=
  chan_congr rfl rfl rfl rfl (Function.update_of_ne h _ _)

/-- What a read of edge `e` may do to the channels and to the destination pointers. -/
structure ReadOk (g : Graph) (b : Bool) (more : Option (List UInt8)) (e : Nat) (d d' : Data)
    (nx : RecvNext) : Prop where
  chan : ChanOk (g.edge e).attr b more (d'.chan e)
  frame : ∀ e', e' ≠ e → d'.chan e' = d.chan e'
  dest : ∀ r, nx = .more r →
    ∀ e', (g.edge e').attr.type.isStream = true → r.dest e' < (g.edge e').attr.nrConsume

theorem chan_setStream (d : Data) (k : Nat) (st buf : List UInt8) :
    (d.setStream e k st buf).chan e = { d.chan e with nextTag := k, stream := st } := by
  simp [Data.chan, Data.setStream]

theorem chan_setStream_of_ne {d : Data} {k e' : Nat} {st buf : List UInt8} (h : e' ≠ e) :
    (d.setStream e k st buf).chan e' = d.chan e' :=
  chan_congr (Function.update_of_ne h _ _) (Function.update_of_ne h _ _) rfl rfl rfl

theorem readStep_stream {b : Bool} {more : Option (List UInt8)} {d d' : Data} {r : Recv} {i : Nat}
    {ans : Answer} {nx : RecvNext} (hs : (g.edge e).attr.type.isStream = true)
    (hd : ∀ e, (g.edge e).attr.type.isStream = true → r.dest e < (g.edge e).attr.nrConsume)
    (heof : ans ≠ .eof) (hfail : ans ≠ .failed) (h : readStep g n d r i e ans = some (d', nx))
    (hok : ChanOk (g.edge e).attr b more (d.chan e)) : ReadOk g b more e d d' nx := by
  have hnew : ∀ k st, Framing.Framed pgmNormal pgmTerminate (g.edge e).attr.nrProduce b k
      (st ++ more.getD []) → (d.chan e).counted = 0 →
      ChanOk (g.edge e).attr b more { d.chan e with nextTag := k, stream := st } := by
    intro k st hf hzero
    refine ⟨hok.counted, fun _ => Or.inl ⟨hzero, hf⟩, fun hmq => ?_, hok.ring⟩
    rw [((g.edge e).attr.type.exclusive.1 hs).1] at hmq
    cases hmq
  rcases hok.stream hs with ⟨hzero, hf⟩ | ⟨hone, ht, hst, hm⟩
  · cases readStep_effect hs hf (hd e hs) heof hfail h with
    | eagain ha => exact ⟨hok, fun _ _ => rfl, by rintro r' ⟨⟩; exact hd⟩
    | payload k st bs ha hf' hrest hlen =>
      refine ⟨?_, fun _ => chan_setStream_of_ne, ?_⟩
      · rw [chan_setStream]
        exact hnew k st (by simpa [edgeFramed] using hf') hzero
      · rintro r' ⟨⟩ e' hs'
        by_cases hee : e' = e
        · subst hee
          simpa [Recv.advance] using hlen
        · simpa [Recv.advance, hee] using hd e' hs'
    | complete k st bs ha hf' hrest hlen =>
      refine ⟨?_, fun _ => chan_setStream_of_ne, ?_⟩
      · rw [chan_setStream]
        exact hnew k st (by simpa [edgeFramed] using hf') hzero
      · rintro r' ⟨⟩
        exact hd
    | terminate ha ht htag hst hm =>
      refine ⟨?_, fun e' he' => ?_, by rintro r' ⟨⟩; exact hd⟩
      · rw [chan_countTerminate, chan_setStream]
        have hone : d.counted e + 1 = 1 := by
          rw [show d.counted e = 0 from hzero]
        refine ⟨fun _ => ⟨ht, EdgeType.data_of_kind (Or.inl hs)⟩,
          fun _ => Or.inr ⟨hone, ht, rfl, hm⟩, fun hmq => ?_, hok.ring⟩
        rw [((g.edge e).attr.type.exclusive.1 hs).1] at hmq
        cases hmq
      · rw [chan_countTerminate_of_ne _ he', chan_setStream_of_ne he']
  · obtain ⟨m, ha, rfl, rfl⟩ := readStep_stopped hs hst heof hfail h
    exact ⟨hok, fun _ _ => rfl, by rintro r' ⟨⟩; exact hd⟩

/-- A whole message is read, and the queue is what is left of it. -/
theorem ChanOk.unqueued {a : EdgeAttr} {b : Bool} {more : Option (List UInt8)} {c : Chan}
    (h : ChanOk a b more c) (hq : a.type.isMq = true) (hzero : c.counted = 0) {q : List (List UInt8)}
    (hf : Framing.Queued pgmNormal pgmTerminate a.nrProduce b (q ++ more.toList)) :
    ChanOk a b more { c with nextTag := 0, queue := q } := by
  refine ⟨h.counted, fun hs => ?_, fun _ => Or.inl ⟨hzero, rfl, hf⟩, h.ring⟩
  rw [(a.type.exclusive.1 hs).1] at hq
  cases hq

/-- The terminate message of a message queue is read. -/
theorem ChanOk.endQueue {a : EdgeAttr} {b : Bool} {more : Option (List UInt8)} {c : Chan}
    (h : ChanOk a b more c) (hq : a.type.isMq = true) (hb : b = true) {k : Nat} (hk : k ≠ 0) :
    ChanOk a b more { c with nextTag := k, queue := [], counted := 1 } := by
  refine ⟨fun _ => ⟨hb, EdgeType.data_of_kind (Or.inr (Or.inl hq))⟩, fun hs => ?_,
    fun _ => Or.inr ⟨rfl, hb, hk⟩, h.ring⟩
  rw [(a.type.exclusive.1 hs).1] at hq
  cases hq

/-- What a read may change of a message-queue edge. -/
def Data.setQueue (d : Data) (e k : Nat) (q : List (List UInt8)) (b : List UInt8) : Data :=
  { d with
    nextTag := update d.nextTag e k
    queue := update d.queue e q
    bufIn := update d.bufIn e b }

theorem chan_setQueue (d : Data) (k : Nat) (q : List (List UInt8)) (buf : List UInt8) :
    (d.setQueue e k q buf).chan e = { d.chan e with nextTag := k, queue := q } := by
  simp [Data.chan, Data.setQueue]

theorem chan_setQueue_of_ne {d : Data} {k e' : Nat} {q : List (List UInt8)} {buf : List UInt8}
    (h : e' ≠ e) : (d.setQueue e k q buf).chan e' = d.chan e' :=
  chan_congr (Function.update_of_ne h _ _) rfl (Function.update_of_ne h _ _) rfl rfl

/-- What one read does to a message queue: it would block, takes a message or the terminate
message, or is refused since it asks for less than a whole message. -/
inductive QueueEffect (g : Graph) (n : Nat) (b : Bool) (d : Data) (r : Recv) (i e : Nat)
    (ans : Answer) : Data → RecvNext → Prop
  | eagain (ha : ans = .eagain) :
      QueueEffect g n b d r i e ans d
        (.more { r with toWait := retryMask g n r.toSkip i, pc := .select false })
  | message (x : List UInt8) (q : List (List UInt8)) (htag : d.nextTag e = 0)
      (hq : d.queue e = (pgmNormal :: x) :: q) :
      QueueEffect g n b d r i e ans (d.setQueue e 0 q (store (d.bufIn e) (r.dest e) x))
        ((r.finish e x).at (.edge (i + 1)))
  | terminate (htag : d.nextTag e = 0) (hb : b = true) (hq : d.queue e = [[pgmTerminate]]) :
      QueueEffect g n b d r i e ans
        ((d.setQueue e (g.edge e).attr.nrProduce [] (d.bufIn e)).countTerminate n e)
        (r.at (.edge (i + 1)))
  | refused (h : r.dest e ≠ 0 ∨ d.nextTag e ≠ 0) :
      QueueEffect g n b d r i e ans d (.done (recvOut g n d .error))

/-- **One read of a message queue.** -/
theorem readStep_queueEffect {b : Bool} {more : List (List UInt8)} {d d' : Data} {r : Recv} {i : Nat}
    {ans : Answer} {nx : RecvNext} (hq : (g.edge e).attr.type.isMq = true)
    (hf : d.nextTag e = 0 →
      Framing.Queued pgmNormal pgmTerminate (g.edge e).attr.nrProduce b (d.queue e ++ more))
    (hfail : ans ≠ .failed) (h : readStep g n d r i e ans = some (d', nx)) :
    QueueEffect g n b d r i e ans d' nx := by
  have hpc : (g.edge e).attr.nrProduce = (g.edge e).attr.nrConsume := (g.edge e).accepted.mq hq
  have hpos : 0 < (g.edge e).attr.nrProduce := (g.edge e).accepted.produce_pos
  have hsmall : ∀ nbytes f, nbytes < (g.edge e).attr.nrProduce + 1 →
      (d.read g e nbytes ans).map f = some (d', nx) → f (.error, d) = (d', nx) := by
    intro nbytes f hlt hf
    rw [Data.read, if_pos hq, if_pos hlt] at hf
    exact Option.some.inj hf
  simp only [readStep] at h
  split at h
  · rename_i hfirst
    obtain ⟨⟨res, d₁⟩, hread, hafter⟩ := Option.map_eq_some_iff.mp h
    rw [Data.read, if_pos hq, if_neg (by omega)] at hread
    cases ans with
    | bytes k =>
      simp only [Data.readMq] at hread
      split at hread
      · rename_i m q hqueue
        cases hread
        have hf' := hf hfirst.2
        rw [hqueue] at hf'
        rcases hf' with ⟨rfl, hb, hnil⟩ | ⟨⟨x, rfl, hx⟩, -⟩
        · obtain ⟨rfl, -⟩ := List.append_eq_nil_iff.mp hnil
          simp only [afterTagged, isTerminate_pgmTerminate, if_true, store_nil, List.length_nil,
            Nat.sub_zero] at hafter
          cases hafter
          exact .terminate hfirst.2 hb hqueue
        · have hterm : isTerminate pgmNormal = false := by decide
          have hnorm : isNormal pgmNormal = true := by decide
          have hlen : x.length = (g.edge e).attr.nrConsume := hx.trans hpc
          simp only [afterTagged, hterm, hnorm, hlen, hpc, Bool.not_true, Bool.false_eq_true,
            if_false, ne_eq, not_true_eq_false, Nat.sub_self] at hafter
          cases hafter
          exact .message x q hfirst.2 hqueue
      · cases hread
    | eagain =>
      cases hread
      cases hafter
      exact .eagain rfl
    | failed => exact absurd rfl hfail
    | _ => cases hread
  · rename_i hfirst
    have hno : r.dest e ≠ 0 ∨ d.nextTag e ≠ 0 := by omega
    split at h
    · have := hsmall _ _ (by omega) h
      cases this
      exact .refused hno
    · have := hsmall _ _ (by omega) h
      cases this
      exact .refused hno

theorem readStep_queue {b : Bool} {more : Option (List UInt8)} {d d' : Data} {r : Recv} {i : Nat}
    {ans : Answer} {nx : RecvNext} (hq : (g.edge e).attr.type.isMq = true)
    (hd : ∀ e, (g.edge e).attr.type.isStream = true → r.dest e < (g.edge e).attr.nrConsume)
    (hfail : ans ≠ .failed) (h : readStep g n d r i e ans = some (d', nx))
    (hok : ChanOk (g.edge e).attr b more (d.chan e)) : ReadOk g b more e d d' nx := by
  have hqueued : d.nextTag e = 0 → d.counted e = 0 ∧ Framing.Queued pgmNormal pgmTerminate
      (g.edge e).attr.nrProduce b (d.queue e ++ more.toList) := by
    intro htag
    rcases hok.mq hq with ⟨hzero, -, hf⟩ | ⟨-, -, hne⟩
    · exact ⟨hzero, hf⟩
    · exact absurd htag hne
  cases readStep_queueEffect hq (fun htag => (hqueued htag).2) hfail h with
  | eagain ha => exact ⟨hok, fun _ _ => rfl, by rintro r' ⟨⟩; exact hd⟩
  | message x q htag hqueue =>
    obtain ⟨hzero, hf⟩ := hqueued htag
    rw [hqueue] at hf
    refine ⟨?_, fun _ => chan_setQueue_of_ne, by rintro r' ⟨⟩; exact hd⟩
    rw [chan_setQueue]
    rcases hf with ⟨hstop, -⟩ | ⟨-, hrest⟩
    · exact absurd (List.cons.inj hstop).1 (by decide)
    · exact hok.unqueued hq hzero hrest
  | terminate htag hb hqueue =>
    refine ⟨?_, fun e' he' => ?_, by rintro r' ⟨⟩; exact hd⟩
    · have hchan := hok.endQueue hq hb (g.edge e).accepted.produce_pos.ne'
      have hone : d.counted e + 1 = 1 := by
        rw [(hqueued htag).1]
      rw [chan_countTerminate, chan_setQueue]
      rw [← hone] at hchan
      exact hchan
    · rw [chan_countTerminate_of_ne _ he', chan_setQueue_of_ne he']
  | refused hno => exact ⟨hok, fun _ _ => rfl, by rintro r' ⟨⟩⟩

theorem ChanOk.countRing {a : EdgeAttr} {b : Bool} {more : Option (List UInt8)} {c : Chan}
    (h : ChanOk a b more c) (hr : a.type.isRing = true) (hb : b = true) (k : Nat) :
    ChanOk a b more { c with counted := k } := by
  refine ⟨fun _ => ⟨hb, EdgeType.data_of_kind (Or.inr (Or.inr hr))⟩, fun hs => ?_, fun hq => ?_,
    h.ring⟩
  · rw [(a.type.exclusive.1 hs).2] at hr
    cases hr
  · rw [a.type.exclusive.2 hq] at hr
    cases hr

theorem readStep_ok {b : Bool} {more : Option (List UInt8)} {d d' : Data} {r : Recv} {i : Nat}
    {ans : Answer} {nx : RecvNext} (hdata : (g.edge e).isDataPassing = true)
    (hring : (g.edge e).attr.type.isRing = false)
    (hd : ∀ e, (g.edge e).attr.type.isStream = true → r.dest e < (g.edge e).attr.nrConsume)
    (heof : ans ≠ .eof) (hfail : ans ≠ .failed) (h : readStep g n d r i e ans = some (d', nx))
    (hok : ChanOk (g.edge e).attr b more (d.chan e)) : ReadOk g b more e d d' nx := by
  rcases EdgeType.kind_of_data hdata with hs | hq | hr
  · exact readStep_stream hs hd heof hfail h hok
  · exact readStep_queue hq hd hfail h hok
  · rw [hring] at hr
    cases hr

/-- What a step of `pgm_recv_data` leaves of the channels. -/
structure Received (g : Graph) (s : State) (n : Nat) (d : Data) (nx : RecvNext) : Prop where
  edges : ∀ e < g.edges.length, ChanOk (g.edge e).attr (decide (Stopped g s e))
    ((s.pc (g.edge e).producer).unwritten e) (d.chan e)
  frame : ∀ e, e ∉ g.inEdges n → d.chan e = s.data.chan e
  next : ∀ r, nx = .more r →
    (∀ e, (g.edge e).attr.type.isStream = true → r.dest e < (g.edge e).attr.nrConsume) ∧
      r.pc.InHand g s n

section received

variable {d : Data} {nx : RecvNext}

theorem received_same (hi : ChanInv g s)
    (hnext : ∀ r, nx = .more r →
      (∀ e, (g.edge e).attr.type.isStream = true → r.dest e < (g.edge e).attr.nrConsume) ∧
        r.pc.InHand g s n) : Received g s n s.data nx :=
  ⟨hi.edges, fun _ _ => rfl, hnext⟩

/-- One in-edge is in hand, and all other edges are as they were. -/
theorem received_one (hi : ChanInv g s) (he : e ∈ g.inEdges n)
    (hframe : ∀ e', e' ≠ e → d.chan e' = s.data.chan e')
    (hok : ChanOk (g.edge e).attr (decide (Stopped g s e))
      ((s.pc (g.edge e).producer).unwritten e) (d.chan e))
    (hnext : ∀ r, nx = .more r →
      (∀ e, (g.edge e).attr.type.isStream = true → r.dest e < (g.edge e).attr.nrConsume) ∧
        r.pc.InHand g s n) : Received g s n d nx := by
  refine ⟨fun e' he' => ?_, fun e' he' => hframe e' ?_, hnext⟩
  · by_cases hee : e' = e
    · subst hee
      exact hok
    · rw [hframe e' hee]
      exact hi.edges e' he'
  · rintro rfl
    exact he' he

end received

theorem recv_received {tok : WaitStatus} {r : Recv} {ans : Answer} {d : Data} {nx : RecvNext}
    (hi : ChanInv g s) (hpc : s.pc n = .wait (.recv tok r)) (heof : ans ≠ .eof)
    (hfail : ans ≠ .failed) (hm : RecvMove g n s.nrSkips s.data r ans d nx) :
    Received g s n d nx := by
  have hd := hi.dest n tok r hpc
  have hp := hi.place n tok r hpc
  cases hm with
  | selecting err err' m | selected | pass =>
    exact received_same hi (by rintro r' ⟨⟩; exact ⟨hd, trivial⟩)
  | selectFailed | out => exact received_same hi (by rintro r' ⟨⟩)
  | enter i e hpc' ha hr =>
    exact received_same hi (by rintro r' ⟨⟩; exact ⟨hd, ha.1, ha.2.1, hr⟩)
  | ringCmd i e hpc' ha hr =>
    refine received_same hi ?_
    rintro r' ⟨⟩
    refine ⟨hd, ?_⟩
    have hlt := (Graph.mem_inEdges.mp ha.mem).1
    by_cases hcmd : isTerminate (s.data.ringCmd e) = true
    · simp only [hcmd, if_true]
      exact ⟨ha.1, hr, of_decide_eq_true (((hi.edges e hlt).ring hr).mp hcmd)⟩
    · simp only [hcmd, if_false, Bool.false_eq_true]
      exact ⟨ha.1, hr⟩
  | ringStop i e hpc' hq =>
    rw [hpc'] at hp
    have he := List.mem_of_getElem? hp.1
    refine received_one hi he (fun e' he' => chan_countTerminate_of_ne _ he') ?_ ?_
    · rw [chan_countTerminate]
      exact (hi.edges e (Graph.mem_inEdges.mp he).1).countRing hp.2.1 (decide_eq_true hp.2.2) _
    · rintro r' ⟨⟩
      exact ⟨hd, trivial⟩
  | ringMore i e hpc' hq =>
    rw [hpc'] at hp
    exact received_same hi (by rintro r' ⟨⟩; exact ⟨hd, hp.1, hp.2.1⟩)
  | ringRead i e x q hpc' hq =>
    rw [hpc'] at hp
    have he := List.mem_of_getElem? hp.1
    refine received_one hi he (fun e' he' => ?_) ?_ ?_
    · exact chan_congr rfl rfl (Function.update_of_ne he' _ _) rfl rfl
    · have := (hi.edges e (Graph.mem_inEdges.mp he).1).ringQueue hp.2 q
        ((s.pc (g.edge e).producer).unwritten e)
      simpa [Data.chan] using this
    · rintro r' ⟨⟩
      exact ⟨hd, trivial⟩
  | read i e d nx hpc' hread =>
    rw [hpc'] at hp
    have he := List.mem_of_getElem? hp.1
    have hok := readStep_ok hp.2.1 hp.2.2 hd heof hfail hread
      (hi.edges e (Graph.mem_inEdges.mp he).1)
    refine received_one hi he hok.frame hok.chan (fun r' hr' => ⟨hok.dest r' hr', ?_⟩)
    cases readStep_after hread with
    | again r'' hagain => cases hr'; rw [hagain]; exact hp
    | next r'' hnext => cases hr'; rw [hnext]; trivial
    | block m => cases hr'; trivial
    | fail g' n' d' => cases hr'

/-! ## The invariant -/

theorem stopped_outside (hi : TermInv g s) (ha : AtMostOnce s a) (hm : Move g s a eff p)
    (he : e ∈ g.outEdges (g.edge e).producer)
    (hno : (g.edge e).producer = a.thread →
      ∀ w err q, s.pc a.thread ≠ .prod a.thread .terminate w err q) :
    Stopped g ((s.apply g a.thread eff).setPc a.thread p) e ↔ Stopped g s e := by
  have := outside_pass (f := fun n q => q.ahead g n) (fun n => rfl) hi ha hm he hno
  rw [stopped_iff, stopped_iff]
  exact and_congr_right fun _ => this

/-- A terminate message that was begun stays so. -/
theorem Stopped.step (hstop : Stopped g s e) (hi : TermInv g s) (ha : AtMostOnce s a)
    (hm : Move g s a eff p) (he : e ∈ g.outEdges (g.edge e).producer) :
    Stopped g ((s.apply g a.thread eff).setPc a.thread p) e := by
  by_cases hin : (g.edge e).producer = a.thread ∧
      ∃ w err q, s.pc a.thread = .prod a.thread .terminate w err q
  · obtain ⟨ht, w, err, q, hpc⟩ := hin
    cases hm with
    | prod t m ans cmd w' err' q' eff p hpc' hm =>
      simp only [Act.thread] at hpc ht ⊢
      cases hpc.symm.trans hpc'
      exact (stopped_prod hi hpc hm ht).1.mpr (Or.inl hstop)
    | callWait n last h | callComplete t n last h | callTerminate t n last h | spurious t h
    | wait t ans w eff p h hm => cases h.symm.trans hpc
  · exact (stopped_outside hi ha hm he
      (fun ht w err q hpc => hin ⟨ht, w, err, q, hpc⟩)).mpr hstop

/-- Outside of `pgm_produce` no message is begun. -/
theorem Move.unwritten_none (hm : Move g s a eff p)
    (hno : ∀ m cmd w err q, s.pc a.thread ≠ .prod m cmd w err q) :
    (s.pc a.thread).unwritten e = none ∧ p.unwritten e = none := by
  cases hm with
  | callTerminate t n last h | callWait n last h | callComplete t n last h | spurious t h =>
    simp only [Act.thread, h]
    exact ⟨rfl, rfl⟩
  | wait t ans w eff p h hm =>
    simp only [Act.thread, h]
    cases hm <;> exact ⟨rfl, rfl⟩
  | prod t m ans cmd w err q eff p h hm => exact absurd h (hno m cmd w err q)

theorem edgeOk_outside (hi : TermInv g s) (ha : AtMostOnce s a) (hm : Move g s a eff p)
    (he : e ∈ g.outEdges (g.edge e).producer)
    (hno : (g.edge e).producer = a.thread → ∀ m cmd w err q, s.pc a.thread ≠ .prod m cmd w err q)
    (hok : ChanOk (g.edge e).attr (decide (Stopped g s e))
      ((s.pc (g.edge e).producer).unwritten e) ((s.apply g a.thread eff).data.chan e)) :
    EdgeOk g ((s.apply g a.thread eff).setPc a.thread p) e := by
  have hstop := stopped_outside hi ha hm he (fun ht w err q => hno ht _ _ w err q)
  have hmore : (((s.apply g a.thread eff).setPc a.thread p).pc (g.edge e).producer).unwritten e =
      (s.pc (g.edge e).producer).unwritten e := by
    by_cases ht : (g.edge e).producer = a.thread
    · obtain ⟨h₁, h₂⟩ := hm.unwritten_none (e := e) (hno ht)
      rw [ht, setPc_pc_self, h₁, h₂]
    · rcases pc_of_ne (g := g) (s := s) eff p ht with heq | ⟨-, hpc, heq⟩
      · rw [heq]
      · rw [heq, hpc]
        rfl
  unfold EdgeOk
  rw [hmore, decide_eq_decide.mpr hstop]
  exact hok

/-- A step of the producer in `pgm_produce`. -/
theorem edgeOk_prod {t : Nat} {cmd : Command} {w err : Bool} {ans : Answer} {q : ProdPc}
    (hi : TermInv g s) (hpc : s.pc t = .prod t cmd w err q)
    (hm : ProdMove g s t cmd w err ans q eff p) (hfail : ans ≠ .failed)
    (ht : (g.edge e).producer = t) (hok : EdgeOk g s e) :
    EdgeOk g ((s.apply g t eff).setPc t p) e := by
  obtain ⟨hiff, hstop⟩ := stopped_prod hi hpc hm ht
  unfold EdgeOk at hok ⊢
  rw [ht, setPc_pc_self]
  rw [ht, hpc] at hok
  by_cases hnext : cmd = .terminate ∧ (g.edge e).isBackedge = false ∧ q.next g t = some e
  · obtain ⟨rfl, hf, hn⟩ := hnext
    have hnot : ¬ Stopped g s e := fun h => (hstop h).2 hn
    have hmore : (Pc.prod t .terminate w err q).unwritten e = none := by
      cases q <;> first | rfl | cases hn
    rw [decide_eq_false hnot, hmore] at hok
    rw [decide_eq_true (hiff.mpr (Or.inr ⟨rfl, hf, hn⟩))]
    exact edgeOk_begin hm hf hn hok
  · have hsame : Stopped g ((s.apply g t eff).setPc t p) e ↔ Stopped g s e := by
      rw [hiff]
      simp only [hnext, or_false]
    rw [decide_eq_decide.mpr hsame]
    refine edgeOk_keep (hi.sends t cmd w err q hpc) hm hfail hnext (fun hn => ?_) hok
    exact decide_eq_false (fun h => by rw [(hstop h).1] at hn; cases hn)

/-- A producer touches its own out-edges only. -/
theorem ProdMove.frame {m t : Nat} {cmd : Command} {w err : Bool} {ans : Answer} {q : ProdPc}
    (hm : ProdMove g s m cmd w err ans q eff p) (hat : q.At g m) (hne : (g.edge e).producer ≠ m) :
    (s.apply g t eff).data.chan e = s.data.chan e := by
  have hout : ∀ (i e' : Nat), (g.outEdges m)[i]? = some e' → e ≠ e' := by
    rintro i e' hi rfl
    exact hne (Graph.mem_outEdges.mp (List.mem_of_getElem? hi)).2
  cases hm with
  | ringCmd i e' tw hi =>
    exact chan_congr rfl rfl rfl (Function.update_of_ne (hout i e' hi) _ _) rfl
  | write i e' buf buf' tw d h => exact sendStdStep_frame h (hout i e' hat)
  | written i e' buf tw d ok h => exact sendStdStep_frame h (hout i e' hat)
  | ringWrite i e' x tw h =>
    exact chan_congr rfl rfl (Function.update_of_ne (hout i e' hat) _ _) rfl rfl
  | _ => rfl

theorem step_edgeOk (ha : AtMostOnce s a) (hh : Healthy a) (hi : ChanInv g s)
    (hm : Move g s a eff p) (he : e < g.edges.length) :
    EdgeOk g ((s.apply g a.thread eff).setPc a.thread p) e := by
  have hout : e ∈ g.outEdges (g.edge e).producer := Graph.mem_outEdges.mpr ⟨he, rfl⟩
  have hwait : ∀ w, s.pc a.thread = .wait w → (g.edge e).producer = a.thread →
      ∀ m cmd v err q, s.pc a.thread ≠ .prod m cmd v err q := by
    intro w hpc _ m cmd v err q hprod
    cases hpc.symm.trans hprod
  have hidle : ∀ last, s.pc a.thread = .idle last → (g.edge e).producer = a.thread →
      ∀ m cmd v err q, s.pc a.thread ≠ .prod m cmd v err q := by
    intro last hpc _ m cmd v err q hprod
    cases hpc.symm.trans hprod
  have hm' := hm
  cases hm with
  | wait t ans w eff p hpc hm =>
    refine edgeOk_outside hi.term ha hm' hout (hwait w hpc) ?_
    cases hm with
    | recv tok r r' d h =>
      exact (recv_received hi hpc hh.1 hh.2 (recvStep_move h)).edges e he
    | recvDone tok st r d h =>
      exact (recv_received hi hpc hh.1 hh.2 (recvStep_move h)).edges e he
    | _ => exact hi.edges e he
  | prod t m ans cmd w err q eff p hpc hm =>
    obtain rfl : t = m := hi.term.owner t m cmd w err q hpc
    by_cases ht : (g.edge e).producer = t
    · exact edgeOk_prod hi.term hpc hm hh.2 ht (hi.edges e he)
    · refine edgeOk_outside hi.term ha hm' hout (fun h => absurd h ht) ?_
      change ChanOk _ _ _ ((s.apply g t eff).data.chan e)
      rw [hm.frame (hi.term.place t t cmd w err q hpc) ht]
      exact hi.edges e he
  | callWait n last hpc | callComplete t n last hpc | callTerminate t n last hpc =>
    exact edgeOk_outside hi.term ha hm' hout (hidle last hpc) (hi.edges e he)
  | spurious t hpc => exact edgeOk_outside hi.term ha hm' hout (hwait _ hpc) (hi.edges e he)

/-- What holds of the local variables of `pgm_recv_data`. -/
theorem Move.recvOk (hh : Healthy a) (hi : ChanInv g s) (hm : Move g s a eff p)
    {tok : WaitStatus} {r : Recv} (hp : p = .wait (.recv tok r)) :
    (∀ e, (g.edge e).attr.type.isStream = true → r.dest e < (g.edge e).attr.nrConsume) ∧
      r.pc.InHand g s a.thread := by
  cases hm with
  | wait t ans w eff p hpc hm =>
    cases hm with
    | recvStart tok r h hr =>
      cases hp
      unfold recvStart at hr
      simp only at hr
      split at hr
      · cases hr
      · cases hr
        exact ⟨fun e _ => (g.edge e).accepted.consume_pos, trivial⟩
    | recv tok r r' d h =>
      cases hp
      exact (recv_received hi hpc hh.1 hh.2 (recvStep_move h)).next _ rfl
    | allReady l | someReady l | noTerm l | allTerm l | notAllTerm l =>
      cases l <;> simp [granted, mustWait] at hp
    | _ => cases hp
  | prod t m ans cmd w err q eff p hpc hm => exact absurd hp (hm.not_wait _)
  | callWait | callComplete | callTerminate | spurious => cases hp

theorem RecvPc.InHand.mono {pc : RecvPc} (h : pc.InHand g s n)
    (hstop : ∀ e ∈ g.inEdges n, Stopped g s e → Stopped g s' e) : pc.InHand g s' n := by
  cases pc with
  | ringEmpty i e => exact ⟨h.1, h.2.1, hstop e (List.mem_of_getElem? h.1) h.2.2⟩
  | _ => exact h

theorem step_chanInv (ha : AtMostOnce s a) (hh : Healthy a) (hi : ChanInv g s)
    (h : step g s a = some s') : ChanInv g s' := by
  have hterm := step_termInv ha hi.term h
  obtain ⟨eff, p, hm, rfl⟩ := step_move h
  have hrecv : ∀ n tok r,
      ((s.apply g a.thread eff).setPc a.thread p).pc n = .wait (.recv tok r) →
      (∀ e, (g.edge e).attr.type.isStream = true → r.dest e < (g.edge e).attr.nrConsume) ∧
        r.pc.InHand g s n := by
    intro n tok r hpc
    by_cases hn : n = a.thread
    · subst hn
      rw [setPc_pc_self] at hpc
      exact hm.recvOk hh hi hpc
    · rcases pc_of_ne (g := g) (s := s) eff p hn with heq | ⟨-, -, heq⟩
      · rw [heq] at hpc
        exact ⟨hi.dest n tok r hpc, hi.place n tok r hpc⟩
      · cases heq.symm.trans hpc
  refine ⟨hterm, fun e he => step_edgeOk ha hh hi hm he, fun n tok r hpc => (hrecv n tok r hpc).1,
    fun n tok r hpc => (hrecv n tok r hpc).2.mono (fun e he hstop => ?_)⟩
  exact hstop.step hi.term ha hm (Graph.mem_out_of_mem_in he)

theorem initState_chanInv (junk : Junk) (g : Graph) : ChanInv g (initState junk g) := by
  refine ⟨initState_termInv junk g, fun e he => ?_, by rintro _ _ _ ⟨⟩, by rintro _ _ _ ⟨⟩⟩
  have hnot : ¬ Stopped g (initState junk g) e := fun h => by cases h.terminated
  unfold EdgeOk
  rw [decide_eq_false hnot]
  refine ⟨fun hc => absurd rfl hc, fun _ => Or.inl ⟨rfl, rfl⟩, fun _ => Or.inl ⟨rfl, rfl, rfl⟩,
    fun _ => ⟨fun hc => ?_, fun hc => by cases hc⟩⟩
  exact absurd (show isTerminate 0 = true from hc) (by decide)

/-! ## What other threads do to a node's in-edges -/

/-- A producer adds to a channel and takes nothing away. -/
structure Grows (c c' : Chan) : Prop where
  nextTag : c'.nextTag = c.nextTag
  counted : c'.counted = c.counted
  stream : c.stream <+: c'.stream
  queue : c.queue <+: c'.queue

theorem Grows.refl (c : Chan) : Grows c c := ⟨rfl, rfl, List.prefix_refl _, List.prefix_refl _⟩

theorem sendStdStep_grows {d d' : Data} {e' : Nat} {buf : List UInt8} {ans : Answer} {nx : SendNext}
    (h : sendStdStep g d e' buf ans = some (d', nx)) : Grows (d.chan e) (d'.chan e) := by
  by_cases hee : e = e'
  · subst hee
    obtain ⟨⟨res, d₁⟩, hw, hx⟩ := Option.map_eq_some_iff.mp h
    have hd : d' = d₁ := by
      cases res <;> cases hx <;> rfl
    subst hd
    cases ans with
    | bytes k =>
      simp only [Data.write] at hw
      split_ifs at hw
      · cases hw
        refine ⟨rfl, rfl, List.prefix_refl _, ?_⟩
        simp [Data.chan]
      · cases hw
        refine ⟨rfl, rfl, ?_, List.prefix_refl _⟩
        simp [Data.chan]
    | eagain | failed =>
      cases hw
      exact Grows.refl _
    | _ => cases hw
  · rw [sendStdStep_frame h hee]
    exact Grows.refl _

theorem ProdMove.grows {m t : Nat} {cmd : Command} {w err : Bool} {ans : Answer} {q : ProdPc}
    (hm : ProdMove g s m cmd w err ans q eff p) :
    Grows (s.data.chan e) ((s.apply g t eff).data.chan e) := by
  cases hm with
  | ringCmd i e' tw hi => exact ⟨rfl, rfl, List.prefix_refl _, List.prefix_refl _⟩
  | write i e' buf buf' tw d h => exact sendStdStep_grows h
  | written i e' buf tw d ok h => exact sendStdStep_grows h
  | ringWrite i e' x tw h =>
    refine ⟨rfl, rfl, List.prefix_refl _, ?_⟩
    by_cases hee : e = e'
    · subst hee
      simp [Data.chan, State.apply]
    · simp [Data.chan, State.apply, hee]
  | _ => exact Grows.refl _

/-- Other threads add to the in-edges of a node whose producers they are. -/
theorem foreign_chan (hi : ChanInv g s) (hh : Healthy a) (hm : Move g s a eff p)
    (hn : n ≠ a.thread) (he : e ∈ g.inEdges n) :
    Grows (s.data.chan e) ((s.apply g a.thread eff).data.chan e) ∧
      ((∀ m cmd w err q, s.pc (g.edge e).producer ≠ .prod m cmd w err q) →
        (s.apply g a.thread eff).data.chan e = s.data.chan e) := by
  have hsame : (s.apply g a.thread eff).data.chan e = s.data.chan e →
      Grows (s.data.chan e) ((s.apply g a.thread eff).data.chan e) ∧
        ((∀ m cmd w err q, s.pc (g.edge e).producer ≠ .prod m cmd w err q) →
          (s.apply g a.thread eff).data.chan e = s.data.chan e) := by
    intro heq
    rw [heq]
    exact ⟨Grows.refl _, fun _ => rfl⟩
  have hout : ∀ t, n ≠ t → e ∉ g.inEdges t := by
    intro t ht he'
    exact ht ((Graph.mem_inEdges_consumer he).symm.trans (Graph.mem_inEdges_consumer he'))
  cases hm with
  | wait t ans w eff p hpc hm =>
    refine hsame ?_
    cases hm with
    | recv tok r r' d h =>
      exact (recv_received hi hpc hh.1 hh.2 (recvStep_move h)).frame e (hout t hn)
    | recvDone tok st r d h =>
      exact (recv_received hi hpc hh.1 hh.2 (recvStep_move h)).frame e (hout t hn)
    | _ => rfl
  | prod t m ans cmd w err q eff p hpc hm =>
    obtain rfl : t = m := hi.term.owner t m cmd w err q hpc
    refine ⟨hm.grows, fun hno => hm.frame (hi.term.place t t cmd w err q hpc) ?_⟩
    rintro rfl
    exact hno _ cmd w err q hpc
  | callWait | callComplete | callTerminate | spurious => exact hsame rfl

end

end Pgm
