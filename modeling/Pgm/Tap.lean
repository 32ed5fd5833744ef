import Pgm.EdgeMove

/-! The tapped run of a graph: what the users send on the data-passing edges, and what the buffers hold
when a wait returns 0. `ProdMove.payload` says that a step of `pgm_produce` adds to the payload of an
edge what it adds to the record. -/

namespace Pgm

open Function (update)

/-- The payload that the action begins to send, and its edge. -/
def begun (g : Graph) (s : State) : Act → Option (Nat × List UInt8)
  | .run t (.user x) =>
    match s.pc t with
    | .prod m .normal _ _ (.send i _) => ((g.outEdges m)[i]?).bind (fun e =>
        if (g.edge e).isDataPassing then some (e, x) else none)
    | _ => none
  | _ => none

def returning (g : Graph) (s : State) : Act → Option Nat
  | .run t _ =>
    match s.pc t with
    | .wait (.skips .ok i) => if ((g.inEdges t)[i]?).isNone then some t else none
    | _ => none
  | _ => none

def note (g : Graph) (s : State) (h : Record) (a : Act) : Record where
  sent := match begun g s a with
    | some (e, x) => update h.sent e (h.sent e ++ [x])
    | none => h.sent
  jobs := match returning g s a with
    | some n => update h.jobs n (h.jobs n ++ [s.data.bufIn])
    | none => h.jobs

def tap (g : Graph) (w : State × Record) (a : Act) : Option (State × Record) :=
  (step g w.1 a).map (fun s' => (s', note g w.1 w.2 a))

section

variable {g : Graph} {s s' : State} {h : Record} {a : Act} {eff : Effect} {p : Pc} {n e t : Nat}

theorem begun_eq_some {x : List UInt8} (hb : begun g s a = some (e, x)) :
    ∃ t m b err i tw, a = .run t (.user x) ∧ s.pc t = .prod m .normal b err (.send i tw) ∧
      (g.outEdges m)[i]? = some e := by
  unfold begun at hb
  split at hb
  · rename_i t y
    split at hb
    · rename_i m b err i tw hpc
      obtain ⟨e', hat, hif⟩ := Option.bind_eq_some_iff.mp hb
      split_ifs at hif
      obtain ⟨rfl, rfl⟩ := Prod.mk.inj (Option.some.inj hif)
      exact ⟨t, m, b, err, i, tw, rfl, hpc, hat⟩
    · cases hb
  · cases hb

theorem note_sent_begun {x : List UInt8} (hb : begun g s a = some (e, x)) :
    (note g s h a).sent e = h.sent e ++ [x] := by
  simp [note, hb]

theorem note_sent_of_ne (hb : ∀ x, begun g s a ≠ some (e, x)) :
    (note g s h a).sent e = h.sent e := by
  cases hbegun : begun g s a with
  | none => simp [note, hbegun]
  | some y =>
    have hne : e ≠ y.1 := by
      rintro rfl
      exact hb y.2 hbegun
    simp [note, hbegun, hne]

theorem note_jobs (hr : returning g s a = some n) :
    (note g s h a).jobs n = h.jobs n ++ [s.data.bufIn] := by
  simp [note, hr]

theorem note_jobs_of_ne (hr : returning g s a ≠ some n) : (note g s h a).jobs n = h.jobs n := by
  cases hret : returning g s a with
  | none => simp [note, hret]
  | some m =>
    have hne : n ≠ m := by
      rintro rfl
      exact hr hret
    simp [note, hret, hne]

theorem returning_eq_some (hr : returning g s a = some n) :
    ∃ ans i, a = .run n ans ∧ s.pc n = .wait (.skips .ok i) ∧ (g.inEdges n)[i]? = none := by
  unfold returning at hr
  split at hr
  · rename_i t ans
    split at hr
    · rename_i i hpc
      split_ifs at hr with hend
      obtain rfl := Option.some.inj hr
      exact ⟨ans, i, rfl, hpc, Option.isNone_iff_eq_none.mp hend⟩
    · cases hr
  · cases hr

theorem Move.returning (hm : Move g s a eff p) : (s.apply g a.thread eff).fired n =
    s.fired n + if returning g s a = some n then 1 else 0 := by
  cases hm with
  | wait t ans w eff p hpc hm =>
    cases hm with
    | fire i hend =>
      by_cases hn : n = t
      · subst hn
        simp [Pgm.returning, hpc, hend, State.apply]
      · simp [Pgm.returning, hpc, hend, State.apply, hn, Ne.symm hn]
    | skip ret i e hi hlt | skipPass ret i e hi hz =>
      cases ret <;> simp [Pgm.returning, hpc, hi, State.apply]
    | _ => simp [Pgm.returning, hpc, State.apply]
  | prod t m ans cmd w err q eff p hpc hm =>
    have hfired : (s.apply g t eff).fired n = s.fired n := by cases hm <;> rfl
    simp [Pgm.returning, hpc, hfired, Act.thread]
  | _ => simp [Pgm.returning, State.apply]

/-! ## The producer -/

/-- A send begins with what the user has left in the buffer. -/
theorem step_message {ans : Answer} {m i : Nat} {b err : Bool} {tw : List Nat}
    (hpc : s.pc t = .prod m .normal b err (.send i tw)) (hat : (g.outEdges m)[i]? = some e)
    (hdata : (g.edge e).isDataPassing = true) (hstep : step g s (.run t ans) = some s') :
    ∃ x, ans = .user x ∧ x.length = (g.edge e).attr.nrProduce ∧
      s' = s.setPc t (.prod m .normal b err (if (g.edge e).attr.type.isRing then .ringWrite i e x tw
        else .write i e (stdMessage pgmNormal x) tw)) := by
  simp only [step, actStep, threadStep, hpc, prodStep, hat, sendEdge, reduceCtorEq, false_and,
    if_false, hdata, if_true, Option.map_eq_some_iff, Act.thread] at hstep
  obtain ⟨⟨eff, p⟩, ⟨⟨eff', q⟩, hsend, hpair⟩, rfl⟩ := hstep
  cases ans with
  | user x =>
    simp only [sendNormal] at hsend
    split at hsend
    · rename_i hx
      cases hsend
      cases hpair
      exact ⟨x, rfl, hx, rfl⟩
    · cases hsend
  | _ => cases hsend

/-- What the producer has in hand for an edge with the message `x`. -/
def handed (a : EdgeAttr) (x : List UInt8) : List UInt8 :=
  if a.type.isRing then x else stdMessage pgmNormal x

theorem strip_message {x : List UInt8} {P : Nat} (hx : x.length = P) :
    Framing.strip P 0 (stdMessage pgmNormal x) = x := by
  have hpay := Framing.strip_payload (P := P) x []
  rw [hx, List.append_nil] at hpay
  have hterm : isTerminate pgmNormal = false := by decide
  simpa [stdMessage, hterm, Framing.strip] using hpay

section payload

variable {c : Chan}

/-- Before the terminate message is begun a stream consists of whole messages. -/
theorem ChanOk.framed {a : EdgeAttr} (hok : ChanOk a false none c) (hs : a.type.isStream = true) :
    Framing.Framed pgmNormal pgmTerminate a.nrProduce false c.nextTag c.stream := by
  rcases hok.stream hs with ⟨-, hf⟩ | ⟨-, ht, -⟩
  · simpa using hf
  · cases ht

/-- A message is put behind what is there. -/
theorem payload_begin (hdata : (g.edge e).isDataPassing = true)
    (hok : ChanOk (g.edge e).attr false none c) {x : List UInt8}
    (hx : x.length = (g.edge e).attr.nrProduce) :
    c.payload (g.edge e).attr (some (handed (g.edge e).attr x)) =
      c.payload (g.edge e).attr none ++ x := by
  rcases EdgeType.kind_of_data hdata with hs | hq | hr
  · have hf := hok.framed hs
    have hr := ((g.edge e).attr.type.exclusive.1 hs).2
    simp only [Chan.payload, hs, if_true, handed, hr, Bool.false_eq_true, if_false,
      Option.getD_some, Option.getD_none, List.append_nil]
    rw [hf.strip_append, strip_message hx]
  · have hr := (g.edge e).attr.type.exclusive.2 hq
    rw [payload_mq hq, payload_mq hq]
    simp [handed, hr, stdMessage, show isTerminate pgmNormal = false by decide]
  · rw [payload_ring hr, payload_ring hr]
    simp [handed, hr]

theorem payload_last (hdata : (g.edge e).isDataPassing = true)
    (hr : (g.edge e).attr.type.isRing = false) (hok : ChanOk (g.edge e).attr false none c) :
    c.payload (g.edge e).attr (some (stdMessage pgmTerminate [])) =
      c.payload (g.edge e).attr none := by
  rcases EdgeType.kind_of_data hdata with hs | hq | hr'
  · have hf := hok.framed hs
    simp only [Chan.payload, hs, if_true, Option.getD_some, Option.getD_none, List.append_nil]
    rw [hf.strip_append]
    simp [stdMessage, isTerminate_pgmTerminate, Framing.strip]
  · rw [payload_mq hq, payload_mq hq]
    simp [stdMessage, isTerminate_pgmTerminate]
  · rw [hr] at hr'
    cases hr'

def SendNext.left : SendNext → Option (List UInt8)
  | .more buf => some buf
  | .done _ => none

/-- A message queue takes the message whole or not at all. -/
theorem sendStdStep_queue {d d' : Data} {buf : List UInt8} {ans : Answer} {nx : SendNext}
    (hq : (g.edge e).attr.type.isMq = true) (hfail : ans ≠ .failed)
    (hsend : sendStdStep g d e buf ans = some (d', nx)) :
    (d' = d ∧ nx = .more buf) ∨
      (d' = { d with queue := update d.queue e (d.queue e ++ [buf]) } ∧ nx = .done true) := by
  obtain ⟨⟨res, d₁⟩, hw, hx⟩ := Option.map_eq_some_iff.mp hsend
  cases ans with
  | bytes k =>
    simp only [Data.write, hq, if_true, Option.some.injEq, Prod.mk.injEq] at hw
    obtain ⟨rfl, rfl⟩ := hw
    simp only [if_true, Prod.mk.injEq] at hx
    exact Or.inr ⟨hx.1.symm, hx.2.symm⟩
  | eagain =>
    cases hw
    cases hx
    exact Or.inl ⟨rfl, rfl⟩
  | failed => exact absurd rfl hfail
  | _ => cases hw

theorem payload_write {d d' : Data} {buf : List UInt8} {ans : Answer} {nx : SendNext}
    (hdata : (g.edge e).isDataPassing = true) (hr : (g.edge e).attr.type.isRing = false)
    (hfail : ans ≠ .failed) (hsend : sendStdStep g d e buf ans = some (d', nx)) :
    (d'.chan e).payload (g.edge e).attr nx.left =
      (d.chan e).payload (g.edge e).attr (some buf) := by
  rcases EdgeType.kind_of_data hdata with hs | hq | hr'
  · obtain ⟨st, rfl, heq⟩ := sendStdStep_stream hs hfail hsend
    have hleft : nx.left.getD [] = nx.rest := by cases nx <;> rfl
    rw [payload_stream hs, payload_stream hs, hleft]
    exact edgeRest_congr rfl (by simpa using heq)
  · rw [payload_mq hq, payload_mq hq]
    rcases sendStdStep_queue hq hfail hsend with ⟨rfl, rfl⟩ | ⟨rfl, rfl⟩
    · rfl
    · simp [Data.chan, SendNext.left]
  · rw [hr] at hr'
    cases hr'

end payload

theorem afterData_inHand {m i : Nat} {cmd : Command} {w err b : Bool} {e' : Nat} {tw : List Nat} :
    (Pc.prod m cmd w err (afterData g i e' tw)).inHand b e = none := by
  unfold afterData
  split <;> rfl

theorem ProdMove.payload {ans : Answer} {cmd : Command} {w err : Bool} {q : ProdPc}
    (hi : ChanInv g s) (hpc : s.pc t = .prod t cmd w err q)
    (hm : ProdMove g s t cmd w err ans q eff p)
    (hstep : step g s (.run t ans) = some ((s.apply g t eff).setPc t p)) (hfail : ans ≠ .failed)
    (hdata : (g.edge e).isDataPassing = true) (ht : (g.edge e).producer = t)
    (hlt : e < g.edges.length) :
    ∃ x, ((note g s h (.run t ans)).sent e).flatten = (h.sent e).flatten ++ x ∧
      ((s.apply g t eff).data.chan e).payload (g.edge e).attr
        (((s.apply g t eff).setPc t p).more g e) =
        (s.data.chan e).payload (g.edge e).attr (s.more g e) ++ x ∧
      (x ≠ [] → s.data.counted e = 0) := by
  have hmore : s.more g e = (Pc.prod t cmd w err q).inHand (g.edge e).attr.type.isRing e := by
    rw [State.more, ht, hpc]
  have hmore' : ((s.apply g t eff).setPc t p).more g e =
      p.inHand (g.edge e).attr.type.isRing e := by
    rw [State.more, ht, setPc_pc_self]
  have hsends := hi.term.sends t cmd w err q hpc
  -- an edge that is taken up has nothing on it in part
  have hfresh : ∀ i tw, q = .send i tw → ¬ Stopped g s e →
      ChanOk (g.edge e).attr false none (s.data.chan e) := by
    rintro i tw rfl hno
    have hok : EdgeOk g s e := hi.edges e hlt
    unfold EdgeOk at hok
    rwa [decide_eq_false hno, ht, hpc] at hok
  by_cases hbegin : ∃ i tw, q = .send i tw ∧ cmd = .normal ∧ (g.outEdges t)[i]? = some e
  · obtain ⟨i, tw, rfl, rfl, hat⟩ := hbegin
    obtain ⟨x, rfl, hx, hs'⟩ := step_message hpc hat hdata hstep
    have hsame : (s.apply g t eff).data = s.data := by
      have hfield := congrArg State.data hs'
      exact hfield
    have hp : p.inHand (g.edge e).attr.type.isRing e = some (handed (g.edge e).attr x) := by
      have hpcs := congrArg (fun s : State => s.pc t) hs'
      simp only [setPc_pc_self] at hpcs
      rw [hpcs, handed]
      cases (g.edge e).attr.type.isRing <;> simp [Pc.inHand]
    have hnot : ¬ Stopped g s e := by
      intro hstop
      have hterm := hstop.terminated
      rw [ht] at hterm
      cases (hi.term.command t .normal w err _ hpc).mp hterm
    have hok := hfresh i tw rfl hnot
    refine ⟨x, ?_, ?_, fun _ => hok.uncounted⟩
    · have hb : begun g s (.run t (.user x)) = some (e, x) := by simp [begun, hpc, hat, hdata]
      rw [note_sent_begun hb, List.flatten_append, List.flatten_singleton]
    · rw [hmore', hp, hsame, hmore]
      exact payload_begin hdata hok hx
  · have hnone : ∀ x, begun g s (.run t ans) ≠ some (e, x) := by
      intro x hb
      obtain ⟨t', m, b, err', i, tw, ha, hpc', hat⟩ := begun_eq_some hb
      cases ha
      cases hpc.symm.trans hpc'
      exact hbegin ⟨i, tw, rfl, rfl, hat⟩
    refine ⟨[], ?_, ?_, fun hx => absurd rfl hx⟩
    · rw [note_sent_of_ne hnone, List.append_nil]
    · rw [List.append_nil, hmore, hmore']
      cases hm with
      | ring i e' tw x hat hc hd hx | message i e' tw x hat hc hd hr hx =>
        have hne : e' ≠ e := by
          rintro rfl
          exact hbegin ⟨i, tw, rfl, hc, hat⟩
        simp [Pc.inHand, hne, State.apply]
      | lastMessage i e' tw hat hc hb hd hr =>
        by_cases hee : e' = e
        · subst hee
          have hnot : ¬ Stopped g s e' := by
            intro hstop
            have hbegun := hstop.begun
            rw [ht, hpc, hc] at hbegun
            exact hbegun ((Scan.mem_drop_iff hat).mpr (Or.inl rfl))
          simp only [Pc.inHand, hr, and_self, if_true]
          exact payload_last hdata hr (hfresh i tw rfl hnot)
        · simp [Pc.inHand, hee, State.apply]
      | ringCmd i e' tw hat hc hb hr =>
        simp [Chan.payload, Data.chan, Pc.inHand, State.apply]
      | write i e' buf buf' tw d hsend =>
        by_cases hee : e' = e
        · subst hee
          simp only [Pc.inHand, hsends.2.2, and_self, if_true]
          exact payload_write hdata hsends.2.2 hfail hsend
        · simp only [Pc.inHand, hee, and_false, if_false]
          change (d.chan e).payload _ none = _
          rw [sendStdStep_frame hsend (Ne.symm hee)]
      | written i e' buf tw d ok hsend =>
        rw [afterData_inHand]
        by_cases hee : e' = e
        · subst hee
          simp only [Pc.inHand, hsends.2.2, and_self, if_true]
          exact payload_write hdata hsends.2.2 hfail hsend
        · simp only [Pc.inHand, hee, and_false, if_false]
          change (d.chan e).payload _ none = _
          rw [sendStdStep_frame hsend (Ne.symm hee)]
      | ringWrite i e' x tw hlt =>
        by_cases hee : e' = e
        · subst hee
          have hr := hsends.2
          rw [payload_ring hr, payload_ring hr]
          simp [Pc.inHand, hr, Data.chan, State.apply]
        · have hne : e ≠ e' := Ne.symm hee
          simp [Chan.payload, Data.chan, Pc.inHand, State.apply, hee, hne]
      | _ => rfl

end

end Pgm
