import Pgm.Network

/-! What the steps of `pgm_recv_data` and `pgm_produce` do to one data-passing edge. `EdgeMove` says it
for the edge's consumer: bytes of the payload are read, a piece is complete, the end is found, or
nothing of the edge changes. -/

namespace Pgm

open Function (update)

/-- A read that would block sends `pgm_recv_data` back although it has done with edge `e`. -/
def rereads (g : Graph) (e : Nat) (s : State) : Act → Bool
  | .run t .eagain =>
    match s.pc t with
    | .wait (.recv _ r) =>
      match r.pc with
      | .read i _ => decide (e ∈ (g.inEdges t).take i) && decide (s.nrSkips e = 0)
      | _ => false
    | _ => false
  | _ => false

/-- What a producer has in hand for edge `e`: what is left of the message that it writes, or a member
for the ring. -/
def Pc.inHand (ring : Bool) (e : Nat) : Pc → Option (List UInt8)
  | .prod _ _ _ _ (.write _ e' buf _) => if ring = false ∧ e' = e then some buf else none
  | .prod _ _ _ _ (.ringWrite _ e' x _) => if ring = true ∧ e' = e then some x else none
  | _ => none

def State.more (g : Graph) (s : State) (e : Nat) : Option (List UInt8) :=
  (s.pc (g.edge e).producer).inHand (g.edge e).attr.type.isRing e

/-- The payload that a channel has still to give, with what its producer has in hand. -/
def Chan.payload (a : EdgeAttr) (c : Chan) (more : Option (List UInt8)) : List UInt8 :=
  if a.type.isStream then Framing.strip a.nrProduce c.nextTag (c.stream ++ more.getD [])
  else if a.type.isMq then ((c.queue ++ more.toList).map List.tail).flatten
  else (c.queue ++ more.toList).flatten

/-- The in-edge that `pgm_recv_data` is at, and its number. -/
def RecvPc.on : RecvPc → Option (Nat × Nat)
  | .read i e | .ringEmpty i e | .ringRead i e => some (i, e)
  | .select _ | .edge _ => none

/-- Ring `e` holds whole pieces, and nothing after its end has been found. -/
structure RingOk (g : Graph) (s : State) (e : Nat) : Prop where
  size : ∀ x ∈ s.data.queue e, x.length = (g.edge e).attr.nrConsume
  drained : s.data.counted e ≠ 0 → s.data.queue e = []
  stopped : Stopped g s e → s.more g e = none

section

variable {g : Graph} {s : State} {eff : Effect} {p : Pc} {n e t : Nat}

/-! ## The reads of other edges -/

structure SameEdge (e : Nat) (d d' : Data) : Prop where
  chan : d'.chan e = d.chan e
  bufIn : d'.bufIn e = d.bufIn e

theorem SameEdge.refl (e : Nat) (d : Data) : SameEdge e d d := ⟨rfl, rfl⟩

theorem SameEdge.trans {d d' d'' : Data} (h : SameEdge e d d') (h' : SameEdge e d' d'') :
    SameEdge e d d'' :=
  ⟨h'.chan.trans h.chan, h'.bufIn.trans h.bufIn⟩

theorem SameEdge.counted {d d' : Data} (h : SameEdge e d d') : d'.counted e = d.counted e :=
  congrArg Chan.counted h.chan

theorem SameEdge.queue {d d' : Data} (h : SameEdge e d d') : d'.queue e = d.queue e :=
  congrArg Chan.queue h.chan

theorem read_same {e' nbytes : Nat} {d d' : Data} {ans : Answer} {res : ReadRes} (hne : e ≠ e')
    (h : d.read g e' nbytes ans = some (res, d')) : SameEdge e d d' := by
  unfold Data.read at h
  split_ifs at h
  · cases h
    exact .refl e d
  · cases ans with
    | bytes k =>
      simp only [Data.readMq] at h
      split at h
      · cases h
        exact ⟨chan_congr rfl rfl (Function.update_of_ne hne _ _) rfl rfl, rfl⟩
      · cases h
    | eagain | failed =>
      cases h
      exact .refl e d
    | _ => cases h
  · cases ans with
    | bytes k =>
      simp only [Data.readStream] at h
      split_ifs at h
      cases h
      exact ⟨chan_congr rfl (Function.update_of_ne hne _ _) rfl rfl rfl, rfl⟩
    | eagain | eof | failed =>
      cases h
      exact .refl e d
    | _ => cases h

/-- Nothing of edge `e` has changed, neither in the channel nor in the call. -/
structure Untouched (e : Nat) (d : Data) (r : Recv) (d' : Data) (nx : RecvNext) : Prop where
  data : SameEdge e d d'
  dest : ∀ r', nx = .more r' → r'.dest e = r.dest e
  taken : ∀ r', nx = .more r' → r'.taken e = r.taken e

theorem afterNoBytes_untouched {m i : Nat} {d d' : Data} {r : Recv} {res : ReadRes} :
    Untouched e d r d (afterNoBytes g m r i d' res) := by
  refine ⟨.refl e d, ?_, ?_⟩ <;> rintro r' hr' <;> cases res <;> cases hr' <;> rfl

theorem afterTagged_untouched {m i e' : Nat} {r : Recv} (hne : e ≠ e') (x : ReadRes × Data) :
    Untouched e x.2 r (afterTagged g m r i e' x).1 (afterTagged g m r i e' x).2 := by
  have hnew : ∀ (d : Data) k b, SameEdge e d { d with
      nextTag := update d.nextTag e' k, bufIn := update d.bufIn e' b } := fun d k b =>
    ⟨chan_congr (Function.update_of_ne hne _ _) rfl rfl rfl rfl, Function.update_of_ne hne _ _⟩
  unfold afterTagged
  split
  · dsimp only
    split_ifs
    · exact ⟨(hnew _ _ _).trans ⟨chan_countTerminate_of_ne _ hne, rfl⟩,
        by rintro _ ⟨⟩; rfl, by rintro _ ⟨⟩; rfl⟩
    · exact ⟨hnew _ _ _, by rintro _ ⟨⟩, by rintro _ ⟨⟩⟩
    · exact ⟨hnew _ _ _, by rintro _ ⟨⟩; exact Function.update_of_ne hne _ _,
        by rintro _ ⟨⟩; exact Function.update_of_ne hne _ _⟩
    · exact ⟨hnew _ _ _, by rintro _ ⟨⟩; rfl,
        by rintro _ ⟨⟩; exact Function.update_of_ne hne _ _⟩
  · exact afterNoBytes_untouched

theorem afterPayload_untouched {m i e' : Nat} {r : Recv} (hne : e ≠ e') (x : ReadRes × Data) :
    Untouched e x.2 r (afterPayload g m r i e' x).1 (afterPayload g m r i e' x).2 := by
  have hnew : ∀ (d : Data) k b, SameEdge e d { d with
      nextTag := update d.nextTag e' k, bufIn := update d.bufIn e' b } := fun d k b =>
    ⟨chan_congr (Function.update_of_ne hne _ _) rfl rfl rfl rfl, Function.update_of_ne hne _ _⟩
  unfold afterPayload
  split
  · dsimp only
    split_ifs
    · exact ⟨hnew _ _ _, by rintro _ ⟨⟩; exact Function.update_of_ne hne _ _,
        by rintro _ ⟨⟩; exact Function.update_of_ne hne _ _⟩
    · exact ⟨hnew _ _ _, by rintro _ ⟨⟩; rfl,
        by rintro _ ⟨⟩; exact Function.update_of_ne hne _ _⟩
  · exact afterNoBytes_untouched

theorem afterTag_untouched {m i e' : Nat} {r : Recv} (hne : e ≠ e') (x : ReadRes × Data) :
    Untouched e x.2 r (afterTag g m r i e' x).1 (afterTag g m r i e' x).2 := by
  have hnew : ∀ (d : Data) k, SameEdge e d { d with nextTag := update d.nextTag e' k } :=
    fun d k => ⟨chan_congr (Function.update_of_ne hne _ _) rfl rfl rfl rfl, rfl⟩
  unfold afterTag
  split
  · dsimp only
    split_ifs
    · exact ⟨(hnew _ _).trans ⟨chan_countTerminate_of_ne _ hne, rfl⟩,
        by rintro _ ⟨⟩; rfl, by rintro _ ⟨⟩; rfl⟩
    · exact ⟨hnew _ _, by rintro _ ⟨⟩, by rintro _ ⟨⟩⟩
    · exact ⟨hnew _ _, by rintro _ ⟨⟩; rfl, by rintro _ ⟨⟩; rfl⟩
  · exact afterNoBytes_untouched

theorem readStep_untouched {m i e' : Nat} {d d' : Data} {r : Recv} {ans : Answer} {nx : RecvNext}
    (hne : e ≠ e') (h : readStep g m d r i e' ans = some (d', nx)) : Untouched e d r d' nx := by
  have hread : ∀ nbytes f, (∀ x, Untouched e x.2 r (f x).1 (f x).2) →
      (d.read g e' nbytes ans).map f = some (d', nx) → Untouched e d r d' nx := by
    intro nbytes f hf hmap
    obtain ⟨x, hx, hfx⟩ := Option.map_eq_some_iff.mp hmap
    have hafter := hf x
    rw [hfx] at hafter
    exact ⟨(read_same hne hx).trans hafter.data, hafter.dest, hafter.taken⟩
  simp only [readStep] at h
  split_ifs at h
  · exact hread _ _ (afterTagged_untouched hne) h
  · exact hread _ _ (afterPayload_untouched hne) h
  · exact hread _ _ (afterTag_untouched hne) h

/-! ## The reads of the edge -/

/-- What a step of `pgm_recv_data` is for edge `e` among the in-edges of node `n`. -/
inductive EdgeMove (g : Graph) (n e : Nat) (skips : Nat → Nat) (more : Option (List UInt8)) (d : Data)
    (r : Recv) : Data → RecvNext → Prop
  /-- Another edge is read, or none, or the read would block. -/
  | same (d' : Data) (r' : Recv) (hu : Untouched e d r d' (.more r'))
      (hpos : e ∈ (g.inEdges n).take r'.pc.pos ↔ e ∈ (g.inEdges n).take r.pc.pos) :
      EdgeMove g n e skips more d r d' (.more r')
  /-- The edge has skips left, and where the call is does not matter. -/
  | skipped (d' : Data) (r' : Recv) (hu : Untouched e d r d' (.more r')) (hskip : skips e ≠ 0) :
      EdgeMove g n e skips more d r d' (.more r')
  | payload (i : Nat) (d' : Data) (bs : List UInt8) (hs : (g.edge e).attr.type.isStream = true)
      (hpc : r.pc.on = some (i, e))
      (hrest : (d.chan e).payload (g.edge e).attr more =
        bs ++ (d'.chan e).payload (g.edge e).attr more)
      (hbuf : d'.bufIn e = store (d.bufIn e) (r.dest e) bs)
      (hlen : r.dest e + bs.length < (g.edge e).attr.nrConsume) (hzero : d.counted e = 0)
      (hsame : d'.counted e = d.counted e) :
      EdgeMove g n e skips more d r d' ((r.advance e bs).at (.read i e))
  | complete (i : Nat) (d' : Data) (bs : List UInt8) (hpc : r.pc.on = some (i, e))
      (hrest : (d.chan e).payload (g.edge e).attr more =
        bs ++ (d'.chan e).payload (g.edge e).attr more)
      (hbuf : d'.bufIn e = store (d.bufIn e) (r.dest e) bs)
      (hlen : r.dest e + bs.length = (g.edge e).attr.nrConsume) (hzero : d.counted e = 0)
      (hsame : d'.counted e = d.counted e) :
      EdgeMove g n e skips more d r d' ((r.finish e bs).at (.edge (i + 1)))
  | stop (i : Nat) (d' : Data) (hpc : r.pc.on = some (i, e))
      (hrest : (d.chan e).payload (g.edge e).attr more = []) (hone : d'.counted e ≠ 0) :
      EdgeMove g n e skips more d r d' (r.at (.edge (i + 1)))

theorem payload_stream (hs : (g.edge e).attr.type.isStream = true) (d : Data)
    (more : Option (List UInt8)) :
    (d.chan e).payload (g.edge e).attr more = edgeRest g d e (more.getD []) := if_pos hs

theorem payload_mq (hq : (g.edge e).attr.type.isMq = true) (c : Chan) (more : Option (List UInt8)) :
    c.payload (g.edge e).attr more = ((c.queue ++ more.toList).map List.tail).flatten := by
  have hs : (g.edge e).attr.type.isStream = false := by
    by_contra h
    rw [((g.edge e).attr.type.exclusive.1 (Bool.eq_true_of_not_eq_false h)).1] at hq
    cases hq
  rw [Chan.payload, hs, hq]
  rfl

theorem payload_ring (hr : (g.edge e).attr.type.isRing = true) (c : Chan)
    (more : Option (List UInt8)) :
    c.payload (g.edge e).attr more = (c.queue ++ more.toList).flatten := by
  have hs : (g.edge e).attr.type.isStream = false := by
    by_contra h
    rw [((g.edge e).attr.type.exclusive.1 (Bool.eq_true_of_not_eq_false h)).2] at hr
    cases hr
  have hq : (g.edge e).attr.type.isMq = false := by
    by_contra h
    rw [(g.edge e).attr.type.exclusive.2 (Bool.eq_true_of_not_eq_false h)] at hr
    cases hr
  rw [Chan.payload, hs, hq]
  rfl

theorem inHand_false (e : Nat) (p : Pc) : p.inHand false e = p.unwritten e := by
  cases p with
  | prod m cmd w err q => cases q <;> simp [Pc.inHand, Pc.unwritten]
  | _ => rfl

/-- Only a ring has members in hand. -/
theorem more_eq_unwritten (hr : (g.edge e).attr.type.isRing = false) :
    s.more g e = (s.pc (g.edge e).producer).unwritten e := by
  rw [State.more, hr, inHand_false]

theorem readStep_select {m i e' : Nat} {d d' : Data} {r r' : Recv} {ans : Answer} {b : Bool}
    (h : readStep g m d r i e' ans = some (d', .more r')) (hpc : r'.pc = .select b) :
    ans = .eagain := by
  have hno : ∀ {res : ReadRes} {d₁ : Data}, afterNoBytes g m r i d₁ res = .more r' →
      res = .eagain := by
    intro res d₁ hr
    cases res with
    | eagain => rfl
    | error => cases hr
    | eof | bytes =>
      cases hr
      cases hpc
  have hread : ∀ nbytes (f : ReadRes × Data → Data × RecvNext),
      (∀ x, (f x).2 = .more r' → x.1 = .eagain) →
      (d.read g e' nbytes ans).map f = some (d', .more r') → ans = .eagain := by
    intro nbytes f hf hmap
    obtain ⟨⟨res, d₁⟩, hx, hfx⟩ := Option.map_eq_some_iff.mp hmap
    obtain rfl : res = .eagain := hf (res, d₁) (by rw [hfx])
    unfold Data.read at hx
    split_ifs at hx
    · cases hx
    · cases ans with
      | eagain => rfl
      | bytes k =>
        simp only [Data.readMq] at hx
        split at hx <;> cases hx
      | _ => cases hx
    · cases ans with
      | eagain => rfl
      | bytes k =>
        simp only [Data.readStream] at hx
        split_ifs at hx
        cases hx
      | _ => cases hx
  simp only [readStep] at h
  split_ifs at h
  · refine hread _ _ (fun x hr => ?_) h
    unfold afterTagged at hr
    split at hr
    · dsimp only at hr
      split_ifs at hr <;> cases hr <;> cases hpc
    · exact hno hr
  · refine hread _ _ (fun x hr => ?_) h
    unfold afterPayload at hr
    split at hr
    · dsimp only at hr
      split_ifs at hr <;> cases hr <;> cases hpc
    · exact hno hr
  · refine hread _ _ (fun x hr => ?_) h
    unfold afterTag at hr
    split at hr
    · dsimp only at hr
      split_ifs at hr <;> cases hr <;> cases hpc
    · exact hno hr

/-- The call goes on at edge number `i`, and that is not the stream. -/
theorem take_succ_of_ne {i e' : Nat} (hat : (g.inEdges n)[i]? = some e') (hne : e ≠ e') :
    e ∈ (g.inEdges n).take (i + 1) ↔ e ∈ (g.inEdges n).take i := by
  rw [Scan.mem_take_succ hat]
  exact or_iff_left hne

theorem edgeMove_stream {ans : Answer} {r : Recv} {i : Nat} {d : Data} {nx : RecvNext}
    (hs : (g.edge e).attr.type.isStream = true) (hok : EdgeOk g s e) (hpc : r.pc = .read i e)
    (hdest : r.dest e < (g.edge e).attr.nrConsume) (heof : ans ≠ .eof) (hfail : ans ≠ .failed)
    (hblock : ∀ m, EdgeMove g n e s.nrSkips (s.more g e) s.data r s.data
      (.more { r with toWait := m, pc := .select false }))
    (hread : readStep g n s.data r i e ans = some (d, nx)) :
    EdgeMove g n e s.nrSkips (s.more g e) s.data r d nx := by
  have hon : r.pc.on = some (i, e) := by rw [hpc]; rfl
  have hmore := more_eq_unwritten (s := s) ((g.edge e).attr.type.exclusive.1 hs).2
  rcases hok.stream hs with ⟨hzero, hf⟩ | ⟨-, -, hempty, -⟩
  · cases readStep_effect hs hf hdest heof hfail hread with
    | eagain ha => exact hblock _
    | payload k st bs ha hf' hrest hlen =>
      refine .payload i _ bs hs hon ?_ ?_ hlen hzero rfl
      · rw [payload_stream hs, payload_stream hs]
        exact hrest _
      · simp [Data.setStream]
    | complete k st bs ha hf' hrest hlen =>
      refine .complete i _ bs hon ?_ ?_ hlen hzero rfl
      · rw [payload_stream hs, payload_stream hs]
        exact hrest _
      · simp [Data.setStream]
    | terminate ha ht htag hst hnil =>
      refine .stop i _ hon ?_ ?_
      · rw [payload_stream hs, hmore, hnil, edgeRest, htag, hst]
        rfl
      · simp [Data.countTerminate, Data.setStream]
  · obtain ⟨m, -, rfl, rfl⟩ := readStep_stopped hs hempty heof hfail hread
    exact hblock m

/-- A read of the message queue `e`. -/
theorem edgeMove_mq {ans : Answer} {r r' : Recv} {i : Nat} {d : Data} {nx : RecvNext}
    (hq : (g.edge e).attr.type.isMq = true) (hok : EdgeOk g s e) (hpc : r.pc = .read i e)
    (hdest : s.data.counted e = 0 → r.dest e = 0) (hfail : ans ≠ .failed)
    (hblock : ∀ m, EdgeMove g n e s.nrSkips (s.more g e) s.data r s.data
      (.more { r with toWait := m, pc := .select false }))
    (hread : readStep g n s.data r i e ans = some (d, nx)) (hnx : nx = .more r') :
    EdgeMove g n e s.nrSkips (s.more g e) s.data r d nx := by
  have hon : r.pc.on = some (i, e) := by rw [hpc]; rfl
  have hmore := more_eq_unwritten (s := s) ((g.edge e).attr.type.exclusive.2 hq)
  have hqueued : s.data.nextTag e = 0 → s.data.counted e = 0 ∧
      Framing.Queued pgmNormal pgmTerminate (g.edge e).attr.nrProduce (decide (Stopped g s e))
        (s.data.queue e ++ (s.more g e).toList) := by
    intro htag
    rw [hmore]
    rcases hok.mq hq with ⟨hzero, -, hf⟩ | ⟨-, -, hne⟩
    · exact ⟨hzero, hf⟩
    · exact absurd htag hne
  cases readStep_queueEffect hq (fun htag => (hqueued htag).2) hfail hread with
  | eagain ha => exact hblock _
  | message x q htag hqueue =>
    obtain ⟨hzero, hf⟩ := hqueued htag
    rw [hqueue] at hf
    have hx : x.length = (g.edge e).attr.nrConsume := by
      rcases hf with ⟨hstop, -⟩ | ⟨⟨y, hy, hlen⟩, -⟩
      · exact absurd (List.cons.inj hstop).1 (by decide)
      · rw [(List.cons.inj hy).2, hlen]
        exact (g.edge e).accepted.mq hq
    refine .complete i _ x hon ?_ ?_ ?_ hzero rfl
    · rw [payload_mq hq, payload_mq hq, chan_setQueue]
      simp [Data.chan, hqueue]
    · simp [Data.setQueue]
    · rw [hdest hzero, Nat.zero_add, hx]
  | terminate htag hb hqueue =>
    refine .stop i _ hon ?_ ?_
    · have hnone : (s.more g e).toList = [] := by
        have hf := (hqueued htag).2
        rw [hqueue] at hf
        rcases hf with ⟨-, -, hnil⟩ | ⟨⟨y, hy, hlen⟩, -⟩
        · exact hnil
        · exact absurd (List.cons.inj hy).1 (by decide)
      rw [payload_mq hq, hnone]
      simp [Data.chan, hqueue]
    · simp [Data.countTerminate, Data.setQueue]
  | refused => cases hnx

theorem RecvMove.edgeMove {ans : Answer} {tok : WaitStatus} {r r' : Recv} {d : Data}
    {nx : RecvNext} (hdata : (g.edge e).isDataPassing = true) (he : e ∈ g.inEdges n)
    (hi : ChanInv g s) (hring : (g.edge e).attr.type.isRing = true → RingOk g s e)
    (hpc : s.pc n = .wait (.recv tok r))
    (hwhole : (g.edge e).attr.type.isStream = false → s.data.counted e = 0 →
      e ∉ (g.inEdges n).take r.pc.pos → r.dest e = 0)
    (heof : ans ≠ .eof) (hfail : ans ≠ .failed) (hspare : rereads g e s (.run n ans) = false)
    (hm : RecvMove g n s.nrSkips s.data r ans d nx) (hnx : nx = .more r') :
    EdgeMove g n e s.nrSkips (s.more g e) s.data r d nx := by
  have hplace := hi.place n tok r hpc
  have hsame : ∀ pc m, Untouched e s.data r s.data (.more { r with toWait := m, pc := pc }) :=
    fun pc m => ⟨.refl e _, by rintro _ ⟨⟩; rfl, by rintro _ ⟨⟩; rfl⟩
  cases hm with
  | selecting err err' m hpc' => exact .same _ _ (hsame _ _) (by rw [hpc']; rfl)
  | selected hpc' => exact .same _ _ (hsame _ _) (by rw [hpc']; rfl)
  | selectFailed | out => cases hnx
  | pass i e' hpc' hat hn =>
    by_cases hee : e = e'
    · subst hee
      refine .skipped _ _ (hsame _ _) (fun hz => hn ⟨hat, hdata, hz⟩)
    · refine .same _ _ (hsame _ _) ?_
      rw [hpc']
      exact take_succ_of_ne hat hee
  | enter i e' hpc' ha hr => exact .same _ _ (hsame _ _) (by rw [hpc']; rfl)
  | ringCmd i e' hpc' ha hr =>
    refine .same _ _ (hsame _ _) ?_
    rw [hpc']
    cases isTerminate (s.data.ringCmd e') <;> rfl
  | ringStop i e' hpc' hq =>
    rw [hpc'] at hplace
    by_cases hee : e = e'
    · subst hee
      have hr := hplace.2.1
      refine .stop i _ (by rw [hpc']; rfl) ?_ (by simp [Data.countTerminate])
      rw [payload_ring hr, (hring hr).stopped hplace.2.2]
      simp [Data.chan, hq]
    · refine .same _ _ ⟨⟨chan_countTerminate_of_ne _ hee, rfl⟩, by rintro _ ⟨⟩; rfl,
        by rintro _ ⟨⟩; rfl⟩ ?_
      rw [hpc']
      exact take_succ_of_ne hplace.1 hee
  | ringMore i e' hpc' hq => exact .same _ _ (hsame _ _) (by rw [hpc']; rfl)
  | ringRead i e' x q hpc' hq =>
    rw [hpc'] at hplace
    by_cases hee : e = e'
    · subst hee
      have hr := hplace.2
      have hzero : s.data.counted e = 0 := by
        by_contra hc
        rw [(hring hr).drained hc] at hq
        cases hq
      have hnot : (g.edge e).attr.type.isStream = false := by
        by_contra hs
        rw [((g.edge e).attr.type.exclusive.1 (Bool.eq_true_of_not_eq_false hs)).2] at hr
        cases hr
      have hdest : r.dest e = 0 := by
        refine hwhole hnot hzero ?_
        rw [hpc']
        exact Scan.not_mem_take (g.inEdges_nodup n) hplace.1
      have hx : x.length = (g.edge e).attr.nrConsume :=
        (hring hr).size x (by rw [hq]; exact List.mem_cons_self)
      refine .complete i _ x (by rw [hpc']; rfl) ?_ ?_ ?_ hzero rfl
      · rw [payload_ring hr, payload_ring hr]
        simp [Data.chan, hq]
      · simp
      · rw [hdest, Nat.zero_add, hx]
    · refine .same _ _ ⟨⟨chan_congr rfl rfl (Function.update_of_ne hee _ _) rfl rfl,
        Function.update_of_ne hee _ _⟩, by rintro _ ⟨⟩; rfl,
        by rintro _ ⟨⟩; exact Function.update_of_ne hee _ _⟩ ?_
      rw [hpc']
      exact take_succ_of_ne hplace.1 hee
  | read i e' d nx hpc' hread =>
    rw [hpc'] at hplace
    by_cases hee : e = e'
    · subst hee
      have hahead := Scan.not_mem_take (g.inEdges_nodup n) hplace.1
      have hok : EdgeOk g s e := hi.edges e (Graph.mem_inEdges.mp he).1
      have hblock : ∀ m, EdgeMove g n e s.nrSkips (s.more g e) s.data r s.data
          (.more { r with toWait := m, pc := .select false }) := by
        intro m
        refine .same _ _ (hsame _ _) ?_
        rw [hpc']
        simp [RecvPc.pos, hahead]
      rcases EdgeType.kind_of_data hdata with hs | hq | hr
      · exact edgeMove_stream hs hok hpc' (hi.dest n tok r hpc e hs) heof hfail hblock hread
      · refine edgeMove_mq hq hok hpc' (fun hzero => hwhole ?_ hzero ?_) hfail hblock hread hnx
        · by_contra hs
          rw [((g.edge e).attr.type.exclusive.1 (Bool.eq_true_of_not_eq_false hs)).1] at hq
          cases hq
        · rw [hpc']
          exact hahead
      · rw [hplace.2.2] at hr
        cases hr
    · have hu := readStep_untouched hee hread
      subst hnx
      have hafter := readStep_after hread
      have hsel := fun b hb => readStep_select (b := b) hread hb
      generalize hnx : RecvNext.more r' = nx at hafter
      cases hafter with
      | again r'' hpc'' =>
        cases hnx
        refine .same _ _ hu ?_
        rw [hpc', hpc'']
      | next r'' hpc'' =>
        cases hnx
        refine .same _ _ hu ?_
        rw [hpc', hpc'']
        exact take_succ_of_ne hplace.1 hee
      | block m =>
        cases hnx
        obtain rfl := hsel false rfl
        simp only [rereads, hpc, hpc', Bool.and_eq_false_iff, decide_eq_false_iff_not] at hspare
        rcases hspare with hnotin | hskip
        · refine .same _ _ hu ?_
          rw [hpc']
          simp [RecvPc.pos, hnotin]
        · exact .skipped _ _ hu hskip
      | fail => cases hnx

theorem EdgeMove.counted {skips : Nat → Nat} {more : Option (List UInt8)} {d d' : Data} {r : Recv}
    {nx : RecvNext} (hm : EdgeMove g n e skips more d r d' nx) (hc : d.counted e ≠ 0) :
    d'.counted e ≠ 0 := by
  cases hm with
  | same d' r' hu | skipped d' r' hu => rwa [hu.data.counted]
  | payload i d' bs hs hpc hrest hbuf hlen hzero | complete i d' bs hpc hrest hbuf hlen hzero =>
    exact absurd hzero hc
  | stop i d' hpc hrest hone => exact hone

/-! ## The steps of the others -/

/-- `pgm_recv_data` touches the in-edges of its node only. -/
theorem RecvMove.same_of_ne {ans : Answer} {tok : WaitStatus} {r : Recv} {d : Data}
    {nx : RecvNext} (hm : RecvMove g t s.nrSkips s.data r ans d nx) (hi : ChanInv g s)
    (hpc : s.pc t = .wait (.recv tok r)) (he : e ∉ g.inEdges t) : SameEdge e s.data d := by
  have hplace := hi.place t tok r hpc
  have hne : ∀ {i e' : Nat}, (g.inEdges t)[i]? = some e' → e ≠ e' := by
    rintro i e' hat rfl
    exact he (List.mem_of_getElem? hat)
  cases hm with
  | ringStop i e' hpc' hq =>
    rw [hpc'] at hplace
    exact ⟨chan_countTerminate_of_ne _ (hne hplace.1), rfl⟩
  | ringRead i e' x q hpc' hq =>
    rw [hpc'] at hplace
    exact ⟨chan_congr rfl rfl (Function.update_of_ne (hne hplace.1) _ _) rfl rfl,
      Function.update_of_ne (hne hplace.1) _ _⟩
  | read i e' d nx hpc' hread =>
    rw [hpc'] at hplace
    exact (readStep_untouched (hne hplace.1) hread).data
  | _ => exact .refl e _

theorem WaitMove.same_of_ne {ans : Answer} {w : WaitPc} (hm : WaitMove g s t ans w eff p)
    (hi : ChanInv g s) (hpc : s.pc t = .wait w) (he : e ∉ g.inEdges t) :
    SameEdge e s.data (s.apply g t eff).data := by
  cases hm with
  | recv tok r r' d hstep => exact (recvStep_move hstep).same_of_ne hi hpc he
  | recvDone tok st r d hstep => exact (recvStep_move hstep).same_of_ne hi hpc he
  | _ => exact .refl e _

theorem sendStdStep_bufIn {d d' : Data} {e' : Nat} {buf : List UInt8} {ans : Answer} {nx : SendNext}
    (hsend : sendStdStep g d e' buf ans = some (d', nx)) : d'.bufIn = d.bufIn := by
  obtain ⟨⟨res, d₁⟩, hw, hx⟩ := Option.map_eq_some_iff.mp hsend
  have hd : d' = d₁ := by
    cases res <;> cases hx <;> rfl
  subst hd
  cases ans with
  | bytes k =>
    simp only [Data.write] at hw
    split_ifs at hw <;> cases hw <;> rfl
  | eagain | failed =>
    cases hw
    rfl
  | _ => cases hw

/-- Producers fill no buffers. -/
theorem ProdMove.bufIn {ans : Answer} {m : Nat} {cmd : Command} {w err : Bool} {q : ProdPc}
    (hm : ProdMove g s m cmd w err ans q eff p) : (s.apply g t eff).data.bufIn = s.data.bufIn := by
  cases hm with
  | write i e' buf buf' tw d hsend => exact sendStdStep_bufIn hsend
  | written i e' buf tw d ok hsend => exact sendStdStep_bufIn hsend
  | _ => rfl

end

end Pgm
