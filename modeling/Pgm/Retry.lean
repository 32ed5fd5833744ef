import Pgm.Lib.Lts
import Pgm.Stream

/-! The retry of `pgm_recv_data` after a read that would block. The loop starts
over at the first in-edge, so an edge that was already complete is read again
into the tail of its buffer. What a call takes from each edge is exact as long
as no read would block behind another edge that the call reads. -/

namespace Pgm

open Function (update)

/-- A read would block while an edge in front of it has already been read. -/
def LateRetry (g : Graph) (n : Nat) (skips : Nat → Nat) (c : Call) (ans : Answer) : Prop :=
  ans = .eagain ∧ ∃ i e, c.loc.pc = .read i e ∧ ∃ j e', j < i ∧ Active g n skips j e'

/-- The call has put exactly what it read from edge `e` into the buffer, and no more
than `nr_consume` bytes. -/
def Exact (g : Graph) (c : Call) (e : Nat) : Prop :=
  (c.loc.taken e).length ≤ (g.edge e).attr.nrConsume ∧ c.data.bufIn e = c.loc.taken e

section

variable {g : Graph} {n : Nat} {skips : Nat → Nat} {c c' : Call} {ans : Answer}

/-- What every call keeps at edge number `j`. -/
structure EdgeReading (g : Graph) (c : Call) (j e : Nat) : Prop where
  framed : edgeFramed g false c.data e []
  short : (c.view e).dest < (g.edge e).attr.nrConsume
  within : (c.view e).dest ≤ (c.view e).taken.length
  passed : j < c.pos → (g.edge e).attr.nrConsume ≤ (c.view e).taken.length

/-- What a call keeps at edge number `j` as long as there is no late retry. -/
structure EdgeExact (g : Graph) (c : Call) (j e : Nat) : Prop where
  size : (c.view e).bufIn.length = (g.edge e).attr.nrConsume
  filling : c.pos ≤ j → (c.view e).taken = (c.view e).bufIn.take (c.view e).dest
  full : j < c.pos → (c.view e).taken = (c.view e).bufIn

structure Reading (g : Graph) (n : Nat) (skips : Nat → Nat) (c : Call) : Prop where
  placed : Placed g n skips c.loc.pc
  edges : ∀ j e, Active g n skips j e → EdgeReading g c j e
  finished : c.ret = some .success → ∀ j e, Active g n skips j e → j < c.pos

/-- After a late retry, an edge that was complete gets more than it asked for. -/
structure Overfull (g : Graph) (c : Call) (j e : Nat) : Prop where
  full : (g.edge e).attr.nrConsume ≤ (c.view e).taken.length
  excess : j < c.pos → (g.edge e).attr.nrConsume < (c.view e).taken.length

theorem edgeFramed_view {t : Bool} {e : Nat} {more : List UInt8} (hv : c'.view e = c.view e)
    (h : edgeFramed g t c.data e more) : edgeFramed g t c'.data e more := by
  have hn : c'.data.nextTag e = c.data.nextTag e := congrArg EdgeView.nextTag hv
  have hs : c'.data.stream e = c.data.stream e := congrArg EdgeView.stream hv
  exact (edgeFramed_congr hn (by rw [hs])).mpr h

theorem EdgeReading.frame {j e : Nat} (h : EdgeReading g c j e) (hv : c'.view e = c.view e)
    (hpos : j < c'.pos → j < c.pos) : EdgeReading g c' j e :=
  ⟨edgeFramed_view hv h.framed, hv ▸ h.short, hv ▸ h.within, fun hj => hv ▸ h.passed (hpos hj)⟩

theorem EdgeExact.frame {j e : Nat} (h : EdgeExact g c j e) (hv : c'.view e = c.view e)
    (hpos : j < c'.pos ↔ j < c.pos) : EdgeExact g c' j e :=
  ⟨hv ▸ h.size, fun hj => hv ▸ h.filling (by omega), fun hj => hv ▸ h.full (hpos.mp hj)⟩

theorem Overfull.frame {j e : Nat} (h : Overfull g c j e) (hv : c'.view e = c.view e)
    (hpos : j < c'.pos → j < c.pos) : Overfull g c' j e :=
  ⟨hv ▸ h.full, fun hj => hv ▸ h.excess (hpos hj)⟩

/-- Edges other than the one read, and not passed by the step. -/
theorem active_ne {i j e e' : Nat} (hi : Active g n skips i e) (hj : Active g n skips j e')
    (hne : e' ≠ e) : j ≠ i := by
  rintro rfl
  exact hne (Option.some.inj (hj.1.symm.trans hi.1))

theorem Reading.effect (h : Reading g n skips c) (hstd : StdNode g n) (heof : ans ≠ .eof)
    (hfail : ans ≠ .failed) (hs : callStep g n skips c ans = some c') :
    CallEffect g n skips false (fun _ => []) c ans c' :=
  callStep_effect hstd h.placed (fun j e ha => Or.inl (h.edges j e ha).framed)
    (fun j e ha => (h.edges j e ha).short) heof hfail hs

theorem callStep_reading (h : Reading g n skips c) (hstd : StdNode g n) (heof : ans ≠ .eof)
    (hfail : ans ≠ .failed) (hs : callStep g n skips c ans = some c') : Reading g n skips c' := by
  have hplaced := callStep_placed hstd h.placed hs
  cases h.effect hstd heof hfail hs with
  | quiet hret hmsgs hpc hv hpos =>
    exact ⟨hplaced, fun j e ha => (h.edges j e ha).frame (congrFun hv e) (hpos j e ha).mp,
      fun hr => by rw [hret] at hr; cases hr⟩
  | retry i e hret hmsgs hpc ha hv hpos =>
    exact ⟨hplaced, fun j e' ha => (h.edges j e' ha).frame (congrFun hv e') (fun hj => by omega),
      fun hr => by rw [hret] at hr; cases hr⟩
  | payload e k s bs hans hret hmsgs hact hpos hv hf₀ hf hrest hlen =>
    refine ⟨hplaced, fun j e' ha => ?_, fun hr => by rw [hret] at hr; cases hr⟩
    have hold := h.edges j e' ha
    have hv' := congrFun hv e'
    by_cases he : e' = e
    · subst he
      rw [Function.update_self] at hv'
      refine ⟨hf, ?_, ?_, fun hj => absurd (ha.inj hact) (by omega)⟩
      · rw [hv']; exact hlen
      · rw [hv', took_taken, took_dest, List.length_append]
        exact Nat.add_le_add_right hold.within _
    · rw [Function.update_of_ne he] at hv'
      exact hold.frame hv' (by rw [hpos]; exact id)
  | complete e k s bs hans hret hmsgs hact hpos hv hf₀ hf hrest hlen =>
    refine ⟨hplaced, fun j e' ha => ?_, fun hr => by rw [hret] at hr; cases hr⟩
    have hold := h.edges j e' ha
    have hv' := congrFun hv e'
    by_cases he : e' = e
    · subst he
      rw [Function.update_self] at hv'
      have hw := hold.within
      refine ⟨hf, ?_, ?_, fun hj => ?_⟩
      · rw [hv']; exact hold.short
      · rw [hv', took_taken, took_dest, List.length_append]
        omega
      · rw [hv', took_taken, List.length_append]
        omega
    · rw [Function.update_of_ne he] at hv'
      have hne := active_ne hact ha he
      exact hold.frame hv' (by omega)
  | stop e hans hret hmsgs hact hpos ht => cases ht
  | returned hdata hloc hret hpc hall =>
    obtain ⟨hv, hpos⟩ := view_congr hdata hloc
    exact ⟨hplaced, fun j e ha => (h.edges j e ha).frame (congrFun hv e) (by rw [hpos]; exact id),
      fun _ j e ha => hpos ▸ hall j e ha⟩
  | failed hdata hloc hret hpc =>
    obtain ⟨hv, hpos⟩ := view_congr hdata hloc
    exact ⟨hplaced, fun j e ha => (h.edges j e ha).frame (congrFun hv e) (by rw [hpos]; exact id),
      fun hr => absurd (Option.some.inj (hret.symm.trans hr)) (recvOut_error_ne g n c.data)⟩

theorem callStep_exact (h : Reading g n skips c)
    (hx : ∀ j e, Active g n skips j e → EdgeExact g c j e) (hstd : StdNode g n)
    (heof : ans ≠ .eof) (hfail : ans ≠ .failed) (hlate : ¬ LateRetry g n skips c ans)
    (hs : callStep g n skips c ans = some c') {j e : Nat} (ha : Active g n skips j e) :
    EdgeExact g c' j e := by
  have hold := hx j e ha
  cases h.effect hstd heof hfail hs with
  | quiet hret hmsgs hpc hv hpos => exact hold.frame (congrFun hv e) (hpos j e ha)
  | retry i e' hret hmsgs hpc hans hv hpos =>
    -- no edge in front of `i` is read, so `j` was not passed before the retry either
    have hj : ¬ j < c.pos := fun hj => hlate
      ⟨hans, i, e', hpc, j, e, by simpa [Call.pos, RecvPc.pos, hpc] using hj, ha⟩
    exact hold.frame (congrFun hv e) (by omega)
  | payload e' k s bs hans hret hmsgs hact hpos hv hf₀ hf hrest hlen =>
    have hv' := congrFun hv e
    by_cases he : e = e'
    · subst he
      rw [Function.update_self] at hv'
      obtain rfl := ha.inj hact
      have hfill := hold.filling le_rfl
      have hsize := hold.size
      refine ⟨?_, fun _ => ?_, fun hj => absurd hj (by omega)⟩
      · rw [hv', took_bufIn, store_length (by omega), hsize]
      · rw [hv', took_taken, took_bufIn, took_dest, store_take (by omega), hfill]
    · rw [Function.update_of_ne he] at hv'
      exact hold.frame hv' (by rw [hpos])
  | complete e' k s bs hans hret hmsgs hact hpos hv hf₀ hf hrest hlen =>
    have hv' := congrFun hv e
    by_cases he : e = e'
    · subst he
      rw [Function.update_self] at hv'
      obtain rfl := ha.inj hact
      have hfill := hold.filling le_rfl
      have hsize := hold.size
      have hlen' : (store (c.view e).bufIn (c.view e).dest bs).length =
          (c.view e).dest + bs.length := by rw [store_length (by omega), hsize, hlen]
      refine ⟨?_, fun hj => absurd hj (by omega), fun _ => ?_⟩
      · rw [hv', took_bufIn, hlen', hlen]
      · rw [hv', took_taken, took_bufIn, hfill, ← store_take (by omega), ← hlen',
          List.take_length]
    · rw [Function.update_of_ne he] at hv'
      have hne := active_ne hact ha he
      exact hold.frame hv' (by omega)
  | stop e hans hret hmsgs hact hpos ht => cases ht
  | returned hdata hloc | failed hdata hloc =>
    obtain ⟨hv, hpos⟩ := view_congr hdata hloc
    exact hold.frame (congrFun hv e) (by rw [hpos])

theorem callStep_overfull (h : Reading g n skips c) (hstd : StdNode g n) (heof : ans ≠ .eof)
    (hfail : ans ≠ .failed) (hs : callStep g n skips c ans = some c') {j e : Nat}
    (ha : Active g n skips j e) (ho : Overfull g c j e) : Overfull g c' j e := by
  cases h.effect hstd heof hfail hs with
  | quiet hret hmsgs hpc hv hpos => exact ho.frame (congrFun hv e) (hpos j e ha).mp
  | retry i e' hret hmsgs hpc hans hv hpos => exact ho.frame (congrFun hv e) (fun hj => by omega)
  | payload e' k s bs hans hret hmsgs hact hpos hv hf₀ hf hrest hlen =>
    have hv' := congrFun hv e
    have hfull := ho.full
    by_cases he : e = e'
    · subst he
      rw [Function.update_self] at hv'
      refine ⟨?_, fun hj => absurd (ha.inj hact) (by omega)⟩
      rw [hv', took_taken, List.length_append]
      omega
    · rw [Function.update_of_ne he] at hv'
      exact ho.frame hv' (by rw [hpos]; exact id)
  | complete e' k s bs hans hret hmsgs hact hpos hv hf₀ hf hrest hlen =>
    have hv' := congrFun hv e
    have hfull := ho.full
    by_cases he : e = e'
    · subst he
      rw [Function.update_self] at hv'
      have hshort := (h.edges j e ha).short
      -- the destination pointer stops short of the end, so the last read takes a byte
      have hover : (g.edge e).attr.nrConsume < (c'.view e).taken.length := by
        rw [hv', took_taken, List.length_append]
        omega
      exact ⟨hover.le, fun _ => hover⟩
    · rw [Function.update_of_ne he] at hv'
      have hne := active_ne hact ha he
      exact ho.frame hv' (by omega)
  | stop e hans hret hmsgs hact hpos ht => cases ht
  | returned hdata hloc | failed hdata hloc =>
    obtain ⟨hv, hpos⟩ := view_congr hdata hloc
    exact ho.frame (congrFun hv e) (by rw [hpos]; exact id)

/-- A late retry leaves a complete edge behind, to be read again. -/
theorem callStep_late (h : Reading g n skips c) (hstd : StdNode g n) (hl : LateRetry g n skips c ans)
    (hs : callStep g n skips c ans = some c') :
    ∃ j e, Active g n skips j e ∧ Overfull g c' j e := by
  obtain ⟨hans, i, e, hpc, j, e', hji, ha⟩ := hl
  have hfull := (h.edges j e' ha).passed (by simpa [Call.pos, RecvPc.pos, hpc] using hji)
  subst hans
  cases h.effect hstd (by simp) (by simp) hs with
  | quiet hret hmsgs hpc' => exact absurd hpc (hpc' i e)
  | retry i e hret hmsgs hpc hans hv hpos =>
    exact ⟨j, e', ha, by rw [congrFun hv e']; exact hfull, fun hj => by omega⟩
  | payload e k s bs hans | complete e k s bs hans => exact absurd rfl hans
  | stop e hans => exact absurd rfl hans
  | returned hdata hloc hret hpc' => exact absurd hpc (hpc' i e)
  | failed hdata hloc hret hpc' => rw [hpc] at hpc'; cases hpc'

theorem callStart_reading {d : Data}
    (hf : ∀ j e, Active g n skips j e → edgeFramed g false d e []) :
    Reading g n skips (callStart g n skips d) := by
  refine ⟨by rw [callStart_pc]; trivial, fun j e ha => ?_, fun hret j e ha => ?_⟩
  · obtain ⟨r, hc, hpc, hdest, htaken⟩ := callStart_active ha d
    rw [hc]
    refine ⟨hf j e ha, ?_, ?_, fun hj => ?_⟩
    · simpa [Call.view, hdest] using (g.edge e).accepted.consume_pos
    · simp [Call.view, hdest]
    · simp [Call.pos, hpc, RecvPc.pos] at hj
  · obtain ⟨r, hc, -⟩ := callStart_active ha d
    rw [hc] at hret
    cases hret

theorem callStart_exact {d : Data} {j e : Nat} (ha : Active g n skips j e)
    (hbuf : (d.bufIn e).length = (g.edge e).attr.nrConsume) :
    EdgeExact g (callStart g n skips d) j e := by
  obtain ⟨r, hc, hpc, hdest, htaken⟩ := callStart_active ha d
  rw [hc]
  refine ⟨hbuf, fun _ => ?_, fun hj => ?_⟩
  · simp [Call.view, hdest, htaken]
  · simp [Call.pos, hpc, RecvPc.pos] at hj

/-- **Exact receives.** A successful call on well-framed streams takes from each edge at
most `nr_consume` payload bytes, all of which stay in the edge's buffer, exactly when
no read of the call would block behind another edge that the call reads. -/
theorem recv_exact_iff_no_late_retry {d : Data} {as : List Answer} (hstd : StdNode g n)
    (hframed : ∀ e ∈ g.inEdges n, (g.edge e).isDataPassing = true → edgeFramed g false d e [])
    (hbuf : ∀ e ∈ g.inEdges n, (d.bufIn e).length = (g.edge e).attr.nrConsume)
    (hans : ∀ a ∈ as, a ≠ .eof ∧ a ≠ .failed)
    (hrun : Lts.run (callStep g n skips) (callStart g n skips d) as = some c)
    (hret : c.ret = some .success) :
    (∀ e ∈ g.inEdges n, (g.edge e).isDataPassing = true → skips e = 0 → Exact g c e) ↔
      Lts.Meets (callStep g n skips) (fun c a => ¬ LateRetry g n skips c a)
        (callStart g n skips d) as := by
  have hstart : Reading g n skips (callStart g n skips d) :=
    callStart_reading (fun j e ha => hframed e ha.mem ha.2.1)
  constructor
  · intro hexact
    by_contra hm
    -- the run up to the late retry, the retry, and the rest of the run
    obtain ⟨bs, a, cs, t, t', rfl, ht, hlate, hstep, hu⟩ := Lts.exists_of_not_meets hrun hm
    have ha := hans a (by simp)
    have hread : Reading g n skips t := Lts.run_inv
      (fun s b s' hi hb hs => callStep_reading hi hstd hb.1 hb.2 hs) hstart ht
      (Lts.meets_of_forall fun b hb => hans b (List.mem_append_left _ hb))
    obtain ⟨j, e, hact, hover⟩ := callStep_late hread hstd (not_not.mp hlate) hstep
    have hread' := callStep_reading hread hstd ha.1 ha.2 hstep
    have hend : Reading g n skips c ∧ Overfull g c j e := Lts.run_inv
      (I := fun s => Reading g n skips s ∧ Overfull g s j e)
      (fun s b s' hi hb hs => ⟨callStep_reading hi.1 hstd hb.1 hb.2 hs,
        callStep_overfull hi.1 hstd hb.1 hb.2 hs hact hi.2⟩) ⟨hread', hover⟩ hu
      (Lts.meets_of_forall fun b hb => hans b (by simp [hb]))
    have hlt := hend.2.excess (hend.1.finished hret j e hact)
    have hle := (hexact e hact.mem hact.2.1 hact.2.2).1
    exact absurd hle (Nat.not_le.mpr hlt)
  · intro hm e he hdp hsk
    obtain ⟨j, hj⟩ := List.mem_iff_getElem?.mp he
    have hact : Active g n skips j e := ⟨hj, hdp, hsk⟩
    have hend : Reading g n skips c ∧ ∀ j e, Active g n skips j e → EdgeExact g c j e :=
      Lts.run_inv
        (I := fun s => Reading g n skips s ∧ ∀ j e, Active g n skips j e → EdgeExact g s j e)
        (fun s b s' hi hb hs => ⟨callStep_reading hi.1 hstd hb.2.1 hb.2.2 hs,
          fun j e ha => callStep_exact hi.1 hi.2 hstd hb.2.1 hb.2.2 hb.1 hs ha⟩)
        ⟨hstart, fun j e ha => callStart_exact ha (hbuf e ha.mem)⟩ hrun
        (hm.and (Lts.meets_of_forall hans))
    have hedge := hend.2 j e hact
    have hfull := hedge.full (hend.1.finished hret j e hact)
    have hsize := hedge.size
    exact ⟨(congrArg List.length hfull).trans hsize |>.le, hfull.symm⟩

end

/-! ## Two in-edges, the second of which has to wait -/

/-- Nodes 0 and 1 feed node 2, which needs two messages of node 1 for one of node 0. -/
def joinEdges : List Edge :=
  [forwardEdge 0 2 (fifoAttr 1 1) fifo_accepted, forwardEdge 1 2 (fifoAttr 1 2) halfFifo_accepted]

theorem joinEdges_small : (∀ e ∈ joinEdges, e.producer < 3 ∧ e.consumer < 3) ∧
    joinEdges.length < 32 := by decide

def joinGraph : Graph := .small 3 joinEdges joinEdges_small.1 joinEdges_small.2

def joinData : Data where
  nextTag := fun _ => 0
  stream := fun e =>
    if e = 0 then [pgmNormal, 10, pgmNormal, 20] else [pgmNormal, 30, pgmNormal, 40]
  queue := fun _ => []
  ringCmd := fun _ => pgmNormal
  bufIn := fun e => if e = 0 then [0] else [0, 0]
  nrTerminateMsgs := fun _ => 0
  counted := fun _ => 0

/-- The second message of edge 1 arrives only after a read of it would have blocked. -/
def joinAnswers : List Answer :=
  [.ready 3, .go, .go, .bytes 2, .go, .bytes 2, .eagain,
   .ready 3, .go, .go, .bytes 2, .go, .bytes 1, .bytes 1, .go]

def noSkips : Nat → Nat := fun _ => 0

theorem joinGraph_std : StdNode joinGraph 2 := by decide

theorem joinData_framed : ∀ e ∈ joinGraph.inEdges 2, edgeFramed joinGraph false joinData e [] := by
  decide

/-- The call takes two bytes of edge 0 where one was asked for, and the second byte
overwrites the first. -/
theorem recv_overwrites_complete_edge :
    (∀ e ∈ joinGraph.inEdges 2, edgeFramed joinGraph false joinData e []) ∧
    (joinGraph.edge 0).attr.nrConsume = 1 ∧
    (Lts.run (callStep joinGraph 2 noSkips) (callStart joinGraph 2 noSkips joinData)
        joinAnswers).map (fun c => (c.ret, c.loc.taken 0, c.data.bufIn 0)) =
      some (some .success, [10, 20], [20]) :=
  ⟨joinData_framed, rfl, rfl⟩

/-- That call took too much, so one of its reads would have blocked late. -/
theorem joined_retries_late :
    ∃ c, Lts.run (callStep joinGraph 2 noSkips) (callStart joinGraph 2 noSkips joinData)
        joinAnswers = some c ∧ c.ret = some .success ∧
      ¬ Lts.Meets (callStep joinGraph 2 noSkips) (fun c a => ¬ LateRetry joinGraph 2 noSkips c a)
        (callStart joinGraph 2 noSkips joinData) joinAnswers := by
  have hd : (Lts.run (callStep joinGraph 2 noSkips) (callStart joinGraph 2 noSkips joinData)
      joinAnswers).map (fun c => (c.ret, c.loc.taken 0)) = some (some .success, [10, 20]) := rfl
  obtain ⟨c, hrun, hc⟩ := Option.map_eq_some_iff.mp hd
  obtain ⟨hret, htaken⟩ := Prod.mk.inj hc
  refine ⟨c, hrun, hret, fun hm => ?_⟩
  have hexact := (recv_exact_iff_no_late_retry joinGraph_std (fun e he _ => joinData_framed e he)
    (by decide) (by decide) hrun hret).mpr hm 0 (by decide) rfl rfl
  have hle := hexact.1
  rw [htaken] at hle
  exact absurd hle (by decide)

end Pgm
