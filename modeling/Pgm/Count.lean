import Pgm.Chan

/-! What `pgm_recv_data` adds to `nr_terminate_msgs`, and what it returns. A step counts
the in-edge in hand or none, for the node whose owner makes the step. -/

namespace Pgm

open Function (update)

/-- The counts of two states of the data side agree. -/
def SameCounts (d d' : Data) : Prop :=
  d'.counted = d.counted ∧ d'.nrTerminateMsgs = d.nrTerminateMsgs

def CountsAt (n e : Nat) (d d' : Data) : Prop :=
  d'.counted = update d.counted e (d.counted e + 1) ∧
    d'.nrTerminateMsgs = update d.nrTerminateMsgs n (Word.add 32 (d.nrTerminateMsgs n) 1)

section

variable {g : Graph} {s s' : State} {a : Act} {eff : Effect} {p : Pc} {n e : Nat}

theorem read_sameCounts {d d' : Data} {nbytes : Nat} {ans : Answer} {res : ReadRes}
    (h : d.read g e nbytes ans = some (res, d')) : SameCounts d d' := by
  unfold Data.read at h
  split_ifs at h
  · cases h
    exact ⟨rfl, rfl⟩
  · cases ans with
    | bytes k =>
      simp only [Data.readMq] at h
      split at h <;> cases h
      exact ⟨rfl, rfl⟩
    | eagain | failed => cases h; exact ⟨rfl, rfl⟩
    | _ => cases h
  · cases ans with
    | bytes k =>
      simp only [Data.readStream] at h
      split at h <;> cases h
      exact ⟨rfl, rfl⟩
    | eagain | eof | failed => cases h; exact ⟨rfl, rfl⟩
    | _ => cases h

theorem afterTagged_counts (g : Graph) (n : Nat) (r : Recv) (i e : Nat) (x : ReadRes × Data) :
    SameCounts x.2 (afterTagged g n r i e x).1 ∨ CountsAt n e x.2 (afterTagged g n r i e x).1 := by
  unfold afterTagged
  split
  · dsimp only
    split_ifs
    · exact Or.inr ⟨rfl, rfl⟩
    all_goals exact Or.inl ⟨rfl, rfl⟩
  · exact Or.inl ⟨rfl, rfl⟩

theorem afterPayload_counts (g : Graph) (n : Nat) (r : Recv) (i e : Nat) (x : ReadRes × Data) :
    SameCounts x.2 (afterPayload g n r i e x).1 := by
  unfold afterPayload
  split
  · dsimp only
    split_ifs <;> exact ⟨rfl, rfl⟩
  · exact ⟨rfl, rfl⟩

theorem afterTag_counts (g : Graph) (n : Nat) (r : Recv) (i e : Nat) (x : ReadRes × Data) :
    SameCounts x.2 (afterTag g n r i e x).1 ∨ CountsAt n e x.2 (afterTag g n r i e x).1 := by
  unfold afterTag
  split
  · dsimp only
    split_ifs
    · exact Or.inr ⟨rfl, rfl⟩
    all_goals exact Or.inl ⟨rfl, rfl⟩
  · exact Or.inl ⟨rfl, rfl⟩

theorem SameCounts.counts {d d₁ d' : Data} (h : SameCounts d d₁)
    (h' : SameCounts d₁ d' ∨ CountsAt n e d₁ d') : SameCounts d d' ∨ CountsAt n e d d' := by
  unfold SameCounts CountsAt at h' ⊢
  rwa [h.1, h.2] at h'

theorem readStep_counts {d d' : Data} {r : Recv} {i : Nat} {ans : Answer} {nx : RecvNext}
    (h : readStep g n d r i e ans = some (d', nx)) : SameCounts d d' ∨ CountsAt n e d d' := by
  simp only [readStep] at h
  split_ifs at h
  · obtain ⟨x, hread, hx⟩ := Option.map_eq_some_iff.mp h
    have := (read_sameCounts hread).counts (afterTagged_counts g n r i e x)
    rwa [hx] at this
  · obtain ⟨x, hread, hx⟩ := Option.map_eq_some_iff.mp h
    have := (read_sameCounts hread).counts (n := n) (e := e)
      (Or.inl (afterPayload_counts g n r i e x))
    rwa [hx] at this
  · obtain ⟨x, hread, hx⟩ := Option.map_eq_some_iff.mp h
    have := (read_sameCounts hread).counts (afterTag_counts g n r i e x)
    rwa [hx] at this

def RecvPc.Counting (e : Nat) : RecvPc → Prop
  | .ringEmpty _ e' | .read _ e' => e' = e
  | _ => False

theorem RecvMove.counts {skips : Nat → Nat} {d d' : Data} {r : Recv} {ans : Answer}
    {nx : RecvNext} (hm : RecvMove g n skips d r ans d' nx) :
    SameCounts d d' ∨ ∃ e, r.pc.Counting e ∧ CountsAt n e d d' := by
  cases hm with
  | ringStop i e hpc hq => exact Or.inr ⟨e, by rw [hpc]; exact rfl, rfl, rfl⟩
  | read i e d' nx hpc h =>
    exact (readStep_counts h).imp id (fun hc => ⟨e, by rw [hpc]; exact rfl, hc⟩)
  | _ => exact Or.inl ⟨rfl, rfl⟩

theorem ProdMove.sameCounts {m t : Nat} {cmd : Command} {w err : Bool} {ans : Answer} {q : ProdPc}
    (hm : ProdMove g s m cmd w err ans q eff p) :
    SameCounts s.data (s.apply g t eff).data := by
  have hsend : ∀ {e buf d nx}, sendStdStep g s.data e buf ans = some (d, nx) →
      SameCounts s.data d := by
    intro e buf d nx h
    obtain ⟨⟨res, d₁⟩, hw, hx⟩ := Option.map_eq_some_iff.mp h
    have hd : d = d₁ := by
      cases res <;> cases hx <;> rfl
    subst hd
    cases ans with
    | bytes k =>
      simp only [Data.write] at hw
      split_ifs at hw <;> cases hw <;> exact ⟨rfl, rfl⟩
    | eagain | failed => cases hw; exact ⟨rfl, rfl⟩
    | _ => cases hw
  cases hm with
  | write i e buf buf' tw d h => exact hsend h
  | written i e buf tw d ok h => exact hsend h
  | _ => exact ⟨rfl, rfl⟩

/-- Only the owner of a node counts its in-edges. -/
theorem Move.counts (hi : ChanInv g s) (hm : Move g s a eff p) :
    SameCounts s.data (s.apply g a.thread eff).data ∨
      ∃ e ∈ g.inEdges a.thread, CountsAt a.thread e s.data (s.apply g a.thread eff).data ∧
        ∃ tok r, s.pc a.thread = .wait (.recv tok r) ∧ r.pc.Counting e := by
  have hrecv : ∀ t tok r ans d nx, s.pc t = .wait (.recv tok r) →
      RecvMove g t s.nrSkips s.data r ans d nx → SameCounts s.data d ∨
        ∃ e ∈ g.inEdges t, CountsAt t e s.data d ∧
          ∃ tok r, s.pc t = .wait (.recv tok r) ∧ r.pc.Counting e := by
    intro t tok r ans d nx hpc hm
    refine hm.counts.imp id ?_
    rintro ⟨e, hat, hc⟩
    have hplace := hi.place t tok r hpc
    refine ⟨e, ?_, hc, tok, r, hpc, hat⟩
    cases hr : r.pc with
    | ringEmpty i e' | read i e' =>
      rw [hr] at hat hplace
      cases hat
      exact List.mem_of_getElem? hplace.1
    | _ => rw [hr] at hat; exact absurd hat id
  cases hm with
  | wait t ans w eff p hpc hm =>
    cases hm with
    | recv tok r r' d h => exact hrecv t tok r ans d _ hpc (recvStep_move h)
    | recvDone tok st r d h => exact hrecv t tok r ans d _ hpc (recvStep_move h)
    | _ => exact Or.inl ⟨rfl, rfl⟩
  | prod t m ans cmd w err q eff p hpc hm => exact Or.inl hm.sameCounts
  | callWait | callComplete | callTerminate | spurious => exact Or.inl ⟨rfl, rfl⟩

/-- A FIFO, socket or message queue is counted at most once. -/
theorem ChanOk.counted_le {at' : EdgeAttr} {b : Bool} {more : Option (List UInt8)} {c : Chan}
    (h : ChanOk at' b more c) (hr : at'.type.isRing = false) : c.counted ≤ 1 := by
  by_cases hc : c.counted = 0
  · omega
  · rcases EdgeType.kind_of_data (h.counted hc).2 with hs | hq | hr'
    · rcases h.stream hs with ⟨hz, -⟩ | ⟨hone, -⟩ <;> omega
    · rcases h.mq hq with ⟨hz, -⟩ | ⟨hone, -⟩ <;> omega
    · rw [hr] at hr'
      cases hr'

/-- How `pgm_recv_data` returns. -/
theorem readStep_done {d d' : Data} {r : Recv} {i : Nat} {ans : Answer} {st : WaitStatus}
    (h : readStep g n d r i e ans = some (d', .done st)) : st = recvOut g n d' .error := by
  have hno : ∀ d res, afterNoBytes g n r i d res = .done st → st = recvOut g n d .error := by
    intro d res hx
    cases res <;> cases hx
    rfl
  simp only [readStep] at h
  split_ifs at h
  · obtain ⟨x, -, hx⟩ := Option.map_eq_some_iff.mp h
    unfold afterTagged at hx
    split at hx
    · dsimp only at hx
      split_ifs at hx <;> cases hx
      rfl
    · rw [Prod.mk.injEq] at hx
      obtain ⟨rfl, hx⟩ := hx
      exact hno _ _ hx
  · obtain ⟨x, -, hx⟩ := Option.map_eq_some_iff.mp h
    unfold afterPayload at hx
    split at hx
    · dsimp only at hx
      split_ifs at hx <;> cases hx
    · rw [Prod.mk.injEq] at hx
      obtain ⟨rfl, hx⟩ := hx
      exact hno _ _ hx
  · obtain ⟨x, -, hx⟩ := Option.map_eq_some_iff.mp h
    unfold afterTag at hx
    split at hx
    · dsimp only at hx
      split_ifs at hx <;> cases hx
      rfl
    · rw [Prod.mk.injEq] at hx
      obtain ⟨rfl, hx⟩ := hx
      exact hno _ _ hx

theorem RecvMove.done {skips : Nat → Nat} {d d' : Data} {r : Recv} {ans : Answer} {st : WaitStatus}
    (hm : RecvMove g n skips d r ans d' (.done st)) :
    ∃ st₀, st₀ ≠ .exhaustedAndTerminate ∧ st = recvOut g n d' st₀ := by
  generalize hnx : RecvNext.done st = nx at hm
  cases hm with
  | selectFailed hpc => cases hnx; exact ⟨.error, by decide, rfl⟩
  | out i hpc hi => cases hnx; exact ⟨.success, by decide, rfl⟩
  | read i e d' nx hpc h =>
    subst hnx
    exact ⟨.error, by decide, readStep_done h⟩
  | _ => cases hnx

theorem recvStart_done {skips : Nat → Nat} {d : Data} {st : WaitStatus}
    (h : recvStart g n skips d = .done st) : st = recvOut g n d .success := by
  unfold recvStart at h
  simp only at h
  split at h <;> cases h
  rfl

end

end Pgm
