import Pgm.Count

/-! One call of `pgm_recv_data` on a node whose forward producers have all terminated. The
forward in-edges hold their terminate messages and nothing else, the back edges that are
read hold what is to be consumed. The call then makes one pass over the in-edges, counts
each forward one, never has to wait, and reports `WaitExhaustedAndTerminate`. -/

namespace Pgm

open Function (update)

structure Chan.Empty (c : Chan) (a : EdgeAttr) : Prop where
  stream : a.type.isStream = true → Framing.strip a.nrProduce c.nextTag c.stream = []
  mq : a.type.isMq = true → ∀ m ∈ c.queue, m = [pgmTerminate]
  ring : a.type.isRing = true → c.queue = []

/-- There are `k` bytes of payload on a byte stream, or a message or member. -/
structure Chan.Holds (c : Chan) (a : EdgeAttr) (k : Nat) : Prop where
  stream : a.type.isStream = true → k ≤ (Framing.strip a.nrProduce c.nextTag c.stream).length
  mq : a.type.isMq = true → c.queue ≠ []
  ring : a.type.isRing = true → c.queue ≠ []

theorem chanEmpty_iff {c : Chan} {a : EdgeAttr} : c.Empty a ↔
    (a.type.isStream = true → Framing.strip a.nrProduce c.nextTag c.stream = []) ∧
      (a.type.isMq = true → ∀ m ∈ c.queue, m = [pgmTerminate]) ∧
      (a.type.isRing = true → c.queue = []) :=
  ⟨fun ⟨h1, h2, h3⟩ => ⟨h1, h2, h3⟩, fun ⟨h1, h2, h3⟩ => ⟨h1, h2, h3⟩⟩

instance (c : Chan) (a : EdgeAttr) : Decidable (c.Empty a) := decidable_of_iff _ chanEmpty_iff.symm

theorem chanHolds_iff {c : Chan} {a : EdgeAttr} {k : Nat} : c.Holds a k ↔
    (a.type.isStream = true → k ≤ (Framing.strip a.nrProduce c.nextTag c.stream).length) ∧
      (a.type.isMq = true → c.queue ≠ []) ∧ (a.type.isRing = true → c.queue ≠ []) :=
  ⟨fun ⟨h1, h2, h3⟩ => ⟨h1, h2, h3⟩, fun ⟨h1, h2, h3⟩ => ⟨h1, h2, h3⟩⟩

instance (c : Chan) (a : EdgeAttr) (k : Nat) : Decidable (c.Holds a k) :=
  decidable_of_iff _ chanHolds_iff.symm

/-- A read of the channel returns at once, and so does a `select()` that waits for it. -/
def Chan.Readable (c : Chan) : Prop := c.stream ≠ [] ∨ c.queue ≠ []

instance (c : Chan) : Decidable c.Readable := inferInstanceAs (Decidable (_ ∨ _))

def Answer.reported : Answer → Option (BitVec 32)
  | .ready s => some s
  | _ => none

/-- The operating system tells the truth: `select()` reports descriptors that can be read,
and a read would block only if there is nothing to read. -/
def RecvPc.Honest (g : Graph) (n : Nat) (d : Data) (toWait : BitVec 32) (ans : Answer) :
    RecvPc → Prop
  | .select _ => toWait ≠ 0 → ∃ s ∈ ans.reported,
      ∀ x ∈ (g.inEdges n).zipIdx, s.getLsbD x.2 = true → (d.chan x.1).Readable
  | .read _ e => ans = .eagain → ¬ (d.chan e).Readable
  | .edge _ | .ringEmpty _ _ | .ringRead _ _ => True

instance (g : Graph) (n : Nat) (d : Data) (toWait : BitVec 32) (ans : Answer) :
    (pc : RecvPc) → Decidable (pc.Honest g n d toWait ans)
  -- the instance for bit vectors would try all of them
  | .select _ =>
    have : Decidable (∃ s ∈ ans.reported, ∀ x ∈ (g.inEdges n).zipIdx,
        s.getLsbD x.2 = true → (d.chan x.1).Readable) := ans.reported.decidableExistsMem
    inferInstanceAs (Decidable (toWait ≠ 0 → _))
  | .read _ e => inferInstanceAs (Decidable (ans = .eagain → ¬ (d.chan e).Readable))
  | .edge _ | .ringEmpty _ _ | .ringRead _ _ => inferInstanceAs (Decidable True)

def Recv.Honest (g : Graph) (n : Nat) (d : Data) (r : Recv) (ans : Answer) : Prop :=
  r.pc.Honest g n d r.toWait ans

instance (g : Graph) (n : Nat) (d : Data) (r : Recv) (ans : Answer) :
    Decidable (r.Honest g n d ans) :=
  inferInstanceAs (Decidable (r.pc.Honest g n d r.toWait ans))

/-- The in-edges of `n` as a pass over them leaves them at number `j`: the forward
data-passing ones in front have been counted, and those that follow are as they were at
the beginning. -/
structure Pending (g : Graph) (n : Nat) (skips : Nat → Nat) (d : Data) (dest : Nat → Nat)
    (j : Nat) : Prop where
  msgs : d.nrTerminateMsgs n = ((g.inEdges n).take j).countP
    (fun e => (g.edge e).isDataPassing && !(g.edge e).isBackedge)
  forward : ∀ e ∈ (g.inEdges n).drop j, (g.edge e).isBackedge = false →
    (g.edge e).isDataPassing = true →
    (d.chan e).counted = 0 ∧ (d.chan e).Empty (g.edge e).attr
  back : ∀ e ∈ (g.inEdges n).drop j, (g.edge e).isBackedge = true →
    (g.edge e).isDataPassing = true → skips e = 0 →
    (d.chan e).Holds (g.edge e).attr ((g.edge e).attr.nrConsume - dest e)

/-- The producers of the forward in-edges are done, and those of the back edges go on. -/
structure Settled (g : Graph) (n : Nat) (d : Data) : Prop where
  forward : ∀ e ∈ g.inEdges n, (g.edge e).isBackedge = false →
    ChanOk (g.edge e).attr true none (d.chan e)
  back : ∀ e ∈ g.inEdges n, (g.edge e).isBackedge = true →
    ∃ more, ChanOk (g.edge e).attr false more (d.chan e)

def Recv.Draining (g : Graph) (n : Nat) (skips : Nat → Nat) (r : Recv) : Prop :=
  match r.pc with
  | .select err => err = false ∧ ∀ i, r.toWait.getLsbD i = true →
      ∃ e, Active g n skips i e ∧ (g.edge e).attr.type.isRing = false
  | .edge _ => True
  | .ringEmpty i e => Active g n skips i e ∧ (g.edge e).isBackedge = false ∧
      (g.edge e).attr.type.isRing = true
  | .ringRead i e => Active g n skips i e ∧ (g.edge e).isBackedge = true ∧
      (g.edge e).attr.type.isRing = true
  | .read i e => Active g n skips i e ∧ (g.edge e).attr.type.isRing = false

/-! ## How long it takes -/

def passCost (g : Graph) (n j : Nat) : Nat :=
  ((g.inEdges n).drop j).foldr (fun e k => 2 * (g.edge e).attr.nrConsume + 4 + k) 0

def nrWaiting (m : BitVec 32) : Nat := (List.range 32).countP m.getLsbD

/-- A bound on the steps that are left of the call. -/
def Recv.left (g : Graph) (n : Nat) (d : Data) (r : Recv) : Nat :=
  match r.pc with
  | .select _ => nrWaiting r.toWait + passCost g n 0 + 2
  | .edge i => passCost g n i + 1
  | .ringEmpty i _ => passCost g n (i + 1) + 3
  | .ringRead i _ => passCost g n (i + 1) + 2
  | .read i e => passCost g n (i + 1) + 2 * ((g.edge e).attr.nrConsume - r.dest e) +
      (if d.nextTag e = 0 then 1 else 0) + 2

section

variable {g : Graph} {n i e : Nat} {skips : Nat → Nat} {d d' : Data} {r r' : Recv} {ans : Answer}
  {nx : RecvNext}

theorem left_select {err : Bool} (h : r.pc = .select err) :
    r.left g n d = nrWaiting r.toWait + passCost g n 0 + 2 := by
  rw [Recv.left, h]

theorem left_edge (h : r.pc = .edge i) : r.left g n d = passCost g n i + 1 := by
  rw [Recv.left, h]

theorem left_ringEmpty (h : r.pc = .ringEmpty i e) : r.left g n d = passCost g n (i + 1) + 3 := by
  rw [Recv.left, h]

theorem left_ringRead (h : r.pc = .ringRead i e) : r.left g n d = passCost g n (i + 1) + 2 := by
  rw [Recv.left, h]

theorem left_read (h : r.pc = .read i e) :
    r.left g n d = passCost g n (i + 1) + 2 * ((g.edge e).attr.nrConsume - r.dest e) +
      (if d.nextTag e = 0 then 1 else 0) + 2 := by
  rw [Recv.left, h]

theorem passCost_succ (h : (g.inEdges n)[i]? = some e) :
    passCost g n i = 2 * (g.edge e).attr.nrConsume + 4 + passCost g n (i + 1) := by
  unfold passCost
  rw [Scan.drop_eq_cons h, List.foldr_cons]

/-- A nonempty set of descriptors has a member. -/
theorem exists_common_bit {m s : BitVec 32} (hs : s ≠ 0) (hsub : s &&& m = s) :
    ∃ j < 32, s.getLsbD j = true ∧ m.getLsbD j = true := by
  by_contra hno
  refine hs (BitVec.eq_of_getLsbD_eq (fun j hj => ?_))
  by_contra hset
  have hj' : s.getLsbD j = true := by simpa using hset
  refine hno ⟨j, hj, hj', ?_⟩
  rw [← hsub, BitVec.getLsbD_and, Bool.and_eq_true] at hj'
  exact hj'.2

theorem nrWaiting_lt {m s : BitVec 32} (hs : s ≠ 0) (hsub : s &&& m = s) :
    nrWaiting (m &&& ~~~s) < nrWaiting m := by
  obtain ⟨j, hj, hset, hm⟩ := exists_common_bit hs hsub
  refine Scan.countP_lt (x := j) (fun y _ hy => ?_) (List.mem_range.mpr hj) ?_ hm
  · rw [BitVec.getLsbD_and, Bool.and_eq_true] at hy
    exact hy.1
  · rw [BitVec.getLsbD_and, BitVec.getLsbD_not, hset]
    simp

/-! ## The pass over the in-edges -/

/-- The edge in hand is done with. -/
theorem Pending.next {dest dest' : Nat → Nat} (hp : Pending g n skips d dest i)
    (he : (g.inEdges n)[i]? = some e)
    (hmsgs : d'.nrTerminateMsgs n = d.nrTerminateMsgs n +
      if ((g.edge e).isDataPassing && !(g.edge e).isBackedge) = true then 1 else 0)
    (hchan : ∀ e', e' ≠ e → d'.chan e' = d.chan e') (hdest : ∀ e', e' ≠ e → dest' e' = dest e') :
    Pending g n skips d' dest' (i + 1) := by
  have hne : ∀ e' ∈ (g.inEdges n).drop (i + 1), e' ≠ e := by
    rintro e' he' rfl
    exact Scan.not_mem_drop_succ (g.inEdges_nodup n) he he'
  refine ⟨?_, fun e' he' hf hd => ?_, fun e' he' hb hd hsk => ?_⟩
  · rw [Scan.countP_take_succ he, hmsgs, hp.msgs]
  · rw [hchan e' (hne e' he')]
    exact hp.forward e' (Scan.mem_drop_of_succ he') hf hd
  · rw [hchan e' (hne e' he'), hdest e' (hne e' he')]
    exact hp.back e' (Scan.mem_drop_of_succ he') hb hd hsk

/-- A back edge in hand has given some of its payload. -/
theorem Pending.stay {dest dest' : Nat → Nat} (hp : Pending g n skips d dest i)
    (hb : (g.edge e).isBackedge = true) (hmsgs : d'.nrTerminateMsgs n = d.nrTerminateMsgs n)
    (hchan : ∀ e', e' ≠ e → d'.chan e' = d.chan e') (hdest : ∀ e', e' ≠ e → dest' e' = dest e')
    (hold : (d'.chan e).Holds (g.edge e).attr ((g.edge e).attr.nrConsume - dest' e)) :
    Pending g n skips d' dest' i := by
  refine ⟨hmsgs.trans hp.msgs, fun e' he' hf hd => ?_, fun e' he' hb' hd hsk => ?_⟩
  · have hne : e' ≠ e := by
      rintro rfl
      rw [hf] at hb
      cases hb
    rw [hchan e' hne]
    exact hp.forward e' he' hf hd
  · by_cases hee : e' = e
    · subst hee
      exact hold
    · rw [hchan e' hee, hdest e' hee]
      exact hp.back e' he' hb' hd hsk

/-- What a forward edge holds that has not been counted. -/
theorem ChanOk.only_terminate {a : EdgeAttr} {c : Chan} (h : ChanOk a true none c)
    (hpos : a.nrProduce ≠ 0) (hc : c.counted = 0) (he : c.Empty a) :
    (a.type.isStream = true → c.nextTag = 0 ∧ c.stream = [pgmTerminate]) ∧
      (a.type.isMq = true → c.nextTag = 0 ∧ c.queue = [[pgmTerminate]]) ∧
      (a.type.isRing = true → isTerminate c.ringCmd = true ∧ c.queue = []) := by
  refine ⟨fun hs => ?_, fun hq => ?_, fun hr => ⟨(h.ring hr).mpr rfl, he.ring hr⟩⟩
  · rcases h.stream hs with ⟨-, hf⟩ | ⟨hone, -⟩
    · rw [Option.getD_none, List.append_nil] at hf
      exact hf.eq_stop hpos (he.stream hs)
    · omega
  · rcases h.mq hq with ⟨-, htag, hf⟩ | ⟨hone, -⟩
    · rw [Option.toList_none, List.append_nil] at hf
      exact ⟨htag, hf.eq_stop (by decide) (he.mq hq)⟩
    · omega

/-- The messages of the node are at most as many as its in-edges. -/
theorem Pending.msgs_lt {dest : Nat → Nat} {j : Nat} (hp : Pending g n skips d dest j) :
    d.nrTerminateMsgs n < 32 := by
  rw [hp.msgs]
  exact (List.countP_le_length.trans (List.length_take_le' _ _)).trans_lt (g.inDegree n)

/-- What the call knows besides its place. -/
structure DrainCtx (g : Graph) (n : Nat) (skips : Nat → Nat) (d : Data) (r : Recv) : Prop where
  settled : Settled g n d
  unskipped : ∀ e ∈ g.inEdges n, (g.edge e).isBackedge = false → skips e = 0
  stream : ∀ e, (g.edge e).attr.type.isStream = true → r.dest e < (g.edge e).attr.nrConsume
  mq : ∀ e, (g.edge e).attr.type.isMq = true → r.dest e = 0
  place : r.Draining g n skips
  pending : Pending g n skips d r.dest r.pc.pos

/-- What an edge has that is still to be read. -/
theorem DrainCtx.available (h : DrainCtx g n skips d r) (he : Active g n skips i e)
    (hpos : r.pc.pos ≤ i) :
    ((g.edge e).attr.type.isStream = true → d.stream e ≠ []) ∧
      ((g.edge e).attr.type.isMq = true → d.nextTag e = 0 ∧ d.queue e ≠ []) := by
  have hmem : e ∈ (g.inEdges n).drop r.pc.pos := Scan.mem_drop_of_le he.1 hpos
  cases hb : (g.edge e).isBackedge with
  | false =>
    obtain ⟨hc, hempty⟩ := h.pending.forward e hmem hb he.2.1
    obtain ⟨hs, hq, -⟩ := (h.settled.forward e he.mem hb).only_terminate
      (g.edge e).accepted.produce_pos.ne' hc hempty
    refine ⟨fun hk => ?_, fun hk => ⟨(hq hk).1, ?_⟩⟩
    · rw [show d.stream e = _ from (hs hk).2]
      simp
    · rw [show d.queue e = _ from (hq hk).2]
      simp
  | true =>
    have hhold := h.pending.back e hmem hb he.2.1 he.2.2
    obtain ⟨more, hok⟩ := h.settled.back e he.mem hb
    refine ⟨fun hk hnil => ?_, fun hk => ⟨?_, hhold.mq hk⟩⟩
    · have hle := hhold.stream hk
      have hlt := h.stream e hk
      rw [show (d.chan e).stream = [] from hnil] at hle
      simp only [Framing.strip, List.length_nil] at hle
      omega
    · rcases hok.mq hk with ⟨-, htag, -⟩ | ⟨-, hc, -⟩
      · exact htag
      · cases hc

/-- An edge that is still to be read can be read. -/
theorem DrainCtx.readable (h : DrainCtx g n skips d r) (he : Active g n skips i e)
    (hpos : r.pc.pos ≤ i) (hr : (g.edge e).attr.type.isRing = false) : (d.chan e).Readable := by
  obtain ⟨hs, hq⟩ := h.available he hpos
  rcases EdgeType.kind_of_data he.2.1 with hk | hk | hk
  · exact Or.inl (hs hk)
  · exact Or.inr (hq hk).2
  · rw [hr] at hk
    cases hk

/-- A step of the call ends it with all forward edges counted, or brings it nearer to its end. -/
def Drains (g : Graph) (n : Nat) (skips : Nat → Nat) (d : Data) (r : Recv) (d' : Data)
    (nx : RecvNext) : Prop :=
  nx = .done .exhaustedAndTerminate ∨
    ∃ r', nx = .more r' ∧ (∀ e, (g.edge e).attr.type.isMq = true → r'.dest e = 0) ∧
      r'.Draining g n skips ∧ Pending g n skips d' r'.dest r'.pc.pos ∧
      r'.left g n d' < r.left g n d

/-- The edge in hand is done with, and the call goes on with the next one. -/
theorem drains_next (h : DrainCtx g n skips d r) (hi : r.pc.pos = i)
    (he : (g.inEdges n)[i]? = some e)
    (hmsgs : d'.nrTerminateMsgs n = d.nrTerminateMsgs n +
      if ((g.edge e).isDataPassing && !(g.edge e).isBackedge) = true then 1 else 0)
    (hchan : ∀ e', e' ≠ e → d'.chan e' = d.chan e') (hdest : r'.dest = r.dest)
    (hpc : r'.pc = .edge (i + 1)) (hleft : passCost g n (i + 1) + 1 < r.left g n d) :
    Drains g n skips d r d' (.more r') := by
  refine Or.inr ⟨r', rfl, ?_, ?_, ?_, ?_⟩
  · rw [hdest]
    exact h.mq
  · rw [Recv.Draining, hpc]
    trivial
  · rw [hpc, hdest]
    have hp := h.pending
    rw [hi] at hp
    exact hp.next he hmsgs hchan (fun _ _ => rfl)
  · rw [left_edge hpc]
    exact hleft

theorem drains_count (h : DrainCtx g n skips d r) (hi : r.pc.pos = i) (hact : Active g n skips i e)
    (hb : (g.edge e).isBackedge = false) {d₁ : Data} (hmsgs : d₁.nrTerminateMsgs = d.nrTerminateMsgs)
    (hchan : ∀ e', e' ≠ e → d₁.chan e' = d.chan e')
    (hleft : passCost g n (i + 1) + 1 < r.left g n d) :
    Drains g n skips d r (d₁.countTerminate n e) (r.at (.edge (i + 1))) := by
  refine drains_next h hi hact.1 ?_ (fun e' he' => ?_) rfl rfl hleft
  · have hlt := h.pending.msgs_lt
    simp only [Data.countTerminate, Function.update_self, hmsgs, hact.2.1, hb, Bool.not_false,
      Bool.and_true, if_true]
    exact Word.add_of_lt (by omega)
  · rw [chan_countTerminate_of_ne _ he', hchan e' he']

theorem passCost_read_lt (hpc : r.pc = .read i e) :
    passCost g n (i + 1) + 1 < r.left g n d := by
  rw [left_read hpc]
  omega

/-- A read of a FIFO or socket of a forward edge, which is at its terminate tag. -/
theorem drains_stream_forward (h : DrainCtx g n skips d r) (hpc : r.pc = .read i e)
    (hact : Active g n skips i e) (hb : (g.edge e).isBackedge = false)
    (hs : (g.edge e).attr.type.isStream = true)
    (heof : ans ≠ .eof) (hfail : ans ≠ .failed) (hagain : ans ≠ .eagain)
    (hread : readStep g n d r i e ans = some (d', nx)) : Drains g n skips d r d' nx := by
  have hpos : r.pc.pos = i := by rw [hpc]; rfl
  have hmem : e ∈ (g.inEdges n).drop r.pc.pos := Scan.mem_drop_of_le hact.1 hpos.le
  have hdest := h.stream e hs
  obtain ⟨hzero, hempty⟩ := h.pending.forward e hmem hb hact.2.1
  have hrest₀ : edgeRest g d e [] = [] := by
    have := hempty.stream hs
    simpa [edgeRest, Data.chan] using this
  have hf : edgeFramed g true d e [] := by
    rcases (h.settled.forward e hact.mem hb).stream hs with ⟨-, hf⟩ | ⟨hone, -⟩
    · exact hf
    · omega
  cases readStep_effect hs hf hdest heof hfail hread with
  | eagain ha => exact absurd ha hagain
  | payload k st bs ha hf' hrest hlen hlone =>
    have hnil := hrest []
    rw [hrest₀] at hnil
    obtain ⟨rfl, hnil⟩ := List.append_eq_nil_iff.mp hnil.symm
    refine absurd hnil (hf'.strip_ne_nil ?_)
    simpa using (hlone rfl).2
  | complete k st bs ha hf' hrest hlen =>
    have hnil := hrest []
    rw [hrest₀] at hnil
    obtain ⟨rfl, -⟩ := List.append_eq_nil_iff.mp hnil.symm
    simp only [List.length_nil] at hlen
    omega
  | terminate ha ht htag' hst' hm =>
    exact drains_count h hpos hact hb rfl (fun _ => chan_setStream_of_ne) (passCost_read_lt hpc)

/-- A read of a FIFO or socket of a back edge, which holds what the call asks for. -/
theorem drains_stream_back (h : DrainCtx g n skips d r) (hpc : r.pc = .read i e)
    (hact : Active g n skips i e) (hb : (g.edge e).isBackedge = true)
    (hs : (g.edge e).attr.type.isStream = true)
    (heof : ans ≠ .eof) (hfail : ans ≠ .failed) (hagain : ans ≠ .eagain)
    (hread : readStep g n d r i e ans = some (d', nx)) : Drains g n skips d r d' nx := by
  have hpos : r.pc.pos = i := by rw [hpc]; rfl
  have hmem : e ∈ (g.inEdges n).drop r.pc.pos := Scan.mem_drop_of_le hact.1 hpos.le
  obtain ⟨hmq, hring⟩ := (g.edge e).attr.type.exclusive.1 hs
  obtain ⟨more, hok⟩ := h.settled.back e hact.mem hb
  have hhold := (h.pending.back e hmem hb hact.2.1 hact.2.2).stream hs
  have hf : edgeFramed g false d e (more.getD []) := by
    rcases hok.stream hs with ⟨-, hf⟩ | ⟨-, hc, -⟩
    · exact hf
    · cases hc
  cases readStep_effect hs hf (h.stream e hs) heof hfail hread with
  | eagain ha => exact absurd ha hagain
  | terminate ha ht => cases ht
  | complete k st bs ha hf' hrest hlen =>
    refine drains_next h hpos hact.1 ?_ (fun _ => chan_setStream_of_ne) rfl rfl (passCost_read_lt hpc)
    simp [hb]
  | payload k st bs ha hf' hrest hlen hlone =>
    have hother : ∀ e', e' ≠ e → (r.advance e bs).dest e' = r.dest e' :=
      fun e' he' => Function.update_of_ne he' _ _
    refine Or.inr ⟨_, rfl, fun e' hq => ?_, ⟨hact, hring⟩, ?_, ?_⟩
    · have hne : e' ≠ e := by
        rintro rfl
        exact absurd hq (by rw [hmq]; decide)
      exact (hother e' hne).trans (h.mq e' hq)
    · have hp := h.pending
      rw [hpos] at hp
      refine hp.stay hb rfl (fun _ => chan_setStream_of_ne) hother ⟨fun _ => ?_, fun hq => ?_, fun hr => ?_⟩
      · have hlen' := congrArg List.length (hrest [])
        simp only [edgeRest, List.append_nil, List.length_append] at hlen'
        simp only [Data.chan, Recv.advance, Function.update_self] at hhold hlen' ⊢
        omega
      · exact absurd hq (by rw [hmq]; decide)
      · exact absurd hr (by rw [hring]; decide)
    · rw [left_read hpc, left_read (e := e) (i := i) rfl]
      simp only [Recv.advance, setStream_nextTag, Function.update_self]
      by_cases hnil : bs = []
      · obtain ⟨hz, hk⟩ := hlone hnil
        simp only [hnil, hz, hk, List.length_nil, if_true, if_false]
        omega
      · have hpos' := List.length_pos_iff.mpr hnil
        split_ifs <;> omega

/-- A read of a FIFO or socket. -/
theorem drains_stream (h : DrainCtx g n skips d r) (hpc : r.pc = .read i e)
    (hact : Active g n skips i e) (hs : (g.edge e).attr.type.isStream = true)
    (heof : ans ≠ .eof) (hfail : ans ≠ .failed) (hagain : ans ≠ .eagain)
    (hread : readStep g n d r i e ans = some (d', nx)) : Drains g n skips d r d' nx := by
  cases hb : (g.edge e).isBackedge with
  | false => exact drains_stream_forward h hpc hact hb hs heof hfail hagain hread
  | true => exact drains_stream_back h hpc hact hb hs heof hfail hagain hread

theorem drains_queue (h : DrainCtx g n skips d r) (hpc : r.pc = .read i e)
    (hact : Active g n skips i e) (hq : (g.edge e).attr.type.isMq = true)
    (hfail : ans ≠ .failed) (hagain : ans ≠ .eagain)
    (hread : readStep g n d r i e ans = some (d', nx)) : Drains g n skips d r d' nx := by
  have hpos : r.pc.pos = i := by rw [hpc]; rfl
  have hmem : e ∈ (g.inEdges n).drop r.pc.pos := Scan.mem_drop_of_le hact.1 hpos.le
  have hdest := h.mq e hq
  cases hb : (g.edge e).isBackedge with
  | false =>
    have hok := h.settled.forward e hact.mem hb
    obtain ⟨hzero, hempty⟩ := h.pending.forward e hmem hb hact.2.1
    obtain ⟨htag, hqueue⟩ :=
      (hok.only_terminate (g.edge e).accepted.produce_pos.ne' hzero hempty).2.1 hq
    have hf : d.nextTag e = 0 → Framing.Queued pgmNormal pgmTerminate
        (g.edge e).attr.nrProduce true (d.queue e ++ []) := by
      intro _
      rw [show d.queue e = [[pgmTerminate]] from hqueue]
      exact Or.inl ⟨rfl, rfl, rfl⟩
    cases readStep_queueEffect hq hf hfail hread with
    | eagain ha => exact absurd ha hagain
    | message x q htag' hqueue' =>
      have heq := hqueue'.symm.trans hqueue
      exact absurd (List.cons.inj (List.cons.inj heq).1).1 (by decide)
    | terminate htag' hb' hqueue' =>
      exact drains_count h hpos hact hb rfl (fun _ => chan_setQueue_of_ne) (passCost_read_lt hpc)
    | refused hno => exact absurd hno (not_or.mpr ⟨not_not.mpr hdest, not_not.mpr htag⟩)
  | true =>
    obtain ⟨more, hok⟩ := h.settled.back e hact.mem hb
    obtain ⟨htag, hf⟩ : d.nextTag e = 0 ∧ Framing.Queued pgmNormal pgmTerminate
        (g.edge e).attr.nrProduce false (d.queue e ++ more.toList) := by
      rcases hok.mq hq with ⟨-, htag, hf⟩ | ⟨-, hc, -⟩
      · exact ⟨htag, hf⟩
      · cases hc
    cases readStep_queueEffect hq (fun _ => hf) hfail hread with
    | eagain ha => exact absurd ha hagain
    | terminate htag' hb' hqueue' => cases hb'
    | message x q htag' hqueue' =>
      refine drains_next h hpos hact.1 ?_ (fun _ => chan_setQueue_of_ne) rfl rfl (passCost_read_lt hpc)
      simp only [hb, Bool.not_true, Bool.and_false, Bool.false_eq_true, if_false]
      rfl
    | refused hno => exact absurd hno (not_or.mpr ⟨not_not.mpr hdest, not_not.mpr htag⟩)

/-- The call goes on with the edge in hand. -/
theorem drains_at (h : DrainCtx g n skips d r) {pc : RecvPc} (hpos : pc.pos = r.pc.pos)
    (hplace : ({ r with pc := pc } : Recv).Draining g n skips)
    (hleft : ({ r with pc := pc } : Recv).left g n d < r.left g n d) :
    Drains g n skips d r d (r.at pc) :=
  Or.inr ⟨_, rfl, h.mq, hplace, by rw [hpos]; exact h.pending, hleft⟩

theorem drains_select {err err' : Bool} {m s : BitVec 32} (h : DrainCtx g n skips d r)
    (hpc : r.pc = .select err) (herr : err' = true → err = true) (hne : s ≠ 0)
    (hsub : s &&& r.toWait = s) (hm : m = r.toWait &&& ~~~s) :
    Drains g n skips d r d (.more { r with toWait := m, pc := .select err' }) := by
  subst hm
  have hplace := h.place
  have hp := h.pending
  unfold Recv.Draining at hplace
  rw [hpc] at hplace hp
  refine Or.inr ⟨_, rfl, h.mq, ⟨?_, fun i hi => ?_⟩, hp, ?_⟩
  · by_contra herr'
    exact absurd hplace.1 (by rw [herr (by simpa using herr')]; decide)
  · rw [BitVec.getLsbD_and, Bool.and_eq_true] at hi
    exact hplace.2 i hi.1
  · have := nrWaiting_lt hne hsub
    rw [left_select hpc, left_select rfl]
    simp only
    omega

/-- The command word of a ring is read: it says terminate on a forward edge, and not on a back
edge. -/
theorem drains_ringCmd (h : DrainCtx g n skips d r) (hpc : r.pc = .edge i)
    (ha : Active g n skips i e) (hr : (g.edge e).attr.type.isRing = true) :
    Drains g n skips d r d
      (r.at (if isTerminate (d.ringCmd e) = true then .ringEmpty i e else .ringRead i e)) := by
  have hpos : r.pc.pos = i := by rw [hpc]; rfl
  cases hb : (g.edge e).isBackedge with
  | false =>
    have hmem : e ∈ (g.inEdges n).drop r.pc.pos := Scan.mem_drop_of_le ha.1 hpos.le
    obtain ⟨hzero, hempty⟩ := h.pending.forward e hmem hb ha.2.1
    have hcmd : isTerminate (d.ringCmd e) = true :=
      (((h.settled.forward e ha.mem hb).only_terminate
        (g.edge e).accepted.produce_pos.ne' hzero hempty).2.2 hr).1
    rw [if_pos hcmd]
    refine drains_at h hpos.symm ⟨ha, hb, hr⟩ ?_
    rw [left_edge hpc, left_ringEmpty rfl, passCost_succ ha.1]
    omega
  | true =>
    obtain ⟨more, hok⟩ := h.settled.back e ha.mem hb
    have hcmd : ¬ isTerminate (d.ringCmd e) = true := fun hc => by cases (hok.ring hr).mp hc
    rw [if_neg hcmd]
    refine drains_at h hpos.symm ⟨ha, hb, hr⟩ ?_
    rw [left_edge hpc, left_ringRead rfl, passCost_succ ha.1]
    omega

/-- **One step of the call.** -/
theorem drain_step (h : DrainCtx g n skips d r) (hdata : g.nrInDataForward n ≠ 0)
    (hhonest : r.Honest g n d ans) (heof : ans ≠ .eof) (hfail : ans ≠ .failed)
    (hm : RecvMove g n skips d r ans d' nx) : Drains g n skips d r d' nx := by
  have hplace := h.place
  unfold Recv.Draining at hplace
  unfold Recv.Honest at hhonest
  cases hm with
  | selecting err err' m hpc hw herr hready =>
    rw [hpc] at hplace hhonest
    obtain ⟨s, hs, -⟩ := hhonest hw
    have hans : ans = .ready s := by
      cases ans with
      | ready s' => cases hs; rfl
      | _ => cases hs
    obtain ⟨hne, hsub, hm⟩ := hready s hans
    refine drains_select h hpc (fun he => (herr he).resolve_right ?_) hne hsub hm
    rw [hans]
    rintro ⟨⟩
  | selected hpc hw =>
    refine drains_at h (by rw [hpc]; rfl) trivial ?_
    rw [left_select hpc, left_edge rfl]
    omega
  | selectFailed hpc =>
    rw [hpc] at hplace
    cases hplace.1
  | out i hpc hi =>
    left
    have hfull : d.nrTerminateMsgs n = g.nrInDataForward n := by
      have hp := h.pending.msgs
      rw [hpc, RecvPc.pos, Scan.take_of_end hi] at hp
      rw [hp, g.nrInDataForward_eq]
      rfl
    rw [recvOut, if_pos ⟨by rw [hfull]; exact hdata, hfull⟩]
  | pass i e hpc hi hn =>
    refine drains_next h (by rw [hpc]; rfl) hi ?_ (fun _ _ => rfl) rfl rfl ?_
    · have hnot : ¬ ((g.edge e).isDataPassing && !(g.edge e).isBackedge) = true := by
        rw [Bool.and_eq_true, Bool.not_eq_true']
        rintro ⟨hd, hb⟩
        exact hn ⟨hi, hd, h.unskipped e (List.mem_of_getElem? hi) hb⟩
      rw [if_neg hnot]
      rfl
    · rw [left_edge hpc, passCost_succ hi]
      omega
  | enter i e hpc ha hr =>
    refine drains_at h (by rw [hpc]; rfl) ⟨ha, hr⟩ ?_
    rw [left_edge hpc, left_read rfl, passCost_succ ha.1]
    split_ifs <;> omega
  | ringCmd i e hpc ha hr => exact drains_ringCmd h hpc ha hr
  | ringStop i e hpc hq =>
    rw [hpc] at hplace
    refine drains_count h (by rw [hpc]; rfl) hplace.1 hplace.2.1 rfl (fun _ _ => rfl) ?_
    rw [left_ringEmpty hpc]
    omega
  | ringMore i e hpc hq =>
    rw [hpc] at hplace
    have hmem : e ∈ (g.inEdges n).drop r.pc.pos :=
      Scan.mem_drop_of_le hplace.1.1 (by rw [hpc]; rfl)
    obtain ⟨-, hempty⟩ := h.pending.forward e hmem hplace.2.1 hplace.1.2.1
    exact absurd (hempty.ring hplace.2.2) hq
  | ringRead i e x q hpc hq =>
    rw [hpc] at hplace
    refine drains_next h (by rw [hpc]; rfl) hplace.1.1 ?_ (fun e' he' => ?_) rfl rfl ?_
    · simp [hplace.2.1]
    · exact chan_congr rfl rfl (Function.update_of_ne he' _ _) rfl rfl
    · rw [left_ringRead hpc]
      omega
  | read i e d' nx hpc hread =>
    rw [hpc] at hplace hhonest
    have hagain : ans ≠ .eagain :=
      fun hc => hhonest hc (h.readable hplace.1 (by rw [hpc]; rfl) hplace.2)
    rcases EdgeType.kind_of_data hplace.1.2.1 with hs | hq | hr
    · exact drains_stream h hpc hplace.1 hs heof hfail hagain hread
    · exact drains_queue h hpc hplace.1 hq hfail hagain hread
    · rw [hplace.2] at hr
      cases hr

/-! ## The call never waits -/

theorem select_enabled {err : Bool} (hpc : r.pc = .select err) :
    (recvStep g n skips d r (.ready r.toWait)).isSome = true := by
  unfold recvStep
  rw [hpc]
  simp only [Option.isSome_map]
  unfold selectStep
  by_cases hw : r.toWait = 0
  · rw [if_pos hw]
    rfl
  · rw [if_neg hw]
    simp only
    rw [if_pos ⟨hw, BitVec.and_self⟩]
    rfl

theorem read_enabled (hpc : r.pc = .read i e)
    (hq : (g.edge e).attr.type.isMq = true → r.dest e = 0 ∧ d.nextTag e = 0 ∧ d.queue e ≠ [])
    (hst : (g.edge e).attr.type.isMq = false →
      r.dest e < (g.edge e).attr.nrConsume ∧ d.stream e ≠ []) :
    (recvStep g n skips d r (.bytes 1)).isSome = true := by
  have hread : ∀ nbytes, 0 < nbytes → (g.edge e).attr.type.isMq = false →
      (d.read g e nbytes (.bytes 1)).isSome = true := by
    intro nbytes hpos hmq
    rw [Data.read, if_neg (by simp [hmq]), Data.readStream,
      if_pos ⟨Nat.one_pos, hpos, List.length_pos_iff.mpr (hst hmq).2⟩]
    rfl
  simp only [recvStep, hpc, readStep]
  cases hmq : (g.edge e).attr.type.isMq with
  | true =>
    obtain ⟨hdest, htag, hne⟩ := hq hmq
    have heq := (g.edge e).accepted.mq hmq
    rw [if_pos ⟨by rw [hdest, Nat.sub_zero], htag⟩, Option.isSome_map, Data.read, if_pos hmq,
      if_neg (by omega), Data.readMq]
    cases hqueue : d.queue e with
    | nil => exact absurd hqueue hne
    | cons m q => rfl
  | false =>
    have hdest := (hst hmq).1
    split_ifs
    · rw [Option.isSome_map]
      exact hread _ (Nat.succ_pos _) hmq
    · rw [Option.isSome_map]
      exact hread _ (by omega) hmq
    · rw [Option.isSome_map]
      exact hread _ Nat.one_pos hmq

/-- **The call can go on.** -/
theorem drain_enabled (h : DrainCtx g n skips d r) :
    ∃ ans, (recvStep g n skips d r ans).isSome = true ∧ r.Honest g n d ans ∧ ans ≠ .eof ∧
      ans ≠ .failed := by
  have hplace := h.place
  unfold Recv.Draining at hplace
  unfold Recv.Honest
  cases hpc : r.pc with
  | select err =>
    rw [hpc] at hplace
    refine ⟨.ready r.toWait, select_enabled hpc, fun _ => ⟨r.toWait, rfl, ?_⟩, by simp, by simp⟩
    rintro ⟨e, i⟩ hx hbit
    obtain ⟨e', hact, hr⟩ := hplace.2 i hbit
    obtain rfl : e = e' :=
      Option.some.inj ((List.mem_zipIdx_iff_getElem?.mp hx).symm.trans hact.1)
    exact h.readable hact (by rw [hpc]; exact Nat.zero_le i) hr
  | edge i => exact ⟨.go, by simp [recvStep, hpc], trivial, by simp, by simp⟩
  | ringEmpty i e =>
    refine ⟨.go, ?_, trivial, by simp, by simp⟩
    simp only [recvStep, hpc]
    split <;> rfl
  | ringRead i e =>
    rw [hpc] at hplace
    obtain ⟨hact, hb, hr⟩ := hplace
    have hmem : e ∈ (g.inEdges n).drop r.pc.pos := Scan.mem_drop_of_le hact.1 (by rw [hpc]; rfl)
    have hne : d.queue e ≠ [] := (h.pending.back e hmem hb hact.2.1 hact.2.2).ring hr
    refine ⟨.go, ?_, trivial, by simp, by simp⟩
    simp only [recvStep, hpc]
    cases hq : d.queue e with
    | nil => exact absurd hq hne
    | cons x q => rfl
  | read i e =>
    rw [hpc] at hplace
    obtain ⟨hact, hr⟩ := hplace
    obtain ⟨hs, hq⟩ := h.available hact (by rw [hpc]; rfl)
    refine ⟨.bytes 1, read_enabled hpc (fun hmq => ⟨h.mq e hmq, hq hmq⟩) (fun hmq => ?_),
      (by rintro ⟨⟩), by simp, by simp⟩
    rcases EdgeType.kind_of_data hact.2.1 with hk | hk | hk
    · exact ⟨h.stream e hk, hs hk⟩
    · rw [hmq] at hk
      cases hk
    · rw [hr] at hk
      cases hk

/-- The call begins. -/
theorem drain_start (h : recvStart g n skips d = .more r) :
    r.Draining g n skips ∧ r.dest = (fun _ => 0) ∧ r.pc = .select false := by
  have hdeg : (g.inEdges n).length < 32 := g.inDegree n
  unfold recvStart at h
  simp only at h
  split at h
  · cases h
  · cases h
    refine ⟨⟨rfl, fun i hi => ?_⟩, rfl, rfl⟩
    simp only [BitVec.getLsbD_and, BitVec.getLsbD_not, BitVec.getLsbD_or, Bool.and_eq_true,
      Graph.getLsbD_allOnes_shift hdeg.le, Graph.signalEdgeMask, Graph.getLsbD_maskOf,
      decide_eq_true_eq, Bool.not_eq_true', Bool.or_eq_false_iff] at hi
    obtain ⟨hlt, hi32, hsig, hskip⟩ := hi
    simp only [hi32, decide_true, Bool.true_and, List.getD_eq_getElem?_getD, List.getElem?_map,
      List.getElem?_eq_getElem hlt, Option.map_some, Option.getD_some] at hsig hskip
    have hdata : (g.edge (g.inEdges n)[i]).isDataPassing = true := by
      refine ((g.edge (g.inEdges n)[i]).attr.type.signal_or_data).resolve_left (fun hs => ?_)
      exact absurd (hsig.symm.trans hs) (by decide)
    refine ⟨(g.inEdges n)[i], ⟨List.getElem?_eq_getElem hlt, hdata, ?_⟩, ?_⟩
    · rw [hdata, Bool.true_and, decide_eq_false_iff_not] at hskip
      omega
    · refine Bool.eq_false_iff.mpr (fun hr => ?_)
      exact absurd (hsig.symm.trans (signalDriven_of_isRing hr)) (by decide)

end

end Pgm
