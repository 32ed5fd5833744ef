import Pgm.Lib.Lts
import Pgm.Retry

/-! When a successful `pgm_recv_data` has filled the buffers. Every byte of a consumer's buffer
carries a mark that says whether a payload read of this call has put it there; bytes that arrive
together with a terminate tag are not payload. The streams hold any bytes and the reads give any
answers. The turn of an edge also ends when a read reports the end of the file or finds a terminate
tag, however much of the buffer has been filled by then. -/

namespace Pgm

open Function (update)

/-- Bytes that a read puts into the buffer of an edge. -/
structure Put where
  edge : Nat
  off : Nat
  len : Nat
  payload : Bool

/-- What the next read puts into a buffer. A tag that is read together with the first bytes of its
message tells whether they are payload. -/
def Call.put? (c : Call) : Answer → Option Put
  | .bytes k =>
    match c.loc.pc with
    | .read _ e =>
      if c.loc.dest e = 0 ∧ c.data.nextTag e = 0 then
        let tag := (c.data.stream e).headD 0
        some ⟨e, c.loc.dest e, k - 1, isNormal tag && !isTerminate tag⟩
      else if c.data.nextTag e ≠ 0 then some ⟨e, c.loc.dest e, k, true⟩
      else none
    | _ => none
  | _ => none

def Put.mark (p : Put) (fresh : Nat → Nat → Bool) : Nat → Nat → Bool := fun e o =>
  if e = p.edge ∧ p.off ≤ o ∧ o < p.off + p.len then p.payload else fresh e o

/-- A call with the marks of the bytes of the buffers: `fresh e o` says that the byte at offset `o`
of the buffer of edge `e` is payload that this call has read. -/
structure Marked where
  call : Call
  fresh : Nat → Nat → Bool

def Marked.next (m : Marked) (ans : Answer) : Nat → Nat → Bool :=
  match m.call.put? ans with
  | some p => p.mark m.fresh
  | none => m.fresh

def markedStart (g : Graph) (n : Nat) (skips : Nat → Nat) (d : Data) : Marked :=
  ⟨callStart g n skips d, fun _ _ => false⟩

def markedStep (g : Graph) (n : Nat) (skips : Nat → Nat) (m : Marked) (ans : Answer) :
    Option Marked :=
  (callStep g n skips m.call ans).map (fun c => ⟨c, m.next ans⟩)

/-- The buffer of edge `e` is filled with payload of this call. -/
def Filled (g : Graph) (fresh : Nat → Nat → Bool) (e : Nat) : Prop :=
  ∀ o < (g.edge e).attr.nrConsume, fresh e o = true

instance (g : Graph) (fresh : Nat → Nat → Bool) (e : Nat) : Decidable (Filled g fresh e) :=
  inferInstanceAs (Decidable (∀ o < _, _))

/-- The read of edge `e` reports the end of the file or finds a terminate tag. -/
def EndsTurn (c : Call) (e : Nat) (ans : Answer) : Prop :=
  ans = .eof ∨ ∃ k, ans = .bytes k ∧ c.data.nextTag e = 0 ∧
    isTerminate ((c.data.stream e).headD 0) = true

/-- Such a read ends the turn of an edge whose buffer is not filled. -/
def EndsShort (g : Graph) (m : Marked) (ans : Answer) : Prop :=
  ∃ i e, m.call.loc.pc = .read i e ∧ EndsTurn m.call e ans ∧ ¬ Filled g (m.next ans) e

/-- A read would block, so that the loop over the edges starts over. -/
def WouldBlock (m : Marked) (ans : Answer) : Prop :=
  ans = .eagain ∧ ∃ i e, m.call.loc.pc = .read i e

section

variable {g : Graph} {n : Nat} {skips : Nat → Nat} {c c' : Call} {ans : Answer}

/-- What a step of a call does to the destination pointers and to the place in the loop. -/
inductive FillEffect (g : Graph) (n : Nat) (skips : Nat → Nat) (c : Call) (ans : Answer)
    (c' : Call) : Prop
  /-- No read, and no edge that the call reads is passed. -/
  | quiet (hpc : ∀ i e, c.loc.pc ≠ .read i e) (hdest : c'.loc.dest = c.loc.dest)
      (hpos : ∀ j e, Active g n skips j e → (j < c'.pos ↔ j < c.pos))
      (hret : c'.ret = some .success → ∀ j e, Active g n skips j e → j < c'.pos)
  | blocked (i e : Nat) (hpc : c.loc.pc = .read i e) (ha : ans = .eagain) (hret : c'.ret = none)
      (hdest : c'.loc.dest = c.loc.dest) (hpos : c'.pos = 0)
  | ended (i e : Nat) (hpc : c.loc.pc = .read i e) (hend : EndsTurn c e ans) (hret : c'.ret = none)
      (hdest : c'.loc.dest = c.loc.dest) (hpos : c'.pos = i + 1)
  /-- The edge goes on being read, after payload bytes or a lone tag. -/
  | more (i e len : Nat) (hpc : c.loc.pc = .read i e) (ha : ans ≠ .eagain)
      (hend : ¬ EndsTurn c e ans) (hret : c'.ret = none)
      (hput : c.put? ans = some ⟨e, c.loc.dest e, len, true⟩ ∨ (c.put? ans = none ∧ len = 0))
      (hlen : c.loc.dest e + len < (g.edge e).attr.nrConsume)
      (hdest : c'.loc.dest = update c.loc.dest e (c.loc.dest e + len)) (hpos : c'.pos = i)
  | full (i e len : Nat) (hpc : c.loc.pc = .read i e) (ha : ans ≠ .eagain)
      (hend : ¬ EndsTurn c e ans) (hret : c'.ret = none)
      (hput : c.put? ans = some ⟨e, c.loc.dest e, len, true⟩)
      (hlen : c.loc.dest e + len = (g.edge e).attr.nrConsume)
      (hdest : c'.loc.dest = c.loc.dest) (hpos : c'.pos = i + 1)
  | failed (i e : Nat) (hpc : c.loc.pc = .read i e) (ha : ans ≠ .eagain)
      (hend : ¬ EndsTurn c e ans) (hret : c'.ret ≠ some .success) (hloc : c'.loc = c.loc)

/-- The bytes that a step puts into a buffer, and the payload that it takes. -/
inductive Puts (g : Graph) (c : Call) (ans : Answer) (c' : Call) : Prop
  | none (hput : c.put? ans = none) (hbuf : c'.data.bufIn = c.data.bufIn)
      (htaken : c'.loc.taken = c.loc.taken)
  | some (p : Put) (bs : List UInt8) (hput : c.put? ans = some p) (hlen : bs.length = p.len)
      (hfit : p.off + p.len ≤ (g.edge p.edge).attr.nrConsume)
      (hbuf : c'.data.bufIn = update c.data.bufIn p.edge (store (c.data.bufIn p.edge) p.off bs))
      (htaken : c'.loc.taken =
        if p.payload then update c.loc.taken p.edge (c.loc.taken p.edge ++ bs) else c.loc.taken)

/-- A read puts bytes at the destination pointer of its edge. -/
theorem put?_some {p : Put} (h : c.put? ans = some p) :
    (∃ i, c.loc.pc = .read i p.edge) ∧ p.off = c.loc.dest p.edge := by
  unfold Call.put? at h
  split at h
  · split at h
    · rename_i i e hpc
      split at h
      · obtain rfl := Option.some.inj h
        exact ⟨⟨i, hpc⟩, rfl⟩
      · split at h
        · obtain rfl := Option.some.inj h
          exact ⟨⟨i, hpc⟩, rfl⟩
        · cases h
    · cases h
  · cases h

/-- The first of some bytes of a stream. -/
theorem take_pos {s : List UInt8} {k : Nat} (hk : 0 < k) (hl : k ≤ s.length) :
    ∃ b bs, s.take k = b :: bs ∧ bs.length + 1 = k ∧ s.headD 0 = b := by
  cases s with
  | nil => simp only [List.length_nil] at hl; omega
  | cons b s =>
    obtain ⟨k, rfl⟩ : ∃ m, k = m + 1 := ⟨k - 1, by omega⟩
    refine ⟨b, s.take k, rfl, ?_, rfl⟩
    simp only [List.length_cons] at hl
    rw [List.length_take]
    omega

theorem endsTurn_bytes {e : Nat} {tag : UInt8} (k : Nat) (htag : c.data.nextTag e = 0)
    (hhead : (c.data.stream e).headD 0 = tag) :
    EndsTurn c e (.bytes k) ↔ isTerminate tag = true := by
  unfold EndsTurn
  rw [htag, hhead]
  simp

theorem noBytes_fill {i e : Nat} {d' : Data} {nx : RecvNext} {res : ReadRes}
    (hpc : c.loc.pc = .read i e)
    (hres : (ans = .eagain ∧ res = .eagain) ∨ (ans = .eof ∧ res = .eof) ∨
      (ans = .failed ∧ res = .error))
    (h : (c.data, afterNoBytes g n c.loc i c.data res) = (d', nx)) :
    FillEffect g n skips c ans (c.after d' nx) ∧ Puts g c ans (c.after d' nx) := by
  obtain ⟨rfl, rfl⟩ := Prod.mk.inj h
  rcases hres with ⟨rfl, rfl⟩ | ⟨rfl, rfl⟩ | ⟨rfl, rfl⟩
  · exact ⟨.blocked i e hpc rfl rfl rfl rfl, .none rfl rfl rfl⟩
  · exact ⟨.ended i e hpc (Or.inl rfl) rfl rfl rfl, .none rfl rfl rfl⟩
  · refine ⟨.failed i e hpc (by simp) (by simp [EndsTurn]) ?_ rfl, .none rfl rfl rfl⟩
    simpa [Call.after, afterNoBytes] using recvOut_error_ne g n c.data

/-- The first read of an edge: a tag and the first payload bytes. -/
theorem afterTagged_fill {i e : Nat} {d' : Data} {nx : RecvNext}
    (hs : (g.edge e).attr.type.isStream) (hpc : c.loc.pc = .read i e) (hd : c.loc.dest e = 0)
    (htag : c.data.nextTag e = 0)
    (h : (c.data.read g e (min (g.edge e).attr.nrConsume (g.edge e).attr.nrProduce + 1) ans).map
      (afterTagged g n c.loc i e) = some (d', nx)) :
    FillEffect g n skips c ans (c.after d' nx) ∧ Puts g c ans (c.after d' nx) := by
  obtain ⟨⟨res, d₁⟩, hread, hafter⟩ := Option.map_eq_some_iff.mp h
  rcases read_cases hs hread with
    ⟨ha, rfl, rfl⟩ | ⟨ha, rfl, rfl⟩ | ⟨ha, rfl, rfl⟩ | ⟨k, hk, hkn, hkl, rfl, rfl, rfl⟩
  · exact noBytes_fill hpc (Or.inl ⟨ha, rfl⟩) hafter
  · exact noBytes_fill hpc (Or.inr (Or.inl ⟨ha, rfl⟩)) hafter
  · exact noBytes_fill hpc (Or.inr (Or.inr ⟨ha, rfl⟩)) hafter
  obtain ⟨tag, bs, htake, hlen, hhead⟩ := take_pos hk hkl
  have hput : c.put? (.bytes k) =
      some ⟨e, c.loc.dest e, bs.length, isNormal tag && !isTerminate tag⟩ := by
    simp only [Call.put?, hpc, hd, htag, and_self, if_true, hhead]
    rw [← hlen, Nat.add_sub_cancel]
  have hfit : c.loc.dest e + bs.length ≤ (g.edge e).attr.nrConsume := by omega
  have hends := endsTurn_bytes k htag hhead
  rw [htake] at hafter
  simp only [afterTagged] at hafter
  split at hafter
  · rename_i hterm
    cases hafter
    refine ⟨.ended i e hpc (hends.mpr hterm) rfl rfl rfl, .some _ bs hput rfl hfit rfl ?_⟩
    simp [hterm, Call.after, Recv.at]
  rename_i hterm
  have hnot : ¬ EndsTurn c e (.bytes k) := fun he => hterm (hends.mp he)
  split at hafter
  · rename_i hnorm
    cases hafter
    refine ⟨.failed i e hpc (by simp) hnot ?_ rfl, .some _ bs hput rfl hfit rfl ?_⟩
    · simpa [Call.after] using recvOut_error_ne g n _
    · have hfalse : isNormal tag = false := by simpa using hnorm
      simp [hfalse, Call.after]
  rename_i hnorm
  have htrue : (isNormal tag && !isTerminate tag) = true := by
    simp only [Bool.not_eq_true', Bool.not_eq_false] at hnorm
    simp [hnorm, hterm]
  rw [htrue] at hput
  split at hafter
  · cases hafter
    exact ⟨.more i e bs.length hpc (by simp) hnot rfl (Or.inl hput) (by omega) rfl rfl,
      .some _ bs hput rfl hfit rfl rfl⟩
  · cases hafter
    exact ⟨.full i e bs.length hpc (by simp) hnot rfl hput (by omega) rfl rfl,
      .some _ bs hput rfl hfit rfl rfl⟩

theorem afterPayload_fill {i e : Nat} {d' : Data} {nx : RecvNext}
    (hs : (g.edge e).attr.type.isStream) (hpc : c.loc.pc = .read i e)
    (hd : c.loc.dest e < (g.edge e).attr.nrConsume) (htag : c.data.nextTag e ≠ 0)
    (h : (c.data.read g e (min ((g.edge e).attr.nrConsume - c.loc.dest e) (c.data.nextTag e))
      ans).map (afterPayload g n c.loc i e) = some (d', nx)) :
    FillEffect g n skips c ans (c.after d' nx) ∧ Puts g c ans (c.after d' nx) := by
  obtain ⟨⟨res, d₁⟩, hread, hafter⟩ := Option.map_eq_some_iff.mp h
  rcases read_cases hs hread with
    ⟨ha, rfl, rfl⟩ | ⟨ha, rfl, rfl⟩ | ⟨ha, rfl, rfl⟩ | ⟨k, hk, hkn, hkl, rfl, rfl, rfl⟩
  · exact noBytes_fill hpc (Or.inl ⟨ha, rfl⟩) hafter
  · exact noBytes_fill hpc (Or.inr (Or.inl ⟨ha, rfl⟩)) hafter
  · exact noBytes_fill hpc (Or.inr (Or.inr ⟨ha, rfl⟩)) hafter
  obtain ⟨b, bs, htake, hlen, -⟩ := take_pos hk hkl
  have hput : c.put? (.bytes k) = some ⟨e, c.loc.dest e, k, true⟩ := by
    simp [Call.put?, hpc, htag]
  have hfit : c.loc.dest e + k ≤ (g.edge e).attr.nrConsume := by omega
  have hnot : ¬ EndsTurn c e (.bytes k) := by simp [EndsTurn, htag]
  rw [htake] at hafter
  simp only [afterPayload, hlen] at hafter
  split at hafter
  · cases hafter
    refine ⟨.more i e k hpc (by simp) hnot rfl (Or.inl hput) (by omega) ?_ rfl,
      .some _ (b :: bs) hput hlen hfit rfl rfl⟩
    simp only [Call.after, Recv.at, Recv.advance, List.length_cons, hlen]
  · cases hafter
    exact ⟨.full i e k hpc (by simp) hnot rfl hput (by omega) rfl rfl,
      .some _ (b :: bs) hput hlen hfit rfl rfl⟩

theorem afterTag_fill {i e : Nat} {d' : Data} {nx : RecvNext}
    (hs : (g.edge e).attr.type.isStream) (hpc : c.loc.pc = .read i e)
    (hd : c.loc.dest e < (g.edge e).attr.nrConsume) (hne : c.loc.dest e ≠ 0)
    (htag : c.data.nextTag e = 0)
    (h : (c.data.read g e 1 ans).map (afterTag g n c.loc i e) = some (d', nx)) :
    FillEffect g n skips c ans (c.after d' nx) ∧ Puts g c ans (c.after d' nx) := by
  obtain ⟨⟨res, d₁⟩, hread, hafter⟩ := Option.map_eq_some_iff.mp h
  rcases read_cases hs hread with
    ⟨ha, rfl, rfl⟩ | ⟨ha, rfl, rfl⟩ | ⟨ha, rfl, rfl⟩ | ⟨k, hk, hkn, hkl, rfl, rfl, rfl⟩
  · exact noBytes_fill hpc (Or.inl ⟨ha, rfl⟩) hafter
  · exact noBytes_fill hpc (Or.inr (Or.inl ⟨ha, rfl⟩)) hafter
  · exact noBytes_fill hpc (Or.inr (Or.inr ⟨ha, rfl⟩)) hafter
  obtain ⟨tag, bs, htake, hlen, hhead⟩ := take_pos hk hkl
  have hput : c.put? (.bytes k) = none := by simp [Call.put?, hpc, htag, hne]
  have hends := endsTurn_bytes k htag hhead
  rw [htake] at hafter
  simp only [afterTag] at hafter
  split at hafter
  · rename_i hterm
    cases hafter
    exact ⟨.ended i e hpc (hends.mpr hterm) rfl rfl rfl, .none hput rfl rfl⟩
  rename_i hterm
  have hnot : ¬ EndsTurn c e (.bytes k) := fun he => hterm (hends.mp he)
  split at hafter
  · cases hafter
    refine ⟨.failed i e hpc (by simp) hnot ?_ rfl, .none hput rfl rfl⟩
    simpa [Call.after] using recvOut_error_ne g n _
  · cases hafter
    refine ⟨.more i e 0 hpc (by simp) hnot rfl (Or.inr ⟨hput, rfl⟩) hd ?_ rfl,
      .none hput rfl rfl⟩
    simp [Call.after, Recv.at]

/-- **One step of a call** on streams of any content. -/
theorem callStep_fill (hstd : StdNode g n) (hp : Placed g n skips c.loc.pc)
    (hshort : ∀ j e, Active g n skips j e → c.loc.dest e < (g.edge e).attr.nrConsume)
    (h : callStep g n skips c ans = some c') :
    FillEffect g n skips c ans c' ∧ Puts g c ans c' := by
  obtain ⟨hret, d, nx, hmove, rfl⟩ := callStep_move h
  have hnone : (∀ i e, c.loc.pc ≠ .read i e) → c.put? ans = none := by
    intro hpc
    cases hput : c.put? ans with
    | none => rfl
    | some p =>
      obtain ⟨⟨i, hread⟩, -⟩ := put?_some hput
      exact absurd hread (hpc i p.edge)
  cases hmove with
  | selecting err err' m hpc =>
    exact ⟨.quiet (by simp [hpc]) rfl
      (fun j e _ => by simp [Call.after, Call.pos, RecvPc.pos, hpc]) (by rintro ⟨⟩),
      .none (hnone (by simp [hpc])) rfl rfl⟩
  | selected hpc =>
    exact ⟨.quiet (by simp [hpc]) rfl (fun j e _ => by simp [Call.pos, RecvPc.pos, hpc]) (by rintro ⟨⟩),
      .none (hnone (by simp [hpc])) rfl rfl⟩
  | pass i e hpc hi hn =>
    refine ⟨.quiet (by simp [hpc]) rfl (fun j e' ha => ?_) (by rintro ⟨⟩),
      .none (hnone (by simp [hpc])) rfl rfl⟩
    have hne : j ≠ i := by
      rintro rfl
      obtain rfl : e = e' := Option.some.inj (hi.symm.trans ha.1)
      exact hn ha
    simp only [after_at, Call.pos, RecvPc.pos, hpc]
    omega
  | enter i e hpc ha hr =>
    exact ⟨.quiet (by simp [hpc]) rfl (fun j e' _ => by simp [Call.pos, RecvPc.pos, hpc]) (by rintro ⟨⟩),
      .none (hnone (by simp [hpc])) rfl rfl⟩
  | selectFailed hpc =>
    refine ⟨.quiet (by simp [hpc]) rfl (fun j e _ => Iff.rfl) (fun hr => ?_),
      .none (hnone (by simp [hpc])) rfl rfl⟩
    exact absurd (Option.some.inj hr) (recvOut_error_ne g n c.data)
  | out i hpc hi =>
    refine ⟨.quiet (by simp [hpc]) rfl (fun j e _ => Iff.rfl) (fun _ j e ha => ?_),
      .none (hnone (by simp [hpc])) rfl rfl⟩
    have hlen := List.getElem?_eq_none_iff.mp hi
    obtain ⟨hlt, -⟩ := List.getElem?_eq_some_iff.mp ha.1
    simp only [Call.after, Call.pos, RecvPc.pos, hpc]
    omega
  | ringCmd i e hpc ha hr => rw [hstd.not_ring ha] at hr; cases hr
  | ringStop i e hpc | ringMore i e hpc | ringRead i e x q hpc => rw [hpc] at hp; exact hp.elim
  | read i e d nx hpc hread =>
    have hact : Active g n skips i e := by rw [hpc] at hp; exact hp
    have hs := hstd e hact.mem hact.2.1
    have hd := hshort i e hact
    simp only [readStep] at hread
    split at hread
    · rename_i hfirst
      exact afterTagged_fill hs hpc (by omega) hfirst.2 hread
    · rename_i hfirst
      split at hread
      · rename_i htag
        exact afterPayload_fill hs hpc hd htag hread
      · rename_i htag
        have htag : c.data.nextTag e = 0 := not_not.mp htag
        exact afterTag_fill hs hpc hd (fun h0 => hfirst ⟨by omega, htag⟩) htag hread

/-! ## Marks -/

variable {m m' : Marked}

/-- The marks of other edges, and those in front of the destination pointer, stay. -/
theorem next_same {e o : Nat}
    (h : (∀ i, m.call.loc.pc ≠ .read i e) ∨ o < m.call.loc.dest e) :
    m.next ans e o = m.fresh e o := by
  cases hput : m.call.put? ans with
  | none => simp only [Marked.next, hput]
  | some p =>
    obtain ⟨⟨i, hpc⟩, hoff⟩ := put?_some hput
    simp only [Marked.next, hput, Put.mark]
    refine if_neg (fun hin => ?_)
    obtain ⟨rfl, hle, -⟩ := hin
    rcases h with h | h
    · exact h i hpc
    · omega

theorem next_quiet (hpc : ∀ i e, m.call.loc.pc ≠ .read i e) : m.next ans = m.fresh := by
  funext e o
  exact next_same (Or.inl (fun i => hpc i e))

theorem next_other {i e e' : Nat} (hpc : m.call.loc.pc = .read i e) (hne : e' ≠ e) :
    m.next ans e' = m.fresh e' := by
  funext o
  refine next_same (Or.inl (fun i' hpc' => hne ?_))
  exact (RecvPc.read.inj (hpc'.symm.trans hpc)).2

/-- A payload read at the destination pointer extends what is filled. -/
theorem next_front {e len : Nat} (hfront : ∀ o < m.call.loc.dest e, m.fresh e o = true)
    (hput : m.call.put? ans = some ⟨e, m.call.loc.dest e, len, true⟩) :
    ∀ o < m.call.loc.dest e + len, m.next ans e o = true := by
  intro o ho
  simp only [Marked.next, hput, Put.mark, true_and]
  split
  · rfl
  · exact hfront o (by omega)

structure Filling (g : Graph) (n : Nat) (skips : Nat → Nat) (m : Marked) : Prop where
  placed : Placed g n skips m.call.loc.pc
  short : ∀ j e, Active g n skips j e → m.call.loc.dest e < (g.edge e).attr.nrConsume
  front : ∀ j e, Active g n skips j e → ∀ o < m.call.loc.dest e, m.fresh e o = true
  finished : m.call.ret = some .success → ∀ j e, Active g n skips j e → j < m.call.pos

/-- An edge has had its turn, and its buffer is not filled. -/
def Unfilled (g : Graph) (n : Nat) (skips : Nat → Nat) (m : Marked) : Prop :=
  ∃ j e, Active g n skips j e ∧ j < m.call.pos ∧ ¬ Filled g m.fresh e

theorem markedStep_cases (h : markedStep g n skips m ans = some m') :
    callStep g n skips m.call ans = some m'.call ∧ m'.fresh = m.next ans := by
  obtain ⟨c, hc, rfl⟩ := Option.map_eq_some_iff.mp h
  exact ⟨hc, rfl⟩

theorem Filling.effect (h : Filling g n skips m) (hstd : StdNode g n)
    (hs : markedStep g n skips m ans = some m') :
    FillEffect g n skips m.call ans m'.call ∧ m'.fresh = m.next ans := by
  obtain ⟨hc, hfresh⟩ := markedStep_cases hs
  exact ⟨(callStep_fill hstd h.placed h.short hc).1, hfresh⟩

theorem Filling.active (h : Filling g n skips m) {i e : Nat} (hpc : m.call.loc.pc = .read i e) :
    Active g n skips i e := by
  have := h.placed
  rwa [hpc] at this

theorem markedStep_filling (h : Filling g n skips m) (hstd : StdNode g n)
    (hs : markedStep g n skips m ans = some m') : Filling g n skips m' := by
  have hplaced := callStep_placed hstd h.placed (markedStep_cases hs).1
  obtain ⟨heff, hfresh⟩ := h.effect hstd hs
  have hkeep : m'.call.loc.dest = m.call.loc.dest →
      (∀ j e, Active g n skips j e → m'.call.loc.dest e < (g.edge e).attr.nrConsume) ∧
      ∀ j e, Active g n skips j e → ∀ o < m'.call.loc.dest e, m'.fresh e o = true := by
    intro hdest
    rw [hdest, hfresh]
    exact ⟨h.short, fun j e ha o ho => (next_same (Or.inr ho)).trans (h.front j e ha o ho)⟩
  cases heff with
  | quiet hpc hdest hpos hret => exact ⟨hplaced, (hkeep hdest).1, (hkeep hdest).2, hret⟩
  | blocked i e hpc ha hret hdest | ended i e hpc hend hret hdest
  | full i e len hpc ha hend hret hput hlen hdest =>
    refine ⟨hplaced, (hkeep hdest).1, (hkeep hdest).2, fun hr => ?_⟩
    rw [hret] at hr
    cases hr
  | failed i e hpc ha hend hret hloc =>
    have hdest : m'.call.loc.dest = m.call.loc.dest := by rw [hloc]
    exact ⟨hplaced, (hkeep hdest).1, (hkeep hdest).2, fun hr => absurd hr hret⟩
  | more i e len hpc ha hend hret hput hlen hdest hpos =>
    refine ⟨hplaced, ?_, ?_, fun hr => ?_⟩
    · intro j e' hact
      rw [hdest, Function.update_apply]
      split
      · rename_i he
        subst he
        exact hlen
      · exact h.short j e' hact
    · intro j e' hact o ho
      rw [hdest, Function.update_apply] at ho
      rw [hfresh]
      split at ho
      · rename_i he
        subst he
        rcases hput with hput | ⟨hput, rfl⟩
        · exact next_front (h.front j e' hact) hput o ho
        · exact (next_same (Or.inr (by omega))).trans (h.front j e' hact o (by omega))
      · exact (next_same (Or.inr ho)).trans (h.front j e' hact o ho)
    · rw [hret] at hr
      cases hr

/-- The turn of an edge that is not filled makes a debt. -/
theorem markedStep_endsShort (h : Filling g n skips m) (hstd : StdNode g n)
    (hs : markedStep g n skips m ans = some m') (hp : EndsShort g m ans) :
    Unfilled g n skips m' := by
  obtain ⟨heff, hfresh⟩ := h.effect hstd hs
  obtain ⟨i, e, hpc, hend, hnot⟩ := hp
  have hsame : ∀ i' e', m.call.loc.pc = .read i' e' → i' = i ∧ e' = e := fun i' e' hpc' =>
    RecvPc.read.inj (hpc'.symm.trans hpc)
  cases heff with
  | quiet hquiet => exact absurd hpc (hquiet i e)
  | blocked i' e' _ ha =>
    subst ha
    rcases hend with hend | ⟨k, hend, -⟩ <;> cases hend
  | ended i' e' hpc' _ hret hdest hpos =>
    obtain ⟨rfl, rfl⟩ := hsame i' e' hpc'
    exact ⟨i', e', h.active hpc, by omega, by rw [hfresh]; exact hnot⟩
  | more i' e' len hpc' ha hend' | full i' e' len hpc' ha hend' | failed i' e' hpc' ha hend' =>
    obtain ⟨rfl, rfl⟩ := hsame i' e' hpc'
    exact absurd hend hend'

theorem markedStep_wouldBlock (h : Filling g n skips m) (hstd : StdNode g n)
    (hs : markedStep g n skips m ans = some m') (hq : WouldBlock m ans) :
    ¬ Unfilled g n skips m' := by
  obtain ⟨heff, -⟩ := h.effect hstd hs
  obtain ⟨rfl, i, e, hpc⟩ := hq
  cases heff with
  | quiet hquiet => exact absurd hpc (hquiet i e)
  | blocked _ _ _ _ _ _ hpos =>
    rintro ⟨j, e', -, hj, -⟩
    omega
  | ended _ _ _ hend => rcases hend with hend | ⟨k, hend, -⟩ <;> cases hend
  | more _ _ _ _ ha | full _ _ _ _ ha | failed _ _ _ ha => exact absurd rfl ha

/-- Other steps neither make a debt nor pay one. -/
theorem markedStep_unfilled (h : Filling g n skips m) (hstd : StdNode g n)
    (hs : markedStep g n skips m ans = some m') (hp : ¬ EndsShort g m ans)
    (hq : ¬ WouldBlock m ans) : Unfilled g n skips m' ↔ Unfilled g n skips m := by
  obtain ⟨heff, hfresh⟩ := h.effect hstd hs
  -- it is enough to look at each edge that has had its turn before or after the step
  have hiff : (∀ j e, Active g n skips j e →
      ((j < m'.call.pos ∧ ¬ Filled g m'.fresh e) ↔ (j < m.call.pos ∧ ¬ Filled g m.fresh e))) →
      (Unfilled g n skips m' ↔ Unfilled g n skips m) := by
    intro hall
    refine exists_congr (fun j => exists_congr (fun e => ?_))
    exact and_congr_right (hall j e)
  have hother : ∀ {i e j e' : Nat}, m.call.loc.pc = .read i e → Active g n skips j e' → j ≠ i →
      (Filled g m'.fresh e' ↔ Filled g m.fresh e') := by
    intro i e j e' hpc ha hne
    have he : e' ≠ e := by
      rintro rfl
      exact hne (ha.inj (h.active hpc))
    unfold Filled
    rw [hfresh, next_other hpc he]
  have hat : ∀ {i e : Nat}, m.call.loc.pc = .read i e → m.call.pos = i := by
    intro i e hpc
    simp [Call.pos, RecvPc.pos, hpc]
  have hpass : ∀ {i e : Nat}, m.call.loc.pc = .read i e → m'.call.pos = i + 1 →
      Filled g m'.fresh e → (Unfilled g n skips m' ↔ Unfilled g n skips m) := by
    intro i e hpc hpos hfill
    refine hiff (fun j e' ha => ?_)
    rw [hpos, hat hpc]
    by_cases hj : j = i
    · subst hj
      obtain rfl : e' = e := Option.some.inj (ha.1.symm.trans (h.active hpc).1)
      simp [hfill]
    · rw [hother hpc ha hj]
      exact and_congr_left (fun _ => by omega)
  have hstay : ∀ {i e : Nat}, m.call.loc.pc = .read i e → m'.call.pos = i →
      (Unfilled g n skips m' ↔ Unfilled g n skips m) := by
    intro i e hpc hpos
    refine hiff (fun j e' ha => ?_)
    rw [hpos, hat hpc]
    exact and_congr_right (fun hj => not_congr (hother hpc ha hj.ne))
  cases heff with
  | quiet hpc hdest hpos =>
    refine hiff (fun j e ha => ?_)
    rw [hfresh, next_quiet hpc, hpos j e ha]
  | blocked i e hpc ha => exact absurd ⟨ha, i, e, hpc⟩ hq
  | ended i e hpc hend hret hdest hpos =>
    refine hpass hpc hpos ?_
    rw [hfresh]
    by_contra hnot
    exact hp ⟨i, e, hpc, hend, hnot⟩
  | full i e len hpc ha hend hret hput hlen hdest hpos =>
    refine hpass hpc hpos ?_
    intro o ho
    rw [hfresh]
    exact next_front (h.front i e (h.active hpc)) hput o (by omega)
  | more i e len hpc ha hend hret hput hlen hdest hpos => exact hstay hpc hpos
  | failed i e hpc ha hend hret hloc => exact hstay hpc (by rw [Call.pos, hloc]; exact hat hpc)

theorem markedStart_filling (d : Data) : Filling g n skips (markedStart g n skips d) := by
  refine ⟨?_, fun j e ha => ?_, fun j e ha o ho => ?_, fun hret j e ha => ?_⟩
  · rw [markedStart, callStart_pc]
    trivial
  · obtain ⟨r, hc, -, hdest, -⟩ := callStart_active ha d
    rw [markedStart, hc]
    simpa [hdest] using (g.edge e).accepted.consume_pos
  · obtain ⟨r, hc, -, hdest, -⟩ := callStart_active ha d
    simp [markedStart, hc, hdest] at ho
  · obtain ⟨r, hc, -⟩ := callStart_active ha d
    rw [markedStart, hc] at hret
    cases hret

theorem store_getElem? {buf bs : List UInt8} {off : Nat} (h : off + bs.length ≤ buf.length)
    (o : Nat) : (store buf off bs)[o]? =
      if off ≤ o ∧ o < off + bs.length then bs[o - off]? else buf[o]? := by
  have hlen : (buf.take off).length = off := by
    rw [List.length_take]
    omega
  unfold store
  rw [List.append_assoc]
  split
  · rename_i ho
    rw [List.getElem?_append_right (by omega), hlen, List.getElem?_append_left (by omega)]
  · rename_i ho
    by_cases hlt : o < off
    · rw [List.getElem?_append_left (by omega), List.getElem?_take, if_pos hlt]
    · rw [List.getElem?_append_right (by omega), hlen, List.getElem?_append_right (by omega),
        List.getElem?_drop]
      congr 1
      omega

/-- The marked bytes of a buffer are payload that the call has taken. -/
structure Sourced (g : Graph) (n : Nat) (m : Marked) : Prop where
  size : ∀ e ∈ g.inEdges n, (m.call.data.bufIn e).length = (g.edge e).attr.nrConsume
  taken : ∀ e ∈ g.inEdges n, ∀ o, m.fresh e o = true →
    ∃ b ∈ m.call.loc.taken e, (m.call.data.bufIn e)[o]? = some b

theorem markedStep_sourced (h : Filling g n skips m) (hx : Sourced g n m) (hstd : StdNode g n)
    (hs : markedStep g n skips m ans = some m') : Sourced g n m' := by
  obtain ⟨hc, hfresh⟩ := markedStep_cases hs
  cases (callStep_fill hstd h.placed h.short hc).2 with
  | none hput hbuf htaken =>
    have hnext : m'.fresh = m.fresh := by
      rw [hfresh]
      simp only [Marked.next, hput]
    refine ⟨?_, ?_⟩
    · rw [hbuf]
      exact hx.size
    · rw [hbuf, htaken, hnext]
      exact hx.taken
  | some p bs hput hlen hfit hbuf htaken =>
    obtain ⟨⟨i, hpc⟩, -⟩ := put?_some hput
    have hmem : p.edge ∈ g.inEdges n := (h.active hpc).mem
    have hroom : p.off + bs.length ≤ (m.call.data.bufIn p.edge).length := by
      rw [hx.size p.edge hmem, hlen]
      exact hfit
    -- what was taken before is still counted
    have hsub : ∀ e, ∀ b ∈ m.call.loc.taken e, b ∈ m'.call.loc.taken e := by
      intro e b hb
      rw [htaken]
      split
      · rw [Function.update_apply]
        split
        · rename_i he
          exact List.mem_append_left _ (he ▸ hb)
        · exact hb
      · exact hb
    constructor
    · intro e he
      rw [hbuf, Function.update_apply]
      split
      · rename_i hep
        rw [store_length hroom, hep]
        exact hx.size p.edge hmem
      · exact hx.size e he
    · intro e he o ho
      rw [hfresh] at ho
      simp only [Marked.next, hput, Put.mark] at ho
      rw [hbuf, Function.update_apply]
      split
      · rename_i hep
        subst hep
        rw [store_getElem? hroom, hlen]
        split
        · rename_i hin
          rw [if_pos ⟨rfl, hin⟩] at ho
          refine ⟨bs[o - p.off], ?_, List.getElem?_eq_getElem (by omega)⟩
          rw [htaken, if_pos ho, Function.update_self]
          exact List.mem_append_right _ (List.getElem_mem _)
        · rename_i hout
          rw [if_neg (fun hin => hout hin.2)] at ho
          obtain ⟨b, hb, hget⟩ := hx.taken p.edge he o ho
          exact ⟨b, hsub _ b hb, hget⟩
      · rename_i hep
        rw [if_neg (fun hin => hep hin.1)] at ho
        obtain ⟨b, hb, hget⟩ := hx.taken e he o ho
        exact ⟨b, hsub _ b hb, hget⟩

/-- In every state of a call, the marked bytes of a buffer are payload that this call has read from
the edge. -/
theorem fresh_taken {d : Data} {as : List Answer} (hstd : StdNode g n)
    (hbuf : ∀ e ∈ g.inEdges n, (d.bufIn e).length = (g.edge e).attr.nrConsume)
    (hrun : Lts.run (markedStep g n skips) (markedStart g n skips d) as = some m) :
    ∀ e ∈ g.inEdges n, ∀ o, m.fresh e o = true →
      ∃ b ∈ m.call.loc.taken e, (m.call.data.bufIn e)[o]? = some b := by
  have hdata : (callStart g n skips d).data = d := by
    unfold callStart
    split <;> rfl
  have hstart : Sourced g n (markedStart g n skips d) :=
    ⟨by rw [markedStart, hdata]; exact hbuf, nofun⟩
  have hend : Filling g n skips m ∧ Sourced g n m := Lts.run_inv (P := fun _ _ => True)
    (I := fun m => Filling g n skips m ∧ Sourced g n m)
    (fun _ _ _ hi _ hs => ⟨markedStep_filling hi.1 hstd hs, markedStep_sourced hi.1 hi.2 hstd hs⟩)
    ⟨markedStart_filling d, hstart⟩ hrun
    (Lts.meets_of_forall (p := fun _ => True) (fun _ _ => trivial))
  exact hend.2.taken

/-- **Complete receives.** Let a call on FIFO and socket edges succeed, with any bytes on the
streams and any answers to its reads. It has filled the buffer of every edge that it was to read with
payload of this call exactly when every read that reports the end of the file or finds a terminate
tag, on an edge whose buffer is not filled by then, comes before a read that would block and so
sends the call back to the edge. -/
theorem receive_complete_iff {d : Data} {as : List Answer} (hstd : StdNode g n)
    (hrun : Lts.run (markedStep g n skips) (markedStart g n skips d) as = some m)
    (hret : m.call.ret = some .success) :
    (∀ e ∈ g.inEdges n, (g.edge e).isDataPassing = true → skips e = 0 → Filled g m.fresh e) ↔
      Lts.Followed (markedStep g n skips) (EndsShort g) WouldBlock (markedStart g n skips d) as := by
  have hstart : Filling g n skips (markedStart g n skips d) := markedStart_filling d
  have hend : Filling g n skips m := Lts.run_inv (P := fun _ _ => True)
    (fun _ _ _ hi _ hs => markedStep_filling hi hstd hs) hstart hrun
    (Lts.meets_of_forall (p := fun _ => True) (fun _ _ => trivial))
  have hdebt := Lts.followed_iff (P := EndsShort g) (Q := WouldBlock)
    (I := Filling g n skips) (D := Unfilled g n skips)
    (fun _ _ _ hi hs => markedStep_filling hi hstd hs)
    (fun _ _ _ hi hs hp => markedStep_endsShort hi hstd hs hp)
    (fun _ _ _ hi hs hq => markedStep_wouldBlock hi hstd hs hq)
    (fun _ _ _ hi hs hp hq => markedStep_unfilled hi hstd hs hp hq) hstart hrun
  have hnone : ¬ Unfilled g n skips (markedStart g n skips d) := by
    rintro ⟨j, e, -, hj, -⟩
    simp [markedStart, Call.pos, callStart_pc, RecvPc.pos] at hj
  rw [← hdebt.trans (and_iff_right (fun hs => absurd hs hnone))]
  constructor
  · rintro hall ⟨j, e, ha, -, hnot⟩
    exact hnot (hall e ha.mem ha.2.1 ha.2.2)
  · intro hno e he hdp hsk
    obtain ⟨j, hj⟩ := List.mem_iff_getElem?.mp he
    have ha : Active g n skips j e := ⟨hj, hdp, hsk⟩
    by_contra hnot
    exact hno ⟨j, e, ha, hend.finished hret j e ha, hnot⟩

end

/-! ## A producer that ends before the other -/

/-- Node 0 has terminated; node 1 has sent what node 2 needs from it. -/
def endedData : Data :=
  { joinData with
    stream := fun e => if e = 0 then [pgmTerminate] else [pgmNormal, 30, pgmNormal, 40] }

def endedAnswers (first : Answer) : List Answer :=
  [.ready 3, .go, .go, first, .go, .bytes 2, .bytes 1, .bytes 1, .go]

/-- The call succeeds without a byte of edge 0, whether it reads the terminate tag or the end of the
file. -/
theorem stale_buffer_fired : 0 ∈ joinGraph.inEdges 2 ∧ (joinGraph.edge 0).isDataPassing = true ∧
    ∀ first ∈ [Answer.bytes 1, .eof],
      (Lts.run (markedStep joinGraph 2 noSkips) (markedStart joinGraph 2 noSkips endedData)
          (endedAnswers first)).map
        (fun m => (m.call.ret, decide (Filled joinGraph m.fresh 0), m.call.data.bufIn 0)) =
      some (some .success, false, [0]) := by decide

/-- The first read of edge 1 would block, and by the second turn of edge 0 there is a writer
again. -/
def reopenedAnswers : List Answer :=
  [.ready 3, .go, .go, .eof, .go, .eagain, .ready 3, .go, .go, .bytes 2, .go, .bytes 2, .bytes 1,
    .bytes 1, .go]

theorem receive_complete_reopened :
    ∃ m, Lts.run (markedStep joinGraph 2 noSkips) (markedStart joinGraph 2 noSkips joinData)
        reopenedAnswers = some m ∧ m.call.ret = some .success ∧
      Lts.Followed (markedStep joinGraph 2 noSkips) (EndsShort joinGraph) WouldBlock
        (markedStart joinGraph 2 noSkips joinData) reopenedAnswers := by
  have hd : (Lts.run (markedStep joinGraph 2 noSkips) (markedStart joinGraph 2 noSkips joinData)
      reopenedAnswers).map (fun m => (m.call.ret,
        decide (∀ e ∈ joinGraph.inEdges 2, Filled joinGraph m.fresh e))) =
      some (some .success, true) := by decide
  obtain ⟨m, hrun, hm⟩ := Option.map_eq_some_iff.mp hd
  obtain ⟨hret, hfill⟩ := Prod.mk.inj hm
  exact ⟨m, hrun, hret, (receive_complete_iff joinGraph_std hrun hret).mp
    (fun e he _ _ => of_decide_eq_true hfill e he)⟩

end Pgm
