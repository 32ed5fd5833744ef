import Mathlib.Logic.Function.Basic
import Pgm.Lib.Circular
import Pgm.Lib.Lts
import Pgm.Lib.Word
import Pgm.RingBuf

/-!
# One writer and one reader on a ring

`step` interleaves the memory accesses of one thread that repeats
`write_vec_ring` with those of one thread that repeats `read_vec_ring`;
`write_ring` and `read_ring` make the same accesses, with the copy as one
assignment.

* `Inv`: how `nfree`, the slot flags and the two indices agree at every access;
* `ring_refines_fifo_iff`: when the completed writes and the values copied out
  are the operations of a bounded FIFO queue.
-/

namespace Pgm.Spsc

open Circular RingBuf

/-! ## One writer, one reader -/

/-- The next memory access of the writer. `off` is the offset of the member
that `__begin_write_ring` returned. -/
inductive WriterPc where
  /-- Between two writes. -/
  | idle
  /-- `__begin_write_ring`: read `nfree`. -/
  | begin (v : Elem)
  /-- `__begin_write_ring`: `widx++`. -/
  | slot (v : Elem)
  /-- The copy of `v`, with `k` bytes written. -/
  | copy (v : Elem) (off k : Nat)
  /-- `__end_write_ring`: `slots[idx] = SLOT_READY`. -/
  | ready (v : Elem) (off : Nat)
  /-- `__end_write_ring`: `__sync_fetch_and_sub(&r->nfree, 1)`. -/
  | count (v : Elem)

/-- The next memory access of the reader. -/
inductive ReaderPc where
  /-- `__begin_read_ring`: read `nfree`. -/
  | begin
  /-- `__begin_read_ring`: read the slot flag at `ridx`. -/
  | slot
  /-- The copy out of the ring, with the bytes `acc` read. -/
  | copy (off : Nat) (acc : Elem)
  /-- `__end_read_ring`: `slots[idx] = SLOT_FREE`. -/
  | free (off : Nat)
  /-- `__end_read_ring`: `ridx++`. -/
  | bump
  /-- `__end_read_ring`: `__sync_fetch_and_add(&r->nfree, 1)`. -/
  | count

/-- The shared ring, the two threads, the log of completed writes and of values
copied out, and whether a thread was outside of the block. -/
structure State where
  ring : Ring
  w : WriterPc
  r : ReaderPc
  log : List (Fifo.Op Elem)
  overrun : Bool

/-- The values committed by the writer, oldest first. -/
def State.committed (s : State) : List Elem := Fifo.pushes s.log

/-- The values copied out by the reader, oldest first. -/
def State.out (s : State) : List Elem := Fifo.pops s.log

inductive Act where
  /-- The writer is given its next value. -/
  | put (v : Elem)
  /-- The next access of the writer. -/
  | writer
  /-- The next access of the reader. -/
  | reader

/-- What happens outside of the block is not defined: the thread stays there. -/
def State.wild (s : State) : State := { s with overrun := true }

def writerStep (s : State) : Option State :=
  match s.w with
  | .idle => none
  | .begin v => if s.ring.nfree = 0 then some s else some { s with w := .slot v }
  | .slot v =>
    some { s with
      ring := { s.ring with widx := Word.add 64 s.ring.widx 1 }
      w := .copy v (s.ring.offset s.ring.widx) 0 }
  | .copy v off k =>
    match v[k]? with
    | some x =>
      if off + k < s.ring.bytes then
        some { s with
          ring := { s.ring with buf := Function.update s.ring.buf (off + k) x }
          w := .copy v off (k + 1) }
      else some s.wild
    | none => some { s with w := .ready v off }
  | .ready v off =>
    some { s with
      ring := { s.ring with slots := Function.update s.ring.slots (off / s.ring.membSz) .ready }
      w := .count v }
  | .count v =>
    some { s with
      ring := { s.ring with nfree := Word.sub 64 s.ring.nfree 1 }
      w := .idle
      log := s.log ++ [.push v] }

def readerStep (s : State) : Option State :=
  match s.r with
  | .begin => if s.ring.nfree = s.ring.nmemb then some s else some { s with r := .slot }
  | .slot =>
    if s.ring.slots (s.ring.ridx % s.ring.nmemb) = .ready then
      some { s with r := .copy (s.ring.offset s.ring.ridx) [] }
    else some { s with r := .begin }
  | .copy off acc =>
    if acc.length < s.ring.membSz then
      if off + acc.length < s.ring.bytes then
        some { s with r := .copy off (acc ++ [s.ring.buf (off + acc.length)]) }
      else some s.wild
    else some { s with r := .free off, log := s.log ++ [.pop acc] }
  | .free off =>
    some { s with
      ring := { s.ring with slots := Function.update s.ring.slots (off / s.ring.membSz) .free }
      r := .bump }
  | .bump =>
    some { s with ring := { s.ring with ridx := Word.add 64 s.ring.ridx 1 }, r := .count }
  | .count =>
    some { s with ring := { s.ring with nfree := Word.add 64 s.ring.nfree 1 }, r := .begin }

/-- One access of one of the two threads. A value handed to the writer has the
size of a member. -/
def step (s : State) : Act → Option State
  | .put v =>
    match s.w with
    | .idle => if v.length = s.ring.membSz then some { s with w := .begin v } else none
    | _ => none
  | .writer => writerStep s
  | .reader => readerStep s

def start (r : Ring) : State := ⟨r, .idle, .begin, [], false⟩

/-! ## The counters of the two threads

The number of members claimed, marked, freed and released differ from the
number of completed writes and reads by at most one, depending on where each
thread is. -/

/-- The writer has seen a free slot that it has not counted yet. -/
def WriterPc.wants : WriterPc → Nat
  | .slot _ | .copy _ _ _ | .ready _ _ | .count _ => 1
  | .idle | .begin _ => 0

/-- The writer has moved `widx` past a slot that it has not counted yet. -/
def WriterPc.claimed : WriterPc → Nat
  | .copy _ _ _ | .ready _ _ | .count _ => 1
  | .idle | .begin _ | .slot _ => 0

def WriterPc.marked : WriterPc → Nat
  | .count _ => 1
  | _ => 0

/-- The reader has copied a value out whose slot flag it has not reset yet. -/
def ReaderPc.unfreed : ReaderPc → Nat
  | .free _ => 1
  | _ => 0

/-- The reader has copied a value out without having moved `ridx` yet. -/
def ReaderPc.unbumped : ReaderPc → Nat
  | .free _ | .bump => 1
  | _ => 0

/-- The reader has copied a value out without having counted its slot yet. -/
def ReaderPc.unreleased : ReaderPc → Nat
  | .free _ | .bump | .count => 1
  | _ => 0

/-- The number of members given back to the writer. -/
def State.released (s : State) : Nat := s.out.length - s.r.unreleased

def Stored (buf : Nat → UInt8) (off : Nat) (v : Elem) : Prop :=
  ∀ b x, v[b]? = some x → buf (off + b) = x

def WriterOk (r : Ring) (n : Nat) : WriterPc → Prop
  | .idle => True
  | .begin v | .slot v => v.length = r.membSz
  | .copy v off k => v.length = r.membSz ∧ off = Ring.offset r n ∧ Stored r.buf off (v.take k)
  | .ready v off => v.length = r.membSz ∧ off = Ring.offset r n ∧ Stored r.buf off v
  | .count v => v.length = r.membSz ∧ Stored r.buf (Ring.offset r n) v

/-- What the reader knows at each access, with `n` values copied out. -/
def ReaderOk (r : Ring) (committed : List Elem) (n : Nat) : ReaderPc → Prop
  | .begin => True
  | .slot => n < committed.length
  | .copy off acc => off = Ring.offset r n ∧ ∃ v, committed[n]? = some v ∧ acc <+: v
  | .free off => 0 < n ∧ off = Ring.offset r (n - 1)
  | .bump | .count => 0 < n

structure Inv (s : State) : Prop where
  pow : ∃ k, k ≤ 63 ∧ s.ring.nmemb = 2 ^ k
  fits : Fits s.ring.nmemb s.ring.membSz s.ring.bytes
  inside : s.overrun = false
  lens : ∀ v ∈ s.committed, v.length = s.ring.membSz
  fifo : Fifo.exec s.ring.nmemb [] s.log = some (s.committed.drop s.out.length)
  nfree : s.ring.nfree + s.committed.length = s.ring.nmemb + s.released
  room : s.committed.length + s.w.wants ≤ s.released + s.ring.nmemb
  widx : s.ring.widx = (s.committed.length + s.w.claimed) % 2 ^ 64
  ridx : s.ring.ridx = (s.out.length - s.r.unbumped) % 2 ^ 64
  slots : ∀ j, s.ring.slots j = .ready ↔ Occupied s.ring.nmemb
    (s.out.length - s.r.unfreed) (s.committed.length + s.w.marked) j
  data : ∀ i v, s.out.length ≤ i → s.committed[i]? = some v →
    Stored s.ring.buf (Ring.offset s.ring i) v
  writer : WriterOk s.ring s.committed.length s.w
  reader : ReaderOk s.ring s.committed s.out.length s.r

/-! ## One access keeps the invariant -/

theorem committed_mk (r : Ring) (w : WriterPc) (rd : ReaderPc) (log : List (Fifo.Op Elem))
    (o : Bool) : State.committed ⟨r, w, rd, log, o⟩ = Fifo.pushes log := rfl

theorem out_mk (r : Ring) (w : WriterPc) (rd : ReaderPc) (log : List (Fifo.Op Elem)) (o : Bool) :
    State.out ⟨r, w, rd, log, o⟩ = Fifo.pops log := rfl

theorem Inv.out_le {s : State} (h : Inv s) : s.out.length ≤ s.committed.length := by
  have hq := congrArg List.length (Fifo.pushes_eq h.fifo)
  simp only [List.nil_append, List.length_append] at hq
  change s.committed.length = s.out.length + _ at hq
  omega

theorem released_le (s : State) :
    s.released ≤ s.out.length ∧ s.out.length ≤ s.released + 1 := by
  unfold State.released
  cases s.r <;> simp [ReaderPc.unreleased] <;> omega

theorem Inv.nmemb_dvd {s : State} (h : Inv s) : s.ring.nmemb ∣ 2 ^ 64 := by
  obtain ⟨k, hk, he⟩ := h.pow
  rw [he]
  exact Nat.pow_dvd_pow 2 (by omega)

theorem Inv.nmemb_le {s : State} (h : Inv s) : s.ring.nmemb ≤ 2 ^ 63 := by
  obtain ⟨k, hk, he⟩ := h.pow
  rw [he]
  exact Nat.pow_le_pow_right (by omega) hk

/-- A free-running index picks the same slot before and after it wraps. -/
theorem Inv.mod_slot {s : State} (h : Inv s) (n : Nat) :
    n % 2 ^ 64 % s.ring.nmemb = n % s.ring.nmemb := Nat.mod_mod_of_dvd n h.nmemb_dvd

theorem Inv.offset_wrap {s : State} (h : Inv s) (n : Nat) :
    s.ring.offset (n % 2 ^ 64) = s.ring.offset n := by
  unfold Ring.offset
  rw [h.mod_slot]

/-- A byte of another slot does not disturb a stored member, or a part of it. -/
theorem Stored.update {r : Ring} {v : Elem} {i n b : Nat} {x : UInt8}
    (hr : Fits r.nmemb r.membSz r.bytes)
    (hv : v.length ≤ r.membSz) (hb : b < r.membSz) (hne : i % r.nmemb ≠ n % r.nmemb)
    (h : Stored r.buf (Ring.offset r i) v) :
    Stored (Function.update r.buf (Ring.offset r n + b) x) (Ring.offset r i) v := by
  intro c y hc
  have hcl : c < r.membSz := (List.getElem?_eq_some_iff.mp hc).1.trans_le hv
  have hoff : Ring.offset r i + c ≠ Ring.offset r n + b := by
    rw [hr.offset_eq, hr.offset_eq]
    exact fun he => hne (cell_eq_of_offset_eq hcl hb he)
  rw [Function.update_of_ne hoff]
  exact h c y hc

theorem Stored.snoc {buf : Nat → UInt8} {off k : Nat} {v : Elem} {x : UInt8}
    (hx : v[k]? = some x) (h : Stored buf off (v.take k)) :
    Stored (Function.update buf (off + k) x) off (v.take (k + 1)) := by
  intro b y hy
  rw [List.getElem?_take] at hy
  split at hy
  · by_cases hb : b = k
    · subst hb
      rw [Function.update_self]
      exact Option.some.inj (hx.symm.trans hy)
    · rw [Function.update_of_ne (by omega)]
      exact h b y (by rw [List.getElem?_take, if_pos (by omega)]; exact hy)
  · cases hy

theorem Stored.read_snoc {buf : Nat → UInt8} {off : Nat} {v acc : Elem} (h : Stored buf off v)
    (hpre : acc <+: v) (hlt : acc.length < v.length) :
    acc ++ [buf (off + acc.length)] <+: v := by
  obtain ⟨rest, rfl⟩ := hpre
  cases rest with
  | nil => simp at hlt
  | cons x rest =>
    have hx : buf (off + acc.length) = x := h acc.length x (by simp)
    exact ⟨rest, by simp [hx]⟩

theorem ReaderOk.append {r : Ring} {c : List Elem} {n : Nat} {pc : ReaderPc} (v : Elem)
    (h : ReaderOk r c n pc) : ReaderOk r (c ++ [v]) n pc := by
  cases pc with
  | slot => simp only [ReaderOk, List.length_append, List.length_singleton] at h ⊢; omega
  | copy off acc =>
    obtain ⟨ho, u, hu, ha⟩ := h
    have hl := (List.getElem?_eq_some_iff.mp hu).1
    exact ⟨ho, u, by rw [List.getElem?_append_left hl]; exact hu, ha⟩
  | begin => trivial
  | free off => exact h
  | bump => exact h
  | count => exact h

/-- The slot the writer works on holds no member that is still to be read. -/
theorem Inv.claim_free {s : State} (h : Inv s) (hw : s.w.wants = 1) {i : Nat}
    (hi : s.released ≤ i) (hlt : i < s.committed.length) :
    i % s.ring.nmemb ≠ s.committed.length % s.ring.nmemb := by
  have hr := h.room
  intro he
  exact not_occupied_next (N := s.ring.nmemb) (f := s.released) (by omega) ⟨i, hi, hlt, he⟩

/-- A stored and marked member is counted, and is now there for the reader. -/
theorem Inv.commit {s : State} (h : Inv s) {v : Elem} (hw : s.w = .count v) :
    Inv { s with
      ring := { s.ring with nfree := Word.sub 64 s.ring.nfree 1 }
      w := .idle
      log := s.log ++ [.push v] } := by
  have hroom := h.room
  have hwidx := h.widx
  have hslots := h.slots
  have hok := h.writer
  have hrel := released_le s
  have hout := h.out_le
  rw [hw] at hok hroom hwidx hslots
  obtain ⟨hlen, hst⟩ := hok
  have hN := h.nmemb_le
  have hnfree := h.nfree
  change s.committed.length + 1 ≤ s.released + s.ring.nmemb at hroom
  have hc : Fifo.pushes (s.log ++ [.push v]) = s.committed ++ [v] := by
    simp [Fifo.pushes, State.committed]
  have ho : Fifo.pops (s.log ++ [.push v]) = s.out := by simp [Fifo.pops, State.out]
  have hsub : Word.sub 64 s.ring.nfree 1 = s.ring.nfree - 1 :=
    Word.sub_of_le (by omega)
  rw [hsub]
  refine
    { pow := h.pow, fits := h.fits, inside := h.inside, lens := ?_, fifo := ?_, nfree := ?_, room := ?_
      widx := ?_, ridx := ?_, slots := ?_, data := ?_, writer := ?_, reader := ?_ } <;>
    simp only [committed_mk, out_mk, State.released, hc, ho, List.length_append,
      List.length_singleton, WriterPc.wants, WriterPc.claimed, WriterPc.marked, WriterOk,
      Nat.add_zero]
  · intro u hu
    rcases List.mem_append.mp hu with hu | hu
    · exact h.lens u hu
    · rw [List.mem_singleton.mp hu]; exact hlen
  · exact Fifo.exec_push v h.fifo hout (by omega)
  · change _ = s.ring.nmemb + s.released
    omega
  · exact hroom
  · exact hwidx
  · exact h.ridx
  · exact hslots
  · intro i u hi hu
    by_cases hil : i < s.committed.length
    · rw [List.getElem?_append_left hil] at hu
      exact h.data i u hi hu
    · have hie : i = s.committed.length := by
        have := (List.getElem?_eq_some_iff.mp hu).1
        simp only [List.length_append, List.length_singleton] at this
        omega
      subst hie
      rw [List.getElem?_concat_length] at hu
      cases hu
      exact hst
  · exact h.reader.append v

/-- The writer's accesses keep the invariant: it stores into a slot outside the
window of unread members, marks it, and only then counts it. -/
theorem writerStep_inv {s t : State} (h : Inv s) (hs : writerStep s = some t) : Inv t := by
  have hroom := h.room
  have hwidx := h.widx
  have hslots := h.slots
  have hok := h.writer
  have hrel := released_le s
  have hout := h.out_le
  unfold writerStep at hs
  cases hw : s.w with
  | idle => simp [hw] at hs
  | begin v =>
    rw [hw] at hok hroom hwidx hslots
    simp only [hw] at hs
    split at hs
    · cases hs; exact h
    · rename_i hf
      cases hs
      have hnfree := h.nfree
      refine { h with room := ?_, widx := hwidx, slots := hslots, writer := hok }
      change s.committed.length + 1 ≤ s.released + s.ring.nmemb
      omega
  | slot v =>
    rw [hw] at hok hroom hwidx hslots
    simp only [hw] at hs
    cases hs
    refine { h with room := hroom, widx := ?_, slots := hslots, writer := ⟨hok, ?_, ?_⟩ }
    · change Word.add 64 s.ring.widx 1 = (s.committed.length + 1) % 2 ^ 64
      rw [hwidx, Word.add, Nat.mod_add_mod]
      rfl
    · rw [hwidx, h.offset_wrap]
      rfl
    · intro b x hb
      simp at hb
  | copy v off k =>
    rw [hw] at hok hroom hwidx hslots
    simp only [hw] at hs
    obtain ⟨hlen, rfl, hst⟩ := hok
    cases hx : v[k]? with
    | some x =>
      have hk : k < v.length := (List.getElem?_eq_some_iff.mp hx).1
      simp only [hx, if_pos (h.fits.offset_add_lt _ (hlen ▸ hk))] at hs
      cases hs
      refine { h with
        room := hroom, widx := hwidx, slots := hslots, data := ?_
        writer := ⟨hlen, rfl, hst.snoc hx⟩ }
      intro i u hi hu
      change s.out.length ≤ i at hi
      have hil : i < s.committed.length := (List.getElem?_eq_some_iff.mp hu).1
      have hne := h.claim_free (by rw [hw]; rfl) (by omega : s.released ≤ i) hil
      exact (h.data i u hi hu).update h.fits (h.lens u (List.mem_of_getElem? hu)).le (by omega) hne
    | none =>
      have hk : v.length ≤ k := List.getElem?_eq_none_iff.mp hx
      simp only [hx] at hs
      cases hs
      rw [List.take_of_length_le hk] at hst
      exact { h with
        room := hroom, widx := hwidx, slots := hslots, writer := ⟨hlen, rfl, hst⟩ }
  | ready v off =>
    rw [hw] at hok hroom hwidx hslots
    simp only [hw] at hs
    cases hs
    obtain ⟨hlen, rfl, hst⟩ := hok
    refine { h with room := hroom, widx := hwidx, slots := ?_, writer := ⟨hlen, hst⟩ }
    intro j
    change Function.update s.ring.slots _ _ j = _ ↔
      Occupied _ (s.out.length - s.r.unfreed) (s.committed.length + 1) j
    rw [h.fits.offset_div, occupied_push (by omega), Function.update_apply]
    by_cases he : j = s.committed.length % s.ring.nmemb
    · simp [he]
    · simp only [he, if_false, or_false]
      exact hslots j
  | count v =>
    simp only [hw] at hs
    cases hs
    exact h.commit hw

/-- The reader moves on without touching the ring. -/
theorem Inv.goto_reader {s : State} (h : Inv s) {q : ReaderPc}
    (hrel : q.unreleased = s.r.unreleased) (hbump : q.unbumped = s.r.unbumped)
    (hfreed : q.unfreed = s.r.unfreed) (hok : ReaderOk s.ring s.committed s.out.length q) :
    Inv { s with r := q } := by
  have hreleased : State.released { s with r := q } = s.released :=
    congrArg (s.out.length - ·) hrel
  refine { h with nfree := ?_, room := ?_, ridx := ?_, slots := ?_, reader := hok }
  · rw [hreleased]
    exact h.nfree
  · rw [hreleased]
    exact h.room
  · rw [hbump]
    exact h.ridx
  · rw [hfreed]
    exact h.slots

/-- The last byte has been read: the oldest value is copied out. -/
theorem Inv.copyOut {s : State} (h : Inv s) {off : Nat} {v : Elem} (hr : s.r = .copy off v)
    (hv : s.committed[s.out.length]? = some v) :
    Inv { s with r := .free (Ring.offset s.ring s.out.length), log := s.log ++ [.pop v] } := by
  have hnfree := h.nfree
  have hroom := h.room
  have hridx := h.ridx
  have hslots := h.slots
  unfold State.released at hnfree hroom
  rw [hr] at hnfree hroom hridx hslots
  have hlt : s.out.length < s.committed.length := (List.getElem?_eq_some_iff.mp hv).1
  have hc : Fifo.pushes (s.log ++ [.pop v]) = s.committed := by
    simp [Fifo.pushes, State.committed]
  have ho : Fifo.pops (s.log ++ [.pop v]) = s.out ++ [v] := by simp [Fifo.pops, State.out]
  refine
    { pow := h.pow, fits := h.fits, inside := h.inside, lens := ?_, fifo := ?_, nfree := ?_, room := ?_
      widx := ?_, ridx := ?_, slots := ?_, data := ?_, writer := ?_, reader := ⟨?_, ?_⟩ } <;>
    simp only [committed_mk, out_mk, State.released, hc, ho, List.length_append,
      List.length_singleton, ReaderPc.unreleased, ReaderPc.unbumped, ReaderPc.unfreed,
      Nat.add_sub_cancel]
  · exact h.lens
  · exact Fifo.exec_pop h.fifo hv
  · exact hnfree
  · exact hroom
  · exact h.widx
  · exact hridx
  · exact hslots
  · intro i u hi hu
    exact h.data i u (by omega) hu
  · exact h.writer
  · omega

/-- The slot of the value copied out last is freed. -/
theorem Inv.free {s : State} (h : Inv s) {off : Nat} (hr : s.r = .free off) :
    Inv { s with
      ring := { s.ring with slots := Function.update s.ring.slots (off / s.ring.membSz) .free }
      r := .bump } := by
  have hnfree := h.nfree
  have hroom := h.room
  have hridx := h.ridx
  have hslots := h.slots
  have hok := h.reader
  unfold State.released at hnfree hroom
  rw [hr] at hok hnfree hroom hridx hslots
  obtain ⟨hpos, rfl⟩ := hok
  refine { h with nfree := hnfree, room := hroom, ridx := hridx, slots := ?_, reader := hpos }
  intro j
  have hmark : s.w.marked ≤ s.w.wants := by cases s.w <;> simp [WriterPc.marked, WriterPc.wants]
  have hpop := occupied_pop (N := s.ring.nmemb) (f := s.out.length - 1)
    (y := s.committed.length + s.w.marked) (j := j)
    (by simp only [ReaderPc.unreleased] at hroom; omega)
  rw [show s.out.length - 1 + 1 = s.out.length by omega] at hpop
  change Function.update s.ring.slots _ _ j = _ ↔
    Occupied _ s.out.length (s.committed.length + s.w.marked) j
  rw [h.fits.offset_div, hpop, Function.update_apply]
  by_cases he : j = (s.out.length - 1) % s.ring.nmemb
  · simp [he]
  · simp only [he, if_false, ne_eq, not_false_eq_true, and_true]
    exact hslots j

/-- The reader's accesses keep the invariant: it copies the oldest committed
member, resets its flag, and only then gives the slot back. -/
theorem readerStep_inv {s t : State} (h : Inv s) (hs : readerStep s = some t) : Inv t := by
  have hnfree := h.nfree
  have hroom := h.room
  have hridx := h.ridx
  have hslots := h.slots
  have hok := h.reader
  have hout := h.out_le
  unfold State.released at hnfree hroom
  unfold readerStep at hs
  cases hr : s.r with
  | begin =>
    rw [hr] at hnfree
    simp only [hr] at hs
    split at hs
    · cases hs; exact h
    · rename_i hf
      cases hs
      refine h.goto_reader (by rw [hr]; rfl) (by rw [hr]; rfl) (by rw [hr]; rfl) ?_
      change s.out.length < s.committed.length
      simp only [ReaderPc.unreleased] at hnfree
      omega
  | slot =>
    rw [hr] at hok hridx
    simp only [hr] at hs
    split at hs
    · cases hs
      refine h.goto_reader (by rw [hr]; rfl) (by rw [hr]; rfl) (by rw [hr]; rfl)
        ⟨?_, s.committed[s.out.length], List.getElem?_eq_getElem hok, List.nil_prefix⟩
      rw [hridx, h.offset_wrap]
      rfl
    · cases hs
      exact h.goto_reader (by rw [hr]; rfl) (by rw [hr]; rfl) (by rw [hr]; rfl) trivial
  | copy off acc =>
    rw [hr] at hok
    simp only [hr] at hs
    obtain ⟨rfl, v, hv, hpre⟩ := hok
    have hlen : v.length = s.ring.membSz := h.lens v (List.mem_of_getElem? hv)
    split at hs
    · rename_i hlt
      rw [if_pos (h.fits.offset_add_lt _ hlt)] at hs
      cases hs
      refine h.goto_reader (by rw [hr]; rfl) (by rw [hr]; rfl) (by rw [hr]; rfl)
        ⟨rfl, v, hv, ?_⟩
      exact (h.data _ _ (Nat.le_refl _) hv).read_snoc hpre (by omega)
    · rename_i hge
      cases hs
      obtain rfl : acc = v := hpre.eq_of_length_le (by omega)
      exact h.copyOut hr hv
  | free off =>
    simp only [hr] at hs
    cases hs
    exact h.free hr
  | bump =>
    rw [hr] at hok hnfree hroom hridx hslots
    simp only [hr] at hs
    cases hs
    refine { h with nfree := hnfree, room := hroom, ridx := ?_, slots := hslots, reader := hok }
    change Word.add 64 s.ring.ridx 1 = s.out.length % 2 ^ 64
    change 0 < s.out.length at hok
    rw [hridx, Word.add, Nat.mod_add_mod]
    congr 1
    simp only [ReaderPc.unbumped]
    omega
  | count =>
    rw [hr] at hok hnfree hroom hridx hslots
    simp only [hr] at hs
    cases hs
    have hN := h.nmemb_le
    change 0 < s.out.length at hok
    simp only [ReaderPc.unreleased] at hnfree hroom
    refine { h with nfree := ?_, room := ?_, ridx := hridx, slots := hslots, reader := trivial }
    · change Word.add 64 s.ring.nfree 1 + s.committed.length = s.ring.nmemb + s.out.length
      rw [Word.add_of_lt (by omega)]
      omega
    · change s.committed.length + s.w.wants ≤ s.out.length + s.ring.nmemb
      omega

theorem step_inv {s t : State} {a : Act} (h : Inv s) (hs : step s a = some t) : Inv t := by
  cases a with
  | put v =>
    simp only [step] at hs
    split at hs
    · rename_i hw
      split at hs
      · rename_i hv
        cases hs
        have hroom := h.room
        have hwidx := h.widx
        have hslots := h.slots
        rw [hw] at hroom hwidx hslots
        exact { h with room := hroom, widx := hwidx, slots := hslots, writer := hv }
      · cases hs
    · cases hs
  | writer => exact writerStep_inv h hs
  | reader => exact readerStep_inv h hs

theorem initRing_fits {junk : Nat → UInt8} {m sz : Nat} {r : Ring}
    (hr : initRing junk m sz = some r) (hfit : ringCount m * sz < 2 ^ 64) :
    Fits r.nmemb r.membSz r.bytes := by
  unfold initRing at hr
  split at hr
  · cases hr
  · split at hr
    · cases hr
    · cases hr
      refine ⟨by simp only; omega, by simp only; omega, ?_, (Nat.mod_lt _ (by decide)).le⟩
      exact (Nat.mod_eq_of_lt hfit).ge

theorem start_inv {junk : Nat → UInt8} {m sz : Nat} {r : Ring} (hm : m ≤ 2 ^ 63)
    (hr : initRing junk m sz = some r) (hfit : ringCount m * sz < 2 ^ 64) : Inv (start r) := by
  have hfits := initRing_fits hr hfit
  unfold initRing at hr
  split at hr
  · cases hr
  · split at hr
    · cases hr
    · obtain ⟨k, hk, he, -, -⟩ := ringCount_spec (m := m) (by omega) hm
      cases hr
      exact
        { pow := ⟨k, hk, he⟩, fits := hfits, inside := rfl
          lens := by simp [start, State.committed, Fifo.pushes]
          fifo := rfl, nfree := rfl, room := Nat.zero_le _, widx := rfl, ridx := rfl
          slots := fun j => by
            simpa [start, State.committed, State.out, Fifo.pushes, Fifo.pops, WriterPc.marked,
              ReaderPc.unfreed] using not_occupied_empty (ringCount m) 0 j
          data := by intro i v _ hv; simp [start, State.committed, Fifo.pushes] at hv
          writer := trivial, reader := trivial }

/-- The accesses never change the shape of the ring. -/
theorem step_shape {s t : State} {a : Act} (hs : step s a = some t) :
    t.ring.nmemb = s.ring.nmemb ∧ t.ring.membSz = s.ring.membSz := by
  cases a with
  | put v =>
    simp only [step] at hs
    repeat' split at hs
    all_goals cases hs
    exact ⟨rfl, rfl⟩
  | writer =>
    simp only [step, writerStep] at hs
    repeat' split at hs
    all_goals cases hs
    all_goals exact ⟨rfl, rfl⟩
  | reader =>
    simp only [step, readerStep] at hs
    repeat' split at hs
    all_goals cases hs
    all_goals exact ⟨rfl, rfl⟩

/-! ## The refinement -/

/-- Every run of the two threads, at any memory access. -/
abbrev Reachable (r : Ring) (s : State) : Prop := Lts.Reach step (fun _ _ => True) (start r) s

/-- The member the writer holds, between `__begin_write_ring` and the end of
`__end_write_ring`. -/
def WriterPc.member? : WriterPc → Option Nat
  | .copy _ off _ | .ready _ off => some off
  | _ => none

/-- What a bounded FIFO queue would show of a ring `r` that was asked for `m`
members, when the two threads are in the state `s`. -/
structure Refines (m : Nat) (r : Ring) (s : State) : Prop where
  /-- There are as many places as the least power of two that is large enough. -/
  least : ∃ k, r.nmemb = 2 ^ k ∧ m ≤ 2 ^ k ∧ ∀ j, m ≤ 2 ^ j → k ≤ j
  /-- Committed values and values copied out are the pushes and pops of the queue. -/
  fifo : ∃ q, Fifo.exec r.nmemb [] s.log = some q ∧ s.committed = s.out ++ q
  ordered : s.out <+: s.committed
  /-- The writer holds no member that the reader has not released. -/
  apart : ∀ off, s.w.member? = some off → ∀ i, s.released ≤ i → i < s.committed.length →
    r.offset i ≠ off
  nfree : s.ring.nfree ≤ r.nmemb
  /-- No thread was outside of the block. -/
  inside : s.overrun = false

theorem Inv.refines {m : Nat} {r : Ring} {s : State} (h : Inv s) (hn : s.ring.nmemb = r.nmemb)
    (hz : s.ring.membSz = r.membSz)
    (hleast : ∃ k, r.nmemb = 2 ^ k ∧ m ≤ 2 ^ k ∧ ∀ j, m ≤ 2 ^ j → k ≤ j) : Refines m r s := by
  have hq := Fifo.pushes_eq h.fifo
  have hoffset : ∀ i, r.offset i = i % s.ring.nmemb * s.ring.membSz := by
    intro i
    rw [← h.fits.offset_eq, Ring.offset, Ring.offset, hn, hz]
  refine ⟨hleast, ⟨_, hn ▸ h.fifo, hq⟩, ⟨_, hq.symm⟩, ?_, ?_, h.inside⟩
  · intro off hoff i hi hlt he
    have hmem : s.w.wants = 1 ∧ off = s.ring.offset s.committed.length := by
      have hok := h.writer
      cases hw : s.w <;> rw [hw] at hok hoff <;> simp only [WriterPc.member?, Option.some.injEq,
        reduceCtorEq] at hoff
      · exact ⟨rfl, hoff ▸ hok.2.1⟩
      · exact ⟨rfl, hoff ▸ hok.2.1⟩
    refine h.claim_free hmem.1 hi hlt (Nat.eq_of_mul_eq_mul_right h.fits.size ?_)
    rw [← hoffset, he, hmem.2, h.fits.offset_eq]
  · have hnf := h.nfree
    have hout := h.out_le
    have hrel := released_le s
    omega

/-! ## A block that is too small -/

/-- `i` members were written and none was read, and the writer has taken `w` of
them from `widx`. -/
structure Filled (r : Ring) (i w : Nat) (s : State) : Prop where
  nmemb : s.ring.nmemb = r.nmemb
  membSz : s.ring.membSz = r.membSz
  bytes : s.ring.bytes = r.bytes
  nfree : s.ring.nfree = r.nmemb - i
  widx : s.ring.widx = w
  count : s.committed.length = i
  inside : s.overrun = false

theorem initRing_filled {junk : Nat → UInt8} {m sz : Nat} {r : Ring}
    (hr : initRing junk m sz = some r) : Filled r 0 0 (start r) := by
  unfold initRing at hr
  repeat' split at hr
  all_goals cases hr
  exact ⟨rfl, rfl, rfl, rfl, rfl, rfl, rfl⟩

section

variable {r : Ring} {i w : Nat} {s : State}

theorem Filled.copy {v : Elem} {off k : Nat} (j : Nat) (hs : Reachable r s) (h : Filled r i w s)
    (hw : s.w = .copy v off k) (hv : k + j ≤ v.length) (hin : off + (k + j) ≤ r.bytes) :
    ∃ t, Reachable r t ∧ Filled r i w t ∧ t.w = .copy v off (k + j) := by
  induction j with
  | zero => exact ⟨s, hs, h, hw⟩
  | succ j ih =>
    obtain ⟨t, ht, hf, htw⟩ := ih (by omega) (by omega)
    have hx : v[k + j]? = some v[k + j] := List.getElem?_eq_getElem (by omega)
    have hlt : off + (k + j) < t.ring.bytes := by
      rw [hf.bytes]
      omega
    have hstep : step t .writer = some { t with
        ring := { t.ring with buf := Function.update t.ring.buf (off + (k + j)) v[k + j] }
        w := .copy v off (k + j + 1) } := by
      simp only [step, writerStep, htw, hx, if_pos hlt]
    exact ⟨_, ht.next trivial hstep,
      ⟨hf.nmemb, hf.membSz, hf.bytes, hf.nfree, hf.widx, hf.count, hf.inside⟩, rfl⟩

theorem Filled.claim {v : Elem} (hs : Reachable r s) (h : Filled r i i s) (hw : s.w = .idle)
    (hv : v.length = r.membSz) (hi : i < r.nmemb) (hN : r.nmemb ≤ 2 ^ 63) :
    ∃ t, Reachable r t ∧ Filled r i (i + 1) t ∧ t.w = .copy v (r.offset i) 0 := by
  have hlen : v.length = s.ring.membSz := hv.trans h.membSz.symm
  have hfree : s.ring.nfree ≠ 0 := by
    rw [h.nfree]
    omega
  have hput : step s (.put v) = some { s with w := .begin v } := by
    simp only [step, hw, if_pos hlen]
  have hbegin : step { s with w := .begin v } .writer = some { s with w := .slot v } :=
    if_neg hfree
  have hslot := ((hs.next trivial hput).next trivial hbegin).next trivial (a := .writer) rfl
  refine ⟨_, hslot, ⟨h.nmemb, h.membSz, h.bytes, h.nfree, ?_, h.count, h.inside⟩, ?_⟩
  · change Word.add 64 s.ring.widx 1 = i + 1
    rw [h.widx, Word.add_of_lt (by omega)]
  · change WriterPc.copy v (Ring.offset s.ring s.ring.widx) 0 = _
    rw [h.widx, Ring.offset, Ring.offset, h.nmemb, h.membSz]

/-- One more member is written, if it lies in the block. -/
theorem Filled.next (hs : Reachable r s) (h : Filled r i i s) (hw : s.w = .idle) (hi : i < r.nmemb)
    (hN : r.nmemb ≤ 2 ^ 63) (hin : r.offset i + r.membSz ≤ r.bytes) :
    ∃ t, Reachable r t ∧ Filled r (i + 1) (i + 1) t ∧ t.w = .idle := by
  have hlen : (List.replicate r.membSz (0 : UInt8)).length = r.membSz := List.length_replicate
  obtain ⟨t, ht, hf, htw⟩ := h.claim hs hw hlen hi hN
  obtain ⟨u, hu, hfu, huw⟩ := hf.copy r.membSz ht htw (by omega) (by omega)
  have hend : (List.replicate r.membSz (0 : UInt8))[0 + r.membSz]? = none := by
    simp
  have hcopied : step u .writer = some { u with
      w := .ready (List.replicate r.membSz 0) (r.offset i) } := by
    simp only [step, writerStep, huw, hend]
  have hready := (hu.next trivial hcopied).next trivial (a := .writer) rfl
  have hcount := hready.next trivial (a := .writer) rfl
  refine ⟨_, hcount, ⟨hfu.nmemb, hfu.membSz, hfu.bytes, ?_, hfu.widx, ?_, hfu.inside⟩, rfl⟩
  · change Word.sub 64 u.ring.nfree 1 = r.nmemb - (i + 1)
    rw [hfu.nfree, Word.sub_of_le (by omega)]
    omega
  · rw [committed_mk, Fifo.pushes_append, List.length_append]
    exact congrArg (· + 1) hfu.count

/-- As many members are written as the block holds. -/
theorem filled_run (hr : Filled r 0 0 (start r)) (hN : r.nmemb ≤ 2 ^ 63) (hb : r.bytes < 2 ^ 64)
    (hsz : 0 < r.membSz) (hi : i ≤ r.nmemb) (hin : i * r.membSz ≤ r.bytes) :
    ∃ s, Reachable r s ∧ Filled r i i s ∧ s.w = .idle := by
  induction i with
  | zero => exact ⟨start r, .refl _, hr, rfl⟩
  | succ i ih =>
    rw [Nat.succ_mul] at hin
    obtain ⟨s, hs, hf, hw⟩ := ih (by omega) (by omega)
    have hoff : r.offset i = i * r.membSz := by
      rw [Ring.offset, Nat.mod_eq_of_lt (by omega)]
      exact Word.mul_of_lt (by omega)
    exact hf.next hs hw (by omega) hN (by omega)

/-- In a block that is too small the writer comes to its end. -/
theorem overrun_of_small (hr : Filled r 0 0 (start r)) (hN : r.nmemb ≤ 2 ^ 63)
    (hb : r.bytes < 2 ^ 64) (hsz : 0 < r.membSz) (hsmall : r.bytes < r.nmemb * r.membSz) :
    ∃ s, Reachable r s ∧ s.overrun = true := by
  have hdiv : r.bytes / r.membSz < r.nmemb := Nat.div_lt_of_lt_mul (Nat.mul_comm .. ▸ hsmall)
  have hle : r.bytes / r.membSz * r.membSz ≤ r.bytes := Nat.div_mul_le_self _ _
  have hrest : r.bytes < r.bytes / r.membSz * r.membSz + r.membSz := by
    rw [← Nat.succ_mul]
    exact Nat.lt_mul_of_div_lt (Nat.lt_succ_self _) hsz
  generalize r.bytes / r.membSz = i at hdiv hle hrest
  obtain ⟨s, hs, hf, hw⟩ := filled_run hr hN hb hsz hdiv.le hle
  have hoff : r.offset i = i * r.membSz := by
    rw [Ring.offset, Nat.mod_eq_of_lt hdiv]
    exact Word.mul_of_lt (by omega)
  have hlen : (List.replicate r.membSz (0 : UInt8)).length = r.membSz := List.length_replicate
  obtain ⟨t, ht, hft, htw⟩ := hf.claim hs hw hlen hdiv hN
  -- The copy of this member passes the last byte of the block.
  obtain ⟨u, hu, hfu, huw⟩ := hft.copy (r.bytes - i * r.membSz) ht htw (by omega) (by omega)
  have hx : (List.replicate r.membSz (0 : UInt8))[0 + (r.bytes - i * r.membSz)]? = some 0 := by
    rw [List.getElem?_replicate, if_pos (by omega)]
  have hout : ¬ r.offset i + (0 + (r.bytes - i * r.membSz)) < u.ring.bytes := by
    rw [hfu.bytes]
    omega
  have hwild : step u .writer = some u.wild := by
    simp only [step, writerStep, huw, hx, if_neg hout]
  exact ⟨u.wild, hu.next trivial hwild, rfl⟩

end

/-- **The ring is a bounded FIFO queue if its members fit.** For a ring that was
asked for `m ≤ 2 ^ 63` members of `sz` bytes, all interleavings of the accesses
of the two threads are those of a bounded FIFO queue exactly when there is a
power of two of members, at least `m`, whose bytes a word can count. -/
theorem ring_refines_fifo_iff (m sz : Nat) (hm : 1 ≤ m) (h63 : m ≤ 2 ^ 63) (hs : 1 ≤ sz)
    (_ : sz < 2 ^ 64) :
    (∀ junk r, initRing junk m sz = some r → ∀ s, Reachable r s → Refines m r s) ↔
      ∃ k, m ≤ 2 ^ k ∧ 2 ^ k * sz < 2 ^ 64 := by
  obtain ⟨k, hk, hcount, hle, hleast⟩ := ringCount_spec hm h63
  constructor
  · intro hall
    refine ⟨k, hle, ?_⟩
    by_contra hbig
    obtain ⟨r, hr⟩ := initRing_isSome (fun _ => 0) hm h63 hs
    obtain ⟨hn, hz, hbytes⟩ := initRing_eq_some hr
    have hb : r.bytes < 2 ^ 64 := hbytes ▸ Nat.mod_lt _ (by decide)
    have hN : r.nmemb ≤ 2 ^ 63 := by
      rw [hn, hcount]
      exact Nat.pow_le_pow_right (by omega) hk
    have hsmall : r.bytes < r.nmemb * r.membSz := by
      rw [hn, hz, hcount]
      omega
    obtain ⟨s, hreach, hover⟩ := overrun_of_small (initRing_filled hr) hN hb (hz ▸ hs) hsmall
    have hinside := (hall _ r hr s hreach).inside
    rw [hover] at hinside
    cases hinside
  · rintro ⟨j, hj, hfit⟩ junk r hr s hreach
    obtain ⟨hn, -, -⟩ := initRing_eq_some hr
    have hstart := start_inv h63 hr (ringCount_fits hm hs hj hfit).2
    have hI : Inv s ∧ s.ring.nmemb = r.nmemb ∧ s.ring.membSz = r.membSz := by
      refine Lts.Reach.inv (I := fun s => Inv s ∧ s.ring.nmemb = r.nmemb ∧
        s.ring.membSz = r.membSz) ⟨hstart, rfl, rfl⟩ ?_ hreach
      intro s a t _ hI _ hst
      obtain ⟨hn, hz⟩ := step_shape hst
      exact ⟨step_inv hI.1 hst, hn.trans hI.2.1, hz.trans hI.2.2⟩
    exact hI.1.refines hI.2.1 hI.2.2 ⟨k, hn.trans hcount, hle, hleast⟩

def sampleRing : Ring := ⟨4, 1, 4, 0, 0, fun _ => .free, 4, fun _ => 0⟩

/-- Six members pass through the four places of a ring that was asked for three: the writer
goes round once. -/
def sampleTrace : List Act :=
  (List.range 6).flatMap (fun i => .put [UInt8.ofNat i] :: List.replicate 6 .writer ++
    List.replicate 7 .reader)

theorem ring_refines_fifo_sample : ∃ s, Reachable sampleRing s ∧
    s.out = [[0], [1], [2], [3], [4], [5]] ∧ s.out <+: s.committed ∧ s.ring.nfree ≤ 4 ∧
    s.overrun = false := by
  have hr : initRing (fun _ => 0) 3 1 = some sampleRing := rfl
  have hd : (Lts.drive step (fun _ _ => true) (start sampleRing) sampleTrace).map State.out =
      some [[0], [1], [2], [3], [4], [5]] := by decide +kernel
  obtain ⟨s, hs, ho⟩ := Lts.reach_of_drive_map (P := fun _ _ => True) (fun _ _ _ => trivial) hd
  have h := (ring_refines_fifo_iff 3 1 (by decide) (by decide) (by decide) (by decide)).mpr
    ⟨2, by decide, by decide⟩ _ sampleRing hr s hs
  exact ⟨s, hs, ho, h.ordered, h.nfree, h.inside⟩

/-- A ring for `2 ^ 32` members of `2 ^ 32` bytes gets a block without bytes, and the writer is
outside of it with its first byte. -/
theorem first_write_overruns : ∃ r s, initRing (fun _ => 0) (2 ^ 32) (2 ^ 32) = some r ∧
    r.nmemb = 2 ^ 32 ∧ r.bytes = 0 ∧ Reachable r s ∧ s.committed = [] ∧ s.overrun = true ∧
    ¬ Refines (2 ^ 32) r s := by
  obtain ⟨r, hr⟩ : ∃ r, initRing (fun _ => 0) (2 ^ 32) (2 ^ 32) = some r :=
    initRing_isSome _ (by decide) (by decide) (by decide)
  obtain ⟨hn, hz, hbytes⟩ := initRing_eq_some hr
  have hcount : ringCount (2 ^ 32) = 2 ^ 32 := by decide +kernel
  rw [hcount] at hn
  have hnone : r.bytes = 0 := by
    rw [hbytes, hn]
    rfl
  have hlen : (List.replicate (2 ^ 32) (7 : UInt8)).length = r.membSz := by
    rw [List.length_replicate, hz]
  obtain ⟨s, hs, hf, hw⟩ := (initRing_filled hr).claim (Lts.Reach.refl _) rfl hlen (by omega)
    (by omega)
  have hx : (List.replicate (2 ^ 32) (7 : UInt8))[0]? = some 7 := by
    rw [List.getElem?_replicate, if_pos (by decide)]
  have hout : ¬ r.offset 0 + 0 < s.ring.bytes := by
    rw [hf.bytes, hnone]
    exact Nat.not_lt_zero _
  have hwild : step s .writer = some s.wild := by
    simp only [step, writerStep, hw, hx, if_neg hout]
  have hover : s.wild.overrun = true := rfl
  refine ⟨r, s.wild, hr, hn, hnone, hs.next trivial hwild, List.eq_nil_of_length_eq_zero hf.count,
    hover, fun h => ?_⟩
  exact absurd h.inside (by rw [hover]; decide)

end Pgm.Spsc
