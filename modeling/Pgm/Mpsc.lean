import Pgm.Lib.Threads
import Pgm.Spsc

/-!
# Many writers and one reader on a ring

`step` interleaves the memory accesses of any number of threads that repeat
`mwrite_vec_ring` with those of the reader of `Spsc`. A writer first takes a place from
`nfree` and gives it back if there was none, so that `nfree` may go below zero for a
while; it then takes a number from `widx`, copies, and marks its slot.

* `Inv`: what the counter, the indices, the slots and the writers agree on at every access;
* `ring_refines_queue`: the elements in the order of their numbers and the elements copied
  out are the operations of a bounded FIFO queue, and no two threads meet in a slot.
-/

namespace Pgm.Mpsc

open Circular RingBuf Spsc

/-- The next memory access of a writer. `off` is the offset of the member that
`__begin_mwrite_ring` returned. -/
inductive WriterPc where
  /-- Between two writes. -/
  | idle
  /-- `__begin_mwrite_ring`: read `nfree`. -/
  | begin (v : Elem)
  /-- `__begin_mwrite_ring`: `__sync_fetch_and_sub(&r->nfree, 1)`. -/
  | take (v : Elem)
  /-- `__begin_mwrite_ring`: there was no place, `__sync_fetch_and_add(&r->nfree, 1)`. -/
  | undo (v : Elem)
  /-- `__begin_mwrite_ring`: `__sync_fetch_and_add(&r->widx, 1)`. -/
  | slot (v : Elem)
  /-- The copy of `v`, with `k` bytes written. -/
  | copy (v : Elem) (off k : Nat)
  /-- `__end_mwrite_ring`: `slots[idx] = SLOT_READY`. -/
  | ready (v : Elem) (off : Nat)

/-- The shared ring, the threads, the log of reservations and of values copied out, and
whether a thread was outside of the block. `num i` is the number that writer `i` has taken
last. -/
structure State where
  ring : Ring
  w : Nat → WriterPc
  num : Nat → Nat
  r : ReaderPc
  log : List (Fifo.Op Elem)
  overrun : Bool

/-- The values to be written, in the order in which their places were reserved. -/
def State.reserved (s : State) : List Elem := Fifo.pushes s.log

/-- The values copied out by the reader, oldest first. -/
def State.out (s : State) : List Elem := Fifo.pops s.log

inductive Act where
  /-- Writer `i` is given its next value. -/
  | put (i : Nat) (v : Elem)
  /-- The next access of writer `i`. -/
  | writer (i : Nat)
  /-- The next access of the reader. -/
  | reader

def State.goto (s : State) (i : Nat) (p : WriterPc) : State :=
  { s with w := Function.update s.w i p }

def State.setNfree (s : State) (k : Nat) : State := { s with ring := { s.ring with nfree := k } }

def writerStep (s : State) (i : Nat) : Option State :=
  match s.w i with
  | .idle => none
  | .begin v => if s.ring.nfree = 0 then some s else some (s.goto i (.take v))
  | .take v =>
    some ((s.setNfree (Word.sub 64 s.ring.nfree 1)).goto i
      (if Word.signed 64 s.ring.nfree ≤ 0 then .undo v else .slot v))
  | .undo v => some ((s.setNfree (Word.add 64 s.ring.nfree 1)).goto i (.begin v))
  | .slot v =>
    some { s with
      ring := { s.ring with widx := Word.add 64 s.ring.widx 1 }
      w := Function.update s.w i (.copy v (s.ring.offset s.ring.widx) 0)
      num := Function.update s.num i s.reserved.length
      log := s.log ++ [.push v] }
  | .copy v off k =>
    match v[k]? with
    | some x =>
      if off + k < s.ring.bytes then
        some { s with
          ring := { s.ring with buf := Function.update s.ring.buf (off + k) x }
          w := Function.update s.w i (.copy v off (k + 1)) }
      else some { s with overrun := true }
    | none => some (s.goto i (.ready v off))
  | .ready _ off =>
    some { s with
      ring := { s.ring with slots := Function.update s.ring.slots (off / s.ring.membSz) .ready }
      w := Function.update s.w i .idle }

def readerStep (s : State) : Option State :=
  (Spsc.readerStep ⟨s.ring, .idle, s.r, s.log, s.overrun⟩).map
    (fun t => { s with ring := t.ring, r := t.r, log := t.log, overrun := t.overrun })

/-- One access of the reader or of one of `W` writers. -/
def step (W : Nat) (s : State) : Act → Option State
  | .put i v =>
    match s.w i with
    | .idle =>
      if i < W ∧ v.length = s.ring.membSz then some (s.goto i (.begin v)) else none
    | _ => none
  | .writer i => if i < W then writerStep s i else none
  | .reader => readerStep s

/-- The state after `__init_ring` with `count` members of `size` bytes in a block of `bytes`
bytes. -/
def start (junk : Nat → UInt8) (count size bytes : Nat) : State where
  ring := ⟨count, size, count, 0, 0, fun _ => .free, bytes, junk⟩
  w := fun _ => .idle
  num := fun _ => 0
  r := .begin
  log := []
  overrun := false

/-! ## What the threads agree on -/

/-- The writer has taken a place, but no number yet. -/
def WriterPc.slotting : WriterPc → Bool
  | .slot _ => true
  | _ => false

def WriterPc.undoing : WriterPc → Bool
  | .undo _ => true
  | _ => false

/-- The member the writer holds, between `__begin_mwrite_ring` and the end of
`__end_mwrite_ring`. -/
def WriterPc.member? : WriterPc → Option Nat
  | .copy _ off _ | .ready _ off => some off
  | _ => none

/-- The member with number `m` is still being written. -/
def InProgress (w : Nat → WriterPc) (num : Nat → Nat) (m : Nat) : Prop :=
  ∃ i, (w i).member?.isSome = true ∧ num i = m

/-- The number of members given back to the writers. -/
def State.released (s : State) : Nat := s.out.length - s.r.unreleased

/-- What a writer knows at each access; `n` is its number. -/
def WriterOk (r : Ring) (reserved : List Elem) (out n : Nat) : WriterPc → Prop
  | .idle => True
  | .begin v | .take v | .undo v | .slot v => v.length = r.membSz
  | .copy v off k => reserved[n]? = some v ∧ out ≤ n ∧ off = Ring.offset r n ∧
      Stored r.buf off (v.take k)
  | .ready v off => reserved[n]? = some v ∧ out ≤ n ∧ off = Ring.offset r n ∧ Stored r.buf off v

/-- What the reader knows at each access, with `n` values copied out. -/
def ReaderOk (r : Ring) (reserved : List Elem) (busy : Nat → Prop) (n : Nat) : ReaderPc → Prop
  | .begin | .slot => True
  | .copy off acc => off = Ring.offset r n ∧ ∃ v, reserved[n]? = some v ∧ acc <+: v ∧ ¬ busy n
  | .free off => 0 < n ∧ off = Ring.offset r (n - 1)
  | .bump | .count => 0 < n

structure Inv (W : Nat) (s : State) : Prop where
  pow : ∃ k, k ≤ 62 ∧ s.ring.nmemb = 2 ^ k
  fits : Fits s.ring.nmemb s.ring.membSz s.ring.bytes
  inside : s.overrun = false
  idle : ∀ i, W ≤ i → s.w i = .idle
  lens : ∀ v ∈ s.reserved, v.length = s.ring.membSz
  fifo : Fifo.exec s.ring.nmemb [] s.log = some (s.reserved.drop s.out.length)
  word : s.ring.nfree < 2 ^ 64
  nfree : (s.ring.nfree + (s.reserved.length + Threads.count W WriterPc.slotting s.w +
    Threads.count W WriterPc.undoing s.w)) % 2 ^ 64 = (s.ring.nmemb + s.released) % 2 ^ 64
  room : s.reserved.length + Threads.count W WriterPc.slotting s.w ≤ s.released + s.ring.nmemb
  widx : s.ring.widx = s.reserved.length % 2 ^ 64
  ridx : s.ring.ridx = (s.out.length - s.r.unbumped) % 2 ^ 64
  slots : ∀ j, s.ring.slots j = .ready ↔ ∃ m, s.out.length - s.r.unfreed ≤ m ∧
    m < s.reserved.length ∧ ¬ InProgress s.w s.num m ∧ m % s.ring.nmemb = j
  data : ∀ m v, s.out.length ≤ m → s.reserved[m]? = some v → ¬ InProgress s.w s.num m →
    Stored s.ring.buf (Ring.offset s.ring m) v
  writers : ∀ i, WriterOk s.ring s.reserved s.out.length (s.num i) (s.w i)
  distinct : ∀ i j, (s.w i).member?.isSome = true → (s.w j).member?.isSome = true →
    s.num i = s.num j → i = j
  reader : ReaderOk s.ring s.reserved (InProgress s.w s.num) s.out.length s.r

section

variable {W i m : Nat} {s t : State} {p : WriterPc}

theorem reserved_mk (r : Ring) (w : Nat → WriterPc) (n : Nat → Nat) (rd : ReaderPc)
    (log : List (Fifo.Op Elem)) (o : Bool) :
    State.reserved ⟨r, w, n, rd, log, o⟩ = Fifo.pushes log := rfl

theorem out_mk (r : Ring) (w : Nat → WriterPc) (n : Nat → Nat) (rd : ReaderPc)
    (log : List (Fifo.Op Elem)) (o : Bool) : State.out ⟨r, w, n, rd, log, o⟩ = Fifo.pops log := rfl

theorem Inv.out_le (h : Inv W s) : s.out.length ≤ s.reserved.length := by
  have hq := congrArg List.length (Fifo.pushes_eq h.fifo)
  simp only [List.nil_append, List.length_append] at hq
  change s.reserved.length = s.out.length + _ at hq
  omega

theorem released_le (s : State) : s.released ≤ s.out.length ∧ s.out.length ≤ s.released + 1 := by
  unfold State.released
  cases s.r <;> simp [ReaderPc.unreleased] <;> omega

theorem Inv.nmemb_dvd (h : Inv W s) : s.ring.nmemb ∣ 2 ^ 64 := by
  obtain ⟨k, hk, he⟩ := h.pow
  rw [he]
  exact Nat.pow_dvd_pow 2 (by omega)

theorem Inv.nmemb_lt (h : Inv W s) : s.ring.nmemb < 2 ^ 63 := by
  obtain ⟨k, hk, he⟩ := h.pow
  rw [he]
  exact Nat.pow_lt_pow_right (by omega) (by omega)

theorem Inv.offset_wrap (h : Inv W s) (n : Nat) : s.ring.offset (n % 2 ^ 64) = s.ring.offset n := by
  unfold Ring.offset
  rw [Nat.mod_mod_of_dvd _ h.nmemb_dvd]

/-- The writer's number is one of the window that is in use. -/
theorem Inv.holds (h : Inv W s) (hm : (s.w i).member?.isSome = true) :
    s.out.length ≤ s.num i ∧ s.num i < s.reserved.length ∧
      (s.w i).member? = some (Ring.offset s.ring (s.num i)) := by
  have hok := h.writers i
  cases hw : s.w i with
  | copy v off k =>
    rw [hw] at hok
    obtain ⟨hv, hle, rfl, -⟩ := hok
    exact ⟨hle, (List.getElem?_eq_some_iff.mp hv).1, rfl⟩
  | ready v off =>
    rw [hw] at hok
    obtain ⟨hv, hle, rfl, -⟩ := hok
    exact ⟨hle, (List.getElem?_eq_some_iff.mp hv).1, rfl⟩
  | _ => rw [hw] at hm; cases hm

/-- Members of the window lie in different slots. -/
theorem Inv.slot_inj (h : Inv W s) {a b : Nat} (ha : s.released ≤ a) (hb : s.released ≤ b)
    (ha' : a < s.reserved.length) (hb' : b < s.reserved.length)
    (he : a % s.ring.nmemb = b % s.ring.nmemb) : a = b := by
  have hroom := h.room
  rcases Nat.le_total a b with hab | hab
  · exact eq_of_mod_eq hab (by omega) he
  · exact (eq_of_mod_eq hab (by omega) he.symm).symm

/-! ## Frames -/

theorem member_update (h : p.member?.isSome = (s.w i).member?.isSome) (j : Nat) :
    (Function.update s.w i p j).member?.isSome = (s.w j).member?.isSome := by
  by_cases hj : j = i
  · subst hj
    rw [Function.update_self]
    exact h
  · rw [Function.update_of_ne hj]

theorem inProgress_update (h : p.member?.isSome = (s.w i).member?.isSome) :
    InProgress (Function.update s.w i p) s.num = InProgress s.w s.num := by
  funext m
  unfold InProgress
  simp only [member_update h]

theorem WriterOk.congr {r r' : Ring} {c : List Elem} {o n : Nat} (hn : r'.nmemb = r.nmemb)
    (hz : r'.membSz = r.membSz) (hb : r'.buf = r.buf) (h : WriterOk r c o n p) :
    WriterOk r' c o n p := by
  have hoff : Ring.offset r' n = Ring.offset r n := by
    unfold Ring.offset
    rw [hn, hz]
  cases p <;> simp only [WriterOk, hoff, hz, hb] at h ⊢ <;> exact h

theorem WriterOk.append {r : Ring} {vs : List Elem} {o n : Nat} (v : Elem)
    (h : WriterOk r vs o n p) : WriterOk r (vs ++ [v]) o n p := by
  have hget : ∀ u, vs[n]? = some u → (vs ++ [v])[n]? = some u := by
    intro u hu
    rw [List.getElem?_append_left (List.getElem?_eq_some_iff.mp hu).1]
    exact hu
  cases p with
  | copy u off k => exact ⟨hget u h.1, h.2⟩
  | ready u off => exact ⟨hget u h.1, h.2⟩
  | _ => exact h

theorem ReaderOk.congr {r r' : Ring} {c : List Elem} {busy : Nat → Prop} {n : Nat} {pc : ReaderPc}
    (hn : r'.nmemb = r.nmemb) (hz : r'.membSz = r.membSz) (h : ReaderOk r c busy n pc) :
    ReaderOk r' c busy n pc := by
  have hoff : ∀ m, Ring.offset r' m = Ring.offset r m := by
    intro m
    unfold Ring.offset
    rw [hn, hz]
  cases pc <;> simp only [ReaderOk, hoff] at h ⊢ <;> exact h

/-- What the reader knows outlasts later reservations, and members that are finished. -/
theorem ReaderOk.mono {r : Ring} {vs vs' : List Elem} {busy busy' : Nat → Prop} {n : Nat}
    {pc : ReaderPc} (hv : ∀ v, vs[n]? = some v → vs'[n]? = some v)
    (hb : n < vs.length → busy' n → busy n) (h : ReaderOk r vs busy n pc) :
    ReaderOk r vs' busy' n pc := by
  cases pc with
  | copy off acc =>
    obtain ⟨hoff, v, hget, hpre, hnb⟩ := h
    exact ⟨hoff, v, hv v hget, hpre,
      fun hbusy => hnb (hb (List.getElem?_eq_some_iff.mp hget).1 hbusy)⟩
  | _ => exact h

/-- A writer that has no member takes number `k`. -/
theorem inProgress_join {k : Nat} (hfree : (s.w i).member?.isSome = false)
    (hp : p.member?.isSome = true) (m : Nat) :
    InProgress (Function.update s.w i p) (Function.update s.num i k) m ↔
      InProgress s.w s.num m ∨ m = k := by
  constructor
  · rintro ⟨j, hj, he⟩
    by_cases hji : j = i
    · subst hji
      rw [Function.update_self] at he
      exact Or.inr he.symm
    · rw [Function.update_of_ne hji] at hj he
      exact Or.inl ⟨j, hj, he⟩
  · rintro (⟨j, hj, he⟩ | rfl)
    · have hji : j ≠ i := by
        rintro rfl
        rw [hfree] at hj
        cases hj
      exact ⟨j, by rw [Function.update_of_ne hji]; exact hj,
        by rw [Function.update_of_ne hji]; exact he⟩
    · exact ⟨i, by rw [Function.update_self]; exact hp, Function.update_self _ _ _⟩

/-- A writer leaves its member. -/
theorem Inv.inProgress_leave (h : Inv W s) (hholds : (s.w i).member?.isSome = true)
    (hp : p.member?.isSome = false) (m : Nat) :
    InProgress (Function.update s.w i p) s.num m ↔ InProgress s.w s.num m ∧ m ≠ s.num i := by
  constructor
  · rintro ⟨j, hj, rfl⟩
    have hji : j ≠ i := by
      rintro rfl
      rw [Function.update_self, hp] at hj
      cases hj
    rw [Function.update_of_ne hji] at hj
    exact ⟨⟨j, hj, rfl⟩, fun he => hji (h.distinct j i hj hholds he)⟩
  · rintro ⟨⟨j, hj, rfl⟩, hne⟩
    have hji : j ≠ i := fun he => hne (by rw [he])
    exact ⟨j, by rw [Function.update_of_ne hji]; exact hj, rfl⟩

theorem Inv.idle_update (h : Inv W s) (hi : i < W) (p : WriterPc) (j : Nat) (hj : W ≤ j) :
    Function.update s.w i p j = .idle :=
  (Function.update_of_ne (by omega) _ _).trans (h.idle j hj)

/-- A writer that moves on without taking or leaving a member, while `nfree` becomes `k`. -/
theorem Inv.move (h : Inv W s) (hi : i < W) {k : Nat}
    (hp : p.member?.isSome = (s.w i).member?.isSome)
    (hok : WriterOk s.ring s.reserved s.out.length (s.num i) p) (hk : k < 2 ^ 64)
    (hn : (k + (s.reserved.length + Threads.count W WriterPc.slotting (Function.update s.w i p) +
      Threads.count W WriterPc.undoing (Function.update s.w i p))) % 2 ^ 64 =
        (s.ring.nmemb + s.released) % 2 ^ 64)
    (hroom : s.reserved.length + Threads.count W WriterPc.slotting (Function.update s.w i p) ≤
      s.released + s.ring.nmemb) :
    Inv W ((s.setNfree k).goto i p) := by
  have hbusy := inProgress_update hp
  refine
    { pow := h.pow, fits := h.fits, inside := h.inside, idle := h.idle_update hi _
      lens := h.lens, fifo := h.fifo
      word := hk, nfree := hn, room := hroom, widx := h.widx, ridx := h.ridx, slots := ?_, data := ?_
      writers := ?_, distinct := ?_, reader := ?_ }
  · change ∀ j, s.ring.slots j = .ready ↔ ∃ m, _ ∧ _ ∧ ¬ InProgress (Function.update s.w i p) s.num m ∧ _
    rw [hbusy]
    exact h.slots
  · change ∀ m v, _ → _ → ¬ InProgress (Function.update s.w i p) s.num m → _
    rw [hbusy]
    exact h.data
  · exact (Function.forall_update_iff s.w _).mpr ⟨hok.congr rfl rfl rfl,
      fun j _ => (h.writers j).congr rfl rfl rfl⟩
  · intro a b ha hb he
    exact h.distinct a b ((member_update hp a).symm.trans ha) ((member_update hp b).symm.trans hb) he
  · change ReaderOk _ s.reserved (InProgress (Function.update s.w i p) s.num) s.out.length s.r
    rw [hbusy]
    exact h.reader.congr rfl rfl

/-- A writer that moves on without touching the ring. -/
theorem Inv.goto (h : Inv W s) (hi : i < W) (hp : p.member?.isSome = (s.w i).member?.isSome)
    (hok : WriterOk s.ring s.reserved s.out.length (s.num i) p)
    (hs : p.slotting = (s.w i).slotting) (hu : p.undoing = (s.w i).undoing) :
    Inv W (s.goto i p) := by
  have hcs := Threads.count_update_same hi hs
  have hcu := Threads.count_update_same hi hu
  exact h.move (k := s.ring.nfree) hi hp hok h.word (by rw [hcs, hcu]; exact h.nfree)
    (by rw [hcs]; exact h.room)

/-! ## The accesses of a writer -/

/-- A place is taken: `nfree` goes down, and the writer holds a place if there was one. -/
theorem Inv.take (hW : W < 2 ^ 63) (h : Inv W s) (hi : i < W) {v : Elem} (hw : s.w i = .take v) :
    Inv W ((s.setNfree (Word.sub 64 s.ring.nfree 1)).goto i
      (if Word.signed 64 s.ring.nfree ≤ 0 then .undo v else .slot v)) := by
  have hok := h.writers i
  rw [hw] at hok
  have hroom := h.room
  have hnf := h.nfree
  have hword := h.word
  have hN := h.nmemb_lt
  have hout := h.out_le
  have hrel := released_le s
  have hcs := fun p => Threads.count_update hi WriterPc.slotting p (f := s.w)
  have hcu := fun p => Threads.count_update hi WriterPc.undoing p (f := s.w)
  simp only [hw] at hcs hcu
  have hund := Threads.count_le W WriterPc.undoing s.w
  have hsub := Word.sub_lt (b := 1) hword (by omega)
  have hback := fun c => Word.sub_add_mod (w := 64) (a := s.ring.nfree) (b := 1) (by decide) c
  split
  · refine h.move hi (by rw [hw]; rfl) hok hsub ?_ ?_
    · have h1 := hcs (.undo v)
      have h2 := hcu (.undo v)
      simp only [WriterPc.slotting, WriterPc.undoing, Bool.false_eq_true, if_false, if_true] at h1 h2
      rw [← hnf, ← hback]
      congr 1
      omega
    · have h1 := hcs (.undo v)
      simp only [WriterPc.slotting, Bool.false_eq_true, if_false] at h1
      omega
  · rename_i hpos
    have h1 := hcs (.slot v)
    have h2 := hcu (.slot v)
    simp only [WriterPc.slotting, WriterPc.undoing, Bool.false_eq_true, if_false, if_true] at h1 h2
    obtain ⟨hlo, hhi⟩ := Word.signed_pos (w := 63) (not_le.mp hpos) hword
    refine h.move hi (by rw [hw]; rfl) hok hsub ?_ ?_
    · rw [← hnf, ← hback]
      congr 1
      omega
    · -- the places that are taken and those that are not there add up without wrapping
      omega

/-- A place that was not there is given back. -/
theorem Inv.undo (h : Inv W s) (hi : i < W) {v : Elem} (hw : s.w i = .undo v) :
    Inv W ((s.setNfree (Word.add 64 s.ring.nfree 1)).goto i (.begin v)) := by
  have hok := h.writers i
  rw [hw] at hok
  have hroom := h.room
  have hcs := Threads.count_update hi WriterPc.slotting (.begin v) (f := s.w)
  have hcu := Threads.count_update hi WriterPc.undoing (.begin v) (f := s.w)
  simp only [hw, WriterPc.slotting, WriterPc.undoing, Bool.false_eq_true, if_false, if_true]
    at hcs hcu
  refine h.move hi (by rw [hw]; rfl) hok (Word.add_lt _ _ _) ?_ (by omega)
  rw [← h.nfree, Word.add_mod]
  congr 1
  omega

/-- The next number is larger than every number taken before. -/
theorem Inv.distinct_join (h : Inv W s) (i : Nat) (p : WriterPc) (a b : Nat)
    (ha : (Function.update s.w i p a).member?.isSome = true)
    (hb : (Function.update s.w i p b).member?.isSome = true)
    (he : Function.update s.num i s.reserved.length a =
      Function.update s.num i s.reserved.length b) : a = b := by
  have hnum : ∀ j, j ≠ i → (Function.update s.w i p j).member?.isSome = true →
      s.num j < s.reserved.length := by
    intro j hj hm
    rw [Function.update_of_ne hj] at hm
    exact (h.holds hm).2.1
  by_cases hai : a = i <;> by_cases hbi : b = i
  · rw [hai, hbi]
  · subst hai
    rw [Function.update_self, Function.update_of_ne hbi] at he
    have := hnum b hbi hb
    omega
  · subst hbi
    rw [Function.update_self, Function.update_of_ne hai] at he
    have := hnum a hai ha
    omega
  · rw [Function.update_of_ne hai] at ha he
    rw [Function.update_of_ne hbi] at hb he
    exact h.distinct a b ha hb he

/-- A number is taken: the writer's member joins the window as one in progress. -/
theorem Inv.slot (h : Inv W s) (hi : i < W) {v : Elem} (hw : s.w i = .slot v) :
    Inv W { s with
      ring := { s.ring with widx := Word.add 64 s.ring.widx 1 }
      w := Function.update s.w i (.copy v (s.ring.offset s.ring.widx) 0)
      num := Function.update s.num i s.reserved.length
      log := s.log ++ [.push v] } := by
  have hok := h.writers i
  rw [hw] at hok
  have hroom := h.room
  have hout := h.out_le
  have hrel := released_le s
  have hfree : (s.w i).member?.isSome = false := by rw [hw]; rfl
  set q : WriterPc := .copy v (s.ring.offset s.ring.widx) 0 with hq
  have hcs := Threads.count_update hi WriterPc.slotting q (f := s.w)
  have hcu := Threads.count_update hi WriterPc.undoing q (f := s.w)
  simp only [hw, hq, WriterPc.slotting, WriterPc.undoing, Bool.false_eq_true, if_false, if_true]
    at hcs hcu
  rw [← hq] at hcs hcu
  have hc : Fifo.pushes (s.log ++ [.push v]) = s.reserved ++ [v] := by
    simp [Fifo.pushes, State.reserved]
  have ho : Fifo.pops (s.log ++ [.push v]) = s.out := by simp [Fifo.pops, State.out]
  have hbusy := inProgress_join (s := s) (k := s.reserved.length) hfree (p := q) rfl
  refine
    { pow := h.pow, fits := h.fits, inside := h.inside, idle := h.idle_update hi _
      lens := ?_, fifo := ?_
      word := h.word, nfree := ?_, room := ?_, widx := ?_, ridx := ?_, slots := ?_, data := ?_
      writers := ?_, distinct := ?_, reader := ?_ } <;>
    simp only [reserved_mk, out_mk, State.released, hc, ho, hbusy, List.length_append,
      List.length_singleton]
  · intro u hu
    rcases List.mem_append.mp hu with hu | hu
    · exact h.lens u hu
    · rw [List.mem_singleton.mp hu]
      exact hok
  · exact Fifo.exec_push v h.fifo hout (by omega)
  · rw [show s.ring.nmemb + (s.out.length - s.r.unreleased) = s.ring.nmemb + s.released from rfl,
      ← h.nfree]
    congr 1
    omega
  · change _ ≤ s.released + s.ring.nmemb
    omega
  · rw [h.widx, Word.add, Nat.mod_add_mod]
  · exact h.ridx
  · intro j
    rw [h.slots j]
    constructor
    · rintro ⟨m, hlo, hhi, hm, he⟩
      exact ⟨m, hlo, by omega, by rintro (hb | rfl); exacts [hm hb, by omega], he⟩
    · rintro ⟨m, hlo, hhi, hm, he⟩
      have hne : m ≠ s.reserved.length := fun he => hm (Or.inr he)
      exact ⟨m, hlo, by omega, fun hb => hm (Or.inl hb), he⟩
  · intro m u hm hu hb
    have hne : m ≠ s.reserved.length := fun he => hb (Or.inr he)
    have hlt : m < s.reserved.length := by
      have hlen := (List.getElem?_eq_some_iff.mp hu).1
      simp only [List.length_append, List.length_singleton] at hlen
      omega
    rw [List.getElem?_append_left hlt] at hu
    exact h.data m u hm hu (fun hb' => hb (Or.inl hb'))
  · intro j
    by_cases hji : j = i
    · subst hji
      rw [Function.update_self, Function.update_self]
      refine ⟨List.getElem?_concat_length, hout, ?_, ?_⟩
      · rw [h.widx, h.offset_wrap]
        rfl
      · intro b x hb
        simp at hb
    · rw [Function.update_of_ne hji, Function.update_of_ne hji]
      exact ((h.writers j).append v).congr rfl rfl rfl
  · exact h.distinct_join i q
  · refine h.reader.mono (fun u hu => ?_) (fun hlt hb => ?_)
    · rw [List.getElem?_append_left (List.getElem?_eq_some_iff.mp hu).1]
      exact hu
    · exact ((hbusy _).mp hb).resolve_right (by omega)

/-- A byte stored into the member with number `n` leaves the other members of the window alone. -/
theorem Inv.stored_of_ne (h : Inv W s) {n k : Nat} {x : UInt8} {b : List UInt8}
    (hn : s.out.length ≤ n) (hn' : n < s.reserved.length) (hk : k < s.ring.membSz)
    (hm : s.out.length ≤ m) (hm' : m < s.reserved.length) (hne : m ≠ n)
    (hb : b.length ≤ s.ring.membSz) (hs : Stored s.ring.buf (Ring.offset s.ring m) b) :
    Stored (Function.update s.ring.buf (Ring.offset s.ring n + k) x) (Ring.offset s.ring m) b := by
  have hrel := released_le s
  refine hs.update h.fits hb hk (fun he => hne ?_)
  exact h.slot_inj (by omega) (by omega) hm' hn' he

/-- A writer copies into the block. -/
theorem Inv.copy_inside (h : Inv W s) {v : Elem} {off k : Nat} {x : UInt8}
    (hw : s.w i = .copy v off k) (hx : v[k]? = some x) : off + k < s.ring.bytes := by
  have hok := h.writers i
  rw [hw] at hok
  obtain ⟨hv, -, rfl, -⟩ := hok
  have hk : k < v.length := (List.getElem?_eq_some_iff.mp hx).1
  exact h.fits.offset_add_lt _ (h.lens v (List.mem_of_getElem? hv) ▸ hk)

/-- One byte is stored into the writer's own member. -/
theorem Inv.store (h : Inv W s) (hi : i < W) {v : Elem} {off k : Nat} {x : UInt8}
    (hw : s.w i = .copy v off k) (hx : v[k]? = some x) :
    Inv W { s with
      ring := { s.ring with buf := Function.update s.ring.buf (off + k) x }
      w := Function.update s.w i (.copy v off (k + 1)) } := by
  have hok := h.writers i
  rw [hw] at hok
  obtain ⟨hv, hle, rfl, hst⟩ := hok
  have hlt : s.num i < s.reserved.length := (List.getElem?_eq_some_iff.mp hv).1
  have hlen := h.lens v (List.mem_of_getElem? hv)
  have hk : k < s.ring.membSz := hlen ▸ (List.getElem?_eq_some_iff.mp hx).1
  set q : WriterPc := .copy v (Ring.offset s.ring (s.num i)) (k + 1) with hq
  have hp : q.member?.isSome = (s.w i).member?.isSome := by rw [hw]; rfl
  have hbusy := inProgress_update hp
  have hcs := Threads.count_update_same hi (f := s.w) (p := WriterPc.slotting) (q := q)
    (by rw [hw]; rfl)
  have hcu := Threads.count_update_same hi (f := s.w) (p := WriterPc.undoing) (q := q)
    (by rw [hw]; rfl)
  -- a member other than the writer's own keeps its bytes
  have hkeep := fun (m : Nat) (u b : Elem) (hm : s.out.length ≤ m) (hu : s.reserved[m]? = some u) =>
    h.stored_of_ne (x := x) (b := b) hle hlt hk hm (List.getElem?_eq_some_iff.mp hu).1
  refine
    { pow := h.pow, fits := h.fits, inside := h.inside, idle := h.idle_update hi _
      lens := h.lens, fifo := h.fifo
      word := h.word, nfree := ?_, room := ?_, widx := h.widx, ridx := h.ridx, slots := ?_, data := ?_
      writers := ?_, distinct := ?_, reader := ?_ }
  · simp only [hcs, hcu]
    exact h.nfree
  · simp only [hcs]
    exact h.room
  · simp only [hbusy]
    exact h.slots
  · simp only [hbusy]
    intro m u hm hu hb
    have hne : m ≠ s.num i := fun he => hb ⟨i, by rw [hw]; rfl, he.symm⟩
    exact hkeep m u u hm hu hne (h.lens u (List.mem_of_getElem? hu)).le (h.data m u hm hu hb)
  · intro j
    change WriterOk _ s.reserved s.out.length (s.num j) (Function.update s.w i q j)
    by_cases hji : j = i
    · subst hji
      rw [Function.update_self]
      exact ⟨hv, hle, rfl, hst.snoc hx⟩
    · rw [Function.update_of_ne hji]
      have hokj := h.writers j
      have hnum : (s.w j).member?.isSome = true → s.num j ≠ s.num i := fun hm he =>
        hji (h.distinct j i hm (by rw [hw]; rfl) he)
      cases hwj : s.w j with
      | copy u o l =>
        rw [hwj] at hokj hnum
        obtain ⟨hu, hlej, rfl, hstj⟩ := hokj
        have hul := h.lens u (List.mem_of_getElem? hu)
        exact ⟨hu, hlej, rfl,
          hkeep _ u _ hlej hu (hnum rfl) ((List.length_take_le' l u).trans hul.le) hstj⟩
      | ready u o =>
        rw [hwj] at hokj hnum
        obtain ⟨hu, hlej, rfl, hstj⟩ := hokj
        have hul := h.lens u (List.mem_of_getElem? hu)
        exact ⟨hu, hlej, rfl, hkeep _ u u hlej hu (hnum rfl) hul.le hstj⟩
      | _ =>
        rw [hwj] at hokj
        exact hokj
  · intro a b ha hb he
    exact h.distinct a b ((member_update hp a).symm.trans ha) ((member_update hp b).symm.trans hb) he
  · simp only [hbusy]
    exact h.reader.congr rfl rfl

/-- The slot is marked: the member is no longer in progress. -/
theorem Inv.mark (h : Inv W s) (hi : i < W) {v : Elem} {off : Nat} (hw : s.w i = .ready v off) :
    Inv W { s with
      ring := { s.ring with slots := Function.update s.ring.slots (off / s.ring.membSz) .ready }
      w := Function.update s.w i .idle } := by
  have hok := h.writers i
  rw [hw] at hok
  obtain ⟨hv, hle, rfl, hst⟩ := hok
  have hlt : s.num i < s.reserved.length := (List.getElem?_eq_some_iff.mp hv).1
  have hholds : (s.w i).member?.isSome = true := by rw [hw]; rfl
  have hcs := Threads.count_update_same hi (f := s.w) (p := WriterPc.slotting) (q := .idle)
    (by rw [hw]; rfl)
  have hcu := Threads.count_update_same hi (f := s.w) (p := WriterPc.undoing) (q := .idle)
    (by rw [hw]; rfl)
  have hbusy := h.inProgress_leave hholds (p := .idle) rfl
  refine
    { pow := h.pow, fits := h.fits, inside := h.inside, idle := h.idle_update hi _
      lens := h.lens, fifo := h.fifo
      word := h.word, nfree := ?_, room := ?_, widx := h.widx, ridx := h.ridx, slots := ?_, data := ?_
      writers := ?_, distinct := ?_, reader := ?_ }
  · simp only [hcs, hcu]
    exact h.nfree
  · simp only [hcs]
    exact h.room
  · intro j
    simp only [hbusy, h.fits.offset_div]
    rw [Function.update_apply]
    split
    · rename_i hj
      exact ⟨fun _ => ⟨s.num i, by change s.out.length - _ ≤ _; omega, hlt, by simp, hj.symm⟩,
        fun _ => rfl⟩
    · rename_i hj
      rw [h.slots j]
      constructor
      · rintro ⟨m, hlo, hhi, hm, he⟩
        exact ⟨m, hlo, hhi, fun hb => hm hb.1, he⟩
      · rintro ⟨m, hlo, hhi, hm, rfl⟩
        have hne : m ≠ s.num i := fun he => hj (by rw [he])
        exact ⟨m, hlo, hhi, fun hb => hm ⟨hb, hne⟩, rfl⟩
  · intro m u hm hu hb
    rw [hbusy] at hb
    by_cases he : m = s.num i
    · subst he
      obtain rfl : v = u := Option.some.inj (hv.symm.trans hu)
      exact hst
    · exact h.data m u hm hu (fun hb' => hb ⟨hb', he⟩)
  · exact (Function.forall_update_iff s.w _).mpr ⟨trivial, fun j _ => (h.writers j).congr rfl rfl rfl⟩
  · have hother : ∀ j, (Function.update s.w i .idle j).member?.isSome = true →
        (s.w j).member?.isSome = true := by
      intro j hj
      by_cases hji : j = i
      · rw [hji]
        exact hholds
      · rwa [Function.update_of_ne hji] at hj
    intro a b ha hb he
    exact h.distinct a b (hother a ha) (hother b hb) he
  · exact (h.reader.mono (fun _ hu => hu) (fun _ hb => ((hbusy _).mp hb).1)).congr rfl rfl

theorem writerStep_inv (hW : W < 2 ^ 63) (h : Inv W s) (hi : i < W)
    (hs : writerStep s i = some t) : Inv W t := by
  have hok := h.writers i
  unfold writerStep at hs
  cases hw : s.w i with
  | idle => simp [hw] at hs
  | begin v =>
    rw [hw] at hok
    simp only [hw] at hs
    split at hs
    · cases hs; exact h
    · cases hs
      exact h.goto hi (by rw [hw]; rfl) hok (by rw [hw]; rfl) (by rw [hw]; rfl)
  | take v =>
    simp only [hw] at hs
    cases hs
    exact h.take hW hi hw
  | undo v =>
    simp only [hw] at hs
    cases hs
    exact h.undo hi hw
  | slot v =>
    simp only [hw] at hs
    cases hs
    exact h.slot hi hw
  | copy v off k =>
    simp only [hw] at hs
    cases hx : v[k]? with
    | some x =>
      have hin := h.copy_inside hw hx
      simp only [hx, if_pos hin] at hs
      cases hs
      exact h.store hi hw hx
    | none =>
      simp only [hx] at hs
      cases hs
      rw [hw] at hok
      obtain ⟨hv, hle, hoff, hst⟩ := hok
      rw [List.take_of_length_le (List.getElem?_eq_none_iff.mp hx)] at hst
      exact h.goto hi (by rw [hw]; rfl) ⟨hv, hle, hoff, hst⟩ (by rw [hw]; rfl) (by rw [hw]; rfl)
  | ready v off =>
    simp only [hw] at hs
    cases hs
    exact h.mark hi hw

/-! ## The accesses of the reader -/

/-- The oldest member of the window is marked and no longer in progress. -/
theorem Inv.front (h : Inv W s) (hr : s.r = .slot)
    (hready : s.ring.slots (s.ring.ridx % s.ring.nmemb) = .ready) :
    s.out.length < s.reserved.length ∧ ¬ InProgress s.w s.num s.out.length := by
  have hroom := h.room
  have hridx := h.ridx
  have hslots := h.slots
  unfold State.released at hroom
  simp only [hr, ReaderPc.unreleased, ReaderPc.unbumped, ReaderPc.unfreed, Nat.sub_zero]
    at hroom hridx hslots
  rw [hridx, Nat.mod_mod_of_dvd _ h.nmemb_dvd] at hready
  obtain ⟨m, hlo, hhi, hm, he⟩ := (hslots _).mp hready
  obtain rfl : s.out.length = m := eq_of_mod_eq hlo (by omega) he.symm
  exact ⟨hhi, hm⟩

/-- The reader moves on without touching the ring. -/
theorem Inv.goto_reader (h : Inv W s) {q : ReaderPc} (hrel : q.unreleased = s.r.unreleased)
    (hbump : q.unbumped = s.r.unbumped) (hfreed : q.unfreed = s.r.unfreed)
    (hok : ReaderOk s.ring s.reserved (InProgress s.w s.num) s.out.length q) :
    Inv W { s with r := q } := by
  have hreleased : State.released { s with r := q } = s.released :=
    congrArg (s.out.length - ·) hrel
  refine { h with nfree := ?_, room := ?_, ridx := ?_, slots := ?_, reader := hok }
  · rw [hreleased]
    exact h.nfree
  · rw [hreleased]
    exact h.room
  · rw [hbump]
    exact h.ridx
  · rw [hfreed]
    exact h.slots

/-- A writer that does not hold the oldest member does not see it go. -/
theorem WriterOk.advance {r : Ring} {vs : List Elem} {o n : Nat}
    (hne : p.member?.isSome = true → n ≠ o) (h : WriterOk r vs o n p) :
    WriterOk r vs (o + 1) n p := by
  cases p with
  | copy u off k => exact ⟨h.1, Nat.lt_of_le_of_ne h.2.1 (Ne.symm (hne rfl)), h.2.2⟩
  | ready u off => exact ⟨h.1, Nat.lt_of_le_of_ne h.2.1 (Ne.symm (hne rfl)), h.2.2⟩
  | _ => exact h

/-- The last byte has been read: the oldest value is copied out. -/
theorem Inv.copyOut (h : Inv W s) {off : Nat} {v : Elem} (hr : s.r = .copy off v)
    (hv : s.reserved[s.out.length]? = some v) (hnb : ¬ InProgress s.w s.num s.out.length) :
    Inv W { s with r := .free (Ring.offset s.ring s.out.length), log := s.log ++ [.pop v] } := by
  have hnfree := h.nfree
  have hroom := h.room
  have hridx := h.ridx
  have hslots := h.slots
  unfold State.released at hnfree hroom
  rw [hr] at hnfree hroom hridx hslots
  have hc : Fifo.pushes (s.log ++ [.pop v]) = s.reserved := by simp [Fifo.pushes, State.reserved]
  have ho : Fifo.pops (s.log ++ [.pop v]) = s.out ++ [v] := by simp [Fifo.pops, State.out]
  refine
    { pow := h.pow, fits := h.fits, inside := h.inside, idle := h.idle
      lens := ?_, fifo := ?_, word := h.word
      nfree := ?_, room := ?_, widx := ?_, ridx := ?_, slots := ?_, data := ?_
      writers := ?_, distinct := h.distinct, reader := ⟨?_, ?_⟩ } <;>
    simp only [reserved_mk, out_mk, State.released, hc, ho, List.length_append,
      List.length_singleton, ReaderPc.unreleased, ReaderPc.unbumped, ReaderPc.unfreed,
      Nat.add_sub_cancel]
  · exact h.lens
  · exact Fifo.exec_pop h.fifo hv
  · exact hnfree
  · exact hroom
  · exact h.widx
  · exact hridx
  · exact hslots
  · intro m u hm hu hb
    exact h.data m u (by omega) hu hb
  · exact fun i => (h.writers i).advance (fun hm he => hnb ⟨i, hm, he⟩)
  · omega

/-- The slot of the value copied out last is freed. -/
theorem Inv.free (h : Inv W s) {off : Nat} (hr : s.r = .free off) :
    Inv W { s with
      ring := { s.ring with slots := Function.update s.ring.slots (off / s.ring.membSz) .free }
      r := .bump } := by
  have hnfree := h.nfree
  have hroom := h.room
  have hridx := h.ridx
  have hslots := h.slots
  have hok := h.reader
  unfold State.released at hnfree hroom
  rw [hr] at hok hnfree hroom hridx hslots
  obtain ⟨hpos, rfl⟩ := hok
  simp only [ReaderPc.unreleased, ReaderPc.unfreed] at hroom hslots
  refine { h with
    nfree := hnfree, room := hroom, ridx := hridx, slots := ?_, reader := hpos
    writers := fun i => (h.writers i).congr rfl rfl rfl }
  intro j
  simp only [h.fits.offset_div]
  rw [Function.update_apply]
  change _ ↔ ∃ m, s.out.length ≤ m ∧ _
  split
  · rename_i hj
    refine ⟨by rintro ⟨⟩, ?_⟩
    rintro ⟨m, hlo, hhi, -, he⟩
    change m < s.reserved.length at hhi
    have := eq_of_mod_eq (show s.out.length - 1 ≤ m by omega) (by omega) (hj.symm.trans he.symm)
    omega
  · rename_i hj
    rw [hslots j]
    constructor
    · rintro ⟨m, hlo, hhi, hm, rfl⟩
      have hne : m ≠ s.out.length - 1 := fun he => hj (by rw [he])
      exact ⟨m, by omega, hhi, hm, rfl⟩
    · rintro ⟨m, hlo, hhi, hm, he⟩
      exact ⟨m, by omega, hhi, hm, he⟩

/-- The place of the value copied out last is given back to the writers. -/
theorem Inv.count (h : Inv W s) (hr : s.r = .count) :
    Inv W { s with
      ring := { s.ring with nfree := Word.add 64 s.ring.nfree 1 }
      r := .begin } := by
  have hnfree := h.nfree
  have hroom := h.room
  have hridx := h.ridx
  have hslots := h.slots
  have hok := h.reader
  unfold State.released at hnfree hroom
  rw [hr] at hok hnfree hroom hridx hslots
  change 0 < s.out.length at hok
  simp only [ReaderPc.unreleased] at hnfree hroom
  refine { h with
    word := Word.add_lt _ _ _, nfree := ?_, room := ?_, ridx := hridx, slots := hslots
    reader := trivial, writers := fun i => (h.writers i).congr rfl rfl rfl }
  · change (Word.add 64 s.ring.nfree 1 + (s.reserved.length +
      Threads.count W WriterPc.slotting s.w + Threads.count W WriterPc.undoing s.w)) % 2 ^ 64 =
        (s.ring.nmemb + s.out.length) % 2 ^ 64
    rw [Word.add_mod, show s.ring.nmemb + s.out.length = s.ring.nmemb + (s.out.length - 1) + 1 by
      omega, Nat.add_mod (s.ring.nmemb + (s.out.length - 1)), ← hnfree, ← Nat.add_mod]
    congr 1
    omega
  · change s.reserved.length + Threads.count W WriterPc.slotting s.w ≤
      s.out.length + s.ring.nmemb
    omega

theorem readerStep_inv (h : Inv W s) (hs : readerStep s = some t) : Inv W t := by
  unfold readerStep Spsc.readerStep at hs
  cases hr : s.r with
  | begin =>
    simp only [hr] at hs
    split at hs
    · simp only [Option.map_some, Option.some.injEq] at hs
      subst hs
      exact h.goto_reader (by rw [hr]) (by rw [hr]) (by rw [hr]) trivial
    · simp only [Option.map_some, Option.some.injEq] at hs
      subst hs
      exact h.goto_reader (by rw [hr]; rfl) (by rw [hr]; rfl) (by rw [hr]; rfl) trivial
  | slot =>
    simp only [hr] at hs
    split at hs
    · rename_i hready
      obtain ⟨hlt, hnb⟩ := h.front hr hready
      have hridx := h.ridx
      rw [hr] at hridx
      simp only [Option.map_some, Option.some.injEq] at hs
      subst hs
      refine h.goto_reader (by rw [hr]; rfl) (by rw [hr]; rfl) (by rw [hr]; rfl)
        ⟨?_, s.reserved[s.out.length], List.getElem?_eq_getElem hlt, List.nil_prefix, hnb⟩
      rw [hridx, h.offset_wrap]
      rfl
    · simp only [Option.map_some, Option.some.injEq] at hs
      subst hs
      exact h.goto_reader (by rw [hr]; rfl) (by rw [hr]; rfl) (by rw [hr]; rfl) trivial
  | copy off acc =>
    have hok := h.reader
    rw [hr] at hok
    simp only [hr] at hs
    obtain ⟨rfl, v, hv, hpre, hnb⟩ := hok
    have hlen : v.length = s.ring.membSz := h.lens v (List.mem_of_getElem? hv)
    split at hs
    · rename_i hlt
      rw [if_pos (h.fits.offset_add_lt _ hlt)] at hs
      simp only [Option.map_some, Option.some.injEq] at hs
      subst hs
      refine h.goto_reader (by rw [hr]; rfl) (by rw [hr]; rfl) (by rw [hr]; rfl)
        ⟨rfl, v, hv, ?_, hnb⟩
      exact (h.data _ _ (Nat.le_refl _) hv hnb).read_snoc hpre (by omega)
    · rename_i hge
      simp only [Option.map_some, Option.some.injEq] at hs
      subst hs
      obtain rfl : acc = v := hpre.eq_of_length_le (by omega)
      exact h.copyOut hr hv hnb
  | free off =>
    simp only [hr, Option.map_some, Option.some.injEq] at hs
    subst hs
    exact h.free hr
  | bump =>
    have hok := h.reader
    have hridx := h.ridx
    rw [hr] at hok hridx
    simp only [hr, Option.map_some, Option.some.injEq] at hs
    subst hs
    have hnfree := h.nfree
    have hroom := h.room
    have hslots := h.slots
    unfold State.released at hnfree hroom
    rw [hr] at hnfree hroom hslots
    refine { h with
      nfree := hnfree, room := hroom, ridx := ?_, slots := hslots, reader := hok
      writers := fun i => (h.writers i).congr rfl rfl rfl }
    change Word.add 64 s.ring.ridx 1 = s.out.length % 2 ^ 64
    change 0 < s.out.length at hok
    rw [hridx, Word.add, Nat.mod_add_mod]
    congr 1
    simp only [ReaderPc.unbumped]
    omega
  | count =>
    simp only [hr, Option.map_some, Option.some.injEq] at hs
    subst hs
    exact h.count hr

theorem step_inv {a : Act} (hW : W < 2 ^ 63) (h : Inv W s) (hs : step W s a = some t) :
    Inv W t := by
  cases a with
  | put i v =>
    simp only [step] at hs
    split at hs
    · rename_i hw
      split at hs
      · rename_i hv
        cases hs
        exact h.goto hv.1 (by rw [hw]; rfl) hv.2 (by rw [hw]; rfl) (by rw [hw]; rfl)
      · cases hs
    · cases hs
  | writer i =>
    simp only [step] at hs
    split at hs
    · rename_i hi
      exact writerStep_inv hW h hi hs
    · cases hs
  | reader => exact readerStep_inv h hs

theorem start_inv (W : Nat) (junk : Nat → UInt8) {k size bytes : Nat} (hk : k ≤ 62)
    (hz : 0 < size) (hroom : 2 ^ k * size ≤ bytes) (hspace : bytes ≤ 2 ^ 64) :
    Inv W (start junk (2 ^ k) size bytes) where
  pow := ⟨k, hk, rfl⟩
  fits := ⟨Nat.two_pow_pos k, hz, hroom, hspace⟩
  inside := rfl
  idle := fun _ _ => rfl
  lens := by simp [start, State.reserved, Fifo.pushes]
  fifo := rfl
  word := Nat.pow_lt_pow_right (by omega) (by omega)
  nfree := by
    rw [show (start junk (2 ^ k) size bytes).w = fun _ => WriterPc.idle from rfl,
      Threads.count_const rfl, Threads.count_const rfl]
    rfl
  room := by
    rw [show (start junk (2 ^ k) size bytes).w = fun _ => WriterPc.idle from rfl,
      Threads.count_const rfl]
    exact Nat.zero_le _
  widx := rfl
  ridx := rfl
  slots := by
    intro j
    refine ⟨by rintro ⟨⟩, ?_⟩
    rintro ⟨m, -, hm, -⟩
    exact absurd hm (Nat.not_lt_zero m)
  data := by
    intro m v _ hv
    simp [start, State.reserved, Fifo.pushes] at hv
  writers := fun _ => trivial
  distinct := fun _ _ h => by cases h
  reader := trivial

/-- The accesses never change the shape of the ring. -/
theorem step_shape {a : Act} (hs : step W s a = some t) :
    t.ring.nmemb = s.ring.nmemb ∧ t.ring.membSz = s.ring.membSz := by
  cases a with
  | put i v =>
    simp only [step] at hs
    repeat' split at hs
    all_goals cases hs
    exact ⟨rfl, rfl⟩
  | writer i =>
    simp only [step, writerStep] at hs
    repeat' split at hs
    all_goals cases hs
    all_goals exact ⟨rfl, rfl⟩
  | reader =>
    obtain ⟨u, hu, rfl⟩ := Option.map_eq_some_iff.mp hs
    exact Spsc.step_shape (a := .reader) hu

end

/-! ## The refinement -/

/-- Every run of `W` writers and the reader, at any memory access. -/
abbrev Reachable (W : Nat) (junk : Nat → UInt8) (count size bytes : Nat) (s : State) : Prop :=
  Lts.Reach (step W) (fun _ _ => True) (start junk count size bytes) s

def readFrom? : ReaderPc → Option Nat
  | .copy off _ => some off
  | _ => none

/-- **The ring with many writers is a bounded FIFO queue.** For a ring of a power of two of
members below `2 ^ 63`, set up by `__init_ring` with a block of sufficient size as that function
assumes, and fewer than `2 ^ 63` writers, in every state that any interleaving of the accesses
can reach:

* two writers that hold a member hold different ones;
* a member that a writer holds is different from that of every other number that is reserved
  and not given back by the reader, so in particular from every unread one;
* the reservations in the order of `widx` and the values copied out are the pushes and pops of
  a queue with that many places, and what was copied out is a prefix of what was reserved;
* a member that is being copied out is the one of the next number, which has been reserved;
  its slot is marked, and no writer holds that number any more;
* no thread was outside of the block. -/
theorem ring_refines_queue {W k size bytes : Nat} (junk : Nat → UInt8) (hk : 2 ^ k < 2 ^ 63)
    (hz : 0 < size) (hroom : 2 ^ k * size ≤ bytes) (hspace : bytes ≤ 2 ^ 64) (hW : W < 2 ^ 63)
    {s : State} (hs : Reachable W junk (2 ^ k) size bytes s) :
    (∀ i j off, (s.w i).member? = some off → (s.w j).member? = some off → i = j) ∧
    (∀ i off, (s.w i).member? = some off → off = Ring.offset s.ring (s.num i) ∧
      s.out.length ≤ s.num i ∧ s.num i < s.reserved.length ∧
      ∀ m, s.released ≤ m → m < s.reserved.length → m ≠ s.num i → Ring.offset s.ring m ≠ off) ∧
    (∃ q, Fifo.exec (2 ^ k) [] s.log = some q ∧ s.reserved = s.out ++ q) ∧
    s.out <+: s.reserved ∧
    (∀ off, readFrom? s.r = some off → off = Ring.offset s.ring s.out.length ∧
      s.out.length < s.reserved.length ∧ s.ring.slots (off / s.ring.membSz) = .ready ∧
      ∀ i, (s.w i).member?.isSome = true → s.num i ≠ s.out.length) ∧
    s.overrun = false := by
  have hk62 : k ≤ 62 := Nat.lt_succ_iff.mp ((Nat.pow_lt_pow_iff_right (by omega)).mp hk)
  have hI : Inv W s ∧ s.ring.nmemb = 2 ^ k := by
    refine Lts.Reach.inv (I := fun s => Inv W s ∧ s.ring.nmemb = 2 ^ k)
      ⟨start_inv W junk hk62 hz hroom hspace, rfl⟩ ?_ hs
    intro s a t _ hI _ hst
    exact ⟨step_inv hW hI.1 hst, (step_shape hst).1.trans hI.2⟩
  obtain ⟨h, hn⟩ := hI
  have hq := Fifo.pushes_eq h.fifo
  have hrel := released_le s
  have hholds : ∀ i off, (s.w i).member? = some off → off = Ring.offset s.ring (s.num i) ∧
      s.out.length ≤ s.num i ∧ s.num i < s.reserved.length := by
    intro i off hoff
    obtain ⟨hlo, hhi, he⟩ := h.holds (i := i) (by rw [hoff]; rfl)
    exact ⟨Option.some.inj (hoff.symm.trans he), hlo, hhi⟩
  have hinj : ∀ a b, s.released ≤ a → s.released ≤ b → a < s.reserved.length →
      b < s.reserved.length → Ring.offset s.ring a = Ring.offset s.ring b → a = b := by
    intro a b ha hb ha' hb' he
    rw [h.fits.offset_eq, h.fits.offset_eq] at he
    exact h.slot_inj ha hb ha' hb' (Nat.eq_of_mul_eq_mul_right h.fits.size he)
  refine ⟨?_, ?_, ⟨_, hn ▸ h.fifo, hq⟩, ⟨_, hq.symm⟩, ?_, h.inside⟩
  · intro i j off hi hj
    obtain ⟨hio, hil, hir⟩ := hholds i off hi
    obtain ⟨hjo, hjl, hjr⟩ := hholds j off hj
    have hnum := hinj _ _ (by omega) (by omega) hir hjr (hio.symm.trans hjo)
    exact h.distinct i j (by rw [hi]; rfl) (by rw [hj]; rfl) hnum
  · intro i off hi
    obtain ⟨hio, hil, hir⟩ := hholds i off hi
    refine ⟨hio, hil, hir, fun m hm hml hne he => hne ?_⟩
    exact hinj _ _ hm (by omega) hml hir (he.trans hio)
  · intro off hoff
    have hok := h.reader
    have hslots := h.slots
    cases hr : s.r with
    | copy o acc =>
      rw [hr] at hok hoff hslots
      obtain ⟨rfl, v, hv, -, hnb⟩ := hok
      obtain rfl := Option.some.inj hoff
      have hlt := (List.getElem?_eq_some_iff.mp hv).1
      refine ⟨rfl, hlt, ?_, fun i hi he => hnb ⟨i, hi, he⟩⟩
      rw [h.fits.offset_div]
      exact (hslots _).mpr ⟨_, Nat.sub_le _ _, hlt, hnb, rfl⟩
    | _ =>
      rw [hr] at hoff
      cases hoff

/-- Three writers race for the two places of a ring: the third finds `nfree` below one and gives
it back. The one with the later number finishes first. -/
def raceTrace : List Act :=
  [.put 0 [7], .put 1 [8], .put 2 [9], .writer 0, .writer 1, .writer 2, .writer 0, .writer 1,
    .writer 2, .writer 1, .writer 0, .writer 2] ++ List.replicate 3 (.writer 0) ++
    List.replicate 3 .reader ++ List.replicate 3 (.writer 1) ++ List.replicate 4 .reader

theorem ring_refines_queue_race : ∃ s, Reachable 3 (fun _ => 0) (2 ^ 1) 1 2 s ∧
    s.out = [[8]] ∧ s.out <+: s.reserved ∧ s.reserved = [[8], [7]] := by
  have hd : (Lts.drive (step 3) (fun _ _ => true) (start (fun _ => 0) (2 ^ 1) 1 2) raceTrace).map
      (fun s => (s.out, s.reserved)) = some ([[8]], [[8], [7]]) := by decide +kernel
  obtain ⟨s, hs, ho⟩ := Lts.reach_of_drive_map (P := fun _ _ => True) (fun _ _ _ => trivial) hd
  obtain ⟨hout, hres⟩ := Prod.mk.inj ho
  obtain ⟨-, -, -, hp, -⟩ := ring_refines_queue (fun _ => 0) (k := 1) (by decide) (by decide)
    (by decide) (by decide) (by decide) hs
  exact ⟨s, hs, hout, hp, hres⟩

end Pgm.Mpsc
