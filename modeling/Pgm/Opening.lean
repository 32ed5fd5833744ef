import Pgm.Lib.Scan
import Pgm.StoreFifos

/-!
# Bringing a graph up

Each node is claimed by a thread of its own, and `__pgm_claim_node` opens the ends of the node's
edges one after another, the in-edges first. `step` interleaves these claims. The kernel lets a FIFO
be opened for writing only while it is open for reading (`ENXIO` otherwise, and the loop of
`fifo_open_producer` tries again), lets a socket connect only to one that listens, and blocks
`accept` until something has connected. Every other failure is an answer of the environment. A node
is claimed once: no run releases it, so no end that is open is closed again. Two edges may have one
FIFO, and `ownFifos_of_reach` says when they do not; every socket edge is taken to have an address of
its own.

* `claim_reports_ends`: a claim returns 0 exactly when all ends of its node are open;
* `claims_return`: without socket edges the claims never wait for each other in a circle.
-/

namespace Pgm.Opening

open Function (update update_of_ne)
open Tables

/-- Where the claim of a node is. `err` is `was_error`. -/
inductive Pc where
  | unclaimed
  /-- About to open `in[i]`. -/
  | inbound (i : Nat) (err : Bool)
  /-- About to open `out[i]`. -/
  | outbound (i : Nat) (err : Bool)
  /-- In `accept` for the socket of `out[i]`. -/
  | accept (i : Nat) (err : Bool)
  | returned (err : Bool)
  deriving DecidableEq

/-- The claims, and the ends of the edges: whether the consumer's is open, the producer's is, and
whether the producer's socket listens. -/
structure State where
  pc : Nat → Pc
  reader : Nat → Bool
  writer : Nat → Bool
  listening : Nat → Bool

def start : State := ⟨fun _ => .unclaimed, fun _ => false, fun _ => false, fun _ => false⟩

def State.goto (s : State) (n : Nat) (p : Pc) : State := { s with pc := update s.pc n p }

/-- What the environment says to a call: it fails for want of something, or it does not. `timeout`
also says that the 60 seconds of `fifo_open_producer` are over. -/
inductive Answer where
  | ok
  | fail
  | timeout
  deriving DecidableEq

inductive Act where
  /-- A thread claims node `n`. -/
  | claim (n : Nat)
  /-- The claim of node `n` goes on. -/
  | run (n : Nat) (ans : Answer)
  deriving DecidableEq

/-- The directory of the FIFOs: whether `gGraphPath` is set, and the FIFO of each edge. -/
structure Dir where
  pathSet : Bool
  fifo : Nat → List UInt8

/-- Whether a producer of edge `e` finds the other end open. `open` asks for a reader of the file,
which may be that of another edge. -/
def readEnd (g : GraphRec) (dir : Dir) (reader : Nat → Bool) (e : Nat) : Ops → Bool
  | .fifo => (List.range g.nrEdges).any (fun d =>
      (g.edges d).ops == some .fifo && dir.fifo d == dir.fifo e && reader d)
  | _ => reader e

def openConsumer (dir : Dir) (s : State) (e : Nat) (ans : Answer) : Ops → Bool
  | .cv | .ring => true
  | .fifo => dir.pathSet && ans != .fail
  | .mq => ans != .fail
  | .sockStream => ans != .fail && s.listening e

/-- What comes of a try to open the producer's end. -/
inductive Try where
  | opened
  | failed
  /-- `usleep(1000)`, and once more. -/
  | again
  /-- The socket listens, and `accept` is next. -/
  | listens
  deriving DecidableEq

def openProducer (g : GraphRec) (dir : Dir) (s : State) (e : Nat) (ans : Answer) : Ops → Try
  | .cv | .ring => .opened
  | .fifo =>
    if !dir.pathSet || ans == .fail then .failed
    else if readEnd g dir s.reader e .fifo then .opened
    else if ans == .timeout then .failed
    else .again
  | .mq => if ans == .fail then .failed else .opened
  | .sockStream => if ans == .fail then .failed else .listens

/-- The claim of node `n` goes on to the next out-edge. -/
def State.opened (s : State) (n i e : Nat) (err : Bool) : State :=
  { s with writer := update s.writer e true }.goto n (.outbound (i + 1) err)

/-- One step of `__pgm_claim_node` for node `n`. An edge without operations is called through a null
pointer. -/
def claimStep (g : GraphRec) (dir : Dir) (s : State) (n : Nat) (ans : Answer) : Option State :=
  match s.pc n with
  | .inbound i err =>
    match (g.nodes n).ins[i]? with
    | none => some (s.goto n (.outbound 0 err))
    | some e => (g.edges e).ops.map (fun ops =>
        if openConsumer dir s e ans ops then
          { s with reader := update s.reader e true }.goto n (.inbound (i + 1) err)
        else s.goto n (.inbound (i + 1) true))
  | .outbound i err =>
    match (g.nodes n).outs[i]? with
    | none => some (s.goto n (.returned err))
    | some e => (g.edges e).ops.map (fun ops =>
        match openProducer g dir s e ans ops with
        | .opened => s.opened n i e err
        | .failed => s.goto n (.outbound (i + 1) true)
        | .again => s
        | .listens => { s with listening := update s.listening e true }.goto n (.accept i err))
  | .accept i err =>
    match (g.nodes n).outs[i]? with
    | none => none
    | some e =>
      if ans = .fail then some (s.goto n (.outbound (i + 1) true))
      else if s.reader e then some (s.opened n i e err)
      else none
  | .unclaimed | .returned _ => none

def step (g : GraphRec) (dir : Dir) (s : State) : Act → Option State
  | .claim n =>
    if n < g.nrNodes ∧ s.pc n = .unclaimed then some (s.goto n (.inbound 0 false)) else none
  | .run n ans => claimStep g dir s n ans

def Pc.passedIn (ins : List Nat) : Pc → List Nat
  | .unclaimed => []
  | .inbound i _ => ins.take i
  | .outbound _ _ | .accept _ _ | .returned _ => ins

def Pc.passedOut (outs : List Nat) : Pc → List Nat
  | .unclaimed | .inbound _ _ => []
  | .outbound i _ | .accept i _ => outs.take i
  | .returned _ => outs

def Pc.err : Pc → Bool
  | .unclaimed => false
  | .inbound _ err | .outbound _ err | .accept _ err | .returned err => err

/-- The in-edges of node `n` that its claim has passed. -/
def State.passedIn (g : GraphRec) (s : State) (n : Nat) : List Nat :=
  (s.pc n).passedIn (g.nodes n).ins

def State.passedOut (g : GraphRec) (s : State) (n : Nat) : List Nat :=
  (s.pc n).passedOut (g.nodes n).outs

/-- Only ends that have been passed are open, `was_error` says that one of them is not, and a FIFO or
a socket is open for writing only when it is for reading. -/
structure Inv (g : GraphRec) (dir : Dir) (s : State) : Prop where
  nodes : ∀ n, g.nrNodes ≤ n → s.pc n = .unclaimed
  reader : ∀ e, s.reader e = true → ∃ n, e ∈ s.passedIn g n
  writer : ∀ e, s.writer e = true → ∃ n, e ∈ s.passedOut g n
  err : ∀ n, (s.pc n).err = false ↔
    (∀ e ∈ s.passedIn g n, s.reader e = true) ∧ ∀ e ∈ s.passedOut g n, s.writer e = true
  paired : ∀ e ops, (g.edges e).ops = some ops → ops = .fifo ∨ ops = .sockStream →
    s.writer e = true → readEnd g dir s.reader e ops = true

def OwnFifos (g : GraphRec) (dir : Dir) : Prop :=
  ∀ e < g.nrEdges, ∀ d < g.nrEdges, (g.edges e).ops = some .fifo → (g.edges d).ops = some .fifo →
    dir.fifo e = dir.fifo d → e = d

/-- No socket edges, and a directory for the FIFOs. -/
def NoSockets (g : GraphRec) (dir : Dir) : Prop :=
  ∀ e < g.nrEdges, ∃ ops, (g.edges e).ops = some ops ∧ ops ≠ .sockStream ∧
    (ops = .fifo → dir.pathSet = true)

/-- Nothing fails, and nobody waits for 60 seconds. -/
def Smooth (_ : State) (a : Act) : Prop := ∀ n ans, a = .run n ans → ans = .ok

def Pc.Smooth (g : GraphRec) (n : Nat) : Pc → Prop
  | .unclaimed => True
  | .inbound i err => err = false ∧ i ≤ (g.nodes n).ins.length
  | .outbound i err => err = false ∧ i ≤ (g.nodes n).outs.length
  | .accept _ _ => False
  | .returned err => err = false

def Pc.pastIn : Pc → Bool
  | .outbound _ _ | .accept _ _ | .returned _ => true
  | .unclaimed | .inbound _ _ => false

def Pc.isReturned : Pc → Bool
  | .returned _ => true
  | _ => false

/-- The steps that the claim has left among its in-edges. -/
def Pc.leftIn (g : GraphRec) (n : Nat) : Pc → Nat
  | .inbound i _ => (g.nodes n).ins.length + 1 - i
  | _ => 0

/-- The steps that the claim has left among its out-edges. -/
def Pc.leftOut (g : GraphRec) (n : Nat) : Pc → Nat
  | .outbound i _ => (g.nodes n).outs.length + 1 - i
  | _ => 0

/-! ## What a step can do -/

inductive Move (g : GraphRec) (dir : Dir) (s : State) : Act → State → Prop
  | claim (n : Nat) (hn : n < g.nrNodes) (hpc : s.pc n = .unclaimed) :
      Move g dir s (.claim n) (s.goto n (.inbound 0 false))
  | openIn (n i e : Nat) (err : Bool) (ans : Answer) (ops : Ops) (hpc : s.pc n = .inbound i err)
      (hi : (g.nodes n).ins[i]? = some e) (hops : (g.edges e).ops = some ops)
      (ho : openConsumer dir s e ans ops = true) :
      Move g dir s (.run n ans)
        ({ s with reader := update s.reader e true }.goto n (.inbound (i + 1) err))
  | failIn (n i e : Nat) (err : Bool) (ans : Answer) (ops : Ops) (hpc : s.pc n = .inbound i err)
      (hi : (g.nodes n).ins[i]? = some e) (hops : (g.edges e).ops = some ops)
      (ho : openConsumer dir s e ans ops = false) :
      Move g dir s (.run n ans) (s.goto n (.inbound (i + 1) true))
  | endIn (n i : Nat) (err : Bool) (ans : Answer) (hpc : s.pc n = .inbound i err)
      (hi : (g.nodes n).ins[i]? = none) : Move g dir s (.run n ans) (s.goto n (.outbound 0 err))
  | openOut (n i e : Nat) (err : Bool) (ans : Answer) (ops : Ops) (hpc : s.pc n = .outbound i err)
      (hi : (g.nodes n).outs[i]? = some e) (hops : (g.edges e).ops = some ops)
      (ho : openProducer g dir s e ans ops = .opened) :
      Move g dir s (.run n ans) (s.opened n i e err)
  | failOut (n i e : Nat) (err : Bool) (ans : Answer) (ops : Ops) (hpc : s.pc n = .outbound i err)
      (hi : (g.nodes n).outs[i]? = some e) (hops : (g.edges e).ops = some ops)
      (ho : openProducer g dir s e ans ops = .failed) :
      Move g dir s (.run n ans) (s.goto n (.outbound (i + 1) true))
  | again (n i e : Nat) (err : Bool) (ans : Answer) (ops : Ops) (hpc : s.pc n = .outbound i err)
      (hi : (g.nodes n).outs[i]? = some e) (hops : (g.edges e).ops = some ops)
      (ho : openProducer g dir s e ans ops = .again) : Move g dir s (.run n ans) s
  | listens (n i e : Nat) (err : Bool) (ans : Answer) (ops : Ops) (hpc : s.pc n = .outbound i err)
      (hi : (g.nodes n).outs[i]? = some e) (hops : (g.edges e).ops = some ops)
      (ho : openProducer g dir s e ans ops = .listens) :
      Move g dir s (.run n ans)
        ({ s with listening := update s.listening e true }.goto n (.accept i err))
  | accepts (n i e : Nat) (err : Bool) (ans : Answer) (hpc : s.pc n = .accept i err)
      (hi : (g.nodes n).outs[i]? = some e) (hans : ans ≠ .fail) (hr : s.reader e = true) :
      Move g dir s (.run n ans) (s.opened n i e err)
  | failAccept (n i e : Nat) (err : Bool) (hpc : s.pc n = .accept i err)
      (hi : (g.nodes n).outs[i]? = some e) :
      Move g dir s (.run n .fail) (s.goto n (.outbound (i + 1) true))
  | endOut (n i : Nat) (err : Bool) (ans : Answer) (hpc : s.pc n = .outbound i err)
      (hi : (g.nodes n).outs[i]? = none) : Move g dir s (.run n ans) (s.goto n (.returned err))

section

variable {g : GraphRec} {dir : Dir} {s s' : State} {a : Act} {n e : Nat} {ans : Answer}

theorem claimStep_move (h : claimStep g dir s n ans = some s') :
    Move g dir s (.run n ans) s' := by
  unfold claimStep at h
  cases hpc : s.pc n with
  | unclaimed | returned err => simp [hpc] at h
  | inbound i err =>
    simp only [hpc] at h
    cases hi : (g.nodes n).ins[i]? with
    | none =>
      simp only [hi, Option.some.injEq] at h
      exact h ▸ .endIn n i err ans hpc hi
    | some e =>
      simp only [hi] at h
      obtain ⟨ops, hops, rfl⟩ := Option.map_eq_some_iff.mp h
      split_ifs with ho
      · exact .openIn n i e err ans ops hpc hi hops ho
      · exact .failIn n i e err ans ops hpc hi hops (Bool.eq_false_iff.mpr ho)
  | outbound i err =>
    simp only [hpc] at h
    cases hi : (g.nodes n).outs[i]? with
    | none =>
      simp only [hi, Option.some.injEq] at h
      exact h ▸ .endOut n i err ans hpc hi
    | some e =>
      simp only [hi] at h
      obtain ⟨ops, hops, rfl⟩ := Option.map_eq_some_iff.mp h
      cases ho : openProducer g dir s e ans ops with
      | opened => exact .openOut n i e err ans ops hpc hi hops ho
      | failed => exact .failOut n i e err ans ops hpc hi hops ho
      | again => exact .again n i e err ans ops hpc hi hops ho
      | listens => exact .listens n i e err ans ops hpc hi hops ho
  | accept i err =>
    simp only [hpc] at h
    cases hi : (g.nodes n).outs[i]? with
    | none => simp [hi] at h
    | some e =>
      simp only [hi] at h
      split_ifs at h with hfail hr
      · subst hfail
        exact Option.some.inj h ▸ .failAccept n i e err hpc hi
      · exact Option.some.inj h ▸ .accepts n i e err ans hpc hi hfail hr

theorem step_move (h : step g dir s a = some s') : Move g dir s a s' := by
  cases a with
  | claim n =>
    obtain ⟨⟨hn, hpc⟩, hs⟩ := Option.ite_none_right_eq_some.mp h
    exact Option.some.inj hs ▸ .claim n hn hpc
  | run n ans => exact claimStep_move h

/-! ## Open ends -/

theorem readEnd_mono {r r' : Nat → Bool} {ops : Ops} (hr : ∀ d, r d = true → r' d = true)
    (h : readEnd g dir r e ops = true) : readEnd g dir r' e ops = true := by
  cases ops with
  | fifo =>
    simp only [readEnd, List.any_eq_true, Bool.and_eq_true] at h ⊢
    obtain ⟨d, hd, hfile, hopen⟩ := h
    exact ⟨d, hd, hfile, hr d hopen⟩
  | _ => exact hr e h

theorem readEnd_of_reader {r : Nat → Bool} {ops : Ops} (he : e < g.nrEdges)
    (hops : (g.edges e).ops = some ops) (h : r e = true) : readEnd g dir r e ops = true := by
  cases ops with
  | fifo => exact List.any_eq_true.mpr ⟨e, List.mem_range.mpr he, by simp [hops, h]⟩
  | _ => exact h

/-- With a FIFO of its own the edge is the one that is open for reading. -/
theorem reader_of_readEnd {r : Nat → Bool} {ops : Ops} (hown : OwnFifos g dir) (he : e < g.nrEdges)
    (hops : (g.edges e).ops = some ops) (h : readEnd g dir r e ops = true) : r e = true := by
  cases ops with
  | fifo =>
    simp only [readEnd, List.any_eq_true, List.mem_range, Bool.and_eq_true, beq_iff_eq] at h
    obtain ⟨d, hd, ⟨hfifo, hfile⟩, hopen⟩ := h
    obtain rfl := hown e he d hd hops hfifo hfile.symm
    exact hopen
  | _ => exact h

theorem mem_ins (hg : Represents g) (hn : n < g.nrNodes) :
    e ∈ (g.nodes n).ins ↔ e < g.nrEdges ∧ (g.edges e).consumer = n := by
  rw [hg.ins n hn]
  simp

theorem mem_outs (hg : Represents g) (hn : n < g.nrNodes) :
    e ∈ (g.nodes n).outs ↔ e < g.nrEdges ∧ (g.edges e).producer = n := by
  rw [hg.outs n hn]
  simp

theorem ins_nodup (hg : Represents g) (hn : n < g.nrNodes) : (g.nodes n).ins.Nodup := by
  rw [hg.ins n hn]
  exact List.nodup_range.filter _

theorem outs_nodup (hg : Represents g) (hn : n < g.nrNodes) : (g.nodes n).outs.Nodup := by
  rw [hg.outs n hn]
  exact List.nodup_range.filter _

theorem mem_of_passedIn {p : Pc} {l : List Nat} (h : e ∈ p.passedIn l) : e ∈ l := by
  cases p with
  | unclaimed => cases h
  | inbound i err => exact List.mem_of_mem_take h
  | _ => exact h

theorem mem_of_passedOut {p : Pc} {l : List Nat} (h : e ∈ p.passedOut l) : e ∈ l := by
  cases p with
  | unclaimed | inbound i err => cases h
  | outbound i err | accept i err => exact List.mem_of_mem_take h
  | returned err => exact h

theorem Inv.lt (hi : Inv g dir s) (h : s.pc n ≠ .unclaimed) : n < g.nrNodes :=
  Nat.lt_of_not_le (fun hle => h (hi.nodes n hle))

/-- An in-edge that a claim has passed is one of its node. -/
theorem Inv.consumer (hg : Represents g) (hi : Inv g dir s) (h : e ∈ s.passedIn g n) :
    (g.edges e).consumer = n := by
  have hn : n < g.nrNodes := hi.lt (fun hpc => by
    simp [State.passedIn, hpc, Pc.passedIn] at h)
  exact ((mem_ins hg hn).mp (mem_of_passedIn h)).2

theorem Inv.producer (hg : Represents g) (hi : Inv g dir s) (h : e ∈ s.passedOut g n) :
    (g.edges e).producer = n := by
  have hn : n < g.nrNodes := hi.lt (fun hpc => by
    simp [State.passedOut, hpc, Pc.passedOut] at h)
  exact ((mem_outs hg hn).mp (mem_of_passedOut h)).2

/-- The consumer's end of an edge is open only if the claim of the consumer has passed it. -/
theorem Inv.reader_false (hg : Represents g) (hi : Inv g dir s) (hc : (g.edges e).consumer = n)
    (h : e ∉ s.passedIn g n) : s.reader e = false := by
  by_contra hr
  obtain ⟨m, hm⟩ := hi.reader e (by simpa using hr)
  rw [← hc, hi.consumer hg hm] at h
  exact h hm

theorem Inv.writer_false (hg : Represents g) (hi : Inv g dir s) (hp : (g.edges e).producer = n)
    (h : e ∉ s.passedOut g n) : s.writer e = false := by
  by_contra hr
  obtain ⟨m, hm⟩ := hi.writer e (by simpa using hr)
  rw [← hp, hi.producer hg hm] at h
  exact h hm

/-- The claim of node `n` goes on to `p` and may open ends of its own node. -/
theorem Inv.move (hg : Represents g) (hi : Inv g dir s) (hn : n < g.nrNodes) {p : Pc}
    {r w l : Nat → Bool} (hr : ∀ e, (g.edges e).consumer ≠ n → r e = s.reader e)
    (hw : ∀ e, (g.edges e).producer ≠ n → w e = s.writer e)
    (hin : ∀ e, r e = true ∧ s.reader e = false ∨ e ∈ s.passedIn g n →
      e ∈ p.passedIn (g.nodes n).ins)
    (hout : ∀ e, w e = true ∧ s.writer e = false ∨ e ∈ s.passedOut g n →
      e ∈ p.passedOut (g.nodes n).outs)
    (herr : p.err = false ↔ (∀ e ∈ p.passedIn (g.nodes n).ins, r e = true) ∧
      ∀ e ∈ p.passedOut (g.nodes n).outs, w e = true)
    (hpair : ∀ e ops, (g.edges e).ops = some ops → ops = .fifo ∨ ops = .sockStream →
      w e = true → readEnd g dir r e ops = true) :
    Inv g dir ⟨update s.pc n p, r, w, l⟩ := by
  have hpc : ∀ m, m ≠ n → update s.pc n p m = s.pc m := fun m hm => update_of_ne hm _ _
  refine ⟨?_, ?_, ?_, ?_, hpair⟩
  · intro m hm
    have hmn : m ≠ n := by
      rintro rfl
      omega
    exact (hpc m hmn).trans (hi.nodes m hm)
  · intro e he
    by_cases hold : s.reader e = true
    · obtain ⟨m, hm⟩ := hi.reader e hold
      by_cases hmn : m = n
      · subst hmn
        exact ⟨m, by simpa [State.passedIn] using hin e (Or.inr hm)⟩
      · exact ⟨m, by simpa [State.passedIn, hpc m hmn] using hm⟩
    · exact ⟨n, by simpa [State.passedIn] using hin e (Or.inl ⟨he, by simpa using hold⟩)⟩
  · intro e he
    by_cases hold : s.writer e = true
    · obtain ⟨m, hm⟩ := hi.writer e hold
      by_cases hmn : m = n
      · subst hmn
        exact ⟨m, by simpa [State.passedOut] using hout e (Or.inr hm)⟩
      · exact ⟨m, by simpa [State.passedOut, hpc m hmn] using hm⟩
    · exact ⟨n, by simpa [State.passedOut] using hout e (Or.inl ⟨he, by simpa using hold⟩)⟩
  · intro m
    by_cases hmn : m = n
    · subst hmn
      simpa [State.passedIn, State.passedOut] using herr
    · -- the ends of another node are those of other edges
      have hin' : ∀ e ∈ s.passedIn g m, r e = s.reader e := by
        intro e he
        exact hr e (fun hc => hmn ((hi.consumer hg he).symm.trans hc))
      have hout' : ∀ e ∈ s.passedOut g m, w e = s.writer e := by
        intro e he
        exact hw e (fun hc => hmn ((hi.producer hg he).symm.trans hc))
      simp only [State.passedIn, State.passedOut, hpc m hmn]
      rw [hi.err m]
      refine and_congr (forall₂_congr fun e he => ?_) (forall₂_congr fun e he => ?_)
      · rw [hin' e he]
      · rw [hout' e he]

/-- The claim goes on and passes no edge. -/
theorem Inv.quiet (hg : Represents g) (hi : Inv g dir s) (hn : n < g.nrNodes) {p : Pc}
    {l : Nat → Bool} (hin : p.passedIn (g.nodes n).ins = s.passedIn g n)
    (hout : p.passedOut (g.nodes n).outs = s.passedOut g n) (herr : p.err = (s.pc n).err) :
    Inv g dir ⟨update s.pc n p, s.reader, s.writer, l⟩ := by
  refine hi.move hg hn (fun _ _ => rfl) (fun _ _ => rfl) ?_ ?_ ?_ hi.paired
  · rintro e (⟨h, h'⟩ | he)
    · rw [h] at h'
      cases h'
    · rw [hin]
      exact he
  · rintro e (⟨h, h'⟩ | he)
    · rw [h] at h'
      cases h'
    · rw [hout]
      exact he
  · rw [hin, hout, herr]
    exact hi.err n

/-- One more end has been passed, and `b` says whether it is open. -/
theorem forall_take_update {l : List Nat} {f : Nat → Bool} {i : Nat} {b : Bool} (hnd : l.Nodup)
    (hat : l[i]? = some e) : (∀ x ∈ l.take (i + 1), update f e b x = true) ↔
      (∀ x ∈ l.take i, f x = true) ∧ b = true := by
  have hsame : ∀ x ∈ l.take i, update f e b x = f x := by
    intro x hx
    have hne : x ≠ e := by
      rintro rfl
      exact Scan.not_mem_take hnd hat hx
    exact update_of_ne hne _ _
  simp only [Scan.mem_take_succ hat]
  constructor
  · intro hall
    refine ⟨fun x hx => ?_, ?_⟩
    · rw [← hsame x hx]
      exact hall x (Or.inl hx)
    · have hopen := hall e (Or.inr rfl)
      rwa [Function.update_self] at hopen
  · rintro ⟨hall, hopen⟩ x (hx | rfl)
    · rw [hsame x hx]
      exact hall x hx
    · rwa [Function.update_self]

/-- The claim passes an in-edge, which it has opened if `b` says so. -/
theorem Inv.passIn {i : Nat} {err b : Bool} (hg : Represents g) (hi : Inv g dir s)
    (hpc : s.pc n = .inbound i err) (hat : (g.nodes n).ins[i]? = some e) :
    Inv g dir ⟨update s.pc n (.inbound (i + 1) (err || !b)), update s.reader e b, s.writer,
      s.listening⟩ := by
  have hn : n < g.nrNodes := hi.lt (by simp [hpc])
  have hcons := ((mem_ins hg hn).mp (List.mem_of_getElem? hat)).2
  have hnot := Scan.not_mem_take (ins_nodup hg hn) hat
  have hpassed : s.passedIn g n = (g.nodes n).ins.take i := by simp [State.passedIn, hpc, Pc.passedIn]
  have hold : s.reader e = false := hi.reader_false hg hcons (by rw [hpassed]; exact hnot)
  refine hi.move hg hn ?_ (fun _ _ => rfl) ?_ ?_ ?_ ?_
  · intro e' hc
    have hne : e' ≠ e := by
      rintro rfl
      exact hc hcons
    exact update_of_ne hne _ _
  · intro e' he'
    change e' ∈ (g.nodes n).ins.take (i + 1)
    rw [Scan.mem_take_succ hat, ← hpassed]
    rcases he' with ⟨hnew, hwas⟩ | he'
    · right
      by_contra hne
      rw [update_of_ne hne, hwas] at hnew
      cases hnew
    · exact Or.inl he'
  · rintro e' (⟨hnew, hwas⟩ | he')
    · rw [hnew] at hwas
      cases hwas
    · simp [State.passedOut, hpc, Pc.passedOut] at he'
  · have hwas := hi.err n
    simp only [hpc, Pc.err, hpassed, State.passedOut, Pc.passedOut] at hwas
    simp only [Pc.err, Pc.passedIn, Pc.passedOut, forall_take_update (ins_nodup hg hn) hat,
      Bool.or_eq_false_iff, hwas]
    simp
  · intro e' ops hops hkind hwriter
    refine readEnd_mono (fun d hd => ?_) (hi.paired e' ops hops hkind hwriter)
    rw [update_of_ne, hd]
    rintro rfl
    rw [hold] at hd
    cases hd

/-- The claim passes an out-edge, which it has opened if `b` says so. -/
theorem Inv.passOut {i : Nat} {err b : Bool} (hg : Represents g) (hi : Inv g dir s)
    (hpc : s.pc n = .outbound i err ∨ s.pc n = .accept i err)
    (hat : (g.nodes n).outs[i]? = some e)
    (hb : b = true → ∀ ops, (g.edges e).ops = some ops → ops = .fifo ∨ ops = .sockStream →
      readEnd g dir s.reader e ops = true) :
    Inv g dir ⟨update s.pc n (.outbound (i + 1) (err || !b)), s.reader, update s.writer e b,
      s.listening⟩ := by
  have hn : n < g.nrNodes := hi.lt (by rcases hpc with h | h <;> simp [h])
  have hprod := ((mem_outs hg hn).mp (List.mem_of_getElem? hat)).2
  have hpassed : s.passedOut g n = (g.nodes n).outs.take i := by
    rcases hpc with h | h <;> simp [State.passedOut, h, Pc.passedOut]
  have hins : s.passedIn g n = (g.nodes n).ins := by
    rcases hpc with h | h <;> simp [State.passedIn, h, Pc.passedIn]
  have herr : (s.pc n).err = err := by rcases hpc with h | h <;> simp [h, Pc.err]
  refine hi.move hg hn (fun _ _ => rfl) ?_ ?_ ?_ ?_ ?_
  · intro e' hp
    have hne : e' ≠ e := by
      rintro rfl
      exact hp hprod
    exact update_of_ne hne _ _
  · rintro e' (⟨hnew, hwas⟩ | he')
    · rw [hnew] at hwas
      cases hwas
    · rw [hins] at he'
      exact he'
  · intro e' he'
    change e' ∈ (g.nodes n).outs.take (i + 1)
    rw [Scan.mem_take_succ hat, ← hpassed]
    rcases he' with ⟨hnew, hwas⟩ | he'
    · right
      by_contra hne
      rw [update_of_ne hne, hwas] at hnew
      cases hnew
    · exact Or.inl he'
  · have hwas := hi.err n
    rw [herr, hpassed, hins] at hwas
    simp only [Pc.err, Pc.passedIn, Pc.passedOut, forall_take_update (outs_nodup hg hn) hat,
      Bool.or_eq_false_iff, hwas]
    simp [and_assoc]
  · intro e' ops hops hkind hwriter
    by_cases hee : e' = e
    · subst hee
      rw [Function.update_self] at hwriter
      exact hb hwriter ops hops hkind
    · rw [update_of_ne hee] at hwriter
      exact hi.paired e' ops hops hkind hwriter

/-- An end that has not been passed is not open. -/
theorem Inv.not_read {i : Nat} {err : Bool} (hg : Represents g) (hi : Inv g dir s)
    (hpc : s.pc n = .inbound i err) (hat : (g.nodes n).ins[i]? = some e) : s.reader e = false := by
  have hn : n < g.nrNodes := hi.lt (by simp [hpc])
  refine hi.reader_false hg ((mem_ins hg hn).mp (List.mem_of_getElem? hat)).2 ?_
  simp only [State.passedIn, hpc, Pc.passedIn]
  exact Scan.not_mem_take (ins_nodup hg hn) hat

theorem Inv.not_written {i : Nat} {err : Bool} (hg : Represents g) (hi : Inv g dir s)
    (hpc : s.pc n = .outbound i err ∨ s.pc n = .accept i err)
    (hat : (g.nodes n).outs[i]? = some e) : s.writer e = false := by
  have hn : n < g.nrNodes := hi.lt (by rcases hpc with h | h <;> simp [h])
  refine hi.writer_false hg ((mem_outs hg hn).mp (List.mem_of_getElem? hat)).2 ?_
  have hnot := Scan.not_mem_take (outs_nodup hg hn) hat
  rcases hpc with h | h <;> simpa [State.passedOut, h, Pc.passedOut] using hnot

/-- The claim passes an out-edge that it could not open. -/
theorem Inv.failOut {i : Nat} {err : Bool} (hg : Represents g) (hi : Inv g dir s)
    (hpc : s.pc n = .outbound i err ∨ s.pc n = .accept i err)
    (hat : (g.nodes n).outs[i]? = some e) : Inv g dir (s.goto n (.outbound (i + 1) true)) := by
  have hsame : update s.writer e false = s.writer :=
    Function.update_eq_self_iff.mpr (hi.not_written hg hpc hat).symm
  have hpass := hi.passOut (b := false) hg hpc hat (by simp)
  rwa [Bool.not_false, Bool.or_true, hsame] at hpass

theorem readEnd_of_opened {ops : Ops} (h : openProducer g dir s e ans ops = .opened)
    (hkind : ops = .fifo ∨ ops = .sockStream) : readEnd g dir s.reader e ops = true := by
  rcases hkind with rfl | rfl
  · simp only [openProducer] at h
    split_ifs at h with hfail hread hlate
    exact hread
  · simp only [openProducer] at h
    split_ifs at h

/-- **One step.** -/
theorem step_inv (hg : Represents g) (hi : Inv g dir s) (h : step g dir s a = some s') :
    Inv g dir s' := by
  cases step_move h with
  | claim n hn hpc =>
    exact hi.quiet hg hn (by simp [State.passedIn, hpc, Pc.passedIn])
      (by simp [State.passedOut, hpc, Pc.passedOut]) (by simp [hpc, Pc.err])
  | openIn n i e err ans ops hpc hat hops ho =>
    have hpass := hi.passIn (b := true) hg hpc hat
    rwa [Bool.not_true, Bool.or_false] at hpass
  | failIn n i e err ans ops hpc hat hops ho =>
    have hsame : update s.reader e false = s.reader :=
      Function.update_eq_self_iff.mpr (hi.not_read hg hpc hat).symm
    have hpass := hi.passIn (b := false) hg hpc hat
    rwa [Bool.not_false, Bool.or_true, hsame] at hpass
  | endIn n i err ans hpc hat =>
    exact hi.quiet hg (hi.lt (by simp [hpc]))
      (by simp [State.passedIn, hpc, Pc.passedIn, Scan.take_of_end hat])
      (by simp [State.passedOut, hpc, Pc.passedOut]) (by simp [hpc, Pc.err])
  | openOut n i e err ans ops hpc hat hops ho =>
    have hpass := hi.passOut (b := true) hg (Or.inl hpc) hat (by
      intro _ ops' hops' hkind
      obtain rfl : ops = ops' := Option.some.inj (hops.symm.trans hops')
      exact readEnd_of_opened ho hkind)
    rwa [Bool.not_true, Bool.or_false] at hpass
  | failOut n i e err ans ops hpc hat hops ho => exact hi.failOut hg (Or.inl hpc) hat
  | again n i e err ans ops hpc hat hops ho => exact hi
  | listens n i e err ans ops hpc hat hops ho =>
    exact hi.quiet hg (hi.lt (by simp [hpc])) (by simp [State.passedIn, hpc, Pc.passedIn])
      (by simp [State.passedOut, hpc, Pc.passedOut]) (by simp [hpc, Pc.err])
  | accepts n i e err ans hpc hat hans hr =>
    have he := ((mem_outs hg (hi.lt (by simp [hpc]))).mp (List.mem_of_getElem? hat)).1
    have hpass := hi.passOut (b := true) hg (Or.inr hpc) hat
      (fun _ _ hops _ => readEnd_of_reader he hops hr)
    rwa [Bool.not_true, Bool.or_false] at hpass
  | failAccept n i e err hpc hat => exact hi.failOut hg (Or.inr hpc) hat
  | endOut n i err ans hpc hat =>
    exact hi.quiet hg (hi.lt (by simp [hpc])) (by simp [State.passedIn, hpc, Pc.passedIn])
      (by simp [State.passedOut, hpc, Pc.passedOut, Scan.take_of_end hat]) (by simp [hpc, Pc.err])

theorem start_inv (g : GraphRec) (dir : Dir) : Inv g dir start where
  nodes _ _ := rfl
  reader := by rintro _ ⟨⟩
  writer := by rintro _ ⟨⟩
  err n := iff_of_true rfl ⟨by rintro _ ⟨⟩, by rintro _ ⟨⟩⟩
  paired := by rintro _ _ _ _ ⟨⟩

theorem inv_of_reach {P : State → Act → Prop} (hg : Represents g)
    (h : Lts.Reach (step g dir) P start s) : Inv g dir s :=
  Lts.Reach.inv (I := Inv g dir) (start_inv g dir) (fun _ _ _ _ hi _ hs => step_inv hg hi hs) h

/-- **What a claim reports.** Whatever fails and however the claims are interleaved: a claim that
returns reports what `pgm_claim_node` reports for the ends that are open, and an end for writing to a
FIFO or a socket is open only if the other end is, provided that no two edges share a FIFO. -/
theorem claim_reports_ends {P : State → Act → Prop} (hg : Represents g) (hown : OwnFifos g dir)
    (h : Lts.Reach (step g dir) P start s) {err : Bool} (hpc : s.pc n = .returned err) :
    (!err) = g.endsOk n ⟨s.reader, s.writer⟩ ∧
      ∀ e ∈ (g.nodes n).outs, ∀ ops, (g.edges e).ops = some ops → ops = .fifo ∨ ops = .sockStream →
        s.writer e = true → s.reader e = true := by
  have hi := inv_of_reach hg h
  refine ⟨?_, fun e he ops hops hkind hw => ?_⟩
  · have herr := hi.err n
    simp only [State.passedIn, State.passedOut, hpc, Pc.passedIn, Pc.passedOut, Pc.err] at herr
    rw [Bool.eq_iff_iff, Bool.not_eq_true', herr]
    simp [GraphRec.endsOk, List.all_eq_true]
  · have hn : n < g.nrNodes := hi.lt (by simp [hpc])
    exact reader_of_readEnd hown ((mem_outs hg hn).mp he).1 hops (hi.paired e ops hops hkind hw)

def Dir.ofStore (hash : List UInt8 → Nat) (graphPath : List UInt8) (s : Store) (i : Nat) : Dir :=
  ⟨s.lib.pathSet, (s.lib.graphs i).fifoName hash graphPath (s.names i)⟩

/-- The graphs of a store have FIFOs of their own while every new name is unused. -/
theorem ownFifos_of_reach {hash : List UInt8 → Nat} {graphPath : List UInt8} {s₀ s : Store}
    {i : Nat} (h₀ : s₀.Empty) (hpath : s₀.lib.pathSet = true)
    (h : Lts.Reach (storeStep hash graphPath)
      (fun s c => shortNames s c = true ∧ unusedName hash graphPath s c = true) s₀ s)
    (huse : (s.lib.graphs i).inUse = true) :
    OwnFifos (s.lib.graphs i) (.ofStore hash graphPath s i) := by
  intro e _ d _ he hd hfile
  exact (Prod.mk.inj ((exact_of_reach h₀ hpath h).apart ⟨huse, he⟩ ⟨huse, hd⟩ hfile)).2

/-- Two nodes with an edge to and a back edge from each other, both of the same kind. -/
def circleCalls (attr : Tables.Attr) : List Tables.Call :=
  [.node nameA, .node nameB, .edge quietEnv 0 1 ⟨nameA, attr, none⟩,
    .edge quietEnv 1 0 ⟨nameB, attr, some 1⟩]

def circle (attr : Tables.Attr) : GraphRec :=
  match Lts.run (Tables.step 0) ⟨fun _ => .fresh, true, true, true⟩ (circleCalls attr) with
  | some l => l.graphs 0
  | none => .fresh

theorem circle_represents (attr : Tables.Attr) : Represents (circle attr) := by
  unfold circle
  split
  · rename_i l hl
    exact Lts.run_inv (P := fun _ _ => True) (I := fun l : Lib => Represents (l.graphs 0))
      (fun l a l' hi _ (hs : Tables.step 0 l a = some l') => step_represents hi hs)
      fresh_represents hl (Lts.meets_of_forall (p := fun _ => True) (fun _ _ => trivial))
  · exact fresh_represents

def fifoCircle : GraphRec := circle Tables.fifoAttr

def circleDir : Dir := ⟨true, fifoCircle.fifoName hashRange tmpG nameA.bytes⟩

theorem circle_ownFifos : OwnFifos fifoCircle circleDir := by
  have happart : ∀ e < fifoCircle.nrEdges, ∀ d < fifoCircle.nrEdges,
      circleDir.fifo e = circleDir.fifo d → e = d := by decide +kernel
  exact fun e he d hd _ _ => happart e he d hd

/-- The consumer of edge 0 is not there, and after 60 seconds the claim of its producer gives up. -/
theorem circle_times_out : ∃ s, Lts.Reach (step fifoCircle circleDir) (fun _ _ => True) start s ∧
    s.pc 0 = .returned true ∧ fifoCircle.endsOk 0 ⟨s.reader, s.writer⟩ = false := by
  have hd : (Lts.drive (step fifoCircle circleDir) (fun _ _ => true) start
      [.claim 0, .run 0 .ok, .run 0 .ok, .run 0 .ok, .run 0 .timeout, .run 0 .ok]).map
        (fun s => s.pc 0) = some (.returned true) := by decide +kernel
  obtain ⟨s, hs, hpc⟩ := Lts.reach_of_drive_map (P := fun _ _ => True) (fun _ _ _ => trivial) hd
  exact ⟨s, hs, hpc, (claim_reports_ends (circle_represents _) circle_ownFifos hs hpc).1.symm⟩

/-! ## Without sockets -/

theorem openConsumer_smooth {ops : Ops} (hs : ops ≠ .sockStream)
    (hf : ops = .fifo → dir.pathSet = true) : openConsumer dir s e .ok ops = true := by
  cases ops with
  | sockStream => exact absurd rfl hs
  | fifo => simp [openConsumer, hf rfl]
  | _ => rfl

/-- Only a FIFO that nobody reads yet is tried again. -/
theorem openProducer_smooth {ops : Ops} (hs : ops ≠ .sockStream)
    (hf : ops = .fifo → dir.pathSet = true) : openProducer g dir s e .ok ops = .opened ∨
      openProducer g dir s e .ok ops = .again ∧ readEnd g dir s.reader e ops = false := by
  cases ops with
  | sockStream => exact absurd rfl hs
  | fifo => cases hr : readEnd g dir s.reader e .fifo <;> simp [openProducer, hf rfl, hr]
  | _ => exact Or.inl rfl

inductive SmoothMove (g : GraphRec) (s : State) (n : Nat) : State → Prop
  | openIn (i e : Nat) (hpc : s.pc n = .inbound i false) (hi : (g.nodes n).ins[i]? = some e) :
      SmoothMove g s n ({ s with reader := update s.reader e true }.goto n (.inbound (i + 1) false))
  | endIn (i : Nat) (hpc : s.pc n = .inbound i false) (hi : (g.nodes n).ins[i]? = none) :
      SmoothMove g s n (s.goto n (.outbound 0 false))
  | openOut (i e : Nat) (hpc : s.pc n = .outbound i false) (hi : (g.nodes n).outs[i]? = some e) :
      SmoothMove g s n (s.opened n i e false)
  | again (i e : Nat) (hpc : s.pc n = .outbound i false) (hi : (g.nodes n).outs[i]? = some e)
      (hr : s.reader e = false) : SmoothMove g s n s
  | endOut (i : Nat) (hpc : s.pc n = .outbound i false) (hi : (g.nodes n).outs[i]? = none) :
      SmoothMove g s n (s.goto n (.returned false))

theorem smoothMove (hg : Represents g) (hplain : NoSockets g dir) (hinv : Inv g dir s)
    (hsm : (s.pc n).Smooth g n) (h : step g dir s (.run n .ok) = some s') :
    SmoothMove g s n s' := by
  have hops : ∀ {e ops}, e < g.nrEdges → (g.edges e).ops = some ops →
      ops ≠ .sockStream ∧ (ops = .fifo → dir.pathSet = true) := by
    intro e ops he hops
    obtain ⟨ops', hops', hkind⟩ := hplain e he
    obtain rfl : ops' = ops := Option.some.inj (hops'.symm.trans hops)
    exact hkind
  cases step_move h with
  | openIn _ i e err _ ops hpc hi ho hopen =>
    rw [hpc] at hsm
    obtain rfl : err = false := hsm.1
    exact .openIn i e hpc hi
  | failIn _ i e err _ ops hpc hi ho hopen =>
    have hn := hinv.lt (n := n) (by simp [hpc])
    obtain ⟨hs, hf⟩ := hops ((mem_ins hg hn).mp (List.mem_of_getElem? hi)).1 ho
    rw [openConsumer_smooth hs hf] at hopen
    cases hopen
  | endIn _ i err _ hpc hi =>
    rw [hpc] at hsm
    obtain rfl : err = false := hsm.1
    exact .endIn i hpc hi
  | openOut _ i e err _ ops hpc hi ho hopen =>
    rw [hpc] at hsm
    obtain rfl : err = false := hsm.1
    exact .openOut i e hpc hi
  | failOut _ i e err _ ops hpc hi ho hopen | listens _ i e err _ ops hpc hi ho hopen =>
    have hn := hinv.lt (n := n) (by simp [hpc])
    obtain ⟨hs, hf⟩ := hops ((mem_outs hg hn).mp (List.mem_of_getElem? hi)).1 ho
    rcases openProducer_smooth (s := s) (e := e) hs hf with h | ⟨h, -⟩ <;> rw [h] at hopen <;> cases hopen
  | again _ i e err _ ops hpc hi ho hopen =>
    have hn := hinv.lt (n := n) (by simp [hpc])
    have he := ((mem_outs hg hn).mp (List.mem_of_getElem? hi)).1
    obtain ⟨hs, hf⟩ := hops he ho
    rw [hpc] at hsm
    obtain rfl : err = false := hsm.1
    rcases openProducer_smooth (s := s) (e := e) hs hf with h | ⟨-, hr⟩
    · rw [h] at hopen
      cases hopen
    · refine .again i e hpc hi ?_
      by_contra hopen
      rw [readEnd_of_reader he ho (by simpa using hopen)] at hr
      cases hr
  | accepts _ i e err _ hpc =>
    rw [hpc] at hsm
    exact hsm.elim
  | endOut _ i err _ hpc hi =>
    rw [hpc] at hsm
    obtain rfl : err = false := hsm.1
    exact .endOut i hpc hi

/-- What is known along a run in which nothing fails. -/
structure SmoothInv (g : GraphRec) (dir : Dir) (s : State) : Prop where
  inv : Inv g dir s
  smooth : ∀ n, (s.pc n).Smooth g n

theorem goto_pc_self (s : State) (n : Nat) (p : Pc) : (s.goto n p).pc n = p :=
  Function.update_self _ _ _

theorem goto_pc_of_ne {m : Nat} (s : State) (p : Pc) (h : m ≠ n) : (s.goto n p).pc m = s.pc m :=
  update_of_ne h _ _

/-- A step concerns the claim of one node. -/
theorem SmoothMove.other {m : Nat} (hm : SmoothMove g s n s') (h : m ≠ n) : s'.pc m = s.pc m := by
  cases hm with
  | again => rfl
  | _ => exact goto_pc_of_ne _ _ h

theorem SmoothMove.smooth (hm : SmoothMove g s n s') : (s'.pc n).Smooth g n := by
  cases hm with
  | openIn i e hpc hi =>
    rw [goto_pc_self]
    exact ⟨rfl, (List.getElem?_eq_some_iff.mp hi).1⟩
  | endIn i hpc hi =>
    rw [goto_pc_self]
    exact ⟨rfl, Nat.zero_le _⟩
  | openOut i e hpc hi =>
    rw [State.opened, goto_pc_self]
    exact ⟨rfl, (List.getElem?_eq_some_iff.mp hi).1⟩
  | again i e hpc hi hr =>
    rw [hpc]
    exact ⟨rfl, (List.getElem?_eq_some_iff.mp hi).1.le⟩
  | endOut i hpc hi =>
    rw [goto_pc_self]
    exact rfl

variable (hg : Represents g) (hplain : NoSockets g dir)
include hg hplain

theorem step_smoothInv (hi : SmoothInv g dir s) (ha : Smooth s a)
    (h : step g dir s a = some s') : SmoothInv g dir s' := by
  refine ⟨step_inv hg hi.inv h, ?_⟩
  intro m
  cases a with
  | claim n =>
    cases step_move h with
    | claim _ hn hpc =>
      by_cases hm : m = n
      · subst hm
        rw [goto_pc_self]
        exact ⟨rfl, Nat.zero_le _⟩
      · rw [goto_pc_of_ne _ _ hm]
        exact hi.smooth m
  | run n ans =>
    obtain rfl := ha n ans rfl
    have hmove := smoothMove hg hplain hi.inv (hi.smooth n) h
    by_cases hm : m = n
    · subst hm
      exact hmove.smooth
    · rw [hmove.other hm]
      exact hi.smooth m

theorem smoothInv_of_reach (h : Lts.Reach (step g dir) Smooth start s) : SmoothInv g dir s :=
  Lts.Reach.inv (I := SmoothInv g dir) ⟨start_inv g dir, fun _ => trivial⟩
    (fun _ _ _ _ hi ha hs => step_smoothInv hg hplain hi ha hs) h

/-- A claim that has not returned goes on. -/
theorem exists_step (hi : SmoothInv g dir s) (hclaimed : s.pc n ≠ .unclaimed)
    (hret : (s.pc n).isReturned = false) : (step g dir s (.run n .ok)).isSome = true := by
  have hn := hi.inv.lt hclaimed
  have hsm := hi.smooth n
  cases hpc : s.pc n with
  | unclaimed => exact absurd hpc hclaimed
  | returned err =>
    rw [hpc] at hret
    cases hret
  | accept i err =>
    rw [hpc] at hsm
    exact hsm.elim
  | inbound i err =>
    cases hat : (g.nodes n).ins[i]? with
    | none => simp [step, claimStep, hpc, hat]
    | some e =>
      obtain ⟨ops, hops, -⟩ := hplain e ((mem_ins hg hn).mp (List.mem_of_getElem? hat)).1
      simp [step, claimStep, hpc, hat, hops]
  | outbound i err =>
    cases hat : (g.nodes n).outs[i]? with
    | none => simp [step, claimStep, hpc, hat]
    | some e =>
      obtain ⟨ops, hops, -⟩ := hplain e ((mem_outs hg hn).mp (List.mem_of_getElem? hat)).1
      simp [step, claimStep, hpc, hat, hops]

/-- A step is one of the claim of node `n`, or that claim does not notice. -/
theorem step_own_or_other (hi : SmoothInv g dir s) (hclaimed : s.pc n ≠ .unclaimed) (ha : Smooth s a)
    (h : step g dir s a = some s') :
    a = .run n .ok ∧ SmoothMove g s n s' ∨ a ≠ .run n .ok ∧ s'.pc n = s.pc n := by
  cases a with
  | claim m =>
    cases step_move h with
    | claim _ hm hpc =>
      have hne : n ≠ m := by
        rintro rfl
        exact hclaimed hpc
      exact Or.inr ⟨by simp, goto_pc_of_ne _ _ hne⟩
  | run m ans =>
    obtain rfl := ha m ans rfl
    have hmove := smoothMove hg hplain hi.inv (hi.smooth m) h
    by_cases hnm : n = m
    · subst hnm
      exact Or.inl ⟨rfl, hmove⟩
    · exact Or.inr ⟨by simpa using Ne.symm hnm, hmove.other hnm⟩

theorem step_pastIn (hi : SmoothInv g dir s) (hpast : (s.pc n).pastIn = true) (ha : Smooth s a)
    (h : step g dir s a = some s') : (s'.pc n).pastIn = true := by
  have hclaimed : s.pc n ≠ .unclaimed := by
    intro hpc
    rw [hpc] at hpast
    cases hpast
  rcases step_own_or_other hg hplain hi hclaimed ha h with ⟨-, hmove⟩ | ⟨-, hsame⟩
  · cases hmove with
    | openIn i e hpc hat | endIn i hpc hat =>
      rw [hpc] at hpast
      cases hpast
    | openOut i e hpc hat =>
      rw [State.opened, goto_pc_self]
      rfl
    | again i e hpc hat hr => exact hpast
    | endOut i hpc hat =>
      rw [goto_pc_self]
      rfl
  · rwa [hsame]

/-- Among the in-edges nothing is waited for. -/
theorem step_leftIn (hi : SmoothInv g dir s) (hclaimed : s.pc n ≠ .unclaimed) (ha : Smooth s a)
    (h : step g dir s a = some s') : (s'.pc n).pastIn = true ∨
      s'.pc n ≠ .unclaimed ∧
        (s'.pc n).leftIn g n + (if a == .run n .ok then 1 else 0) ≤ (s.pc n).leftIn g n := by
  by_cases hpast : (s.pc n).pastIn = true
  · exact Or.inl (step_pastIn hg hplain hi hpast ha h)
  rcases step_own_or_other hg hplain hi hclaimed ha h with ⟨rfl, hmove⟩ | ⟨hne, hsame⟩
  · cases hmove with
    | openIn i e hpc hat =>
      right
      have hlt := (List.getElem?_eq_some_iff.mp hat).1
      rw [goto_pc_self, hpc]
      refine ⟨by simp, ?_⟩
      simp only [Pc.leftIn, beq_self_eq_true, if_true]
      omega
    | endIn i hpc hat =>
      left
      rw [goto_pc_self]
      rfl
    | openOut i e hpc hat | again i e hpc hat hr | endOut i hpc hat => simp [hpc, Pc.pastIn] at hpast
  · right
    simp [hsame, hclaimed, hne]

omit hplain in
/-- When every consumer has passed its in-edges, every FIFO can be opened for writing. -/
theorem reader_open (hi : SmoothInv g dir s) (hpast : ∀ m < g.nrNodes, (s.pc m).pastIn = true)
    (he : e < g.nrEdges) : s.reader e = true := by
  have hc : (g.edges e).consumer < g.nrNodes := (hg.attrs e he).2.2.2.2
  set c := (g.edges e).consumer with hcdef
  have hsm := hi.smooth c
  have herr : (s.pc c).err = false := by
    cases hpc : s.pc c with
    | _ => simp_all [Pc.Smooth, Pc.err, Pc.pastIn]
  refine ((hi.inv.err c).mp herr).1 e ?_
  have hmem : e ∈ (g.nodes c).ins := (mem_ins hg hc).mpr ⟨he, rfl⟩
  have hpc := hpast c hc
  unfold State.passedIn
  cases hat : s.pc c with
  | unclaimed | inbound i err =>
    rw [hat] at hpc
    cases hpc
  | _ => exact hmem

/-- Then nothing is waited for among the out-edges. -/
theorem step_leftOut (hi : SmoothInv g dir s) (hpast : ∀ m < g.nrNodes, (s.pc m).pastIn = true)
    (hn : n < g.nrNodes) (ha : Smooth s a) (h : step g dir s a = some s') :
    (s'.pc n).isReturned = true ∨
      (s'.pc n).leftOut g n + (if a == .run n .ok then 1 else 0) ≤ (s.pc n).leftOut g n := by
  have hpastn := hpast n hn
  have hclaimed : s.pc n ≠ .unclaimed := by
    intro hpc
    rw [hpc] at hpastn
    cases hpastn
  rcases step_own_or_other hg hplain hi hclaimed ha h with ⟨rfl, hmove⟩ | ⟨hne, hsame⟩
  · cases hmove with
    | openIn i e hpc hat | endIn i hpc hat =>
      rw [hpc] at hpastn
      cases hpastn
    | openOut i e hpc hat =>
      right
      have hlt := (List.getElem?_eq_some_iff.mp hat).1
      rw [State.opened, goto_pc_self, hpc]
      simp only [Pc.leftOut, beq_self_eq_true, if_true]
      omega
    | again i e hpc hat hr =>
      have he := ((mem_outs hg hn).mp (List.mem_of_getElem? hat)).1
      rw [reader_open hg hi hpast he] at hr
      cases hr
    | endOut i hpc hat =>
      left
      rw [goto_pc_self]
      rfl
  · right
    simp [hsame, hne]

theorem step_isReturned (hi : SmoothInv g dir s) (hret : (s.pc n).isReturned = true) (ha : Smooth s a)
    (h : step g dir s a = some s') : (s'.pc n).isReturned = true := by
  have hclaimed : s.pc n ≠ .unclaimed := by
    intro hpc
    rw [hpc] at hret
    cases hret
  rcases step_own_or_other hg hplain hi hclaimed ha h with ⟨-, hmove⟩ | ⟨-, hsame⟩
  · cases hmove with
    | openIn i e hpc | endIn i hpc | openOut i e hpc | again i e hpc | endOut i hpc =>
      rw [hpc] at hret
      cases hret
  · rwa [hsame]

/-- **The in-edges.** A claim that has made a step for each in-edge and one more has passed them, no
matter what the others do. -/
theorem pastIn_of_run {t : State} {as : List Act} (hi : SmoothInv g dir s)
    (hclaimed : s.pc n ≠ .unclaimed) (hr : Lts.run (step g dir) s as = some t)
    (hm : Lts.Meets (step g dir) Smooth s as)
    (hcount : (g.nodes n).ins.length + 1 ≤ as.countP (· == .run n .ok)) :
    (t.pc n).pastIn = true := by
  have huntil := Lts.run_until (P := Smooth) (I := fun s => SmoothInv g dir s ∧ s.pc n ≠ .unclaimed)
    (Q := fun s => SmoothInv g dir s ∧ (s.pc n).pastIn = true) (o := (· == .run n .ok))
    (m := fun s => (s.pc n).leftIn g n) ?_ ?_ ⟨hi, hclaimed⟩ hr hm
  · rcases huntil with ⟨-, hpast⟩ | ⟨⟨hi', hstill⟩, hle⟩
    · exact hpast
    · have hbound : (s.pc n).leftIn g n ≤ (g.nodes n).ins.length + 1 := by
        cases s.pc n <;> simp [Pc.leftIn]
      -- no steps are left, so the claim is no longer among its in-edges
      have hzero : (t.pc n).leftIn g n = 0 := by omega
      have hsm := hi'.smooth n
      cases hpc : t.pc n with
      | unclaimed => exact absurd hpc hstill
      | inbound i err =>
        rw [hpc] at hsm hzero
        have hle := hsm.2
        simp only [Pc.leftIn] at hzero
        omega
      | _ => rfl
  · rintro s a t ⟨hi, hclaimed⟩ ha hs
    have hi' := step_smoothInv hg hplain hi ha hs
    exact (step_leftIn hg hplain hi hclaimed ha hs).imp (fun h => ⟨hi', h⟩)
      (fun h => ⟨⟨hi', h.1⟩, h.2⟩)
  · rintro s a t ⟨hi, hpast⟩ ha hs
    exact ⟨step_smoothInv hg hplain hi ha hs, step_pastIn hg hplain hi hpast ha hs⟩

/-- **The out-edges.** When the in-edges of all nodes have been passed, a claim that has made a step
for each out-edge and one more has returned. -/
theorem returned_of_run {t : State} {as : List Act} (hi : SmoothInv g dir s)
    (hpast : ∀ m < g.nrNodes, (s.pc m).pastIn = true) (hn : n < g.nrNodes)
    (hr : Lts.run (step g dir) s as = some t) (hm : Lts.Meets (step g dir) Smooth s as)
    (hcount : (g.nodes n).outs.length + 1 ≤ as.countP (· == .run n .ok)) :
    (t.pc n).isReturned = true := by
  have huntil := Lts.run_until (P := Smooth)
    (I := fun s => SmoothInv g dir s ∧ ∀ m < g.nrNodes, (s.pc m).pastIn = true)
    (Q := fun s => SmoothInv g dir s ∧ (s.pc n).isReturned = true) (o := (· == .run n .ok))
    (m := fun s => (s.pc n).leftOut g n) ?_ ?_ ⟨hi, hpast⟩ hr hm
  · rcases huntil with ⟨-, hret⟩ | ⟨⟨hi', hpast'⟩, hle⟩
    · exact hret
    · have hbound : (s.pc n).leftOut g n ≤ (g.nodes n).outs.length + 1 := by
        cases s.pc n <;> simp [Pc.leftOut]
      have hzero : (t.pc n).leftOut g n = 0 := by omega
      have hsm := hi'.smooth n
      have hpastn := hpast' n hn
      cases hpc : t.pc n with
      | unclaimed | inbound i err =>
        rw [hpc] at hpastn
        cases hpastn
      | outbound i err =>
        rw [hpc] at hsm hzero
        have hle := hsm.2
        simp only [Pc.leftOut] at hzero
        omega
      | accept i err =>
        rw [hpc] at hsm
        exact hsm.elim
      | returned err => rfl
  · rintro s a t ⟨hi, hpast⟩ ha hs
    have hi' := step_smoothInv hg hplain hi ha hs
    exact (step_leftOut hg hplain hi hpast hn ha hs).imp (fun h => ⟨hi', h⟩)
      (fun h => ⟨⟨hi', fun m hm => step_pastIn hg hplain hi (hpast m hm) ha hs⟩, h⟩)
  · rintro s a t ⟨hi, hret⟩ ha hs
    exact ⟨step_smoothInv hg hplain hi ha hs, step_isReturned hg hplain hi hret ha hs⟩

/-- **The claims return.** Let the edges be no sockets and let nothing fail. However the claims of
all nodes are interleaved, cycles of FIFOs included, a claim that has not returned can go on; and
when each has had a turn for every in-edge and one more, and then one for every out-edge and one
more, all have returned 0. -/
theorem claims_return (h : Lts.Reach (step g dir) Smooth start s)
    (hclaimed : ∀ n < g.nrNodes, s.pc n ≠ .unclaimed) :
    (∀ n < g.nrNodes, (s.pc n).isReturned = true ∨
      (step g dir s (.run n .ok)).isSome = true) ∧
    ∀ as t bs u, Lts.run (step g dir) s as = some t → Lts.Meets (step g dir) Smooth s as →
      Lts.run (step g dir) t bs = some u → Lts.Meets (step g dir) Smooth t bs →
      (∀ n < g.nrNodes, (t.pc n).isReturned = true ∨
        (g.nodes n).ins.length + 1 ≤ as.countP (· == .run n .ok)) →
      (∀ n < g.nrNodes, (u.pc n).isReturned = true ∨
        (g.nodes n).outs.length + 1 ≤ bs.countP (· == .run n .ok)) →
      ∀ n < g.nrNodes, u.pc n = .returned false := by
  have hi := smoothInv_of_reach hg hplain h
  refine ⟨?_, ?_⟩
  · intro n hn
    cases hret : (s.pc n).isReturned with
    | true => exact Or.inl rfl
    | false => exact Or.inr (exists_step hg hplain hi (hclaimed n hn) hret)
  · intro as t bs u has hsas hbs hsbs hins houts n hn
    have hit : SmoothInv g dir t :=
      Lts.run_inv (fun _ _ _ hi ha hs => step_smoothInv hg hplain hi ha hs) hi has hsas
    have hiu : SmoothInv g dir u :=
      Lts.run_inv (fun _ _ _ hi ha hs => step_smoothInv hg hplain hi ha hs) hit hbs hsbs
    have hpast : ∀ m < g.nrNodes, (t.pc m).pastIn = true := by
      intro m hm
      rcases hins m hm with hret | hcount
      · cases hpc : t.pc m with
        | returned err => rfl
        | _ =>
          rw [hpc] at hret
          cases hret
      · exact pastIn_of_run hg hplain hi (hclaimed m hm) has hsas hcount
    have hret : (u.pc n).isReturned = true :=
      (houts n hn).elim id (returned_of_run hg hplain hit hpast hn hbs hsbs)
    have hsm := hiu.smooth n
    cases hpc : u.pc n with
    | returned err =>
      rw [hpc] at hsm
      rw [show err = false from hsm]
    | _ =>
      rw [hpc] at hret
      cases hret

end

def isSmooth (_ : State) : Act → Bool
  | .claim _ => true
  | .run _ ans => ans == .ok

theorem smooth_of_isSmooth (s : State) (a : Act) (h : isSmooth s a = true) : Smooth s a := by
  rintro n ans rfl
  simpa [isSmooth] using h

/-- Two steps for each node of a circle, once for the in-edge and once for the out-edge. -/
def turns : List Act := [.run 0 .ok, .run 0 .ok, .run 1 .ok, .run 1 .ok]

theorem circle_opens : ∃ s t u,
    Lts.run (step fifoCircle circleDir) start [.claim 0, .claim 1] = some s ∧
    Lts.run (step fifoCircle circleDir) s turns = some t ∧
    Lts.run (step fifoCircle circleDir) t turns = some u ∧
    ∀ n < fifoCircle.nrNodes, u.pc n = .returned false := by
  have hd : ((Lts.drive (step fifoCircle circleDir) isSmooth start [.claim 0, .claim 1]).bind
      (fun s => (Lts.drive (step fifoCircle circleDir) isSmooth s turns).bind
        (fun t => (Lts.drive (step fifoCircle circleDir) isSmooth t turns).map
          (fun _ => decide (∀ n < fifoCircle.nrNodes, s.pc n ≠ .unclaimed))))) =
      some true := by decide +kernel
  obtain ⟨s, hs, hd⟩ := Option.bind_eq_some_iff.mp hd
  obtain ⟨t, ht, hd⟩ := Option.bind_eq_some_iff.mp hd
  obtain ⟨u, hu, hclaimed⟩ := Option.map_eq_some_iff.mp hd
  have hplain : NoSockets fifoCircle circleDir := by
    have hfifo : ∀ e < fifoCircle.nrEdges, (fifoCircle.edges e).ops = some .fifo := by
      decide +kernel
    exact fun e he => ⟨.fifo, hfifo e he, by decide, fun _ => rfl⟩
  have hs' := Lts.run_of_drive smooth_of_isSmooth hs
  have ht' := Lts.run_of_drive smooth_of_isSmooth ht
  have hu' := Lts.run_of_drive smooth_of_isSmooth hu
  have hins : ∀ n < fifoCircle.nrNodes, (fifoCircle.nodes n).ins.length + 1 ≤
      turns.countP (· == .run n .ok) := by decide +kernel
  have houts : ∀ n < fifoCircle.nrNodes, (fifoCircle.nodes n).outs.length + 1 ≤
      turns.countP (· == .run n .ok) := by decide +kernel
  refine ⟨s, t, u, hs'.1, ht'.1, hu'.1, ?_⟩
  exact (claims_return (circle_represents _) hplain ⟨_, hs'⟩ (of_decide_eq_true hclaimed)).2
    turns t turns u ht'.1 ht'.2 hu'.1 hu'.2 (fun n hn => Or.inr (hins n hn))
    (fun n hn => Or.inr (houts n hn))

end Pgm.Opening
