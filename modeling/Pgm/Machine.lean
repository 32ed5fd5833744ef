import Pgm.Lib.Lts
import Pgm.RingBuf
import Pgm.Send

/-! A running graph. Any number of threads run `pgm_wait`, `pgm_complete` and
`pgm_terminate`; a step of a thread is one access to memory that other threads
use, or one system call. The thread with the number of a node is the node's
owner and the only one to wait for it. Every edge has a channel of its own: no
two share a FIFO, a queue or an address. A ring is a bounded queue, as the ring
of `ring.h` is when its members fit into its block. -/

namespace Pgm

open Function (update)

/-- What `pgm_wait` returns: 0, `PGM_TERMINATE` or -1. -/
inductive WaitRet where
  | ok
  | terminate
  | error
  deriving DecidableEq, Repr

/-- The command of `pgm_produce`. -/
inductive Command where
  | normal
  | terminate
  deriving DecidableEq, Repr

/-- Where `pgm_wait` is. `locked` tells the two copies of the test in
`pgm_wait_for_tokens` apart; `i` is the loop counter over the in-edges. -/
inductive WaitPc where
  | start
  /-- In `pgm_nr_ready_edges`. -/
  | scan (locked : Bool) (i nrReady nrReadyNormal : Nat)
  /-- Before `nr_terminate_signals != 0`. -/
  | termNonzero (locked : Bool)
  /-- Before the comparison of `nr_terminate_signals` with the forward in-edges. -/
  | termAll (locked : Bool)
  | lock
  /-- At `pgm_cv_wait`, with the lock. -/
  | cvWait
  | asleep
  /-- Out of the wait, before the lock is taken again. -/
  | woken
  | unlock (st : WaitStatus)
  | tokensDone (tok : WaitStatus)
  | recv (tok : WaitStatus) (r : Recv)
  | dataDone (tok dat : WaitStatus)
  /-- In `pgm_consume_tokens`. -/
  | consume (ret : WaitRet) (i : Nat)
  /-- In `pgm_consume_skips`. -/
  | skips (ret : WaitRet) (i : Nat)

/-- Where `pgm_produce` is. `i` counts the out-edges and `e` is `out[i]`; `toWake` is
the array `to_wake`. -/
inductive ProdPc where
  | send (i : Nat) (toWake : List Nat)
  /-- In `pgm_send_std_data` with the bytes `buf` to write. -/
  | write (i e : Nat) (buf : List UInt8) (toWake : List Nat)
  /-- In the ring's write. -/
  | ringWrite (i e : Nat) (x : List UInt8) (toWake : List Nat)
  /-- Before the atomic add. -/
  | tokens (i e : Nat) (toWake : List Nat)
  | wake (todo : List Nat)
  /-- With the lock of `c`, in `pgm_nr_ready_edges`. -/
  | recheck (c i nrReady : Nat) (todo : List Nat)
  | signal (c : Nat) (todo : List Nat)
  | unlock (c : Nat) (todo : List Nat)

/-- What a thread does. `inWait`: `pgm_terminate` was called by `pgm_wait`; `err` is
`was_error`. An idle thread keeps what its last call returned, if that was `pgm_wait`. -/
inductive Pc where
  | idle (last : Option WaitRet)
  | wait (w : WaitPc)
  | prod (n : Nat) (cmd : Command) (inWait err : Bool) (p : ProdPc)

/-- The memory of the graph and the threads. The last three fields record the past:
how often tokens were sent on an edge, how many waits for a node returned 0, and
whether `pgm_terminate` was called for a node. -/
structure State where
  nrPending : Nat → Nat
  nrSkips : Nat → Nat
  nrTerminateSignals : Nat → Nat
  lock : Nat → Option Nat
  data : Data
  pc : Nat → Pc
  sends : Nat → Nat
  fired : Nat → Nat
  terminated : Nat → Bool

def initPending (g : Graph) (e : Nat) : Nat :=
  if (g.edge e).attr.type = .cv then (g.edge e).attr.nrInit else 0

/-- What `pgm_malloc` leaves in the buffer of each in-edge: it does not clear the memory. -/
abbrev Junk := Nat → Nat → UInt8

/-- The buffer of an in-edge before anything was read into it. -/
def initBuf (junk : Junk) (g : Graph) (e : Nat) : List UInt8 :=
  (List.range (g.edge e).attr.nrConsume).map (junk e)

@[simp] theorem length_initBuf (junk : Junk) (g : Graph) (e : Nat) :
    (initBuf junk g e).length = (g.edge e).attr.nrConsume := by
  simp [initBuf]

/-- Buffers that happen to be clear. -/
def zeroed : Junk := fun _ _ => 0

def initState (junk : Junk) (g : Graph) : State where
  nrPending := initPending g
  nrSkips := fun e => (g.edge e).skips
  nrTerminateSignals := fun _ => 0
  lock := fun _ => none
  data :=
    { nextTag := fun _ => 0
      stream := fun _ => []
      queue := fun _ => []
      ringCmd := fun _ => 0
      bufIn := initBuf junk g
      nrTerminateMsgs := fun _ => 0
      counted := fun _ => 0 }
  pc := fun _ => .idle none
  sends := fun _ => 0
  fired := fun _ => 0
  terminated := fun _ => false

inductive Effect where
  | skip
  | addTokens (e : Nat)
  | addTerminate (e : Nat)
  | subTokens (e : Nat)
  | decSkips (e : Nat)
  | acquire (n : Nat)
  | release (n : Nat)
  | signal (n : Nat)
  | data (d : Data)
  /-- `pgm_terminate` is called for `n`. -/
  | terminate (n : Nat)
  /-- `pgm_wait` returns 0 for `n`. -/
  | fire (n : Nat)

/-- `pgm_cv_signal`: the owner of `n` stops waiting, if it waits. -/
def wakeUp : Pc → Pc
  | .wait .asleep => .wait .woken
  | p => p

def State.apply (g : Graph) (t : Nat) (s : State) : Effect → State
  | .skip => s
  | .addTokens e =>
    { s with
      nrPending := update s.nrPending e (Word.add 64 (s.nrPending e) (g.edge e).attr.nrProduce)
      sends := update s.sends e (s.sends e + 1) }
  | .addTerminate e =>
    { s with
      nrTerminateSignals := update s.nrTerminateSignals (g.edge e).consumer
        (Word.add 32 (s.nrTerminateSignals (g.edge e).consumer) 1) }
  | .subTokens e =>
    { s with
      nrPending := update s.nrPending e (Word.sub 64 (s.nrPending e) (g.edge e).attr.nrConsume) }
  | .decSkips e => { s with nrSkips := update s.nrSkips e (s.nrSkips e - 1) }
  | .acquire n => { s with lock := update s.lock n (some t) }
  | .release n => { s with lock := update s.lock n none }
  | .signal n => { s with pc := update s.pc n (wakeUp (s.pc n)) }
  | .data d => { s with data := d }
  | .terminate n => { s with terminated := update s.terminated n true }
  | .fire n => { s with fired := update s.fired n (s.fired n + 1) }

/-- The test of `pgm_nr_ready_edges`. -/
def readyEdge (g : Graph) (s : State) (e : Nat) : Bool :=
  (g.edge e).isSignalDriven &&
    (decide ((g.edge e).attr.nrThreshold ≤ s.nrPending e) || decide (0 < s.nrSkips e))

/-- The test holds for all in-edges or for the terminate signals: leave the test. -/
def granted (locked : Bool) (st : WaitStatus) : WaitPc :=
  if locked then .unlock st else .tokensDone st

def mustWait (locked : Bool) : WaitPc := if locked then .cvWait else .lock

def waitRet (tok dat : WaitStatus) : WaitRet :=
  if tok = .exhaustedAndTerminate ∧ dat = .exhaustedAndTerminate then .terminate
  else if tok = .timeout ∨ tok = .error ∨ dat = .timeout ∨ dat = .error then .error
  else .ok

/-- The end of `pgm_nr_ready_edges` and the first two tests after it. -/
def scanned (g : Graph) (n : Nat) (locked : Bool) (nrReady nrReadyNormal : Nat) : WaitPc :=
  if nrReady = g.nrInSignaled n then granted locked .success
  else if nrReadyNormal = 0 then .termNonzero locked
  else mustWait locked

/-- The end of `pgm_wait`. -/
def waitReturn (n : Nat) : WaitRet → Effect × Pc
  | .terminate => (.terminate n, .prod n .terminate true false (.send 0 []))
  | .ok => (.fire n, .idle (some .ok))
  | .error => (.skip, .idle (some .error))

/-- One step of `pgm_wait` for node `n`, by its owner. -/
def waitStep (g : Graph) (s : State) (n : Nat) (ans : Answer) : WaitPc → Option (Effect × Pc)
  | .start =>
    some (.skip, .wait (if g.nrInSignaled n = 0 then .tokensDone .exhaustedAndTerminate
      else .scan false 0 0 0))
  | .scan locked i r rn =>
    match (g.inEdges n)[i]? with
    | some e =>
      some (.skip, .wait (.scan locked (i + 1) (if readyEdge g s e then r + 1 else r)
        (if readyEdge g s e && !(g.edge e).isBackedge then rn + 1 else rn)))
    | none => some (.skip, .wait (scanned g n locked r rn))
  | .termNonzero locked =>
    some (.skip, .wait (if s.nrTerminateSignals n = 0 then mustWait locked else .termAll locked))
  | .termAll locked =>
    some (.skip, .wait (if s.nrTerminateSignals n = g.nrInSignaledForward n
      then granted locked .exhaustedAndTerminate else mustWait locked))
  | .lock | .woken =>
    if s.lock n = none then some (.acquire n, .wait (.scan true 0 0 0)) else none
  | .cvWait => some (.release n, .wait .asleep)
  | .asleep => none
  | .unlock st => some (.release n, .wait (.tokensDone st))
  | .tokensDone tok =>
    if g.nrInData n = 0 then some (.skip, .wait (.dataDone tok .exhaustedAndTerminate))
    else
      match recvStart g n s.nrSkips s.data with
      | .more r => some (.skip, .wait (.recv tok r))
      | .done st => some (.skip, .wait (.dataDone tok st))
  | .recv tok r =>
    match recvStep g n s.nrSkips s.data r ans with
    | some (d, .more r') => some (.data d, .wait (.recv tok r'))
    | some (d, .done st) => some (.data d, .wait (.dataDone tok st))
    | none => none
  | .dataDone tok dat =>
    some (.skip, .wait (if g.nrInSignaled n ≠ 0 ∧ waitRet tok dat ≠ .terminate
      then .consume (waitRet tok dat) 0 else .skips (waitRet tok dat) 0))
  | .consume ret i =>
    match (g.inEdges n)[i]? with
    | some e =>
      some (if (g.edge e).isSignalDriven && decide (s.nrSkips e = 0) then .subTokens e else .skip,
        .wait (.consume ret (i + 1)))
    | none => some (.skip, .wait (.skips ret 0))
  | .skips ret i =>
    match (g.inEdges n)[i]? with
    | some e => some (if 0 < s.nrSkips e then .decSkips e else .skip, .wait (.skips ret (i + 1)))
    | none => some (waitReturn n ret)

/-- The test of `pgm_send_tokens`: this send takes the edge over its threshold. -/
def crosses (g : Graph) (s : State) (e : Nat) : Bool :=
  decide (s.nrPending e < (g.edge e).attr.nrThreshold) &&
    decide ((g.edge e).attr.nrThreshold ≤
      Word.add 64 (s.nrPending e) (g.edge e).attr.nrProduce)

def afterData (g : Graph) (i e : Nat) (toWake : List Nat) : ProdPc :=
  if (g.edge e).isSignalDriven then .tokens i e toWake else .send (i + 1) toWake

/-- `pgm_send_data(e, PGM_NORMAL)` up to its first write. The user's bytes are read from
the producer's buffer here. -/
def sendNormal (g : Graph) (i e : Nat) (toWake : List Nat) : Answer → Option (Effect × ProdPc)
  | .user x =>
    if x.length = (g.edge e).attr.nrProduce then
      some (.skip, if (g.edge e).attr.type.isRing then .ringWrite i e x toWake
        else .write i e (stdMessage pgmNormal x) toWake)
    else none
  | _ => none

/-- `pgm_send_data(e, PGM_TERMINATE)` up to its first write. -/
def sendTerminate (g : Graph) (d : Data) (i e : Nat) (toWake : List Nat) : Effect × ProdPc :=
  if (g.edge e).attr.type.isRing then
    (.data { d with ringCmd := update d.ringCmd e pgmTerminate }, .tokens i e toWake)
  else (.skip, .write i e (stdMessage pgmTerminate []) toWake)

/-- The loop body of `pgm_produce` up to the first write or atomic add. -/
def sendEdge (g : Graph) (d : Data) (cmd : Command) (i e : Nat) (toWake : List Nat)
    (ans : Answer) : Option (Effect × ProdPc) :=
  if cmd = .terminate ∧ (g.edge e).isBackedge then some (.skip, .send (i + 1) toWake)
  else if (g.edge e).isDataPassing then
    match cmd with
    | .normal => sendNormal g i e toWake ans
    | .terminate => some (sendTerminate g d i e toWake)
  else some (.skip, .tokens i e toWake)

/-- One step of `pgm_produce(n, cmd)`. -/
def prodStep (g : Graph) (s : State) (n : Nat) (cmd : Command) (inWait err : Bool) (ans : Answer) :
    ProdPc → Option (Effect × Pc)
  | .send i toWake =>
    match (g.outEdges n)[i]? with
    | some e => (sendEdge g s.data cmd i e toWake ans).map
        (fun x => (x.1, .prod n cmd inWait err x.2))
    | none => some (.skip, .prod n cmd inWait err (.wake toWake))
  | .write i e buf toWake =>
    match sendStdStep g s.data e buf ans with
    | some (d, .more buf') => some (.data d, .prod n cmd inWait err (.write i e buf' toWake))
    | some (d, .done ok) => some (.data d, .prod n cmd inWait (err || !ok) (afterData g i e toWake))
    | none => none
  | .ringWrite i e x toWake =>
    if (s.data.queue e).length < RingBuf.ringCount (g.edge e).attr.nmemb then
      some (.data { s.data with queue := update s.data.queue e (s.data.queue e ++ [x]) },
        .prod n cmd inWait err (.tokens i e toWake))
    else none
  | .tokens i e toWake =>
    match cmd with
    | .normal =>
      some (.addTokens e, .prod n cmd inWait err (.send (i + 1)
        (if crosses g s e then toWake ++ [(g.edge e).consumer] else toWake)))
    | .terminate =>
      some (.addTerminate e, .prod n cmd inWait err (.send (i + 1)
        (toWake ++ [(g.edge e).consumer])))
  | .wake [] => some (.skip, .idle (if inWait then some .terminate else none))
  | .wake (c :: cs) =>
    if s.lock c = none then
      some (.acquire c, .prod n cmd inWait err
        (if cmd = .terminate then .signal c cs else .recheck c 0 0 cs))
    else none
  | .recheck c i r cs =>
    match (g.inEdges c)[i]? with
    | some e => some (.skip, .prod n cmd inWait err
        (.recheck c (i + 1) (if readyEdge g s e then r + 1 else r) cs))
    | none => some (.skip, .prod n cmd inWait err
        (if r = g.nrInSignaled c then .signal c cs else .unlock c cs))
  | .signal c cs => some (.signal c, .prod n cmd inWait err (.unlock c cs))
  | .unlock c cs => some (.release c, .prod n cmd inWait err (.wake cs))

def threadStep (g : Graph) (s : State) (t : Nat) (ans : Answer) : Option (Effect × Pc) :=
  match s.pc t with
  | .idle _ => none
  | .wait w => waitStep g s t ans w
  | .prod n cmd inWait err p => prodStep g s n cmd inWait err ans p

/-- An idle thread calls a function, a thread inside a function makes a step, or a
thread blocked in `pgm_cv_wait` wakes up without a signal. -/
inductive Act where
  | wait (n : Nat)
  | complete (t n : Nat)
  | terminate (t n : Nat)
  | run (t : Nat) (ans : Answer)
  | spurious (t : Nat)
  deriving DecidableEq

/-- Thread `t` makes `k` steps that ask nothing of the operating system. -/
def runs (t k : Nat) : List Act := List.replicate k (.run t .go)

def Act.thread : Act → Nat
  | .wait n => n
  | .complete t _ | .terminate t _ | .run t _ | .spurious t => t

/-- The effect of an action and where its thread is afterwards. -/
def actStep (g : Graph) (s : State) : Act → Option (Effect × Pc)
  | .wait n =>
    match s.pc n with
    | .idle _ => some (.skip, .wait .start)
    | _ => none
  | .complete t n =>
    match s.pc t with
    | .idle _ => some (.skip, .prod n .normal false false (.send 0 []))
    | _ => none
  | .terminate t n =>
    match s.pc t with
    | .idle _ => some (.terminate n, .prod n .terminate false false (.send 0 []))
    | _ => none
  | .run t ans => threadStep g s t ans
  | .spurious t =>
    match s.pc t with
    | .wait .asleep => some (.skip, .wait .woken)
    | _ => none

def State.setPc (s : State) (t : Nat) (p : Pc) : State := { s with pc := update s.pc t p }

def step (g : Graph) (s : State) (a : Act) : Option State :=
  (actStep g s a).map (fun x => (s.apply g a.thread x.1).setPc a.thread x.2)

/-- The edge on which an action adds tokens. -/
def sendsOn (s : State) : Act → Option Nat
  | .run t _ =>
    match s.pc t with
    | .prod _ .normal _ _ (.tokens _ e _) => some e
    | _ => none
  | _ => none

/-- If the action adds tokens to an edge, the edge has the property `P`. -/
def OnSend (P : Nat → Prop) (s : State) (a : Act) : Prop := ∀ e, sendsOn s a = some e → P e

instance (P : Nat → Prop) [DecidablePred P] (s : State) (a : Act) : Decidable (OnSend P s a) :=
  match h : sendsOn s a with
  | some e => decidable_of_iff (P e) (by simp [OnSend, h])
  | none => isTrue (by simp [OnSend, h])

/-- The action does not take a token counter past its largest value. -/
def NoOverflow (g : Graph) (s : State) (a : Act) : Prop :=
  OnSend (fun e => s.nrPending e + (g.edge e).attr.nrProduce < 2 ^ 64) s a

/-- The tokens ever put on an edge stay below `2 ^ 64`. -/
def TotalsBelow (g : Graph) (s : State) (a : Act) : Prop :=
  OnSend (fun e => initPending g e + (g.edge e).attr.nrProduce * (s.sends e + 1) < 2 ^ 64) s a

instance (g : Graph) (s : State) (a : Act) : Decidable (NoOverflow g s a) :=
  inferInstanceAs (Decidable (OnSend _ s a))

instance (g : Graph) (s : State) (a : Act) : Decidable (TotalsBelow g s a) :=
  inferInstanceAs (Decidable (OnSend _ s a))

end Pgm
