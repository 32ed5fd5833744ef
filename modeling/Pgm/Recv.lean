import Mathlib.Logic.Function.Basic
import Mathlib.Tactic.SplitIfs
import Pgm.Graph
import Pgm.Lib.Word

/-! The data side of a graph: what the channels hold, and `pgm_recv_data` as a
machine that makes one system call or one shared access at a time. The answers
of the operating system (which descriptors are ready, how many bytes a read
returns, would-block, end of file, failure) are the arguments of its steps. -/

namespace Pgm

inductive WaitStatus where
  | success
  | timeout
  | exhaustedAndTerminate
  | error
  deriving DecidableEq, Repr

def pgmNormal : UInt8 := 0x01

def pgmTerminate : UInt8 := 0x80

def isNormal (tag : UInt8) : Bool := tag &&& pgmNormal != 0

def isTerminate (tag : UInt8) : Bool := tag &&& pgmTerminate != 0

/-- What the operating system answers to the call a thread makes. -/
inductive Answer where
  /-- No call is made. -/
  | go
  /-- `select()`: these descriptors are ready. -/
  | ready (s : BitVec 32)
  /-- `select()` returned 0. -/
  | timeout
  /-- `select()` failed. -/
  | selectError
  /-- A read or write moved `k` bytes. -/
  | bytes (k : Nat)
  /-- `EAGAIN` or `EWOULDBLOCK`. -/
  | eagain
  /-- A read returned 0. -/
  | eof
  /-- Any other error. -/
  | failed
  /-- What the user left in the producer's buffer. -/
  | user (bs : List UInt8)
  deriving DecidableEq

/-- The mutable fields of the data-passing edges and of the message counters of
the nodes. A byte stream is what was written and not yet read; `queue` holds the
messages of a message queue or the members of a ring. `counted` records how
often an edge has been added to `nr_terminate_msgs`. -/
structure Data where
  nextTag : Nat → Nat
  stream : Nat → List UInt8
  queue : Nat → List (List UInt8)
  ringCmd : Nat → UInt8
  bufIn : Nat → List UInt8
  nrTerminateMsgs : Nat → Nat
  counted : Nat → Nat

/-- `n->nr_terminate_msgs++` on account of edge `e`. -/
def Data.countTerminate (d : Data) (n e : Nat) : Data :=
  { d with
    nrTerminateMsgs := Function.update d.nrTerminateMsgs n (Word.add 32 (d.nrTerminateMsgs n) 1)
    counted := Function.update d.counted e (d.counted e + 1) }

/-- The bytes `bs` written at offset `off` of a buffer. -/
def store (buf : List UInt8) (off : Nat) (bs : List UInt8) : List UInt8 :=
  buf.take off ++ bs ++ buf.drop (off + bs.length)

inductive ReadRes where
  | bytes (bs : List UInt8)
  | eagain
  | eof
  | error

def Data.readStream (d : Data) (e nbytes : Nat) : Answer → Option (ReadRes × Data)
  | .bytes k =>
    if 0 < k ∧ k ≤ nbytes ∧ k ≤ (d.stream e).length then
      some (.bytes ((d.stream e).take k),
        { d with stream := Function.update d.stream e ((d.stream e).drop k) })
    else none
  | .eagain => some (.eagain, d)
  | .eof => some (.eof, d)
  | .failed => some (.error, d)
  | _ => none

/-- A read of one whole message of a message queue. -/
def Data.readMq (d : Data) (e : Nat) : Answer → Option (ReadRes × Data)
  | .bytes _ =>
    match d.queue e with
    | m :: q => some (.bytes m, { d with queue := Function.update d.queue e q })
    | [] => none
  | .eagain => some (.eagain, d)
  | .failed => some (.error, d)
  | _ => none

/-- `e->ops->read(e, buf, nbytes)` on a FIFO, socket or message queue. A message
queue refuses a buffer smaller than its message size. -/
def Data.read (g : Graph) (d : Data) (e nbytes : Nat) (ans : Answer) : Option (ReadRes × Data) :=
  if (g.edge e).attr.type.isMq then
    if nbytes < (g.edge e).attr.nrProduce + 1 then some (.error, d) else d.readMq e ans
  else d.readStream e nbytes ans

/-- Where `pgm_recv_data` is. `i` is the loop counter and `e` the edge `in[i]`. -/
inductive RecvPc where
  /-- In `pgm_wait_for_data`; `err`: a `select()` of this call failed. -/
  | select (err : Bool)
  /-- At the top of the loop body. -/
  | edge (i : Nat)
  /-- The ring shortcut, `ring_cmd` read: read whether the ring is empty. -/
  | ringEmpty (i e : Nat)
  /-- The ring shortcut: in `ops->read`. -/
  | ringRead (i e : Nat)
  /-- At `read_more`. -/
  | read (i e : Nat)
  deriving DecidableEq, Repr

/-- The local variables of `pgm_recv_data`. `dest` is `dest_ptrs[]` as offsets
into the consumer buffers; `taken` records the payload bytes that this call has
read. -/
structure Recv where
  toSkip : BitVec 32
  toWait : BitVec 32
  dest : Nat → Nat
  taken : Nat → List UInt8
  pc : RecvPc

inductive RecvNext where
  | more (r : Recv)
  | done (st : WaitStatus)

/-- `out:`, the terminate test. -/
def recvOut (g : Graph) (n : Nat) (d : Data) (st : WaitStatus) : WaitStatus :=
  if d.nrTerminateMsgs n ≠ 0 ∧ d.nrTerminateMsgs n = g.nrInDataForward n then
    .exhaustedAndTerminate
  else st

def Recv.at (r : Recv) (pc : RecvPc) : RecvNext := .more { r with pc := pc }

/-- `dest_ptrs[i] += bytes_read` after the payload bytes `bs`. -/
def Recv.advance (r : Recv) (e : Nat) (bs : List UInt8) : Recv :=
  { r with
    dest := Function.update r.dest e (r.dest e + bs.length)
    taken := Function.update r.taken e (r.taken e ++ bs) }

/-- The last payload bytes of an edge: the destination pointer does not move. -/
def Recv.finish (r : Recv) (e : Nat) (bs : List UInt8) : Recv :=
  { r with taken := Function.update r.taken e (r.taken e ++ bs) }

/-- The part of `pgm_recv_data` before `wait_for_data`. -/
def recvStart (g : Graph) (n : Nat) (skips : Nat → Nat) (d : Data) : RecvNext :=
  let toSkip := Graph.maskOf ((g.inEdges n).map
    (fun e => (g.edge e).isDataPassing && decide (0 < skips e)))
  let toWait := BitVec.allOnes 32 >>> (32 - (g.inEdges n).length)
  if toWait = toSkip then .done (recvOut g n d .success)
  else .more
    { toSkip := toSkip
      toWait := toWait &&& ~~~(g.signalEdgeMask n ||| toSkip)
      dest := fun _ => 0
      taken := fun _ => []
      pc := .select false }

def selectStep (g : Graph) (n : Nat) (d : Data) (r : Recv) (err : Bool) (ans : Answer) :
    Option RecvNext :=
  if r.toWait = 0 then
    some (if err then .done (recvOut g n d .error) else r.at (.edge 0))
  else
    match ans with
    | .ready s =>
      if s ≠ 0 ∧ s &&& r.toWait = s then some (.more { r with toWait := r.toWait &&& ~~~s })
      else none
    | .timeout => some (r.at (.select false))
    | .selectError => some (r.at (.select true))
    | _ => none

/-- The mask to wait for after a read of edge number `i` would have blocked. -/
def retryMask (g : Graph) (n : Nat) (toSkip : BitVec 32) (i : Nat) : BitVec 32 :=
  (BitVec.allOnes 32 >>> (32 - (i + 1))) &&& ~~~(g.signalEdgeMask n ||| toSkip) ||| 1#32 <<< i

/-- After a read without bytes: wait again, go on after an end of file, or give up. -/
def afterNoBytes (g : Graph) (n : Nat) (r : Recv) (i : Nat) (d : Data) : ReadRes → RecvNext
  | .eagain => .more { r with toWait := retryMask g n r.toSkip i, pc := .select false }
  | .error => .done (recvOut g n d .error)
  | .eof | .bytes _ => r.at (.edge (i + 1))

/-- After the read of a tag together with the first payload bytes. -/
def afterTagged (g : Graph) (n : Nat) (r : Recv) (i e : Nat) : ReadRes × Data → Data × RecvNext
  | (.bytes (tag :: bs), d) =>
    let a := (g.edge e).attr
    let d := { d with
      nextTag := Function.update d.nextTag e (a.nrProduce - bs.length)
      bufIn := Function.update d.bufIn e (store (d.bufIn e) (r.dest e) bs) }
    if isTerminate tag then (d.countTerminate n e, r.at (.edge (i + 1)))
    else if !isNormal tag then (d, .done (recvOut g n d .error))
    else if bs.length ≠ a.nrConsume then (d, (r.advance e bs).at (.read i e))
    else (d, (r.finish e bs).at (.edge (i + 1)))
  | (res, d) => (d, afterNoBytes g n r i d res)

def afterPayload (g : Graph) (n : Nat) (r : Recv) (i e : Nat) : ReadRes × Data → Data × RecvNext
  | (.bytes (b :: bs), d) =>
    let k := bs.length + 1
    let d := { d with
      nextTag := Function.update d.nextTag e (d.nextTag e - k)
      bufIn := Function.update d.bufIn e (store (d.bufIn e) (r.dest e) (b :: bs)) }
    if (g.edge e).attr.nrConsume - r.dest e ≠ k then (d, (r.advance e (b :: bs)).at (.read i e))
    else (d, (r.finish e (b :: bs)).at (.edge (i + 1)))
  | (res, d) => (d, afterNoBytes g n r i d res)

def afterTag (g : Graph) (n : Nat) (r : Recv) (i e : Nat) : ReadRes × Data → Data × RecvNext
  | (.bytes (tag :: _), d) =>
    let d := { d with nextTag := Function.update d.nextTag e (g.edge e).attr.nrProduce }
    if isTerminate tag then (d.countTerminate n e, r.at (.edge (i + 1)))
    else if !isNormal tag then (d, .done (recvOut g n d .error))
    else (d, r.at (.read i e))
  | (res, d) => (d, afterNoBytes g n r i d res)

/-- `read_more`: one of the three kinds of read. -/
def readStep (g : Graph) (n : Nat) (d : Data) (r : Recv) (i e : Nat) (ans : Answer) :
    Option (Data × RecvNext) :=
  let a := (g.edge e).attr
  let remaining := a.nrConsume - r.dest e
  if remaining = a.nrConsume ∧ d.nextTag e = 0 then
    (d.read g e (min a.nrConsume a.nrProduce + 1) ans).map (afterTagged g n r i e)
  else if d.nextTag e ≠ 0 then
    (d.read g e (min remaining (d.nextTag e)) ans).map (afterPayload g n r i e)
  else (d.read g e 1 ans).map (afterTag g n r i e)

/-- The top of the loop body. -/
def edgeStep (g : Graph) (n : Nat) (skips : Nat → Nat) (d : Data) (r : Recv) (i : Nat) :
    RecvNext :=
  match (g.inEdges n)[i]? with
  | none => .done (recvOut g n d .success)
  | some e =>
    if !(g.edge e).isDataPassing || decide (0 < skips e) then r.at (.edge (i + 1))
    else if (g.edge e).attr.type.isRing then
      r.at (if isTerminate (d.ringCmd e) then .ringEmpty i e else .ringRead i e)
    else r.at (.read i e)

/-- One step of `pgm_recv_data` for node `n`. -/
def recvStep (g : Graph) (n : Nat) (skips : Nat → Nat) (d : Data) (r : Recv) (ans : Answer) :
    Option (Data × RecvNext) :=
  match r.pc with
  | .select err => (selectStep g n d r err ans).map (fun x => (d, x))
  | .edge i => some (d, edgeStep g n skips d r i)
  | .ringEmpty i e =>
    if (d.queue e).isEmpty then some (d.countTerminate n e, r.at (.edge (i + 1)))
    else some (d, r.at (.ringRead i e))
  | .ringRead i e =>
    match d.queue e with
    | x :: q =>
      some ({ d with
        queue := Function.update d.queue e q
        bufIn := Function.update d.bufIn e (store (d.bufIn e) (r.dest e) x) },
        (r.finish e x).at (.edge (i + 1)))
    | [] => none
  | .read i e => readStep g n d r i e ans

/-- Where a step at `read_more` leads. -/
inductive AfterRead (r : Recv) (i e : Nat) : RecvNext → Prop
  | again (r' : Recv) (hpc : r'.pc = .read i e) : AfterRead r i e (.more r')
  | next (r' : Recv) (hpc : r'.pc = .edge (i + 1)) : AfterRead r i e (.more r')
  | block (m : BitVec 32) : AfterRead r i e (.more { r with toWait := m, pc := .select false })
  | fail (g : Graph) (n : Nat) (d : Data) : AfterRead r i e (.done (recvOut g n d .error))

theorem afterNoBytes_after (g : Graph) (n : Nat) (r : Recv) (i e : Nat) (d : Data) (res : ReadRes) :
    AfterRead r i e (afterNoBytes g n r i d res) := by
  cases res with
  | eagain => exact .block _
  | error => exact .fail g n d
  | eof => exact .next _ rfl
  | bytes bs => exact .next _ rfl

theorem afterTagged_after (g : Graph) (n : Nat) (r : Recv) (i e : Nat) (x : ReadRes × Data) :
    AfterRead r i e (afterTagged g n r i e x).2 := by
  unfold afterTagged
  split
  · dsimp only
    split_ifs
    · exact .next _ rfl
    · exact .fail g n _
    · exact .again _ rfl
    · exact .next _ rfl
  · exact afterNoBytes_after g n r i e _ _

theorem afterPayload_after (g : Graph) (n : Nat) (r : Recv) (i e : Nat) (x : ReadRes × Data) :
    AfterRead r i e (afterPayload g n r i e x).2 := by
  unfold afterPayload
  split
  · dsimp only
    split_ifs
    · exact .again _ rfl
    · exact .next _ rfl
  · exact afterNoBytes_after g n r i e _ _

theorem afterTag_after (g : Graph) (n : Nat) (r : Recv) (i e : Nat) (x : ReadRes × Data) :
    AfterRead r i e (afterTag g n r i e x).2 := by
  unfold afterTag
  split
  · dsimp only
    split_ifs
    · exact .next _ rfl
    · exact .fail g n _
    · exact .again _ rfl
  · exact afterNoBytes_after g n r i e _ _

theorem readStep_after {g : Graph} {n i e : Nat} {d d' : Data} {r : Recv} {ans : Answer}
    {nx : RecvNext} (h : readStep g n d r i e ans = some (d', nx)) : AfterRead r i e nx := by
  simp only [readStep] at h
  split at h
  · obtain ⟨x, -, hx⟩ := Option.map_eq_some_iff.mp h
    have hafter := afterTagged_after g n r i e x
    rwa [hx] at hafter
  · split at h
    · obtain ⟨x, -, hx⟩ := Option.map_eq_some_iff.mp h
      have hafter := afterPayload_after g n r i e x
      rwa [hx] at hafter
    · obtain ⟨x, -, hx⟩ := Option.map_eq_some_iff.mp h
      have hafter := afterTag_after g n r i e x
      rwa [hx] at hafter

/-- The in-edge number `j` of node `n` is a data-passing edge that is not skipped. -/
def Active (g : Graph) (n : Nat) (skips : Nat → Nat) (j e : Nat) : Prop :=
  (g.inEdges n)[j]? = some e ∧ (g.edge e).isDataPassing = true ∧ skips e = 0

theorem Active.mem {g : Graph} {n : Nat} {skips : Nat → Nat} {j e : Nat}
    (h : Active g n skips j e) : e ∈ g.inEdges n := List.mem_of_getElem? h.1

/-- An edge stands at one place of the list of in-edges. -/
theorem Active.inj {g : Graph} {n : Nat} {skips : Nat → Nat} {i j e : Nat}
    (hi : Active g n skips i e) (hj : Active g n skips j e) : i = j :=
  Graph.inEdges_inj hi.1 hj.1

/-- The edge number `pgm_recv_data` is at; the edges in front of it are done with in
this pass over the in-edges. -/
def RecvPc.pos : RecvPc → Nat
  | .select _ => 0
  | .edge i | .ringEmpty i _ | .ringRead i _ | .read i _ => i

/-- Everything a step of `pgm_recv_data` can do, short of the reads at `read_more`. -/
inductive RecvMove (g : Graph) (n : Nat) (skips : Nat → Nat) (d : Data) (r : Recv) (ans : Answer) :
    Data → RecvNext → Prop
  | selecting (err err' : Bool) (m : BitVec 32) (hpc : r.pc = .select err) (hw : r.toWait ≠ 0)
      (herr : err' = true → err = true ∨ ans = .selectError)
      (hready : ∀ s, ans = .ready s → s ≠ 0 ∧ s &&& r.toWait = s ∧ m = r.toWait &&& ~~~s) :
      RecvMove g n skips d r ans d (.more { r with toWait := m, pc := .select err' })
  | selected (hpc : r.pc = .select false) (hw : r.toWait = 0) :
      RecvMove g n skips d r ans d (r.at (.edge 0))
  | selectFailed (hpc : r.pc = .select true) :
      RecvMove g n skips d r ans d (.done (recvOut g n d .error))
  | out (i : Nat) (hpc : r.pc = .edge i) (hi : (g.inEdges n)[i]? = none) :
      RecvMove g n skips d r ans d (.done (recvOut g n d .success))
  | pass (i e : Nat) (hpc : r.pc = .edge i) (hi : (g.inEdges n)[i]? = some e)
      (hn : ¬ Active g n skips i e) : RecvMove g n skips d r ans d (r.at (.edge (i + 1)))
  | enter (i e : Nat) (hpc : r.pc = .edge i) (ha : Active g n skips i e)
      (hr : (g.edge e).attr.type.isRing = false) : RecvMove g n skips d r ans d (r.at (.read i e))
  | ringCmd (i e : Nat) (hpc : r.pc = .edge i) (ha : Active g n skips i e)
      (hr : (g.edge e).attr.type.isRing = true) :
      RecvMove g n skips d r ans d
        (r.at (if isTerminate (d.ringCmd e) then .ringEmpty i e else .ringRead i e))
  | ringStop (i e : Nat) (hpc : r.pc = .ringEmpty i e) (hq : d.queue e = []) :
      RecvMove g n skips d r ans (d.countTerminate n e) (r.at (.edge (i + 1)))
  | ringMore (i e : Nat) (hpc : r.pc = .ringEmpty i e) (hq : d.queue e ≠ []) :
      RecvMove g n skips d r ans d (r.at (.ringRead i e))
  | ringRead (i e : Nat) (x : List UInt8) (q : List (List UInt8)) (hpc : r.pc = .ringRead i e)
      (hq : d.queue e = x :: q) :
      RecvMove g n skips d r ans
        { d with
          queue := Function.update d.queue e q
          bufIn := Function.update d.bufIn e (store (d.bufIn e) (r.dest e) x) }
        ((r.finish e x).at (.edge (i + 1)))
  | read (i e : Nat) (d' : Data) (nx : RecvNext) (hpc : r.pc = .read i e)
      (h : readStep g n d r i e ans = some (d', nx)) : RecvMove g n skips d r ans d' nx

section recvStep

variable {g : Graph} {n : Nat} {skips : Nat → Nat} {d d' : Data} {r : Recv} {ans : Answer}
  {nx : RecvNext}

theorem selectStep_move {err : Bool} (hpc : r.pc = .select err)
    (h : selectStep g n d r err ans = some nx) : RecvMove g n skips d r ans d nx := by
  unfold selectStep at h
  by_cases hw : r.toWait = 0
  · rw [if_pos hw] at h
    cases err <;> cases h
    · exact .selected hpc hw
    · exact .selectFailed hpc
  · rw [if_neg hw] at h
    cases ans with
    | ready s =>
      simp only at h
      split at h
      · rename_i hs
        cases h
        rw [hpc]
        refine .selecting err err (r.toWait &&& ~~~s) hpc hw Or.inl (fun s' hs' => ?_)
        cases hs'
        exact ⟨hs.1, hs.2, rfl⟩
      · cases h
    | timeout =>
      cases h
      exact .selecting err false r.toWait hpc hw (fun hc => by cases hc) (by rintro _ ⟨⟩)
    | selectError =>
      cases h
      exact .selecting err true r.toWait hpc hw (fun _ => Or.inr rfl) (by rintro _ ⟨⟩)
    | _ => cases h

theorem edgeStep_move {i : Nat} (hpc : r.pc = .edge i) :
    RecvMove g n skips d r ans d (edgeStep g n skips d r i) := by
  unfold edgeStep
  cases hi : (g.inEdges n)[i]? with
  | none => exact .out i hpc hi
  | some e =>
    simp only [Bool.or_eq_true, Bool.not_eq_true', decide_eq_true_eq]
    split
    · rename_i hskip
      refine .pass i e hpc hi (fun ha => ?_)
      rcases hskip with hdp | hsk
      · rw [ha.2.1] at hdp; cases hdp
      · rw [ha.2.2] at hsk; omega
    · rename_i hact
      have ha : Active g n skips i e := by
        refine ⟨hi, ?_, by omega⟩
        cases hdp : (g.edge e).isDataPassing
        · exact absurd (Or.inl hdp) hact
        · rfl
      split
      · rename_i hr
        exact .ringCmd i e hpc ha hr
      · rename_i hr
        exact .enter i e hpc ha (Bool.eq_false_iff.mpr hr)

theorem recvStep_move (h : recvStep g n skips d r ans = some (d', nx)) :
    RecvMove g n skips d r ans d' nx := by
  unfold recvStep at h
  split at h
  · rename_i err hpc
    obtain ⟨nx', hsel, hnx⟩ := Option.map_eq_some_iff.mp h
    cases hnx
    exact selectStep_move hpc hsel
  · rename_i i hpc
    cases h
    exact edgeStep_move hpc
  · rename_i i e hpc
    split at h
    · cases h
      exact .ringStop i e hpc (List.isEmpty_iff.mp ‹_›)
    · rename_i hq
      cases h
      exact .ringMore i e hpc (fun hnil => hq (List.isEmpty_iff.mpr hnil))
  · rename_i i e hpc
    split at h
    · rename_i x q hq
      cases h
      exact .ringRead i e x q hpc hq
    · cases h
  · exact .read _ _ _ _ ‹_› h

end recvStep

/-- One call of `pgm_recv_data`, with what it has returned. -/
structure Call where
  data : Data
  loc : Recv
  ret : Option WaitStatus

/-- The local variables before a call has set them. -/
def Recv.unset : Recv := ⟨0, 0, fun _ => 0, fun _ => [], .select false⟩

def callStart (g : Graph) (n : Nat) (skips : Nat → Nat) (d : Data) : Call :=
  match recvStart g n skips d with
  | .more r => ⟨d, r, none⟩
  | .done st => ⟨d, Recv.unset, some st⟩

/-- A call that returns at once skips all in-edges of the node. -/
theorem not_active_of_recvStart_done {g : Graph} {n : Nat} {skips : Nat → Nat} {d : Data}
    {st : WaitStatus} (h : recvStart g n skips d = .done st) (j e : Nat) :
    ¬ Active g n skips j e := by
  rintro ⟨hj, hdp, hsk⟩
  obtain ⟨hlt, hget⟩ := List.getElem?_eq_some_iff.mp hj
  have hdeg : (g.inEdges n).length < 32 := g.inDegree n
  unfold recvStart at h
  simp only at h
  split at h
  · rename_i hmask
    have hbit := congrArg (fun m => BitVec.getLsbD m j) hmask
    simp only [Graph.getLsbD_allOnes_shift hdeg.le, Graph.getLsbD_maskOf] at hbit
    simp [hlt, hget, hsk] at hbit
  · cases h

theorem callStart_pc (g : Graph) (n : Nat) (skips : Nat → Nat) (d : Data) :
    (callStart g n skips d).loc.pc = .select false := by
  unfold callStart recvStart
  simp only
  split_ifs <;> rfl

theorem callStart_active {g : Graph} {n : Nat} {skips : Nat → Nat} {j e : Nat}
    (ha : Active g n skips j e) (d : Data) :
    ∃ r, callStart g n skips d = ⟨d, r, none⟩ ∧ r.pc = .select false ∧ (∀ e, r.dest e = 0) ∧
      ∀ e, r.taken e = [] := by
  unfold callStart
  cases hr : recvStart g n skips d with
  | done st => exact absurd ha (not_active_of_recvStart_done hr j e)
  | more r =>
    refine ⟨r, rfl, ?_⟩
    unfold recvStart at hr
    simp only at hr
    split at hr
    · cases hr
    · cases hr
      exact ⟨rfl, fun _ => rfl, fun _ => rfl⟩

def Call.after (c : Call) (d : Data) : RecvNext → Call
  | .more r => ⟨d, r, none⟩
  | .done st => ⟨d, c.loc, some st⟩

def callStep (g : Graph) (n : Nat) (skips : Nat → Nat) (c : Call) (ans : Answer) : Option Call :=
  if c.ret = none then
    (recvStep g n skips c.data c.loc ans).map (fun x => c.after x.1 x.2)
  else none

@[simp] theorem after_at (c : Call) (d : Data) (r : Recv) (pc : RecvPc) :
    c.after d (r.at pc) = ⟨d, { r with pc := pc }, none⟩ := rfl

theorem callStep_move {g : Graph} {n : Nat} {skips : Nat → Nat} {c c' : Call} {ans : Answer}
    (h : callStep g n skips c ans = some c') :
    c.ret = none ∧ ∃ d nx, RecvMove g n skips c.data c.loc ans d nx ∧ c' = c.after d nx := by
  unfold callStep at h
  split at h
  · rename_i hret
    obtain ⟨⟨d, nx⟩, hstep, hc⟩ := Option.map_eq_some_iff.mp h
    exact ⟨hret, d, nx, recvStep_move hstep, hc.symm⟩
  · cases h

theorem recvOut_error_ne (g : Graph) (n : Nat) (d : Data) : recvOut g n d .error ≠ .success := by
  unfold recvOut
  split <;> simp

end Pgm
