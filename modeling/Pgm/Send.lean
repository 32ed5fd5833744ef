import Pgm.Recv

/-! The send loop of `pgm_send_std_data`, one write at a time. -/

namespace Pgm

open Function (update)

/-- The bytes of a message: the tag alone for a terminate message, otherwise the
tag and the `nr_produce` bytes of the producer's buffer. -/
def stdMessage (tag : UInt8) (bufOut : List UInt8) : List UInt8 :=
  if isTerminate tag then [tag] else tag :: bufOut

inductive WriteRes where
  | bytes (k : Nat)
  | eagain
  | error

/-- `e->ops->write(e, buf, sz)` on a FIFO, socket or message queue. A stream may take
only a part of the bytes; a message queue takes them as one message. -/
def Data.write (g : Graph) (d : Data) (e : Nat) (buf : List UInt8) :
    Answer → Option (WriteRes × Data)
  | .bytes k =>
    if (g.edge e).attr.type.isMq then
      some (.bytes buf.length, { d with queue := update d.queue e (d.queue e ++ [buf]) })
    else if 0 < k ∧ k ≤ buf.length then
      some (.bytes k, { d with stream := update d.stream e (d.stream e ++ buf.take k) })
    else none
  | .eagain => some (.eagain, d)
  | .failed => some (.error, d)
  | _ => none

inductive SendNext where
  /-- These bytes are still to be written. -/
  | more (buf : List UInt8)
  | done (ok : Bool)

def sendStdStep (g : Graph) (d : Data) (e : Nat) (buf : List UInt8) (ans : Answer) :
    Option (Data × SendNext) :=
  (d.write g e buf ans).map fun x =>
    match x with
    | (.bytes k, d) => (d, if k = buf.length then .done true else .more (buf.drop k))
    | (.eagain, d) => (d, .more buf)
    | (.error, d) => (d, .done false)

/-- What is left to write of a message after a round. -/
def SendNext.rest : SendNext → List UInt8
  | .more buf => buf
  | .done _ => []

theorem sendStdStep_stream {g : Graph} {d d' : Data} {e : Nat} {buf : List UInt8} {ans : Answer}
    {nx : SendNext} (hs : (g.edge e).attr.type.isStream) (hfail : ans ≠ .failed)
    (h : sendStdStep g d e buf ans = some (d', nx)) :
    ∃ s, d' = { d with stream := update d.stream e s } ∧ s ++ nx.rest = d.stream e ++ buf := by
  have hmq : (g.edge e).attr.type.isMq = false := by
    cases ht : (g.edge e).attr.type <;> rw [ht] at hs <;> first | rfl | cases hs
  obtain ⟨⟨res, d₁⟩, hw, hx⟩ := Option.map_eq_some_iff.mp h
  cases ans with
  | bytes k =>
    simp only [Data.write, hmq, Bool.false_eq_true, if_false] at hw
    split at hw
    · rename_i hk
      cases hw
      simp only [Prod.mk.injEq] at hx
      obtain ⟨rfl, rfl⟩ := hx
      refine ⟨_, rfl, ?_⟩
      split
      · rename_i hall
        simp [SendNext.rest, hall]
      · simp [SendNext.rest, List.append_assoc]
    · cases hw
  | eagain =>
    cases hw
    cases hx
    exact ⟨d.stream e, by rw [Function.update_eq_self], rfl⟩
  | failed => exact absurd rfl hfail
  | _ => cases hw

end Pgm
