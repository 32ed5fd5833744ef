import Mathlib.Data.List.Basic
import Mathlib.Tactic.Common

/-! A reader that cuts a sequence into pieces of `c` symbols. It has a buffer of `c` symbols, fills it
from the front as the symbols come in, and starts at the front again when the buffer is full. What it
reads is the sequence `sent`, which may grow meanwhile: `Ok.send`, `Ok.take` and `Ok.finish` are the
three things that can happen. -/

/-- `done` pieces have been read; `taken` is what the buffer has of the next one, and `rest` is still
to come. -/
structure Reader (α : Type) where
  done : Nat
  taken : List α
  rest : List α
  buf : List α

namespace Reader

variable {α : Type}

/-- What the buffer holds after `k` pieces, if it held `init` before. -/
def piece (c : Nat) (init sent : List α) : Nat → List α
  | 0 => init
  | k + 1 => (sent.drop (k * c)).take c

/-- The symbols `bs` in the buffer behind the first `k`. -/
def overwrite (buf : List α) (k : Nat) (bs : List α) : List α :=
  buf.take k ++ bs ++ buf.drop (k + bs.length)

structure Ok (c : Nat) (init sent : List α) (r : Reader α) : Prop where
  le : r.done * c ≤ sent.length
  rest : sent.drop (r.done * c) = r.taken ++ r.rest
  size : r.buf.length = c
  front : r.buf.take r.taken.length = r.taken
  last : r.taken = [] → r.buf = piece c init sent r.done

variable {c : Nat} {init sent : List α} {r : Reader α}

theorem overwrite_nil (buf : List α) (k : Nat) : overwrite buf k [] = buf := by
  simp [overwrite]

theorem overwrite_length {buf bs : List α} {k : Nat} (h : k + bs.length ≤ buf.length) :
    (overwrite buf k bs).length = buf.length := by
  simp only [overwrite, List.length_append, List.length_take, List.length_drop]
  omega

/-- The front of the buffer after the write. -/
theorem overwrite_take {buf bs : List α} {k : Nat} (h : k ≤ buf.length) :
    (overwrite buf k bs).take (k + bs.length) = buf.take k ++ bs := by
  have hlen : (buf.take k ++ bs).length = k + bs.length := by
    rw [List.length_append, List.length_take, Nat.min_eq_left h]
  rw [overwrite, ← hlen, List.take_left]

/-- More that is sent changes none of the pieces that have been read. -/
theorem piece_append {k : Nat} (h : k * c ≤ sent.length) (x : List α) :
    piece c init (sent ++ x) k = piece c init sent k := by
  cases k with
  | zero => rfl
  | succ k =>
    rw [Nat.succ_mul] at h
    rw [piece, piece, List.drop_append_of_le_length (by omega),
      List.take_append_of_le_length (by rw [List.length_drop]; omega)]

/-- More is sent. -/
theorem Ok.send (h : r.Ok c init sent) (x : List α) :
    Ok c init (sent ++ x) { r with rest := r.rest ++ x } where
  le := by
    rw [List.length_append]
    exact Nat.le_trans h.le (Nat.le_add_right _ _)
  rest := by rw [List.drop_append_of_le_length h.le, h.rest, List.append_assoc]
  size := h.size
  front := h.front
  last hnil := by rw [h.last hnil, piece_append h.le]

/-- What the buffer has of the next piece after the symbols `bs`. -/
theorem Ok.front_take (h : r.Ok c init sent) {bs : List α} (hlen : r.taken.length + bs.length ≤ c) :
    (overwrite r.buf r.taken.length bs).take (r.taken.length + bs.length) = r.taken ++ bs := by
  rw [overwrite_take (by rw [h.size]; omega), h.front]

/-- Some of the next piece is read. -/
theorem Ok.take (h : r.Ok c init sent) {bs rest : List α} (hrest : r.rest = bs ++ rest)
    (hlen : r.taken.length + bs.length < c) :
    Ok c init sent ⟨r.done, r.taken ++ bs, rest, overwrite r.buf r.taken.length bs⟩ where
  le := h.le
  rest := by rw [h.rest, hrest, List.append_assoc]
  size := (overwrite_length (by rw [h.size]; omega)).trans h.size
  front := by
    rw [List.length_append]
    exact h.front_take (Nat.le_of_lt hlen)
  last hnil := by
    obtain ⟨htaken, rfl⟩ := List.append_eq_nil_iff.mp hnil
    rw [overwrite_nil]
    exact h.last htaken

/-- The rest of the next piece is read. -/
theorem Ok.finish (h : r.Ok c init sent) {bs rest : List α} (hrest : r.rest = bs ++ rest)
    (hlen : r.taken.length + bs.length = c) :
    Ok c init sent ⟨r.done + 1, [], rest, overwrite r.buf r.taken.length bs⟩ := by
  have hsplit : sent.drop (r.done * c) = (r.taken ++ bs) ++ rest := by
    rw [h.rest, hrest, List.append_assoc]
  have hpiece : (r.taken ++ bs).length = c := by rw [List.length_append, hlen]
  have hsize : (overwrite r.buf r.taken.length bs).length = c :=
    (overwrite_length (by rw [h.size]; omega)).trans h.size
  refine ⟨?_, ?_, hsize, rfl, fun _ => ?_⟩
  · have hlength := congrArg List.length hsplit
    rw [List.length_drop, List.length_append, hpiece] at hlength
    have hle := h.le
    rw [Nat.succ_mul]
    omega
  · rw [Nat.succ_mul, ← List.drop_drop, hsplit, ← hpiece, List.drop_left]
    rfl
  · have hfront := h.front_take (Nat.le_of_eq hlen)
    rw [hlen, List.take_of_length_le (Nat.le_of_eq hsize)] at hfront
    rw [hfront, piece, hsplit, ← hpiece, List.take_left]

/-- At the end of the sequence the next piece stays short. -/
theorem Ok.lt_of_end (h : r.Ok c init sent) (hrest : r.rest = []) (hlen : r.taken.length < c) :
    sent.length < (r.done + 1) * c := by
  have hlength := congrArg List.length h.rest
  rw [hrest, List.append_nil, List.length_drop] at hlength
  have hle := h.le
  rw [Nat.succ_mul]
  omega

end Reader
