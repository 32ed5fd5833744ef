import Mathlib.Data.List.Basic
import Mathlib.Tactic.Common

/-! Streams of tagged messages of a fixed size. Each message is the symbol
`normal` followed by `P` payload symbols; the stream may end with `stop`. A
reader that has `k` payload symbols left before the next tag sees a stream that
is `Framed` at `k`, with payload `strip k`. The cut of a stream at an arbitrary
place is `Framed.drop` inside a message and `Framed.tag` at a tag. -/

namespace Framing

variable {α : Type} (normal stop : α) (P : Nat)

/-- `k` payload symbols, then whole messages, then `stop` if `t`. -/
def Framed (t : Bool) : Nat → List α → Prop
  | 0, [] => t = false
  | 0, x :: xs => (x = stop ∧ t = true ∧ xs = []) ∨ (x = normal ∧ Framed t P xs)
  | _ + 1, [] => False
  | k + 1, _ :: xs => Framed t k xs

/-- The payload of a stream with `k` payload symbols before its first tag. -/
def strip (P : Nat) : Nat → List α → List α
  | _, [] => []
  | 0, _ :: xs => strip P P xs
  | k + 1, x :: xs => x :: strip P k xs

def encode (ms : List (List α)) : List α := ms.flatMap (fun m => normal :: m)

instance decidableFramed [DecidableEq α] (t : Bool) :
    ∀ (k : Nat) (xs : List α), Decidable (Framed normal stop P t k xs)
  | 0, [] => inferInstanceAs (Decidable (t = false))
  | 0, _ :: xs =>
    have := decidableFramed t P xs
    inferInstanceAs (Decidable ((_ ∧ t = true ∧ xs = []) ∨ (_ ∧ Framed normal stop P t P xs)))
  | _ + 1, [] => inferInstanceAs (Decidable False)
  | k + 1, _ :: xs => decidableFramed t k xs

/-- Whole messages one by one, then `stop` alone if `t`. -/
def Queued (t : Bool) : List (List α) → Prop
  | [] => t = false
  | m :: ms => (m = [stop] ∧ t = true ∧ ms = []) ∨
      ((∃ x, m = normal :: x ∧ x.length = P) ∧ Queued t ms)

variable {normal stop P} {t : Bool}

theorem Queued.append {ms ns : List (List α)} (h : Queued normal stop P false ms)
    (hn : Queued normal stop P t ns) : Queued normal stop P t (ms ++ ns) := by
  induction ms with
  | nil => exact hn
  | cons m ms ih =>
    rcases h with ⟨-, ht, -⟩ | ⟨hm, h⟩
    · cases ht
    · exact Or.inr ⟨hm, ih h⟩

/-- A stream that is to be stopped has its `stop` still to come. -/
theorem Framed.ne_nil {k : Nat} {xs : List α} (h : Framed normal stop P true k xs) : xs ≠ [] := by
  rintro rfl
  cases k with
  | zero => cases h
  | succ k => exact h

theorem Framed.drop {k j : Nat} {xs : List α} (h : Framed normal stop P t k xs) (hj : j ≤ k) :
    Framed normal stop P t (k - j) (xs.drop j) := by
  induction j generalizing k xs with
  | zero => exact h
  | succ j ih =>
    cases k with
    | zero => omega
    | succ k =>
      cases xs with
      | nil => exact absurd h id
      | cons x xs =>
        rw [Nat.succ_sub_succ]
        exact ih h (by omega)

/-- The next `j` symbols of the message in hand are payload. -/
theorem strip_take {k j : Nat} {xs : List α} (hj : j ≤ k) :
    strip P k xs = xs.take j ++ strip P (k - j) (xs.drop j) := by
  induction j generalizing k xs with
  | zero => rfl
  | succ j ih =>
    cases k with
    | zero => omega
    | succ k =>
      cases xs with
      | nil => simp [strip]
      | cons x xs =>
        rw [Nat.succ_sub_succ]
        simp only [strip, List.take_succ_cons, List.cons_append, List.drop_succ_cons]
        rw [ih (k := k) (by omega)]

/-- More symbols give no less payload. -/
theorem strip_length_le (k : Nat) (xs ys : List α) :
    (strip P k xs).length ≤ (strip P k (xs ++ ys)).length := by
  induction xs generalizing k with
  | nil => exact Nat.zero_le _
  | cons x xs ih =>
    cases k with
    | zero => exact ih P
    | succ k => exact Nat.succ_le_succ (ih k)

/-- The next symbol of a stream at a message boundary is a tag. -/
theorem Framed.tag {x : α} {xs : List α} (h : Framed normal stop P t 0 (x :: xs)) :
    (x = stop ∧ t = true ∧ xs = []) ∨ (x = normal ∧ Framed normal stop P t P xs) := h

/-- Inside of a message there is payload. -/
theorem Framed.strip_ne_nil {k : Nat} {xs : List α} (h : Framed normal stop P t k xs) (hk : k ≠ 0) :
    strip P k xs ≠ [] := by
  cases k with
  | zero => exact absurd rfl hk
  | succ k =>
    cases xs with
    | nil => exact absurd h id
    | cons x xs => exact List.cons_ne_nil _ _

/-- A stopped stream without payload is at its `stop`. -/
theorem Framed.eq_stop {k : Nat} {xs : List α} (h : Framed normal stop P true k xs) (hP : P ≠ 0)
    (hs : strip P k xs = []) : k = 0 ∧ xs = [stop] := by
  cases k with
  | succ k => exact absurd hs (h.strip_ne_nil (Nat.succ_ne_zero k))
  | zero =>
    cases xs with
    | nil => cases h
    | cons x xs =>
      rcases h.tag with ⟨rfl, -, rfl⟩ | ⟨-, hf⟩
      · exact ⟨rfl, rfl⟩
      · exact absurd hs (hf.strip_ne_nil hP)

theorem Queued.eq_stop {ms : List (List α)} (h : Queued normal stop P true ms) (hne : normal ≠ stop)
    (hs : ∀ m ∈ ms, m = [stop]) : ms = [[stop]] := by
  cases ms with
  | nil => cases h
  | cons m ms =>
    rcases h with ⟨rfl, -, rfl⟩ | ⟨⟨x, rfl, -⟩, -⟩
    · rfl
    · exact absurd (List.cons.inj (hs _ List.mem_cons_self)).1 hne

/-- More messages may follow a stream that has not been stopped. -/
theorem Framed.append {k : Nat} {xs ys : List α} (h : Framed normal stop P false k xs)
    (hy : Framed normal stop P t 0 ys) : Framed normal stop P t k (xs ++ ys) := by
  induction xs generalizing k with
  | nil =>
    cases k with
    | zero => exact hy
    | succ k => exact absurd h id
  | cons x xs ih =>
    cases k with
    | zero =>
      rcases h with ⟨-, ht, -⟩ | ⟨hx, h⟩
      · cases ht
      · exact Or.inr ⟨hx, ih h⟩
    | succ k => exact ih (k := k) h

/-- The payload of what follows comes after that of the stream. -/
theorem Framed.strip_append {k : Nat} {xs : List α} (h : Framed normal stop P false k xs)
    (ys : List α) : strip P k (xs ++ ys) = strip P k xs ++ strip P 0 ys := by
  induction xs generalizing k with
  | nil =>
    cases k with
    | zero => rfl
    | succ k => exact absurd h id
  | cons x xs ih =>
    cases k with
    | zero =>
      rcases h with ⟨-, ht, -⟩ | ⟨hx, h⟩
      · cases ht
      · exact ih h
    | succ k => exact congrArg (x :: ·) (ih (k := k) h)

theorem framed_payload {m ys : List α} (hy : Framed normal stop P t 0 ys) :
    Framed normal stop P t m.length (m ++ ys) := by
  induction m with
  | nil => exact hy
  | cons x m ih => exact ih

theorem strip_payload (m ys : List α) : strip P m.length (m ++ ys) = m ++ strip P 0 ys := by
  induction m with
  | nil => rfl
  | cons x m ih => simp only [List.length_cons, List.cons_append, strip, ih]

theorem framed_encode {ms : List (List α)} (hm : ∀ m ∈ ms, m.length = P) {ys : List α}
    (hy : Framed normal stop P t 0 ys) : Framed normal stop P t 0 (encode normal ms ++ ys) := by
  induction ms with
  | nil => exact hy
  | cons m ms ih =>
    have hms := ih (fun m' h => hm m' (List.mem_cons_of_mem _ h))
    have hp := framed_payload (m := m) hms
    rw [hm m List.mem_cons_self] at hp
    simpa [encode, Framed] using Or.inr hp

theorem strip_encode {ms : List (List α)} (hm : ∀ m ∈ ms, m.length = P) (ys : List α) :
    strip P 0 (encode normal ms ++ ys) = ms.flatten ++ strip P 0 ys := by
  induction ms with
  | nil => rfl
  | cons m ms ih =>
    have hms := ih (fun m' h => hm m' (List.mem_cons_of_mem _ h))
    have hp := strip_payload (P := P) m (encode normal ms ++ ys)
    rw [hm m List.mem_cons_self, hms] at hp
    simpa [encode, strip] using hp

/-- The first `k` consecutive pieces of length `c` of a list. -/
def pieces (c : Nat) : Nat → List α → List (List α)
  | 0, _ => []
  | k + 1, xs => xs.take c :: pieces c k (xs.drop c)

/-- Blocks of length `c` that make up the front of a list are its pieces. -/
theorem eq_pieces {c : Nat} {bs : List (List α)} {xs ys : List α} (hb : ∀ b ∈ bs, b.length = c)
    (h : xs = bs.flatten ++ ys) :
    bs = pieces c bs.length xs ∧ xs.drop (bs.length * c) = ys := by
  induction bs generalizing xs with
  | nil => exact ⟨rfl, by simpa using h⟩
  | cons b bs ih =>
    have hlen : b.length = c := hb b List.mem_cons_self
    have hx : xs = b ++ (bs.flatten ++ ys) := by rw [h, List.flatten_cons, List.append_assoc]
    have htake : xs.take c = b := by rw [hx, ← hlen, List.take_left]
    have hdrop : xs.drop c = bs.flatten ++ ys := by rw [hx, ← hlen, List.drop_left]
    obtain ⟨hp, hr⟩ := ih (fun b' hb' => hb b' (List.mem_cons_of_mem b hb')) hdrop
    refine ⟨?_, ?_⟩
    · rw [List.length_cons, pieces, htake, ← hp]
    · rw [List.length_cons, Nat.succ_mul, Nat.add_comm, ← List.drop_drop, hr]

theorem length_flatten_of_forall {c : Nat} {bs : List (List α)} (hb : ∀ b ∈ bs, b.length = c) :
    bs.flatten.length = bs.length * c := by
  induction bs with
  | nil => simp
  | cons b bs ih =>
    rw [List.flatten_cons, List.length_append, hb b List.mem_cons_self,
      ih (fun b' hb' => hb b' (List.mem_cons_of_mem b hb')), List.length_cons, Nat.succ_mul,
      Nat.add_comm]

end Framing
