import Mathlib.Algebra.Group.Nat.Defs
import Mathlib.Data.List.GetD
import Mathlib.Order.Interval.Set.Basic

/-! A memory of bytes. A store changes the bytes it covers and no other, and a
number is read back as it was stored, least significant byte first. -/

namespace Bytes

abbrev Mem := Nat → UInt8

def store (m : Mem) (a : Nat) (bs : List UInt8) : Mem :=
  fun x => if a ≤ x then bs.getD (x - a) (m x) else m x

/-- Stores one after the other, each an address and its bytes. -/
def storeAll (m : Mem) (ws : List (Nat × List UInt8)) : Mem :=
  ws.foldl (fun m w => store m w.1 w.2) m

def covered (w : Nat × List UInt8) : Set Nat := Set.Ico w.1 (w.1 + w.2.length)

def encode : Nat → Nat → List UInt8
  | 0, _ => []
  | n + 1, v => UInt8.ofNat v :: encode n (v / 256)

def load (m : Mem) (a : Nat) : Nat → Nat
  | 0 => 0
  | n + 1 => (m a).toNat + 256 * load m (a + 1) n

variable {m m' : Mem} {a x : Nat}

theorem store_inside {bs : List UInt8} {i : Nat} (h : i < bs.length) :
    store m a bs (a + i) = bs[i] := by
  rw [store, if_pos (Nat.le_add_right a i), Nat.add_sub_cancel_left]
  exact List.getD_eq_getElem bs (m (a + i)) h

theorem store_outside {bs : List UInt8} (h : x ∉ covered (a, bs)) : store m a bs x = m x := by
  unfold store
  split
  · rename_i hle
    have hlen : bs.length ≤ x - a := by
      by_contra hlt
      exact h (Set.mem_Ico.mpr ⟨hle, by dsimp only; omega⟩)
    exact List.getD_eq_default bs (m x) hlen
  · rfl

theorem storeAll_outside {ws : List (Nat × List UInt8)} (h : ∀ w ∈ ws, x ∉ covered w) :
    storeAll m ws x = m x := by
  induction ws generalizing m with
  | nil => rfl
  | cons w ws ih =>
    have hrest : storeAll (store m w.1 w.2) ws x = store m w.1 w.2 x :=
      ih (fun v hv => h v (List.mem_cons_of_mem w hv))
    have hw : x ∉ covered w := h w List.mem_cons_self
    exact hrest.trans (store_outside hw)

@[simp] theorem encode_length (n v : Nat) : (encode n v).length = n := by
  induction n generalizing v with
  | zero => rfl
  | succ n ih => rw [encode, List.length_cons, ih]

/-- A number depends on the bytes it is read from only. -/
theorem load_congr {n : Nat} (h : ∀ i, i < n → m (a + i) = m' (a + i)) :
    load m a n = load m' a n := by
  induction n generalizing a with
  | zero => rfl
  | succ n ih =>
    have hrest : load m (a + 1) n = load m' (a + 1) n := by
      refine ih (fun i hi => ?_)
      rw [Nat.add_right_comm, Nat.add_assoc]
      exact h (i + 1) (by omega)
    have hhead : m a = m' a := h 0 (by omega)
    rw [load, load, hrest, hhead]

theorem load_store_outside {n b : Nat} {bs : List UInt8}
    (h : a + n ≤ b ∨ b + bs.length ≤ a) : load (store m b bs) a n = load m a n := by
  refine load_congr (fun i hi => store_outside (fun hmem => ?_))
  have := Set.mem_Ico.mp hmem
  dsimp only at this
  omega

theorem load_store_encode (n v : Nat) :
    load (store m a (encode n v)) a n = v % 256 ^ n := by
  induction n generalizing m a v with
  | zero => rw [load, Nat.pow_zero, Nat.mod_one]
  | succ n ih =>
    -- The bytes behind the first one are those of the rest of the number.
    have hrest : load (store m a (encode (n + 1) v)) (a + 1) n = v / 256 % 256 ^ n := by
      rw [← ih (m := m) (a := a + 1) (v / 256)]
      refine load_congr (fun i hi => ?_)
      have hhere : i < (encode n (v / 256)).length := by simpa using hi
      have hthere : i + 1 < (encode (n + 1) v).length := by simpa using hi
      rw [store_inside hhere, Nat.add_right_comm, Nat.add_assoc, store_inside hthere]
      rfl
    have hhead : store m a (encode (n + 1) v) a = UInt8.ofNat v := by
      have hpos : 0 < (encode (n + 1) v).length := by simp
      exact store_inside hpos
    have hmod : v % 256 ^ (n + 1) = v % 256 + 256 * (v / 256 % 256 ^ n) := by
      rw [Nat.pow_succ', Nat.mod_mul]
    rw [load, hrest, hhead, hmod, UInt8.toNat_ofNat']

end Bytes
