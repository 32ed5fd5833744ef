import Mathlib.Data.Nat.Log
import Pgm.Lib.Word

/-! The ring buffer of `ring.h`: its fields and `init_ring`. `ringCount_spec`
says that a ring is set up with the least power of two that is at least the
number of members asked for, `initRing_sized_iff` when its block is as large as
its members need, and `Fits.offset_eq` that members then lie where they
should. -/

namespace Pgm.RingBuf

inductive SlotState where
  | free
  | ready
  deriving DecidableEq, Repr

abbrev Elem := List UInt8

/-- `struct ring`. `buf` is a block of `bytes` bytes, a pointer into it is its
byte offset. What `buf` is from `bytes` on lies outside of the block. -/
structure Ring where
  nmemb : Nat
  membSz : Nat
  nfree : Nat
  widx : Nat
  ridx : Nat
  slots : Nat → SlotState
  bytes : Nat
  buf : Nat → UInt8

/-- `idx * memb_sz` for `idx = i % nmemb`, a product of two words. -/
def Ring.offset (r : Ring) (i : Nat) : Nat := Word.mul 64 (i % r.nmemb) r.membSz

/-- `__builtin_clzl` of a non-zero word. -/
def nleadingUnsetBits (x : Nat) : Nat := 63 - Nat.log2 x

/-- The shift amount of the rounding expression, negative for `minCount - 1`
with its top bit set. -/
def roundShift (minCount : Nat) : Int := (nleadingUnsetBits (minCount - 1) : Int) - 1

/-- `min_count` rounded up. The shifter takes its amount modulo the word size. -/
def ringCount (minCount : Nat) : Nat :=
  if minCount > 2 then 2 ^ 63 >>> (roundShift minCount % 64).toNat else minCount

/-- The argument of the `malloc` for `buf`, a product of two words. -/
def bufBytes (count size : Nat) : Nat := count * size % 2 ^ 64

/-- `init_ring` on a ring pointer that is not NULL; `junk` is what `malloc`
leaves in the data block. -/
def initRing (junk : Nat → UInt8) (minCount size : Nat) : Option Ring :=
  if minCount = 0 ∨ size = 0 then none
  else if ringCount minCount = 0 then none
  else some
    { nmemb := ringCount minCount
      membSz := size
      nfree := ringCount minCount
      widx := 0
      ridx := 0
      slots := fun _ => .free
      bytes := bufBytes (ringCount minCount) size
      buf := junk }

/-- The count is the least power of two that is large enough. -/
theorem ringCount_spec {m : Nat} (h1 : 1 ≤ m) (h2 : m ≤ 2 ^ 63) :
    ∃ k, k ≤ 63 ∧ ringCount m = 2 ^ k ∧ m ≤ 2 ^ k ∧ ∀ j, m ≤ 2 ^ j → k ≤ j := by
  unfold ringCount
  split
  · rename_i hm
    have hx : m - 1 ≠ 0 := by omega
    have hle : 2 ^ Nat.log2 (m - 1) ≤ m - 1 := Nat.log2_self_le hx
    have hlt : m - 1 < 2 ^ (Nat.log2 (m - 1) + 1) := Nat.lt_log2_self
    have hL : Nat.log2 (m - 1) < 63 := (Nat.log2_lt hx).mpr (by omega)
    have hs : (roundShift m % 64).toNat = 62 - Nat.log2 (m - 1) := by
      unfold roundShift nleadingUnsetBits
      omega
    refine ⟨Nat.log2 (m - 1) + 1, by omega, ?_, by omega, ?_⟩
    · rw [hs, Nat.shiftRight_eq_div_pow, Nat.pow_div (by omega) (by omega)]
      congr 1
      omega
    · intro j hj
      have : 2 ^ Nat.log2 (m - 1) < 2 ^ j := by omega
      have := (Nat.pow_lt_pow_iff_right (show 1 < 2 by omega)).mp this
      omega
  · have hm : m = 1 ∨ m = 2 := by omega
    rcases hm with rfl | rfl
    · exact ⟨0, by omega, rfl, by omega, fun j _ => Nat.zero_le j⟩
    · refine ⟨1, by omega, rfl, by omega, fun j hj => ?_⟩
      cases j with
      | zero => simp at hj
      | succ j => omega

/-- The power that the code takes is the least one, so its members fit if those of any do. -/
theorem ringCount_fits {m size k : Nat} (h1 : 1 ≤ m) (hs : 1 ≤ size) (hk : m ≤ 2 ^ k)
    (hfit : 2 ^ k * size < 2 ^ 64) : m ≤ 2 ^ 63 ∧ ringCount m * size < 2 ^ 64 := by
  have hpow : 2 ^ k < 2 ^ 64 := lt_of_le_of_lt (Nat.le_mul_of_pos_right _ hs) hfit
  have hk64 : k < 64 := (Nat.pow_lt_pow_iff_right (by omega)).mp hpow
  have h63 : m ≤ 2 ^ 63 := hk.trans (Nat.pow_le_pow_right (by omega) (by omega))
  obtain ⟨j, -, hcount, -, hleast⟩ := ringCount_spec h1 h63
  refine ⟨h63, lt_of_le_of_lt (Nat.mul_le_mul_right size ?_) hfit⟩
  rw [hcount]
  exact Nat.pow_le_pow_right (by omega) (hleast k hk)

/-- What `init_ring` is for: it shifts by an amount that the language defines,
and it refuses or sets the ring up with the least power of two that is large
enough, in a block of less than `2 ^ 64` bytes that holds every member. -/
def Sized (minCount size : Nat) : Prop :=
  (2 < minCount → 0 ≤ roundShift minCount ∧ roundShift minCount ≤ 63) ∧
  ∀ junk r, initRing junk minCount size = some r →
    (∃ k, r.nmemb = 2 ^ k ∧ minCount ≤ 2 ^ k ∧ ∀ j, minCount ≤ 2 ^ j → k ≤ j) ∧
    r.nmemb * size < 2 ^ 64 ∧
    ∀ i, i < r.nmemb → i * r.membSz + size ≤ r.bytes

theorem initRing_eq_some {junk : Nat → UInt8} {m size : Nat} {r : Ring}
    (h : initRing junk m size = some r) : r.nmemb = ringCount m ∧ r.membSz = size ∧
      r.bytes = bufBytes r.nmemb size := by
  unfold initRing at h
  split at h
  · cases h
  · split at h
    · cases h
    · cases h
      exact ⟨rfl, rfl, rfl⟩

theorem initRing_isSome {m size : Nat} (junk : Nat → UInt8) (h1 : 1 ≤ m) (h2 : m ≤ 2 ^ 63)
    (hs : 1 ≤ size) : ∃ r, initRing junk m size = some r := by
  obtain ⟨k, -, hk, -⟩ := ringCount_spec h1 h2
  have hpos : 0 < 2 ^ k := Nat.two_pow_pos k
  exact ⟨_, by rw [initRing, if_neg (by omega), if_neg (by omega)]⟩

/-- With the top bit of `min_count - 1` set the shift amount is `-1`. -/
theorem roundShift_neg {m : Nat} (h : 2 ^ 63 < m) : roundShift m < 0 := by
  have hx : m - 1 ≠ 0 := by omega
  have : 63 ≤ Nat.log2 (m - 1) := (Nat.le_log2 hx).mpr (by omega)
  unfold roundShift nleadingUnsetBits
  omega

theorem roundShift_range {m : Nat} (h1 : 2 < m) (h2 : m ≤ 2 ^ 63) :
    0 ≤ roundShift m ∧ roundShift m ≤ 63 := by
  have : Nat.log2 (m - 1) < 63 := (Nat.log2_lt (by omega)).mpr (by omega)
  unfold roundShift nleadingUnsetBits
  omega

/-- A block of the address space that holds all the members. -/
structure Fits (nmemb membSz bytes : Nat) : Prop where
  pos : 0 < nmemb
  size : 0 < membSz
  room : nmemb * membSz ≤ bytes
  space : bytes ≤ 2 ^ 64

section

variable {r : Ring} (h : Fits r.nmemb r.membSz r.bytes)

include h

theorem Fits.member_le (i : Nat) :
    i % r.nmemb * r.membSz + r.membSz ≤ r.bytes := by
  rw [← Nat.succ_mul]
  exact (Nat.mul_le_mul_right _ (Nat.mod_lt i h.pos)).trans h.room

/-- The product does not wrap. -/
theorem Fits.offset_eq (i : Nat) : r.offset i = i % r.nmemb * r.membSz := by
  have hle := h.member_le i
  have hsize := h.size
  have hspace := h.space
  exact Word.mul_of_lt (by omega)

/-- Every byte of a member lies in the block. -/
theorem Fits.offset_add_lt (i : Nat) {b : Nat} (hb : b < r.membSz) :
    r.offset i + b < r.bytes := by
  have hle := h.member_le i
  rw [h.offset_eq]
  omega

theorem Fits.offset_div (i : Nat) : r.offset i / r.membSz = i % r.nmemb := by
  rw [h.offset_eq, Nat.mul_div_cancel _ h.size]

end

/-- A product that fits leaves room for each of the members. -/
theorem member_in_bufBytes {count size i : Nat} (h : count * size < 2 ^ 64) (hi : i < count) :
    i * size + size ≤ bufBytes count size := by
  rw [bufBytes, Nat.mod_eq_of_lt h, ← Nat.succ_mul]
  exact Nat.mul_le_mul_right size hi

theorem initRing_sized_iff (minCount size : Nat) (hm : 1 ≤ minCount) (_ : minCount < 2 ^ 64)
    (hs : 1 ≤ size) (_ : size < 2 ^ 64) :
    Sized minCount size ↔ ∃ k, minCount ≤ 2 ^ k ∧ 2 ^ k * size < 2 ^ 64 := by
  constructor
  · rintro ⟨hshift, hring⟩
    have h63 : minCount ≤ 2 ^ 63 := by
      by_contra hlt
      have := roundShift_neg (Nat.lt_of_not_le hlt)
      have := hshift (by omega)
      omega
    obtain ⟨r, hr⟩ := initRing_isSome (fun _ => 0) hm h63 hs
    obtain ⟨⟨k, hk, hle, -⟩, hfit, -⟩ := hring _ r hr
    exact ⟨k, hle, hk ▸ hfit⟩
  · rintro ⟨k, hle, hfit⟩
    obtain ⟨h63, hfit'⟩ := ringCount_fits hm hs hle hfit
    refine ⟨fun h2 => roundShift_range h2 h63, fun junk r hr => ?_⟩
    obtain ⟨hn, hsz, hbytes⟩ := initRing_eq_some hr
    obtain ⟨k', -, hcount, hle', hleast⟩ := ringCount_spec hm h63
    rw [hbytes, hn, hsz]
    exact ⟨⟨k', hcount, hle', hleast⟩, hfit', fun i hi => member_in_bufBytes hfit' hi⟩

theorem initRing_sized_five : Sized 5 3 :=
  (initRing_sized_iff 5 3 (by decide) (by decide) (by decide) (by decide)).mpr
    ⟨3, by decide, by decide⟩

/-- Room for `2 ^ 61` members of eight bytes: the ring is set up, and no byte
at all is requested for it. -/
theorem ring_without_bytes :
    (∃ r, initRing (fun _ => 0) (2 ^ 61) 8 = some r ∧ r.nmemb = 2 ^ 61 ∧ r.bytes = 0) ∧
      ¬ Sized (2 ^ 61) 8 := by
  have hcount : ringCount (2 ^ 61) = 2 ^ 61 := by decide +kernel
  obtain ⟨r, hr⟩ : ∃ r, initRing (fun _ => 0) (2 ^ 61) 8 = some r :=
    initRing_isSome _ (by decide) (by decide) (by decide)
  obtain ⟨hn, -, hbytes⟩ := initRing_eq_some hr
  rw [hcount] at hn
  refine ⟨⟨r, hr, hn, by rw [hbytes, hn]; rfl⟩, fun h => ?_⟩
  have := (h.2 _ r hr).2.1
  rw [hn] at this
  omega

end Pgm.RingBuf
