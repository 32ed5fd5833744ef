import Mathlib.Order.CompletePartialOrder
import Mathlib.Order.Interval.Set.Disjoint
import Mathlib.Tactic.NormNum
import Pgm.Lib.Bytes
import Pgm.Lib.Word

/-!
# The layout of a buffer

`pgm_malloc` puts a header in front of the bytes that it hands out, and behind the header one byte
with the way back and one byte for the tag of a message. Addresses are numbers below `2 ^ 64`.
`buffer_layout` says that the parts do not overlap, and that the header is found again whatever is
written to the tag and to the user's bytes.
-/

namespace Pgm.Layout

open Bytes

/-! ## The code -/

def cookie : Nat := 0x00100100

def alignment : Nat := 16

def padding : Nat := alignment - 1

/-- `sizeof(pgm_memory_hdr_t)`: `usersize` in 8 bytes, `assigned_edge` in 4 and 4, `cookie` in 4,
and `producer_flag`. -/
def hdrSize : Nat := 24

def offsetSize : Nat := 1

def extra : Nat := hdrSize + offsetSize + padding

def transmissionTags : Nat := 1

def badField : Nat := 2 ^ 32 - 1

def getUserPtr (mem : Nat) : Nat := Word.add 64 mem extra &&& Word.not 64 padding

def getMemHeader (m : Mem) (userptr : Nat) : Nat :=
  let off := (m (Word.sub 64 userptr 2)).toNat
  if off > extra then 0 else Word.sub 64 userptr off

def getMemHeaderSafe (m : Mem) (userptr : Nat) : Nat :=
  let ptr := getMemHeader m userptr
  if ptr = 0 ∨ load m (ptr + 16) 4 ≠ cookie then 0 else ptr

def isBufAssigned (m : Mem) (userptr : Nat) : Bool :=
  let ptr := getMemHeaderSafe m userptr
  if ptr = 0 then false
  else !(load m (ptr + 8) 4 == badField && load m (ptr + 12) 4 == badField)

/-- `pgm_malloc`. The pointer and the memory after the call. -/
def pgmMalloc (malloc : Nat → Nat) (m : Mem) (nbytes : Nat) : Nat × Mem :=
  let buf := malloc (Word.add 64 (Word.add 64 nbytes transmissionTags) extra)
  if buf = 0 then (0, m)
  else
    let m := store m buf (encode 8 nbytes)
    let m := store m (buf + 8) (encode 4 badField)
    let m := store m (buf + 12) (encode 4 badField)
    let m := store m (buf + 16) (encode 4 cookie)
    let ptr := getUserPtr buf
    (ptr, store m (Word.sub 64 ptr 2) [UInt8.ofNat (Word.sub 64 ptr buf)])

inductive FreeMsg where
  | badPointer
  | mayBeInUse
  deriving DecidableEq, Repr

/-- `pgm_free`. The argument of its call of `free`, if it makes one, and its message. -/
def pgmFree (m : Mem) (userptr : Nat) : Option Nat × Option FreeMsg :=
  if userptr = 0 then (none, none)
  else
    let hdr := getMemHeaderSafe m userptr
    if hdr = 0 then (none, some .badPointer)
    else (some hdr, if isBufAssigned m userptr then some .mayBeInUse else none)

/-! ## The user pointer -/

/-- The documented behaviour of `malloc`: a block lies in the address space, and on a 64-bit system
it is aligned for every standard type. -/
structure Allocates (malloc : Nat → Nat) : Prop where
  aligned : ∀ n, 8 ∣ malloc n
  inside : ∀ n, malloc n ≠ 0 → malloc n + n ≤ 2 ^ 64

/-- The padding takes up what the alignment of the block leaves open. -/
theorem getUserPtr_cases {base : Nat} (h8 : 8 ∣ base) (hin : base + extra < 2 ^ 64) :
    16 ∣ getUserPtr base ∧
      (getUserPtr base = base + hdrSize + 8 ∨ getUserPtr base = base + hdrSize + 16) := by
  have hround : getUserPtr base = (base + extra) / 16 * 16 := by
    rw [getUserPtr, Word.add_of_lt hin]
    exact Word.and_not_low (k := 4) (by omega) hin
  rw [hround]
  unfold extra hdrSize offsetSize padding alignment
  omega

/-- The header, the offset, the tag and the user's bytes. -/
def parts (base u nbytes : Nat) : List (Set Nat) :=
  [Set.Ico base (base + hdrSize), Set.Ico (u - 2) (u - 1), Set.Ico (u - 1) u,
    Set.Ico u (u + nbytes)]

theorem parts_disjoint {base u : Nat} (nbytes : Nat) (h : base + hdrSize + 2 ≤ u) :
    (parts base u nbytes).Pairwise Disjoint := by
  have hoff : base + hdrSize ≤ u - 2 := by omega
  have htag : u - 2 ≤ u - 1 := by omega
  have huser : u - 1 ≤ u := by omega
  simp only [parts, List.pairwise_cons, List.mem_cons, List.not_mem_nil, or_false]
  refine ⟨?_, ?_, ?_, ?_, List.Pairwise.nil⟩
  · rintro a (rfl | rfl | rfl)
    · exact Set.Ico_disjoint_Ico_same.mono_right (Set.Ico_subset_Ico_left hoff)
    · exact Set.Ico_disjoint_Ico_same.mono_right (Set.Ico_subset_Ico_left (hoff.trans htag))
    · exact Set.Ico_disjoint_Ico_same.mono_right
        (Set.Ico_subset_Ico_left (hoff.trans (htag.trans huser)))
  · rintro a (rfl | rfl)
    · exact Set.Ico_disjoint_Ico_same
    · exact Set.Ico_disjoint_Ico_same.mono_right (Set.Ico_subset_Ico_left huser)
  · rintro a rfl
    exact Set.Ico_disjoint_Ico_same
  · rintro a ⟨⟩

theorem parts_inside {base u nbytes : Nat} (hlow : base + 2 ≤ u) (hhigh : u ≤ base + extra)
    {r : Set Nat} (hr : r ∈ parts base u nbytes) :
    r ⊆ Set.Ico base (base + (nbytes + transmissionTags + extra)) := by
  have hhdr : hdrSize ≤ extra := by decide
  simp only [parts, List.mem_cons, List.not_mem_nil, or_false] at hr
  rcases hr with rfl | rfl | rfl | rfl
  all_goals exact Set.Ico_subset_Ico (by omega) (by omega)

/-! ## The header -/

/-- The bytes that lead back from the user pointer to the block at `base`. -/
structure Headed (m : Mem) (base : Nat) : Prop where
  offset : m (getUserPtr base - 2) = UInt8.ofNat (getUserPtr base - base)
  magic : load m (base + 16) 4 = cookie
  graph : load m (base + 8) 4 = badField
  edge : load m (base + 12) 4 = badField

section

variable {m : Mem} {base : Nat}

theorem pgmMalloc_headed {malloc : Nat → Nat} {nbytes : Nat} (hA : Allocates malloc)
    (hn : nbytes + transmissionTags + extra < 2 ^ 64)
    (hbase : malloc (nbytes + transmissionTags + extra) ≠ 0) :
    (pgmMalloc malloc m nbytes).1 = getUserPtr (malloc (nbytes + transmissionTags + extra)) ∧
    Headed (pgmMalloc malloc m nbytes).2 (malloc (nbytes + transmissionTags + extra)) := by
  have hreq : Word.add 64 (Word.add 64 nbytes transmissionTags) extra =
      nbytes + transmissionTags + extra := by
    rw [Word.add_of_lt (a := nbytes) (by omega), Word.add_of_lt hn]
  have hin := hA.inside _ hbase
  have h8 := hA.aligned (nbytes + transmissionTags + extra)
  rw [pgmMalloc, hreq, if_neg hbase]
  generalize malloc (nbytes + transmissionTags + extra) = base at *
  have hpos : transmissionTags = 1 := rfl
  obtain ⟨-, hu⟩ := getUserPtr_cases h8 (by omega)
  have hhdr : hdrSize = 24 := rfl
  have hoff : Word.sub 64 (getUserPtr base) 2 = getUserPtr base - 2 := Word.sub_of_le (by omega)
  have hdist : Word.sub 64 (getUserPtr base) base = getUserPtr base - base :=
    Word.sub_of_le (by omega)
  dsimp only
  rw [hoff, hdist]
  refine ⟨rfl, ?_, ?_, ?_, ?_⟩
  · exact store_inside (i := 0) (by simp)
  · rw [load_store_outside (by omega), load_store_encode]
    rfl
  · rw [load_store_outside (by omega), load_store_outside (by omega),
      load_store_outside (by omega), load_store_encode]
    rfl
  · rw [load_store_outside (by omega), load_store_outside (by omega), load_store_encode]
    rfl

/-- Stores behind the offset byte leave the way back as it is. -/
theorem Headed.storeAll (h : Headed m base) {ws : List (Nat × List UInt8)}
    (hlow : base + hdrSize + 2 ≤ getUserPtr base)
    (hws : ∀ w ∈ ws, ∀ x ∈ covered w, getUserPtr base - 1 ≤ x) : Headed (storeAll m ws) base := by
  have hkeep : ∀ x, x < getUserPtr base - 1 → Bytes.storeAll m ws x = m x := by
    intro x hx
    refine storeAll_outside (fun w hw hmem => ?_)
    have := hws w hw x hmem
    omega
  have hhdr : hdrSize = 24 := rfl
  have hload : ∀ k, k ≤ 20 → load (Bytes.storeAll m ws) (base + k) 4 = load m (base + k) 4 :=
    fun k hk => load_congr (fun i hi => hkeep _ (by omega))
  refine ⟨?_, ?_, ?_, ?_⟩
  · rw [hkeep _ (by omega)]
    exact h.offset
  · exact (hload 16 (by omega)).trans h.magic
  · exact (hload 8 (by omega)).trans h.graph
  · exact (hload 12 (by omega)).trans h.edge

theorem Headed.getMemHeader (h : Headed m base) (hlow : base + 2 ≤ getUserPtr base)
    (hhigh : getUserPtr base ≤ base + extra) : getMemHeader m (getUserPtr base) = base := by
  have hextra : extra = 40 := rfl
  have hoff : (m (Word.sub 64 (getUserPtr base) 2)).toNat = getUserPtr base - base := by
    rw [Word.sub_of_le (by omega), h.offset, UInt8.toNat_ofNat']
    omega
  rw [Layout.getMemHeader, hoff, if_neg (by omega), Word.sub_of_le (by omega)]
  omega

theorem Headed.getMemHeaderSafe (h : Headed m base) (hne : base ≠ 0)
    (hlow : base + 2 ≤ getUserPtr base) (hhigh : getUserPtr base ≤ base + extra) :
    getMemHeaderSafe m (getUserPtr base) = base := by
  rw [Layout.getMemHeaderSafe, h.getMemHeader hlow hhigh]
  exact if_neg (not_or.mpr ⟨hne, not_not.mpr h.magic⟩)

theorem Headed.pgmFree (h : Headed m base) (hne : base ≠ 0)
    (hlow : base + 2 ≤ getUserPtr base) (hhigh : getUserPtr base ≤ base + extra) :
    pgmFree m (getUserPtr base) = (some base, none) := by
  have hsafe := h.getMemHeaderSafe hne hlow hhigh
  have hfree : isBufAssigned m (getUserPtr base) = false := by
    rw [isBufAssigned, hsafe, if_neg hne, h.graph, h.edge]
    rfl
  rw [Layout.pgmFree, if_neg (by omega), hsafe, if_neg hne, hfree]
  rfl

end

/-! ## Messages -/

/-- The stores that the node functions make in the buffer with `nbytes` bytes for the user:
`*tag_ptr = tag` in `pgm_send_std_data`, the reads of `pgm_recv_data` that begin with a tag, and
the reads that go on behind `got` bytes. The caller's own stores are of the last kind. -/
inductive MessageStore (base nbytes : Nat) : Nat × List UInt8 → Prop
  | send (tag : UInt8) : MessageStore base nbytes (Word.sub 64 (getUserPtr base) 1, [tag])
  | recvTagged (bs : List UInt8) (h : bs.length ≤ nbytes + transmissionTags) :
      MessageStore base nbytes (Word.sub 64 (getUserPtr base) 1, bs)
  | more (got : Nat) (bs : List UInt8) (h : got + bs.length ≤ nbytes) :
      MessageStore base nbytes (getUserPtr base + got, bs)

/-- Messages stay in the tag byte and the user's bytes. -/
theorem MessageStore.covered_subset {base nbytes : Nat} {w : Nat × List UInt8}
    (h : MessageStore base nbytes w) (hpos : 1 ≤ getUserPtr base) :
    covered w ⊆ Set.Ico (getUserPtr base - 1) (getUserPtr base) ∪
      Set.Ico (getUserPtr base) (getUserPtr base + nbytes) := by
  have htags : transmissionTags = 1 := rfl
  have htag : Word.sub 64 (getUserPtr base) 1 = getUserPtr base - 1 := Word.sub_of_le hpos
  rw [Set.Ico_union_Ico_eq_Ico (Nat.sub_le _ 1) (Nat.le_add_right _ _)]
  cases h with
  | send tag =>
    refine Set.Ico_subset_Ico htag.ge ?_
    simp only [htag, List.length_singleton]
    omega
  | recvTagged bs h => exact Set.Ico_subset_Ico htag.ge (by dsimp only; omega)
  | more got bs h => exact Set.Ico_subset_Ico (by dsimp only; omega) (by dsimp only; omega)

/-- **Layout.** The pointer of a buffer is aligned, and its parts lie apart within the block. As long
as stores stay in the tag byte and the user's bytes, the header is found again from the pointer, the
pointer from the header, and the buffer can be freed. -/
theorem buffer_layout (malloc : Nat → Nat) (m : Mem) (nbytes base u : Nat) (hA : Allocates malloc)
    (hn : nbytes + transmissionTags + extra < 2 ^ 64)
    (hbase : malloc (nbytes + transmissionTags + extra) = base) (hne : base ≠ 0)
    (hu : (pgmMalloc malloc m nbytes).1 = u) :
    alignment ∣ u ∧
    (parts base u nbytes).Pairwise Disjoint ∧
    (∀ r ∈ parts base u nbytes,
      r ⊆ Set.Ico base (base + (nbytes + transmissionTags + extra))) ∧
    ∀ ws : List (Nat × List UInt8),
      (∀ w ∈ ws, covered w ⊆ Set.Ico (u - 1) u ∪ Set.Ico u (u + nbytes)) →
      let m' := storeAll (pgmMalloc malloc m nbytes).2 ws
      getMemHeader m' u = base ∧ getMemHeaderSafe m' u = base ∧ getUserPtr base = u ∧
        pgmFree m' u = (some base, none) := by
  subst hbase
  obtain ⟨hptr, hheaded⟩ := pgmMalloc_headed (m := m) hA hn hne
  have hin := hA.inside _ hne
  have h8 := hA.aligned (nbytes + transmissionTags + extra)
  rw [hptr] at hu
  subst hu
  generalize malloc (nbytes + transmissionTags + extra) = base at *
  have hpos : transmissionTags = 1 := rfl
  obtain ⟨h16, hcases⟩ := getUserPtr_cases h8 (by omega)
  have hextra : extra = hdrSize + 16 := rfl
  have hlow : base + hdrSize + 2 ≤ getUserPtr base := by omega
  have hhigh : getUserPtr base ≤ base + extra := by omega
  refine ⟨h16, parts_disjoint nbytes hlow, fun r => parts_inside (by omega) hhigh, ?_⟩
  intro ws hws
  have hkept : Headed (storeAll (pgmMalloc malloc m nbytes).2 ws) base := by
    refine hheaded.storeAll hlow (fun w hw x hx => ?_)
    rcases hws w hw hx with h | h
    · exact h.1
    · exact (Nat.sub_le _ 1).trans h.1
  exact ⟨hkept.getMemHeader (by omega) hhigh, hkept.getMemHeaderSafe hne (by omega) hhigh, rfl,
    hkept.pgmFree hne (by omega) hhigh⟩

def oneBlock (n : Nat) : Nat := if n ≤ 64 then 4104 else 0

theorem oneBlock_allocates : Allocates oneBlock := by
  constructor
  · intro n
    unfold oneBlock
    split
    · exact ⟨513, rfl⟩
    · exact Nat.dvd_zero 8
  · intro n hn
    by_cases hle : n ≤ 64
    · rw [oneBlock, if_pos hle]
      omega
    · rw [oneBlock, if_neg hle] at hn
      exact absurd rfl hn

/-- A message of two bytes is sent from a buffer of two bytes in that block. -/
theorem buffer_layout_message :
    let m := storeAll (pgmMalloc oneBlock (fun _ => 0) 2).2 [(4144, [7, 8]), (4143, [1])]
    getMemHeader m 4144 = 4104 ∧ getMemHeaderSafe m 4144 = 4104 ∧ getUserPtr 4104 = 4144 ∧
      pgmFree m 4144 = (some 4104, none) := by
  have hu : (pgmMalloc oneBlock (fun _ => 0) 2).1 = 4144 := by decide
  have hlayout := buffer_layout oneBlock (fun _ => 0) 2 4104 4144 oneBlock_allocates (by decide)
    (by decide) (by decide) hu
  refine hlayout.2.2.2 _ (fun w hw x hx => ?_)
  simp only [List.mem_cons, List.not_mem_nil, or_false] at hw
  rcases hw with rfl | rfl
  · exact Or.inr hx
  · exact Or.inl hx

end Pgm.Layout
