import Mathlib.Data.Set.Function

/-! A directory of files that are made and removed for keys, each under the name of its key. Names
may be shared: making the file of one key replaces that of another, and removing it removes both.
That every file belongs to a key needs nothing about names (`Drop.owned`, `Make.owned`). That every
key has a file needs new names to be unused (`Drop.exact`, `Make.exact`). -/

/-- The keys in use, the name of each key, and the files that are there. -/
structure Directory (K N : Type) where
  keys : Set K
  name : K → N
  files : Set N

namespace Directory

variable {K N : Type} {d d' : Directory K N} {k : K} {ks : Set K}

structure Drop (ks : Set K) (d d' : Directory K N) : Prop where
  keys : d'.keys = d.keys \ ks
  name : Set.EqOn d'.name d.name d'.keys
  files : d'.files = d.files \ d.name '' (d.keys ∩ ks)

/-- The key `k` comes. Its file is made, or what had its name is lost, or neither. -/
structure Make (k : K) (d d' : Directory K N) : Prop where
  fresh : k ∉ d.keys
  keys : d'.keys = insert k d.keys
  name : Set.EqOn d'.name d.name d.keys
  old : d.files \ {d'.name k} ⊆ d'.files
  new : d'.files ⊆ insert (d'.name k) d.files

def Owned (d : Directory K N) : Prop := d.files ⊆ d.name '' d.keys

/-- Every key has a file of its own, and there are no others. -/
structure Exact (d : Directory K N) : Prop where
  files : d.files = d.name '' d.keys
  apart : Set.InjOn d.name d.keys

theorem Drop.none (hkeys : d'.keys = d.keys) (hname : Set.EqOn d'.name d.name d.keys)
    (hfiles : d'.files = d.files) : Drop ∅ d d' := by
  refine ⟨?_, hkeys ▸ hname, ?_⟩
  · rw [hkeys, Set.sdiff_empty]
  · rw [hfiles, Set.inter_empty, Set.image_empty, Set.sdiff_empty]

theorem Drop.owned (h : Drop ks d d') (ho : d.Owned) : d'.Owned := by
  unfold Owned
  rw [h.name.image_eq, h.files, h.keys]
  rintro f ⟨hf, hgone⟩
  obtain ⟨k, hk, rfl⟩ := ho hf
  exact ⟨k, ⟨hk, fun hks => hgone ⟨k, ⟨hk, hks⟩, rfl⟩⟩, rfl⟩

theorem Make.owned (h : Make k d d') (ho : d.Owned) : d'.Owned := by
  unfold Owned
  rw [h.keys, Set.image_insert_eq, h.name.image_eq]
  exact h.new.trans (Set.insert_subset_insert ho)

theorem Drop.exact (h : Drop ks d d') (he : d.Exact) : d'.Exact := by
  have hsub : d'.keys ⊆ d.keys := h.keys ▸ Set.sdiff_subset
  refine ⟨?_, (he.apart.mono hsub).congr h.name.symm⟩
  rw [h.name.image_eq, h.files, h.keys, he.files, he.apart.image_sdiff]

theorem Make.exact (h : Make k d d') (he : d.Exact) (hmade : d'.name k ∈ d'.files)
    (hunused : d'.name k ∉ d.files) : d'.Exact := by
  have hfiles : d'.files = insert (d'.name k) d.files := by
    refine h.new.antisymm (Set.insert_subset hmade (fun f hf => h.old ⟨hf, ?_⟩))
    rintro rfl
    exact hunused hf
  refine ⟨?_, ?_⟩
  · rw [hfiles, h.keys, Set.image_insert_eq, h.name.image_eq, he.files]
  · rw [h.keys, Set.injOn_insert h.fresh, h.name.image_eq, ← he.files]
    exact ⟨he.apart.congr h.name.symm, hunused⟩

end Directory
