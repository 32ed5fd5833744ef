import Mathlib.Data.Finset.Card
import Mathlib.Data.Finset.SDiff
import Mathlib.Logic.Relation
import Mathlib.Tactic.Common

/-! Depth-first search for a cycle. Places are told apart by a key; the keys of the places that
have been entered and of those on the way to the current one are kept in two sets. With different
keys for different places the search decides whether there is a cycle (`roots_iff`). With keys that
coincide the answer is about other graphs; the last sections say which answers then can occur. -/

namespace Dfs

variable {ν κ : Type} [DecidableEq κ]

structure State (κ : Type) where
  visited : Finset κ
  path : Finset κ

/-- Goes through the places `ms` behind a place, up to one that is on the path. -/
def loop (key : ν → κ) (rec : ν → State κ → Option (Bool × State κ)) :
    List ν → State κ → Option (Bool × State κ)
  | [], s => some (true, s)
  | m :: ms, s =>
    if key m ∈ s.path then some (false, s)
    else
      match rec m s with
      | none => none
      | some (false, t) => some (false, t)
      | some (true, t) => loop key rec ms t

def State.enter (s : State κ) (k : κ) : State κ := ⟨insert k s.visited, insert k s.path⟩

def State.leave (s : State κ) (k : κ) : State κ := ⟨s.visited, s.path.erase k⟩

/-- Whether no cycle is met from `n` on, and the two sets. -/
def visit (succ : ν → List ν) (key : ν → κ) : Nat → ν → State κ → Option (Bool × State κ)
  | 0, _, _ => none
  | fuel + 1, n, s =>
    if key n ∈ s.visited then some (true, s)
    else
      match loop key (visit succ key fuel) (succ n) (s.enter (key n)) with
      | none => none
      | some (false, t) => some (false, t)
      | some (true, t) => some (true, t.leave (key n))

/-- The search from each of the places `ns` that has not been entered. -/
def roots (succ : ν → List ν) (key : ν → κ) (fuel : Nat) : List ν → Finset κ → Option Bool
  | [], _ => some true
  | n :: ns, visited =>
    if key n ∈ visited then roots succ key fuel ns visited
    else
      match visit succ key fuel n ⟨visited, ∅⟩ with
      | none => none
      | some (false, _) => some false
      | some (true, t) => roots succ key fuel ns t.visited

section

variable {succ : ν → List ν} {key : ν → κ} {fuel : Nat} {n m : ν} {ms ns : List ν} {s t : State κ}
  {rec : ν → State κ → Option (Bool × State κ)} {visited : Finset κ}

/-! ## Steps -/

theorem loop_cons_true : loop key rec (m :: ms) s = some (true, t) ↔
    key m ∉ s.path ∧ ∃ u, rec m s = some (true, u) ∧ loop key rec ms u = some (true, t) := by
  constructor
  · intro h
    simp only [loop] at h
    split at h
    · cases h
    · rename_i hm
      split at h
      · cases h
      · cases h
      · rename_i u hu
        exact ⟨hm, u, hu, h⟩
  · rintro ⟨hm, u, hu, h⟩
    simp only [loop, if_neg hm, hu]
    exact h

theorem loop_cons_false (h : loop key rec (m :: ms) s = some (false, t)) :
    key m ∈ s.path ∨ rec m s = some (false, t) ∨
      ∃ u, rec m s = some (true, u) ∧ loop key rec ms u = some (false, t) := by
  simp only [loop] at h
  split at h
  · rename_i hm
    exact Or.inl hm
  · split at h
    · cases h
    · rename_i u hu
      obtain rfl := (Prod.mk.inj (Option.some.inj h)).2
      exact Or.inr (Or.inl hu)
    · rename_i u hu
      exact Or.inr (Or.inr ⟨u, hu, h⟩)

theorem visit_seen (h : key n ∈ s.visited) : visit succ key (fuel + 1) n s = some (true, s) := by
  simp only [visit, if_pos h]

theorem visit_true_of_new (hn : key n ∉ s.visited) :
    visit succ key (fuel + 1) n s = some (true, t) ↔
      ∃ u, loop key (visit succ key fuel) (succ n) (s.enter (key n)) = some (true, u) ∧
        t = u.leave (key n) := by
  simp only [visit, if_neg hn]
  constructor
  · intro h
    split at h
    · cases h
    · cases h
    · rename_i u hu
      exact ⟨u, hu, (Prod.mk.inj (Option.some.inj h)).2.symm⟩
  · rintro ⟨u, hu, rfl⟩
    rw [hu]

theorem visit_false (h : visit succ key (fuel + 1) n s = some (false, t)) : key n ∉ s.visited ∧
    loop key (visit succ key fuel) (succ n) (s.enter (key n)) = some (false, t) := by
  simp only [visit] at h
  split at h
  · cases h
  · rename_i hn
    split at h
    · cases h
    · rename_i u hu
      obtain rfl := (Prod.mk.inj (Option.some.inj h)).2
      exact ⟨hn, hu⟩
    · cases h

/-! ## What a visit leaves behind -/

/-- The path is as before, and nothing is forgotten. -/
structure Grows (s t : State κ) : Prop where
  path : t.path = s.path
  visited : s.visited ⊆ t.visited

omit [DecidableEq κ] in
theorem Grows.refl : Grows s s := ⟨rfl, Finset.Subset.refl _⟩

omit [DecidableEq κ] in
theorem Grows.trans {u : State κ} (h : Grows s t) (h' : Grows t u) : Grows s u :=
  ⟨h'.path.trans h.path, h.visited.trans h'.visited⟩

omit [DecidableEq κ] in
theorem Grows.enclosed (h : Grows s t) (hs : s.path ⊆ s.visited) : t.path ⊆ t.visited :=
  h.path ▸ hs.trans h.visited

theorem enter_enclosed (hs : s.path ⊆ s.visited) (k : κ) :
    (s.enter k).path ⊆ (s.enter k).visited :=
  Finset.insert_subset_insert k hs

def Returns (key : ν → κ) (n : ν) (s t : State κ) : Prop :=
  Grows s t ∧ key n ∈ t.visited

theorem loop_returns (hrec : ∀ m s t, s.path ⊆ s.visited → rec m s = some (true, t) →
      Returns key m s t)
    (hs : s.path ⊆ s.visited) (h : loop key rec ms s = some (true, t)) :
    Grows s t ∧ ∀ m ∈ ms, key m ∉ s.path ∧ key m ∈ t.visited := by
  induction ms generalizing s with
  | nil =>
    obtain rfl := (Prod.mk.inj (Option.some.inj h)).2
    exact ⟨.refl, by simp⟩
  | cons m ms ih =>
    obtain ⟨hm, u, hu, hrest⟩ := loop_cons_true.mp h
    obtain ⟨hgrow, hmem⟩ := hrec m s u hs hu
    obtain ⟨hgrow', hall⟩ := ih (hgrow.enclosed hs) hrest
    refine ⟨hgrow.trans hgrow', List.forall_mem_cons.mpr ⟨⟨hm, hgrow'.visited hmem⟩, ?_⟩⟩
    intro x hx
    rw [← hgrow.path]
    exact hall x hx

/-- A place that was on no path is off the path again when it is left. -/
theorem leave_enter_grows (hn : key n ∉ s.visited) (hs : s.path ⊆ s.visited)
    (h : Grows (s.enter (key n)) t) : Returns key n s (t.leave (key n)) := by
  refine ⟨⟨?_, ?_⟩, ?_⟩
  · have hnp : key n ∉ s.path := fun hp => hn (hs hp)
    simp only [State.leave, h.path, State.enter, Finset.erase_insert hnp]
  · exact (Finset.subset_insert _ _).trans h.visited
  · exact h.visited (Finset.mem_insert_self _ _)

theorem visit_returns (hs : s.path ⊆ s.visited) (h : visit succ key fuel n s = some (true, t)) :
    Returns key n s t := by
  induction fuel generalizing n s t with
  | zero => cases h
  | succ fuel ih =>
    by_cases hn : key n ∈ s.visited
    · rw [visit_seen hn] at h
      obtain rfl := (Prod.mk.inj (Option.some.inj h)).2
      exact ⟨.refl, hn⟩
    · obtain ⟨u, hu, rfl⟩ := (visit_true_of_new hn).mp h
      obtain ⟨hgrow, -⟩ := loop_returns (fun m s t hs' => ih hs') (enter_enclosed hs _) hu
      exact leave_enter_grows hn hs hgrow

/-- A place that is entered and left has nothing behind it that is on the path. -/
theorem visit_new (hn : key n ∉ s.visited) (hs : s.path ⊆ s.visited)
    (h : visit succ key (fuel + 1) n s = some (true, t)) :
    ∃ u, Grows (s.enter (key n)) u ∧ t = u.leave (key n) ∧
      ∀ m ∈ succ n, key m ∉ (s.enter (key n)).path ∧ key m ∈ u.visited := by
  obtain ⟨u, hu, rfl⟩ := (visit_true_of_new hn).mp h
  obtain ⟨hgrow, hall⟩ := loop_returns (fun m s t => visit_returns) (enter_enclosed hs _) hu
  exact ⟨u, hgrow, rfl, hall⟩

/-! ## Fuel -/

/-- Every place that is entered has a new key. -/
theorem card_enter_lt {K : Finset κ} {k : κ} (hk : k ∈ K) (hn : k ∉ s.visited) :
    (K \ (s.enter k).visited).card < (K \ s.visited).card := by
  have hsub : s.visited ⊆ (s.enter k).visited := Finset.subset_insert k s.visited
  refine Finset.card_lt_card ⟨Finset.sdiff_subset_sdiff (Finset.Subset.refl K) hsub, ?_⟩
  intro hss
  have hmem := hss (Finset.mem_sdiff.mpr ⟨hk, hn⟩)
  simp [State.enter] at hmem

theorem card_sdiff_le {K v w : Finset κ} {k : Nat} (h : (K \ v).card < k) (hvw : v ⊆ w) :
    (K \ w).card < k :=
  lt_of_le_of_lt (Finset.card_le_card (Finset.sdiff_subset_sdiff (Finset.Subset.refl K) hvw)) h

theorem loop_isSome {U : Set ν} {K : Finset κ} {k : Nat} (hms : ∀ m ∈ ms, m ∈ U)
    (hrec : ∀ m s, m ∈ U → (K \ s.visited).card < k →
      ∃ b t, rec m s = some (b, t) ∧ s.visited ⊆ t.visited)
    (hk : (K \ s.visited).card < k) :
    ∃ b t, loop key rec ms s = some (b, t) ∧ s.visited ⊆ t.visited := by
  induction ms generalizing s with
  | nil => exact ⟨true, s, rfl, Finset.Subset.refl _⟩
  | cons m ms ih =>
    obtain ⟨hm, hms⟩ := List.forall_mem_cons.mp hms
    simp only [loop]
    split
    · exact ⟨false, s, rfl, Finset.Subset.refl _⟩
    · obtain ⟨b, t, ht, hsub⟩ := hrec m s hm hk
      rw [ht]
      cases b with
      | false => exact ⟨false, t, rfl, hsub⟩
      | true =>
        obtain ⟨b', u, hu, hsub'⟩ := ih hms (card_sdiff_le hk hsub)
        exact ⟨b', u, hu, hsub.trans hsub'⟩

/-- **Termination.** Among places that lead only to each other and have finitely many keys, fuel
for each key that is not yet visited and for one more call is enough. -/
theorem visit_isSome {U : Set ν} {K : Finset κ} (hU : ∀ a ∈ U, ∀ m ∈ succ a, m ∈ U)
    (hK : ∀ a ∈ U, key a ∈ K) (hn : n ∈ U) (hfuel : (K \ s.visited).card < fuel) :
    ∃ b t, visit succ key fuel n s = some (b, t) ∧ s.visited ⊆ t.visited := by
  induction fuel generalizing n s with
  | zero => omega
  | succ fuel ih =>
    simp only [visit]
    split
    · exact ⟨true, s, rfl, Finset.Subset.refl _⟩
    · rename_i hnew
      have hlt := card_enter_lt (hK n hn) hnew
      obtain ⟨b, t, ht, hsub⟩ : ∃ b t, loop key (visit succ key fuel) (succ n) (s.enter (key n)) =
          some (b, t) ∧ (s.enter (key n)).visited ⊆ t.visited :=
        loop_isSome (hU n hn) (fun m s hm hs => ih hm hs) (by omega)
      rw [ht]
      have hsub' := (Finset.subset_insert (key n) s.visited).trans hsub
      cases b with
      | false => exact ⟨false, t, rfl, hsub'⟩
      | true => exact ⟨true, t.leave (key n), rfl, hsub'⟩

theorem roots_isSome {U : Set ν} {K : Finset κ} (hU : ∀ a ∈ U, ∀ m ∈ succ a, m ∈ U)
    (hK : ∀ a ∈ U, key a ∈ K) (hns : ∀ n ∈ ns, n ∈ U) (hfuel : (K \ visited).card < fuel) :
    ∃ b, roots succ key fuel ns visited = some b := by
  induction ns generalizing visited with
  | nil => exact ⟨true, rfl⟩
  | cons n ns ih =>
    obtain ⟨hn, hns⟩ := List.forall_mem_cons.mp hns
    simp only [roots]
    split
    · exact ih hns hfuel
    · obtain ⟨b, t, ht, hsub⟩ := visit_isSome (s := ⟨visited, ∅⟩) hU hK hn hfuel
      rw [ht]
      cases b with
      | false => exact ⟨false, rfl⟩
      | true => exact ih hns (card_sdiff_le hfuel hsub)

/-! ## Different places with different keys -/

def Cyclic (succ : ν → List ν) (a : ν) : Prop := Relation.TransGen (fun a b => b ∈ succ a) a a

def Leads (succ : ν → List ν) (key : ν → κ) (U : Set ν) (s : State κ) (n : ν) : Prop :=
  ∀ k ∈ s.path, ∃ a ∈ U, key a = k ∧ Relation.ReflTransGen (fun a b => b ∈ succ a) a n

section

variable {U : Set ν} (hU : ∀ a ∈ U, ∀ m ∈ succ a, m ∈ U)
  (hkey : ∀ a ∈ U, ∀ b ∈ U, key a = key b → a = b)

omit [DecidableEq κ] in
theorem Leads.next (h : Leads succ key U s n) (hm : m ∈ succ n) : Leads succ key U s m := by
  intro k hk
  obtain ⟨a, ha, hak, hreach⟩ := h k hk
  exact ⟨a, ha, hak, hreach.tail hm⟩

theorem Leads.enter (h : Leads succ key U s n) (hn : n ∈ U) :
    Leads succ key U (s.enter (key n)) n := by
  intro k hk
  rcases Finset.mem_insert.mp hk with rfl | hk
  · exact ⟨n, hn, rfl, .refl⟩
  · exact h k hk

include hkey in
theorem loop_cycle
    (hrec : ∀ m s t, m ∈ U → s.path ⊆ s.visited → Leads succ key U s m →
      rec m s = some (false, t) → ∃ a ∈ U, Cyclic succ a)
    (hret : ∀ m s t, s.path ⊆ s.visited → rec m s = some (true, t) → Returns key m s t)
    (hms : ∀ m ∈ ms, m ∈ U ∧ m ∈ succ n) (hs : s.path ⊆ s.visited) (hpath : Leads succ key U s n)
    (h : loop key rec ms s = some (false, t)) : ∃ a ∈ U, Cyclic succ a := by
  induction ms generalizing s with
  | nil => cases h
  | cons m ms ih =>
    obtain ⟨⟨hmU, hm⟩, hms⟩ := List.forall_mem_cons.mp hms
    rcases loop_cons_false h with hin | hfalse | ⟨u, hu, hrest⟩
    · -- the place on the path with the key of `m` is `m`, and it leads to `n`
      obtain ⟨a, ha, hak, hreach⟩ := hpath _ hin
      obtain rfl := hkey a ha m hmU hak
      exact ⟨a, ha, .tail' hreach hm⟩
    · exact hrec m s t hmU hs (hpath.next hm) hfalse
    · obtain ⟨hgrow, -⟩ := hret m s u hs hu
      refine ih hms (hgrow.enclosed hs) ?_ hrest
      intro k hk
      exact hpath k (hgrow.path ▸ hk)

include hU hkey in
theorem visit_cycle (hn : n ∈ U) (hs : s.path ⊆ s.visited) (hpath : Leads succ key U s n)
    (h : visit succ key fuel n s = some (false, t)) : ∃ a ∈ U, Cyclic succ a := by
  induction fuel generalizing n s t with
  | zero => cases h
  | succ fuel ih =>
    obtain ⟨-, hloop⟩ := visit_false h
    exact loop_cycle hkey (fun m s t hm hs' hp => ih hm hs' hp) (fun m s t => visit_returns)
      (fun m hm => ⟨hU n hn m hm, hm⟩) (enter_enclosed hs _) (hpath.enter hn) hloop

/-- The places with keys in `D` are on no cycle, and lead only to each other. -/
def Sealed (succ : ν → List ν) (key : ν → κ) (U : Set ν) (D : Finset κ) : Prop :=
  ∀ a ∈ U, key a ∈ D → (∀ m ∈ succ a, key m ∈ D) ∧ ¬ Cyclic succ a

include hU in
omit [DecidableEq κ] in
theorem Sealed.reach {D : Finset κ} (h : Sealed succ key U D) {a b : ν} (ha : a ∈ U)
    (hD : key a ∈ D) (hab : Relation.ReflTransGen (fun a b => b ∈ succ a) a b) :
    b ∈ U ∧ key b ∈ D := by
  induction hab with
  | refl => exact ⟨ha, hD⟩
  | tail _ hm ih => exact ⟨hU _ ih.1 _ hm, (h _ ih.1 ih.2).1 _ hm⟩

def State.done (s : State κ) : Finset κ := s.visited \ s.path

theorem enter_done (hn : key n ∉ s.visited) : (s.enter (key n)).done = s.done := by
  unfold State.done State.enter
  ext k
  simp only [Finset.mem_sdiff, Finset.mem_insert, not_or]
  constructor
  · rintro ⟨hk | hk, hne, hp⟩
    · exact absurd hk hne
    · exact ⟨hk, hp⟩
  · rintro ⟨hk, hp⟩
    exact ⟨Or.inr hk, ne_of_mem_of_not_mem hk hn, hp⟩

theorem loop_sealed
    (hrec : ∀ m s t, m ∈ U → s.path ⊆ s.visited → Sealed succ key U s.done →
      rec m s = some (true, t) → Sealed succ key U t.done)
    (hret : ∀ m s t, s.path ⊆ s.visited → rec m s = some (true, t) → Returns key m s t)
    (hms : ∀ m ∈ ms, m ∈ U) (hs : s.path ⊆ s.visited) (hdone : Sealed succ key U s.done)
    (h : loop key rec ms s = some (true, t)) : Sealed succ key U t.done := by
  induction ms generalizing s with
  | nil =>
    obtain rfl := (Prod.mk.inj (Option.some.inj h)).2
    exact hdone
  | cons m ms ih =>
    obtain ⟨hmU, hms⟩ := List.forall_mem_cons.mp hms
    obtain ⟨-, u, hu, hrest⟩ := loop_cons_true.mp h
    obtain ⟨hgrow, -⟩ := hret m s u hs hu
    exact ih hms (hgrow.enclosed hs) (hrec m s u hmU hs hdone hu) hrest

include hU hkey in
/-- A place whose successors have all been left can be left. -/
theorem Sealed.leave {u : State κ} (hdone : Sealed succ key U u.done) (hn : n ∈ U)
    (hpath : key n ∈ u.path) (hsucc : ∀ m ∈ succ n, key m ∈ u.done) :
    Sealed succ key U (u.leave (key n)).done := by
  have hmono : ∀ k ∈ u.done, k ∈ (u.leave (key n)).done := by
    intro k hk
    obtain ⟨hv, hp⟩ := Finset.mem_sdiff.mp hk
    exact Finset.mem_sdiff.mpr ⟨hv, fun hp' => hp (Finset.mem_of_mem_erase hp')⟩
  have hnot : key n ∉ u.done := by
    intro hk
    exact (Finset.mem_sdiff.mp hk).2 hpath
  intro a ha hk
  by_cases han : a = n
  · subst han
    refine ⟨fun m hm => hmono _ (hsucc m hm), fun hcyc => ?_⟩
    -- the first step of the cycle is to a place that has been left, which leads only to such
    obtain ⟨m, hm, hback⟩ := Relation.TransGen.head'_iff.mp hcyc
    exact hnot (hdone.reach hU (hU a ha m hm) (hsucc m hm) hback).2
  · have hka : key a ∈ u.done := by
      obtain ⟨hv, hp⟩ := Finset.mem_sdiff.mp hk
      refine Finset.mem_sdiff.mpr ⟨hv, fun hp' => hp (Finset.mem_erase.mpr ⟨?_, hp'⟩)⟩
      exact fun he => han (hkey a ha n hn he)
    obtain ⟨hsa, hca⟩ := hdone a ha hka
    exact ⟨fun m hm => hmono _ (hsa m hm), hca⟩

include hU hkey in
/-- A visit without a cycle keeps what has been left free of cycles. -/
theorem visit_sealed (hn : n ∈ U) (hs : s.path ⊆ s.visited)
    (hdone : Sealed succ key U s.done) (h : visit succ key fuel n s = some (true, t)) :
    Sealed succ key U t.done := by
  induction fuel generalizing n s t with
  | zero => cases h
  | succ fuel ih =>
    by_cases hnew : key n ∈ s.visited
    · rw [visit_seen hnew] at h
      obtain rfl := (Prod.mk.inj (Option.some.inj h)).2
      exact hdone
    · obtain ⟨u, hu, rfl⟩ := (visit_true_of_new hnew).mp h
      obtain ⟨hgrow, hall⟩ := loop_returns (fun m s t => visit_returns) (enter_enclosed hs _) hu
      have hdone' : Sealed succ key U u.done := by
        refine loop_sealed (fun m s t hm hs' => ih hm hs') (fun m s t => visit_returns) (hU n hn)
          (enter_enclosed hs _) ?_ hu
        rwa [enter_done hnew]
      refine hdone'.leave hU hkey hn (hgrow.path ▸ Finset.mem_insert_self _ _) ?_
      intro m hm
      obtain ⟨hmp, hmv⟩ := hall m hm
      exact Finset.mem_sdiff.mpr ⟨hmv, hgrow.path ▸ hmp⟩

include hU hkey in
theorem roots_true (hns : ∀ n ∈ ns, n ∈ U) (hdone : Sealed succ key U visited)
    (h : roots succ key fuel ns visited = some true) :
    ∃ D, visited ⊆ D ∧ Sealed succ key U D ∧ ∀ n ∈ ns, key n ∈ D := by
  induction ns generalizing visited with
  | nil => exact ⟨visited, Finset.Subset.refl _, hdone, by simp⟩
  | cons n ns ih =>
    obtain ⟨hn, hns⟩ := List.forall_mem_cons.mp hns
    simp only [roots] at h
    split at h
    · rename_i hin
      obtain ⟨D, hsub, hD, hall⟩ := ih hns hdone h
      exact ⟨D, hsub, hD, List.forall_mem_cons.mpr ⟨hsub hin, hall⟩⟩
    · split at h
      · cases h
      · cases h
      · rename_i t ht
        have hempty : (⟨visited, ∅⟩ : State κ).path ⊆ visited := Finset.empty_subset _
        obtain ⟨hgrow, hin⟩ := visit_returns hempty ht
        have hseal := visit_sealed hU hkey hn hempty
          (by simpa [State.done] using hdone) ht
        have hdone' : t.done = t.visited := by simp [State.done, hgrow.path]
        obtain ⟨D, hsub, hD, hall⟩ := ih hns (hdone' ▸ hseal) h
        exact ⟨D, hgrow.visited.trans hsub, hD, List.forall_mem_cons.mpr ⟨hsub hin, hall⟩⟩

include hU hkey in
theorem roots_false (hns : ∀ n ∈ ns, n ∈ U) (h : roots succ key fuel ns visited = some false) :
    ∃ a ∈ U, Cyclic succ a := by
  induction ns generalizing visited with
  | nil => cases h
  | cons n ns ih =>
    obtain ⟨hn, hns⟩ := List.forall_mem_cons.mp hns
    simp only [roots] at h
    split at h
    · exact ih hns h
    · split at h
      · cases h
      · rename_i t ht
        exact visit_cycle hU hkey hn (Finset.empty_subset _)
          (fun k hk => absurd hk (Finset.notMem_empty k)) ht
      · exact ih hns h

include hU hkey in
/-- **The search decides whether there is a cycle**, if different places have different keys. -/
theorem roots_iff (hns : ∀ n, n ∈ ns ↔ n ∈ U) {K : Finset κ} (hK : ∀ a ∈ U, key a ∈ K)
    (hfuel : K.card < fuel) :
    ∃ b, roots succ key fuel ns ∅ = some b ∧ (b = true ↔ ∀ a ∈ U, ¬ Cyclic succ a) := by
  obtain ⟨b, hb⟩ : ∃ b, roots succ key fuel ns ∅ = some b :=
    roots_isSome hU hK (fun n hn => (hns n).mp hn) (by simpa using hfuel)
  refine ⟨b, hb, ?_⟩
  cases b with
  | true =>
    obtain ⟨D, -, hD, hall⟩ := roots_true hU hkey (fun n hn => (hns n).mp hn)
      (fun a _ hk => absurd hk (Finset.notMem_empty _)) hb
    exact iff_of_true rfl (fun a ha => (hD a ha (hall a ((hns a).mpr ha))).2)
  | false =>
    obtain ⟨a, ha, hcyc⟩ := roots_false hU hkey (fun n hn => (hns n).mp hn) hb
    exact iff_of_false Bool.false_ne_true (fun hno => hno a ha hcyc)

end

/-! ## Keys that coincide -/

theorem loop_seen (h : ∀ m ∈ ms, key m ∉ s.path ∧ key m ∈ s.visited) :
    loop key (visit succ key (fuel + 1)) ms s = some (true, s) := by
  induction ms with
  | nil => rfl
  | cons m ms ih =>
    obtain ⟨⟨hp, hv⟩, hms⟩ := List.forall_mem_cons.mp h
    exact loop_cons_true.mpr ⟨hp, s, visit_seen hv, ih hms⟩

/-- Places behind each of which there are only places before it are gone through without a
cycle, whatever their keys are. -/
theorem roots_append {pre post : List ν}
    (hback : ∀ as n bs, pre = as ++ n :: bs → ∀ m ∈ succ n, key m ∈ visited ∨ m ∈ as) :
    roots succ key (fuel + 2) (pre ++ post) visited =
      roots succ key (fuel + 2) post (visited ∪ (pre.map key).toFinset) := by
  induction pre generalizing visited with
  | nil => simp
  | cons n pre ih =>
    have hnext : ∀ as m bs, pre = as ++ m :: bs → ∀ x ∈ succ m,
        key x ∈ insert (key n) visited ∨ x ∈ as := by
      intro as m bs he x hx
      rcases hback (n :: as) m bs (by rw [he]; rfl) x hx with hv | hin
      · exact Or.inl (Finset.mem_insert_of_mem hv)
      · rcases List.mem_cons.mp hin with rfl | hin
        · exact Or.inl (Finset.mem_insert_self _ _)
        · exact Or.inr hin
    have hset : visited ∪ ((n :: pre).map key).toFinset =
        insert (key n) visited ∪ (pre.map key).toFinset := by
      simp [Finset.insert_union, Finset.union_insert]
    rw [hset, ← ih hnext, List.cons_append]
    simp only [roots]
    split
    · rename_i hin
      rw [Finset.insert_eq_of_mem hin]
    · rename_i hnew
      have hloop : visit succ key (fuel + 2) n ⟨visited, ∅⟩ =
          some (true, ⟨insert (key n) visited, ∅⟩) := by
        rw [visit_true_of_new hnew]
        refine ⟨_, loop_seen (fun m hm => ?_), by simp [State.enter, State.leave]⟩
        have hv : key m ∈ visited := (hback [] n pre rfl m hm).resolve_right (by simp)
        refine ⟨?_, Finset.mem_insert_of_mem hv⟩
        simp only [State.enter, Finset.mem_insert, Finset.notMem_empty, or_false]
        exact ne_of_mem_of_not_mem hv hnew
      rw [hloop]

/-- A place that leads to a place with its own key is reported. -/
theorem roots_merged (hnew : key n ∉ visited) (hm : m ∈ succ n) (hkey : key m = key n) :
    roots succ key fuel (n :: ns) visited ≠ some true := by
  intro h
  simp only [roots, if_neg hnew] at h
  split at h
  · cases h
  · cases h
  · rename_i t ht
    cases fuel with
    | zero => cases ht
    | succ fuel =>
      have hs : (⟨visited, ∅⟩ : State κ).path ⊆ visited := Finset.empty_subset _
      obtain ⟨u, -, -, hall⟩ := visit_new (s := ⟨visited, ∅⟩) hnew hs ht
      exact (hall m hm).1 (hkey ▸ Finset.mem_insert_self _ _)

/-- Along the first successors, one place leads back to itself or to an earlier one. `seen` are
the earlier ones. -/
inductive Blocked (succ : ν → List ν) : List ν → ν → Prop
  | back {seen : List ν} {n m : ν} : m ∈ succ n → m ∈ n :: seen → Blocked succ seen n
  | first {seen : List ν} {n m : ν} {ms : List ν} : succ n = m :: ms →
    Blocked succ (n :: seen) m → Blocked succ seen n

/-- The first successors are entered whatever their keys are, so a way back is always met. -/
theorem visit_blocked {seen : List ν} (h : Blocked succ seen n) (hs : s.visited = s.path)
    (hseen : ∀ a ∈ seen, key a ∈ s.path) (hnew : key n ∉ s.visited) :
    visit succ key fuel n s ≠ some (true, t) := by
  induction h generalizing fuel s t with
  | @back seen n m hm hback =>
    intro hv
    cases fuel with
    | zero => cases hv
    | succ fuel =>
      obtain ⟨u, -, -, hall⟩ := visit_new hnew hs.ge hv
      refine (hall m hm).1 (Finset.mem_insert.mpr ?_)
      rcases List.mem_cons.mp hback with rfl | hin
      · exact Or.inl rfl
      · exact Or.inr (hseen m hin)
  | @first seen n m ms hfirst _ ih =>
    intro hv
    cases fuel with
    | zero => cases hv
    | succ fuel =>
      obtain ⟨u, hu, -⟩ := (visit_true_of_new hnew).mp hv
      rw [hfirst] at hu
      obtain ⟨hmp, w, hw, -⟩ := loop_cons_true.mp hu
      have hs' : (s.enter (key n)).visited = (s.enter (key n)).path := by
        simp only [State.enter, hs]
      refine ih hs' ?_ (hs' ▸ hmp) hw
      intro a ha
      rcases List.mem_cons.mp ha with rfl | ha
      · exact Finset.mem_insert_self _ _
      · exact Finset.mem_insert_of_mem (hseen a ha)

/-- The first successors `cs` of the places `seen` end in a place without successors, and none of
them leads back. -/
inductive Clear (succ : ν → List ν) : List ν → List ν → Prop
  | sink {seen : List ν} {n : ν} : succ n = [] → Clear succ seen [n]
  | next {seen cs ms : List ν} {n m : ν} : succ n = m :: ms → (∀ x ∈ succ n, x ∉ n :: seen) →
    Clear succ (n :: seen) (m :: cs) → Clear succ seen (n :: m :: cs)

omit [DecidableEq κ] in
/-- Finitely many places: the first successors come to an end unless one leads back. -/
theorem clear_of_not_blocked [DecidableEq ν] {V : Finset ν} (hV : ∀ a ∈ V, ∀ m ∈ succ a, m ∈ V)
    {seen : List ν} (h : ¬ Blocked succ seen n) (hn : n ∈ V) (hnew : n ∉ seen) :
    ∃ cs, Clear succ seen (n :: cs) ∧ (n :: cs).Nodup ∧ ∀ a ∈ n :: cs, a ∈ V ∧ a ∉ seen := by
  obtain ⟨k, hk⟩ : ∃ k, (V \ seen.toFinset).card = k := ⟨_, rfl⟩
  -- each step puts a new place among those seen
  induction k using Nat.strong_induction_on generalizing n seen with
  | _ k ih =>
    cases hsucc : succ n with
    | nil => exact ⟨[], .sink hsucc, by simp, by simpa using ⟨hn, hnew⟩⟩
    | cons m ms =>
      have hclear : ∀ x ∈ succ n, x ∉ n :: seen := fun x hx hback => h (.back hx hback)
      have hm : m ∈ succ n := hsucc ▸ List.mem_cons_self
      have hlt : (V \ (n :: seen).toFinset).card < k := by
        rw [← hk, List.toFinset_cons]
        refine Finset.card_lt_card ⟨?_, fun hss => ?_⟩
        · exact Finset.sdiff_subset_sdiff (Finset.Subset.refl V) (Finset.subset_insert _ _)
        · have hmem := hss (Finset.mem_sdiff.mpr ⟨hn, by simpa using hnew⟩)
          simp at hmem
      obtain ⟨cs, hcs, hnodup, hin⟩ := ih _ hlt (fun hb => h (.first hsucc hb)) (hV n hn m hm)
        (hclear m hm) rfl
      refine ⟨m :: cs, .next hsucc hclear hcs, List.nodup_cons.mpr ⟨fun hc => ?_, hnodup⟩,
        List.forall_mem_cons.mpr ⟨⟨hn, hnew⟩, fun a ha => ?_⟩⟩
      · exact (hin n hc).2 List.mem_cons_self
      · exact ⟨(hin a ha).1, fun hs => (hin a ha).2 (List.mem_cons_of_mem n hs)⟩

omit [DecidableEq κ] in
/-- They end in a place without successors. -/
theorem Clear.exists_sink {seen cs : List ν} (h : Clear succ seen cs) : ∃ z ∈ cs, succ z = [] := by
  induction h with
  | sink hsucc => exact ⟨_, List.mem_singleton_self _, hsucc⟩
  | next _ _ _ ih =>
    obtain ⟨z, hz, hnil⟩ := ih
    exact ⟨z, List.mem_cons_of_mem _ hz, hnil⟩

omit [DecidableEq κ] in
/-- A place other than those seen has another key, if only a place without successors shares its
key. -/
theorem key_notMem_path {U : Set ν} {as seen : List ν}
    (hapart : ∀ x ∈ U, ∀ a ∈ as, key x = key a → x = a ∨ succ a = [])
    (has : ∀ a ∈ seen, a ∈ as) (hseen : ∀ a ∈ seen, succ a ≠ []) (hn : n ∈ U) (hnew : n ∉ seen)
    (hpath : ∀ k ∈ s.path, ∃ a ∈ seen, key a = k) : key n ∉ s.path := by
  intro hk
  obtain ⟨a, ha, he⟩ := hpath _ hk
  rcases hapart n hn a (has a ha) he.symm with rfl | hnil
  · exact hnew ha
  · exact hseen a ha hnil

theorem enter_path {seen : List ν} (hpath : ∀ k, k ∈ s.path ↔ ∃ a ∈ seen, key a = k) (n : ν) :
    ∀ k, k ∈ (s.enter (key n)).path ↔ ∃ a ∈ n :: seen, key a = k := by
  intro k
  simp only [State.enter, Finset.mem_insert, hpath, List.mem_cons, exists_eq_or_imp]
  exact or_congr_left eq_comm

/-- If all places have keys of the first successors, and only the last of these shares its key,
then everything is visited along them. -/
theorem visit_clear {U : Set ν} (hU : ∀ a ∈ U, ∀ m ∈ succ a, m ∈ U) {seen as cs : List ν}
    (h : Clear succ seen cs) (has : ∀ a, a ∈ as ↔ a ∈ seen ∨ a ∈ cs)
    (hapart : ∀ x ∈ U, ∀ a ∈ as, key x = key a → x = a ∨ succ a = [])
    (hall : ∀ x ∈ U, ∃ a ∈ as, key x = key a) (hseen : ∀ a ∈ seen, succ a ≠ [])
    (hcs : cs.head? = some n) (hn : n ∈ U) (hnew : n ∉ seen) (hs : s.visited = s.path)
    (hpath : ∀ k, k ∈ s.path ↔ ∃ a ∈ seen, key a = k) (hfuel : cs.length < fuel) :
    ∃ V, visit succ key fuel n s = some (true, ⟨V, s.path⟩) ∧ ∀ x ∈ U, key x ∈ V := by
  induction h generalizing fuel n s with
  | @sink seen n' hsucc =>
    obtain rfl : n' = n := by simpa using hcs
    have hkey : key n' ∉ s.path := key_notMem_path hapart (fun a ha => (has a).mpr (Or.inl ha))
      hseen hn hnew (fun k => (hpath k).mp)
    obtain ⟨fuel, rfl⟩ : ∃ f, fuel = f + 1 := ⟨fuel - 1, by omega⟩
    refine ⟨insert (key n') s.visited, (visit_true_of_new (hs ▸ hkey)).mpr ⟨s.enter (key n'), ?_, ?_⟩,
      fun x hx => ?_⟩
    · rw [hsucc]
      rfl
    · simp only [State.enter, State.leave, Finset.erase_insert hkey]
    · obtain ⟨a, ha, he⟩ := hall x hx
      rw [he]
      rcases (has a).mp ha with ha | ha
      · exact Finset.mem_insert_of_mem (hs ▸ (hpath _).mpr ⟨a, ha, rfl⟩)
      · exact List.mem_singleton.mp ha ▸ Finset.mem_insert_self _ _
  | @next seen cs ms n' m hsucc hclear hrest ih =>
    obtain rfl : n' = n := by simpa using hcs
    have hkey : key n' ∉ s.path := key_notMem_path hapart (fun a ha => (has a).mpr (Or.inl ha))
      hseen hn hnew (fun k => (hpath k).mp)
    have has' : ∀ a, a ∈ as ↔ a ∈ n' :: seen ∨ a ∈ m :: cs := by
      intro a
      rw [has, List.mem_cons, List.mem_cons (a := a) (b := n')]
      tauto
    have hseen' : ∀ a ∈ n' :: seen, succ a ≠ [] :=
      List.forall_mem_cons.mpr ⟨by simp [hsucc], hseen⟩
    have hpath' := enter_path hpath n'
    have hm : m ∈ succ n' := hsucc ▸ List.mem_cons_self
    obtain ⟨fuel, rfl⟩ : ∃ f, fuel = f + 2 := ⟨fuel - 2, by simp at hfuel; omega⟩
    obtain ⟨V, hV, hUV⟩ : ∃ V, visit succ key (fuel + 1) m (s.enter (key n')) =
        some (true, ⟨V, (s.enter (key n')).path⟩) ∧ ∀ x ∈ U, key x ∈ V :=
      ih has' hseen' rfl (hU n' hn m hm) (hclear m hm) (by simp only [State.enter, hs]) hpath'
        (by simp at hfuel ⊢; omega)
    refine ⟨V, (visit_true_of_new (hs ▸ hkey)).mpr ⟨⟨V, (s.enter (key n')).path⟩, ?_, ?_⟩, hUV⟩
    · rw [hsucc]
      refine loop_cons_true.mpr ⟨?_, _, hV, loop_seen (fun x hx => ?_)⟩
      · exact key_notMem_path hapart (fun a ha => (has' a).mpr (Or.inl ha)) hseen' (hU n' hn m hm)
          (hclear m hm) (fun k => (hpath' k).mp)
      · have hxs : x ∈ succ n' := hsucc ▸ List.mem_cons_of_mem m hx
        refine ⟨?_, hUV x (hU n' hn x hxs)⟩
        exact key_notMem_path hapart (fun a ha => (has' a).mpr (Or.inl ha)) hseen'
          (hU n' hn x hxs) (hclear x hxs) (fun k => (hpath' k).mp)
    · simp only [State.enter, State.leave, Finset.erase_insert hkey]

theorem roots_seen (h : ∀ n ∈ ns, key n ∈ visited) : roots succ key fuel ns visited = some true := by
  induction ns with
  | nil => rfl
  | cons n ns ih =>
    obtain ⟨hn, hns⟩ := List.forall_mem_cons.mp h
    simp only [roots, if_pos hn]
    exact ih hns

theorem roots_clear {U : Set ν} (hU : ∀ a ∈ U, ∀ m ∈ succ a, m ∈ U) {cs : List ν}
    (h : Clear succ [] (n :: cs))
    (hapart : ∀ x ∈ U, ∀ a ∈ n :: cs, key x = key a → x = a ∨ succ a = [])
    (hall : ∀ x ∈ U, ∃ a ∈ n :: cs, key x = key a) (hns : ∀ a ∈ n :: ns, a ∈ U)
    (hfuel : (n :: cs).length < fuel) : roots succ key fuel (n :: ns) ∅ = some true := by
  obtain ⟨hn, hns⟩ := List.forall_mem_cons.mp hns
  obtain ⟨V, hV, hUV⟩ : ∃ V, visit succ key fuel n ⟨∅, ∅⟩ = some (true, ⟨V, ∅⟩) ∧
      ∀ x ∈ U, key x ∈ V :=
    visit_clear (s := ⟨∅, ∅⟩) hU h (by simp) hapart hall (by simp) rfl hn (by simp) rfl (by simp)
      hfuel
  simp only [roots, if_neg (Finset.notMem_empty _), hV]
  exact roots_seen (fun a ha => hUV a (hns a ha))

theorem roots_blocked (h : Blocked succ [] n) : roots succ key fuel (n :: ns) ∅ ≠ some true := by
  intro ht
  simp only [roots, if_neg (Finset.notMem_empty _)] at ht
  split at ht
  · cases ht
  · cases ht
  · rename_i t hv
    exact visit_blocked (s := ⟨∅, ∅⟩) h rfl (by simp) (Finset.notMem_empty _) hv

end

end Dfs
