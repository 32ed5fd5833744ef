import Mathlib.Data.Finset.Card
import Mathlib.Data.Finset.SDiff
import Mathlib.Logic.Relation
import Mathlib.Tactic.Common

/-! Depth-first search for a target with a shared set of visited places. The start is not
visited; a place is put into the set before the search goes on from there. `search` is given
fuel; a place that is entered is new, so more fuel than there are places not yet visited is
enough. -/

namespace Search

variable {ν : Type} [DecidableEq ν]

/-- Goes through `ps`, with `rec` for the places that are new, up to a success. -/
def loop (rec : ν → Finset ν → Option (Bool × Finset ν)) :
    List ν → Finset ν → Option (Bool × Finset ν)
  | [], vis => some (false, vis)
  | p :: ps, vis =>
    if p ∈ vis then loop rec ps vis
    else
      match rec p (insert p vis) with
      | none => none
      | some (true, vis') => some (true, vis')
      | some (false, vis') => loop rec ps vis'

/-- Whether `target` can be reached from `n` through `next` by new places, and the places that
have been visited. -/
def search (next : ν → List ν) (target : ν) : Nat → ν → Finset ν → Option (Bool × Finset ν)
  | 0, _, _ => none
  | fuel + 1, n, vis =>
    if n = target then some (true, vis) else loop (search next target fuel) (next n) vis

section

variable {next : ν → List ν} {target n : ν} {fuel : Nat} {vis vis' : Finset ν} {ps : List ν}
  {rec : ν → Finset ν → Option (Bool × Finset ν)}

theorem loop_true (h : loop rec ps vis = some (true, vis')) :
    ∃ p ∈ ps, ∃ v, rec p v = some (true, vis') := by
  induction ps generalizing vis with
  | nil => cases h
  | cons p ps ih =>
    simp only [loop] at h
    split at h
    · obtain ⟨p', hp', hrec⟩ := ih h
      exact ⟨p', List.mem_cons_of_mem p hp', hrec⟩
    · split at h
      · cases h
      · rename_i hrec
        obtain rfl := (Prod.mk.inj (Option.some.inj h)).2
        exact ⟨p, List.mem_cons_self, _, hrec⟩
      · obtain ⟨p', hp', hrec⟩ := ih h
        exact ⟨p', List.mem_cons_of_mem p hp', hrec⟩

/-- **Soundness.** -/
theorem search_true (h : search next target fuel n vis = some (true, vis')) :
    Relation.ReflTransGen (fun a b => b ∈ next a) n target := by
  induction fuel generalizing n vis vis' with
  | zero => cases h
  | succ fuel ih =>
    simp only [search] at h
    split at h
    · rename_i hn
      subst hn
      exact .refl
    · obtain ⟨p, hp, v, hrec⟩ := loop_true h
      exact .head hp (ih hrec)

/-- The places visited in between are not the target, and all places behind them are visited. -/
structure Explored (next : ν → List ν) (target : ν) (vis vis' : Finset ν) : Prop where
  subset : vis ⊆ vis'
  closed : ∀ v ∈ vis', v ∉ vis → v ≠ target ∧ ∀ p ∈ next v, p ∈ vis'

omit [DecidableEq ν] in
theorem Explored.refl : Explored next target vis vis :=
  ⟨Finset.Subset.refl _, fun _ hv hn => absurd hv hn⟩

theorem Explored.trans {mid : Finset ν} (h : Explored next target vis mid)
    (h' : Explored next target mid vis') : Explored next target vis vis' := by
  refine ⟨h.subset.trans h'.subset, fun v hv hn => ?_⟩
  by_cases hm : v ∈ mid
  · obtain ⟨hne, hnext⟩ := h.closed v hm hn
    exact ⟨hne, fun p hp => h'.subset (hnext p hp)⟩
  · exact h'.closed v hv hm

/-- A place is entered and left without success. -/
theorem Explored.enter {p : ν} (h : Explored next target (insert p vis) vis') (hne : p ≠ target)
    (hnext : ∀ x ∈ next p, x ∈ vis') : Explored next target vis vis' := by
  refine ⟨(Finset.subset_insert p vis).trans h.subset, fun v hv hn => ?_⟩
  by_cases hvp : v = p
  · subst hvp
    exact ⟨hne, hnext⟩
  · exact h.closed v hv (by simp [hvp, hn])

def Failed (next : ν → List ν) (target n : ν) (vis vis' : Finset ν) : Prop :=
  Explored next target vis vis' ∧ n ≠ target ∧ ∀ p ∈ next n, p ∈ vis'

theorem loop_false (hrec : ∀ p v v', rec p v = some (false, v') → Failed next target p v v')
    (h : loop rec ps vis = some (false, vis')) :
    Explored next target vis vis' ∧ ∀ p ∈ ps, p ∈ vis' := by
  induction ps generalizing vis with
  | nil =>
    obtain rfl := (Prod.mk.inj (Option.some.inj h)).2
    exact ⟨.refl, by simp⟩
  | cons p ps ih =>
    simp only [loop] at h
    split at h
    · rename_i hp
      obtain ⟨hex, hps⟩ := ih h
      refine ⟨hex, List.forall_mem_cons.mpr ⟨hex.subset hp, hps⟩⟩
    · split at h
      · cases h
      · cases h
      · rename_i mid hmid
        obtain ⟨hin, hne, hnext⟩ := hrec p _ _ hmid
        obtain ⟨hex, hps⟩ := ih h
        refine ⟨(hin.enter hne hnext).trans hex, List.forall_mem_cons.mpr ⟨?_, hps⟩⟩
        exact hex.subset (hin.subset (Finset.mem_insert_self p vis))

theorem search_false (h : search next target fuel n vis = some (false, vis')) :
    Failed next target n vis vis' := by
  induction fuel generalizing n vis vis' with
  | zero => cases h
  | succ fuel ih =>
    simp only [search] at h
    split at h
    · cases h
    · rename_i hne
      obtain ⟨hex, hps⟩ := loop_false (fun p v v' => ih) h
      exact ⟨hex, hne, hps⟩

/-- **Completeness.** A search that begins with nothing visited fails only if there is no way to
the target. -/
theorem not_reach_of_search (h : search next target fuel n ∅ = some (false, vis')) :
    ¬ Relation.ReflTransGen (fun a b => b ∈ next a) n target := by
  obtain ⟨hex, hne, hnext⟩ := search_false h
  have hin : ∀ x, Relation.ReflTransGen (fun a b => b ∈ next a) n x → n = x ∨ x ∈ vis' := by
    intro x hx
    induction hx with
    | refl => exact Or.inl rfl
    | tail _ hstep ih =>
      rcases ih with rfl | hm
      · exact Or.inr (hnext _ hstep)
      · exact Or.inr ((hex.closed _ hm (by simp)).2 _ hstep)
  intro hreach
  rcases hin target hreach with he | hm
  · exact hne he
  · exact (hex.closed target hm (by simp)).1 rfl

/-! ## Fuel -/

theorem loop_isSome {U : Finset ν} {k : Nat} (hps : ∀ p ∈ ps, p ∈ U)
    (hrec : ∀ p v, p ∈ U → (U \ v).card < k → ∃ b v', rec p v = some (b, v') ∧ v ⊆ v')
    (hk : (U \ vis).card ≤ k) : ∃ b v', loop rec ps vis = some (b, v') ∧ vis ⊆ v' := by
  induction ps generalizing vis with
  | nil => exact ⟨false, vis, rfl, Finset.Subset.refl _⟩
  | cons p ps ih =>
    obtain ⟨hp, hps⟩ := List.forall_mem_cons.mp hps
    simp only [loop]
    split
    · exact ih hps hk
    · rename_i hnew
      have hsub : vis ⊆ insert p vis := Finset.subset_insert p vis
      have hlt : (U \ insert p vis).card < (U \ vis).card := by
        refine Finset.card_lt_card ⟨Finset.sdiff_subset_sdiff (Finset.Subset.refl U) hsub, ?_⟩
        intro hss
        have hmem := hss (Finset.mem_sdiff.mpr ⟨hp, hnew⟩)
        simp at hmem
      obtain ⟨b, mid, hmid, hin⟩ := hrec p (insert p vis) hp (by omega)
      rw [hmid]
      cases b with
      | true => exact ⟨true, mid, rfl, hsub.trans hin⟩
      | false =>
        have hle : (U \ mid).card ≤ k := by
          have := Finset.card_le_card
            (Finset.sdiff_subset_sdiff (Finset.Subset.refl U) (hsub.trans hin))
          omega
        obtain ⟨b', v', hv', hs'⟩ := ih hps hle
        exact ⟨b', v', hv', (hsub.trans hin).trans hs'⟩

/-- **Termination.** Among finitely many places that lead only to each other, fuel for each that
is not yet visited and for the start is enough. -/
theorem search_isSome {U : Finset ν} (hU : ∀ v ∈ U, ∀ p ∈ next v, p ∈ U) (hn : n ∈ U)
    (hfuel : (U \ vis).card < fuel) :
    ∃ b vis', search next target fuel n vis = some (b, vis') ∧ vis ⊆ vis' := by
  induction fuel generalizing n vis with
  | zero => omega
  | succ fuel ih =>
    simp only [search]
    split
    · exact ⟨true, vis, rfl, Finset.Subset.refl _⟩
    · exact loop_isSome (hU n hn) (fun p v hp hv => ih hp hv) (by omega)

end

end Search
