import Mathlib.Data.List.Basic
import Mathlib.Tactic.Common

/-! Runs of a transition function driven by a list of actions. A step may be
refused (`none`). `Meets` restricts a run to steps with a given property of the
state before the step and the action taken, and `Reach` is reachability by such
runs. `Reach.inv` is the one induction used for every safety property. -/

namespace Lts

variable {σ α β : Type} (step : σ → α → Option σ)

/-- The state after the actions `as`, or `none` when one of them is refused. -/
def run : σ → List α → Option σ
  | s, [] => some s
  | s, a :: as => (step s a).bind (fun t => run t as)

/-- Every step of the run from `s` along `as` has the property `P`. -/
def Meets (P : σ → α → Prop) : σ → List α → Prop
  | _, [] => True
  | s, a :: as => P s a ∧ ∀ t, step s a = some t → Meets P t as

/-- `s` is reached from `s₀` by a run whose steps all have the property `P`. -/
def Reach (P : σ → α → Prop) (s₀ s : σ) : Prop :=
  ∃ as, run step s₀ as = some s ∧ Meets step P s₀ as

/-- The run along `as`, stopped with `none` at a refused step or at a step
without the property `p`. -/
def drive (p : σ → α → Bool) : σ → List α → Option σ
  | s, [] => some s
  | s, a :: as => if p s a then (step s a).bind (fun t => drive p t as) else none

def Later (Q : σ → α → Prop) : σ → List α → Prop
  | _, [] => False
  | s, a :: as => Q s a ∨ ∃ t, step s a = some t ∧ Later Q t as

/-- Every step with the property `P` comes before a step with the property `Q`. -/
def Followed (P Q : σ → α → Prop) : σ → List α → Prop
  | _, [] => True
  | s, a :: as => ∀ t, step s a = some t → (P s a → Later step Q t as) ∧ Followed P Q t as

@[simp] theorem run_nil (s : σ) : run step s [] = some s := rfl

theorem run_cons_eq_some {s u : σ} {a : α} {as : List α} :
    run step s (a :: as) = some u ↔ ∃ t, step s a = some t ∧ run step t as = some u := by
  simp [run, Option.bind_eq_some_iff]

theorem run_append_eq_some {s u : σ} {as bs : List α} :
    run step s (as ++ bs) = some u ↔ ∃ t, run step s as = some t ∧ run step t bs = some u := by
  induction as generalizing s with
  | nil => simp
  | cons a as ih =>
    simp only [List.cons_append, run_cons_eq_some, ih]
    constructor
    · rintro ⟨r, hr, t, ht, hu⟩
      exact ⟨t, ⟨r, hr, ht⟩, hu⟩
    · rintro ⟨t, ⟨r, hr, ht⟩, hu⟩
      exact ⟨r, hr, t, ht, hu⟩

theorem run_append {s t u : σ} {as bs : List α} (h : run step s as = some t)
    (hu : run step t bs = some u) : run step s (as ++ bs) = some u :=
  (run_append_eq_some step).mpr ⟨t, h, hu⟩

theorem Meets.append {P : σ → α → Prop} {s t : σ} {as bs : List α}
    (h : Meets step P s as) (hr : run step s as = some t) (hb : Meets step P t bs) :
    Meets step P s (as ++ bs) := by
  induction as generalizing s with
  | nil => simp only [run_nil, Option.some.injEq] at hr; subst hr; exact hb
  | cons a as ih =>
    obtain ⟨r, hsr, ht⟩ := (run_cons_eq_some step).mp hr
    refine ⟨h.1, fun r' hsr' => ?_⟩
    obtain rfl : r = r' := Option.some.inj (hsr.symm.trans hsr')
    exact ih (h.2 r hsr) ht

variable {step}

theorem Reach.refl {P : σ → α → Prop} (s : σ) : Reach step P s s := ⟨[], rfl, trivial⟩

theorem Reach.next {P : σ → α → Prop} {s₀ s t : σ} {a : α} (h : Reach step P s₀ s)
    (hp : P s a) (hs : step s a = some t) : Reach step P s₀ t := by
  obtain ⟨as, hr, hm⟩ := h
  have hone : run step s [a] = some t := (run_cons_eq_some step).mpr ⟨t, hs, rfl⟩
  exact ⟨as ++ [a], run_append step hr hone, hm.append step hr ⟨hp, fun _ _ => trivial⟩⟩

/-- **Run induction.** What holds at the start and is kept by every step with
the property `P` holds at the end of every run of such steps. -/
theorem run_inv {P : σ → α → Prop} {I : σ → Prop}
    (hs : ∀ s a t, I s → P s a → step s a = some t → I t) {s t : σ} {as : List α}
    (hi : I s) (hr : run step s as = some t) (hm : Meets step P s as) : I t := by
  induction as generalizing s with
  | nil => simp only [run_nil, Option.some.injEq] at hr; subst hr; exact hi
  | cons a as ih =>
    obtain ⟨u, hu, ht⟩ := (run_cons_eq_some step).mp hr
    exact ih (hs s a u hi hm.1 hu) ht (hm.2 u hu)

/-- The invariant rule. The state before the step may be taken as reachable,
so invariants proved earlier are at hand. -/
theorem Reach.inv {P : σ → α → Prop} {I : σ → Prop} {s₀ : σ} (h₀ : I s₀)
    (hs : ∀ s a t, Reach step P s₀ s → I s → P s a → step s a = some t → I t)
    {s : σ} (h : Reach step P s₀ s) : I s := by
  obtain ⟨as, hr, hm⟩ := h
  have hI : Reach step P s₀ s ∧ I s :=
    run_inv (I := fun s => Reach step P s₀ s ∧ I s)
      (fun s a t hi hp hst => ⟨hi.1.next hp hst, hs s a t hi.1 hi.2 hp hst⟩)
      ⟨Reach.refl s₀, h₀⟩ hr hm
  exact hI.2

/-- **Progress.** Let `m` bound what an actor has still to do before `Q` holds: each of its
own steps lowers it, and no other step raises it. Then a run that has not come to `Q` has
at most so many own steps. -/
theorem run_until {P : σ → α → Prop} {I Q : σ → Prop} {o : α → Bool} {m : σ → Nat}
    (hs : ∀ s a t, I s → P s a → step s a = some t →
      Q t ∨ (I t ∧ m t + (if o a then 1 else 0) ≤ m s))
    (hq : ∀ s a t, Q s → P s a → step s a = some t → Q t) {s t : σ} {as : List α}
    (hi : I s) (hr : run step s as = some t) (hm : Meets step P s as) :
    Q t ∨ (I t ∧ m t + as.countP o ≤ m s) := by
  induction as generalizing s with
  | nil =>
    simp only [run_nil, Option.some.injEq] at hr
    subst hr
    exact Or.inr ⟨hi, Nat.le_refl _⟩
  | cons a as ih =>
    obtain ⟨u, hu, ht⟩ := (run_cons_eq_some step).mp hr
    rcases hs s a u hi hm.1 hu with hQ | ⟨hI, hle⟩
    · exact Or.inl (run_inv hq hQ ht (hm.2 u hu))
    · refine (ih hI ht (hm.2 u hu)).imp id (fun ⟨hI', hle'⟩ => ⟨hI', ?_⟩)
      rw [List.countP_cons]
      omega

theorem Meets.mono {P Q : σ → α → Prop} (hpq : ∀ s a, P s a → Q s a) {s : σ} {as : List α}
    (h : Meets step P s as) : Meets step Q s as := by
  induction as generalizing s with
  | nil => trivial
  | cons a as ih => exact ⟨hpq s a h.1, fun t ht => ih (h.2 t ht)⟩

/-- A property of the actions alone. -/
theorem meets_of_forall {p : α → Prop} {s : σ} {as : List α} (h : ∀ a ∈ as, p a) :
    Meets step (fun _ a => p a) s as := by
  induction as generalizing s with
  | nil => trivial
  | cons a as ih =>
    exact ⟨h a List.mem_cons_self, fun t _ => ih (fun b hb => h b (List.mem_cons_of_mem a hb))⟩

theorem Meets.and {P Q : σ → α → Prop} {s : σ} {as : List α} (hp : Meets step P s as)
    (hq : Meets step Q s as) : Meets step (fun s a => P s a ∧ Q s a) s as := by
  induction as generalizing s with
  | nil => trivial
  | cons a as ih => exact ⟨⟨hp.1, hq.1⟩, fun t ht => ih (hp.2 t ht) (hq.2 t ht)⟩

theorem Reach.mono {P Q : σ → α → Prop} (hpq : ∀ s a, P s a → Q s a) {s₀ s : σ}
    (h : Reach step P s₀ s) : Reach step Q s₀ s :=
  let ⟨as, hr, hm⟩ := h
  ⟨as, hr, hm.mono hpq⟩

/-- A run that breaks the property `P` has a first part up to a step without it. -/
theorem exists_of_not_meets {P : σ → α → Prop} {s u : σ} {as : List α}
    (hr : run step s as = some u) (hm : ¬ Meets step P s as) :
    ∃ bs a cs t t', as = bs ++ a :: cs ∧ run step s bs = some t ∧ ¬ P t a ∧
      step t a = some t' ∧ run step t' cs = some u := by
  induction as generalizing s with
  | nil => exact absurd trivial hm
  | cons a as ih =>
    obtain ⟨t, ht, hu⟩ := (run_cons_eq_some step).mp hr
    by_cases hp : P s a
    · have hnext : ¬ Meets step P t as := fun hn => hm ⟨hp, fun t' ht' => by
        obtain rfl : t = t' := Option.some.inj (ht.symm.trans ht')
        exact hn⟩
      obtain ⟨bs, b, cs, v, v', has, hv, hb, hv', hcs⟩ := ih hu hnext
      exact ⟨a :: bs, b, cs, v, v', by rw [has, List.cons_append],
        (run_cons_eq_some step).mpr ⟨t, ht, hv⟩, hb, hv', hcs⟩
    · exact ⟨[], a, as, s, t, rfl, rfl, hp, ht, hu⟩

/-- **Debts.** Let steps with the property `P` make a debt, steps with the property `Q` pay all
debts, and other steps do neither. Then a run ends without a debt exactly when a payment comes
after every step that makes one, and after the start if that has one. -/
theorem followed_iff {P Q : σ → α → Prop} {I D : σ → Prop}
    (hI : ∀ s a t, I s → step s a = some t → I t)
    (hP : ∀ s a t, I s → step s a = some t → P s a → D t)
    (hQ : ∀ s a t, I s → step s a = some t → Q s a → ¬ D t)
    (hD : ∀ s a t, I s → step s a = some t → ¬ P s a → ¬ Q s a → (D t ↔ D s))
    {s u : σ} {as : List α} (hi : I s) (hr : run step s as = some u) :
    ¬ D u ↔ (D s → Later step Q s as) ∧ Followed step P Q s as := by
  induction as generalizing s with
  | nil =>
    simp only [run_nil, Option.some.injEq] at hr
    subst hr
    simp [Later, Followed]
  | cons a as ih =>
    obtain ⟨t, ht, hu⟩ := (run_cons_eq_some step).mp hr
    have hlater : Later step Q s (a :: as) ↔ Q s a ∨ Later step Q t as := by simp [Later, ht]
    have hfol : Followed step P Q s (a :: as) ↔
        (P s a → Later step Q t as) ∧ Followed step P Q t as := by simp [Followed, ht]
    rw [ih (hI s a t hi ht) hu, hlater, hfol]
    by_cases hq : Q s a
    · have hnd := hQ s a t hi ht hq
      have hnp : ¬ P s a := fun hp => hnd (hP s a t hi ht hp)
      simp [hq, hnd, hnp]
    · by_cases hp : P s a
      · have hd := hP s a t hi ht hp
        simp only [hd, hq, hp, true_implies, false_or]
        exact ⟨fun h => ⟨fun _ => h.1, h⟩, fun h => h.2⟩
      · simp [hD s a t hi ht hp hq, hp, hq]

/-- A computed run whose steps were checked. -/
theorem run_of_drive {P : σ → α → Prop} {p : σ → α → Bool}
    (hp : ∀ s a, p s a = true → P s a) {s t : σ} {as : List α}
    (h : drive step p s as = some t) : run step s as = some t ∧ Meets step P s as := by
  induction as generalizing s with
  | nil => exact ⟨h, trivial⟩
  | cons a as ih =>
    simp only [drive] at h
    split at h
    · rename_i hpa
      obtain ⟨u, hu, ht⟩ := Option.bind_eq_some_iff.mp h
      obtain ⟨hr, hm⟩ := ih ht
      refine ⟨(run_cons_eq_some step).mpr ⟨u, hu, hr⟩, hp s a hpa, fun v hv => ?_⟩
      obtain rfl : u = v := Option.some.inj (hu.symm.trans hv)
      exact hm
    · cases h

theorem reach_of_drive {P : σ → α → Prop} {p : σ → α → Bool}
    (hp : ∀ s a, p s a = true → P s a) {s t : σ} {as : List α}
    (h : drive step p s as = some t) : Reach step P s t := ⟨as, run_of_drive hp h⟩

/-- A computed run seen through an observation `f`. -/
theorem reach_of_drive_map {P : σ → α → Prop} {p : σ → α → Bool}
    (hp : ∀ s a, p s a = true → P s a) {s : σ} {as : List α} {f : σ → β} {b : β}
    (h : (drive step p s as).map f = some b) : ∃ t, Reach step P s t ∧ f t = b := by
  obtain ⟨t, ht, hf⟩ := Option.map_eq_some_iff.mp h
  exact ⟨t, reach_of_drive hp ht, hf⟩

end Lts
