import Pgm.Lib.Lts

/-! Refinement with visible events. A run of a transition function leaves a trace: each of its steps
may emit an event. If each step that emits one is a step of a labelled relation between the
abstractions of its states, and each other step leaves the abstraction alone, then the trace of a
run is a path of the relation (`Path.of_run`). `countP_trace` accounts for the events of one kind by
the actions that call for them. -/

namespace Lts

variable {σ α ε μ : Type}

inductive Path (R : μ → ε → μ → Prop) : μ → List ε → μ → Prop
  | nil (m : μ) : Path R m [] m
  | cons {m m' m'' : μ} {e : ε} {es : List ε} (h : R m e m') (hp : Path R m' es m'') :
      Path R m (e :: es) m''

def trace (step : σ → α → Option σ) (emits : σ → α → Option ε) : σ → List α → List ε
  | _, [] => []
  | s, a :: as => (emits s a).toList ++ (step s a).elim [] (fun t => trace step emits t as)

/-- What an event, or none, says about the abstractions before and after. -/
def Matches (R : μ → ε → μ → Prop) (m m' : μ) : Option ε → Prop
  | none => m' = m
  | some e => R m e m'

variable {step : σ → α → Option σ} {emits : σ → α → Option ε} {P : σ → α → Prop} {I : σ → Prop}

theorem trace_cons {s t : σ} {a : α} {as : List α} (h : step s a = some t) :
    trace step emits s (a :: as) = (emits s a).toList ++ trace step emits t as := by
  simp [trace, h]

theorem Path.of_matches {R : μ → ε → μ → Prop} {m m' m'' : μ} {o : Option ε} {es : List ε}
    (h : Matches R m m' o) (hp : Path R m' es m'') : Path R m (o.toList ++ es) m'' := by
  cases o with
  | none =>
    obtain rfl : m' = m := h
    exact hp
  | some e => exact .cons h hp

/-- **Refinement.** -/
theorem Path.of_run {R : μ → ε → μ → Prop} (abs : σ → μ)
    (hs : ∀ s a t, I s → P s a → step s a = some t → I t ∧ Matches R (abs s) (abs t) (emits s a))
    {s t : σ} {as : List α} (hi : I s) (hr : run step s as = some t) (hm : Meets step P s as) :
    Path R (abs s) (trace step emits s as) (abs t) := by
  induction as generalizing s with
  | nil =>
    simp only [run_nil, Option.some.injEq] at hr
    subst hr
    exact .nil _
  | cons a as ih =>
    obtain ⟨u, hu, ht⟩ := (run_cons_eq_some step).mp hr
    obtain ⟨hi', hmatch⟩ := hs s a u hi hm.1 hu
    rw [trace_cons hu]
    exact .of_matches hmatch (ih hi' ht (hm.2 u hu))

/-- **Accounts.** Let `w` be 1 while an action of kind `c` is waiting for its event of kind `d`.
Then over a run there are as many such events as actions, but for those that are waiting. -/
theorem countP_trace {c : α → Bool} {d : ε → Bool} {w : σ → Nat}
    (hs : ∀ s a t, I s → P s a → step s a = some t →
      I t ∧ (emits s a).toList.countP d + w t = w s + (if c a then 1 else 0))
    {s t : σ} {as : List α} (hi : I s) (hr : run step s as = some t) (hm : Meets step P s as) :
    (trace step emits s as).countP d + w t = w s + as.countP c := by
  induction as generalizing s with
  | nil =>
    simp only [run_nil, Option.some.injEq] at hr
    subst hr
    simp [trace]
  | cons a as ih =>
    obtain ⟨u, hu, ht⟩ := (run_cons_eq_some step).mp hr
    obtain ⟨hi', hstep⟩ := hs s a u hi hm.1 hu
    have hrest := ih hi' ht (hm.2 u hu)
    rw [trace_cons hu, List.countP_append, List.countP_cons]
    omega

end Lts
