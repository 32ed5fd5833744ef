import Pgm.Lib.Lts

/-! The lock that serves in the order of arrival, as an automaton over arbitrary users. A
lock algorithm keeps a log of these operations; that the automaton accepts the log is the
whole specification, and the two facts below are read off it. -/

namespace FairLock

variable {τ : Type}

inductive Op (τ : Type) where
  /-- The user gets its place in the line. -/
  | arrive (t : τ)
  | enter (t : τ)
  | leave (t : τ)
  deriving DecidableEq

/-- The user inside, and those that have arrived and not entered, first come first. -/
structure State (τ : Type) where
  inside : Option τ
  line : List τ

def empty : State τ := ⟨none, []⟩

/-- Nobody stands in line twice, only the first of the line enters, and only when nobody is
inside. -/
def step [DecidableEq τ] : State τ → Op τ → Option (State τ)
  | ⟨i, q⟩, .arrive t => if i = some t ∨ t ∈ q then none else some ⟨i, q ++ [t]⟩
  | ⟨none, u :: q⟩, .enter t => if u = t then some ⟨some t, q⟩ else none
  | ⟨some u, q⟩, .leave t => if u = t then some ⟨none, q⟩ else none
  | _, _ => none

def Op.arrival? : Op τ → Option τ
  | .arrive t => some t
  | _ => none

def Op.entry? : Op τ → Option τ
  | .enter t => some t
  | _ => none

def arrivals (ops : List (Op τ)) : List τ := ops.filterMap Op.arrival?

def entries (ops : List (Op τ)) : List τ := ops.filterMap Op.entry?

@[simp] theorem arrivals_append (xs ys : List (Op τ)) :
    arrivals (xs ++ ys) = arrivals xs ++ arrivals ys := List.filterMap_append

@[simp] theorem arrivals_arrive (t : τ) : arrivals [.arrive t] = [t] := rfl

@[simp] theorem arrivals_enter (t : τ) : arrivals [.enter t] = [] := rfl

section Exec

variable [DecidableEq τ] {a b : State τ} {i : Option τ} {q : List τ} {t : τ} {ops : List (Op τ)}

theorem step_arrive (hi : i ≠ some t) (hq : t ∉ q) :
    step ⟨i, q⟩ (.arrive t) = some ⟨i, q ++ [t]⟩ := by
  cases i <;> simp_all [step]

@[simp] theorem step_enter : step ⟨none, t :: q⟩ (.enter t) = some ⟨some t, q⟩ := by simp [step]

@[simp] theorem step_leave : step ⟨some t, q⟩ (.leave t) = some ⟨none, q⟩ := by simp [step]

/-- The log grows by one operation. -/
theorem run_snoc {x : Op τ} {c : State τ} (h : Lts.run step a ops = some b)
    (hx : step b x = some c) : Lts.run step a (ops ++ [x]) = some c :=
  Lts.run_append step h ((Lts.run_cons_eq_some step).mpr ⟨c, hx, rfl⟩)

/-- One operation keeps the line and those that have entered in the order of arrival. -/
theorem step_line {x : Op τ} (h : step a x = some b) :
    a.line ++ arrivals [x] = entries [x] ++ b.line := by
  obtain ⟨i, q⟩ := a
  cases x with
  | arrive t =>
    have h' : (if i = some t ∨ t ∈ q then none else some (⟨i, q ++ [t]⟩ : State τ)) = some b := by
      cases i <;> exact h
    split at h'
    · cases h'
    · obtain rfl := Option.some.inj h'
      rfl
  | enter t =>
    cases i with
    | some u => cases q <;> cases h
    | none =>
      cases q with
      | nil => cases h
      | cons u q =>
        simp only [step] at h
        split at h
        · rename_i hu
          obtain rfl := Option.some.inj h
          subst hu
          exact List.append_nil (u :: q)
        · cases h
  | leave t =>
    cases i with
    | none => cases q <;> cases h
    | some u =>
      simp only [step] at h
      split at h
      · obtain rfl := Option.some.inj h
        exact List.append_nil q
      · cases h

/-- **First come, first served.** Those that arrived are those that entered, in this order,
followed by the line. -/
theorem run_line (h : Lts.run step a ops = some b) :
    a.line ++ arrivals ops = entries ops ++ b.line := by
  induction ops generalizing a with
  | nil =>
    simp only [Lts.run_nil, Option.some.injEq] at h
    subst h
    simp [arrivals, entries]
  | cons x ops ih =>
    obtain ⟨u, hx, hu⟩ := (Lts.run_cons_eq_some step).mp h
    have hone := step_line hx
    calc a.line ++ arrivals (x :: ops)
        = a.line ++ (arrivals [x] ++ arrivals ops) := by rw [← arrivals_append]; rfl
      _ = entries [x] ++ (u.line ++ arrivals ops) := by
          rw [← List.append_assoc, hone, List.append_assoc]
      _ = entries [x] ++ (entries ops ++ b.line) := by rw [ih hu]
      _ = entries (x :: ops) ++ b.line := by
          rw [← List.append_assoc]
          exact congrArg (· ++ b.line) (List.filterMap_append (f := Op.entry?)).symm

/-- Users enter in the order of their arrivals. -/
theorem entries_prefix (h : Lts.run step empty ops = some b) : entries ops <+: arrivals ops :=
  ⟨b.line, (run_line h).symm⟩

end Exec

end FairLock
