import Mathlib.Data.List.Basic
import Mathlib.Tactic.Common

/-! Computations that may stop with an error and that log what they touch. `Fine` is the triple
of such a computation without a precondition: it ends with a value of a given kind, and everything
it has touched up to there is of a given kind. -/

/-- A computation, run: its value or the error it has stopped with, and the log. -/
structure Traced (ε A α : Type) where
  val : Except ε α
  log : List A

namespace Traced

variable {ε A α β : Type}

def bind (m : Traced ε A α) (f : α → Traced ε A β) : Traced ε A β :=
  match m.val with
  | .ok a => ⟨(f a).val, m.log ++ (f a).log⟩
  | .error e => ⟨.error e, m.log⟩

instance : Monad (Traced ε A) where
  pure a := ⟨.ok a, []⟩
  bind := bind

/-- `m` ends with a value for which `Q` holds, and has logged only entries for which `good`
holds. -/
def Fine (good : A → Prop) (m : Traced ε A α) (Q : α → Prop) : Prop :=
  (∃ a, m.val = .ok a ∧ Q a) ∧ ∀ x ∈ m.log, good x

variable {good : A → Prop} {m : Traced ε A α} {f : α → Traced ε A β} {P : α → Prop}
  {Q : β → Prop} {a : α}

@[simp] theorem pure_log (a : α) : (pure a : Traced ε A α).log = [] := rfl

theorem bind_val (m : Traced ε A α) (f : α → Traced ε A β) :
    (m >>= f).val = m.val.bind (fun a => (f a).val) := by
  change (Traced.bind m f).val = _
  unfold Traced.bind Except.bind
  cases m.val <;> rfl

theorem bind_of_ok (h : m.val = .ok a) : m >>= f = ⟨(f a).val, m.log ++ (f a).log⟩ := by
  change bind m f = _
  rw [bind, h]

theorem fine_pure (h : P a) : Fine good (pure a : Traced ε A α) P :=
  ⟨⟨a, rfl, h⟩, by simp⟩

/-- **Sequencing.** -/
theorem Fine.bind (h : Fine good m P) (hf : ∀ a, P a → Fine good (f a) Q) :
    Fine good (m >>= f) Q := by
  obtain ⟨⟨a, hv, hp⟩, hlog⟩ := h
  obtain ⟨hres, hlog'⟩ := hf a hp
  rw [bind_of_ok hv]
  refine ⟨hres, fun x hx => ?_⟩
  rcases List.mem_append.mp hx with hx | hx
  · exact hlog x hx
  · exact hlog' x hx

theorem Fine.mono {P' : α → Prop} (h : Fine good m P) (hp : ∀ a, P a → P' a) :
    Fine good m P' := by
  obtain ⟨⟨a, hv, ha⟩, hlog⟩ := h
  exact ⟨⟨a, hv, hp a ha⟩, hlog⟩

/-- What `m` has logged stays logged. -/
theorem log_subset_bind (m : Traced ε A α) (f : α → Traced ε A β) : m.log ⊆ (m >>= f).log := by
  change m.log ⊆ (Traced.bind m f).log
  unfold Traced.bind
  cases m.val with
  | ok a => exact List.subset_append_left _ _
  | error e => exact List.Subset.refl _

/-- A sequence is fine only if both parts are. -/
theorem Fine.of_bind (h : Fine good (m >>= f) Q) :
    ∃ a, m.val = .ok a ∧ (∀ x ∈ m.log, good x) ∧ Fine good (f a) Q := by
  have hlog : ∀ x ∈ m.log, good x := fun x hx => h.2 x (log_subset_bind m f hx)
  cases hv : m.val with
  | ok a =>
    rw [bind_of_ok hv] at h
    exact ⟨a, rfl, hlog, h.1, fun x hx => h.2 x (List.mem_append_right _ hx)⟩
  | error e =>
    obtain ⟨⟨b, hb, -⟩, -⟩ := h
    rw [bind_val, hv] at hb
    cases hb

end Traced
