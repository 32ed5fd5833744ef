import Mathlib.Logic.Function.Basic
import Mathlib.Tactic.Common

/-! A monitor with one condition: a lock, and threads that sleep until they are signalled. Going to
sleep gives the lock back in the same step, so that no signal can come in between. A signal wakes one
thread if any is asleep. Sleeping threads may also wake up by themselves. A thread that has woken up
takes the lock again before it goes on. -/

/-- What a thread does at the monitor, other than own its lock. -/
inductive Monitor.Place where
  | outside
  | asleep
  | woken
  deriving DecidableEq

/-- The owner of the lock, and the threads `τ`. -/
structure Monitor (τ : Type) where
  owner : Option τ
  place : τ → Monitor.Place

namespace Monitor

variable {τ : Type}

inductive Event (τ : Type) where
  | enter (t : τ)
  | leave (t : τ)
  /-- Thread `t` goes to sleep and gives the lock back. -/
  | sleep (t : τ)
  /-- Thread `t` wakes the thread `w`, or finds none asleep. -/
  | signal (t : τ) (w : Option τ)
  /-- Those of the threads in `w` that are asleep wake up. -/
  | stir (w : τ → Bool)
  /-- Thread `t` has woken up and takes the lock again. -/
  | reenter (t : τ)

def start : Monitor τ := ⟨none, fun _ => .outside⟩

/-- The places after the threads in `w` have woken up. -/
def stirred (w : τ → Bool) (place : τ → Place) (t : τ) : Place :=
  if place t = .asleep ∧ w t = true then .woken else place t

inductive Step [DecidableEq τ] (m : Monitor τ) : Event τ → Monitor τ → Prop
  | enter (t : τ) (h : m.owner = none) (hp : m.place t = .outside) :
      Step m (.enter t) { m with owner := some t }
  | leave (t : τ) (h : m.owner = some t) : Step m (.leave t) { m with owner := none }
  | sleep (t : τ) (h : m.owner = some t) :
      Step m (.sleep t) ⟨none, Function.update m.place t .asleep⟩
  | wake (t u : τ) (h : m.owner = some t) (hu : m.place u = .asleep) :
      Step m (.signal t (some u)) { m with place := Function.update m.place u .woken }
  | nobody (t : τ) (h : m.owner = some t) (hno : ∀ u, m.place u ≠ .asleep) :
      Step m (.signal t none) m
  | stir (w : τ → Bool) : Step m (.stir w) { m with place := stirred w m.place }
  | reenter (t : τ) (h : m.owner = none) (hp : m.place t = .woken) :
      Step m (.reenter t) ⟨some t, Function.update m.place t .outside⟩

/-- An event has one outcome. -/
theorem Step.unique [DecidableEq τ] {m m₁ m₂ : Monitor τ} {e : Event τ} (h₁ : Step m e m₁)
    (h₂ : Step m e m₂) : m₁ = m₂ := by
  cases h₁ <;> cases h₂ <;> rfl

inductive Kind where
  | enter
  | leave
  | sleep
  | signal
  | reenter
  deriving DecidableEq

def Kind.event (k : Kind) (t : τ) (w : Option τ) : Event τ :=
  match k with
  | .enter => .enter t
  | .leave => .leave t
  | .sleep => .sleep t
  | .signal => .signal t w
  | .reenter => .reenter t

def Event.isBy [DecidableEq τ] (k : Kind) (t : τ) : Event τ → Bool
  | .enter u => k == .enter && u == t
  | .leave u => k == .leave && u == t
  | .sleep u => k == .sleep && u == t
  | .signal u _ => k == .signal && u == t
  | .stir _ => false
  | .reenter u => k == .reenter && u == t

end Monitor
