import Mathlib.Data.List.Basic
import Mathlib.Tactic.Common

/-! Lexical resolution of paths, over components of any type: a component stays, goes up, or
goes down by its own name. The net effect of a sequence of components is a number of steps up
followed by names, and it can be computed without the place where the walk starts. -/

namespace Lexical

inductive Move where
  | stay
  | up
  | down
  deriving DecidableEq

variable {α : Type} (kind : α → Move)

/-- One component, from the directory `r`. Going up from the root stays there. -/
def go (r : List α) (c : α) : List α :=
  match kind c with
  | .stay => r
  | .up => r.dropLast
  | .down => r ++ [c]

def walk (base cs : List α) : List α := cs.foldl (go kind) base

/-- Steps up, then names. -/
structure Net (α : Type) where
  ups : Nat
  downs : List α
  deriving DecidableEq

/-- A step up cancels the name before it, if there is one. -/
def Net.add (n : Net α) (c : α) : Net α :=
  match kind c with
  | .stay => n
  | .up =>
    match n.downs with
    | [] => ⟨n.ups + 1, []⟩
    | d :: ds => ⟨n.ups, (d :: ds).dropLast⟩
  | .down => ⟨n.ups, n.downs ++ [c]⟩

/-- What is left of `cs` when names and the steps up behind them are cancelled. -/
def net (cs : List α) : Net α := cs.foldl (Net.add kind) ⟨0, []⟩

def Net.apply (n : Net α) (base : List α) : List α :=
  base.take (base.length - n.ups) ++ n.downs

variable {kind}

theorem apply_add (n : Net α) (c : α) (base : List α) :
    (n.add kind c).apply base = go kind (n.apply base) c := by
  unfold Net.add go Net.apply
  cases kind c with
  | stay => rfl
  | down => simp
  | up =>
    cases hd : n.downs with
    | nil =>
      simp only [List.append_nil]
      rw [List.dropLast_eq_take, List.take_take, List.length_take]
      congr 1
      omega
    | cons d ds => simp [List.dropLast_append_of_ne_nil]

/-- **The net effect.** A walk is its net effect, wherever it starts. -/
theorem walk_eq (base cs : List α) : walk kind base cs = (net kind cs).apply base := by
  have hgen : ∀ n : Net α,
      cs.foldl (go kind) (n.apply base) = (cs.foldl (Net.add kind) n).apply base := by
    induction cs with
    | nil => exact fun n => rfl
    | cons c cs ih =>
      intro n
      rw [List.foldl_cons, List.foldl_cons, ← apply_add, ih]
  have h := hgen ⟨0, []⟩
  rwa [show Net.apply ⟨0, []⟩ base = base by simp [Net.apply]] at h

theorem walk_append (base as bs : List α) :
    walk kind base (as ++ bs) = walk kind (walk kind base as) bs := List.foldl_append

/-- Names alone go straight down. -/
theorem walk_downs {base cs : List α} (h : ∀ c ∈ cs, kind c = .down) :
    walk kind base cs = base ++ cs := by
  induction cs generalizing base with
  | nil => simp [walk]
  | cons c cs ih =>
    have hc : go kind base c = base ++ [c] := by simp [go, h c List.mem_cons_self]
    change walk kind (go kind base c) cs = _
    rw [hc, ih (fun d hd => h d (List.mem_cons_of_mem c hd)), List.append_assoc]
    rfl

end Lexical
