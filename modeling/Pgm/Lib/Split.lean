import Mathlib.Data.List.Basic
import Mathlib.Tactic.Common

/-! Cutting a list at separators. -/

namespace Split

variable {α : Type} {s : List α}

/-- Cutting at two kinds of separators is cutting at one kind and then every piece at the other. -/
theorem splitOnP_or (p q : α → Bool) (s : List α) :
    s.splitOnP (fun b => p b || q b) = (s.splitOnP p).flatMap (fun t => t.splitOnP q) := by
  induction s with
  | nil => simp
  | cons b s ih =>
    obtain ⟨t, ts, hts⟩ := List.exists_cons_of_ne_nil (List.splitOnP_ne_nil p s)
    rw [hts] at ih
    rw [List.splitOnP_cons_eq_if_modifyHead, List.splitOnP_cons_eq_if_modifyHead, ih, hts]
    cases hp : p b with
    | true => simp
    | false =>
      cases hq : q b with
      | true => simp [List.splitOnP_cons_eq_if_modifyHead, hq]
      | false =>
        obtain ⟨u, us, hus⟩ := List.exists_cons_of_ne_nil (List.splitOnP_ne_nil q t)
        simp [List.splitOnP_cons_eq_if_modifyHead, hq, hus]

/-- Joining brings in nothing but the separator. -/
theorem notMem_intercalate {x y : α} {ls : List (List α)} (hne : y ≠ x) (h : ∀ l ∈ ls, y ∉ l) :
    y ∉ [x].intercalate ls := by
  induction ls with
  | nil => simp
  | cons l ls ih =>
    obtain ⟨hl, hls⟩ := List.forall_mem_cons.mp h
    cases ls with
    | nil => simpa using hl
    | cons m ms =>
      have htail := ih hls
      rw [List.intercalate] at htail ⊢
      simpa [List.intersperse, hl, hne] using htail

variable [BEq α] [LawfulBEq α] {x : α}

/-- A list that is not cut. -/
theorem eq_of_splitOn_singleton {t : List α} (h : s.splitOn x = [t]) : t = s := by
  have hjoin : [x].intercalate (s.splitOn x) = s := List.intercalate_splitOn x
  rw [h] at hjoin
  simpa using hjoin

theorem splitOn_of_notMem (h : x ∉ s) : s.splitOn x = [s] := by
  have hone : ([x].intercalate [s]).splitOn x = [s] :=
    List.splitOn_intercalate x (by simpa using h) (by simp)
  simpa using hone

end Split
