import Mathlib.Algebra.BigOperators.Group.Finset.Basic
import Mathlib.Algebra.Order.BigOperators.Group.Finset
import Mathlib.Data.Finset.Card
import Mathlib.Logic.Relation
import Pgm.Lib.Lts

/-! Values that are propagated along the edges of a finite graph with a set of the places still to
be visited. A visit reads the value of its place once and then goes through the out-edges; where the
value of a successor changes, the successor is to be visited (again). If every change lowers a
potential the loop ends, whatever the order in which places are taken, and at the end every edge from
a place with a value is settled. -/

namespace Worklist

/-- An edge that the visit of `node` has still to look at, with the value it has read. -/
structure Job (κ α ε : Type) where
  node : κ
  read : α
  succ : κ
  edge : ε

structure State (κ α ε : Type) where
  val : κ → Option α
  todo : Finset κ
  left : List (Job κ α ε)

/-- The next thing that the loop does: it takes a place, or looks at the next edge. -/
inductive Act (κ : Type) where
  | take (k : κ)
  | next

variable {κ α ε : Type} [DecidableEq κ] (succs : κ → List (κ × ε))
  (upd : α → ε → Option α → Option α)

def State.visit (st : State κ α ε) (k : κ) (a : α) : State κ α ε :=
  { st with
    todo := st.todo.erase k
    left := (succs k).map (fun p => ⟨k, a, p.1, p.2⟩) }

/-- The value of a successor after an edge, if it changes. -/
def State.change (st : State κ α ε) (s : κ) (left : List (Job κ α ε)) : Option α → State κ α ε
  | none => { st with left := left }
  | some b => ⟨Function.update st.val s (some b), insert s st.todo, left⟩

/-- One step. `upd a e v` is the new value of a place with value `v` to which an edge `e` leads from
a place with value `a`, if it changes. -/
def step (st : State κ α ε) : Act κ → Option (State κ α ε)
  | .take k =>
    if st.left.isEmpty = true ∧ k ∈ st.todo then (st.val k).map (st.visit succs k) else none
  | .next =>
    match st.left with
    | [] => none
    | j :: left => some (st.change j.succ left (upd j.read j.edge (st.val j.succ)))

def State.Done (st : State κ α ε) : Prop := st.left = [] ∧ st.todo = ∅

/-- What the update has to satisfy, on values that are good for their place. A place has at most
`degree` out-edges. -/
structure Rules (V : Finset κ) (degree : Nat) (Good : κ → α → Prop) (Settled : α → ε → α → Prop)
    (potential : κ → Option α → Nat) : Prop where
  closed : ∀ k ∈ V, ∀ p ∈ succs k, p.1 ∈ V
  length_le : ∀ k ∈ V, (succs k).length ≤ degree
  good : ∀ {k a s e o b}, k ∈ V → Good k a → (s, e) ∈ succs k → (∀ v, o = some v → Good s v) →
    upd a e o = some b → Good s b
  lowers : ∀ {k a s e o b}, k ∈ V → Good k a → (s, e) ∈ succs k → (∀ v, o = some v → Good s v) →
    upd a e o = some b → potential s (some b) < potential s o
  settles : ∀ {a e o b}, upd a e o = some b → Settled a e b
  settled : ∀ {a e o}, upd a e o = none → ∃ v, o = some v ∧ Settled a e v
  stays : ∀ {a e v b a' e'}, upd a e (some v) = some b → Settled a' e' v → Settled a' e' b

structure Inv (V : Finset κ) (Good : κ → α → Prop) (Settled : α → ε → α → Prop)
    (st : State κ α ε) : Prop where
  places : ∀ k a, st.val k = some a → k ∈ V ∧ Good k a
  todo : ∀ k ∈ st.todo, ∃ a, st.val k = some a
  left : ∀ j ∈ st.left, j.node ∈ V ∧ Good j.node j.read ∧ (j.succ, j.edge) ∈ succs j.node
  edges : ∀ k a, st.val k = some a → k ∉ st.todo → ∀ p ∈ succs k,
    (∃ v, st.val p.1 = some v ∧ Settled a p.2 v) ∨ ⟨k, a, p.1, p.2⟩ ∈ st.left

def State.measure (V : Finset κ) (degree : Nat) (potential : κ → Option α → Nat)
    (st : State κ α ε) : Nat :=
  (∑ k ∈ V, potential k (st.val k)) * (degree + 2) + st.todo.card * (degree + 1) + st.left.length

variable {succs upd} {V : Finset κ} {degree : Nat} {Good : κ → α → Prop}
  {Settled : α → ε → α → Prop} {potential : κ → Option α → Nat} {st st' : State κ α ε}

theorem step_cases {act : Act κ} (h : step succs upd st act = some st') :
    (∃ k a, act = .take k ∧ st.left = [] ∧ k ∈ st.todo ∧ st.val k = some a ∧
      st' = st.visit succs k a) ∨
    (∃ j left, act = .next ∧ st.left = j :: left ∧
      st' = st.change j.succ left (upd j.read j.edge (st.val j.succ))) := by
  cases act with
  | take k =>
    obtain ⟨⟨hleft, hk⟩, h⟩ := Option.ite_none_right_eq_some.mp h
    obtain ⟨a, ha, rfl⟩ := Option.map_eq_some_iff.mp h
    exact Or.inl ⟨k, a, rfl, List.isEmpty_iff.mp hleft, hk, ha, rfl⟩
  | next =>
    unfold step at h
    cases hleft : st.left with
    | nil => simp [hleft] at h
    | cons j left =>
      simp only [hleft, Option.some.injEq] at h
      exact Or.inr ⟨j, left, rfl, rfl, h.symm⟩

section

variable (hR : Rules succs upd V degree Good Settled potential)
  (hI : Inv succs V Good Settled st)

omit [DecidableEq κ] in
include hI in
theorem Inv.good_of_val {k : κ} (v : α) (h : st.val k = some v) : Good k v := (hI.places k v h).2

include hI in
theorem visit_inv {k : κ} {a : α} (hleft : st.left = []) (ha : st.val k = some a) :
    Inv succs V Good Settled (st.visit succs k a) where
  places := hI.places
  todo k' hk' := hI.todo k' (Finset.mem_of_mem_erase hk')
  left j hj := by
    obtain ⟨p, hp, rfl⟩ := List.mem_map.mp hj
    exact ⟨(hI.places k a ha).1, (hI.places k a ha).2, hp⟩
  edges k' a' ha' hk' p hp := by
    by_cases heq : k' = k
    · subst heq
      obtain rfl := Option.some.inj (ha.symm.trans ha')
      exact Or.inr (List.mem_map.mpr ⟨p, hp, rfl⟩)
    · have hnot : k' ∉ st.todo := fun hmem => hk' (Finset.mem_erase.mpr ⟨heq, hmem⟩)
      rcases hI.edges k' a' ha' hnot p hp with hset | hjob
      · exact Or.inl hset
      · rw [hleft] at hjob
        cases hjob

include hR hI in
/-- An edge is looked at and the value behind it stays. -/
theorem keep_inv {j : Job κ α ε} {left : List (Job κ α ε)} (hleft : st.left = j :: left)
    (hupd : upd j.read j.edge (st.val j.succ) = none) :
    Inv succs V Good Settled (st.change j.succ left none) where
  places := hI.places
  todo := hI.todo
  left i hi := hI.left i (hleft ▸ List.mem_cons_of_mem j hi)
  edges k a ha hk p hp := by
    rcases hI.edges k a ha hk p hp with hset | hjob
    · exact Or.inl hset
    · rw [hleft] at hjob
      rcases List.mem_cons.mp hjob with rfl | hjob
      · exact Or.inl (hR.settled hupd)
      · exact Or.inr hjob

include hR hI in
/-- An edge is looked at and the value behind it changes. Edges that lead there stay settled, and
the place is to be visited. -/
theorem change_inv {j : Job κ α ε} {left : List (Job κ α ε)} {b : α} (hleft : st.left = j :: left)
    (hupd : upd j.read j.edge (st.val j.succ) = some b) :
    Inv succs V Good Settled (st.change j.succ left (some b)) := by
  obtain ⟨hnode, hgood, hedge⟩ := hI.left j (hleft ▸ List.mem_cons_self)
  refine ⟨?_, ?_, ?_, ?_⟩
  · intro k a ha
    by_cases heq : k = j.succ
    · subst heq
      simp only [State.change, Function.update_self, Option.some.injEq] at ha
      subst ha
      exact ⟨hR.closed _ hnode _ hedge, hR.good hnode hgood hedge hI.good_of_val hupd⟩
    · simp only [State.change, Function.update_of_ne heq] at ha
      exact hI.places k a ha
  · intro k hk
    by_cases heq : k = j.succ
    · subst heq
      exact ⟨b, Function.update_self _ _ _⟩
    · simp only [State.change, Function.update_of_ne heq]
      exact hI.todo k ((Finset.mem_insert.mp hk).resolve_left heq)
  · exact fun i hi => hI.left i (hleft ▸ List.mem_cons_of_mem j hi)
  · intro k a ha hk p hp
    obtain ⟨hne, hnot⟩ := not_or.mp (fun h => hk (Finset.mem_insert.mpr h))
    simp only [State.change, Function.update_of_ne hne] at ha
    by_cases heq : p.1 = j.succ
    · -- the successor has a new value, for which the edge is settled if it was before
      simp only [State.change, heq, Function.update_self, Option.some.injEq, exists_eq_left']
      rcases hI.edges k a ha hnot p hp with ⟨v, hv, hset⟩ | hjob
      · rw [← heq, hv] at hupd
        exact Or.inl (hR.stays hupd hset)
      · rw [hleft] at hjob
        rcases List.mem_cons.mp hjob with rfl | hjob
        · exact Or.inl (hR.settles hupd)
        · exact Or.inr (heq ▸ hjob)
    · simp only [State.change, Function.update_of_ne heq]
      rcases hI.edges k a ha hnot p hp with hset | hjob
      · exact Or.inl hset
      · rw [hleft] at hjob
        rcases List.mem_cons.mp hjob with rfl | hjob
        · exact absurd rfl heq
        · exact Or.inr hjob

include hR hI in
/-- **The invariant**, over one step. -/
theorem step_inv {act : Act κ} (h : step succs upd st act = some st') :
    Inv succs V Good Settled st' := by
  rcases step_cases h with ⟨k, a, -, hleft, -, ha, rfl⟩ | ⟨j, left, -, hleft, rfl⟩
  · exact visit_inv hI hleft ha
  · cases hupd : upd j.read j.edge (st.val j.succ) with
    | none => exact keep_inv hR hI hleft hupd
    | some b => exact change_inv hR hI hleft hupd

include hR hI in
theorem sum_change_lt {j : Job κ α ε} {left : List (Job κ α ε)} {b : α} (hleft : st.left = j :: left)
    (hupd : upd j.read j.edge (st.val j.succ) = some b) :
    ∑ k ∈ V, potential k (Function.update st.val j.succ (some b) k) <
      ∑ k ∈ V, potential k (st.val k) := by
  obtain ⟨hnode, hgood, hedge⟩ := hI.left j (hleft ▸ List.mem_cons_self)
  have hlower := hR.lowers hnode hgood hedge hI.good_of_val hupd
  refine Finset.sum_lt_sum (fun k _ => ?_) ⟨j.succ, hR.closed _ hnode _ hedge, ?_⟩
  · by_cases heq : k = j.succ
    · subst heq
      rw [Function.update_self]
      exact hlower.le
    · rw [Function.update_of_ne heq]
  · rw [Function.update_self]
    exact hlower

include hR hI in
/-- **The measure**, over one step. -/
theorem step_measure {act : Act κ} (h : step succs upd st act = some st') :
    st'.measure V degree potential + 1 ≤ st.measure V degree potential := by
  rcases step_cases h with ⟨k, a, -, hleft, hk, ha, rfl⟩ | ⟨j, left, -, hleft, rfl⟩
  · have hlen : (succs k).length ≤ degree := hR.length_le k (hI.places k a ha).1
    have hcard : (st.todo.erase k).card + 1 = st.todo.card := Finset.card_erase_add_one hk
    simp only [State.measure, State.visit, hleft, List.length_map, List.length_nil, ← hcard,
      Nat.add_mul]
    omega
  · cases hupd : upd j.read j.edge (st.val j.succ) with
    | none =>
      simp only [State.measure, State.change, hleft, List.length_cons]
      omega
    | some b =>
      have hsum := sum_change_lt hR hI hleft hupd
      have hcard : (insert j.succ st.todo).card * (degree + 1) ≤
          (st.todo.card + 1) * (degree + 1) :=
        Nat.mul_le_mul_right _ (Finset.card_insert_le j.succ st.todo)
      have hmul : (∑ k ∈ V, potential k (Function.update st.val j.succ (some b) k) + 1) *
          (degree + 2) ≤ (∑ k ∈ V, potential k (st.val k)) * (degree + 2) :=
        Nat.mul_le_mul_right _ hsum
      simp only [State.measure, State.change, hleft, List.length_cons]
      rw [Nat.add_mul] at hcard hmul
      omega

/-- A place keeps having a value. -/
theorem step_val {act : Act κ} (h : step succs upd st act = some st') {k : κ} {a : α}
    (ha : st.val k = some a) : ∃ a', st'.val k = some a' := by
  rcases step_cases h with ⟨-, -, -, -, -, -, rfl⟩ | ⟨j, left, -, -, rfl⟩
  · exact ⟨a, ha⟩
  · cases upd j.read j.edge (st.val j.succ) with
    | none => exact ⟨a, ha⟩
    | some b =>
      by_cases heq : k = j.succ
      · subst heq
        exact ⟨b, Function.update_self _ _ _⟩
      · exact ⟨a, (Function.update_of_ne heq _ _).trans ha⟩

omit [DecidableEq κ] in
include hI in
/-- At the end every edge from a place with a value is settled. -/
theorem Inv.done (hdone : st.Done) {k : κ} {a : α} (ha : st.val k = some a) {p : κ × ε}
    (hp : p ∈ succs k) : ∃ v, st.val p.1 = some v ∧ Settled a p.2 v := by
  obtain ⟨hleft, htodo⟩ := hdone
  rcases hI.edges k a ha (by rw [htodo]; exact Finset.notMem_empty k) p hp with hset | hjob
  · exact hset
  · rw [hleft] at hjob
    cases hjob

omit [DecidableEq κ] in
include hI in
/-- At the end every place that can be reached from one with a value has a value. -/
theorem Inv.done_reached (hdone : st.Done) {k₀ k : κ} {a₀ : α} (h₀ : st.val k₀ = some a₀)
    (hk : Relation.ReflTransGen (fun a b => ∃ e, (b, e) ∈ succs a) k₀ k) :
    ∃ a, st.val k = some a := by
  induction hk with
  | refl => exact ⟨a₀, h₀⟩
  | tail _ hedge ih =>
    obtain ⟨a, ha⟩ := ih
    obtain ⟨e, he⟩ := hedge
    obtain ⟨v, hv, -⟩ := hI.done hdone ha he
    exact ⟨v, hv⟩

end

/-! Another loop that takes these steps as long as its own steps have the property `P`. -/

section

variable {loop : State κ α ε → Act κ → Option (State κ α ε)} {P : State κ α ε → Act κ → Prop}
  (hR : Rules succs upd V degree Good Settled potential)
  (hloop : ∀ st act, Inv succs V Good Settled st → P st act →
    loop st act = step succs upd st act)

include hR hloop in
theorem run_inv {acts : List (Act κ)} (hI : Inv succs V Good Settled st)
    (hr : Lts.run loop st acts = some st') (hm : Lts.Meets loop P st acts) :
    Inv succs V Good Settled st' :=
  Lts.run_inv (fun s act _ hi hp hs => step_inv hR hi ((hloop s act hi hp).symm.trans hs)) hI hr hm

include hR hloop in
/-- **Termination.** A run has at most as many steps as the measure says. -/
theorem run_length_le {acts : List (Act κ)} (hI : Inv succs V Good Settled st)
    (hr : Lts.run loop st acts = some st') (hm : Lts.Meets loop P st acts) :
    acts.length ≤ st.measure V degree potential := by
  have hstep : ∀ s act t, Inv succs V Good Settled s → P s act → loop s act = some t →
      False ∨ (Inv succs V Good Settled t ∧ t.measure V degree potential +
        (if (fun _ : Act κ => true) act then 1 else 0) ≤ s.measure V degree potential) := by
    intro s act t hi hp hs
    rw [hloop s act hi hp] at hs
    exact Or.inr ⟨step_inv hR hi hs, step_measure hR hi hs⟩
  rcases Lts.run_until (Q := fun _ => False) hstep (fun _ _ _ h => h.elim) hI hr hm with h | ⟨-, hle⟩
  · exact h.elim
  · rw [List.countP_true] at hle
    omega

include hR hloop in
theorem run_val {acts : List (Act κ)} (hI : Inv succs V Good Settled st)
    (hr : Lts.run loop st acts = some st') (hm : Lts.Meets loop P st acts) {k : κ} {a : α}
    (ha : st.val k = some a) : ∃ a', st'.val k = some a' := by
  have hstep : ∀ s act t, (Inv succs V Good Settled s ∧ ∃ a, s.val k = some a) → P s act →
      loop s act = some t → Inv succs V Good Settled t ∧ ∃ a, t.val k = some a := by
    rintro s act t ⟨hi, a, ha⟩ hp hs
    rw [hloop s act hi hp] at hs
    exact ⟨step_inv hR hi hs, step_val hs ha⟩
  have hboth := Lts.run_inv (I := fun s => Inv succs V Good Settled s ∧ ∃ a, s.val k = some a)
    hstep ⟨hI, a, ha⟩ hr hm
  exact hboth.2

end

end Worklist
