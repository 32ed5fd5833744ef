import Mathlib.Data.List.GetD
import Mathlib.Data.List.Infix
import Mathlib.Logic.Function.Basic
import Mathlib.Logic.Relation
import Mathlib.Tactic.Common

/-! Networks of processes with channels between them. A process does one job after another. A job
takes one message from each channel that the process reads, except that the first few jobs leave some
channels alone, and for each job the process puts one message on each of its own channels. A source
has no jobs and puts messages at any time.

* `Reach.fed`: whatever is put, each job was given the messages whose turn it was;
* `agree`: when a message is a function of all that its process has been given so far, then whatever
  the order of the steps, message number `k` of a channel and what job number `k` of a process is
  given are the same in all runs that get that far. -/

/-- Processes `ν`, channels `ι` and messages `M`. `init` stands for the message of a channel that a
job leaves alone, `other` for that of a channel that its process does not read. -/
structure Kahn (ν ι M : Type) where
  source : ν → Prop
  reads : ν → ι → Bool
  producer : ι → ν
  skips : ι → Nat
  init : ι → M
  other : M

namespace Kahn

/-- What was put on the channels, and what the jobs were given. -/
structure State (ν ι M : Type) where
  sent : ι → List M
  jobs : ν → List (ι → M)

def start {ν ι M : Type} : State ν ι M := ⟨fun _ => [], fun _ => []⟩

def Agree {α : Type} (l l' : List α) : Prop :=
  ∀ (k : Nat) (x x' : α), l[k]? = some x → l'[k]? = some x' → x = x'

/-! ## Lists that agree -/

section Lists

variable {α : Type} {l l' : List α} {x y : α} {k : Nat}

theorem getElem?_snoc (h : (l ++ [x])[k]? = some y) : l[k]? = some y ∨ k = l.length ∧ y = x := by
  rcases Nat.lt_trichotomy k l.length with hlt | rfl | hgt
  · rw [List.getElem?_append_left hlt] at h
    exact Or.inl h
  · rw [List.getElem?_concat_length] at h
    exact Or.inr ⟨rfl, (Option.some.inj h).symm⟩
  · rw [List.getElem?_eq_none (by rw [List.length_append, List.length_singleton]; omega)] at h
    cases h

theorem Agree.symm (h : Agree l l') : Agree l' l := by
  intro k x x' hx hx'
  exact (h k x' x hx' hx).symm

theorem Agree.take (h : Agree l l') (n : Nat) : Agree (l.take n) (l'.take n) := by
  intro k x x' hx hx'
  rw [List.getElem?_take] at hx hx'
  split_ifs at hx hx'
  exact h k x x' hx hx'

theorem Agree.eq (h : Agree l l') (hlen : l.length = l'.length) : l = l' := by
  apply List.ext_getElem hlen
  intro k hk hk'
  exact h k _ _ (List.getElem?_eq_getElem hk) (List.getElem?_eq_getElem hk')

/-- One more element on the left agrees if it is the element on the right. -/
theorem Agree.snoc (h : Agree l l') (hx : ∀ x', l'[l.length]? = some x' → x = x') :
    Agree (l ++ [x]) l' := by
  intro k y y' hy hy'
  rcases getElem?_snoc hy with hold | ⟨rfl, rfl⟩
  · exact h k y y' hold hy'
  · exact hx y' hy'

theorem Agree.isPrefix (h : Agree l l') (hle : l.length ≤ l'.length) : l <+: l' := by
  rw [List.prefix_iff_eq_take]
  apply Agree.eq
  · have htake := h.take l.length
    rwa [List.take_length] at htake
  · rw [List.length_take]
    omega

/-- One of two lists that agree is the beginning of the other. -/
theorem Agree.total (h : Agree l l') : l <+: l' ∨ l' <+: l := by
  rcases Nat.le_total l.length l'.length with hle | hle
  · exact Or.inl (h.isPrefix hle)
  · exact Or.inr (h.symm.isPrefix hle)

end Lists

/-! ## Runs -/

variable {ν ι M : Type}

/-- What a channel holds for job number `k` of its reader. -/
def view (K : Kahn ν ι M) (sent : ι → List M) (e : ι) (k : Nat) : M :=
  if k < K.skips e then K.init e else (sent e).getD (k - K.skips e) (K.init e)

def given (K : Kahn ν ι M) (sent : ι → List M) (n : ν) (k : Nat) : ι → M :=
  fun e => if K.reads n e then K.view sent e k else K.other

/-- The message for the next job on channel `e`. `prog e k js` is message number `k` of the channel,
when its process was given `js` up to and with that job. -/
def next (K : Kahn ν ι M) (prog : ι → Nat → List (ι → M) → M) (s : State ν ι M) (e : ι) : M :=
  prog e (s.sent e).length ((s.jobs (K.producer e)).take ((s.sent e).length + 1))

/-- A step. `P s e x` says that message `x` may be put on channel `e`. -/
inductive Step [DecidableEq ν] [DecidableEq ι] (K : Kahn ν ι M) (P : State ν ι M → ι → M → Prop) :
    State ν ι M → State ν ι M → Prop
  | job (s : State ν ι M) (n : ν) (hn : ¬ K.source n)
      (h : ∀ e, K.reads n e = true → (s.jobs n).length < K.skips e + (s.sent e).length) :
      Step K P s { s with
        jobs := Function.update s.jobs n (s.jobs n ++ [K.given s.sent n (s.jobs n).length]) }
  | put (s : State ν ι M) (e : ι) (x : M)
      (h : ¬ K.source (K.producer e) → (s.sent e).length < (s.jobs (K.producer e)).length)
      (hx : P s e x) :
      Step K P s { s with sent := Function.update s.sent e (s.sent e ++ [x]) }

def Reach [DecidableEq ν] [DecidableEq ι] (K : Kahn ν ι M) (P : State ν ι M → ι → M → Prop)
    (s : State ν ι M) : Prop :=
  Relation.ReflTransGen (K.Step P) start s

/-- Every job was given the messages whose turn it was, and no message is put before its job. -/
structure Fed (K : Kahn ν ι M) (s : State ν ι M) : Prop where
  jobs : ∀ n (k : Nat) js, (s.jobs n)[k]? = some js → js = K.given s.sent n k ∧
    ∀ e, K.reads n e = true → k < K.skips e + (s.sent e).length
  order : ∀ e, ¬ K.source (K.producer e) → (s.sent e).length ≤ (s.jobs (K.producer e)).length
  source : ∀ n, K.source n → s.jobs n = []

/-- Every message is the one its process computes from what its jobs were given. -/
def Computed (K : Kahn ν ι M) (prog : ι → Nat → List (ι → M) → M) (s : State ν ι M) : Prop :=
  ∀ e (k : Nat) x, (s.sent e)[k]? = some x → x = prog e k ((s.jobs (K.producer e)).take (k + 1))

variable {K : Kahn ν ι M} {P : State ν ι M → ι → M → Prop} {prog : ι → Nat → List (ι → M) → M}
  {s s' t : State ν ι M} {n : ν} {e : ι} {k : Nat}

/-- What a job is given depends on the messages whose turn it is. -/
theorem given_congr {sent sent' : ι → List M}
    (h : ∀ e, K.reads n e = true → K.skips e ≤ k →
      (sent e)[k - K.skips e]? = (sent' e)[k - K.skips e]?) :
    K.given sent n k = K.given sent' n k := by
  funext e
  unfold given view
  split_ifs with hr hk
  · rfl
  · rw [List.getD_eq_getElem?_getD, List.getD_eq_getElem?_getD, h e hr (Nat.le_of_not_lt hk)]
  · rfl

theorem Fed.job [DecidableEq ν] (hi : Fed K s) (hn : ¬ K.source n)
    (h : ∀ e, K.reads n e = true → (s.jobs n).length < K.skips e + (s.sent e).length) :
    Fed K { s with
      jobs := Function.update s.jobs n (s.jobs n ++ [K.given s.sent n (s.jobs n).length]) } := by
  refine ⟨fun m k js hjs => ?_, fun e hsrc => ?_, fun m hm => ?_⟩
  · by_cases hm : m = n
    · subst hm
      simp only [Function.update_self] at hjs
      rcases getElem?_snoc hjs with hold | ⟨rfl, rfl⟩
      · exact hi.jobs m k js hold
      · exact ⟨rfl, h⟩
    · simp only [Function.update_of_ne hm] at hjs
      exact hi.jobs m k js hjs
  · have hold := hi.order e hsrc
    by_cases hp : K.producer e = n
    · simp only [hp, Function.update_self, List.length_append] at hold ⊢
      exact Nat.le_add_right_of_le hold
    · simp only [Function.update_of_ne hp]
      exact hold
  · have hne : m ≠ n := by
      rintro rfl
      exact hn hm
    simp only [Function.update_of_ne hne]
    exact hi.source m hm

theorem Fed.put [DecidableEq ι] {x : M} (hi : Fed K s)
    (h : ¬ K.source (K.producer e) → (s.sent e).length < (s.jobs (K.producer e)).length) :
    Fed K { s with sent := Function.update s.sent e (s.sent e ++ [x]) } := by
  refine ⟨fun m k js hjs => ?_, fun e' hsrc => ?_, hi.source⟩
  · obtain ⟨hgiven, hlt⟩ := hi.jobs m k js hjs
    have hlen : ∀ e', (s.sent e').length ≤
        (Function.update s.sent e (s.sent e ++ [x]) e').length := by
      intro e'
      by_cases he : e' = e
      · subst he
        simp
      · rw [Function.update_of_ne he]
    refine ⟨?_, fun e' hr => (hlt e' hr).trans_le (Nat.add_le_add_left (hlen e') _)⟩
    rw [hgiven]
    apply given_congr
    intro e' hr hk
    dsimp only
    by_cases he : e' = e
    · subst he
      have := hlt e' hr
      rw [Function.update_self, List.getElem?_append_left (by omega)]
    · rw [Function.update_of_ne he]
  · by_cases he : e' = e
    · subst he
      simp only [Function.update_self, List.length_append, List.length_singleton]
      exact h hsrc
    · simp only [Function.update_of_ne he]
      exact hi.order e' hsrc

variable [DecidableEq ν] [DecidableEq ι]

theorem Reach.fed (h : K.Reach P s) : Fed K s := by
  induction h with
  | refl => exact ⟨by rintro _ _ _ ⟨⟩, fun _ _ => Nat.le_refl _, fun _ _ => rfl⟩
  | tail _ hs ih =>
    cases hs with
    | job n hn h => exact ih.job hn h
    | put e x h hx => exact ih.put h

/-- **One step of a computed run.** -/
theorem step_computed (hf : Fed K s) (hi : Computed K prog s)
    (h : K.Step (fun s e x => x = K.next prog s e) s s') : Computed K prog s' := by
  intro e' k y hy
  cases h with
  | job n hn h =>
    have hold := hi e' k y hy
    have hk : k < (s.sent e').length := (List.getElem?_eq_some_iff.mp hy).1
    by_cases hp : K.producer e' = n
    · have horder := hf.order e' (hp ▸ hn)
      simp only [hp, Function.update_self] at hold horder ⊢
      rw [List.take_append_of_le_length (by omega)]
      exact hold
    · simp only [Function.update_of_ne hp]
      exact hold
  | put e x h hx =>
    by_cases he : e' = e
    · subst he
      simp only [Function.update_self] at hy
      rcases getElem?_snoc hy with hold | ⟨rfl, rfl⟩
      · exact hi e' k y hold
      · exact hx
    · simp only [Function.update_of_ne he] at hy
      exact hi e' k y hy

theorem Reach.computed (h : K.Reach (fun s e x => x = K.next prog s e) s) :
    Computed K prog s := by
  induction h with
  | refl => rintro _ _ _ ⟨⟩
  | tail hr hs ih => exact step_computed (Reach.fed hr) ih hs

/-! ## Two runs -/

/-- **One step of the first run.** The second run may be anywhere. -/
theorem step_agree (hs : Fed K s) (ht : Fed K t) (hc : Computed K prog t)
    (h : K.Step (fun s e x => x = K.next prog s e) s s')
    (hsent : ∀ e, Agree (s.sent e) (t.sent e)) (hjobs : ∀ n, Agree (s.jobs n) (t.jobs n)) :
    (∀ e, Agree (s'.sent e) (t.sent e)) ∧ ∀ n, Agree (s'.jobs n) (t.jobs n) := by
  cases h with
  | job n hn h =>
    refine ⟨hsent, fun m => ?_⟩
    by_cases hm : m = n
    · subst hm
      simp only [Function.update_self]
      apply (hjobs m).snoc
      intro js hjs
      obtain ⟨rfl, hlt⟩ := ht.jobs m _ js hjs
      apply given_congr
      intro e hr hk
      -- both runs have put the message that this job takes
      have hs' := h e hr
      have ht' := hlt e hr
      rw [List.getElem?_eq_getElem (by omega), List.getElem?_eq_getElem (by omega)]
      congr 1
      exact hsent e _ _ _ (List.getElem?_eq_getElem (by omega))
        (List.getElem?_eq_getElem (by omega))
    · simp only [Function.update_of_ne hm]
      exact hjobs m
  | put e x h hx =>
    refine ⟨fun e' => ?_, hjobs⟩
    by_cases he : e' = e
    · subst he
      simp only [Function.update_self]
      apply (hsent e').snoc
      intro y hy
      rw [hx, hc e' _ y hy]
      unfold next
      congr 1
      -- the process had been given the same
      apply ((hjobs (K.producer e')).take _).eq
      by_cases hsrc : K.source (K.producer e')
      · rw [hs.source _ hsrc, ht.source _ hsrc]
      · have hs' := h hsrc
        have ht' := ht.order e' hsrc
        obtain ⟨hk, -⟩ := List.getElem?_eq_some_iff.mp hy
        rw [List.length_take, List.length_take]
        omega
    · simp only [Function.update_of_ne he]
      exact hsent e'

/-- **Determinism.** -/
theorem agree (hs : K.Reach (fun s e x => x = K.next prog s e) s)
    (ht : K.Reach (fun s e x => x = K.next prog s e) t) :
    (∀ e, Agree (s.sent e) (t.sent e)) ∧ ∀ n, Agree (s.jobs n) (t.jobs n) := by
  have hfed := Reach.fed ht
  have hcomp := Reach.computed ht
  induction hs with
  | refl => exact ⟨by rintro _ _ _ _ ⟨⟩, by rintro _ _ _ _ ⟨⟩⟩
  | tail hr hstep ih =>
    obtain ⟨hsent, hjobs⟩ := ih
    exact step_agree (Reach.fed hr) hfed hcomp hstep hsent hjobs

end Kahn
