import Mathlib.Data.Set.Basic
import Pgm.Opening

/-!
# Bringing up socket edges

`sock_stream_open_consumer` connects once, and `sock_stream_open_producer` blocks in `accept`. So the
order of the claims matters: the consumer of a socket edge is to be claimed after its producer
listens, and a producer listens only when it has passed its own in-edges. Every socket edge is taken
to have an address of its own, and every node to be claimed once: a consumer that is released after a
failed claim could be claimed again and connect.

* `early_connect_hangs`: the claim of a consumer that comes too early fails, and the claim of its
  producer never returns;
* `socket_cycle_stays_down`: a cycle of socket edges is never brought up.
-/

namespace Pgm.Opening

open Function (update update_of_ne)
open Tables

def sockAttr : Tables.Attr := ⟨4, 4, 4, pgmEdgeSockStream ||| pgmDataPassing, 0⟩

def sockCircle : GraphRec := circle sockAttr

def sockDir : Dir := ⟨false, fun _ => []⟩

/-- What follows a claim of node 0 in a circle of sockets that found nobody listening. -/
def lateTurns : List Act :=
  [.run 0 .ok, .run 0 .ok, .claim 1, .run 1 .ok, .run 1 .ok, .run 1 .ok]

section

variable {g : GraphRec} {dir : Dir} {s s' : State} {a : Act} {n e : Nat} {ans : Answer}

inductive Pc.Next (ins outs : List Nat) : Pc → Pc → Prop
  | stay (p : Pc) : Next ins outs p p
  | claim : Next ins outs .unclaimed (.inbound 0 false)
  | passIn (i e : Nat) (err err' : Bool) (hi : ins[i]? = some e) (herr : err = true → err' = true) :
      Next ins outs (.inbound i err) (.inbound (i + 1) err')
  | endIn (i : Nat) (err : Bool) (hi : ins[i]? = none) :
      Next ins outs (.inbound i err) (.outbound 0 err)
  | passOut (p : Pc) (i : Nat) (err err' : Bool) (hp : p = .outbound i err ∨ p = .accept i err)
      (herr : err = true → err' = true) : Next ins outs p (.outbound (i + 1) err')
  | listens (i : Nat) (err : Bool) : Next ins outs (.outbound i err) (.accept i err)
  | endOut (i : Nat) (err : Bool) : Next ins outs (.outbound i err) (.returned err)

theorem next_goto {p : Pc} {t : State} {m : Nat}
    (h : Pc.Next (g.nodes m).ins (g.nodes m).outs (t.pc m) p) :
    Pc.Next (g.nodes n).ins (g.nodes n).outs (t.pc n) ((t.goto m p).pc n) := by
  by_cases hn : n = m
  · subst hn
    rwa [goto_pc_self]
  · rw [goto_pc_of_ne _ _ hn]
    exact .stay _

theorem Move.next (hm : Move g dir s a s') :
    Pc.Next (g.nodes n).ins (g.nodes n).outs (s.pc n) (s'.pc n) := by
  cases hm with
  | claim m hn hpc => exact next_goto (hpc ▸ .claim)
  | openIn m i e err ans ops hpc hi =>
    exact next_goto (t := { s with reader := _ }) (hpc ▸ .passIn i e err err hi id)
  | failIn m i e err ans ops hpc hi => exact next_goto (hpc ▸ .passIn i e err true hi (fun _ => rfl))
  | endIn m i err ans hpc hi => exact next_goto (hpc ▸ .endIn i err hi)
  | openOut m i e err ans ops hpc hi =>
    exact next_goto (t := { s with writer := _ }) (.passOut _ i err err (Or.inl hpc) id)
  | failOut m i e err ans ops hpc hi =>
    exact next_goto (.passOut _ i err true (Or.inl hpc) (fun _ => rfl))
  | again m i e err ans ops hpc hi => exact .stay _
  | listens m i e err ans ops hpc hi =>
    exact next_goto (t := { s with listening := _ }) (hpc ▸ .listens i err)
  | accepts m i e err ans hpc hi =>
    exact next_goto (t := { s with writer := _ }) (.passOut _ i err err (Or.inr hpc) id)
  | failAccept m i e err hpc hi =>
    exact next_goto (.passOut _ i err true (Or.inr hpc) (fun _ => rfl))
  | endOut m i err ans hpc hi => exact next_goto (hpc ▸ .endOut i err)

theorem Pc.Next.pastIn {ins outs : List Nat} {p p' : Pc} (h : Pc.Next ins outs p p')
    (hp : p.pastIn = true) : p'.pastIn = true := by
  cases h with
  | stay => exact hp
  | claim | passIn | endIn => cases hp
  | passOut | listens | endOut => rfl

theorem Pc.Next.err {ins outs : List Nat} {p p' : Pc} (h : Pc.Next ins outs p p')
    (hp : p.err = true) : p'.err = true := by
  cases h with
  | stay | endIn | listens | endOut => exact hp
  | claim => cases hp
  | passIn i e err err' hi herr => exact herr hp
  | passOut _ i err err' hpc herr =>
    rcases hpc with rfl | rfl <;> exact herr hp

theorem Pc.Next.passedIn {ins outs : List Nat} {p p' : Pc} (h : Pc.Next ins outs p p')
    (hp : e ∈ p.passedIn ins) : e ∈ p'.passedIn ins := by
  cases h with
  | stay | listens | endOut => exact hp
  | claim => cases hp
  | passIn i x err err' hi herr => exact (Scan.mem_take_succ hi).mpr (Or.inl hp)
  | endIn => exact List.mem_of_mem_take hp
  | passOut _ i err err' hpc herr => rcases hpc with rfl | rfl <;> exact hp

/-- The step with which a claim leaves its in-edges. -/
theorem Pc.Next.endIn_of_pastIn {ins outs : List Nat} {p p' : Pc} (h : Pc.Next ins outs p p')
    (hp : p.pastIn = false) (hp' : p'.pastIn = true) :
    ∃ i err, p = .inbound i err ∧ ins[i]? = none ∧ p' = .outbound 0 err := by
  cases h with
  | stay =>
    rw [hp] at hp'
    cases hp'
  | claim | passIn => cases hp'
  | endIn i err hi => exact ⟨i, err, rfl, hi, rfl⟩
  | passOut _ i err err' hpc => rcases hpc with rfl | rfl <;> cases hp
  | listens | endOut => cases hp

/-- A consumer's end is opened by the claim that has come to it. -/
theorem Move.reader (hm : Move g dir s a s') (h : s'.reader e = true) : s.reader e = true ∨
    ∃ m i err ans ops, s.pc m = .inbound i err ∧ (g.nodes m).ins[i]? = some e ∧
      (g.edges e).ops = some ops ∧ openConsumer dir s e ans ops = true := by
  cases hm with
  | openIn m i x err ans ops hpc hi hops ho =>
    by_cases hx : e = x
    · subst hx
      exact Or.inr ⟨m, i, err, ans, ops, hpc, hi, hops, ho⟩
    · left
      simpa [State.goto, update_of_ne hx] using h
  | _ => exact Or.inl h

/-- A socket listens from when the claim of the producer has come to it. -/
theorem Move.listening (hm : Move g dir s a s') (h : s'.listening e = true) :
    s.listening e = true ∨
      ∃ m i err, s.pc m = .outbound i err ∧ (g.nodes m).outs[i]? = some e := by
  cases hm with
  | listens m i x err ans ops hpc hi hops ho =>
    by_cases hx : e = x
    · subst hx
      exact Or.inr ⟨m, i, err, hpc, hi⟩
    · left
      simpa [State.goto, update_of_ne hx] using h
  | _ => exact Or.inl h

theorem passedOut_goto {t : State} {m : Nat} {p : Pc} (h : e ∈ (t.goto m p).passedOut g n) :
    e ∈ t.passedOut g n ∨ n = m ∧ e ∈ p.passedOut (g.nodes n).outs := by
  unfold State.passedOut at h
  by_cases hn : n = m
  · subst hn
    rw [goto_pc_self] at h
    exact Or.inr ⟨rfl, h⟩
  · rw [goto_pc_of_ne _ _ hn] at h
    exact Or.inl h

/-- The claim of node `m` has passed one more out-edge. -/
theorem passedOut_succ {t : State} {m i x : Nat} {err err' : Bool}
    (hpc : t.pc m = .outbound i err ∨ t.pc m = .accept i err) (hat : (g.nodes m).outs[i]? = some x)
    (h : e ∈ (t.goto m (.outbound (i + 1) err')).passedOut g n) :
    e ∈ t.passedOut g n ∨ n = m ∧ e = x := by
  rcases passedOut_goto h with hold | ⟨rfl, hnew⟩
  · exact Or.inl hold
  · refine ((Scan.mem_take_succ hat).mp hnew).imp (fun hin => ?_) (fun heq => ⟨rfl, heq⟩)
    rcases hpc with hpc | hpc <;> simpa [State.passedOut, hpc, Pc.passedOut] using hin

/-- Unless a call fails, the claim of the producer passes a socket only when the consumer has
connected. -/
theorem Move.passedOut (hm : Move g dir s a s') (hops : (g.edges e).ops = some .sockStream)
    (ha : a ≠ .run n .fail) (h : e ∈ s'.passedOut g n) :
    e ∈ s.passedOut g n ∨ s.reader e = true := by
  cases hm with
  | claim m hn hpc =>
    rcases passedOut_goto h with hold | ⟨-, ⟨⟩⟩
    exact Or.inl hold
  | openIn m i x err ans ops hpc hat hops' ho =>
    rcases passedOut_goto h with hold | ⟨-, ⟨⟩⟩
    exact Or.inl hold
  | failIn m i x err ans ops hpc hat hops' ho =>
    rcases passedOut_goto h with hold | ⟨-, ⟨⟩⟩
    exact Or.inl hold
  | endIn m i err ans hpc hat =>
    rcases passedOut_goto h with hold | ⟨-, ⟨⟩⟩
    exact Or.inl hold
  | openOut m i x err ans ops hpc hat hops' ho =>
    rcases passedOut_succ (t := { s with writer := _ }) (Or.inl hpc) hat h with hold | ⟨rfl, rfl⟩
    · exact Or.inl hold
    · rw [hops, Option.some.injEq] at hops'
      subst hops'
      exact Or.inr (readEnd_of_opened ho (Or.inr rfl))
  | failOut m i x err ans ops hpc hat hops' ho =>
    rcases passedOut_succ (Or.inl hpc) hat h with hold | ⟨rfl, rfl⟩
    · exact Or.inl hold
    · -- a socket fails only because a call does
      rw [hops, Option.some.injEq] at hops'
      subst hops'
      have hans : ans ≠ .fail := by
        rintro rfl
        exact ha rfl
      simp [openProducer, hans] at ho
  | again => exact Or.inl h
  | listens m i x err ans ops hpc hat hops' ho =>
    rcases passedOut_goto (t := { s with listening := _ }) h with hold | ⟨rfl, hnew⟩
    · exact Or.inl hold
    · left
      simpa [State.passedOut, hpc, Pc.passedOut] using hnew
  | accepts m i x err ans hpc hat hans hr =>
    rcases passedOut_succ (t := { s with writer := _ }) (Or.inr hpc) hat h with hold | ⟨-, rfl⟩
    · exact Or.inl hold
    · exact Or.inr hr
  | failAccept m i x err hpc hat =>
    rcases passedOut_succ (Or.inr hpc) hat h with hold | ⟨rfl, -⟩
    · exact Or.inl hold
    · exact absurd rfl ha
  | endOut m i err ans hpc hat =>
    rcases passedOut_goto h with hold | ⟨rfl, hnew⟩
    · exact Or.inl hold
    · left
      simpa [State.passedOut, hpc, Pc.passedOut, Scan.take_of_end hat] using hnew

theorem update_true {f : Nat → Bool} {x : Nat} (h : f e = true) : update f x true e = true := by
  by_cases hx : e = x
  · subst hx
    exact Function.update_self _ _ _
  · rwa [update_of_ne hx]

/-- No end that is open is closed. -/
theorem Move.reader_mono (hm : Move g dir s a s') (h : s.reader e = true) :
    s'.reader e = true := by
  cases hm with
  | openIn => exact update_true h
  | _ => exact h

theorem Move.listening_mono (hm : Move g dir s a s') (h : s.listening e = true) :
    s'.listening e = true := by
  cases hm with
  | listens => exact update_true h
  | _ => exact h

variable (hg : Represents g)
include hg

/-- The end of an edge that the consumer's claim could not open stays closed. -/
theorem step_reader_false {c : Nat} (hi : Inv g dir s) (hpassed : e ∈ s.passedIn g c)
    (hr : s.reader e = false) (h : step g dir s a = some s') : s'.reader e = false := by
  by_contra hopen
  rcases (step_move h).reader (by simpa using hopen) with hold | ⟨m, i, err, ans, ops, hpc, hat, -⟩
  · rw [hr] at hold
    cases hold
  · have hm : m < g.nrNodes := hi.lt (by simp [hpc])
    have hc := ((mem_ins hg hm).mp (List.mem_of_getElem? hat)).2
    rw [← hi.consumer hg hpassed, hc] at hpassed
    simp only [State.passedIn, hpc, Pc.passedIn] at hpassed
    exact Scan.not_mem_take (ins_nodup hg hm) hat hpassed

/-- **A failed connect.** Let the claim of the consumer of a socket edge come to the edge before the
producer listens, and let no node be released. Then no continuation without failing calls in the
producer's claim brings that claim to its end: it waits in `accept` for good. The claim of the
consumer can only return -1. -/
theorem early_connect_hangs {c p i : Nat} {err : Bool} {as : List Act} {t : State}
    (hops : (g.edges e).ops = some .sockStream) (hp : (g.edges e).producer = p)
    (h : Lts.Reach (step g dir) (fun _ a => a ≠ .run p .fail) start s)
    (hpc : s.pc c = .inbound i err) (hat : (g.nodes c).ins[i]? = some e)
    (hearly : s.listening e = false) (hs : step g dir s (.run c ans) = some s')
    (hr : Lts.run (step g dir) s' as = some t)
    (hm : Lts.Meets (step g dir) (fun _ a => a ≠ .run p .fail) s' as) :
    (t.pc p).isReturned = false ∧ (t.pc c).err = true := by
  have hi := inv_of_reach hg h
  have hc : c < g.nrNodes := hi.lt (by simp [hpc])
  have he := ((mem_ins hg hc).mp (List.mem_of_getElem? hat)).1
  -- the producer's claim cannot have passed an edge that nobody has connected
  have hpassed : e ∈ s.passedOut g p → s.reader e = true := by
    refine Lts.Reach.inv (I := fun s => e ∈ s.passedOut g p → s.reader e = true)
      (by rintro ⟨⟩) ?_ h
    intro s a t _ hi ha hs hin
    refine (step_move hs).reader_mono ?_
    exact ((step_move hs).passedOut hops ha hin).elim hi id
  have hread : s.reader e = false := hi.not_read hg hpc hat
  have hnot : e ∉ s.passedOut g p := by
    intro hin
    rw [hpassed hin] at hread
    cases hread
  -- the connect fails
  have hstep : s' = s.goto c (.inbound (i + 1) true) := by
    have hclosed : openConsumer dir s e ans .sockStream = false := by simp [openConsumer, hearly]
    simp only [step, claimStep, hpc, hat, hops, hclosed, Option.map_some, Bool.false_eq_true,
      if_false, Option.some.injEq] at hs
    exact hs.symm
  have hi' := step_inv hg hi hs
  have hkeep : Inv g dir t ∧ e ∈ t.passedIn g c ∧ t.reader e = false ∧ e ∉ t.passedOut g p := by
    refine Lts.run_inv (I := fun t => Inv g dir t ∧ e ∈ t.passedIn g c ∧ t.reader e = false ∧
      e ∉ t.passedOut g p) ?_ ⟨hi', ?_, ?_, ?_⟩ hr hm
    · rintro s a t ⟨hi, hin, hread, hnot⟩ ha hs
      refine ⟨step_inv hg hi hs, (step_move hs).next.passedIn hin,
        step_reader_false hg hi hin hread hs, ?_⟩
      intro hnew
      rcases (step_move hs).passedOut hops ha hnew with hold | hopen
      · exact hnot hold
      · rw [hread] at hopen
        cases hopen
    · rw [hstep, State.passedIn, goto_pc_self]
      exact (Scan.mem_take_succ hat).mpr (Or.inr rfl)
    · rw [hstep]
      exact hread
    · rw [hstep]
      intro hnew
      rcases passedOut_goto hnew with hold | ⟨-, ⟨⟩⟩
      exact hnot hold
  obtain ⟨hit, hin, hread', hnot'⟩ := hkeep
  refine ⟨?_, ?_⟩
  · have hmem : e ∈ (g.nodes p).outs :=
      (mem_outs hg (hp ▸ (hg.attrs e he).2.2.2.1)).mpr ⟨he, hp⟩
    cases hpct : t.pc p with
    | returned err => exact absurd (by simpa [State.passedOut, hpct, Pc.passedOut] using hmem) hnot'
    | _ => rfl
  · by_contra hno
    have hall := ((hit.err c).mp (by simpa using hno)).1 e hin
    rw [hread'] at hall
    cases hall

omit hg in
/-- Node 0 is claimed first, and node 1 is the one that hangs. -/
theorem circle_hangs : ∃ s s' t,
    Lts.Reach (step sockCircle sockDir) (fun _ a => a ≠ .run 1 .fail) start s ∧
    step sockCircle sockDir s (.run 0 .ok) = some s' ∧
    Lts.run (step sockCircle sockDir) s' lateTurns = some t ∧
    (t.pc 1).isReturned = false ∧ (t.pc 0).err = true := by
  have hd : ((Lts.drive (step sockCircle sockDir) (fun _ a => decide (a ≠ .run 1 .fail)) start
      [.claim 0]).bind (fun s => (step sockCircle sockDir s (.run 0 .ok)).bind
        (fun s' => (Lts.drive (step sockCircle sockDir) (fun _ a => decide (a ≠ .run 1 .fail)) s'
          lateTurns).map (fun _ => (s.pc 0, s.listening 1))))) =
      some (.inbound 0 false, false) := by decide +kernel
  obtain ⟨s, hs, hd⟩ := Option.bind_eq_some_iff.mp hd
  obtain ⟨s', hs', hd⟩ := Option.bind_eq_some_iff.mp hd
  obtain ⟨t, ht, hobs⟩ := Option.map_eq_some_iff.mp hd
  obtain ⟨hpc, hearly⟩ := Prod.mk.inj hobs
  have hp : ∀ (s : State) (a : Act), decide (a ≠ .run 1 .fail) = true → a ≠ .run 1 .fail :=
    fun _ _ h => of_decide_eq_true h
  have hreach := Lts.reach_of_drive hp hs
  have ht' := Lts.run_of_drive hp ht
  refine ⟨s, s', t, hreach, hs', ht'.1, ?_⟩
  exact early_connect_hangs (circle_represents _) (e := 1) (by decide +kernel) (by decide +kernel)
    hreach hpc (by decide +kernel) hearly hs' ht'.1 ht'.2

/-- A socket that is connected has listened, and one that listens belongs to a producer whose claim
has passed its in-edges. -/
structure SockInv (g : GraphRec) (s : State) : Prop where
  reader : ∀ e, (g.edges e).ops = some .sockStream → s.reader e = true → s.listening e = true
  listening : ∀ e, s.listening e = true → (s.pc (g.edges e).producer).pastIn = true

theorem step_sockInv (hi : Inv g dir s) (hs : SockInv g s) (h : step g dir s a = some s') :
    SockInv g s' := by
  have hm := step_move h
  refine ⟨?_, ?_⟩
  · intro e hops hr
    rcases hm.reader hr with hold | ⟨m, i, err, ans, ops, hpc, hat, hops', ho⟩
    · exact hm.listening_mono (hs.reader e hops hold)
    · rw [hops, Option.some.injEq] at hops'
      subst hops'
      have hlisten : s.listening e = true := (Bool.and_eq_true_iff.mp ho).2
      exact hm.listening_mono hlisten
  · intro e hl
    refine hm.next.pastIn ?_
    rcases hm.listening hl with hold | ⟨m, i, err, hpc, hat⟩
    · exact hs.listening e hold
    · have hmn : m < g.nrNodes := hi.lt (by simp [hpc])
      rw [((mem_outs hg hmn).mp (List.mem_of_getElem? hat)).2, hpc]
      rfl

omit hg in
/-- A claim that leaves its in-edges while the producer of one of them, a socket, has not left its own
has failed to connect. -/
theorem err_of_early (hi : Inv g dir s) (hsock : SockInv g s) (hs : step g dir s a = some s')
    (hbefore : (s.pc n).pastIn = false) (hpast : (s'.pc n).pastIn = true)
    (hin : e ∈ (g.nodes n).ins) (hops : (g.edges e).ops = some .sockStream)
    (hprod : (s.pc (g.edges e).producer).pastIn = false) : (s'.pc n).err = true := by
  obtain ⟨i, err, hpc, hend, hpc'⟩ := (step_move hs).next.endIn_of_pastIn hbefore hpast
  rw [hpc']
  change err = true
  by_contra hno
  have herr : (s.pc n).err = false := by
    rw [hpc]
    exact Bool.eq_false_iff.mpr hno
  have hpassed : e ∈ s.passedIn g n := by
    simpa [State.passedIn, hpc, Pc.passedIn, Scan.take_of_end hend] using hin
  have hopen := ((hi.err n).mp herr).1 e hpassed
  rw [hsock.listening e (hsock.reader e hops hopen)] at hprod
  cases hprod

/-- **Cycles of sockets.** Let every node of `C` have a socket among its in-edges whose producer is in
`C` as well, as in a directed cycle of socket edges. Whatever the order of the claims and whatever
fails, never have all claims of nodes of `C` returned 0: the first one to pass its in-edges found
nobody listening. -/
theorem socket_cycle_stays_down {P : State → Act → Prop} {C : Set Nat} (hC : C.Nonempty)
    (hcycle : ∀ n ∈ C, ∃ e ∈ (g.nodes n).ins, (g.edges e).ops = some .sockStream ∧
      (g.edges e).producer ∈ C)
    (h : Lts.Reach (step g dir) P start s) : ∃ n ∈ C, s.pc n ≠ .returned false := by
  have hinv : (Inv g dir s ∧ SockInv g s) ∧
      ((∀ n ∈ C, (s.pc n).pastIn = false) ∨ ∃ n ∈ C, (s.pc n).err = true) := by
    refine Lts.Reach.inv (I := fun s => (Inv g dir s ∧ SockInv g s) ∧
      ((∀ n ∈ C, (s.pc n).pastIn = false) ∨ ∃ n ∈ C, (s.pc n).err = true)) ?_ ?_ h
    · exact ⟨⟨start_inv g dir, ⟨by rintro _ _ ⟨⟩, by rintro _ ⟨⟩⟩⟩, Or.inl (fun _ _ => rfl)⟩
    · rintro s a t - ⟨⟨hi, hsock⟩, hfirst⟩ - hs
      refine ⟨⟨step_inv hg hi hs, step_sockInv hg hi hsock hs⟩, ?_⟩
      rcases hfirst with hnone | ⟨n, hn, herr⟩
      · by_cases hstill : ∀ n ∈ C, (t.pc n).pastIn = false
        · exact Or.inl hstill
        push Not at hstill
        obtain ⟨n, hn, hpast⟩ := hstill
        obtain ⟨e, hin, hops, hprod⟩ := hcycle n hn
        exact Or.inr ⟨n, hn, err_of_early hi hsock hs (hnone n hn) (by simpa using hpast) hin hops
          (hnone _ hprod)⟩
      · exact Or.inr ⟨n, hn, (step_move hs).next.err herr⟩
  rcases hinv.2 with hnone | ⟨n, hn, herr⟩
  · obtain ⟨n, hn⟩ := hC
    refine ⟨n, hn, fun hpc => ?_⟩
    have hpast := hnone n hn
    rw [hpc] at hpast
    cases hpast
  · refine ⟨n, hn, fun hpc => ?_⟩
    rw [hpc] at herr
    cases herr

end

/-- Both claims, one after the other. -/
theorem circle_stays_down : ∃ s,
    Lts.Reach (step sockCircle sockDir) (fun _ _ => True) start s ∧
    s.pc 0 = .accept 0 true ∧ ∃ n ∈ ({0, 1} : Set Nat), s.pc n ≠ .returned false := by
  have hd : (Lts.drive (step sockCircle sockDir) (fun _ _ => true) start
      (.claim 0 :: .run 0 .ok :: lateTurns)).map (fun s => s.pc 0) = some (.accept 0 true) := by
    decide +kernel
  obtain ⟨s, hs, hpc⟩ := Lts.reach_of_drive_map (P := fun _ _ => True) (fun _ _ _ => trivial) hd
  refine ⟨s, hs, hpc, socket_cycle_stays_down (circle_represents _) ⟨0, Or.inl rfl⟩ ?_ hs⟩
  rintro n (rfl | rfl)
  · exact ⟨1, by decide +kernel, by decide +kernel, Or.inr (show _ = 1 by decide +kernel)⟩
  · exact ⟨0, by decide +kernel, by decide +kernel, Or.inl (by decide +kernel)⟩

end Pgm.Opening
