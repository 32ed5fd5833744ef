import Pgm.Machine

/-! Everything a step can do, said once: one constructor for each transition of
`pgm_wait`, of `pgm_produce` and of a thread. The invariants of a running graph are
proved from these lists. -/

namespace Pgm

open Function (update)

/-- The transitions of `pgm_wait` for node `n`. -/
inductive WaitMove (g : Graph) (s : State) (n : Nat) (ans : Answer) : WaitPc → Effect → Pc → Prop
  | start (h : g.nrInSignaled n ≠ 0) : WaitMove g s n ans .start .skip (.wait (.scan false 0 0 0))
  | startData (h : g.nrInSignaled n = 0) :
      WaitMove g s n ans .start .skip (.wait (.tokensDone .exhaustedAndTerminate))
  | read (l : Bool) (i r rn e : Nat) (hi : (g.inEdges n)[i]? = some e) :
      WaitMove g s n ans (.scan l i r rn) .skip
        (.wait (.scan l (i + 1) (if readyEdge g s e then r + 1 else r)
          (if readyEdge g s e && !(g.edge e).isBackedge then rn + 1 else rn)))
  | allReady (l : Bool) (i r rn : Nat) (hi : (g.inEdges n)[i]? = none)
      (hr : r = g.nrInSignaled n) :
      WaitMove g s n ans (.scan l i r rn) .skip (.wait (granted l .success))
  | someReady (l : Bool) (i r rn : Nat) (hi : (g.inEdges n)[i]? = none)
      (hr : r ≠ g.nrInSignaled n) (hn : rn ≠ 0) :
      WaitMove g s n ans (.scan l i r rn) .skip (.wait (mustWait l))
  | noneReady (l : Bool) (i r rn : Nat) (hi : (g.inEdges n)[i]? = none)
      (hr : r ≠ g.nrInSignaled n) (hn : rn = 0) :
      WaitMove g s n ans (.scan l i r rn) .skip (.wait (.termNonzero l))
  | someTerm (l : Bool) (h : s.nrTerminateSignals n ≠ 0) :
      WaitMove g s n ans (.termNonzero l) .skip (.wait (.termAll l))
  | noTerm (l : Bool) (h : s.nrTerminateSignals n = 0) :
      WaitMove g s n ans (.termNonzero l) .skip (.wait (mustWait l))
  | allTerm (l : Bool) (h : s.nrTerminateSignals n = g.nrInSignaledForward n) :
      WaitMove g s n ans (.termAll l) .skip (.wait (granted l .exhaustedAndTerminate))
  | notAllTerm (l : Bool) (h : s.nrTerminateSignals n ≠ g.nrInSignaledForward n) :
      WaitMove g s n ans (.termAll l) .skip (.wait (mustWait l))
  | lock (h : s.lock n = none) :
      WaitMove g s n ans .lock (.acquire n) (.wait (.scan true 0 0 0))
  | relock (h : s.lock n = none) :
      WaitMove g s n ans .woken (.acquire n) (.wait (.scan true 0 0 0))
  | cvWait : WaitMove g s n ans .cvWait (.release n) (.wait .asleep)
  | unlock (st : WaitStatus) : WaitMove g s n ans (.unlock st) (.release n) (.wait (.tokensDone st))
  | noData (tok : WaitStatus) (h : g.nrInData n = 0) :
      WaitMove g s n ans (.tokensDone tok) .skip (.wait (.dataDone tok .exhaustedAndTerminate))
  | recvStart (tok : WaitStatus) (r : Recv) (h : g.nrInData n ≠ 0)
      (hr : recvStart g n s.nrSkips s.data = .more r) :
      WaitMove g s n ans (.tokensDone tok) .skip (.wait (.recv tok r))
  | recvNone (tok st : WaitStatus) (h : g.nrInData n ≠ 0)
      (hr : recvStart g n s.nrSkips s.data = .done st) :
      WaitMove g s n ans (.tokensDone tok) .skip (.wait (.dataDone tok st))
  | recv (tok : WaitStatus) (r r' : Recv) (d : Data)
      (h : recvStep g n s.nrSkips s.data r ans = some (d, .more r')) :
      WaitMove g s n ans (.recv tok r) (.data d) (.wait (.recv tok r'))
  | recvDone (tok st : WaitStatus) (r : Recv) (d : Data)
      (h : recvStep g n s.nrSkips s.data r ans = some (d, .done st)) :
      WaitMove g s n ans (.recv tok r) (.data d) (.wait (.dataDone tok st))
  | toConsume (tok dat : WaitStatus) (h : g.nrInSignaled n ≠ 0)
      (hr : waitRet tok dat ≠ .terminate) :
      WaitMove g s n ans (.dataDone tok dat) .skip (.wait (.consume (waitRet tok dat) 0))
  | toSkips (tok dat : WaitStatus)
      (h : ¬ (g.nrInSignaled n ≠ 0 ∧ waitRet tok dat ≠ .terminate)) :
      WaitMove g s n ans (.dataDone tok dat) .skip (.wait (.skips (waitRet tok dat) 0))
  | consume (ret : WaitRet) (i e : Nat) (hi : (g.inEdges n)[i]? = some e)
      (h : (g.edge e).isSignalDriven = true ∧ s.nrSkips e = 0) :
      WaitMove g s n ans (.consume ret i) (.subTokens e) (.wait (.consume ret (i + 1)))
  | consumePass (ret : WaitRet) (i e : Nat) (hi : (g.inEdges n)[i]? = some e)
      (h : ¬ ((g.edge e).isSignalDriven = true ∧ s.nrSkips e = 0)) :
      WaitMove g s n ans (.consume ret i) .skip (.wait (.consume ret (i + 1)))
  | consumed (ret : WaitRet) (i : Nat) (hi : (g.inEdges n)[i]? = none) :
      WaitMove g s n ans (.consume ret i) .skip (.wait (.skips ret 0))
  | skip (ret : WaitRet) (i e : Nat) (hi : (g.inEdges n)[i]? = some e) (h : 0 < s.nrSkips e) :
      WaitMove g s n ans (.skips ret i) (.decSkips e) (.wait (.skips ret (i + 1)))
  | skipPass (ret : WaitRet) (i e : Nat) (hi : (g.inEdges n)[i]? = some e)
      (h : s.nrSkips e = 0) :
      WaitMove g s n ans (.skips ret i) .skip (.wait (.skips ret (i + 1)))
  | terminate (i : Nat) (hi : (g.inEdges n)[i]? = none) :
      WaitMove g s n ans (.skips .terminate i) (.terminate n)
        (.prod n .terminate true false (.send 0 []))
  | fire (i : Nat) (hi : (g.inEdges n)[i]? = none) :
      WaitMove g s n ans (.skips .ok i) (.fire n) (.idle (some .ok))
  | fail (i : Nat) (hi : (g.inEdges n)[i]? = none) :
      WaitMove g s n ans (.skips .error i) .skip (.idle (some .error))

/-- The transitions of `pgm_produce(n, cmd)`. -/
inductive ProdMove (g : Graph) (s : State) (n : Nat) (cmd : Command) (inWait err : Bool)
    (ans : Answer) : ProdPc → Effect → Pc → Prop
  | sent (i : Nat) (tw : List Nat) (hi : (g.outEdges n)[i]? = none) :
      ProdMove g s n cmd inWait err ans (.send i tw) .skip (.prod n cmd inWait err (.wake tw))
  | backedge (i e : Nat) (tw : List Nat) (hi : (g.outEdges n)[i]? = some e)
      (hc : cmd = .terminate) (hb : (g.edge e).isBackedge = true) :
      ProdMove g s n cmd inWait err ans (.send i tw) .skip (.prod n cmd inWait err (.send (i + 1) tw))
  | cvEdge (i e : Nat) (tw : List Nat) (hi : (g.outEdges n)[i]? = some e)
      (hb : cmd = .terminate → (g.edge e).isBackedge = false)
      (hd : (g.edge e).isDataPassing = false) :
      ProdMove g s n cmd inWait err ans (.send i tw) .skip (.prod n cmd inWait err (.tokens i e tw))
  | ring (i e : Nat) (tw : List Nat) (x : List UInt8) (hi : (g.outEdges n)[i]? = some e)
      (hc : cmd = .normal) (hd : (g.edge e).attr.type.isRing = true)
      (hx : x.length = (g.edge e).attr.nrProduce) :
      ProdMove g s n cmd inWait err ans (.send i tw) .skip
        (.prod n cmd inWait err (.ringWrite i e x tw))
  | ringCmd (i e : Nat) (tw : List Nat) (hi : (g.outEdges n)[i]? = some e)
      (hc : cmd = .terminate) (hb : (g.edge e).isBackedge = false)
      (hd : (g.edge e).attr.type.isRing = true) :
      ProdMove g s n cmd inWait err ans (.send i tw)
        (.data { s.data with ringCmd := update s.data.ringCmd e pgmTerminate })
        (.prod n cmd inWait err (.tokens i e tw))
  | message (i e : Nat) (tw : List Nat) (x : List UInt8) (hi : (g.outEdges n)[i]? = some e)
      (hc : cmd = .normal) (hd : (g.edge e).isDataPassing = true)
      (hr : (g.edge e).attr.type.isRing = false) (hx : x.length = (g.edge e).attr.nrProduce) :
      ProdMove g s n cmd inWait err ans (.send i tw) .skip
        (.prod n cmd inWait err (.write i e (stdMessage pgmNormal x) tw))
  | lastMessage (i e : Nat) (tw : List Nat) (hi : (g.outEdges n)[i]? = some e)
      (hc : cmd = .terminate) (hb : (g.edge e).isBackedge = false)
      (hd : (g.edge e).isDataPassing = true) (hr : (g.edge e).attr.type.isRing = false) :
      ProdMove g s n cmd inWait err ans (.send i tw) .skip
        (.prod n cmd inWait err (.write i e (stdMessage pgmTerminate []) tw))
  | write (i e : Nat) (buf buf' : List UInt8) (tw : List Nat) (d : Data)
      (h : sendStdStep g s.data e buf ans = some (d, .more buf')) :
      ProdMove g s n cmd inWait err ans (.write i e buf tw) (.data d)
        (.prod n cmd inWait err (.write i e buf' tw))
  | written (i e : Nat) (buf : List UInt8) (tw : List Nat) (d : Data) (ok : Bool)
      (h : sendStdStep g s.data e buf ans = some (d, .done ok)) :
      ProdMove g s n cmd inWait err ans (.write i e buf tw) (.data d)
        (.prod n cmd inWait (err || !ok) (afterData g i e tw))
  | ringWrite (i e : Nat) (x : List UInt8) (tw : List Nat)
      (h : (s.data.queue e).length < RingBuf.ringCount (g.edge e).attr.nmemb) :
      ProdMove g s n cmd inWait err ans (.ringWrite i e x tw)
        (.data { s.data with queue := update s.data.queue e (s.data.queue e ++ [x]) })
        (.prod n cmd inWait err (.tokens i e tw))
  | tokens (i e : Nat) (tw : List Nat) (hc : cmd = .normal) :
      ProdMove g s n cmd inWait err ans (.tokens i e tw) (.addTokens e)
        (.prod n cmd inWait err
          (.send (i + 1) (if crosses g s e then tw ++ [(g.edge e).consumer] else tw)))
  | termSignal (i e : Nat) (tw : List Nat) (hc : cmd = .terminate) :
      ProdMove g s n cmd inWait err ans (.tokens i e tw) (.addTerminate e)
        (.prod n cmd inWait err (.send (i + 1) (tw ++ [(g.edge e).consumer])))
  | done : ProdMove g s n cmd inWait err ans (.wake []) .skip
      (.idle (if inWait then some .terminate else none))
  | lock (c : Nat) (cs : List Nat) (h : s.lock c = none) (hc : cmd = .normal) :
      ProdMove g s n cmd inWait err ans (.wake (c :: cs)) (.acquire c)
        (.prod n cmd inWait err (.recheck c 0 0 cs))
  | lockTerm (c : Nat) (cs : List Nat) (h : s.lock c = none) (hc : cmd = .terminate) :
      ProdMove g s n cmd inWait err ans (.wake (c :: cs)) (.acquire c)
        (.prod n cmd inWait err (.signal c cs))
  | recheck (c i r e : Nat) (cs : List Nat) (hi : (g.inEdges c)[i]? = some e) :
      ProdMove g s n cmd inWait err ans (.recheck c i r cs) .skip
        (.prod n cmd inWait err (.recheck c (i + 1) (if readyEdge g s e then r + 1 else r) cs))
  | recheckAll (c i r : Nat) (cs : List Nat) (hi : (g.inEdges c)[i]? = none)
      (hr : r = g.nrInSignaled c) :
      ProdMove g s n cmd inWait err ans (.recheck c i r cs) .skip
        (.prod n cmd inWait err (.signal c cs))
  | recheckShort (c i r : Nat) (cs : List Nat) (hi : (g.inEdges c)[i]? = none)
      (hr : r ≠ g.nrInSignaled c) :
      ProdMove g s n cmd inWait err ans (.recheck c i r cs) .skip
        (.prod n cmd inWait err (.unlock c cs))
  | signal (c : Nat) (cs : List Nat) :
      ProdMove g s n cmd inWait err ans (.signal c cs) (.signal c)
        (.prod n cmd inWait err (.unlock c cs))
  | unlock (c : Nat) (cs : List Nat) :
      ProdMove g s n cmd inWait err ans (.unlock c cs) (.release c)
        (.prod n cmd inWait err (.wake cs))

/-- The transitions of thread `t`. -/
inductive Move (g : Graph) (s : State) : Act → Effect → Pc → Prop
  | callWait (n : Nat) (last : Option WaitRet) (hpc : s.pc n = .idle last) :
      Move g s (.wait n) .skip (.wait .start)
  | callComplete (t n : Nat) (last : Option WaitRet) (hpc : s.pc t = .idle last) :
      Move g s (.complete t n) .skip (.prod n .normal false false (.send 0 []))
  | callTerminate (t n : Nat) (last : Option WaitRet) (hpc : s.pc t = .idle last) :
      Move g s (.terminate t n) (.terminate n) (.prod n .terminate false false (.send 0 []))
  | wait (t : Nat) (ans : Answer) (w : WaitPc) (eff : Effect) (p : Pc) (hpc : s.pc t = .wait w)
      (hm : WaitMove g s t ans w eff p) :
      Move g s (.run t ans) eff p
  | prod (t n : Nat) (ans : Answer) (cmd : Command) (inWait err : Bool) (q : ProdPc) (eff : Effect)
      (p : Pc) (hpc : s.pc t = .prod n cmd inWait err q)
      (hm : ProdMove g s n cmd inWait err ans q eff p) :
      Move g s (.run t ans) eff p
  | spurious (t : Nat) (hpc : s.pc t = .wait .asleep) :
      Move g s (.spurious t) .skip (.wait .woken)

section

variable {g : Graph} {s s' : State} {n : Nat} {ans : Answer} {eff : Effect} {p : Pc}

theorem scanned_move {l : Bool} {i r rn : Nat} (hi : (g.inEdges n)[i]? = none) :
    WaitMove g s n ans (.scan l i r rn) .skip (.wait (scanned g n l r rn)) := by
  unfold scanned
  split_ifs with hr hn
  · exact .allReady l i r rn hi hr
  · exact .noneReady l i r rn hi hr hn
  · exact .someReady l i r rn hi hr hn

theorem waitReturn_move {ret : WaitRet} {i : Nat} (hi : (g.inEdges n)[i]? = none) :
    WaitMove g s n ans (.skips ret i) (waitReturn n ret).1 (waitReturn n ret).2 := by
  cases ret with
  | ok => exact .fire i hi
  | terminate => exact .terminate i hi
  | error => exact .fail i hi

theorem waitStep_move {w : WaitPc} (h : waitStep g s n ans w = some (eff, p)) :
    WaitMove g s n ans w eff p := by
  cases w with
  | start =>
    simp only [waitStep] at h
    split_ifs at h with hz <;> cases h
    · exact .startData hz
    · exact .start hz
  | scan l i r rn =>
    simp only [waitStep] at h
    split at h
    · rename_i e hi
      cases h
      exact .read l i r rn e hi
    · rename_i hi
      cases h
      exact scanned_move hi
  | termNonzero l =>
    simp only [waitStep] at h
    split_ifs at h with hz <;> cases h
    · exact .noTerm l hz
    · exact .someTerm l hz
  | termAll l =>
    simp only [waitStep] at h
    split_ifs at h with hz <;> cases h
    · exact .allTerm l hz
    · exact .notAllTerm l hz
  | lock =>
    simp only [waitStep] at h
    split_ifs at h with hl
    cases h
    exact .lock hl
  | cvWait =>
    cases h
    exact .cvWait
  | asleep => cases h
  | woken =>
    simp only [waitStep] at h
    split_ifs at h with hl
    cases h
    exact .relock hl
  | unlock st =>
    cases h
    exact .unlock st
  | tokensDone tok =>
    simp only [waitStep] at h
    split_ifs at h with hz
    · cases h
      exact .noData tok hz
    · split at h
      · cases h
        exact .recvStart tok _ hz ‹_›
      · cases h
        exact .recvNone tok _ hz ‹_›
  | recv tok r =>
    simp only [waitStep] at h
    split at h
    · cases h
      exact .recv tok r _ _ ‹_›
    · cases h
      exact .recvDone tok _ r _ ‹_›
    · cases h
  | dataDone tok dat =>
    simp only [waitStep] at h
    split_ifs at h with hz <;> cases h
    · exact .toConsume tok dat hz.1 hz.2
    · exact .toSkips tok dat hz
  | consume ret i =>
    simp only [waitStep, Bool.and_eq_true, decide_eq_true_eq] at h
    split at h
    · rename_i e hi
      split_ifs at h with hz <;> cases h
      · exact .consume ret i e hi hz
      · exact .consumePass ret i e hi hz
    · cases h
      exact .consumed ret i ‹_›
  | skips ret i =>
    simp only [waitStep] at h
    split at h
    · rename_i e hi
      split_ifs at h with hz <;> cases h
      · exact .skip ret i e hi hz
      · exact .skipPass ret i e hi (Nat.eq_zero_of_not_pos hz)
    · rename_i hi
      rw [Option.some.injEq] at h
      have hret : WaitMove g s n ans (.skips ret i) (waitReturn n ret).1 (waitReturn n ret).2 :=
        waitReturn_move hi
      rwa [h] at hret

theorem sendEdge_move {cmd : Command} {inWait err : Bool} {i e : Nat} {tw : List Nat}
    {q : ProdPc} (hi : (g.outEdges n)[i]? = some e)
    (h : sendEdge g s.data cmd i e tw ans = some (eff, q)) :
    ProdMove g s n cmd inWait err ans (.send i tw) eff (.prod n cmd inWait err q) := by
  unfold sendEdge at h
  by_cases hb : cmd = .terminate ∧ (g.edge e).isBackedge
  · rw [if_pos hb] at h
    cases h
    exact .backedge i e tw hi hb.1 hb.2
  · have hb' : cmd = .terminate → (g.edge e).isBackedge = false :=
      fun hc => Bool.eq_false_iff.mpr (fun h => hb ⟨hc, h⟩)
    rw [if_neg hb] at h
    by_cases hd : (g.edge e).isDataPassing
    · rw [if_pos hd] at h
      cases cmd with
      | normal =>
        simp only [sendNormal] at h
        split at h
        · rename_i x
          split_ifs at h with hx hr
          · cases h
            exact .ring i e tw x hi rfl hr hx
          · cases h
            exact .message i e tw x hi rfl hd (Bool.eq_false_iff.mpr hr) hx
        · cases h
      | terminate =>
        simp only [sendTerminate] at h
        split_ifs at h with hr
        · cases h
          exact .ringCmd i e tw hi rfl (hb' rfl) hr
        · cases h
          exact .lastMessage i e tw hi rfl (hb' rfl) hd (Bool.eq_false_iff.mpr hr)
    · rw [if_neg hd] at h
      cases h
      exact .cvEdge i e tw hi hb' (Bool.eq_false_iff.mpr hd)

theorem prodStep_move {cmd : Command} {inWait err : Bool} {q : ProdPc}
    (h : prodStep g s n cmd inWait err ans q = some (eff, p)) :
    ProdMove g s n cmd inWait err ans q eff p := by
  cases q with
  | send i tw =>
    simp only [prodStep] at h
    split at h
    · rename_i e hi
      obtain ⟨⟨eff', q⟩, hsend, hx⟩ := Option.map_eq_some_iff.mp h
      cases hx
      exact sendEdge_move hi hsend
    · cases h
      exact .sent i tw ‹_›
  | write i e buf tw =>
    simp only [prodStep] at h
    split at h
    · cases h
      exact .write i e buf _ tw _ ‹_›
    · cases h
      exact .written i e buf tw _ _ ‹_›
    · cases h
  | ringWrite i e x tw =>
    simp only [prodStep] at h
    split_ifs at h with hq
    cases h
    exact .ringWrite i e x tw hq
  | tokens i e tw =>
    cases cmd with
    | normal =>
      cases h
      exact .tokens i e tw rfl
    | terminate =>
      cases h
      exact .termSignal i e tw rfl
  | wake todo =>
    cases todo with
    | nil =>
      cases h
      exact .done
    | cons c cs =>
      simp only [prodStep] at h
      split_ifs at h with hl hc
      · cases h
        exact .lockTerm c cs hl hc
      · cases h
        refine .lock c cs hl ?_
        cases cmd with
        | normal => rfl
        | terminate => exact absurd rfl hc
  | recheck c i r cs =>
    simp only [prodStep] at h
    split at h
    · cases h
      exact .recheck c i r _ cs ‹_›
    · split_ifs at h with hr <;> cases h
      · exact .recheckAll c i r cs ‹_› hr
      · exact .recheckShort c i r cs ‹_› hr
  | signal c cs =>
    cases h
    exact .signal c cs
  | unlock c cs =>
    cases h
    exact .unlock c cs

theorem ProdMove.not_wait {m : Nat} {cmd : Command} {w err : Bool} {ans : Answer} {q : ProdPc}
    (hm : ProdMove g s m cmd w err ans q eff p) (v : WaitPc) : p ≠ .wait v := by
  cases hm <;> simp

theorem actStep_move {a : Act} (h : actStep g s a = some (eff, p)) : Move g s a eff p := by
  cases a with
  | wait n =>
    simp only [actStep] at h
    split at h
    · cases h
      exact .callWait n _ ‹_›
    · cases h
  | complete t n =>
    simp only [actStep] at h
    split at h
    · cases h
      exact .callComplete t n _ ‹_›
    · cases h
  | terminate t n =>
    simp only [actStep] at h
    split at h
    · cases h
      exact .callTerminate t n _ ‹_›
    · cases h
  | run t ans =>
    simp only [actStep, threadStep] at h
    split at h
    · cases h
    · exact .wait t ans _ eff p ‹_› (waitStep_move h)
    · exact .prod t _ ans _ _ _ _ eff p ‹_› (prodStep_move h)
  | spurious t =>
    simp only [actStep] at h
    split at h
    · cases h
      exact .spurious t ‹_›
    · cases h

/-- **One step.** -/
theorem step_move {a : Act} (h : step g s a = some s') :
    ∃ eff p, Move g s a eff p ∧ s' = (s.apply g a.thread eff).setPc a.thread p := by
  obtain ⟨⟨eff, p⟩, hact, rfl⟩ := Option.map_eq_some_iff.mp h
  exact ⟨eff, p, actStep_move hact, rfl⟩

end

end Pgm
