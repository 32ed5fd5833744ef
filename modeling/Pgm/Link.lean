import Pgm.Lib.Lts
import Pgm.Send
import Pgm.Stream

/-! One producer and one consumer joined by a byte stream. The producer sends
messages with `pgm_send_std_data`; the consumer calls `pgm_recv_data` again and
again. Writes and reads are split and interleaved at will. Seen from outside the
link is a pipe of payload bytes that the calls cut into pieces of `nr_consume`
bytes. -/

namespace Pgm

open Function (update)

/-- The two parties. `toSend` and `stop` are the messages not yet begun, `rest` is what
`pgm_send_std_data` has still to write, and `got` collects the consumer's buffer
after each call that filled it. Between two calls `call` is the last one. -/
structure Link where
  toSend : List (List UInt8)
  stop : Bool
  rest : List UInt8
  call : Call
  got : List (List UInt8)

inductive LinkAct where
  | send (ans : Answer)
  | recv (ans : Answer)

def LinkAct.answer : LinkAct → Answer
  | .send ans | .recv ans => ans

def LinkAct.Soft (a : LinkAct) : Prop :=
  a.answer ≠ .eof ∧ a.answer ≠ .failed ∧ a.answer ≠ .selectError

instance (a : LinkAct) : Decidable a.Soft := inferInstanceAs (Decidable (_ ∧ _ ∧ _))

def senderStep (g : Graph) (e : Nat) (l : Link) (ans : Answer) : Option Link :=
  match l.rest, l.toSend with
  | [], m :: ms => some { l with toSend := ms, rest := stdMessage pgmNormal m }
  | [], [] =>
    if l.stop then some { l with stop := false, rest := stdMessage pgmTerminate [] } else none
  | b :: bs, _ =>
    (sendStdStep g l.call.data e (b :: bs) ans).map fun x =>
      { l with call := { l.call with data := x.1 }, rest := x.2.rest }

def Link.after (l : Link) (e : Nat) (c : Call) : Link :=
  { l with
    call := c
    got := if c.ret = some .success then l.got ++ [c.data.bufIn e] else l.got }

def receiverStep (g : Graph) (n : Nat) (skips : Nat → Nat) (e : Nat) (l : Link) (ans : Answer) :
    Option Link :=
  match l.call.ret with
  | some _ => some { l with call := callStart g n skips l.call.data }
  | none =>
    (callStep g n skips l.call ans).map (l.after e)

def linkStep (g : Graph) (n : Nat) (skips : Nat → Nat) (e : Nat) (l : Link) : LinkAct → Option Link
  | .send ans => senderStep g e l ans
  | .recv ans => receiverStep g n skips e l ans

def linkStart (d : Data) (msgs : List (List UInt8)) (t : Bool) : Link :=
  ⟨msgs, t, [], ⟨d, Recv.unset, some .success⟩, []⟩

def Link.unsent (l : Link) : List UInt8 :=
  l.rest ++ (Framing.encode pgmNormal l.toSend ++ if l.stop then [pgmTerminate] else [])

/-- Edge `e` is the only data-passing in-edge of node `n`, a forward edge over a byte
stream. -/
structure SoleStream (g : Graph) (n : Nat) (e : Nat) : Prop where
  mem : e ∈ g.inEdges n
  stream : (g.edge e).attr.type.isStream = true
  forward : (g.edge e).isBackedge = false
  only : ∀ e' ∈ g.inEdges n, (g.edge e').isDataPassing = true → e' = e

/-- The edge as `__pgm_init_edge` leaves it. -/
structure FreshStream (g : Graph) (n : Nat) (e : Nat) (d : Data) : Prop where
  empty : d.stream e = []
  boundary : d.nextTag e = 0
  count : d.nrTerminateMsgs n = 0
  size : (d.bufIn e).length = (g.edge e).attr.nrConsume

theorem isDataPassing_of_isStream {t : EdgeType} (h : t.isStream = true) :
    t.isDataPassing = true := by
  cases t <;> first | rfl | cases h

section

variable {g : Graph} {n e : Nat} {skips : Nat → Nat}

theorem SoleStream.dataPassing (h : SoleStream g n e) : (g.edge e).isDataPassing = true :=
  isDataPassing_of_isStream h.stream

theorem SoleStream.std (h : SoleStream g n e) : StdNode g n := by
  intro e' he' hdp
  rw [h.only e' he' hdp]
  exact h.stream

theorem SoleStream.active (h : SoleStream g n e) {j e' : Nat} (ha : Active g n skips j e') :
    e' = e := h.only e' ha.mem ha.2.1

/-- The node waits for one terminate message. -/
theorem SoleStream.nrInDataForward (h : SoleStream g n e) : g.nrInDataForward n = 1 := by
  rw [g.nrInDataForward_eq, Graph.nrInWith]
  have hcongr : (g.inEdges n).countP (fun i => (g.edge i).isDataPassing && !(g.edge i).isBackedge) =
      (g.inEdges n).countP (fun i => i == e) := by
    apply List.countP_congr
    intro i hi
    simp only [Bool.and_eq_true, Bool.not_eq_true', beq_iff_eq]
    constructor
    · rintro ⟨hdp, -⟩
      exact h.only i hi hdp
    · rintro rfl
      exact ⟨h.dataPassing, h.forward⟩
  rw [hcongr]
  exact List.count_eq_one_of_mem (g.inEdges_nodup n) h.mem

/-- The terminate test of a call, by the number of terminate messages read. -/
theorem SoleStream.recvOut_eq (h : SoleStream g n e) (d : Data) (st : WaitStatus) :
    recvOut g n d st = if d.nrTerminateMsgs n = 1 then .exhaustedAndTerminate else st := by
  unfold recvOut
  rw [h.nrInDataForward]
  by_cases h1 : d.nrTerminateMsgs n = 1
  · simp [h1]
  · simp [h1]

/-- What the calls so far have left in the consumer's buffer of the payload in hand: what
the running call has read, or nothing between two calls. -/
def Link.pending (l : Link) (j e : Nat) : List UInt8 :=
  match l.call.ret with
  | some _ => []
  | none =>
    if j < l.call.pos then (l.call.view e).bufIn
    else (l.call.view e).bufIn.take (l.call.view e).dest

structure Link.Live (g : Graph) (n e j : Nat) (msgs : List (List UInt8)) (t : Bool) (l : Link) :
    Prop where
  count : l.call.data.nrTerminateMsgs n = 0
  framed : edgeFramed g t l.call.data e l.unsent
  payload : msgs.flatten = l.got.flatten ++ (l.pending j e ++ edgeRest g l.call.data e l.unsent)
  ret : l.call.ret = none ∨ l.call.ret = some .success

structure Link.Stopped (g : Graph) (n e : Nat) (msgs : List (List UInt8)) (t : Bool) (l : Link) :
    Prop where
  count : l.call.data.nrTerminateMsgs n = 1
  stop : t = true
  empty : l.call.data.stream e = []
  unsent : l.unsent = []
  payload : ∃ left : List UInt8, msgs.flatten = l.got.flatten ++ left ∧
    left.length < (g.edge e).attr.nrConsume
  ret : l.call.ret = none ∨ l.call.ret = some .exhaustedAndTerminate

structure Link.Inv (g : Graph) (n e j : Nat) (skips : Nat → Nat) (msgs : List (List UInt8))
    (t : Bool) (l : Link) : Prop where
  placed : Placed g n skips l.call.loc.pc
  noError : l.call.loc.pc ≠ .select true
  short : (l.call.view e).dest < (g.edge e).attr.nrConsume
  size : (l.call.view e).bufIn.length = (g.edge e).attr.nrConsume
  pieces : ∀ b ∈ l.got, b.length = (g.edge e).attr.nrConsume
  phase : l.Live g n e j msgs t ∨ l.Stopped g n e msgs t

/-- A step of the sender moves the boundary between the stream and what is unsent. -/
theorem senderStep_effect {l l' : Link} {ans : Answer} (hs : (g.edge e).attr.type.isStream)
    (hfail : ans ≠ .failed) (h : senderStep g e l ans = some l') :
    l.unsent ≠ [] ∧ l'.got = l.got ∧
      ∃ s, l'.call = { l.call with
          data := { l.call.data with stream := update l.call.data.stream e s } } ∧
        s ++ l'.unsent = l.call.data.stream e ++ l.unsent := by
  unfold senderStep at h
  split at h
  · rename_i m ms hrest hsend
    cases h
    refine ⟨by simp [Link.unsent, hrest, hsend, Framing.encode], rfl, l.call.data.stream e, ?_, ?_⟩
    · simp
    · simp [Link.unsent, hrest, hsend, Framing.encode, stdMessage,
        show isTerminate pgmNormal = false from rfl]
  · rename_i hrest hsend
    split at h
    · rename_i hstop
      cases h
      refine ⟨by simp [Link.unsent, hstop], rfl, l.call.data.stream e, ?_, ?_⟩
      · simp
      · simp [Link.unsent, hrest, hsend, hstop, Framing.encode, stdMessage,
          show isTerminate pgmTerminate = true from rfl]
    · cases h
  · rename_i b bs hrest
    obtain ⟨⟨d', nx⟩, hstep, hl⟩ := Option.map_eq_some_iff.mp h
    obtain ⟨s, rfl, hsame⟩ := sendStdStep_stream hs hfail hstep
    subst hl
    refine ⟨by simp [Link.unsent, hrest], rfl, s, rfl, ?_⟩
    simp only [Link.unsent, hrest, ← List.append_assoc, hsame]

theorem pending_of_running {l : Link} {j : Nat} (hret : l.call.ret = none) :
    l.pending j e = if j < l.call.pos then (l.call.view e).bufIn
      else (l.call.view e).bufIn.take (l.call.view e).dest := by
  unfold Link.pending
  rw [hret]

theorem pending_of_returned {l : Link} {j : Nat} (hret : l.call.ret ≠ none) :
    l.pending j e = [] := by
  unfold Link.pending
  cases h : l.call.ret with
  | none => exact absurd h hret
  | some st => rfl

variable {j : Nat} {msgs : List (List UInt8)} {t : Bool} {l l' : Link} {ans : Answer}

theorem senderStep_inv (hsole : SoleStream g n e) (hi : l.Inv g n e j skips msgs t)
    (hfail : ans ≠ .failed) (h : senderStep g e l ans = some l') :
    l'.Inv g n e j skips msgs t := by
  obtain ⟨hne, hgot, s, hcall, hsame⟩ := senderStep_effect hsole.stream hfail h
  rcases hi.phase with hlive | hstop
  · have hn : l'.call.data.nextTag e = l.call.data.nextTag e := by rw [hcall]
    have hst : l'.call.data.stream e ++ l'.unsent = l.call.data.stream e ++ l.unsent := by
      rw [hcall]
      simpa using hsame
    have hpend : l'.pending j e = l.pending j e := by unfold Link.pending; rw [hcall]; rfl
    refine ⟨hcall ▸ hi.placed, hcall ▸ hi.noError, hcall ▸ hi.short, hcall ▸ hi.size,
      hgot ▸ hi.pieces, Or.inl ⟨?_, (edgeFramed_congr hn hst).mpr hlive.framed, ?_, ?_⟩⟩
    · rw [hcall]; exact hlive.count
    · rw [hgot, hpend, edgeRest_congr hn hst]
      exact hlive.payload
    · rw [hcall]; exact hlive.ret
  · exact absurd hstop.unsent hne

theorem callStart_inv (hact : Active g n skips j e) (hi : l.Inv g n e j skips msgs t)
    (hret : l.call.ret ≠ none) :
    ({ l with call := callStart g n skips l.call.data } : Link).Inv g n e j skips msgs t := by
  obtain ⟨r, hc, hpc, hdest, -⟩ := callStart_active hact l.call.data
  rw [hc]
  refine ⟨by simp only [hpc]; trivial, by simp [hpc], ?_, hi.size, hi.pieces, ?_⟩
  · simpa [Call.view, hdest] using (g.edge e).accepted.consume_pos
  · rcases hi.phase with hlive | hstop
    · refine Or.inl ⟨hlive.count, hlive.framed, ?_, Or.inl rfl⟩
      have hpay := hlive.payload
      rw [pending_of_returned hret] at hpay
      rw [pending_of_running rfl]
      change msgs.flatten = l.got.flatten ++ (_ ++ edgeRest g l.call.data e l.unsent)
      simpa [Call.pos, Call.view, hpc, hdest, RecvPc.pos] using hpay
    · exact Or.inr ⟨hstop.count, hstop.stop, hstop.empty, hstop.unsent, hstop.payload, Or.inl rfl⟩

theorem after_running {c : Call} (hret : c.ret = none) : l.after e c = { l with call := c } := by
  simp [Link.after, hret]

/-- A step that leaves the edge alone keeps the phase, as long as what was read counts
for as much as before. -/
theorem phase_frame {c : Call} (hphase : l.Live g n e j msgs t ∨ l.Stopped g n e msgs t)
    (hret : c.ret = none) (hcount : c.data.nrTerminateMsgs = l.call.data.nrTerminateMsgs)
    (hv : c.view e = l.call.view e)
    (hpend : ({ l with call := c } : Link).pending j e = l.pending j e) :
    ({ l with call := c } : Link).Live g n e j msgs t ∨
      ({ l with call := c } : Link).Stopped g n e msgs t := by
  have hn : c.data.nextTag e = l.call.data.nextTag e := congrArg EdgeView.nextTag hv
  have hs : c.data.stream e = l.call.data.stream e := congrArg EdgeView.stream hv
  rcases hphase with hlive | hstop
  · refine Or.inl ⟨?_, (edgeFramed_congr hn (by rw [hs]; rfl)).mpr hlive.framed, ?_, Or.inl hret⟩
    · simpa [hcount] using hlive.count
    · rw [hpend, edgeRest_congr hn (by rw [hs])]
      exact hlive.payload
  · refine Or.inr ⟨?_, hstop.stop, ?_, hstop.unsent, hstop.payload, Or.inl hret⟩
    · simpa [hcount] using hstop.count
    · simpa [hs] using hstop.empty

theorem Link.Stopped.not_framed (h : l.Stopped g n e msgs t) :
    ¬ edgeFramed g t l.call.data e l.unsent := by
  intro hf
  rw [h.stop] at hf
  exact hf.ne_nil (by rw [h.empty, h.unsent]; rfl)

theorem phase_live (hphase : l.Live g n e j msgs t ∨ l.Stopped g n e msgs t)
    (hf : edgeFramed g t l.call.data e l.unsent) : l.Live g n e j msgs t :=
  hphase.resolve_right (fun hs => hs.not_framed hf)

/-- While the call reads the edge, the messages are what it has put into the buffer and what is
left. -/
theorem reading_payload (hlive : l.Live g n e l.call.pos msgs t) (hret : l.call.ret = none) :
    msgs.flatten = l.got.flatten ++
      ((l.call.view e).bufIn.take (l.call.view e).dest ++ edgeRest g l.call.data e l.unsent) := by
  have hpay := hlive.payload
  rwa [pending_of_running hret, if_neg (Nat.lt_irrefl _)] at hpay

/-- The call returns once it has passed the edge. -/
theorem returned_inv (hsole : SoleStream g n e) (hi : l.Inv g n e j skips msgs t)
    (hret : l.call.ret = none) (hpassed : j < l.call.pos) {c : Call}
    (hdata : c.data = l.call.data) (hloc : c.loc = l.call.loc)
    (hret' : c.ret = some (recvOut g n l.call.data .success)) :
    (l.after e c).Inv g n e j skips msgs t := by
  have hplaced : Placed g n skips c.loc.pc := hloc ▸ hi.placed
  have hnoErr : c.loc.pc ≠ .select true := hloc ▸ hi.noError
  have hsize := hi.size
  have hshort := hi.short
  obtain ⟨hv, hpos⟩ := view_congr hdata hloc
  have hv' := congrFun hv e
  rw [hsole.recvOut_eq] at hret'
  rcases hi.phase with hlive | hstop
  · rw [if_neg (by rw [hlive.count]; decide)] at hret'
    have hpay := hlive.payload
    rw [pending_of_running hret, if_pos hpassed] at hpay
    have hafter : l.after e c = { l with call := c, got := l.got ++ [c.data.bufIn e] } := by
      simp [Link.after, hret']
    have hbuf : c.data.bufIn e = (l.call.view e).bufIn := by rw [hdata]; rfl
    rw [hafter]
    refine ⟨hplaced, hnoErr, hv' ▸ hshort, hv' ▸ hsize, ?_,
      Or.inl ⟨by simpa [hdata] using hlive.count, hdata ▸ hlive.framed, ?_, Or.inr hret'⟩⟩
    · intro b hb
      rcases List.mem_append.mp hb with hb | hb
      · exact hi.pieces b hb
      · rw [List.mem_singleton.mp hb, hbuf]
        exact hsize
    · rw [pending_of_returned (by simp [hret']), hbuf, List.flatten_append,
        List.flatten_singleton, List.nil_append, List.append_assoc, hdata]
      exact hpay
  · rw [if_pos hstop.count] at hret'
    have hafter : l.after e c = { l with call := c } := by simp [Link.after, hret']
    rw [hafter]
    exact ⟨hplaced, hnoErr, hv' ▸ hshort, hv' ▸ hsize, hi.pieces,
      Or.inr ⟨by simpa [hdata] using hstop.count, hstop.stop, by simpa [hdata] using hstop.empty,
        hstop.unsent, hstop.payload, Or.inr hret'⟩⟩

theorem callStep_inv (hsole : SoleStream g n e) (hact : Active g n skips j e)
    (hi : l.Inv g n e j skips msgs t) (heof : ans ≠ .eof) (hfail : ans ≠ .failed)
    (hsel : ans ≠ .selectError) {c : Call} (h : callStep g n skips l.call ans = some c) :
    (l.after e c).Inv g n e j skips msgs t := by
  have hplaced := callStep_placed hsole.std hi.placed h
  have hnoErr := callStep_noError hi.noError hsel h
  have hret := (callStep_move h).1
  have hsize := hi.size
  have hshort := hi.short
  have heff : CallEffect g n skips t (fun _ => l.unsent) l.call ans c := by
    refine callStep_effect hsole.std hi.placed (fun j' e' ha => ?_) (fun j' e' ha => ?_) heof hfail h
    · rw [hsole.active ha]
      rcases hi.phase with hlive | hstop
      · exact Or.inl hlive.framed
      · exact Or.inr ⟨hstop.stop, hstop.empty, hstop.unsent⟩
    · rw [hsole.active ha]
      exact hshort
  cases heff with
  | quiet hret' hcount hpc hv hpos =>
    have hv' := congrFun hv e
    rw [after_running hret']
    refine ⟨hplaced, hnoErr, hv' ▸ hshort, hv' ▸ hsize, hi.pieces,
      phase_frame hi.phase hret' hcount hv' ?_⟩
    rw [pending_of_running hret', pending_of_running hret]
    simp only [hv', hpos j e hact]
  | retry i e' hret' hcount hpc ha hv hpos =>
    have hv' := congrFun hv e
    have hi' : Active g n skips i e' := by
      have := hi.placed
      rwa [hpc] at this
    obtain rfl := hsole.active hi'
    obtain rfl := hi'.inj hact
    have hpos' : l.call.pos = i := by simp [Call.pos, hpc, RecvPc.pos]
    rw [after_running hret']
    refine ⟨hplaced, hnoErr, hv' ▸ hshort, hv' ▸ hsize, hi.pieces,
      phase_frame hi.phase hret' hcount hv' ?_⟩
    rw [pending_of_running hret', pending_of_running hret]
    simp only [hv', hpos, hpos', Nat.not_lt_zero, Nat.lt_irrefl, if_false]
  | payload e' k s bs ha hret' hcount hact' hpos hv hf₀ hf hrest hlen =>
    obtain rfl := hsole.active hact'
    obtain rfl := hact'.inj hact
    have hlive := phase_live hi.phase hf₀
    have hv' := congrFun hv e'
    rw [Function.update_self] at hv'
    have hpay := reading_payload hlive hret
    rw [hrest] at hpay
    rw [after_running hret']
    refine ⟨hplaced, hnoErr, ?_, ?_, hi.pieces,
      Or.inl ⟨by simpa [hcount] using hlive.count, hf, ?_, Or.inl hret'⟩⟩
    · simpa [hv'] using hlen
    · rw [hv', took_bufIn, store_length (by omega), hsize]
    · rw [pending_of_running hret', if_neg (by simp [hpos]), hv', took_bufIn, took_dest,
        store_take (by omega), List.append_assoc]
      exact hpay
  | complete e' k s bs ha hret' hcount hact' hpos hv hf₀ hf hrest hlen =>
    obtain rfl := hsole.active hact'
    obtain rfl := hact'.inj hact
    have hlive := phase_live hi.phase hf₀
    have hv' := congrFun hv e'
    rw [Function.update_self] at hv'
    have hpay := reading_payload hlive hret
    rw [hrest] at hpay
    have hlen' : (store (l.call.view e').bufIn (l.call.view e').dest bs).length =
        (l.call.view e').dest + bs.length := by rw [store_length (by omega), hsize, hlen]
    rw [after_running hret']
    refine ⟨hplaced, hnoErr, ?_, ?_, hi.pieces,
      Or.inl ⟨by simpa [hcount] using hlive.count, hf, ?_, Or.inl hret'⟩⟩
    · simpa [hv'] using hshort
    · rw [hv', took_bufIn, hlen', hlen]
    · rw [pending_of_running hret', if_pos (by simp [hpos]), hv', took_bufIn,
        ← List.take_length (l := store _ _ bs), hlen', store_take (by omega), List.append_assoc]
      exact hpay
  | stop e' ha hret' hcount hact' hpos ht hf₀ hrest hm hv =>
    obtain rfl := hsole.active hact'
    obtain rfl := hact'.inj hact
    have hlive := phase_live hi.phase hf₀
    have hv' := congrFun hv e'
    rw [Function.update_self] at hv'
    have hpay := reading_payload hlive hret
    rw [hrest, List.append_nil] at hpay
    rw [after_running hret']
    refine ⟨hplaced, hnoErr, ?_, ?_, hi.pieces,
      Or.inr ⟨?_, ht, ?_, hm, ⟨_, hpay, ?_⟩, Or.inl hret'⟩⟩
    · simpa [hv'] using hshort
    · simpa [hv'] using hsize
    · simp only [hcount, Function.update_self, hlive.count]
      rfl
    · exact congrArg EdgeView.stream hv'
    · rw [List.length_take]
      omega
  | returned hdata hloc hret' hpc hall =>
    exact returned_inv hsole hi hret (hall j e hact) hdata hloc hret'
  | failed hdata hloc hret' hpc => exact absurd hpc hi.noError

theorem linkStep_inv (hsole : SoleStream g n e) (hact : Active g n skips j e)
    (hi : l.Inv g n e j skips msgs t) {a : LinkAct} (hsoft : a.Soft)
    (h : linkStep g n skips e l a = some l') : l'.Inv g n e j skips msgs t := by
  obtain ⟨heof, hfail, hsel⟩ := hsoft
  cases a with
  | send ans => exact senderStep_inv hsole hi hfail h
  | recv ans =>
    simp only [linkStep, receiverStep] at h
    split at h
    · rename_i st hret
      cases h
      exact callStart_inv hact hi (by simp [hret])
    · obtain ⟨c, hc, rfl⟩ := Option.map_eq_some_iff.mp h
      exact callStep_inv hsole hact hi heof hfail hsel hc

theorem linkStart_inv {d : Data} (hd : FreshStream g n e d)
    (hmsgs : ∀ m ∈ msgs, m.length = (g.edge e).attr.nrProduce) :
    (linkStart d msgs t).Inv g n e j skips msgs t := by
  have htail : Framing.Framed pgmNormal pgmTerminate (g.edge e).attr.nrProduce t 0
      (if t then [pgmTerminate] else []) := by
    cases t <;> simp [Framing.Framed]
  have hunread : d.stream e ++ (linkStart d msgs t).unsent =
      Framing.encode pgmNormal msgs ++ if t then [pgmTerminate] else [] := by
    rw [hd.empty]
    rfl
  refine ⟨trivial, by simp [linkStart, Recv.unset], ?_, hd.size, by simp [linkStart],
    Or.inl ⟨hd.count, ?_, ?_, Or.inr rfl⟩⟩
  · exact (g.edge e).accepted.consume_pos
  · change Framing.Framed _ _ _ _ (d.nextTag e) (d.stream e ++ (linkStart d msgs t).unsent)
    rw [hunread, hd.boundary]
    exact Framing.framed_encode hmsgs htail
  · have hrest : Framing.strip (g.edge e).attr.nrProduce 0 (if t then [pgmTerminate] else []) = [] := by
      cases t <;> rfl
    rw [pending_of_returned (by simp [linkStart])]
    change _ = Framing.strip _ (d.nextTag e) (d.stream e ++ (linkStart d msgs t).unsent)
    rw [hunread, hd.boundary, Framing.strip_encode hmsgs, hrest, List.append_nil]

/-- **Framing round trip.** In every interleaving of short writes, short reads and
would-blocks, the buffers that the calls have filled are the consecutive pieces of
`nr_consume` bytes of the payloads. A call that has returned has either filled its
buffer, and then `next_tag` is the number of payload bytes in front of the next tag
of the stream and what is left of the payload follows; or it has read the terminate
tag, and then fewer than `nr_consume` bytes of payload were left. -/
theorem framing_round_trip {d : Data} (hsole : SoleStream g n e) (hskip : skips e = 0)
    (hd : FreshStream g n e d) (hmsgs : ∀ m ∈ msgs, m.length = (g.edge e).attr.nrProduce)
    (hl : Lts.Reach (linkStep g n skips e) (fun _ a => a.Soft) (linkStart d msgs t) l) :
    l.got = Framing.pieces (g.edge e).attr.nrConsume l.got.length msgs.flatten ∧
    l.got.length * (g.edge e).attr.nrConsume ≤ msgs.flatten.length ∧
    ∀ st, l.call.ret = some st →
      (st = .success ∧ edgeFramed g t l.call.data e l.unsent ∧
        edgeRest g l.call.data e l.unsent =
          msgs.flatten.drop (l.got.length * (g.edge e).attr.nrConsume)) ∨
      (st = .exhaustedAndTerminate ∧ t = true ∧ l.call.data.stream e ++ l.unsent = [] ∧
        msgs.flatten.length < (l.got.length + 1) * (g.edge e).attr.nrConsume) := by
  obtain ⟨j, hj⟩ := List.mem_iff_getElem?.mp hsole.mem
  have hact : Active g n skips j e := ⟨hj, hsole.dataPassing, hskip⟩
  have hi : l.Inv g n e j skips msgs t := hl.inv (linkStart_inv hd hmsgs)
    (fun s a s' _ hi hp hs => linkStep_inv hsole hact hi hp hs)
  have hlen := Framing.length_flatten_of_forall hi.pieces
  -- whatever the phase, the filled buffers make up the front of the payload
  obtain ⟨rest, hfront⟩ : ∃ rest, msgs.flatten = l.got.flatten ++ rest := by
    rcases hi.phase with hlive | hstop
    · exact ⟨_, hlive.payload⟩
    · obtain ⟨left, hleft, -⟩ := hstop.payload
      exact ⟨left, hleft⟩
  refine ⟨(Framing.eq_pieces hi.pieces hfront).1, ?_, fun st hret => ?_⟩
  · rw [hfront, List.length_append, hlen]
    exact Nat.le_add_right _ _
  · rcases hi.phase with hlive | hstop
    · left
      have hst : st = .success := by
        rcases hlive.ret with hr | hr <;> rw [hret] at hr <;> cases hr
        rfl
      have hpay := hlive.payload
      rw [pending_of_returned (by simp [hret]), List.nil_append] at hpay
      exact ⟨hst, hlive.framed, (Framing.eq_pieces hi.pieces hpay).2.symm⟩
    · right
      have hst : st = .exhaustedAndTerminate := by
        rcases hstop.ret with hr | hr <;> rw [hret] at hr <;> cases hr
        rfl
      obtain ⟨left, hleft, hlt⟩ := hstop.payload
      refine ⟨hst, hstop.stop, by rw [hstop.empty, hstop.unsent]; rfl, ?_⟩
      rw [hleft, List.length_append, hlen, Nat.succ_mul]
      omega

end

/-! ## Messages of three bytes read two by two -/

theorem pipe_accepted : (fifoAttr 3 2).Accepted :=
  fifoAttr_accepted (by decide) (by decide) (by decide) (by decide)

def pipeGraph : Graph := .pair (fifoAttr 3 2) pipe_accepted

def pipeData : Data where
  nextTag := fun _ => 0
  stream := fun _ => []
  queue := fun _ => []
  ringCmd := fun _ => 0
  bufIn := fun _ => [0, 0]
  nrTerminateMsgs := fun _ => 0
  counted := fun _ => 0

/-- Start a call, wait for the descriptor and get to the first read. -/
def callIn : List LinkAct := [.recv .go, .recv (.ready 1), .recv .go, .recv .go]

/-- The second message is written in two parts and the second piece read in three. -/
def pipeRun : List LinkAct :=
  [.send .go, .send (.bytes 4), .send .go, .send (.bytes 2)] ++
  callIn ++ [.recv (.bytes 3), .recv .go] ++
  callIn ++ [.recv (.bytes 1), .recv (.bytes 1), .recv (.bytes 1), .recv .go] ++
  callIn ++ [.recv .eagain, .send .eagain, .send (.bytes 2), .recv (.ready 1), .recv .go, .recv .go,
    .recv (.bytes 2), .recv .go] ++
  [.send .go, .send (.bytes 1)] ++ callIn ++ [.recv (.bytes 1), .recv .go]

theorem pipeGraph_sole : SoleStream pipeGraph 1 0 := ⟨by decide, by decide, by decide, by decide⟩

/-- Three pieces come out, and then the terminate tag. -/
theorem pipe_round_trip :
    ∃ l : Link, Lts.Reach (linkStep pipeGraph 1 (fun _ => 0) 0) (fun _ a => a.Soft)
        (linkStart pipeData [[1, 2, 3], [4, 5, 6]] true) l ∧
      l.call.ret = some .exhaustedAndTerminate ∧ l.got.length = 3 ∧
      l.got = [[1, 2], [3, 4], [5, 6]] := by
  have hd : (Lts.drive (linkStep pipeGraph 1 (fun _ => 0) 0) (fun _ a => decide a.Soft)
      (linkStart pipeData [[1, 2, 3], [4, 5, 6]] true) pipeRun).map
        (fun l => (l.call.ret, l.got.length)) = some (some .exhaustedAndTerminate, 3) := rfl
  obtain ⟨l, hl, hobs⟩ := Lts.reach_of_drive_map (fun _ a h => of_decide_eq_true h) hd
  obtain ⟨hret, hlen⟩ := Prod.mk.inj hobs
  have hround := framing_round_trip pipeGraph_sole rfl ⟨rfl, rfl, rfl, rfl⟩ (by decide) hl
  refine ⟨l, hl, hret, hlen, ?_⟩
  rw [hround.1, hlen]
  rfl

end Pgm
