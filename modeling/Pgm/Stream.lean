import Pgm.Lib.Framing
import Pgm.Recv

/-! What one read of `pgm_recv_data` does on a FIFO or socket edge whose stream
is well framed. Three kinds of read (a tag with the first payload, payload up to
the next tag, a lone tag) have the same effect seen from outside: some payload
bytes go to the consumer's buffer, and the stream stays framed at `next_tag`.
The bytes the producer has not written yet are a parameter, `more`. -/

namespace Pgm

open Function (update)

/-- The unread bytes of edge `e` followed by `more` are framed at `next_tag`. -/
def edgeFramed (g : Graph) (t : Bool) (d : Data) (e : Nat) (more : List UInt8) : Prop :=
  Framing.Framed pgmNormal pgmTerminate (g.edge e).attr.nrProduce t (d.nextTag e)
    (d.stream e ++ more)

instance (g : Graph) (t : Bool) (d : Data) (e : Nat) (more : List UInt8) :
    Decidable (edgeFramed g t d e more) :=
  inferInstanceAs (Decidable (Framing.Framed _ _ _ _ _ _))

/-- The payload still to come on edge `e`. -/
def edgeRest (g : Graph) (d : Data) (e : Nat) (more : List UInt8) : List UInt8 :=
  Framing.strip (g.edge e).attr.nrProduce (d.nextTag e) (d.stream e ++ more)

theorem edgeFramed_congr {g : Graph} {t : Bool} {d d' : Data} {e : Nat} {more more' : List UInt8}
    (hn : d'.nextTag e = d.nextTag e) (hs : d'.stream e ++ more' = d.stream e ++ more) :
    edgeFramed g t d' e more' ↔ edgeFramed g t d e more := by
  unfold edgeFramed
  rw [hn, hs]

theorem edgeRest_congr {g : Graph} {d d' : Data} {e : Nat} {more more' : List UInt8}
    (hn : d'.nextTag e = d.nextTag e) (hs : d'.stream e ++ more' = d.stream e ++ more) :
    edgeRest g d' e more' = edgeRest g d e more := by
  unfold edgeRest
  rw [hn, hs]

/-- What a read may change of a byte-stream edge. -/
def Data.setStream (d : Data) (e k : Nat) (s b : List UInt8) : Data :=
  { d with
    nextTag := update d.nextTag e k
    stream := update d.stream e s
    bufIn := update d.bufIn e b }

section setStream

variable (d : Data) (e k : Nat) (s b : List UInt8)

@[simp] theorem setStream_nextTag : (d.setStream e k s b).nextTag = update d.nextTag e k := rfl

@[simp] theorem setStream_stream : (d.setStream e k s b).stream = update d.stream e s := rfl

@[simp] theorem setStream_bufIn : (d.setStream e k s b).bufIn = update d.bufIn e b := rfl

@[simp] theorem setStream_nrTerminateMsgs :
    (d.setStream e k s b).nrTerminateMsgs = d.nrTerminateMsgs := rfl

end setStream

theorem store_nil (buf : List UInt8) (off : Nat) : store buf off [] = buf := by
  simp [store]

theorem store_length {buf bs : List UInt8} {off : Nat} (h : off + bs.length ≤ buf.length) :
    (store buf off bs).length = buf.length := by
  simp only [store, List.length_append, List.length_take, List.length_drop]
  omega

/-- What was in front of the stored bytes stays, and they follow it. -/
theorem store_take {buf bs : List UInt8} {off : Nat} (h : off ≤ buf.length) :
    (store buf off bs).take (off + bs.length) = buf.take off ++ bs := by
  have hlen : (buf.take off ++ bs).length = off + bs.length := by
    rw [List.length_append, List.length_take, Nat.min_eq_left h]
  unfold store
  rw [← hlen, List.take_left]

theorem advance_nil (r : Recv) (e : Nat) : r.advance e [] = r := by
  simp [Recv.advance]

/-- A read of a byte stream gives some bytes, would block, reports the end of the stream, or
fails. -/
theorem read_cases {g : Graph} {d d' : Data} {e nbytes : Nat} {ans : Answer} {res : ReadRes}
    (hs : (g.edge e).attr.type.isStream) (h : d.read g e nbytes ans = some (res, d')) :
    (ans = .eagain ∧ res = .eagain ∧ d' = d) ∨ (ans = .eof ∧ res = .eof ∧ d' = d) ∨
      (ans = .failed ∧ res = .error ∧ d' = d) ∨
      ∃ k, 0 < k ∧ k ≤ nbytes ∧ k ≤ (d.stream e).length ∧ ans = .bytes k ∧
        res = .bytes ((d.stream e).take k) ∧
        d' = { d with stream := update d.stream e ((d.stream e).drop k) } := by
  have hmq : (g.edge e).attr.type.isMq = false := by
    cases ht : (g.edge e).attr.type <;> rw [ht] at hs <;> first | rfl | cases hs
  rw [Data.read, hmq, if_neg Bool.false_ne_true] at h
  cases ans with
  | eagain =>
    cases h
    exact Or.inl ⟨rfl, rfl, rfl⟩
  | eof =>
    cases h
    exact Or.inr (Or.inl ⟨rfl, rfl, rfl⟩)
  | failed =>
    cases h
    exact Or.inr (Or.inr (Or.inl ⟨rfl, rfl, rfl⟩))
  | bytes k =>
    simp only [Data.readStream] at h
    split at h
    · rename_i hk
      cases h
      exact Or.inr (Or.inr (Or.inr ⟨k, hk.1, hk.2.1, hk.2.2, rfl, rfl, rfl⟩))
    · cases h
  | _ => cases h

theorem read_stream {g : Graph} {d d' : Data} {e nbytes : Nat} {ans : Answer} {res : ReadRes}
    (hs : (g.edge e).attr.type.isStream) (heof : ans ≠ .eof) (hfail : ans ≠ .failed)
    (h : d.read g e nbytes ans = some (res, d')) :
    (ans = .eagain ∧ res = .eagain ∧ d' = d) ∨
      ∃ k, 0 < k ∧ k ≤ nbytes ∧ k ≤ (d.stream e).length ∧ ans = .bytes k ∧
        res = .bytes ((d.stream e).take k) ∧
        d' = { d with stream := update d.stream e ((d.stream e).drop k) } := by
  rcases read_cases hs h with h | h | h | h
  · exact Or.inl h
  · exact absurd h.1 heof
  · exact absurd h.1 hfail
  · exact Or.inr h

/-- What one read at `read_more` does to edge `e`: wait again, take payload and go on
with the edge or with the next one, or see the terminate tag. A read that takes no
payload has taken a tag. -/
inductive ReadEffect (g : Graph) (n : Nat) (t : Bool) (more : List UInt8) (d : Data) (r : Recv)
    (i e : Nat) (ans : Answer) : Data → RecvNext → Prop
  | eagain (ha : ans = .eagain) :
      ReadEffect g n t more d r i e ans d
        (.more { r with toWait := retryMask g n r.toSkip i, pc := .select false })
  | payload (k : Nat) (s bs : List UInt8) (ha : ans ≠ .eagain)
      (hf : edgeFramed g t (d.setStream e k s (store (d.bufIn e) (r.dest e) bs)) e more)
      (hrest : ∀ more, edgeRest g d e more =
        bs ++ edgeRest g (d.setStream e k s (store (d.bufIn e) (r.dest e) bs)) e more)
      (hlen : r.dest e + bs.length < (g.edge e).attr.nrConsume)
      (htag : bs = [] → d.nextTag e = 0 ∧ k ≠ 0) :
      ReadEffect g n t more d r i e ans (d.setStream e k s (store (d.bufIn e) (r.dest e) bs))
        ((r.advance e bs).at (.read i e))
  | complete (k : Nat) (s bs : List UInt8) (ha : ans ≠ .eagain)
      (hf : edgeFramed g t (d.setStream e k s (store (d.bufIn e) (r.dest e) bs)) e more)
      (hrest : ∀ more, edgeRest g d e more =
        bs ++ edgeRest g (d.setStream e k s (store (d.bufIn e) (r.dest e) bs)) e more)
      (hlen : r.dest e + bs.length = (g.edge e).attr.nrConsume) :
      ReadEffect g n t more d r i e ans (d.setStream e k s (store (d.bufIn e) (r.dest e) bs))
        ((r.finish e bs).at (.edge (i + 1)))
  | terminate (ha : ans ≠ .eagain) (ht : t = true) (htag : d.nextTag e = 0)
      (hs : d.stream e = [pgmTerminate]) (hm : more = []) :
      ReadEffect g n t more d r i e ans
        ((d.setStream e (g.edge e).attr.nrProduce [] (d.bufIn e)).countTerminate n e)
        (r.at (.edge (i + 1)))

section readStep

variable {g : Graph} {n i e : Nat} {t : Bool} {more : List UInt8} {d d' : Data} {r : Recv}
  {ans : Answer} {nx : RecvNext}

/-- `j` bytes of the message in hand are payload and leave the stream framed. -/
theorem framed_take {P k j : Nat} {xs : List UInt8}
    (hf : Framing.Framed pgmNormal pgmTerminate P t k (xs ++ more)) (hj : j ≤ k)
    (hx : j ≤ xs.length) :
    Framing.Framed pgmNormal pgmTerminate P t (k - j) (xs.drop j ++ more) ∧
      ∀ more, Framing.strip P k (xs ++ more) =
        xs.take j ++ Framing.strip P (k - j) (xs.drop j ++ more) := by
  have hdrop : ∀ more, (xs ++ more).drop j = xs.drop j ++ more :=
    fun more => List.drop_append_of_le_length hx
  have htake : ∀ more, (xs ++ more).take j = xs.take j :=
    fun more => List.take_append_of_le_length hx
  refine ⟨?_, fun more => ?_⟩
  · rw [← hdrop]
    exact hf.drop hj
  · rw [← hdrop, ← htake more]
    exact Framing.strip_take hj

theorem afterPayload_effect (hs : (g.edge e).attr.type.isStream) (hf : edgeFramed g t d e more)
    (hd : r.dest e < (g.edge e).attr.nrConsume) (heof : ans ≠ .eof) (hfail : ans ≠ .failed)
    (h : (d.read g e (min ((g.edge e).attr.nrConsume - r.dest e) (d.nextTag e)) ans).map
      (afterPayload g n r i e) = some (d', nx)) : ReadEffect g n t more d r i e ans d' nx := by
  obtain ⟨⟨res, d₁⟩, hread, hafter⟩ := Option.map_eq_some_iff.mp h
  rcases read_stream hs heof hfail hread with ⟨ha, rfl, rfl⟩ | ⟨k, hk, hkn, hkl, ha, rfl, rfl⟩
  · cases hafter
    exact .eagain ha
  · obtain ⟨hf', hrest⟩ := framed_take hf (j := k) (by omega) hkl
    cases htk : (d.stream e).take k with
    | nil =>
      have := congrArg List.length htk
      simp only [List.length_take, List.length_nil] at this
      omega
    | cons b bs =>
      have hlen : bs.length + 1 = k := by
        have := congrArg List.length htk
        simp only [List.length_take, List.length_cons] at this
        omega
      have ha' : ans ≠ .eagain := by rw [ha]; simp
      rw [htk] at hrest hafter
      simp only [afterPayload, hlen] at hafter
      split at hafter
      · cases hafter
        exact .payload (d.nextTag e - k) ((d.stream e).drop k) (b :: bs) ha'
          (by simpa [edgeFramed] using hf') (by simpa [edgeRest] using hrest)
          (by rw [List.length_cons]; omega) (by simp)
      · cases hafter
        exact .complete (d.nextTag e - k) ((d.stream e).drop k) (b :: bs) ha'
          (by simpa [edgeFramed] using hf') (by simpa [edgeRest] using hrest)
          (by rw [List.length_cons]; omega)

/-- A stream at a message boundary, read past its tag. -/
theorem framed_boundary {P : Nat} {tag : UInt8} {xs : List UInt8}
    (hf : Framing.Framed pgmNormal pgmTerminate P t 0 (tag :: xs ++ more)) :
    (isTerminate tag = true ∧ tag = pgmTerminate ∧ t = true ∧ xs = [] ∧ more = []) ∨
      (isTerminate tag = false ∧ isNormal tag = true ∧
        Framing.Framed pgmNormal pgmTerminate P t P (xs ++ more)) := by
  rcases hf.tag with ⟨rfl, ht, hx⟩ | ⟨rfl, hf'⟩
  · obtain ⟨hx, hm⟩ := List.append_eq_nil_iff.mp hx
    exact Or.inl ⟨by decide, rfl, ht, hx, hm⟩
  · exact Or.inr ⟨by decide, by decide, hf'⟩

/-- The read of a tag together with the first payload bytes. -/
theorem afterTagged_effect (hs : (g.edge e).attr.type.isStream) (hf : edgeFramed g t d e more)
    (hd : r.dest e = 0) (htag : d.nextTag e = 0) (heof : ans ≠ .eof) (hfail : ans ≠ .failed)
    (h : (d.read g e (min (g.edge e).attr.nrConsume (g.edge e).attr.nrProduce + 1) ans).map
      (afterTagged g n r i e) = some (d', nx)) : ReadEffect g n t more d r i e ans d' nx := by
  obtain ⟨⟨res, d₁⟩, hread, hafter⟩ := Option.map_eq_some_iff.mp h
  rcases read_stream hs heof hfail hread with ⟨ha, rfl, rfl⟩ | ⟨k, hk, hkn, hkl, ha, rfl, rfl⟩
  · cases hafter
    exact .eagain ha
  · have ha' : ans ≠ .eagain := by rw [ha]; simp
    obtain ⟨k, rfl⟩ : ∃ k', k = k' + 1 := ⟨k - 1, by omega⟩
    cases hst : d.stream e with
    | nil => rw [hst] at hkl; simp at hkl
    | cons tag xs =>
      have hkx : k ≤ xs.length := by rw [hst, List.length_cons] at hkl; omega
      have hbs : (xs.take k).length = k := by rw [List.length_take]; omega
      have hrest₀ : ∀ more, edgeRest g d e more =
          Framing.strip (g.edge e).attr.nrProduce (g.edge e).attr.nrProduce (xs ++ more) := by
        intro more
        rw [edgeRest, htag, hst]
        rfl
      unfold edgeFramed at hf
      rw [htag, hst] at hf
      rw [hst, List.take_succ_cons, List.drop_succ_cons] at hafter
      rcases framed_boundary hf with ⟨hterm, htt, ht, hx, hm⟩ | ⟨hterm, hnorm, hf'⟩
      · subst hx
        obtain rfl : k = 0 := by simpa using hkx
        simp only [afterTagged, hterm, if_true, List.take_nil, List.drop_nil, store_nil,
          List.length_nil, Nat.sub_zero] at hafter
        cases hafter
        exact .terminate ha' ht htag (by rw [hst, htt]) hm
      · obtain ⟨hf'', hrest⟩ := framed_take hf' (j := k) (by omega) hkx
        simp only [afterTagged, hterm, hnorm, Bool.not_true, Bool.false_eq_true, if_false,
          hbs] at hafter
        simp only [← hrest₀] at hrest
        split at hafter
        · cases hafter
          exact .payload ((g.edge e).attr.nrProduce - k) (xs.drop k) (xs.take k) ha'
            (by simpa [edgeFramed] using hf'') (by simpa [edgeRest] using hrest)
            (by rw [hd, hbs]; omega) (fun hnil => ⟨htag, by
              have hpos := (g.edge e).accepted.produce_pos
              rw [hnil, List.length_nil] at hbs
              omega⟩)
        · cases hafter
          exact .complete ((g.edge e).attr.nrProduce - k) (xs.drop k) (xs.take k) ha'
            (by simpa [edgeFramed] using hf'') (by simpa [edgeRest] using hrest)
            (by rw [hd, hbs]; omega)

/-- The read of a lone tag, between two messages of one receive. -/
theorem afterTag_effect (hs : (g.edge e).attr.type.isStream) (hf : edgeFramed g t d e more)
    (hd : r.dest e < (g.edge e).attr.nrConsume) (htag : d.nextTag e = 0) (heof : ans ≠ .eof)
    (hfail : ans ≠ .failed)
    (h : (d.read g e 1 ans).map (afterTag g n r i e) = some (d', nx)) :
    ReadEffect g n t more d r i e ans d' nx := by
  obtain ⟨⟨res, d₁⟩, hread, hafter⟩ := Option.map_eq_some_iff.mp h
  rcases read_stream hs heof hfail hread with ⟨ha, rfl, rfl⟩ | ⟨k, hk, hkn, hkl, ha, rfl, rfl⟩
  · cases hafter
    exact .eagain ha
  · have ha' : ans ≠ .eagain := by rw [ha]; simp
    obtain rfl : k = 1 := by omega
    cases hst : d.stream e with
    | nil => rw [hst] at hkl; simp at hkl
    | cons tag xs =>
      unfold edgeFramed at hf
      rw [htag, hst] at hf
      have hbuf : d.bufIn = update d.bufIn e (store (d.bufIn e) (r.dest e) []) := by
        rw [store_nil, Function.update_eq_self]
      rw [hst, List.take_succ_cons, List.drop_succ_cons, List.drop_zero, List.take_zero] at hafter
      rcases framed_boundary hf with ⟨hterm, htt, ht, hx, hm⟩ | ⟨hterm, hnorm, hf'⟩
      · subst hx
        simp only [afterTag, hterm, if_true] at hafter
        cases hafter
        have := ReadEffect.terminate (g := g) (n := n) (r := r) (i := i) ha' ht htag
          (by rw [hst, htt]) hm
        rwa [Data.setStream, Function.update_eq_self] at this
      · simp only [afterTag, hterm, hnorm, Bool.not_true, Bool.false_eq_true, if_false] at hafter
        cases hafter
        have := ReadEffect.payload (n := n) (i := i) (d := d) (r := r)
          (g.edge e).attr.nrProduce xs [] ha'
          (by simpa [edgeFramed] using hf')
          (by simp [edgeRest, htag, hst, Framing.strip]) (by simpa using hd)
          (fun _ => ⟨htag, (g.edge e).accepted.produce_pos.ne'⟩)
        rwa [advance_nil, Data.setStream, ← hbuf] at this

/-- **One read of a byte stream.** -/
theorem readStep_effect (hs : (g.edge e).attr.type.isStream) (hf : edgeFramed g t d e more)
    (hd : r.dest e < (g.edge e).attr.nrConsume) (heof : ans ≠ .eof) (hfail : ans ≠ .failed)
    (h : readStep g n d r i e ans = some (d', nx)) : ReadEffect g n t more d r i e ans d' nx := by
  simp only [readStep] at h
  split at h
  · rename_i hfirst
    exact afterTagged_effect hs hf (by omega) hfirst.2 heof hfail h
  · split at h
    · exact afterPayload_effect hs hf hd heof hfail h
    · rename_i htag
      exact afterTag_effect hs hf hd (by omega) heof hfail h

end readStep

/-! ## Calls on nodes whose data-passing in-edges are byte streams -/

/-- All data-passing in-edges of the node are FIFOs or sockets. -/
def StdNode (g : Graph) (n : Nat) : Prop :=
  ∀ e ∈ g.inEdges n, (g.edge e).isDataPassing = true → (g.edge e).attr.type.isStream = true

instance (g : Graph) (n : Nat) : Decidable (StdNode g n) :=
  inferInstanceAs (Decidable (∀ e ∈ g.inEdges n, _ → _))

/-- The stream of an edge is framed, or its terminate tag has been read. -/
def StreamOk (g : Graph) (t : Bool) (d : Data) (e : Nat) (more : List UInt8) : Prop :=
  edgeFramed g t d e more ∨ (t = true ∧ d.stream e = [] ∧ more = [])

/-- Where a call on such a node may be. -/
def Placed (g : Graph) (n : Nat) (skips : Nat → Nat) : RecvPc → Prop
  | .select _ | .edge _ => True
  | .ringEmpty _ _ | .ringRead _ _ => False
  | .read i e => Active g n skips i e

/-- The part of the state of a call that belongs to edge `e`. -/
structure EdgeView where
  nextTag : Nat
  stream : List UInt8
  bufIn : List UInt8
  dest : Nat
  taken : List UInt8

def Call.view (c : Call) (e : Nat) : EdgeView :=
  ⟨c.data.nextTag e, c.data.stream e, c.data.bufIn e, c.loc.dest e, c.loc.taken e⟩

/-- The edge after the payload bytes `bs` have been read. -/
def EdgeView.took (v : EdgeView) (k : Nat) (s bs : List UInt8) (dest : Nat) : EdgeView :=
  ⟨k, s, store v.bufIn v.dest bs, dest, v.taken ++ bs⟩

@[simp] theorem took_taken (v : EdgeView) (k : Nat) (s bs : List UInt8) (dest : Nat) :
    (v.took k s bs dest).taken = v.taken ++ bs := rfl

@[simp] theorem took_dest (v : EdgeView) (k : Nat) (s bs : List UInt8) (dest : Nat) :
    (v.took k s bs dest).dest = dest := rfl

@[simp] theorem took_bufIn (v : EdgeView) (k : Nat) (s bs : List UInt8) (dest : Nat) :
    (v.took k s bs dest).bufIn = store v.bufIn v.dest bs := rfl

/-- The edges in front of this number are done with in this pass. -/
def Call.pos (c : Call) : Nat := c.loc.pc.pos

theorem view_congr {c c' : Call} (hdata : c'.data = c.data) (hloc : c'.loc = c.loc) :
    c'.view = c.view ∧ c'.pos = c.pos := by
  unfold Call.view Call.pos
  rw [hdata, hloc]
  exact ⟨rfl, rfl⟩

/-- What a step of a call can do to the edges, to the place in the loop and to
the number of terminate messages. -/
inductive CallEffect (g : Graph) (n : Nat) (skips : Nat → Nat) (t : Bool)
    (more : Nat → List UInt8) (c : Call) (ans : Answer) (c' : Call) : Prop
  /-- No edge is touched, and no edge that the call reads is passed. -/
  | quiet (hret : c'.ret = none) (hmsgs : c'.data.nrTerminateMsgs = c.data.nrTerminateMsgs)
      (hpc : ∀ i e, c.loc.pc ≠ .read i e) (hv : c'.view = c.view)
      (hpos : ∀ j e, Active g n skips j e → (j < c'.pos ↔ j < c.pos))
  | retry (i e : Nat) (hret : c'.ret = none)
      (hmsgs : c'.data.nrTerminateMsgs = c.data.nrTerminateMsgs) (hpc : c.loc.pc = .read i e)
      (ha : ans = .eagain) (hv : c'.view = c.view) (hpos : c'.pos = 0)
  | payload (e k : Nat) (s bs : List UInt8) (ha : ans ≠ .eagain) (hret : c'.ret = none)
      (hmsgs : c'.data.nrTerminateMsgs = c.data.nrTerminateMsgs)
      (hact : Active g n skips c.pos e) (hpos : c'.pos = c.pos)
      (hv : c'.view = update c.view e ((c.view e).took k s bs ((c.view e).dest + bs.length)))
      (hf₀ : edgeFramed g t c.data e (more e)) (hf : edgeFramed g t c'.data e (more e))
      (hrest : edgeRest g c.data e (more e) = bs ++ edgeRest g c'.data e (more e))
      (hlen : (c.view e).dest + bs.length < (g.edge e).attr.nrConsume)
  | complete (e k : Nat) (s bs : List UInt8) (ha : ans ≠ .eagain) (hret : c'.ret = none)
      (hmsgs : c'.data.nrTerminateMsgs = c.data.nrTerminateMsgs)
      (hact : Active g n skips c.pos e) (hpos : c'.pos = c.pos + 1)
      (hv : c'.view = update c.view e ((c.view e).took k s bs (c.view e).dest))
      (hf₀ : edgeFramed g t c.data e (more e)) (hf : edgeFramed g t c'.data e (more e))
      (hrest : edgeRest g c.data e (more e) = bs ++ edgeRest g c'.data e (more e))
      (hlen : (c.view e).dest + bs.length = (g.edge e).attr.nrConsume)
  | stop (e : Nat) (ha : ans ≠ .eagain) (hret : c'.ret = none)
      (hmsgs : c'.data.nrTerminateMsgs =
        update c.data.nrTerminateMsgs n (Word.add 32 (c.data.nrTerminateMsgs n) 1))
      (hact : Active g n skips c.pos e) (hpos : c'.pos = c.pos + 1) (ht : t = true)
      (hf₀ : edgeFramed g t c.data e (more e)) (hrest : edgeRest g c.data e (more e) = [])
      (hm : more e = [])
      (hv : c'.view = update c.view e
        { c.view e with nextTag := (g.edge e).attr.nrProduce, stream := [] })
  | returned (hdata : c'.data = c.data) (hloc : c'.loc = c.loc)
      (hret : c'.ret = some (recvOut g n c.data .success)) (hpc : ∀ i e, c.loc.pc ≠ .read i e)
      (hall : ∀ j e, Active g n skips j e → j < c.pos)
  | failed (hdata : c'.data = c.data) (hloc : c'.loc = c.loc)
      (hret : c'.ret = some (recvOut g n c.data .error)) (hpc : c.loc.pc = .select true)

section call

variable {g : Graph} {n : Nat} {skips : Nat → Nat} {t : Bool} {more : Nat → List UInt8}
  {c c' : Call} {ans : Answer}

theorem StdNode.not_ring (hstd : StdNode g n) {j e : Nat} (ha : Active g n skips j e) :
    (g.edge e).attr.type.isRing = false := by
  have hs := hstd e ha.mem ha.2.1
  cases ht : (g.edge e).attr.type <;> rw [ht] at hs <;> first | rfl | cases hs

theorem callStep_placed (hstd : StdNode g n) (hp : Placed g n skips c.loc.pc)
    (h : callStep g n skips c ans = some c') : Placed g n skips c'.loc.pc := by
  obtain ⟨-, d, nx, hmove, rfl⟩ := callStep_move h
  cases hmove with
  | selecting | selected | pass => trivial
  | selectFailed | out => exact hp
  | enter i e hpc ha hr => exact ha
  | ringCmd i e hpc ha hr => rw [hstd.not_ring ha] at hr; cases hr
  | ringStop i e hpc | ringMore i e hpc | ringRead i e x q hpc => rw [hpc] at hp; exact hp.elim
  | read i e d nx hpc hread =>
    cases readStep_after hread with
    | again r' hpc' => rw [hpc] at hp; simp only [Call.after, hpc']; exact hp
    | next r' hpc' => simp only [Call.after, hpc']; trivial
    | block m => trivial
    | fail g' n' d' => exact hp

theorem readStep_stopped {d d' : Data} {r : Recv} {i e : Nat} {nx : RecvNext}
    (hs : (g.edge e).attr.type.isStream) (hempty : d.stream e = []) (heof : ans ≠ .eof)
    (hfail : ans ≠ .failed) (h : readStep g n d r i e ans = some (d', nx)) :
    ∃ m, ans = .eagain ∧ d' = d ∧ nx = .more { r with toWait := m, pc := .select false } := by
  have hread : ∀ nbytes f, (d.read g e nbytes ans).map f = some (d', nx) →
      ans = .eagain ∧ f (.eagain, d) = (d', nx) := by
    intro nbytes f hf
    obtain ⟨⟨res, d₁⟩, hr, hx⟩ := Option.map_eq_some_iff.mp hf
    rcases read_stream hs heof hfail hr with ⟨ha, rfl, rfl⟩ | ⟨k, hk, -, hkl, -⟩
    · exact ⟨ha, hx⟩
    · rw [hempty, List.length_nil] at hkl
      omega
  simp only [readStep] at h
  split at h
  · obtain ⟨ha, hx⟩ := hread _ _ h
    cases hx
    exact ⟨_, ha, rfl, rfl⟩
  · split at h
    · obtain ⟨ha, hx⟩ := hread _ _ h
      cases hx
      exact ⟨_, ha, rfl, rfl⟩
    · obtain ⟨ha, hx⟩ := hread _ _ h
      cases hx
      exact ⟨_, ha, rfl, rfl⟩

/-- A failed `select()` is remembered only while waiting. -/
theorem callStep_noError (hp : c.loc.pc ≠ .select true) (hans : ans ≠ .selectError)
    (h : callStep g n skips c ans = some c') : c'.loc.pc ≠ .select true := by
  obtain ⟨-, d, nx, hmove, rfl⟩ := callStep_move h
  cases hmove with
  | selecting err err' m hpc hw herr =>
    intro hc
    have herr' : err' = true := RecvPc.select.inj hc
    rcases herr herr' with rfl | rfl
    · exact hp hpc
    · exact hans rfl
  | selected | pass | enter | ringStop | ringMore | ringRead => simp
  | selectFailed | out => exact hp
  | ringCmd =>
    simp only [after_at]
    split <;> simp
  | read i e d nx hpc hread =>
    cases readStep_after hread with
    | again r' hpc' => simp [Call.after, hpc']
    | next r' hpc' => simp [Call.after, hpc']
    | block m => simp [Call.after]
    | fail g' n' d' => exact hp

/-- **One step of a call** on a node whose data-passing in-edges are byte streams. -/
theorem callStep_effect (hstd : StdNode g n) (hp : Placed g n skips c.loc.pc)
    (hok : ∀ j e, Active g n skips j e → StreamOk g t c.data e (more e))
    (hshort : ∀ j e, Active g n skips j e → c.loc.dest e < (g.edge e).attr.nrConsume)
    (heof : ans ≠ .eof) (hfail : ans ≠ .failed) (h : callStep g n skips c ans = some c') :
    CallEffect g n skips t more c ans c' := by
  obtain ⟨hret, d, nx, hmove, rfl⟩ := callStep_move h
  cases hmove with
  | selecting err err' m hpc =>
    exact .quiet rfl rfl (by simp [hpc]) rfl (fun j e _ => by simp [Call.after, Call.pos, RecvPc.pos, hpc])
  | selected hpc =>
    exact .quiet rfl rfl (by simp [hpc]) rfl (fun j e _ => by simp [Call.pos, RecvPc.pos, hpc])
  | pass i e hpc hi hn =>
    refine .quiet rfl rfl (by simp [hpc]) rfl (fun j e' ha => ?_)
    have hne : j ≠ i := by
      rintro rfl
      obtain rfl : e = e' := Option.some.inj (hi.symm.trans ha.1)
      exact hn ha
    simp only [after_at, Call.pos, RecvPc.pos, hpc]
    omega
  | enter i e hpc ha hr =>
    exact .quiet rfl rfl (by simp [hpc]) rfl (fun j e' _ => by simp [Call.pos, RecvPc.pos, hpc])
  | selectFailed hpc => exact .failed rfl rfl rfl hpc
  | out i hpc hi =>
    refine .returned rfl rfl rfl (by simp [hpc]) (fun j e ha => ?_)
    have hlen := List.getElem?_eq_none_iff.mp hi
    obtain ⟨hlt, -⟩ := List.getElem?_eq_some_iff.mp ha.1
    simp only [Call.pos, RecvPc.pos, hpc]
    omega
  | ringCmd i e hpc ha hr => rw [hstd.not_ring ha] at hr; cases hr
  | ringStop i e hpc | ringMore i e hpc | ringRead i e x q hpc => rw [hpc] at hp; exact hp.elim
  | read i e d nx hpc hread =>
    have hact : Active g n skips i e := by rw [hpc] at hp; exact hp
    have hs := hstd e hact.mem hact.2.1
    have hpos : c.pos = i := by simp [Call.pos, RecvPc.pos, hpc]
    rcases hok i e hact with hf₀ | ⟨-, hempty, -⟩
    · cases readStep_effect hs hf₀ (hshort i e hact) heof hfail hread with
      | eagain ha => exact .retry i e rfl rfl hpc ha rfl rfl
      | payload k s bs ha hf hrest hlen =>
        refine .payload e k s bs ha rfl rfl (hpos ▸ hact) hpos.symm ?_ hf₀ hf (hrest _) hlen
        funext e'
        by_cases he : e' = e
        · subst he; simp [Call.view, EdgeView.took, Recv.advance]
        · simp [Call.view, Recv.advance, he]
      | complete k s bs ha hf hrest hlen =>
        refine .complete e k s bs ha rfl rfl (hpos ▸ hact) (by rw [hpos]; rfl) ?_ hf₀ hf (hrest _) hlen
        funext e'
        by_cases he : e' = e
        · subst he; simp [Call.view, EdgeView.took, Recv.finish]
        · simp [Call.view, Recv.finish, he]
      | terminate ha ht htag hst hm =>
        refine .stop e ha rfl rfl (hpos ▸ hact) (by rw [hpos]; rfl) ht hf₀ ?_ hm ?_
        · simp [edgeRest, htag, hst, hm, Framing.strip]
        · funext e'
          by_cases he : e' = e
          · subst he; simp [Call.view, Data.countTerminate]
          · simp [Call.view, Data.countTerminate, he]
    · obtain ⟨m, ha, rfl, rfl⟩ := readStep_stopped hs hempty heof hfail hread
      exact .retry i e rfl rfl hpc ha rfl rfl

end call

end Pgm
