import Sync532.ServerCalls

namespace Sync532
variable {σ μ : Type*} {encode : μ → σ → EncodeCall → Option (σ × List Byte)}
  {blocksize : ℕ}

/-- The step that is at `writer` uses that buffer, and leaves the others. -/
theorem receiveStep_ring {r : Receive × μ} {s : ServerState σ}
    (hw : s.ring.writer < numPackets) :
    (r.1 = .failed → (receiveStep encode blocksize r s).1.call =
      some (s.ring.input ⟨s.ring.writer, hw⟩).call) ∧
      ∀ s', (receiveStep encode blocksize r s).2 = some s' →
        s'.ring.writer = s.ring.writer+1 ∧
        (receiveStep encode blocksize r s).1.call =
          some (s'.ring.input ⟨s.ring.writer, hw⟩).call ∧
        ∀ i : Fin numPackets, i.val ≠ s.ring.writer → s'.ring.input i = s.ring.input i := by
  rcases hreceive : s.ring.receive blocksize r.1 with _ | ⟨call, ring⟩
  · rw [receiveStep_of_none hreceive]
    refine ⟨?_, fun s' hs' => by cases hs'⟩
    intro hfail
    -- a failed receive delivers nothing, so it always fits
    rw [hfail] at hreceive
    have hfits : (Receive.failed.delivered blocksize).length ≤ numElements+header := Nat.zero_le _
    obtain ⟨call, ring, hsome⟩ := PacketRing.receive_defined hw hfits
    rw [hsome] at hreceive
    cases hreceive
  · rw [receiveStep_of_some hreceive]
    obtain ⟨hplace, buffer, -, hbytes, rfl, rfl⟩ := PacketRing.receive_eq_some hreceive
    refine ⟨?_, ?_⟩
    · intro hfail
      rw [hfail] at hbytes
      have hsame : buffer.bytes = (s.ring.input ⟨s.ring.writer, hw⟩).bytes := hbytes
      simp only [Slot.call, hsame]
    · intro s' hs'
      obtain ⟨t, -, rfl⟩ := Option.map_eq_some_iff.mp hs'
      refine ⟨rfl, ?_, ?_⟩
      · simp only [Function.update_self]
      · intro i hi
        exact Function.update_of_ne (fun he => hi (congrArg Fin.val he)) _ _

theorem ring_succ {a : ℕ} (ha : a < numPackets) :
    (if a+1 = numPackets then 0 else a+1) = (a+1)%numPackets := by
  unfold numPackets at *
  split_ifs <;> omega

theorem ring_step (a j : ℕ) : ((a+1)%numPackets+j)%numPackets = (a+(j+1))%numPackets := by
  unfold numPackets
  omega

theorem ring_other {a j : ℕ} (hj : j+1 < numPackets) :
    (a+(j+1))%numPackets ≠ a := by
  unfold numPackets at *
  omega

/-- The first step of the loop, and the steps behind it as a loop of their own. -/
theorem serverLoop_first {rs : List (Receive × μ)} {s : ServerState σ} {step : ReceiveStep}
    (h : (serverLoop encode blocksize rs s)[0]? = some step) :
    ∃ r rs', rs = r :: rs' ∧ step = (receiveStep encode blocksize r s.wrap).1 := by
  rcases rs with _ | ⟨r, rs⟩
  · cases h
  · unfold serverLoop at h
    split_ifs at h
    · cases h
    · exact ⟨r, rs, rfl, (Option.some.inj h).symm⟩

theorem serverLoop_later {r : Receive × μ} {rs : List (Receive × μ)} {s : ServerState σ}
    {j : ℕ} {step : ReceiveStep}
    (h : (serverLoop encode blocksize (r :: rs) s)[j+1]? = some step) :
    ∃ s', (receiveStep encode blocksize r s.wrap).2 = some s' ∧
      (serverLoop encode blocksize rs s')[j]? = some step ∧
      ∀ k, (serverLoop encode blocksize (r :: rs) s)[k+1]? =
        (serverLoop encode blocksize rs s')[k]? := by
  have hcons : serverLoop encode blocksize (r :: rs) s = if s.ring.done then [] else
      (receiveStep encode blocksize r s.wrap).1 ::
        (receiveStep encode blocksize r s.wrap).2.elim [] (serverLoop encode blocksize rs) := by
    rw [serverLoop]
  rw [hcons] at h ⊢
  split_ifs at h ⊢ with hdone
  · cases h
  · rw [List.getElem?_cons_succ] at h
    rcases hnext : (receiveStep encode blocksize r s.wrap).2 with _ | s'
    · rw [hnext] at h
      cases h
    · rw [hnext, Option.elim_some] at h
      exact ⟨s', rfl, h, fun k => by rw [List.getElem?_cons_succ, Option.elim_some]⟩

theorem wrap_writer_eq {s : ServerState σ} {w : ℕ} (hw : w < numPackets)
    (h : s.ring.writer = w+1) : s.wrap.ring.writer = (w+1)%numPackets := by
  change (if s.ring.writer = numPackets then 0 else s.ring.writer) = _
  rw [h, ring_succ hw]

/-- The buffer that `writer` reaches after `j` more steps keeps its content until then. -/
theorem serverLoop_keeps (w : Fin numPackets) (j : ℕ) (hj : j < numPackets) :
    ∀ (rs : List (Receive × μ)) (s : ServerState σ), s.ring.writer ≤ numPackets →
      (s.wrap.ring.writer+j)%numPackets = w.val →
      ∀ step, (serverLoop encode blocksize rs s)[j]? = some step → step.receive = .failed →
        step.call = some (s.ring.input w).call := by
  -- each step in between is at another buffer
  induction j with
  | zero =>
    intro rs s hs hplace step hstep hfail
    have hw : s.wrap.ring.writer < numPackets := PacketRing.wrap_writer hs
    rw [Nat.add_zero, Nat.mod_eq_of_lt hw] at hplace
    have hsame : (⟨s.wrap.ring.writer, hw⟩ : Fin numPackets) = w := Fin.ext hplace
    obtain ⟨r, rs, rfl, rfl⟩ := serverLoop_first hstep
    rw [receiveStep_receive] at hfail
    rw [(receiveStep_ring hw).1 hfail, hsame]
    rfl
  | succ j ih =>
    intro rs s hs hplace step hstep hfail
    have hw : s.wrap.ring.writer < numPackets := PacketRing.wrap_writer hs
    rcases rs with _ | ⟨r, rs⟩
    · cases hstep
    · obtain ⟨s', hnext, hlater, -⟩ := serverLoop_later hstep
      obtain ⟨hwriter, -, hothers⟩ := (receiveStep_ring hw).2 s' hnext
      have hwrap := wrap_writer_eq hw hwriter
      have hother : w.val ≠ s.wrap.ring.writer := by
        rw [← hplace]
        exact ring_other hj
      rw [ih (Nat.lt_of_succ_lt hj) rs s' (receiveStep_writer hnext)
        (by rw [hwrap, ring_step, hplace]) step hlater hfail, hothers w hother]
      rfl

theorem serverLoop_repeats (k : ℕ) :
    ∀ (rs : List (Receive × μ)) (s : ServerState σ), s.ring.writer ≤ numPackets →
      ∀ before step, (serverLoop encode blocksize rs s)[k]? = some before →
        (serverLoop encode blocksize rs s)[k+numPackets]? = some step →
        step.receive = .failed → step.call = before.call := by
  induction k with
  | zero =>
    intro rs s hs before step hbefore hstep hfail
    have hw : s.wrap.ring.writer < numPackets := PacketRing.wrap_writer hs
    obtain ⟨r, rs, rfl, rfl⟩ := serverLoop_first hbefore
    have hseven : 0+numPackets = 7+1 := rfl
    rw [hseven] at hstep
    obtain ⟨s', hnext, hlater, -⟩ := serverLoop_later hstep
    obtain ⟨hwriter, hcall, -⟩ := (receiveStep_ring hw).2 s' hnext
    rw [hcall]
    -- seven steps behind the next one `writer` is back
    apply serverLoop_keeps ⟨s.wrap.ring.writer, hw⟩ 7 (by decide) rs s'
      (receiveStep_writer hnext) _ step hlater hfail
    rw [wrap_writer_eq hw hwriter, ring_step]
    exact (Nat.add_mod_right _ _).trans (Nat.mod_eq_of_lt hw)
  | succ k ih =>
    intro rs s hs before step hbefore hstep hfail
    rcases rs with _ | ⟨r, rs⟩
    · cases hstep
    · rw [Nat.add_right_comm] at hstep
      obtain ⟨s', hnext, hlater, hall⟩ := serverLoop_later hstep
      rw [hall] at hbefore
      exact ih rs s' (receiveStep_writer hnext) before step hbefore hlater hfail

/-- A step without a datagram makes the call of eight steps before once more; among the
first eight it works on what its buffer held at the start. -/
theorem serverMain_failed_receive (input : Fin numPackets → Slot) (file : List Byte) (table : σ)
    (rs : List (Receive × μ)) (i : ℕ) (step : ReceiveStep)
    (hstep : (serverMain encode blocksize input file table rs)[i]? = some step)
    (hfail : step.receive = .failed) :
    (∀ hi : i < numPackets, step.call =
        some (input ⟨(pipeDepth+i)%numPackets, Nat.mod_lt _ (Nat.zero_lt_of_lt hi)⟩).call) ∧
      ∀ k before, i = k+numPackets →
        (serverMain encode blocksize input file table rs)[k]? = some before →
        step.call = before.call := by
  have hdepth : pipeDepth ≤ numPackets := by decide
  rw [serverMain_eq_loop] at hstep ⊢
  constructor
  · intro hi
    exact serverLoop_keeps ⟨(pipeDepth+i)%numPackets, _⟩ i hi rs _ hdepth rfl step hstep hfail
  · rintro k before rfl hbefore
    exact serverLoop_repeats k rs _ hdepth before step hbefore hstep hfail

/-- An `encode` that writes nothing. -/
def idleEncode (_ : Unit) (_ : Unit) (_ : EncodeCall) : Option (Unit × List Byte) := some ((), [])

/-- Nine failed receives: the ninth step repeats the call of the first one. -/
theorem serverMain_failed_receive_nine :
    ∃ step before,
      (serverMain idleEncode 2 zeroInput [] () (List.replicate 9 (.failed, ())))[8]? =
          some step ∧
        (serverMain idleEncode 2 zeroInput [] () (List.replicate 9 (.failed, ())))[0]? =
          some before ∧
        step.call = before.call := by
  refine ⟨_, _, rfl, rfl, ?_⟩
  exact (serverMain_failed_receive zeroInput [] () (List.replicate 9 (.failed, ())) 8 _
    rfl rfl).2 0 _ rfl rfl

/-- The index behind `w` in the ring. -/
def nextWriter (w : Fin numPackets) : Fin numPackets :=
  ⟨(w.val+1)%numPackets, Nat.mod_lt _ (by decide)⟩

/-- The calls of `encode` on payloads that are stored into the buffers one after the other,
each in front of what its buffer held behind the header. -/
def bufferCalls : (Fin numPackets → List Byte) → Fin numPackets → List (List Byte × μ) →
    List (EncodeCall × μ)
  | _, _, [] => []
  | buffers, writer, p :: ps =>
    let inputBuf := p.1 ++ (buffers writer).drop p.1.length
    (⟨inputBuf, p.1.length⟩, p.2) ::
      bufferCalls (Function.update buffers writer inputBuf) (nextWriter writer) ps

theorem bufferCalls_payload (buffers : Fin numPackets → List Byte) (w : Fin numPackets)
    (ps : List (List Byte × μ)) :
    (bufferCalls buffers w ps).map (fun c => c.1.payload) = ps.map Prod.fst := by
  induction ps generalizing buffers w with
  | nil => rfl
  | cons p ps ih =>
    rw [bufferCalls, List.map_cons, List.map_cons, ih]
    congr 1
    exact List.take_left

/-- Payloads of one length leave what stands behind them. -/
theorem bufferCalls_uniform {n : ℕ} {rest : List Byte} {buffers : Fin numPackets → List Byte}
    (hbuffers : ∀ i, (buffers i).drop n = rest) {ps : List (List Byte × μ)}
    (hps : ∀ p ∈ ps, p.1.length = n) (w : Fin numPackets) :
    bufferCalls buffers w ps = ps.map (fun p => (⟨p.1 ++ rest, n⟩, p.2)) := by
  induction ps generalizing buffers w with
  | nil => rfl
  | cons p ps ih =>
    obtain ⟨hp, hrest⟩ := List.forall_mem_cons.mp hps
    rw [bufferCalls, List.map_cons, hp, hbuffers, ih ?_ hrest]
    intro i
    by_cases hi : i = w
    · rw [hi, Function.update_self, List.drop_left' hp]
    · rw [Function.update_of_ne hi, hbuffers]

/-- `encode` returns on the payloads one after the other, each stored into its packet buffer,
with its output inside `file`. -/
def ReturnsOn (encode : μ → σ → EncodeCall → Option (σ × List Byte))
    (input : Fin numPackets → Slot) (file : List Byte) (table : σ)
    (payloads : List (List Byte × μ)) : Prop :=
  (callsRun encode (bufferCalls (fun i => (input i).bytes.drop header) ⟨pipeDepth, by decide⟩
    payloads) (table, ⟨file, 0⟩)).isSome

/-- A whole packet with nothing behind its payload. -/
structure Receive.Exact (blocksize : ℕ) (r : Receive) : Prop where
  fits : (r.delivered blocksize).length ≤ numElements+header
  framed : header+packetLength (r.delivered blocksize) = (r.delivered blocksize).length

theorem Receive.Exact.complete {r : Receive} (h : r.Exact blocksize) : r.Complete blocksize :=
  ⟨h.fits, h.framed.le⟩

/-- The bytes of the buffers behind the headers. -/
def PacketRing.payloads (ring : PacketRing) (i : Fin numPackets) : List Byte :=
  (ring.input i).bytes.drop header

theorem PacketRing.receive_exact {r : Receive} {ring ring' : PacketRing} {call : EncodeCall}
    (hr : r.Exact blocksize) (h : ring.receive blocksize r = some (call, ring'))
    (hw : ring.writer < numPackets) :
    let payload := packetPayload (r.delivered blocksize)
    let inputBuf := payload ++ (ring.payloads ⟨ring.writer, hw⟩).drop payload.length
    call = ⟨inputBuf, payload.length⟩ ∧
      ring'.payloads = Function.update ring.payloads ⟨ring.writer, hw⟩ inputBuf := by
  have hframed := hr.framed
  have hheader : header ≤ (r.delivered blocksize).length := by omega
  have hpayload : packetPayload (r.delivered blocksize) = (r.delivered blocksize).drop header := by
    rw [packetPayload]
    apply List.take_of_length_le
    rw [List.length_drop]
    omega
  have hlen : (packetPayload (r.delivered blocksize)).length =
      packetLength (r.delivered blocksize) := by
    rw [hpayload, List.length_drop]
    omega
  obtain ⟨hplace, buffer, -, hbytes, rfl, rfl⟩ := receive_eq_some h
  -- the payload ends where the old bytes of the buffer begin
  have hold : buffer.bytes.drop header = packetPayload (r.delivered blocksize) ++
      (ring.payloads ⟨ring.writer, hw⟩).drop
        (packetPayload (r.delivered blocksize)).length := by
    rw [hbytes, List.drop_append_of_le_length hheader, hpayload, payloads, List.drop_drop,
      List.length_drop, Nat.add_sub_cancel' hheader]
  constructor
  · rw [← hold, hlen, Slot.call, hbytes, packetLength_append _ _ hheader]
  · rw [← hold]
    funext i
    simp only [payloads, Function.update_apply]
    split_ifs <;> rfl

/-- On packets with nothing behind their payloads the calls are on the payloads in the
buffers, up to the first done bit. -/
theorem ringCalls_exact (rs more : List (Receive × μ)) (hrs : ∀ r ∈ rs, r.1.Exact blocksize)
    (hmore : more = [] ∨ ∃ r ∈ rs, packetDone (r.1.delivered blocksize) = true)
    (ring : PacketRing) (w : Fin numPackets) (hw : ring.wrap.writer = w.val)
    (hdone : ring.done = false) :
    ringCalls blocksize (rs ++ more) ring = some (bufferCalls ring.payloads w
      ((upTo (fun r => packetDone (r.1.delivered blocksize)) rs).map
        (fun r => (packetPayload (r.1.delivered blocksize), r.2)))) := by
  induction rs generalizing ring w with
  | nil =>
    rcases hmore with rfl | hlast
    · rfl
    · obtain ⟨r, hr, -⟩ := hlast
      exact absurd hr List.not_mem_nil
  | cons r rs ih =>
    obtain ⟨hr, hrest⟩ := List.forall_mem_cons.mp hrs
    have hplace : ring.wrap.writer < numPackets := hw ▸ w.isLt
    obtain rfl : (⟨ring.wrap.writer, hplace⟩ : Fin numPackets) = w := Fin.ext hw
    obtain ⟨call, ring', hreceive, -, -, hstop⟩ :=
      PacketRing.receive_complete hplace hr.complete
    obtain ⟨hcall, hbuffers⟩ := PacketRing.receive_exact hr hreceive hplace
    rw [List.cons_append, ringCalls_cons hdone hreceive, upTo]
    rcases hlast : packetDone (r.1.delivered blocksize) with _ | _
    · have hmore' : more = [] ∨ ∃ r ∈ rs, packetDone (r.1.delivered blocksize) = true := by
        refine hmore.imp_right (fun h => ?_)
        obtain ⟨r', hr', hd⟩ := h
        rcases List.mem_cons.mp hr' with rfl | hr'
        · exact absurd (hlast.symm.trans hd) (by decide)
        · exact ⟨r', hr', hd⟩
      have hrun := ih hrest hmore' ring' (nextWriter ⟨ring.wrap.writer, hplace⟩) ?_
        (hstop.trans hlast)
      · rw [hrun, if_neg (by decide), List.map_cons, hbuffers, hcall]
        rfl
      · obtain ⟨-, buffer, -, -, -, rfl⟩ := PacketRing.receive_eq_some hreceive
        exact ring_succ hplace
    · rw [ringCalls_stopped (hstop.trans hlast), if_pos rfl, hcall]
      rfl

end Sync532
