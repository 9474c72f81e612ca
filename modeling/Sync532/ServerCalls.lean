import Sync532.DatagramNetwork
import Sync532.ServerLoop

namespace Sync532
variable {σ μ : Type*}

/-- The bytes that a call passes to `encode` as its payload. -/
def EncodeCall.payload (call : EncodeCall) : List Byte := call.inputBuf.take call.inlength

def ReceiveStep.payload (step : ReceiveStep) : List Byte := step.call.elim [] EncodeCall.payload

/-- The bytes behind the header of a datagram, as many as the header says. -/
def packetPayload (d : List Byte) : List Byte := (d.drop header).take (packetLength d)

/-- The call of the step has returned, with its output inside `file`. -/
def ReceiveStep.Returned (step : ReceiveStep) : Prop := step.after.isSome

instance : DecidablePred ReceiveStep.Returned :=
  fun step => inferInstanceAs (Decidable (step.after.isSome = true))

/-- The file at the end of the steps. -/
def serverFile (start : FileBuffer) (steps : List ReceiveStep) : Option FileBuffer :=
  steps.getLast?.elim (some start) ReceiveStep.after

/-- The calls of `encode` that `main` makes as long as they return. A datagram for which
the buffer has no room is undefined. -/
def ringCalls (blocksize : ℕ) :
    List (Receive × μ) → PacketRing → Option (List (EncodeCall × μ))
  | [], _ => some []
  | r :: rs, ring =>
    if ring.done then some []
    else (ring.wrap.receive blocksize r.1).bind (fun (call, ring) =>
      (ringCalls blocksize rs ring).map (fun calls => (call, r.2) :: calls))

section Runs
variable (encode : μ → σ → EncodeCall → Option (σ × List Byte)) {blocksize : ℕ}

/-- One call of `encode` after the other. -/
def callsRun (calls : List (EncodeCall × μ)) (s : σ × FileBuffer) : Option (σ × FileBuffer) :=
  calls.foldlM (callStep encode) s

theorem serverFile_cons_none (start : FileBuffer) {step : ReceiveStep} (h : step.after = none) :
    serverFile start [step] = none := h

theorem serverFile_cons_some (start : FileBuffer) {step : ReceiveStep} {out : FileBuffer}
    (h : step.after = some out) (steps : List ReceiveStep) :
    serverFile start (step :: steps) = serverFile out steps := by
  rw [serverFile, List.getLast?_cons, serverFile]
  cases steps.getLast? with
  | none => exact h
  | some last => rfl

theorem serverLoop_stopped {s : ServerState σ} (hdone : s.ring.done = true)
    (rs : List (Receive × μ)) : serverLoop encode blocksize rs s = [] := by
  cases rs with
  | nil => rfl
  | cons r rs => rw [serverLoop, if_pos hdone]

theorem ringCalls_stopped {ring : PacketRing} (hdone : ring.done = true)
    (rs : List (Receive × μ)) : ringCalls blocksize rs ring = some [] := by
  cases rs with
  | nil => rfl
  | cons r rs => rw [ringCalls, if_pos hdone]

/-- The loop in one step: it has stopped, it ends in a receive or a call that does not return,
or it goes on from the next state. -/
theorem serverLoop_cases (blocksize : ℕ) (r : Receive × μ) (s : ServerState σ) :
    s.ring.done = true ∨
    (s.ring.done = false ∧ s.ring.wrap.receive blocksize r.1 = none ∧
      ∀ rs, serverLoop encode blocksize (r :: rs) s = [⟨r.1, none, s.out, none⟩]) ∨
    ∃ call ring, s.ring.done = false ∧ s.ring.wrap.receive blocksize r.1 = some (call, ring) ∧
      ((callStep encode (s.table, s.out) (call, r.2) = none ∧
        ∀ rs, serverLoop encode blocksize (r :: rs) s = [⟨r.1, some call, s.out, none⟩]) ∨
      ∃ table out, callStep encode (s.table, s.out) (call, r.2) = some (table, out) ∧
        ∀ rs, serverLoop encode blocksize (r :: rs) s =
          ⟨r.1, some call, s.out, some out⟩ ::
            serverLoop encode blocksize rs ⟨ring, table, out⟩) := by
  rcases hdone : s.ring.done with _ | _
  · right
    have hgo (rs : List (Receive × μ)) : serverLoop encode blocksize (r :: rs) s =
        (receiveStep encode blocksize r s.wrap).1 ::
          (receiveStep encode blocksize r s.wrap).2.elim [] (serverLoop encode blocksize rs) := by
      rw [serverLoop, hdone, if_neg (by decide)]
    rcases hring : s.ring.wrap.receive blocksize r.1 with _ | ⟨call, ring⟩
    · have hstep : receiveStep encode blocksize r s.wrap = _ :=
        receiveStep_of_none hring
      exact Or.inl ⟨rfl, rfl, fun rs => by rw [hgo, hstep]; rfl⟩
    · have hstep : receiveStep encode blocksize r s.wrap =
          (⟨r.1, some call, s.out, (callStep encode (s.table, s.out) (call, r.2)).map Prod.snd⟩,
            (callStep encode (s.table, s.out) (call, r.2)).map (fun t => ⟨ring, t.1, t.2⟩)) :=
        receiveStep_of_some hring
      right
      refine ⟨call, ring, rfl, rfl, ?_⟩
      rcases hcall : callStep encode (s.table, s.out) (call, r.2) with _ | ⟨table, out⟩
      · exact Or.inl ⟨rfl, fun rs => by rw [hgo, hstep, hcall]; rfl⟩
      · exact Or.inr ⟨table, out, rfl, fun rs => by rw [hgo, hstep, hcall]; rfl⟩
  · exact Or.inl rfl

theorem ringCalls_cons {r : Receive × μ} {rs : List (Receive × μ)} {ring ring' : PacketRing}
    {call : EncodeCall} (hdone : ring.done = false)
    (h : ring.wrap.receive blocksize r.1 = some (call, ring')) :
    ringCalls blocksize (r :: rs) ring =
      (ringCalls blocksize rs ring').map (fun calls => (call, r.2) :: calls) := by
  rw [ringCalls, hdone, if_neg (by decide), h]
  rfl

theorem ringCalls_none {r : Receive × μ} {rs : List (Receive × μ)} {ring : PacketRing}
    (hdone : ring.done = false) (h : ring.wrap.receive blocksize r.1 = none) :
    ringCalls blocksize (r :: rs) ring = none := by
  rw [ringCalls, hdone, if_neg (by decide), h]
  rfl

/-- The loop is a run of `encode` over the calls of its ring. -/
theorem serverLoop_file (rs : List (Receive × μ)) (s : ServerState σ) :
    serverFile s.out (serverLoop encode blocksize rs s) =
      (ringCalls blocksize rs s.ring).bind (fun calls =>
        (callsRun encode calls (s.table, s.out)).map Prod.snd) := by
  induction rs generalizing s with
  | nil => rfl
  | cons r rs ih =>
    rcases serverLoop_cases encode blocksize r s with
      hdone | ⟨hdone, hring, hloop⟩ | ⟨call, ring, hdone, hring, hstep⟩
    · rw [serverLoop_stopped encode hdone, ringCalls_stopped hdone]
      rfl
    · rw [ringCalls_none hdone hring, hloop]
      rfl
    · rw [ringCalls_cons hdone hring]
      rcases hstep with ⟨hcall, hloop⟩ | ⟨table, out, hcall, hloop⟩
      · rw [hloop, serverFile_cons_none _ rfl]
        cases ringCalls blocksize rs ring with
        | none => rfl
        | some calls => simp [callsRun, hcall]
      · rw [hloop, serverFile_cons_some _ rfl]
        refine (ih ⟨ring, table, out⟩).trans ?_
        cases ringCalls blocksize rs ring with
        | none => rfl
        | some calls => simp [callsRun, hcall]

/-- Only the last step of a run can be one that has not returned. -/
theorem serverLoop_returned_iff (rs : List (Receive × μ)) (s : ServerState σ) :
    (∀ step ∈ serverLoop encode blocksize rs s, step.Returned) ↔
      (serverFile s.out (serverLoop encode blocksize rs s)).isSome := by
  induction rs generalizing s with
  | nil => exact iff_of_true (fun step hstep => absurd hstep List.not_mem_nil) rfl
  | cons r rs ih =>
    have hlost (step : ReceiveStep) (h : step.after = none) :
        (∀ t ∈ [step], t.Returned) ↔ (serverFile s.out [step]).isSome := by
      rw [serverFile_cons_none _ h, List.forall_mem_singleton, ReceiveStep.Returned, h]
    rcases serverLoop_cases encode blocksize r s with
      hdone | ⟨-, -, hloop⟩ |
        ⟨call, ring, -, -, ⟨-, hloop⟩ | ⟨table, out, -, hloop⟩⟩
    · rw [serverLoop_stopped encode hdone]
      exact iff_of_true (fun step hstep => absurd hstep List.not_mem_nil) rfl
    · rw [hloop]
      exact hlost _ rfl
    · rw [hloop]
      exact hlost _ rfl
    · rw [hloop, serverFile_cons_some _ rfl, List.forall_mem_cons]
      exact (and_iff_right rfl).trans (ih ⟨ring, table, out⟩)

/-- The steps make the calls of the ring one by one, all of them when they return. -/
theorem serverLoop_calls (rs : List (Receive × μ)) (s : ServerState σ)
    {calls : List (EncodeCall × μ)} (h : ringCalls blocksize rs s.ring = some calls) :
    (serverLoop encode blocksize rs s).map ReceiveStep.call <+: calls.map (fun c => some c.1) ∧
      ((∀ step ∈ serverLoop encode blocksize rs s, step.Returned) →
        (serverLoop encode blocksize rs s).map ReceiveStep.call =
          calls.map (fun c => some c.1)) := by
  induction rs generalizing s calls with
  | nil =>
    rw [← Option.some.inj h]
    exact ⟨List.prefix_rfl, fun _ => rfl⟩
  | cons r rs ih =>
    rcases serverLoop_cases encode blocksize r s with
      hdone | ⟨hdone, hring, -⟩ | ⟨call, ring, hdone, hring, hstep⟩
    · rw [ringCalls_stopped hdone] at h
      rw [serverLoop_stopped encode hdone, ← Option.some.inj h]
      exact ⟨List.prefix_rfl, fun _ => rfl⟩
    · rw [ringCalls_none hdone hring] at h
      cases h
    · rw [ringCalls_cons hdone hring] at h
      obtain ⟨calls, hrest, rfl⟩ := Option.map_eq_some_iff.mp h
      rcases hstep with ⟨-, hloop⟩ | ⟨table, out, -, hloop⟩
      · rw [hloop, List.forall_mem_singleton]
        exact ⟨⟨calls.map (fun c => some c.1), rfl⟩,
          fun hno => absurd hno Bool.false_ne_true⟩
      · obtain ⟨hbegin, hall⟩ := ih ⟨ring, table, out⟩ hrest
        rw [hloop, List.forall_mem_cons, List.map_cons, List.map_cons]
        refine ⟨(List.prefix_cons_inj _).mpr hbegin, ?_⟩
        rintro ⟨-, hreturned⟩
        rw [hall hreturned]

theorem serverLoop_payloads (rs : List (Receive × μ)) (s : ServerState σ)
    {calls : List (EncodeCall × μ)} (h : ringCalls blocksize rs s.ring = some calls) :
    (serverLoop encode blocksize rs s).map ReceiveStep.payload <+:
        calls.map (fun c => c.1.payload) ∧
      ((∀ step ∈ serverLoop encode blocksize rs s, step.Returned) →
        (serverLoop encode blocksize rs s).map ReceiveStep.payload =
          calls.map (fun c => c.1.payload)) := by
  have hsteps : (serverLoop encode blocksize rs s).map ReceiveStep.payload =
      ((serverLoop encode blocksize rs s).map ReceiveStep.call).map
        (fun call => call.elim [] EncodeCall.payload) := by
    rw [List.map_map]
    rfl
  have hcalls : calls.map (fun c => c.1.payload) =
      (calls.map (fun c => some c.1)).map (fun call => call.elim [] EncodeCall.payload) := by
    rw [List.map_map]
    rfl
  obtain ⟨hbegin, hall⟩ := serverLoop_calls encode rs s h
  rw [hsteps, hcalls]
  exact ⟨hbegin.map _, fun hreturned => by rw [hall hreturned]⟩

/-- Behind a call that has not returned nothing is received. -/
theorem serverLoop_lost (rs : List (Receive × μ)) (s : ServerState σ)
    (hlost : ∃ step ∈ serverLoop encode blocksize rs s, ¬step.Returned)
    (more : List (Receive × μ)) :
    serverLoop encode blocksize (rs ++ more) s = serverLoop encode blocksize rs s := by
  induction rs generalizing s with
  | nil =>
    obtain ⟨step, hstep, -⟩ := hlost
    exact absurd hstep List.not_mem_nil
  | cons r rs ih =>
    rw [List.cons_append]
    rcases serverLoop_cases encode blocksize r s with
      hdone | ⟨-, -, hloop⟩ |
        ⟨call, ring, -, -, ⟨-, hloop⟩ | ⟨table, out, -, hloop⟩⟩
    · rw [serverLoop_stopped encode hdone, serverLoop_stopped encode hdone]
    · rw [hloop, hloop]
    · rw [hloop, hloop]
    · rw [hloop] at hlost
      rw [hloop, hloop, ih]
      obtain ⟨step, hstep, hno⟩ := hlost
      rcases List.mem_cons.mp hstep with rfl | hstep
      · exact absurd rfl hno
      · exact ⟨step, hstep, hno⟩

end Runs

section Packets
variable {blocksize : ℕ}

/-- A receive of a whole packet: its payload is passed on, and its done bit taken over. -/
theorem PacketRing.receive_complete {r : Receive} {ring : PacketRing}
    (hw : ring.writer < numPackets) (hr : r.Complete blocksize) :
    ∃ call ring', ring.receive blocksize r = some (call, ring') ∧
      call.payload = packetPayload (r.delivered blocksize) ∧
      (call.inlength ≤ numElements ∧ call.inputBuf.length = numElements) ∧
      ring'.done = packetDone (r.delivered blocksize) := by
  have hframed := hr.framed
  have hfits := hr.fits
  have hheader : header ≤ (r.delivered blocksize).length := by omega
  obtain ⟨call, ring', hreceive⟩ := receive_defined hw hfits
  obtain ⟨hplace, buffer, -, hbytes, rfl, rfl⟩ := receive_eq_some hreceive
  have hlength : packetLength buffer.bytes = packetLength (r.delivered blocksize) := by
    rw [hbytes, packetLength_append _ _ hheader]
  refine ⟨_, _, hreceive, ?_, ⟨?_, ?_⟩, ?_⟩
  · -- both header bytes are new, so nothing old of the buffer is read
    have hinside : packetLength (r.delivered blocksize) ≤
        ((r.delivered blocksize).drop header).length := by
      rw [List.length_drop]
      omega
    rw [EncodeCall.payload, Slot.call, hlength, hbytes, List.drop_append_of_le_length hheader,
      List.take_append_of_le_length hinside]
    rfl
  · change packetLength buffer.bytes ≤ numElements
    omega
  · change (buffer.bytes.drop header).length = numElements
    rw [List.length_drop, buffer.size, Nat.add_sub_cancel]
  · change packetDone buffer.bytes = packetDone (r.delivered blocksize)
    rw [hbytes, packetDone_append _ _ hheader]

/-- On whole packets the calls are on the payloads up to the first done bit. -/
theorem ringCalls_complete (rs : List (Receive × μ)) (hrs : ∀ r ∈ rs, r.1.Complete blocksize)
    (ring : PacketRing) (hw : ring.writer ≤ numPackets) (hdone : ring.done = false) :
    ∃ calls, ringCalls blocksize rs ring = some calls ∧
      calls.map (fun c => c.1.payload) =
        (upTo packetDone (rs.map (fun r => r.1.delivered blocksize))).map packetPayload ∧
      ∀ c ∈ calls, c.1.inlength ≤ numElements ∧ c.1.inputBuf.length = numElements := by
  induction rs generalizing ring with
  | nil => exact ⟨[], rfl, rfl, fun c hc => absurd hc List.not_mem_nil⟩
  | cons r rs ih =>
    obtain ⟨hr, hrest⟩ := List.forall_mem_cons.mp hrs
    obtain ⟨call, ring', hreceive, hpayload, hsize, hstop⟩ :=
      PacketRing.receive_complete (PacketRing.wrap_writer hw) hr
    rw [ringCalls_cons hdone hreceive, List.map_cons, upTo]
    rcases hlast : packetDone (r.1.delivered blocksize) with _ | _
    · obtain ⟨calls, hcalls, hpayloads, hsizes⟩ :=
        ih hrest ring' (PacketRing.receive_writer hreceive) (hstop.trans hlast)
      rw [hcalls, if_neg (by decide), List.map_cons]
      exact ⟨_, rfl, by rw [List.map_cons, hpayload, hpayloads],
        List.forall_mem_cons.mpr ⟨hsize, hsizes⟩⟩
    · -- the done bit is set, and the loop does not look at the rest
      rw [ringCalls_stopped (hstop.trans hlast), if_pos rfl]
      exact ⟨_, rfl, by rw [List.map_cons, hpayload]; rfl, List.forall_mem_singleton.mpr hsize⟩

/-- What comes behind a done bit is not looked at. -/
theorem serverLoop_done (encode : μ → σ → EncodeCall → Option (σ × List Byte))
    (rs : List (Receive × μ)) (hrs : ∀ r ∈ rs, r.1.Complete blocksize)
    (hlast : ∃ r ∈ rs, packetDone (r.1.delivered blocksize) = true)
    (more : List (Receive × μ)) (s : ServerState σ) (hw : s.ring.writer ≤ numPackets) :
    serverLoop encode blocksize (rs ++ more) s = serverLoop encode blocksize rs s := by
  induction rs generalizing s with
  | nil =>
    obtain ⟨r, hr, -⟩ := hlast
    exact absurd hr List.not_mem_nil
  | cons r rs ih =>
    obtain ⟨hr, hrest⟩ := List.forall_mem_cons.mp hrs
    rw [List.cons_append]
    rcases serverLoop_cases encode blocksize r s with
      hdone | ⟨-, -, hloop⟩ |
        ⟨call, ring, -, hring, ⟨-, hloop⟩ | ⟨table, out, -, hloop⟩⟩
    · rw [serverLoop_stopped encode hdone, serverLoop_stopped encode hdone]
    · rw [hloop, hloop]
    · rw [hloop, hloop]
    · rw [hloop, hloop]
      obtain ⟨call', ring', hreceive, -, -, hstop⟩ :=
        PacketRing.receive_complete (PacketRing.wrap_writer hw) hr
      obtain ⟨rfl, rfl⟩ := Prod.mk.inj (Option.some.inj (hring.symm.trans hreceive))
      rcases hd : packetDone (r.1.delivered blocksize) with _ | _
      · -- then the done bit stands further behind
        obtain ⟨r', hr', hdone'⟩ := hlast
        rcases List.mem_cons.mp hr' with rfl | hr'
        · exact absurd (hd.symm.trans hdone') (by decide)
        · rw [ih hrest ⟨r', hr', hdone'⟩ _ (PacketRing.receive_writer hring)]
      · have hstopped : (⟨ring, table, out⟩ : ServerState σ).ring.done = true :=
          hstop.trans hd
        rw [serverLoop_stopped encode hstopped, serverLoop_stopped encode hstopped]

end Packets

end Sync532
