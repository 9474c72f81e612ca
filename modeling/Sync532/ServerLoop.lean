import Mathlib.Data.List.GetD
import Sync532.EncodeRecords
import Sync532.ServerModel

namespace Sync532

/-- A datagram that fits the buffer and is at least as long as its header says. -/
structure Receive.Complete (blocksize : ℕ) (r : Receive) : Prop where
  fits : (r.delivered blocksize).length ≤ numElements+header
  framed : header+packetLength (r.delivered blocksize) ≤ (r.delivered blocksize).length

/-- The step passes to `encode` only bytes that its receive delivered, and without a
datagram the file stays as it was. -/
def ReceiveStep.UsesReceived (blocksize : ℕ) (step : ReceiveStep) : Prop :=
  ∃ call, step.call = some call ∧
    match step.receive with
    | .failed => call.inlength = 0 ∧ step.after = some step.before
    | .datagram bytes =>
      (call.inlength : ℤ) ≤ ((bytes.take (blocksize+header)).length : ℤ)-header ∧
        call.inputBuf.take call.inlength =
          ((bytes.take (blocksize+header)).drop header).take call.inlength

theorem packetLength_append (d rest : List Byte) (hd : header ≤ d.length) :
    packetLength (d ++ rest) = packetLength d := by
  unfold header at hd
  have h0 : (d ++ rest).getD 0 0 = d.getD 0 0 := List.getD_append _ _ _ _ (by omega)
  have h1 : (d ++ rest).getD 1 0 = d.getD 1 0 := List.getD_append _ _ _ _ (by omega)
  rw [packetLength, packetLength, h0, h1]

theorem packetDone_append (d rest : List Byte) (hd : header ≤ d.length) :
    packetDone (d ++ rest) = packetDone d := by
  unfold header at hd
  rw [packetDone, packetDone, List.getD_append _ _ _ _ (by omega)]

section Ring
variable {blocksize : ℕ} {r : Receive} {ring ring' : PacketRing} {call : EncodeCall}

/-- All that a receive does: it stores what was delivered in front of the old bytes of the
buffer at `writer`. -/
theorem PacketRing.receive_eq_some (h : ring.receive blocksize r = some (call, ring')) :
    ∃ (hw : ring.writer < numPackets) (buffer : Slot),
      (r.delivered blocksize).length ≤ numElements+header ∧
      buffer.bytes = r.delivered blocksize ++
        (ring.input ⟨ring.writer, hw⟩).bytes.drop (r.delivered blocksize).length ∧
      call = buffer.call ∧
      ring' = ⟨Function.update ring.input ⟨ring.writer, hw⟩ buffer, ring.writer+1,
        packetDone buffer.bytes⟩ := by
  unfold receive at h
  split_ifs at h with hw
  obtain ⟨⟨buffer, n⟩, hget, hnext⟩ := Option.map_eq_some_iff.mp h
  obtain ⟨rfl, rfl⟩ := Prod.mk.inj hnext
  unfold getPacket at hget
  split_ifs at hget with hfits
  obtain ⟨hbuffer, -⟩ := Prod.mk.inj (Option.some.inj hget)
  exact ⟨hw, buffer, hfits, by rw [← hbuffer], rfl, rfl⟩

theorem PacketRing.receive_defined (hw : ring.writer < numPackets)
    (hfits : (r.delivered blocksize).length ≤ numElements+header) :
    ∃ call ring', ring.receive blocksize r = some (call, ring') := by
  rw [receive, dif_pos hw, getPacket, dif_pos hfits]
  exact ⟨_, _, rfl⟩

theorem PacketRing.receive_writer (h : ring.receive blocksize r = some (call, ring')) :
    ring'.writer ≤ numPackets := by
  obtain ⟨hw, buffer, -, -, -, rfl⟩ := receive_eq_some h
  exact hw

theorem PacketRing.wrap_writer (h : ring.writer ≤ numPackets) :
    ring.wrap.writer < numPackets := by
  have hpos : 0 < numPackets := by decide
  unfold wrap
  dsimp only
  split_ifs <;> omega

end Ring

section Step
variable {σ μ : Type*} {encode : μ → σ → EncodeCall → Option (σ × List Byte)}
  {blocksize : ℕ}
  {r : Receive × μ} {s s' : ServerState σ}

theorem receiveStep_of_none (h : s.ring.receive blocksize r.1 = none) :
    receiveStep encode blocksize r s = (⟨r.1, none, s.out, none⟩, none) := by
  rw [receiveStep, h]

theorem receiveStep_of_some {call : EncodeCall} {ring : PacketRing}
    (h : s.ring.receive blocksize r.1 = some (call, ring)) :
    receiveStep encode blocksize r s =
      (⟨r.1, some call, s.out, (callStep encode (s.table, s.out) (call, r.2)).map Prod.snd⟩,
        (callStep encode (s.table, s.out) (call, r.2)).map (fun t => ⟨ring, t.1, t.2⟩)) := by
  rw [receiveStep, h]

theorem receiveStep_receive (r : Receive × μ) (s : ServerState σ) :
    (receiveStep encode blocksize r s).1.receive = r.1 := by
  rcases h : s.ring.receive blocksize r.1 with _ | ⟨call, ring⟩
  · rw [receiveStep_of_none h]
  · rw [receiveStep_of_some h]

theorem receiveStep_writer (h : (receiveStep encode blocksize r s).2 = some s') :
    s'.ring.writer ≤ numPackets := by
  rcases hr : s.ring.receive blocksize r.1 with _ | ⟨call, ring⟩
  · rw [receiveStep_of_none hr] at h
    cases h
  · rw [receiveStep_of_some hr] at h
    obtain ⟨t, -, rfl⟩ := Option.map_eq_some_iff.mp h
    exact PacketRing.receive_writer hr

theorem serverMain_eq_loop (input : Fin numPackets → Slot) (file : List Byte) (table : σ)
    (rs : List (Receive × μ)) :
    serverMain encode blocksize input file table rs =
      serverLoop encode blocksize rs ⟨⟨input, pipeDepth, false⟩, table, ⟨file, 0⟩⟩ := by
  cases rs with
  | nil => rfl
  | cons r rs => rfl

end Step

section Uses
variable {σ μ : Type*} {encode : μ → σ → EncodeCall → Option (σ × List Byte)}
  {blocksize : ℕ}

/-- `encode` writes at least one record before it returns. -/
def EncodeWrites (encode : μ → σ → EncodeCall → Option (σ × List Byte)) : Prop :=
  ∀ memory table call table' output,
    encode memory table call = some (table', output) → output ≠ []

theorem append_ne_self (b : FileBuffer) {output : List Byte} (h : output ≠ []) :
    b.append output ≠ some b := by
  intro he
  obtain ⟨file, -, hb⟩ := Option.map_eq_some_iff.mp he
  have hoffset : b.offset+output.length = b.offset := congrArg FileBuffer.offset hb
  have hpos := List.length_pos_of_ne_nil h
  omega

/-- A step uses what it received exactly if it received a whole packet. -/
theorem receiveStep_uses_iff (blocksize : ℕ) (hwrites : EncodeWrites encode) (r : Receive × μ)
    (s : ServerState σ) (hw : s.ring.writer < numPackets) :
    (receiveStep encode blocksize r s).1.UsesReceived blocksize ↔ r.1.Complete blocksize := by
  rcases hreceive : s.ring.receive blocksize r.1 with _ | ⟨call, ring⟩
  · rw [receiveStep_of_none hreceive]
    refine iff_of_false (fun ⟨call, hcall, _⟩ => by cases hcall) ?_
    intro hc
    obtain ⟨call, ring, hsome⟩ := PacketRing.receive_defined hw hc.fits
    rw [hsome] at hreceive
    cases hreceive
  · rw [receiveStep_of_some hreceive]
    obtain ⟨hplace, buffer, hfits, hbytes, rfl, -⟩ := PacketRing.receive_eq_some hreceive
    obtain ⟨receive, memory⟩ := r
    cases receive with
    | failed =>
      -- nothing was delivered, and the call writes behind the old end of the file
      refine iff_of_false ?_ (fun hc => absurd hc.framed (by simp [Receive.delivered, header]))
      rintro ⟨call, -, -, hafter⟩
      obtain ⟨⟨table', out⟩, hstep, rfl⟩ := Option.map_eq_some_iff.mp hafter
      obtain ⟨⟨table, output⟩, hencode, hout⟩ := Option.bind_eq_some_iff.mp hstep
      obtain ⟨out', happend, hnext⟩ := Option.map_eq_some_iff.mp hout
      obtain ⟨-, rfl⟩ := Prod.mk.inj hnext
      exact append_ne_self _ (hwrites _ _ _ _ _ hencode) happend
    | datagram bytes =>
      simp only [ReceiveStep.UsesReceived, Option.some.injEq, exists_eq_left', Slot.call, hbytes]
      simp only [Receive.delivered] at hfits ⊢
      constructor
      · rintro ⟨hlen, -⟩
        have hheader : header ≤ (bytes.take (blocksize+header)).length := by omega
        rw [packetLength_append _ _ hheader] at hlen
        exact ⟨hfits, by simp only [Receive.delivered]; omega⟩
      · rintro ⟨-, hframed⟩
        simp only [Receive.delivered] at hframed
        rw [packetLength_append _ _ (by omega), List.drop_append_of_le_length (by omega),
          List.take_append_of_le_length (by rw [List.length_drop]; omega)]
        exact ⟨by omega, rfl⟩

/-- The steps belong to the first outcomes, one to each, and all use what they
received exactly if those were whole packets. -/
structure StepsOf (blocksize : ℕ) (rs : List (Receive × μ)) (steps : List ReceiveStep) :
    Prop where
  receives : steps.map ReceiveStep.receive = (rs.take steps.length).map Prod.fst
  uses : (∀ step ∈ steps, step.UsesReceived blocksize) ↔
    ∀ r ∈ rs.take steps.length, r.1.Complete blocksize

theorem stepsOf_nil (rs : List (Receive × μ)) : StepsOf blocksize rs [] where
  receives := by rw [List.length_nil, List.take_zero]; rfl
  uses := by simp

theorem StepsOf.step (hwrites : EncodeWrites encode) {r : Receive × μ} {rs : List (Receive × μ)}
    {s : ServerState σ} {loop : ServerState σ → List ReceiveStep}
    (hw : s.ring.writer < numPackets)
    (h : ∀ s' : ServerState σ, s'.ring.writer ≤ numPackets →
      StepsOf blocksize rs (loop s')) :
    StepsOf blocksize (r :: rs) ((receiveStep encode blocksize r s).1 ::
      (receiveStep encode blocksize r s).2.elim [] loop) := by
  have hrest : StepsOf blocksize rs ((receiveStep encode blocksize r s).2.elim [] loop) := by
    cases hnext : (receiveStep encode blocksize r s).2 with
    | none => exact stepsOf_nil rs
    | some s' => exact h s' (receiveStep_writer hnext)
  constructor
  · rw [List.map_cons, receiveStep_receive, hrest.receives, List.length_cons, List.take_succ_cons,
      List.map_cons]
  · rw [List.length_cons, List.take_succ_cons, List.forall_mem_cons, List.forall_mem_cons,
      receiveStep_uses_iff blocksize hwrites r s hw, hrest.uses]

theorem serverLoop_stepsOf (hwrites : EncodeWrites encode) (rs : List (Receive × μ))
    (s : ServerState σ) (hw : s.ring.writer ≤ numPackets) :
    StepsOf blocksize rs (serverLoop encode blocksize rs s) := by
  induction rs generalizing s with
  | nil => exact stepsOf_nil []
  | cons r rs ih =>
    unfold serverLoop
    split_ifs with hdone
    · exact stepsOf_nil _
    · exact StepsOf.step hwrites (PacketRing.wrap_writer hw) ih

theorem serverMain_stepsOf (hwrites : EncodeWrites encode) (input : Fin numPackets → Slot)
    (file : List Byte) (table : σ) (rs : List (Receive × μ)) :
    StepsOf blocksize rs (serverMain encode blocksize input file table rs) := by
  have hdepth : pipeDepth ≤ numPackets := by decide
  rw [serverMain_eq_loop]
  exact serverLoop_stepsOf hwrites rs _ hdepth

end Uses

theorem hostEncode_writes (sha : Str → Digest) : EncodeWrites (hostEncode sha) := by
  intro memory umap call umap' output h
  unfold hostEncode at h
  dsimp only at h
  split_ifs at h
  obtain ⟨s, hencode, hs⟩ := Option.map_eq_some_iff.mp h
  rw [← (Prod.mk.inj hs).2]
  have hlen := encode_appends hencode
  obtain ⟨r, records, hrecords⟩ : ∃ r records, s.records = r :: records :=
    List.exists_cons_of_ne_nil (List.ne_nil_of_length_pos (by omega))
  rw [hrecords, fileBytes]
  intro hnil
  have hempty := (List.append_eq_nil_iff.mp hnil).1
  cases r <;> simp [FileRecord.bytes, le32] at hempty

/-- The steps of the server, on any outcomes of `recvfrom` and any first content of the
packet buffers and of `file`: every step uses only what it received exactly if every
receive brought a whole packet. -/
theorem serverMain_uses_received_iff (sha : Str → Digest) (blocksize : ℕ)
    (input : Fin numPackets → Slot) (file : List Byte) (rs : List (Receive × CallMemory)) :
    (serverMain (hostEncode sha) blocksize input file UMap.empty rs).map ReceiveStep.receive =
        (rs.take (serverMain (hostEncode sha) blocksize input file UMap.empty rs).length).map
          Prod.fst ∧
      ((∀ step ∈ serverMain (hostEncode sha) blocksize input file UMap.empty rs,
          step.UsesReceived blocksize) ↔
        ∀ r ∈ rs.take (serverMain (hostEncode sha) blocksize input file UMap.empty rs).length,
          r.1.Complete blocksize) :=
  have h := serverMain_stepsOf (hostEncode_writes sha) input file UMap.empty rs
  ⟨h.receives, h.uses⟩

/-- Packet buffers of zeros. -/
def zeroInput : Fin numPackets → Slot :=
  fun _ => ⟨List.replicate (numElements+header) 0, List.length_replicate⟩

/-- A block of zeros for `file`. -/
def zeroFile : List Byte := List.replicate fileSize 0

theorem length_zeroFile : zeroFile.length = fileSize := List.length_replicate

def zeroMemory : CallMemory := ⟨[0], fun _ => [0], fun _ _ => 0⟩

/-- A failed receive, and a datagram that ends behind the header of a packet of 16 bytes. -/
theorem serverMain_stale :
    (¬∀ step ∈ serverMain (hostEncode letterSha) 8192 zeroInput zeroFile UMap.empty
        [(.failed, zeroMemory)], step.UsesReceived 8192) ∧
    ¬∀ step ∈ serverMain (hostEncode letterSha) 8192 zeroInput zeroFile UMap.empty
        [(.datagram [16, 0], zeroMemory)], step.UsesReceived 8192 := by
  have hfirst (r : Receive) (hr : ¬r.Complete 8192) :
      ¬∀ step ∈ serverMain (hostEncode letterSha) 8192 zeroInput zeroFile UMap.empty
        [(r, zeroMemory)], step.UsesReceived 8192 := by
    intro hall
    have hstep := hall _ List.mem_cons_self
    have hdepth : pipeDepth < numPackets := by decide
    have huses := receiveStep_uses_iff 8192 (hostEncode_writes letterSha)
      (r, zeroMemory) ⟨⟨zeroInput, pipeDepth, false⟩, UMap.empty, ⟨zeroFile, 0⟩⟩ hdepth
    exact hr (huses.mp hstep)
  refine ⟨hfirst _ (fun hc => ?_), hfirst _ (fun hc => ?_)⟩
  · exact absurd hc.framed (by decide)
  · exact absurd hc.framed (by decide)

end Sync532
