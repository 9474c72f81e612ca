import Sync532.OutputSize
import Sync532.RingBuffer

namespace Sync532

/-- The records that are there already stay in front. -/
def EncodeState.behind {κ : Type*} (front : List FileRecord) (s : EncodeState κ) :
    EncodeState κ :=
  ⟨s.umap, front ++ s.records⟩

theorem encodeChunk_behind {κ : Type*} [DecidableEq κ] (front : List FileRecord)
    (s : EncodeState κ) (i : BitVec 32) (key : Option κ) (record : Option FileRecord) :
    encodeChunk (s.behind front) i key record =
      (encodeChunk s i key record).map (EncodeState.behind front) := by
  cases key with
  | none => rfl
  | some k =>
    simp only [encodeChunk, EncodeState.behind, Option.bind_some]
    by_cases hnew : (deduplication s.umap i k).2 = -1
    · simp only [hnew, if_true, Option.map_map, Function.comp_def, EncodeState.behind,
        List.append_assoc]
    · simp only [hnew, if_false, Option.map_some, EncodeState.behind, List.append_assoc]

theorem encode_behind (sha : Str → Digest) (p : Packet) (front : List FileRecord)
    (s : EncodeState Str) :
    encode sha p (s.behind front) = (encode sha p s).map (EncodeState.behind front) := by
  unfold encode
  rcases cdc p.payload (BitVec.ofNat 32 p.payload.length)
    (List.replicate p.payload.length (-1)) with _ | qIndex
  · rfl
  rcases cString p.memory with _ | sPacket
  · rfl
  apply chunkLoop_map (EncodeState.behind front)
  intro s index first last
  exact encodeChunk_behind front s _ _ _

/-- The packet of a call of `encode` from `main`. -/
def hostPacket (memory : CallMemory) (call : EncodeCall) : Option Packet :=
  let mem := call.inputBuf ++ memory.behind
  if hsize : call.inlength < 2^31 ∧ call.inlength ≤ mem.length then
    some ⟨mem.take call.inlength, mem.drop call.inlength, memory.stack, memory.heap,
      (List.length_take_le _ _).trans_lt hsize.1⟩
  else none

/-- The packets of the calls, if each has one. -/
def callPackets (calls : List (EncodeCall × CallMemory)) : Option (List Packet) :=
  calls.mapM (fun c => hostPacket c.2 c.1)

theorem hostEncode_eq (sha : Str → Digest) (memory : CallMemory) (umap : UMap Str (BitVec 32))
    (call : EncodeCall) :
    hostEncode sha memory umap call = (hostPacket memory call).bind (fun p =>
      (encode sha p ⟨umap, []⟩).map (fun s => (s.umap, fileBytes s.records))) := by
  unfold hostEncode hostPacket
  dsimp only
  by_cases hsize : call.inlength ≤ (call.inputBuf ++ memory.behind).length ∧
    call.inlength < 2^31
  · rw [dif_pos hsize, dif_pos hsize.symm]
    rfl
  · rw [dif_neg hsize, dif_neg (fun h => hsize h.symm)]
    rfl

/-- The packet of a call on a whole packet buffer has the payload of the call. -/
theorem hostPacket_payload (memory : CallMemory) {call : EncodeCall}
    (hlength : call.inlength ≤ numElements) (hbuf : call.inputBuf.length = numElements) :
    ∃ p, hostPacket memory call = some p ∧ p.payload = call.payload := by
  have hsmall : numElements < 2^31 := by decide
  have hsize : call.inlength < 2^31 ∧
      call.inlength ≤ (call.inputBuf ++ memory.behind).length := by
    rw [List.length_append]
    omega
  exact ⟨_, dif_pos hsize, List.take_append_of_le_length (by omega)⟩

theorem callPackets_payloads {calls : List (EncodeCall × CallMemory)}
    (h : ∀ c ∈ calls, c.1.inlength ≤ numElements ∧ c.1.inputBuf.length = numElements) :
    ∃ packets, callPackets calls = some packets ∧
      packets.map Packet.payload = calls.map (fun c => c.1.payload) := by
  induction calls with
  | nil => exact ⟨[], rfl, rfl⟩
  | cons c calls ih =>
    obtain ⟨⟨hlength, hbuf⟩, hrest⟩ := List.forall_mem_cons.mp h
    obtain ⟨p, hp, hpayload⟩ := hostPacket_payload c.2 hlength hbuf
    obtain ⟨packets, hpackets, hpayloads⟩ := ih hrest
    rw [callPackets] at hpackets
    refine ⟨p :: packets, ?_, by rw [List.map_cons, List.map_cons, hpayload, hpayloads]⟩
    rw [callPackets, List.mapM_cons, hp, hpackets]
    rfl

/-- The records of a run in front of `offset`, and behind it what `file` held. -/
def EncodeState.fileBuffer (file : List Byte) (s : EncodeState Str) : FileBuffer :=
  ⟨fileBytes s.records ++ file.drop (fileBytes s.records).length, (fileBytes s.records).length⟩

/-- A call writes what `encode` does on its packet, behind the records of the earlier ones. -/
theorem callStep_tracks (sha : Str → Digest) {file : List Byte} {a : EncodeState Str}
    (hfits : a.Fits file.length) (c : EncodeCall × CallMemory) :
    Tracks (fun a s => s = (a.umap, a.fileBuffer file)) (EncodeState.Fits file.length)
      ((hostPacket c.2 c.1).bind (fun p => encode sha p a))
      (callStep (hostEncode sha) (a.umap, a.fileBuffer file) c) := by
  rw [callStep, hostEncode_eq]
  rcases hostPacket c.2 c.1 with _ | p
  · exact Tracks.undefined
  · have hfront : encode sha p a =
        (encode sha p ⟨a.umap, []⟩).map (EncodeState.behind a.records) := by
      rw [← encode_behind, EncodeState.behind, List.append_nil]
    rw [Option.bind_some, Option.bind_some, hfront]
    rcases encode sha p ⟨a.umap, []⟩ with _ | t
    · exact Tracks.undefined
    · have hbytes : fileBytes (t.behind a.records).records =
          fileBytes a.records ++ fileBytes t.records := List.flatMap_append
      have happend : (a.fileBuffer file).append (fileBytes t.records) =
          if (fileBytes (t.behind a.records).records).length ≤ file.length then
            some ((t.behind a.records).fileBuffer file) else none := by
        rw [FileBuffer.append, EncodeState.fileBuffer, memcpy_behind _ _ _ _ le_rfl hfits,
          List.take_length, EncodeState.fileBuffer, hbytes]
        split_ifs
        · rw [Option.map_some, List.length_append]
        · rfl
      simp only [Option.map_some, Option.bind_some, happend]
      split_ifs with hroom
      · exact Tracks.both rfl hroom
      · exact Tracks.full hroom

theorem callPackets_foldlM (sha : Str → Digest) (calls : List (EncodeCall × CallMemory))
    (a : EncodeState Str) :
    calls.foldlM (fun a c => (hostPacket c.2 c.1).bind (fun p => encode sha p a)) a =
      (callPackets calls).bind (List.foldlM (fun a p => encode sha p a) a) := by
  induction calls generalizing a with
  | nil => rfl
  | cons c calls ih =>
    rw [callPackets, List.mapM_cons, foldlM_bind_cons, List.foldlM_cons]
    exact congrArg _ (funext ih)

/-- The calls of `main` against a run of `encode`, in a block of any size. -/
theorem callsRun_packets (sha : Str → Digest) (file : List Byte)
    (calls : List (EncodeCall × CallMemory)) :
    callsRun (hostEncode sha) calls (UMap.empty, ⟨file, 0⟩) =
      ((callPackets calls).bind (encodeRun sha)).bind (fun s =>
        if (fileBytes s.records).length ≤ file.length then some (s.umap, s.fileBuffer file)
        else none) := by
  have hlost (c : EncodeCall × CallMemory) (a b : EncodeState Str)
      (hb : (hostPacket c.2 c.1).bind (fun p => encode sha p a) = some b)
      (hfits : b.Fits file.length) : a.Fits file.length := by
    obtain ⟨p, -, hencode⟩ := Option.bind_eq_some_iff.mp hb
    exact encode_grows hencode hfits
  have hstep (c : EncodeCall × CallMemory) (a : EncodeState Str)
      (s : UMap Str (BitVec 32) × FileBuffer) (hs : s = (a.umap, a.fileBuffer file))
      (hfits : a.Fits file.length) := hs ▸ callStep_tracks sha hfits c
  have htracks := Tracks.foldlM hlost hstep calls (a := encodeStart Str) rfl (Nat.zero_le _)
  rw [callPackets_foldlM] at htracks
  exact Tracks.eq_bind (fun s : EncodeState Str => (s.umap, s.fileBuffer file)) htracks
    (fun a s hs => hs)

/-- With four bytes of `file` for each byte of the payloads every call finds room. -/
theorem callsRun_room {sha : Str → Digest} {file : List Byte}
    {calls : List (EncodeCall × CallMemory)} {packets : List Packet} {s : EncodeState Str}
    (hpackets : callPackets calls = some packets) (hrun : encodeRun sha packets = some s)
    (hroom : 4*(packets.flatMap Packet.payload).length ≤ file.length) :
    callsRun (hostEncode sha) calls (UMap.empty, ⟨file, 0⟩) =
      some (s.umap, s.fileBuffer file) := by
  rw [callsRun_packets, hpackets, Option.bind_some, hrun, Option.bind_some,
    if_pos ((encodeRun_size hrun).2.trans hroom)]

theorem ShortText.hostPacket (t : ShortText) (r : Str) :
    hostPacket zeroMemory ⟨t.text ++ 0 :: r, t.text.length⟩ =
      some (packet { t with behind := r ++ [0] }) := by
  have hshort : 2*winSize < 2^31 := by decide
  have hmem : t.text ++ 0 :: r ++ zeroMemory.behind = t.text ++ 0 :: (r ++ [0]) := by
    rw [List.append_assoc, List.cons_append]
    rfl
  have hsize : t.text.length < 2^31 ∧
      t.text.length ≤ (t.text ++ 0 :: r ++ zeroMemory.behind).length := by
    rw [hmem, List.length_append]
    exact ⟨t.short.trans_lt hshort, Nat.le_add_right _ _⟩
  rw [Sync532.hostPacket, dif_pos hsize]
  simp only [packet, Option.some.injEq, Packet.mk.injEq, hmem, List.take_left, List.drop_left]
  exact ⟨trivial, trivial, rfl, rfl⟩

/-- 17 letters in a packet buffer that was zero. -/
def seventeenReceived : ShortText := { seventeen with behind := List.replicate 16366 0 ++ [0] }

/-- `k` times these letters. -/
def letterPayloads (k : ℕ) : List (List Byte × CallMemory) :=
  List.replicate k (List.replicate 17 0x41, zeroMemory)

def letterCalls (k : ℕ) : List (EncodeCall × CallMemory) :=
  List.replicate k (⟨List.replicate 17 0x41 ++ 0 :: List.replicate 16366 0, 17⟩, zeroMemory)

theorem bufferCalls_letters (k : ℕ) (w : Fin numPackets) :
    bufferCalls (fun i => (zeroInput i).bytes.drop header) w (letterPayloads k) =
      letterCalls k := by
  have hslots : numElements+header-header-17 = 16366+1 := by decide
  have hzeros (i : Fin numPackets) : ((zeroInput i).bytes.drop header).drop 17 =
      0 :: List.replicate 16366 0 := by
    rw [zeroInput, List.drop_replicate, List.drop_replicate, hslots, List.replicate_succ]
  have hlen : ∀ p ∈ letterPayloads k, p.1.length = 17 := by
    intro p hp
    rw [List.eq_of_mem_replicate hp, List.length_replicate]
  rw [bufferCalls_uniform hzeros hlen, letterPayloads, List.map_replicate]
  rfl

theorem callPackets_letters (k : ℕ) :
    callPackets (letterCalls k) = some (List.replicate k seventeenReceived.packet) := by
  have hone : hostPacket zeroMemory
      ⟨List.replicate 17 0x41 ++ 0 :: List.replicate 16366 0, 17⟩ =
        some seventeenReceived.packet := seventeen.hostPacket _
  induction k with
  | zero => rfl
  | succ k ih =>
    rw [callPackets] at ih
    rw [callPackets, letterCalls, List.replicate_succ, List.mapM_cons, hone, ← letterCalls, ih]
    rfl

theorem letters_encodable (k : ℕ) :
    DigestsDistinct lettersSha (List.replicate k seventeenReceived.packet) ∧
      RunEncodable lettersSha (List.replicate k seventeenReceived.packet) := by
  have htext : ∀ t ∈ List.replicate k seventeenReceived,
      t.text = seventeen.text ∨ t.text = eighteen.text := by
    intro t ht
    rw [List.eq_of_mem_replicate ht]
    exact Or.inl rfl
  have hrun := letters_run _ htext
  rwa [List.map_replicate] at hrun

theorem letters_returnsOn (k : ℕ) (hk : 68*k ≤ fileSize) :
    ReturnsOn (hostEncode lettersSha) zeroInput zeroFile UMap.empty (letterPayloads k) := by
  obtain ⟨hsha, hencodable⟩ := letters_encodable k
  obtain ⟨s, hrun, -⟩ := encodeRun_records lettersSha _ hsha hencodable
  have hpayloads : ((List.replicate k seventeenReceived.packet).flatMap Packet.payload).length =
      17*k := by
    rw [List.length_flatMap, List.map_replicate, List.sum_replicate, Nat.mul_comm]
    rfl
  rw [ReturnsOn, bufferCalls_letters, callsRun_room (callPackets_letters k) hrun]
  · rfl
  · rw [hpayloads, length_zeroFile]
    omega

end Sync532
