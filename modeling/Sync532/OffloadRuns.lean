import Sync532.Offload
import Sync532.ShortPackets

namespace Sync532

/-- One call of `encode`, with buffers of the sizes it asks for. -/
structure OffloadCall where
  memory : OffloadMemory
  stack : ℕ → List Byte
  heap : ℕ → ℕ → Byte
  allocated : memory.Allocated

namespace OffloadCall

/-- The content of `a_buf` as a packet. -/
def packet (c : OffloadCall) : Packet :=
  ⟨c.memory.aBuf, c.memory.aAfter, c.stack, c.heap, by
    rw [c.allocated.aBuf]
    exact c.allocated.length_lt⟩

/-- `encode`, with the table and the records that it writes. -/
def encode (sha : Str → Digest) (c : OffloadCall) (s : EncodeState Str) :
    Option (EncodeState Str) :=
  (offloadEncode sha c.stack c.heap s c.memory).map OffloadState.encode

/-- `c_buf` holds a -1 behind the entries of `cdc`. -/
def Stops (c : OffloadCall) : Prop := c.memory.cBuf[(cdcEnds c.memory.aBuf).length]? = some (-1)

instance (c : OffloadCall) : Decidable c.Stops := by
  unfold Stops
  infer_instance

end OffloadCall

/-- The calls one after the other. -/
def offloadRun (sha : Str → Digest) (calls : List OffloadCall) : Option (EncodeState Str) :=
  calls.foldlM (fun s c => c.encode sha s) (encodeStart Str)

/-- What an iteration does with the table and the file. -/
theorem offloadChunk_encode (sha : Str → Digest) (stackAt : ℕ → List Byte)
    (heap : ℕ → ℕ → Byte) (mem : List Byte) (sPacket : Str) (s : OffloadState) (index : ℕ)
    (first last : ℤ) :
    (if 0 ≤ first ∧ first ≤ last ∧ last < mem.length then
      encodeChunk s.encode (BitVec.ofNat 32 index)
        (shaHW sha mem first.toNat last.toNat (stackAt index))
        (offloadRecord heap mem sPacket index first last)
    else none) =
      (offloadChunk sha stackAt heap mem sPacket s index first last).map OffloadState.encode := by
  unfold offloadChunk
  split_ifs with hrange
  · rw [encodeChunk]
    rcases shaHW sha mem first.toNat last.toNat (stackAt index) with _ | hashValue
    · rfl
    · simp only [Option.bind_some]
      split_ifs
      · rcases hrecord : offloadRecord heap mem sPacket index first last with _ | record
        · rfl
        · -- a chunk that has a record was read
          obtain ⟨o, hlzw, -⟩ := Option.bind_eq_some_iff.mp hrecord
          rw [Option.bind_some, lzw_lzwReads (by omega) hlzw]
          rfl
      · rfl
  · rfl

/-- The offloaded `encode` is `encode` on the content of `a_buf`; the payload has no part in it. -/
theorem OffloadCall.encode_eq (sha : Str → Digest) {c : OffloadCall} (hstop : c.Stops)
    (s : EncodeState Str) : c.encode sha s = Sync532.encode sha c.packet s := by
  have hm := c.allocated
  have hfull : winSize ≤ c.memory.aBuf.length := by
    rw [hm.aBuf]
    exact hm.window
  have hsmall : c.memory.aBuf.length < 2^31 := by
    rw [hm.aBuf]
    exact hm.length_lt
  obtain ⟨rest, hdrop⟩ := (drop_eq_cons_iff _ _ _).mpr hstop
  have hfilled := cdc_filled c.packet.payload hfull hsmall
  have hpart := cdcEnds_partition c.memory.aBuf hfull
  have hmemory : c.packet.memory = c.memory.aBuf ++ c.memory.aAfter := rfl
  rw [encode, offloadEncode_eq hm, hdrop, Sync532.encode, hfilled, Option.bind_eq_bind,
    Option.bind_some, hmemory]
  rcases cString (c.memory.aBuf ++ c.memory.aAfter) with _ | sPacket
  · rfl
  · rw [Option.bind_some, Option.bind_eq_bind, Option.bind_some]
    calc (chunkLoop (offloadChunk sha c.stack c.heap (c.memory.aBuf ++ c.memory.aAfter) sPacket)
          0 (-1) (asInts (cdcEnds c.memory.aBuf) ++ -1 :: rest) ⟨s, []⟩).map OffloadState.encode
        = chunkLoop (fun s index first last =>
            if 0 ≤ first ∧ first ≤ last ∧
                last < (c.memory.aBuf ++ c.memory.aAfter).length then
              encodeChunk s (BitVec.ofNat 32 index) (c.packet.hashValue sha index first last)
                (c.packet.lzwRecord sPacket index first last)
            else none) 0 (-1) (asInts (cdcEnds c.memory.aBuf) ++ -1 :: rest) s :=
          (chunkLoop_map OffloadState.encode
            (offloadChunk_encode sha c.stack c.heap _ sPacket) _ 0 (-1) ⟨s, []⟩).symm
      _ = (segments 0 (cdcEnds c.memory.aBuf)).zipIdx.foldlM (fun s r =>
            if 0 ≤ (r.1.1 : ℤ) ∧ (r.1.1 : ℤ) ≤ r.1.2 ∧
                (r.1.2 : ℤ) < (c.memory.aBuf ++ c.memory.aAfter).length then
              encodeChunk s (BitVec.ofNat 32 r.2) (c.packet.hashValue sha r.2 r.1.1 r.1.2)
                (c.packet.lzwRecord sPacket r.2 r.1.1 r.1.2)
            else none) s := chunkLoop_ends _ _ rest 0 0 s
      _ = (segments 0 (cdcEnds c.memory.aBuf)).zipIdx.foldlM (fun s r =>
            encodeChunk s (BitVec.ofNat 32 r.2) (c.packet.hashValue sha r.2 r.1.1 r.1.2)
              (c.packet.lzwRecord sPacket r.2 r.1.1 r.1.2)) s := by
          apply foldlM_congr_mem
          intro r hr s
          -- the ranges lie inside `a_buf`
          have hmem := List.fst_mem_of_mem_zipIdx hr
          have hle := hpart.nonempty r.1 hmem
          have hlt := hpart.inside r.1 hmem
          apply if_pos
          rw [List.length_append]
          omega
      _ = encodeLoop (c.packet.hashValue sha) (c.packet.lzwRecord sPacket)
            (asInts (cdcEnds c.packet.payload) ++ -1 :: List.replicate
              (c.packet.payload.length-(cdcEnds c.packet.payload).length-1) (-1)) s :=
          (chunkLoop_ends (fun s index first last => encodeChunk s (BitVec.ofNat 32 index)
            (c.packet.hashValue sha index first last) (c.packet.lzwRecord sPacket index first last))
            _ _ 0 0 s).symm

theorem offloadRun_packets (sha : Str → Digest) {calls : List OffloadCall}
    (hstop : ∀ c ∈ calls, c.Stops) :
    offloadRun sha calls = encodeRun sha (calls.map OffloadCall.packet) := by
  rw [offloadRun, encodeRun, List.foldlM_map]
  exact foldlM_congr_mem (fun c hc s => c.encode_eq sha (hstop c hc) s) _

theorem flatMap_eq_iff {α β : Type*} {f g : α → List β} {l : List α}
    (hlen : ∀ a ∈ l, (f a).length = (g a).length) :
    l.flatMap f = l.flatMap g ↔ ∀ a ∈ l, f a = g a := by
  constructor
  · intro h
    induction l with
    | nil => exact fun a ha => absurd ha List.not_mem_nil
    | cons a l ih =>
      obtain ⟨ha, hrest⟩ := List.forall_mem_cons.mp hlen
      obtain ⟨hfirst, hothers⟩ := List.append_inj h ha
      exact List.forall_mem_cons.mpr ⟨hfirst, ih hrest hothers⟩
  · exact List.flatMap_congr

/-- A run of the offloaded `encode` is the run of `encode` on what the mapped buffers held. The
decoder gives that back, and so the payloads exactly when each `a_buf` held its payload. -/
theorem offloadRun_decoded (sha : Str → Digest) (calls : List OffloadCall)
    (hstop : ∀ c ∈ calls, c.Stops) :
    offloadRun sha calls = encodeRun sha (calls.map OffloadCall.packet) ∧
      (DigestsDistinct sha (calls.map OffloadCall.packet) →
        RunOk sha (calls.map OffloadCall.packet) →
        ∃ s, offloadRun sha calls = some s ∧
          encodeRun sha (calls.map OffloadCall.packet) = some s ∧
          ∀ fuel, (fileBytes s.records).length+2 ≤ fuel →
            decoderMain fuel (fileBytes s.records) =
                some (calls.flatMap (fun c => c.memory.aBuf)) ∧
              (decoderMain fuel (fileBytes s.records) =
                  some (calls.flatMap (fun c => c.memory.payload)) ↔
                ∀ c ∈ calls, c.memory.aBuf = c.memory.payload)) := by
  have hsame := offloadRun_packets sha hstop
  refine ⟨hsame, ?_⟩
  intro hsha hok
  obtain ⟨s, hrun, hdecode⟩ := decoderMain_encodeRun sha _ hsha hok.toRunEncodable
  refine ⟨s, hsame.trans hrun, hrun, ?_⟩
  intro fuel hfuel
  have hbuffers : decoderMain fuel (fileBytes s.records) =
      some (calls.flatMap (fun c => c.memory.aBuf)) := by
    rw [hdecode fuel hfuel, contents_firstAnswers PacketChunk.fileRecord_chunk _ hok.numbers,
      packetCalls_content _ hok.full, List.flatMap_map]
    rfl
  refine ⟨hbuffers, ?_⟩
  rw [hbuffers, Option.some.injEq]
  exact flatMap_eq_iff (fun c _ => c.allocated.aBuf)

/-- A packet of 17 times the letter `b`, with the letters `A` in `a_buf`. -/
def letterCall (b : Byte) : OffloadCall where
  memory := ⟨List.replicate 17 b, [], List.replicate 17 0, List.replicate 17 0x41, [0],
    List.replicate 17 (-1)⟩
  stack := fun _ => [0]
  heap := fun _ _ => 0
  allocated := by
    constructor <;> simp only [List.length_replicate]
    all_goals decide

/-- The letters `A` and then `B`, which the second call does not find in `a_buf`. -/
theorem offloadRun_decoded_stale :
    offloadRun lettersSha [letterCall 0x41, letterCall 0x42] =
        encodeRun lettersSha [(letterCall 0x41).packet, (letterCall 0x42).packet] ∧
      ∃ s, offloadRun lettersSha [letterCall 0x41, letterCall 0x42] = some s ∧
        encodeRun lettersSha [(letterCall 0x41).packet, (letterCall 0x42).packet] = some s ∧
        ∀ fuel, (fileBytes s.records).length+2 ≤ fuel →
          decoderMain fuel (fileBytes s.records) = some (List.replicate 34 0x41) ∧
            (decoderMain fuel (fileBytes s.records) =
                some (List.replicate 17 0x41 ++ List.replicate 17 0x42) ↔
              ∀ c ∈ [letterCall 0x41, letterCall 0x42], c.memory.aBuf = c.memory.payload) := by
  obtain ⟨hsha, hencodable⟩ := letters_run [seventeen, seventeen] (by simp)
  obtain ⟨hsame, hdecode⟩ := offloadRun_decoded lettersSha [letterCall 0x41, letterCall 0x42]
    (by decide)
  exact ⟨hsame,
    hdecode hsha ⟨hencodable, ShortText.run_numbers seventeen [seventeen] (by simp)⟩⟩

end Sync532
