import Sync532.OutputBuffer
import Sync532.RunDefined
import Sync532.ShortPackets

namespace Sync532

/-- `LZW` has a result only if it ends in front of the end of its block. -/
theorem PacketChunk.length_body {c : PacketChunk} {r : FileRecord} (h : c.lzwRecord = some r)
    (hle : c.chunkStart ≤ c.chunkEnd) :
    ∃ body, r = .lzw c.content body ∧ 2 ≤ body.length ∧
      body.length < 2*(c.chunkEnd-c.chunkStart+1) := by
  obtain ⟨sPacket, -, hlzw⟩ := Option.bind_eq_some_iff.mp h
  obtain ⟨⟨out, outlen⟩, hout, hrecord⟩ := Option.bind_eq_some_iff.mp hlzw
  have hblock : (malloc (c.packet.heap c.index)
      (((c.chunkEnd : ℤ)-(c.chunkStart : ℤ)+1)*2).toNat).length =
        2*(c.chunkEnd-c.chunkStart+1) := by
    simp only [malloc, List.length_map, List.length_range]
    omega
  rw [Int.toNat_natCast, Int.toNat_natCast] at hout
  have htext := lzw_inside hle hout
  have hend : c.chunkEnd < (sPacket ++ [0]).length := by
    rw [List.length_append, List.length_singleton]
    omega
  rw [← lzw_terminator sPacket _ _ hle htext] at hout
  obtain ⟨hlen, htake⟩ := lzw_outlen hle hend hout
  have hroom := (lzw_room hle hend hout).2
  rw [hblock, ← hlen] at hroom
  have hchunk := length_slice (sPacket ++ [0]) c.chunkStart c.chunkEnd hle hend
  have hcodes : 1 ≤ (lzwCodes (slice (sPacket ++ [0]) c.chunkStart c.chunkEnd)).length := by
    apply List.length_pos_of_ne_nil
    apply lzwCodes_ne_nil
    apply List.ne_nil_of_length_pos
    omega
  unfold recordOf at hrecord
  split_ifs at hrecord
  refine ⟨out.take outlen, (Option.some.inj hrecord).symm, ?_, ?_⟩
  · rw [htake, hlen, codeBytes]
    omega
  · rw [htake]
    exact hroom

theorem length_content {p : Packet} (h16 : winSize ≤ p.payload.length)
    {c : PacketChunk × BitVec 32} (hc : c ∈ p.calls) :
    c.1.chunkStart ≤ c.1.chunkEnd ∧
      c.1.content.length = c.1.chunkEnd-c.1.chunkStart+1 := by
  obtain ⟨hpacket, hseg, -⟩ := Packet.mem_calls h16 hc
  have hpart := cdcEnds_partition p.payload h16
  have hle : c.1.chunkStart ≤ c.1.chunkEnd := hpart.nonempty _ hseg
  have hlt : c.1.chunkEnd < p.payload.length := hpart.inside _ hseg
  refine ⟨hle, ?_⟩
  apply length_slice _ _ _ hle
  rw [hpacket, Packet.memory, List.length_append]
  exact hlt.trans_le (Nat.le_add_right _ _)

/-- What one chunk adds to the file. -/
theorem encodeChunk_size {s s' : EncodeState Str} {i : BitVec 32} {key : Option Str}
    {c : PacketChunk} (hle : c.chunkStart ≤ c.chunkEnd)
    (h : encodeChunk s i key c.lzwRecord = some s') :
    (fileBytes s'.records).length ≤
      (fileBytes s.records).length+4*(c.chunkEnd-c.chunkStart+1) := by
  obtain ⟨key, -, h⟩ := Option.bind_eq_some_iff.mp h
  dsimp only at h
  split_ifs at h
  · obtain ⟨r, hr, rfl⟩ := Option.map_eq_some_iff.mp h
    obtain ⟨body, rfl, hlow, hhigh⟩ := c.length_body hr hle
    have hbytes : (FileRecord.lzw c.content body).bytes.length = 4+body.length := by
      rw [FileRecord.bytes, List.length_append]
      rfl
    simp only [fileBytes_concat, List.length_append, hbytes]
    omega
  · rw [← Option.some.inj h]
    have hbytes (sent : BitVec 32) : (FileRecord.ref sent).bytes.length = 4 := rfl
    simp only [fileBytes_concat, List.length_append, hbytes]
    omega

theorem encodeCalls_size (hash : PacketChunk → Option Str)
    {calls : List (PacketChunk × BitVec 32)}
    (hcalls : ∀ c ∈ calls, c.1.chunkStart ≤ c.1.chunkEnd ∧
      c.1.content.length = c.1.chunkEnd-c.1.chunkStart+1)
    {s t : EncodeState Str}
    (h : calls.foldlM (fun s c => encodeChunk s c.2 (hash c.1) c.1.lzwRecord) s = some t) :
    (fileBytes t.records).length ≤
      (fileBytes s.records).length+4*(calls.flatMap (fun c => c.1.content)).length := by
  induction calls generalizing s with
  | nil =>
    rw [Option.some.inj h]
    exact Nat.le_add_right _ _
  | cons c calls ih =>
    obtain ⟨s1, hstep, hrest⟩ := Option.bind_eq_some_iff.mp h
    obtain ⟨hle, hlen⟩ := hcalls c List.mem_cons_self
    calc (fileBytes t.records).length
        ≤ (fileBytes s1.records).length+4*(calls.flatMap (fun c => c.1.content)).length :=
          ih (fun c' hc' => hcalls c' (List.mem_cons_of_mem _ hc')) hrest
      _ ≤ (fileBytes s.records).length+4*c.1.content.length +
            4*(calls.flatMap (fun c => c.1.content)).length := by
          rw [hlen]
          exact Nat.add_le_add_right (encodeChunk_size hle hstep) _
      _ = (fileBytes s.records).length +
            4*((c :: calls).flatMap (fun c => c.1.content)).length := by
          rw [List.flatMap_cons, List.length_append]
          ring

/-- A record has at least four bytes, and a run writes at most four bytes for each byte
of its payloads. -/
theorem encodeRun_size {sha : Str → Digest} {packets : List Packet} {s : EncodeState Str}
    (h : encodeRun sha packets = some s) :
    4*s.records.length ≤ (fileBytes s.records).length ∧
      (fileBytes s.records).length ≤ 4*(packets.flatMap Packet.payload).length := by
  refine ⟨length_le_fileBytes _, ?_⟩
  have hdefined := encodeRun_defined h
  have hfull : ∀ p ∈ packets, winSize ≤ p.payload.length := fun p hp => (hdefined p hp).1
  rw [encodeRun, encodeRun_eq sha packets hfull (fun p hp => (hdefined p hp).2)] at h
  have hchunk : ∀ c ∈ packetCalls packets, c.1.chunkStart ≤ c.1.chunkEnd ∧
      c.1.content.length = c.1.chunkEnd-c.1.chunkStart+1 := by
    intro c hc
    obtain ⟨p, hp, hcp⟩ := List.mem_flatMap.mp hc
    exact length_content (hfull p hp) hcp
  have hempty : (fileBytes (encodeStart Str).records).length = 0 := rfl
  have hsize := encodeCalls_size (keyOf sha PacketChunk.content PacketChunk.stack) hchunk h
  rwa [packetCalls_content packets hfull, hempty, Nat.zero_add] at hsize

/-- A block of four bytes for each byte of the payloads is never left: the 70000000
bytes of `main` are enough for 17500000 bytes of payload. -/
theorem encodeFile_in_bounds (sha : Str → Digest) (file : List Byte) (packets : List Packet)
    (hroom : 4*(packets.flatMap Packet.payload).length ≤ file.length) {s : EncodeState Str}
    (h : encodeRun sha packets = some s) :
    ∃ o, encodeFile sha file packets = some o ∧ o.written = fileBytes s.records ∧
      o.offset ≤ 4*(packets.flatMap Packet.payload).length ∧
      o.file.length = file.length ∧ o.file.drop o.offset = file.drop o.offset := by
  have hsize := (encodeRun_size h).2
  have hfits := hsize.trans hroom
  refine ⟨_, by rw [encodeFile_eq, h, Option.bind_some, if_pos hfits], ?_, hsize, ?_, ?_⟩
  · exact List.take_left
  · rw [List.length_append, List.length_drop]
    omega
  · exact List.drop_left

/-- 17 letters twice, into a block of 136 bytes. -/
theorem encodeFile_in_bounds_letters :
    ∃ s o, encodeRun lettersSha [seventeen.packet, seventeen.packet] = some s ∧
      encodeFile lettersSha (List.replicate 136 0) [seventeen.packet, seventeen.packet] = some o ∧
      o.written = fileBytes s.records ∧ o.offset ≤ 136 := by
  obtain ⟨hsha, hrun⟩ := letters_run [seventeen, seventeen] (by simp)
  obtain ⟨s, hs, -⟩ := encodeRun_records lettersSha _ hsha hrun
  obtain ⟨o, ho, hwritten, hoffset, -⟩ := encodeFile_in_bounds lettersSha (List.replicate 136 0)
    [seventeen.packet, seventeen.packet] (by rw [List.length_replicate]; decide) hs
  exact ⟨s, o, hs, ho, hwritten, hoffset⟩

end Sync532
