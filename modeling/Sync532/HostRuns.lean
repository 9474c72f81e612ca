import Sync532.NetworkRuns

namespace Sync532

/-- The packets that `main` passes to `encode` as long as the calls return. -/
def hostPackets (blocksize : ℕ) (input : Fin numPackets → Slot)
    (rs : List (Receive × CallMemory)) : Option (List Packet) :=
  (ringCalls blocksize rs ⟨input, pipeDepth, false⟩).bind callPackets

theorem hostPackets_payloads {blocksize : ℕ} (input : Fin numPackets → Slot)
    (rs : List (Receive × CallMemory)) (hrs : ∀ r ∈ rs, r.1.Complete blocksize) :
    ∃ packets, hostPackets blocksize input rs = some packets ∧
      packets.map Packet.payload =
        (upTo packetDone (rs.map (fun r => r.1.delivered blocksize))).map packetPayload := by
  have hdepth : pipeDepth ≤ numPackets := by decide
  obtain ⟨calls, hcalls, hpayloads, hsizes⟩ :=
    ringCalls_complete rs hrs ⟨input, pipeDepth, false⟩ hdepth rfl
  obtain ⟨packets, hpackets, hsame⟩ := callPackets_payloads hsizes
  refine ⟨packets, ?_, hsame.trans hpayloads⟩
  rw [hostPackets, hcalls, Option.bind_some, hpackets]

theorem serverFile_calls (sha : Str → Digest) (blocksize : ℕ) (input : Fin numPackets → Slot)
    (file : List Byte) (rs : List (Receive × CallMemory)) :
    serverFile ⟨file, 0⟩ (serverMain (hostEncode sha) blocksize input file UMap.empty rs) =
      (ringCalls blocksize rs ⟨input, pipeDepth, false⟩).bind (fun calls =>
        (callsRun (hostEncode sha) calls (UMap.empty, ⟨file, 0⟩)).map Prod.snd) := by
  rw [serverMain_eq_loop]
  exact serverLoop_file (hostEncode sha) rs
    ⟨⟨input, pipeDepth, false⟩, UMap.empty, ⟨file, 0⟩⟩

theorem serverFile_of_packets {sha : Str → Digest} {blocksize : ℕ}
    {input : Fin numPackets → Slot} {file : List Byte} {rs : List (Receive × CallMemory)}
    {packets : List Packet} {s : EncodeState Str}
    (hpackets : hostPackets blocksize input rs = some packets)
    (hrun : encodeRun sha packets = some s)
    (hroom : 4*(packets.flatMap Packet.payload).length ≤ file.length) :
    serverFile ⟨file, 0⟩ (serverMain (hostEncode sha) blocksize input file UMap.empty rs) =
      some (s.fileBuffer file) := by
  obtain ⟨calls, hcalls, hcallPackets⟩ := Option.bind_eq_some_iff.mp hpackets
  rw [serverFile_calls, hcalls, Option.bind_some, callsRun_room hcallPackets hrun hroom]
  rfl

/-- The file of `main` is that of a run of `encode` over the packets it passes on, as long
as the records fit into the block; from then on it is undefined. -/
theorem serverMain_records (sha : Str → Digest) (blocksize : ℕ)
    (input : Fin numPackets → Slot) (file : List Byte) (rs : List (Receive × CallMemory)) :
    serverFile ⟨file, 0⟩ (serverMain (hostEncode sha) blocksize input file UMap.empty rs) =
      ((hostPackets blocksize input rs).bind (encodeRun sha)).bind (fun s =>
        if (fileBytes s.records).length ≤ file.length then
          some ⟨fileBytes s.records ++ file.drop (fileBytes s.records).length,
            (fileBytes s.records).length⟩
        else none) := by
  rw [serverFile_calls, hostPackets]
  rcases ringCalls blocksize rs ⟨input, pipeDepth, false⟩ with _ | calls
  · rfl
  rw [Option.bind_some, Option.bind_some, callsRun_packets]
  rcases (callPackets calls).bind (encodeRun sha) with _ | s
  · rfl
  rw [Option.bind_some, Option.bind_some]
  split_ifs <;> rfl

/-- Client, network, server and decoder: what the server writes is decoded to the payloads
that it takes, and to the file of the client when every datagram arrives in its place. -/
theorem network_round_trip (sha : Str → Digest) (input : Fin numPackets → Slot)
    (file : List Byte) (memory : ℕ → CallMemory) (content : List Byte) (behind : ℕ → Byte)
    (buffer : List Byte) {blocksize : ℕ} (hblock : 1 ≤ blocksize)
    (hmax : blocksize ≤ maxBlocksize) (hint : content.length < 2^31)
    (hfull : blocksize ≤ content.length) {run : ClientRun}
    (hrun : clientMain content behind buffer blocksize = some run) {f : Faults}
    {c : Channel (List Byte)} (hnet : c.Reaches f run.sent) {packets : List Packet}
    (hpackets : hostPackets blocksize input (arrivals memory c.received) = some packets)
    (hroom : 4*(packets.flatMap Packet.payload).length ≤ file.length)
    (hsha : DigestsDistinct sha packets) (hok : RunOk sha packets) :
    ∃ out, serverFile ⟨file, 0⟩ (serverMain (hostEncode sha) blocksize input file UMap.empty
        (arrivals memory c.received)) = some out ∧
      ∀ fuel, out.offset+2 ≤ fuel →
        decoderMain fuel (out.file.take out.offset) =
            some ((upTo packetDone c.received).flatMap packetPayload) ∧
          (c.received = run.sent →
            decoderMain fuel (out.file.take out.offset) = some content) := by
  obtain ⟨reads, hmain⟩ := clientMain_sent content behind buffer hblock hmax hint
  obtain rfl := Option.some.inj (hmain.symm.trans hrun)
  obtain ⟨hreceived, hcomplete⟩ := arrivals_datagrams hblock hmax memory hnet.mem
  obtain ⟨packets', hsame, hpayloads⟩ := hostPackets_payloads input _ hcomplete
  obtain rfl := Option.some.inj (hpackets.symm.trans hsame)
  rw [hreceived] at hpayloads
  obtain ⟨s, hencode, hdecode⟩ := decoderMain_encodeRun sha _ hsha hok.toRunEncodable
  refine ⟨s.fileBuffer file, serverFile_of_packets hpackets hencode hroom, ?_⟩
  intro fuel hfuel
  have htaken : decoderMain fuel ((s.fileBuffer file).file.take (s.fileBuffer file).offset) =
      some ((upTo packetDone c.received).flatMap packetPayload) := by
    simp only [EncodeState.fileBuffer, List.take_left] at hfuel ⊢
    rw [hdecode fuel hfuel, contents_firstAnswers PacketChunk.fileRecord_chunk _ hok.numbers,
      packetCalls_content _ hok.full, List.flatMap_def, hpayloads, ← List.flatMap_def]
  refine ⟨htaken, ?_⟩
  intro hall
  -- the last datagram has the done bit, and the earlier ones do not
  obtain ⟨earlier, last, hsent, hlast, hearlier⟩ := datagrams_done
    (clientMemory content behind content.length) content.length hblock hmax
  have hends : clientSent content behind blocksize = earlier ++ [last] := hsent
  rw [htaken, hall]
  dsimp only
  rw [hends, upTo_of_last hlast hearlier, ← hends,
    clientSent_content content behind hblock hmax hfull]

/-- The packets of 34 letters in blocks of 17. -/
theorem hostPackets_letters :
    hostPackets 17 zeroInput (arrivals (fun _ => zeroMemory)
        (clientSent (List.replicate 34 0x41) (fun _ => 0) 17)) =
      some (List.replicate 2 seventeenReceived.packet) := by
  have hmax : 17 ≤ maxBlocksize := by decide
  have hcalls := pieces_calls (clientMemory (List.replicate 34 0x41) (fun _ => 0) 34) hmax
    (fun p hp => (filePieces_count 34 (by decide) p hp).2) (filePieces_done 34 17) zeroInput
    (fun _ => zeroMemory) []
  have hblocks : (filePieces 34 17).map
      (Piece.bytes (clientMemory (List.replicate 34 0x41) (fun _ => 0) 34)) =
        List.replicate 2 (List.replicate 17 0x41) := by decide
  have hpayloads : withMemory (fun _ => zeroMemory) (List.replicate 2 (List.replicate 17 0x41)) =
      letterPayloads 2 := rfl
  rw [hblocks, hpayloads, bufferCalls_letters, List.append_nil] at hcalls
  have hlen : (List.replicate 34 (0x41 : Byte)).length = 34 := List.length_replicate
  rw [hostPackets, clientSent, hlen, hcalls, Option.bind_some, callPackets_letters]

theorem letters_ok :
    DigestsDistinct lettersSha (List.replicate 2 seventeenReceived.packet) ∧
      RunOk lettersSha (List.replicate 2 seventeenReceived.packet) ∧
      4*((List.replicate 2 seventeenReceived.packet).flatMap Packet.payload).length ≤
        zeroFile.length := by
  obtain ⟨hsha, hencodable⟩ := letters_encodable 2
  refine ⟨hsha, ⟨hencodable, ?_⟩, ?_⟩
  · exact ShortText.run_numbers seventeenReceived [seventeenReceived] (by simp)
  · rw [length_zeroFile]
    decide

/-- 34 letters in two datagrams. -/
theorem network_round_trip_letters :
    ∃ run out, clientMain (List.replicate 34 0x41) (fun _ => 0) [] 17 = some run ∧
      serverFile ⟨zeroFile, 0⟩ (serverMain (hostEncode lettersSha) 17 zeroInput zeroFile
        UMap.empty (arrivals (fun _ => zeroMemory) run.sent)) = some out ∧
      ∀ fuel, out.offset+2 ≤ fuel →
        decoderMain fuel (out.file.take out.offset) = some (List.replicate 34 0x41) := by
  have hblock : 17 ≤ maxBlocksize := by decide
  obtain ⟨reads, hrun⟩ := clientMain_sent (List.replicate 34 0x41) (fun _ => 0) [] (by decide)
    hblock (by decide)
  obtain ⟨hsha, hok, hroom⟩ := letters_ok
  obtain ⟨out, hout, hdecode⟩ := network_round_trip lettersSha zeroInput zeroFile
    (fun _ => zeroMemory) (List.replicate 34 0x41) (fun _ => 0) [] (by decide) hblock (by decide)
    (by decide) hrun
      (Channel.reaches_sublist (f := ⟨true, true, true⟩) rfl (List.Sublist.refl _))
    hostPackets_letters hroom hsha hok
  exact ⟨_, out, hrun, hout, fun fuel hfuel => (hdecode fuel hfuel).2 rfl⟩

end Sync532
