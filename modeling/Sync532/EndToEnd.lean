import Sync532.EncodePacket

namespace Sync532

def packetCalls (packets : List Packet) : List (PacketChunk × BitVec 32) :=
  packets.flatMap Packet.calls

def packetChunks (packets : List Packet) : List PacketChunk := (packetCalls packets).map Prod.fst

/-- The digests of the different chunks of the run are different. -/
def DigestsDistinct (sha : Str → Digest) (packets : List Packet) : Prop :=
  ∀ c ∈ packetChunks packets, ∀ c' ∈ packetChunks packets,
    sha c.content = sha c'.content → c.content = c'.content

/-- The packets have a window, their strings end, the keys stand for the contents,
and every new chunk can be written. -/
structure RunEncodable (sha : Str → Digest) (packets : List Packet) : Prop where
  full : ∀ p ∈ packets, winSize ≤ p.payload.length
  ended : ∀ p ∈ packets, 0 ∈ p.memory
  keys : KeysFaithful sha PacketChunk.content PacketChunk.stack (packetChunks packets)
  fresh : ∀ pre c post, packetCalls packets = pre ++ c :: post →
    c.1.content ∉ labelsOf PacketChunk.content pre → c.1.Encodable

theorem mem_packetCalls {packets : List Packet}
    (hfull : ∀ p ∈ packets, winSize ≤ p.payload.length) {c : PacketChunk × BitVec 32}
    (hc : c ∈ packetCalls packets) :
    c.1.packet ∈ packets ∧
      (c.1.chunkStart, c.1.chunkEnd) ∈ segments 0 (cdcEnds c.1.packet.payload) ∧
      c.2.toNat < 2^31 := by
  obtain ⟨p, hp, hcp⟩ := List.mem_flatMap.mp hc
  obtain ⟨rfl, hseg, hidx⟩ := Packet.mem_calls (hfull p hp) hcp
  exact ⟨hp, hseg, hidx⟩

theorem Packet.calls_content (p : Packet) (h16 : winSize ≤ p.payload.length) :
    p.calls.flatMap (fun c => c.1.content) = p.payload := by
  have hpart := cdcEnds_partition p.payload h16
  have hslice : ∀ r ∈ (segments 0 (cdcEnds p.payload)).zipIdx,
      slice p.memory r.1.1 r.1.2 = slice p.payload r.1.1 r.1.2 := by
    intro r hr
    exact slice_append_left _ _ _ _ (hpart.inside r.1 (List.fst_mem_of_mem_zipIdx hr))
  calc p.calls.flatMap (fun c => c.1.content)
      = (segments 0 (cdcEnds p.payload)).zipIdx.flatMap
          (fun r => slice p.memory r.1.1 r.1.2) := by
        rw [Packet.calls, List.flatMap_map]
        rfl
    _ = (segments 0 (cdcEnds p.payload)).zipIdx.flatMap
          (fun r => slice p.payload r.1.1 r.1.2) := List.flatMap_congr hslice
    _ = ((segments 0 (cdcEnds p.payload)).zipIdx.map Prod.fst).flatMap
          (fun r => slice p.payload r.1 r.2) := by
        rw [List.flatMap_map]
    _ = p.payload := by
        rw [List.zipIdx_map_fst]
        exact hpart.content

theorem encodeRun_eq (sha : Str → Digest) (packets : List Packet)
    (hfull : ∀ p ∈ packets, winSize ≤ p.payload.length)
    (hended : ∀ p ∈ packets, 0 ∈ p.memory) (s : EncodeState Str) :
    packets.foldlM (fun s p => encode sha p s) s = (packetCalls packets).foldlM (fun s c =>
      encodeChunk s c.2 (keyOf sha PacketChunk.content PacketChunk.stack c.1) c.1.lzwRecord) s := by
  induction packets generalizing s with
  | nil => rfl
  | cons p packets ih =>
    have hp : p ∈ p :: packets := List.mem_cons_self
    rw [List.foldlM_cons, packetCalls, List.flatMap_cons, List.foldlM_append,
      encode_eq sha p (hfull p hp) (hended p hp)]
    exact congrArg _ (funext (ih (fun q hq => hfull q (List.mem_cons_of_mem _ hq))
      (fun q hq => hended q (List.mem_cons_of_mem _ hq))))

theorem RunEncodable.writes_new {sha : Str → Digest} {packets : List Packet}
    (h : RunEncodable sha packets) {pre post : List (PacketChunk × BitVec 32)}
    {c : PacketChunk × BitVec 32} (hcalls : packetCalls packets = pre ++ c :: post)
    (hnew : firstValue PacketChunk.content pre c.1.content = none) :
    c.1.lzwRecord = some c.1.fileRecord ∧ c.1.fileRecord.Valid := by
  have hmem : c ∈ packetCalls packets := by rw [hcalls]; simp
  obtain ⟨hpacket, hseg, -⟩ := mem_packetCalls h.full hmem
  have hle := (cdcEnds_partition _ (h.full _ hpacket)).nonempty _ hseg
  have hfresh : c.1.content ∉ labelsOf PacketChunk.content pre := by
    intro hold
    obtain ⟨d, hd, heq⟩ := List.mem_map.mp hold
    exact (firstValue_eq_none _ pre _).mp hnew d hd heq
  exact (h.fresh pre c post hcalls hfresh).lzwRecord hle (h.ended _ hpacket)

theorem encodeRun_records (sha : Str → Digest) (packets : List Packet)
    (hsha : DigestsDistinct sha packets) (h : RunEncodable sha packets) :
    ∃ s, encodeRun sha packets = some s ∧
      s.records = firstAnswers PacketChunk.content (orRecord PacketChunk.fileRecord) []
        (packetCalls packets) ∧
      ∀ rec ∈ s.records, rec.Valid := by
  obtain ⟨hsome, hsame⟩ := (keysFaithful_iff (packetChunks packets) hsha).mp h.keys
  have hchunk : ∀ c ∈ packetCalls packets, c.1 ∈ packetChunks packets :=
    fun c hc => List.mem_map_of_mem hc
  have hrec : ∀ pre c post, packetCalls packets = pre ++ c :: post →
      firstValue (keyOf sha PacketChunk.content PacketChunk.stack) ([] ++ pre)
        (keyOf sha PacketChunk.content PacketChunk.stack c.1) = none →
      c.1.lzwRecord = some c.1.fileRecord := by
    intro pre c post hcalls hnew
    refine (h.writes_new hcalls ?_).1
    -- a new key means a new content
    have hc := hchunk c (by rw [hcalls]; simp)
    rw [firstValue_eq_none] at hnew ⊢
    intro d hd heq
    have hd' := hchunk d (by rw [hcalls]; simp [hd])
    exact hnew d (by simpa using hd) ((hsame d.1 hd' c.1 hc).mpr heq)
  obtain ⟨umap, hrun, -⟩ := encodeChunks_records PacketChunk.fileRecord
    (remembers_nil (keyOf sha PacketChunk.content PacketChunk.stack)) (s := encodeStart Str)
    (packetCalls packets) (fun c hc => hsome c.1 (hchunk c hc))
    (fun c hc => (mem_packetCalls h.full hc).2.2) hrec
  have hlabels : firstAnswers (keyOf sha PacketChunk.content PacketChunk.stack)
        (orRecord PacketChunk.fileRecord) [] (packetCalls packets) =
      firstAnswers PacketChunk.content (orRecord PacketChunk.fileRecord) []
        (packetCalls packets) := by
    apply firstAnswers_congr
    intro c hc c' hc'
    exact hsame c.1 (hchunk c hc) c'.1 (hchunk c' hc')
  refine ⟨_, (encodeRun_eq sha packets h.full h.ended _).trans hrun, hlabels, ?_⟩
  intro rec hmem
  obtain ⟨pre, c, post, hcalls, rfl⟩ := mem_firstAnswers (hlabels ▸ hmem)
  rcases hfirst : firstValue PacketChunk.content pre c.1.content with _ | v
  · exact (h.writes_new hcalls hfirst).2
  · obtain ⟨d, hd, rfl⟩ := Option.map_eq_some_iff.mp hfirst
    have hmem : d ∈ packetCalls packets := by
      rw [hcalls]
      exact List.mem_append_left _ (List.mem_of_find?_eq_some hd)
    exact (mem_packetCalls h.full hmem).2.2

theorem decoderMain_encodeRun (sha : Str → Digest) (packets : List Packet)
    (hsha : DigestsDistinct sha packets) (h : RunEncodable sha packets) :
    ∃ s, encodeRun sha packets = some s ∧ ∀ fuel, (fileBytes s.records).length+2 ≤ fuel →
      decoderMain fuel (fileBytes s.records) =
        some (contents [] (firstAnswers PacketChunk.content (orRecord PacketChunk.fileRecord) []
          (packetCalls packets))) := by
  obtain ⟨s, hrun, hrecords, hvalid⟩ := encodeRun_records sha packets hsha h
  refine ⟨s, hrun, ?_⟩
  intro fuel hfuel
  rw [← hrecords]
  exact (decoderMain_records s.records hvalid fuel hfuel).1

/-- A run whose chunk numbers also fit the decoder's. -/
structure RunOk (sha : Str → Digest) (packets : List Packet) : Prop
    extends RunEncodable sha packets where
  numbers : NumbersFirsts PacketChunk.content BitVec.toNat (packetCalls packets)

theorem packetCalls_append (ps qs : List Packet) :
    packetCalls (ps ++ qs) = packetCalls ps ++ packetCalls qs := List.flatMap_append

theorem packetChunks_append_left {ps qs : List Packet} {c : PacketChunk}
    (hc : c ∈ packetChunks ps) :
    c ∈ packetChunks (ps ++ qs) := by
  rw [packetChunks, packetCalls_append, List.map_append]
  exact List.mem_append_left _ hc

theorem packetCalls_append_split {ps qs : List Packet} {pre post : List (PacketChunk × BitVec 32)}
    {c : PacketChunk × BitVec 32} (hcalls : packetCalls ps = pre ++ c :: post) :
    packetCalls (ps ++ qs) = pre ++ c :: (post ++ packetCalls qs) := by
  rw [packetCalls_append, hcalls, List.append_assoc, List.cons_append]

theorem RunEncodable.of_append {sha : Str → Digest} {ps qs : List Packet}
    (h : RunEncodable sha (ps ++ qs)) : RunEncodable sha ps := by
  refine ⟨fun p hp => h.full p (List.mem_append_left _ hp),
    fun p hp => h.ended p (List.mem_append_left _ hp), ?_, ?_⟩
  · exact ⟨fun c hc => h.keys.terminated c (packetChunks_append_left hc),
      fun c hc c' hc' =>
        h.keys.repeated c (packetChunks_append_left hc) c' (packetChunks_append_left hc'),
      fun c hc c' hc' =>
        h.keys.distinct c (packetChunks_append_left hc) c' (packetChunks_append_left hc')⟩
  · intro pre c post hcalls
    exact h.fresh pre c _ (packetCalls_append_split hcalls)

theorem RunOk.of_append {sha : Str → Digest} {ps qs : List Packet} (h : RunOk sha (ps ++ qs)) :
    RunOk sha ps := by
  refine ⟨h.toRunEncodable.of_append, ?_⟩
  intro pre c post hcalls hnew hagain
  apply h.numbers pre c _ (packetCalls_append_split hcalls) hnew
  rw [labelsOf, List.map_append]
  exact List.mem_append_left _ hagain

theorem packetCalls_content (packets : List Packet)
    (hfull : ∀ p ∈ packets, winSize ≤ p.payload.length) :
    (packetCalls packets).flatMap (fun c => c.1.content) = packets.flatMap Packet.payload := by
  rw [packetCalls, List.flatMap_assoc]
  exact List.flatMap_congr (fun p hp => p.calls_content (hfull p hp))

/-- In a run of this kind the decoder gives back the payloads, after every packet. -/
theorem encode_decode_round_trip (sha : Str → Digest) (packets : List Packet)
    (hsha : DigestsDistinct sha packets) (h : RunOk sha packets) :
    ∀ n ≤ packets.length, ∃ s, encodeRun sha (packets.take n) = some s ∧
      ∀ fuel, (fileBytes s.records).length+2 ≤ fuel →
        decoderMain fuel (fileBytes s.records) =
          some ((packets.take n).flatMap Packet.payload) := by
  intro n _
  have hn : RunOk sha (packets.take n) := by
    have hall : RunOk sha (packets.take n ++ packets.drop n) := by rwa [List.take_append_drop]
    exact hall.of_append
  have hsha' : DigestsDistinct sha (packets.take n) := by
    have hsub : ∀ c ∈ packetChunks (packets.take n), c ∈ packetChunks packets := by
      intro c hc
      rw [← List.take_append_drop n packets, packetChunks, packetCalls_append, List.map_append]
      exact List.mem_append_left _ hc
    exact fun c hc c' hc' => hsha c (hsub c hc) c' (hsub c' hc')
  obtain ⟨s, hrun, hdecode⟩ := decoderMain_encodeRun sha _ hsha' hn.toRunEncodable
  refine ⟨s, hrun, ?_⟩
  intro fuel hfuel
  rw [hdecode fuel hfuel, contents_firstAnswers PacketChunk.fileRecord_chunk _ hn.numbers,
    packetCalls_content _ hn.full]

/-- A packet of one byte value, with a zero byte behind it and behind each digest. -/
def letterPacket (b : Byte) : Packet :=
  ⟨List.replicate 16 b, [0], fun _ => [0], fun _ _ => 0, by
    rw [List.length_replicate]
    decide⟩

def letterChunk (b : Byte) : PacketChunk := ⟨letterPacket b, 0, 0, 15⟩

theorem letter_calls (bs : List Byte) :
    packetCalls (bs.map letterPacket) = bs.map (fun b => (letterChunk b, 0)) := by
  have hends (b : Byte) : cdcEnds (List.replicate 16 b) = [15] := by
    simp [cdcEnds, cutPositions, winSize]
  have hone (b : Byte) : (letterPacket b).calls = [(letterChunk b, 0)] := by
    have h : cdcEnds (letterPacket b).payload = [15] := hends b
    rw [Packet.calls, h]
    rfl
  rw [packetCalls, List.flatMap_map, funext hone, List.map_eq_flatMap]

theorem letter_content (b : Byte) : (letterChunk b).content = List.replicate 16 b := by
  simp [PacketChunk.content, letterChunk, letterPacket, Packet.memory, slice]

theorem letter_contents {x y : Byte} (hxy : x ≠ y) :
    contents [] (firstAnswers PacketChunk.content (orRecord PacketChunk.fileRecord) []
        ([x, y, y].map (fun b => (letterChunk b, 0)))) =
      List.replicate 16 x ++ List.replicate 16 y ++ List.replicate 16 x := by
  obtain ⟨a, ha⟩ := (letterChunk x).fileRecord_chunk
  obtain ⟨b, hb⟩ := (letterChunk y).fileRecord_chunk
  rw [letter_content] at ha hb
  simp [firstAnswers, firstValue, letter_content, orRecord, ha, hb, hxy, contents,
    FileRecord.content, lzwChunks, -List.reduceReplicate]

theorem letter_numbers {x y : Byte} (hxy : x ≠ y) :
    NumbersFirsts PacketChunk.content (BitVec.toNat (w := 32))
      ([x, y, x].map (fun b => (letterChunk b, 0))) := by
  intro pre c post hcalls hnew hagain
  rcases pre with _ | ⟨c₁, _ | ⟨c₂, _ | ⟨c₃, pre⟩⟩⟩
  · simp only [List.map_cons, List.nil_append, List.cons.injEq] at hcalls
    rw [← hcalls.1]
    rfl
  · simp only [List.map_cons, List.map_nil, List.cons_append, List.nil_append,
      List.cons.injEq] at hcalls
    obtain ⟨-, rfl, rfl⟩ := hcalls
    simp only [labelsOf, letter_content, List.map_cons, List.map_nil, List.mem_singleton] at hagain
    exact absurd (by simpa [-List.reduceReplicate] using hagain) hxy.symm
  · simp only [List.map_cons, List.map_nil, List.cons_append, List.nil_append,
      List.cons.injEq] at hcalls
    obtain ⟨-, -, -, rfl⟩ := hcalls
    simp [labelsOf] at hagain
  · simp at hcalls

section Letters
variable {bs : List Byte} (hbs : ∀ b ∈ bs, b = 0x41 ∨ b = 0x42)
include hbs

theorem letter_cases : ∀ c ∈ packetChunks (bs.map letterPacket),
    c = letterChunk 0x41 ∨ c = letterChunk 0x42 := by
  intro c hc
  rw [packetChunks, letter_calls, List.map_map] at hc
  obtain ⟨b, hb, rfl⟩ := List.mem_map.mp hc
  rcases hbs b hb with rfl | rfl
  · exact Or.inl rfl
  · exact Or.inr rfl

theorem letter_distinct : DigestsDistinct letterSha (bs.map letterPacket) := by
  have hne : letterSha (List.replicate 16 0x41) ≠ letterSha (List.replicate 16 0x42) := by decide
  intro c hc c' hc' he
  rcases letter_cases hbs c hc with rfl | rfl <;> rcases letter_cases hbs c' hc' with rfl | rfl
  · rfl
  · rw [letter_content, letter_content] at he
    exact absurd he hne
  · rw [letter_content, letter_content] at he
    exact absurd he.symm hne
  · rfl

theorem letter_encodable : RunEncodable letterSha (bs.map letterPacket) := by
  have hpacket : ∀ p ∈ bs.map letterPacket, ∃ b, p = letterPacket b := by
    intro p hp
    obtain ⟨b, -, rfl⟩ := List.mem_map.mp hp
    exact ⟨b, rfl⟩
  have hwhole :
      ∀ c ∈ packetChunks (bs.map letterPacket), 0 ∉ (letterSha c.content).bytes := by
    intro c hc
    rcases letter_cases hbs c hc with rfl | rfl <;> rw [letter_content] <;> decide
  have hstack : ∀ c ∈ packetChunks (bs.map letterPacket), c.stack = [0] := by
    intro c hc
    rcases letter_cases hbs c hc with rfl | rfl <;> rfl
  refine ⟨?_, ?_, ⟨?_, ?_, ?_⟩, ?_⟩
  · intro p hp
    obtain ⟨b, rfl⟩ := hpacket p hp
    simp [letterPacket, winSize]
  · intro p hp
    obtain ⟨b, rfl⟩ := hpacket p hp
    simp [letterPacket, Packet.memory]
  · intro c hc
    rw [hstack c hc]
    exact Or.inr List.mem_cons_self
  · intro c hc c' hc' _ _
    rw [hstack c hc, hstack c' hc']
  · intro c hc c' _ _ hzero _
    exact absurd hzero (hwhole c hc)
  · intro pre c post hcalls _
    have hc : c.1 ∈ packetChunks (bs.map letterPacket) := by
      rw [packetChunks, hcalls]
      exact List.mem_map_of_mem (by simp)
    have hshort : ∀ b, ∀ v ∈ lzwCodes (letterChunk b).content, v < 2^13 :=
      fun b => lzwCodes_lt _ (by rw [letter_content, List.length_replicate]; decide)
    rcases letter_cases hbs c.1 hc with he | he <;> rw [he] <;>
      exact ⟨by decide, by decide, hshort _⟩

end Letters

/-- The packets `A`, `B`, `B`, each one chunk: the decoder gives back `A`, `B`, `A`. -/
theorem encode_decode_wrong :
    DigestsDistinct letterSha ([0x41, 0x42, 0x42].map letterPacket) ∧
      ∃ s, encodeRun letterSha ([0x41, 0x42, 0x42].map letterPacket) = some s ∧
        ∀ fuel, (fileBytes s.records).length+2 ≤ fuel →
          decoderMain fuel (fileBytes s.records) =
              some (List.replicate 16 0x41 ++ List.replicate 16 0x42 ++ List.replicate 16 0x41) ∧
            decoderMain fuel (fileBytes s.records) ≠
              some (([0x41, 0x42, 0x42].map letterPacket).flatMap Packet.payload) := by
  have hbs : ∀ b ∈ [0x41, 0x42, (0x42 : Byte)], b = 0x41 ∨ b = 0x42 := by decide
  refine ⟨letter_distinct hbs, ?_⟩
  obtain ⟨s, hrun, hdecode⟩ :=
    decoderMain_encodeRun letterSha _ (letter_distinct hbs) (letter_encodable hbs)
  refine ⟨s, hrun, ?_⟩
  intro fuel hfuel
  have hout : decoderMain fuel (fileBytes s.records) =
      some (List.replicate 16 0x41 ++ List.replicate 16 0x42 ++ List.replicate 16 0x41) := by
    rw [hdecode fuel hfuel, letter_calls, letter_contents (by decide)]
  refine ⟨hout, ?_⟩
  rw [hout]
  decide

/-- The packets `A`, `B`, `A` come back. -/
theorem encode_decode_aba :
    ∃ s, encodeRun letterSha ([0x41, 0x42, 0x41].map letterPacket) = some s ∧
      ∀ fuel, (fileBytes s.records).length+2 ≤ fuel →
        decoderMain fuel (fileBytes s.records) =
          some (([0x41, 0x42, 0x41].map letterPacket).flatMap Packet.payload) := by
  have hbs : ∀ b ∈ [0x41, 0x42, (0x41 : Byte)], b = 0x41 ∨ b = 0x42 := by decide
  refine encode_decode_round_trip letterSha ([0x41, 0x42, 0x41].map letterPacket)
    (letter_distinct hbs) ⟨letter_encodable hbs, ?_⟩ 3 le_rfl
  rw [letter_calls]
  exact letter_numbers (by decide)

end Sync532
