import Sync532.EncodeRecords

namespace Sync532
variable {κ : Type*} [DecidableEq κ]

/-- A packet with the ends of its chunks, as the chunk loop finds them in `q_index`. -/
structure ChunkedPacket where
  payload : List Byte
  ends : List ℕ
  rest : List ℤ
  cuts : CutsFrom 0 ends
  inside : ∀ e ∈ ends, e < payload.length
  size : payload.length < 2^31

namespace ChunkedPacket

def qIndex (p : ChunkedPacket) : List ℤ := asInts p.ends ++ -1 :: p.rest

/-- The chunks with the numbers that the loop gives them. -/
def calls (p : ChunkedPacket) : List (Str × BitVec 32) :=
  (segments 0 p.ends).zipIdx.map (fun r => (slice p.payload r.1.1 r.1.2, BitVec.ofNat 32 r.2))

theorem index_lt (p : ChunkedPacket) : ∀ c ∈ p.calls, c.2.toNat < 2^31 := by
  intro c hc
  obtain ⟨r, hr, rfl⟩ := List.mem_map.mp hc
  have hidx := (List.mem_zipIdx hr).2.1
  have hcount := p.cuts.length_le p.inside
  have hsize := p.size
  rw [length_segments] at hidx
  rw [BitVec.toNat_ofNat]
  omega

/-- The packet that `cdc` makes of a payload. -/
def ofCdc (payload : List Byte) (h16 : winSize ≤ payload.length) (size : payload.length < 2^31) :
    ChunkedPacket where
  payload := payload
  ends := cdcEnds payload
  rest := List.replicate (payload.length-(cdcEnds payload).length-1) (-1)
  cuts := cdcEnds_increasing payload
  inside := lt_of_mem_cdcEnds payload h16
  size := size

theorem ofCdc_qIndex (payload : List Byte) (h16 : winSize ≤ payload.length)
    (size : payload.length < 2^31) :
    cdc payload (BitVec.ofNat 32 payload.length) (List.replicate payload.length (-1)) =
      some (ofCdc payload h16 size).qIndex :=
  cdc_filled payload h16 size

end ChunkedPacket

/-- The chunk loop with `key` as a perfect identifier of the contents, and with any
bytes for the bodies of the LZW records. -/
def encodeByKey (key : Str ↪ κ) (body : Str → List Byte) (p : ChunkedPacket)
    (s : EncodeState κ) :
    Option (EncodeState κ) :=
  encodeLoop (fun _ first last => some (key (slice p.payload first.toNat last.toNat)))
    (fun _ first last => some (.lzw (slice p.payload first.toNat last.toNat)
      (body (slice p.payload first.toNat last.toNat)))) p.qIndex s

def encodeByKeyRun (key : Str ↪ κ) (body : Str → List Byte) (packets : List ChunkedPacket) :
    Option (EncodeState κ) :=
  packets.foldlM (fun s p => encodeByKey key body p s) (encodeStart κ)

/-- All chunks of a run, with their numbers. -/
def runCalls (packets : List ChunkedPacket) : List (Str × BitVec 32) :=
  packets.flatMap ChunkedPacket.calls

def keyLabel (key : Str ↪ κ) (c : Str) : Option κ := some (key c)

def bodyRecord (body : Str → List Byte) (c : Str) : FileRecord := .lzw c (body c)

theorem encodeByKey_eq (key : Str ↪ κ) (body : Str → List Byte) (p : ChunkedPacket)
    (s : EncodeState κ) :
    encodeByKey key body p s = p.calls.foldlM (fun s c =>
      encodeChunk s c.2 (keyLabel key c.1) (some (bodyRecord body c.1))) s := by
  rw [ChunkedPacket.calls, List.foldlM_map]
  exact chunkLoop_ends _ p.ends p.rest 0 0 s

theorem encodeByKeyRun_eq (key : Str ↪ κ) (body : Str → List Byte)
    (packets : List ChunkedPacket) (s : EncodeState κ) :
    packets.foldlM (fun s p => encodeByKey key body p s) s = (runCalls packets).foldlM (fun s c =>
      encodeChunk s c.2 (keyLabel key c.1) (some (bodyRecord body c.1))) s := by
  induction packets generalizing s with
  | nil => rfl
  | cons p packets ih =>
    rw [List.foldlM_cons, runCalls, List.flatMap_cons, List.foldlM_append, encodeByKey_eq]
    exact congrArg _ (funext ih)

theorem encodeByKeyRun_records (key : Str ↪ κ) (body : Str → List Byte)
    (packets : List ChunkedPacket) :
    ∃ s, encodeByKeyRun key body packets = some s ∧
      s.records = firstAnswers id (orRecord (bodyRecord body)) [] (runCalls packets) := by
  have hidx : ∀ c ∈ runCalls packets, c.2.toNat < 2^31 := by
    intro c hc
    obtain ⟨p, -, hp⟩ := List.mem_flatMap.mp hc
    exact p.index_lt c hp
  have hstart : Remembers (keyLabel key) (encodeStart κ).umap [] := remembers_nil (keyLabel key)
  obtain ⟨umap, hrun, -⟩ := @encodeChunks_records _ _ _ (keyLabel key)
    (fun c => some (bodyRecord body c)) (bodyRecord body) _ _ hstart (runCalls packets)
    (fun _ _ => rfl) hidx (fun _ _ _ _ _ => rfl)
  refine ⟨_, (encodeByKeyRun_eq key body packets _).trans hrun, ?_⟩
  apply firstAnswers_congr
  intro c _ c' _
  exact (Option.some_inj.trans key.injective.eq_iff)

/-- Every duplicate record points to an earlier LZW record with the content of its
chunk exactly when every chunk that comes again has, at its first place, the number
of the different chunks that the run had before. -/
theorem duplicate_locations_iff (key : Str ↪ κ) (body : Str → List Byte)
    (packets : List ChunkedPacket) :
    ∃ s, encodeByKeyRun key body packets = some s ∧
      s.records.length = (runCalls packets).length ∧
      (LocationsAgree s.records (labelsOf id (runCalls packets)) ↔
        NumbersFirsts id BitVec.toNat (runCalls packets)) := by
  obtain ⟨s, hrun, hrecords⟩ := encodeByKeyRun_records key body packets
  refine ⟨s, hrun, ?_, ?_⟩
  · rw [hrecords, length_firstAnswers]
  · rw [hrecords]
    exact locationsAgree_iff (fun b => ⟨body b, rfl⟩) (runCalls packets)

theorem onePacket_size (b : Byte) : (List.replicate 16 b).length < 2^31 := by
  rw [List.length_replicate]
  decide

/-- 16 bytes of one value are one chunk. -/
def onePacket (b : Byte) : ChunkedPacket :=
  .ofCdc (List.replicate 16 b) (by rw [List.length_replicate]; decide) (onePacket_size b)

/-- Three packets of one chunk each, the third like the second: `encode` numbers each
of these chunks 0, so the third is replaced by a reference to the first. -/
theorem duplicate_location_wrong :
    (∀ b, cdc (List.replicate 16 b) 16 (List.replicate 16 (-1)) = some (onePacket b).qIndex) ∧
    ∃ s, encodeByKeyRun (.refl Str) (fun _ => [])
        [onePacket 0x41, onePacket 0x42, onePacket 0x42] = some s ∧
      s.records = [.lzw (List.replicate 16 0x41) [], .lzw (List.replicate 16 0x42) [], .ref 0] ∧
      ¬LocationsAgree s.records
        (labelsOf id (runCalls [onePacket 0x41, onePacket 0x42, onePacket 0x42])) := by
  refine ⟨?_, _, rfl, rfl, ?_⟩
  · exact fun b => ChunkedPacket.ofCdc_qIndex (List.replicate 16 b) _ _
  · intro h
    have hsame := (h 2 0 rfl).2
    exact absurd hsame (by decide)

end Sync532
