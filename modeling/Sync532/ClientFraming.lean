import Sync532.ClientModel
import Sync532.HostCalls

namespace Sync532

/-- One `sendto`: the piece of the file and its done bit. -/
structure Piece where
  start : ℕ
  count : ℕ
  done : Bool

def Piece.bytes (buff : ℕ → Byte) (p : Piece) : List Byte :=
  (List.range' p.start p.count).map buff

def Piece.datagram (buff : ℕ → Byte) (p : Piece) : List Byte :=
  localHeader p.count p.done ++ p.bytes buff

/-- The pieces that `main` sends. -/
def filePieces (bytesRead blocksize : ℕ) : List Piece :=
  (List.range (bytesRead/blocksize-1)).map (fun i => ⟨i*blocksize, blocksize, false⟩) ++
    if bytesRead%blocksize = 0 then [⟨(bytesRead/blocksize-1)*blocksize, blocksize, true⟩]
    else [⟨(bytesRead/blocksize-1)*blocksize, blocksize, false⟩,
      ⟨bytesRead/blocksize*blocksize, bytesRead%blocksize, true⟩]

theorem sendFile_eq (buff : ℕ → Byte) (bytesRead blocksize : ℕ) (s : ClientState) :
    sendFile buff bytesRead blocksize s = (filePieces bytesRead blocksize).foldlM
      (fun s p => sendPiece buff p.start p.count p.done s) s := by
  simp only [sendFile, filePieces, List.foldlM_append, List.foldlM_map, Option.bind_eq_bind]
  congr 1
  funext s'
  by_cases hr : bytesRead%blocksize = 0
  · simp [hr]
  · simp [hr]

theorem sendPiece_eq (buff : ℕ → Byte) (p : Piece) (hp : p.count ≤ maxBlocksize)
    (s : ClientState) :
    ∃ buffer, sendPiece buff p.start p.count p.done s =
      some ⟨buffer, s.reads ++ [(p.start, p.count)], s.sent ++ [p.datagram buff]⟩ := by
  have hlen : (localHeader p.count p.done ++ (List.range' p.start p.count).map buff).length =
      header+p.count := by
    rw [List.length_append, List.length_map, List.length_range']
    rfl
  have hroom : header+p.count ≤ maxBlocksize+header := by omega
  refine ⟨localHeader p.count p.done ++ (List.range' p.start p.count).map buff ++
    s.buffer.drop (header+p.count), ?_⟩
  rw [sendPiece, if_pos hroom]
  dsimp only
  rw [← hlen, List.take_left]
  rfl

theorem sendPieces_eq (buff : ℕ → Byte) (ps : List Piece)
    (hps : ∀ p ∈ ps, p.count ≤ maxBlocksize) (s : ClientState) :
    ∃ buffer, ps.foldlM (fun s p => sendPiece buff p.start p.count p.done s) s =
      some ⟨buffer, s.reads ++ ps.map (fun p => (p.start, p.count)),
        s.sent ++ ps.map (Piece.datagram buff)⟩ := by
  induction ps generalizing s with
  | nil => exact ⟨s.buffer, by simp⟩
  | cons p ps ih =>
    obtain ⟨hp, hps⟩ := List.forall_mem_cons.mp hps
    obtain ⟨buffer, hsend⟩ := sendPiece_eq buff p hp s
    obtain ⟨buffer', hrest⟩ := ih hps ⟨buffer, s.reads ++ [(p.start, p.count)],
      s.sent ++ [p.datagram buff]⟩
    refine ⟨buffer', ?_⟩
    rw [List.foldlM_cons, hsend]
    refine hrest.trans ?_
    simp

theorem filePieces_count (bytesRead : ℕ) {blocksize : ℕ} (hblock : 1 ≤ blocksize) :
    ∀ p ∈ filePieces bytesRead blocksize, 0 < p.count ∧ p.count ≤ blocksize := by
  have hmod := Nat.mod_lt bytesRead hblock
  have hwhole : 0 < blocksize ∧ blocksize ≤ blocksize := ⟨hblock, le_rfl⟩
  intro p hp
  rcases List.mem_append.mp hp with hp | hp
  · obtain ⟨i, -, rfl⟩ := List.mem_map.mp hp
    exact hwhole
  · split_ifs at hp with hr
    · rw [List.mem_singleton.mp hp]
      exact hwhole
    · rcases List.mem_pair.mp hp with rfl | rfl
      · exact hwhole
      · exact ⟨Nat.pos_of_ne_zero hr, hmod.le⟩

theorem filePieces_done (bytesRead blocksize : ℕ) :
    ∃ earlier last, filePieces bytesRead blocksize = earlier ++ [last] ∧ last.done = true ∧
      ∀ p ∈ earlier, p.done = false := by
  have hloop : ∀ p ∈ (List.range (bytesRead/blocksize-1)).map
      (fun i => (⟨i*blocksize, blocksize, false⟩ : Piece)), p.done = false := by
    intro p hp
    obtain ⟨i, -, rfl⟩ := List.mem_map.mp hp
    rfl
  unfold filePieces
  split_ifs with hr
  · exact ⟨_, ⟨_, _, true⟩, rfl, rfl, hloop⟩
  · refine ⟨_ ++ [_], ⟨_, _, true⟩, by rw [List.append_assoc]; rfl, rfl, ?_⟩
    intro p hp
    rcases List.mem_append.mp hp with hp | hp
    · exact hloop p hp
    · rw [List.mem_singleton.mp hp]

theorem blocks_contiguous (blocksize k : ℕ) :
    (List.range k).flatMap (fun i => List.range' (i*blocksize) blocksize) =
      List.range' 0 (k*blocksize) := by
  induction k with
  | zero => simp
  | succ k ih =>
    rw [List.range_succ, List.flatMap_append, ih, List.flatMap_singleton, Nat.succ_mul,
      ← List.range'_append_1, Nat.zero_add]

/-- A file of at least one block is cut into its bytes, in their order. -/
theorem filePieces_cover {bytesRead blocksize : ℕ} (hblock : 1 ≤ blocksize)
    (hfull : blocksize ≤ bytesRead) :
    (filePieces bytesRead blocksize).flatMap (fun p => List.range' p.start p.count) =
      List.range' 0 bytesRead := by
  have hdiv := Nat.div_add_mod bytesRead blocksize
  have hpos : 0 < bytesRead/blocksize := Nat.div_pos hfull hblock
  obtain ⟨k, hk⟩ : ∃ k, bytesRead/blocksize = k+1 := ⟨_, (Nat.succ_pred hpos.ne').symm⟩
  have hblocks : List.range' 0 (k*blocksize) ++ List.range' (k*blocksize) blocksize =
      List.range' 0 ((k+1)*blocksize) := by
    rw [Nat.succ_mul, ← List.range'_append_1, Nat.zero_add]
  rw [hk, Nat.mul_comm] at hdiv
  -- the loop sends all full blocks but the last one
  rw [filePieces, hk, List.flatMap_append, List.flatMap_map, Nat.add_sub_cancel, blocks_contiguous]
  split_ifs with hr
  · rw [List.flatMap_singleton, hblocks]
    rw [hr, Nat.add_zero] at hdiv
    rw [hdiv]
  · rw [List.flatMap_cons, List.flatMap_singleton, ← List.append_assoc, hblocks]
    conv_rhs => rw [← hdiv]
    rw [← List.range'_append_1, Nat.zero_add]

/-- The reads stay inside the file exactly if it has a full block. -/
theorem filePieces_inside {bytesRead blocksize : ℕ} (hblock : 1 ≤ blocksize) :
    (∀ p ∈ filePieces bytesRead blocksize, p.start+p.count ≤ bytesRead) ↔
      blocksize ≤ bytesRead := by
  constructor
  · intro hin
    by_contra hshort
    -- the piece behind the loop has a full block all the same
    have hzero : bytesRead/blocksize = 0 := Nat.div_eq_of_lt (by omega)
    have hblocks : ∃ p ∈ filePieces bytesRead blocksize, p.count = blocksize := by
      unfold filePieces
      split_ifs
      · exact ⟨_, List.mem_append_right _ List.mem_cons_self, rfl⟩
      · exact ⟨_, List.mem_append_right _ List.mem_cons_self, rfl⟩
    obtain ⟨p, hp, hcount⟩ := hblocks
    have hle := hin p hp
    omega
  · intro hfull p hp
    have hcount := (filePieces_count bytesRead hblock p hp).1
    have hmem : p.start+p.count-1 ∈ List.range' 0 bytesRead := by
      rw [← filePieces_cover hblock hfull]
      exact List.mem_flatMap.mpr ⟨p, hp, List.mem_range'_1.mpr (by omega)⟩
    have hlt := List.mem_range'_1.mp hmem
    omega

theorem packetLength_cons (low high : Byte) (rest : List Byte) :
    packetLength (low :: high :: rest) = low.toNat+256*(high.toNat%128) := by
  have hlow : low.setWidth 32 &&& ~~~doneBitH = low.setWidth 32 := by
    revert low
    decide
  have hhigh : (high.setWidth 32 <<< 8) &&& ~~~doneBitH =
      BitVec.ofNat 32 (2^8*(high.toNat%128)) := by
    revert high
    decide
  have hl := low.isLt
  have hlowNat : low.toNat%2^32 = low.toNat := Nat.mod_eq_of_lt (by omega)
  have hhighNat : 2^8*(high.toNat%128)%2^32 = 2^8*(high.toNat%128) := Nat.mod_eq_of_lt (by omega)
  rw [packetLength]
  simp only [List.getD_cons_zero, List.getD_cons_succ]
  rw [BitVec.and_or_distrib_right, hlow, hhigh, BitVec.or_comm, BitVec.toNat_or, BitVec.toNat_ofNat,
    BitVec.toNat_setWidth, hlowNat, hhighNat, ← Nat.two_pow_add_eq_or_of_lt hl]
  omega

theorem high_done (high : Byte) : (high ||| doneBit).toNat%128 = high.toNat%128 ∧
    (high ||| doneBit) &&& doneBitL ≠ 0 := by
  revert high
  decide

theorem high_not_done (high : Byte) (h : high.toNat < 128) : high &&& doneBitL = 0 := by
  revert high
  decide

theorem localHeader_decode (count : ℕ) (done : Bool) (hcount : count ≤ maxBlocksize)
    (rest : List Byte) :
    packetLength (localHeader count done ++ rest) = count ∧
      packetDone (localHeader count done ++ rest) = done := by
  have hlow : (BitVec.ofNat 8 (count &&& 0xFF)).toNat = count%256 := by
    rw [BitVec.toNat_ofNat, show (0xFF : ℕ) = 2^8-1 from rfl, Nat.and_two_pow_sub_one_eq_mod]
    omega
  have hhigh : (BitVec.ofNat 8 (count >>> 8)).toNat = count/256 := by
    unfold maxBlocksize at hcount
    rw [BitVec.toNat_ofNat, Nat.shiftRight_eq_div_pow]
    omega
  have hsmall : count/256 < 128 := by unfold maxBlocksize at hcount; omega
  -- the size is below 2^15, so its high byte leaves the done bit free
  cases done with
  | false =>
    have hd := high_not_done (BitVec.ofNat 8 (count >>> 8)) (by omega)
    constructor
    · have h :=
        packetLength_cons (BitVec.ofNat 8 (count &&& 0xFF)) (BitVec.ofNat 8 (count >>> 8)) rest
      rw [hlow, hhigh] at h
      exact h.trans (by omega)
    · simp [localHeader, packetDone, hd]
  | true =>
    obtain ⟨hd, hset⟩ := high_done (BitVec.ofNat 8 (count >>> 8))
    constructor
    · have h := packetLength_cons (BitVec.ofNat 8 (count &&& 0xFF))
        (BitVec.ofNat 8 (count >>> 8) ||| doneBit) rest
      rw [hlow, hd, hhigh] at h
      exact h.trans (by omega)
    · simpa [localHeader, packetDone] using hset

theorem localHeader_length (count : ℕ) (done : Bool) :
    (localHeader count done).length = header := rfl

/-- A datagram of the client is a whole packet with the piece as its payload. -/
theorem datagram_received (buff : ℕ → Byte) {p : Piece} {blocksize : ℕ}
    (hp : p.count ≤ blocksize) (hmax : blocksize ≤ maxBlocksize) :
    (Receive.datagram (p.datagram buff)).delivered blocksize = p.datagram buff ∧
      (Receive.datagram (p.datagram buff)).Exact blocksize ∧
      packetDone (p.datagram buff) = p.done ∧
      packetPayload (p.datagram buff) = p.bytes buff := by
  obtain ⟨hlength, hdone⟩ := localHeader_decode p.count p.done (hp.trans hmax) (p.bytes buff)
  have hbytes : (p.bytes buff).length = p.count := by
    rw [Piece.bytes, List.length_map, List.length_range']
  have hlen : (p.datagram buff).length = header+p.count := by
    rw [Piece.datagram, List.length_append, hbytes, localHeader_length]
  have hdelivered : (Receive.datagram (p.datagram buff)).delivered blocksize = p.datagram buff :=
    List.take_of_length_le (by omega)
  have hmaxElements : maxBlocksize = numElements := rfl
  -- the header names exactly the bytes behind it
  refine ⟨hdelivered, ⟨?_, ?_⟩, hdone, ?_⟩
  · rw [hdelivered, hlen]
    omega
  · rw [hdelivered, hlen]
    exact congrArg (header+·) hlength
  · have hheader := localHeader_length p.count p.done
    rw [packetPayload, Piece.datagram, hlength, ← hheader, List.drop_left, ← hbytes,
      List.take_length]

theorem datagrams_done (buff : ℕ → Byte) (bytesRead : ℕ) {blocksize : ℕ}
    (hblock : 1 ≤ blocksize) (hmax : blocksize ≤ maxBlocksize) :
    ∃ earlier last, (filePieces bytesRead blocksize).map (Piece.datagram buff) =
      earlier ++ [last] ∧ packetDone last = true ∧ ∀ d ∈ earlier, packetDone d = false := by
  obtain ⟨earlier, last, hpieces, hlast, hearlier⟩ := filePieces_done bytesRead blocksize
  have hdone : ∀ p ∈ filePieces bytesRead blocksize, packetDone (p.datagram buff) = p.done :=
    fun p hp => (datagram_received buff (filePieces_count bytesRead hblock p hp).2 hmax).2.2.1
  rw [hpieces] at hdone
  refine ⟨earlier.map (Piece.datagram buff), last.datagram buff, ?_, ?_, ?_⟩
  · rw [hpieces, List.map_append, List.map_singleton]
  · rw [hdone last (by simp), hlast]
  · intro d hd
    obtain ⟨p, hp, rfl⟩ := List.mem_map.mp hd
    rw [hdone p (List.mem_append_left _ hp), hearlier p hp]

/-- The datagrams or payloads with the memory that each of their calls finds. -/
def withMemory {μ : Type*} (memory : ℕ → μ) (l : List (List Byte)) : List (List Byte × μ) :=
  l.zipIdx.map (fun d => (d.1, memory d.2))

/-- The datagrams arrive, each once and in order. -/
def arrivals {μ : Type*} (memory : ℕ → μ) (sent : List (List Byte)) : List (Receive × μ) :=
  (withMemory memory sent).map (fun d => (.datagram d.1, d.2))

theorem withMemory_map {μ : Type*} (memory : ℕ → μ) (f : List Byte → List Byte)
    (l : List (List Byte)) :
    (withMemory memory l).map (fun d => (f d.1, d.2)) = withMemory memory (l.map f) := by
  rw [withMemory, withMemory, List.zipIdx_map, List.map_map, List.map_map]
  rfl

theorem withMemory_fst {μ : Type*} (memory : ℕ → μ) (l : List (List Byte)) :
    (withMemory memory l).map Prod.fst = l := by
  rw [withMemory, List.map_map]
  exact List.zipIdx_map_fst 0 l

theorem arrivals_concat {μ : Type*} (memory : ℕ → μ) (sent : List (List Byte))
    (d : List Byte) :
    arrivals memory (sent ++ [d]) =
      arrivals memory sent ++ [(.datagram d, memory sent.length)] := by
  rw [arrivals, withMemory, List.zipIdx_append, List.map_append, List.map_append]
  simp [arrivals, withMemory]

theorem mem_arrivals {μ : Type*} {memory : ℕ → μ} {sent : List (List Byte)}
    {r : Receive × μ} (hr : r ∈ arrivals memory sent) : ∃ d ∈ sent, r.1 = .datagram d := by
  obtain ⟨d, hd, rfl⟩ := List.mem_map.mp hr
  refine ⟨d.1, ?_, rfl⟩
  rw [← withMemory_fst memory sent]
  exact List.mem_map_of_mem hd

/-- The blocks of a file: the last one may be shorter. -/
def fileBlocks (content : List Byte) (blocksize : ℕ) : List (List Byte) :=
  (List.range ((content.length+blocksize-1)/blocksize)).map
    (fun i => (content.drop (i*blocksize)).take blocksize)

/-- The client reads inside the file, the done bit stands in the last datagram only, and the
server takes all datagrams, none of `more`, gets the file from them, and comes to its end. -/
structure FramesFile {σ μ : Type*}
    (encode : μ → σ → EncodeCall → Option (σ × List Byte)) (blocksize : ℕ)
    (input : Fin numPackets → Slot) (file : List Byte) (table : σ) (memory : ℕ → μ)
    (more : List (Receive × μ)) (content : List Byte) (run : ClientRun) :
    Prop where
  inside : ∀ r ∈ run.reads, r.1+r.2 ≤ run.bytesRead
  done : ∃ earlier last, run.sent = earlier ++ [last] ∧ packetDone last = true ∧
    ∀ d ∈ earlier, packetDone d = false
  consumed : (serverMain encode blocksize input file table
    (arrivals memory run.sent ++ more)).length = run.sent.length
  content : (serverMain encode blocksize input file table
    (arrivals memory run.sent ++ more)).flatMap ReceiveStep.payload = content
  returned : ∀ step ∈ serverMain encode blocksize input file table
    (arrivals memory run.sent ++ more), step.Returned

theorem memory_bytes (content : List Byte) (behind : ℕ → Byte) {bytesRead start count : ℕ}
    (hread : bytesRead ≤ content.length) (hin : start+count ≤ bytesRead) :
    (List.range' start count).map (clientMemory content behind bytesRead) =
      (content.drop start).take count := by
  apply List.ext_getElem?
  intro i
  rcases Nat.lt_or_ge i count with hi | hi
  · have hlt : start+i < (content.take bytesRead).length := by
      rw [List.length_take]
      omega
    have hlt' : start+i < content.length := by omega
    rw [List.getElem?_map, List.getElem?_range' hi, Option.map_some, Nat.one_mul, clientMemory,
      List.getD_eq_getElem _ _ hlt, List.getElem_take, List.getElem?_take_of_lt hi,
      List.getElem?_drop, List.getElem?_eq_getElem hlt']
  · rw [List.getElem?_eq_none (by rw [List.length_map, List.length_range']; exact hi),
      List.getElem?_eq_none (by rw [List.length_take, List.length_drop]; omega)]

theorem filePieces_bytes (content : List Byte) (behind : ℕ → Byte) {bytesRead blocksize : ℕ}
    (hblock : 1 ≤ blocksize) (hfull : blocksize ≤ bytesRead)
    (hread : bytesRead ≤ content.length) :
    ∀ p ∈ filePieces bytesRead blocksize,
      p.bytes (clientMemory content behind bytesRead) = (content.drop p.start).take p.count :=
  fun p hp => memory_bytes content behind hread ((filePieces_inside hblock).mpr hfull p hp)

theorem pieces_content (content : List Byte) (behind : ℕ → Byte) {bytesRead blocksize : ℕ}
    (hblock : 1 ≤ blocksize) (hfull : blocksize ≤ bytesRead)
    (hread : bytesRead ≤ content.length) :
    (filePieces bytesRead blocksize).flatMap (Piece.bytes (clientMemory content behind bytesRead)) =
      content.take bytesRead := by
  have hmap : (filePieces bytesRead blocksize).flatMap
      (Piece.bytes (clientMemory content behind bytesRead)) =
      ((filePieces bytesRead blocksize).flatMap (fun p => List.range' p.start p.count)).map
        (clientMemory content behind bytesRead) := List.map_flatMap.symm
  rw [hmap, filePieces_cover hblock hfull, memory_bytes content behind hread (by omega),
    List.drop_zero]

/-- The pieces of a file of at least one block are its blocks. -/
theorem pieces_blocks (content : List Byte) (behind : ℕ → Byte) {blocksize : ℕ}
    (hblock : 1 ≤ blocksize) (hfull : blocksize ≤ content.length) :
    (filePieces content.length blocksize).map
        (Piece.bytes (clientMemory content behind content.length)) =
      fileBlocks content blocksize := by
  have hdiv := Nat.div_add_mod content.length blocksize
  have hmod := Nat.mod_lt content.length hblock
  have hpos : 0 < content.length/blocksize := Nat.div_pos hfull hblock
  obtain ⟨k, hk⟩ : ∃ k, content.length/blocksize = k+1 :=
    ⟨_, (Nat.succ_pred hpos.ne').symm⟩
  have hbytes := filePieces_bytes content behind hblock hfull le_rfl
  rw [List.map_congr_left hbytes, filePieces, hk, Nat.add_sub_cancel, fileBlocks, List.map_append,
    List.map_map]
  rw [hk, Nat.mul_comm] at hdiv
  have hwhole : (k+1)*blocksize = k*blocksize+blocksize := Nat.succ_mul k blocksize
  split_ifs with hr
  · -- the last block is a full one
    have hcount : (content.length+blocksize-1)/blocksize = k+1 := by
      rw [Nat.div_eq_iff hblock]
      omega
    rw [hcount, List.range_succ, List.map_append]
    rfl
  · have hcount : (content.length+blocksize-1)/blocksize = k+2 := by
      rw [Nat.div_eq_iff hblock, Nat.succ_mul (k+1)]
      omega
    have hlast : (content.drop ((k+1)*blocksize)).take (content.length%blocksize) =
        (content.drop ((k+1)*blocksize)).take blocksize := by
      rw [List.take_of_length_le (by rw [List.length_drop]; omega),
        List.take_of_length_le (by rw [List.length_drop]; omega)]
    rw [hcount, List.range_succ, List.range_succ, List.map_append, List.map_append,
      List.append_assoc,
      List.map_cons, List.map_cons, hlast]
    rfl

/-- The calls for the datagrams of some pieces, of which only the last one has the done bit. -/
theorem pieces_calls {μ : Type*} (buff : ℕ → Byte) {blocksize : ℕ}
    (hmax : blocksize ≤ maxBlocksize) {pieces : List Piece}
    (hcount : ∀ p ∈ pieces, p.count ≤ blocksize)
    (hdone : ∃ earlier last, pieces = earlier ++ [last] ∧ last.done = true ∧
      ∀ p ∈ earlier, p.done = false)
    (input : Fin numPackets → Slot) (memory : ℕ → μ) (more : List (Receive × μ)) :
    ringCalls blocksize (arrivals memory (pieces.map (Piece.datagram buff)) ++ more)
        ⟨input, pipeDepth, false⟩ =
      some (bufferCalls (fun i => (input i).bytes.drop header) ⟨pipeDepth, by decide⟩
        (withMemory memory (pieces.map (Piece.bytes buff)))) := by
  obtain ⟨earlier, last, rfl, hlast, hearlier⟩ := hdone
  have hreceived : ∀ p ∈ earlier ++ [last], _ :=
    fun p hp => datagram_received buff (hcount p hp) hmax
  have hexact : ∀ r ∈ arrivals memory ((earlier ++ [last]).map (Piece.datagram buff)),
      r.1.Exact blocksize := by
    intro r hr
    obtain ⟨d, hd, hrd⟩ := mem_arrivals hr
    obtain ⟨p, hp, rfl⟩ := List.mem_map.mp hd
    rw [hrd]
    exact (hreceived p hp).2.1
  have hisDone : ∀ p ∈ earlier ++ [last],
      packetDone ((Receive.datagram (p.datagram buff)).delivered blocksize) = p.done := by
    intro p hp
    rw [(hreceived p hp).1, (hreceived p hp).2.2.1]
  -- the loop takes all of them, and the payloads are the bytes of the pieces
  have htaken : upTo (fun r : Receive × μ => packetDone (r.1.delivered blocksize))
      (arrivals memory ((earlier ++ [last]).map (Piece.datagram buff))) =
        arrivals memory ((earlier ++ [last]).map (Piece.datagram buff)) := by
    rw [List.map_append, List.map_singleton, arrivals_concat]
    refine upTo_of_last ?_ ?_
    · exact (hisDone last (by simp)).trans hlast
    intro r hr
    obtain ⟨d, hd, hrd⟩ := mem_arrivals hr
    obtain ⟨p, hp, rfl⟩ := List.mem_map.mp hd
    rw [hrd]
    exact (hisDone p (List.mem_append_left _ hp)).trans (hearlier p hp)
  have hpayloads : (arrivals memory ((earlier ++ [last]).map (Piece.datagram buff))).map
      (fun r => (packetPayload (r.1.delivered blocksize), r.2)) =
        withMemory memory ((earlier ++ [last]).map (Piece.bytes buff)) := by
    rw [arrivals, List.map_map]
    refine (withMemory_map memory (fun d =>
      packetPayload ((Receive.datagram d).delivered blocksize)) _).trans ?_
    rw [List.map_map]
    congr 1
    apply List.map_congr_left
    intro p hp
    exact (congrArg packetPayload (hreceived p hp).1).trans (hreceived p hp).2.2.2
  have hlastReceived : ∃ r ∈ arrivals memory ((earlier ++ [last]).map (Piece.datagram buff)),
      packetDone (r.1.delivered blocksize) = true := by
    rw [List.map_append, List.map_singleton, arrivals_concat]
    exact ⟨_, List.mem_append_right _ (List.mem_singleton_self _),
      (hisDone last (by simp)).trans hlast⟩
  have hcalls := ringCalls_exact _ more hexact (Or.inr hlastReceived) ⟨input, pipeDepth, false⟩
    ⟨pipeDepth, by decide⟩ rfl rfl
  rw [htaken, hpayloads] at hcalls
  exact hcalls

/-- The server on these datagrams. -/
theorem server_pieces {σ μ : Type*}
    (encode : μ → σ → EncodeCall → Option (σ × List Byte)) (buff : ℕ → Byte)
    {blocksize : ℕ} (hmax : blocksize ≤ maxBlocksize) {pieces : List Piece}
    (hcount : ∀ p ∈ pieces, p.count ≤ blocksize)
    (hdone : ∃ earlier last, pieces = earlier ++ [last] ∧ last.done = true ∧
      ∀ p ∈ earlier, p.done = false)
    (input : Fin numPackets → Slot) (file : List Byte) (table : σ) (memory : ℕ → μ)
    (more : List (Receive × μ)) :
    let steps := serverMain encode blocksize input file table
      (arrivals memory (pieces.map (Piece.datagram buff)) ++ more)
    ((∀ step ∈ steps, step.Returned) → steps.map ReceiveStep.payload =
      pieces.map (Piece.bytes buff)) ∧
      ((∀ step ∈ steps, step.Returned) ↔ ReturnsOn encode input file table
        (withMemory memory (pieces.map (Piece.bytes buff)))) := by
  intro steps
  have hcalls := pieces_calls buff hmax hcount hdone input memory more
  have hsteps : steps = serverLoop encode blocksize _ _ := serverMain_eq_loop ..
  rw [hsteps]
  constructor
  · intro hreturned
    rw [(serverLoop_payloads encode _ _ hcalls).2 hreturned, bufferCalls_payload, withMemory_fst]
  · rw [serverLoop_returned_iff, serverLoop_file, hcalls, Option.bind_some, Option.isSome_map]
    rfl

theorem clientMain_eq (content : List Byte) (behind : ℕ → Byte) (buffer : List Byte)
    {blocksize : ℕ} (hblock : 1 ≤ blocksize) (hmax : blocksize ≤ maxBlocksize)
    (hsize : ¬(BitVec.ofNat 32 content.length).toInt < 0) :
    ∃ bytesRead, bytesRead = min (BitVec.ofNat 32 content.length).toNat content.length ∧
      clientMain content behind buffer blocksize = some ⟨bytesRead,
        (filePieces bytesRead blocksize).map (fun p => (p.start, p.count)),
        (filePieces bytesRead blocksize).map
          (Piece.datagram (clientMemory content behind bytesRead))⟩ := by
  refine ⟨_, rfl, ?_⟩
  generalize hbytes : min (BitVec.ofNat 32 content.length).toNat content.length = bytesRead
  obtain ⟨buffer', hsend⟩ := sendPieces_eq (clientMemory content behind bytesRead)
    (filePieces bytesRead blocksize)
    (fun p hp => (filePieces_count bytesRead hblock p hp).2.trans hmax) ⟨buffer, [], []⟩
  rw [← sendFile_eq] at hsend
  rw [clientMain, if_neg hsize]
  simp only [hbytes, hsend, Option.map_some, List.nil_append]

/-- The file goes over block by block exactly if it has at least one full block and a size
that is an `int`, and `encode` returns on each of its blocks. -/
theorem client_server_framing_iff {σ μ : Type*}
    (encode : μ → σ → EncodeCall → Option (σ × List Byte))
    (input : Fin numPackets → Slot) (file : List Byte) (table : σ) (memory : ℕ → μ)
    (more : List (Receive × μ)) (content : List Byte) (behind : ℕ → Byte) (buffer : List Byte)
    (blocksize : ℕ) (hblock : 1 ≤ blocksize) (hmax : blocksize ≤ maxBlocksize) :
    (∃ run, clientMain content behind buffer blocksize = some run ∧
      FramesFile encode blocksize input file table memory more content run) ↔
    blocksize ≤ content.length ∧ content.length < 2^31 ∧
      ReturnsOn encode input file table (withMemory memory (fileBlocks content blocksize)) := by
  have hserver (bytesRead : ℕ) :=
    server_pieces encode (clientMemory content behind bytesRead) hmax
      (fun p hp => (filePieces_count bytesRead hblock p hp).2) (filePieces_done bytesRead blocksize)
      input file table memory more
  have hint := BitVec.toInt_eq_toNat_cond (BitVec.ofNat 32 content.length)
  have hnat : (BitVec.ofNat 32 content.length).toNat = content.length%2^32 := BitVec.toNat_ofNat ..
  constructor
  · rintro ⟨run, hrun, hframes⟩
    by_cases hsize : (BitVec.ofNat 32 content.length).toInt < 0
    · -- the client has sent nothing, so there is no last datagram
      rw [clientMain, if_pos hsize] at hrun
      obtain ⟨earlier, last, hsent, -⟩ := hframes.done
      rw [← Option.some.inj hrun] at hsent
      exact absurd hsent (by simp)
    · obtain ⟨bytesRead, hbytes, hmain⟩ :=
        clientMain_eq content behind buffer hblock hmax hsize
      obtain rfl := Option.some.inj (hmain.symm.trans hrun)
      have hfull : blocksize ≤ bytesRead := by
        apply (filePieces_inside hblock).mp
        exact fun p hp => hframes.inside _ (List.mem_map_of_mem hp)
      obtain ⟨hpayloads, hreturns⟩ := hserver bytesRead
      have hcontent := hframes.content
      rw [List.flatMap_def, hpayloads hframes.returned, ← List.flatMap_def,
        pieces_content content behind hblock hfull (by omega)] at hcontent
      have hlen := congrArg List.length hcontent
      rw [List.length_take] at hlen
      obtain rfl : bytesRead = content.length := by split_ifs at hint <;> omega
      refine ⟨hfull, by split_ifs at hint <;> omega, ?_⟩
      rw [← pieces_blocks content behind hblock hfull]
      exact hreturns.mp hframes.returned
  · rintro ⟨hfull, hlt, hreturns⟩
    have hsize : ¬(BitVec.ofNat 32 content.length).toInt < 0 := by
      split_ifs at hint <;> omega
    obtain ⟨bytesRead, hbytes, hmain⟩ := clientMain_eq content behind buffer hblock hmax hsize
    obtain rfl : bytesRead = content.length := by omega
    obtain ⟨hpayloads, hreturned⟩ := hserver content.length
    rw [← pieces_blocks content behind hblock hfull, ← hreturned] at hreturns
    have hcount := congrArg List.length (hpayloads hreturns)
    refine ⟨_, hmain, ⟨?_, ?_, ?_, ?_, hreturns⟩⟩
    · intro r hr
      obtain ⟨p, hp, rfl⟩ := List.mem_map.mp hr
      exact (filePieces_inside hblock).mpr hfull p hp
    · exact datagrams_done _ content.length hblock hmax
    · rw [List.length_map, List.length_map] at hcount
      rw [hcount, List.length_map]
    · rw [List.flatMap_def, hpayloads hreturns, ← List.flatMap_def,
        pieces_content content behind hblock hfull le_rfl, List.take_length]

/-- A file of one byte and blocks of two: the first datagram has a byte from behind the
file, and the second one the file itself. -/
theorem client_short_file :
    clientMain [0x41] (fun _ => 0) [] 2 =
        some ⟨1, [(0, 2), (0, 1)], [[2, 0, 0x41, 0], [1, 0x80, 0x41]]⟩ ∧
      ¬∃ run, clientMain [0x41] (fun _ => 0) [] 2 = some run ∧
        FramesFile (hostEncode lettersSha) 2 zeroInput zeroFile UMap.empty (fun _ => zeroMemory)
          [] [0x41] run := by
  have hmain : clientMain [0x41] (fun _ => 0) [] 2 =
    some ⟨1, [(0, 2), (0, 1)], [[2, 0, 0x41, 0], [1, 0x80, 0x41]]⟩ := rfl
  refine ⟨hmain, ?_⟩
  rintro ⟨run, hrun, hframes⟩
  obtain rfl := Option.some.inj (hmain.symm.trans hrun)
  have hinside := hframes.inside (0, 2) (by simp)
  exact absurd hinside (by decide)

/-- A file of 34 letters in blocks of 17, and a failed receive behind it. -/
theorem client_server_framing_letters :
    ∃ run, clientMain (List.replicate 34 0x41) (fun _ => 0) [] 17 = some run ∧
      FramesFile (hostEncode lettersSha) 17 zeroInput zeroFile UMap.empty (fun _ => zeroMemory)
        [(.failed, zeroMemory)] (List.replicate 34 0x41) run :=
  (client_server_framing_iff (hostEncode lettersSha) zeroInput zeroFile UMap.empty
    (fun _ => zeroMemory) [(.failed, zeroMemory)] (List.replicate 34 0x41) (fun _ => 0) [] 17
    (by decide) (by decide)).mpr ⟨by decide, by decide, letters_returnsOn 2 (by decide)⟩

end Sync532
