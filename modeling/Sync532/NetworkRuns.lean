import Sync532.ClientFraming
import Sync532.DatagramNetwork

namespace Sync532

section Datagrams
variable {buff : ℕ → Byte} {bytesRead blocksize : ℕ} (hblock : 1 ≤ blocksize)
  (hmax : blocksize ≤ maxBlocksize)
include hblock hmax

/-- A datagram of the client. -/
theorem datagram_facts {d : List Byte}
    (hd : d ∈ (filePieces bytesRead blocksize).map (Piece.datagram buff)) :
    ∃ p ∈ filePieces bytesRead blocksize, d = p.datagram buff ∧
      Receive.delivered blocksize (.datagram d) = d ∧
      Receive.Complete blocksize (.datagram d) ∧ packetPayload d = p.bytes buff := by
  obtain ⟨p, hp, rfl⟩ := List.mem_map.mp hd
  obtain ⟨hsame, hexact, -, hpayload⟩ :=
    datagram_received buff (filePieces_count bytesRead hblock p hp).2 hmax
  exact ⟨p, hp, rfl, hsame, hexact.complete, hpayload⟩

theorem arrivals_datagrams {μ : Type*} (memory : ℕ → μ) {ds : List (List Byte)}
    (hds : ∀ d ∈ ds, d ∈ (filePieces bytesRead blocksize).map (Piece.datagram buff)) :
    (arrivals memory ds).map (fun r => r.1.delivered blocksize) = ds ∧
      ∀ r ∈ arrivals memory ds, r.1.Complete blocksize := by
  constructor
  · have hfst : (arrivals memory ds).map (fun r => r.1.delivered blocksize) =
        ((withMemory memory ds).map Prod.fst).map
          (Receive.delivered blocksize ∘ Receive.datagram) := by
      rw [arrivals, List.map_map, List.map_map]
      rfl
    rw [hfst, withMemory_fst]
    calc ds.map (Receive.delivered blocksize ∘ Receive.datagram) = ds.map id := by
          apply List.map_congr_left
          intro d hd
          obtain ⟨p, -, -, hsame, -⟩ := datagram_facts hblock hmax (hds d hd)
          exact hsame
      _ = ds := List.map_id ds
  · intro r hr
    obtain ⟨d, hd, hrd⟩ := mem_arrivals hr
    obtain ⟨p, -, -, -, hcomplete, -⟩ := datagram_facts hblock hmax (hds d hd)
    rwa [hrd]

/-- The server on any datagrams of the client, in any order and number. -/
theorem server_on_datagrams {σ μ : Type*}
    (encode : μ → σ → EncodeCall → Option (σ × List Byte))
    (input : Fin numPackets → Slot) (file : List Byte) (table : σ) (memory : ℕ → μ)
    (ds : List (List Byte))
    (hds : ∀ d ∈ ds, d ∈ (filePieces bytesRead blocksize).map (Piece.datagram buff)) :
    let steps := serverMain encode blocksize input file table (arrivals memory ds)
    steps.map ReceiveStep.payload <+: (upTo packetDone ds).map packetPayload ∧
      ((∀ step ∈ steps, step.Returned) →
        steps.map ReceiveStep.payload = (upTo packetDone ds).map packetPayload) ∧
      ((∃ d ∈ ds, packetDone d = true) ∨ (∃ step ∈ steps, ¬step.Returned) → ∀ more,
        serverMain encode blocksize input file table (arrivals memory ds ++ more) = steps) := by
  have hdepth : pipeDepth ≤ numPackets := by decide
  obtain ⟨hreceived, hcomplete⟩ := arrivals_datagrams hblock hmax memory hds
  obtain ⟨calls, hcalls, hpayloads, -⟩ := ringCalls_complete (arrivals memory ds) hcomplete
    ⟨input, pipeDepth, false⟩ hdepth rfl
  rw [hreceived] at hpayloads
  simp only [serverMain_eq_loop]
  obtain ⟨hbegin, hall⟩ := serverLoop_payloads encode (arrivals memory ds)
    ⟨⟨input, pipeDepth, false⟩, table, ⟨file, 0⟩⟩ hcalls
  rw [hpayloads] at hbegin hall
  refine ⟨hbegin, hall, ?_⟩
  rintro (⟨d, hd, hdone⟩ | hlost) more
  · apply serverLoop_done encode _ hcomplete _ more _ hdepth
    rw [← hreceived] at hd
    obtain ⟨r, hr, rfl⟩ := List.mem_map.mp hd
    exact ⟨r, hr, hdone⟩
  · exact serverLoop_lost encode _ _ hlost more

end Datagrams

/-- What the client sends of a file of an `int` size. -/
def clientSent (content : List Byte) (behind : ℕ → Byte) (blocksize : ℕ) : List (List Byte) :=
  (filePieces content.length blocksize).map
    (Piece.datagram (clientMemory content behind content.length))

/-- The first datagram of a file of more than one block. -/
theorem filePieces_first {bytesRead blocksize : ℕ} (hblock : 1 ≤ blocksize)
    (hmore : blocksize < bytesRead) :
    ∃ rest, filePieces bytesRead blocksize = ⟨0, blocksize, false⟩ :: rest := by
  have hpos : 0 < bytesRead/blocksize := Nat.div_pos hmore.le hblock
  have hdiv := Nat.div_add_mod bytesRead blocksize
  rcases hcount : bytesRead/blocksize-1 with _ | n
  · -- one full block, and a remainder
    have hone : bytesRead/blocksize = 1 := by omega
    have hrem : bytesRead%blocksize ≠ 0 := by
      intro hzero
      rw [hone, hzero] at hdiv
      omega
    rw [filePieces, hcount, if_neg hrem, Nat.zero_mul]
    exact ⟨_, rfl⟩
  · rw [filePieces, hcount, List.range_succ_eq_map, List.map_cons, List.cons_append, Nat.zero_mul]
    exact ⟨_, rfl⟩

section Runs
variable (content : List Byte) (behind : ℕ → Byte) (buffer : List Byte) {blocksize : ℕ}
  (hblock : 1 ≤ blocksize) (hmax : blocksize ≤ maxBlocksize) (hint : content.length < 2^31)
include hblock hmax

include hint in
theorem clientMain_sent :
    ∃ reads, clientMain content behind buffer blocksize =
      some ⟨content.length, reads, clientSent content behind blocksize⟩ := by
  have hnat : (BitVec.ofNat 32 content.length).toNat = content.length := by
    rw [BitVec.toNat_ofNat]
    exact Nat.mod_eq_of_lt (by omega)
  have hsize : ¬(BitVec.ofNat 32 content.length).toInt < 0 := by
    have hcond := BitVec.toInt_eq_toNat_cond (BitVec.ofNat 32 content.length)
    split_ifs at hcond <;> omega
  obtain ⟨bytesRead, hbytes, hmain⟩ := clientMain_eq content behind buffer hblock hmax hsize
  rw [hnat, Nat.min_self] at hbytes
  rw [hmain, hbytes]
  exact ⟨_, rfl⟩

theorem clientSent_payload {d : List Byte} (hd : d ∈ clientSent content behind blocksize) :
    packetPayload d ≠ [] := by
  obtain ⟨p, hp, -, -, -, hpayload⟩ := datagram_facts hblock hmax hd
  have hpos := (filePieces_count content.length hblock p hp).1
  rw [hpayload, Piece.bytes]
  apply List.ne_nil_of_length_pos
  rwa [List.length_map, List.length_range']

theorem clientSent_content (hfull : blocksize ≤ content.length) :
    (clientSent content behind blocksize).flatMap packetPayload = content := by
  have hpieces := pieces_content content behind hblock hfull le_rfl
  rw [List.take_length] at hpieces
  calc (clientSent content behind blocksize).flatMap packetPayload
      = (filePieces content.length blocksize).flatMap (fun p => packetPayload
          (p.datagram (clientMemory content behind content.length))) := List.flatMap_map ..
    _ = (filePieces content.length blocksize).flatMap
          (Piece.bytes (clientMemory content behind content.length)) := by
        apply List.flatMap_congr
        intro p hp
        exact (datagram_received _ (filePieces_count content.length hblock p hp).2 hmax).2.2.2
    _ = content := hpieces

end Runs

/-- Whatever the network does, every payload is a part of the file, and the server takes
them up to the first arrival of the last datagram, as long as `encode` returns. -/
theorem network_pieces {σ μ : Type*}
    (encode : μ → σ → EncodeCall → Option (σ × List Byte))
    (input : Fin numPackets → Slot) (file : List Byte) (table : σ) (memory : ℕ → μ)
    (content : List Byte) (behind : ℕ → Byte) (buffer : List Byte) {blocksize : ℕ}
    (hblock : 1 ≤ blocksize) (hmax : blocksize ≤ maxBlocksize) (hint : content.length < 2^31)
    (hfull : blocksize ≤ content.length) :
    ∃ run, clientMain content behind buffer blocksize = some run ∧
      ∀ (f : Faults) (c : Channel (List Byte)), c.Reaches f run.sent →
        let steps := serverMain encode blocksize input file table (arrivals memory c.received)
        steps.map ReceiveStep.payload <+: (upTo packetDone c.received).map packetPayload ∧
          ((∀ step ∈ steps, step.Returned) → steps.map ReceiveStep.payload =
            (upTo packetDone c.received).map packetPayload) ∧
          ∀ step ∈ steps, step.payload ≠ [] ∧ step.payload <:+: content := by
  obtain ⟨reads, hmain⟩ := clientMain_sent content behind buffer hblock hmax hint
  refine ⟨_, hmain, ?_⟩
  intro f c hnet steps
  obtain ⟨hbegin, hall, -⟩ :=
    server_on_datagrams hblock hmax encode input file table memory c.received hnet.mem
  refine ⟨hbegin, hall, ?_⟩
  intro step hstep
  obtain ⟨d, hd, hpayload⟩ := List.mem_map.mp (hbegin.subset (List.mem_map_of_mem hstep))
  have hsent : d ∈ clientSent content behind blocksize :=
    hnet.mem d ((upTo_isPrefix packetDone c.received).subset hd)
  rw [← hpayload]
  refine ⟨clientSent_payload content behind hblock hmax hsent, ?_⟩
  -- the payloads of all datagrams make up the file
  obtain ⟨front, back, hsplit⟩ := List.append_of_mem hsent
  have hcontent := clientSent_content content behind hblock hmax hfull
  rw [hsplit, List.flatMap_append, List.flatMap_cons] at hcontent
  exact ⟨front.flatMap packetPayload, back.flatMap packetPayload, by
    rw [List.append_assoc]
    exact hcontent⟩

/-- A file of 51 letters in blocks of 17. -/
theorem network_pieces_letters :
    ∃ run, clientMain (List.replicate 51 0x41) (fun _ => 0) [] 17 = some run ∧
      ∀ (f : Faults) (c : Channel (List Byte)), c.Reaches f run.sent →
        let steps := serverMain (hostEncode lettersSha) 17 zeroInput zeroFile UMap.empty
          (arrivals (fun _ => zeroMemory) c.received)
        steps.map ReceiveStep.payload <+: (upTo packetDone c.received).map packetPayload ∧
          ((∀ step ∈ steps, step.Returned) → steps.map ReceiveStep.payload =
            (upTo packetDone c.received).map packetPayload) ∧
          ∀ step ∈ steps, step.payload ≠ [] ∧ step.payload <:+: List.replicate 51 0x41 :=
  network_pieces (hostEncode lettersSha) zeroInput zeroFile UMap.empty (fun _ => zeroMemory)
    (List.replicate 51 0x41) (fun _ => 0) [] (by decide) (by decide) (by decide) (by decide)

/-- When datagrams are only lost, the payloads are the file with gaps. They are the file
only if no datagram is missing, and then they are if `encode` returns; none is missing when
nothing is lost and nothing is under way any more. -/
theorem network_loss_iff {σ μ : Type*}
    (encode : μ → σ → EncodeCall → Option (σ × List Byte))
    (input : Fin numPackets → Slot) (file : List Byte) (table : σ) (memory : ℕ → μ)
    (content : List Byte) (behind : ℕ → Byte) (buffer : List Byte) {blocksize : ℕ}
    (hblock : 1 ≤ blocksize) (hmax : blocksize ≤ maxBlocksize) (hint : content.length < 2^31)
    (hfull : blocksize ≤ content.length) :
    ∃ run, clientMain content behind buffer blocksize = some run ∧
      ∀ (f : Faults) (c : Channel (List Byte)), f.reorder = false → f.duplicate = false →
        c.Reaches f run.sent →
        let steps := serverMain encode blocksize input file table (arrivals memory c.received)
        List.Sublist (steps.flatMap ReceiveStep.payload) content ∧
          (steps.flatMap ReceiveStep.payload = content → c.received = run.sent) ∧
          (c.received = run.sent → (∀ step ∈ steps, step.Returned) →
            steps.flatMap ReceiveStep.payload = content) ∧
          (f.lose = false → c.flight = [] → c.unsent = [] → c.received = run.sent) := by
  obtain ⟨reads, hmain⟩ := clientMain_sent content behind buffer hblock hmax hint
  refine ⟨_, hmain, ?_⟩
  intro f c horder honce hnet steps
  have hcontent := clientSent_content content behind hblock hmax hfull
  obtain ⟨⟨rest, hbegin⟩, hall, -⟩ :=
    server_on_datagrams hblock hmax encode input file table memory c.received hnet.mem
  have hreceived := hnet.sublist horder honce
  have htaken := (upTo_isPrefix packetDone c.received).sublist.trans hreceived
  have hflat : (upTo packetDone c.received).flatMap packetPayload =
      steps.flatMap ReceiveStep.payload ++ rest.flatten := by
    rw [List.flatMap_def, ← hbegin, List.flatten_append, ← List.flatMap_def]
  have hsub : List.Sublist (steps.flatMap ReceiveStep.payload)
      ((upTo packetDone c.received).flatMap packetPayload) := by
    rw [hflat]
    exact List.sublist_append_left _ _
  have hpart : List.Sublist ((upTo packetDone c.received).flatMap packetPayload) content :=
    hcontent ▸ htaken.flatMap packetPayload
  refine ⟨hsub.trans hpart, ?_, ?_, ?_⟩
  · intro hfile
    -- no datagram is empty, so all have been taken
    have heq := eq_of_sublist_of_flatten htaken
      (fun d hd => clientSent_payload content behind hblock hmax hd) (by
        rw [hcontent, ← hfile]
        exact hsub.length_le)
    apply hreceived.eq_of_length
    apply le_antisymm hreceived.length_le
    rw [← heq]
    exact (upTo_isPrefix packetDone c.received).length_le
  · intro hcomplete hreturned
    obtain ⟨earlier, last, hsent, hlast, hearlier⟩ := datagrams_done
      (clientMemory content behind content.length) content.length hblock hmax
    have hsame : clientSent content behind blocksize = earlier ++ [last] := hsent
    rw [List.flatMap_def, hall hreturned, ← List.flatMap_def, hcomplete, hsame,
      upTo_of_last hlast hearlier, ← hsame, hcontent]
  · intro hkeep hflight hunsent
    have hall := hnet.complete hkeep horder honce
    rwa [Channel.all, hflight, hunsent, List.append_nil, List.append_nil] at hall

theorem network_loss_letters :
    ∃ run, clientMain (List.replicate 51 0x41) (fun _ => 0) [] 17 = some run ∧
      ∀ (f : Faults) (c : Channel (List Byte)), f.reorder = false → f.duplicate = false →
        c.Reaches f run.sent →
        let steps := serverMain (hostEncode lettersSha) 17 zeroInput zeroFile UMap.empty
          (arrivals (fun _ => zeroMemory) c.received)
        List.Sublist (steps.flatMap ReceiveStep.payload) (List.replicate 51 0x41) ∧
          (steps.flatMap ReceiveStep.payload = List.replicate 51 0x41 → c.received = run.sent) ∧
          (c.received = run.sent → (∀ step ∈ steps, step.Returned) →
            steps.flatMap ReceiveStep.payload = List.replicate 51 0x41) ∧
          (f.lose = false → c.flight = [] → c.unsent = [] → c.received = run.sent) :=
  network_loss_iff (hostEncode lettersSha) zeroInput zeroFile UMap.empty (fun _ => zeroMemory)
    (List.replicate 51 0x41) (fun _ => 0) [] (by decide) (by decide) (by decide) (by decide)

/-- The server stops when the last datagram has arrived or a call of `encode` has not
returned, and not before: until then it takes whatever comes next. -/
theorem network_stop_iff {σ μ : Type*}
    (encode : μ → σ → EncodeCall → Option (σ × List Byte))
    (input : Fin numPackets → Slot) (file : List Byte) (table : σ) (memory : ℕ → μ)
    (content : List Byte) (behind : ℕ → Byte) (buffer : List Byte) {blocksize : ℕ}
    (hblock : 1 ≤ blocksize) (hmax : blocksize ≤ maxBlocksize) (hint : content.length < 2^31) :
    ∃ run last, clientMain content behind buffer blocksize = some run ∧
      run.sent.getLast? = some last ∧
      ∀ (f : Faults) (c : Channel (List Byte)), c.Reaches f run.sent →
        let steps := serverMain encode blocksize input file table (arrivals memory c.received)
        (∀ more, serverMain encode blocksize input file table
            (arrivals memory c.received ++ more) = steps) ↔
          last ∈ c.received ∨ ∃ step ∈ steps, ¬step.Returned := by
  obtain ⟨reads, hmain⟩ := clientMain_sent content behind buffer hblock hmax hint
  obtain ⟨earlier, last, hsent, hlast, hearlier⟩ := datagrams_done
    (clientMemory content behind content.length) content.length hblock hmax
  have hsame : clientSent content behind blocksize = earlier ++ [last] := hsent
  refine ⟨_, last, hmain, by rw [hsame, List.getLast?_concat], ?_⟩
  intro f c hnet steps
  obtain ⟨-, hall, hstop⟩ :=
    server_on_datagrams hblock hmax encode input file table memory c.received hnet.mem
  constructor
  · intro hstopped
    by_contra hgo
    obtain ⟨hmissing, hlost⟩ := not_or.mp hgo
    have hreturned : ∀ step ∈ steps, step.Returned := by
      intro step hstep
      by_contra hno
      exact hlost ⟨step, hstep, hno⟩
    have hnone : ∀ d ∈ c.received, packetDone d = false := by
      intro d hd
      have hd' : d ∈ earlier ++ [last] := hsame ▸ hnet.mem d hd
      rcases List.mem_append.mp hd' with hd' | hd'
      · exact hearlier d hd'
      · rw [List.mem_singleton] at hd'
        exact absurd (hd' ▸ hd) hmissing
    -- the last datagram would be taken, and the run has one more step then
    have hmore : ∀ d ∈ c.received ++ [last],
        d ∈ (filePieces content.length blocksize).map
          (Piece.datagram (clientMemory content behind content.length)) := by
      intro d hd
      rcases List.mem_append.mp hd with hd | hd
      · exact hnet.mem d hd
      · rw [hsent]
        exact List.mem_append_right _ hd
    have hlonger :=
      (server_on_datagrams hblock hmax encode input file table memory _ hmore).2.1
    rw [arrivals_concat, hstopped] at hlonger
    have hlengths := congrArg List.length ((hall hreturned).symm.trans (hlonger hreturned))
    rw [upTo_of_none hnone, upTo_of_last hlast hnone, List.length_map, List.length_map,
      List.length_append] at hlengths
    exact absurd hlengths (Nat.ne_of_lt (Nat.lt_succ_self _))
  · intro h
    exact hstop (h.imp_left (fun hmem => ⟨last, hmem, hlast⟩))

theorem network_stop_letters :
    ∃ run last, clientMain (List.replicate 51 0x41) (fun _ => 0) [] 17 = some run ∧
      run.sent.getLast? = some last ∧
      ∀ (f : Faults) (c : Channel (List Byte)), c.Reaches f run.sent →
        let steps := serverMain (hostEncode lettersSha) 17 zeroInput zeroFile UMap.empty
          (arrivals (fun _ => zeroMemory) c.received)
        (∀ more, serverMain (hostEncode lettersSha) 17 zeroInput zeroFile UMap.empty
            (arrivals (fun _ => zeroMemory) c.received ++ more) = steps) ↔
          last ∈ c.received ∨ ∃ step ∈ steps, ¬step.Returned :=
  network_stop_iff (hostEncode lettersSha) zeroInput zeroFile UMap.empty (fun _ => zeroMemory)
    (List.replicate 51 0x41) (fun _ => 0) [] (by decide) (by decide) (by decide)

/-- The server does not notice a loss: with the first datagram gone it ends as usual, and the
file lacks its first block, if `encode` returns on the other ones. -/
theorem network_silent_loss {σ μ : Type*}
    (encode : μ → σ → EncodeCall → Option (σ × List Byte))
    (input : Fin numPackets → Slot) (file : List Byte) (table : σ) (memory : ℕ → μ)
    (content : List Byte) (behind : ℕ → Byte) (buffer : List Byte) {blocksize : ℕ}
    (hblock : 1 ≤ blocksize) (hmax : blocksize ≤ maxBlocksize) (hint : content.length < 2^31)
    (hmore : blocksize < content.length) (hreturns : ReturnsOn encode input file table
      (withMemory memory (fileBlocks content blocksize).tail))
    (f : Faults) (hlose : f.lose = true) :
    ∃ run c, clientMain content behind buffer blocksize = some run ∧
      Channel.Reaches f run.sent c ∧ c.unsent = [] ∧ c.flight = [] ∧
      ∀ more,
        let steps := serverMain encode blocksize input file table
          (arrivals memory c.received ++ more)
        (∀ step ∈ steps, step.Returned) ∧
          steps.flatMap ReceiveStep.payload = content.drop blocksize := by
  obtain ⟨reads, hmain⟩ := clientMain_sent content behind buffer hblock hmax hint
  obtain ⟨rest, hfirst⟩ := filePieces_first hblock hmore
  have hblocks := pieces_blocks content behind hblock hmore.le
  have hcontent := pieces_content content behind hblock hmore.le le_rfl
  unfold clientSent at hmain
  rw [List.take_length] at hcontent
  generalize clientMemory content behind content.length = buff at hblocks hcontent hmain
  rw [hfirst, List.map_cons] at hblocks hmain
  rw [← hblocks, List.tail_cons] at hreturns
  -- the piece with the done bit is not the first one
  have hdone : ∃ earlier last, rest = earlier ++ [last] ∧ last.done = true ∧
      ∀ p ∈ earlier, p.done = false := by
    obtain ⟨earlier, last, hpieces, hlast, hearlier⟩ := filePieces_done content.length blocksize
    rw [hfirst] at hpieces
    rcases earlier with _ | ⟨p, earlier⟩
    · rw [← (List.cons.inj hpieces).1] at hlast
      cases hlast
    · exact ⟨earlier, last, (List.cons.inj hpieces).2, hlast,
        fun q hq => hearlier q (List.mem_cons_of_mem _ hq)⟩
  have hcount : ∀ p ∈ rest, p.count ≤ blocksize := by
    intro p hp
    apply (filePieces_count content.length hblock p _).2
    rw [hfirst]
    exact List.mem_cons_of_mem _ hp
  refine ⟨_, ⟨[], [], rest.map (Piece.datagram buff)⟩, hmain, ?_, rfl, rfl, ?_⟩
  · exact Channel.reaches_sublist hlose (List.sublist_cons_self _ _)
  · intro more steps
    obtain ⟨hpayloads, hreturned⟩ :=
      server_pieces encode buff hmax hcount hdone input file table memory more
    have hall := hreturned.mpr hreturns
    refine ⟨hall, ?_⟩
    have hlen : (Piece.bytes buff ⟨0, blocksize, false⟩).length = blocksize := by
      rw [Piece.bytes, List.length_map, List.length_range']
    rw [hfirst, List.flatMap_cons] at hcontent
    rw [List.flatMap_def, hpayloads hall, ← List.flatMap_def, ← hcontent, List.drop_left' hlen]

/-- Of 51 letters in blocks of 17 two blocks are left. -/
theorem network_silent_loss_letters :
    ∃ run c, clientMain (List.replicate 51 0x41) (fun _ => 0) [] 17 = some run ∧
      Channel.Reaches ⟨true, false, false⟩ run.sent c ∧ c.unsent = [] ∧ c.flight = [] ∧
      ∀ more,
        let steps := serverMain (hostEncode lettersSha) 17 zeroInput zeroFile UMap.empty
          (arrivals (fun _ => zeroMemory) c.received ++ more)
        (∀ step ∈ steps, step.Returned) ∧
          steps.flatMap ReceiveStep.payload = List.replicate 34 0x41 := by
  have hblocks : (fileBlocks (List.replicate 51 0x41) 17).tail =
      List.replicate 2 (List.replicate 17 0x41) := by decide
  have hrest : (List.replicate 51 (0x41 : Byte)).drop 17 = List.replicate 34 0x41 := by decide
  have hreturns : ReturnsOn (hostEncode lettersSha) zeroInput zeroFile UMap.empty
      (withMemory (fun _ => zeroMemory) (fileBlocks (List.replicate 51 0x41) 17).tail) := by
    rw [hblocks]
    exact letters_returnsOn 2 (by decide)
  rw [← hrest]
  exact network_silent_loss (hostEncode lettersSha) zeroInput zeroFile UMap.empty
    (fun _ => zeroMemory) (List.replicate 51 0x41) (fun _ => 0) [] (by decide) (by decide)
    (by decide) (by decide) hreturns ⟨true, false, false⟩ rfl

end Sync532
