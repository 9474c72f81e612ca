import Sync532.CdcEdits
import Sync532.ShortPackets

namespace Sync532

/-- A call whose content has come before adds no LZW record. -/
theorem lzwChunks_firstAnswers_sublist {β : Type*} {content : β → Str}
    {record : β → FileRecord} (hrecord : ∀ b, ∃ body, record b = .lzw (content b) body)
    (earlier calls : List (β × BitVec 32)) :
    List.Sublist (lzwChunks (firstAnswers content (orRecord record) earlier calls))
      ((labelsOf content calls).filter (fun c => c ∉ labelsOf content earlier)) := by
  -- over the calls, where `earlier` grows by one call in each step
  induction calls generalizing earlier with
  | nil => exact List.Sublist.refl _
  | cons c calls ih =>
    have hgrow : List.Sublist
        ((labelsOf content calls).filter (fun x => x ∉ labelsOf content (earlier ++ [c])))
        ((labelsOf content calls).filter (fun x => x ∉ labelsOf content earlier)) := by
      apply List.monotone_filter_right
      intro x hx
      rw [decide_eq_true_eq] at hx ⊢
      intro hold
      apply hx
      rw [labelsOf, List.map_append]
      exact List.mem_append_left _ hold
    have hrest := (ih (earlier ++ [c])).trans hgrow
    have hlabels : labelsOf content (c :: calls) = content c.1 :: labelsOf content calls := rfl
    rw [firstAnswers, hlabels]
    rcases hfirst : firstValue content earlier (content c.1) with _ | v
    · obtain ⟨body, hbody⟩ := hrecord c.1
      have hnew : content c.1 ∉ labelsOf content earlier := by
        intro hold
        obtain ⟨e, he, hsame⟩ := List.mem_map.mp hold
        exact (firstValue_eq_none content earlier _).mp hfirst e he hsame
      rw [List.filter_cons_of_pos (by simpa using hnew), orRecord, Option.elim_none, hbody]
      exact hrest.cons_cons _
    · obtain ⟨d, hd, -⟩ := Option.map_eq_some_iff.mp hfirst
      have hold : content c.1 ∈ labelsOf content earlier :=
        List.mem_map.mpr ⟨d, List.mem_of_find?_eq_some hd, by simpa using List.find?_some hd⟩
      rw [List.filter_cons_of_neg (by simpa using hold), orRecord, Option.elim_some]
      exact hrest

theorem Packet.labels_calls (p : Packet) (h16 : winSize ≤ p.payload.length) :
    labelsOf PacketChunk.content p.calls = chunkContents p.payload := by
  have hpart := cdcEnds_partition p.payload h16
  have hslice : ∀ r ∈ (segments 0 (cdcEnds p.payload)).zipIdx,
      slice p.memory r.1.1 r.1.2 = slice p.payload r.1.1 r.1.2 := by
    intro r hr
    exact slice_append_left _ _ _ _ (hpart.inside r.1 (List.fst_mem_of_mem_zipIdx hr))
  calc labelsOf PacketChunk.content p.calls
      = (segments 0 (cdcEnds p.payload)).zipIdx.map (fun r => slice p.memory r.1.1 r.1.2) := by
        rw [labelsOf, Packet.calls, List.map_map]
        rfl
    _ = (segments 0 (cdcEnds p.payload)).zipIdx.map (fun r => slice p.payload r.1.1 r.1.2) :=
        List.map_congr_left hslice
    _ = ((segments 0 (cdcEnds p.payload)).zipIdx.map Prod.fst).map
          (fun r => slice p.payload r.1 r.2) := by
        rw [List.map_map]
        rfl
    _ = chunkContents p.payload := by rw [List.zipIdx_map_fst, chunkContents]

theorem labels_packetCalls (packets : List Packet)
    (hfull : ∀ p ∈ packets, winSize ≤ p.payload.length) :
    labelsOf PacketChunk.content (packetCalls packets) =
      (packets.map (fun p => chunkContents p.payload)).flatten := by
  rw [labelsOf, packetCalls, List.map_flatMap, List.flatMap_def]
  exact congrArg _ (List.map_congr_left (fun p hp => p.labels_calls (hfull p hp)))

theorem mapM_cdcChunks (packets : List Packet)
    (hfull : ∀ p ∈ packets, winSize ≤ p.payload.length) :
    packets.mapM (fun p => cdcChunks p.payload) =
      some (packets.map (fun p => chunkContents p.payload)) := by
  induction packets with
  | nil => rfl
  | cons p packets ih =>
    rw [List.mapM_cons, cdcChunks_eq p.payload (hfull p List.mem_cons_self) p.size,
      ih (fun q hq => hfull q (List.mem_cons_of_mem _ hq))]
    rfl

/-- The file has one record for each chunk of the run, and one LZW record for each
content. -/
theorem encodeRun_stores_once (sha : Str → Digest) (packets : List Packet)
    (hsha : DigestsDistinct sha packets) (h : RunEncodable sha packets) :
    ∃ s chunks, encodeRun sha packets = some s ∧
      packets.mapM (fun p => cdcChunks p.payload) = some chunks ∧
      s.records.length = chunks.flatten.length ∧
      lzwChunks s.records = distinct chunks.flatten ∧ (lzwChunks s.records).Nodup := by
  obtain ⟨s, hrun, hrecords, -⟩ := encodeRun_records sha packets hsha h
  have hlabels := labels_packetCalls packets h.full
  have hstored : lzwChunks s.records =
      distinct (packets.map (fun p => chunkContents p.payload)).flatten := by
    rw [hrecords, lzwChunks_firstAnswers PacketChunk.fileRecord_chunk, hlabels]
  refine ⟨s, _, hrun, mapM_cdcChunks packets h.full, ?_, hstored, hstored ▸ nodup_distinct _⟩
  rw [hrecords, length_firstAnswers, ← hlabels, labelsOf, List.length_map]

/-- 17 letters, 18 letters, 17 letters again: two LZW records. -/
theorem encodeRun_stores_once_letters :
    ∃ s chunks, encodeRun lettersSha ([seventeen, eighteen, seventeen].map ShortText.packet) =
      some s ∧
      ([seventeen, eighteen, seventeen].map ShortText.packet).mapM (fun p => cdcChunks p.payload) =
        some chunks ∧
      s.records.length = chunks.flatten.length ∧
      lzwChunks s.records = distinct chunks.flatten ∧ (lzwChunks s.records).Nodup :=
  encodeRun_stores_once lettersSha _ (letters_run _ (by simp)).1 (letters_run _ (by simp)).2

section Next
variable {sha : Str → Digest} {earlier : List Packet} {p : Packet}
  (hsha : DigestsDistinct sha (earlier ++ [p])) (h : RunEncodable sha (earlier ++ [p]))
include hsha h

/-- What one more packet adds. -/
theorem encodeRun_next :
    ∃ s t new, encodeRun sha earlier = some s ∧ encodeRun sha (earlier ++ [p]) = some t ∧
      t.records = s.records ++ new ∧ new.length = (chunkContents p.payload).length ∧
      List.Sublist (lzwChunks new) ((chunkContents p.payload).filter
        (fun c => c ∉ (earlier.map (fun q => chunkContents q.payload)).flatten)) := by
  have hp : p ∈ earlier ++ [p] := List.mem_append_right _ List.mem_cons_self
  have hshaEarlier : DigestsDistinct sha earlier := fun c hc c' hc' =>
    hsha c (packetChunks_append_left hc) c' (packetChunks_append_left hc')
  have hearlier : RunEncodable sha earlier := h.of_append
  obtain ⟨s, hs, hrecords, -⟩ := encodeRun_records sha earlier hshaEarlier hearlier
  obtain ⟨t, ht, hrecords', -⟩ := encodeRun_records sha _ hsha h
  have hcalls : packetCalls [p] = p.calls := List.append_nil _
  rw [packetCalls_append, firstAnswers_append, List.nil_append, ← hrecords, hcalls] at hrecords'
  refine ⟨s, t, _, hs, ht, hrecords', ?_, ?_⟩
  · rw [length_firstAnswers, ← p.labels_calls (h.full p hp), labelsOf, List.length_map]
  · rw [← p.labels_calls (h.full p hp), ← labels_packetCalls earlier hearlier.full]
    exact lzwChunks_firstAnswers_sublist PacketChunk.fileRecord_chunk _ _

/-- A packet that differs from an earlier one in one place adds at most `|E|+17` LZW
records; its other chunks are references. -/
theorem encodeRun_edit_cost (q : Packet) (hq : q ∈ earlier) (P E E' S : List Byte)
    (hpPayload : p.payload = P ++ E ++ S) (hqPayload : q.payload = P ++ E' ++ S)
    (hE : 16 ≤ (P ++ E).length) (hE' : 16 ≤ (P ++ E').length) (hS : 1 ≤ S.length) :
    ∃ s t new chunks, encodeRun sha earlier = some s ∧
      encodeRun sha (earlier ++ [p]) = some t ∧ t.records = s.records ++ new ∧
      cdcChunks p.payload = some chunks ∧ new.length = chunks.length ∧
      (lzwChunks new).length ≤ E.length+17 := by
  have hp : p ∈ earlier ++ [p] := List.mem_append_right _ List.mem_cons_self
  obtain ⟨s, t, new, hs, ht, hrecords, hlen, hsub⟩ := encodeRun_next hsha h
  refine ⟨s, t, new, _, hs, ht, hrecords, cdcChunks_eq _ (h.full p hp) p.size, hlen, ?_⟩
  have hknown : ∀ c ∈ chunkContents q.payload,
      c ∈ (earlier.map (fun q => chunkContents q.payload)).flatten := by
    intro c hc
    rw [← List.flatMap_def]
    exact List.mem_flatMap.mpr ⟨q, hq, hc⟩
  calc (lzwChunks new).length
      ≤ ((chunkContents p.payload).filter (fun c =>
          c ∉ (earlier.map (fun q => chunkContents q.payload)).flatten)).length := hsub.length_le
    _ ≤ ((chunkContents p.payload).filter (fun c => c ∉ chunkContents q.payload)).length := by
        rw [← List.countP_eq_length_filter, ← List.countP_eq_length_filter]
        apply List.countP_mono_left
        intro c _ hnew
        rw [decide_eq_true_eq] at hnew ⊢
        exact fun hold => hnew (hknown c hold)
    _ ≤ E.length+17 := by
        rw [hpPayload, hqPayload]
        exact length_new_chunks_le P E E' S hE hE' hS

end Next

/-- 18 letters, then 17. -/
theorem encodeRun_edit_cost_letters :
    ∃ s t new chunks, encodeRun lettersSha [eighteen.packet] = some s ∧
      encodeRun lettersSha [eighteen.packet, seventeen.packet] = some t ∧
      t.records = s.records ++ new ∧ cdcChunks seventeen.text = some chunks ∧
      new.length = chunks.length ∧ (lzwChunks new).length ≤ 17 :=
  encodeRun_edit_cost (letters_run [eighteen, seventeen] (by simp)).1
    (letters_run [eighteen, seventeen] (by simp)).2 eighteen.packet (by simp)
    (List.replicate 16 0x41) [] [0x41] [0x41] rfl rfl (by decide) (by decide) (by decide)

section Resent
variable {sha : Str → Digest} {earlier : List Packet} {p : Packet}
  (hsha : DigestsDistinct sha (earlier ++ [p])) (h : RunEncodable sha (earlier ++ [p]))
include hsha h

/-- A packet that is sent again adds four bytes for each chunk. -/
theorem encodeRun_resent (q : Packet) (hq : q ∈ earlier) (hsame : p.payload = q.payload) :
    ∃ s t new chunks, encodeRun sha earlier = some s ∧
      encodeRun sha (earlier ++ [p]) = some t ∧ t.records = s.records ++ new ∧
      cdcChunks p.payload = some chunks ∧ lzwChunks new = [] ∧
      (fileBytes new).length = 4*chunks.length := by
  have hp : p ∈ earlier ++ [p] := List.mem_append_right _ List.mem_cons_self
  obtain ⟨s, t, new, hs, ht, hrecords, hlen, hsub⟩ := encodeRun_next hsha h
  have hnone : lzwChunks new = [] := by
    apply List.eq_nil_of_subset_nil
    intro c hc
    obtain ⟨hmem, hnew⟩ := List.mem_filter.mp (hsub.subset hc)
    rw [decide_eq_true_eq, ← List.flatMap_def] at hnew
    exact absurd (List.mem_flatMap.mpr ⟨q, hq, hsame ▸ hmem⟩) hnew
  refine ⟨s, t, new, _, hs, ht, hrecords, cdcChunks_eq _ (h.full p hp) p.size, hnone, ?_⟩
  rw [← hlen]
  exact length_references hnone

end Resent

/-- 17 letters twice. -/
theorem encodeRun_resent_letters :
    ∃ s t new chunks, encodeRun lettersSha [seventeen.packet] = some s ∧
      encodeRun lettersSha [seventeen.packet, seventeen.packet] = some t ∧
      t.records = s.records ++ new ∧ cdcChunks seventeen.text = some chunks ∧
      lzwChunks new = [] ∧ (fileBytes new).length = 4*chunks.length :=
  encodeRun_resent (letters_run [seventeen, seventeen] (by simp)).1
    (letters_run [seventeen, seventeen] (by simp)).2 seventeen.packet (by simp) rfl

end Sync532
