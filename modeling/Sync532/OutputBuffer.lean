import Sync532.BoundedRefinement
import Sync532.EncodeRecords
import Sync532.OutputModel

namespace Sync532

/-- `memcpy` behind bytes that are already there. -/
theorem memcpy_behind (out file src : List Byte) (n : ℕ) (hn : n ≤ src.length)
    (hout : out.length ≤ file.length) :
    memcpy (out ++ file.drop out.length) out.length src n =
      if (out ++ src.take n).length ≤ file.length then
        some (out ++ src.take n ++ file.drop (out ++ src.take n).length)
      else none := by
  have hlen : (out ++ file.drop out.length).length = file.length := by
    rw [List.length_append, List.length_drop]
    omega
  have hnew : (out ++ src.take n).length = out.length+n := by
    rw [List.length_append, List.length_take_of_le hn]
  have hrest : (out ++ file.drop out.length).drop (out.length+n) = file.drop (out.length+n) := by
    rw [List.drop_append, List.drop_of_length_le (Nat.le_add_right _ _), List.nil_append,
      List.drop_drop, Nat.add_sub_cancel_left]
  rw [memcpy, hlen, hnew, List.take_left, hrest]
  simp only [hn, true_and]

variable {κ : Type*} {file : List Byte} {outputBuf : ℕ}

/-- `file` holds the bytes `out` and, behind them, what it held at the start; `output_buf`
and `*outlength` give the place behind them. -/
structure OutputState.Holds (file : List Byte) (outputBuf : ℕ) (out : List Byte)
    (s : OutputState κ) : Prop where
  file : s.file = out ++ file.drop out.length
  outputBuf : s.outputBuf = outputBuf
  place : s.outputBuf+s.outlength = out.length

section Put
variable {out src : List Byte} {n : ℕ} {s : OutputState κ} (h : s.Holds file outputBuf out)
  (hout : out.length ≤ file.length)
include h hout

theorem OutputState.Holds.put (hn : n ≤ src.length)
    (hfits : (out ++ src.take n).length ≤ file.length) :
    ∃ s', s.put src n = some s' ∧ s'.Holds file outputBuf (out ++ src.take n) ∧
      s'.umap = s.umap := by
  refine ⟨⟨s.umap, _, s.outputBuf, s.outlength+n⟩, ?_, ⟨rfl, h.outputBuf, ?_⟩, rfl⟩
  · rw [OutputState.put, h.place, h.file, memcpy_behind out file src n hn hout, if_pos hfits]
    rfl
  · change s.outputBuf+(s.outlength+n) = (out ++ src.take n).length
    rw [List.length_append, List.length_take_of_le hn, ← h.place, Nat.add_assoc]

theorem OutputState.Holds.put_full (hn : n ≤ src.length)
    (hfull : ¬(out ++ src.take n).length ≤ file.length) : s.put src n = none := by
  rw [OutputState.put, h.place, h.file, memcpy_behind out file src n hn hout, if_neg hfull]
  rfl

end Put

theorem OutputState.put_short (s : OutputState κ) {src : List Byte} {n : ℕ}
    (hn : ¬n ≤ src.length) :
    s.put src n = none := by
  rw [OutputState.put, memcpy, if_neg (fun hboth => hn hboth.1)]
  rfl

/-- The header and then the codes: together they fit, or one of the two copies is
undefined. -/
theorem OutputState.Holds.put_record {out : List Byte} {s : OutputState κ} {o : LzwOutput}
    (h : s.Holds file outputBuf out) (hout : out.length ≤ file.length)
    (hcode : o.outlen ≤ o.outputCode.length) :
    ((out ++ (le32 (lzwHeader o.outlen) ++ o.outputCode.take o.outlen)).length ≤ file.length →
      ∃ s', ((s.put (le32 (lzwHeader o.outlen)) 4).bind (fun s => s.put o.outputCode o.outlen)) =
          some s' ∧
        s'.Holds file outputBuf
          (out ++ (le32 (lzwHeader o.outlen) ++ o.outputCode.take o.outlen)) ∧
        s'.umap = s.umap) ∧
    (¬(out ++ (le32 (lzwHeader o.outlen) ++ o.outputCode.take o.outlen)).length ≤ file.length →
      ((s.put (le32 (lzwHeader o.outlen)) 4).bind (fun s => s.put o.outputCode o.outlen)) =
        none) := by
  have hhead : (le32 (lzwHeader o.outlen)).take 4 = le32 (lzwHeader o.outlen) := rfl
  rw [← List.append_assoc]
  by_cases hheader : (out ++ (le32 (lzwHeader o.outlen)).take 4).length ≤ file.length
  · obtain ⟨s1, hs1, hold1, humap1⟩ := h.put hout (n := 4) le_rfl hheader
    rw [hs1, Option.bind_some]
    rw [hhead] at hold1 hheader
    constructor
    · intro hfits
      obtain ⟨s2, hs2, hold2, humap2⟩ := hold1.put hheader hcode hfits
      exact ⟨s2, hs2, hold2, humap2.trans humap1⟩
    · exact hold1.put_full hheader hcode
  · rw [h.put_full hout (n := 4) le_rfl hheader, Option.bind_none]
    rw [hhead] at hheader
    refine ⟨?_, fun _ => rfl⟩
    intro hfits
    rw [List.length_append] at hfits
    exact absurd (le_of_add_le_left hfits) hheader

/-- The records that fit into a block of `size` bytes. -/
def EncodeState.Fits (size : ℕ) (a : EncodeState κ) : Prop :=
  (fileBytes a.records).length ≤ size

instance (size : ℕ) : DecidablePred (EncodeState.Fits (κ := κ) size) :=
  fun a => inferInstanceAs (Decidable ((fileBytes a.records).length ≤ size))

structure OutputState.HoldsRecords (file : List Byte) (outputBuf : ℕ) (a : EncodeState κ)
    (s : OutputState κ) : Prop extends s.Holds file outputBuf (fileBytes a.records) where
  umap : s.umap = a.umap

theorem fileBytes_concat (rs : List FileRecord) (r : FileRecord) :
    fileBytes (rs ++ [r]) = fileBytes rs ++ r.bytes := by
  rw [fileBytes, List.flatMap_append, List.flatMap_singleton]
  rfl

variable [DecidableEq κ]

theorem outputChunk_tracks {a : EncodeState κ} {s : OutputState κ}
    (h : s.HoldsRecords file outputBuf a) (hfits : a.Fits file.length) (i : BitVec 32)
    (hashValue : Option κ) (chunk : Str) (lzwOutput : Option LzwOutput) :
    Tracks (OutputState.HoldsRecords file outputBuf) (EncodeState.Fits file.length)
      (encodeChunk a i hashValue (lzwOutput.bind (recordOf chunk)))
      (outputChunk s i hashValue lzwOutput) := by
  cases hashValue with
  | none => exact Tracks.undefined
  | some k =>
    simp only [encodeChunk, outputChunk, Option.bind_some, h.umap]
    -- the table moves on in both in the same way
    have hold : ({ s with umap := (deduplication a.umap i k).1 } : OutputState κ).Holds file
        outputBuf (fileBytes a.records) := ⟨h.file, h.outputBuf, h.place⟩
    split_ifs with hnew
    · rcases lzwOutput with _ | o
      · exact Tracks.undefined
      · rw [Option.bind_some, Option.bind_some, recordOf]
        split_ifs with hcode
        · obtain ⟨hin, hout⟩ := hold.put_record hfits hcode
          have hlen : (o.outputCode.take o.outlen).length = o.outlen :=
            List.length_take_of_le hcode
          have hbytes : (FileRecord.lzw chunk (o.outputCode.take o.outlen)).bytes =
              le32 (lzwHeader o.outlen) ++ o.outputCode.take o.outlen := by
            rw [FileRecord.bytes, hlen]
          rw [← hbytes, ← fileBytes_concat] at hin hout
          rw [Option.map_some]
          by_cases hroom : (fileBytes (a.records ++
              [FileRecord.lzw chunk (o.outputCode.take o.outlen)])).length ≤ file.length
          · obtain ⟨s', hs', hold', humap'⟩ := hin hroom
            rw [hs']
            exact Tracks.both ⟨hold', humap'⟩ hroom
          · rw [hout hroom]
            exact Tracks.full hroom
        · -- `output_code` is too short for `outlen`: the second copy is undefined
          rw [Option.map_none]
          have hnone : ∀ t : Option (OutputState κ),
              t.bind (fun s => s.put o.outputCode o.outlen) = none := by
            intro t
            cases t with
            | none => rfl
            | some t => exact t.put_short hcode
          rw [hnone]
          exact Tracks.undefined
    · have hbytes : (FileRecord.ref (deduplication a.umap i k).2).bytes =
          (le32 (refHeader (deduplication a.umap i k).2)).take 4 := rfl
      by_cases hroom : (fileBytes (a.records ++
          [FileRecord.ref (deduplication a.umap i k).2])).length ≤ file.length
      · have hroom' := hroom
        rw [fileBytes_concat, hbytes] at hroom'
        obtain ⟨s', hs', hold', humap'⟩ := hold.put hfits (n := 4) le_rfl hroom'
        rw [hs']
        rw [← hbytes, ← fileBytes_concat] at hold'
        exact Tracks.both ⟨hold', humap'⟩ hroom
      · have hroom' := hroom
        rw [fileBytes_concat, hbytes] at hroom'
        rw [hold.put_full hfits (n := 4) le_rfl hroom']
        exact Tracks.full hroom

theorem encodeChunk_grows {a b : EncodeState κ} {i : BitVec 32} {key : Option κ}
    {record : Option FileRecord} {size : ℕ} (h : encodeChunk a i key record = some b)
    (hfits : b.Fits size) : a.Fits size := by
  obtain ⟨r, hr⟩ := encodeChunk_appends h
  rw [EncodeState.Fits, hr, fileBytes_concat, List.length_append] at hfits
  exact le_of_add_le_left hfits

/-- The loop over `q_index`, whatever is stored there. -/
theorem chunkLoop_tracks {A C : Type*} {R : A → C → Prop} {fits : A → Prop}
    {f : A → ℕ → ℤ → ℤ → Option A} {g : C → ℕ → ℤ → ℤ → Option C}
    (hlost : ∀ n first last a b, f a n first last = some b → fits b → fits a)
    (hstep : ∀ n first last a c, R a c → fits a →
      Tracks R fits (f a n first last) (g c n first last))
    (q : List ℤ) (index : ℕ) (endPos : ℤ) {a : A} {c : C} (hrel : R a c) (hfits : fits a) :
    Tracks R fits (chunkLoop f index endPos q a) (chunkLoop g index endPos q c) ∧
      ∀ a b, chunkLoop f index endPos q a = some b → fits b → fits a := by
  induction q generalizing index endPos a c with
  | nil => exact ⟨Tracks.undefined, fun a b hb => nomatch hb⟩
  | cons e q ih =>
    unfold chunkLoop
    split_ifs with he
    · refine ⟨Tracks.both hrel hfits, ?_⟩
      intro a b hb hfit
      rwa [Option.some.inj hb]
    · have hlostLoop := (ih (index+1) e hrel hfits).2
      constructor
      · exact (hstep index _ e a c hrel hfits).bind hlostLoop
          (fun a' c' hr hf => (ih (index+1) e hr hf).1)
      · intro a b hb hfit
        obtain ⟨m, hm, hrest⟩ := Option.bind_eq_some_iff.mp hb
        exact hlost index _ e a m hm (hlostLoop m b hrest hfit)

/-- `main` between two packets: the records, and `offset` behind them. -/
structure HostState.Holds (file : List Byte) (a : EncodeState Str) (s : HostState) : Prop where
  umap : s.umap = a.umap
  file : s.file = fileBytes a.records ++ file.drop (fileBytes a.records).length
  offset : s.offset = (fileBytes a.records).length

theorem hostStep_tracks (sha : Str → Digest) (p : Packet) {a : EncodeState Str} {s : HostState}
    (h : s.Holds file a) (hfits : a.Fits file.length) :
    Tracks (HostState.Holds file) (EncodeState.Fits file.length) (encode sha p a)
      (hostStep sha s p) := by
  have hstart : OutputState.HoldsRecords file s.offset a ⟨s.umap, s.file, s.offset, 0⟩ :=
    ⟨⟨h.file, rfl, h.offset⟩, h.umap⟩
  unfold encode hostStep encodeOutput encodeLoop
  rcases cdc p.payload (BitVec.ofNat 32 p.payload.length)
    (List.replicate p.payload.length (-1)) with _ | qIndex
  · exact Tracks.undefined
  rcases cString p.memory with _ | sPacket
  · exact Tracks.undefined
  have hloop := (chunkLoop_tracks (R := OutputState.HoldsRecords file s.offset)
    (f := fun a index first last => encodeChunk a (BitVec.ofNat 32 index)
      (p.hashValue sha index first last) (p.lzwRecord sPacket index first last))
    (g := fun s index first last => outputChunk s (BitVec.ofNat 32 index)
      (p.hashValue sha index first last) (p.lzwOutput sPacket index first last))
    (fun _ _ _ _ _ hb => encodeChunk_grows hb)
    (fun index _ _ _ _ hr hf => outputChunk_tracks hr hf (BitVec.ofNat 32 index) _ _ _)
    qIndex 0 (-1) hstart hfits).1
  apply hloop.map_right
  intro b o hb
  refine ⟨hb.umap, hb.file, ?_⟩
  rw [← hb.place, hb.outputBuf]

theorem encode_grows {sha : Str → Digest} {p : Packet} {a b : EncodeState Str} {size : ℕ}
    (h : encode sha p a = some b) (hfits : b.Fits size) : a.Fits size := by
  obtain ⟨q, -, h⟩ := Option.bind_eq_some_iff.mp h
  obtain ⟨sPacket, -, hloop⟩ := Option.bind_eq_some_iff.mp h
  obtain ⟨rs, hrs⟩ := chunkLoop_appends hloop
  rw [EncodeState.Fits, ← hrs, fileBytes, List.flatMap_append, List.length_append] at hfits
  exact le_of_add_le_left hfits

/-- The bytes that the packets leave in `file` are those of the records, with the rest
of `file` as it was, and the run is undefined as soon as the records do not fit. -/
theorem encodeFile_eq (sha : Str → Digest) (file : List Byte) (packets : List Packet) :
    encodeFile sha file packets = (encodeRun sha packets).bind (fun s =>
      if (fileBytes s.records).length ≤ file.length then
        some ⟨s.umap, fileBytes s.records ++ file.drop (fileBytes s.records).length,
          (fileBytes s.records).length⟩
      else none) := by
  have htracks := Tracks.foldlM (R := HostState.Holds file)
    (f := fun a p => encode sha p a) (g := hostStep sha) (fun _ _ _ hb => encode_grows hb)
    (fun p _ _ hr hf => hostStep_tracks sha p hr hf) packets
    (a := encodeStart Str) (c := ⟨UMap.empty, file, 0⟩) ⟨rfl, rfl, rfl⟩ (Nat.zero_le _)
  apply Tracks.eq_bind (fun s : EncodeState Str => (⟨s.umap,
    fileBytes s.records ++ file.drop (fileBytes s.records).length,
    (fileBytes s.records).length⟩ : HostState)) htracks
  rintro a ⟨umap, bytes, offset⟩ hc
  rw [HostState.mk.injEq]
  exact ⟨hc.umap, hc.file, hc.offset⟩

end Sync532
