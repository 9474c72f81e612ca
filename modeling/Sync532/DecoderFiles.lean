import Sync532.CompressionBounds

namespace Sync532

/-- The bytes that `Decompress` takes from `Input`, and what it writes. -/
def lzwTaken (size : ℕ) : ℕ := (13*(iterations size+1)+7)/8

def lzwText (size : ℕ) (data : List Byte) : Option Str :=
  ((readerStart (streamCode data 0)).run
    ((List.range' 1 (iterations size)).map (streamCode data))).map PhraseReader.output

/-- The output for `file` when the LZW records in front of it were `known`. -/
def decodeFile (known : List Str) (file : List Byte) : Option (List Byte) :=
  match file with
  | b₀ :: b₁ :: b₂ :: b₃ :: rest =>
    let header := readLE32 b₀ b₁ b₂ b₃
    let n := (header >>> 1).toNat
    if header &&& 1 = 0 then
      if n = 0 then none
      else (lzwText n rest).bind (fun chunk =>
        (decodeFile (known ++ [chunk]) (rest.drop (lzwTaken n))).map (chunk ++ ·))
    else (decodeFile known rest).map ((known[n]?).getD [] ++ ·)
  | _ => some []
termination_by file.length
decreasing_by
  all_goals simp only [List.length_cons, List.length_drop]; omega

/-- The codes stay in the table exactly when the record has a text. -/
theorem lzwText_isSome_iff {size : ℕ} (hpos : 1 ≤ size) (hsize : size < 2^31)
    (data : List Byte) :
    (lzwText size data).isSome ↔ OldInTable size data := by
  constructor
  · intro h k hgo
    obtain ⟨text, htext⟩ := Option.isSome_iff_exists.mp h
    obtain ⟨reader, hrun, -⟩ := Option.map_eq_some_iff.mp htext
    -- the loop goes on behind code `k`, so `k` is not the last one
    have hbefore := goesOn_prefix hpos hsize (k+1) (fun j hj => hgo j (by omega))
    have hlast := hbefore.resolve_left (Nat.succ_ne_zero k)
    have hk : k < iterations size := by
      unfold iterations
      omega
    have hlength : k < ((List.range' 1 (iterations size)).map (streamCode data)).length := by
      rwa [List.length_map, List.length_range']
    have hcode : ((readerStart (streamCode data 0)).old ::
        (List.range' 1 (iterations size)).map (streamCode data))[k]? =
          some (streamCode data k) := by
      cases k with
      | zero => rfl
      | succ k =>
        rw [List.getElem?_cons_succ, List.getElem?_map, List.getElem?_range' (by omega)]
        simp [Nat.add_comm]
    have hlt := PhraseReader.run_old hrun k _ hlength hcode
    rwa [show (readerStart (streamCode data 0)).table.length = 256 from length_baseDict] at hlt
  · intro hold
    obtain ⟨s, -, -, hrun, -⟩ := decompress_taken hpos hsize ⟨⟨data, false⟩, 0, 0⟩ hold
    rw [lzwText, hrun]
    rfl

/-- `Decompress` on the rest of a file. -/
theorem decompress_eq_lzwText {size fuel : ℕ} (hsize : size < 2^31) (hfuel : 2^31 ≤ fuel)
    (r : BitReader) (heof : r.input.eof = true → r.input.rest = []) :
    (size = 0 ∨ lzwText size r.input.rest = none → decompress fuel size r = none) ∧
    ∀ text, size ≠ 0 → lzwText size r.input.rest = some text →
      ∃ s, decompress fuel size r = some s ∧ s.output = text ∧
        s.reader.input.rest = r.input.rest.drop (lzwTaken size) ∧
        (s.reader.input.eof = true → s.reader.input.rest = []) := by
  constructor
  · intro hnone
    by_contra hsome
    obtain ⟨s, hs⟩ := Option.ne_none_iff_exists'.mp hsome
    obtain ⟨hpos, hold, -⟩ := decompress_returned hsize hs
    rcases hnone with rfl | hnone
    · exact absurd hpos (by decide)
    · have htext := (lzwText_isSome_iff hpos hsize r.input.rest).mpr hold
      rw [hnone] at htext
      exact absurd htext (by decide)
  · intro text hne htext
    have hpos : 1 ≤ size := Nat.one_le_iff_ne_zero.mpr hne
    have hold := (lzwText_isSome_iff hpos hsize r.input.rest).mp (by rw [htext]; rfl)
    obtain ⟨s, hs, -, hrun, htaken⟩ := decompress_taken hpos hsize r hold
    rw [lzwText, hrun, Option.map_some] at htext
    refine ⟨s, hs fuel ?_, Option.some.inj htext, htaken.rest, ?_⟩
    · unfold iterations
      omega
    · rw [htaken.eof, htaken.rest, Bool.or_eq_true, decide_eq_true_iff]
      rintro (hend | hshort)
      · rw [heof hend, List.drop_nil]
      · exact List.drop_of_length_le (by omega)

/-- From any state of the main loop. -/
theorem decoderLoop_eq {fuel : ℕ} (hfuel : 2^31 ≤ fuel) (n : ℕ) :
    ∀ (s : DecoderState) (loops : ℕ), s.reader.input.rest.length ≤ n → n+2 ≤ loops →
      s.stopped = false → (s.reader.input.eof = true → s.reader.input.rest = []) →
      (whileFuel (fun s => !s.stopped) (decoderBody fuel) loops s).map DecoderState.output =
        (decodeFile s.chunks s.reader.input.rest).map (s.output ++ ·) := by
  -- over a bound on the unread bytes, of which every record takes four or more
  induction n using Nat.strong_induction_on with
  | _ n ih =>
    intro s loops hn hloops hrunning heof
    obtain ⟨loops, rfl⟩ := Nat.exists_eq_add_of_le' (show 1 ≤ loops by omega)
    have hcond : (!s.stopped) = true := by rw [hrunning]; rfl
    rw [whileFuel, if_pos hcond]
    rcases hrest : s.reader.input.rest with
      _ | ⟨b₀, _ | ⟨b₁, _ | ⟨b₂, _ | ⟨b₃, rest⟩⟩⟩⟩
    case cons.cons.cons.cons =>
      have hopen : s.reader.input.eof = false := by
        rw [← Bool.not_eq_true]
        intro hend
        rw [heof hend] at hrest
        exact absurd hrest (by simp)
      have hheader :
          s.reader.input.readHeader = (readLE32 b₀ b₁ b₂ b₃, ⟨rest, false⟩) := by
        rw [IStream.readHeader, hrest, hopen]
      have hshift : (readLE32 b₀ b₁ b₂ b₃ >>> 1).toNat < 2^31 := by
        have hlt := (readLE32 b₀ b₁ b₂ b₃).isLt
        rw [BitVec.toNat_ushiftRight, Nat.shiftRight_eq_div_pow]
        omega
      rw [hrest, List.length_cons, List.length_cons, List.length_cons, List.length_cons] at hn
      simp only [decoderBody, hheader, Bool.false_eq_true, if_false, DecoderState.record]
      rw [decodeFile]
      generalize readLE32 b₀ b₁ b₂ b₃ = header at *
      split_ifs with heven hzero
      · -- an LZW record of size 0 never ends
        rw [(decompress_eq_lzwText hshift hfuel _ (by simp)).1 (Or.inl hzero)]
        rfl
      · obtain ⟨hundefined, hdefined⟩ := decompress_eq_lzwText hshift hfuel
          ⟨⟨rest, false⟩, s.reader.inputPosition, s.reader.byte⟩ (by simp)
        rcases htext : lzwText (header >>> 1).toNat rest with _ | text
        · rw [hundefined (Or.inr htext)]
          rfl
        · obtain ⟨d, hd, hout, hnext, hend⟩ := hdefined text hzero htext
          rw [hd, Option.map_some, Option.bind_some, Option.bind_some]
          have hlen : d.reader.input.rest.length ≤ n-1 := by
            rw [hnext, List.length_drop]
            change rest.length-lzwTaken (header >>> 1).toNat ≤ n-1
            omega
          rw [ih (n-1) (by omega) ⟨d.reader, s.chunks ++ [d.output],
            s.output ++ d.output, false⟩ loops
            hlen (by omega) rfl hend, hout, hnext, Option.map_map]
          simp only [Function.comp_def, List.append_assoc]
      · -- a location out of bounds stands for no bytes
        have hstep (chunk : Str) := ih (n-1) (by omega)
          ⟨⟨⟨rest, false⟩, s.reader.inputPosition, s.reader.byte⟩, s.chunks,
            s.output ++ chunk, false⟩
          loops (by change rest.length ≤ n-1; omega) (by omega) rfl (by simp)
        rcases s.chunks[(header >>> 1).toNat]? with _ | chunk
        · have hnone := hstep []
          rw [List.append_nil] at hnone
          rw [Option.bind_some, hnone, Option.map_map]
          simp [Function.comp_def]
        · rw [Option.bind_some, hstep chunk, Option.map_map]
          simp [Function.comp_def]
    all_goals
      have hheader : s.reader.input.readHeader = (0, ⟨[], true⟩) := by
        rw [IStream.readHeader, hrest]
      obtain ⟨loops, rfl⟩ := Nat.exists_eq_add_of_le' (show 1 ≤ loops by omega)
      simp [decoderBody, hheader, whileFuel, decodeFile]

theorem decompress_mono {fuel fuel' : ℕ} (hle : fuel ≤ fuel') (size : ℕ) (r : BitReader)
    (s : DecompressState) (h : decompress fuel size r = some s) :
    decompress fuel' size r = some s :=
  whileFuel_mono (fun _ _ hb => hb) hle h

theorem decoderBody_mono {fuel fuel' : ℕ} (hle : fuel ≤ fuel') (s t : DecoderState)
    (h : decoderBody fuel s = some t) : decoderBody fuel' s = some t := by
  unfold decoderBody DecoderState.record at h ⊢
  dsimp only at h ⊢
  split_ifs at h ⊢ with heof heven
  · exact h
  · obtain ⟨d, hd, hd'⟩ := Option.map_eq_some_iff.mp h
    exact Option.map_eq_some_iff.mpr ⟨d, decompress_mono hle _ _ d hd, hd'⟩
  · exact h

/-- The decoder is `decodeFile`: from a bound on they are equal, and below it the
decoder has no other result. -/
theorem decoderMain_eq_decodeFile (file : List Byte) :
    (∀ fuel, 2^31+file.length ≤ fuel → decoderMain fuel file = decodeFile [] file) ∧
      ∀ fuel out, decoderMain fuel file = some out → decodeFile [] file = some out := by
  have hlarge (fuel : ℕ) (hfuel : 2^31+file.length ≤ fuel) :
      decoderMain fuel file = decodeFile [] file := by
    have hcodes : 2^31 ≤ fuel := (Nat.le_add_right _ _).trans hfuel
    have hloop := decoderLoop_eq hcodes file.length (decoderStart file) fuel le_rfl
      (by omega) rfl (by simp [decoderStart])
    rw [decoderMain, hloop]
    exact Option.map_id'
  refine ⟨hlarge, ?_⟩
  intro fuel out hout
  obtain ⟨s, hs, rfl⟩ := Option.map_eq_some_iff.mp hout
  have hle : fuel ≤ fuel+(2^31+file.length) := Nat.le_add_right _ _
  have hmore := whileFuel_mono (decoderBody_mono hle) hle hs
  rw [← hlarge (fuel+(2^31+file.length)) (by omega), decoderMain, hmore]
  rfl

theorem decodeFile_header (known : List Str) (h : BitVec 32) (rest : List Byte) :
    decodeFile known (le32 h ++ rest) =
      if h &&& 1 = 0 then
        if (h >>> 1).toNat = 0 then none
        else (lzwText (h >>> 1).toNat rest).bind (fun chunk =>
          (decodeFile (known ++ [chunk]) (rest.drop (lzwTaken (h >>> 1).toNat))).map (chunk ++ ·))
      else (decodeFile known rest).map ((known[(h >>> 1).toNat]?).getD [] ++ ·) := by
  simp only [le32, List.cons_append, List.nil_append]
  rw [decodeFile]
  simp only [readLE32_le32]

theorem decodeFile_short (known : List Str) (file : List Byte) (h : file.length < 4) :
    decodeFile known file = some [] := by
  rcases file with _ | ⟨b₀, _ | ⟨b₁, _ | ⟨b₂, _ | ⟨b₃, rest⟩⟩⟩⟩
  case cons.cons.cons.cons =>
    rw [List.length_cons, List.length_cons, List.length_cons, List.length_cons] at h
    omega
  all_goals rw [decodeFile]; simp

/-- The body of a valid record is its text, whatever stands behind it. -/
theorem LzwBody.text {chunk : Str} {body : List Byte} (h : LzwBody chunk body) (tail : List Byte) :
    body.length ≠ 0 ∧ lzwText body.length (body ++ tail) = some chunk ∧
      (body ++ tail).drop (lzwTaken body.length) = tail := by
  obtain ⟨s, hout, hin, hrun⟩ := h.decompress tail ⟨⟨body ++ tail, false⟩, 0, 0⟩ rfl
  have hfuel := hrun (2^31+body.length) (Nat.le_add_left _ _)
  obtain ⟨hpos, hold, -⟩ := decompress_returned h.length hfuel
  have hne : body.length ≠ 0 := Nat.one_le_iff_ne_zero.mp hpos
  obtain ⟨text, htext⟩ := Option.isSome_iff_exists.mp
    ((lzwText_isSome_iff hpos h.length (body ++ tail)).mpr hold)
  obtain ⟨s', hs', hout', hrest, -⟩ := (decompress_eq_lzwText h.length (Nat.le_add_right _ _)
    ⟨⟨body ++ tail, false⟩, 0, 0⟩ (by simp)).2 text hne htext
  obtain rfl : s = s' := Option.some.inj (hfuel.symm.trans hs')
  refine ⟨hne, ?_, ?_⟩
  · rw [htext, ← hout', hout]
  · rw [← hrest, hin]

theorem decodeFile_record {rec : FileRecord} (hv : rec.Valid) (known : List Str)
    (tail : List Byte) :
    decodeFile known (rec.bytes ++ tail) =
      (decodeFile (known ++ lzwChunks [rec]) tail).map (rec.content known ++ ·) := by
  cases rec with
  | lzw chunk body =>
    have hbody : LzwBody chunk body := hv
    obtain ⟨hne, htext, hrest⟩ := hbody.text tail
    rw [FileRecord.bytes, List.append_assoc, decodeFile_header, if_pos (lzwHeader_even _),
      lzwHeader_size _ hbody.length, if_neg hne, htext, Option.bind_some, hrest]
    rfl
  | ref sent =>
    rw [FileRecord.bytes, decodeFile_header, if_neg (refHeader_odd sent),
      refHeader_location sent hv]
    simp [lzwChunks, FileRecord.content]

theorem decodeFile_records (rs : List FileRecord) (hv : ∀ rec ∈ rs, rec.Valid)
    (known : List Str) (tail : List Byte) :
    decodeFile known (fileBytes rs ++ tail) =
      (decodeFile (known ++ lzwChunks rs) tail).map (contents known rs ++ ·) := by
  induction rs generalizing known with
  | nil => simp [fileBytes, lzwChunks, contents]
  | cons rec rs ih =>
    have hsplit : lzwChunks (rec :: rs) = lzwChunks [rec] ++ lzwChunks rs :=
      lzwChunks_append [rec] rs
    have hrest := ih (fun r hr => hv r (List.mem_cons_of_mem _ hr)) (known ++ lzwChunks [rec])
    rw [fileBytes, List.flatMap_cons, List.append_assoc,
      decodeFile_record (hv rec List.mem_cons_self)]
    rw [fileBytes] at hrest
    rw [hrest, Option.map_map, contents, hsplit, List.append_assoc]
    simp only [Function.comp_def, List.append_assoc]

/-- Bytes behind valid records do not change what the records are decoded to, less than
four of them are ignored, and the others are read as records that follow. -/
theorem decoderMain_tail (rs : List FileRecord) (hv : ∀ rec ∈ rs, rec.Valid) (tail : List Byte)
    (fuel : ℕ) (hfuel : 2^31+(fileBytes rs ++ tail).length ≤ fuel) :
    decoderMain fuel (fileBytes rs ++ tail) =
        (decodeFile (lzwChunks rs) tail).map (contents [] rs ++ ·) ∧
      (tail.length < 4 → decoderMain fuel (fileBytes rs ++ tail) = some (contents [] rs)) := by
  have hmain := (decoderMain_eq_decodeFile (fileBytes rs ++ tail)).1 fuel hfuel
  rw [decodeFile_records rs hv, List.nil_append] at hmain
  refine ⟨hmain, ?_⟩
  intro hshort
  rw [hmain, decodeFile_short _ _ hshort, Option.map_some, List.append_nil]

/-- The chunk `ab`, and behind it a reference to it and one more byte. -/
theorem decoderMain_tail_ab :
    decoderMain (2^31+13)
        (fileBytes [.lzw [97, 98] [3, 8, 24, 128]] ++ [1, 0, 0, 0, 7]) =
      some [97, 98, 97, 98] := by
  have hbytes : (lzw 0 1 [97, 98] (List.replicate 5 0)).map
      (fun o => (o.outputCode, o.outlen)) = some ([3, 8, 24, 128, 0], 4) := by decide +kernel
  obtain ⟨⟨out, outlen⟩, hlzw, heq⟩ := Option.map_eq_some_iff.mp hbytes
  obtain ⟨rfl, rfl⟩ := Prod.mk.inj heq
  have hbody := lzwBody_of_lzw (by decide) (by decide) hlzw (lzwCodes_lt _ (by decide))
  have hv : ∀ rec ∈ [FileRecord.lzw [97, 98] [3, 8, 24, 128]], rec.Valid := by
    intro rec hrec
    rw [List.mem_singleton.mp hrec]
    exact hbody
  have htail : decodeFile [[97, 98]] [1, 0, 0, 0, 7] = some [97, 98] := by
    rw [decodeFile, decodeFile_short _ [7] (by decide)]
    decide
  rw [(decoderMain_tail _ hv [1, 0, 0, 0, 7] _ (by decide)).1]
  exact congrArg (Option.map _) htail

end Sync532
