import Sync532.CdcScan
import Sync532.WhileFuel

namespace Sync532

/-- The ends that `cdc0` stores. They do not depend on the bytes: the hash loop starts at `j=i`,
where `i` is at least `WIN_SIZE`, so it adds nothing up. -/
def streamEnds (n : ℕ) : List ℕ :=
  (List.range' winSize (n-2*winSize)).map (fun i => i-1) ++ [n-1]

/-- The array of `exec` has its size, and `left` bytes are still in the stream. -/
structure ExecState.Ready (s : ExecState) (left : ℕ) (out : List ℤ) : Prop where
  size : s.buff.length = winSize
  left : s.buffstream.length = left
  out : s.out = out

theorem readInto_ready {s : ExecState} {left : ℕ} {out : List ℤ} (h : s.Ready (left+1) out)
    (k : ℕ) (hk : k < winSize) : ∃ s', s.readInto k = some s' ∧ s'.Ready left out := by
  obtain ⟨b, rest, hstream⟩ := List.exists_cons_of_length_eq_add_one h.left
  have hleft := h.left
  rw [hstream, List.length_cons] at hleft
  refine ⟨⟨s.buff.set k b, s.offset, rest, s.out⟩, ?_, ?_⟩
  · simp only [ExecState.readInto, hstream]
    rw [store_of_lt _ _ _ (by rw [h.size]; exact hk), Option.map_some]
  · exact ⟨by rw [List.length_set, h.size], Nat.succ_inj.mp hleft, h.out⟩

theorem fill_ready {s : ExecState} {left : ℕ} {out : List ℤ} (n : ℕ) (hn : n ≤ winSize)
    (h : s.Ready (left+n) out) :
    ∃ s', (List.range n).foldlM ExecState.readInto s = some s' ∧ s'.Ready left out := by
  have hstep (i : ℕ) (_ : 0 ≤ i) (hi : i < 0+n) (s : ExecState)
      (hs : s.Ready (left+(n-i)) out) :
      ∃ s', s.readInto i = some s' ∧ s'.Ready (left+(n-(i+1))) out := by
    rw [show left+(n-i) = left+(n-(i+1))+1 by omega] at hs
    exact readInto_ready hs i (by omega)
  obtain ⟨s', hrun, hs'⟩ := foldlM_range'_inv hstep s h
  rw [zero_add, Nat.sub_self] at hs'
  rw [List.range_eq_range']
  exact ⟨s', hrun, hs'⟩

/-- From `WIN_SIZE` on the hash loop has no iteration. -/
theorem execHash_eq_zero (buff : List Byte) (i : ℕ) (hi : winSize ≤ i) :
    execHash buff i = some 0 := by
  rw [execHash, Nat.sub_eq_zero_of_le hi]
  rfl

theorem execStep_ready {s : ExecState} {left : ℕ} {out : List ℤ} (h : s.Ready (left+1) out)
    (i : ℕ) (hi : winSize ≤ i) :
    ∃ s', execStep s i = some s' ∧
      s'.Ready left (out ++ [endBefore (BitVec.ofNat 32 i)]) := by
  have hk : (i+s.offset)%winSize < winSize := Nat.mod_lt _ (by decide)
  obtain ⟨t, ht, hready⟩ := readInto_ready h _ hk
  refine ⟨⟨t.buff, (t.offset+1)%winSize, t.buffstream,
    t.out ++ [endBefore (BitVec.ofNat 32 i)]⟩,
    ?_, hready.size, hready.left, by rw [hready.out]⟩
  simp only [execStep, ht, execHash_eq_zero t.buff i hi, Option.bind_eq_bind, Option.bind_some]
  rfl

theorem exec_stream (stream : List Byte) (hlen : 2*winSize ≤ stream.length)
    (hint : stream.length < 2^31) :
    exec stream (BitVec.ofNat 32 stream.length) =
      some (asInts (streamEnds stream.length) ++ [-1]) := by
  have hpos : 0 < winSize := by decide
  have hstart : ExecState.Ready ⟨List.replicate winSize 0, winSize-1, stream, []⟩
      (stream.length-winSize+winSize) [] :=
    ⟨List.length_replicate, by simp only; omega, rfl⟩
  -- the two filling loops take all but the bytes of the main loop
  obtain ⟨s₁, hrun₁, hs₁⟩ := fill_ready winSize le_rfl hstart
  rw [show stream.length-winSize = stream.length-2*winSize+1+(winSize-1) by omega] at hs₁
  obtain ⟨s₂, hrun₂, hs₂⟩ := fill_ready (winSize-1) (by omega) hs₁
  -- in front of index `i` the positions up to `i-2` are written, and the stream still has
  -- one byte for each index that is left
  let written (i : ℕ) : List ℤ := asInts ((List.range' winSize (i-winSize)).map (fun i => i-1))
  have hstep (i : ℕ) (hi : winSize ≤ i) (hlt : i < winSize+(stream.length-2*winSize))
      (s : ExecState) (hs : s.Ready (stream.length-winSize-i+1) (written i)) :
      ∃ s', execStep s i = some s' ∧
        s'.Ready (stream.length-winSize-(i+1)+1) (written (i+1)) := by
    obtain ⟨s', hs', hready⟩ := execStep_ready hs i hi
    have hnext : written (i+1) = written i ++ [endBefore (BitVec.ofNat 32 i)] := by
      rw [endBefore_ofNat i (by omega) (by omega)]
      simp only [written]
      rw [Nat.succ_sub hi, List.range'_1_concat, show winSize+(i-winSize) = i by omega]
      simp only [asInts, List.map_append, List.map_cons, List.map_nil]
    refine ⟨s', hs', hready.size, ?_, hready.out.trans hnext.symm⟩
    have hleft := hready.left
    omega
  have hs₂' : s₂.Ready (stream.length-winSize-winSize+1) (written winSize) := by
    simp only [written, Nat.sub_self]
    exact ⟨hs₂.size, by rw [hs₂.left]; omega, hs₂.out⟩
  obtain ⟨s₃, hrun₃, hs₃⟩ := foldlM_range'_inv hstep s₂ hs₂'
  rw [exec, scanLimit_ofNat _ (by omega) (by omega), endBefore_ofNat _ (by omega) hint, hrun₁]
  simp only [Option.bind_eq_bind, Option.bind_some, hrun₂]
  rw [show stream.length-winSize-winSize = stream.length-2*winSize by omega, hrun₃,
    Option.bind_some,
    hs₃.out]
  simp only [written, streamEnds, Nat.add_sub_cancel_left, asInts, List.map_append, List.map_cons,
    List.map_nil, List.append_assoc, List.cons_append, List.nil_append]

theorem readStage_eq (buff : List Byte) (hlen : buff.length < 2^32) :
    readStage buff (BitVec.ofNat 32 buff.length) = some buff := by
  have hsize : (BitVec.ofNat 32 buff.length).toNat = buff.length := by
    rw [BitVec.toNat_ofNat, Nat.mod_eq_of_lt hlen]
  have hbegin (n : ℕ) (hn : n ≤ buff.length) :
      (List.range n).mapM (fun i => buff[i]?) = some (buff.take n) := by
    induction n with
    | zero => simp
    | succ n ih =>
      rw [List.range_succ, List.mapM_append, ih (by omega), List.take_add_one]
      simp [List.getElem?_eq_getElem (show n < buff.length by omega)]
  rw [readStage, hsize, hbegin _ le_rfl, List.take_length]

theorem asInts_cons (e : ℕ) (ends : List ℕ) :
    asInts (e :: ends) = (e : ℤ) :: asInts ends := rfl

theorem asInts_append_singleton (ends : List ℕ) (e : ℕ) :
    asInts (ends ++ [e]) = asInts ends ++ [(e : ℤ)] := List.map_append

theorem writeStage_ends (chunkQ : List ℤ) (done ends : List ℕ)
    (hroom : done.length+ends.length ≤ chunkQ.length) :
    writeStage (asInts done ++ chunkQ.drop done.length) done.length (asInts ends ++ [-1]) =
      some (asInts (done ++ ends) ++ chunkQ.drop (done ++ ends).length) := by
  induction ends generalizing done with
  | nil => simp [asInts, writeStage]
  | cons e ends ih =>
    have hlen : (asInts done).length = done.length := List.length_map _
    have he : (e : ℤ) ≠ -1 := by omega
    rw [List.length_cons] at hroom
    have hstore := store_over (asInts done) chunkQ (e : ℤ) (by omega)
    have hrest := ih (done ++ [e]) (by rw [List.length_append, List.length_singleton]; omega)
    rw [hlen] at hstore
    rw [asInts_append_singleton, List.length_append, List.length_singleton, List.append_assoc done]
      at hrest
    rw [asInts_cons, List.cons_append, writeStage, if_neg he, hstore]
    exact hrest

theorem cdc0_entries (buff : List Byte) (chunkQ : List ℤ) (h32 : 2*winSize ≤ buff.length)
    (hint : buff.length < 2^31) (hroom : buff.length ≤ chunkQ.length) :
    cdc0 buff (BitVec.ofNat 32 buff.length) chunkQ =
      some (asInts (streamEnds buff.length) ++ chunkQ.drop (streamEnds buff.length).length) := by
  have hcount : (streamEnds buff.length).length = buff.length-2*winSize+1 := by
    simp [streamEnds]
  have hpos : 0 < winSize := by decide
  have hwrite := writeStage_ends chunkQ [] (streamEnds buff.length)
    (by rw [hcount, List.length_nil]; omega)
  rw [cdc0, readStage_eq buff (by omega)]
  simp only [Option.bind_eq_bind, Option.bind_some, exec_stream buff h32 hint]
  exact hwrite

theorem eq_of_closed_append {α : Type*} [DecidableEq α] {xs ys rest rest' : List α} {e : α}
    (hx : e ∉ xs) (hy : e ∉ ys) (h : xs ++ e :: rest = ys ++ e :: rest') : xs = ys := by
  have htake (zs rest : List α) (hz : e ∉ zs) : (zs ++ e :: rest).takeWhile (· ≠ e) = zs := by
    have hbefore : ∀ z ∈ zs, decide (z ≠ e) = true := by
      intro z hmem
      exact decide_eq_true (fun he => hz (he ▸ hmem))
    rw [List.takeWhile_append_of_pos hbefore]
    simp
  rw [← htake xs rest hx, ← htake ys rest' hy, h]

/-- The same ends come out exactly when every window asks for a cut. -/
theorem cdcEnds_eq_streamEnds_iff (buff : List Byte) :
    cdcEnds buff = streamEnds buff.length ↔
      ∀ i, winSize ≤ i → i < buff.length-winSize → modulus ∣ windowSum buff i := by
  have hpos : 0 < winSize := by decide
  constructor
  · intro h i h1 h2
    have hlen := congrArg List.length (List.append_cancel_right h)
    rw [cutPositions, List.length_map, List.length_map, List.length_filter_eq_length_iff] at hlen
    exact (isCut_iff buff i).mp (hlen i (List.mem_range'_1.mpr ⟨h1, by omega⟩))
  · intro h
    rw [cdcEnds, cutPositions, streamEnds, List.filter_eq_self.mpr]
    intro i hi
    obtain ⟨h1, h2⟩ := List.mem_range'_1.mp hi
    exact (isCut_iff buff i).mpr (h i h1 (by omega))

/-- `cdc0` and `cdc` leave the same `chunk_q` exactly on the buffers in which
every window asks for a cut. -/
theorem cdc0_eq_cdc_iff (buff : List Byte) (chunkQ : List ℤ) (h32 : 32 ≤ buff.length)
    (hint : buff.length < 2^31) (hroom : buff.length ≤ chunkQ.length) :
    (∃ q, cdc0 buff (BitVec.ofNat 32 buff.length) chunkQ = some q ∧
      cdc buff (BitVec.ofNat 32 buff.length) chunkQ = some q) ↔
      ∀ i, 16 ≤ i → i < buff.length-16 → 256 ∣ windowSum buff i := by
  have hplain := cdc_entries buff chunkQ (by unfold winSize; omega) hint hroom
  have hstream := cdc0_entries buff chunkQ h32 hint hroom
  have hiff := cdcEnds_eq_streamEnds_iff buff
  rw [hplain, hstream]
  constructor
  · rintro ⟨q, hs, hp⟩
    apply hiff.mp
    have hq := (Option.some.inj hp).trans (Option.some.inj hs).symm
    -- the last end stands in neither list before its own place
    have hlast (is : List ℕ) (his : ∀ i ∈ is, winSize ≤ i ∧ i < buff.length-winSize) :
        ((buff.length-1 : ℕ) : ℤ) ∉ asInts (is.map (fun i => i-1)) := by
      intro hmem
      obtain ⟨p, hp, he⟩ := List.mem_map.mp hmem
      obtain ⟨i, hi, rfl⟩ := List.mem_map.mp hp
      have := his i hi
      unfold winSize at this
      omega
    have hrange : ∀ i ∈ List.range' winSize (buff.length-2*winSize),
        winSize ≤ i ∧ i < buff.length-winSize := by
      intro i hi
      obtain ⟨h1, h2⟩ := List.mem_range'_1.mp hi
      exact ⟨h1, by omega⟩
    rw [cdcEnds, streamEnds, asInts_append_singleton, asInts_append_singleton, List.append_assoc,
      List.append_assoc] at hq
    have hcuts := eq_of_closed_append
      (hlast _ (fun i hi => hrange i (List.mem_of_mem_filter hi))) (hlast _ hrange) hq
    rw [cdcEnds, streamEnds]
    exact congrArg (· ++ [buff.length-1]) (List.map_injective_iff.mpr Nat.cast_injective hcuts)
  · intro h
    rw [hiff.mpr h]
    exact ⟨_, rfl, rfl⟩

/-- On 33 bytes of value one, whose only window has the sum 64570080, `cdc` stores
one end and `cdc0` stores two. -/
theorem cdc0_ne_cdc_ones :
    cdc (List.replicate 33 1) 33 (List.replicate 33 (-1)) = some (32 :: List.replicate 32 (-1)) ∧
      cdc0 (List.replicate 33 1) 33 (List.replicate 33 (-1)) =
        some (15 :: 32 :: List.replicate 31 (-1)) ∧
      ¬∃ q, cdc0 (List.replicate 33 1) 33 (List.replicate 33 (-1)) = some q ∧
        cdc (List.replicate 33 1) 33 (List.replicate 33 (-1)) = some q := by
  have hplain : cdc (List.replicate 33 1) 33 (List.replicate 33 (-1)) =
      some (32 :: List.replicate 32 (-1)) := by decide
  have hstream : cdc0 (List.replicate 33 1) 33 (List.replicate 33 (-1)) =
      some (15 :: 32 :: List.replicate 31 (-1)) := by decide
  refine ⟨hplain, hstream, ?_⟩
  rintro ⟨q, hs, hp⟩
  rw [hstream] at hs
  rw [hplain, ← hs] at hp
  exact absurd hp (by decide)

/-- Two windows, and both ask for a cut. -/
theorem cdc0_eq_cdc_34 :
    ∃ q, cdc0 (List.replicate 34 0) 34 (List.replicate 34 (-1)) = some q ∧
      cdc (List.replicate 34 0) 34 (List.replicate 34 (-1)) = some q := by
  apply (cdc0_eq_cdc_iff (List.replicate 34 0) (List.replicate 34 (-1)) (by decide) (by decide)
    (by decide)).mpr
  intro i h1 h2
  rw [List.length_replicate] at h2
  interval_cases i <;> decide

end Sync532
