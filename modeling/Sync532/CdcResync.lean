import Sync532.CdcScan

namespace Sync532

theorem windowSum_append (X S : List Byte) (k : ℕ) :
    windowSum (X ++ S) (X.length+k) = windowSum S k := by
  unfold windowSum
  apply Finset.sum_congr rfl
  intro j hj
  have hlt : j < winSize := Finset.mem_range.mp hj
  have hidx : X.length+k+winSize-1-j = X.length+(k+winSize-1-j) := by omega
  -- the window starts in `S`, so no byte of `X` is read
  rw [hidx, List.getD_eq_getElem?_getD, List.getD_eq_getElem?_getD,
    List.getElem?_append_right (by omega), Nat.add_sub_cancel_left]

theorem isCut_append (X S : List Byte) (k : ℕ) : isCut (X ++ S) (X.length+k) = isCut S k := by
  unfold isCut
  rw [windowSum_append]

/-- The ends in `S`, when at least a window of bytes stands in front of `S`. -/
def tailEnds (S : List Byte) : List ℕ :=
  ((List.range' 1 (S.length-(winSize+1))).filter (isCut S)).map (fun k => k-1) ++ [S.length-1]

theorem range'_filter_ge (a n m : ℕ) (ha : a ≤ m) :
    (List.range' a n).filter (m ≤ ·) = List.range' m (a+n-m) := by
  rcases Nat.lt_or_ge (a+n) m with h | h
  · rw [show a+n-m = 0 by omega, List.range'_zero, List.filter_eq_nil_iff]
    intro i hi
    have hmem := List.mem_range'_1.mp hi
    simp only [decide_eq_true_eq]
    omega
  · obtain ⟨c, rfl⟩ := Nat.exists_eq_add_of_le ha
    have hsplit : List.range' a n = List.range' a c ++ List.range' (a+c) (n-c) := by
      rw [List.range'_append_1, show c+(n-c) = n by omega]
    have hlow : (List.range' a c).filter (a+c ≤ ·) = [] := by
      apply List.filter_eq_nil_iff.mpr
      intro i hi
      have hmem := List.mem_range'_1.mp hi
      simp only [decide_eq_true_eq]
      omega
    have hhigh : (List.range' (a+c) (n-c)).filter (a+c ≤ ·) = List.range' (a+c) (n-c) := by
      apply List.filter_eq_self.mpr
      intro i hi
      exact decide_eq_true (List.mem_range'_1.mp hi).1
    rw [hsplit, List.filter_append, hlow, hhigh, List.nil_append,
      show a+n-(a+c) = n-c by omega]

/-- The windows behind the first byte of `S` are scanned in the same way for every
packet that ends with `S`. -/
theorem cutPositions_suffix (X S : List Byte) (hX : winSize ≤ X.length) :
    ((cutPositions (X ++ S) (X ++ S).length).filter (X.length ≤ ·)).map (· - X.length) =
      ((List.range' 1 (S.length-(winSize+1))).filter (isCut S)).map (fun k => k-1) := by
  have hpos : 0 < winSize := by decide
  -- position `i-1` lies in `S` exactly when the window at `i` starts behind its first byte
  have hfilter : (List.range' winSize ((X ++ S).length-2*winSize)).filter
      (fun i => X.length ≤ i-1) = List.range' (X.length+1) (S.length-(winSize+1)) := by
    have hle := range'_filter_ge winSize ((X ++ S).length-2*winSize) (X.length+1) (by omega)
    rw [List.length_append] at hle ⊢
    rw [show S.length-(winSize+1) = winSize+(X.length+S.length-2*winSize)-(X.length+1) by omega,
      ← hle]
    apply List.filter_congr
    intro i hi
    have hmem := List.mem_range'_1.mp hi
    exact decide_eq_decide.mpr (by omega)
  have hshift : List.range' (X.length+1) (S.length-(winSize+1)) =
      (List.range' 1 (S.length-(winSize+1))).map (X.length+·) := by
    rw [List.map_add_range']
  have hcut : isCut (X ++ S) ∘ (X.length+·) = isCut S := by
    apply funext
    intro k
    rw [Function.comp_apply, isCut_append]
  calc ((cutPositions (X ++ S) (X ++ S).length).filter (X.length ≤ ·)).map (· - X.length)
      = (((List.range' winSize ((X ++ S).length-2*winSize)).filter (isCut (X ++ S))).filter
          (fun i => X.length ≤ i-1)).map (fun i => i-1-X.length) := by
        rw [cutPositions, List.filter_map, List.map_map]
        rfl
    _ = (((List.range' winSize ((X ++ S).length-2*winSize)).filter
          (fun i => X.length ≤ i-1)).filter (isCut (X ++ S))).map (fun i => i-1-X.length) := by
        rw [List.filter_comm]
    _ = (((List.range' 1 (S.length-(winSize+1))).map (X.length+·)).filter
          (isCut (X ++ S))).map (fun i => i-1-X.length) := by
        rw [hfilter, hshift]
    _ = ((List.range' 1 (S.length-(winSize+1))).filter (isCut S)).map
          (fun k => X.length+k-1-X.length) := by
        rw [List.filter_map, hcut, List.map_map]
        rfl
    _ = ((List.range' 1 (S.length-(winSize+1))).filter (isCut S)).map (fun k => k-1) := by
        apply List.map_congr_left
        intro k hk
        have hmem := List.mem_range'_1.mp (List.mem_of_mem_filter hk)
        omega

theorem cdcEnds_suffix (X S : List Byte) (hX : winSize ≤ X.length) (hS : 1 ≤ S.length) :
    ((cdcEnds (X ++ S)).filter (X.length ≤ ·)).map (· - X.length) = tailEnds S := by
  have hlast : X.length ≤ (X ++ S).length-1 := by
    rw [List.length_append]
    omega
  unfold cdcEnds tailEnds
  have hkeep : [(X ++ S).length-1].filter (X.length ≤ ·) = [(X ++ S).length-1] :=
    List.filter_eq_self.mpr (by simpa using hlast)
  rw [List.filter_append, List.map_append, cutPositions_suffix X S hX, hkeep, List.map_singleton,
    List.length_append, show X.length+S.length-1-X.length = S.length-1 by omega]

/-- The entries of `chunk_q` in front of the first -1. -/
def reportedEnds (chunkQ : List ℤ) : List ℤ := chunkQ.takeWhile (· ≠ -1)

/-- The reported ends at or behind position `start`, counted from there. -/
def endsFrom (start : ℕ) (chunkQ : List ℤ) : List ℤ :=
  ((reportedEnds chunkQ).filter ((start : ℤ) ≤ ·)).map (· - (start : ℤ))

theorem reportedEnds_asInts (ends : List ℕ) (rest : List ℤ) :
    reportedEnds (asInts ends ++ -1 :: rest) = asInts ends := by
  have hall : ∀ e ∈ asInts ends, decide (e ≠ -1) = true := by
    intro e he
    obtain ⟨n, -, rfl⟩ := List.mem_map.mp he
    exact decide_eq_true (by omega)
  unfold reportedEnds
  rw [List.takeWhile_append_of_pos hall, List.takeWhile_cons_of_neg (by decide), List.append_nil]

theorem endsFrom_asInts (start : ℕ) (ends : List ℕ) (rest : List ℤ) :
    endsFrom start (asInts ends ++ -1 :: rest) =
      asInts ((ends.filter (start ≤ ·)).map (· - start)) := by
  have hpred : (fun e : ℤ => decide ((start : ℤ) ≤ e)) ∘ (Nat.cast : ℕ → ℤ) =
      fun e => decide (start ≤ e) := by
    ext e
    simp only [Function.comp_apply, Nat.cast_le]
  unfold endsFrom
  rw [reportedEnds_asInts]
  unfold asInts
  rw [List.filter_map, hpred, List.map_map, List.map_map]
  apply List.map_congr_left
  intro e he
  have hle : start ≤ e := of_decide_eq_true (List.mem_filter.mp he).2
  exact (Nat.cast_sub hle).symm

/-- What `cdc` reports behind a first part of at least a window is decided by the
rest of the packet. -/
theorem cdc_endsFrom (X S : List Byte) (hX : winSize ≤ X.length) (hS : 1 ≤ S.length)
    (hint : (X ++ S).length < 2^31) :
    ∃ chunkQ, cdc (X ++ S) (BitVec.ofNat 32 (X ++ S).length)
        (List.replicate (X ++ S).length (-1)) = some chunkQ ∧
      endsFrom X.length chunkQ = asInts (tailEnds S) := by
  have h16 : winSize ≤ (X ++ S).length := by
    rw [List.length_append]
    omega
  refine ⟨_, cdc_filled (X ++ S) h16 hint, ?_⟩
  rw [endsFrom_asInts, cdcEnds_suffix X S hX hS]

/-- The ends in a tail, counted from its start, are the same behind any two prefixes. -/
theorem cdc_resync (X Y S : List Byte) (hX : 16 ≤ X.length) (hY : 16 ≤ Y.length)
    (hS : 1 ≤ S.length) (hXS : (X ++ S).length < 2^31) (hYS : (Y ++ S).length < 2^31) :
    ∃ qX qY, cdc (X ++ S) (BitVec.ofNat 32 (X ++ S).length)
        (List.replicate (X ++ S).length (-1)) = some qX ∧
      cdc (Y ++ S) (BitVec.ofNat 32 (Y ++ S).length)
        (List.replicate (Y ++ S).length (-1)) = some qY ∧
      endsFrom X.length qX = endsFrom Y.length qY ∧
      endsFrom Y.length qY = asInts (tailEnds S) := by
  obtain ⟨qX, hqX, hendsX⟩ := cdc_endsFrom X S hX hS hXS
  obtain ⟨qY, hqY, hendsY⟩ := cdc_endsFrom Y S hY hS hYS
  exact ⟨qX, qY, hqX, hqY, hendsX.trans hendsY.symm, hendsY⟩

/-- 16 ones in front of 20 zeros, and 17 in front of them. -/
theorem cdc_resync_zeros :
    ∃ qX qY, cdc (List.replicate 16 1 ++ List.replicate 20 0) 36 (List.replicate 36 (-1)) =
      some qX ∧
      cdc (List.replicate 17 1 ++ List.replicate 20 0) 37 (List.replicate 37 (-1)) = some qY ∧
      endsFrom 16 qX = endsFrom 17 qY ∧
      endsFrom 17 qY = asInts (tailEnds (List.replicate 20 0)) :=
  cdc_resync (List.replicate 16 1) (List.replicate 17 1) (List.replicate 20 0) (by decide)
    (by decide) (by decide) (by decide) (by decide)

end Sync532
