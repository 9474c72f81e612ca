import Sync532.CdcModel
import Sync532.Segments

namespace Sync532
open scoped BigOperators

/-- The sum that `cdc` compares at `i`, for the bytes `i .. i+15`. -/
def windowSum (buff : List Byte) (i : ℕ) : ℕ :=
  ∑ j ∈ Finset.range winSize, hashTerm (buff.getD (i+winSize-1-j) 0) j

theorem foldlM_add_terms (read : ℕ → Option Byte) (term : ℕ → Byte) (n : ℕ)
    (h : ∀ j < n, read j = some (term j)) :
    (List.range n).foldlM (fun hash j => (read j).map (fun b => hash+hashTerm b j)) 0 =
      some (∑ j ∈ Finset.range n, hashTerm (term j) j) := by
  induction n with
  | zero => rfl
  | succ n ih =>
    have hprev := ih (fun j hj => h j (by omega))
    rw [List.range_succ, List.foldlM_append, hprev, Finset.sum_range_succ]
    simp [h n (by omega)]

theorem windowHash_eq (buff : List Byte) (i : ℕ) (hi : i+winSize ≤ buff.length) :
    windowHash buff i = some (windowSum buff i) := by
  apply foldlM_add_terms
  intro j hj
  have hlt : i+winSize-1-j < buff.length := by unfold winSize at *; omega
  rw [List.getD_eq_getElem?_getD, List.getElem?_eq_getElem hlt, Option.getD_some]

/-- The sums are far below the first integer that a double cannot hold. -/
theorem partial_sum_lt (buff : List Byte) (i n : ℕ) (hn : n ≤ winSize) :
    ∑ j ∈ Finset.range n, hashTerm (buff.getD (i+winSize-1-j) 0) j < 2^53 := by
  have hterm (j : ℕ) : hashTerm (buff.getD (i+winSize-1-j) 0) j ≤ 255*prime^(j+1) := by
    have hb := (buff.getD (i+winSize-1-j) 0).isLt
    exact Nat.mul_le_mul_right _ (by omega)
  calc ∑ j ∈ Finset.range n, hashTerm (buff.getD (i+winSize-1-j) 0) j
      ≤ ∑ j ∈ Finset.range n, 255*prime^(j+1) := Finset.sum_le_sum (fun j _ => hterm j)
    _ ≤ ∑ j ∈ Finset.range winSize, 255*prime^(j+1) :=
      Finset.sum_le_sum_of_subset (Finset.range_subset_range.mpr hn)
    _ < 2^53 := by decide

def isCut (buff : List Byte) (i : ℕ) : Bool := windowSum buff i%modulus = target

theorem isCut_iff (buff : List Byte) (i : ℕ) :
    isCut buff i = true ↔ modulus ∣ windowSum buff i := by
  rw [isCut, decide_eq_true_eq]
  exact (Nat.dvd_iff_mod_eq_zero ..).symm

/-- The positions in front of the windows that ask for a cut. -/
def cutPositions (buff : List Byte) (n : ℕ) : List ℕ :=
  ((List.range' winSize (n-2*winSize)).filter (isCut buff)).map (fun i => i-1)

/-- The ends of the chunks of a packet. -/
def cdcEnds (buff : List Byte) : List ℕ := cutPositions buff buff.length ++ [buff.length-1]

def asInts (ends : List ℕ) : List ℤ := ends.map Nat.cast

theorem endBefore_ofNat (i : ℕ) (hpos : 0 < i) (hi : i < 2^31) :
    endBefore (BitVec.ofNat 32 i) = ((i-1 : ℕ) : ℤ) := by
  have hsub : (BitVec.ofNat 32 i-1).toNat = i-1 := by
    have hone : (1 : BitVec 32).toNat = 1 := rfl
    rw [BitVec.toNat_sub, BitVec.toNat_ofNat, hone]
    omega
  rw [endBefore, BitVec.toInt_eq_toNat_of_lt (by omega), hsub]

theorem scanLimit_ofNat (n : ℕ) (h16 : winSize ≤ n) (hn : n < 2^32) :
    scanLimit (BitVec.ofNat 32 n) = n-winSize := by
  unfold winSize at *
  rw [scanLimit, BitVec.toNat_sub, BitVec.toNat_ofNat]
  simp only [winSize, BitVec.toNat_ofNat]
  omega

/-- Below one window the bound of the scanning loop wraps around. -/
theorem scanLimit_short (n : ℕ) (hn : n < winSize) :
    scanLimit (BitVec.ofNat 32 n) = 2^32+n-winSize := by
  unfold winSize at *
  rw [scanLimit, BitVec.toNat_sub, BitVec.toNat_ofNat]
  simp only [winSize, BitVec.toNat_ofNat]
  omega

theorem push_entries (ends : List ℕ) (chunkQ : List ℤ) (e : ℕ)
    (hroom : ends.length < chunkQ.length) :
    CdcState.push ⟨ends.length, asInts ends ++ chunkQ.drop ends.length⟩ e =
      some ⟨(ends ++ [e]).length,
        asInts (ends ++ [e]) ++ chunkQ.drop (ends ++ [e]).length⟩ := by
  have hlen : (asInts ends).length = ends.length := List.length_map _
  have hstore := store_over (asInts ends) chunkQ (e : ℤ) (by rwa [hlen])
  rw [hlen] at hstore
  have happend : asInts (ends ++ [e]) = asInts ends ++ [(e : ℤ)] := List.map_append
  rw [CdcState.push, hstore, Option.map_some, happend, List.length_append, List.length_singleton]

theorem length_cutPositions_le (buff : List Byte) (n : ℕ) :
    (cutPositions buff n).length ≤ n-2*winSize := by
  unfold cutPositions
  rw [List.length_map]
  exact (List.length_filter_le _ _).trans (by rw [List.length_range'])

theorem scan_entries (buff : List Byte) (chunkQ : List ℤ) (m : ℕ)
    (hbuff : m+2*winSize ≤ buff.length) (hint : buff.length < 2^31)
    (hroom : m ≤ chunkQ.length) :
    (List.range' winSize m).foldlM (cdcStep buff) ⟨0, chunkQ⟩ =
      some ⟨(cutPositions buff (m+2*winSize)).length,
        asInts (cutPositions buff (m+2*winSize)) ++
          chunkQ.drop (cutPositions buff (m+2*winSize)).length⟩ := by
  induction m with
  | zero => rfl
  | succ m ih =>
    have hcount := length_cutPositions_le buff (m+2*winSize)
    -- one more window adds its position, or nothing
    have hcut : cutPositions buff (m+1+2*winSize) = cutPositions buff (m+2*winSize) ++
        (if isCut buff (winSize+m) = true then [winSize+m-1] else []) := by
      unfold cutPositions
      rw [show m+1+2*winSize-2*winSize = m+1 by omega, show m+2*winSize-2*winSize = m by omega,
        List.range'_1_concat, List.filter_append, List.map_append]
      split_ifs with hb <;> simp [hb]
    rw [List.range'_1_concat, List.foldlM_append, ih (by omega) (by omega)]
    simp only [Option.bind_eq_bind, Option.bind_some, List.foldlM_cons, List.foldlM_nil,
      Option.pure_def, Option.bind_fun_some, cdcStep]
    have htest : windowSum buff (winSize+m)%modulus = target ↔ isCut buff (winSize+m) = true :=
      decide_eq_true_iff.symm
    rw [windowHash_eq buff _ (by omega), Option.bind_some, hcut]
    simp only [htest]
    split_ifs with hb
    · rw [endBefore_ofNat _ (by unfold winSize; omega) (by omega)]
      exact push_entries _ _ _ (by omega)
    · rw [List.append_nil]

/-- What `cdc` stores, over any content of `chunk_q`. -/
theorem cdc_entries (buff : List Byte) (chunkQ : List ℤ) (h16 : winSize ≤ buff.length)
    (hint : buff.length < 2^31) (hroom : buff.length ≤ chunkQ.length) :
    cdc buff (BitVec.ofNat 32 buff.length) chunkQ =
      some (asInts (cdcEnds buff) ++ chunkQ.drop (cdcEnds buff).length) := by
  have hpos : 0 < winSize := by decide
  have hcount := length_cutPositions_le buff buff.length
  have hscan :
      (List.range' winSize (buff.length-winSize-winSize)).foldlM (cdcStep buff) ⟨0, chunkQ⟩ =
      some ⟨(cutPositions buff buff.length).length, asInts (cutPositions buff buff.length) ++
        chunkQ.drop (cutPositions buff buff.length).length⟩ := by
    -- below two windows the loop has no iteration
    rcases Nat.lt_or_ge buff.length (2*winSize) with hlt | hge
    · have hnone : cutPositions buff buff.length = [] := by
        rw [← List.length_eq_zero_iff]
        omega
      rw [hnone, show buff.length-winSize-winSize = 0 by omega]
      rfl
    · have hs := scan_entries buff chunkQ (buff.length-2*winSize) (by omega) hint (by omega)
      rwa [show buff.length-2*winSize+2*winSize = buff.length by omega,
        show buff.length-2*winSize = buff.length-winSize-winSize by omega] at hs
  rw [cdc, scanLimit_ofNat _ h16 (by omega), hscan, endBefore_ofNat _ (by omega) hint]
  simp only [Option.bind_eq_bind, Option.bind_some]
  rw [push_entries _ _ _ (by omega)]
  rfl

theorem mem_cdcEnds (buff : List Byte) (p : ℕ) :
    p ∈ cdcEnds buff ↔
      (∃ i, winSize ≤ i ∧ i < buff.length-winSize ∧
        modulus ∣ windowSum buff i ∧ p = i-1) ∨
        p = buff.length-1 := by
  have hpos : 0 < winSize := by decide
  simp only [cdcEnds, cutPositions, List.mem_append, List.mem_map, List.mem_filter,
    List.mem_range'_1, isCut_iff, List.mem_singleton]
  constructor
  · rintro (⟨i, ⟨hi, hb⟩, rfl⟩ | rfl)
    · exact Or.inl ⟨i, hi.1, by omega, hb, rfl⟩
    · exact Or.inr rfl
  · rintro (⟨i, h1, h2, hb, rfl⟩ | rfl)
    · exact Or.inl ⟨i, ⟨⟨h1, by omega⟩, hb⟩, rfl⟩
    · exact Or.inr rfl

theorem lt_of_mem_cdcEnds (buff : List Byte) (h16 : winSize ≤ buff.length) :
    ∀ e ∈ cdcEnds buff, e < buff.length := by
  have hpos : 0 < winSize := by decide
  intro e he
  rcases (mem_cdcEnds buff e).mp he with ⟨i, -, h2, -, rfl⟩ | rfl <;> omega

theorem cdcEnds_increasing (buff : List Byte) : CutsFrom 0 (cdcEnds buff) := by
  refine ⟨fun e _ => Nat.zero_le e, ?_⟩
  have hpos : 0 < winSize := by decide
  have hrange : (List.range' winSize (buff.length-2*winSize)).Pairwise (· < ·) :=
    List.pairwise_lt_range'
  have hfilter := hrange.filter (isCut buff)
  -- the last entry lies behind every window that is scanned
  refine List.pairwise_append.mpr ⟨?_, List.pairwise_singleton _ _, ?_⟩
  · refine List.pairwise_map.mpr (hfilter.imp_of_mem ?_)
    intro a b ha hb hab
    have hmem := List.mem_range'_1.mp (List.mem_of_mem_filter ha)
    omega
  · intro a ha b hb
    obtain ⟨i, hi, rfl⟩ := List.mem_map.mp ha
    have hmem := List.mem_range'_1.mp (List.mem_of_mem_filter hi)
    rw [List.mem_singleton.mp hb]
    omega

theorem length_cdcEnds_lt (buff : List Byte) (h16 : winSize ≤ buff.length) :
    (cdcEnds buff).length < buff.length := by
  have hcount := length_cutPositions_le buff buff.length
  rw [cdcEnds, List.length_append, List.length_singleton]
  unfold winSize at *
  omega

/-- `cdc` on a `chunk_q` that is filled with -1: one of them stands behind the ends. -/
theorem cdc_filled (buff : List Byte) (h16 : winSize ≤ buff.length) (hint : buff.length < 2^31) :
    cdc buff (BitVec.ofNat 32 buff.length) (List.replicate buff.length (-1)) =
      some (asInts (cdcEnds buff) ++
        -1 :: List.replicate (buff.length-(cdcEnds buff).length-1) (-1)) := by
  have hlt := length_cdcEnds_lt buff h16
  have hroom : 1 ≤ buff.length-(cdcEnds buff).length := by omega
  rw [cdc_entries buff _ h16 hint (by rw [List.length_replicate]), List.drop_replicate,
    ← List.replicate_succ, Nat.sub_add_cancel hroom]

/-- `cdc` reads behind a packet that is shorter than a window. -/
theorem cdc_short (buff : List Byte) (chunkQ : List ℤ) (h : buff.length < winSize) :
    cdc buff (BitVec.ofNat 32 buff.length) chunkQ = none := by
  have hlimit := scanLimit_short buff.length h
  unfold winSize at h hlimit
  obtain ⟨n, hn⟩ : ∃ n, scanLimit (BitVec.ofNat 32 buff.length)-winSize = n+1 :=
    ⟨2^32+buff.length-33, by rw [hlimit, winSize]; omega⟩
  have hread : buff[winSize+winSize-1-0]? = none :=
    List.getElem?_eq_none (by simp only [winSize]; omega)
  have hhash : windowHash buff winSize = none := by
    have hrange : List.range winSize = 0 :: List.range' 1 15 := by decide
    rw [windowHash, hrange, List.foldlM_cons, hread]
    rfl
  rw [cdc, hn, List.range'_succ, List.foldlM_cons, cdcStep, hhash]
  rfl

theorem cdcEnds_partition (buff : List Byte) (h16 : winSize ≤ buff.length) :
    ExactPartition buff (segments 0 (cdcEnds buff)) := by
  apply CutsFrom.exactPartition
  · rintro rfl
    exact absurd h16 (by decide)
  · exact cdcEnds_increasing buff

theorem chunkLoop_cons {σ : Type*} (body : σ → ℕ → ℤ → ℤ → Option σ) (e : ℕ)
    (ends : List ℕ) (rest : List ℤ) (index start : ℕ) (s : σ) :
    chunkLoop body index ((start : ℤ)-1) (asInts (e :: ends) ++ rest) s =
      (body s index start e).bind
        (chunkLoop body (index+1) (((e+1 : ℕ) : ℤ)-1) (asInts ends ++ rest)) := by
  have he : (e : ℤ) ≠ -1 := by omega
  have hnext : (e : ℤ) = ((e+1 : ℕ) : ℤ)-1 := by omega
  rw [← hnext]
  simp only [asInts, List.map_cons, List.cons_append, chunkLoop, he, if_false, sub_add_cancel]

/-- The loop of `encode` on stored ends with a -1 behind them. -/
theorem chunkLoop_ends {σ : Type*} (body : σ → ℕ → ℤ → ℤ → Option σ)
    (ends : List ℕ) (rest : List ℤ) (index start : ℕ) (s : σ) :
    chunkLoop body index ((start : ℤ)-1) (asInts ends ++ -1 :: rest) s =
      ((segments start ends).zipIdx index).foldlM (fun s r => body s r.2 r.1.1 r.1.2) s := by
  induction ends generalizing index start s with
  | nil => simp [asInts, chunkLoop, segments]
  | cons e ends ih =>
    rw [chunkLoop_cons, segments, List.zipIdx_cons, List.foldlM_cons]
    exact congrArg _ (funext (ih (index+1) (e+1)))

theorem chunkLoop_map {σ τ : Type*} {body : σ → ℕ → ℤ → ℤ → Option σ}
    {body' : τ → ℕ → ℤ → ℤ → Option τ} (g : σ → τ)
    (h : ∀ s index first last, body' (g s) index first last = (body s index first last).map g)
    (q : List ℤ) (index : ℕ) (endPos : ℤ) (s : σ) :
    chunkLoop body' index endPos q (g s) = (chunkLoop body index endPos q s).map g := by
  induction q generalizing index endPos s with
  | nil => rfl
  | cons e q ih =>
    unfold chunkLoop
    split_ifs
    · rfl
    · rw [h]
      cases body s index (endPos+1) e with
      | none => rfl
      | some s' => exact ih (index+1) e s'

/-- The ranges that the loop takes from `chunk_q`. -/
def chunkRanges (chunkQ : List ℤ) : Option (List (ℤ × ℤ)) :=
  chunkLoop (fun rs _ first last => some (rs ++ [(first, last)])) 0 (-1) chunkQ []

theorem chunkRanges_ends (ends : List ℕ) (rest : List ℤ) :
    chunkRanges (asInts ends ++ -1 :: rest) =
      some ((segments 0 ends).map (fun r => ((r.1 : ℤ), (r.2 : ℤ)))) := by
  -- a body that only collects
  have hcollect (l : List ((ℕ × ℕ) × ℕ)) (acc : List (ℤ × ℤ)) :
      l.foldlM (fun rs r => some (rs ++ [((r.1.1 : ℤ), (r.1.2 : ℤ))])) acc =
        some (acc ++ l.map (fun r => ((r.1.1 : ℤ), (r.1.2 : ℤ)))) := by
    induction l generalizing acc with
    | nil => simp
    | cons r l ih => simp [ih]
  have hloop :=
    chunkLoop_ends (fun (rs : List (ℤ × ℤ)) _ first last => some (rs ++ [(first, last)]))
    ends rest 0 0 []
  rw [hcollect] at hloop
  rw [List.nil_append] at hloop
  refine hloop.trans (congrArg some ?_)
  have hzip : ((segments 0 ends).zipIdx 0).map (fun r => ((r.1.1 : ℤ), (r.1.2 : ℤ))) =
      (((segments 0 ends).zipIdx 0).map Prod.fst).map (fun r => ((r.1 : ℤ), (r.2 : ℤ))) := by
    rw [List.map_map]
    rfl
  rw [hzip, List.zipIdx_map_fst]

/-- `cdc` on a packet and a `chunk_q` filled with -1: the ends it stores, the -1
it leaves, and the ranges that the loop of `encode` takes from them. -/
theorem cdc_partition (buff : List Byte) (h16 : winSize ≤ buff.length)
    (hint : buff.length < 2^31) :
    ∃ chunkQ, cdc buff (BitVec.ofNat 32 buff.length) (List.replicate buff.length (-1)) =
        some chunkQ ∧
      chunkQ = asInts (cdcEnds buff) ++
        List.replicate (buff.length-(cdcEnds buff).length) (-1) ∧
      (cdcEnds buff).length < buff.length ∧
      (cdcEnds buff).Pairwise (· < ·) ∧
      (∀ p, p ∈ cdcEnds buff ↔
        (∃ i, 16 ≤ i ∧ i < buff.length-16 ∧
          256 ∣ ∑ j ∈ Finset.range 16, (buff.getD (i+15-j) 0).toNat*3^(j+1) ∧ p = i-1) ∨
        p = buff.length-1) ∧
      chunkRanges chunkQ =
        some ((segments 0 (cdcEnds buff)).map (fun r => ((r.1 : ℤ), (r.2 : ℤ)))) ∧
      ExactPartition buff (segments 0 (cdcEnds buff)) ∧
      ∀ i, ∀ n ≤ 16, ∑ j ∈ Finset.range n,
        (buff.getD (i+15-j) 0).toNat*3^(j+1) < 2^53 := by
  have hlt := length_cdcEnds_lt buff h16
  have hroom : 1 ≤ buff.length-(cdcEnds buff).length := by omega
  refine ⟨_, cdc_filled buff h16 hint, ?_, hlt, (cdcEnds_increasing buff).increasing,
    mem_cdcEnds buff, chunkRanges_ends _ _, cdcEnds_partition buff h16,
    fun i n hn => partial_sum_lt buff i n hn⟩
  rw [← List.replicate_succ, Nat.sub_add_cancel hroom]

/-- 33 zero bytes have one cut in the middle. -/
theorem cdc_partition_zeros :
    ∃ chunkQ, cdc (List.replicate 33 0) 33 (List.replicate 33 (-1)) = some chunkQ ∧
      chunkQ = [15, 32] ++ List.replicate 31 (-1) ∧
      chunkRanges chunkQ = some [(0, 15), (16, 32)] := by
  have hends : cdcEnds (List.replicate 33 0) = [15, 32] := by decide
  obtain ⟨chunkQ, hcdc, hq, -, -, -, hranges, -⟩ :=
    cdc_partition (List.replicate 33 0) (by decide) (by decide)
  rw [hends] at hq hranges
  exact ⟨chunkQ, hcdc, hq, hranges⟩

end Sync532
