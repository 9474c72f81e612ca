import Sync532.StreamReads

namespace Sync532

/-- The indices of the `Code_table[New]` and `Code_table[Old]` of one iteration. -/
def DecompressState.tableReads (s : DecompressState) : List ℕ :=
  let new := (readCode s.reader).1
  (if s.codeTable.length ≤ new then [s.old] else [new]) ++ [s.old]

/-- The locals of `Decompress` in front of the `k`-th test of its loop, when it comes
that far. -/
def decompressAt (size : ℕ) (r : BitReader) (k : ℕ) : Option DecompressState :=
  whileSteps (decompressMore size) decompressBody k (decompressStart r)

/-- The test of the loop when `n` codes have been read. -/
def GoesOn (size n : ℕ) : Prop := codeLength*n%2^64/8 < (size+(2^64-1))%2^64

attribute [local irreducible] readCode

/-- After `k` iterations on `input`. -/
structure DecompressInv (input : IStream) (k : ℕ) (s : DecompressState) : Prop where
  reader : s.reader.Taken input (codeLength*(k+1))
  table : s.codeTable.length = 256+k
  old : s.old = streamCode input.rest k

theorem decompressStart_inv (r : BitReader) : DecompressInv r.input 0 (decompressStart r) := by
  obtain ⟨hcode, hreader⟩ := readCode_taken (k := 0) (taken_zero r.input r.byte)
  refine ⟨hreader, ?_, hcode⟩
  simp [decompressStart, initialCodeTable]

theorem DecompressInv.more {input : IStream} {k : ℕ} {s : DecompressState}
    (h : DecompressInv input k s) (size : ℕ) :
    decompressMore size s = true ↔ GoesOn size (k+1) := by
  rw [decompressMore, h.reader.position, decide_eq_true_iff]
  rfl

theorem charAt_zero (s : Str) : ∃ b, charAt s 0 = some b := by
  cases s with
  | nil => exact ⟨0, rfl⟩
  | cons b s => exact ⟨b, rfl⟩

/-- An iteration is defined exactly when the last code is in the table. -/
theorem DecompressInv.body {input : IStream} {k : ℕ} {s : DecompressState}
    (h : DecompressInv input k s) (hold : streamCode input.rest k < 256+k) :
    ∃ s', decompressBody s = some s' ∧ DecompressInv input (k+1) s' := by
  obtain ⟨hcode, hreader⟩ := readCode_taken h.reader
  have hlt : s.old < s.codeTable.length := by
    rw [h.old, h.table]
    exact hold
  obtain ⟨symbols, hsym⟩ : ∃ symbols, s.symbols (readCode s.reader).1 = some symbols := by
    unfold DecompressState.symbols
    split_ifs with hnew
    · exact ⟨_, by rw [List.getElem?_eq_getElem hlt, Option.map_some]⟩
    · exact ⟨_, List.getElem?_eq_getElem (Nat.lt_of_not_le hnew)⟩
  obtain ⟨first, hfirst⟩ := charAt_zero symbols
  refine ⟨⟨(readCode s.reader).2, s.codeTable ++ [s.codeTable[s.old] ++ [first]],
    (readCode s.reader).1, [first], s.output ++ symbols⟩, ?_, hreader, ?_, hcode⟩
  · -- `Code_table[Old]` is the only read that is not guarded
    simp only [decompressBody, hsym, hfirst, List.getElem?_eq_getElem hlt, Option.bind_eq_bind,
      Option.bind_some]
  · rw [List.length_append, h.table, List.length_singleton]
    omega

theorem DecompressInv.body_defined {input : IStream} {k : ℕ} {s s' : DecompressState}
    (h : DecompressInv input k s) (hs : decompressBody s = some s') :
    streamCode input.rest k < 256+k := by
  simp only [decompressBody, Option.bind_eq_bind, Option.bind_eq_some_iff] at hs
  obtain ⟨-, -, -, -, prev, hprev, -⟩ := hs
  rw [← h.old, ← h.table]
  exact (List.getElem?_eq_some_iff.mp hprev).1

theorem decompressAt_succ (size : ℕ) (r : BitReader) (k : ℕ) :
    decompressAt size r (k+1) = (decompressAt size r k).bind
      (fun s => if decompressMore size s then decompressBody s else none) := rfl

/-- When the loop comes to its `k`-th test, every test before has succeeded, and every
code that was `Old` then is in the table. -/
theorem decompressAt_inv (size : ℕ) (r : BitReader) (k : ℕ) :
    ∀ s, decompressAt size r k = some s → DecompressInv r.input k s ∧
      ∀ j < k, GoesOn size (j+1) ∧ streamCode r.input.rest j < 256+j := by
  induction k with
  | zero =>
    intro s hs
    obtain rfl : decompressStart r = s := Option.some.inj hs
    exact ⟨decompressStart_inv r, fun j hj => absurd hj (Nat.not_lt_zero j)⟩
  | succ k ih =>
    intro s' hs'
    rw [decompressAt_succ] at hs'
    obtain ⟨s, hs, hbody⟩ := Option.bind_eq_some_iff.mp hs'
    obtain ⟨hinv, hbefore⟩ := ih s hs
    split_ifs at hbody with hmore
    have hold := hinv.body_defined hbody
    obtain ⟨t, ht, hnext⟩ := hinv.body hold
    obtain rfl : t = s' := Option.some.inj (ht.symm.trans hbody)
    refine ⟨hnext, ?_⟩
    intro j hj
    rcases Nat.lt_succ_iff_lt_or_eq.mp hj with hlt | rfl
    · exact hbefore j hlt
    · exact ⟨(hinv.more size).mp hmore, hold⟩

/-- And under these conditions it comes there. -/
theorem decompressAt_reached (size : ℕ) (r : BitReader) (k : ℕ)
    (h : ∀ j < k, GoesOn size (j+1) ∧ streamCode r.input.rest j < 256+j) :
    ∃ s, decompressAt size r k = some s := by
  induction k with
  | zero => exact ⟨_, rfl⟩
  | succ k ih =>
    obtain ⟨s, hs⟩ := ih (fun j hj => h j (by omega))
    obtain ⟨hgo, hold⟩ := h k (Nat.lt_succ_self k)
    obtain ⟨hinv, -⟩ := decompressAt_inv size r k s hs
    obtain ⟨s', hbody, -⟩ := hinv.body hold
    refine ⟨s', ?_⟩
    rw [decompressAt_succ, hs, Option.bind_some, if_pos ((hinv.more size).mpr hgo), hbody]

/-- Every index that `Decompress` uses lies in the table at that time. -/
def TableSafe (size : ℕ) (r : BitReader) : Prop :=
  ∀ k s, decompressAt size r k = some s → decompressMore size s = true →
    ∀ i ∈ s.tableReads, i < s.codeTable.length

/-- For the codes of a stream: whenever the loop goes on, the last code is below the
number of entries that the table has then. -/
def OldInTable (size : ℕ) (data : List Byte) : Prop :=
  ∀ k, (∀ j ≤ k, GoesOn size (j+1)) → streamCode data k < 256+k

/-- `New` is compared with the size of the table in front of its use, and `Old` is not. -/
theorem tableReads_lt_iff (s : DecompressState) :
    (∀ i ∈ s.tableReads, i < s.codeTable.length) ↔ s.old < s.codeTable.length := by
  unfold DecompressState.tableReads
  constructor
  · intro h
    apply h
    exact List.mem_append_right _ (List.mem_singleton_self s.old)
  · intro hold i hi
    rcases List.mem_append.mp hi with hi | hi
    · split_ifs at hi with hnew
      · rw [List.mem_singleton.mp hi]
        exact hold
      · rw [List.mem_singleton.mp hi]
        exact Nat.lt_of_not_le hnew
    · rw [List.mem_singleton.mp hi]
      exact hold

theorem decompress_table_safe_iff (size : ℕ) (r : BitReader) :
    TableSafe size r ↔ OldInTable size r.input.rest := by
  constructor
  · intro hsafe k
    -- the codes before `k` are in the table, so the loop comes to the use of code `k`
    induction k using Nat.strong_induction_on with
    | _ k ih =>
      intro hgo
      obtain ⟨s, hs⟩ := decompressAt_reached size r k
        (fun j hj => ⟨hgo j hj.le, ih j hj (fun i hi => hgo i (hi.trans hj.le))⟩)
      obtain ⟨hinv, -⟩ := decompressAt_inv size r k s hs
      have hold := (tableReads_lt_iff s).mp (hsafe k s hs ((hinv.more size).mpr (hgo k le_rfl)))
      rw [hinv.old, hinv.table] at hold
      exact hold
  · intro hcodes k s hs hmore
    obtain ⟨hinv, hbefore⟩ := decompressAt_inv size r k s hs
    rw [tableReads_lt_iff, hinv.old, hinv.table]
    apply hcodes
    intro j hj
    rcases hj.eq_or_lt with rfl | hlt
    · exact (hinv.more size).mp hmore
    · exact (hbefore j hlt).1

/-- The first code of the stream is 8191. -/
theorem decompress_reads_outside : ¬TableSafe 3 ⟨⟨[0xFF, 0xFF, 0xFF], false⟩, 0, 0⟩ := by
  intro h
  have hcode : streamCode [0xFF, 0xFF, 0xFF] 0 = 8191 := by decide
  have hinv := decompressStart_inv ⟨⟨[0xFF, 0xFF, 0xFF], false⟩, 0, 0⟩
  have hmore := (hinv.more 3).mpr (by unfold GoesOn codeLength; decide)
  have hold := (tableReads_lt_iff _).mp (h 0 _ rfl hmore)
  rw [hinv.old, hinv.table, hcode] at hold
  omega

end Sync532
