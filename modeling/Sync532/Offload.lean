import Sync532.CdcScan
import Sync532.DedupTable
import Sync532.LzwDefined
import Sync532.OffloadModel

namespace Sync532
variable {sha : Str → Digest} {stackAt : ℕ → List Byte} {heap : ℕ → ℕ → Byte}
  {umap table : UMap Str (BitVec 32)}

/-- The key is neither in the table nor among the keys of the packet so far. -/
def IsNewKey (umap : UMap Str (BitVec 32)) (earlier : List (Option Str)) (key : Option Str) :
    Prop :=
  ((key.bind umap.find).getD 0 = 0) ∧ key ∉ earlier

instance (umap : UMap Str (BitVec 32)) (earlier : List (Option Str)) (key : Option Str) :
    Decidable (IsNewKey umap earlier key) := by
  unfold IsNewKey
  infer_instance

/-- The key of the range `r` of `mem`, behind the keys `earlier`. -/
def rangeKey (sha : Str → Digest) (stackAt : ℕ → List Byte) (mem : List Byte)
    (earlier : List (Option Str)) (r : ℕ × ℕ) : Option Str :=
  shaHW sha mem r.1 r.2 (stackAt earlier.length)

/-- The visit of an iteration that works on the range `r` of `mem`. -/
def expectedVisit (sha : Str → Digest) (stackAt : ℕ → List Byte) (umap : UMap Str (BitVec 32))
    (mem : List Byte) (earlier : List (Option Str)) (r : ℕ × ℕ) : ChunkVisit :=
  ⟨r.1, r.2, slice mem r.1 r.2,
    if IsNewKey umap earlier (rangeKey sha stackAt mem earlier r) then some (slice mem r.1 r.2)
    else none⟩

/-- The visits of a loop that works on the given ranges of `mem`. -/
def expectedVisits (sha : Str → Digest) (stackAt : ℕ → List Byte)
    (umap : UMap Str (BitVec 32)) (mem : List Byte) :
    List (Option Str) → List (ℕ × ℕ) → List ChunkVisit
  | _, [] => []
  | earlier, r :: rs => expectedVisit sha stackAt umap mem earlier r ::
      expectedVisits sha stackAt umap mem (earlier ++ [rangeKey sha stackAt mem earlier r]) rs

/-- Each chunk has a key, and the new ones end at the latest at the first zero byte
of `mem` and have three bytes. -/
def ReadsInside (sha : Str → Digest) (stackAt : ℕ → List Byte) (umap : UMap Str (BitVec 32))
    (mem : List Byte) : List (Option Str) → List (ℕ × ℕ) → Prop
  | _, [] => True
  | earlier, r :: rs => (rangeKey sha stackAt mem earlier r).isSome ∧
      (IsNewKey umap earlier (rangeKey sha stackAt mem earlier r) →
        r.2 ≤ cLength mem ∧ 3 ≤ r.2-r.1+1) ∧
      ReadsInside sha stackAt umap mem (earlier ++ [rangeKey sha stackAt mem earlier r]) rs

/-- The table behind the keys `earlier`. -/
def TableBehind (umap : UMap Str (BitVec 32)) (earlier : List (Option Str))
    (table : UMap Str (BitVec 32)) : Prop :=
  ∀ key, (table.find key).getD 0 = 0 ↔ IsNewKey umap earlier (some key)

theorem tableBehind_self (umap : UMap Str (BitVec 32)) : TableBehind umap [] umap :=
  fun _ => ⟨fun hz => ⟨hz, List.not_mem_nil⟩, fun hnew => hnew.1⟩

theorem sub_one_eq_neg_one {v : BitVec 32} (h : v-1 = -1) : v = 0 := by
  have hadd := congrArg (· + 1) h
  simpa using hadd

theorem index_toNat {n : ℕ} (hn : n < 2^31) : (BitVec.ofNat 32 n).toNat = n := by
  rw [BitVec.toNat_ofNat]
  exact Nat.mod_eq_of_lt (by omega)

theorem deduplication_table {earlier : List (Option Str)} (h : TableBehind umap earlier table)
    (i : BitVec 32) (hi : i.toNat < 2^31) (key : Str) :
    ((deduplication table i key).2 = -1 ↔ IsNewKey umap earlier (some key)) ∧
      TableBehind umap (earlier ++ [some key]) (deduplication table i key).1 := by
  obtain ⟨hanswer, hfind⟩ := deduplication_eq table i key
  have hsplit (k : Str) : IsNewKey umap (earlier ++ [some key]) (some k) ↔
      IsNewKey umap earlier (some k) ∧ k ≠ key := by
    simp only [IsNewKey, List.mem_append, List.mem_singleton, Option.some.injEq, not_or, and_assoc,
      ne_eq]
  constructor
  · rw [hanswer, ← h key]
    split_ifs with hz
    · exact ⟨sub_one_eq_neg_one, fun he => absurd he hz⟩
    · exact iff_of_true rfl (not_not.mp hz)
  · intro k
    rw [hfind, hsplit, ← h k]
    -- only the entry of `key` changes, and it is not 0 afterwards
    by_cases hk : k = key
    · rw [hk]
      by_cases hz : (table.find key).getD 0 = 0
      · rw [if_pos ⟨hz, rfl⟩]
        exact iff_of_false (succ_ne_zero_of_nonneg hi) (fun hboth => hboth.2 rfl)
      · rw [if_neg (fun hboth => hz hboth.1)]
        exact iff_of_false hz (fun hboth => hboth.2 rfl)
    · rw [if_neg (fun hboth => hk hboth.2)]
      exact ⟨fun hz => ⟨hz, hk⟩, fun hboth => hboth.1⟩

/-- A new chunk goes through `LZW`, which reads the C string and stores into its block. -/
theorem offloadChunk_new (heap : ℕ → ℕ → Byte) {mem : List Byte} (hzero : 0 ∈ mem)
    (index first last : ℕ) (hle : first ≤ last) :
    (last ≤ cLength mem ∧ 3 ≤ last-first+1 →
      ∃ record,
        offloadRecord heap mem (mem.takeWhile (· ≠ 0)) index first last = some record ∧
        lzwReads (mem.takeWhile (· ≠ 0)) first last = some (slice mem first last)) ∧
    (¬(last ≤ cLength mem ∧ 3 ≤ last-first+1) →
      offloadRecord heap mem (mem.takeWhile (· ≠ 0)) index first last = none) := by
  have hrecord : (offloadRecord heap mem (mem.takeWhile (· ≠ 0)) index first last).isSome ↔
      last ≤ cLength mem ∧ 3 ≤ last-first+1 :=
    lzw_recordOf_isSome hle (length_malloc_chunk (heap index) hle) (slice mem first last)
  constructor
  · rintro ⟨htext, hthree⟩
    obtain ⟨record, hsome⟩ := Option.isSome_iff_exists.mp (hrecord.mpr ⟨htext, hthree⟩)
    exact ⟨record, hsome, by rw [lzwReads_cString hzero first last hle, if_pos htext]⟩
  · intro hno
    rw [← hrecord] at hno
    exact Option.not_isSome_iff_eq_none.mp hno

/-- An iteration on a range of `mem` that has a key. -/
theorem offloadChunk_step (heap : ℕ → ℕ → Byte) (s : OffloadState)
    {earlier : List (Option Str)} {mem : List Byte}
    (htable : TableBehind umap earlier s.encode.umap) (hzero : 0 ∈ mem) (first last : ℕ)
    (hindex : earlier.length < 2^31) (hle : first ≤ last) (hlast : last < mem.length) {key : Str}
    (hkey : rangeKey sha stackAt mem earlier (first, last) = some key) :
    ((IsNewKey umap earlier (some key) → last ≤ cLength mem ∧ 3 ≤ last-first+1) →
      ∃ records, offloadChunk sha stackAt heap mem (mem.takeWhile (· ≠ 0)) s earlier.length
          first last =
        some ⟨⟨(deduplication s.encode.umap (BitVec.ofNat 32 earlier.length) key).1, records⟩,
          s.visits ++ [expectedVisit sha stackAt umap mem earlier (first, last)]⟩) ∧
    (¬(IsNewKey umap earlier (some key) → last ≤ cLength mem ∧ 3 ≤ last-first+1) →
      offloadChunk sha stackAt heap mem (mem.takeWhile (· ≠ 0)) s earlier.length first last =
        none) := by
  have hnat := index_toNat hindex
  have hrange : 0 ≤ (first : ℤ) ∧ (first : ℤ) ≤ last ∧
      (last : ℤ) < mem.length := by omega
  have hhash : shaHW sha mem first last (stackAt earlier.length) = some key := hkey
  have hsent := (deduplication_table htable (BitVec.ofNat 32 earlier.length) (by rwa [hnat])
    key).1
  obtain ⟨hwrites, hfails⟩ :=
    offloadChunk_new heap hzero earlier.length first last hle
  rw [offloadChunk, if_pos hrange]
  simp only [Int.toNat_natCast, expectedVisit, hkey, hhash, Option.bind_some, hsent]
  by_cases hnew : IsNewKey umap earlier (some key)
  · simp only [hnew, forall_const, if_true]
    constructor
    · intro hok
      obtain ⟨record, hrecord, hreads⟩ := hwrites hok
      rw [hrecord, Option.bind_some, hreads]
      exact ⟨_, rfl⟩
    · intro hno
      rw [hfails hno]
      rfl
  · simp only [if_neg hnew]
    exact ⟨fun _ => ⟨_, rfl⟩, fun hno => absurd (fun hbad => absurd hbad hnew) hno⟩

/-- The loop on stored ends with a -1 behind them: it comes to its end exactly if
the reads stay inside, and then it has worked on the ranges between the ends. -/
theorem chunkLoop_offload (heap : ℕ → ℕ → Byte) {mem : List Byte} (hzero : 0 ∈ mem)
    (rest : List ℤ) (ends : List ℕ) (start : ℕ) (earlier : List (Option Str))
    (s : OffloadState) (htable : TableBehind umap earlier s.encode.umap)
    (hcuts : CutsFrom start ends) (hin : ∀ e ∈ ends, e < mem.length)
    (hindex : earlier.length+ends.length ≤ 2^31) :
    (ReadsInside sha stackAt umap mem earlier (segments start ends) →
      ∃ s', chunkLoop (offloadChunk sha stackAt heap mem (mem.takeWhile (· ≠ 0)))
        earlier.length
          ((start : ℤ)-1) (asInts ends ++ -1 :: rest) s = some s' ∧
        s'.visits = s.visits ++
          expectedVisits sha stackAt umap mem earlier (segments start ends)) ∧
    (¬ReadsInside sha stackAt umap mem earlier (segments start ends) →
      chunkLoop (offloadChunk sha stackAt heap mem (mem.takeWhile (· ≠ 0))) earlier.length
        ((start : ℤ)-1) (asInts ends ++ -1 :: rest) s = none) := by
  induction ends generalizing start earlier s with
  | nil => exact ⟨fun _ => ⟨s, by simp [asInts, chunkLoop, segments, expectedVisits]⟩,
      fun hno => absurd trivial hno⟩
  | cons e ends ih =>
    rw [List.length_cons] at hindex
    have hnat := index_toNat (show earlier.length < 2^31 by omega)
    have hle := hcuts.le e List.mem_cons_self
    have hlt := hin e List.mem_cons_self
    rw [chunkLoop_cons, segments, ReadsInside, expectedVisits]
    have hlen : (earlier ++ [rangeKey sha stackAt mem earlier (start, e)]).length =
        earlier.length+1 := List.length_append
    cases hkey : rangeKey sha stackAt mem earlier (start, e) with
    | none =>
      refine ⟨fun hreads => absurd hreads.1 (by simp), fun _ => ?_⟩
      have hrange : 0 ≤ (start : ℤ) ∧ (start : ℤ) ≤ e ∧
          (e : ℤ) < mem.length := by omega
      have hhash : shaHW sha mem start e (stackAt earlier.length) = none := hkey
      rw [offloadChunk, if_pos hrange]
      simp only [Int.toNat_natCast, hhash, Option.bind_none]
    | some key =>
      obtain ⟨hgoes, hfails⟩ := offloadChunk_step heap s htable hzero start e (by omega)
        hle hlt hkey
      have hnext := (deduplication_table htable (BitVec.ofNat 32 earlier.length) (by omega) key).2
      rw [hkey] at hlen
      constructor
      · rintro ⟨-, hok, hrest⟩
        obtain ⟨records, hstep⟩ := hgoes hok
        -- the rest of the loop runs behind one more key
        obtain ⟨s', hrun, hvisits⟩ := (ih (e+1) (earlier ++ [some key])
          ⟨⟨_, records⟩,
            s.visits ++ [expectedVisit sha stackAt umap mem earlier (start, e)]⟩
          hnext hcuts.tail (fun e' he' => hin e' (List.mem_cons_of_mem _ he')) (by omega)).1 hrest
        rw [hlen] at hrun
        rw [hstep, Option.bind_some]
        refine ⟨s', hrun, ?_⟩
        rw [hvisits, List.append_assoc, List.singleton_append]
      · intro hno
        by_cases hok : IsNewKey umap earlier (some key) → e ≤ cLength mem ∧ 3 ≤ e-start+1
        · obtain ⟨records, hstep⟩ := hgoes hok
          have hrun := (ih (e+1) (earlier ++ [some key])
            ⟨⟨_, records⟩,
              s.visits ++ [expectedVisit sha stackAt umap mem earlier (start, e)]⟩
            hnext hcuts.tail (fun e' he' => hin e' (List.mem_cons_of_mem _ he')) (by omega)).2
            (fun hrest => hno ⟨rfl, hok, hrest⟩)
          rw [hlen] at hrun
          rw [hstep, Option.bind_some]
          exact hrun
        · rw [hfails hok, Option.bind_none]

theorem offloadChunk_visit {mem : List Byte} {sPacket : Str} {s s' : OffloadState} {index : ℕ}
    {first last : ℤ}
    (h : offloadChunk sha stackAt heap mem sPacket s index first last = some s') :
    ∃ v, s'.visits = s.visits ++ [v] ∧ v.last = last ∧
      v.hashed = slice mem v.first.toNat v.last.toNat := by
  unfold offloadChunk at h
  split_ifs at h
  obtain ⟨key, -, hbody⟩ := Option.bind_eq_some_iff.mp h
  dsimp only at hbody
  split_ifs at hbody
  · obtain ⟨record, -, hvisit⟩ := Option.bind_eq_some_iff.mp hbody
    obtain ⟨fed, -, rfl⟩ := Option.map_eq_some_iff.mp hvisit
    exact ⟨_, rfl, rfl, rfl⟩
  · rw [← Option.some.inj hbody]
    exact ⟨_, rfl, rfl, rfl⟩

/-- A loop that comes to its end has found a -1 behind the ends it worked on, and
it has hashed the bytes of `mem`. -/
theorem chunkLoop_visits {mem : List Byte} {sPacket : Str} {q : List ℤ} {index : ℕ}
    {endPos : ℤ} {s s' : OffloadState}
    (h : chunkLoop (offloadChunk sha stackAt heap mem sPacket) index endPos q s = some s') :
    ∃ vs rest, s'.visits = s.visits ++ vs ∧ q = vs.map ChunkVisit.last ++ -1 :: rest ∧
      ∀ v ∈ vs, v.hashed = slice mem v.first.toNat v.last.toNat := by
  induction q generalizing index endPos s with
  | nil => cases h
  | cons e q ih =>
    unfold chunkLoop at h
    split_ifs at h with he
    · refine ⟨[], q, ?_, by rw [he]; rfl, fun v hv => absurd hv List.not_mem_nil⟩
      rw [Option.some.inj h, List.append_nil]
    · obtain ⟨s1, hstep, hloop⟩ := Option.bind_eq_some_iff.mp h
      obtain ⟨v, hvisits, hv, hhashed⟩ := offloadChunk_visit hstep
      obtain ⟨vs, rest, hrest, hq, hall⟩ := ih hloop
      refine ⟨v :: vs, rest, ?_, ?_, List.forall_mem_cons.mpr ⟨hhashed, hall⟩⟩
      · rw [hrest, hvisits, List.append_assoc, List.singleton_append]
      · rw [hq, List.map_cons, hv, List.cons_append]

theorem expectedVisits_last (mem : List Byte) (earlier : List (Option Str))
    (rs : List (ℕ × ℕ)) :
    (expectedVisits sha stackAt umap mem earlier rs).map ChunkVisit.last =
      asInts (rs.map Prod.snd) := by
  induction rs generalizing earlier with
  | nil => rfl
  | cons r rs ih => rw [expectedVisits, List.map_cons, ih]; rfl

theorem expectedVisits_hashed (mem : List Byte) (earlier : List (Option Str))
    (rs : List (ℕ × ℕ)) (other : List Byte)
    (h : ∀ v ∈ expectedVisits sha stackAt umap mem earlier rs,
      v.hashed = slice other v.first.toNat v.last.toNat) :
    ∀ r ∈ rs, slice mem r.1 r.2 = slice other r.1 r.2 := by
  induction rs generalizing earlier with
  | nil => exact fun r hr => absurd hr List.not_mem_nil
  | cons r rs ih =>
    obtain ⟨hr, hrs⟩ := List.forall_mem_cons.mp h
    exact List.forall_mem_cons.mpr ⟨hr, ih _ hrs⟩

theorem expectedVisits_append (mem after : List Byte) (earlier : List (Option Str))
    (rs : List (ℕ × ℕ)) (hin : ∀ r ∈ rs, r.2 < mem.length) :
    expectedVisits sha stackAt umap (mem ++ after) earlier rs =
      expectedVisits sha stackAt umap mem earlier rs := by
  induction rs generalizing earlier with
  | nil => rfl
  | cons r rs ih =>
    obtain ⟨hr, hrs⟩ := List.forall_mem_cons.mp hin
    have hslice := slice_append_left mem after r.1 r.2 hr
    have hkey :
        rangeKey sha stackAt (mem ++ after) earlier r = rangeKey sha stackAt mem earlier r := by
      rw [rangeKey, shaHW, hslice]
      rfl
    rw [expectedVisits, expectedVisits, hkey, ih _ hrs, expectedVisit, hslice, hkey]
    rfl

/-- Buffers of the sizes that `encode` asks for. -/
structure OffloadMemory.Allocated (m : OffloadMemory) : Prop where
  window : winSize ≤ m.payload.length
  length_lt : m.payload.length < 2^31
  aBuf : m.aBuf.length = m.payload.length
  cBuf : m.cBuf.length = m.payload.length

theorem offloadEncode_eq {m : OffloadMemory} (hm : m.Allocated) (s : EncodeState Str) :
    offloadEncode sha stackAt heap s m =
      (cString (m.aBuf ++ m.aAfter)).bind (fun sPacket =>
        chunkLoop (offloadChunk sha stackAt heap (m.aBuf ++ m.aAfter) sPacket) 0 (-1)
          (asInts (cdcEnds m.aBuf) ++ m.cBuf.drop (cdcEnds m.aBuf).length) ⟨s, []⟩) := by
  have hcdc := cdc_entries m.aBuf m.cBuf (by rw [hm.aBuf]; exact hm.window)
    (by rw [hm.aBuf]; exact hm.length_lt) (by rw [hm.aBuf, hm.cBuf])
  rw [hm.aBuf] at hcdc
  simp only [offloadEncode, OffloadMemory.kernel, OffloadMemory.fill, hcdc, Option.map_some,
    Option.bind_some, OffloadPointers.mapBuffers, OffloadMemory.bytes, OffloadMemory.ints]

/-- `a_buf` holds the payload, `c_buf` a -1 behind the last entry of `cdc`, and the loop
stays inside its memory. -/
structure OffloadOk (sha : Str → Digest) (stackAt : ℕ → List Byte)
    (umap : UMap Str (BitVec 32)) (m : OffloadMemory) : Prop where
  copied : m.aBuf = m.payload
  sentinel : m.cBuf[(cdcEnds m.payload).length]? = some (-1)
  ended : 0 ∈ m.payload ++ m.aAfter
  reads : ReadsInside sha stackAt umap (m.payload ++ m.aAfter) [] (segments 0 (cdcEnds m.payload))

theorem drop_eq_cons_iff (q : List ℤ) (n : ℕ) (v : ℤ) :
    (∃ rest, q.drop n = v :: rest) ↔ q[n]? = some v := by
  constructor
  · rintro ⟨rest, hrest⟩
    rw [← List.head?_drop, hrest, List.head?_cons]
  · intro hv
    obtain ⟨hn, rfl⟩ := List.getElem?_eq_some_iff.mp hv
    exact ⟨_, List.drop_eq_getElem_cons hn⟩

theorem copied_of_visits {m : OffloadMemory} (hm : m.Allocated)
    (h : ∀ v ∈ expectedVisits sha stackAt umap m.payload [] (segments 0 (cdcEnds m.payload)),
      v.hashed = slice (m.aBuf ++ m.aAfter) v.first.toNat v.last.toNat) :
    m.aBuf = m.payload := by
  have hpart := cdcEnds_partition m.payload hm.window
  have hslices := expectedVisits_hashed _ _ _ _ h
  -- the slices of both memories, put together
  have hinside (r : ℕ × ℕ) (hr : r ∈ segments 0 (cdcEnds m.payload)) :
      slice m.payload r.1 r.2 = slice m.aBuf r.1 r.2 := by
    rw [hslices r hr]
    exact slice_append_left _ _ _ _ (by rw [hm.aBuf]; exact hpart.inside r hr)
  have hpos : 0 < winSize := by decide
  have hwindow := hm.window
  have hne : m.aBuf ≠ [] := by
    rw [← List.length_pos_iff, hm.aBuf]
    omega
  have hcuts :
      cdcEnds m.payload = cutPositions m.payload m.payload.length ++ [m.aBuf.length-1] := by
    rw [hm.aBuf]
    rfl
  have hbuf := CutsFrom.exactPartition hne (hcuts ▸ cdcEnds_increasing m.payload)
  calc m.aBuf = (segments 0 (cdcEnds m.payload)).flatMap (fun r => slice m.aBuf r.1 r.2) := by
        rw [hcuts]
        exact hbuf.content.symm
    _ = (segments 0 (cdcEnds m.payload)).flatMap (fun r => slice m.payload r.1 r.2) :=
        List.flatMap_congr (fun r hr => (hinside r hr).symm)
    _ = m.payload := hpart.content

/-- The offloaded `encode` works on the chunks of its payload exactly if the buffers already
held the payload and the -1, and each chunk that it compresses can be read and written. -/
theorem offloadEncode_iff (sha : Str → Digest) (stackAt : ℕ → List Byte)
    (heap : ℕ → ℕ → Byte) (start : EncodeState Str) (m : OffloadMemory) (hm : m.Allocated) :
    (∃ s, offloadEncode sha stackAt heap start m = some s ∧
      s.visits =
        expectedVisits sha stackAt start.umap m.payload [] (segments 0 (cdcEnds m.payload))) ↔
    OffloadOk sha stackAt start.umap m := by
  have hwindow := hm.window
  have hends := lt_of_mem_cdcEnds m.payload hwindow
  have hcount := length_cdcEnds_lt m.payload hwindow
  have hlength := hm.length_lt
  have hvisits : expectedVisits sha stackAt start.umap (m.payload ++ m.aAfter) []
      (segments 0 (cdcEnds m.payload)) =
      expectedVisits sha stackAt start.umap m.payload [] (segments 0 (cdcEnds m.payload)) :=
    expectedVisits_append _ _ _ _ (cdcEnds_partition m.payload hwindow).inside
  have hloop (hzero : 0 ∈ m.payload ++ m.aAfter) (rest : List ℤ) :=
    @chunkLoop_offload sha stackAt start.umap heap _ hzero rest
      (cdcEnds m.payload) 0 [] ⟨start, []⟩ (tableBehind_self start.umap)
      (cdcEnds_increasing m.payload)
      (fun e he => (hends e he).trans_le (by rw [List.length_append]; omega))
      (by rw [List.length_nil]; omega)
  rw [offloadEncode_eq hm]
  constructor
  · rintro ⟨s, hrun, hs⟩
    obtain ⟨sPacket, hstring, hrun⟩ := Option.bind_eq_some_iff.mp hrun
    obtain ⟨vs, rest, hlog, hq, hhashed⟩ := chunkLoop_visits hrun
    rw [List.nil_append, hs] at hlog
    rw [← hlog] at hq hhashed
    -- the bytes that were hashed show what `a_buf` held, and the ranges where the -1 stood
    have hcopied := copied_of_visits hm hhashed
    rw [hcopied] at hrun hstring hq
    rw [expectedVisits_last, snd_segments] at hq
    unfold cString at hstring
    split_ifs at hstring with hzero
    have hdrop := List.append_cancel_left hq
    refine ⟨hcopied, (drop_eq_cons_iff _ _ _).mp ⟨rest, hdrop⟩, hzero, ?_⟩
    by_contra hreads
    rw [← Option.some.inj hstring, hdrop] at hrun
    exact absurd (hrun.symm.trans ((hloop hzero rest).2 hreads)) (by simp)
  · rintro ⟨hcopied, hsentinel, hzero, hreads⟩
    obtain ⟨rest, hdrop⟩ := (drop_eq_cons_iff _ _ _).mpr hsentinel
    obtain ⟨s', hrun, hlog⟩ := (hloop hzero rest).1 hreads
    rw [hcopied, cString, if_pos hzero, Option.bind_some, hdrop]
    exact ⟨s', hrun, by rw [hlog, hvisits]; rfl⟩

/-- A packet of 16 letters `A`, with buffers that are filled with `b` and `v`. -/
def letterMemory (b : Byte) (v : ℤ) : OffloadMemory where
  payload := List.replicate 16 0x41
  after := []
  filled := List.replicate 16 0
  aBuf := List.replicate 16 b
  aAfter := [0]
  cBuf := List.replicate 16 v

theorem letterMemory_allocated (b : Byte) (v : ℤ) : (letterMemory b v).Allocated where
  window := by rw [letterMemory, List.length_replicate]; decide
  length_lt := by rw [letterMemory, List.length_replicate]; decide
  aBuf := by simp only [letterMemory, List.length_replicate]
  cBuf := by simp only [letterMemory, List.length_replicate]

/-- With the letters `B` in `a_buf` those are hashed and compressed, and with zeros in
`c_buf` the loop does not stop behind the only entry. -/
theorem offloadEncode_stale :
    (∃ s, offloadEncode letterSha (fun _ => [0]) (fun _ _ => 0) (encodeStart Str)
        (letterMemory 0x42 (-1)) = some s ∧
      s.visits = [⟨0, 15, List.replicate 16 0x42, some (List.replicate 16 0x42)⟩] ∧
      s.visits ≠ expectedVisits letterSha (fun _ => [0]) UMap.empty
        (letterMemory 0x42 (-1)).payload []
          (segments 0 (cdcEnds (letterMemory 0x42 (-1)).payload))) ∧
    ¬∃ s, offloadEncode letterSha (fun _ => [0]) (fun _ _ => 0) (encodeStart Str)
        (letterMemory 0x41 0) = some s ∧
      s.visits = expectedVisits letterSha (fun _ => [0]) UMap.empty
        (letterMemory 0x41 0).payload [] (segments 0 (cdcEnds (letterMemory 0x41 0).payload)) := by
  have hrun : (offloadEncode letterSha (fun _ => [0]) (fun _ _ => 0) (encodeStart Str)
      (letterMemory 0x42 (-1))).map OffloadState.visits =
      some [⟨0, 15, List.replicate 16 0x42, some (List.replicate 16 0x42)⟩] := by decide +kernel
  obtain ⟨s, hs, hvisits⟩ := Option.map_eq_some_iff.mp hrun
  refine ⟨⟨s, hs, hvisits, ?_⟩, ?_⟩
  · rw [hvisits]
    decide
  · rintro ⟨s', hs', -⟩
    have hnone : (offloadEncode letterSha (fun _ => [0]) (fun _ _ => 0) (encodeStart Str)
        (letterMemory 0x41 0)).isNone := by decide +kernel
    rw [hs'] at hnone
    cases hnone

/-- Buffers that already hold the packet and -1 everywhere. -/
theorem offloadEncode_copied :
    ∃ s, offloadEncode letterSha (fun _ => [0]) (fun _ _ => 0) (encodeStart Str)
        (letterMemory 0x41 (-1)) = some s ∧
      s.visits = expectedVisits letterSha (fun _ => [0]) UMap.empty
        (letterMemory 0x41 (-1)).payload []
          (segments 0 (cdcEnds (letterMemory 0x41 (-1)).payload)) := by
  refine (offloadEncode_iff letterSha (fun _ => [0]) (fun _ _ => 0) (encodeStart Str) _
    (letterMemory_allocated _ _)).mpr ?_
  have hends : cdcEnds (letterMemory 0x41 (-1)).payload = [15] := by decide
  refine ⟨rfl, by rw [hends]; decide, by decide, ?_⟩
  rw [hends]
  exact ⟨by decide, fun _ => by decide, trivial⟩

end Sync532
