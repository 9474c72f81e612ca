import Mathlib.Data.BitVec
import Sync532.LzwModel
import Sync532.PhraseCodec
import Sync532.Segments

namespace Sync532

/-- The values of `table[p]` that are packed when the loop meets the strings `c`
in turn, with the one behind the loop at the end. -/
def LzwDict.emitted : LzwDict → List Str → List ℕ
  | d, [] => [(d.table.index d.p 0).2]
  | d, c :: cs =>
    match d.lookup c with
    | (d', none) => d'.emitted cs
    | (d', some v) => v :: d'.emitted cs

/-- The strings `c` of one chunk: its bytes but the first, then the empty string
of the last iteration. -/
def lookahead (as : Str) : List Str := as.map (fun ch => [ch]) ++ [[]]

/-- The codes of a chunk in the order `LZW` packs them. -/
def lzwCodes : Str → List ℕ
  | [] => []
  | x :: as => LzwDict.emitted ⟨initialTable, [x], 256⟩ (lookahead as)

/-- The phases for a sequence of codes: the loop packs all but the last. -/
def packCodes : ℕ → List ℕ → LzwOutput → Option LzwOutput
  | _, [], o => some o
  | appeartimes, [v], o => packFinal appeartimes v o
  | appeartimes, v :: v' :: vs, o => do
    let o ← packLoop appeartimes v o
    packCodes ((appeartimes+1)%8) (v' :: vs) o

theorem LzwDict.emitted_ne_nil (d : LzwDict) (cs : List Str) : d.emitted cs ≠ [] := by
  induction cs generalizing d with
  | nil => simp [LzwDict.emitted]
  | cons c cs ih =>
    rcases hl : d.lookup c with ⟨d', _ | v⟩
    · simpa [LzwDict.emitted, hl] using ih d'
    · simp [LzwDict.emitted, hl]

theorem packCodes_cons (appeartimes v : ℕ) (vs : List ℕ) (hvs : vs ≠ []) (o : LzwOutput) :
    packCodes appeartimes (v :: vs) o =
      (packLoop appeartimes v o).bind (packCodes ((appeartimes+1)%8) vs) := by
  obtain ⟨v', vs', rfl⟩ := List.exists_cons_of_ne_nil hvs
  rfl

theorem charAt_of_lt (s : Str) (i : ℕ) (h : i < s.length) : charAt s i = some s[i] := by
  rw [charAt, if_pos h, List.getElem?_eq_getElem h]

theorem lzwStep_eq (chunkEnd : ℕ) (s1 : Str) (s : LzwState) (i : ℕ) (c : Str)
    (hc : nextChar chunkEnd s1 i = some c) :
    lzwStep chunkEnd s1 s i =
      match s.dict.lookup c with
      | (d, none) => some ⟨d, s.appeartimes, s.out⟩
      | (d, some v) => (packLoop s.appeartimes v s.out).map
          (fun out => ⟨d, (s.appeartimes+1)%8, out⟩) := by
  simp only [lzwStep, hc, Option.bind_eq_bind, Option.bind_some]
  rcases s.dict.lookup c with ⟨d, _ | v⟩
  · rfl
  · exact Option.map_eq_bind.symm

/-- The loop from `i` on, followed by the final code, packs what the lookups emit. -/
theorem lzw_loop_packs (s1 : Str) (chunkEnd n : ℕ) (hend : chunkEnd < s1.length) :
    ∀ (i : ℕ) (s : LzwState), i+n = chunkEnd →
      ((List.range' i (n+1)).foldlM (lzwStep chunkEnd s1) s).bind
        (fun s => packFinal s.appeartimes (s.dict.table.index s.dict.p 0).2 s.out) =
      packCodes s.appeartimes (s.dict.emitted (lookahead ((s1.drop (i+1)).take n))) s.out := by
  induction n with
  | zero =>
    intro i s hi
    obtain rfl : i = chunkEnd := hi
    -- the last iteration has an empty `c`, and the final code follows it
    rw [zero_add, List.range'_one, List.foldlM_cons,
      lzwStep_eq i s1 s i [] (if_neg (fun h => h rfl))]
    simp only [List.take_zero, lookahead, List.map_nil, List.nil_append, LzwDict.emitted]
    rcases s.dict.lookup [] with ⟨d, _ | v⟩
    · rfl
    · simp only [packCodes_cons _ _ _ (List.cons_ne_nil _ _)]
      cases packLoop s.appeartimes v s.out <;> rfl
  | succ n ih =>
    intro i s hi
    have hlt : i+1 < s1.length := by omega
    -- `c` is the next character; the lookup extends the phrase, or packs a code and
    -- advances the phase
    have hc : nextChar chunkEnd s1 i = some [s1[i+1]] := by
      rw [nextChar, if_pos (by omega), charAt_of_lt s1 (i+1) hlt, Option.map_some]
    rw [List.range'_succ, List.foldlM_cons, lzwStep_eq chunkEnd s1 s i _ hc,
      List.drop_eq_getElem_cons hlt, List.take_succ_cons]
    simp only [lookahead, List.map_cons, List.cons_append, LzwDict.emitted]
    rcases s.dict.lookup [s1[i+1]] with ⟨d, _ | v⟩
    · exact ih (i+1) ⟨d, s.appeartimes, s.out⟩ (by omega)
    · simp only [packCodes_cons _ _ _ (LzwDict.emitted_ne_nil _ _), Option.bind_eq_bind]
      cases hp : packLoop s.appeartimes v s.out with
      | none => rfl
      | some out => exact ih (i+1) ⟨d, (s.appeartimes+1)%8, out⟩ (by omega)

/-- `LZW` clears its buffer, packs the codes of the chunk and pads. -/
theorem lzw_eq_packCodes (chunkStart chunkEnd : ℕ) (s1 : Str) (outputCode : List Byte)
    (hle : chunkStart ≤ chunkEnd) (hend : chunkEnd < s1.length) :
    lzw chunkStart chunkEnd s1 outputCode =
      (clearOutput ((chunkEnd-chunkStart+1)*2) outputCode).bind (fun buf =>
        (packCodes 0 (lzwCodes (slice s1 chunkStart chunkEnd)) ⟨buf, 0⟩).bind padOutput) := by
  have hs : chunkStart < s1.length := by omega
  unfold lzw
  simp only [charAt_of_lt s1 chunkStart hs, Option.bind_eq_bind, Option.bind_some]
  refine congrArg _ (funext fun buf => ?_)
  rw [show chunkEnd+1-chunkStart = (chunkEnd-chunkStart)+1 by omega, ← Option.bind_assoc,
    lzw_loop_packs s1 chunkEnd (chunkEnd-chunkStart) hend chunkStart _ (by omega),
    slice_eq_cons s1 chunkStart chunkEnd hle hend]
  rfl

/-- The 256 one-byte entries in code order. -/
def baseDict : List Str := (List.range 256).map (fun i => [BitVec.ofNat 8 i])

theorem initialTable_numbers : initialTable.Numbers baseDict := by
  have h (n : ℕ) (hn : n ≤ 256) :
      ((List.range n).foldl (fun (table : UMap Str ℕ) i => table.set [BitVec.ofNat 8 i] i)
        UMap.empty).Numbers ((List.range n).map (fun i => [BitVec.ofNat 8 i])) := by
    induction n with
    | zero => exact UMap.Numbers.empty
    | succ n ih =>
      rw [List.range_succ, List.foldl_append, List.map_append]
      -- the bytes of numbers below 256 are different
      have hnew : ([BitVec.ofNat 8 n] : Str) ∉
          (List.range n).map (fun i => ([BitVec.ofNat 8 i] : Str)) := by
        intro hmem
        obtain ⟨i, hi, he⟩ := List.mem_map.mp hmem
        have hin := List.mem_range.mp hi
        have heq := congrArg BitVec.toNat (List.singleton_inj.mp he)
        simp only [BitVec.toNat_ofNat] at heq
        omega
      have hset := (ih (by omega)).set hnew
      rw [List.length_map, List.length_range] at hset
      exact hset
  exact h 256 le_rfl

theorem length_baseDict : baseDict.length = 256 := by simp [baseDict]

theorem mem_baseDict (b : Byte) : [b] ∈ baseDict := by
  refine List.mem_map.mpr ⟨b.toNat, List.mem_range.mpr b.isLt, ?_⟩
  rw [BitVec.ofNat_toNat, BitVec.setWidth_eq]

theorem length_of_mem_baseDict (s : Str) (h : s ∈ baseDict) : s.length = 1 := by
  obtain ⟨i, -, rfl⟩ := List.mem_map.mp h
  rfl

theorem idxOf_baseDict (b : Byte) : baseDict.idxOf [b] = b.toNat := by
  have hlt := List.idxOf_lt_length_of_mem (mem_baseDict b)
  have hget := List.getElem_idxOf hlt
  rw [length_baseDict] at hlt
  simp only [baseDict, List.getElem_map, List.getElem_range] at hget
  have hb := congrArg BitVec.toNat (List.singleton_inj.mp hget)
  rw [BitVec.toNat_ofNat] at hb
  exact (Nat.mod_eq_of_lt hlt).symm.trans hb

attribute [local irreducible] initialTable baseDict

/-- The table of the source numbers the writer's dictionary. -/
structure LzwDict.Follows (d : LzwDict) (w : PhraseWriter Byte) : Prop where
  table : d.table.Numbers w.dict
  p : d.p = w.p
  code : d.code = w.dict.length

theorem LzwDict.Follows.index {d : LzwDict} {w : PhraseWriter Byte} (h : d.Follows w)
    (hw : w.Ready) : d.table.index d.p 0 = (d.table, w.dict.idxOf w.p) := by
  apply UMap.index_of_find
  rw [h.p, h.table]
  exact hw.getElem?_idxOf

theorem LzwDict.Follows.lookup {d : LzwDict} {w : PhraseWriter Byte} (h : d.Follows w)
    (hw : w.Ready) (a : Byte) :
    (d.lookup [a]).2 = (w.step a).2 ∧ (d.lookup [a]).1.Follows (w.step a).1 := by
  have hsome : (d.table.find (d.p ++ [a])).isSome ↔ w.p ++ [a] ∈ w.dict := by
    rw [h.p]
    exact h.table.isSome_iff _
  by_cases hin : w.p ++ [a] ∈ w.dict
  · rw [PhraseWriter.step_extend hin, LzwDict.lookup, if_pos (hsome.mpr hin)]
    exact ⟨rfl, h.table, congrArg (· ++ [a]) h.p, h.code⟩
  · rw [PhraseWriter.step_emit hin, LzwDict.lookup, if_neg (mt hsome.mp hin),
      h.index hw]
    refine ⟨rfl, ?_, rfl, ?_⟩
    · rw [h.p, h.code]
      exact h.table.set hin
    · simp [h.code]

theorem LzwDict.Follows.lookup_nil {d : LzwDict} {w : PhraseWriter Byte} (h : d.Follows w)
    (hw : w.Ready) : d.lookup [] = (d, none) := by
  have hsome : (d.table.find (d.p ++ [])).isSome = true := by
    rw [List.append_nil, h.p]
    exact (h.table.isSome_iff _).mpr hw.mem
  rw [LzwDict.lookup, if_pos hsome, List.append_nil]

theorem LzwDict.Follows.emitted {d : LzwDict} {w : PhraseWriter Byte} (h : d.Follows w)
    (hw : w.Ready) (as : Str) : d.emitted (lookahead as) = w.codes as := by
  induction as generalizing d w with
  | nil =>
    simp only [lookahead, List.map_nil, List.nil_append, LzwDict.emitted, h.lookup_nil hw,
      h.index hw, PhraseWriter.codes]
  | cons a as ih =>
    obtain ⟨hcode, hnext⟩ := h.lookup hw a
    simp only [lookahead, List.map_cons, List.cons_append, LzwDict.emitted]
    rcases hl : d.lookup [a] with ⟨d', e⟩
    rw [hl] at hcode hnext
    by_cases hin : w.p ++ [a] ∈ w.dict
    · rw [PhraseWriter.step_extend hin] at hcode hnext
      obtain rfl : e = none := hcode
      rw [PhraseWriter.codes_extend hin]
      exact ih hnext (hw.extend hin)
    · rw [PhraseWriter.step_emit hin] at hcode hnext
      obtain rfl : e = some (w.dict.idxOf w.p) := hcode
      rw [PhraseWriter.codes_emit hin]
      exact congrArg _ (ih hnext (hw.emit a))

theorem ready_start (x : Byte) : PhraseWriter.Ready ⟨baseDict, [x]⟩ :=
  ⟨mem_baseDict x, mem_baseDict, by simp⟩

theorem follows_start (x : Byte) :
    LzwDict.Follows ⟨initialTable, [x], 256⟩ ⟨baseDict, [x]⟩ where
  table := initialTable_numbers
  p := rfl
  code := length_baseDict.symm

theorem lzwCodes_eq_writer (x : Byte) (as : Str) :
    lzwCodes (x :: as) = PhraseWriter.codes ⟨baseDict, [x]⟩ as := by
  rw [lzwCodes]
  exact (follows_start x).emitted (ready_start x) as

theorem lzwCodes_ne_nil (chunk : Str) (h : chunk ≠ []) : lzwCodes chunk ≠ [] := by
  obtain ⟨x, as, rfl⟩ := List.exists_cons_of_ne_nil h
  exact LzwDict.emitted_ne_nil _ _

theorem length_lzwCodes_le (chunk : Str) : (lzwCodes chunk).length ≤ chunk.length := by
  cases chunk with
  | nil => exact le_rfl
  | cons x as =>
    rw [lzwCodes_eq_writer]
    exact PhraseWriter.length_codes_le _ as

/-- The dictionary of a chunk of `L` bytes reaches code `L+253` at most. -/
theorem lzwCodes_bound (chunk : Str) :
    ∀ v ∈ lzwCodes chunk, v < 256 ∨ v ≤ chunk.length+253 := by
  cases chunk with
  | nil => intro v hv; simp [lzwCodes] at hv
  | cons x as =>
    intro v hv
    rw [lzwCodes_eq_writer] at hv
    have hlong : ∀ i s, 256 ≤ i → baseDict[i]? = some s → 2 ≤ s.length := by
      intro i s hi hs
      have := (List.getElem?_eq_some_iff.mp hs).1
      rw [length_baseDict] at this
      omega
    have := PhraseWriter.codes_bound 256 _ (ready_start x) hlong as v hv
    simp only [length_baseDict, List.length_cons, List.length_nil] at this ⊢
    omega

theorem lzwCodes_lt (chunk : Str) (h : chunk.length ≤ 7938) :
    ∀ v ∈ lzwCodes chunk, v < 2^13 := by
  intro v hv
  have := lzwCodes_bound chunk v hv
  omega

instance byteFintype : Fintype Byte := Fintype.ofEquiv (Fin (2^8)) BitVec.equivFin.symm.toEquiv

theorem card_byte : Fintype.card Byte = 2^8 :=
  (Fintype.card_congr BitVec.equivFin.toEquiv).trans (Fintype.card_fin _)

/-- Codes below `2^13` are few enough for every counter of the decoder. -/
theorem length_lzwCodes_of_lt (chunk : Str) (h : ∀ v ∈ lzwCodes chunk, v < 2^13) :
    (lzwCodes chunk).length ≤ 2^21+1 := by
  cases chunk with
  | nil => simp [lzwCodes]
  | cons x as =>
    rw [lzwCodes_eq_writer] at h ⊢
    have hcount := PhraseWriter.length_codes_of_lt (ready_start x) as (2^13) h
    rw [card_byte] at hcount
    exact hcount

end Sync532
