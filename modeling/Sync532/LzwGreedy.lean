import Sync532.GreedyParse
import Sync532.LzwCodes
import Sync532.LzwPacking

namespace Sync532

attribute [local irreducible] initialTable baseDict

theorem lzwCodes_eq_greedy (chunk : Str) :
    lzwCodes chunk = (greedyParse baseDict chunk).map Prod.fst := by
  rcases chunk with _ | ⟨x, as⟩
  · rw [lzwCodes, greedyParse, List.map_nil]
  · rw [lzwCodes_eq_writer]
    exact PhraseWriter.codes_eq_greedy (ready_start x)
      (prefixClosed_singles length_of_mem_baseDict) as

/-- The body of the loop with the code collected instead of packed. -/
def codesStep (chunkEnd : ℕ) (s1 : Str) (t : LzwDict × List ℕ) (i : ℕ) :
    Option (LzwDict × List ℕ) :=
  (nextChar chunkEnd s1 i).map (fun c =>
    let (dict, v) := t.1.lookup c
    (dict, t.2 ++ v.toList))

/-- `table`, `p` and `code` after `k` iterations, with the codes emitted by them. -/
def codesLoop (chunkStart chunkEnd : ℕ) (s1 : Str) (k : ℕ) : Option (LzwDict × List ℕ) :=
  (charAt s1 chunkStart).bind (fun first =>
    (List.range' chunkStart k).foldlM (codesStep chunkEnd s1)
      (⟨initialTable, [first], 256⟩, []))

/-- The locals of `LZW` after `k` iterations on a cleared buffer. -/
def lzwLoop (chunkStart chunkEnd : ℕ) (s1 : Str) (buf : List Byte) (k : ℕ) : Option LzwState :=
  (charAt s1 chunkStart).bind (fun first =>
    (List.range' chunkStart k).foldlM (lzwStep chunkEnd s1)
      ⟨⟨initialTable, [first], 256⟩, 0, ⟨buf, 0⟩⟩)

theorem lzw_eq_loop (chunkStart chunkEnd : ℕ) (s1 : Str) (outputCode : List Byte) :
    lzw chunkStart chunkEnd s1 outputCode =
      (clearOutput ((chunkEnd-chunkStart+1)*2) outputCode).bind (fun buf =>
        (lzwLoop chunkStart chunkEnd s1 buf (chunkEnd+1-chunkStart)).bind (fun s =>
          (packFinal s.appeartimes (s.dict.table.index s.dict.p 0).2 s.out).bind padOutput)) := by
  unfold lzw lzwLoop
  simp only [Option.bind_eq_bind, Option.bind_assoc]

/-- Where `LZW` has a result, its loop has a state after every iteration. -/
theorem lzwLoop_defined {chunkStart chunkEnd : ℕ} {s1 : Str} {outputCode : List Byte}
    {o : LzwOutput} (h : lzw chunkStart chunkEnd s1 outputCode = some o) {k : ℕ}
    (hk : k ≤ chunkEnd+1-chunkStart) :
    ∃ buf s, clearOutput ((chunkEnd-chunkStart+1)*2) outputCode = some buf ∧
      lzwLoop chunkStart chunkEnd s1 buf k = some s := by
  rw [lzw_eq_loop] at h
  obtain ⟨buf, hbuf, hrest⟩ := Option.bind_eq_some_iff.mp h
  obtain ⟨s, hs, -⟩ := Option.bind_eq_some_iff.mp hrest
  obtain ⟨first, hfirst, hloop⟩ := Option.bind_eq_some_iff.mp hs
  -- the whole loop begins with the first `k` iterations
  have hsplit : List.range' chunkStart (chunkEnd+1-chunkStart) =
      List.range' chunkStart k ++ List.range' (chunkStart+k) (chunkEnd+1-chunkStart-k) := by
    rw [List.range'_append_1, show k+(chunkEnd+1-chunkStart-k) = chunkEnd+1-chunkStart by omega]
  rw [hsplit, List.foldlM_append] at hloop
  obtain ⟨t, ht, -⟩ := Option.bind_eq_some_iff.mp hloop
  refine ⟨buf, t, hbuf, ?_⟩
  rw [lzwLoop, hfirst, Option.bind_some, ht]

theorem lzwStep_codes {chunkEnd : ℕ} {s1 : Str} {s s' : LzwState} {i : ℕ}
    (h : lzwStep chunkEnd s1 s i = some s') (codes : List ℕ) :
    ∃ codes', codesStep chunkEnd s1 (s.dict, codes) i = some (s'.dict, codes') := by
  rcases hc : nextChar chunkEnd s1 i with _ | c
  · rw [lzwStep, hc] at h
    exact absurd h (by simp)
  · rw [lzwStep_eq chunkEnd s1 s i c hc] at h
    simp only [codesStep, hc, Option.map_some]
    rcases hl : s.dict.lookup c with ⟨d, _ | v⟩
    · rw [hl] at h
      obtain rfl := Option.some.inj h
      exact ⟨_, rfl⟩
    · rw [hl] at h
      obtain ⟨out, -, rfl⟩ := Option.map_eq_some_iff.mp h
      exact ⟨_, rfl⟩

/-- The loop that packs and the one that collects have the same `table`, `p` and `code`. -/
theorem lzwLoop_codes {chunkStart chunkEnd : ℕ} {s1 : Str} {buf : List Byte} {k : ℕ}
    {s : LzwState} (h : lzwLoop chunkStart chunkEnd s1 buf k = some s) :
    ∃ codes, codesLoop chunkStart chunkEnd s1 k = some (s.dict, codes) := by
  obtain ⟨first, hfirst, hloop⟩ := Option.bind_eq_some_iff.mp h
  rw [codesLoop, hfirst, Option.bind_some]
  clear h
  -- the packing writes `appeartimes` and the buffer only, so the dictionaries agree step by step
  induction k generalizing s with
  | zero =>
    obtain rfl := Option.some.inj hloop
    exact ⟨[], rfl⟩
  | succ k ih =>
    rw [List.range'_1_concat, List.foldlM_append] at hloop ⊢
    obtain ⟨t, ht, hlast⟩ := Option.bind_eq_some_iff.mp hloop
    obtain ⟨codes, hcodes⟩ := ih ht
    rw [List.foldlM_cons] at hlast
    obtain ⟨t', hstep, hnil⟩ := Option.bind_eq_some_iff.mp hlast
    obtain rfl : t' = s := Option.some.inj hnil
    obtain ⟨codes', hcodes'⟩ := lzwStep_codes hstep codes
    refine ⟨codes', ?_⟩
    rw [hcodes]
    simp only [Option.bind_eq_bind, Option.bind_some, List.foldlM_cons, List.foldlM_nil, hcodes']
    rfl

theorem codesLoop_succ (chunkStart chunkEnd : ℕ) (s1 : Str) (k : ℕ) :
    codesLoop chunkStart chunkEnd s1 (k+1) =
      (codesLoop chunkStart chunkEnd s1 k).bind
        (fun t => codesStep chunkEnd s1 t (chunkStart+k)) := by
  unfold codesLoop
  rw [Option.bind_assoc]
  apply congrArg
  apply funext
  intro first
  rw [List.range'_1_concat, List.foldlM_append]
  simp only [Option.bind_eq_bind, List.foldlM_cons, List.foldlM_nil, Option.pure_def,
    Option.bind_fun_some]

/-- What holds of `table`, `p` and `code` when `codes` have been emitted and the bytes
`consumed` have been taken. -/
structure LzwInvariant (d : LzwDict) (codes : List ℕ) (consumed : Str) : Prop where
  prefixes : ∀ u v, u ≠ [] → (d.table.find (u ++ v)).isSome → (d.table.find u).isSome
  numbered : ∀ c, c < d.code ↔ ∃ u, d.table.find u = some c
  distinct : ∀ u v c, d.table.find u = some c → d.table.find v = some c → u = v
  key : (d.table.find d.p).isSome
  decoded : ∃ phrases, List.Forall₂ (fun c u => d.table.find u = some c) codes phrases ∧
    phrases.flatten ++ d.p = consumed

theorem LzwDict.Follows.invariant {d : LzwDict} {w : PhraseWriter Byte} {codes : List ℕ}
    {consumed : Str} (h : d.Follows w) (ht : w.Tracks codes consumed) :
    LzwInvariant d codes consumed := by
  obtain ⟨phrases, hphrases, hconsumed⟩ := ht.decoded
  refine ⟨?_, ?_, ?_, ?_, phrases, ?_, ?_⟩
  · intro u v hu huv
    rw [h.table.isSome_iff] at huv ⊢
    exact ht.closed u v hu huv
  · intro c
    rw [h.code]
    constructor
    · intro hc
      exact ⟨w.dict[c], (h.table _ c).mpr (List.getElem?_eq_getElem hc)⟩
    · rintro ⟨u, hu⟩
      exact (List.getElem?_eq_some_iff.mp ((h.table u c).mp hu)).1
  · intro u v c hu hv
    exact Option.some.inj (((h.table u c).mp hu).symm.trans ((h.table v c).mp hv))
  · rw [h.p, h.table.isSome_iff]
    exact ht.ready.mem
  · exact hphrases.imp (fun c u hc => (h.table u c).mpr hc)
  · rw [h.p]
    exact hconsumed

/-- After `k` iterations on `chunk` the loop follows the writer `w`: it has consumed the
first `k+1` bytes, or all of them, and the rest of the codes is in front of it. -/
structure LoopFollows (chunk : Str) (k : ℕ) (d : LzwDict) (codes : List ℕ)
    (w : PhraseWriter Byte) :
    Prop where
  follows : d.Follows w
  tracks : w.Tracks codes (chunk.take (k+1))
  rest : lzwCodes chunk = codes ++ w.codes (chunk.drop (k+1))

section Chunk
variable {chunkStart chunkEnd : ℕ} {s1 : Str} {k : ℕ} {d : LzwDict} {codes : List ℕ}
  {w : PhraseWriter Byte}

theorem loopFollows_start (hle : chunkStart ≤ chunkEnd) (hend : chunkEnd < s1.length) :
    LoopFollows (slice s1 chunkStart chunkEnd) 0 ⟨initialTable, [s1[chunkStart]], 256⟩ []
      ⟨baseDict, [s1[chunkStart]]⟩ := by
  rw [slice_eq_cons s1 chunkStart chunkEnd hle hend]
  refine ⟨follows_start _, ?_, ?_⟩
  · rw [List.take_succ_cons, List.take_zero]
    exact PhraseWriter.tracks_start length_of_mem_baseDict mem_baseDict _
  · rw [lzwCodes_eq_writer, List.drop_succ_cons, List.drop_zero, List.nil_append]

theorem slice_getElem? (s : Str) (first last i : ℕ) (hi : first+i ≤ last)
    (hlast : last < s.length) :
    (slice s first last)[i]? = some s[first+i] := by
  unfold slice
  rw [List.getElem?_take, if_pos (by omega), List.getElem?_drop, List.getElem?_eq_getElem]

/-- In front of the chunk end an iteration is a step of the writer on the next byte. -/
theorem LoopFollows.next (h : LoopFollows (slice s1 chunkStart chunkEnd) k d codes w)
    (hend : chunkEnd < s1.length) (hk : chunkStart+k < chunkEnd) :
    ∃ d' codes' w', codesStep chunkEnd s1 (d, codes) (chunkStart+k) = some (d', codes') ∧
      LoopFollows (slice s1 chunkStart chunkEnd) (k+1) d' codes' w' := by
  have hbyte := slice_getElem? s1 chunkStart chunkEnd (k+1) (by omega) hend
  obtain ⟨hbound, hget⟩ := List.getElem?_eq_some_iff.mp hbyte
  have hc : nextChar chunkEnd s1 (chunkStart+k) = some [s1[chunkStart+(k+1)]] := by
    rw [nextChar, if_pos (by omega)]
    exact congrArg (Option.map _) (charAt_of_lt s1 (chunkStart+(k+1)) (by omega))
  obtain ⟨hcode, hnext⟩ := h.follows.lookup h.tracks.ready s1[chunkStart+(k+1)]
  refine ⟨_, _, (w.step s1[chunkStart+(k+1)]).1, by rw [codesStep, hc, Option.map_some], hnext,
    ?_, ?_⟩
  · rw [hcode, List.take_add_one, hbyte]
    exact h.tracks.step _
  · rw [hcode, h.rest, List.drop_eq_getElem_cons hbound, hget, PhraseWriter.codes_cons,
      List.append_assoc]

/-- The last iteration has an empty `c`: it finds `p` and changes nothing. -/
theorem LoopFollows.last (h : LoopFollows (slice s1 chunkStart chunkEnd) k d codes w)
    (hle : chunkStart ≤ chunkEnd) (hend : chunkEnd < s1.length) (hk : chunkStart+k = chunkEnd) :
    codesStep chunkEnd s1 (d, codes) (chunkStart+k) = some (d, codes) ∧
      LoopFollows (slice s1 chunkStart chunkEnd) (k+1) d codes w := by
  have hlen := length_slice s1 chunkStart chunkEnd hle hend
  have htracks := h.tracks
  have hrest := h.rest
  have hc : nextChar chunkEnd s1 (chunkStart+k) = some [] := if_neg (fun hne => hne hk)
  have hstay := h.follows.lookup_nil htracks.ready
  refine ⟨?_, h.follows, ?_, ?_⟩
  · rw [codesStep, hc, Option.map_some, hstay]
    simp only [Option.toList_none, List.append_nil]
  · -- all bytes have been consumed before
    rw [List.take_of_length_le (by omega)] at htracks ⊢
    exact htracks
  · rw [List.drop_eq_nil_of_le (by omega)] at hrest ⊢
    exact hrest

theorem codesLoop_follows (hle : chunkStart ≤ chunkEnd) (hend : chunkEnd < s1.length) (k : ℕ)
    (hk : k ≤ chunkEnd+1-chunkStart) :
    ∃ d codes w, codesLoop chunkStart chunkEnd s1 k = some (d, codes) ∧
      LoopFollows (slice s1 chunkStart chunkEnd) k d codes w := by
  induction k with
  | zero =>
    refine ⟨_, _, _, ?_, loopFollows_start hle hend⟩
    rw [codesLoop, charAt_of_lt s1 chunkStart (by omega)]
    rfl
  | succ k ih =>
    obtain ⟨d, codes, w, hloop, h⟩ := ih (by omega)
    rw [codesLoop_succ, hloop, Option.bind_some]
    -- a byte follows in every iteration but the last one
    rcases Nat.lt_or_ge (chunkStart+k) chunkEnd with hlt | hge
    · exact h.next hend hlt
    · obtain ⟨hstep, hlast⟩ := h.last hle hend (by omega)
      exact ⟨d, codes, w, hstep, hlast⟩

end Chunk

/-- `LZW` on a range of a string: the invariant of every iteration, which a buffer with room
comes to, the emitted codes, what is packed, and that only the bytes of the range count. -/
theorem lzw_greedy (s1 : Str) (chunkStart chunkEnd : ℕ) (hle : chunkStart ≤ chunkEnd)
    (hend : chunkEnd < s1.length) :
    (∀ k ≤ chunkEnd+1-chunkStart, ∃ d codes,
      codesLoop chunkStart chunkEnd s1 k = some (d, codes) ∧
      LzwInvariant d codes ((slice s1 chunkStart chunkEnd).take (k+1)) ∧
      (∀ buf s, lzwLoop chunkStart chunkEnd s1 buf k = some s → s.dict = d) ∧
      ∀ outputCode : List Byte, 2*(chunkEnd-chunkStart+1) ≤ outputCode.length →
        codeBytes (lzwCodes (slice s1 chunkStart chunkEnd)).length < outputCode.length →
        ∃ buf s, clearOutput ((chunkEnd-chunkStart+1)*2) outputCode = some buf ∧
          lzwLoop chunkStart chunkEnd s1 buf k = some s) ∧
    (∃ d codes, codesLoop chunkStart chunkEnd s1 (chunkEnd+1-chunkStart) = some (d, codes) ∧
      codes ++ [(d.table.index d.p 0).2] =
        (greedyParse baseDict (slice s1 chunkStart chunkEnd)).map Prod.fst) ∧
    (∀ outputCode, lzw chunkStart chunkEnd s1 outputCode =
      (clearOutput ((chunkEnd-chunkStart+1)*2) outputCode).bind (fun buf =>
        (packCodes 0 ((greedyParse baseDict (slice s1 chunkStart chunkEnd)).map Prod.fst)
          ⟨buf, 0⟩).bind padOutput)) ∧
    ∀ (s1' : Str) (chunkStart' chunkEnd' : ℕ), chunkStart' ≤ chunkEnd' →
      chunkEnd' < s1'.length →
      slice s1' chunkStart' chunkEnd' = slice s1 chunkStart chunkEnd → ∀ outputCode,
        lzw chunkStart' chunkEnd' s1' outputCode = lzw chunkStart chunkEnd s1 outputCode := by
  have hlen := length_slice s1 chunkStart chunkEnd hle hend
  refine ⟨?_, ?_, ?_, ?_⟩
  · intro k hk
    obtain ⟨d, codes, w, hloop, h⟩ := codesLoop_follows hle hend k hk
    refine ⟨d, codes, hloop, h.follows.invariant h.tracks, ?_, ?_⟩
    · intro buf s hs
      obtain ⟨codes', hcodes'⟩ := lzwLoop_codes hs
      exact congrArg Prod.fst (Option.some.inj (hcodes'.symm.trans hloop))
    · intro outputCode hclear hpad
      obtain ⟨out, hlzw, -⟩ := lzw_spec hle hend hclear hpad
      exact lzwLoop_defined hlzw hk
  · obtain ⟨d, codes, w, hloop, h⟩ :=
      codesLoop_follows hle hend (chunkEnd+1-chunkStart) le_rfl
    refine ⟨d, codes, hloop, ?_⟩
    -- nothing is left, so the writer has the code of `p` only
    rw [← lzwCodes_eq_greedy, h.rest, List.drop_eq_nil_of_le (by omega),
      h.follows.index h.tracks.ready]
    rfl
  · intro outputCode
    rw [← lzwCodes_eq_greedy]
    exact lzw_eq_packCodes chunkStart chunkEnd s1 outputCode hle hend
  · intro s1' chunkStart' chunkEnd' hle' hend' hslice outputCode
    have hlen' := length_slice s1' chunkStart' chunkEnd' hle' hend'
    rw [hslice, hlen] at hlen'
    rw [lzw_eq_packCodes _ _ _ _ hle hend, lzw_eq_packCodes _ _ _ _ hle' hend', hslice, hlen']

/-- The same two bytes at two places. -/
theorem lzw_greedy_ab :
    (∃ d codes, codesLoop 0 1 [65, 66, 68] 2 = some (d, codes) ∧
      LzwInvariant d codes [65, 66]) ∧
      lzw 1 2 [67, 65, 66] [1, 2, 3, 4, 5] = lzw 0 1 [65, 66, 68] [1, 2, 3, 4, 5] := by
  obtain ⟨hinv, -, -, hlocal⟩ := lzw_greedy [65, 66, 68] 0 1 (by decide) (by decide)
  obtain ⟨d, codes, hloop, hd, -⟩ := hinv 2 (by decide)
  exact ⟨⟨d, codes, hloop, hd⟩, hlocal [67, 65, 66] 1 2 (by decide) (by decide) rfl _⟩

end Sync532
