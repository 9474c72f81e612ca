import Mathlib.Data.List.TakeWhile
import Sync532.DedupModel
import Sync532.FirstSeen

namespace Sync532
variable {β κ : Type*} [DecidableEq κ]

/-- The table after the calls: one more than the first index of each key, and the
indices are non-negative. -/
structure Remembers (key : β → Option κ) (umap : UMap κ (BitVec 32))
    (calls : List (β × BitVec 32)) : Prop where
  index : ∀ k, (umap.find k).getD 0 = ((firstValue key calls (some k)).map (· + 1)).getD 0
  nonneg : ∀ c ∈ calls, c.2.toNat < 2^31

theorem remembers_nil (key : β → Option κ) :
    Remembers key (UMap.empty : UMap κ (BitVec 32)) [] :=
  ⟨fun _ => rfl, fun _ hc => absurd hc List.not_mem_nil⟩

theorem succ_ne_zero_of_nonneg {i : BitVec 32} (h : i.toNat < 2^31) : i+1 ≠ 0 := by
  intro he
  have hone : (1 : BitVec 32).toNat = 1 := rfl
  have hzero : (0 : BitVec 32).toNat = 0 := rfl
  have hnat := congrArg BitVec.toNat he
  rw [BitVec.toNat_add, hone, hzero] at hnat
  omega

theorem deduplication_eq (umap : UMap κ (BitVec 32)) (i : BitVec 32) (k : κ) :
    (deduplication umap i k).2 =
        (if (umap.find k).getD 0 ≠ 0 then (umap.find k).getD 0-1 else -1) ∧
      ∀ k', ((deduplication umap i k).1.find k').getD 0 =
        if (umap.find k).getD 0 = 0 ∧ k' = k then i+1 else (umap.find k').getD 0 := by
  unfold deduplication UMap.index
  rcases hfind : umap.find k with _ | v
  · simp only [Option.getD_none, ne_eq, not_true_eq_false, if_false, true_and]
    intro k'
    by_cases hk : k' = k
    · rw [hk, UMap.find_set_self, if_pos rfl, Option.getD_some]
    · rw [UMap.find_set_of_ne _ _ hk, UMap.find_set_of_ne _ _ hk, if_neg hk]
  · simp only [Option.getD_some]
    -- a lookup leaves 0 behind for an absent key, so an entry 0 counts as none
    by_cases hv : v = 0
    · simp only [hv, ne_eq, not_true_eq_false, if_false, true_and]
      intro k'
      by_cases hk : k' = k
      · rw [hk, UMap.find_set_self, if_pos rfl, Option.getD_some]
      · rw [UMap.find_set_of_ne _ _ hk, if_neg hk]
    · simp only [ne_eq, hv, not_false_eq_true, if_true, false_and, if_false,
        implies_true, and_self]

/-- The answer is the first index of the key, or -1, and the call is remembered. -/
theorem deduplication_remembers {key : β → Option κ} {umap : UMap κ (BitVec 32)}
    {calls : List (β × BitVec 32)} (h : Remembers key umap calls) (b : β) {k : κ}
    (hb : key b = some k) (i : BitVec 32) (hi : i.toNat < 2^31) :
    (deduplication umap i k).2 = (firstValue key calls (key b)).getD (-1) ∧
      Remembers key (deduplication umap i k).1 (calls ++ [(b, i)]) := by
  obtain ⟨hanswer, htable⟩ := deduplication_eq umap i k
  have hidx := h.index k
  have hnonneg : ∀ c ∈ calls ++ [(b, i)], c.2.toNat < 2^31 := by
    intro c hc
    rcases List.mem_append.mp hc with hc | hc
    · exact h.nonneg c hc
    · rw [List.mem_singleton.mp hc]
      exact hi
  rw [hb]
  -- without an earlier call the key is entered, with one the table stays
  rcases hfirst : firstValue key calls (some k) with _ | v
  · rw [hfirst, Option.map_none, Option.getD_none] at hidx
    refine ⟨by rw [hanswer, if_neg (not_not.mpr hidx)]; rfl, ?_, hnonneg⟩
    intro k'
    rw [htable, firstValue_append, firstValue_singleton, hb, h.index k']
    by_cases hk : k' = k
    · rw [if_pos ⟨hidx, hk⟩, hk, hfirst, if_pos rfl]
      rfl
    · rw [if_neg (fun hboth => hk hboth.2), if_neg (fun he => hk (Option.some.inj he).symm),
        Option.or_none]
  · obtain ⟨c, hc, rfl⟩ := Option.map_eq_some_iff.mp hfirst
    have hne := succ_ne_zero_of_nonneg (h.nonneg c (List.mem_of_find?_eq_some hc))
    rw [hfirst, Option.map_some, Option.getD_some] at hidx
    refine ⟨?_, ?_, hnonneg⟩
    · rw [hanswer, hidx, if_pos hne]
      exact BitVec.add_sub_cancel c.2 1
    · intro k'
      rw [htable, firstValue_append, firstValue_singleton, hb, h.index k', hidx]
      rw [if_neg (fun hboth => hne hboth.1)]
      by_cases hk : k' = k
      · rw [hk, hfirst]
        rfl
      · rw [if_neg (fun he => hk (Option.some.inj he).symm), Option.or_none]

theorem cString_cut {d : List Byte} (stack : List Byte) (hd : 0 ∈ d) :
    cString (d ++ stack) = some (d.takeWhile (· ≠ 0)) ∧
      (d.takeWhile (· ≠ 0)).length < d.length := by
  have hshort : (d.takeWhile (· ≠ 0)).length < d.length := by
    apply lt_of_le_of_ne (List.takeWhile_sublist _).length_le
    intro hlen
    have hall := List.takeWhile_eq_self_iff.mp ((List.takeWhile_sublist _).eq_of_length hlen)
    simpa using hall 0 hd
  refine ⟨?_, hshort⟩
  rw [cString, if_pos (List.mem_append_left _ hd), List.takeWhile_append, if_neg hshort.ne]

theorem cString_whole {d : List Byte} (stack : List Byte) (hd : 0 ∉ d) :
    cString (d ++ stack) =
      if 0 ∈ stack then some (d ++ stack.takeWhile (· ≠ 0)) else none := by
  have hall : d.takeWhile (· ≠ 0) = d := by
    apply List.takeWhile_eq_self_iff.mpr
    intro b hb
    exact decide_eq_true (fun he => hd (he ▸ hb))
  simp only [cString, List.mem_append, hd, false_or, List.takeWhile_append, hall, if_true]

section Keys
variable (sha : Str → Digest) (content : β → Str) (stack : β → List Byte)

/-- The key of a call that hashes `content` with the bytes `stack` behind the array. -/
def keyOf (b : β) : Option Str := cString ((sha (content b)).bytes ++ stack b)

/-- What the digests and the stack have to be like for the keys to stand for the
contents. -/
structure KeysFaithful (calls : List β) : Prop where
  terminated : ∀ c ∈ calls, 0 ∈ (sha (content c)).bytes ∨ 0 ∈ stack c
  repeated : ∀ c ∈ calls, ∀ c' ∈ calls, content c = content c' →
    0 ∉ (sha (content c)).bytes →
    (stack c).takeWhile (· ≠ 0) = (stack c').takeWhile (· ≠ 0)
  distinct : ∀ c ∈ calls, ∀ c' ∈ calls, content c ≠ content c' →
    0 ∈ (sha (content c)).bytes →
    0 ∈ (sha (content c')).bytes →
    (sha (content c)).bytes.takeWhile (· ≠ 0) ≠ (sha (content c')).bytes.takeWhile (· ≠ 0)

variable {sha content stack}

theorem key_isSome_iff (c : β) :
    (keyOf sha content stack c).isSome ↔ 0 ∈ (sha (content c)).bytes ∨ 0 ∈ stack c := by
  rw [keyOf, cString, ← List.mem_append]
  split_ifs with h <;> simpa using h

theorem key_cut {c : β} (hd : 0 ∈ (sha (content c)).bytes) :
    keyOf sha content stack c = some ((sha (content c)).bytes.takeWhile (· ≠ 0)) :=
  (cString_cut (stack c) hd).1

theorem key_whole {c : β} (hd : 0 ∉ (sha (content c)).bytes) (hs : 0 ∈ stack c) :
    keyOf sha content stack c =
      some ((sha (content c)).bytes ++ (stack c).takeWhile (· ≠ 0)) :=
  (cString_whole (stack c) hd).trans (if_pos hs)

theorem key_cut_ne_whole {c c' : β} (hd : 0 ∈ (sha (content c)).bytes)
    (hd' : 0 ∉ (sha (content c')).bytes) (hs' : 0 ∈ stack c') :
    keyOf sha content stack c ≠ keyOf sha content stack c' := by
  intro he
  rw [key_cut hd, key_whole hd' hs', Option.some.injEq] at he
  have hshort := (cString_cut [] hd).2
  have hlen := congrArg List.length he
  rw [List.length_append, (sha (content c')).size] at hlen
  rw [(sha (content c)).size] at hshort
  omega

theorem keysFaithful_iff (calls : List β)
    (hsha : ∀ c ∈ calls, ∀ c' ∈ calls, sha (content c) = sha (content c') →
      content c = content c') :
    KeysFaithful sha content stack calls ↔
      (∀ c ∈ calls, (keyOf sha content stack c).isSome) ∧
        ∀ c ∈ calls, ∀ c' ∈ calls,
          keyOf sha content stack c = keyOf sha content stack c' ↔ content c = content c' := by
  constructor
  · intro h
    refine ⟨fun c hc => (key_isSome_iff c).mpr (h.terminated c hc), ?_⟩
    intro c hc c' hc'
    by_cases hd : 0 ∈ (sha (content c)).bytes <;> by_cases hd' : 0 ∈ (sha (content c')).bytes
    · -- both are cut
      rw [key_cut hd, key_cut hd', Option.some.injEq]
      constructor
      · intro he
        by_contra hne
        exact h.distinct c hc c' hc' hne hd hd' he
      · exact fun he => by rw [he]
    · -- one key is cut and the other one whole, so they differ, as the digests do
      have hs' := (h.terminated c' hc').resolve_left hd'
      exact iff_of_false (key_cut_ne_whole hd hd' hs') (fun he => hd' (he ▸ hd))
    · have hs := (h.terminated c hc).resolve_left hd
      exact iff_of_false (key_cut_ne_whole hd' hd hs).symm (fun he => hd (he ▸ hd'))
    · -- both are whole, so the digests are their first 20 bytes
      have hs := (h.terminated c hc).resolve_left hd
      have hs' := (h.terminated c' hc').resolve_left hd'
      rw [key_whole hd hs, key_whole hd' hs', Option.some.injEq]
      constructor
      · intro he
        have hsize := (sha (content c)).size.trans (sha (content c')).size.symm
        have hdigest := (List.append_inj he hsize).1
        have hsame : sha (content c) = sha (content c') := by
          cases hc₁ : sha (content c)
          cases hc₂ : sha (content c')
          simpa only [hc₁, hc₂, Digest.mk.injEq] using hdigest
        exact hsha c hc c' hc' hsame
      · intro he
        rw [he, h.repeated c hc c' hc' he hd]
  · rintro ⟨hsome, hsame⟩
    refine ⟨fun c hc => (key_isSome_iff c).mp (hsome c hc), ?_, ?_⟩
    · intro c hc c' hc' he hd
      have hd' : 0 ∉ (sha (content c')).bytes := he ▸ hd
      have hs := ((key_isSome_iff c).mp (hsome c hc)).resolve_left hd
      have hs' := ((key_isSome_iff c').mp (hsome c' hc')).resolve_left hd'
      have hkey := (hsame c hc c' hc').mpr he
      rw [key_whole hd hs, key_whole hd' hs', Option.some.injEq, he] at hkey
      exact List.append_cancel_left hkey
    · intro c hc c' hc' hne hd hd' he
      apply hne
      rw [← hsame c hc c' hc', key_cut hd, key_cut hd', he]

end Keys

section Runs
variable {sha : Str → Digest}

theorem dedupRun_answers {umap : UMap Str (BitVec 32)} {earlier : List (ShaCall × BitVec 32)}
    (h : Remembers (ShaCall.key sha) umap earlier) (calls : List (ShaCall × BitVec 32))
    (hkeys : ∀ c ∈ calls, (c.1.key sha).isSome) (hidx : ∀ c ∈ calls, c.2.toNat < 2^31) :
    dedupRun sha umap calls =
      some (firstAnswers (ShaCall.key sha) (orFresh (-1)) earlier calls) := by
  -- the table remembers `earlier`, which grows by one call in each step
  induction calls generalizing umap earlier with
  | nil => rfl
  | cons c calls ih =>
    obtain ⟨k, hk⟩ := Option.isSome_iff_exists.mp (hkeys c List.mem_cons_self)
    obtain ⟨hanswer, hnext⟩ :=
      deduplication_remembers h c.1 hk c.2 (hidx c List.mem_cons_self)
    have hrest := ih hnext (fun c' hc' => hkeys c' (List.mem_cons_of_mem _ hc'))
      (fun c' hc' => hidx c' (List.mem_cons_of_mem _ hc'))
    rw [dedupRun, hk]
    simp only [Option.bind_eq_bind, Option.bind_some]
    rw [hrest, Option.bind_some, hanswer]
    rfl

theorem dedupRun_keys {umap : UMap Str (BitVec 32)} {calls : List (ShaCall × BitVec 32)}
    {sents : List (BitVec 32)} (h : dedupRun sha umap calls = some sents) :
    ∀ c ∈ calls, (c.1.key sha).isSome := by
  induction calls generalizing umap sents with
  | nil => exact fun _ hc => absurd hc List.not_mem_nil
  | cons c calls ih =>
    rw [dedupRun, Option.bind_eq_bind] at h
    obtain ⟨k, hk, hrest⟩ := Option.bind_eq_some_iff.mp h
    obtain ⟨sents', hsents, -⟩ := Option.bind_eq_some_iff.mp hrest
    intro c' hc'
    rcases List.mem_cons.mp hc' with rfl | hc'
    · rw [hk]
      rfl
    · exact ih hsents c' hc'

theorem dedupRun_content_iff (calls : List ShaCall) :
    (∀ idx : List (BitVec 32), idx.length = calls.length → (∀ i ∈ idx, i.toNat < 2^31) →
      dedupRun sha UMap.empty (calls.zip idx) =
        some (firstAnswers ShaCall.chunk (orFresh (-1)) [] (calls.zip idx))) ↔
      (∀ c ∈ calls, (c.key sha).isSome) ∧
        ∀ c ∈ calls, ∀ c' ∈ calls, c.key sha = c'.key sha ↔ c.chunk = c'.chunk := by
  constructor
  · intro h
    have hmap (value : ShaCall → BitVec 32) :
        calls.zip (calls.map value) = calls.map (fun c => (c, value c)) := by
      have hzip : (calls.map id).zip (calls.map value) = calls.map (fun c => (id c, value c)) :=
        List.zip_map'
      rwa [List.map_id] at hzip
    -- two different values are enough to tell from the answers which chunk was met first
    have hrun (value : ShaCall → BitVec 32) (hvalue : ∀ c, value c = 0 ∨ value c = 1) :
        dedupRun sha UMap.empty (calls.map (fun c => (c, value c))) =
          some (firstAnswers ShaCall.chunk (orFresh (-1)) []
            (calls.map (fun c => (c, value c)))) := by
      rw [← hmap]
      apply h _ (List.length_map _)
      intro i hi
      obtain ⟨c, -, rfl⟩ := List.mem_map.mp hi
      rcases hvalue c with hv | hv <;> rw [hv] <;> decide
    -- a run with a result has read every key
    have hkeys (c : ShaCall) (hc : c ∈ calls) : (c.key sha).isSome :=
      dedupRun_keys (hrun (fun _ => 0) (fun _ => Or.inl rfl)) (c, 0)
        (List.mem_map_of_mem hc)
    have hanswers (value : ShaCall → BitVec 32) (hvalue : ∀ c, value c = 0 ∨ value c = 1) :
        firstAnswers (ShaCall.key sha) (orFresh (-1)) [] (calls.map (fun c => (c, value c))) =
          firstAnswers ShaCall.chunk (orFresh (-1)) [] (calls.map (fun c => (c, value c))) := by
      have hidx : ∀ c ∈ calls.map (fun c => (c, value c)), c.2.toNat < 2^31 := by
        intro c hc
        obtain ⟨c, -, rfl⟩ := List.mem_map.mp hc
        rcases hvalue c with hv | hv <;> simp only [hv] <;> decide
      have hsome : ∀ c ∈ calls.map (fun c => (c, value c)), (c.1.key sha).isSome := by
        intro c hc
        obtain ⟨c', hc', rfl⟩ := List.mem_map.mp hc
        exact hkeys c' hc'
      have hkeyrun := dedupRun_answers (remembers_nil (ShaCall.key sha)) _ hsome hidx
      exact Option.some.inj (hkeyrun.symm.trans (hrun value hvalue))
    refine ⟨hkeys, ?_⟩
    intro c hc c' hc'
    constructor
    · exact labels_eq_of_firstAnswers (by decide) (by decide) calls hanswers hc hc'
    · exact labels_eq_of_firstAnswers (by decide) (by decide) calls
        (fun value hvalue => (hanswers value hvalue).symm) hc hc'
  · rintro ⟨hkeys, hsame⟩ idx hlen hidx
    have hmem : ∀ c ∈ calls.zip idx, c.1 ∈ calls ∧ c.2 ∈ idx :=
      fun c hc => List.of_mem_zip hc
    rw [dedupRun_answers (remembers_nil (ShaCall.key sha)) _
      (fun c hc => hkeys c.1 (hmem c hc).1) (fun c hc => hidx c.2 (hmem c hc).2)]
    refine congrArg some (firstAnswers_congr _ _ _ _ _ ?_)
    intro c hc c' hc'
    exact hsame c.1 (hmem c hc).1 c'.1 (hmem c' hc').1

end Runs

/-- Deduplication by the keys of `SHA_HW` is deduplication by content, for all
indices, exactly when the keys are faithful. -/
theorem deduplication_by_content_iff (sha : Str → Digest) (calls : List ShaCall)
    (hsha : ∀ c ∈ calls, ∀ c' ∈ calls, sha c.chunk = sha c'.chunk → c.chunk = c'.chunk) :
    (∀ idx : List (BitVec 32), idx.length = calls.length → (∀ i ∈ idx, i.toNat < 2^31) →
      dedupRun sha UMap.empty (calls.zip idx) =
        some (firstAnswers ShaCall.chunk (orFresh (-1)) [] (calls.zip idx))) ↔
      KeysFaithful sha ShaCall.chunk ShaCall.stack calls :=
  (dedupRun_content_iff calls).trans (keysFaithful_iff calls hsha).symm

/-- SHA-1 on the strings `127`, `351` and `a`, and on `b` as the last case. -/
def sampleSha (chunk : Str) : Digest :=
  if chunk = [0x31, 0x32, 0x37] then
    ⟨[0x00, 0x84, 0x51, 0xa0, 0x5e, 0x1e, 0x7a, 0xa3, 0x2c, 0x75,
      0x11, 0x9d, 0xf9, 0x50, 0xd4, 0x05, 0x26, 0x5e, 0x09, 0x04], rfl⟩
  else if chunk = [0x33, 0x35, 0x31] then
    ⟨[0x00, 0x26, 0x47, 0x6a, 0x20, 0xbf, 0xbd, 0x08, 0x71, 0x41,
      0x55, 0xbb, 0x66, 0xf0, 0xb4, 0xfe, 0xb2, 0xd2, 0x5c, 0x1c], rfl⟩
  else if chunk = [0x61] then
    ⟨[0x86, 0xf7, 0xe4, 0x37, 0xfa, 0xa5, 0xa7, 0xfc, 0xe1, 0x5d,
      0x1d, 0xdc, 0xb9, 0xea, 0xea, 0xea, 0x37, 0x76, 0x67, 0xb8], rfl⟩
  else
    ⟨[0xe9, 0xd7, 0x1f, 0x5e, 0xe7, 0xc9, 0x2d, 0x6d, 0xc9, 0xe9,
      0x2f, 0xfd, 0xad, 0x17, 0xb8, 0xbd, 0x49, 0x41, 0x8f, 0x98], rfl⟩

/-- SHA-1 on 16 bytes `A`, and on 16 bytes `B` as the last case. -/
def letterSha (chunk : Str) : Digest :=
  if chunk = List.replicate 16 0x41 then
    ⟨[0x19, 0xb1, 0x92, 0x8d, 0x58, 0xa2, 0x03, 0x0d, 0x08, 0x02,
      0x3f, 0x3d, 0x70, 0x54, 0x51, 0x6d, 0xbc, 0x18, 0x6f, 0x20], rfl⟩
  else
    ⟨[0xeb, 0xa6, 0x29, 0x20, 0x22, 0xb9, 0xd8, 0xaf, 0xd8, 0x9b,
      0x10, 0x1c, 0x23, 0x55, 0xe1, 0x79, 0x07, 0x93, 0xfb, 0x3b], rfl⟩

/-- The call for a whole message, with a zero byte behind the array. -/
def wholeCall (message : List Byte) (h : 0 < message.length) : ShaCall :=
  ⟨message, 0, message.length-1, [0], by omega, by omega⟩

def call127 : ShaCall := wholeCall [0x31, 0x32, 0x37] (by decide)
def call351 : ShaCall := wholeCall [0x33, 0x35, 0x31] (by decide)

/-- Both digests start with a zero byte, so both keys are empty, and the second
chunk is taken for the first. -/
theorem deduplication_false_match :
    (∀ c ∈ [call127, call351], ∀ c' ∈ [call127, call351],
      sampleSha c.chunk = sampleSha c'.chunk → c.chunk = c'.chunk) ∧
    call127.chunk ≠ call351.chunk ∧
    dedupRun sampleSha UMap.empty [(call127, 0), (call351, 1)] = some [-1, 0] ∧
    dedupRun sampleSha UMap.empty [(call127, 0), (call351, 1)] ≠
      some (firstAnswers ShaCall.chunk (orFresh (-1)) [] [(call127, 0), (call351, 1)]) := by
  refine ⟨?_, by decide, by decide, by decide⟩
  have hne : sampleSha call127.chunk ≠ sampleSha call351.chunk := by decide
  intro c hc c' hc' he
  simp only [List.mem_cons, List.not_mem_nil, or_false] at hc hc'
  rcases hc with rfl | rfl <;> rcases hc' with rfl | rfl
  · rfl
  · exact absurd he hne
  · exact absurd he.symm hne
  · rfl

def callA : ShaCall := wholeCall [0x61] (by decide)
def callB : ShaCall := wholeCall [0x62] (by decide)

/-- Digests without a zero byte: the third chunk is found under the first index. -/
theorem deduplication_aba :
    dedupRun sampleSha UMap.empty [(callA, 4), (callB, 5), (callA, 6)] = some [-1, -1, 4] := by
  have hchunk : ∀ c ∈ [callA, callB, callA], c = callA ∨ c = callB := by simp
  have hne : sampleSha callA.chunk ≠ sampleSha callB.chunk := by decide
  have hA : 0 ∉ (sampleSha callA.chunk).bytes := by decide
  have hB : 0 ∉ (sampleSha callB.chunk).bytes := by decide
  have hiff := deduplication_by_content_iff sampleSha [callA, callB, callA] (by
    intro c hc c' hc' he
    rcases hchunk c hc with rfl | rfl <;> rcases hchunk c' hc' with rfl | rfl
    · rfl
    · exact absurd he hne
    · exact absurd he.symm hne
    · rfl)
  have hanswers :
      firstAnswers ShaCall.chunk (orFresh (-1)) [] ([callA, callB, callA].zip [4, 5, 6]) =
      [-1, -1, (4 : BitVec 32)] := by decide
  rw [← hanswers]
  refine hiff.mpr ⟨?_, ?_, ?_⟩ [4, 5, 6] rfl (by simp)
  · intro c hc
    rcases hchunk c hc with rfl | rfl <;> exact Or.inr (by decide)
  · intro c hc c' hc' _ _
    rcases hchunk c hc with rfl | rfl <;> rcases hchunk c' hc' with rfl | rfl <;> rfl
  · intro c hc c' _ _ hd _
    rcases hchunk c hc with rfl | rfl
    · exact absurd hd hA
    · exact absurd hd hB

end Sync532
