import Sync532.DedupTable

namespace Sync532
variable {κ : Type*} [DecidableEq κ]

/-- One more call, with its answer behind the earlier ones. -/
def dedupCall (s : UMap κ (BitVec 32) × List (BitVec 32)) (c : κ × BitVec 32) :
    UMap κ (BitVec 32) × List (BitVec 32) :=
  let (umap, sent) := deduplication s.1 c.2 c.1
  (umap, s.2 ++ [sent])

/-- The table and the answers after the calls, each given by its key and its index. -/
def dedupHistory (calls : List (κ × BitVec 32)) : UMap κ (BitVec 32) × List (BitVec 32) :=
  calls.foldl dedupCall (UMap.empty, [])

theorem dedupHistory_append_singleton (calls : List (κ × BitVec 32)) (c : κ × BitVec 32) :
    dedupHistory (calls ++ [c]) =
      ((deduplication (dedupHistory calls).1 c.2 c.1).1,
        (dedupHistory calls).2 ++ [(deduplication (dedupHistory calls).1 c.2 c.1).2]) := by
  rw [dedupHistory, List.foldl_append]
  rfl

/-- No call leaves the 0 behind that its lookup may enter. -/
theorem deduplication_ne_zero {umap : UMap κ (BitVec 32)} (h : ∀ k, umap.find k ≠ some 0)
    {i : BitVec 32} (hi : i+1 ≠ 0) (k k' : κ) :
    (deduplication umap i k).1.find k' ≠ some 0 := by
  unfold deduplication UMap.index
  rcases hfind : umap.find k with _ | v
  · -- an absent key gets the 0 first and then the index
    simp only [ne_eq, not_true_eq_false, if_false]
    by_cases hk : k' = k
    · rw [hk, UMap.find_set_self]
      exact fun he => hi (Option.some.inj he)
    · rw [UMap.find_set_of_ne _ _ hk, UMap.find_set_of_ne _ _ hk]
      exact h k'
  · have hv : v ≠ 0 := fun he => h k (he ▸ hfind)
    simp only [ne_eq, hv, not_false_eq_true, if_true]
    exact h k'

/-- The index of the first call with the key. -/
def firstIndex (calls : List (κ × BitVec 32)) (k : κ) : Option (BitVec 32) :=
  firstValue some calls (some k)

theorem firstIndex_eq_none (calls : List (κ × BitVec 32)) (k : κ) :
    firstIndex calls k = none ↔ ∀ c ∈ calls, c.1 ≠ k := by
  simp only [firstIndex, firstValue_eq_none, ne_eq, Option.some.injEq]

theorem firstIndex_append (calls later : List (κ × BitVec 32)) (k : κ) :
    firstIndex (calls ++ later) k = (firstIndex calls k).or (firstIndex later k) :=
  firstValue_append some calls later (some k)

theorem firstIndex_cons_self (k : κ) (j : BitVec 32) (calls : List (κ × BitVec 32)) :
    firstIndex ((k, j) :: calls) k = some j := by
  simp [firstIndex, firstValue]

theorem mem_of_firstIndex {calls : List (κ × BitVec 32)} {k : κ} {v : BitVec 32}
    (h : firstIndex calls k = some v) : (k, v) ∈ calls := by
  obtain ⟨c, hc, rfl⟩ := Option.map_eq_some_iff.mp h
  have hkey := List.find?_some (p := fun c : κ × BitVec 32 => decide (some c.1 = some k)) hc
  have hk : c.1 = k := Option.some.inj (of_decide_eq_true hkey)
  rw [← hk]
  exact List.mem_of_find?_eq_some hc

theorem dedupHistory_remembers (calls : List (κ × BitVec 32))
    (hidx : ∀ c ∈ calls, c.2.toNat < 2^31) :
    (dedupHistory calls).2 = firstAnswers some (orFresh (-1)) [] calls ∧
      Remembers some (dedupHistory calls).1 calls ∧
        ∀ k, (dedupHistory calls).1.find k ≠ some 0 := by
  induction calls using List.reverseRecOn with
  | nil => exact ⟨rfl, remembers_nil some, fun k => by simp [dedupHistory]⟩
  | append_singleton calls c ih =>
    obtain ⟨hanswers, htable, hzero⟩ := ih (fun d hd => hidx d (List.mem_append_left _ hd))
    have hc := hidx c (List.mem_append_right _ (List.mem_singleton_self c))
    obtain ⟨hanswer, hnext⟩ := deduplication_remembers htable c.1 rfl c.2 hc
    rw [dedupHistory_append_singleton, firstAnswers_append, List.nil_append]
    refine ⟨?_, hnext, deduplication_ne_zero hzero (succ_ne_zero_of_nonneg hc) c.1⟩
    rw [hanswers, hanswer]
    rfl

/-- The table holds one more than the first index of each key, and nothing else. -/
theorem dedupHistory_find (calls : List (κ × BitVec 32))
    (hidx : ∀ c ∈ calls, c.2.toNat < 2^31) (k : κ) :
    (dedupHistory calls).1.find k = (firstIndex calls k).map (· + 1) := by
  obtain ⟨-, htable, hzero⟩ := dedupHistory_remembers calls hidx
  have hindex :
      ((dedupHistory calls).1.find k).getD 0 = ((firstIndex calls k).map (· + 1)).getD 0 :=
    htable.index k
  rcases hfirst : firstIndex calls k with _ | v
  · rw [hfirst] at hindex
    rcases hfind : (dedupHistory calls).1.find k with _ | u
    · rfl
    · -- the lookup reads 0 for a new key, which is no entry
      rw [hfind] at hindex
      obtain rfl : u = 0 := hindex
      exact absurd hfind (hzero k)
  · rw [hfirst] at hindex
    have hv := succ_ne_zero_of_nonneg (hidx _ (mem_of_firstIndex hfirst))
    rcases hfind : (dedupHistory calls).1.find k with _ | u
    · rw [hfind] at hindex
      exact absurd hindex.symm hv
    · rw [hfind] at hindex
      exact congrArg some hindex

/-- The law of the table: what each call of a history answers, that a recorded index
stays, and that no key is left with the marker 0. -/
theorem deduplication_history (calls : List (κ × BitVec 32))
    (hidx : ∀ c ∈ calls, c.2.toNat < 2^31-1) :
    (∀ pre k i post, calls = pre ++ (k, i) :: post →
      ∃ answer, (dedupHistory calls).2[pre.length]? = some answer ∧
        (answer = -1 ↔ ∀ c ∈ pre, c.1 ≠ k) ∧
        ∀ pre₁ j post₁, pre = pre₁ ++ (k, j) :: post₁ →
          (∀ c ∈ pre₁, c.1 ≠ k) → answer = j) ∧
    ∀ pre post, calls = pre ++ post → ∀ k,
      ((dedupHistory pre).1.find k).isSome = decide (∃ c ∈ pre, c.1 = k) ∧
      (dedupHistory pre).1.find k ≠ some 0 ∧
      ∀ v, (dedupHistory pre).1.find k = some v → (dedupHistory calls).1.find k = some v := by
  have hnonneg : ∀ c ∈ calls, c.2.toNat < 2^31 := by
    intro c hc
    have := hidx c hc
    omega
  obtain ⟨hanswers, -, -⟩ := dedupHistory_remembers calls hnonneg
  refine ⟨?_, ?_⟩
  · rintro pre k i post rfl
    have hat : (dedupHistory (pre ++ (k, i) :: post)).2[pre.length]? =
        some ((firstIndex pre k).getD (-1)) := by
      rw [hanswers]
      exact firstAnswers_at some (orFresh (-1)) pre post (k, i)
    refine ⟨_, hat, ?_, ?_⟩
    · rw [← firstIndex_eq_none pre k]
      rcases hfirst : firstIndex pre k with _ | v
      · simp only [Option.getD_none]
      · -- a recorded index is not negative, so it is not taken for -1
        have hv : v.toNat < 2^31 := hnonneg _ (List.mem_append_left _ (mem_of_firstIndex hfirst))
        simp only [Option.getD_some, reduceCtorEq, iff_false]
        rintro rfl
        have hmax : (-1 : BitVec 32).toNat = 2^32-1 := by decide
        omega
    · rintro pre₁ j post₁ rfl hnew
      rw [firstIndex_append, (firstIndex_eq_none pre₁ k).mpr hnew, Option.none_or,
        firstIndex_cons_self, Option.getD_some]
  · rintro pre post rfl k
    have hpre : ∀ c ∈ pre, c.2.toNat < 2^31 := fun c hc => hnonneg c (List.mem_append_left _ hc)
    obtain ⟨-, -, hzero⟩ := dedupHistory_remembers pre hpre
    refine ⟨?_, hzero k, ?_⟩
    · rw [dedupHistory_find pre hpre k, Option.isSome_map]
      rcases hfirst : firstIndex pre k with _ | v
      · have hnew := (firstIndex_eq_none pre k).mp hfirst
        apply (decide_eq_false _).symm
        rintro ⟨c, hc, he⟩
        exact hnew c hc he
      · exact (decide_eq_true ⟨(k, v), mem_of_firstIndex hfirst, rfl⟩).symm
    · intro v hv
      rw [dedupHistory_find pre hpre k] at hv
      obtain ⟨u, hu, rfl⟩ := Option.map_eq_some_iff.mp hv
      rw [dedupHistory_find _ hnonneg k, firstIndex_append, hu, Option.some_or, Option.map_some]

/-- Index 0, the same key again, and another key between them. -/
theorem deduplication_history_aba :
    (dedupHistory [("a", 0), ("b", 1), ("a", 2)]).2[2]? = some 0 := by
  obtain ⟨hanswer, -⟩ :=
    deduplication_history [("a", 0), ("b", 1), ("a", (2 : BitVec 32))] (by decide)
  obtain ⟨answer, hget, -, hfirst⟩ := hanswer [("a", 0), ("b", 1)] "a" 2 [] rfl
  rw [hfirst [] 0 [("b", 1)] rfl (by simp)] at hget
  exact hget

end Sync532
