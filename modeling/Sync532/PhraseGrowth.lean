import Sync532.PhraseCodec

/-! How fast phrases grow: an entry is one symbol longer than an entry in front of it,
so `n` codes stand for at most `1+2+...+n` symbols, and one repeated symbol needs no more. -/
namespace Sync532
variable {α : Type*}

/-- The entries of a dictionary that has grown by `n`. -/
def EntriesAtMost (n : ℕ) (dict : List (List α)) : Prop := ∀ s ∈ dict, s.length ≤ n+1

theorem EntriesAtMost.append {n : ℕ} {dict : List (List α)} (h : EntriesAtMost n dict)
    {s : List α} (hs : s.length ≤ n+2) : EntriesAtMost (n+1) (dict ++ [s]) := by
  intro t ht
  rcases List.mem_append.mp ht with ht | ht
  · exact (h t ht).trans (Nat.le_succ _)
  · rw [List.mem_singleton.mp ht]
    exact hs

theorem entriesAtMost_zero {base : List (List α)} (hbase : ∀ s ∈ base, s.length = 1) :
    EntriesAtMost 0 base := fun s hs => (hbase s hs).le

section Writer
variable [DecidableEq α]

/-- The symbols that are still to be written, against the codes for them. -/
theorem PhraseWriter.length_le_codes {w : PhraseWriter α} (hw : w.Ready) {n : ℕ}
    (hn : EntriesAtMost n w.dict) (as : List α) :
    2*(w.p.length+as.length) ≤ (w.codes as).length*(2*n+(w.codes as).length+1) := by
  induction as generalizing w n with
  | nil =>
    have hp := hn w.p hw.mem
    simp only [PhraseWriter.codes, List.length_singleton, List.length_nil]
    omega
  | cons a as ih =>
    by_cases h : w.p ++ [a] ∈ w.dict
    · have hrest := ih (hw.extend h) hn
      rw [codes_extend h]
      rw [List.length_append, List.length_singleton] at hrest
      rwa [List.length_cons, Nat.add_comm as.length 1, ← Nat.add_assoc]
    · -- the phrase that leaves has at most `n+1` symbols, its entry one more
      have hp := hn w.p hw.mem
      have hentry : EntriesAtMost (n+1) (w.dict ++ [w.p ++ [a]]) := by
        apply hn.append
        rw [List.length_append, List.length_singleton]
        omega
      have hrest := ih (hw.emit a) hentry
      rw [codes_emit h]
      simp only [List.length_cons, List.length_nil] at hrest ⊢
      generalize (PhraseWriter.codes ⟨w.dict ++ [w.p ++ [a]], [a]⟩ as).length = k at *
      calc 2*(w.p.length+(as.length+1))
          = 2*w.p.length+2*(0+1+as.length) := by ring
        _ ≤ 2*(n+1)+k*(2*(n+1)+k+1) := by omega
        _ = (k+1)*(2*n+(k+1)+1) := by ring

theorem PhraseWriter.length_le_codes_start {base : List (List α)}
    (hbase : ∀ s ∈ base, s.length = 1) (hall : ∀ a, [a] ∈ base) (x : α) (as : List α) :
    2*(as.length+1) ≤ (PhraseWriter.codes ⟨base, [x]⟩ as).length*
      ((PhraseWriter.codes ⟨base, [x]⟩ as).length+1) := by
  have hw : PhraseWriter.Ready ⟨base, [x]⟩ := ⟨hall x, hall, by simp⟩
  have h := PhraseWriter.length_le_codes hw (entriesAtMost_zero hbase) as
  rwa [Nat.mul_zero, Nat.zero_add, List.length_singleton, Nat.add_comm 1] at h

/-- The dictionary after `j` codes of the message `x x x ..`. -/
def runDict (base : List (List α)) (x : α) (j : ℕ) : List (List α) :=
  base ++ (List.range j).map (fun i => List.replicate (i+2) x)

section Run
variable {base : List (List α)} {x : α} (hbase : ∀ s ∈ base, s.length = 1)

omit [DecidableEq α] in
theorem replicate_mem_runDict {m j : ℕ} (hpos : 1 ≤ m) (hm : m ≤ j) :
    List.replicate (m+1) x ∈ runDict base x j := by
  apply List.mem_append_right
  apply List.mem_map.mpr
  exact ⟨m-1, List.mem_range.mpr (by omega), by rw [show m-1+2 = m+1 by omega]⟩

omit [DecidableEq α] in
include hbase in
theorem replicate_not_mem_runDict (j : ℕ) : List.replicate (j+2) x ∉ runDict base x j := by
  intro hmem
  rcases List.mem_append.mp hmem with h | h
  · have hlen := hbase _ h
    rw [List.length_replicate] at hlen
    omega
  · obtain ⟨i, hi, he⟩ := List.mem_map.mp h
    have hlen := congrArg List.length he
    rw [List.length_replicate, List.length_replicate] at hlen
    have hlt := List.mem_range.mp hi
    omega

/-- The phrase grows until it is the longest entry. -/
theorem PhraseWriter.codes_run_extend (j d m : ℕ) (hpos : 1 ≤ m) (hm : m+d = j+1)
    (as : List α) :
    PhraseWriter.codes ⟨runDict base x j, List.replicate m x⟩ (List.replicate d x ++ as) =
      PhraseWriter.codes ⟨runDict base x j, List.replicate (j+1) x⟩ as := by
  induction d generalizing m with
  | zero => rw [← hm, Nat.add_zero, List.replicate_zero, List.nil_append]
  | succ d ih =>
    have hin : List.replicate m x ++ [x] ∈ runDict base x j := by
      rw [← List.replicate_succ']
      exact replicate_mem_runDict hpos (by omega)
    rw [List.replicate_succ, List.cons_append, codes_extend hin]
    have hrest := ih (m+1) (by omega) (by omega)
    rwa [List.replicate_succ'] at hrest

include hbase in
/-- `j+1` symbols for the next code. -/
theorem PhraseWriter.codes_run_step (j : ℕ) (as : List α) :
    ∃ v, PhraseWriter.codes ⟨runDict base x j, [x]⟩ (List.replicate (j+1) x ++ as) =
      v :: PhraseWriter.codes ⟨runDict base x (j+1), [x]⟩ as := by
  have hout : List.replicate (j+1) x ++ [x] ∉ runDict base x j := by
    rw [← List.replicate_succ']
    exact replicate_not_mem_runDict hbase j
  have hnext : runDict base x (j+1) = runDict base x j ++ [List.replicate (j+1) x ++ [x]] := by
    rw [← List.replicate_succ', runDict, runDict, List.range_succ, List.map_append,
      List.append_assoc]
    rfl
  have hgrow : PhraseWriter.codes ⟨runDict base x j, [x]⟩ (List.replicate j x ++ x :: as) =
      PhraseWriter.codes ⟨runDict base x j, List.replicate (j+1) x⟩ (x :: as) :=
    PhraseWriter.codes_run_extend j j 1 le_rfl (Nat.add_comm 1 j) (x :: as)
  rw [List.replicate_succ', List.append_assoc, List.singleton_append, hgrow, codes_emit hout, hnext,
    ← List.replicate_succ']
  exact ⟨_, rfl⟩

include hbase in
theorem PhraseWriter.length_codes_run (n j : ℕ) :
    (PhraseWriter.codes ⟨runDict base x j, [x]⟩
      (List.replicate (((List.range' (j+1) (n+1)).sum)-1) x)).length = n+1 := by
  induction n generalizing j with
  | zero =>
    have hlast : (List.range' (j+1) (0+1)).sum-1 = j := by simp
    have hend : PhraseWriter.codes ⟨runDict base x j, [x]⟩ (List.replicate j x ++ []) =
        PhraseWriter.codes ⟨runDict base x j, List.replicate (j+1) x⟩ [] :=
      PhraseWriter.codes_run_extend j j 1 le_rfl (Nat.add_comm 1 j) []
    rw [List.append_nil] at hend
    rw [hlast, hend]
    rfl
  | succ n ih =>
    have hsum : (List.range' (j+1) (n+1+1)).sum-1 =
        (j+1)+((List.range' (j+1+1) (n+1)).sum-1) := by
      have hpos : 1 ≤ (List.range' (j+1+1) (n+1)).sum := by
        rw [List.range'_succ, List.sum_cons]
        omega
      rw [List.range'_succ, List.sum_cons]
      omega
    obtain ⟨v, hv⟩ := PhraseWriter.codes_run_step (x := x) hbase j
      (List.replicate ((List.range' (j+1+1) (n+1)).sum-1) x)
    rw [hsum, List.replicate_add, hv, List.length_cons, ih (j+1)]

end Run

end Writer

/-- What a reader can have written after `n+1` codes. -/
structure PhraseReader.Grown (n : ℕ) (r : PhraseReader α) : Prop where
  entries : EntriesAtMost n r.table
  nonempty : ∀ s ∈ r.table, s ≠ []
  symbol : r.symbol.length = 1
  output : 2*r.output.length ≤ (n+1)*(n+2)

theorem PhraseReader.Grown.phrase {n : ℕ} {r : PhraseReader α} (h : r.Grown n) {new : ℕ}
    {s : List α} (hs : r.phrase new = some s) : s.length ≤ n+2 ∧ s ≠ [] := by
  unfold PhraseReader.phrase at hs
  split_ifs at hs
  · obtain ⟨t, ht, rfl⟩ := Option.map_eq_some_iff.mp hs
    have hlen := h.entries t (List.mem_of_getElem? ht)
    have hne := h.nonempty t (List.mem_of_getElem? ht)
    rw [List.length_append, h.symbol]
    exact ⟨by omega, List.append_ne_nil_of_left_ne_nil hne _⟩
  · exact ⟨(h.entries s (List.mem_of_getElem? hs)).trans (Nat.le_succ _),
      h.nonempty s (List.mem_of_getElem? hs)⟩

theorem PhraseReader.Grown.step {n : ℕ} {r r' : PhraseReader α} (h : r.Grown n) {new : ℕ}
    (hstep : r.step new = some r') : r'.Grown (n+1) := by
  simp only [PhraseReader.step, Option.bind_eq_bind, Option.bind_eq_some_iff] at hstep
  obtain ⟨symbols, hsym, first, -, prev, hprev, hr⟩ := hstep
  rw [← Option.some.inj hr]
  have hmem := List.mem_of_getElem? hprev
  have hlen := (h.phrase hsym).1
  refine ⟨?_, ?_, rfl, ?_⟩
  · apply h.entries.append
    have := h.entries prev hmem
    rw [List.length_append, List.length_singleton]
    omega
  · intro s hs
    rcases List.mem_append.mp hs with hs | hs
    · exact h.nonempty s hs
    · rw [List.mem_singleton.mp hs]
      exact List.append_ne_nil_of_right_ne_nil _ (List.cons_ne_nil _ _)
  · have hout := h.output
    calc 2*(r.output ++ symbols).length = 2*r.output.length+2*symbols.length := by
          rw [List.length_append]
          ring
      _ ≤ (n+1)*(n+2)+2*(n+2) := by omega
      _ = (n+1+1)*(n+1+2) := by ring

theorem PhraseReader.Grown.run {n : ℕ} {r r' : PhraseReader α} (h : r.Grown n) (codes : List ℕ)
    (hrun : r.run codes = some r') : r'.Grown (n+codes.length) := by
  induction codes generalizing n r with
  | nil => rwa [← Option.some.inj hrun]
  | cons v codes ih =>
    obtain ⟨r1, hstep, hrest⟩ := Option.bind_eq_some_iff.mp hrun
    have hnext := ih (h.step hstep) hrest
    rwa [List.length_cons, Nat.add_comm codes.length 1, ← Nat.add_assoc]

end Sync532
