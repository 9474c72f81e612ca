import Mathlib.Tactic

/-! A dictionary codec over an arbitrary alphabet. The writer emits the code of
the phrase `p` as soon as the next symbol leaves the dictionary, and enters the
longer phrase. The reader builds the same dictionary one entry late, because
the last symbol of an entry is the first symbol of the phrase behind it. -/
namespace Sync532
variable {α : Type*}

structure PhraseWriter (α : Type*) where
  dict : List (List α)
  p : List α

/-- The current phrase is an entry and every one-symbol phrase is. -/
structure PhraseWriter.Ready (w : PhraseWriter α) : Prop where
  mem : w.p ∈ w.dict
  single : ∀ a, [a] ∈ w.dict
  nonempty : w.p ≠ []

theorem PhraseWriter.Ready.extend {w : PhraseWriter α} (hw : w.Ready) {a : α}
    (h : w.p ++ [a] ∈ w.dict) : PhraseWriter.Ready ⟨w.dict, w.p ++ [a]⟩ :=
  ⟨h, hw.single, by simp⟩

theorem PhraseWriter.Ready.emit {w : PhraseWriter α} (hw : w.Ready) (a : α) :
    PhraseWriter.Ready ⟨w.dict ++ [w.p ++ [a]], [a]⟩ :=
  ⟨List.mem_append_left _ (hw.single a), fun b => List.mem_append_left _ (hw.single b), by simp⟩

section Writer
variable [DecidableEq α]

def PhraseWriter.step (w : PhraseWriter α) (a : α) : PhraseWriter α × Option ℕ :=
  if w.p ++ [a] ∈ w.dict then (⟨w.dict, w.p ++ [a]⟩, none)
  else (⟨w.dict ++ [w.p ++ [a]], [a]⟩, some (w.dict.idxOf w.p))

/-- The codes for `p` and everything behind it. -/
def PhraseWriter.codes : PhraseWriter α → List α → List ℕ
  | w, [] => [w.dict.idxOf w.p]
  | w, a :: as =>
    match w.step a with
    | (w', none) => w'.codes as
    | (w', some v) => v :: w'.codes as

theorem PhraseWriter.step_extend {w : PhraseWriter α} {a : α} (h : w.p ++ [a] ∈ w.dict) :
    w.step a = (⟨w.dict, w.p ++ [a]⟩, none) := if_pos h

theorem PhraseWriter.step_emit {w : PhraseWriter α} {a : α} (h : w.p ++ [a] ∉ w.dict) :
    w.step a = (⟨w.dict ++ [w.p ++ [a]], [a]⟩, some (w.dict.idxOf w.p)) := if_neg h

theorem PhraseWriter.codes_extend {w : PhraseWriter α} {a : α} {as : List α}
    (h : w.p ++ [a] ∈ w.dict) :
    w.codes (a :: as) = PhraseWriter.codes ⟨w.dict, w.p ++ [a]⟩ as := by
  rw [PhraseWriter.codes, step_extend h]

theorem PhraseWriter.codes_emit {w : PhraseWriter α} {a : α} {as : List α}
    (h : w.p ++ [a] ∉ w.dict) : w.codes (a :: as) =
      w.dict.idxOf w.p :: PhraseWriter.codes ⟨w.dict ++ [w.p ++ [a]], [a]⟩ as := by
  rw [PhraseWriter.codes, step_emit h]

theorem PhraseWriter.Ready.getElem?_idxOf {w : PhraseWriter α} (hw : w.Ready) :
    w.dict[w.dict.idxOf w.p]? = some w.p := by
  have hlt := List.idxOf_lt_length_of_mem hw.mem
  rw [List.getElem?_eq_getElem hlt, List.getElem_idxOf hlt]

theorem PhraseWriter.length_codes_le (w : PhraseWriter α) (as : List α) :
    (w.codes as).length ≤ as.length+1 := by
  induction as generalizing w with
  | nil => simp [PhraseWriter.codes]
  | cons a as ih =>
    by_cases h : w.p ++ [a] ∈ w.dict
    · rw [codes_extend h]
      exact (ih _).trans (by simp)
    · rw [codes_emit h, List.length_cons, List.length_cons]
      exact Nat.succ_le_succ (ih _)

/-- A code above the base entries stands for two symbols or more, so the
dictionary has grown by at most all symbols but two when it is emitted. -/
theorem PhraseWriter.codes_bound (base : ℕ) (w : PhraseWriter α) (hw : w.Ready)
    (hlong : ∀ i s, base ≤ i → w.dict[i]? = some s → 2 ≤ s.length) (as : List α) :
    ∀ v ∈ w.codes as, v < base ∨ v+3 ≤ w.dict.length+w.p.length+as.length := by
  -- the code that is emitted now
  have hnow (w : PhraseWriter α) (hw : w.Ready)
      (hlong : ∀ i s, base ≤ i → w.dict[i]? = some s → 2 ≤ s.length) :
      w.dict.idxOf w.p < base ∨ w.dict.idxOf w.p+3 ≤ w.dict.length+w.p.length := by
    have hlt := List.idxOf_lt_length_of_mem hw.mem
    rcases Nat.lt_or_ge (w.dict.idxOf w.p) base with hb | hb
    · exact Or.inl hb
    · have := hlong _ _ hb hw.getElem?_idxOf
      exact Or.inr (by omega)
  induction as generalizing w with
  | nil =>
    intro v hv
    obtain rfl : v = w.dict.idxOf w.p := by simpa [PhraseWriter.codes] using hv
    simpa using hnow w hw hlong
  | cons a as ih =>
    intro v hv
    have hp := List.length_pos_of_ne_nil hw.nonempty
    by_cases h : w.p ++ [a] ∈ w.dict
    · rw [codes_extend h] at hv
      have := ih _ (hw.extend h) hlong v hv
      simp only [List.length_append, List.length_cons, List.length_nil] at this ⊢
      omega
    · rw [codes_emit h, List.mem_cons] at hv
      rcases hv with rfl | hv
      · have := hnow w hw hlong
        simp only [List.length_cons]
        omega
      · have hlong' : ∀ i s, base ≤ i → (w.dict ++ [w.p ++ [a]])[i]? = some s →
            2 ≤ s.length := by
          intro i s hi hs
          rw [List.getElem?_append] at hs
          split_ifs at hs with hlt
          · exact hlong i s hi hs
          · obtain ⟨_, rfl⟩ := List.getElem?_eq_some_iff.mp hs
            simp only [List.getElem_singleton, List.length_append, List.length_cons,
              List.length_nil]
            omega
        have := ih _ (hw.emit a) hlong' v hv
        simp only [List.length_append, List.length_cons, List.length_nil] at this ⊢
        omega

/-- The emitted codes that open an entry, each with the symbol it opens it with. -/
def PhraseWriter.pairs : PhraseWriter α → List α → List (ℕ × α)
  | _, [] => []
  | w, a :: as =>
    match w.step a with
    | (w', none) => w'.pairs as
    | (w', some v) => (v,a) :: w'.pairs as

theorem PhraseWriter.pairs_extend {w : PhraseWriter α} {a : α} {as : List α}
    (h : w.p ++ [a] ∈ w.dict) :
    w.pairs (a :: as) = PhraseWriter.pairs ⟨w.dict, w.p ++ [a]⟩ as := by
  rw [PhraseWriter.pairs, step_extend h]

theorem PhraseWriter.pairs_emit {w : PhraseWriter α} {a : α} {as : List α}
    (h : w.p ++ [a] ∉ w.dict) : w.pairs (a :: as) =
      (w.dict.idxOf w.p, a) :: PhraseWriter.pairs ⟨w.dict ++ [w.p ++ [a]], [a]⟩ as := by
  rw [PhraseWriter.pairs, step_emit h]

theorem PhraseWriter.codes_eq_pairs (w : PhraseWriter α) (as : List α) :
    ∃ last, w.codes as = (w.pairs as).map Prod.fst ++ [last] := by
  induction as generalizing w with
  | nil => exact ⟨w.dict.idxOf w.p, rfl⟩
  | cons a as ih =>
    by_cases h : w.p ++ [a] ∈ w.dict
    · rw [codes_extend h, pairs_extend h]
      exact ih _
    · obtain ⟨last, hl⟩ := ih ⟨w.dict ++ [w.p ++ [a]], [a]⟩
      exact ⟨last, by rw [codes_emit h, pairs_emit h, hl, List.map_cons, List.cons_append]⟩

theorem PhraseWriter.pairs_new {w : PhraseWriter α} (hw : w.Ready) (as : List α) (v : ℕ)
    (a : α) (hva : (v,a) ∈ w.pairs as) (s : List α) (hs : w.dict[v]? = some s) :
    s ++ [a] ∉ w.dict := by
  induction as generalizing w with
  | nil => simp [PhraseWriter.pairs] at hva
  | cons b bs ih =>
    by_cases h : w.p ++ [b] ∈ w.dict
    · rw [pairs_extend h] at hva
      exact ih (w := ⟨w.dict, w.p ++ [b]⟩) (hw.extend h) hva hs
    · rw [pairs_emit h, List.mem_cons] at hva
      rcases hva with he | hva
      · obtain ⟨rfl, rfl⟩ := Prod.mk.inj he
        obtain rfl : w.p = s := Option.some.inj (hw.getElem?_idxOf.symm.trans hs)
        exact h
      · have hlt := (List.getElem?_eq_some_iff.mp hs).1
        have hs' : (w.dict ++ [w.p ++ [b]])[v]? = some s := by
          rw [List.getElem?_append_left hlt, hs]
        exact fun hin => ih (hw.emit b) hva hs' (List.mem_append_left _ hin)

theorem PhraseWriter.pairs_nodup {w : PhraseWriter α} (hw : w.Ready) (as : List α) :
    (w.pairs as).Nodup := by
  induction as generalizing w with
  | nil => exact List.nodup_nil
  | cons a as ih =>
    by_cases h : w.p ++ [a] ∈ w.dict
    · rw [pairs_extend h]
      exact ih (hw.extend h)
    · rw [pairs_emit h]
      refine List.nodup_cons.mpr ⟨?_, ih (hw.emit a)⟩
      intro hin
      have hlt := List.idxOf_lt_length_of_mem hw.mem
      have hs : (w.dict ++ [w.p ++ [a]])[w.dict.idxOf w.p]? = some w.p := by
        rw [List.getElem?_append_left hlt, hw.getElem?_idxOf]
      exact pairs_new (hw.emit a) as _ a hin w.p hs (List.mem_append_right _ (by simp))

/-- Codes below `K` open at most `K` entries for each symbol of the alphabet. -/
theorem PhraseWriter.length_codes_of_lt [Fintype α] {w : PhraseWriter α} (hw : w.Ready)
    (as : List α) (K : ℕ) (hK : ∀ v ∈ w.codes as, v < K) :
    (w.codes as).length ≤ K*Fintype.card α+1 := by
  obtain ⟨last, hl⟩ := w.codes_eq_pairs as
  have hsub : (w.pairs as).toFinset ⊆ Finset.range K ×ˢ Finset.univ := by
    intro va hva
    have hmem : va.1 ∈ w.codes as := by
      rw [hl]
      exact List.mem_append_left _ (List.mem_map_of_mem (List.mem_toFinset.mp hva))
    exact Finset.mem_product.mpr ⟨Finset.mem_range.mpr (hK _ hmem), Finset.mem_univ _⟩
  have hcard := Finset.card_le_card hsub
  rw [List.toFinset_card_of_nodup (pairs_nodup hw as), Finset.card_product, Finset.card_range,
    Finset.card_univ] at hcard
  rw [hl, List.length_append, List.length_map, List.length_singleton]
  omega

/-- The code of the current phrase comes first, unless the phrase grows. -/
theorem PhraseWriter.idxOf_mem_codes {w : PhraseWriter α} (as : List α)
    (h : ∀ a, w.p ++ [a] ∉ w.dict) : w.dict.idxOf w.p ∈ w.codes as := by
  cases as with
  | nil => exact List.mem_singleton_self _
  | cons a as =>
    rw [codes_emit (h a)]
    exact List.mem_cons_self

/-- While no pair of neighbours comes twice, every symbol is a phrase of its own and
every pair is entered. -/
theorem PhraseWriter.codes_new_pairs {base : List (List α)} (hbase : ∀ s ∈ base, s.length = 1)
    (x : ℕ → α) (n : ℕ)
    (hnew : ∀ i k, i < k → k < n → (x i, x (i+1)) ≠ (x k, x (k+1))) (as : List α) :
    ∃ pre, PhraseWriter.codes ⟨base, [x 0]⟩ ((List.range n).map (fun i => x (i+1)) ++ as) =
      pre ++ PhraseWriter.codes ⟨base ++ (List.range n).map (fun i => [x i, x (i+1)]),
        [x n]⟩ as := by
  induction n generalizing as with
  | zero => exact ⟨[], by simp⟩
  | succ n ih =>
    obtain ⟨pre, hpre⟩ := ih (fun i k hik hk => hnew i k hik (by omega)) (x (n+1) :: as)
    have hout : [x n] ++ [x (n+1)] ∉ base ++ (List.range n).map (fun i => [x i, x (i+1)]) := by
      intro hin
      rcases List.mem_append.mp hin with h | h
      · exact absurd (hbase _ h) (by simp)
      · obtain ⟨i, hi, heq⟩ := List.mem_map.mp h
        have hne := hnew i n (List.mem_range.mp hi) (Nat.lt_succ_self n)
        simp only [List.singleton_append, List.cons.injEq, and_true] at heq
        exact hne (Prod.ext heq.1 heq.2)
    refine ⟨pre ++ [(base ++ (List.range n).map (fun i => [x i, x (i+1)])).idxOf [x n]], ?_⟩
    rw [List.range_succ, List.map_append, List.append_assoc, List.map_singleton,
      List.singleton_append, hpre, codes_emit hout, List.map_append, List.append_assoc,
      List.append_assoc]
    rfl

end Writer

structure PhraseReader (α : Type*) where
  table : List (List α)
  old : ℕ
  symbol : List α
  output : List α

/-- A code that is not in the table yet stands for the previous phrase followed
by its own first symbol. -/
def PhraseReader.phrase (r : PhraseReader α) (new : ℕ) : Option (List α) :=
  if r.table.length ≤ new then (r.table[r.old]?).map (· ++ r.symbol) else r.table[new]?

def PhraseReader.step (r : PhraseReader α) (new : ℕ) : Option (PhraseReader α) := do
  let symbols ← r.phrase new
  let first ← symbols.head?
  let prev ← r.table[r.old]?
  some ⟨r.table ++ [prev ++ [first]], new, [first], r.output ++ symbols⟩

def PhraseReader.run (r : PhraseReader α) (codes : List ℕ) : Option (PhraseReader α) :=
  codes.foldlM PhraseReader.step r

theorem PhraseReader.run_take_succ (r : PhraseReader α) (codes : List ℕ) (k : ℕ)
    (hk : k < codes.length) :
    r.run (codes.take (k+1)) = (r.run (codes.take k)).bind (fun s => s.step codes[k]) := by
  have htake : codes.take (k+1) = codes.take k ++ [codes[k]] := by
    rw [List.take_add_one, List.getElem?_eq_getElem hk]
    rfl
  unfold PhraseReader.run
  rw [htake, List.foldlM_append]
  simp only [List.foldlM_cons, List.foldlM_nil, Option.bind_eq_bind, Option.pure_def,
    Option.bind_fun_some]

theorem PhraseReader.run_take {r r' : PhraseReader α} {codes : List ℕ}
    (h : r.run codes = some r') (k : ℕ) : ∃ s, r.run (codes.take k) = some s := by
  unfold PhraseReader.run at h ⊢
  rw [← List.take_append_drop k codes, List.foldlM_append, Option.bind_eq_bind] at h
  obtain ⟨s, hs, -⟩ := Option.bind_eq_some_iff.mp h
  exact ⟨s, hs⟩

/-- Every code that a run leaves behind was in the table when the next one came. -/
theorem PhraseReader.run_old {r r' : PhraseReader α} {codes : List ℕ} (h : r.run codes = some r')
    (k v : ℕ) (hk : k < codes.length) (hv : (r.old :: codes)[k]? = some v) :
    v < r.table.length+k := by
  induction codes generalizing r k with
  | nil => exact absurd hk (Nat.not_lt_zero k)
  | cons c codes ih =>
    obtain ⟨r1, hstep, hrest⟩ := Option.bind_eq_some_iff.mp h
    simp only [PhraseReader.step, Option.bind_eq_bind, Option.bind_eq_some_iff] at hstep
    obtain ⟨symbols, -, first, -, prev, hprev, hr1⟩ := hstep
    obtain rfl := Option.some.inj hr1
    cases k with
    | zero =>
      obtain rfl : r.old = v := Option.some.inj hv
      exact (List.getElem?_eq_some_iff.mp hprev).1
    | succ k =>
      have hlt := ih hrest k (Nat.lt_of_succ_lt_succ hk) hv
      rw [List.length_append, List.length_singleton] at hlt
      omega

/-- The reader has just taken the code of `w` in the dictionary `dict`. -/
structure PhraseReader.Synced (dict : List (List α)) (w : List α) (r : PhraseReader α) :
    Prop where
  table : r.table = dict
  phrase : dict[r.old]? = some w
  symbol : ∃ x, w.head? = some x ∧ r.symbol = [x]

/-- The writer is one entry ahead: its newest entry is the reader's last phrase
followed by the first symbol of the phrase the writer is collecting. -/
def PhraseReader.Lags (dict : List (List α)) (p : List α) (r : PhraseReader α) : Prop :=
  ∃ w a, r.Synced r.table w ∧ p.head? = some a ∧ dict = r.table ++ [w ++ [a]]

theorem PhraseReader.Synced.lags {dict : List (List α)} {w : List α} {r : PhraseReader α}
    (h : r.Synced dict w) (a : α) : r.Lags (dict ++ [w ++ [a]]) [a] := by
  refine ⟨w, a, ⟨rfl, ?_, h.symbol⟩, rfl, by rw [h.table]⟩
  rw [h.table]
  exact h.phrase

theorem PhraseReader.Lags.extend {dict : List (List α)} {p : List α} {r : PhraseReader α}
    (h : r.Lags dict p) (a : α) : r.Lags dict (p ++ [a]) := by
  obtain ⟨w, b, hs, hb, hd⟩ := h
  refine ⟨w, b, hs, ?_, hd⟩
  rw [List.head?_append, hb]
  rfl

/-- A lagging reader catches up on the code of the writer's current phrase, also
when that code is the entry the reader does not have yet. -/
theorem PhraseReader.Lags.step {dict : List (List α)} {p : List α} {r : PhraseReader α}
    (h : r.Lags dict p) (v : ℕ) (hv : dict[v]? = some p) :
    ∃ r', r.step v = some r' ∧ r'.Synced dict p ∧ r'.output = r.output ++ p := by
  obtain ⟨w, a, hs, ha, hd⟩ := h
  obtain ⟨x, hx, hsym⟩ := hs.symbol
  have hvlt : v < r.table.length+1 := by
    have := (List.getElem?_eq_some_iff.mp hv).1
    simpa [hd] using this
  have hphrase : r.phrase v = some p := by
    unfold PhraseReader.phrase
    split_ifs with hge
    · -- the entry that is missing: it starts and ends with the symbol of the old phrase
      obtain rfl : v = r.table.length := by omega
      have hp : p = w ++ [a] := by simpa [hd] using hv.symm
      have hax : a = x := by
        rw [hp, List.head?_append, hx] at ha
        exact (Option.some.inj ha).symm
      rw [hs.phrase, Option.map_some, hp, hsym, hax]
    · rwa [hd, List.getElem?_append_left (by omega)] at hv
  refine ⟨⟨r.table ++ [w ++ [a]], v, [a], r.output ++ p⟩, ?_,
    ⟨hd.symm, hv, a, ha, rfl⟩, rfl⟩
  simp only [PhraseReader.step, hphrase, hs.phrase, Option.bind_eq_bind, Option.bind_some, ha]

variable [DecidableEq α]

theorem PhraseReader.Lags.run {w : PhraseWriter α} (hw : w.Ready) {r : PhraseReader α}
    (h : r.Lags w.dict w.p) (as : List α) :
    ∃ r', r.run (w.codes as) = some r' ∧ r'.output = r.output ++ w.p ++ as := by
  induction as generalizing w r with
  | nil =>
    obtain ⟨r', hr, -, ho⟩ := h.step _ hw.getElem?_idxOf
    exact ⟨r', by simp [PhraseReader.run, PhraseWriter.codes, hr], by simp [ho]⟩
  | cons a as ih =>
    by_cases hin : w.p ++ [a] ∈ w.dict
    · obtain ⟨r', hr, ho⟩ := ih (hw.extend hin) (h.extend a)
      exact ⟨r', by rw [PhraseWriter.codes_extend hin, hr], by simp [ho]⟩
    · obtain ⟨r₁, hr₁, hs₁, ho₁⟩ := h.step _ hw.getElem?_idxOf
      obtain ⟨r', hr, ho⟩ := ih (hw.emit a) (hs₁.lags a)
      refine ⟨r', ?_, by simp [ho, ho₁]⟩
      rw [PhraseWriter.codes_emit hin]
      simpa [PhraseReader.run, hr₁] using hr

/-- Reading back a whole message: the reader starts from the first code, when
the writer starts from a dictionary of one-symbol phrases. -/
theorem PhraseReader.run_codes (base : List (List α)) (hbase : ∀ s ∈ base, s.length = 1)
    (hall : ∀ a, [a] ∈ base) (x : α) (as : List α) :
    ∃ rest r', (PhraseWriter.codes ⟨base, [x]⟩ as) = base.idxOf [x] :: rest ∧
      PhraseReader.run ⟨base, base.idxOf [x], [x], [x]⟩ rest = some r' ∧
      r'.output = x :: as := by
  have hw : PhraseWriter.Ready ⟨base, [x]⟩ := ⟨hall x, hall, by simp⟩
  cases as with
  | nil => exact ⟨[], _, rfl, rfl, rfl⟩
  | cons a as =>
    have hin : [x] ++ [a] ∉ base := fun h => by simpa using hbase _ h
    have hs : PhraseReader.Synced base [x] ⟨base, base.idxOf [x], [x], [x]⟩ :=
      ⟨rfl, hw.getElem?_idxOf, x, rfl, rfl⟩
    obtain ⟨r', hr, ho⟩ := PhraseReader.Lags.run (hw.emit a) (hs.lags a) as
    exact ⟨_, r', PhraseWriter.codes_emit hin, hr, by simpa using ho⟩

end Sync532
