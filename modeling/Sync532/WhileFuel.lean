import Mathlib.Tactic

/-! Loops with a bound on the iterations. The body may be undefined, so a result
`none` stands for an undefined step or for a bound that is too small; the rules
below give a result for every bound from a number of steps on. -/
namespace Sync532
variable {σ : Type*}

/-- `while (cond) body`, for at most `fuel` tests of the condition. -/
def whileFuel (cond : σ → Bool) (body : σ → Option σ) : ℕ → σ → Option σ
  | 0, _ => none
  | fuel+1, s => if cond s then (body s).bind (whileFuel cond body fuel) else some s

/-- The state after exactly `n` runs of the body, whatever the condition says. -/
def runSteps (body : σ → Option σ) : ℕ → σ → Option σ
  | 0, s => some s
  | n+1, s => (body s).bind (runSteps body n)

theorem runSteps_succ (body : σ → Option σ) (n : ℕ) (s : σ) :
    runSteps body (n+1) s = (runSteps body n s).bind body := by
  induction n generalizing s with
  | zero => simp [runSteps]
  | succ n ih =>
    rw [runSteps, runSteps, Option.bind_assoc]
    exact congrArg _ (funext ih)

/-- A loop whose `k`-th state satisfies `Inv k` and that stops after the `n`-th
body has a result for every larger bound, and always the same one. -/
theorem whileFuel_counted {cond : σ → Bool} {body : σ → Option σ} {Inv : ℕ → σ → Prop}
    {n : ℕ}
    (hstep : ∀ k < n, ∀ s, Inv k s →
      cond s = true ∧ ∃ s', body s = some s' ∧ Inv (k+1) s')
    (hstop : ∀ s, Inv n s → cond s = false) (m k : ℕ) (hk : k+m = n) (s : σ) (hs : Inv k s) :
    ∃ s', Inv n s' ∧ ∀ fuel, m < fuel → whileFuel cond body fuel s = some s' := by
  -- `m` counts the bodies that are still to run
  induction m generalizing k s with
  | zero =>
    obtain rfl : k = n := hk
    refine ⟨s, hs, ?_⟩
    intro fuel hf
    obtain ⟨f, rfl⟩ := Nat.exists_eq_succ_of_ne_zero (Nat.ne_of_gt hf)
    simp [whileFuel, hstop s hs]
  | succ m ih =>
    obtain ⟨hc, s', hb, hs'⟩ := hstep k (by omega) s hs
    obtain ⟨t, ht, hrun⟩ := ih (k+1) (by omega) s' hs'
    refine ⟨t, ht, ?_⟩
    intro fuel hf
    obtain ⟨f, rfl⟩ := Nat.exists_eq_succ_of_ne_zero (Nat.ne_of_gt (Nat.zero_lt_of_lt hf))
    simp only [whileFuel, hc, if_true, hb, Option.bind_some]
    exact hrun f (by omega)

theorem runSteps_counted {body : σ → Option σ} {Inv : ℕ → σ → Prop} {n : ℕ}
    (hstep : ∀ k < n, ∀ s, Inv k s → ∃ s', body s = some s' ∧ Inv (k+1) s') (s : σ)
    (hs : Inv 0 s) : ∀ k ≤ n, ∃ s', runSteps body k s = some s' ∧ Inv k s' := by
  intro k
  induction k with
  | zero => exact fun _ => ⟨s, rfl, hs⟩
  | succ k ih =>
    intro hk
    obtain ⟨t, ht, hi⟩ := ih (by omega)
    obtain ⟨s', hb, hs'⟩ := hstep k (by omega) t hi
    refine ⟨s', ?_, hs'⟩
    rw [runSteps_succ, ht]
    exact hb

/-- The state in front of the `k`-th test, when the loop comes that far. -/
def whileSteps (cond : σ → Bool) (body : σ → Option σ) : ℕ → σ → Option σ
  | 0, s => some s
  | k+1, s => (whileSteps cond body k s).bind (fun t => if cond t then body t else none)

theorem whileSteps_succ {cond : σ → Bool} {body : σ → Option σ} (k : ℕ) (s : σ)
    (hc : cond s = true) :
    whileSteps cond body (k+1) s = (body s).bind (whileSteps cond body k) := by
  induction k with
  | zero =>
    rw [whileSteps, whileSteps, Option.bind_some, if_pos hc]
    exact (Option.bind_fun_some (body s)).symm
  | succ k ih =>
    rw [whileSteps, ih, Option.bind_assoc]
    rfl

theorem whileSteps_stopped {cond : σ → Bool} {body : σ → Option σ} (k : ℕ) (s : σ)
    (hc : cond s = false) : whileSteps cond body (k+1) s = none := by
  induction k with
  | zero => simp [whileSteps, hc]
  | succ k ih =>
    rw [whileSteps, ih]
    rfl

/-- A loop has a result when one of its tests fails, and the bound has to allow for
the tests up to this one. -/
theorem whileFuel_iff {cond : σ → Bool} {body : σ → Option σ} (fuel : ℕ) (s t : σ) :
    whileFuel cond body fuel s = some t ↔
      ∃ k < fuel, whileSteps cond body k s = some t ∧ cond t = false := by
  induction fuel generalizing s with
  | zero => simp [whileFuel]
  | succ fuel ih =>
    rcases hc : cond s with _ | _
    · simp only [whileFuel, hc, Bool.false_eq_true, if_false, Option.some.injEq]
      constructor
      · rintro rfl
        exact ⟨0, Nat.succ_pos fuel, rfl, hc⟩
      · rintro ⟨k, -, hk, -⟩
        rcases k with _ | k
        · exact Option.some.inj hk
        · rw [whileSteps_stopped k s hc] at hk
          exact absurd hk (by simp)
    · simp only [whileFuel, hc, if_true, Option.bind_eq_some_iff, ih]
      constructor
      · rintro ⟨s', hb, k, hk, hsteps, hstop⟩
        refine ⟨k+1, Nat.succ_lt_succ hk, ?_, hstop⟩
        rw [whileSteps_succ k s hc, hb]
        exact hsteps
      · rintro ⟨k, hk, hsteps, hstop⟩
        rcases k with _ | k
        · obtain rfl : s = t := Option.some.inj hsteps
          rw [hc] at hstop
          exact absurd hstop (by simp)
        · rw [whileSteps_succ k s hc] at hsteps
          obtain ⟨s', hb, hrest⟩ := Option.bind_eq_some_iff.mp hsteps
          exact ⟨s', hb, k, Nat.lt_of_succ_lt_succ hk, hrest, hstop⟩

/-- A larger bound, and a body that is defined more often, keep a result. -/
theorem whileFuel_mono {cond : σ → Bool} {body body' : σ → Option σ}
    (hbody : ∀ s t, body s = some t → body' s = some t) {fuel fuel' : ℕ}
    (hle : fuel ≤ fuel') {s t : σ} (h : whileFuel cond body fuel s = some t) :
    whileFuel cond body' fuel' s = some t := by
  induction fuel generalizing fuel' s with
  | zero => cases h
  | succ fuel ih =>
    obtain ⟨f, rfl⟩ := Nat.exists_eq_succ_of_ne_zero (Nat.ne_of_gt (Nat.zero_lt_of_lt hle))
    unfold whileFuel at h ⊢
    split_ifs at h ⊢ with hc
    · obtain ⟨s', hs', hrest⟩ := Option.bind_eq_some_iff.mp h
      rw [hbody s s' hs', Option.bind_some]
      exact ih (Nat.le_of_succ_le_succ hle) hrest
    · exact h

/-- `for (i = a; i < a+n; i++)` with an invariant that may name the index. -/
theorem foldlM_range'_inv {f : σ → ℕ → Option σ} {Inv : ℕ → σ → Prop} {a n : ℕ}
    (hstep : ∀ i, a ≤ i → i < a+n → ∀ s, Inv i s →
      ∃ s', f s i = some s' ∧ Inv (i+1) s') (s : σ)
    (hs : Inv a s) : ∃ s', (List.range' a n).foldlM f s = some s' ∧ Inv (a+n) s' := by
  induction n with
  | zero => exact ⟨s, rfl, hs⟩
  | succ n ih =>
    obtain ⟨t, ht, hi⟩ := ih (fun i h1 h2 => hstep i h1 (by omega))
    obtain ⟨s', hb, hs'⟩ := hstep (a+n) (by omega) (by omega) t hi
    refine ⟨s', ?_, hs'⟩
    rw [List.range'_1_concat, List.foldlM_append, ht]
    simp [hb]

section Fold
variable {ι : Type*} {f g : σ → ι → Option σ}

theorem foldlM_congr_mem {l : List ι} (h : ∀ i ∈ l, ∀ s, f s i = g s i) (s : σ) :
    l.foldlM f s = l.foldlM g s := by
  induction l generalizing s with
  | nil => rfl
  | cons i l ih =>
    rw [List.foldlM_cons, List.foldlM_cons, h i List.mem_cons_self s]
    apply congrArg
    apply funext
    exact ih (fun j hj => h j (List.mem_cons_of_mem _ hj))

theorem foldlM_bind_cons (f : σ → ι → Option σ) (first : Option ι) (rest : Option (List ι))
    (s : σ) :
    (do let i ← first
        let is ← rest
        return i :: is : Option (List ι)).bind (List.foldlM f s) =
      (first.bind (f s)).bind (fun t => rest.bind (List.foldlM f t)) := by
  cases first with
  | none => rfl
  | some i =>
    cases rest with
    | none => cases h : f s i <;> simp [h]
    | some is => simp [List.foldlM_cons]

/-- A fold that has a result has run its body on every entry. -/
theorem foldlM_visits {l : List ι} {s t : σ} (h : l.foldlM f s = some t) :
    ∀ i ∈ l, ∃ s' t', f s' i = some t' := by
  induction l generalizing s with
  | nil => exact fun i hi => absurd hi List.not_mem_nil
  | cons j l ih =>
    rw [List.foldlM_cons] at h
    obtain ⟨s₁, hs₁, hrest⟩ := Option.bind_eq_some_iff.mp h
    intro i hi
    rcases List.mem_cons.mp hi with rfl | hi
    · exact ⟨s, s₁, hs₁⟩
    · exact ih hrest i hi

end Fold

end Sync532
