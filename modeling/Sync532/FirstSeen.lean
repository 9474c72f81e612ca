import Mathlib.Tactic

/-! Answering every call of a sequence with the value that came with the first
earlier call of the same label. -/
namespace Sync532
variable {β κ κ' ι γ : Type*} [DecidableEq κ] [DecidableEq κ']

/-- The value of the first call with the label `x`. -/
def firstValue (label : β → κ) (calls : List (β × ι)) (x : κ) : Option ι :=
  (calls.find? (fun c => label c.1 = x)).map Prod.snd

/-- The answers to `calls`, when the calls `earlier` have come before: each call is
answered by the value of the first one with its label, if there is one. -/
def firstAnswers (label : β → κ) (answer : β → Option ι → γ) :
    List (β × ι) → List (β × ι) → List γ
  | _, [] => []
  | earlier, c :: calls =>
    answer c.1 (firstValue label earlier (label c.1)) ::
      firstAnswers label answer (earlier ++ [c]) calls

/-- The answer of a call whose label is new is `fresh`. -/
def orFresh (fresh : ι) (_ : β) (value : Option ι) : ι := value.getD fresh

theorem firstValue_append (label : β → κ) (earlier calls : List (β × ι)) (x : κ) :
    firstValue label (earlier ++ calls) x =
      (firstValue label earlier x).or (firstValue label calls x) := by
  rw [firstValue, List.find?_append, firstValue, firstValue]
  cases earlier.find? (fun c => decide (label c.1 = x)) <;> rfl

theorem firstValue_singleton (label : β → κ) (c : β × ι) (x : κ) :
    firstValue label [c] x = if label c.1 = x then some c.2 else none := by
  by_cases h : label c.1 = x <;> simp [firstValue, h]

theorem firstValue_eq_none (label : β → κ) (calls : List (β × ι)) (x : κ) :
    firstValue label calls x = none ↔ ∀ c ∈ calls, label c.1 ≠ x := by
  simp [firstValue]

theorem firstAnswers_append (label : β → κ) (answer : β → Option ι → γ)
    (earlier calls calls' : List (β × ι)) :
    firstAnswers label answer earlier (calls ++ calls') =
      firstAnswers label answer earlier calls ++
        firstAnswers label answer (earlier ++ calls) calls' := by
  induction calls generalizing earlier with
  | nil => rw [List.append_nil]; rfl
  | cons c calls ih =>
    simp only [List.cons_append, firstAnswers, ih, List.append_assoc, List.nil_append]

theorem firstAnswers_congr (f : β → κ) (g : β → κ') (answer : β → Option ι → γ)
    (earlier calls : List (β × ι))
    (h : ∀ c ∈ earlier ++ calls, ∀ c' ∈ earlier ++ calls, f c.1 = f c'.1 ↔
      g c.1 = g c'.1) :
    firstAnswers f answer earlier calls = firstAnswers g answer earlier calls := by
  induction calls generalizing earlier with
  | nil => rfl
  | cons c calls ih =>
    have hfind :
        earlier.find? (fun e => f e.1 = f c.1) = earlier.find? (fun e => g e.1 = g c.1) := by
      apply List.find?_congr
      intro e he
      exact decide_eq_decide.mpr (h e (by simp [he]) c (by simp))
    have hrest := ih (earlier ++ [c])
      (by rw [List.append_assoc, List.singleton_append]; exact h)
    rw [firstAnswers, firstAnswers, hrest, firstValue, firstValue, hfind]

theorem length_firstAnswers (label : β → κ) (answer : β → Option ι → γ)
    (earlier calls : List (β × ι)) :
    (firstAnswers label answer earlier calls).length = calls.length := by
  induction calls generalizing earlier with
  | nil => rfl
  | cons c calls ih => simp only [firstAnswers, List.length_cons, ih]

theorem firstAnswers_at (label : β → κ) (answer : β → Option ι → γ)
    (calls rest : List (β × ι)) (c : β × ι) :
    (firstAnswers label answer [] (calls ++ c :: rest))[calls.length]? =
      some (answer c.1 (firstValue label calls (label c.1))) := by
  rw [firstAnswers_append, List.getElem?_append_right (length_firstAnswers ..).le,
    length_firstAnswers, Nat.sub_self]
  rfl

theorem mem_firstAnswers {label : β → κ} {answer : β → Option ι → γ}
    {calls : List (β × ι)} {r : γ} (h : r ∈ firstAnswers label answer [] calls) :
    ∃ pre c post, calls = pre ++ c :: post ∧
      r = answer c.1 (firstValue label pre (label c.1)) := by
  induction calls using List.reverseRecOn with
  | nil => exact absurd h List.not_mem_nil
  | append_singleton calls c ih =>
    rw [firstAnswers_append, List.nil_append] at h
    rcases List.mem_append.mp h with h | h
    · obtain ⟨pre, d, post, hcalls, hr⟩ := ih h
      exact ⟨pre, d, post ++ [c], by rw [hcalls]; simp, hr⟩
    · exact ⟨calls, c, [], rfl, List.mem_singleton.mp h⟩

theorem firstValue_map (label : β → κ) (value : β → ι) (calls : List β) (x : κ) :
    firstValue label (calls.map (fun c => (c, value c))) x =
      (calls.find? (fun c => label c = x)).map value := by
  rw [firstValue, List.find?_map, Option.map_map]
  rfl

/-- Conversely, when the answers are the same for all values out of two, the first
call with an `f`-label has the `g`-label of every other call with that `f`-label. -/
theorem first_label_eq {f : β → κ} {g : β → κ'} {fresh u v : ι} (hu : u ≠ fresh)
    (huv : u ≠ v) (calls : List β)
    (h : ∀ value : β → ι, (∀ c, value c = u ∨ value c = v) →
      firstAnswers f (orFresh fresh) [] (calls.map (fun c => (c, value c))) =
        firstAnswers g (orFresh fresh) [] (calls.map (fun c => (c, value c))))
    {c a : β} (hc : c ∈ calls) (ha : calls.find? (fun e => f e = f c) = some a) : g a = g c := by
  obtain ⟨pre, post, rfl⟩ := List.append_of_mem hc
  rw [List.find?_append] at ha
  rcases hpre : pre.find? (fun e => f e = f c) with _ | b
  · rw [hpre, Option.none_or, List.find?_cons_of_pos (by simp)] at ha
    rw [Option.some.inj ha]
  · rw [hpre, Option.some_or] at ha
    obtain rfl : b = a := Option.some.inj ha
    -- `v` for the calls with the `g`-label of `c`, and `u` for the others
    let value (e : β) : ι := if g e = g c then v else u
    have hvalue (e : β) : value e = u ∨ value e = v := by
      simp only [value]
      split_ifs <;> simp
    have hanswer := congrArg (·[(pre.map (fun e => (e, value e))).length]?) (h value hvalue)
    rw [List.map_append, List.map_cons] at hanswer
    simp only [firstAnswers_at, firstValue_map, orFresh, hpre, Option.map_some, Option.getD_some,
      Option.some.injEq] at hanswer
    by_contra hne
    have hb : value b = u := if_neg hne
    rw [hb] at hanswer
    rcases hg : pre.find? (fun e => g e = g c) with _ | d
    · rw [hg] at hanswer
      exact hu hanswer
    · have hd : value d = v := if_pos (by simpa using List.find?_some hg)
      rw [hg, Option.map_some, Option.getD_some, hd] at hanswer
      exact huv hanswer

theorem labels_eq_of_firstAnswers {f : β → κ} {g : β → κ'} {fresh u v : ι}
    (hu : u ≠ fresh) (huv : u ≠ v) (calls : List β)
    (h : ∀ value : β → ι, (∀ c, value c = u ∨ value c = v) →
      firstAnswers f (orFresh fresh) [] (calls.map (fun c => (c, value c))) =
        firstAnswers g (orFresh fresh) [] (calls.map (fun c => (c, value c))))
    {c c' : β} (hc : c ∈ calls) (hc' : c' ∈ calls) (hf : f c = f c') : g c = g c' := by
  obtain ⟨a, ha⟩ : ∃ a, calls.find? (fun e => f e = f c) = some a := by
    rw [← Option.isSome_iff_exists, List.find?_isSome]
    exact ⟨c, hc, by simp⟩
  have ha' := ha
  rw [hf] at ha'
  exact (first_label_eq hu huv calls h hc ha).symm.trans (first_label_eq hu huv calls h hc' ha')

/-- The different entries of a list, in the order of their first places. -/
def distinct (xs : List κ) : List κ :=
  xs.foldl (fun seen x => if x ∈ seen then seen else seen ++ [x]) []

theorem distinct_append_singleton (xs : List κ) (x : κ) :
    distinct (xs ++ [x]) = if x ∈ distinct xs then distinct xs else distinct xs ++ [x] := by
  rw [distinct, List.foldl_append]
  rfl

theorem mem_distinct (xs : List κ) (x : κ) : x ∈ distinct xs ↔ x ∈ xs := by
  induction xs using List.reverseRecOn with
  | nil => exact Iff.rfl
  | append_singleton xs y ih =>
    rw [distinct_append_singleton, List.mem_append, List.mem_singleton]
    split_ifs with hy
    · rw [ih]
      constructor
      · exact Or.inl
      · rintro (hx | rfl)
        · exact hx
        · exact ih.mp hy
    · rw [List.mem_append, List.mem_singleton, ih]

theorem nodup_distinct (xs : List κ) : (distinct xs).Nodup := by
  induction xs using List.reverseRecOn with
  | nil => exact List.nodup_nil
  | append_singleton xs y ih =>
    rw [distinct_append_singleton]
    split_ifs with hy
    · exact ih
    · exact List.nodup_append.mpr ⟨ih, List.nodup_singleton y,
        fun a ha b hb => by rw [List.mem_singleton.mp hb]; exact fun he => hy (he ▸ ha)⟩

theorem distinct_prefix (xs ys : List κ) : distinct xs <+: distinct (xs ++ ys) := by
  induction ys using List.reverseRecOn with
  | nil => rw [List.append_nil]
  | append_singleton ys y ih =>
    rw [← List.append_assoc, distinct_append_singleton]
    split_ifs
    · exact ih
    · exact ih.trans (List.prefix_append _ _)

theorem distinct_place (pre post : List κ) (x : κ) (hx : x ∉ pre) :
    (distinct (pre ++ x :: post))[(distinct pre).length]? = some x := by
  have hnew : distinct (pre ++ [x]) = distinct pre ++ [x] := by
    rw [distinct_append_singleton, if_neg (fun h => hx ((mem_distinct pre x).mp h))]
  obtain ⟨rest, hrest⟩ := distinct_prefix (pre ++ [x]) post
  rw [List.append_assoc, List.singleton_append, hnew] at hrest
  rw [← hrest, List.append_assoc, List.getElem?_append_right le_rfl, Nat.sub_self]
  rfl

section Numbers
variable (label : β → κ) (num : ι → ℕ)

def labelsOf (calls : List (β × ι)) : List κ := calls.map (fun c => label c.1)

/-- Every label that comes again carries, at its first place, the number of the
different labels in front of that place. -/
def NumbersFirsts (calls : List (β × ι)) : Prop :=
  ∀ pre c post, calls = pre ++ c :: post → label c.1 ∉ labelsOf label pre →
    label c.1 ∈ labelsOf label post → num c.2 = (distinct (labelsOf label pre)).length

variable {label num}

/-- Then, and only then, the first value of every repeated label is its place among
the different labels so far. -/
theorem numbersFirsts_iff (calls : List (β × ι)) :
    NumbersFirsts label num calls ↔
      ∀ pre c post, calls = pre ++ c :: post →
        ∀ v, firstValue label pre (label c.1) = some v →
        (distinct (labelsOf label pre))[num v]? = some (label c.1) := by
  constructor
  · intro h pre c post hcalls v hv
    -- `d` is the first call with the label of `c`, and the condition is about it
    obtain ⟨d, hd, rfl⟩ := Option.map_eq_some_iff.mp hv
    obtain ⟨hlabel, pre₁, post₁, rfl, hnew⟩ := List.find?_eq_some_iff_append.mp hd
    have hsame : label d.1 = label c.1 := of_decide_eq_true hlabel
    have hfresh : label d.1 ∉ labelsOf label pre₁ := by
      intro hmem
      obtain ⟨e, he, heq⟩ := List.mem_map.mp hmem
      have hne := hnew e he
      simp [heq, hsame] at hne
    have hnum := h pre₁ d (post₁ ++ c :: post) (by rw [hcalls]; simp) hfresh
      (by rw [hsame]; simp [labelsOf])
    rw [hnum, ← hsame, labelsOf, List.map_append, List.map_cons]
    exact distinct_place _ _ _ hfresh
  · intro h pre c post hcalls hfresh hagain
    obtain ⟨e, he, hsame⟩ := List.mem_map.mp hagain
    obtain ⟨p₁, p₂, rfl⟩ := List.append_of_mem he
    -- the next call with the label finds the value of `c`, and its place is the number
    have hfirst : firstValue label (pre ++ c :: p₁) (label e.1) = some c.2 := by
      have hnone : firstValue label pre (label e.1) = none := by
        rw [firstValue_eq_none]
        intro d hd heq
        exact hfresh (List.mem_map.mpr ⟨d, hd, heq.trans hsame⟩)
      rw [firstValue_append, hnone, Option.none_or, firstValue,
        List.find?_cons_of_pos (by simp [hsame])]
      rfl
    have hplace := h (pre ++ c :: p₁) e p₂ (by rw [hcalls]; simp) c.2 hfirst
    have hplace' := distinct_place (labelsOf label pre) (labelsOf label p₁) (label c.1) hfresh
    have hsplit : labelsOf label (pre ++ c :: p₁) =
        labelsOf label pre ++ label c.1 :: labelsOf label p₁ := by simp [labelsOf]
    rw [hsplit, hsame] at hplace
    obtain ⟨h1, he1⟩ := List.getElem?_eq_some_iff.mp hplace
    obtain ⟨h2, he2⟩ := List.getElem?_eq_some_iff.mp hplace'
    exact (nodup_distinct _).getElem_inj_iff.mp (he1.trans he2.symm)

end Numbers

end Sync532
