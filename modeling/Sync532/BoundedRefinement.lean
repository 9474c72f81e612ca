import Mathlib.Tactic

/-! A program with bounded memory against one without a bound: as long as the result
fits they agree, and from then on the bounded one is undefined. -/
namespace Sync532
variable {A B C D ι : Type*} {R : A → C → Prop} {R' : B → D → Prop} {fits : A → Prop}
  {fits' : B → Prop}

/-- Where the bounded run `oc` stands against the unbounded run `oa`. -/
inductive Tracks (R : A → C → Prop) (fits : A → Prop) : Option A → Option C → Prop
  | undefined : Tracks R fits none none
  | full {a : A} (h : ¬fits a) : Tracks R fits (some a) none
  | both {a : A} {c : C} (h : R a c) (hfits : fits a) : Tracks R fits (some a) (some c)

theorem Tracks.bind {oa : Option A} {oc : Option C} {f : A → Option B} {g : C → Option D}
    (h : Tracks R fits oa oc) (hlost : ∀ a b, f a = some b → fits' b → fits a)
    (hstep : ∀ a c, R a c → fits a → Tracks R' fits' (f a) (g c)) :
    Tracks R' fits' (oa.bind f) (oc.bind g) := by
  cases h with
  | undefined => exact Tracks.undefined
  | full hfull =>
    -- what did not fit before the step does not fit behind it
    rw [Option.bind_some, Option.bind_none]
    rcases hb : f _ with _ | b
    · exact Tracks.undefined
    · exact Tracks.full (fun hfits => hfull (hlost _ _ hb hfits))
  | both hrel hfits => exact hstep _ _ hrel hfits

/-- What the bounded program does with its result. -/
theorem Tracks.map_right {S : A → D → Prop} {oa : Option A} {oc : Option C} {g : C → D}
    (h : Tracks R fits oa oc) (hrel : ∀ a c, R a c → S a (g c)) :
    Tracks S fits oa (oc.map g) := by
  cases h with
  | undefined => exact Tracks.undefined
  | full hfull => exact Tracks.full hfull
  | both hr hfits => exact Tracks.both (hrel _ _ hr) hfits

/-- Two loops over the same list. -/
theorem Tracks.foldlM {f : A → ι → Option A} {g : C → ι → Option C}
    (hlost : ∀ i a b, f a i = some b → fits b → fits a)
    (hstep : ∀ i a c, R a c → fits a → Tracks R fits (f a i) (g c i)) (l : List ι) {a : A}
    {c : C} (hrel : R a c) (hfits : fits a) : Tracks R fits (l.foldlM f a) (l.foldlM g c) := by
  have hlostLoop : ∀ (l : List ι) (a b : A), l.foldlM f a = some b → fits b → fits a := by
    intro l
    induction l with
    | nil =>
      intro a b hb hfit
      rwa [Option.some.inj hb]
    | cons i l ih =>
      intro a b hb hfit
      obtain ⟨m, hm, hrest⟩ := Option.bind_eq_some_iff.mp hb
      exact hlost i a m hm (ih m b hrest hfit)
  induction l generalizing a c with
  | nil => exact Tracks.both hrel hfits
  | cons i l ih =>
    rw [List.foldlM_cons, List.foldlM_cons]
    exact (hstep i a c hrel hfits).bind (hlostLoop l) (fun a' c' => ih)

/-- The bounded result as a function of the unbounded one. -/
theorem Tracks.eq_bind {oa : Option A} {oc : Option C} [DecidablePred fits] (image : A → C)
    (h : Tracks R fits oa oc) (himage : ∀ a c, R a c → c = image a) :
    oc = oa.bind (fun a => if fits a then some (image a) else none) := by
  cases h with
  | undefined => rfl
  | full hfull => rw [Option.bind_some, if_neg hfull]
  | both hrel hfits => rw [Option.bind_some, if_pos hfits, himage _ _ hrel]

end Sync532
