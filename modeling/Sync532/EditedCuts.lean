import Sync532.Segments

/-! Two lists of chunk ends that are the same in front of an edit and, up to a shift,
behind it. All chunks but the few that meet the edit are chunks of both. -/
namespace Sync532

/-- The same ends below `p`, and the same ends counted from `x` and from `y`. -/
structure AgreeAround (p x y : ℕ) (ends ends' : List ℕ) : Prop where
  front : ∀ e < p, e ∈ ends ↔ e ∈ ends'
  behind : ∀ e, x+e ∈ ends ↔ y+e ∈ ends'

section Agree
variable {p x y : ℕ} {ends ends' : List ℕ} (h : AgreeAround p x y ends ends')
  (hc : CutsFrom 0 ends) (hc' : CutsFrom 0 ends')
include h hc hc'

/-- A segment that ends in front of the edit. -/
theorem AgreeAround.front_segment {a b : ℕ} (hb : b < p) (hseg : (a, b) ∈ segments 0 ends) :
    (a, b) ∈ segments 0 ends' := by
  obtain ⟨hmem, hzero, hab, hstart, hnone⟩ := (hc.mem_segments a b).mp hseg
  apply (hc'.mem_segments a b).mpr
  refine ⟨(h.front b hb).mp hmem, hzero, hab, ?_, ?_⟩
  · apply hstart.imp_right
    rintro ⟨e, he, rfl⟩
    exact ⟨e, (h.front e (by omega)).mp he, rfl⟩
  · intro e he hae
    by_contra hlt
    exact hlt (hnone e ((h.front e (by omega)).mpr he) hae)

/-- A segment that starts behind an end behind the edit. -/
theorem AgreeAround.behind_segment {a b : ℕ} (ha : 0 < a)
    (hseg : (x+a, x+b) ∈ segments 0 ends) : (y+a, y+b) ∈ segments 0 ends' := by
  obtain ⟨hmem, -, hab, hstart, hnone⟩ := (hc.mem_segments _ _).mp hseg
  apply (hc'.mem_segments _ _).mpr
  refine ⟨(h.behind b).mp hmem, Nat.zero_le _, by omega, ?_, ?_⟩
  · right
    rcases hstart with hzero | ⟨e, he, hea⟩
    · omega
    · -- the end in front of `x+a` is counted from `x` too
      refine ⟨y+(a-1), (h.behind (a-1)).mp ?_, by omega⟩
      rwa [show x+(a-1) = e by omega]
  · intro e he hae
    obtain ⟨d, rfl⟩ := Nat.exists_eq_add_of_le (show y ≤ e by omega)
    have hle := hnone (x+d) ((h.behind d).mpr he) (by omega)
    omega

end Agree

/-- A segment that neither ends in front of `p` nor starts behind `x`. -/
def Meets (p x : ℕ) (r : ℕ × ℕ) : Prop := p ≤ r.2 ∧ r.1 ≤ x

instance (p x : ℕ) (r : ℕ × ℕ) : Decidable (Meets p x r) :=
  inferInstanceAs (Decidable (p ≤ r.2 ∧ r.1 ≤ x))

/-- Each of these segments has a place of its own between `p` and `x`. -/
theorem CutsFrom.length_meets_le {ends : List ℕ} (h : CutsFrom 0 ends) {p x : ℕ}
    (hpx : p ≤ x) :
    ((segments 0 ends).filter (fun r => Meets p x r)).length ≤ x-p+1 := by
  have hdisjoint := h.segments_disjoint.filter (fun r => Meets p x r)
  have hmeets : ∀ r ∈ (segments 0 ends).filter (fun r => Meets p x r), Meets p x r :=
    fun r hr => of_decide_eq_true (List.mem_filter.mp hr).2
  have hplaces : CutsFrom p
      (((segments 0 ends).filter (fun r => Meets p x r)).map (fun r => min r.2 x)) := by
    refine ⟨?_, ?_⟩
    · intro e he
      obtain ⟨r, hr, rfl⟩ := List.mem_map.mp he
      exact le_min (hmeets r hr).1 hpx
    · refine List.pairwise_map.mpr (hdisjoint.imp_of_mem ?_)
      intro r r' hr hr' hlt
      -- the later one starts behind the earlier one, and at `x` at the latest
      have hle := (h.segment_bounds r' (List.mem_of_mem_filter hr')).2
      have hstart := (hmeets r' hr').2
      exact lt_min (by omega) (by omega)
  have hcount := hplaces.length_le (n := x+1) (by
    intro e he
    obtain ⟨r, -, rfl⟩ := List.mem_map.mp he
    omega)
  rw [List.length_map] at hcount
  omega

end Sync532
