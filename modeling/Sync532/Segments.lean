import Mathlib.Tactic

/-! Segments of a list given by the positions of their first and last entries,
and the segments that a list of last positions cuts it into. -/
namespace Sync532
variable {α : Type*}

/-- The entries `first .. last` of a list, both ends included. -/
def slice (s : List α) (first last : ℕ) : List α := (s.drop first).take (last+1-first)

theorem slice_eq_cons (s : List α) (first last : ℕ) (hle : first ≤ last)
    (hlt : last < s.length) :
    slice s first last = s[first] :: (s.drop (first+1)).take (last-first) := by
  unfold slice
  rw [List.drop_eq_getElem_cons (show first < s.length by omega),
    show last+1-first = (last-first)+1 by omega, List.take_succ_cons]

theorem length_slice (s : List α) (first last : ℕ) (hle : first ≤ last)
    (hlt : last < s.length) :
    (slice s first last).length = last-first+1 := by
  unfold slice
  rw [List.length_take, List.length_drop]
  omega

theorem slice_append (s : List α) (first mid last : ℕ) (h1 : first ≤ mid+1)
    (h2 : mid ≤ last) :
    slice s first mid ++ slice s (mid+1) last = slice s first last := by
  have hdrop : s.drop (mid+1) = (s.drop first).drop (mid+1-first) := by
    rw [List.drop_drop, show first+(mid+1-first) = mid+1 by omega]
  have hlen : last+1-first = (mid+1-first)+(last+1-(mid+1)) := by omega
  unfold slice
  rw [hdrop, hlen, List.take_add]

theorem slice_append_left (s rest : List α) (first last : ℕ) (hlt : last < s.length) :
    slice (s ++ rest) first last = slice s first last := by
  unfold slice
  rcases Nat.lt_or_ge last first with h | h
  · rw [show last+1-first = 0 by omega, List.take_zero, List.take_zero]
  · rw [List.drop_append_of_le_length (by omega), List.take_append_of_le_length]
    rw [List.length_drop]
    omega

theorem slice_append_right (s rest : List α) (first last : ℕ) :
    slice (s ++ rest) (s.length+first) (s.length+last) = slice rest first last := by
  unfold slice
  rw [List.drop_append, List.drop_eq_nil_of_le (by omega), List.nil_append,
    show s.length+first-s.length = first by omega,
    show s.length+last+1-(s.length+first) = last+1-first by omega]

theorem slice_full (s : List α) (hs : s ≠ []) : slice s 0 (s.length-1) = s := by
  have hpos := List.length_pos_of_ne_nil hs
  rw [slice, List.drop_zero, List.take_of_length_le (by omega)]

/-- The segments with the given last positions, the first one from `start`. -/
def segments : ℕ → List ℕ → List (ℕ × ℕ)
  | _, [] => []
  | start, e :: ends => (start, e) :: segments (e+1) ends

@[simp] theorem length_segments (start : ℕ) (ends : List ℕ) :
    (segments start ends).length = ends.length := by
  induction ends generalizing start with
  | nil => rfl
  | cons e ends ih => simp [segments, ih]

/-- Last positions that increase strictly from `start` on. -/
structure CutsFrom (start : ℕ) (ends : List ℕ) : Prop where
  le : ∀ e ∈ ends, start ≤ e
  increasing : ends.Pairwise (· < ·)

theorem CutsFrom.tail {start e : ℕ} {ends : List ℕ} (h : CutsFrom start (e :: ends)) :
    CutsFrom (e+1) ends := by
  obtain ⟨hlt, hinc⟩ := List.pairwise_cons.mp h.increasing
  exact ⟨fun e' he' => hlt e' he', hinc⟩

theorem CutsFrom.segment_bounds {start : ℕ} {ends : List ℕ} (h : CutsFrom start ends) :
    ∀ r ∈ segments start ends, start ≤ r.1 ∧ r.1 ≤ r.2 := by
  induction ends generalizing start with
  | nil => simp [segments]
  | cons e ends ih =>
    have he := h.le e List.mem_cons_self
    intro r hr
    rcases List.mem_cons.mp hr with rfl | hr
    · exact ⟨le_rfl, he⟩
    · have hb := ih h.tail r hr
      exact ⟨by omega, hb.2⟩

theorem CutsFrom.length_le {start n : ℕ} {ends : List ℕ} (h : CutsFrom start ends)
    (hn : ∀ e ∈ ends, e < n) : ends.length ≤ n-start := by
  induction ends generalizing start with
  | nil => exact Nat.zero_le _
  | cons e ends ih =>
    have he := h.le e List.mem_cons_self
    have hlt := hn e List.mem_cons_self
    have hrest := ih h.tail (fun e' he' => hn e' (List.mem_cons_of_mem _ he'))
    rw [List.length_cons]
    omega

theorem snd_segments (start : ℕ) (ends : List ℕ) :
    (segments start ends).map Prod.snd = ends := by
  induction ends generalizing start with
  | nil => rfl
  | cons e ends ih => simp [segments, ih]

theorem segments_contiguous (start : ℕ) (ends : List ℕ) :
    (segments start ends).IsChain (fun a b => b.1 = a.2+1) := by
  induction ends generalizing start with
  | nil => exact List.isChain_nil
  | cons e ends ih =>
    cases ends with
    | nil => exact List.isChain_singleton _
    | cons e' ends => exact List.isChain_cons_cons.mpr ⟨rfl, ih (e+1)⟩

/-- A segment ends at a given position, starts behind the one before, and has none inside. -/
theorem CutsFrom.mem_segments {start : ℕ} {ends : List ℕ} (h : CutsFrom start ends)
    (a b : ℕ) :
    (a, b) ∈ segments start ends ↔ b ∈ ends ∧ start ≤ a ∧ a ≤ b ∧
      (a = start ∨ ∃ e ∈ ends, e+1 = a) ∧ ∀ e ∈ ends, a ≤ e → b ≤ e := by
  induction ends generalizing start with
  | nil => simp [segments]
  | cons e ends ih =>
    have he : start ≤ e := h.le e List.mem_cons_self
    have hlater : ∀ e' ∈ ends, e < e' := (List.pairwise_cons.mp h.increasing).1
    rw [segments, List.mem_cons, ih h.tail, Prod.mk.injEq]
    constructor
    · rintro (⟨rfl, rfl⟩ | ⟨hb, ha, hab, hstart, hnone⟩)
      · refine ⟨List.mem_cons_self, le_rfl, he, Or.inl rfl, ?_⟩
        intro e' he' _
        rcases List.mem_cons.mp he' with rfl | he'
        · exact le_rfl
        · exact (hlater e' he').le
      · refine ⟨List.mem_cons_of_mem _ hb, by omega, hab, Or.inr ?_, ?_⟩
        · rcases hstart with rfl | ⟨e', he', rfl⟩
          · exact ⟨e, List.mem_cons_self, rfl⟩
          · exact ⟨e', List.mem_cons_of_mem _ he', rfl⟩
        · intro e' he' hle
          rcases List.mem_cons.mp he' with rfl | he'
          · omega
          · exact hnone e' he' hle
    · rintro ⟨hb, ha, hab, hstart, hnone⟩
      rcases Nat.lt_or_ge e a with hlt | hge
      · right
        have hb' : b ∈ ends := by
          rcases List.mem_cons.mp hb with rfl | hb
          · omega
          · exact hb
        refine ⟨hb', hlt, hab, ?_, fun e' he' => hnone e' (List.mem_cons_of_mem _ he')⟩
        rcases hstart with rfl | ⟨e', he', rfl⟩
        · omega
        · rcases List.mem_cons.mp he' with rfl | he'
          · exact Or.inl rfl
          · exact Or.inr ⟨e', he', rfl⟩
      · -- nothing ends in front of `e`, so the segment is the first one
        left
        have hbe : b ≤ e := hnone e List.mem_cons_self hge
        have hfirst : b = e := by
          rcases List.mem_cons.mp hb with rfl | hb
          · rfl
          · have hlt := hlater b hb
            omega
        refine ⟨?_, hfirst⟩
        rcases hstart with rfl | ⟨e', he', rfl⟩
        · rfl
        · rcases List.mem_cons.mp he' with rfl | he'
          · omega
          · have hlt := hlater e' he'
            omega

theorem CutsFrom.segments_disjoint {start : ℕ} {ends : List ℕ} (h : CutsFrom start ends) :
    (segments start ends).Pairwise (fun a b => a.2 < b.1) := by
  induction ends generalizing start with
  | nil => exact List.Pairwise.nil
  | cons e ends ih =>
    refine List.pairwise_cons.mpr ⟨?_, ih h.tail⟩
    intro r hr
    exact (h.tail.segment_bounds r hr).1

theorem CutsFrom.flatMap_slice (s : List α) {start : ℕ} {ends : List ℕ} {last : ℕ}
    (h : CutsFrom start (ends ++ [last])) :
    (segments start (ends ++ [last])).flatMap (fun r => slice s r.1 r.2) = slice s start last := by
  induction ends generalizing start with
  | nil => simp [segments]
  | cons e ends ih =>
    have he : start ≤ e := h.le e List.mem_cons_self
    have hlast : e+1 ≤ last := h.tail.le last (by simp)
    -- the first segment ends at `e`, where the rest starts
    have hrest := ih h.tail
    rw [List.cons_append, segments, List.flatMap_cons, hrest]
    exact slice_append s start e last (by omega) (by omega)

/-- Segments that cut a list into non-empty pieces, in its order, with nothing
left out and nothing twice. -/
structure ExactPartition (s : List α) (rs : List (ℕ × ℕ)) : Prop where
  nonempty : ∀ r ∈ rs, r.1 ≤ r.2
  inside : ∀ r ∈ rs, r.2 < s.length
  contiguous : rs.IsChain (fun a b => b.1 = a.2+1)
  disjoint : rs.Pairwise (fun a b => a.2 < b.1)
  content : rs.flatMap (fun r => slice s r.1 r.2) = s

theorem CutsFrom.exactPartition {s : List α} {ends : List ℕ} (hs : s ≠ [])
    (h : CutsFrom 0 (ends ++ [s.length-1])) :
    ExactPartition s (segments 0 (ends ++ [s.length-1])) := by
  have hpos := List.length_pos_of_ne_nil hs
  refine ⟨fun r hr => (h.segment_bounds r hr).2, ?_, segments_contiguous _ _,
    h.segments_disjoint, ?_⟩
  · intro r hr
    have hmem : r.2 ∈ ends ++ [s.length-1] := by
      rw [← snd_segments 0 (ends ++ [s.length-1])]
      exact List.mem_map_of_mem hr
    have hle : r.2 ≤ s.length-1 := by
      rcases List.mem_append.mp hmem with he | he
      · exact ((List.pairwise_append.mp h.increasing).2.2 _ he _ List.mem_cons_self).le
      · exact (List.mem_singleton.mp he).le
    omega
  · rw [h.flatMap_slice s, slice_full s hs]

end Sync532
