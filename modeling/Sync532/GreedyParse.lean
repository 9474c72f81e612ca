import Sync532.PhraseCodec

/-! The dictionary coder in its textbook form: take the longest entry that is a prefix
of what is left, and enter it with the symbol behind it. The writer that looks one
symbol ahead does the same, because its dictionary is closed under prefixes. -/
namespace Sync532
variable {α : Type*}

/-- Every non-empty prefix of an entry is an entry. -/
def PrefixClosed (dict : List (List α)) : Prop :=
  ∀ u v, u ≠ [] → u ++ v ∈ dict → u ∈ dict

theorem prefixClosed_singles {base : List (List α)} (hbase : ∀ s ∈ base, s.length = 1) :
    PrefixClosed base := by
  intro u v hu huv
  have hlen := hbase _ huv
  have hpos := List.length_pos_of_ne_nil hu
  rw [List.length_append] at hlen
  obtain rfl : v = [] := List.length_eq_zero_iff.mp (by omega)
  rwa [List.append_nil] at huv

theorem PrefixClosed.append {dict : List (List α)} (h : PrefixClosed dict) {p : List α}
    (hp : p ∈ dict) (a : α) : PrefixClosed (dict ++ [p ++ [a]]) := by
  intro u v hu huv
  rcases List.mem_append.mp huv with hin | hnew
  · exact List.mem_append_left _ (h u v hu hin)
  · -- a prefix of the new entry is the entry, or a prefix of `p`
    have heq : u ++ v = p ++ [a] := List.mem_singleton.mp hnew
    rcases List.eq_nil_or_concat v with rfl | ⟨w, b, rfl⟩
    · rw [List.append_nil] at heq
      rw [heq]
      exact List.mem_append_right _ (List.mem_singleton_self _)
    · rw [List.concat_eq_append, ← List.append_assoc] at heq
      obtain ⟨hp', -⟩ := List.append_inj' heq rfl
      apply List.mem_append_left
      apply h u w hu
      rw [hp']
      exact hp

/-- One symbol of lookahead is enough to see that a match is the longest one. -/
theorem PrefixClosed.longest {dict : List (List α)} (h : PrefixClosed dict) {p : List α} {a : α}
    (hnew : p ++ [a] ∉ dict) (s v : List α) (hv : v ≠ []) (hpre : v <+: a :: s) :
    p ++ v ∉ dict := by
  intro hmem
  obtain ⟨b, w, rfl⟩ := List.exists_cons_of_ne_nil hv
  obtain ⟨rfl, -⟩ := List.cons_prefix_cons.mp hpre
  apply hnew
  apply h (p ++ [b]) w (by simp)
  rwa [List.append_assoc, List.singleton_append]

/-- The writer has emitted `codes` for what it has consumed in front of its phrase. -/
structure PhraseWriter.Tracks (w : PhraseWriter α) (codes : List ℕ) (consumed : List α) :
    Prop where
  ready : w.Ready
  closed : PrefixClosed w.dict
  decoded : ∃ phrases, List.Forall₂ (fun c v => w.dict[c]? = some v) codes phrases ∧
    phrases.flatten ++ w.p = consumed

theorem PhraseWriter.tracks_start {base : List (List α)} (hbase : ∀ s ∈ base, s.length = 1)
    (hall : ∀ a, [a] ∈ base) (x : α) : PhraseWriter.Tracks ⟨base, [x]⟩ [] [x] where
  ready := ⟨hall x, hall, by simp⟩
  closed := prefixClosed_singles hbase
  decoded := ⟨[], List.Forall₂.nil, rfl⟩

/-- The entries that the phrases open: each one with the symbol behind it. -/
def opened (phrases : List (List α)) : List (List α) :=
  List.zipWith (fun w next => w ++ next.take 1) phrases phrases.tail

theorem opened_cons (w next : List α) (phrases : List (List α)) :
    opened (w :: next :: phrases) = (w ++ next.take 1) :: opened (next :: phrases) := rfl

section Parse
variable [DecidableEq α]

theorem PhraseWriter.codes_cons (w : PhraseWriter α) (a : α) (as : List α) :
    w.codes (a :: as) = (w.step a).2.toList ++ (w.step a).1.codes as := by
  by_cases hin : w.p ++ [a] ∈ w.dict
  · rw [codes_extend hin, step_extend hin]
    rfl
  · rw [codes_emit hin, step_emit hin]
    rfl

theorem PhraseWriter.Tracks.step {w : PhraseWriter α} {codes : List ℕ} {consumed : List α}
    (h : w.Tracks codes consumed) (a : α) :
    (w.step a).1.Tracks (codes ++ (w.step a).2.toList) (consumed ++ [a]) := by
  obtain ⟨phrases, hphrases, rfl⟩ := h.decoded
  by_cases hin : w.p ++ [a] ∈ w.dict
  · rw [step_extend hin, Option.toList_none, List.append_nil]
    exact ⟨h.ready.extend hin, h.closed, phrases, hphrases, (List.append_assoc _ _ _).symm⟩
  · rw [step_emit hin, Option.toList_some]
    -- the old entries keep their places, and the current phrase is one of them
    have hkeep (c : ℕ) (v : List α) (hv : w.dict[c]? = some v) :
        (w.dict ++ [w.p ++ [a]])[c]? = some v := by
      rw [List.getElem?_append_left (List.getElem?_eq_some_iff.mp hv).1, hv]
    refine ⟨h.ready.emit a, h.closed.append h.ready.mem a, phrases ++ [w.p], ?_, ?_⟩
    · apply List.rel_append
      · exact hphrases.imp hkeep
      · exact List.Forall₂.cons (hkeep _ _ h.ready.getElem?_idxOf) List.Forall₂.nil
    · rw [List.flatten_append, List.flatten_singleton]

/-- The longest entry that is a prefix of `s`. -/
def longestMatch (dict : List (List α)) (s : List α) : List α :=
  s.take (Nat.findGreatest (fun n => dict.contains (s.take n)) s.length)

theorem longestMatch_eq {dict : List (List α)} {w s : List α} (hw : w ∈ dict)
    (hlongest : ∀ v, v ≠ [] → v <+: s → w ++ v ∉ dict) :
    longestMatch dict (w ++ s) = w := by
  have hgreatest : Nat.findGreatest (fun n => dict.contains ((w ++ s).take n)) (w ++ s).length =
      w.length := by
    apply Nat.findGreatest_eq_iff.mpr
    simp only [List.contains_iff_mem]
    refine ⟨?_, ?_, ?_⟩
    · rw [List.length_append]
      omega
    · intro _
      rwa [List.take_left]
    · -- a longer entry would be `w` with a part of `s`
      intro n hn hlen hmem
      rw [List.length_append] at hlen
      rw [List.take_append, List.take_of_length_le hn.le] at hmem
      refine hlongest _ ?_ (List.take_prefix _ s) hmem
      apply List.ne_nil_of_length_pos
      rw [List.length_take]
      omega
  rw [longestMatch, hgreatest, List.take_left]

theorem longestMatch_prefix (dict : List (List α)) (s : List α) : longestMatch dict s <+: s :=
  List.take_prefix _ _

/-- It is an entry as soon as some prefix is one, and no entry that is a prefix is
longer. -/
theorem longestMatch_spec {dict : List (List α)} {s e : List α} (he : e ∈ dict) (hs : e <+: s) :
    longestMatch dict s ∈ dict ∧ e.length ≤ (longestMatch dict s).length := by
  have htake : s.take e.length = e := (List.prefix_iff_eq_take.mp hs).symm
  have hmem : dict.contains (s.take e.length) = true := by rwa [htake, List.contains_iff_mem]
  have hgreatest := Nat.findGreatest_spec (P := fun n => dict.contains (s.take n)) hs.length_le hmem
  refine ⟨List.contains_iff_mem.mp hgreatest, ?_⟩
  rw [longestMatch, List.length_take]
  exact le_min (Nat.le_findGreatest hs.length_le hmem) hs.length_le

/-- The steps of the coder, each with its code and its phrase. -/
def greedyParse (dict : List (List α)) : List α → List (ℕ × List α)
  | [] => []
  | x :: s =>
    let w := longestMatch dict (x :: s)
    let dict' := match (x :: s).drop w.length with
      | [] => dict
      | a :: _ => dict ++ [w ++ [a]]
    (dict.idxOf w, w) :: greedyParse dict' (s.drop (w.length-1))
termination_by s => s.length
decreasing_by
  simp only [List.length_drop, List.length_cons]
  omega

theorem greedyParse_last {dict : List (List α)} {w : List α} (hw : w ∈ dict) (hne : w ≠ []) :
    greedyParse dict w = [(dict.idxOf w, w)] := by
  have hmatch := longestMatch_eq (s := []) hw (fun v hv hpre => absurd (List.prefix_nil.mp hpre) hv)
  rw [List.append_nil] at hmatch
  obtain ⟨x, s, rfl⟩ := List.exists_cons_of_ne_nil hne
  rw [greedyParse]
  simp only [hmatch, List.length_cons, Nat.add_sub_cancel, List.drop_length]
  rw [greedyParse]

theorem greedyParse_step {dict : List (List α)} {w s : List α} {a : α} (hw : w ∈ dict)
    (hne : w ≠ []) (hlongest : ∀ v, v ≠ [] → v <+: a :: s → w ++ v ∉ dict) :
    greedyParse dict (w ++ a :: s) =
      (dict.idxOf w, w) :: greedyParse (dict ++ [w ++ [a]]) (a :: s) := by
  have hmatch := longestMatch_eq hw hlongest
  obtain ⟨x, t, rfl⟩ := List.exists_cons_of_ne_nil hne
  rw [List.cons_append] at hmatch ⊢
  rw [greedyParse]
  have hdrop : (x :: (t ++ a :: s)).drop (x :: t).length = a :: s := List.drop_left
  have hrest : (t ++ a :: s).drop ((x :: t).length-1) = a :: s := List.drop_left
  simp only [hmatch, hdrop, hrest]

/-- The writer emits the codes of the textbook coder. -/
theorem PhraseWriter.codes_eq_greedy {w : PhraseWriter α} (hw : w.Ready)
    (hclosed : PrefixClosed w.dict) (as : List α) :
    w.codes as = (greedyParse w.dict (w.p ++ as)).map Prod.fst := by
  induction as generalizing w with
  | nil => rw [List.append_nil, greedyParse_last hw.mem hw.nonempty, codes, List.map_singleton]
  | cons a as ih =>
    -- the phrase grows under the same dictionary, or it is a longest match and is emitted
    by_cases hin : w.p ++ [a] ∈ w.dict
    · rw [codes_extend hin, ih (hw.extend hin) hclosed, List.append_assoc, List.singleton_append]
    · rw [codes_emit hin, greedyParse_step hw.mem hw.nonempty (hclosed.longest hin as),
        List.map_cons, ih (hw.emit a) (hclosed.append hw.mem a), List.singleton_append]

/-- The first step of the coder, when every symbol is an entry. -/
theorem greedyParse_first (dict : List (List α)) (hsingle : ∀ a, [a] ∈ dict) (x : α)
    (s : List α) :
    ∃ w, (x :: w) ∈ dict ∧
      ((s = w ∧ greedyParse dict (x :: s) = [(dict.idxOf (x :: w), x :: w)]) ∨
      ∃ a as, s = w ++ a :: as ∧ greedyParse dict (x :: s) =
        (dict.idxOf (x :: w), x :: w) :: greedyParse (dict ++ [x :: w ++ [a]]) (a :: as)) := by
  obtain ⟨hmem, hlen⟩ := longestMatch_spec (s := x :: s) (hsingle x) ⟨s, rfl⟩
  have hmax : ∀ e ∈ dict, e <+: x :: s → e.length ≤ (longestMatch dict (x :: s)).length :=
    fun e he hpre => (longestMatch_spec he hpre).2
  obtain ⟨r, hr⟩ := longestMatch_prefix dict (x :: s)
  generalize longestMatch dict (x :: s) = m at *
  obtain ⟨y, w, rfl⟩ := List.exists_cons_of_ne_nil (List.ne_nil_of_length_pos hlen)
  obtain ⟨rfl, hs⟩ := List.cons.inj hr
  obtain rfl : w ++ r = s := hs
  refine ⟨w, hmem, ?_⟩
  rcases r with _ | ⟨a, as⟩
  · left
    rw [List.append_nil]
    exact ⟨rfl, greedyParse_last hmem (List.cons_ne_nil y w)⟩
  · right
    refine ⟨a, as, rfl, greedyParse_step hmem (List.cons_ne_nil y w) ?_⟩
    intro v hv hpre hin
    have hle := hmax _ hin ((List.prefix_append_right_inj (y :: w)).mpr hpre)
    have hpos := List.length_pos_of_ne_nil hv
    rw [List.length_append] at hle
    omega

/-- Phrase `m` is coded by its place among the first entries and the `m` opened ones. -/
theorem greedyParse_code (dict : List (List α)) (hsingle : ∀ a, [a] ∈ dict) (s : List α)
    (m v : ℕ) (w : List α) (hm : (greedyParse dict s)[m]? = some (v, w)) :
    w ∈ dict ++ (opened ((greedyParse dict s).map Prod.snd)).take m ∧
      v = (dict ++ (opened ((greedyParse dict s).map Prod.snd)).take m).idxOf w := by
  induction m generalizing dict s with
  | zero =>
    rcases s with _ | ⟨x, s⟩
    · rw [greedyParse] at hm
      exact absurd hm (by simp)
    · rw [List.take_zero, List.append_nil]
      obtain ⟨w', hmem, ⟨-, hparse⟩ | ⟨a, as, -, hparse⟩⟩ :=
        greedyParse_first dict hsingle x s
      all_goals
        rw [hparse, List.getElem?_cons_zero] at hm
        obtain ⟨rfl, rfl⟩ := Prod.mk.inj (Option.some.inj hm)
        exact ⟨hmem, rfl⟩
  | succ m ih =>
    rcases s with _ | ⟨x, s⟩
    · rw [greedyParse] at hm
      exact absurd hm (by simp)
    · obtain ⟨w', -, ⟨-, hparse⟩ | ⟨a, as, -, hparse⟩⟩ :=
        greedyParse_first dict hsingle x s
      · rw [hparse] at hm
        exact absurd hm (by simp)
      · rw [hparse, List.getElem?_cons_succ] at hm
        have hrest :=
          ih (dict ++ [x :: w' ++ [a]]) (fun b => List.mem_append_left _ (hsingle b)) _ hm
        -- the next phrase starts with `a`, so the first opened entry is the new one
        obtain ⟨next, phrases, hnext⟩ : ∃ next phrases,
          (greedyParse (dict ++ [x :: w' ++ [a]])
            (a :: as)).map Prod.snd = (a :: next) :: phrases := by
          obtain ⟨next, -, ⟨-, h⟩ | ⟨b, bs, -, h⟩⟩ :=
            greedyParse_first (dict ++ [x :: w' ++ [a]])
            (fun b => List.mem_append_left _ (hsingle b)) a as
          all_goals
            rw [h, List.map_cons]
            exact ⟨next, _, rfl⟩
        rw [hparse, List.map_cons, hnext, opened_cons, List.take_succ_cons, List.take_succ_cons,
          List.take_zero]
        rw [hnext, List.append_assoc, List.singleton_append] at hrest
        exact hrest

/-- The codes stay below `K` exactly when no phrase is an entry behind the first `K`. -/
theorem greedyParse_codes_lt_iff (dict : List (List α)) (hsingle : ∀ a, [a] ∈ dict)
    (s : List α) (K : ℕ) (hK : dict.length ≤ K) :
    (∀ v ∈ (greedyParse dict s).map Prod.fst, v < K) ↔
      ∀ w ∈ (greedyParse dict s).map Prod.snd,
        w ∈ dict ∨ w ∈ (opened ((greedyParse dict s).map Prod.snd)).take (K-dict.length) := by
  -- one phrase and its code
  have hone (m v : ℕ) (w : List α) (hm : (greedyParse dict s)[m]? = some (v, w)) : v < K ↔
      w ∈ dict ∨ w ∈ (opened ((greedyParse dict s).map Prod.snd)).take (K-dict.length) := by
    obtain ⟨hmem, rfl⟩ := greedyParse_code dict hsingle s m v w hm
    generalize opened ((greedyParse dict s).map Prod.snd) = entries at *
    have htake :
        (dict ++ entries.take m).take K = dict ++ (entries.take m).take (K-dict.length) := by
      rw [List.take_append, List.take_of_length_le hK]
    rw [← List.mem_take_iff_idxOf_lt hmem, htake, ← List.mem_append, List.mem_append,
      List.mem_append, List.take_take]
    rcases le_total (K-dict.length) m with hle | hle
    · rw [min_eq_left hle]
    · -- all entries that the phrase can be are among the first `K`
      rw [min_eq_right hle, ← List.mem_append]
      refine ⟨fun _ => ?_, fun _ => hmem⟩
      apply (List.mem_append.mp hmem).imp_right
      intro hw
      rw [← min_eq_left hle, ← List.take_take] at hw
      exact List.mem_of_mem_take hw
  constructor
  · intro h w hw
    obtain ⟨⟨v, _⟩, hvw, rfl⟩ := List.mem_map.mp hw
    obtain ⟨m, hm⟩ := List.mem_iff_getElem?.mp hvw
    exact (hone m v _ hm).mp (h v (List.mem_map_of_mem hvw))
  · intro h v hv
    obtain ⟨⟨_, w⟩, hvw, rfl⟩ := List.mem_map.mp hv
    obtain ⟨m, hm⟩ := List.mem_iff_getElem?.mp hvw
    exact (hone m _ w hm).mpr (h w (List.mem_map_of_mem hvw))

end Parse

end Sync532
