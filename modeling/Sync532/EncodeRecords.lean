import Sync532.CdcScan
import Sync532.DedupTable
import Sync532.EncodeModel

namespace Sync532
variable {β κ : Type*} [DecidableEq κ]

/-- A new chunk is written as an LZW record, any other one as a reference. -/
def orRecord (record : β → FileRecord) (b : β) (value : Option (BitVec 32)) : FileRecord :=
  value.elim (record b) .ref

theorem encodeChunk_remembers {hash : β → Option κ} {s : EncodeState κ}
    {earlier : List (β × BitVec 32)} (h : Remembers hash s.umap earlier) (b : β) (i : BitVec 32)
    (hi : i.toNat < 2^31) (hb : (hash b).isSome) (record : β → FileRecord)
    (lzwRecord : Option FileRecord)
    (hrec : firstValue hash earlier (hash b) = none → lzwRecord = some (record b)) :
    ∃ umap, encodeChunk s i (hash b) lzwRecord =
        some ⟨umap, s.records ++ [orRecord record b (firstValue hash earlier (hash b))]⟩ ∧
      Remembers hash umap (earlier ++ [(b, i)]) := by
  obtain ⟨k, hk⟩ := Option.isSome_iff_exists.mp hb
  obtain ⟨hanswer, hnext⟩ := deduplication_remembers h b hk i hi
  refine ⟨(deduplication s.umap i k).1, ?_, hnext⟩
  rcases hfirst : firstValue hash earlier (hash b) with _ | v
  · rw [hfirst, Option.getD_none] at hanswer
    simp only [encodeChunk, hk, Option.bind_some, hanswer, if_true, hrec hfirst, Option.map_some,
      orRecord, Option.elim_none]
  · -- an index is non-negative, so the answer is not taken for -1
    have hne : v ≠ -1 := by
      obtain ⟨c, hc, rfl⟩ := Option.map_eq_some_iff.mp hfirst
      have hpos := h.nonneg c (List.mem_of_find?_eq_some hc)
      rintro he
      rw [he] at hpos
      exact absurd hpos (by decide)
    rw [hfirst, Option.getD_some] at hanswer
    simp only [encodeChunk, hk, Option.bind_some, hanswer, hne, if_false, orRecord,
      Option.elim_some]

theorem encodeChunks_records {hash : β → Option κ} {lzwRecord : β → Option FileRecord}
    (record : β → FileRecord) {s : EncodeState κ} {earlier : List (β × BitVec 32)}
    (h : Remembers hash s.umap earlier) (calls : List (β × BitVec 32))
    (hsome : ∀ c ∈ calls, (hash c.1).isSome) (hidx : ∀ c ∈ calls, c.2.toNat < 2^31)
    (hrec : ∀ pre c post, calls = pre ++ c :: post →
      firstValue hash (earlier ++ pre) (hash c.1) = none → lzwRecord c.1 = some (record c.1)) :
    ∃ umap, calls.foldlM (fun s c => encodeChunk s c.2 (hash c.1) (lzwRecord c.1)) s =
        some ⟨umap, s.records ++ firstAnswers hash (orRecord record) earlier calls⟩ ∧
      Remembers hash umap (earlier ++ calls) := by
  -- the table remembers `earlier`, which grows by one call in each step
  induction calls generalizing s earlier with
  | nil =>
    refine ⟨s.umap, ?_, by rwa [List.append_nil]⟩
    simp [firstAnswers]
  | cons c calls ih =>
    obtain ⟨umap, hstep, hnext⟩ := encodeChunk_remembers h c.1 c.2 (hidx c List.mem_cons_self)
      (hsome c List.mem_cons_self) record (lzwRecord c.1)
      (fun hnew => hrec [] c calls rfl (by rwa [List.append_nil]))
    obtain ⟨umap', hrun, hrest⟩ := ih (s := ⟨umap, _⟩) hnext
      (fun c' hc' => hsome c' (List.mem_cons_of_mem _ hc'))
      (fun c' hc' => hidx c' (List.mem_cons_of_mem _ hc'))
      (fun pre c' post hsplit hnew => hrec (c :: pre) c' post (by rw [hsplit, List.cons_append])
        (by rwa [List.append_assoc, List.singleton_append] at hnew))
    refine ⟨umap', ?_, by rwa [List.append_assoc, List.singleton_append] at hrest⟩
    rw [List.foldlM_cons, hstep, Option.bind_eq_bind, Option.bind_some, hrun, List.append_assoc]
    rfl

section Decoding
variable {content : β → Str} {record : β → FileRecord}

/-- The LZW records of the file are the different contents so far. -/
theorem lzwChunks_firstAnswers (hrecord : ∀ b, ∃ body, record b = .lzw (content b) body)
    (calls : List (β × BitVec 32)) :
    lzwChunks (firstAnswers content (orRecord record) [] calls) =
      distinct (labelsOf content calls) := by
  -- from the end: the last call adds an LZW record exactly if its content is new
  induction calls using List.reverseRecOn with
  | nil => rfl
  | append_singleton calls c ih =>
    have hlabels : labelsOf content (calls ++ [c]) = labelsOf content calls ++ [content c.1] :=
      List.map_append
    rw [firstAnswers_append, lzwChunks_append, ih, hlabels, distinct_append_singleton]
    simp only [mem_distinct, firstAnswers, List.nil_append]
    rcases hfirst : firstValue content calls (content c.1) with _ | v
    · obtain ⟨body, hbody⟩ := hrecord c.1
      have hnew : content c.1 ∉ labelsOf content calls := by
        intro hmem
        obtain ⟨e, he, hsame⟩ := List.mem_map.mp hmem
        exact (firstValue_eq_none content calls _).mp hfirst e he hsame
      rw [if_neg hnew, orRecord, Option.elim_none, hbody]
      rfl
    · obtain ⟨d, hd, -⟩ := Option.map_eq_some_iff.mp hfirst
      have hold : content c.1 ∈ labelsOf content calls :=
        List.mem_map.mpr ⟨d, List.mem_of_find?_eq_some hd, by simpa using List.find?_some hd⟩
      rw [if_pos hold, orRecord, Option.elim_some]
      exact List.append_nil _

/-- When the first indices are the places among the different contents, the records
stand for the contents of the chunks. -/
theorem contents_firstAnswers (hrecord : ∀ b, ∃ body, record b = .lzw (content b) body)
    (calls : List (β × BitVec 32)) (hnum : NumbersFirsts content BitVec.toNat calls) :
    contents [] (firstAnswers content (orRecord record) [] calls) =
      calls.flatMap (fun c => content c.1) := by
  rw [numbersFirsts_iff] at hnum
  induction calls using List.reverseRecOn with
  | nil => rfl
  | append_singleton calls c ih =>
    have hprev := ih (fun pre d post hcalls => hnum pre d (post ++ [c]) (by rw [hcalls]; simp))
    rw [firstAnswers_append, contents_append, hprev, List.nil_append, List.flatMap_append]
    congr 1
    simp only [firstAnswers, List.nil_append, contents, List.append_nil, List.flatMap_cons,
      List.flatMap_nil]
    rcases hfirst : firstValue content calls (content c.1) with _ | v
    · obtain ⟨body, hbody⟩ := hrecord c.1
      rw [orRecord, Option.elim_none, hbody]
      rfl
    · have hplace := hnum calls c [] rfl v hfirst
      rw [orRecord, Option.elim_some, FileRecord.content, lzwChunks_firstAnswers hrecord, hplace]
      rfl

/-- The `n`-th record is a reference to an LZW record in front of it that has the
content of the `n`-th chunk, if it is a reference. -/
def LocationsAgree (records : List FileRecord) (chunks : List Str) : Prop :=
  ∀ n sent, records[n]? = some (.ref sent) →
    sent.toNat < (lzwChunks (records.take n)).length ∧
      (lzwChunks (records.take n))[sent.toNat]? = chunks[n]?

theorem locationsAgree_iff (hrecord : ∀ b, ∃ body, record b = .lzw (content b) body)
    (calls : List (β × BitVec 32)) :
    LocationsAgree (firstAnswers content (orRecord record) [] calls) (labelsOf content calls) ↔
      NumbersFirsts content BitVec.toNat calls := by
  -- the records in front of a call depend only on the calls in front of it
  have hat (pre post : List (β × BitVec 32)) (c : β × BitVec 32) :
      (firstAnswers content (orRecord record) [] (pre ++ c :: post)).take pre.length =
          firstAnswers content (orRecord record) [] pre ∧
        (labelsOf content (pre ++ c :: post))[pre.length]? = some (content c.1) := by
    constructor
    · rw [firstAnswers_append, List.take_append_of_le_length (length_firstAnswers ..).ge,
        ← length_firstAnswers content (orRecord record) [] pre, List.take_length]
    · simp [labelsOf]
  rw [numbersFirsts_iff]
  constructor
  · intro h pre c post hcalls v hv
    obtain ⟨htake, hlabel⟩ := hat pre post c
    have hrec := firstAnswers_at content (orRecord record) pre post c
    rw [hv] at hrec
    rw [hcalls] at h
    have hagree := (h pre.length v hrec).2
    rwa [htake, hlabel, lzwChunks_firstAnswers hrecord] at hagree
  · intro h n sent hn
    have hlt : n < calls.length := by
      have hlen := (List.getElem?_eq_some_iff.mp hn).1
      rwa [length_firstAnswers] at hlen
    obtain ⟨pre, c, post, rfl, rfl⟩ : ∃ pre c post, calls = pre ++ c :: post ∧
      pre.length = n := by
      refine ⟨calls.take n, calls[n], calls.drop (n+1), ?_, List.length_take_of_le hlt.le⟩
      rw [← List.drop_eq_getElem_cons hlt, List.take_append_drop]
    obtain ⟨htake, hlabel⟩ := hat pre post c
    rw [firstAnswers_at, Option.some.injEq] at hn
    rcases hfirst : firstValue content pre (content c.1) with _ | v
    · obtain ⟨body, hbody⟩ := hrecord c.1
      rw [hfirst, orRecord, Option.elim_none, hbody] at hn
      exact absurd hn (by simp)
    · rw [hfirst, orRecord, Option.elim_some, FileRecord.ref.injEq] at hn
      have hplace := h pre c post rfl v hfirst
      rw [htake, hlabel, lzwChunks_firstAnswers hrecord, ← hn]
      exact ⟨(List.getElem?_eq_some_iff.mp hplace).1, hplace⟩

end Decoding

section Encode
variable {κ : Type*} [DecidableEq κ]

theorem encodeChunk_appends {s s' : EncodeState κ} {i : BitVec 32} {key : Option κ}
    {record : Option FileRecord} (h : encodeChunk s i key record = some s') :
    ∃ r, s'.records = s.records ++ [r] := by
  obtain ⟨key, -, h⟩ := Option.bind_eq_some_iff.mp h
  dsimp only at h
  split_ifs at h
  · obtain ⟨r, -, rfl⟩ := Option.map_eq_some_iff.mp h
    exact ⟨r, rfl⟩
  · rw [← Option.some.inj h]
    exact ⟨_, rfl⟩

theorem chunkLoop_appends {hashValue : ℕ → ℤ → ℤ → Option κ}
    {lzwRecord : ℕ → ℤ → ℤ → Option FileRecord} {q : List ℤ} {index : ℕ}
    {endPos : ℤ} {s s' : EncodeState κ}
    (h : chunkLoop (fun s index first last => encodeChunk s (BitVec.ofNat 32 index)
      (hashValue index first last) (lzwRecord index first last)) index endPos q s = some s') :
    s.records <+: s'.records := by
  induction q generalizing index endPos s with
  | nil => cases h
  | cons e q ih =>
    unfold chunkLoop at h
    split_ifs at h
    · rw [Option.some.inj h]
    · obtain ⟨s1, hstep, hloop⟩ := Option.bind_eq_some_iff.mp h
      obtain ⟨r, hr⟩ := encodeChunk_appends hstep
      exact (hr ▸ List.prefix_append _ _).trans (ih hloop)

end Encode

theorem encode_appends {sha : Str → Digest} {p : Packet} {s s' : EncodeState Str}
    (h : encode sha p s = some s') : s.records.length < s'.records.length := by
  obtain ⟨q, hcdc, h⟩ := Option.bind_eq_some_iff.mp h
  obtain ⟨sPacket, -, h⟩ := Option.bind_eq_some_iff.mp h
  have hwindow : winSize ≤ p.payload.length := by
    by_contra hshort
    rw [cdc_short _ _ (by omega)] at hcdc
    cases hcdc
  rw [cdc_entries _ _ hwindow p.size (by rw [List.length_replicate])] at hcdc
  rw [← Option.some.inj hcdc] at h
  -- the first entry is not the -1 that ends the loop
  obtain ⟨e, ends, hends⟩ : ∃ e ends, cdcEnds p.payload = e :: ends :=
    List.exists_cons_of_ne_nil (by simp [cdcEnds])
  rw [hends] at h
  have hloop := (chunkLoop_cons _ e ends _ 0 0 s).symm.trans h
  obtain ⟨s1, hstep, hloop⟩ := Option.bind_eq_some_iff.mp hloop
  obtain ⟨r, hr⟩ := encodeChunk_appends hstep
  have hle := (chunkLoop_appends hloop).length_le
  rw [hr, List.length_append, List.length_singleton] at hle
  omega

end Sync532
