import Sync532.LzwCodes

namespace Sync532

/-- Bit `p` of the 13-bit codes written one behind the other; zero behind them. -/
def codesBit (codes : List ℕ) (p : ℕ) : Bool := (codes.getD (p/13) 0).testBit (12-p%13)

theorem codesBit_append (codes : List ℕ) (v p : ℕ) :
    codesBit (codes ++ [v]) p = (codesBit codes p || codeBit 13 (13*codes.length) v p) := by
  unfold codesBit codeBit
  rcases lt_trichotomy (p/13) codes.length with h | h | h
  · have hout : ¬(13*codes.length ≤ p ∧ p < 13*codes.length+13) := by omega
    simp only [List.getD_eq_getElem?_getD, List.getElem?_append_left h, hout, decide_false,
      Bool.false_and, Bool.or_false]
  · have hin : 13*codes.length ≤ p ∧ p < 13*codes.length+13 := by omega
    have hidx : 13-1-(p-13*codes.length) = 12-p%13 := by omega
    have hnone : codes[p/13]? = none := List.getElem?_eq_none (by omega)
    simp only [List.getD_eq_getElem?_getD, h, List.getElem?_concat_length, Option.getD_some,
      hidx, hin, and_self, decide_true, Bool.true_and]
    simp
  · have hout : ¬(13*codes.length ≤ p ∧ p < 13*codes.length+13) := by omega
    have hnone : codes[p/13]? = none := List.getElem?_eq_none (by omega)
    have hnone' : (codes ++ [v])[p/13]? = none := List.getElem?_eq_none (by simp; omega)
    simp only [List.getD_eq_getElem?_getD, hnone, hnone', hout, decide_false, Bool.false_and,
      Bool.or_false]

/-- The bytes `lo .. hi-1` have received their bits of the code, no other byte changed. -/
structure Wrote (base code lo hi : ℕ) (o o' : LzwOutput) : Prop where
  length : o'.outputCode.length = o.outputCode.length
  bits : ∀ p, bitAt o'.outputCode p =
    (bitAt o.outputCode p || (decide (lo ≤ p/8 ∧ p/8 < hi) && codeBit 13 base code p))

theorem Wrote.trans {base code lo mid hi : ℕ} {o₁ o₂ o₃ : LzwOutput}
    (h : Wrote base code lo mid o₁ o₂) (h' : Wrote base code mid hi o₂ o₃)
    (hlo : lo ≤ mid) (hhi : mid ≤ hi) : Wrote base code lo hi o₁ o₃ := by
  refine ⟨h'.length.trans h.length, ?_⟩
  intro p
  have hsplit : decide (lo ≤ p/8 ∧ p/8 < hi) =
      (decide (lo ≤ p/8 ∧ p/8 < mid) || decide (mid ≤ p/8 ∧ p/8 < hi)) := by
    rw [← Bool.decide_or]
    exact decide_eq_decide.mpr (by omega)
  rw [h'.bits, h.bits, hsplit, Bool.or_assoc, Bool.and_or_distrib_right]

theorem Wrote.bits_all {base code lo hi : ℕ} {o o' : LzwOutput} (h : Wrote base code lo hi o o')
    (hlo : 8*lo ≤ base) (hhi : base+13 ≤ 8*hi) (p : ℕ) :
    bitAt o'.outputCode p = (bitAt o.outputCode p || codeBit 13 base code p) := by
  rw [h.bits p]
  by_cases hp : base ≤ p ∧ p < base+13
  · rw [decide_eq_true (show lo ≤ p/8 ∧ p/8 < hi by omega), Bool.true_and]
  · simp only [codeBit, hp, decide_false, Bool.false_and, Bool.and_false]

theorem wrote_of_piece {base code q : ℕ} {o : LzwOutput} {buf : List Byte} {v : Byte}
    (h : orAt o.outputCode q v = some buf)
    (hv : ∀ p, p/8 = q → v.getMsbD (p%8) = codeBit 13 base code p) (n : ℕ) :
    Wrote base code q (q+1) o ⟨buf, n⟩ := by
  refine ⟨length_orAt h, ?_⟩
  intro p
  rw [bitAt_orAt h p]
  by_cases hp : p/8 = q
  · rw [hv p hp]
    simp only [hp, le_refl, Nat.lt_succ_self, and_self, decide_true]
  · simp only [hp, show ¬(q ≤ p/8 ∧ p/8 < q+1) by omega, decide_false, Bool.false_and]

theorem orNext_down (base code mask a : ℕ) {q : ℕ} {o : LzwOutput} (ho : o.outlen = q)
    (hq : q < o.outputCode.length) (ha : base+13 = 8*q+8+a)
    (hmask : ∀ i < 8, mask.testBit (a+i) = decide (a+i < 13)) :
    ∃ o', o.orNext ((code &&& mask) >>> a) = some o' ∧ o'.outlen = q+1 ∧
      Wrote base code q (q+1) o o' := by
  subst ho
  obtain ⟨buf, hst⟩ : ∃ buf,
    orAt o.outputCode o.outlen (BitVec.ofNat 8 ((code &&& mask) >>> a)) =
    some buf := ⟨_, orAt_of_lt _ _ _ hq⟩
  refine ⟨⟨buf, o.outlen+1⟩, by rw [LzwOutput.orNext, hst, Option.map_some], rfl,
    wrote_of_piece hst ?_ _⟩
  intro p hp
  exact getMsbD_piece_down 13 base code mask a o.outlen p hp ha hmask

theorem orHere_up (base code mask s : ℕ) {q : ℕ} {o : LzwOutput} (ho : o.outlen = q)
    (hq : q < o.outputCode.length) (hs : base+13+s = 8*q+8) (hb : base ≤ 8*q)
    (hmask : ∀ i < 8, i+s < 8 → mask.testBit i = true) :
    ∃ o', o.orHere ((code &&& mask) <<< s) = some o' ∧ o'.outlen = q ∧
      Wrote base code q (q+1) o o' := by
  subst ho
  obtain ⟨buf, hst⟩ : ∃ buf,
    orAt o.outputCode o.outlen (BitVec.ofNat 8 ((code &&& mask) <<< s)) =
    some buf := ⟨_, orAt_of_lt _ _ _ hq⟩
  refine ⟨⟨buf, o.outlen⟩, by rw [LzwOutput.orHere, hst, Option.map_some], rfl,
    wrote_of_piece hst ?_ _⟩
  intro p hp
  exact getMsbD_piece_up 13 base code mask s o.outlen p hp hs hb hmask

theorem two_pieces (base code m₁ a m₂ s : ℕ) {q : ℕ} {o : LzwOutput} (ho : o.outlen = q)
    (hq : q+1 < o.outputCode.length) (ha : base+13 = 8*q+8+a) (hs : a+s = 8)
    (hb : base ≤ 8*(q+1))
    (h₁ : ∀ i < 8, m₁.testBit (a+i) = decide (a+i < 13))
    (h₂ : ∀ i < 8, i+s < 8 → m₂.testBit i = true) :
    ∃ o', (o.orNext ((code &&& m₁) >>> a)).bind (fun o => o.orHere ((code &&& m₂) <<< s)) =
      some o' ∧
      o'.outlen = q+1 ∧ Wrote base code q (q+2) o o' := by
  obtain ⟨o₁, hn, hl₁, hw₁⟩ := orNext_down base code m₁ a ho (by omega) ha h₁
  obtain ⟨o₂, hh, hl₂, hw₂⟩ := orHere_up base code m₂ s hl₁
    (by rw [hw₁.length]; omega) (by omega) hb h₂
  exact ⟨o₂, by rw [hn, Option.bind_some, hh], hl₂, hw₁.trans hw₂ (by omega) (by omega)⟩

theorem three_pieces (base code m₁ a m₂ b m₃ s : ℕ) {q : ℕ} {o : LzwOutput}
    (ho : o.outlen = q) (hq : q+2 < o.outputCode.length) (ha : base+13 = 8*q+8+a) (hb : a = b+8)
    (hs : b+s = 8) (hbase : base ≤ 8*(q+2))
    (h₁ : ∀ i < 8, m₁.testBit (a+i) = decide (a+i < 13))
    (h₂ : ∀ i < 8, m₂.testBit (b+i) = decide (b+i < 13))
    (h₃ : ∀ i < 8, i+s < 8 → m₃.testBit i = true) :
    ∃ o', (o.orNext ((code &&& m₁) >>> a)).bind (fun o =>
        (o.orNext ((code &&& m₂) >>> b)).bind (fun o => o.orHere ((code &&& m₃) <<< s))) =
          some o' ∧
      o'.outlen = q+2 ∧ Wrote base code q (q+3) o o' := by
  obtain ⟨o₁, hn, hl₁, hw₁⟩ := orNext_down base code m₁ a ho (by omega) ha h₁
  obtain ⟨o₂, hn', hl₂, hw₂⟩ :=
    two_pieces base code m₂ b m₃ s hl₁ (by rw [hw₁.length]; omega)
    (show base+13 = 8*(q+1)+8+b by omega) hs (by omega) h₂ h₃
  exact ⟨o₂, by rw [hn, Option.bind_some, hn'], hl₂,
    hw₁.trans hw₂ (by omega) (by omega)⟩

/-- The first seven phases, entered on the byte that holds the next free bit. -/
theorem packShared_wrote (k v : ℕ) (o : LzwOutput) (ho : o.outlen = 13*k/8)
    (hroom : 13*(k+1) ≤ 8*o.outputCode.length) (hk : k%8 ≠ 7) :
    ∃ o', packShared (k%8) v o = some o' ∧ o'.outlen = 13*(k+1)/8 ∧
      Wrote (13*k) v (13*k/8) (13*(k+1)/8+1) o o' := by
  have hlt : k%8 < 8 := Nat.mod_lt _ (by decide)
  have two {a s : ℕ} (m₁ m₂ : ℕ) (hr : 13*k+5 = 8*(13*k/8)+a) (hs : a+s = 8)
      (hpos : 0 < s) (h₁ : ∀ i < 8, m₁.testBit (a+i) = decide (a+i < 13))
      (h₂ : ∀ i < 8, i+s < 8 → m₂.testBit i = true) :
      ∃ o', (o.orNext ((v &&& m₁) >>> a)).bind (fun o => o.orHere ((v &&& m₂) <<< s)) =
        some o' ∧
        o'.outlen = 13*(k+1)/8 ∧ Wrote (13*k) v (13*k/8) (13*(k+1)/8+1) o o' := by
    rw [show 13*(k+1)/8 = 13*k/8+1 by omega]
    exact two_pieces _ _ _ _ _ _ ho (by omega) (by omega) hs (by omega) h₁ h₂
  have three {a b s : ℕ} (m₁ m₂ m₃ : ℕ) (hr : 13*k+5 = 8*(13*k/8)+a) (hb : a = b+8)
      (hs : b+s = 8) (hpos : 0 < b ∧ 0 < s)
      (h₁ : ∀ i < 8, m₁.testBit (a+i) = decide (a+i < 13))
      (h₂ : ∀ i < 8, m₂.testBit (b+i) = decide (b+i < 13))
      (h₃ : ∀ i < 8, i+s < 8 → m₃.testBit i = true) :
      ∃ o', (o.orNext ((v &&& m₁) >>> a)).bind (fun o =>
          (o.orNext ((v &&& m₂) >>> b)).bind (fun o => o.orHere ((v &&& m₃) <<< s))) =
            some o' ∧
        o'.outlen = 13*(k+1)/8 ∧ Wrote (13*k) v (13*k/8) (13*(k+1)/8+1) o o' := by
    rw [show 13*(k+1)/8 = 13*k/8+2 by omega]
    exact three_pieces _ _ _ _ _ _ _ _ ho (by omega) (by omega) hb hs (by omega) h₁ h₂ h₃
  -- the offset of the free bit in its byte is five times the phase, modulo eight
  rcases h : k%8 with _ | _ | _ | _ | _ | _ | _ | r
  · exact two _ _ (by omega) (by decide) (by decide) (by decide) (by decide)
  · exact three _ _ _ (by omega) (by decide) (by decide) (by decide) (by decide) (by decide)
      (by decide)
  · exact two _ _ (by omega) (by decide) (by decide) (by decide) (by decide)
  · exact three _ _ _ (by omega) (by decide) (by decide) (by decide) (by decide) (by decide)
      (by decide)
  · exact three _ _ _ (by omega) (by decide) (by decide) (by decide) (by decide) (by decide)
      (by decide)
  · exact two _ _ (by omega) (by decide) (by decide) (by decide) (by decide)
  · exact three _ _ _ (by omega) (by decide) (by decide) (by decide) (by decide) (by decide)
      (by decide)
  · omega

/-- After the loop has packed `codes`: `outlen` counts the full bytes, and the
first `cap` bytes hold the codes and zero bits. -/
structure Packed (cap size : ℕ) (codes : List ℕ) (o : LzwOutput) : Prop where
  outlen : o.outlen = 13*codes.length/8
  size : o.outputCode.length = size
  bits : ∀ p < 8*cap, bitAt o.outputCode p = codesBit codes p

theorem Wrote.packed_bits {cap size v hi : ℕ} {codes : List ℕ} {o o' : LzwOutput}
    (h : Packed cap size codes o)
    (hw : Wrote (13*codes.length) v (13*codes.length/8) hi o o')
    (hhi : 13*codes.length+13 ≤ 8*hi) :
    o'.outputCode.length = size ∧
      ∀ p < 8*cap, bitAt o'.outputCode p = codesBit (codes ++ [v]) p := by
  refine ⟨hw.length.trans h.size, ?_⟩
  intro p hp
  rw [hw.bits_all (by omega) hhi p, h.bits p hp, codesBit_append]

theorem packLoop_packed {cap size : ℕ} {codes : List ℕ} {o : LzwOutput}
    (h : Packed cap size codes o) (hsize : cap ≤ size) (v : ℕ)
    (hcap : 13*(codes.length+1) ≤ 8*cap) :
    ∃ o', packLoop (codes.length%8) v o = some o' ∧ Packed cap size (codes ++ [v]) o' := by
  have hroom := h.size
  by_cases hk : codes.length%8 = 7
  · -- the last phase ends on a byte boundary, so both pieces go down
    obtain ⟨o₁, hn₁, hl₁, hw₁⟩ :=
      orNext_down (13*codes.length) v 0b1111100000000 8 h.outlen
      (by omega) (by omega) (by decide)
    obtain ⟨o₂, hn₂, hl₂, hw₂⟩ :=
      orNext_down (13*codes.length) v 0b0000011111111 0 hl₁
      (by rw [hw₁.length]; omega) (by omega) (by decide)
    have hw := hw₁.trans hw₂ (by omega) (by omega)
    obtain ⟨hlen, hbits⟩ := hw.packed_bits h (by omega)
    refine ⟨o₂, ?_, ?_, hlen, hbits⟩
    · rw [packLoop, if_pos hk, hn₁]
      exact hn₂
    · rw [hl₂, List.length_append, List.length_singleton]
      omega
  · obtain ⟨o', hp, hl, hw⟩ := packShared_wrote codes.length v o h.outlen (by omega) hk
    obtain ⟨hlen, hbits⟩ := hw.packed_bits h (by omega)
    refine ⟨o', by rw [packLoop, if_neg hk, hp], ?_, hlen, hbits⟩
    rw [hl, List.length_append, List.length_singleton]

theorem packed_bytes_of_phase (k : ℕ) (hk : k%8 ≠ 7) : 13*(k+1)/8+1 = (13*(k+1)+7)/8 := by
  have hlt : k%8 < 8 := Nat.mod_lt _ (by decide)
  rcases h : k%8 with _ | _ | _ | _ | _ | _ | _ | r <;> omega

/-- Behind the last code `outlen` is the index of the byte that holds its last bit. -/
theorem packFinal_packed {cap size : ℕ} {codes : List ℕ} {o : LzwOutput}
    (h : Packed cap size codes o) (hsize : cap ≤ size) (v : ℕ)
    (hcap : 13*(codes.length+1) ≤ 8*cap) :
    ∃ o', packFinal (codes.length%8) v o = some o' ∧
      o'.outlen+1 = (13*(codes.length+1)+7)/8 ∧ o'.outputCode.length = size ∧
      ∀ p < 8*cap, bitAt o'.outputCode p = codesBit (codes ++ [v]) p := by
  have hroom := h.size
  by_cases hk : codes.length%8 = 7
  · -- the last phase again, but `outlen` stays on the byte that holds the last bit
    obtain ⟨o₁, hn₁, hl₁, hw₁⟩ :=
      orNext_down (13*codes.length) v 0b1111100000000 8 h.outlen
      (by omega) (by omega) (by decide)
    obtain ⟨o₂, hn₂, hl₂, hw₂⟩ := orHere_up (13*codes.length) v 0b0000011111111 0 hl₁
      (by rw [hw₁.length]; omega) (by omega) (by omega)
      (by decide)
    have hw := hw₁.trans hw₂ (by omega) (by omega)
    obtain ⟨hlen, hbits⟩ := hw.packed_bits h (by omega)
    refine ⟨o₂, ?_, by omega, hlen, hbits⟩
    rw [packFinal, if_pos hk, hn₁]
    exact hn₂
  · obtain ⟨o', hp, hl, hw⟩ := packShared_wrote codes.length v o h.outlen (by omega) hk
    obtain ⟨hlen, hbits⟩ := hw.packed_bits h (by omega)
    refine ⟨o', by rw [packFinal, if_neg hk, hp], ?_, hlen, hbits⟩
    rw [hl]
    exact packed_bytes_of_phase codes.length hk

theorem packCodes_packed {cap size : ℕ} (hsize : cap ≤ size) (codes : List ℕ)
    (hne : codes ≠ []) :
    ∀ (done : List ℕ) (o : LzwOutput), Packed cap size done o →
      13*(done.length+codes.length) ≤ 8*cap →
      ∃ o', packCodes (done.length%8) codes o = some o' ∧
        o'.outlen+1 = (13*(done.length+codes.length)+7)/8 ∧ o'.outputCode.length = size ∧
        ∀ p < 8*cap, bitAt o'.outputCode p = codesBit (done ++ codes) p := by
  induction codes with
  | nil => exact absurd rfl hne
  | cons v vs ih =>
    intro done o h hcap
    -- the last code goes to the final packing, every other one to the loop
    rcases vs with _ | ⟨v', vs⟩
    · exact packFinal_packed h hsize v hcap
    · have hlen : (done ++ [v]).length = done.length+1 := by simp
      have htotal : (done ++ [v]).length+(v' :: vs).length =
          done.length+(v :: v' :: vs).length := by
        simp only [hlen, List.length_cons]
        omega
      obtain ⟨o₁, hp, h₁⟩ := packLoop_packed h hsize v
        (by simp only [List.length_cons] at hcap; omega)
      obtain ⟨o', hp', ho', hl', hb'⟩ := ih (List.cons_ne_nil _ _) (done ++ [v]) o₁ h₁
        (htotal ▸ hcap)
      refine ⟨o', ?_, htotal ▸ ho', hl', by simpa using hb'⟩
      have hphase : (done.length%8+1)%8 = (done ++ [v]).length%8 := by
        rw [hlen]
        omega
      rw [packCodes_cons _ _ _ (List.cons_ne_nil _ _), hp, Option.bind_some, hphase, hp']

theorem clearOutput_eq (n : ℕ) (buf : List Byte) (hn : n ≤ buf.length) :
    clearOutput n buf = some (List.replicate n 0 ++ buf.drop n) := by
  unfold clearOutput
  induction n with
  | zero => simp
  | succ n ih =>
    have hover := store_over (List.replicate n (0 : Byte)) buf 0
      (by rw [List.length_replicate]; omega)
    rw [List.length_replicate] at hover
    rw [List.range_succ, List.foldlM_append, ih (by omega)]
    simp only [Option.bind_eq_bind, Option.bind_some, List.foldlM_cons, List.foldlM_nil, hover,
      List.replicate_succ']
    rfl

theorem clearOutput_none (n : ℕ) (buf : List Byte) (hn : buf.length < n) :
    clearOutput n buf = none := by
  obtain ⟨m, rfl⟩ := Nat.exists_eq_add_of_lt hn
  unfold clearOutput
  induction m with
  | zero =>
    have hfirst := clearOutput_eq buf.length buf le_rfl
    unfold clearOutput at hfirst
    rw [Nat.add_zero, List.range_succ, List.foldlM_append, hfirst]
    simp [store]
  | succ m ih =>
    rw [List.range_succ, List.foldlM_append, ← Nat.add_assoc, ih (by omega)]
    rfl

theorem packed_nil (n : ℕ) (buf : List Byte) (hn : n ≤ buf.length) :
    Packed n buf.length [] ⟨List.replicate n 0 ++ buf.drop n, 0⟩ := by
  refine ⟨rfl, by simp; omega, ?_⟩
  intro p hp
  rw [bitAt_append_left _ _ _ (by rwa [List.length_replicate])]
  simp [bitAt, codesBit, List.getD_eq_getElem?_getD, show p/8 < n by omega]

/-- The bytes that hold `n` codes of 13 bits, padded to a whole byte. -/
def codeBytes (n : ℕ) : ℕ := (13*n+7)/8

section Lzw
variable {chunkStart chunkEnd : ℕ} {s1 : Str} {outputCode : List Byte}

/-- The packing of `LZW` in front of its last statement: `outlen` is the index of
the last byte that holds a bit of a code. -/
theorem packCodes_lzw (hle : chunkStart ≤ chunkEnd) (hend : chunkEnd < s1.length)
    (hclear : 2*(chunkEnd-chunkStart+1) ≤ outputCode.length) :
    ∃ o, lzw chunkStart chunkEnd s1 outputCode = padOutput o ∧ o.outlen%13 ≠ 0 ∧
      o.outlen+1 = codeBytes (lzwCodes (slice s1 chunkStart chunkEnd)).length ∧
      o.outputCode.length = outputCode.length ∧
      ∀ p < 8*codeBytes (lzwCodes (slice s1 chunkStart chunkEnd)).length,
        bitAt o.outputCode p = codesBit (lzwCodes (slice s1 chunkStart chunkEnd)) p := by
  have hlen := length_slice s1 chunkStart chunkEnd hle hend
  rw [lzw_eq_packCodes _ _ _ _ hle hend, Nat.mul_comm, clearOutput_eq _ _ hclear,
    Option.bind_some]
  generalize slice s1 chunkStart chunkEnd = chunk at *
  have hne : lzwCodes chunk ≠ [] :=
    lzwCodes_ne_nil chunk (List.ne_nil_of_length_pos (by omega))
  have hpos := List.length_pos_of_ne_nil hne
  have hcount := length_lzwCodes_le chunk
  obtain ⟨o, hpack, hout, hsize, hbits⟩ := packCodes_packed hclear (lzwCodes chunk) hne [] _
    (packed_nil _ outputCode hclear) (by rw [List.length_nil]; omega)
  simp only [List.length_nil, zero_add, Nat.zero_mod, List.nil_append] at hpack hout hbits
  have houtlen : o.outlen+1 = codeBytes (lzwCodes chunk).length := hout
  refine ⟨o, by rw [hpack, Option.bind_some], ?_, houtlen, hsize, ?_⟩
  · -- the test `outlen % 13` never fails on the index of a last byte
    unfold codeBytes at houtlen
    omega
  · intro p hp
    apply hbits
    unfold codeBytes at hp
    omega

/-- `LZW` on a buffer that has room for its clearing loop and for the zero byte
it stores behind the codes. -/
theorem lzw_spec (hle : chunkStart ≤ chunkEnd) (hend : chunkEnd < s1.length)
    (hclear : 2*(chunkEnd-chunkStart+1) ≤ outputCode.length)
    (hpad : codeBytes (lzwCodes (slice s1 chunkStart chunkEnd)).length < outputCode.length) :
    ∃ out, lzw chunkStart chunkEnd s1 outputCode =
        some ⟨out, codeBytes (lzwCodes (slice s1 chunkStart chunkEnd)).length⟩ ∧
      out.length = outputCode.length ∧
      ∀ p < 8*codeBytes (lzwCodes (slice s1 chunkStart chunkEnd)).length,
        bitAt out p = codesBit (lzwCodes (slice s1 chunkStart chunkEnd)) p := by
  obtain ⟨o, hlzw, hmod, hlen, hsize, hbits⟩ := packCodes_lzw hle hend hclear
  generalize codeBytes (lzwCodes (slice s1 chunkStart chunkEnd)).length = n at *
  have hstore : store o.outputCode (o.outlen+1) 0 = some (o.outputCode.set n 0) := by
    rw [store_of_lt _ _ _ (by omega), hlen]
  refine ⟨o.outputCode.set n 0, ?_, by rw [List.length_set, hsize], ?_⟩
  · rw [hlzw, padOutput, if_pos hmod, hstore, hlen]
    rfl
  · intro p hp
    rw [bitAt_set_of_ne _ _ _ _ (by omega), hbits p hp]

/-- Only on such a buffer `LZW` is defined. -/
theorem lzw_room {out : LzwOutput} (hle : chunkStart ≤ chunkEnd) (hend : chunkEnd < s1.length)
    (h : lzw chunkStart chunkEnd s1 outputCode = some out) :
    2*(chunkEnd-chunkStart+1) ≤ outputCode.length ∧
      codeBytes (lzwCodes (slice s1 chunkStart chunkEnd)).length < outputCode.length := by
  have hclear : 2*(chunkEnd-chunkStart+1) ≤ outputCode.length := by
    by_contra hn
    rw [lzw_eq_packCodes _ _ _ _ hle hend, Nat.mul_comm, clearOutput_none _ _ (by omega)] at h
    simp at h
  refine ⟨hclear, ?_⟩
  obtain ⟨o, hlzw, hmod, hlen, hsize, -⟩ := packCodes_lzw hle hend hclear
  rw [hlzw, padOutput, if_pos hmod] at h
  obtain ⟨buf, hbuf, -⟩ := Option.map_eq_some_iff.mp h
  have := (store_eq_some hbuf).1
  omega

theorem lzw_outlen {outlen : ℕ} {out : List Byte} (hle : chunkStart ≤ chunkEnd)
    (hend : chunkEnd < s1.length)
    (hlzw : lzw chunkStart chunkEnd s1 outputCode = some ⟨out, outlen⟩) :
    outlen = codeBytes (lzwCodes (slice s1 chunkStart chunkEnd)).length ∧
      (out.take outlen).length = outlen := by
  obtain ⟨hroom, hpad⟩ := lzw_room hle hend hlzw
  obtain ⟨out', hout, hsize, -⟩ := lzw_spec hle hend hroom hpad
  rw [hlzw] at hout
  obtain ⟨rfl, rfl⟩ := LzwOutput.mk.inj (Option.some.inj hout)
  refine ⟨rfl, ?_⟩
  rw [List.length_take, hsize]
  omega

end Lzw

end Sync532
