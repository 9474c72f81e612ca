import Mathlib.Tactic

/-! Byte buffers with bounds-checked stores, and their bits read with the most
significant bit of each byte first. -/
namespace Sync532

abbrev Byte := BitVec 8

/-- A store outside the buffer is undefined, so it gives `none`. -/
def store {α : Type*} (buf : List α) (k : ℕ) (v : α) : Option (List α) :=
  if k < buf.length then some (buf.set k v) else none

theorem store_of_lt {α : Type*} (buf : List α) (k : ℕ) (v : α) (hk : k < buf.length) :
    store buf k v = some (buf.set k v) := if_pos hk

theorem store_eq_some {α : Type*} {buf buf' : List α} {k : ℕ} {v : α}
    (h : store buf k v = some buf') : k < buf.length ∧ buf' = buf.set k v := by
  unfold store at h
  split_ifs at h with hk
  exact ⟨hk, (Option.some.inj h).symm⟩

theorem store_append {α : Type*} (xs ys : List α) (y v : α) :
    store (xs ++ y :: ys) xs.length v = some (xs ++ v :: ys) := by
  rw [store_of_lt _ _ _ (by simp)]
  simp

theorem store_over {α : Type*} (xs buf : List α) (v : α) (hx : xs.length < buf.length) :
    store (xs ++ buf.drop xs.length) xs.length v =
      some ((xs ++ [v]) ++ buf.drop (xs.length+1)) := by
  obtain ⟨y, hy⟩ : ∃ y, buf.drop xs.length = y :: buf.drop (xs.length+1) :=
    ⟨buf[xs.length], List.drop_eq_getElem_cons hx⟩
  rw [hy, store_append, List.append_assoc]
  rfl

/-- `memcpy(&dst[i],src,n)`. Reading behind `src` or writing behind `dst` is undefined. -/
def memcpy (dst : List Byte) (i : ℕ) (src : List Byte) (n : ℕ) : Option (List Byte) :=
  if n ≤ src.length ∧ i+n ≤ dst.length then some (dst.take i ++ src.take n ++ dst.drop (i+n))
  else none

/-- `output_code[k] |= v`: both the read and the write are at index `k`. -/
def orAt (buf : List Byte) (k : ℕ) (v : Byte) : Option (List Byte) :=
  store buf k (buf.getD k 0 ||| v)

/-- Bit `p` of a byte string. -/
def bitAt (data : List Byte) (p : ℕ) : Bool := (data.getD (p/8) 0).getMsbD (p%8)

theorem bitAt_append_left (data rest : List Byte) (p : ℕ) (hp : p < 8*data.length) :
    bitAt (data ++ rest) p = bitAt data p := by
  have h : p/8 < data.length := by omega
  simp only [bitAt, List.getD_eq_getElem?_getD, List.getElem?_append_left h]

theorem bitAt_take (data : List Byte) (n p : ℕ) (hp : p < 8*n) :
    bitAt (data.take n) p = bitAt data p := by
  simp only [bitAt, List.getD_eq_getElem?_getD, List.getElem?_take, show p/8 < n by omega,
    if_true]

/-- A byte string is known from its bits. -/
theorem bytes_of_bits {a b : List Byte} (hlen : a.length = b.length)
    (hbits : ∀ p < 8*a.length, bitAt a p = bitAt b p) : a = b := by
  apply List.ext_getElem hlen
  intro q ha hb
  apply BitVec.eq_of_getMsbD_eq
  intro i hi
  have hbit := hbits (8*q+i) (by omega)
  have hdiv : (8*q+i)/8 = q := by omega
  have hmod : (8*q+i)%8 = i := by omega
  simpa only [bitAt, hdiv, hmod, List.getD_eq_getElem?_getD, List.getElem?_eq_getElem ha,
    List.getElem?_eq_getElem hb, Option.getD_some] using hbit

theorem bitAt_set_of_ne (data : List Byte) (k p : ℕ) (v : Byte) (hp : p/8 ≠ k) :
    bitAt (data.set k v) p = bitAt data p := by
  simp only [bitAt, List.getD_eq_getElem?_getD, List.getElem?_set_ne (Ne.symm hp)]

theorem bitAt_set_self (data : List Byte) (k p : ℕ) (v : Byte) (hk : k < data.length)
    (hp : p/8 = k) : bitAt (data.set k v) p = v.getMsbD (p%8) := by
  simp only [bitAt, List.getD_eq_getElem?_getD, hp, List.getElem?_set_self hk,
    Option.getD_some]

theorem orAt_of_lt (buf : List Byte) (k : ℕ) (v : Byte) (hk : k < buf.length) :
    orAt buf k v = some (buf.set k (buf.getD k 0 ||| v)) := store_of_lt _ _ _ hk

/-- An or-store changes the bits of one byte only, and there it adds bits. -/
theorem bitAt_orAt {buf buf' : List Byte} {k : ℕ} {v : Byte} (h : orAt buf k v = some buf')
    (p : ℕ) : bitAt buf' p = (bitAt buf p || (decide (p/8 = k) && v.getMsbD (p%8))) := by
  obtain ⟨hk, rfl⟩ := store_eq_some h
  by_cases hp : p/8 = k
  · rw [bitAt_set_self buf k p _ hk hp, BitVec.getMsbD_or]
    simp only [bitAt, hp, decide_true, Bool.true_and]
  · rw [bitAt_set_of_ne buf k p _ hp]
    simp only [hp, decide_false, Bool.false_and, Bool.or_false]

theorem length_orAt {buf buf' : List Byte} {k : ℕ} {v : Byte} (h : orAt buf k v = some buf') :
    buf'.length = buf.length := by
  obtain ⟨_, rfl⟩ := store_eq_some h
  exact List.length_set

/-- The bits of a code of `width` bits written from bit position `base` on,
most significant bit first, and nothing elsewhere. -/
def codeBit (width base code p : ℕ) : Bool :=
  decide (base ≤ p ∧ p < base+width) && code.testBit (width-1-(p-base))

/-- A masked piece shifted down into one byte. The mask has to hold every bit of
the code that falls into that byte; `a` says which byte it is. -/
theorem getMsbD_piece_down (width base code mask a q p : ℕ) (hp : p/8 = q)
    (ha : base+width = 8*q+8+a) (hmask : ∀ i < 8, mask.testBit (a+i) = decide (a+i < width)) :
    (BitVec.ofNat 8 ((code &&& mask) >>> a)).getMsbD (p%8) = codeBit width base code p := by
  have hm : p%8 < 8 := Nat.mod_lt _ (by decide)
  have hpos : 8*q+p%8 = p := by omega
  rw [BitVec.getMsbD_eq_getLsbD, BitVec.getLsbD_ofNat, Nat.testBit_shiftRight,
    Nat.testBit_and, hmask (8-1-p%8) (by omega)]
  simp only [codeBit, hm, show 8-1-p%8 < 8 by omega, decide_true, Bool.true_and]
  by_cases hin : a+(8-1-p%8) < width
  · rw [show a+(8-1-p%8) = width-1-(p-base) by omega]
    simp only [show base ≤ p ∧ p < base+width by omega, and_self, decide_true, Bool.true_and,
      show width-1-(p-base) < width by omega, Bool.and_true]
  · simp only [hin, show ¬(base ≤ p ∧ p < base+width) by omega, decide_false, Bool.and_false,
      Bool.false_and]

theorem getMsbD_piece_up (width base code mask s q p : ℕ) (hp : p/8 = q)
    (hs : base+width+s = 8*q+8) (hb : base ≤ 8*q)
    (hmask : ∀ i < 8, i+s < 8 → mask.testBit i = true) :
    (BitVec.ofNat 8 ((code &&& mask) <<< s)).getMsbD (p%8) = codeBit width base code p := by
  have hm : p%8 < 8 := Nat.mod_lt _ (by decide)
  have hpos : 8*q+p%8 = p := by omega
  rw [BitVec.getMsbD_eq_getLsbD, BitVec.getLsbD_ofNat, Nat.testBit_shiftLeft, Nat.testBit_and]
  simp only [codeBit, hm, show 8-1-p%8 < 8 by omega, decide_true, Bool.true_and]
  by_cases hin : s ≤ 8-1-p%8
  · rw [hmask (8-1-p%8-s) (by omega) (by omega),
      show 8-1-p%8-s = width-1-(p-base) by omega]
    simp only [hin, show base ≤ p ∧ p < base+width by omega, and_self, decide_true,
      Bool.true_and, Bool.and_true]
  · simp only [hin, show ¬(base ≤ p ∧ p < base+width) by omega, decide_false,
      Bool.false_and]

end Sync532
