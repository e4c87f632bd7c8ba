import Mathlib.Algebra.Ring.Nat

/-!
# A byte-addressed memory

Addresses are 32-bit words and address arithmetic wraps, so a range is given by its first address
and its length, and a byte lies in it when its distance from the first address is below the
length.  Every bulk write is a `storeBytes`; `fill` and `copy` are the two that string
instructions perform.
-/

namespace Machine

abbrev Ram := BitVec 32 → UInt8

namespace Ram

/-- Bytes `f 0`, `f 1`, … stored from address `a` on, `n` of them. -/
def storeBytes (m : Ram) (a : BitVec 32) (n : Nat) (f : Nat → UInt8) : Ram :=
  fun x => if (x - a).toNat < n then f (x - a).toNat else m x

/-- Byte `k` of a word, the low one first. -/
def byteOf (w : BitVec 32) (k : Nat) : UInt8 := ⟨w.extractLsb' (8 * k) 8⟩

def load32 (m : Ram) (a : BitVec 32) : BitVec 32 :=
  (m (a + 3)).toBitVec ++ (m (a + 2)).toBitVec ++ (m (a + 1)).toBitVec ++ (m a).toBitVec

def store8 (m : Ram) (a : BitVec 32) (b : UInt8) : Ram := m.storeBytes a 1 fun _ => b

def store16 (m : Ram) (a : BitVec 32) (w : BitVec 32) : Ram := m.storeBytes a 2 (byteOf w)

def store32 (m : Ram) (a : BitVec 32) (w : BitVec 32) : Ram := m.storeBytes a 4 (byteOf w)

/-- `n` bytes from `a` on, all equal to `b`. -/
def fill (m : Ram) (a : BitVec 32) (n : Nat) (b : UInt8) : Ram := m.storeBytes a n fun _ => b

/-- The `n` bytes from `src` on, as they were, stored from `dst` on. -/
def copy (m : Ram) (dst src : BitVec 32) (n : Nat) : Ram :=
  m.storeBytes dst n fun k => m (src + BitVec.ofNat 32 k)

/-! ## 1. Ranges -/

theorem toNat_add_sub (a : BitVec 32) {k : Nat} (hk : k < 2 ^ 32) :
    (a + BitVec.ofNat 32 k - a).toNat = k := by
  rw [BitVec.add_comm, BitVec.add_sub_cancel, BitVec.toNat_ofNat, Nat.mod_eq_of_lt hk]

/-- How far an address lies behind the `i`-th one of a range. -/
theorem toNat_sub_add (x a : BitVec 32) {i : Nat} (hi : i < 2 ^ 32) :
    (x - (a + BitVec.ofNat 32 i)).toNat = ((x - a).toNat + (2 ^ 32 - i)) % 2 ^ 32 := by
  rw [BitVec.toNat_sub, BitVec.toNat_sub, BitVec.toNat_add, BitVec.toNat_ofNat]
  omega

theorem storeBytes_congr (m : Ram) (a : BitVec 32) {n : Nat} {f g : Nat → UInt8}
    (h : ∀ k < n, f k = g k) : m.storeBytes a n f = m.storeBytes a n g := by
  ext x : 1
  unfold storeBytes
  split
  · rename_i hx
    rw [h _ hx]
  · rfl

@[simp] theorem storeBytes_zero (m : Ram) (a : BitVec 32) (f : Nat → UInt8) :
    m.storeBytes a 0 f = m := by
  ext x : 1
  simp [storeBytes]

theorem storeBytes_add (m : Ram) (a : BitVec 32) {n : Nat} (f : Nat → UInt8) {k : Nat}
    (hk : k < 2 ^ 32) :
    m.storeBytes a n f (a + BitVec.ofNat 32 k) =
      if k < n then f k else m (a + BitVec.ofNat 32 k) := by
  unfold storeBytes
  rw [toNat_add_sub a hk]

/-- Two adjacent writes are one. -/
theorem storeBytes_storeBytes (m : Ram) (a : BitVec 32) {i j : Nat} (hij : i + j ≤ 2 ^ 32)
    (f g : Nat → UInt8) :
    (m.storeBytes a i f).storeBytes (a + BitVec.ofNat 32 i) j g =
      m.storeBytes a (i + j) fun k => if k < i then f k else g (k - i) := by
  rcases Nat.eq_zero_or_pos j with rfl | hj
  · rw [storeBytes_zero]
    apply storeBytes_congr
    intro k hk
    rw [if_pos hk]
  ext x : 1
  unfold storeBytes
  rw [toNat_sub_add x a (by omega)]
  have hx := (x - a).isLt
  generalize (x - a).toNat = d at hx ⊢
  by_cases hlo : d < i
  · rw [if_neg (by omega), if_pos hlo, if_pos (by omega)]
    exact (if_pos hlo).symm
  · by_cases hhi : d < i + j
    · rw [if_pos (by omega), if_pos hhi, show (d + (2 ^ 32 - i)) % 2 ^ 32 = d - i by omega]
      exact (if_neg hlo).symm
    · rw [if_neg (by omega), if_neg hlo, if_neg hhi]

/-- It does not matter which of two adjacent writes comes first. -/
theorem storeBytes_comm (m : Ram) (a : BitVec 32) {i j : Nat} (hij : i + j ≤ 2 ^ 32)
    (f g : Nat → UInt8) :
    (m.storeBytes (a + BitVec.ofNat 32 i) j g).storeBytes a i f =
      (m.storeBytes a i f).storeBytes (a + BitVec.ofNat 32 i) j g := by
  rcases Nat.eq_zero_or_pos j with rfl | hj
  · rw [storeBytes_zero, storeBytes_zero]
  ext x : 1
  unfold storeBytes
  rw [toNat_sub_add x a (by omega)]
  have hx := (x - a).isLt
  generalize (x - a).toNat = d at hx ⊢
  by_cases hlo : d < i
  · rw [if_pos hlo, if_neg (by omega), if_pos hlo]
  · rw [if_neg hlo, if_neg hlo]

/-! ## 2. Words -/

theorem load32_congr {m m' : Ram} {a : BitVec 32}
    (h : ∀ k < 4, m' (a + BitVec.ofNat 32 k) = m (a + BitVec.ofNat 32 k)) :
    m'.load32 a = m.load32 a := by
  have h0 := h 0 (by decide)
  rw [show a + BitVec.ofNat 32 0 = a from BitVec.add_zero a] at h0
  unfold load32
  rw [show a + 1 = a + BitVec.ofNat 32 1 from rfl, show a + 2 = a + BitVec.ofNat 32 2 from rfl,
    show a + 3 = a + BitVec.ofNat 32 3 from rfl, h 1 (by decide), h 2 (by decide), h 3 (by decide), h0]

theorem append_bytes (w : BitVec 32) :
    (byteOf w 3).toBitVec ++ (byteOf w 2).toBitVec ++ (byteOf w 1).toBitVec ++
      (byteOf w 0).toBitVec = w := by
  apply BitVec.eq_of_getLsbD_eq
  intro i hi
  simp only [byteOf, BitVec.getLsbD_append, BitVec.getLsbD_extractLsb']
  grind

theorem byteOf_load32 (m : Ram) (a : BitVec 32) {k : Nat} (hk : k < 4) :
    byteOf (m.load32 a) k = m (a + BitVec.ofNat 32 k) := by
  have hbyte : (byteOf (m.load32 a) k).toBitVec = (m (a + BitVec.ofNat 32 k)).toBitVec := by
    apply BitVec.eq_of_getLsbD_eq
    intro i hi
    have h0 : a + BitVec.ofNat 32 0 = a := BitVec.add_zero a
    simp only [byteOf, load32, BitVec.getLsbD_extractLsb', BitVec.getLsbD_append]
    have hcases : k = 0 ∨ k = 1 ∨ k = 2 ∨ k = 3 := by omega
    rcases hcases with rfl | rfl | rfl | rfl <;> grind
  exact UInt8.toBitVec_inj.mp hbyte

/-- A stored word is read back. -/
theorem load32_store32 (m : Ram) (a : BitVec 32) (w : BitVec 32) :
    (m.store32 a w).load32 a = w := by
  have h : ∀ k < 4, m.store32 a w (a + BitVec.ofNat 32 k) = byteOf w k := by
    intro k hk
    rw [store32, storeBytes_add m a _ (by omega), if_pos hk]
  have h0 := h 0 (by decide)
  rw [show a + BitVec.ofNat 32 0 = a from BitVec.add_zero a] at h0
  unfold load32
  rw [show a + 1 = a + BitVec.ofNat 32 1 from rfl, show a + 2 = a + BitVec.ofNat 32 2 from rfl,
    show a + 3 = a + BitVec.ofNat 32 3 from rfl, h 1 (by decide), h 2 (by decide), h 3 (by decide),
    h0, append_bytes]

/-! ## 3. Filling -/

/-! ## 4. Copying -/

/-- Bytes are read before they are overwritten when a copy runs upwards: the destination is the
source itself, or does not begin inside it. -/
def Ascending (dst src : BitVec 32) (n : Nat) : Prop := dst = src ∨ n ≤ (dst - src).toNat

instance (dst src : BitVec 32) (n : Nat) : Decidable (Ascending dst src n) :=
  inferInstanceAs (Decidable (_ ∨ _))

theorem copy_apply_source {dst src : BitVec 32} {n i k : Nat} (h : Ascending dst src n)
    (hik : i ≤ k) (hk : k < n) (hn : n ≤ 2 ^ 32) (m : Ram) :
    m.copy dst src i (src + BitVec.ofNat 32 k) = m (src + BitVec.ofNat 32 k) := by
  unfold copy storeBytes
  rw [if_neg]
  rcases h with rfl | h
  · rw [toNat_add_sub dst (by omega)]
    omega
  · have hdst := dst.isLt
    have hsrc := src.isLt
    rw [BitVec.toNat_sub] at h ⊢
    rw [BitVec.toNat_add, BitVec.toNat_ofNat]
    omega

/-- The last `k` of the `n` bytes of a copy that runs downwards. -/
def copyDown (m : Ram) (dst src : BitVec 32) (n k : Nat) : Ram :=
  m.storeBytes (dst + BitVec.ofNat 32 (n - k)) k fun j => m (src + BitVec.ofNat 32 (n - k + j))

theorem copyDown_self (m : Ram) (dst src : BitVec 32) (n : Nat) :
    m.copyDown dst src n n = m.copy dst src n := by
  unfold copyDown copy
  rw [Nat.sub_self, show dst + BitVec.ofNat 32 0 = dst from BitVec.add_zero dst]
  simp only [Nat.zero_add]

@[simp] theorem copyDown_zero (m : Ram) (dst src : BitVec 32) (n : Nat) :
    m.copyDown dst src n 0 = m :=
  storeBytes_zero m _ _

/-- The next byte of a copy that runs downwards; the source begins below the destination. -/
theorem copyDown_succ {dst src : BitVec 32} {n k : Nat} (hsrc : src.toNat < dst.toNat)
    (hend : dst.toNat + n ≤ 2 ^ 32) (hk : k < n) (m : Ram) :
    (m.copyDown dst src n k).store8 (dst + BitVec.ofNat 32 (n - (k + 1)))
        (m.copyDown dst src n k (src + BitVec.ofNat 32 (n - (k + 1)))) =
      m.copyDown dst src n (k + 1) := by
  have hread : m.copyDown dst src n k (src + BitVec.ofNat 32 (n - (k + 1))) =
      m (src + BitVec.ofNat 32 (n - (k + 1))) := by
    unfold copyDown storeBytes
    rw [if_neg]
    rw [BitVec.toNat_sub, BitVec.toNat_add, BitVec.toNat_add, BitVec.toNat_ofNat,
      BitVec.toNat_ofNat]
    omega
  rw [hread]
  unfold copyDown store8
  rw [show dst + BitVec.ofNat 32 (n - k) =
      dst + BitVec.ofNat 32 (n - (k + 1)) + BitVec.ofNat 32 1 by
    rw [BitVec.add_assoc, ← BitVec.ofNat_add]
    congr 2
    omega, storeBytes_comm m _ (by omega), storeBytes_storeBytes m _ (by omega), Nat.add_comm 1 k]
  apply storeBytes_congr
  intro j hj
  split
  · rw [show n - (k + 1) + j = n - (k + 1) by omega]
  · congr 3
    omega

end Ram

end Machine
