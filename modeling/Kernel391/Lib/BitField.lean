import Mathlib.Tactic.Common

/-!
# Bit fields of a machine word

A C bit field is a run of bits of a word.  Writing one leaves every bit outside it alone, so
disjoint fields never disturb each other and a word is determined by the fields that cover it.
-/

namespace Machine

/-- `len` bits of an `n`-bit word, from bit `lo` upwards. -/
structure Field (n : Nat) where
  lo : Nat
  len : Nat
  fits : lo + len ≤ n

namespace Field

variable {n : Nat}

def get (f : Field n) (w : BitVec n) : BitVec f.len := w.extractLsb' f.lo f.len

/-- All ones on the field, zero elsewhere. -/
def mask (f : Field n) : BitVec n := (BitVec.allOnes f.len).setWidth n <<< f.lo

def set (f : Field n) (v : BitVec f.len) (w : BitVec n) : BitVec n :=
  (w &&& ~~~f.mask) ||| (v.setWidth n <<< f.lo)

/-- Assignment to the field from a value of another width: C keeps the low bits. -/
def assign {m : Nat} (f : Field n) (v : BitVec m) (w : BitVec n) : BitVec n :=
  f.set (v.setWidth f.len) w

/-- The two fields share no bit. -/
def Disjoint (f g : Field n) : Prop := f.lo + f.len ≤ g.lo ∨ g.lo + g.len ≤ f.lo

instance (f g : Field n) : Decidable (f.Disjoint g) := inferInstanceAs (Decidable (_ ∨ _))

theorem getLsbD_mask (f : Field n) (i : Nat) :
    f.mask.getLsbD i = decide (f.lo ≤ i ∧ i < f.lo + f.len) := by
  have hfits := f.fits
  unfold mask
  rw [BitVec.getLsbD_shiftLeft, BitVec.getLsbD_setWidth, BitVec.getLsbD_allOnes]
  by_cases hin : f.lo ≤ i ∧ i < f.lo + f.len
  · simp [hin, show i < n by omega, show ¬i < f.lo by omega, show i - f.lo < n by omega,
      show i - f.lo < f.len by omega]
  · rw [decide_eq_false hin]
    by_cases hlo : i < f.lo
    · simp [hlo]
    · simp [show ¬i - f.lo < f.len by omega]

/-- Bit by bit, a write replaces the field and keeps the rest. -/
theorem getLsbD_set (f : Field n) (v : BitVec f.len) (w : BitVec n) (i : Nat) :
    (f.set v w).getLsbD i =
      if f.lo ≤ i ∧ i < f.lo + f.len then v.getLsbD (i - f.lo) else w.getLsbD i := by
  have hfits := f.fits
  by_cases hi : i < n
  · unfold set
    rw [BitVec.getLsbD_or, BitVec.getLsbD_and, BitVec.getLsbD_not, getLsbD_mask,
      BitVec.getLsbD_shiftLeft, BitVec.getLsbD_setWidth]
    by_cases hin : f.lo ≤ i ∧ i < f.lo + f.len
    · simp [hin, hi, show ¬i < f.lo by omega, show i - f.lo < n by omega]
    · rw [if_neg hin, decide_eq_false hin]
      by_cases hlo : i < f.lo
      · simp [hlo, hi]
      · simp [BitVec.getLsbD_of_ge v (i - f.lo) (by omega), hi]
  · rw [BitVec.getLsbD_of_ge _ i (by omega), if_neg (by omega), BitVec.getLsbD_of_ge w i (by omega)]

@[simp] theorem get_set (f : Field n) (v : BitVec f.len) (w : BitVec n) :
    f.get (f.set v w) = v := by
  apply BitVec.eq_of_getLsbD_eq
  intro i hi
  unfold get
  rw [BitVec.getLsbD_extractLsb', getLsbD_set, if_pos (by omega),
    show f.lo + i - f.lo = i by omega]
  simp [hi]

/-- The frame rule of a field write. -/
theorem get_set_of_disjoint {f g : Field n} (h : f.Disjoint g) (v : BitVec g.len)
    (w : BitVec n) : f.get (g.set v w) = f.get w := by
  apply BitVec.eq_of_getLsbD_eq
  intro i hi
  have hout : ¬(g.lo ≤ f.lo + i ∧ f.lo + i < g.lo + g.len) := by
    rcases h with h | h <;> omega
  unfold get
  rw [BitVec.getLsbD_extractLsb', BitVec.getLsbD_extractLsb', getLsbD_set, if_neg hout]

@[simp] theorem get_assign {m : Nat} (f : Field n) (v : BitVec m) (w : BitVec n) :
    f.get (f.assign v w) = v.setWidth f.len :=
  get_set f _ w

theorem get_assign_of_disjoint {m : Nat} {f g : Field n} (h : f.Disjoint g) (v : BitVec m)
    (w : BitVec n) : f.get (g.assign v w) = f.get w :=
  get_set_of_disjoint h _ w

end Field

end Machine
