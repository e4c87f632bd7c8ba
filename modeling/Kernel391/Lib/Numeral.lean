import Mathlib.Data.Nat.Digits.Lemmas

/-!
# Numerals

The digits of a number as they are written, most significant first, where zero has a digit too.
Mathlib's `Nat.digits` has them the other way round and none for zero.
-/

namespace Numeral

/-- Reading digits from left to right. -/
def value (radix : Nat) (ds : List Nat) : Nat := ds.foldl (fun n d => n * radix + d) 0

def numeral (radix n : Nat) : List Nat := if n = 0 then [0] else (Nat.digits radix n).reverse

/-- Digits of `n`, and no zero in front except to stand alone. -/
structure IsNumeral (radix n : Nat) (ds : List Nat) : Prop where
  value : value radix ds = n
  digits : ∀ d ∈ ds, d < radix
  nonempty : ds ≠ []
  lead : ds.head? = some 0 → ds = [0]

theorem value_eq_ofDigits (radix : Nat) (ds : List Nat) :
    value radix ds = Nat.ofDigits radix ds.reverse := by
  rw [Nat.ofDigits_eq_foldr, List.foldr_reverse]
  simp only [Nat.cast_id]
  unfold value
  congr 1
  funext n d
  rw [Nat.mul_comm, Nat.add_comm]

theorem value_zero (radix : Nat) : value radix [0] = 0 := by
  simp [value]

theorem value_zeros (radix k : Nat) (ds : List Nat) :
    value radix (List.replicate k 0 ++ ds) = value radix ds := by
  rw [value_eq_ofDigits, value_eq_ofDigits, List.reverse_append, List.reverse_replicate,
    Nat.ofDigits_append_replicate_zero]

variable {radix : Nat}

theorem length_numeral_le (hradix : 1 < radix) {n k : Nat} (hk : 0 < k) (hn : n < radix ^ k) :
    (numeral radix n).length ≤ k := by
  unfold numeral
  by_cases hzero : n = 0
  · rw [if_pos hzero]
    exact hk
  · rw [if_neg hzero, List.length_reverse]
    exact (Nat.digits_length_le_iff hradix n).mpr hn

theorem isNumeral_numeral (hradix : 1 < radix) (n : Nat) : IsNumeral radix n (numeral radix n) := by
  unfold numeral
  by_cases hzero : n = 0
  · rw [if_pos hzero, hzero]
    refine ⟨value_zero radix, ?_, List.cons_ne_nil _ _, fun _ => rfl⟩
    intro d hd
    rw [List.mem_singleton.mp hd]
    omega
  · have hne : Nat.digits radix n ≠ [] := Nat.digits_ne_nil_iff_ne_zero.mpr hzero
    rw [if_neg hzero]
    refine ⟨?_, ?_, ?_, ?_⟩
    · rw [value_eq_ofDigits, List.reverse_reverse, Nat.ofDigits_digits]
    · intro d hd
      exact Nat.digits_lt_base hradix (List.mem_reverse.mp hd)
    · rw [ne_eq, List.reverse_eq_nil_iff]
      exact hne
    · intro hlead
      rw [List.head?_reverse, List.getLast?_eq_getLast_of_ne_nil hne, Option.some_inj] at hlead
      exact absurd hlead (Nat.getLast_digit_ne_zero radix hzero)

/-- A number has one numeral. -/
theorem IsNumeral.eq_numeral (hradix : 1 < radix) {n : Nat} {ds : List Nat}
    (h : IsNumeral radix n ds) : ds = numeral radix n := by
  unfold numeral
  by_cases hlead : ds.head? = some 0
  · have hds := h.lead hlead
    have hzero : n = 0 := by
      rw [← h.value, hds, value_zero]
    rw [if_pos hzero, hds]
  · -- without a zero in front these are the digits of Mathlib
    have hlast : ∀ hne : ds.reverse ≠ [], ds.reverse.getLast hne ≠ 0 := by
      intro hne hz
      rw [List.getLast_reverse] at hz
      exact hlead (by rw [List.head?_eq_some_head h.nonempty, hz])
    have hdigits := Nat.digits_ofDigits radix hradix ds.reverse
      (fun d hd => h.digits d (List.mem_reverse.mp hd)) hlast
    rw [← value_eq_ofDigits, h.value] at hdigits
    have hpos : n ≠ 0 := by
      intro hzero
      rw [hzero, Nat.digits_zero] at hdigits
      exact h.nonempty (List.reverse_eq_nil_iff.mp hdigits.symm)
    rw [if_neg hpos, hdigits, List.reverse_reverse]

end Numeral
