import Mathlib.Tactic.Common
import Mathlib.Algebra.Order.Group.Nat

/-!
# Clock dividers

A divider by `d` counts ticks and lets through those at which its count is a multiple of `d`.
-/

namespace Divider

/-- Which of `n` ticks, counted on from `c`, are let through. -/
def pulses (d c n : Nat) : List Bool := (List.range n).map fun j => decide (d ∣ c + j + 1)

theorem pulses_succ (d c n : Nat) :
    pulses d c (n + 1) = pulses d c n ++ [decide (d ∣ c + n + 1)] := by
  simp [pulses, List.range_succ]

@[simp] theorem length_pulses (d c n : Nat) : (pulses d c n).length = n := by
  simp [pulses]

theorem pulses_get {d c n j : Nat} (hj : j < n) :
    (pulses d c n)[j]? = some (decide (d ∣ c + j + 1)) := by
  simp [pulses, hj]

/-- As many pulses as there are multiples of `d` among the counts. -/
theorem count_pulses (d c n : Nat) : (pulses d c n).count true = (c + n) / d - c / d := by
  induction n with
  | zero => simp [pulses]
  | succ n ih =>
    have hmono : c / d ≤ (c + n) / d := Nat.div_le_div_right (Nat.le_add_right c n)
    rw [pulses_succ, List.count_append, ih, ← Nat.add_assoc, Nat.succ_div]
    by_cases hdvd : d ∣ c + n + 1
    · simp [hdvd]
      omega
    · simp [hdvd]

/-- Two positions of a list hold pulses, and none between them does. -/
structure Consecutive (ps : List Bool) (i j : Nat) : Prop where
  lt : i < j
  left : ps[i]? = some true
  right : ps[j]? = some true
  between : ∀ k, i < k → k < j → ps[k]? = some false

theorem pulses_spacing {d c n i j : Nat} (hd : 0 < d) (h : Consecutive (pulses d c n) i j) :
    j - i = d := by
  have hj : j < n := by
    have hlt := (List.getElem?_eq_some_iff.mp h.right).1
    rwa [length_pulses] at hlt
  have hlt := h.lt
  have hleft := h.left
  have hright := h.right
  rw [pulses_get (by omega), Option.some.injEq, decide_eq_true_eq] at hleft hright
  have hdvd : d ∣ j - i := by
    rw [show j - i = c + j + 1 - (c + i + 1) by omega]
    exact Nat.dvd_sub hright hleft
  have hle := Nat.le_of_dvd (by omega) hdvd
  by_contra hne
  -- one divisor further on there is a pulse already
  have hpulse : d ∣ c + (i + d) + 1 := by
    rw [show c + (i + d) + 1 = c + i + 1 + d by omega]
    exact Nat.dvd_add hleft (Nat.dvd_refl d)
  have hnone := h.between (i + d) (by omega) (by omega)
  rw [pulses_get (by omega), decide_eq_true hpulse] at hnone
  cases hnone

end Divider
