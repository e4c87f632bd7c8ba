import Mathlib.Tactic.Common

/-!
# Texts processed line by line

`perLine` is what a line-oriented filter outputs: something for each line, one after the other.
The lines of a text are the pieces between its separators; the last one has none behind it.
-/

namespace Machine

variable {α β : Type} [BEq α] [LawfulBEq α] {sep : α} {f : List α → List β}

def perLine (sep : α) (f : List α → List β) (xs : List α) : List β := (xs.splitOn sep).flatMap f

theorem perLine_line {line : List α} (h : sep ∉ line) (xs : List α) :
    perLine sep f (line ++ sep :: xs) = f line ++ perLine sep f xs := by
  rw [perLine, List.splitOn_append_cons_self_of_not_mem h, List.flatMap_cons]
  rfl

theorem perLine_last {line : List α} (h : sep ∉ line) : perLine sep f line = f line := by
  rw [perLine, List.splitOn_eq_singleton h, List.flatMap_singleton]

/-- A piece that ends where a line ends can be processed by itself, even without the separator
behind it, as long as an empty line gives no output. -/
theorem perLine_piece {piece rest : List α} (h : sep ∉ piece) (hf : f [] = [])
    (hrest : rest = [] ∨ rest.head? = some sep) :
    perLine sep f (piece ++ rest) = f piece ++ perLine sep f rest := by
  rcases hrest with rfl | hhead
  · have hempty : perLine sep f [] = [] := by
      rw [perLine_last List.not_mem_nil, hf]
    rw [List.append_nil, perLine_last h, hempty, List.append_nil]
  · obtain ⟨xs, rfl⟩ := List.head?_eq_some_iff.mp hhead
    have hline : perLine sep f ([] ++ sep :: xs) = f [] ++ perLine sep f xs :=
      perLine_line List.not_mem_nil xs
    rw [hf, List.nil_append, List.nil_append] at hline
    rw [perLine_line h, hline]

/-- No line is longer than `n`. -/
def LinesWithin (sep : α) (n : Nat) (xs : List α) : Prop := ∀ line ∈ xs.splitOn sep, line.length ≤ n

theorem LinesWithin.tail {n : Nat} {line xs : List α} (h : LinesWithin sep n (line ++ sep :: xs))
    (hline : sep ∉ line) : LinesWithin sep n xs := by
  intro l hl
  apply h l
  rw [List.splitOn_append_cons_self_of_not_mem hline]
  exact List.mem_cons_of_mem line hl

/-- A piece as long as a line can be is followed by a separator or by nothing. -/
theorem LinesWithin.full {n : Nat} {piece rest : List α} (h : LinesWithin sep n (piece ++ rest))
    (hpiece : sep ∉ piece) (hlen : piece.length = n) : rest = [] ∨ rest.head? = some sep := by
  by_cases hmem : sep ∈ rest
  · obtain ⟨xs, ys, rfl, hxs⟩ := List.eq_append_cons_of_mem hmem
    have hfirst : sep ∉ piece ++ xs := by
      rw [List.mem_append]
      exact not_or.mpr ⟨hpiece, hxs⟩
    have hline := h (piece ++ xs) (by
      rw [← List.append_assoc, List.splitOn_append_cons_self_of_not_mem hfirst]
      exact List.mem_cons_self)
    rw [List.length_append] at hline
    rw [List.length_eq_zero_iff.mp (show xs.length = 0 by omega)]
    exact .inr rfl
  · have hwhole : sep ∉ piece ++ rest := by
      rw [List.mem_append]
      exact not_or.mpr ⟨hpiece, hmem⟩
    have hline := h (piece ++ rest) (by
      rw [List.splitOn_eq_singleton hwhole]
      exact List.mem_cons_self)
    rw [List.length_append] at hline
    exact .inl (List.length_eq_zero_iff.mp (by omega))

/-- Without its first line, which is only a piece of one, a text still has lines as short. -/
theorem LinesWithin.rest {n : Nat} {piece rest : List α} (h : LinesWithin sep n (piece ++ rest))
    (hpiece : sep ∉ piece) (hrest : rest = [] ∨ rest.head? = some sep) :
    LinesWithin sep n rest := by
  rcases hrest with rfl | hhead
  · intro l hl
    rw [List.splitOn_eq_singleton List.not_mem_nil, List.mem_singleton] at hl
    rw [hl]
    exact Nat.zero_le n
  · obtain ⟨xs, rfl⟩ := List.head?_eq_some_iff.mp hhead
    intro l hl
    have hsplit : (sep :: xs).splitOn sep = [] :: xs.splitOn sep :=
      List.splitOn_append_cons_self_of_not_mem (show sep ∉ ([] : List α) from List.not_mem_nil) xs
    rw [hsplit, List.mem_cons] at hl
    rcases hl with rfl | hl
    · exact Nat.zero_le n
    · exact h.tail hpiece l hl

omit [LawfulBEq α] in
theorem length_splitOn_le (sep : α) (xs : List α) : (xs.splitOn sep).length ≤ xs.length + 1 := by
  induction xs with
  | nil => exact Nat.le_refl 1
  | cons x xs ih =>
    rw [List.splitOn_cons_eq_if_modifyHead]
    split
    · simpa using ih
    · rw [List.length_modifyHead, List.length_cons]
      omega

omit [LawfulBEq α] in
theorem length_le_of_mem_splitOn {sep : α} {line xs : List α} (h : line ∈ xs.splitOn sep) :
    line.length ≤ xs.length := by
  induction xs generalizing line with
  | nil =>
    rw [List.splitOn_nil, List.mem_singleton] at h
    subst h
    exact Nat.le_refl 0
  | cons x xs ih =>
    rw [List.splitOn_cons_eq_if_modifyHead] at h
    split at h
    · rcases List.mem_cons.mp h with rfl | h
      · exact Nat.zero_le _
      · exact Nat.le_succ_of_le (ih h)
    · obtain ⟨first, rest, hsplit⟩ := List.exists_cons_of_ne_nil (List.splitOn_ne_nil sep xs)
      rw [hsplit, List.modifyHead_cons] at h
      rw [hsplit] at ih
      rcases List.mem_cons.mp h with rfl | h
      · exact Nat.succ_le_succ (ih List.mem_cons_self)
      · exact Nat.le_succ_of_le (ih (List.mem_cons_of_mem first h))

section

omit [BEq α] [LawfulBEq α]

/-- Two lists taken in step from position `n` on; the shorter one is filled up with `d`. -/
def inStep (d : α) (F : Nat → α → α → List β) (n : Nat) (xs ys : List α) : List β :=
  (List.range (max xs.length ys.length)).flatMap fun i => F (n + i) (xs.getD i d) (ys.getD i d)

theorem inStep_cons {d : α} {F : Nat → α → α → List β} {xs ys : List α}
    (h : ¬(xs = [] ∧ ys = [])) (n : Nat) :
    inStep d F n xs ys = F n (xs.headD d) (ys.headD d) ++ inStep d F (n + 1) xs.tail ys.tail := by
  have hlen : max xs.length ys.length = max xs.tail.length ys.tail.length + 1 := by
    rw [← List.length_eq_zero_iff, ← List.length_eq_zero_iff] at h
    rw [List.length_tail, List.length_tail]
    omega
  have hget : ∀ (l : List α) i, l.getD (i + 1) d = l.tail.getD i d := by
    intro l i
    cases l <;> rfl
  have hhead : ∀ l : List α, l.getD 0 d = l.headD d := by
    intro l
    cases l <;> rfl
  unfold inStep
  rw [hlen, List.range_succ_eq_map, List.flatMap_cons, List.flatMap_map]
  simp only [hget, hhead, Nat.add_zero, Nat.succ_eq_add_one, Nat.add_comm, Nat.add_left_comm]

end

end Machine
