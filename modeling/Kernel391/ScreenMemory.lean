import Kernel391.Screen

/-!
# Video memory after the loops of the console

The loops of `memcpy`, `clear` and `scroll_handle` in closed form: the byte at each address after
the loop, in terms of the bytes before it.
-/

namespace Kernel391

namespace VideoBytes

/-! ## Single cells -/

theorem store_apply (addr : Int) (b : UInt8) (m : VideoBytes) (a : Int) :
    m.store addr b a = if a = addr then b else m a := by
  rw [store]

theorem storeCell_apply (base cell : Int) (c : UInt8) (m : VideoBytes) (a : Int) :
    m.storeCell base cell c a = if a = base + 2 * cell then c
      else if a = base + 2 * cell + 1 then ATTRIB else m a := by
  simp only [storeCell, store_apply]
  split <;> split <;> first | rfl | omega

/-- Cells of the grid do not overlap. -/
theorem storeCell_cell (base : Int) {y x r k : Nat} (hx : x < 80) (hk : k < 80) (c : UInt8)
    (m : VideoBytes) : m.storeCell base (80 * y + x) c (base + 2 * (80 * r + k)) =
      if r = y ∧ k = x then c else m (base + 2 * (80 * r + k)) := by
  rw [storeCell_apply]
  by_cases hcell : r = y ∧ k = x
  · rw [if_pos hcell, if_pos (by omega)]
  · rw [if_neg hcell, if_neg (by omega), if_neg (by omega)]

/-! ## `memcpy` -/

theorem memcpy_apply {dest src : Int} {n : Nat} (hdisj : dest + n ≤ src ∨ src + n ≤ dest)
    (m : VideoBytes) (a : Int) : m.memcpy dest src n a =
      if dest ≤ a ∧ a < dest + n then m (src + (a - dest)) else m a := by
  -- the source is never written, so each iteration copies an original byte
  have hloop : ∀ k ≤ n, ∀ a, m.memcpy dest src k a =
      if dest ≤ a ∧ a < dest + k then m (src + (a - dest)) else m a := by
    intro k
    induction k with
    | zero =>
      intro _ a
      rw [if_neg (by omega)]
      rfl
    | succ k ih =>
      intro hk a
      have hprev := ih (by omega)
      unfold memcpy at hprev ⊢
      rw [List.range_succ, List.foldl_append, List.foldl_cons, List.foldl_nil, store_apply, hprev a,
        hprev (src + k), if_neg (show ¬(dest ≤ src + k ∧ src + k < dest + k) by omega)]
      by_cases ha : a = dest + k
      · rw [if_pos ha, if_pos (by omega), ha]
        congr 1
        omega
      · rw [if_neg ha]
        apply if_congr _ rfl rfl
        omega
  exact hloop n (Nat.le_refl n) a

/-! ## Blank cells -/

/-- Cells `lo` up to `lo + n` are blank. -/
def blanked (base lo : Int) (n : Nat) (m : VideoBytes) : VideoBytes := fun a =>
  if base + 2 * lo ≤ a ∧ a < base + 2 * (lo + n) then
    if (a - base) % 2 = 0 then 0x20 else ATTRIB
  else m a

theorem blankLoop_eq (base lo : Int) (n : Nat) (m : VideoBytes) :
    (List.range n).foldl (fun m (x : Nat) => m.storeCell base (lo + x) 0x20) m =
      m.blanked base lo n := by
  induction n with
  | zero =>
    funext a
    rw [blanked, if_neg (by omega)]
    rfl
  | succ n ih =>
    rw [List.range_succ, List.foldl_append, ih]
    funext a
    simp only [List.foldl_cons, List.foldl_nil, storeCell_apply, blanked]
    split
    · rw [if_pos (by omega), if_pos (by omega)]
    · split
      · rw [if_pos (by omega), if_neg (by omega)]
      · apply if_congr _ rfl rfl
        omega

/-! ## The upward shift -/

/-- The first `n` cells hold the characters from one row below. -/
def shifted (base : Int) (n : Nat) (m : VideoBytes) : VideoBytes := fun a =>
  if base ≤ a ∧ a < base + 2 * n then
    if (a - base) % 2 = 0 then m (a + 2 * NUM_COLS) else ATTRIB
  else m a

-- The cell that is read is one row ahead of those written so far.
theorem shiftCell_shifted (base : Int) (y x : Nat) (m : VideoBytes) :
    Screen.shiftCell base y x (m.shifted base (80 * y + x)) = m.shifted base (80 * y + (x + 1)) := by
  have hcols : NUM_COLS = 80 := rfl
  funext a
  simp only [Screen.shiftCell, storeCell_apply, shifted, hcols]
  rw [if_neg (show ¬(base ≤ base + 2 * (80 * ((y : Int) + 1) + x) ∧
    base + 2 * (80 * ((y : Int) + 1) + x) < base + 2 * ((80 * y + x : Nat) : Int)) by omega)]
  split
  · rw [if_pos (by omega), if_pos (by omega)]
    congr 1
    omega
  · split
    · rw [if_pos (by omega), if_neg (by omega)]
    · apply if_congr _ rfl rfl
      omega

theorem shiftLoop_eq (base : Int) (rows : Nat) (m : VideoBytes) :
    (List.range rows).foldl (fun m (y : Nat) => (List.range NUM_COLS.toNat).foldl
      (fun m (x : Nat) => Screen.shiftCell base y x m) m) m = m.shifted base (80 * rows) := by
  have hrow : ∀ y cols : Nat, (List.range cols).foldl (fun m (x : Nat) =>
      Screen.shiftCell base y x m) (m.shifted base (80 * y)) = m.shifted base (80 * y + cols) := by
    intro y cols
    induction cols with
    | zero => rfl
    | succ cols ih =>
      rw [List.range_succ, List.foldl_append, ih]
      exact shiftCell_shifted base y cols m
  induction rows with
  | zero =>
    funext a
    rw [shifted, if_neg (by omega)]
    rfl
  | succ rows ih =>
    have hcols : NUM_COLS.toNat = 80 := by decide
    rw [List.range_succ, List.foldl_append, ih, List.foldl_cons, List.foldl_nil, hcols,
      hrow rows 80, Nat.mul_succ]

end VideoBytes

namespace Screen

open VideoBytes

theorem clear_mem (s : Screen) : s.clear.mem = s.mem.blanked s.videoMem 0 2000 := by
  have hcells : (NUM_ROWS * NUM_COLS).toNat = 2000 := by decide
  have hloop := blankLoop_eq s.videoMem 0 2000 s.mem
  simp only [Int.zero_add] at hloop
  simp only [clear, updateCursor, hcells, hloop]

theorem scrollHandle_mem (s : Screen) : s.scrollHandle.mem =
    (s.mem.shifted s.videoMem 1920).blanked s.videoMem 1920 80 := by
  have hrows : (NUM_ROWS - 1).toNat = 24 := by decide
  have hcols : NUM_COLS.toNat = 80 := by decide
  have hlast : NUM_COLS * (NUM_ROWS - 1) = 1920 := by decide
  have hshift := shiftLoop_eq s.videoMem 24 s.mem
  rw [hcols] at hshift
  simp only [scrollHandle, updateCursor, hrows, hcols, hlast, blankLoop_eq, hshift]

/-- After a scroll each row shows the row that was below it. -/
theorem scrollHandle_cell (s : Screen) {r k : Nat} (hr : r < 25) (hk : k < 80) :
    s.scrollHandle.mem (s.videoMem + 2 * (80 * r + k)) =
      if r + 1 < 25 then s.mem (s.videoMem + 2 * (80 * (r + 1 : Nat) + k)) else 0x20 := by
  have hcols : NUM_COLS = 80 := rfl
  rw [scrollHandle_mem]
  simp only [blanked, shifted, hcols]
  by_cases hlast : r + 1 < 25
  · rw [if_neg (by omega), if_pos (by omega), if_pos (by omega), if_pos hlast]
    exact congrArg s.mem (by omega)
  · rw [if_pos (by omega), if_pos (by omega), if_neg hlast]

end Screen

end Kernel391
