import Kernel391.LineDiscipline

/-!
# What `terminal_read` stores

The line goes through a local buffer of 128 bytes, and all of that buffer is copied out.  How much
the caller has room for is only compared with zero.
-/

namespace Kernel391

namespace Term

/-- The line in a row: up to its first newline, which a row without one has at position 127. -/
def rowLine (row : Nat → UInt8) : List UInt8 :=
  ((List.range 127).map row).takeWhile (· ≠ 0x0A) ++ [0x0A]

/-- As much of the line as fits is stored, nothing is stored behind the caller's buffer, and the
result says how much of the line there is. -/
structure RespectsBuffer (row : Nat → UInt8) (nbytes : Int) (r : ReadResult) : Prop where
  fits : (r.stored.length : Int) ≤ nbytes
  ret : r.ret = min nbytes (rowLine row).length
  bytes : r.stored.take (min nbytes.toNat (rowLine row).length) = (rowLine row).take nbytes.toNat

/-! ## The line in the local buffer -/

-- The loop copies what stands before the newline and one byte more, newline or not.
theorem lineLoop_split (row : Nat → UInt8) : ∀ k x,
    lineLoop row (k + 1) x = ((List.range' x k).map row).takeWhile (· ≠ 0x0A) ++
      [row (x + (((List.range' x k).map row).takeWhile (· ≠ 0x0A)).length)]
  | 0, x => by simp [lineLoop]
  | k + 1, x => by
      unfold lineLoop
      by_cases hend : row x = 0x0A
      · simp [hend, List.range'_succ]
      · rw [if_neg hend, lineLoop_split row k (x + 1)]
        simp [hend, List.range'_succ, Nat.add_assoc, Nat.add_comm 1]

-- Where the text stops early, a newline has stopped it.
theorem newline_of_short (row : Nat → UInt8) : ∀ k x,
    (((List.range' x k).map row).takeWhile (· ≠ 0x0A)).length < k →
      row (x + (((List.range' x k).map row).takeWhile (· ≠ 0x0A)).length) = 0x0A
  | 0, x, h => by simp at h
  | k + 1, x, h => by
      by_cases hend : row x = 0x0A
      · simp [hend, List.range'_succ]
      · have hcons := @List.takeWhile_cons_of_pos _ (fun b => decide (b ≠ 0x0A)) (row x)
          ((List.range' (x + 1) k).map row) (decide_eq_true hend)
        rw [List.range'_succ, List.map_cons, hcons, List.length_cons] at h ⊢
        rw [Nat.add_comm _ 1, ← Nat.add_assoc]
        exact newline_of_short row k (x + 1) (by omega)

-- In a full buffer the newline takes the place of the last byte.
theorem lineBuffer_full {text : List UInt8} (hfull : text.length = 127) {c : UInt8}
    (hc : ¬c = 0x0A) (x : Nat) : lineBuffer (text ++ [c]) x = (text ++ [0x0A]).getD x 0 := by
  have hlen : (text ++ [c]).length = 128 := by simp [hfull]
  have hlast : (text ++ [c]).getD 127 0 = c := by simp [← hfull]
  have hroom : ¬(128 : Nat) < MAX_BUFF_LENGTH := by decide
  unfold lineBuffer
  simp only [hlen, Nat.reduceSub, hlast, hc, hroom, ne_eq, not_false_eq_true, and_false, if_false,
    if_true]
  rcases Nat.lt_trichotomy x 127 with hlt | heq | hgt
  · rw [if_neg (by omega)]
    simp [List.getElem?_append_left, hfull, hlt]
  · simp [heq, ← hfull]
  · rw [if_neg (by omega)]
    simp [hfull, show 128 ≤ x by omega]

/-- After the fix-up the local buffer holds the line, whatever stopped the loop. -/
theorem lineBuffer_row (row : Nat → UInt8) (x : Nat) :
    lineBuffer (lineLoop row MAX_BUFF_LENGTH 0) x = (rowLine row).getD x 0 := by
  have hsplit := lineLoop_split row 127 0
  have hshort := newline_of_short row 127 0
  have hbound := (@List.takeWhile_prefix _ ((List.range 127).map row) (· ≠ 0x0A)).length_le
  rw [List.length_map, List.length_range] at hbound
  rw [← List.range_eq_range', Nat.zero_add] at hsplit hshort
  show lineBuffer (lineLoop row 128 0) x = _
  unfold rowLine
  rw [hsplit]
  generalize ((List.range 127).map row).takeWhile (· ≠ 0x0A) = text at hshort hbound
  by_cases hend : row text.length = 0x0A
  · rw [hend]
    exact lineBuffer_eq x
  · have hfull : text.length = 127 := by
      by_contra hne
      exact hend (hshort (by omega))
    exact lineBuffer_full hfull hend x

theorem length_rowLine_le (row : Nat → UInt8) : (rowLine row).length ≤ 128 := by
  have hle := (@List.takeWhile_prefix _ ((List.range 127).map row) (· ≠ 0x0A)).length_le
  rw [List.length_map, List.length_range] at hle
  rw [rowLine, List.length_append, List.length_singleton]
  omega

theorem length_lineLoop_row (row : Nat → UInt8) :
    (lineLoop row MAX_BUFF_LENGTH 0).length = (rowLine row).length := by
  have hsplit := lineLoop_split row 127 0
  rw [← List.range_eq_range'] at hsplit
  show (lineLoop row 128 0).length = _
  rw [hsplit, rowLine, List.length_append, List.length_append, List.length_singleton,
    List.length_singleton]

/-! ## The copy into the caller's buffer -/

-- Behind a NUL of the source there are only NULs.
theorem strncpy_after_nul {src : Nat → UInt8} : ∀ n i j k, src (i + j) = 0 → j ≤ k →
    (strncpy src n i).getD k 0 = 0
  | 0, i, j, k, _, _ => by simp [strncpy]
  | n + 1, i, j, k, hz, hk => by
      unfold strncpy
      by_cases hi : src i = 0
      · rw [if_pos hi]
        rw [List.getD_eq_getElem?_getD, List.getElem?_replicate]
        split <;> rfl
      · have hj : j ≠ 0 := by
          rintro rfl
          exact hi hz
        obtain ⟨k, rfl⟩ := Nat.exists_eq_add_one_of_ne_zero (show k ≠ 0 by omega)
        rw [if_neg hi, List.getD_cons_succ]
        apply strncpy_after_nul n (i + 1) (j - 1) k _ (by omega)
        rw [show i + 1 + (j - 1) = i + j by omega]
        exact hz

/-- The caller gets the line behind a NUL only as NULs, and its newline is no NUL. -/
theorem strncpy_take_line_iff {src : Nat → UInt8} {text : List UInt8}
    (hsrc : ∀ i, src i = (text ++ [0x0A]).getD i 0)
    (hlen : (text ++ [(0x0A : UInt8)]).length ≤ 128) :
    (strncpy src 128 0).take (text ++ [(0x0A : UInt8)]).length = text ++ [0x0A] ↔
      0 ∉ text ++ [(0x0A : UInt8)] := by
  constructor
  · intro htake hnul
    obtain ⟨j, hj, hget⟩ := List.mem_iff_getElem.mp hnul
    have hz : src (0 + j) = 0 := by
      rw [Nat.zero_add, hsrc, List.getD_eq_getElem?_getD, List.getElem?_eq_getElem hj, hget]
      rfl
    rw [List.length_append, List.length_singleton] at hj htake
    have hnewline := congrArg (fun l => l.getD text.length 0) htake
    simp only [List.getD_eq_getElem?_getD, List.getElem?_take, if_pos (Nat.lt_succ_self _)]
      at hnewline
    rw [← List.getD_eq_getElem?_getD, strncpy_after_nul 128 0 j text.length hz (by omega)]
      at hnewline
    simp at hnewline
  · intro hplain
    have hne : ∀ b ∈ text ++ [(0x0A : UInt8)], b ≠ 0 := fun b hb hz => hplain (hz ▸ hb)
    rw [strncpy_eq hne hsrc 128 0 (Nat.zero_le _) (by omega), List.drop_zero, List.take_left]

/-- `terminal_read` keeps to the caller's buffer exactly when that has room for 128 bytes and there
is no NUL in the line. -/
theorem terminal_read_respects_buffer_iff (s : Term) (nbytes : Int) (hdown : s.enterDown = true)
    (hn : 0 < nbytes) :
    ∃ r s', s.terminalReadResume nbytes = some (r, s') ∧
      (RespectsBuffer s.displayedRow nbytes r ↔ 128 ≤ nbytes ∧ 0 ∉ rowLine s.displayedRow) := by
  obtain ⟨s', hread⟩ := resume_eq hdown hn
  refine ⟨_, s', hread, ?_⟩
  rw [length_lineLoop_row]
  have hbound := length_rowLine_le s.displayedRow
  have hstored := length_strncpy (lineBuffer (lineLoop s.displayedRow MAX_BUFF_LENGTH 0)) 128 0
  have hcopy := strncpy_take_line_iff (lineBuffer_row s.displayedRow) hbound
  change (List.take (rowLine s.displayedRow).length _ = rowLine s.displayedRow ↔
    0 ∉ rowLine s.displayedRow) at hcopy
  have hwhole : (128 : Int) ≤ nbytes →
      (rowLine s.displayedRow).take nbytes.toNat = rowLine s.displayedRow :=
    fun hroom => List.take_of_length_le (by omega)
  constructor
  · intro h
    have hfits := h.fits
    have hbytes := h.bytes
    change ((strncpy _ 128 0).length : Int) ≤ nbytes at hfits
    rw [hstored] at hfits
    rw [Nat.min_eq_right (by omega), hwhole hfits] at hbytes
    exact ⟨hfits, hcopy.mp hbytes⟩
  · rintro ⟨hroom, hplain⟩
    refine ⟨?_, ?_, ?_⟩
    · show ((strncpy _ 128 0).length : Int) ≤ nbytes
      rw [hstored]
      exact hroom
    · show ((rowLine s.displayedRow).length : Int) = _
      omega
    · rw [Nat.min_eq_right (by omega), hwhole hroom]
      exact hcopy.mpr hplain

/-- Enter has been pressed behind the letters "hi". -/
def hiTerm : Term :=
  { bootTerm blankScreen with keyBuffer := fun i => [0x68, 0x69, 0x0A].getD i 0, enterDown := true }

theorem terminal_read_respects_buffer_hi :
    hiTerm.enterDown = true ∧ ∃ r s', hiTerm.terminalReadResume 128 = some (r, s') ∧
      RespectsBuffer hiTerm.displayedRow 128 r := by
  obtain ⟨r, s', hread, hiff⟩ :=
    terminal_read_respects_buffer_iff hiTerm 128 rfl (by decide)
  exact ⟨rfl, r, s', hread, hiff.mpr ⟨by decide, by decide +kernel⟩⟩

/-- Into a buffer of two bytes the same line is stored with 128, and three are reported. -/
theorem terminal_read_overruns :
    ∃ r s', hiTerm.terminalReadResume 2 = some (r, s') ∧ r.stored.length = 128 ∧ r.ret = 3 ∧
      ¬RespectsBuffer hiTerm.displayedRow 2 r := by
  obtain ⟨s', hread⟩ := @resume_eq hiTerm 2 rfl (by decide)
  have hret : (lineLoop hiTerm.displayedRow MAX_BUFF_LENGTH 0).length = 3 := by decide +kernel
  have hstored := length_strncpy (lineBuffer (lineLoop hiTerm.displayedRow MAX_BUFF_LENGTH 0))
    MAX_BUFF_LENGTH 0
  rw [hret] at hread
  refine ⟨_, s', hread, hstored, rfl, ?_⟩
  intro h
  have hfits := h.fits
  simp only [hstored] at hfits
  exact absurd hfits (by decide)

end Term

end Kernel391
