import Kernel391.Lib.Console
import Kernel391.ScreenMemory
import Kernel391.TerminalFrame

/-!
# `terminal_write` against a scrolling terminal

`terminal_write` breaks lines by the index of the byte and `putc` does not break them at all: the
character in the last column is followed by the first column of the same row.  The two together
amount to a scrolling terminal for the buffers described by `FitsRows`.
-/

namespace Kernel391

open Console

/-- The picture on the screen, with the cursor. -/
def Screen.console (scr : Screen) : Console UInt8 :=
  ⟨fun r k => scr.mem (scr.videoMem + 2 * (80 * r + k)), scr.screenY.toNat, scr.screenX.toNat⟩

/-- The cursor is on the screen. -/
structure InScreen (scr : Screen) : Prop where
  left : 0 ≤ scr.screenX
  right : scr.screenX < NUM_COLS
  top : 0 ≤ scr.screenY
  bottom : scr.screenY < NUM_ROWS

def IsNewline (b : UInt8) : Prop := b = 0x0A ∨ b = 0x0D

instance (b : UInt8) : Decidable (IsNewline b) := inferInstanceAs (Decidable (_ ∨ _))

def inputOf (b : UInt8) : Input UInt8 := if IsNewline b then .newline else .char b

/-- What a terminal is fed for a buffer: its bytes without the NULs. -/
def inputs (bytes : List UInt8) : List (Input UInt8) := (bytes.filter (· ≠ 0)).map inputOf

/-- The screen shows what the terminal shows. -/
def Displays (scr : Screen) (c : Console UInt8) : Prop :=
  InScreen scr ∧ SameGrid 25 80 scr.console c

/-! ## The two moves -/

section

variable {scr : Screen}

theorem InScreen.row_toNat (h : InScreen scr) : (scr.screenY.toNat : Int) = scr.screenY :=
  Int.toNat_of_nonneg h.top

theorem InScreen.col_toNat (h : InScreen scr) : (scr.screenX.toNat : Int) = scr.screenX :=
  Int.toNat_of_nonneg h.left

theorem InScreen.newRow (h : InScreen scr) : InScreen scr.newRow := by
  have hrows : NUM_ROWS = 25 := rfl
  have htop := h.top
  have hbottom := h.bottom
  refine ⟨?_, ?_, ?_, ?_⟩
  · simp [Screen.newRow_screenX]
  · rw [Screen.newRow_screenX]
    decide
  · rw [Screen.newRow_screenY]
    split <;> omega
  · rw [Screen.newRow_screenY]
    split <;> omega

theorem newRow_displays (h : InScreen scr) :
    Displays scr.newRow (newline 25 0x20 scr.console) := by
  have hrows : NUM_ROWS = 25 := rfl
  have htop := h.top
  have hbottom := h.bottom
  refine ⟨h.newRow, ?_⟩
  unfold Console.newline
  by_cases hlast : scr.screenY + 1 = NUM_ROWS
  · rw [if_neg (show ¬scr.console.row + 1 < 25 by simp only [Screen.console]; omega)]
    refine ⟨fun r hr k hk => ?_, ?_, ?_⟩
    · have hcell := (scr.setScreenY (scr.screenY + 1)).scrollHandle_cell hr hk
      simp only [Screen.console, Screen.newRow, if_pos hlast]
      exact hcell
    · simp only [Screen.console, Screen.newRow_screenY, if_pos hlast]
    · simp only [Screen.console, Screen.newRow_screenX]
      rfl
  · rw [if_pos (show scr.console.row + 1 < 25 by simp only [Screen.console]; omega)]
    refine ⟨fun r _ k _ => ?_, ?_, ?_⟩
    · simp only [Screen.console, Screen.newRow, if_neg hlast]
      rfl
    · simp only [Screen.console, Screen.newRow_screenY, if_neg hlast]
      omega
    · simp only [Screen.console, Screen.newRow_screenX]
      rfl

theorem putCell_screenX (h : InScreen scr) (c : UInt8) :
    (scr.putCell c).screenX = if scr.screenX + 1 < NUM_COLS then scr.screenX + 1 else 0 := by
  have hleft := h.left
  have hright := h.right
  have hcols : NUM_COLS = 80 := rfl
  show Int.tmod (scr.screenX + 1) NUM_COLS = _
  split
  · exact Int.tmod_eq_of_lt (by omega) (by omega)
  · have hend : scr.screenX + 1 = NUM_COLS := by omega
    rw [hend]
    decide

theorem putCell_screenY (h : InScreen scr) (c : UInt8) :
    (scr.putCell c).screenY = scr.screenY := by
  have hleft := h.left
  have hcols : NUM_COLS = 80 := rfl
  show Int.tmod (scr.screenY + Int.tdiv (Int.tmod (scr.screenX + 1) NUM_COLS) NUM_COLS)
    NUM_ROWS = _
  rw [Int.tdiv_eq_zero_of_lt (Int.tmod_nonneg _ (by omega)) (Int.tmod_lt_of_pos _ (by decide)),
    Int.add_zero]
  exact Int.tmod_eq_of_lt h.top h.bottom

theorem InScreen.putCell (h : InScreen scr) (c : UInt8) : InScreen (scr.putCell c) := by
  have hleft := h.left
  refine ⟨?_, ?_, ?_, ?_⟩
  · rw [putCell_screenX h]
    split
    · omega
    · exact Int.le_refl 0
  · rw [putCell_screenX h]
    split
    · assumption
    · decide
  · rw [putCell_screenY h]
    exact h.top
  · rw [putCell_screenY h]
    exact h.bottom

theorem InScreen.backCell (h : InScreen scr) :
    InScreen { scr with
      screenX := (Screen.backCell scr.screenX scr.screenY).1
      screenY := (Screen.backCell scr.screenX scr.screenY).2 } := by
  rcases h with ⟨hleft, hright, htop, hbottom⟩
  simp only [NUM_COLS, NUM_ROWS] at hright hbottom
  refine ⟨?_, ?_, ?_, ?_⟩ <;> simp only [Screen.backCell, NUM_COLS, NUM_ROWS] <;>
    split_ifs <;> simp only <;> omega

theorem putCell_cell (h : InScreen scr) (c : UInt8) {r k : Nat} (hk : k < 80) :
    (scr.putCell c).console.cell r k = scr.console.setCell c r k := by
  have hright := h.right
  have hleft := h.left
  have hcols : NUM_COLS = 80 := rfl
  show (scr.mem.storeCell scr.videoMem (80 * scr.screenY + scr.screenX) c)
    (scr.videoMem + 2 * (80 * r + k)) = _
  rw [← h.row_toNat, ← h.col_toNat, VideoBytes.storeCell_cell _ (by omega) hk]
  rfl

/-- Before the last column, `putc` does as a terminal does. -/
theorem putCell_displays (h : InScreen scr) (hroom : scr.screenX + 1 < NUM_COLS) (c : UInt8) :
    Displays (scr.putCell c) (put 25 80 0x20 c scr.console) := by
  have hleft := h.left
  have hcols : NUM_COLS = 80 := rfl
  refine ⟨h.putCell c, ?_⟩
  unfold Console.put
  rw [if_pos (show scr.console.col + 1 < 80 by simp only [Screen.console]; omega)]
  refine ⟨fun r _ k hk => putCell_cell h c hk, ?_, ?_⟩
  · simp only [Screen.console, putCell_screenY h]
  · simp only [Screen.console, putCell_screenX h, if_pos hroom]
    omega

/-- In the last column it takes a new row to make up for the missing line break. -/
theorem putCell_newRow_displays (h : InScreen scr) (hfull : scr.screenX + 1 = NUM_COLS) (c : UInt8) :
    Displays (scr.putCell c).newRow (put 25 80 0x20 c scr.console) := by
  have hcols : NUM_COLS = 80 := rfl
  have hrow := newRow_displays (h.putCell c)
  unfold Console.put
  rw [if_neg (show ¬scr.console.col + 1 < 80 by simp only [Screen.console]; omega)]
  refine ⟨hrow.1, hrow.2.trans ?_⟩
  have hy : (scr.putCell c).console.row = scr.console.row := by
    simp only [Screen.console, putCell_screenY h]
  unfold Console.newline
  rw [hy]
  split
  · exact ⟨fun r _ k hk => putCell_cell h c hk, rfl, rfl⟩
  · refine ⟨fun r _ k hk => ?_, rfl, rfl⟩
    simp only
    split
    · exact putCell_cell h c hk
    · rfl

end

/-! ## Rows of eighty bytes -/

/-- `putc` of the bytes that are not NUL. -/
def Screen.putBytes (keyIndex : Nat) (bytes : List UInt8) (scr : Screen) : Screen :=
  bytes.foldl (fun s b => if b ≠ 0 then s.putc keyIndex b else s) scr

-- No index in the middle of a block is a multiple of 80.
theorem writeLoop_inner (keyIndex : Nat) (bytes : List UInt8) {j : Nat} (hj : 0 < j % 80)
    (hlen : j % 80 + bytes.length ≤ 80) (scr : Screen) :
    scr.writeLoop keyIndex (bytes.zipIdx j) = scr.putBytes keyIndex bytes := by
  induction bytes generalizing j scr with
  | nil => rfl
  | cons b bytes ih =>
    have hstart : scr.startRow j = scr := if_neg (by omega)
    have hbyte : scr.writeByte keyIndex j b = if b ≠ 0 then scr.putc keyIndex b else scr := by
      rw [Screen.writeByte, hstart]
    rw [List.length_cons] at hlen
    rw [List.zipIdx_cons, Screen.writeLoop, List.foldl_cons, hbyte]
    cases bytes with
    | nil => rfl
    | cons b' bytes =>
      rw [List.length_cons] at hlen
      exact ih (by omega) (by rw [List.length_cons]; omega) _

theorem writeLoop_block (keyIndex : Nat) {bytes : List UInt8} (hne : bytes ≠ [])
    (hlen : bytes.length ≤ 80) {i : Nat} (hi : i % 80 = 0) (scr : Screen) :
    scr.writeLoop keyIndex (bytes.zipIdx i) = (scr.startRow i).putBytes keyIndex bytes := by
  cases bytes with
  | nil => exact absurd rfl hne
  | cons b bytes =>
    rw [List.length_cons] at hlen
    have hbyte : scr.writeByte keyIndex i b =
        if b ≠ 0 then (scr.startRow i).putc keyIndex b else scr.startRow i := rfl
    rw [List.zipIdx_cons, Screen.writeLoop, List.foldl_cons, hbyte]
    exact writeLoop_inner keyIndex bytes (by omega) (by omega) _

/-- How many bytes of a block are printed before its first newline. -/
def printedBefore (bytes : List UInt8) : Nat :=
  (bytes.takeWhile fun b => ¬IsNewline b).countP (· ≠ 0)

/-- Nothing is printed after the first newline of a block. -/
def OneLine (bytes : List UInt8) : Prop :=
  ∀ b ∈ bytes.dropWhile fun b => ¬IsNewline b, b = 0 ∨ IsNewline b

/-- A block that is followed by another one just fills its row; the last block stops short of the
last column. -/
def FitsRows (x : Nat) (bytes : List UInt8) : Prop :=
  ∀ k, 80 * k < bytes.length →
    if 80 * (k + 1) < bytes.length then
      OneLine ((bytes.drop (80 * k)).take 80) ∧
        printedBefore ((bytes.drop (80 * k)).take 80) = 80 - if k = 0 then x else 0
    else printedBefore (bytes.drop (80 * k)) < 80 - if k = 0 then x else 0

instance (bytes : List UInt8) : Decidable (OneLine bytes) :=
  inferInstanceAs (Decidable (∀ b ∈ _, b = 0 ∨ IsNewline b))

section

variable {scr : Screen} {c : Console UInt8} {keyIndex : Nat}

theorem Displays.newRow (h : Displays scr c) : Displays scr.newRow (newline 25 0x20 c) := by
  have hrow := newRow_displays h.1
  exact ⟨hrow.1, hrow.2.trans h.2.newline⟩

theorem Displays.putCell (h : Displays scr c) (hroom : scr.screenX + 1 < NUM_COLS) (b : UInt8) :
    Displays (scr.putCell b) (put 25 80 0x20 b c) := by
  have hput := putCell_displays h.1 hroom b
  exact ⟨hput.1, hput.2.trans (h.2.put b)⟩

theorem putc_newline {b : UInt8} (hb : IsNewline b) : scr.putc keyIndex b = scr.newRow := by
  rw [Screen.putc_eq]
  exact if_pos hb

theorem putc_char (hkey : keyIndex < MAX_BUFF_LENGTH) {b : UInt8} (hb : ¬IsNewline b) :
    scr.putc keyIndex b = scr.putCell b := by
  rw [Screen.putc_eq, if_pos hkey]
  exact if_neg hb

theorem putBytes_cons {b : UInt8} (hb : b ≠ 0) (bytes : List UInt8) :
    scr.putBytes keyIndex (b :: bytes) = (scr.putc keyIndex b).putBytes keyIndex bytes := by
  rw [Screen.putBytes, List.foldl_cons, if_pos hb]
  rfl

theorem inputs_cons {b : UInt8} (hb : b ≠ 0) (bytes : List UInt8) :
    inputs (b :: bytes) = inputOf b :: inputs bytes := by
  simp [inputs, hb]

theorem inputs_append (l l' : List UInt8) : inputs (l ++ l') = inputs l ++ inputs l' := by
  simp [inputs]

theorem printedBefore_cons {b : UInt8} (hb : b ≠ 0) (hline : ¬IsNewline b) (bytes : List UInt8) :
    printedBefore (b :: bytes) = printedBefore bytes + 1 := by
  rw [printedBefore, List.takeWhile_cons_of_pos (by simpa using hline),
    List.countP_cons_of_pos (by simpa using hb)]
  rfl

theorem printedBefore_newline {b : UInt8} (hline : IsNewline b) (bytes : List UInt8) :
    printedBefore (b :: bytes) = 0 := by
  rw [printedBefore, List.takeWhile_cons_of_neg (by simpa using hline)]
  rfl

theorem OneLine.tail {b : UInt8} {bytes : List UInt8} (h : OneLine (b :: bytes))
    (hline : ¬IsNewline b) : OneLine bytes := by
  rw [OneLine, List.dropWhile_cons_of_pos (by simpa using hline)] at h
  exact h

-- Once the row is full there is nothing left to print.
theorem OneLine.nothing_printed {bytes : List UInt8} (h : OneLine bytes)
    (hcount : printedBefore bytes = 0) : ∀ b ∈ bytes, b = 0 ∨ IsNewline b := by
  intro b hb
  rw [← List.takeWhile_append_dropWhile (p := fun b => ¬IsNewline b) (l := bytes),
    List.mem_append] at hb
  cases hb with
  | inl hbefore =>
    have hnul := List.countP_eq_zero.mp hcount b hbefore
    exact .inl (by simpa using hnul)
  | inr hafter => exact h b hafter

/-- Line breaks keep the screen as far behind as it was. -/
theorem putBytes_breaks {bytes : List UInt8} (hbytes : ∀ b ∈ bytes, b = 0 ∨ IsNewline b)
    (h : Displays scr.newRow c) :
    Displays (scr.putBytes keyIndex bytes).newRow (feed 25 80 0x20 c (inputs bytes)) := by
  induction bytes generalizing scr c with
  | nil => exact h
  | cons b bytes ih =>
    have hrest : ∀ b ∈ bytes, b = 0 ∨ IsNewline b :=
      fun b' hb' => hbytes b' (List.mem_cons_of_mem b hb')
    by_cases hb : b = 0
    · subst hb
      exact ih hrest h
    · have hline : IsNewline b := (hbytes b List.mem_cons_self).resolve_left hb
      have hinput : inputOf b = .newline := if_pos hline
      rw [putBytes_cons hb, putc_newline hline, inputs_cons hb, hinput, feed_cons]
      exact ih hrest h.newRow

/-- A block that just fills its row leaves the cursor one new row behind a terminal. -/
theorem putBytes_full (hkey : keyIndex < MAX_BUFF_LENGTH) {bytes : List UInt8}
    (hline : OneLine bytes) (h : Displays scr c)
    (hcount : printedBefore bytes = 80 - scr.screenX.toNat) :
    Displays (scr.putBytes keyIndex bytes).newRow (feed 25 80 0x20 c (inputs bytes)) := by
  have hcols : NUM_COLS = 80 := rfl
  induction bytes generalizing scr c with
  | nil =>
    have hright := h.1.right
    have hnone : printedBefore [] = 0 := rfl
    omega
  | cons b bytes ih =>
    have hleft := h.1.left
    have hright := h.1.right
    by_cases hb : b = 0
    · subst hb
      exact ih (hline.tail (by decide)) h hcount
    · by_cases hbreak : IsNewline b
      · rw [printedBefore_newline hbreak] at hcount
        omega
      · have hinput : inputOf b = .char b := if_neg hbreak
        rw [printedBefore_cons hb hbreak] at hcount
        rw [putBytes_cons hb, putc_char hkey hbreak, inputs_cons hb, hinput, feed_cons]
        by_cases hroom : scr.screenX + 1 < NUM_COLS
        · have hx := putCell_screenX h.1 b
          rw [if_pos hroom] at hx
          exact ih (hline.tail hbreak) (h.putCell hroom b) (by omega)
        · have hlast := putCell_newRow_displays h.1 (by omega) b
          have hrest := (hline.tail hbreak).nothing_printed (by omega)
          exact putBytes_breaks hrest ⟨hlast.1, hlast.2.trans (h.2.put b)⟩

theorem printedBefore_le (bytes : List UInt8) : printedBefore bytes ≤ bytes.length :=
  Nat.le_trans List.countP_le_length (List.takeWhile_prefix _).length_le

/-- A block that never reaches the last column is shown as a terminal shows it. -/
theorem putBytes_short (hkey : keyIndex < MAX_BUFF_LENGTH) {bytes : List UInt8}
    (hlen : bytes.length ≤ 80) (h : Displays scr c)
    (hshort : printedBefore bytes < 80 - scr.screenX.toNat) :
    Displays (scr.putBytes keyIndex bytes) (feed 25 80 0x20 c (inputs bytes)) := by
  induction bytes generalizing scr c with
  | nil => exact h
  | cons b bytes ih =>
    rw [List.length_cons] at hlen
    by_cases hb : b = 0
    · subst hb
      exact ih (by omega) h hshort
    · rw [putBytes_cons hb, inputs_cons hb, feed_cons]
      by_cases hline : IsNewline b
      · -- what is left is too short to fill a row
        have hinput : inputOf b = .newline := if_pos hline
        have hle := printedBefore_le bytes
        rw [putc_newline hline, hinput]
        apply ih (by omega) h.newRow
        rw [Screen.newRow_screenX]
        show printedBefore bytes < 80
        omega
      · have hinput : inputOf b = .char b := if_neg hline
        have hcount := printedBefore_cons hb hline bytes
        have hleft := h.1.left
        have hcols : NUM_COLS = 80 := rfl
        have hroom : scr.screenX + 1 < NUM_COLS := by omega
        have hx := putCell_screenX h.1 b
        rw [if_pos hroom] at hx
        rw [putc_char hkey hline, hinput]
        exact ih (by omega) (h.putCell hroom b) (by omega)

end

/-! ## The whole buffer -/

theorem FitsRows.drop {x : Nat} {bytes : List UInt8} (h : FitsRows x bytes) :
    FitsRows 0 (bytes.drop 80) := by
  intro k hk
  rw [List.length_drop] at hk
  have hnext := h (k + 1) (by omega)
  rw [if_neg (Nat.succ_ne_zero k)] at hnext
  rw [List.drop_drop, List.length_drop, ite_self, show 80 + 80 * k = 80 * (k + 1) by omega]
  by_cases hlast : 80 * (k + 1 + 1) < bytes.length
  · rw [if_pos hlast] at hnext
    rw [if_pos (by omega)]
    exact hnext
  · rw [if_neg hlast] at hnext
    rw [if_neg (by omega)]
    exact hnext

-- The induction is on the blocks; between two of them the screen is one new row behind.
theorem writeLoop_displays {keyIndex : Nat} (hkey : keyIndex < MAX_BUFF_LENGTH)
    (bytes : List UInt8) (hne : bytes ≠ []) {i : Nat} (hi : i % 80 = 0) {scr : Screen}
    {c : Console UInt8} (h : Displays (scr.startRow i) c)
    (hfits : FitsRows (scr.startRow i).screenX.toNat bytes) :
    Displays (scr.writeLoop keyIndex (bytes.zipIdx i)) (feed 25 80 0x20 c (inputs bytes)) := by
  induction hn : bytes.length using Nat.strong_induction_on generalizing bytes i scr c with
  | _ n ih =>
    subst hn
    have hpos : 0 < bytes.length := List.length_pos_iff.mpr hne
    have hfirst := hfits 0 (by omega)
    rw [if_pos rfl, Nat.mul_zero, List.drop_zero] at hfirst
    by_cases hmore : 80 * (0 + 1) < bytes.length
    · rw [if_pos hmore] at hfirst
      have hlen : (bytes.take 80).length = 80 := by
        rw [List.length_take]
        omega
      have htake : bytes.take 80 ≠ [] := by
        intro hnil
        rw [hnil] at hlen
        exact absurd hlen (by decide)
      have hdrop : bytes.drop 80 ≠ [] := by
        intro hnil
        have hzero := congrArg List.length hnil
        rw [List.length_drop, List.length_nil] at hzero
        omega
      have hblock := putBytes_full hkey hfirst.1 h hfirst.2
      rw [← writeLoop_block keyIndex htake (by omega) hi] at hblock
      generalize hscr : scr.writeLoop keyIndex ((bytes.take 80).zipIdx i) = scr₁ at hblock
      have hrow : scr₁.startRow (i + 80) = scr₁.newRow := if_pos (by omega)
      have hsplit : scr.writeLoop keyIndex (bytes.zipIdx i) =
          scr₁.writeLoop keyIndex ((bytes.drop 80).zipIdx (i + 80)) := by
        conv_lhs => rw [← List.take_append_drop 80 bytes, List.zipIdx_append, hlen]
        rw [Screen.writeLoop, List.foldl_append, ← hscr]
        rfl
      have hinputs : inputs bytes = inputs (bytes.take 80) ++ inputs (bytes.drop 80) := by
        rw [← inputs_append, List.take_append_drop]
      have hstart : (scr₁.startRow (i + 80)).screenX.toNat = 0 := by
        rw [hrow, Screen.newRow_screenX]
        rfl
      rw [hsplit, hinputs, feed_append]
      apply ih (bytes.drop 80).length (by rw [List.length_drop]; omega) (bytes.drop 80) hdrop
        (by omega) (hrow ▸ hblock) _ rfl
      rw [hstart]
      exact hfits.drop
    · rw [if_neg hmore] at hfirst
      rw [writeLoop_block keyIndex hne (by omega) hi]
      exact putBytes_short hkey (by omega) h hfirst

-- With a full line buffer `putc` prints nothing, but it still breaks lines.
theorem writeLoop_keyIndex {bytes : List UInt8} (h : ∀ b ∈ bytes, b = 0 ∨ IsNewline b)
    (keyIndex i : Nat) (scr : Screen) :
    scr.writeLoop keyIndex (bytes.zipIdx i) = scr.writeLoop 0 (bytes.zipIdx i) := by
  induction bytes generalizing i scr with
  | nil => rfl
  | cons b bytes ih =>
    have hbyte : scr.writeByte keyIndex i b = scr.writeByte 0 i b := by
      unfold Screen.writeByte
      rcases h b List.mem_cons_self with hb | hb
      · rw [if_neg (not_not_intro hb), if_neg (not_not_intro hb)]
      · rw [putc_newline hb, putc_newline hb]
    rw [List.zipIdx_cons, Screen.writeLoop, Screen.writeLoop, List.foldl_cons, List.foldl_cons, hbyte]
    exact ih (fun b' hb' => h b' (List.mem_cons_of_mem b hb')) (i + 1) _

/-- From any picture and any place of the cursor, a buffer that fits its rows appears as on a
scrolling terminal, unless pending input keeps its characters out. -/
theorem terminal_write_displays (s : Term) (h : InScreen s.screen) (src : CStr) (nbytes : Int)
    (hn : 0 < nbytes) (hfits : FitsRows s.screen.screenX.toNat (copyBuf src nbytes.toNat))
    (hkey : s.getKeyIndex < MAX_BUFF_LENGTH ∨
      ∀ b ∈ copyBuf src nbytes.toNat, b = 0 ∨ IsNewline b) :
    Displays (s.terminalWrite (some src) nbytes).2.screen
      (feed 25 80 0x20 s.screen.console (inputs (copyBuf src nbytes.toNat))) := by
  have hne : copyBuf src nbytes.toNat ≠ [] := by
    intro hnil
    have hlen := congrArg List.length hnil
    rw [copyBuf, List.length_map, List.length_range, List.length_nil] at hlen
    omega
  have hstart : s.screen.startRow 0 = s.screen := if_neg (by omega)
  have hshown : Displays (s.screen.startRow 0) s.screen.console := by
    rw [hstart]
    exact ⟨h, .refl _⟩
  rw [← hstart] at hfits
  rw [terminalWrite_eq, Term.onScreen_screen, Screen.write]
  simp only [if_neg (show ¬nbytes ≤ 0 by omega)]
  rcases hkey with hroom | hplain
  · exact writeLoop_displays hroom _ hne rfl hshown hfits
  · rw [writeLoop_keyIndex hplain]
    exact writeLoop_displays (by decide) _ hne rfl hshown hfits

def letterTerm (x : Int) : Term := bootTerm { blankScreen with screenX := x }

-- Eighty letters fill the row, and the eighty-first starts the next one.
theorem terminal_write_displays_letters :
    Displays ((letterTerm 0).terminalWrite (some fun _ => 0x61) 81).2.screen
      (feed 25 80 0x20 (letterTerm 0).screen.console (inputs (copyBuf (fun _ => 0x61) 81))) := by
  have hfits : FitsRows (letterTerm 0).screen.screenX.toNat (copyBuf (fun _ => 0x61) 81) := by
    intro k hk
    have hblocks : k = 0 ∨ k = 1 := by
      rw [copyBuf, List.length_map, List.length_range] at hk
      omega
    rcases hblocks with rfl | rfl <;> decide +kernel
  exact terminal_write_displays (letterTerm 0) ⟨by decide, by decide, by decide, by decide⟩ _ 81
    (by decide) hfits (.inl (by decide))

-- Two letters from the last column on: the second one lands in the same row.
theorem terminal_write_overwrites :
    InScreen (letterTerm 79).screen ∧
      ¬Displays ((letterTerm 79).terminalWrite (some fun _ => 0x61) 2).2.screen
        (feed 25 80 0x20 (letterTerm 79).screen.console (inputs (copyBuf (fun _ => 0x61) 2))) := by
  refine ⟨⟨by decide, by decide, by decide, by decide⟩, fun h => ?_⟩
  have hrow := h.2.row
  revert hrow
  decide

end Kernel391
