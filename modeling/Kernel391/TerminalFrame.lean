import Kernel391.Terminal

/-!
# What the terminal functions leave alone

`clear_buffer` in closed form, and `SameView`: apart from the function keys, nothing changes which
terminal is displayed or where `video_mem` points.
-/

namespace Kernel391

open Term

-- The loop of `clear_buffer` after `n` iterations.
theorem clearLoop_eq (s : Term) (n : Nat) :
    (List.range n).foldl (fun s x => s.storeKey x 0) s =
      { s with
        keyBuffer := fun j =>
          if MAX_BUFF_LENGTH * s.displayTerminal ≤ j ∧ j < MAX_BUFF_LENGTH * s.displayTerminal + n
          then 0 else s.keyBuffer j
        trace := s.trace ++ (List.range n).map (Access.keyBuffer s.displayTerminal) } := by
  induction n with
  | zero =>
    have hbuf : (fun j => if MAX_BUFF_LENGTH * s.displayTerminal ≤ j ∧
        j < MAX_BUFF_LENGTH * s.displayTerminal + 0 then 0 else s.keyBuffer j) = s.keyBuffer := by
      funext j
      exact if_neg (by omega)
    rw [hbuf]
    simp
  | succ n ih =>
    rw [List.range_succ, List.foldl_append, ih, List.map_append, ← List.append_assoc]
    simp only [List.foldl_cons, List.foldl_nil, storeKey, List.map_cons, List.map_nil]
    congr 1
    funext j
    by_cases hj : j = MAX_BUFF_LENGTH * s.displayTerminal + n
    · rw [if_pos hj, if_pos (by omega)]
    · rw [if_neg hj]
      congr 1
      apply propext
      omega

theorem clearBuffer_eq (s : Term) : s.clearBuffer =
    { s with
      keyIndex := fun t => if t = s.displayTerminal then 0 else s.keyIndex t
      keyBuffer := fun j =>
        if MAX_BUFF_LENGTH * s.displayTerminal ≤ j ∧
          j < MAX_BUFF_LENGTH * s.displayTerminal + MAX_BUFF_LENGTH then 0 else s.keyBuffer j
      trace := s.trace ++
        (List.range MAX_BUFF_LENGTH).map (Access.keyBuffer s.displayTerminal) } := by
  unfold clearBuffer
  rw [clearLoop_eq]
  rfl

/-! ## The base of video memory -/

namespace Screen

@[simp] theorem updateCursor_videoMem (x y : Int) (s : Screen) :
    (s.updateCursor x y).videoMem = s.videoMem := rfl

@[simp] theorem scrollHandle_videoMem (s : Screen) : s.scrollHandle.videoMem = s.videoMem := rfl

@[simp] theorem wrapAround_videoMem (s : Screen) : s.wrapAround.videoMem = s.videoMem := rfl

@[simp] theorem clear_videoMem (s : Screen) : s.clear.videoMem = s.videoMem := by
  simp only [clear, updateCursor_videoMem]

@[simp] theorem setScreenY_videoMem (y : Int) (s : Screen) :
    (s.setScreenY y).videoMem = s.videoMem := rfl

@[simp] theorem putc_videoMem (keyIndex : Nat) (c : UInt8) (s : Screen) :
    (s.putc keyIndex c).videoMem = s.videoMem := by
  simp only [putc]
  split
  · split <;> rfl
  · split <;> rfl

@[simp] theorem puts_videoMem (keyIndex : Nat) (str : List UInt8) (s : Screen) :
    (s.puts keyIndex str).videoMem = s.videoMem := by
  have hloop : ∀ s : Screen, (str.foldl (fun s c => s.putc keyIndex c) s).videoMem = s.videoMem := by
    induction str with
    | nil => exact fun _ => rfl
    | cons c str ih =>
      intro s
      rw [List.foldl_cons, ih, putc_videoMem]
  exact hloop s

@[simp] theorem printBackspace_videoMem (s : Screen) : s.printBackspace.videoMem = s.videoMem := by
  simp only [printBackspace, updateCursor_videoMem]
  split
  · rfl
  · split <;> rfl

/-! ## The parts of `putc` and `terminal_write` -/

/-- The start of the row below, after a scroll if there is none. -/
def newRow (s : Screen) : Screen :=
  if s.screenY + 1 = NUM_ROWS then (s.setScreenY (s.screenY + 1)).scrollHandle else s.wrapAround

theorem newRow_screenX (s : Screen) : s.newRow.screenX = 0 := by
  unfold newRow
  split <;> rfl

theorem newRow_screenY (s : Screen) :
    s.newRow.screenY = if s.screenY + 1 = NUM_ROWS then s.screenY else s.screenY + 1 := by
  unfold newRow
  split
  · exact Int.add_sub_cancel s.screenY 1
  · rfl

/-- A character in the cell under the cursor, which stays in its row. -/
def putCell (c : UInt8) (s : Screen) : Screen :=
  { s with
    mem := s.mem.storeCell s.videoMem (NUM_COLS * s.screenY + s.screenX) c
    screenX := Int.tmod (s.screenX + 1) NUM_COLS
    screenY := Int.tmod (s.screenY + Int.tdiv (Int.tmod (s.screenX + 1) NUM_COLS) NUM_COLS)
      NUM_ROWS }

/-- `putc` starts a new row, or writes a cell while there is room in the line buffer. -/
theorem putc_eq (keyIndex : Nat) (c : UInt8) (s : Screen) : s.putc keyIndex c =
    if c = 0x0A ∨ c = 0x0D then s.newRow
    else if keyIndex < MAX_BUFF_LENGTH then s.putCell c else s := by
  unfold putc newRow
  by_cases hc : c = 0x0A ∨ c = 0x0D
  · rw [if_pos hc, if_pos hc]
    simp only
    split <;> rfl
  · rw [if_neg hc, if_neg hc]
    rfl

/-- The cell before `(x, y)` in row-major order; the first cell has none. -/
def backCell (x y : Int) : Int × Int :=
  if x = 0 ∧ y = 0 then (0, 0) else if x = 0 then (NUM_COLS - 1, y - 1) else (x - 1, y)

theorem printBackspace_eq (s : Screen) : s.printBackspace =
    { s with
      mem := s.mem.store (s.videoMem + 2 * (NUM_COLS * (backCell s.screenX s.screenY).2 +
        (backCell s.screenX s.screenY).1)) 0x20
      screenX := (backCell s.screenX s.screenY).1
      screenY := (backCell s.screenX s.screenY).2
      cursor := ((backCell s.screenX s.screenY).2 * NUM_COLS +
        (backCell s.screenX s.screenY).1) % 65536 } := by
  unfold printBackspace backCell
  by_cases horigin : s.screenX = 0 ∧ s.screenY = 0
  · simp only [if_pos horigin, updateCursor]
    rw [horigin.1, horigin.2]
  · by_cases hx : s.screenX = 0
    · simp only [if_neg horigin, if_pos hx, updateCursor]
    · simp only [if_neg horigin, if_neg hx, updateCursor]

/-! `terminal_write` looks at `key_index` and otherwise works on the screen alone. -/

-- Every 80th byte comes after a new row.
def startRow (x : Nat) (s : Screen) : Screen := if x % 80 = 0 ∧ x ≠ 0 then s.newRow else s

def writeByte (keyIndex x : Nat) (b : UInt8) (s : Screen) : Screen :=
  if b ≠ 0 then (s.startRow x).putc keyIndex b else s.startRow x

def writeLoop (keyIndex : Nat) (l : List (UInt8 × Nat)) (s : Screen) : Screen :=
  l.foldl (fun s p => s.writeByte keyIndex p.2 p.1) s

def write (keyIndex : Nat) (buf : Option CStr) (nbytes : Int) (s : Screen) : Screen :=
  match buf with
  | none => s
  | some src => if nbytes ≤ 0 then s else s.writeLoop keyIndex (copyBuf src nbytes.toNat).zipIdx

@[simp] theorem newRow_videoMem (s : Screen) : s.newRow.videoMem = s.videoMem := by
  unfold newRow
  split <;> simp

@[simp] theorem startRow_videoMem (x : Nat) (s : Screen) :
    (s.startRow x).videoMem = s.videoMem := by
  unfold startRow
  split <;> simp

@[simp] theorem writeByte_videoMem (keyIndex x : Nat) (b : UInt8) (s : Screen) :
    (s.writeByte keyIndex x b).videoMem = s.videoMem := by
  unfold writeByte
  split <;> simp

@[simp] theorem writeLoop_videoMem (keyIndex : Nat) (l : List (UInt8 × Nat)) (s : Screen) :
    (s.writeLoop keyIndex l).videoMem = s.videoMem := by
  unfold writeLoop
  induction l generalizing s with
  | nil => rfl
  | cons p l ih => rw [List.foldl_cons, ih, writeByte_videoMem]

@[simp] theorem write_videoMem (keyIndex : Nat) (buf : Option CStr) (nbytes : Int) (s : Screen) :
    (s.write keyIndex buf nbytes).videoMem = s.videoMem := by
  unfold write
  split
  · rfl
  · split
    · rfl
    · rw [writeLoop_videoMem]

end Screen

/-! ## The displayed terminal -/

/-- The same terminal is displayed, and output goes to the same page. -/
structure SameView (s s' : Term) : Prop where
  display : s'.displayTerminal = s.displayTerminal
  videoMem : s'.screen.videoMem = s.screen.videoMem

theorem SameView.refl (s : Term) : SameView s s := ⟨rfl, rfl⟩

theorem SameView.trans {s t u : Term} (h : SameView s t) (h' : SameView t u) : SameView s u :=
  ⟨h'.display.trans h.display, h'.videoMem.trans h.videoMem⟩

theorem sameView_onScreen {f : Screen → Screen} (hf : ∀ scr, (f scr).videoMem = scr.videoMem)
    (s : Term) : SameView s (s.onScreen f) :=
  ⟨rfl, hf s.screen⟩

theorem sameView_putc (c : UInt8) (s : Term) : SameView s (s.putc c) :=
  sameView_onScreen (Screen.putc_videoMem _ c) s

theorem sameView_putLoop (text : List UInt8) (s : Term) :
    SameView s (text.foldl (fun s c => s.putc c) s) := by
  induction text generalizing s with
  | nil => exact .refl s
  | cons c text ih => exact (sameView_putc c s).trans (ih (s.putc c))

theorem writeByte_eq (s : Term) (x : Nat) (b : UInt8) :
    s.writeByte x b = s.onScreen (Screen.writeByte s.getKeyIndex x b) := by
  have hrow : ∀ scr : Screen, (if x % 80 = 0 ∧ x ≠ 0 ∧ scr.screenY + 1 = NUM_ROWS then
      (scr.setScreenY (scr.screenY + 1)).scrollHandle
      else if x % 80 = 0 ∧ x ≠ 0 then scr.wrapAround else scr) = scr.startRow x := by
    intro scr
    unfold Screen.startRow Screen.newRow
    by_cases hx : x % 80 = 0 ∧ x ≠ 0
    · simp only [hx.1, hx.2, true_and, and_self, if_true, ne_eq, not_false_eq_true]
    · rw [if_neg (fun h => hx ⟨h.1, h.2.1⟩), if_neg hx, if_neg hx]
  simp only [writeByte, hrow]
  rfl

theorem writeLoop_eq (l : List (UInt8 × Nat)) (s : Term) :
    l.foldl (fun s p => s.writeByte p.2 p.1) s =
      s.onScreen (Screen.writeLoop s.getKeyIndex l) := by
  induction l generalizing s with
  | nil => rfl
  | cons p l ih =>
    rw [List.foldl_cons, ih, writeByte_eq]
    rfl

theorem terminalWrite_eq (buf : Option CStr) (nbytes : Int) (s : Term) :
    (s.terminalWrite buf nbytes).2 = s.onScreen (Screen.write s.getKeyIndex buf nbytes) := by
  unfold terminalWrite Screen.write
  split
  · rfl
  · split
    · rfl
    · exact writeLoop_eq _ s

theorem sameView_terminalWrite (buf : Option CStr) (nbytes : Int) (s : Term) :
    SameView s (s.terminalWrite buf nbytes).2 := by
  rw [terminalWrite_eq]
  exact sameView_onScreen (Screen.write_videoMem _ buf nbytes) s

theorem sameView_clearBuffer (s : Term) : SameView s s.clearBuffer := by
  rw [clearBuffer_eq]
  exact ⟨rfl, rfl⟩

theorem sameView_markCleared (s : Term) : SameView s s.markCleared := by
  unfold markCleared
  split
  · exact ⟨rfl, rfl⟩
  · exact sameView_clearBuffer s

theorem sameView_appendKey (b : UInt8) (s : Term) : SameView s (s.appendKey b) := ⟨rfl, rfl⟩

theorem sameView_syncCursor (s : Term) : SameView s s.syncCursor := ⟨rfl, rfl⟩

theorem sameView_onCtrlL (s : Term) : SameView s s.onCtrlL := by
  have hclear : SameView s (s.onScreen Screen.clear) := sameView_onScreen Screen.clear_videoMem s
  have hprompt : ∀ s : Term, SameView s s.showPrompt := by
    intro s
    refine sameView_onScreen (fun scr => ?_) s
    rw [Screen.setScreenY_videoMem, Screen.updateCursor_videoMem, Screen.puts_videoMem,
      Screen.updateCursor_videoMem]
  exact (hclear.trans (sameView_markCleared _)).trans (hprompt _)

theorem sameView_typeInput (s : Term) (input : UInt8) : SameView s (s.typeInput input) := by
  have htyped := (sameView_putc input s).trans (sameView_appendKey input (s.putc input))
  unfold typeInput
  split
  · exact sameView_onCtrlL s
  · split
    · -- the last column: a scroll or a wrap, and the cursor
      refine ⟨htyped.display, ?_⟩
      simp only [typeWrapping, onScreen_screen, Screen.updateCursor_videoMem]
      split <;> exact htyped.videoMem
    · split
      · exact htyped.trans (sameView_syncCursor _)
      · exact .refl s

theorem sameView_onSpace (s : Term) : SameView s s.onSpace :=
  ((sameView_putc 0x20 s).trans (sameView_appendKey 0x20 _)).trans (sameView_syncCursor _)

theorem sameView_onTab (s : Term) : SameView s s.onTab := by
  have htab : s.onTab = s.onSpace.onSpace.onSpace.onSpace := rfl
  rw [htab]
  exact (((sameView_onSpace s).trans (sameView_onSpace _)).trans (sameView_onSpace _)).trans
    (sameView_onSpace _)

theorem sameView_onBack (s : Term) : SameView s s.onBack := by
  simp only [onBack]
  split
  · exact ⟨rfl, Screen.printBackspace_videoMem s.screen⟩
  · exact .refl s

theorem sameView_onEnter (s : Term) : SameView s s.onEnter := by
  have hput := sameView_putc 0x0A (s.storeKey (s.getKeyIndex % 256) 0x0A)
  unfold onEnter
  exact ⟨hput.display, hput.videoMem⟩

theorem sameView_onDefault (rom : Nat → UInt8) (scancode : Nat) (s : Term) :
    SameView s (s.onDefault rom scancode) := by
  unfold onDefault
  split
  · have htrace : SameView s { s with trace := s.trace ++
        [Access.keyTable (tableIndexOf scancode s.shiftHeld s.capslockCheck)] } := ⟨rfl, rfl⟩
    exact htrace.trans (sameView_typeInput _ _)
  · exact .refl s

/-- Only the function keys change the view. -/
theorem sameView_keyboardHandler (rom : Nat → UInt8) (s : Term) {scancode : UInt8}
    (hkey : ∀ t, keyLabel scancode ≠ .f t) : SameView s (s.keyboardHandler rom scancode) := by
  unfold keyboardHandler
  cases hlabel : keyLabel scancode with
  | space => exact sameView_onSpace s
  | tab => exact sameView_onTab s
  | back => exact sameView_onBack s
  | enter => exact sameView_onEnter s
  | other => exact sameView_onDefault rom _ s
  | f t => exact absurd hlabel (hkey t)
  | _ => exact ⟨rfl, rfl⟩

theorem keyboardHandler_display_lt (rom : Nat → UInt8) {s : Term} (scancode : UInt8)
    (h : s.displayTerminal < MAX_TERMINAL_NUM) :
    (s.keyboardHandler rom scancode).displayTerminal < MAX_TERMINAL_NUM := by
  by_cases hkey : ∃ t, keyLabel scancode = .f t
  · rcases hkey with ⟨t, hlabel⟩
    simp only [keyboardHandler, hlabel, onFunctionKey]
    split
    · exact t.isLt
    · exact h
  · rw [(sameView_keyboardHandler rom s fun t ht => hkey ⟨t, ht⟩).display]
    exact h

theorem switchDisplayTerminal_videoMem (term : Nat) (s : Term) :
    (s.switchDisplayTerminal term).screen.videoMem = s.screen.videoMem := by
  simp only [switchDisplayTerminal, Screen.updateCursor_videoMem]

theorem sameView_resume {s : Term} {nbytes : Int} {r : ReadResult × Term}
    (hres : s.terminalReadResume nbytes = some r) : SameView s r.2 := by
  unfold terminalReadResume at hres
  split at hres
  · split at hres
    · rw [← Option.some.inj hres]
      exact ⟨rfl, rfl⟩
    · have hview := sameView_clearBuffer { s with
        enterDown := false
        trace := s.trace ++ (List.range (lineLoop s.displayedRow MAX_BUFF_LENGTH 0).length).map
          (Access.keyBuffer s.displayTerminal) }
      rw [← Option.some.inj hres]
      exact ⟨hview.display, hview.videoMem⟩
  · cases hres

/-! ## Keys and `enter_down`

Apart from ENTER itself no key looks at `enter_down` or changes it. -/

@[simps]
def Term.setEnterDown (b : Bool) (s : Term) : Term := { s with enterDown := b }

theorem clearBuffer_setEnterDown (b : Bool) (s : Term) :
    (s.setEnterDown b).clearBuffer = s.clearBuffer.setEnterDown b := by
  rw [clearBuffer_eq, clearBuffer_eq]
  rfl

theorem markCleared_setEnterDown (b : Bool) (s : Term) :
    (s.setEnterDown b).markCleared = s.markCleared.setEnterDown b := by
  unfold markCleared
  by_cases hkey : s.getKeyIndex = 0
  · rw [if_neg (show ¬(s.setEnterDown b).getKeyIndex ≠ 0 from not_not_intro hkey),
      if_neg (not_not_intro hkey), clearBuffer_setEnterDown]
  · rw [if_pos (show (s.setEnterDown b).getKeyIndex ≠ 0 from hkey), if_pos hkey]
    rfl

theorem typeInput_setEnterDown (b : Bool) (input : UInt8) (s : Term) :
    (s.setEnterDown b).typeInput input = (s.typeInput input).setEnterDown b := by
  have hclear : (s.setEnterDown b).onCtrlL = s.onCtrlL.setEnterDown b := by
    have hmark := markCleared_setEnterDown b (s.onScreen Screen.clear)
    unfold onCtrlL
    rw [show (s.setEnterDown b).onScreen Screen.clear = (s.onScreen Screen.clear).setEnterDown b
      from rfl, hmark]
    rfl
  unfold typeInput
  rw [hclear, apply_ite (setEnterDown b), apply_ite (setEnterDown b), apply_ite (setEnterDown b)]
  rfl

theorem keyboardHandler_setEnterDown (rom : Nat → UInt8) (b : Bool) (s : Term) {scancode : UInt8}
    (hpress : keyLabel scancode ≠ .enter) (hrelease : keyLabel scancode ≠ .enterOff) :
    (s.setEnterDown b).keyboardHandler rom scancode =
      (s.keyboardHandler rom scancode).setEnterDown b := by
  unfold keyboardHandler
  cases hlabel : keyLabel scancode with
  | enter => exact absurd hlabel hpress
  | enterOff => exact absurd hlabel hrelease
  | back =>
    simp only [onBack]
    rw [apply_ite (setEnterDown b)]
    rfl
  | f t =>
    simp only [onFunctionKey]
    rw [apply_ite (setEnterDown b)]
    rfl
  | other =>
    unfold onDefault
    by_cases hcut : scancode.toNat < INPUT_CUTOFF
    · rw [if_pos hcut, if_pos hcut]
      exact typeInput_setEnterDown b _ { s with trace := s.trace ++ [Access.keyTable
        (tableIndexOf scancode.toNat s.shiftHeld s.capslockCheck)] }
    · rw [if_neg hcut, if_neg hcut]
  | _ => rfl

end Kernel391
