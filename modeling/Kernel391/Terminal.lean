import Kernel391.Screen
import Mathlib.Tactic.Simps.Basic

/-!
# Keyboard and terminals (`terminal.c`)

The three rows of `key_buffer` lie one after the other, so the buffer is one byte map in which
subscript `k` of row `t` is offset `128 * t + k`: a subscript of 128 lands in the next row.  The
list `trace` records the subscripts used on `KEY_TABLE` and on the rows; no function reads it.
-/

namespace Kernel391

inductive Access where
  | keyTable (sub : Nat)
  | keyBuffer (row sub : Nat)
deriving DecidableEq

structure Term where
  rShiftCheck : Bool
  lShiftCheck : Bool
  ctrlCheck : Bool
  capslockCheck : Bool
  altCheck : Bool
  enterDown : Bool
  wrapped : Bool
  clearOffset : Nat → Nat
  keyIndex : Nat → Nat
  keyBuffer : Nat → UInt8
  displayTerminal : Nat
  lastScreenX : Nat → Int
  lastScreenY : Nat → Int
  screen : Screen
  trace : List Access

def MAX_TERMINAL_NUM : Nat := 3

def SHIFT_OFFSET : Nat := 52

def TABLE_OFFSET : Nat := 2

def KEY_SIZE : Nat := 104

def INPUT_CUTOFF : Nat := 0x3E

def SHELL_OFFSET : Int := 7

def TERM_MEM : Int := 0xD0000

def PAGE_SIZE_KB : Nat := 4096

def KEY_TABLE : List UInt8 :=
  ['1', '2', '3', '4', '5', '6', '7', '8', '9', '0', '-', '=', ' ', ' ',
    'q', 'w', 'e', 'r', 't', 'y', 'u', 'i', 'o', 'p', '[', ']', ' ', ' ',
    'a', 's', 'd', 'f', 'g', 'h', 'j', 'k', 'l', ';', '\x27', '\x60', ' ', '\x5c',
    'z', 'x', 'c', 'v', 'b', 'n', 'm', ',', '.', '/',
    '!', '@', '#', '$', '%', '^', '&', '*', '(', ')', '_', '+', ' ', ' ',
    'Q', 'W', 'E', 'R', 'T', 'Y', 'U', 'I', 'O', 'P', '\x7b', '\x7d', ' ', ' ',
    'A', 'S', 'D', 'F', 'G', 'H', 'J', 'K', 'L', ':', '\x22', '~', ' ', '|',
    'Z', 'X', 'C', 'V', 'B', 'N', 'M', '<', '>', '?'].map Char.toUInt8

/-- The labels of the `switch` in `keyboard_handler`; `f t` is the key that selects terminal
`t`, and `other` falls to `default`. -/
inductive KeyLabel where
  | capsLock | lShift | lShiftOff | rShift | rShiftOff | space | tab | back
  | ctrl | ctrlOff | alt | altOff | enter | enterOff
  | f (terminal : Fin 3)
  | other
deriving DecidableEq

def keyLabel (scancode : UInt8) : KeyLabel :=
  match scancode with
  | 0x3A => .capsLock
  | 0x2A => .lShift
  | 0xAA => .lShiftOff
  | 0x36 => .rShift
  | 0xB6 => .rShiftOff
  | 0x39 => .space
  | 0x0F => .tab
  | 0x0E => .back
  | 0x1D => .ctrl
  | 0x9D => .ctrlOff
  | 0x38 => .alt
  | 0xB8 => .altOff
  | 0x1C => .enter
  | 0x9C => .enterOff
  | 0x3B => .f 0
  | 0x3C => .f 1
  | 0x3D => .f 2
  | _ => .other

def getTermVidAddr (term : Nat) : Int :=
  if term > 2 then 0xFFFFFFFF else TERM_MEM + PAGE_SIZE_KB * term

namespace Term

/-- `get_key_index()`. -/
def getKeyIndex (s : Term) : Nat := s.keyIndex s.displayTerminal

@[simps]
def onScreen (f : Screen → Screen) (s : Term) : Term := { s with screen := f s.screen }

def putc (c : UInt8) (s : Term) : Term := s.onScreen (Screen.putc s.getKeyIndex c)

-- `update_cursor(get_screen_x(), get_screen_y())`
def syncCursor (s : Term) : Term :=
  s.onScreen fun scr => scr.updateCursor scr.screenX scr.screenY

@[simps]
def setKeyIndex (n : Nat) (s : Term) : Term :=
  { s with keyIndex := fun t => if t = s.displayTerminal then n else s.keyIndex t }

@[simps]
def setClearOffset (n : Nat) (s : Term) : Term :=
  { s with clearOffset := fun t => if t = s.displayTerminal then n else s.clearOffset t }

-- `key_buffer[display_terminal][sub] = b`
@[simps]
def storeKey (sub : Nat) (b : UInt8) (s : Term) : Term :=
  { s with
    keyBuffer := fun j => if j = MAX_BUFF_LENGTH * s.displayTerminal + sub then b else s.keyBuffer j
    trace := s.trace ++ [.keyBuffer s.displayTerminal sub] }

-- The three statements shared by every branch that adds a character: the 32-bit index goes
-- through the 8-bit `temp` before it is used as a subscript.
def appendKey (b : UInt8) (s : Term) : Term :=
  (s.storeKey (s.getKeyIndex % 256) b).setKeyIndex ((s.getKeyIndex + 1) % 2 ^ 32)

def clearBuffer (s : Term) : Term :=
  ((List.range MAX_BUFF_LENGTH).foldl (fun s x => s.storeKey x 0) s).setKeyIndex 0

def onSpace (s : Term) : Term := ((s.putc 0x20).appendKey 0x20).syncCursor

def onTab (s : Term) : Term := (List.range 4).foldl (fun s _ => s.onSpace) s

/-- `print_backspace`: stepping back over a row boundary also resets `wrapped`. -/
def printBackspace (s : Term) : Term :=
  let wrapped := if s.screen.screenX = 0 ∧ s.screen.screenY ≠ 0 then false else s.wrapped
  { s.onScreen Screen.printBackspace with wrapped := wrapped }

-- `key_index - clear_offset` is an unsigned subtraction.
def onBack (s : Term) : Term :=
  let temp := s.getKeyIndex % 256
  if (s.getKeyIndex + 2 ^ 32 - s.clearOffset s.displayTerminal) % 2 ^ 32 ≠ 0 then
    (s.printBackspace.storeKey temp 0).setKeyIndex ((s.getKeyIndex + 2 ^ 32 - 1) % 2 ^ 32)
  else s

def onEnter (s : Term) : Term :=
  let s := ((s.storeKey (s.getKeyIndex % 256) 0x0A).putc 0x0A)
  { (s.setKeyIndex 0).setClearOffset 0 with wrapped := false, enterDown := true }

/-- `switch_display_terminal`. -/
def switchDisplayTerminal (term : Nat) (s : Term) : Term :=
  let cur := s.displayTerminal
  let lastX := fun t => if t = cur then s.screen.screenX else s.lastScreenX t
  let lastY := fun t => if t = cur then s.screen.screenY else s.lastScreenY t
  let video : Int := VIDEO.toNat
  let mem := s.screen.mem.memcpy (getTermVidAddr cur) video PAGE_SIZE_KB
  let mem := mem.memcpy video (getTermVidAddr term) PAGE_SIZE_KB
  let scr := { s.screen with mem := mem, screenX := lastX term, screenY := lastY term }
  { s with
    lastScreenX := lastX, lastScreenY := lastY, displayTerminal := term
    screen := scr.updateCursor (lastX term) (lastY term) }

-- The terminal's part of the F1, F2 and F3 cases; the task switch belongs to the scheduler.
def onFunctionKey (term : Nat) (s : Term) : Term :=
  if s.altCheck ∧ s.displayTerminal ≠ term then s.switchDisplayTerminal term else s

def shiftHeld (s : Term) : Bool := s.lShiftCheck || s.rShiftCheck

end Term

/-- Whether a scancode is in one of the three letter ranges that caps lock affects. -/
def isLetterCode (scancode : Nat) : Bool :=
  (0x10 ≤ scancode && scancode ≤ 0x19) || (0x1E ≤ scancode && scancode ≤ 0x26) ||
    (0x2C ≤ scancode && scancode ≤ 0x32)

/-- The value of `table_index` when `KEY_TABLE` is read, in 32-bit unsigned arithmetic. -/
def tableIndexOf (scancode : Nat) (shift capslock : Bool) : Nat :=
  let index := (scancode + 2 ^ 32 - TABLE_OFFSET) % 2 ^ 32
  let index := if shift then (index + SHIFT_OFFSET) % 2 ^ 32 else index
  if capslock && isLetterCode scancode then
    if shift then (index + 2 ^ 32 - SHIFT_OFFSET) % 2 ^ 32 else (index + SHIFT_OFFSET) % 2 ^ 32
  else index

/-- A read of `KEY_TABLE`; `rom` is whatever the image holds beyond the 104 entries. -/
def keyTableAt (rom : Nat → UInt8) (sub : Nat) : UInt8 := (KEY_TABLE[sub]?).getD (rom sub)

-- "391OS> "
def promptText : List UInt8 := [0x33, 0x39, 0x31, 0x4F, 0x53, 0x3E, 0x20]

namespace Term

-- Ctrl+L keeps what was typed so far but puts it out of reach of the backspace key.
def markCleared (s : Term) : Term :=
  if s.getKeyIndex ≠ 0 then s.setClearOffset (s.getKeyIndex % 256) else s.clearBuffer

def showPrompt (s : Term) : Term := s.onScreen fun scr =>
  (((scr.updateCursor 0 0).puts s.getKeyIndex promptText).updateCursor SHELL_OFFSET 0).setScreenY 0

def onCtrlL (s : Term) : Term := (s.onScreen Screen.clear).markCleared.showPrompt

-- The branch that types into the last column of a line not yet wrapped.
def typeWrapping (input : UInt8) (tempY : Int) (s : Term) : Term :=
  let s := ((s.putc input).appendKey input).onScreen fun scr =>
    if tempY = NUM_ROWS then (scr.setScreenY tempY).scrollHandle else scr.wrapAround
  { s.onScreen (Screen.updateCursor 0 tempY) with wrapped := true }

def typePlain (input : UInt8) (s : Term) : Term := ((s.putc input).appendKey input).syncCursor

-- `temp_x == 80 && !wrapped`, with `temp_x` an 8-bit variable.
def atLineEnd (s : Term) : Bool := (s.screen.screenX + 1) % 256 = 80 && !s.wrapped

-- The `default` case from the point where `input` is known.
def typeInput (input : UInt8) (s : Term) : Term :=
  if s.ctrlCheck && (input = 0x6C || input = 0x4C) then s.onCtrlL
  else if s.atLineEnd then s.typeWrapping input ((s.screen.screenY + 1) % 256)
  else if s.getKeyIndex < MAX_BUFF_LENGTH then s.typePlain input
  else s

def onDefault (rom : Nat → UInt8) (scancode : Nat) (s : Term) : Term :=
  if scancode < INPUT_CUTOFF then
    let tableIndex := tableIndexOf scancode s.shiftHeld s.capslockCheck
    let s := { s with trace := s.trace ++ [Access.keyTable tableIndex] }
    s.typeInput (keyTableAt rom tableIndex)
  else s

/-- `keyboard_handler` on the terminal's own data. -/
def keyboardHandler (rom : Nat → UInt8) (scancode : UInt8) (s : Term) : Term :=
  match keyLabel scancode with
  | .capsLock => { s with capslockCheck := !s.capslockCheck }
  | .lShift => { s with lShiftCheck := true }
  | .lShiftOff => { s with lShiftCheck := false }
  | .rShift => { s with rShiftCheck := true }
  | .rShiftOff => { s with rShiftCheck := false }
  | .space => s.onSpace
  | .tab => s.onTab
  | .back => s.onBack
  | .ctrl => { s with ctrlCheck := true }
  | .ctrlOff => { s with ctrlCheck := false }
  | .alt => { s with altCheck := true }
  | .altOff => { s with altCheck := false }
  | .enter => s.onEnter
  | .enterOff => { s with enterDown := false }
  | .f t => s.onFunctionKey t
  | .other => s.onDefault rom scancode.toNat

/-- `terminal_init`.  It resets `key_index` of the displayed terminal only. -/
def terminalInit (s : Term) : Term :=
  let s := (s.onScreen Screen.clear).clearBuffer
  { s with
    rShiftCheck := false, lShiftCheck := false, ctrlCheck := false, capslockCheck := false
    altCheck := false, enterDown := false, wrapped := false
    clearOffset := fun t => if t < MAX_TERMINAL_NUM then 0 else s.clearOffset t
    keyBuffer := fun j => if j < MAX_BUFF_LENGTH * MAX_TERMINAL_NUM then 0 else s.keyBuffer j
    lastScreenX := fun t => if t < MAX_TERMINAL_NUM then 0 else s.lastScreenX t
    lastScreenY := fun t => if t < MAX_TERMINAL_NUM then 0 else s.lastScreenY t
    screen := s.screen.updateCursor SHELL_OFFSET 0 }

/-! ## Reading and writing -/

/-- `terminal_read` up to the polling loop. -/
def terminalReadStart (s : Term) : Term := { s.syncCursor with enterDown := false }

-- The copy loop over the displayed row, which stops after a newline.
def lineLoop (row : Nat → UInt8) : Nat → Nat → List UInt8
  | 0, _ => []
  | fuel + 1, x => if row x = 0x0A then [row x] else row x :: lineLoop row fuel (x + 1)

def displayedRow (s : Term) (x : Nat) : UInt8 :=
  s.keyBuffer (MAX_BUFF_LENGTH * s.displayTerminal + x)

-- The local `buffer` after the copy loop and the newline fix-up that follows it.
def lineBuffer (copied : List UInt8) (x : Nat) : UInt8 :=
  let last := copied.length
  let index := last - 1
  let buffer := fun i => copied.getD i 0
  if buffer index ≠ 0x0A ∧ last < MAX_BUFF_LENGTH then if x = last then 0x0A else buffer x
  else if buffer index ≠ 0x0A then if x = index then 0x0A else buffer x
  else buffer x

end Term

/-- `strncpy`: the `n` bytes it stores, those of `src` up to a NUL and then NULs. -/
def strncpy (src : Nat → UInt8) : Nat → Nat → List UInt8
  | 0, _ => []
  | n + 1, i => if src i = 0 then List.replicate (n + 1) 0 else src i :: strncpy src n (i + 1)

theorem length_strncpy (src : Nat → UInt8) : ∀ n i, (strncpy src n i).length = n
  | 0, _ => rfl
  | n + 1, i => by
      unfold strncpy
      split
      · rw [List.length_replicate]
      · rw [List.length_cons, length_strncpy src n (i + 1)]

namespace Term

/-- What a completed `terminal_read` hands to its caller: the return value, and the bytes
stored from `buf[0]` on. -/
structure ReadResult where
  ret : Int
  stored : List UInt8
deriving DecidableEq

/-- `terminal_read` from the polling loop on; `none` while `enter_down` is clear. -/
def terminalReadResume (nbytes : Int) (s : Term) : Option (ReadResult × Term) :=
  if s.enterDown then
    let s := { s with enterDown := false }
    if nbytes ≤ 0 then some (⟨-1, []⟩, s)
    else
      let copied := lineLoop s.displayedRow MAX_BUFF_LENGTH 0
      let reads := (List.range copied.length).map (Access.keyBuffer s.displayTerminal)
      let s := { s with trace := s.trace ++ reads }
      some (⟨copied.length, strncpy (lineBuffer copied) MAX_BUFF_LENGTH 0⟩, s.clearBuffer)
  else none

-- One iteration of the output loop of `terminal_write`: every 80th byte first moves to a new row.
def writeByte (s : Term) (x : Nat) (b : UInt8) : Term := s.onScreen fun scr =>
  let scr :=
    if x % 80 = 0 ∧ x ≠ 0 ∧ scr.screenY + 1 = NUM_ROWS then
      (scr.setScreenY (scr.screenY + 1)).scrollHandle
    else if x % 80 = 0 ∧ x ≠ 0 then scr.wrapAround
    else scr
  if b ≠ 0 then scr.putc s.getKeyIndex b else scr

/-- `terminal_write`; `buf = none` is the NULL pointer. -/
def terminalWrite (buf : Option CStr) (nbytes : Int) (s : Term) : Int × Term :=
  match buf with
  | none => (-1, s)
  | some src =>
      if nbytes ≤ 0 then (-1, s)
      else
        let buffer := copyBuf src nbytes.toNat
        ((buffer.countP (· ≠ 0) : Nat),
          buffer.zipIdx.foldl (fun s p => s.writeByte p.2 p.1) s)

end Term

/-- Globals at boot: the loader zeroes them, and the screen holds anything. -/
def bootTerm (screen : Screen) : Term where
  rShiftCheck := false
  lShiftCheck := false
  ctrlCheck := false
  capslockCheck := false
  altCheck := false
  enterDown := false
  wrapped := false
  clearOffset _ := 0
  keyIndex _ := 0
  keyBuffer _ := 0
  displayTerminal := 0
  lastScreenX _ := 0
  lastScreenY _ := 0
  screen := screen
  trace := []

def blankScreen : Screen := ⟨VIDEO.toNat, fun _ => 0, 0, 0, 0⟩

end Kernel391
