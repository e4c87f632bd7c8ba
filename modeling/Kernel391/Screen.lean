import Kernel391.Paging
import Kernel391.CharUtil

/-!
# The text console (`lib.c`)

Video memory is a byte map over addresses, since `video_mem` can be repointed at a terminal's
saved page and the cell arithmetic is not bounds-checked.  The cursor register of the display
is the 16-bit position that `update_cursor` sends to the two VGA ports.
-/

namespace Kernel391

abbrev VideoBytes := Int → UInt8

def NUM_COLS : Int := 80

def NUM_ROWS : Int := 25

def ATTRIB : UInt8 := 0x7

def MAX_BUFF_LENGTH : Nat := 128

structure Screen where
  videoMem : Int
  mem : VideoBytes
  screenX : Int
  screenY : Int
  cursor : Int

def VideoBytes.store (addr : Int) (b : UInt8) (m : VideoBytes) : VideoBytes :=
  fun a => if a = addr then b else m a

/-- Character and attribute of one cell, for video memory at `base`. -/
def VideoBytes.storeCell (base cell : Int) (c : UInt8) (m : VideoBytes) : VideoBytes :=
  (m.store (base + 2 * cell) c).store (base + 2 * cell + 1) ATTRIB

def VideoBytes.memcpy (dest src : Int) (n : Nat) (m : VideoBytes) : VideoBytes :=
  (List.range n).foldl (fun m (i : Nat) => m.store (dest + i) (m (src + i))) m

namespace Screen

def setVideoMem (newMem : Int) (s : Screen) : Screen := { s with videoMem := newMem }

def setScreenX (x : Int) (s : Screen) : Screen := { s with screenX := x }

def setScreenY (y : Int) (s : Screen) : Screen := { s with screenY := y }

def updateCursor (x y : Int) (s : Screen) : Screen :=
  { s with cursor := (y * NUM_COLS + x) % 65536 }

def clear (s : Screen) : Screen :=
  let mem := (List.range (NUM_ROWS * NUM_COLS).toNat).foldl
    (fun m (i : Nat) => m.storeCell s.videoMem i 0x20) s.mem
  updateCursor 0 0 { s with mem := mem, screenX := 0, screenY := 0 }

def wrapAround (s : Screen) : Screen :=
  let s := { s with screenY := s.screenY + 1, screenX := 0 }
  s.updateCursor s.screenX s.screenY

-- One cell of the upward shift: the character of the row below, with a fresh attribute.
def shiftCell (base y x : Int) (m : VideoBytes) : VideoBytes :=
  m.storeCell base (NUM_COLS * y + x) (m (base + 2 * (NUM_COLS * (y + 1) + x)))

def scrollHandle (s : Screen) : Screen :=
  let shifted := (List.range (NUM_ROWS - 1).toNat).foldl (fun m (y : Nat) =>
    (List.range NUM_COLS.toNat).foldl (fun m (x : Nat) => shiftCell s.videoMem y x m) m) s.mem
  let mem := (List.range NUM_COLS.toNat).foldl (fun m (x : Nat) =>
    m.storeCell s.videoMem (NUM_COLS * (NUM_ROWS - 1) + x) 0x20) shifted
  updateCursor 0 (s.screenY - 1)
    { s with mem := mem, screenY := s.screenY - 1, screenX := 0 }

/-- `putc`; `keyIndex` is what `get_key_index()` returns at the time of the call. -/
def putc (keyIndex : Nat) (c : UInt8) (s : Screen) : Screen :=
  if c = 0x0A ∨ c = 0x0D then
    let s := { s with screenY := s.screenY + 1, screenX := 0 }
    if s.screenY = NUM_ROWS then s.scrollHandle else s.updateCursor s.screenX s.screenY
  else if keyIndex < MAX_BUFF_LENGTH then
    let x := Int.tmod (s.screenX + 1) NUM_COLS
    { s with
      mem := s.mem.storeCell s.videoMem (NUM_COLS * s.screenY + s.screenX) c
      screenX := x
      screenY := Int.tmod (s.screenY + Int.tdiv x NUM_COLS) NUM_ROWS }
  else s

/-- `puts`: its own 8-bit column counter overwrites `screen_x` at the end. -/
def puts (keyIndex : Nat) (str : List UInt8) (s : Screen) : Screen :=
  (str.foldl (fun s c => s.putc keyIndex c) s).setScreenX ((s.screenX + str.length) % 256)

/-- `print_backspace`, apart from the `wrapped` flag that one of its branches resets. -/
def printBackspace (s : Screen) : Screen :=
  let s :=
    if s.screenX = 0 ∧ s.screenY = 0 then s
    else if s.screenX = 0 then
      updateCursor (NUM_COLS - 1) (s.screenY - 1)
        { s with screenY := s.screenY - 1, screenX := NUM_COLS - 1 }
    else updateCursor (s.screenX - 1) s.screenY { s with screenX := s.screenX - 1 }
  updateCursor s.screenX s.screenY
    { s with mem := s.mem.store (s.videoMem + 2 * (NUM_COLS * s.screenY + s.screenX)) 0x20 }

end Screen

end Kernel391
