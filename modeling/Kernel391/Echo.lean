import Kernel391.Lib.Run
import Kernel391.LineDiscipline
import Kernel391.TerminalWrite
import Mathlib.Data.List.GetD

/-!
# The echo of a line

What is typed goes to the line buffer and to the screen by separate code, and each kind of key has
its own way of moving the cursor.  `Echoes` says that the two agree: the line stands on the screen
from the prompt on, in reading order, and the cursor after it.
-/

namespace Kernel391

open Term Machine

/-- The cells of the screen in reading order. -/
def Screen.cell (scr : Screen) (i : Int) : UInt8 := scr.mem (scr.videoMem + 2 * i)

/-- Cell `start` of the screen, before it was scrolled up, is where the line begins. -/
structure Echoes (start scrolls : Nat) (line : List UInt8) (scr : Screen) : Prop where
  inScreen : InScreen scr
  visible : 80 * scrolls ≤ start
  cursor : 80 * scr.screenY + scr.screenX = start + line.length - 80 * scrolls
  text : ∀ i < line.length, scr.cell (start + i - 80 * scrolls) = line.getD i 0

/-- How many rows have to be scrolled away for the longest line on the way. -/
def scrollsAfter (start : Nat) : LineEditor → List UInt8 → Nat
  | _, [] => 0
  | e, k :: keys =>
      max ((start + (e.press k).line.length) / 80 - 24) (scrollsAfter start (e.press k) keys)

/-! ## Moving by one cell -/

section

variable {start scrolls : Nat} {line : List UInt8} {scr : Screen}

theorem Echoes.updateCursor (h : Echoes start scrolls line scr) (x y : Int) :
    Echoes start scrolls line (scr.updateCursor x y) :=
  ⟨⟨h.inScreen.left, h.inScreen.right, h.inScreen.top, h.inScreen.bottom⟩, h.visible,
    h.cursor, h.text⟩

-- The character is stored, but the cursor has not moved to the next row yet.
theorem Echoes.putCell_text (h : Echoes start scrolls line scr) (b : UInt8) {i : Nat}
    (hi : i < (line ++ [b]).length) :
    (scr.putCell b).cell (start + i - 80 * scrolls) = (line ++ [b]).getD i 0 := by
  have hcursor := h.cursor
  rw [List.length_append, List.length_singleton] at hi
  show scr.mem.storeCell scr.videoMem (80 * scr.screenY + scr.screenX) b
    (scr.videoMem + 2 * (start + i - 80 * scrolls)) = _
  rw [VideoBytes.storeCell_apply]
  by_cases hlast : i = line.length
  · rw [if_pos (by omega), hlast]
    simp
  · rw [if_neg (by omega), if_neg (by omega), List.getD_append _ _ _ _ (by omega)]
    exact h.text i (by omega)

theorem Echoes.putCell (h : Echoes start scrolls line scr) (hroom : scr.screenX + 1 < NUM_COLS)
    (b : UInt8) : Echoes start scrolls (line ++ [b]) (scr.putCell b) where
  inScreen := h.inScreen.putCell b
  visible := h.visible
  cursor := by
    have hcursor := h.cursor
    rw [putCell_screenX h.inScreen, putCell_screenY h.inScreen, if_pos hroom, List.length_append,
      List.length_singleton]
    omega
  text _ hi := h.putCell_text b hi

-- The row that is scrolled away is not one the line is in.
theorem Echoes.scroll (h : Echoes start scrolls line scr) (hlen : line.length < 127)
    (hend : 80 * scr.screenY + scr.screenX = 1999) (b : UInt8) :
    Echoes start (scrolls + 1) (line ++ [b])
      ((scr.putCell b).setScreenY NUM_ROWS).scrollHandle where
  inScreen := by
    refine ⟨Int.le_refl 0, ?_, ?_, ?_⟩
    · show (0 : Int) < NUM_COLS
      decide
    · show 0 ≤ NUM_ROWS - 1
      decide
    · show NUM_ROWS - 1 < NUM_ROWS
      decide
  visible := by
    have hcursor := h.cursor
    omega
  cursor := by
    have hcursor := h.cursor
    show 80 * (NUM_ROWS - 1) + 0 = _
    rw [List.length_append, List.length_singleton]
    simp only [NUM_ROWS]
    omega
  text i hi := by
    have hcursor := h.cursor
    have hcols : NUM_COLS = 80 := rfl
    have htext := h.putCell_text b hi
    rw [List.length_append, List.length_singleton] at hi
    have hbase : ((scr.putCell b).setScreenY NUM_ROWS).videoMem = scr.videoMem := rfl
    rw [Screen.cell, Screen.scrollHandle_videoMem, hbase, Screen.scrollHandle_mem, hbase,
      VideoBytes.blanked, if_neg (by omega), VideoBytes.shifted, if_pos (by omega),
      if_pos (by omega), ← htext, Screen.cell]
    exact congrArg (scr.putCell b).mem (show _ = scr.videoMem + _ by omega)

/-- In the last column the next cell is in the next row, after a scroll if there is none. -/
theorem Echoes.putCell_newRow (h : Echoes start scrolls line scr)
    (hfull : scr.screenX + 1 = NUM_COLS) (b : UInt8) (hlen : line.length < 127) :
    Echoes start (if scr.screenY + 1 = NUM_ROWS then scrolls + 1 else scrolls) (line ++ [b])
      (scr.putCell b).newRow := by
  have hcols : NUM_COLS = 80 := rfl
  have hrows : NUM_ROWS = 25 := rfl
  have hy := putCell_screenY h.inScreen b
  have hcursor := h.cursor
  by_cases hlast : scr.screenY + 1 = NUM_ROWS
  · rw [if_pos hlast, Screen.newRow, hy, if_pos hlast, hlast]
    exact h.scroll hlen (by omega) b
  · have hrow := (h.inScreen.putCell b).newRow
    rw [if_neg hlast]
    rw [Screen.newRow, hy, if_neg hlast] at hrow ⊢
    refine ⟨hrow, h.visible, ?_, fun i hi => h.putCell_text b hi⟩
    show 80 * ((scr.putCell b).screenY + 1) + 0 = _
    rw [hy, List.length_append, List.length_singleton]
    omega

/-- The cell before the cursor holds the last character of the line. -/
theorem Echoes.printBackspace (h : Echoes start scrolls line scr) (hne : line ≠ []) :
    Echoes start scrolls line.dropLast scr.printBackspace := by
  have hpos : 0 < line.length := List.length_pos_iff.mpr hne
  have hcursor := h.cursor
  have hvisible := h.visible
  rcases h.inScreen with ⟨hleft, hright, htop, hbottom⟩
  have hcols : NUM_COLS = 80 := rfl
  have hback : 80 * (Screen.backCell scr.screenX scr.screenY).2 +
      (Screen.backCell scr.screenX scr.screenY).1 = start + line.length - 80 * scrolls - 1 := by
    unfold Screen.backCell
    rw [if_neg (by omega)]
    split
    · simp only [NUM_COLS]
      omega
    · simp only
      omega
  rw [Screen.printBackspace_eq]
  refine ⟨?_, hvisible, ?_, fun i hi => ?_⟩
  · have hin := h.inScreen.backCell
    exact ⟨hin.left, hin.right, hin.top, hin.bottom⟩
  · simp only [List.length_dropLast]
    omega
  · rw [List.length_dropLast] at hi
    have hkeep : line.dropLast.getD i 0 = line.getD i 0 := by
      rw [List.getD_eq_getElem?_getD, List.getElem?_dropLast, if_pos hi, List.getD_eq_getElem?_getD]
    show scr.mem.store (scr.videoMem + 2 * (80 * (Screen.backCell scr.screenX scr.screenY).2 +
      (Screen.backCell scr.screenX scr.screenY).1)) 0x20
        (scr.videoMem + 2 * (start + i - 80 * scrolls)) = _
    rw [VideoBytes.store_apply, hback, if_neg (by omega), hkeep]
    exact h.text i (by omega)

/-- While the cursor is on the screen, no more rows need to be scrolled away. -/
theorem Echoes.scrolls_max (h : Echoes start scrolls line scr) :
    max scrolls ((start + line.length) / 80 - 24) = scrolls := by
  have hcursor := h.cursor
  rcases h.inScreen with ⟨hleft, hright, htop, hbottom⟩
  simp only [NUM_COLS, NUM_ROWS] at hright hbottom
  omega

theorem Echoes.newRow_max (h : Echoes start scrolls line scr) (hfull : scr.screenX + 1 = NUM_COLS)
    (b : UInt8) : max scrolls ((start + (line ++ [b]).length) / 80 - 24) =
      if scr.screenY + 1 = NUM_ROWS then scrolls + 1 else scrolls := by
  have hcursor := h.cursor
  rcases h.inScreen with ⟨hleft, hright, htop, hbottom⟩
  have hcols : NUM_COLS = 80 := rfl
  have hrows : NUM_ROWS = 25 := rfl
  rw [List.length_append, List.length_singleton]
  by_cases hlast : scr.screenY + 1 = NUM_ROWS
  · rw [if_pos hlast]
    omega
  · rw [if_neg hlast]
    omega

end

/-! ## The keys -/

section

variable {start scrolls : Nat} {line : List UInt8} {s : Term}

theorem term_putc_char (hkey : s.getKeyIndex < MAX_BUFF_LENGTH) {b : UInt8} (hb : ¬IsNewline b) :
    (s.putc b).screen = s.screen.putCell b :=
  putc_char hkey hb

theorem Echoes.onSpace (h : Echoes start scrolls line s.screen)
    (hkey : s.getKeyIndex < MAX_BUFF_LENGTH) (hroom : s.screen.screenX + 1 < NUM_COLS) :
    Echoes start scrolls (line ++ [0x20]) s.onSpace.screen := by
  have hput := h.putCell hroom 0x20
  rw [← term_putc_char hkey (by decide)] at hput
  exact hput.updateCursor _ _

theorem onSpace_screenX (h : InScreen s.screen) (hkey : s.getKeyIndex < MAX_BUFF_LENGTH)
    (hroom : s.screen.screenX + 1 < NUM_COLS) :
    s.onSpace.screen.screenX = s.screen.screenX + 1 := by
  show (s.putc 0x20).screen.screenX = _
  rw [term_putc_char hkey (by decide), putCell_screenX h, if_pos hroom]

theorem Echoes.onTab (h : Echoes start scrolls line s.screen)
    (hkey : s.getKeyIndex + 3 < MAX_BUFF_LENGTH) (hroom : s.screen.screenX + 4 < NUM_COLS) :
    Echoes start scrolls (line ++ List.replicate 4 0x20) s.onTab.screen := by
  have htab : s.onTab = s.onSpace.onSpace.onSpace.onSpace := rfl
  have hbuf : MAX_BUFF_LENGTH = 128 := rfl
  have hk₁ := getKeyIndex_onSpace s
  have hk₂ := getKeyIndex_onSpace s.onSpace
  have hk₃ := getKeyIndex_onSpace s.onSpace.onSpace
  have h₁ := h.onSpace (by omega) (by omega)
  have hx₁ := onSpace_screenX h.inScreen (by omega) (by omega)
  have h₂ := h₁.onSpace (by omega) (by omega)
  have hx₂ := onSpace_screenX h₁.inScreen (by omega) (by omega)
  have h₃ := h₂.onSpace (by omega) (by omega)
  have hx₃ := onSpace_screenX h₂.inScreen (by omega) (by omega)
  have h₄ := h₃.onSpace (by omega) (by omega)
  rw [htab]
  simpa [List.replicate] using h₄

theorem Echoes.typeInput (h : Echoes start scrolls line s.screen) (hlen : line.length < 127)
    (hkey : s.getKeyIndex < MAX_BUFF_LENGTH) {b : UInt8} (hb : ¬IsNewline b)
    (hctrl : ¬(s.ctrlCheck = true ∧ (b = 0x6C ∨ b = 0x4C)))
    (hwrap : s.screen.screenX + 1 < NUM_COLS ∨ s.wrapped = false) :
    Echoes start (max scrolls ((start + (line ++ [b]).length) / 80 - 24)) (line ++ [b])
      (s.typeInput b).screen := by
  have hleft := h.inScreen.left
  have hright := h.inScreen.right
  have hbottom := h.inScreen.bottom
  have htop := h.inScreen.top
  have hcols : NUM_COLS = 80 := rfl
  have hrows : NUM_ROWS = 25 := rfl
  unfold Term.typeInput
  rw [if_neg (by simpa using hctrl)]
  by_cases hend : s.atLineEnd = true
  · have hfull : s.screen.screenX + 1 = NUM_COLS := by
      have hcol := (Bool.and_eq_true_iff.mp hend).1
      rw [decide_eq_true_eq] at hcol
      omega
    have hrow := h.putCell_newRow hfull b hlen
    have hbreak : (if (s.screen.screenY + 1) % 256 = NUM_ROWS then
        ((s.screen.putCell b).setScreenY ((s.screen.screenY + 1) % 256)).scrollHandle
        else (s.screen.putCell b).wrapAround) = (s.screen.putCell b).newRow := by
      rw [Screen.newRow, putCell_screenY h.inScreen,
        show (s.screen.screenY + 1) % 256 = s.screen.screenY + 1 by omega]
    rw [if_pos hend, h.newRow_max hfull b]
    have hscreen : (s.typeWrapping b ((s.screen.screenY + 1) % 256)).screen =
        (s.screen.putCell b).newRow.updateCursor 0 ((s.screen.screenY + 1) % 256) := by
      rw [← hbreak, ← term_putc_char hkey hb]
      rfl
    rw [hscreen]
    exact hrow.updateCursor _ _
  · have hroom : s.screen.screenX + 1 < NUM_COLS := by
      rcases hwrap with hroom | hwrapped
      · exact hroom
      · by_contra hfull
        apply hend
        rw [atLineEnd, hwrapped]
        simp only [Bool.not_false, Bool.and_true, decide_eq_true_eq]
        omega
    have hput := h.putCell hroom b
    rw [if_neg hend, if_pos hkey, hput.scrolls_max]
    rw [← term_putc_char hkey hb] at hput
    exact hput.updateCursor _ _

end

/-- Only printable keys move on to the next row, and only while `wrapped` is clear. -/
structure EchoFits (s : Term) (scancode : UInt8) : Prop where
  space : keyLabel scancode = .space → s.screen.screenX + 1 < NUM_COLS
  tab : keyLabel scancode = .tab → s.screen.screenX + 4 < NUM_COLS
  typed : keyLabel scancode = .other → scancode.toNat < INPUT_CUTOFF →
    s.screen.screenX + 1 < NUM_COLS ∨ s.wrapped = false

instance (s : Term) (scancode : UInt8) : Decidable (EchoFits s scancode) :=
  decidable_of_iff
    ((keyLabel scancode = .space → s.screen.screenX + 1 < NUM_COLS) ∧
      (keyLabel scancode = .tab → s.screen.screenX + 4 < NUM_COLS) ∧
      (keyLabel scancode = .other → scancode.toNat < INPUT_CUTOFF →
        s.screen.screenX + 1 < NUM_COLS ∨ s.wrapped = false))
    ⟨fun h => ⟨h.1, h.2.1, h.2.2⟩, fun h => ⟨h.space, h.tab, h.typed⟩⟩

instance (n : Nat) (s : Term) : Decidable (CtrlL n s) := inferInstanceAs (Decidable (_ ∧ _))

/-- The line editor's line is the one on the screen, and all of it can be erased. -/
structure EchoSim (start scrolls : Nat) (e : LineEditor) (s : Term) : Prop where
  editor : EditorSim (s.setEnterDown false) e
  floor : e.floor = 0
  echoes : Echoes start scrolls e.line s.screen

section

variable {start scrolls : Nat} {e : LineEditor} {s : Term}

theorem EchoSim.keyIndex (h : EchoSim start scrolls e s) : s.getKeyIndex = e.line.length :=
  h.editor.length.symm

theorem usLayout_echo : ∀ k ∈ usLayout, (k.plain = 'l' → k.code = 0x26) ∧
    ∀ shift caps, ¬IsNewline (k.char shift caps) := by
  decide +kernel

theorem EchoSim.onBack_echoes (h : EchoSim start scrolls e s) :
    (e.apply .erase).floor = 0 ∧ Echoes start scrolls (e.apply .erase).line s.onBack.screen := by
  have hkey := h.keyIndex
  have hbound := h.editor.bound
  have hfloor : s.clearOffset s.displayTerminal = 0 := h.editor.floor.trans h.floor
  simp only [LineEditor.apply, onBack, hfloor, h.floor]
  by_cases hline : 0 < e.line.length
  · rw [if_pos hline, if_pos (by omega)]
    exact ⟨rfl, h.echoes.printBackspace (List.length_pos_iff.mp hline)⟩
  · rw [if_neg hline, if_neg (by omega)]
    exact ⟨h.floor, h.echoes⟩

theorem EchoSim.typed_echoes (rom : Nat → UInt8) (h : EchoSim start scrolls e s) {k : KeyCap}
    (hk : k ∈ usLayout) (hplain : ¬CtrlL k.code s) (hfit : (e.apply (.char k)).line.length ≤ 127)
    (hwrap : s.screen.screenX + 1 < NUM_COLS ∨ s.wrapped = false) :
    (e.apply (.char k)).floor = 0 ∧
      Echoes start (max scrolls ((start + (e.apply (.char k)).line.length) / 80 - 24))
        (e.apply (.char k)).line (s.onDefault rom k.code).screen := by
  have hkey := h.keyIndex
  have hbuf : MAX_BUFF_LENGTH = 128 := rfl
  have hctrl : s.ctrlCheck = e.ctrl := h.editor.ctrl
  rcases usLayout_echo k hk with ⟨hl, hline⟩
  have happly : e.apply (.char k) = { e with line := e.line ++ [k.char e.shift e.caps] } := by
    apply if_neg
    intro hclear
    rw [Bool.and_eq_true, decide_eq_true_eq] at hclear
    exact hplain ⟨hctrl.trans hclear.1, hl hclear.2⟩
  have hchar : k.char s.shiftHeld s.capslockCheck = k.char e.shift e.caps :=
    congrArg₂ k.char h.editor.shift h.editor.caps
  have htext : (e.apply (.char k)).line = e.line ++ [k.char e.shift e.caps] := by rw [happly]
  have hfloor : (e.apply (.char k)).floor = 0 := by
    rw [happly]
    exact h.floor
  have hnot : ¬(s.ctrlCheck = true ∧
      (k.char e.shift e.caps = 0x6C ∨ k.char e.shift e.caps = 0x4C)) := by
    intro hclear
    have hspec := ((usLayout_spec k hk).2.2 e.shift e.caps).2.2.1
    exact hplain ⟨hclear.1, hl (hspec.mp hclear.2)⟩
  rw [htext] at hfit ⊢
  rw [onDefault_usLayout rom hk, hchar]
  rw [List.length_append, List.length_singleton] at hfit
  have hroom : s.getKeyIndex < MAX_BUFF_LENGTH := by omega
  have htyped := @Echoes.typeInput start scrolls e.line { s with trace := s.trace ++
    [.keyTable (tableIndexOf k.code s.shiftHeld s.capslockCheck)] } h.echoes hfit hroom
    (k.char e.shift e.caps) (hline _ _) hnot hwrap
  exact ⟨hfloor, htyped⟩

/-- What a key does to the screen. -/
theorem EchoSim.press_echoes (rom : Nat → UInt8) (h : EchoSim start scrolls e s) {scancode : UInt8}
    (hcode : IsEditCode scancode.toNat) (hplain : ¬CtrlL scancode.toNat s)
    (hfit : (e.press scancode).line.length ≤ 127) (hecho : EchoFits s scancode) :
    (e.press scancode).floor = 0 ∧
      Echoes start (max scrolls ((start + (e.press scancode).line.length) / 80 - 24))
        (e.press scancode).line (s.keyboardHandler rom scancode).screen := by
  have hkey := h.keyIndex
  have hbuf : MAX_BUFF_LENGTH = 128 := rfl
  have hsame := h.echoes.scrolls_max
  unfold keyboardHandler
  rcases e.press_eq hcode with ⟨key, hpressed, hpress⟩ |
    ⟨hlabel, ⟨hcut, hpress⟩ | ⟨k, hk, hkc, hpress⟩⟩
  · rw [hpress] at hfit ⊢
    cases hlabel : keyLabel scancode with
    | other | enter | enterOff | f => rw [hlabel] at hpressed; cases hpressed
    | space =>
      rw [hlabel] at hpressed
      cases hpressed
      have hline : (e.apply (.blanks 1)).line = e.line ++ [0x20] := rfl
      rw [hline, List.length_append, List.length_singleton] at hfit
      have hspace := h.echoes.onSpace (by omega) (hecho.space hlabel)
      rw [hline, hspace.scrolls_max]
      exact ⟨h.floor, hspace⟩
    | tab =>
      rw [hlabel] at hpressed
      cases hpressed
      have hline : (e.apply (.blanks 4)).line = e.line ++ List.replicate 4 0x20 := rfl
      rw [hline, List.length_append, List.length_replicate] at hfit
      have htab := h.echoes.onTab (by omega) (hecho.tab hlabel)
      rw [hline, htab.scrolls_max]
      exact ⟨h.floor, htab⟩
    | back =>
      rw [hlabel] at hpressed
      cases hpressed
      have hback := h.onBack_echoes
      rw [hback.2.scrolls_max]
      exact hback
    | _ =>
      -- the modifier keys show nothing
      rw [hlabel] at hpressed
      cases hpressed
      have hshown := h.echoes
      rw [← hsame] at hshown
      exact ⟨h.floor, hshown⟩
  · rw [hpress, hlabel, hsame]
    simp only [onDefault, if_neg (Nat.not_lt.mpr hcut)]
    exact ⟨h.floor, h.echoes⟩
  · rw [hpress] at hfit ⊢
    have hcut : k.code < INPUT_CUTOFF := (usLayout_spec k hk).1
    have hwrap := hecho.typed hlabel (hkc ▸ hcut)
    rw [← hkc] at hplain
    rw [hlabel, ← hkc]
    exact h.typed_echoes rom hk hplain hfit hwrap

theorem EchoSim.press (rom : Nat → UInt8) (h : EchoSim start scrolls e s) {scancode : UInt8}
    (hcode : IsEditCode scancode.toNat) (hplain : ¬CtrlL scancode.toNat s)
    (hfit : (e.press scancode).line.length ≤ 127) (hecho : EchoFits s scancode) :
    EchoSim start (max scrolls ((start + (e.press scancode).line.length) / 80 - 24))
      (e.press scancode) (s.keyboardHandler rom scancode) := by
  have hshown := h.press_echoes rom hcode hplain hfit hecho
  have hsim := h.editor.press rom hcode hfit
  have hlabel : keyLabel scancode ≠ .enter ∧ keyLabel scancode ≠ .enterOff := by
    rcases e.press_eq hcode with ⟨key, hkey, -⟩ | ⟨hother, -⟩
    · constructor <;> intro hlabel <;> rw [hlabel] at hkey <;> cases hkey
    · rw [hother]
      decide
  rw [keyboardHandler_setEnterDown rom false s hlabel.1 hlabel.2] at hsim
  exact ⟨hsim, hshown.1, hshown.2⟩

theorem EchoSim.type (rom : Nat → UInt8) (h : EchoSim start scrolls e s) {keys : List UInt8}
    (hcodes : ∀ k ∈ keys, IsEditCode k.toNat)
    (hplain : Along (fun s k => some (s.keyboardHandler rom k)) (fun s k => ¬CtrlL k.toNat s) s keys)
    (hfit : e.Fits 127 keys)
    (hecho : Along (fun s k => some (s.keyboardHandler rom k)) EchoFits s keys) :
    EchoSim start (max scrolls (scrollsAfter start e keys)) (e.type keys) (typeKeys rom s keys) := by
  induction keys generalizing scrolls e s with
  | nil =>
    rw [scrollsAfter, Nat.max_zero]
    exact h
  | cons k keys ih =>
    have hstep := h.press rom (hcodes k List.mem_cons_self) hplain.1 hfit.1 hecho.1
    rw [scrollsAfter, ← Nat.max_assoc]
    exact ih hstep (fun k' hk' => hcodes k' (List.mem_cons_of_mem k hk')) (hplain.2 _ rfl) hfit.2
      (hecho.2 _ rfl)

end

/-- From an empty line at any place of the screen, the keys of a line up to 127 characters long leave
the line on the screen and the cursor after it. -/
theorem echo_matches_line (rom : Nat → UInt8) (s : Term) (hscreen : InScreen s.screen)
    (hempty : s.getKeyIndex = 0) (hoff : s.clearOffset s.displayTerminal = 0) {keys : List UInt8}
    (hcodes : ∀ k ∈ keys, IsEditCode k.toNat)
    (hplain : Along (fun s k => some (s.keyboardHandler rom k)) (fun s k => ¬CtrlL k.toNat s) s keys)
    (hfit : (LineEditor.start s).Fits 127 keys)
    (hecho : Along (fun s k => some (s.keyboardHandler rom k)) EchoFits s keys) {start : Nat}
    (hstart : start = 80 * s.screen.screenY + s.screen.screenX) :
    Echoes start (scrollsAfter start (LineEditor.start s) keys)
      ((LineEditor.start s).type keys).line (typeKeys rom s keys).screen := by
  have hsim : EchoSim start 0 (LineEditor.start s) s := by
    refine ⟨editorSim_start rfl hempty hoff, rfl, hscreen, Nat.zero_le _, ?_, fun i hi => ?_⟩
    · show 80 * s.screen.screenY + s.screen.screenX = start + (0 : Nat) - 80 * (0 : Nat)
      omega
    · exact absurd hi (Nat.not_lt_zero i)
  have htyped := (hsim.type rom hcodes hplain hfit hecho).echoes
  rw [Nat.zero_max] at htyped
  exact htyped

-- Three letters over the end of the first row, two of them taken back, and a fourth.
theorem echo_matches_line_wrapped :
    Echoes 78 0 [0x61, 0x62]
      (typeKeys (fun _ => 0) (letterTerm 78) [0x1E, 0x1E, 0x1E, 0x0E, 0x0E, 0x30]).screen := by
  have hcodes : ∀ k ∈ ([0x1E, 0x1E, 0x1E, 0x0E, 0x0E, 0x30] : List UInt8), IsEditCode k.toNat := by
    decide +kernel
  exact echo_matches_line (fun _ => 0) (letterTerm 78) ⟨by decide, by decide, by decide, by decide⟩
    rfl rfl hcodes (by decide +kernel) (by decide +kernel) (by decide +kernel) rfl

-- SPACE in the last column leaves the cursor in its row.
theorem echo_misses_line :
    InScreen (letterTerm 79).screen ∧ (letterTerm 79).getKeyIndex = 0 ∧
      (LineEditor.start (letterTerm 79)).Fits 127 [0x39] ∧
      ¬Echoes 79 (scrollsAfter 79 (LineEditor.start (letterTerm 79)) [0x39])
        ((LineEditor.start (letterTerm 79)).type [0x39]).line
        (typeKeys (fun _ => 0) (letterTerm 79) [0x39]).screen := by
  refine ⟨⟨by decide, by decide, by decide, by decide⟩, rfl, by decide, fun h => ?_⟩
  have hcursor := h.cursor
  revert hcursor
  decide

end Kernel391
