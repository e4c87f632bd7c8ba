import Kernel391.Lib.Run
import Kernel391.Printf
import Kernel391.TerminalWrite

/-!
# The cursor stays on the screen

Cells are addressed by `screen_x` and `screen_y` without a bounds check, so that writes stay in the
80 × 25 cells is a matter of where the cursor is.  Two moves can take it off the screen: `puts` ends
by setting the column from a counter of its own, and typing in the last column breaks the line once
more after whatever `putc` did.
-/

namespace Kernel391

open Term Machine

/-- The cursor ends on the screen, and only cells of the screen are written. -/
structure Stays (scr scr' : Screen) : Prop where
  inScreen : InScreen scr'
  base : scr'.videoMem = scr.videoMem
  outside : ∀ a, a < scr.videoMem ∨ scr.videoMem + 2 * (80 * 25) ≤ a → scr'.mem a = scr.mem a

section

variable {scr scr' : Screen}

theorem Stays.refl (h : InScreen scr) : Stays scr scr := ⟨h, rfl, fun _ _ => rfl⟩

theorem Stays.trans {scr'' : Screen} (h : Stays scr scr') (h' : Stays scr' scr'') :
    Stays scr scr'' where
  inScreen := h'.inScreen
  base := h'.base.trans h.base
  outside a ha := by
    rw [h'.outside a (by rw [h.base]; exact ha), h.outside a ha]

/-! Moving the cursor writes nothing. -/

theorem Stays.updateCursor (h : Stays scr scr') (x y : Int) : Stays scr (scr'.updateCursor x y) :=
  ⟨⟨h.inScreen.left, h.inScreen.right, h.inScreen.top, h.inScreen.bottom⟩, h.base, h.outside⟩

theorem Stays.setScreenX (h : Stays scr scr') {x : Int} (hleft : 0 ≤ x) (hright : x < NUM_COLS) :
    Stays scr (scr'.setScreenX x) :=
  ⟨⟨hleft, hright, h.inScreen.top, h.inScreen.bottom⟩, h.base, h.outside⟩

theorem Stays.setScreenY (h : Stays scr scr') {y : Int} (htop : 0 ≤ y) (hbottom : y < NUM_ROWS) :
    Stays scr (scr'.setScreenY y) :=
  ⟨⟨h.inScreen.left, h.inScreen.right, htop, hbottom⟩, h.base, h.outside⟩

theorem Stays.wrapAround (h : Stays scr scr') (hrow : scr'.screenY + 1 < NUM_ROWS) :
    Stays scr scr'.wrapAround where
  inScreen := by
    have htop := h.inScreen.top
    refine ⟨Int.le_refl 0, ?_, ?_, hrow⟩
    · show (0 : Int) < NUM_COLS
      decide
    · show 0 ≤ scr'.screenY + 1
      omega
  base := h.base
  outside := h.outside

theorem InScreen.cell_lt (h : InScreen scr) :
    0 ≤ NUM_COLS * scr.screenY + scr.screenX ∧ NUM_COLS * scr.screenY + scr.screenX < 80 * 25 := by
  rcases h with ⟨hleft, hright, htop, hbottom⟩
  simp only [NUM_COLS, NUM_ROWS] at hright hbottom ⊢
  omega

/-! ## The functions of `lib.c` -/

theorem clear_stays (scr : Screen) : Stays scr scr.clear where
  inScreen := by
    refine ⟨?_, ?_, ?_, ?_⟩ <;> simp only [Screen.clear, Screen.updateCursor] <;> decide
  base := Screen.clear_videoMem scr
  outside a ha := by
    rw [Screen.clear_mem, VideoBytes.blanked, if_neg (by omega)]

theorem scrollHandle_outside (scr : Screen) {a : Int}
    (ha : a < scr.videoMem ∨ scr.videoMem + 2 * (80 * 25) ≤ a) :
    scr.scrollHandle.mem a = scr.mem a := by
  rw [Screen.scrollHandle_mem, VideoBytes.blanked, if_neg (by omega), VideoBytes.shifted,
    if_neg (by omega)]

/-- The row just below the last one is where `scroll_handle` is called. -/
theorem scroll_stays (scr : Screen) : Stays scr (scr.setScreenY NUM_ROWS).scrollHandle where
  inScreen := by
    refine ⟨?_, ?_, ?_, ?_⟩
    · show (0 : Int) ≤ 0
      decide
    · show (0 : Int) < NUM_COLS
      decide
    · show 0 ≤ NUM_ROWS - 1
      decide
    · show NUM_ROWS - 1 < NUM_ROWS
      decide
  base := rfl
  outside _ ha := scrollHandle_outside (scr.setScreenY NUM_ROWS) ha

theorem newRow_stays (h : InScreen scr) : Stays scr scr.newRow where
  inScreen := h.newRow
  base := Screen.newRow_videoMem scr
  outside a ha := by
    unfold Screen.newRow
    split
    · exact scrollHandle_outside (scr.setScreenY (scr.screenY + 1)) ha
    · rfl

theorem putCell_stays (h : InScreen scr) (c : UInt8) : Stays scr (scr.putCell c) where
  inScreen := h.putCell c
  base := rfl
  outside a ha := by
    have hcell := h.cell_lt
    show scr.mem.storeCell scr.videoMem (NUM_COLS * scr.screenY + scr.screenX) c a = scr.mem a
    rw [VideoBytes.storeCell_apply, if_neg (by omega), if_neg (by omega)]

theorem putc_stays (h : InScreen scr) (keyIndex : Nat) (c : UInt8) :
    Stays scr (scr.putc keyIndex c) := by
  rw [Screen.putc_eq]
  split
  · exact newRow_stays h
  · split
    · exact putCell_stays h c
    · exact .refl h

/-- The column `puts` ends in is a column of the screen. -/
def PutsFits (scr : Screen) (str : List UInt8) : Prop :=
  (scr.screenX + str.length) % 256 < NUM_COLS

instance (scr : Screen) (str : List UInt8) : Decidable (PutsFits scr str) :=
  inferInstanceAs (Decidable (_ < _))

theorem putLoop_stays (h : InScreen scr) (keyIndex : Nat) (str : List UInt8) :
    Stays scr (str.foldl (fun s c => s.putc keyIndex c) scr) := by
  induction str generalizing scr with
  | nil => exact .refl h
  | cons c str ih =>
    have hput := putc_stays h keyIndex c
    exact hput.trans (ih hput.inScreen)

theorem puts_stays (h : InScreen scr) (keyIndex : Nat) {str : List UInt8}
    (hfits : PutsFits scr str) : Stays scr (scr.puts keyIndex str) := by
  have hloop := putLoop_stays h keyIndex str
  exact hloop.setScreenX (Int.emod_nonneg _ (by decide)) hfits

theorem write_stays (h : InScreen scr) (keyIndex : Nat) (buf : Option CStr) (nbytes : Int) :
    Stays scr (scr.write keyIndex buf nbytes) := by
  have hrow : ∀ {scr}, InScreen scr → ∀ x, Stays scr (scr.startRow x) := by
    intro scr h x
    unfold Screen.startRow
    split
    · exact newRow_stays h
    · exact .refl h
  have hbyte : ∀ {scr}, InScreen scr → ∀ x b, Stays scr (scr.writeByte keyIndex x b) := by
    intro scr h x b
    unfold Screen.writeByte
    split
    · exact (hrow h x).trans (putc_stays (hrow h x).inScreen keyIndex b)
    · exact hrow h x
  have hloop : ∀ l {scr}, InScreen scr → Stays scr (scr.writeLoop keyIndex l) := by
    intro l
    induction l with
    | nil => exact fun h => .refl h
    | cons p l ih => exact fun h => (hbyte h p.2 p.1).trans (ih (hbyte h p.2 p.1).inScreen)
  unfold Screen.write
  split
  · exact .refl h
  · split
    · exact .refl h
    · exact hloop _ h

theorem printBackspace_stays (h : InScreen scr) : Stays scr scr.printBackspace := by
  have hback := h.backCell
  have hcell := hback.cell_lt
  rw [Screen.printBackspace_eq]
  refine ⟨⟨hback.left, hback.right, hback.top, hback.bottom⟩, rfl, fun a ha => ?_⟩
  simp only at hcell ⊢
  rw [VideoBytes.store_apply, if_neg (by omega)]

end

/-! ## The keyboard -/

section

variable {s : Term}

theorem term_putc_stays (h : InScreen s.screen) (c : UInt8) :
    Stays s.screen (s.putc c).screen :=
  putc_stays h s.getKeyIndex c

theorem syncCursor_stays {scr : Screen} (h : Stays scr s.screen) :
    Stays scr s.syncCursor.screen :=
  h.updateCursor s.screen.screenX s.screen.screenY

theorem onSpace_stays (h : InScreen s.screen) : Stays s.screen s.onSpace.screen :=
  @syncCursor_stays ((s.putc 0x20).appendKey 0x20) s.screen (term_putc_stays h 0x20)

theorem onTab_stays (h : InScreen s.screen) : Stays s.screen s.onTab.screen := by
  have htab : s.onTab = s.onSpace.onSpace.onSpace.onSpace := rfl
  have h₁ := onSpace_stays h
  have h₂ := h₁.trans (onSpace_stays h₁.inScreen)
  have h₃ := h₂.trans (onSpace_stays h₂.inScreen)
  rw [htab]
  exact h₃.trans (onSpace_stays h₃.inScreen)

theorem onBack_stays (h : InScreen s.screen) : Stays s.screen s.onBack.screen := by
  simp only [onBack]
  split
  · exact printBackspace_stays h
  · exact .refl h

/-- Ctrl+L: the prompt always fits. -/
theorem onCtrlL_stays (s : Term) : Stays s.screen s.onCtrlL.screen := by
  have hclear := clear_stays s.screen
  have hmark : ∀ s : Term, s.markCleared.screen = s.screen := by
    intro s
    unfold markCleared
    split
    · rfl
    · rw [clearBuffer_eq]
  have hcolumn : (s.screen.clear.updateCursor 0 0).screenX = 0 := by
    simp only [Screen.clear, Screen.updateCursor]
  have hfits : PutsFits (s.screen.clear.updateCursor 0 0) promptText := by
    rw [PutsFits, hcolumn]
    decide
  have hmoved := hclear.updateCursor 0 0
  have hprompt := hmoved.trans
    (puts_stays hmoved.inScreen (s.onScreen Screen.clear).markCleared.getKeyIndex hfits)
  rw [onCtrlL, showPrompt, onScreen_screen, hmark, onScreen_screen]
  exact (hprompt.updateCursor SHELL_OFFSET 0).setScreenY (Int.le_refl 0) (by decide)

/-- In the last column a newline byte would break the line twice, which is one time too many from
the last row but one. -/
def WrapFits (input : UInt8) (s : Term) : Prop :=
  ¬(s.atLineEnd ∧ s.screen.screenY + 2 = NUM_ROWS ∧ IsNewline input)

instance (input : UInt8) (s : Term) : Decidable (WrapFits input s) :=
  inferInstanceAs (Decidable ¬(_ ∧ _ ∧ _))

theorem putc_screenY (h : InScreen s.screen) {c : UInt8} (hc : ¬IsNewline c) :
    (s.putc c).screen.screenY = s.screen.screenY := by
  show (s.screen.putc s.getKeyIndex c).screenY = _
  rw [Screen.putc_eq, if_neg (show ¬(c = 0x0A ∨ c = 0x0D) from hc)]
  split
  · exact putCell_screenY h c
  · rfl

theorem typeWrapping_stays (h : InScreen s.screen) {input : UInt8} (hend : s.atLineEnd)
    (hfits : WrapFits input s) :
    Stays s.screen (s.typeWrapping input ((s.screen.screenY + 1) % 256)).screen := by
  have hrows : NUM_ROWS = 25 := rfl
  have htop := h.top
  have hbottom := h.bottom
  have hput := term_putc_stays h input
  rw [show (s.screen.screenY + 1) % 256 = s.screen.screenY + 1 by omega]
  unfold typeWrapping
  simp only [onScreen_screen]
  split
  · next hlast =>
    have hscroll := hput.trans (scroll_stays (s.putc input).screen)
    rw [hlast]
    exact hscroll.updateCursor 0 NUM_ROWS
  · next hmore =>
    -- the row `putc` left the cursor in is not the last one
    have hrow : (s.putc input).screen.screenY + 1 < NUM_ROWS := by
      by_cases hline : IsNewline input
      · have hy : (s.putc input).screen.screenY = s.screen.screenY + 1 := by
          show (s.screen.putc s.getKeyIndex input).screenY = _
          rw [putc_newline hline, Screen.newRow_screenY, if_neg hmore]
        have hnot : s.screen.screenY + 2 ≠ NUM_ROWS := fun hrow => hfits ⟨hend, hrow, hline⟩
        omega
      · rw [putc_screenY h hline]
        omega
    exact (hput.wrapAround hrow).updateCursor 0 _

theorem typeInput_stays (h : InScreen s.screen) {input : UInt8} (hfits : WrapFits input s) :
    Stays s.screen (s.typeInput input).screen := by
  have hput := term_putc_stays h input
  unfold typeInput
  split
  · exact onCtrlL_stays s
  · split
    · exact typeWrapping_stays h ‹_› hfits
    · split
      · exact @syncCursor_stays ((s.putc input).appendKey input) s.screen hput
      · exact .refl h

/-- The byte a key stands for, when it falls to the `default` case below the cutoff. -/
def typedByte (rom : Nat → UInt8) (scancode : UInt8) (s : Term) : UInt8 :=
  keyTableAt rom (tableIndexOf scancode.toNat s.shiftHeld s.capslockCheck)

/-- No newline byte is typed, from outside of `KEY_TABLE`, where it would take the cursor off the
screen. -/
def KeyFits (rom : Nat → UInt8) (scancode : UInt8) (s : Term) : Prop :=
  keyLabel scancode = .other → scancode.toNat < INPUT_CUTOFF →
    WrapFits (typedByte rom scancode s) s

instance (rom : Nat → UInt8) (scancode : UInt8) (s : Term) : Decidable (KeyFits rom scancode s) :=
  inferInstanceAs (Decidable (_ → _ → _))

theorem keyboardHandler_stays (h : InScreen s.screen) (rom : Nat → UInt8) {scancode : UInt8}
    (hkey : ∀ t, keyLabel scancode ≠ .f t) (hfits : KeyFits rom scancode s) :
    Stays s.screen (s.keyboardHandler rom scancode).screen := by
  unfold keyboardHandler
  cases hlabel : keyLabel scancode with
  | space => exact onSpace_stays h
  | tab => exact onTab_stays h
  | back => exact onBack_stays h
  | enter => exact putc_stays h s.getKeyIndex 0x0A
  | f t => exact absurd hlabel (hkey t)
  | other =>
    simp only [onDefault]
    split
    · next hcut =>
      exact @typeInput_stays { s with trace := s.trace ++ [Access.keyTable
        (tableIndexOf scancode.toNat s.shiftHeld s.capslockCheck)] } h _ (hfits hlabel hcut)
    · exact .refl h
  | _ => exact .refl h

end

/-! ## Any sequence of operations -/

def Term.puts (str : List UInt8) (s : Term) : Term := s.onScreen (Screen.puts s.getKeyIndex str)

def Term.out (s : Term) : Out → Term
  | .putc c => s.putc c
  | .puts str => s.puts str

/-- The operations on the console; a key is one that does not select a terminal. -/
inductive ConsoleOp where
  | putc (c : UInt8)
  | puts (str : List UInt8)
  | printf (format : CStr) (args : PrintfArgs) (fuel : Nat)
  | write (buf : Option CStr) (nbytes : Int)
  | backspace
  | key (scancode : UInt8) (hkey : ∀ t, keyLabel scancode ≠ .f t)

def consoleStep (rom : Nat → UInt8) (s : Term) : ConsoleOp → Option Term
  | .putc c => some (s.putc c)
  | .puts str => some (s.puts str)
  | .printf format args fuel => (printf format args fuel).map fun r => r.1.foldl Term.out s
  | .write buf nbytes => some (s.terminalWrite buf nbytes).2
  | .backspace => some s.printBackspace
  | .key scancode _ => some (s.keyboardHandler rom scancode)

def OutFits (s : Term) : Out → Prop
  | .putc _ => True
  | .puts str => PutsFits s.screen str

def PrintfFits (s : Term) : Option (List Out × Nat) → Prop
  | none => True
  | some r => Along (fun s o => some (Term.out s o)) OutFits s r.1

/-- Every `puts` ends on the screen, those that `printf` makes included, and no newline byte is
typed where it does not fit. -/
def OpFits (rom : Nat → UInt8) (s : Term) : ConsoleOp → Prop
  | .puts str => PutsFits s.screen str
  | .printf format args fuel => PrintfFits s (printf format args fuel)
  | .key scancode _ => KeyFits rom scancode s
  | _ => True

instance (s : Term) : (o : Out) → Decidable (OutFits s o)
  | .putc _ => isTrue trivial
  | .puts str => inferInstanceAs (Decidable (PutsFits s.screen str))

instance (s : Term) : (r : Option (List Out × Nat)) → Decidable (PrintfFits s r)
  | none => isTrue trivial
  | some r => inferInstanceAs (Decidable (Along _ OutFits s r.1))

instance (rom : Nat → UInt8) (s : Term) : (op : ConsoleOp) → Decidable (OpFits rom s op)
  | .putc _ => isTrue trivial
  | .puts str => inferInstanceAs (Decidable (PutsFits s.screen str))
  | .printf format args fuel => inferInstanceAs (Decidable (PrintfFits s (printf format args fuel)))
  | .write _ _ => isTrue trivial
  | .backspace => isTrue trivial
  | .key scancode _ => inferInstanceAs (Decidable (KeyFits rom scancode s))

theorem out_stays {s : Term} (h : InScreen s.screen) {o : Out} (hfits : OutFits s o) :
    Stays s.screen (s.out o).screen := by
  cases o with
  | putc c => exact term_putc_stays h c
  | puts str => exact puts_stays h s.getKeyIndex hfits

theorem outs_stays {s : Term} (h : InScreen s.screen) {outs : List Out}
    (hfits : Along (fun s o => some (Term.out s o)) OutFits s outs) :
    Stays s.screen (outs.foldl Term.out s).screen := by
  induction outs generalizing s with
  | nil => exact .refl h
  | cons o outs ih =>
    have hout := out_stays h hfits.1
    exact hout.trans (ih hout.inScreen (hfits.2 _ rfl))

theorem consoleStep_stays {rom : Nat → UInt8} {s s' : Term} (h : InScreen s.screen)
    {op : ConsoleOp} (hfits : OpFits rom s op) (hstep : consoleStep rom s op = some s') :
    Stays s.screen s'.screen := by
  cases op with
  | putc c =>
    rw [← Option.some.inj hstep]
    exact term_putc_stays h c
  | puts str =>
    rw [← Option.some.inj hstep]
    exact puts_stays h s.getKeyIndex hfits
  | printf format args fuel =>
    rcases Option.map_eq_some_iff.mp hstep with ⟨r, hprintf, rfl⟩
    simp only [OpFits, hprintf] at hfits
    exact outs_stays h hfits
  | write buf nbytes =>
    rw [← Option.some.inj hstep, terminalWrite_eq]
    exact write_stays h s.getKeyIndex buf nbytes
  | backspace =>
    rw [← Option.some.inj hstep]
    exact printBackspace_stays h
  | key scancode hkey =>
    rw [← Option.some.inj hstep]
    exact keyboardHandler_stays h rom hkey hfits

/-- After `clear`, whatever is printed and typed, the cursor is on the screen and no byte outside
its cells has been written. -/
theorem cursor_in_range (rom : Nat → UInt8) (s : Term) {ops : List ConsoleOp}
    (hfits : Along (consoleStep rom) (OpFits rom) (s.onScreen Screen.clear) ops) {s' : Term}
    (hrun : run (consoleStep rom) (s.onScreen Screen.clear) ops = some s') :
    (0 ≤ s'.screen.screenX ∧ s'.screen.screenX < NUM_COLS ∧
      0 ≤ s'.screen.screenY ∧ s'.screen.screenY < NUM_ROWS) ∧
    ∀ a, a < s.screen.videoMem ∨ s.screen.videoMem + 2 * (80 * 25) ≤ a →
      s'.screen.mem a = s.screen.mem a := by
  have hstays : Stays s.screen s'.screen := by
    have hclear : Stays s.screen (s.onScreen Screen.clear).screen := clear_stays s.screen
    have hstep : ∀ t op t', Stays s.screen t.screen → OpFits rom t op →
        consoleStep rom t op = some t' → Stays s.screen t'.screen :=
      fun t op t' ht hop hstep => ht.trans (consoleStep_stays ht.inScreen hop hstep)
    exact run_invariant hstep hclear hfits hrun
  rcases hstays.inScreen with ⟨hleft, hright, htop, hbottom⟩
  exact ⟨⟨hleft, hright, htop, hbottom⟩, hstays.outside⟩

-- "%d\n"
def numberFormat : CStr := fun i => [0x25, 0x64, 0x0A].getD i 0

def sampleOps : List ConsoleOp :=
  [.puts promptText, .printf numberFormat ⟨fun _ => 391, fun _ => []⟩ 4,
    .write (some fun _ => 0x61) 81, .backspace, .key 0x1E (by decide)]

-- The prompt, a number, 81 letters, one taken back, and one typed.
theorem cursor_in_range_sample :
    ∃ s', run (consoleStep fun _ => 0) ((bootTerm blankScreen).onScreen Screen.clear) sampleOps =
        some s' ∧
      (0 ≤ s'.screen.screenX ∧ s'.screen.screenX < NUM_COLS ∧
        0 ≤ s'.screen.screenY ∧ s'.screen.screenY < NUM_ROWS) ∧
      ∀ a, a < blankScreen.videoMem ∨ blankScreen.videoMem + 2 * (80 * 25) ≤ a →
        s'.screen.mem a = blankScreen.mem a :=
  ⟨_, rfl, @cursor_in_range (fun _ => 0) (bootTerm blankScreen) sampleOps (by decide +kernel) _ rfl⟩

def overlongOps : List ConsoleOp :=
  [.write (some fun _ => 0x0A) 24, .puts (List.replicate 80 0x61)]

-- From the last row, eighty letters leave `puts` in column 80, and the next one is written beyond
-- the last cell.
theorem cursor_out_of_range :
    ∃ s', run (consoleStep fun _ => 0) ((bootTerm blankScreen).onScreen Screen.clear) overlongOps =
        some s' ∧
      ¬s'.screen.screenX < NUM_COLS ∧
      (s'.putc 0x61).screen.mem (blankScreen.videoMem + 2 * (80 * 25)) ≠
        blankScreen.mem (blankScreen.videoMem + 2 * (80 * 25)) :=
  ⟨_, rfl, by decide +kernel, by decide +kernel⟩

end Kernel391
