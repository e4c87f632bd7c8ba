import Kernel391.KeyboardSafety

/-!
# The line discipline

`LineEditor` says what typing a line means without buffers, indices or cursor positions: a list
of characters, the part of it that Ctrl+L has put out of reach, and the modifier keys.  The
keyboard handler simulates it, and a pending `terminal_read` returns its line.
-/

namespace Kernel391

open Term

/-! ## The ideal editor -/

structure LineEditor where
  line : List UInt8
  floor : Nat
  leftShift : Bool
  rightShift : Bool
  ctrl : Bool
  caps : Bool
deriving DecidableEq

/-- A key with its two characters, by scancode. -/
structure KeyCap where
  code : Nat
  plain : Char
  shifted : Char
deriving DecidableEq

def usLayout : List KeyCap :=
  [⟨0x02, '1', '!'⟩, ⟨0x03, '2', '@'⟩, ⟨0x04, '3', '#'⟩, ⟨0x05, '4', '$'⟩, ⟨0x06, '5', '%'⟩,
    ⟨0x07, '6', '^'⟩, ⟨0x08, '7', '&'⟩, ⟨0x09, '8', '*'⟩, ⟨0x0A, '9', '('⟩, ⟨0x0B, '0', ')'⟩,
    ⟨0x0C, '-', '_'⟩, ⟨0x0D, '=', '+'⟩,
    ⟨0x10, 'q', 'Q'⟩, ⟨0x11, 'w', 'W'⟩, ⟨0x12, 'e', 'E'⟩, ⟨0x13, 'r', 'R'⟩, ⟨0x14, 't', 'T'⟩,
    ⟨0x15, 'y', 'Y'⟩, ⟨0x16, 'u', 'U'⟩, ⟨0x17, 'i', 'I'⟩, ⟨0x18, 'o', 'O'⟩, ⟨0x19, 'p', 'P'⟩,
    ⟨0x1A, '[', '\x7b'⟩, ⟨0x1B, ']', '\x7d'⟩,
    ⟨0x1E, 'a', 'A'⟩, ⟨0x1F, 's', 'S'⟩, ⟨0x20, 'd', 'D'⟩, ⟨0x21, 'f', 'F'⟩, ⟨0x22, 'g', 'G'⟩,
    ⟨0x23, 'h', 'H'⟩, ⟨0x24, 'j', 'J'⟩, ⟨0x25, 'k', 'K'⟩, ⟨0x26, 'l', 'L'⟩,
    ⟨0x27, ';', ':'⟩, ⟨0x28, '\x27', '\x22'⟩, ⟨0x29, '\x60', '~'⟩, ⟨0x2B, '\x5c', '|'⟩,
    ⟨0x2C, 'z', 'Z'⟩, ⟨0x2D, 'x', 'X'⟩, ⟨0x2E, 'c', 'C'⟩, ⟨0x2F, 'v', 'V'⟩, ⟨0x30, 'b', 'B'⟩,
    ⟨0x31, 'n', 'N'⟩, ⟨0x32, 'm', 'M'⟩, ⟨0x33, ',', '<'⟩, ⟨0x34, '.', '>'⟩, ⟨0x35, '/', '?'⟩]

/-- The character a key types: caps lock inverts shift for letters and does nothing else. -/
def KeyCap.char (k : KeyCap) (shift caps : Bool) : UInt8 :=
  let upper := if k.plain.isLower then xor shift caps else shift
  (if upper then k.shifted else k.plain).toUInt8

inductive EditKey where
  | char (k : KeyCap)
  | blanks (n : Nat)
  | erase
  | leftShift (down : Bool)
  | rightShift (down : Bool)
  | ctrl (down : Bool)
  | capsLock
  | ignored
deriving DecidableEq

/-- What a scancode means to the editor; releasing ALT or CAPS LOCK, or pressing ALT, means
nothing. -/
def editKey (code : Nat) : Option EditKey :=
  match usLayout.find? (fun k => k.code == code) with
  | some k => some (.char k)
  | none =>
      match code with
      | 0x39 => some (.blanks 1)
      | 0x0F => some (.blanks 4)
      | 0x0E => some .erase
      | 0x2A => some (.leftShift true)
      | 0xAA => some (.leftShift false)
      | 0x36 => some (.rightShift true)
      | 0xB6 => some (.rightShift false)
      | 0x1D => some (.ctrl true)
      | 0x9D => some (.ctrl false)
      | 0x3A => some .capsLock
      | 0x38 | 0xB8 | 0xBA => some .ignored
      | _ => none

namespace LineEditor

def shift (e : LineEditor) : Bool := e.leftShift || e.rightShift

def apply (e : LineEditor) : EditKey → LineEditor
  | .char k =>
      if e.ctrl && k.plain = 'l' then { e with floor := e.line.length }
      else { e with line := e.line ++ [k.char e.shift e.caps] }
  | .blanks n => { e with line := e.line ++ List.replicate n 0x20 }
  | .erase => if e.floor < e.line.length then { e with line := e.line.dropLast } else e
  | .leftShift down => { e with leftShift := down }
  | .rightShift down => { e with rightShift := down }
  | .ctrl down => { e with ctrl := down }
  | .capsLock => { e with caps := !e.caps }
  | .ignored => e

def press (e : LineEditor) (scancode : UInt8) : LineEditor :=
  (editKey scancode.toNat).elim e e.apply

/-- The line never exceeds `n` characters while the keys are typed. -/
def Fits (n : Nat) : LineEditor → List UInt8 → Prop
  | _, [] => True
  | e, k :: keys => (e.press k).line.length ≤ n ∧ Fits n (e.press k) keys

instance decidableFits (n : Nat) : ∀ e keys, Decidable (Fits n e keys)
  | _, [] => inferInstanceAs (Decidable True)
  | e, k :: keys =>
      have := decidableFits n (e.press k) keys
      inferInstanceAs (Decidable (_ ∧ _))

end LineEditor

/-- The scancodes used to edit a line: printable keys, SPACE, TAB, BACK, and press and release
of the shifts, CTRL, ALT and CAPS LOCK. -/
def IsEditCode (n : Nat) : Prop :=
  (0x02 ≤ n ∧ n ≤ 0x0D) ∨ (0x10 ≤ n ∧ n ≤ 0x1B) ∨ (0x1E ≤ n ∧ n ≤ 0x29) ∨
    (0x2B ≤ n ∧ n ≤ 0x35) ∨
    n ∈ [0x39, 0x0F, 0x0E, 0x2A, 0xAA, 0x36, 0xB6, 0x1D, 0x9D, 0x38, 0xB8, 0x3A, 0xBA]

instance (n : Nat) : Decidable (IsEditCode n) := inferInstanceAs (Decidable (_ ∨ _))

/-! ## The key table and the layout -/

theorem usLayout_spec : ∀ k ∈ usLayout,
    k.code < INPUT_CUTOFF ∧ keyLabel (UInt8.ofNat k.code) = .other ∧
      ∀ shift caps, tableIndexOf k.code shift caps < KEY_SIZE ∧
        KEY_TABLE.getD (tableIndexOf k.code shift caps) 0 = k.char shift caps ∧
        (k.char shift caps = 0x6C ∨ k.char shift caps = 0x4C ↔ k.plain = 'l') ∧
        k.char shift caps ≠ 0 ∧ k.char shift caps ≠ 0x0A := by
  decide +kernel

-- The labels of the switch that editing keys reach, other than `default`.
def editOfLabel : KeyLabel → Option EditKey
  | .space => some (.blanks 1)
  | .tab => some (.blanks 4)
  | .back => some .erase
  | .lShift => some (.leftShift true)
  | .lShiftOff => some (.leftShift false)
  | .rShift => some (.rightShift true)
  | .rShiftOff => some (.rightShift false)
  | .ctrl => some (.ctrl true)
  | .ctrlOff => some (.ctrl false)
  | .capsLock => some .capsLock
  | .alt | .altOff => some .ignored
  | .enter | .enterOff | .f _ | .other => none

theorem editKey_of_label : ∀ n, n < 256 → IsEditCode n → keyLabel (UInt8.ofNat n) ≠ .other →
    editKey n = editOfLabel (keyLabel (UInt8.ofNat n)) ∧ (editKey n).isSome := by
  decide +kernel

theorem editKey_of_other : ∀ n, n < 256 → IsEditCode n → keyLabel (UInt8.ofNat n) = .other →
    (editKey n = some .ignored ∧ INPUT_CUTOFF ≤ n) ∨
      ∃ k ∈ usLayout, k.code = n ∧ editKey n = some (.char k) := by
  decide +kernel

/-! ## The simulation -/

structure EditorSim (s : Term) (e : LineEditor) : Prop where
  text : e.line = (List.range s.getKeyIndex).map s.displayedRow
  bound : e.line.length ≤ 127
  plain : ∀ b ∈ e.line, b ≠ 0 ∧ b ≠ 0x0A
  floor : s.clearOffset s.displayTerminal = e.floor
  floor_le : e.floor ≤ e.line.length
  leftShift : s.lShiftCheck = e.leftShift
  rightShift : s.rShiftCheck = e.rightShift
  ctrl : s.ctrlCheck = e.ctrl
  caps : s.capslockCheck = e.caps
  waiting : s.enterDown = false

theorem EditorSim.length {s : Term} {e : LineEditor} (h : EditorSim s e) :
    e.line.length = s.getKeyIndex := by
  rw [h.text, List.length_map, List.length_range]

theorem EditorSim.shift {s : Term} {e : LineEditor} (h : EditorSim s e) :
    s.shiftHeld = e.shift := by
  unfold shiftHeld LineEditor.shift
  rw [h.leftShift, h.rightShift]

-- The screen, `wrapped` and the subscript trace are no part of the relation.
theorem EditorSim.onScreen {s : Term} {e : LineEditor} (h : EditorSim s e)
    (f : Screen → Screen) : EditorSim (s.onScreen f) e :=
  ⟨h.text, h.bound, h.plain, h.floor, h.floor_le, h.leftShift, h.rightShift, h.ctrl, h.caps,
    h.waiting⟩

theorem EditorSim.withWrapped {s : Term} {e : LineEditor} (h : EditorSim s e) (w : Bool) :
    EditorSim { s with wrapped := w } e :=
  ⟨h.text, h.bound, h.plain, h.floor, h.floor_le, h.leftShift, h.rightShift, h.ctrl, h.caps,
    h.waiting⟩

theorem EditorSim.withTrace {s : Term} {e : LineEditor} (h : EditorSim s e) (l : List Access) :
    EditorSim { s with trace := l } e :=
  ⟨h.text, h.bound, h.plain, h.floor, h.floor_le, h.leftShift, h.rightShift, h.ctrl, h.caps,
    h.waiting⟩

theorem displayedRow_storeKey (s : Term) (sub : Nat) (b : UInt8) (x : Nat) :
    (s.storeKey sub b).displayedRow x = if x = sub then b else s.displayedRow x := by
  unfold displayedRow
  rw [storeKey_keyBuffer, storeKey_displayTerminal]
  by_cases hx : x = sub
  · rw [if_pos (by rw [hx]), if_pos hx]
  · rw [if_neg (by omega), if_neg hx]

theorem map_displayedRow_storeKey (s : Term) {sub n : Nat} (b : UInt8) (hn : n ≤ sub) :
    (List.range n).map (s.storeKey sub b).displayedRow = (List.range n).map s.displayedRow := by
  apply List.map_congr_left
  intro x hx
  have hlt := List.mem_range.mp hx
  rw [displayedRow_storeKey, if_neg (by omega)]

theorem displayedRow_setKeyIndex (s : Term) (n : Nat) :
    (s.setKeyIndex n).displayedRow = s.displayedRow := rfl

theorem getKeyIndex_setKeyIndex (s : Term) (n : Nat) : (s.setKeyIndex n).getKeyIndex = n :=
  if_pos rfl

theorem EditorSim.appendKey {s : Term} {e : LineEditor} (h : EditorSim s e) {b : UInt8}
    (hb : b ≠ 0 ∧ b ≠ 0x0A) (hfit : (e.line ++ [b]).length ≤ 127) :
    EditorSim (s.appendKey b) { e with line := e.line ++ [b] } := by
  have hlen := h.length
  rw [List.length_append, List.length_singleton] at hfit
  have hmod : s.getKeyIndex % 256 = s.getKeyIndex := by omega
  have hnext : (s.getKeyIndex + 1) % 2 ^ 32 = s.getKeyIndex + 1 := by omega
  unfold Term.appendKey
  rw [hmod, hnext]
  refine ⟨?_, ?_, ?_, h.floor, ?_, h.leftShift, h.rightShift, h.ctrl, h.caps, h.waiting⟩
  · rw [getKeyIndex_setKeyIndex, displayedRow_setKeyIndex, List.range_succ, List.map_append,
      map_displayedRow_storeKey s b (Nat.le_refl _), ← h.text, List.map_cons, List.map_nil,
      displayedRow_storeKey, if_pos rfl]
  · simpa using hfit
  · intro c hc
    rcases List.mem_append.mp hc with hc | hc
    · exact h.plain c hc
    · exact List.mem_singleton.mp hc ▸ hb
  · have hfl := h.floor_le
    simp only [List.length_append, List.length_singleton]
    omega

theorem EditorSim.onSpace {s : Term} {e : LineEditor} (h : EditorSim s e)
    (hfit : (e.line ++ [0x20]).length ≤ 127) :
    EditorSim s.onSpace { e with line := e.line ++ [0x20] } :=
  ((h.onScreen _).appendKey (by decide) hfit).onScreen _

theorem EditorSim.onTab {s : Term} {e : LineEditor} (h : EditorSim s e)
    (hfit : (e.line ++ List.replicate 4 0x20).length ≤ 127) :
    EditorSim s.onTab { e with line := e.line ++ List.replicate 4 0x20 } := by
  have htab : s.onTab = s.onSpace.onSpace.onSpace.onSpace := rfl
  rw [List.length_append, List.length_replicate] at hfit
  have h₁ := h.onSpace (by simp; omega)
  have h₂ := h₁.onSpace (by simp; omega)
  have h₃ := h₂.onSpace (by simp; omega)
  have h₄ := h₃.onSpace (by simp; omega)
  rw [htab]
  simpa [List.replicate] using h₄

theorem EditorSim.onBack {s : Term} {e : LineEditor} (h : EditorSim s e) :
    EditorSim s.onBack (e.apply .erase) := by
  have hlen := h.length
  have hbound := h.bound
  have hfl := h.floor_le
  have hfloor := h.floor
  simp only [Term.onBack, LineEditor.apply]
  by_cases hlt : e.floor < e.line.length
  · have hmod : s.getKeyIndex % 256 = s.getKeyIndex := by omega
    have hprev : (s.getKeyIndex + 2 ^ 32 - 1) % 2 ^ 32 = s.getKeyIndex - 1 := by omega
    rw [if_pos (by omega), if_pos hlt, hmod, hprev]
    -- the byte cleared is the one after the line, so the shorter prefix is untouched
    have hb : EditorSim s.printBackspace e := (h.onScreen _).withWrapped _
    have hdrop : e.line.dropLast = (List.range (s.getKeyIndex - 1)).map s.displayedRow := by
      have hsucc : s.getKeyIndex = s.getKeyIndex - 1 + 1 := by omega
      rw [h.text, hsucc, List.range_succ, List.map_append, List.map_cons, List.map_nil,
        List.dropLast_concat, ← hsucc]
    refine ⟨?_, ?_, ?_, hb.floor, ?_, hb.leftShift, hb.rightShift, hb.ctrl, hb.caps, hb.waiting⟩
    · rw [getKeyIndex_setKeyIndex, displayedRow_setKeyIndex,
        map_displayedRow_storeKey _ _ (Nat.sub_le _ _), hdrop]
      rfl
    · simp only [List.length_dropLast]
      omega
    · intro c hc
      exact h.plain c (List.dropLast_subset _ hc)
    · simp only [List.length_dropLast]
      omega
  · rw [if_neg (by omega), if_neg hlt]
    exact h

theorem EditorSim.markCleared {s : Term} {e : LineEditor} (h : EditorSim s e) :
    EditorSim s.markCleared { e with floor := e.line.length } := by
  have hlen := h.length
  have hbound := h.bound
  unfold Term.markCleared
  by_cases hzero : s.getKeyIndex = 0
  · have hnil : e.line = [] := List.eq_nil_of_length_eq_zero (hlen.trans hzero)
    have hfl : e.floor = 0 := Nat.le_zero.mp (hzero ▸ hlen ▸ h.floor_le)
    rw [if_neg (not_not.mpr hzero), clearBuffer_eq]
    refine ⟨?_, h.bound, h.plain, ?_, Nat.le_refl _, h.leftShift, h.rightShift, h.ctrl, h.caps,
      h.waiting⟩
    · simp [getKeyIndex, hnil]
    · exact (h.floor.trans hfl).trans (hlen.trans hzero).symm
  · rw [if_pos hzero]
    refine ⟨h.text, h.bound, h.plain, ?_, Nat.le_refl _, h.leftShift, h.rightShift, h.ctrl, h.caps,
      h.waiting⟩
    rw [setClearOffset_clearOffset, if_pos (setClearOffset_displayTerminal _ _)]
    change s.getKeyIndex % 256 = e.line.length
    omega

theorem EditorSim.onCtrlL {s : Term} {e : LineEditor} (h : EditorSim s e) :
    EditorSim s.onCtrlL { e with floor := e.line.length } := by
  unfold Term.onCtrlL showPrompt
  exact ((h.onScreen _).markCleared).onScreen _

-- Both typing branches append the character; which of them runs depends on the cursor only.
theorem EditorSim.typeInput {s : Term} {e : LineEditor} (h : EditorSim s e) {b : UInt8}
    (hctrl : ¬(e.ctrl = true ∧ (b = 0x6C ∨ b = 0x4C))) (hb : b ≠ 0 ∧ b ≠ 0x0A)
    (hfit : (e.line ++ [b]).length ≤ 127) :
    EditorSim (s.typeInput b) { e with line := e.line ++ [b] } := by
  have hlen := h.length
  have happend := (h.onScreen (Screen.putc s.getKeyIndex b)).appendKey hb hfit
  unfold Term.typeInput
  rw [if_neg (by simpa [h.ctrl] using hctrl)]
  by_cases hend : s.atLineEnd = true
  · rw [if_pos hend]
    exact ((happend.onScreen _).onScreen _).withWrapped true
  · have hlt : s.getKeyIndex < MAX_BUFF_LENGTH := by
      rw [List.length_append, List.length_singleton] at hfit
      unfold MAX_BUFF_LENGTH
      omega
    rw [if_neg hend, if_pos hlt]
    exact happend.onScreen _

-- The table holds the layout's character at the subscript that the modifier keys lead to.
theorem onDefault_usLayout (rom : Nat → UInt8) {s : Term} {k : KeyCap} (hk : k ∈ usLayout) :
    s.onDefault rom k.code = Term.typeInput (k.char s.shiftHeld s.capslockCheck)
      { s with trace := s.trace ++
        [.keyTable (tableIndexOf k.code s.shiftHeld s.capslockCheck)] } := by
  rcases usLayout_spec k hk with ⟨hcut, -, htable⟩
  rcases htable s.shiftHeld s.capslockCheck with ⟨hsub, hchar, -, -⟩
  simp only [Term.onDefault, if_pos hcut, keyTableAt_eq rom hsub, hchar]

theorem EditorSim.onDefault (rom : Nat → UInt8) {s : Term} {e : LineEditor} (h : EditorSim s e)
    {k : KeyCap} (hk : k ∈ usLayout) (hfit : (e.apply (.char k)).line.length ≤ 127) :
    EditorSim (s.onDefault rom k.code) (e.apply (.char k)) := by
  rcases usLayout_spec k hk with ⟨-, -, htable⟩
  rcases htable e.shift e.caps with ⟨-, -, hl, hplain⟩
  have htrace := h.withTrace (s.trace ++
    [.keyTable (tableIndexOf k.code s.shiftHeld s.capslockCheck)])
  have hchar : k.char s.shiftHeld s.capslockCheck = k.char e.shift e.caps := by
    rw [h.shift, h.caps]
  rw [onDefault_usLayout rom hk, hchar]
  simp only [LineEditor.apply] at hfit ⊢
  by_cases hctrl : e.ctrl = true ∧ k.plain = 'l'
  · rw [if_pos (by simpa using hctrl)]
    unfold Term.typeInput
    rw [if_pos (by simpa [h.ctrl, hctrl.1] using hl.mpr hctrl.2)]
    exact htrace.onCtrlL
  · rw [if_neg (by simpa using hctrl)] at hfit ⊢
    exact htrace.typeInput (fun hc => hctrl ⟨hc.1, hl.mp hc.2⟩) hplain hfit

/-- Editing keys either have a label of their own, or are below the cutoff exactly when they type a
character. -/
theorem LineEditor.press_eq (e : LineEditor) {scancode : UInt8} (hcode : IsEditCode scancode.toNat) :
    (∃ key, editOfLabel (keyLabel scancode) = some key ∧ e.press scancode = e.apply key) ∨
    keyLabel scancode = .other ∧
      ((INPUT_CUTOFF ≤ scancode.toNat ∧ e.press scancode = e) ∨
        ∃ k ∈ usLayout, k.code = scancode.toNat ∧ e.press scancode = e.apply (.char k)) := by
  have hlt : scancode.toNat < 256 := scancode.toNat_lt
  have hofNat : UInt8.ofNat scancode.toNat = scancode := UInt8.ofNat_toNat
  have hlabeled := editKey_of_label scancode.toNat hlt hcode
  have hother := editKey_of_other scancode.toNat hlt hcode
  rw [hofNat] at hlabeled hother
  unfold LineEditor.press
  by_cases hdefault : keyLabel scancode = .other
  · refine .inr ⟨hdefault, ?_⟩
    rcases hother hdefault with ⟨hkey, hcut⟩ | ⟨k, hk, hkc, hkey⟩
    · exact .inl ⟨hcut, by rw [hkey]; rfl⟩
    · exact .inr ⟨k, hk, hkc, by rw [hkey]; rfl⟩
  · rcases hlabeled hdefault with ⟨hkey, hsome⟩
    rcases Option.isSome_iff_exists.mp hsome with ⟨key, hsome⟩
    exact .inl ⟨key, hkey.symm.trans hsome, by rw [hsome]; rfl⟩

/-- One key: the handler follows the editor. -/
theorem EditorSim.press (rom : Nat → UInt8) {s : Term} {e : LineEditor} (h : EditorSim s e)
    {scancode : UInt8} (hcode : IsEditCode scancode.toNat)
    (hfit : (e.press scancode).line.length ≤ 127) :
    EditorSim (s.keyboardHandler rom scancode) (e.press scancode) := by
  unfold keyboardHandler
  rcases e.press_eq hcode with ⟨key, hkey, hpress⟩ | ⟨hlabel, ⟨hcut, hpress⟩ | ⟨k, hk, hkc, hpress⟩⟩
  · rw [hpress] at hfit ⊢
    cases hlabel : keyLabel scancode with
    | other | enter | enterOff | f => rw [hlabel] at hkey; cases hkey
    | space => rw [hlabel] at hkey; cases hkey; exact h.onSpace hfit
    | tab => rw [hlabel] at hkey; cases hkey; exact h.onTab hfit
    | back => rw [hlabel] at hkey; cases hkey; exact h.onBack
    | lShift | lShiftOff =>
      rw [hlabel] at hkey
      cases hkey
      exact ⟨h.text, h.bound, h.plain, h.floor, h.floor_le, rfl, h.rightShift, h.ctrl, h.caps,
        h.waiting⟩
    | rShift | rShiftOff =>
      rw [hlabel] at hkey
      cases hkey
      exact ⟨h.text, h.bound, h.plain, h.floor, h.floor_le, h.leftShift, rfl, h.ctrl, h.caps,
        h.waiting⟩
    | ctrl | ctrlOff =>
      rw [hlabel] at hkey
      cases hkey
      exact ⟨h.text, h.bound, h.plain, h.floor, h.floor_le, h.leftShift, h.rightShift, rfl, h.caps,
        h.waiting⟩
    | capsLock =>
      rw [hlabel] at hkey
      cases hkey
      exact ⟨h.text, h.bound, h.plain, h.floor, h.floor_le, h.leftShift, h.rightShift, h.ctrl,
        congrArg not h.caps, h.waiting⟩
    | alt | altOff =>
      rw [hlabel] at hkey
      cases hkey
      exact ⟨h.text, h.bound, h.plain, h.floor, h.floor_le, h.leftShift, h.rightShift, h.ctrl,
        h.caps, h.waiting⟩
  · rw [hpress, hlabel]
    simp only [Term.onDefault, if_neg (Nat.not_lt.mpr hcut)]
    exact h
  · rw [hpress] at hfit ⊢
    rw [hlabel, ← hkc]
    exact h.onDefault rom hk hfit

/-- The terminal after a list of keys. -/
def typeKeys (rom : Nat → UInt8) (s : Term) (keys : List UInt8) : Term :=
  keys.foldl (fun s scancode => s.keyboardHandler rom scancode) s

def LineEditor.type (e : LineEditor) (keys : List UInt8) : LineEditor := keys.foldl LineEditor.press e

theorem EditorSim.type (rom : Nat → UInt8) {s : Term} {e : LineEditor} (h : EditorSim s e)
    {keys : List UInt8} (hcodes : ∀ k ∈ keys, IsEditCode k.toNat) (hfit : e.Fits 127 keys) :
    EditorSim (typeKeys rom s keys) (e.type keys) := by
  induction keys generalizing s e with
  | nil => exact h
  | cons k keys ih =>
    have hstep := h.press rom (hcodes k List.mem_cons_self) hfit.1
    exact ih hstep (fun k' hk' => hcodes k' (List.mem_cons_of_mem k hk')) hfit.2

/-! ## The reader -/

-- The copy loop stops at the first newline of the row.
theorem lineLoop_eq {row : Nat → UInt8} {n : Nat} (hend : row n = 0x0A)
    (hplain : ∀ i, i < n → row i ≠ 0x0A) :
    ∀ fuel x, x ≤ n → n < x + fuel →
      lineLoop row fuel x = (List.range' x (n + 1 - x)).map row
  | 0, x, hx, hn => by omega
  | fuel + 1, x, hx, hn => by
      unfold lineLoop
      by_cases hxn : x = n
      · subst hxn
        rw [if_pos hend, show x + 1 - x = 1 by omega]
        rfl
      · rw [if_neg (hplain x (by omega)), lineLoop_eq hend hplain fuel (x + 1) (by omega) (by omega),
          show n + 1 - x = (n + 1 - (x + 1)) + 1 by omega, List.range'_succ, List.map_cons]

-- Copying a text without NULs pads it with NULs.
theorem strncpy_eq {src : Nat → UInt8} {l : List UInt8} (hl : ∀ b ∈ l, b ≠ 0)
    (hsrc : ∀ i, src i = l.getD i 0) :
    ∀ n i, i ≤ l.length → l.length - i ≤ n →
      strncpy src n i = l.drop i ++ List.replicate (n - (l.length - i)) 0
  | 0, i, hi, hn => by
      rw [List.drop_of_length_le (by omega)]
      simp [strncpy]
  | n + 1, i, hi, hn => by
      unfold strncpy
      by_cases hlast : i = l.length
      · have hz : src i = 0 := by simp [hsrc, hlast]
        rw [if_pos hz, hlast, List.drop_length, List.nil_append]
        congr 1
        omega
      · have hget : src i = l[i] := by 
          rw [hsrc, List.getD_eq_getElem?_getD, List.getElem?_eq_getElem (by omega), Option.getD_some]
        have hne : src i ≠ 0 := hget ▸ hl _ (List.getElem_mem (by omega))
        rw [if_neg hne, strncpy_eq hl hsrc n (i + 1) (by omega) (by omega),
          List.drop_eq_getElem_cons (by omega : i < l.length), hget, List.cons_append]
        congr 3
        omega

-- With a newline at its end, the copied text is not touched by the fix-up.
theorem lineBuffer_eq {l : List UInt8} (x : Nat) :
    lineBuffer (l ++ [0x0A]) x = (l ++ [0x0A]).getD x 0 := by
  have hlast : (l ++ [0x0A]).getD ((l ++ [0x0A]).length - 1) 0 = 0x0A := by simp
  unfold lineBuffer
  simp only [hlast, ne_eq, not_true_eq_false, false_and, if_false]

theorem resume_eq {s : Term} {nbytes : Int} (hdown : s.enterDown = true) (hn : 0 < nbytes) :
    ∃ s', s.terminalReadResume nbytes =
      some (⟨(lineLoop s.displayedRow MAX_BUFF_LENGTH 0).length,
        strncpy (lineBuffer (lineLoop s.displayedRow MAX_BUFF_LENGTH 0)) MAX_BUFF_LENGTH 0⟩, s') := by
  unfold terminalReadResume
  rw [if_pos hdown, if_neg (by omega)]
  exact ⟨_, rfl⟩

theorem displayedRow_onEnter (s : Term) (x : Nat) :
    s.onEnter.displayedRow x = (s.storeKey (s.getKeyIndex % 256) 0x0A).displayedRow x := by
  simp only [displayedRow, onEnter, putc, onScreen_keyBuffer, onScreen_displayTerminal,
    setKeyIndex_keyBuffer, setKeyIndex_displayTerminal, setClearOffset_keyBuffer,
    setClearOffset_displayTerminal]

/-! What `terminal_read` makes of a row that holds a line and a newline. -/

section

variable {line : List UInt8} (hplain : ∀ b ∈ line, b ≠ 0 ∧ b ≠ 0x0A) (hbound : line.length ≤ 127)

include hplain hbound

theorem lineLoop_line {row : Nat → UInt8}
    (hrow : ∀ i ≤ line.length, row i = (line ++ [0x0A]).getD i 0) :
    lineLoop row MAX_BUFF_LENGTH 0 = line ++ [0x0A] := by
  have hend : row line.length = 0x0A := by
    rw [hrow _ (Nat.le_refl _)]
    simp
  have htext : ∀ i, i < line.length → row i = line.getD i 0 := by
    intro i hi
    rw [hrow i (by omega), List.getD_eq_getElem?_getD, List.getElem?_append_left hi,
      List.getD_eq_getElem?_getD]
  have hchars : ∀ i, i < line.length → row i ≠ 0x0A := by
    intro i hi
    rw [htext i hi, List.getD_eq_getElem?_getD, List.getElem?_eq_getElem hi, Option.getD_some]
    exact (hplain _ (List.getElem_mem hi)).2
  rw [lineLoop_eq hend hchars MAX_BUFF_LENGTH 0 (by omega) (by unfold MAX_BUFF_LENGTH; omega),
    ← List.range_eq_range', Nat.sub_zero, List.range_succ, List.map_append, List.map_cons,
    List.map_nil, hend]
  congr 1
  apply List.ext_getElem
  · simp
  · intro i hi hi'
    rw [List.getElem_map, List.getElem_range, htext i hi', List.getD_eq_getElem?_getD,
      List.getElem?_eq_getElem hi', Option.getD_some]

theorem strncpy_line : strncpy (lineBuffer (line ++ [0x0A])) MAX_BUFF_LENGTH 0 =
    line ++ 0x0A :: List.replicate (127 - line.length) 0 := by
  have hne : ∀ b ∈ line ++ [0x0A], b ≠ 0 := by
    intro b hb
    rcases List.mem_append.mp hb with hb | hb
    · exact (hplain b hb).1
    · rw [List.mem_singleton.mp hb]
      decide
  have hpad : MAX_BUFF_LENGTH - ((line ++ [0x0A]).length - 0) = 127 - line.length := by
    rw [List.length_append, List.length_singleton]
    unfold MAX_BUFF_LENGTH
    omega
  have hfit : (line ++ [0x0A]).length - 0 ≤ MAX_BUFF_LENGTH := by
    rw [List.length_append, List.length_singleton]
    unfold MAX_BUFF_LENGTH
    omega
  rw [strncpy_eq hne lineBuffer_eq MAX_BUFF_LENGTH 0 (Nat.zero_le _) hfit, hpad, List.drop_zero,
    List.append_assoc, List.singleton_append]

end

/-- After ENTER the row holds the edited line and a newline. -/
theorem EditorSim.onEnter_row {s : Term} {e : LineEditor} (h : EditorSim s e) {i : Nat}
    (hi : i ≤ e.line.length) : s.onEnter.displayedRow i = (e.line ++ [0x0A]).getD i 0 := by
  have hlen := h.length
  have hbound := h.bound
  have hmod : s.getKeyIndex % 256 = s.getKeyIndex := by omega
  rw [displayedRow_onEnter, displayedRow_storeKey, hmod]
  by_cases hlast : i = s.getKeyIndex
  · rw [if_pos hlast, hlast, ← hlen]
    simp
  · have hlt : i < e.line.length := by omega
    rw [if_neg hlast, List.getD_eq_getElem?_getD, List.getElem?_append_left hlt, h.text,
      List.getElem?_map, List.getElem?_range (by omega), Option.map_some, Option.getD_some]

/-- ENTER hands the edited line to the reader. -/
theorem EditorSim.enter_read {s : Term} {e : LineEditor} (h : EditorSim s e) {nbytes : Int}
    (hn : 0 < nbytes) :
    ∃ s', s.onEnter.terminalReadResume nbytes =
      some (⟨e.line.length + 1, e.line ++ 0x0A :: List.replicate (127 - e.line.length) 0⟩, s') := by
  have hcopied := lineLoop_line h.plain h.bound fun _ hi => h.onEnter_row hi
  rcases resume_eq (show s.onEnter.enterDown = true from rfl) hn with ⟨s', hs'⟩
  rw [hs', hcopied, strncpy_line h.plain h.bound, List.length_append, List.length_singleton]
  exact ⟨s', rfl⟩

/-- The editor at the start of a line, with the modifier keys as the terminal has them. -/
def LineEditor.start (s : Term) : LineEditor :=
  ⟨[], 0, s.lShiftCheck, s.rShiftCheck, s.ctrlCheck, s.capslockCheck⟩

theorem editorSim_start {s : Term} (hwait : s.enterDown = false) (hempty : s.getKeyIndex = 0)
    (hoff : s.clearOffset s.displayTerminal = 0) : EditorSim s (LineEditor.start s) :=
  ⟨by rw [hempty]; rfl, Nat.zero_le _, fun _ hb => absurd hb List.not_mem_nil, hoff, Nat.le_refl 0,
    rfl, rfl, rfl, rfl, hwait⟩

/-- A reader that is waiting on an empty line stays blocked while editing keys arrive, and on
ENTER stores the ideal editor's line with a newline and returns its length. -/
theorem terminal_read_line (rom : Nat → UInt8) (s : Term) (nbytes : Int) (keys : List UInt8)
    (hn : 128 ≤ nbytes) (hwait : s.enterDown = false) (hempty : s.getKeyIndex = 0)
    (hoff : s.clearOffset s.displayTerminal = 0) (hcodes : ∀ k ∈ keys, IsEditCode k.toNat)
    (hfit : (LineEditor.start s).Fits 127 keys) :
    (typeKeys rom s keys).terminalReadResume nbytes = none ∧
      ∃ s', (typeKeys rom s (keys ++ [0x1C])).terminalReadResume nbytes =
        some (⟨((LineEditor.start s).type keys).line.length + 1,
          ((LineEditor.start s).type keys).line ++
            0x0A :: List.replicate (127 - ((LineEditor.start s).type keys).line.length) 0⟩, s') := by
  have hsim := (editorSim_start hwait hempty hoff).type rom hcodes hfit
  have henter : typeKeys rom s (keys ++ [0x1C]) = (typeKeys rom s keys).onEnter := by
    unfold typeKeys
    rw [List.foldl_append]
    rfl
  rw [henter]
  refine ⟨?_, hsim.enter_read (by omega)⟩
  unfold terminalReadResume
  rw [hsim.waiting]
  rfl

/-- Shift-h, i, x, BACK and ENTER on a fresh terminal read as "Hi" and a newline. -/
theorem terminal_read_line_hi :
    ∃ s', (typeKeys (fun _ => 0) (bootTerm blankScreen)
        ([0x2A, 0x23, 0xAA, 0x17, 0x2D, 0x0E] ++ [0x1C])).terminalReadResume 128 =
      some (⟨3, 0x48 :: 0x69 :: 0x0A :: List.replicate 125 0⟩, s') := by
  have hcodes : ∀ k ∈ ([0x2A, 0x23, 0xAA, 0x17, 0x2D, 0x0E] : List UInt8), IsEditCode k.toNat := by
    simp only [List.forall_mem_cons, List.not_mem_nil, false_implies, implies_true, and_true]
    decide
  exact (terminal_read_line (fun _ => 0) (bootTerm blankScreen) 128
    [0x2A, 0x23, 0xAA, 0x17, 0x2D, 0x0E] (by decide) rfl rfl rfl hcodes (by decide)).2

end Kernel391
