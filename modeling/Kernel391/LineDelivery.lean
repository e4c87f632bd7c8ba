import Kernel391.ReaderSteps

/-!
# Delivery of lines

A line is on its way from ENTER until the reader has cleared the buffer.  As long as nothing is typed
in that time, ENTER is not released before the reader has noticed it, and the display is not switched
to a terminal that would take the pressed ENTER for its own, every line reaches the reader of its
terminal.
-/

namespace Kernel391

open Machine Term

/-! ## The other terminals -/

/-- The line buffer of terminal `t` is the same. -/
structure RowKept (t : Nat) (s s' : Term) : Prop where
  index : s'.keyIndex t = s.keyIndex t
  offset : s'.clearOffset t = s.clearOffset t
  row : ∀ x < MAX_BUFF_LENGTH,
    s'.keyBuffer (MAX_BUFF_LENGTH * t + x) = s.keyBuffer (MAX_BUFF_LENGTH * t + x)

section

variable {t : Nat} {s : Term}

theorem RowKept.refl (t : Nat) (s : Term) : RowKept t s s := ⟨rfl, rfl, fun _ _ => rfl⟩

theorem RowKept.trans {s' s'' : Term} (h : RowKept t s s') (h' : RowKept t s' s'') :
    RowKept t s s'' :=
  ⟨h'.index.trans h.index, h'.offset.trans h.offset,
    fun x hx => (h'.row x hx).trans (h.row x hx)⟩

theorem rowKept_onScreen (f : Screen → Screen) : RowKept t s (s.onScreen f) :=
  ⟨rfl, rfl, fun _ _ => rfl⟩

variable (ht : t ≠ s.displayTerminal)

include ht

theorem rowKept_storeKey {sub : Nat} (hsub : sub < MAX_BUFF_LENGTH) (b : UInt8) :
    RowKept t s (s.storeKey sub b) := by
  refine ⟨rfl, rfl, fun x hx => ?_⟩
  rw [storeKey_keyBuffer]
  apply if_neg
  simp only [MAX_BUFF_LENGTH] at hsub hx ⊢
  omega

theorem rowKept_setKeyIndex (n : Nat) : RowKept t s (s.setKeyIndex n) :=
  ⟨if_neg ht, rfl, fun _ _ => rfl⟩

theorem rowKept_setClearOffset (n : Nat) : RowKept t s (s.setClearOffset n) :=
  ⟨rfl, if_neg ht, fun _ _ => rfl⟩

theorem rowKept_clearBuffer : RowKept t s s.clearBuffer := by
  rw [clearBuffer_eq]
  refine ⟨if_neg ht, rfl, fun x hx => if_neg ?_⟩
  simp only [MAX_BUFF_LENGTH] at hx ⊢
  omega

theorem rowKept_appendKey (hkey : s.getKeyIndex < MAX_BUFF_LENGTH) (b : UInt8) :
    RowKept t s (s.appendKey b) := by
  have hmod : s.getKeyIndex % 256 < MAX_BUFF_LENGTH :=
    Nat.lt_of_le_of_lt (Nat.mod_le _ _) hkey
  have hstore := rowKept_storeKey ht hmod b
  exact hstore.trans (rowKept_setKeyIndex (s := s.storeKey _ b) ht _)

theorem rowKept_onSpace (hkey : s.getKeyIndex < MAX_BUFF_LENGTH) : RowKept t s s.onSpace := by
  have hput : RowKept t s (s.putc 0x20) := rowKept_onScreen _
  exact (hput.trans (rowKept_appendKey (s := s.putc 0x20) ht hkey 0x20)).trans (rowKept_onScreen _)

theorem rowKept_onTab (hkey : s.getKeyIndex + 3 < MAX_BUFF_LENGTH) : RowKept t s s.onTab := by
  have htab : s.onTab = s.onSpace.onSpace.onSpace.onSpace := rfl
  have hbuf : MAX_BUFF_LENGTH = 128 := rfl
  have hk₁ := getKeyIndex_onSpace s
  have hk₂ := getKeyIndex_onSpace s.onSpace
  have hk₃ := getKeyIndex_onSpace s.onSpace.onSpace
  have hstep : ∀ s : Term, t ≠ s.displayTerminal → t ≠ s.onSpace.displayTerminal := by
    intro s ht
    rw [(sameView_onSpace s).display]
    exact ht
  have h₁ := rowKept_onSpace ht (by omega)
  have h₂ := rowKept_onSpace (hstep _ ht) (by omega)
  have h₃ := rowKept_onSpace (hstep _ (hstep _ ht)) (by omega)
  have h₄ := rowKept_onSpace (hstep _ (hstep _ (hstep _ ht))) (by omega)
  rw [htab]
  exact ((h₁.trans h₂).trans h₃).trans h₄

theorem rowKept_onBack (hkey : s.getKeyIndex < MAX_BUFF_LENGTH) : RowKept t s s.onBack := by
  have hmod : s.getKeyIndex % 256 < MAX_BUFF_LENGTH :=
    Nat.lt_of_le_of_lt (Nat.mod_le _ _) hkey
  simp only [onBack]
  split
  · have hback : RowKept t s s.printBackspace := ⟨rfl, rfl, fun _ _ => rfl⟩
    have hstore := rowKept_storeKey (s := s.printBackspace) ht hmod 0
    exact (hback.trans hstore).trans (rowKept_setKeyIndex (s := s.printBackspace.storeKey _ 0) ht _)
  · exact .refl t s

theorem rowKept_onEnter (hkey : s.getKeyIndex < MAX_BUFF_LENGTH) : RowKept t s s.onEnter := by
  have hmod : s.getKeyIndex % 256 < MAX_BUFF_LENGTH :=
    Nat.lt_of_le_of_lt (Nat.mod_le _ _) hkey
  have hstore := rowKept_storeKey ht hmod 0x0A
  exact ⟨(if_neg ht).trans hstore.index, (if_neg ht).trans hstore.offset, hstore.row⟩

theorem rowKept_onCtrlL : RowKept t s s.onCtrlL := by
  have hmark : ∀ {s : Term}, t ≠ s.displayTerminal → RowKept t s s.markCleared := by
    intro s ht
    unfold markCleared
    split
    · exact rowKept_setClearOffset ht _
    · exact rowKept_clearBuffer ht
  have hclear : ∀ f, RowKept t s (s.onScreen f).markCleared :=
    fun f => (rowKept_onScreen f).trans (hmark ht)
  unfold onCtrlL showPrompt
  exact (hclear Screen.clear).trans (rowKept_onScreen _)

theorem rowKept_typeInput (hkey : s.getKeyIndex < MAX_BUFF_LENGTH) (b : UInt8) :
    RowKept t s (s.typeInput b) := by
  have hput : RowKept t s (s.putc b) := rowKept_onScreen _
  have htyped := hput.trans (rowKept_appendKey (s := s.putc b) ht hkey b)
  unfold typeInput
  split
  · exact rowKept_onCtrlL ht
  · split
    · exact htyped.trans ⟨rfl, rfl, fun _ _ => rfl⟩
    · exact htyped.trans (rowKept_onScreen _)

/-- A key writes to the displayed terminal's row alone. -/
theorem rowKept_key (rom : Nat → UInt8) {scancode : UInt8}
    (hkey : s.getKeyIndex < MAX_BUFF_LENGTH)
    (htab : keyLabel scancode = .tab → s.getKeyIndex + 3 < MAX_BUFF_LENGTH) :
    RowKept t s (s.keyboardHandler rom scancode) := by
  unfold keyboardHandler
  cases hlabel : keyLabel scancode with
  | space => exact rowKept_onSpace ht hkey
  | tab => exact rowKept_onTab ht (htab hlabel)
  | back => exact rowKept_onBack ht hkey
  | enter => exact rowKept_onEnter ht hkey
  | other =>
    simp only [onDefault]
    split
    · have htrace : RowKept t s { s with trace := s.trace ++ [Access.keyTable
          (tableIndexOf scancode.toNat s.shiftHeld s.capslockCheck)] } :=
        ⟨rfl, rfl, fun _ _ => rfl⟩
      exact htrace.trans (@rowKept_typeInput t { s with trace := s.trace ++ [Access.keyTable
        (tableIndexOf scancode.toNat s.shiftHeld s.capslockCheck)] } ht hkey _)
    · exact .refl t s
  | f u =>
    simp only [onFunctionKey]
    split
    · exact ⟨rfl, rfl, fun _ _ => rfl⟩
    · exact .refl t s
  | _ => exact ⟨rfl, rfl, fun _ _ => rfl⟩

end

/-! ## Lines in the buffer -/

/-- Row `t` of the buffer holds the line, of which the first `floor` characters are out of reach. -/
structure RowSim (s : Term) (t : Nat) (line : List UInt8) (floor : Nat) : Prop where
  text : line = (List.range (s.keyIndex t)).map fun x => s.keyBuffer (MAX_BUFF_LENGTH * t + x)
  bound : line.length ≤ 127
  plain : ∀ b ∈ line, b ≠ 0 ∧ b ≠ 0x0A
  offset : s.clearOffset t = floor
  floor_le : floor ≤ line.length

theorem RowSim.length {s : Term} {t : Nat} {line : List UInt8} {floor : Nat}
    (h : RowSim s t line floor) : s.keyIndex t = line.length := by
  rw [h.text, List.length_map, List.length_range]

theorem RowSim.kept {s s' : Term} {t : Nat} {line : List UInt8} {floor : Nat}
    (h : RowSim s t line floor) (hkept : RowKept t s s') : RowSim s' t line floor := by
  have hlen := h.length
  have hbound := h.bound
  refine ⟨?_, h.bound, h.plain, hkept.offset.trans h.offset, h.floor_le⟩
  rw [hkept.index, h.text]
  apply List.map_congr_left
  intro x hx
  have hlt := List.mem_range.mp hx
  exact (hkept.row x (by unfold MAX_BUFF_LENGTH; omega)).symm

theorem rowSim_empty {s : Term} {t : Nat} (hindex : s.keyIndex t = 0)
    (hoffset : s.clearOffset t = 0) : RowSim s t [] 0 := by
  refine ⟨?_, Nat.zero_le _, fun _ hb => absurd hb List.not_mem_nil, hoffset, Nat.le_refl 0⟩
  rw [hindex]
  rfl

/-- For the displayed terminal this is the relation between the handler and the ideal editor. -/
theorem RowSim.editor {w : IoState} (h : RowSim w.term w.display (w.line w.display)
    (w.floor w.display)) : EditorSim (w.term.setEnterDown false) w.editor :=
  ⟨h.text, h.bound, h.plain, h.offset, h.floor_le, rfl, rfl, rfl, rfl, rfl⟩

theorem EditorSim.rowSim {s : Term} {b : Bool} {e : LineEditor} (h : EditorSim (s.setEnterDown b) e) :
    RowSim s s.displayTerminal e.line e.floor :=
  ⟨h.text, h.bound, h.plain, h.floor, h.floor_le⟩

/-- What a reader gets for a line. -/
def lineResult (line : List UInt8) : ReadResult :=
  ⟨line.length + 1, line ++ 0x0A :: List.replicate (127 - line.length) 0⟩

/-- The displayed row holds a finished line. -/
structure Stored (s : Term) (line : List UInt8) : Prop where
  text : ∀ i ≤ line.length, s.displayedRow i = (line ++ [0x0A]).getD i 0
  plain : ∀ b ∈ line, b ≠ 0 ∧ b ≠ 0x0A
  bound : line.length ≤ 127

theorem Stored.copyLine {s : Term} {line : List UInt8} (h : Stored s line) :
    s.copyLine.1 = lineResult line := by
  have hcopied := lineLoop_line h.plain h.bound h.text
  simp only [Term.copyLine, hcopied, strncpy_line h.plain h.bound, lineResult, List.length_append,
    List.length_singleton]
  rfl

/-! ## Lines on their way -/

/-- The reader has noticed ENTER and is not done yet. -/
def ReadPhase.taking : ReadPhase → Bool
  | .clear _ | .copy | .clearBuffer _ => true
  | _ => false

/-- The reader was called for at least one byte. -/
def ReadPhase.Asks : ReadPhase → Prop
  | .reset nbytes | .poll nbytes | .clear nbytes => 0 < nbytes
  | _ => True

namespace IoState

/-- A line has been entered and the reader has not returned with it. -/
def delivering (w : IoState) : Bool :=
  (w.phase w.display).taking || w.polling w.display && w.term.enterDown

end IoState

/-- Where the line is: in the buffer, or already in the reader's hands. -/
def InTransit (s : Term) (line : List UInt8) : ReadPhase → Prop
  | .clearBuffer r => r = lineResult line
  | _ => Stored s line

structure DeliveryInv (w : IoState) : Prop where
  display : w.display < 3
  rows : ∀ t, RowSim w.term t (w.line t) (w.floor t)
  asks : ∀ t, (w.phase t).Asks
  away : ∀ t, t ≠ w.display → (w.phase t).taking = false
  settled : ∀ t, t ≠ w.display ∨ w.delivering = false →
    w.returned t = (w.typed t).map lineResult
  transit : w.delivering = true → w.line w.display = [] ∧ ∃ earlier line,
    w.typed w.display = earlier ++ [line] ∧ w.returned w.display = earlier.map lineResult ∧
      InTransit w.term line (w.phase w.display)

/-- Between ENTER and the return of the reader no key changes the line buffer, ENTER is not released
before the reader has noticed it, and the display is not switched; nor is it ever switched to a
reader that would take a pressed ENTER for its own. -/
structure KeyWaits (w : IoState) (scancode : UInt8) : Prop where
  quiet : w.delivering = true → keyLabel scancode ≠ .space ∧ keyLabel scancode ≠ .tab ∧
    keyLabel scancode ≠ .enter ∧ (keyLabel scancode = .other → INPUT_CUTOFF ≤ scancode.toNat)
  release : keyLabel scancode = .enterOff → ¬(w.polling w.display ∧ w.term.enterDown)
  switch : ∀ t : Fin 3, keyLabel scancode = .f t → w.term.altCheck → w.display ≠ t →
    w.delivering = false ∧ ¬(w.polling t ∧ w.term.enterDown)
  code : keyLabel scancode = .other → scancode.toNat < INPUT_CUTOFF → IsEditCode scancode.toNat
  fits : (w.editor.press scancode).line.length ≤ 127

/-- A reader of a terminal that is not displayed neither takes a pressed ENTER nor resets one that
the displayed terminal's reader is waiting for. -/
def IoFits (w : IoState) : IoEvent → Prop
  | .key scancode => KeyWaits w scancode
  | .call _ nbytes => 0 < nbytes
  | .reader t => t = w.display ∨ w.term.enterDown = false ∨
      w.polling t = false ∧ w.polling w.display = false

set_option synthInstance.maxSize 256 in
instance (w : IoState) (scancode : UInt8) : Decidable (KeyWaits w scancode) :=
  decidable_of_iff
    ((w.delivering = true → keyLabel scancode ≠ .space ∧ keyLabel scancode ≠ .tab ∧
        keyLabel scancode ≠ .enter ∧ (keyLabel scancode = .other → INPUT_CUTOFF ≤ scancode.toNat)) ∧
      (keyLabel scancode = .enterOff → ¬(w.polling w.display ∧ w.term.enterDown)) ∧
      (∀ t : Fin 3, keyLabel scancode = .f t → w.term.altCheck → w.display ≠ t →
        w.delivering = false ∧ ¬(w.polling t ∧ w.term.enterDown)) ∧
      (keyLabel scancode = .other → scancode.toNat < INPUT_CUTOFF → IsEditCode scancode.toNat) ∧
      (w.editor.press scancode).line.length ≤ 127)
    ⟨fun h => ⟨h.1, h.2.1, h.2.2.1, h.2.2.2.1, h.2.2.2.2⟩,
      fun h => ⟨h.quiet, h.release, h.switch, h.code, h.fits⟩⟩

instance (w : IoState) : (e : IoEvent) → Decidable (IoFits w e)
  | .key scancode => inferInstanceAs (Decidable (KeyWaits w scancode))
  | .call _ nbytes => inferInstanceAs (Decidable (0 < nbytes))
  | .reader t => inferInstanceAs (Decidable (t = w.display ∨ w.term.enterDown = false ∨
      w.polling t = false ∧ w.polling w.display = false))

/-! ## What a key does to the editor -/

theorem editKey_labeled : ∀ n, n < 256 → keyLabel (UInt8.ofNat n) ≠ .other →
    editKey n = editOfLabel (keyLabel (UInt8.ofNat n)) := by
  decide +kernel

theorem editKey_release : ∀ n, n < 256 → keyLabel (UInt8.ofNat n) = .other → INPUT_CUTOFF ≤ n →
    editKey n = none ∨ editKey n = some .ignored := by
  decide +kernel

theorem LineEditor.press_labeled (e : LineEditor) {scancode : UInt8}
    (hlabel : keyLabel scancode ≠ .other) :
    e.press scancode = (editOfLabel (keyLabel scancode)).elim e e.apply := by
  have hofNat : UInt8.ofNat scancode.toNat = scancode := UInt8.ofNat_toNat
  have hkey := editKey_labeled scancode.toNat scancode.toNat_lt
  rw [hofNat] at hkey
  rw [press, hkey hlabel]

theorem LineEditor.press_release (e : LineEditor) {scancode : UInt8}
    (hlabel : keyLabel scancode = .other) (hcut : INPUT_CUTOFF ≤ scancode.toNat) :
    e.press scancode = e := by
  have hofNat : UInt8.ofNat scancode.toNat = scancode := UInt8.ofNat_toNat
  have hkey := editKey_release scancode.toNat scancode.toNat_lt
  rw [hofNat] at hkey
  rcases hkey hlabel hcut with hnone | hignored
  · rw [press, hnone]
    rfl
  · rw [press, hignored]
    rfl

theorem editCode_of_label : ∀ n, n < 256 → keyLabel (UInt8.ofNat n) ∈ [.space, .tab, .back] →
    IsEditCode n := by
  decide +kernel

theorem label_of_editCode : ∀ n, n < 256 → IsEditCode n → keyLabel (UInt8.ofNat n) ≠ .enter ∧
    keyLabel (UInt8.ofNat n) ≠ .enterOff ∧ ∀ t, keyLabel (UInt8.ofNat n) ≠ .f t := by
  decide +kernel

theorem editCode_label {scancode : UInt8} (hcode : IsEditCode scancode.toNat) :
    keyLabel scancode ≠ .enter ∧ keyLabel scancode ≠ .enterOff ∧
      ∀ t, keyLabel scancode ≠ .f t := by
  have hofNat : UInt8.ofNat scancode.toNat = scancode := UInt8.ofNat_toNat
  have hlabel := label_of_editCode scancode.toNat scancode.toNat_lt hcode
  rw [hofNat] at hlabel
  exact hlabel

/-! ## Keys -/

section

variable {w : IoState}

theorem delivering_congr {w' : IoState} (hphase : w'.phase = w.phase)
    (hdisplay : w'.display = w.display) (hdown : w'.term.enterDown = w.term.enterDown) :
    w'.delivering = w.delivering := by
  unfold IoState.delivering IoState.polling
  rw [hphase, hdisplay, hdown]

theorem not_delivering_of_phase (htaking : (w.phase w.display).taking = false)
    (hpoll : (w.phase w.display).isPoll = false) : w.delivering = false := by
  rw [IoState.delivering, IoState.polling, htaking, hpoll]
  rfl

theorem delivering_edit {s : Term} (hdisplay : s.displayTerminal = w.display) (line : List UInt8)
    (floor : Nat) : (w.edit s line floor).delivering =
      ((w.phase w.display).taking || w.polling w.display && s.enterDown) := by
  have hterm : (w.edit s line floor).display = w.display := hdisplay
  unfold IoState.delivering
  rw [hterm]
  rfl

theorem polling_phase {t : Nat} (h : w.polling t = true) : ∃ nbytes, w.phase t = .poll nbytes := by
  unfold IoState.polling at h
  cases hphase : w.phase t with
  | poll nbytes => exact ⟨nbytes, rfl⟩
  | _ =>
    rw [hphase] at h
    cases h

theorem Stored.congr {s s' : Term} {line : List UInt8} (h : Stored s line)
    (hdisplay : s'.displayTerminal = s.displayTerminal) (hbuffer : s'.keyBuffer = s.keyBuffer) :
    Stored s' line := by
  refine ⟨fun i hi => ?_, h.plain, h.bound⟩
  rw [displayedRow, hdisplay, hbuffer]
  exact h.text i hi

theorem InTransit.congr {s s' : Term} {line : List UInt8} {p : ReadPhase} (h : InTransit s line p)
    (hdisplay : s'.displayTerminal = s.displayTerminal) (hbuffer : s'.keyBuffer = s.keyBuffer) :
    InTransit s' line p := by
  cases p with
  | clearBuffer r => exact h
  | _ => exact Stored.congr h hdisplay hbuffer

/-- A change of the displayed line, by keys that neither start nor end a delivery. -/
theorem DeliveryInv.edit (hw : DeliveryInv w) {s : Term} {line : List UInt8} {floor : Nat}
    (hdisplay : s.displayTerminal = w.display)
    (hsame : (w.edit s line floor).delivering = w.delivering)
    (hrow : RowSim s w.display line floor) (hkept : ∀ t, t ≠ w.display → RowKept t w.term s)
    (hquiet : w.delivering = true → line = [] ∧ s.keyBuffer = w.term.keyBuffer) :
    DeliveryInv (w.edit s line floor) := by
  have hterm : (w.edit s line floor).display = w.display := hdisplay
  refine ⟨?_, fun t => ?_, hw.asks, fun t ht => ?_, fun t ht => ?_, fun hdel => ?_⟩
  · rw [hterm]
    exact hw.display
  · by_cases ht : t = w.display
    · subst ht
      simp only [IoState.edit, Function.update_self]
      exact hrow
    · simp only [IoState.edit, Function.update_of_ne ht]
      exact (hw.rows t).kept (hkept t ht)
  · rw [hterm] at ht
    exact hw.away t ht
  · rw [hterm, hsame] at ht
    exact hw.settled t ht
  · rw [hsame] at hdel
    rcases hw.transit hdel with ⟨-, earlier, last, htyped, hreturned, htransit⟩
    rw [hterm]
    refine ⟨?_, earlier, last, htyped, hreturned, htransit.congr hdisplay (hquiet hdel).2⟩
    simp only [IoState.edit, Function.update_self]
    exact (hquiet hdel).1

theorem keyboardHandler_enterDown (rom : Nat → UInt8) (s : Term) {scancode : UInt8}
    (hpress : keyLabel scancode ≠ .enter) (hrelease : keyLabel scancode ≠ .enterOff) :
    (s.keyboardHandler rom scancode).enterDown = s.enterDown := by
  have hsame := keyboardHandler_setEnterDown rom s.enterDown s hpress hrelease
  have hself : s.setEnterDown s.enterDown = s := rfl
  rw [hself] at hsame
  rw [hsame, setEnterDown_enterDown]

theorem DeliveryInv.key_edit (rom : Nat → UInt8) (hw : DeliveryInv w) {scancode : UInt8}
    (hcode : IsEditCode scancode.toNat) (hfits : (w.editor.press scancode).line.length ≤ 127)
    (hidle : w.delivering = false) :
    DeliveryInv (w.edit (w.term.keyboardHandler rom scancode) (w.editor.press scancode).line
      (w.editor.press scancode).floor) := by
  have hbuf : MAX_BUFF_LENGTH = 128 := rfl
  have hsim := (hw.rows w.display).editor
  have hkey : w.term.getKeyIndex = w.editor.line.length := hsim.length.symm
  have hbound := hsim.bound
  rcases editCode_label hcode with ⟨hpress, hrelease, hswitch⟩
  have htyped := hsim.press rom hcode hfits
  rw [keyboardHandler_setEnterDown rom false w.term hpress hrelease] at htyped
  have hdisplay := (sameView_keyboardHandler rom w.term hswitch).display
  have hrow := htyped.rowSim
  rw [hdisplay] at hrow
  have htab : keyLabel scancode = .tab → w.term.getKeyIndex + 3 < MAX_BUFF_LENGTH := by
    intro hlabel
    rw [LineEditor.press_labeled _ (by rw [hlabel]; decide), hlabel] at hfits
    simp only [editOfLabel, Option.elim, LineEditor.apply, List.length_append,
      List.length_replicate] at hfits
    omega
  have hdown := keyboardHandler_enterDown rom w.term hpress hrelease
  refine hw.edit hdisplay (delivering_congr rfl hdisplay hdown) hrow
    (fun t ht => rowKept_key ht rom (by omega) htab) fun hdel => ?_
  rw [hidle] at hdel
  cases hdel

/-- A key that leaves the buffer and the line as they are. -/
theorem DeliveryInv.key_flags (hw : DeliveryInv w) {s : Term} {e : LineEditor}
    (hdisplay : s.displayTerminal = w.display)
    (hsame : (w.edit s (w.line w.display) (w.floor w.display)).delivering = w.delivering)
    (hindex : s.keyIndex = w.term.keyIndex) (hoffset : s.clearOffset = w.term.clearOffset)
    (hbuffer : s.keyBuffer = w.term.keyBuffer) (hline : e.line = w.line w.display)
    (hfloor : e.floor = w.floor w.display) : DeliveryInv (w.edit s e.line e.floor) := by
  have hkept : ∀ t, RowKept t w.term s :=
    fun t => ⟨congrFun hindex t, congrFun hoffset t, fun x _ => congrFun hbuffer _⟩
  rw [hline, hfloor]
  exact hw.edit hdisplay hsame ((hw.rows _).kept (hkept _)) (fun t _ => hkept t)
    fun hdel => ⟨(hw.transit hdel).1, hbuffer⟩

theorem not_delivering (h : w.delivering = false) : (w.phase w.display).taking = false ∧
    (w.polling w.display = true → w.term.enterDown = false) := by
  rw [IoState.delivering, Bool.or_eq_false_iff, Bool.and_eq_false_iff] at h
  refine ⟨h.1, fun hpoll => ?_⟩
  exact h.2.resolve_left (by rw [hpoll]; decide)

-- ENTER with a reader in its loop: the line is on its way, and the row is empty.
theorem DeliveryInv.commit (hw : DeliveryInv w) {s : Term}
    (hdisplay : s.displayTerminal = w.display) (hdown : s.enterDown = true)
    (hempty : RowSim s w.display [] 0)
    (hkept : ∀ t, t ≠ w.display → RowKept t w.term s) (hstored : Stored s (w.line w.display))
    (hidle : w.delivering = false) (hpoll : w.polling w.display = true) :
    DeliveryInv { w.edit s [] 0 with
      typed := Function.update w.typed w.display (w.typed w.display ++ [w.line w.display]) } := by
  have hrows : ∀ t, RowSim s t ((w.edit s [] 0).line t) ((w.edit s [] 0).floor t) := by
    intro t
    by_cases ht : t = w.display
    · subst ht
      simp only [IoState.edit, Function.update_self]
      exact hempty
    · simp only [IoState.edit, Function.update_of_ne ht]
      exact (hw.rows t).kept (hkept t ht)
  have hdel : (w.edit s [] 0).delivering = true := by
    rw [delivering_edit hdisplay, hpoll, (not_delivering hidle).1, hdown]
    rfl
  generalize hkeyed : { w.edit s [] 0 with
    typed := Function.update w.typed w.display (w.typed w.display ++ [w.line w.display]) } = w'
  have hterm : w'.display = w.display := by
    rw [← hkeyed]
    exact hdisplay
  have hdel' : w'.delivering = true := by
    rw [← hkeyed]
    exact hdel
  refine ⟨?_, ?_, ?_, fun t ht => ?_, fun t ht => ?_, fun _ => ?_⟩
  · rw [hterm]
    exact hw.display
  · rw [← hkeyed]
    exact hrows
  · rw [← hkeyed]
    exact hw.asks
  · rw [hterm] at ht
    rw [← hkeyed]
    exact hw.away t ht
  · have hne := ht.resolve_right (by rw [hdel']; decide)
    rw [hterm] at hne
    rw [← hkeyed]
    simp only [IoState.edit, Function.update_of_ne hne]
    exact hw.settled t (.inl hne)
  · rw [hterm, ← hkeyed]
    rcases polling_phase hpoll with ⟨nbytes, hphase⟩
    refine ⟨?_, w.typed w.display, w.line w.display, ?_, hw.settled _ (.inr hidle), ?_⟩
    · simp only [IoState.edit, Function.update_self]
    · simp only [Function.update_self]
    · show InTransit s (w.line w.display) (w.phase w.display)
      rw [hphase]
      exact hstored

/-- ENTER ends the line; if a reader is waiting, the line is on its way. -/
theorem DeliveryInv.key_enter (rom : Nat → UInt8) (hw : DeliveryInv w) {scancode : UInt8}
    (hlabel : keyLabel scancode = .enter) (hidle : w.delivering = false) :
    DeliveryInv (w.key rom scancode) := by
  have hsim := (hw.rows w.display).editor
  have hkey : w.term.getKeyIndex = w.editor.line.length := hsim.length.symm
  have hbound := hsim.bound
  have hbuf : MAX_BUFF_LENGTH = 128 := rfl
  have hhandler : w.term.keyboardHandler rom scancode = w.term.onEnter := by
    unfold keyboardHandler
    rw [hlabel]
  have hdisplay : w.term.onEnter.displayTerminal = w.display := (sameView_onEnter w.term).display
  have hdown : w.term.onEnter.enterDown = true := rfl
  have hempty : RowSim w.term.onEnter w.display [] 0 := rowSim_empty (if_pos rfl) (if_pos rfl)
  have hkept : ∀ t, t ≠ w.display → RowKept t w.term w.term.onEnter :=
    fun t ht => rowKept_onEnter ht (by omega)
  have hstored : Stored w.term.onEnter (w.line w.display) :=
    ⟨fun _ hi => hsim.onEnter_row hi, hsim.plain, hsim.bound⟩
  -- nothing else about the handler's result is needed
  generalize w.term.onEnter = s at hhandler hdisplay hdown hempty hkept hstored
  by_cases hpoll : w.polling w.display = true
  · rw [IoState.key, if_pos hlabel, if_pos hpoll, hhandler]
    exact hw.commit hdisplay hdown hempty hkept hstored hidle hpoll
  · have hsame : (w.edit s [] 0).delivering = w.delivering := by
      rw [delivering_edit hdisplay, hidle, (not_delivering hidle).1, Bool.eq_false_iff.mpr hpoll]
      rfl
    rw [IoState.key, if_pos hlabel, if_neg hpoll, hhandler]
    refine hw.edit hdisplay hsame hempty hkept fun hdel => ?_
    rw [hidle] at hdel
    cases hdel

theorem DeliveryInv.key_release (rom : Nat → UInt8) (hw : DeliveryInv w) {scancode : UInt8}
    (hlabel : keyLabel scancode = .enterOff)
    (hrelease : ¬(w.polling w.display ∧ w.term.enterDown)) : DeliveryInv (w.key rom scancode) := by
  have hkey : w.key rom scancode = w.edit (w.term.setEnterDown false) (w.editor.press scancode).line
      (w.editor.press scancode).floor := by
    simp only [IoState.key, keyboardHandler, hlabel]
    rfl
  have hpress : w.editor.press scancode = w.editor := by
    rw [LineEditor.press_labeled _ (by rw [hlabel]; decide), hlabel]
    rfl
  have hsame : (w.edit (w.term.setEnterDown false) (w.line w.display)
      (w.floor w.display)).delivering = w.delivering := by
    have hup : (w.polling w.display && w.term.enterDown) = false := by
      rw [Bool.eq_false_iff, ne_eq, Bool.and_eq_true]
      exact hrelease
    have hdisplay : (w.term.setEnterDown false).displayTerminal = w.display := rfl
    rw [delivering_edit hdisplay, IoState.delivering, hup, setEnterDown_enterDown, Bool.and_false]
  rw [hkey, hpress]
  exact hw.key_flags rfl hsame rfl rfl rfl rfl rfl

/-- A terminal comes to the front with nothing on its way. -/
theorem DeliveryInv.key_switch (hw : DeliveryInv w) {t : Nat} (ht : t < 3) (hne : w.display ≠ t)
    (hidle : w.delivering = false) (hwait : ¬(w.polling t ∧ w.term.enterDown)) :
    DeliveryInv (w.edit (w.term.switchDisplayTerminal t) (w.line w.display)
      (w.floor w.display)) := by
  have hedit : w.edit (w.term.switchDisplayTerminal t) (w.line w.display) (w.floor w.display) =
      w.setTerm (w.term.switchDisplayTerminal t) := by
    simp only [IoState.edit, Function.update_eq_self]
    rfl
  have hdel : (w.setTerm (w.term.switchDisplayTerminal t)).delivering = false := by
    show ((w.phase t).taking || w.polling t && w.term.enterDown) = false
    rw [hw.away t hne.symm, Bool.false_or, Bool.eq_false_iff, ne_eq, Bool.and_eq_true]
    exact hwait
  rcases not_delivering hidle with ⟨htaking, -⟩
  rw [hedit]
  refine ⟨ht, fun u => (hw.rows u).kept ⟨rfl, rfl, fun _ _ => rfl⟩, hw.asks, fun u _ => ?_,
    fun u _ => ?_, fun h => ?_⟩
  · by_cases hu : u = w.display
    · subst hu
      exact htaking
    · exact hw.away u hu
  · exact hw.settled u (.inr hidle)
  · rw [hdel] at h
    cases h

theorem DeliveryInv.key_same (hw : DeliveryInv w) {e : LineEditor} (he : e = w.editor) :
    DeliveryInv (w.edit w.term e.line e.floor) := by
  rw [he]
  exact hw.key_flags rfl (delivering_congr rfl rfl rfl) rfl rfl rfl rfl rfl

-- While a line is on its way the next one is empty, and there is nothing to erase.
theorem DeliveryInv.onBack_delivering (hw : DeliveryInv w) (hdel : w.delivering = true) :
    w.term.onBack = w.term := by
  have hrow := hw.rows w.display
  rw [(hw.transit hdel).1] at hrow
  have hindex : w.term.getKeyIndex = 0 := hrow.length
  have hoffset : w.term.clearOffset w.term.displayTerminal = 0 :=
    hrow.offset.trans (Nat.le_zero.mp hrow.floor_le)
  simp only [onBack]
  rw [if_neg (by rw [hindex, hoffset]; decide)]

theorem DeliveryInv.key (rom : Nat → UInt8) (hw : DeliveryInv w) {scancode : UInt8}
    (hfits : KeyWaits w scancode) : DeliveryInv (w.key rom scancode) := by
  have hofNat : UInt8.ofNat scancode.toNat = scancode := UInt8.ofNat_toNat
  have hcode := editCode_of_label scancode.toNat scancode.toNat_lt
  have hlabeled := @LineEditor.press_labeled w.editor scancode
  rw [hofNat] at hcode
  by_cases henter : keyLabel scancode = .enter
  · apply hw.key_enter rom henter
    by_contra hdel
    exact (hfits.quiet (by simpa using hdel)).2.2.1 henter
  · have hkey : w.key rom scancode = w.edit (w.term.keyboardHandler rom scancode)
        (w.editor.press scancode).line (w.editor.press scancode).floor := if_neg henter
    have hedit : ¬w.delivering = true → IsEditCode scancode.toNat →
        DeliveryInv (w.key rom scancode) := by
      intro hidle hcode
      rw [hkey]
      exact hw.key_edit rom hcode hfits.fits (Bool.eq_false_iff.mpr hidle)
    cases hlabel : keyLabel scancode with
    | enter => exact absurd hlabel henter
    | enterOff => exact hw.key_release rom hlabel (hfits.release hlabel)
    | space => exact hedit (fun h => (hfits.quiet h).1 hlabel) (hcode (by simp [hlabel]))
    | tab => exact hedit (fun h => (hfits.quiet h).2.1 hlabel) (hcode (by simp [hlabel]))
    | back =>
      by_cases hdel : w.delivering = true
      · have hback : w.term.keyboardHandler rom scancode = w.term.onBack := by
          simp only [keyboardHandler, hlabel]
        rw [hkey, hback, hw.onBack_delivering hdel]
        apply hw.key_same
        rw [hlabeled (by rw [hlabel]; decide), hlabel]
        apply if_neg
        show ¬w.floor w.display < (w.line w.display).length
        rw [(hw.transit hdel).1]
        exact Nat.not_lt_zero _
      · exact hedit hdel (hcode (by simp [hlabel]))
    | other =>
      by_cases hcut : scancode.toNat < INPUT_CUTOFF
      · refine hedit (fun h => ?_) (hfits.code hlabel hcut)
        exact absurd hcut (Nat.not_lt.mpr ((hfits.quiet h).2.2.2 hlabel))
      · have hsame : w.term.keyboardHandler rom scancode = w.term := by
          simp only [keyboardHandler, hlabel, onDefault, if_neg hcut]
        rw [hkey, hsame]
        exact hw.key_same (w.editor.press_release hlabel (Nat.not_lt.mp hcut))
    | f t =>
      have hpress : w.editor.press scancode = w.editor := by
        rw [hlabeled (by rw [hlabel]; simp), hlabel]
        rfl
      rw [hkey, hpress]
      simp only [keyboardHandler, hlabel, onFunctionKey]
      split
      · next hswitch =>
        rcases hfits.switch t hlabel hswitch.1 hswitch.2 with ⟨hidle, hwait⟩
        exact hw.key_switch t.isLt hswitch.2 hidle hwait
      · exact hw.key_same rfl
    | _ =>
      rw [hkey, hlabeled (by rw [hlabel]; simp), hlabel]
      simp only [keyboardHandler, hlabel]
      exact hw.key_flags rfl (delivering_congr rfl rfl rfl) rfl rfl rfl rfl rfl

end

/-! ## Readers -/

section

variable {w : IoState} {s : Term} {t : Nat} {p : ReadPhase}

theorem delivering_setPhase (hdisplay : s.displayTerminal = w.display) :
    ((w.setTerm s).setPhase t p).delivering =
      if t = w.display then p.taking || p.isPoll && s.enterDown
      else (w.phase w.display).taking || w.polling w.display && s.enterDown := by
  have hterm : ((w.setTerm s).setPhase t p).display = w.display := hdisplay
  unfold IoState.delivering IoState.polling
  rw [hterm]
  by_cases ht : t = w.display
  · subst ht
    rw [if_pos rfl, IoState.setPhase_phase]
    rfl
  · have hphase : ((w.setTerm s).setPhase t p).phase w.display = w.phase w.display :=
      Function.update_of_ne (Ne.symm ht) _ _
    rw [if_neg ht, hphase]
    rfl

/-- A step of a reader that returns nothing yet. -/
theorem DeliveryInv.advance (hw : DeliveryInv w) (hdisplay : s.displayTerminal = w.display)
    (hindex : s.keyIndex = w.term.keyIndex) (hoffset : s.clearOffset = w.term.clearOffset)
    (hbuffer : s.keyBuffer = w.term.keyBuffer) (hasks : p.Asks)
    (haway : t ≠ w.display → p.taking = false)
    (hsame : ((w.setTerm s).setPhase t p).delivering = w.delivering)
    (htransit : w.delivering = true → t = w.display → ∀ line,
      InTransit w.term line (w.phase w.display) → InTransit s line p) :
    DeliveryInv ((w.setTerm s).setPhase t p) := by
  have hkept : ∀ u, RowKept u w.term s :=
    fun u => ⟨congrFun hindex u, congrFun hoffset u, fun x _ => congrFun hbuffer _⟩
  have hterm : ((w.setTerm s).setPhase t p).display = w.display := hdisplay
  refine ⟨?_, fun u => (hw.rows u).kept (hkept u), fun u => ?_, fun u hu => ?_, fun u hu => ?_,
    fun hdel => ?_⟩
  · rw [hterm]
    exact hw.display
  · by_cases hut : u = t
    · subst hut
      rw [IoState.setPhase_phase]
      exact hasks
    · simp only [IoState.setPhase, Function.update_of_ne hut]
      exact hw.asks u
  · rw [hterm] at hu
    by_cases hut : u = t
    · subst hut
      rw [IoState.setPhase_phase]
      exact haway hu
    · simp only [IoState.setPhase, Function.update_of_ne hut]
      exact hw.away u hu
  · rw [hterm, hsame] at hu
    exact hw.settled u hu
  · rw [hsame] at hdel
    rcases hw.transit hdel with ⟨hline, earlier, last, htyped, hreturned, hlast⟩
    rw [hterm]
    refine ⟨hline, earlier, last, htyped, hreturned, ?_⟩
    by_cases ht : t = w.display
    · have hnext := htransit hdel ht last hlast
      subst ht
      rw [IoState.setPhase_phase]
      exact hnext
    · simp only [IoState.setPhase, Function.update_of_ne (Ne.symm ht)]
      exact hlast.congr hdisplay hbuffer

/-- The reader returns with the line, once the row is empty. -/
theorem DeliveryInv.returns (hw : DeliveryInv w) {r : ReadResult}
    (hphase : w.phase w.display = .clearBuffer r) (hdisplay : s.displayTerminal = w.display)
    (hempty : RowSim s w.display [] 0) (hkept : ∀ u, u ≠ w.display → RowKept u w.term s) :
    DeliveryInv ((w.setTerm s).ret w.display r) := by
  have hdel : w.delivering = true := by
    rw [IoState.delivering, hphase]
    rfl
  rcases hw.transit hdel with ⟨hline, earlier, last, htyped, hreturned, hlast⟩
  have hterm : ((w.setTerm s).ret w.display r).display = w.display := hdisplay
  have hdone : ((w.setTerm s).ret w.display r).delivering = false := by
    have hidle : ((w.setTerm s).ret w.display r).delivering =
        ((w.setTerm s).setPhase w.display .idle).delivering := delivering_congr rfl rfl rfl
    rw [hidle, delivering_setPhase hdisplay, if_pos rfl]
    rfl
  refine ⟨?_, fun u => ?_, fun u => ?_, fun u hu => ?_, fun u _ => ?_, fun h => ?_⟩
  · rw [hterm]
    exact hw.display
  · by_cases hu : u = w.display
    · subst hu
      have hfloor : w.floor w.display = 0 := by
        have hle := (hw.rows w.display).floor_le
        rw [hline] at hle
        exact Nat.le_zero.mp hle
      show RowSim s w.display (w.line w.display) (w.floor w.display)
      rw [hline, hfloor]
      exact hempty
    · exact (hw.rows u).kept (hkept u hu)
  · by_cases hu : u = w.display
    · subst hu
      simp only [IoState.ret, IoState.setPhase_phase]
      trivial
    · simp only [IoState.ret, IoState.setPhase, Function.update_of_ne hu]
      exact hw.asks u
  · rw [hterm] at hu
    simp only [IoState.ret, IoState.setPhase, Function.update_of_ne hu]
    exact hw.away u hu
  · by_cases hu : u = w.display
    · subst hu
      rw [hphase] at hlast
      have hresult : r = lineResult last := hlast
      show Function.update w.returned w.display (w.returned w.display ++ [r]) w.display =
        (w.typed w.display).map lineResult
      rw [Function.update_self, htyped, hreturned, hresult, List.map_append, List.map_singleton]
    · have hother : ((w.setTerm s).ret w.display r).returned u = w.returned u :=
        Function.update_of_ne hu _ _
      rw [hother]
      exact hw.settled u (.inl hu)
  · rw [hdone] at h
    cases h

theorem DeliveryInv.clearBuffer_empty (hw : DeliveryInv w) (hdel : w.delivering = true) :
    RowSim w.term.clearBuffer w.display [] 0 := by
  have hrow := hw.rows w.display
  have hfloor : w.floor w.display = 0 := by
    have hle := hrow.floor_le
    rw [(hw.transit hdel).1] at hle
    exact Nat.le_zero.mp hle
  rw [clearBuffer_eq]
  exact rowSim_empty (if_pos rfl) (hrow.offset.trans hfloor)

-- Before the loop the flag goes down; that loses no line unless one is on its way.
theorem DeliveryInv.reset (hw : DeliveryInv w)
    (hfits : t = w.display ∨ w.term.enterDown = false ∨
      w.polling t = false ∧ w.polling w.display = false) {nbytes : Int}
    (hphase : w.phase t = .reset nbytes) :
    DeliveryInv ((w.setTerm w.term.terminalReadStart).setPhase t (.poll nbytes)) := by
  have hasks := hw.asks t
  rw [hphase] at hasks
  have hdisplay : w.term.terminalReadStart.displayTerminal = w.display := rfl
  have hdown : w.term.terminalReadStart.enterDown = false := rfl
  have hidle : t = w.display → w.delivering = false := by
    intro ht
    apply not_delivering_of_phase <;> rw [← ht, hphase] <;> rfl
  refine hw.advance hdisplay rfl rfl rfl hasks (fun _ => rfl) ?_ fun hdel ht => ?_
  · rw [delivering_setPhase hdisplay, hdown]
    by_cases ht : t = w.display
    · rw [if_pos ht, hidle ht]
      rfl
    · rw [if_neg ht, IoState.delivering, Bool.and_false]
      rcases hfits.resolve_left ht with hup | ⟨-, hpoll⟩
      · rw [hup, Bool.and_false]
      · rw [hpoll, Bool.false_and]
  · rw [hidle ht] at hdel
    cases hdel

-- Only the displayed terminal's reader may find the flag set.
theorem DeliveryInv.notice (hw : DeliveryInv w)
    (hfits : t = w.display ∨ w.term.enterDown = false ∨
      w.polling t = false ∧ w.polling w.display = false) {nbytes : Int}
    (hphase : w.phase t = .poll nbytes) (hdown : w.term.enterDown = true) :
    DeliveryInv (w.setPhase t (.clear nbytes)) := by
  have hasks := hw.asks t
  rw [hphase] at hasks
  have hself : w.setTerm w.term = w := rfl
  have hpoll : w.polling t = true := by rw [IoState.polling, hphase]; rfl
  have ht : t = w.display := by
    rcases hfits with ht | hup | hnot
    · exact ht
    · rw [hdown] at hup
      cases hup
    · rw [hpoll] at hnot
      cases hnot.1
  rw [← hself]
  refine hw.advance rfl rfl rfl rfl hasks (fun hne => absurd ht hne) ?_ fun _ _ line hline => ?_
  · rw [delivering_setPhase rfl, if_pos ht, IoState.delivering, ← ht, hpoll, hdown, hphase]
    rfl
  · rw [← ht, hphase] at hline
    exact hline

theorem DeliveryInv.readerStep (hw : DeliveryInv w)
    (hfits : t = w.display ∨ w.term.enterDown = false ∨
      w.polling t = false ∧ w.polling w.display = false) {w' : IoState}
    (hstep : w.readerStep t = some w') : DeliveryInv w' := by
  have hasks := hw.asks t
  -- a reader that has noticed ENTER is the displayed terminal's
  have hfront : (w.phase t).taking = true → t = w.display := by
    intro htaking
    by_contra ht
    rw [hw.away t ht] at htaking
    cases htaking
  cases hphase : w.phase t with
  | idle =>
    simp only [IoState.readerStep, hphase] at hstep
    cases hstep
  | reset nbytes =>
    simp only [IoState.readerStep, hphase] at hstep
    cases hstep
    exact hw.reset hfits hphase
  | poll nbytes =>
    simp only [IoState.readerStep, hphase] at hstep
    cases hstep
    by_cases hdown : w.term.enterDown = true
    · rw [if_pos hdown]
      exact hw.notice hfits hphase hdown
    · rw [if_neg hdown]
      exact hw
  | clear nbytes =>
    rw [hphase] at hasks hfront
    have ht := hfront rfl
    rw [IoState.readerStep_clear hphase hasks] at hstep
    cases hstep
    have hdisplay : (w.term.setEnterDown false).displayTerminal = w.display := rfl
    refine hw.advance hdisplay rfl rfl rfl trivial (fun hne => absurd ht hne) ?_
      fun _ _ line hline => ?_
    · rw [delivering_setPhase hdisplay, if_pos ht, IoState.delivering, ← ht, hphase]
      rfl
    · rw [← ht, hphase] at hline
      exact Stored.congr hline rfl rfl
  | copy =>
    rw [hphase] at hfront
    have ht := hfront rfl
    rw [IoState.readerStep_copy hphase] at hstep
    cases hstep
    have hdisplay : w.term.copyLine.2.displayTerminal = w.display := rfl
    refine hw.advance hdisplay rfl rfl rfl trivial (fun hne => absurd ht hne) ?_
      fun _ _ line hline => ?_
    · rw [delivering_setPhase hdisplay, if_pos ht, IoState.delivering, ← ht, hphase]
      rfl
    · rw [← ht, hphase] at hline
      exact Stored.copyLine hline
  | clearBuffer r =>
    rw [hphase] at hfront
    have ht := hfront rfl
    subst ht
    have hdel : w.delivering = true := by
      rw [IoState.delivering, hphase]
      rfl
    rw [IoState.readerStep_clearBuffer hphase] at hstep
    cases hstep
    exact hw.returns hphase (sameView_clearBuffer _).display (hw.clearBuffer_empty hdel)
      fun u hu => rowKept_clearBuffer hu

end

/-! ## Every run -/

theorem DeliveryInv.call {w : IoState} (hw : DeliveryInv w) {t : Nat} {nbytes : Int}
    (hn : 0 < nbytes) (hphase : w.phase t = .idle) : DeliveryInv (w.setPhase t (.reset nbytes)) := by
  have hself : w.setTerm w.term = w := rfl
  have hidle : t = w.display → w.delivering = false := by
    intro ht
    apply not_delivering_of_phase <;> rw [← ht, hphase] <;> rfl
  rw [← hself]
  refine hw.advance rfl rfl rfl rfl hn (fun _ => rfl) ?_ fun hdel ht => ?_
  · rw [delivering_setPhase rfl]
    by_cases ht : t = w.display
    · rw [if_pos ht, hidle ht]
      rfl
    · rw [if_neg ht]
      rfl
  · rw [hidle ht] at hdel
    cases hdel

theorem ioStep_inv (rom : Nat → UInt8) (w : IoState) (e : IoEvent) (w' : IoState)
    (hw : DeliveryInv w) (hfits : IoFits w e) (hstep : ioStep rom w e = some w') :
    DeliveryInv w' := by
  cases e with
  | key scancode =>
    rw [← Option.some.inj hstep]
    exact hw.key rom hfits
  | call t nbytes =>
    simp only [ioStep] at hstep
    split at hstep
    · next hphase =>
      rw [← Option.some.inj hstep]
      exact hw.call hfits hphase
    · cases hstep
  | reader t => exact hw.readerStep hfits hstep

/-- The readers are idle and no line has been started. -/
def IoState.boot (screen : Screen) : IoState where
  term := (bootTerm screen).terminalInit
  phase _ := .idle
  line _ := []
  floor _ := 0
  typed _ := []
  returned _ := []

theorem boot_inv (screen : Screen) : DeliveryInv (IoState.boot screen) := by
  have hindex : ∀ t, (bootTerm screen).terminalInit.keyIndex t = 0 := by
    intro t
    unfold terminalInit
    generalize Screen.clear = f
    rw [clearBuffer_eq]
    exact ite_self _
  have hoffset : ∀ t, (bootTerm screen).terminalInit.clearOffset t = 0 := by
    intro t
    unfold terminalInit
    generalize Screen.clear = f
    rw [clearBuffer_eq]
    exact ite_self _
  refine ⟨?_, fun t => rowSim_empty (hindex t) (hoffset t), fun _ => trivial, fun _ _ => rfl,
    fun _ _ => rfl, fun hdel => by cases hdel⟩
  exact (terminalInit_inv screen).display

section

variable {w : IoState} {t : Fin 3}

/-- The reader's own next steps end the delivery. -/
def Delivers (rom : Nat → UInt8) (t : Fin 3) (w : IoState) : Prop :=
  ∃ n w', run (ioStep rom) w (List.replicate n (.reader t)) = some w' ∧ w'.typed = w.typed ∧
    w'.returned w.display = (w.typed w.display).map lineResult

theorem Delivers.step {rom : Nat → UInt8} {w' : IoState} (hstep : w.readerStep t = some w')
    (htyped : w'.typed = w.typed) (hdisplay : w'.display = w.display) (h : Delivers rom t w') :
    Delivers rom t w := by
  rcases h with ⟨n, w'', hrun, htyped', hreturned⟩
  refine ⟨n + 1, w'', run_cons_eq_some.mpr ⟨w', hstep, hrun⟩, htyped'.trans htyped, ?_⟩
  rw [← hdisplay, hreturned, htyped]

section

variable (rom : Nat → UInt8) (hw : DeliveryInv w) (ht : (t : Nat) = w.display)

include hw ht

theorem DeliveryInv.delivers_clearBuffer {r : ReadResult} (hphase : w.phase t = .clearBuffer r) :
    Delivers rom t w := by
  have hstep := IoState.readerStep_clearBuffer hphase
  have hnext := hw.readerStep (.inl ht) hstep
  have hdisplay : ((w.setTerm w.term.clearBuffer).ret t r).display = w.display :=
    (sameView_clearBuffer w.term).display
  have hdone : ((w.setTerm w.term.clearBuffer).ret t r).delivering = false := by
    have hidle : ((w.setTerm w.term.clearBuffer).ret t r).phase w.display = .idle := by
      rw [← ht]
      exact IoState.setPhase_phase _
    rw [IoState.delivering, IoState.polling, hdisplay, hidle]
    rfl
  have hreturned := hnext.settled w.display (.inr hdone)
  have hrun : run (ioStep rom) w (List.replicate 1 (.reader t)) =
      some ((w.setTerm w.term.clearBuffer).ret t r) :=
    run_cons_eq_some.mpr ⟨_, hstep, run_nil _⟩
  rw [IoState.ret_typed, IoState.setTerm_typed] at hreturned
  exact ⟨1, _, hrun, by rw [IoState.ret_typed, IoState.setTerm_typed], hreturned⟩

theorem DeliveryInv.delivers_copy (hphase : w.phase t = .copy) : Delivers rom t w := by
  have hstep := IoState.readerStep_copy hphase
  have hnext := hw.readerStep (.inl ht) hstep
  exact (hnext.delivers_clearBuffer rom ht (IoState.setPhase_phase _)).step hstep rfl rfl

theorem DeliveryInv.delivers_clear {nbytes : Int} (hphase : w.phase t = .clear nbytes) :
    Delivers rom t w := by
  have hasks := hw.asks t
  rw [hphase] at hasks
  have hstep := IoState.readerStep_clear hphase hasks
  have hnext := hw.readerStep (.inl ht) hstep
  exact (hnext.delivers_copy rom ht (IoState.setPhase_phase _)).step hstep rfl rfl

theorem DeliveryInv.delivers (hdel : w.delivering = true) : Delivers rom t w := by
  rw [IoState.delivering, ← ht] at hdel
  cases hphase : w.phase t with
  | idle | reset =>
    rw [IoState.polling, hphase] at hdel
    cases hdel
  | poll nbytes =>
    have hdown : w.term.enterDown = true := by
      rw [hphase] at hdel
      exact (Bool.and_eq_true_iff.mp hdel).2
    have hstep := IoState.readerStep_poll hphase hdown
    have hnext := hw.readerStep (.inl ht) hstep
    exact (hnext.delivers_clear rom ht (IoState.setPhase_phase _)).step hstep rfl rfl
  | clear nbytes => exact hw.delivers_clear rom ht hphase
  | copy => exact hw.delivers_copy rom ht hphase
  | clearBuffer r => exact hw.delivers_clearBuffer rom ht hphase

end

end

/-- In every run that keeps to the condition, each terminal's readers have got the lines entered for
them, all of them, in order and unchanged; a line that is still missing is the last one of the
displayed terminal, and its reader gets it within its next steps. -/
theorem lines_delivered (rom : Nat → UInt8) (screen : Screen) {es : List IoEvent}
    (hfits : Along (ioStep rom) IoFits (IoState.boot screen) es) {w : IoState}
    (hrun : run (ioStep rom) (IoState.boot screen) es = some w) :
    (∀ t, t ≠ w.display ∨ w.delivering = false → w.returned t = (w.typed t).map lineResult) ∧
    (w.delivering = true → ∃ t : Fin 3, (t : Nat) = w.display ∧
      (∃ earlier line, w.typed t = earlier ++ [line] ∧ w.returned t = earlier.map lineResult) ∧
      ∃ n w', run (ioStep rom) w (List.replicate n (.reader t)) = some w' ∧ w'.typed = w.typed ∧
        w'.returned t = (w.typed t).map lineResult) := by
  have hw := run_invariant (ioStep_inv rom) (boot_inv screen) hfits hrun
  refine ⟨hw.settled, fun hdel => ⟨⟨w.display, hw.display⟩, rfl, ?_, hw.delivers rom rfl hdel⟩⟩
  rcases hw.transit hdel with ⟨-, earlier, line, htyped, hreturned, -⟩
  exact ⟨earlier, line, htyped, hreturned⟩

-- The letter and ENTER go down and the letter comes up before the reader is back.
theorem lines_delivered_letter :
    ∃ w, run (ioStep fun _ => 0) (IoState.boot blankScreen)
        [.call 0 128, .reader 0, .key 0x1E, .key 0x1C, .key 0x9E, .reader 0, .reader 0, .reader 0,
          .reader 0, .key 0x9C] = some w ∧
      w.typed 0 = [[0x61]] ∧ w.returned 0 = [lineResult [0x61]] := by
  rcases hrun : run (ioStep fun _ => 0) (IoState.boot blankScreen)
    [.call 0 128, .reader 0, .key 0x1E, .key 0x1C, .key 0x9E, .reader 0, .reader 0, .reader 0,
      .reader 0, .key 0x9C] with _ | w
  · exact absurd hrun (by decide +kernel)
  · have hend : (run (ioStep fun _ => 0) (IoState.boot blankScreen)
        [.call 0 128, .reader 0, .key 0x1E, .key 0x1C, .key 0x9E, .reader 0, .reader 0, .reader 0,
          .reader 0, .key 0x9C]).map (fun w => (w.typed 0, w.delivering)) =
        some ([[0x61]], false) := by
      decide +kernel
    rw [hrun] at hend
    have hend := Prod.mk.inj (Option.some.inj hend)
    have hreturned := (lines_delivered (fun _ => 0) blankScreen (by decide +kernel) hrun).1 0
      (.inr hend.2)
    rw [hend.1] at hreturned
    exact ⟨w, rfl, hend.1, hreturned⟩

/-- A reader that finds `enter_down` clear goes on polling. -/
theorem readerStep_waits (rom : Nat → UInt8) {w : IoState} {t : Fin 3} {nbytes : Int}
    (hphase : w.phase t = .poll nbytes) (hdown : w.term.enterDown = false) (n : Nat) :
    run (ioStep rom) w (List.replicate n (.reader t)) = some w := by
  have hstep : w.readerStep t = some w := by
    simp [IoState.readerStep, hphase, hdown]
  induction n with
  | zero => rfl
  | succ n ih => exact run_cons_eq_some.mpr ⟨w, hstep, ih⟩

-- ENTER is pressed and released between two polls.
theorem line_lost :
    ∃ w, run (ioStep fun _ => 0) (IoState.boot blankScreen)
        [.call 0 128, .reader 0, .key 0x1E, .key 0x1C, .key 0x9C] = some w ∧
      w.typed 0 = [[0x61]] ∧
      ∀ n w', run (ioStep fun _ => 0) w (List.replicate n (.reader 0)) = some w' →
        w'.returned 0 = [] := by
  rcases hrun : run (ioStep fun _ => 0) (IoState.boot blankScreen)
    [.call 0 128, .reader 0, .key 0x1E, .key 0x1C, .key 0x9C] with _ | w
  · exact absurd hrun (by decide +kernel)
  · have hend : (run (ioStep fun _ => 0) (IoState.boot blankScreen)
        [.call 0 128, .reader 0, .key 0x1E, .key 0x1C, .key 0x9C]).map
          (fun w => (w.typed 0, w.returned 0, w.phase 0, w.term.enterDown)) =
        some ([[0x61]], [], .poll 128, false) := by
      decide +kernel
    rw [hrun] at hend
    simp only [Option.map_some, Option.some.injEq, Prod.mk.injEq] at hend
    rcases hend with ⟨htyped, hreturned, hphase, hdown⟩
    refine ⟨w, rfl, htyped, fun n w' hrun' => ?_⟩
    have hwaits := @readerStep_waits (fun _ => 0) w 0 128 hphase hdown n
    rw [hwaits] at hrun'
    rw [← Option.some.inj hrun', hreturned]

end Kernel391
