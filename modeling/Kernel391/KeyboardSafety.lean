import Kernel391.TerminalFrame
import Kernel391.Lib.Run

/-!
# Subscripts and indices of the keyboard buffer

Which events keep the handler inside `KEY_TABLE` and the displayed row of `key_buffer`, and
keep `clear_offset <= key_index <= 128`.  The condition on each event is exact, so runs stay safe
precisely as long as every event meets it.
-/

namespace Kernel391

open Machine Term

inductive TermEvent where
  | key (scancode : UInt8)
  | clearBuffer
  | readStart
  | readResume (nbytes : Int)
  | switchDisplay (terminal : Fin 3)
  | write (buf : Option CStr) (nbytes : Int)
  | setVideoMem (addr : Int)

/-- One event on the terminals.  A poll of `terminal_read` that finds `enter_down` clear does
not complete. -/
def termStep (rom : Nat → UInt8) (s : Term) : TermEvent → Option Term
  | .key scancode => some (s.keyboardHandler rom scancode)
  | .clearBuffer => some s.clearBuffer
  | .readStart => some s.terminalReadStart
  | .readResume nbytes => (s.terminalReadResume nbytes).map Prod.snd
  | .switchDisplay t => some (s.switchDisplayTerminal t)
  | .write buf nbytes => some (s.terminalWrite buf nbytes).2
  | .setVideoMem addr => some (s.onScreen (Screen.setVideoMem addr))

def Access.InRange : Access → Prop
  | .keyTable sub => sub < KEY_SIZE
  | .keyBuffer row sub => row < MAX_TERMINAL_NUM ∧ sub < MAX_BUFF_LENGTH

def SubscriptsOk (s : Term) : Prop := ∀ a ∈ s.trace, a.InRange

def IndicesOk (s : Term) : Prop :=
  ∀ t, t < MAX_TERMINAL_NUM → s.clearOffset t ≤ s.keyIndex t ∧ s.keyIndex t ≤ MAX_BUFF_LENGTH

/-- Every byte outside the row displayed in `s` is the same in `s'`. -/
def RowFrame (s s' : Term) : Prop :=
  ∀ j, j / MAX_BUFF_LENGTH ≠ s.displayTerminal → s'.keyBuffer j = s.keyBuffer j

/-- What an event may do: use subscripts in range, keep the indices in order, and change the
displayed row only. -/
structure Safe (s s' : Term) : Prop where
  subscripts : SubscriptsOk s'
  indices : IndicesOk s'
  frame : RowFrame s s'

structure SafeInv (s : Term) : Prop where
  display : s.displayTerminal < MAX_TERMINAL_NUM
  subscripts : SubscriptsOk s
  indices : IndicesOk s

/-! ## The condition on each event -/

/-- The scancodes below the cutoff whose table index misses the table: the two below the first
entry wrap around unless shift adds its offset, and the keypad star is one past the shifted half. -/
def TableOk (scancode : Nat) (shift : Bool) : Prop :=
  (scancode ≤ 1 → shift = true) ∧ (scancode = 0x37 → shift = false)

def CtrlL (scancode : Nat) (s : Term) : Prop := s.ctrlCheck = true ∧ scancode = 0x26

def KeyOk (scancode : UInt8) (s : Term) : Prop :=
  match keyLabel scancode with
  | .space => s.getKeyIndex < 128
  | .tab => s.getKeyIndex ≤ 124
  | .back => s.getKeyIndex = s.clearOffset s.displayTerminal ∨ s.getKeyIndex < 128
  | .enter => s.getKeyIndex < 128
  | .other =>
      scancode.toNat < INPUT_CUTOFF → TableOk scancode.toNat s.shiftHeld ∧
        (¬CtrlL scancode.toNat s → s.atLineEnd = true → s.getKeyIndex < 128)
  | _ => True

def StepOk (s : Term) : TermEvent → Prop
  | .key scancode => KeyOk scancode s
  | .clearBuffer => s.clearOffset s.displayTerminal = 0
  | .readResume nbytes => s.enterDown = true → 0 < nbytes → s.clearOffset s.displayTerminal = 0
  | _ => True

/-! ## One operation -/

theorem SafeInv.safe_refl {s : Term} (h : SafeInv s) : Safe s s :=
  ⟨h.subscripts, h.indices, fun _ _ => rfl⟩

theorem Safe.trans {s t u : Term} (h : Safe s t) (hd : t.displayTerminal = s.displayTerminal)
    (h' : Safe t u) : Safe s u := by
  refine ⟨h'.subscripts, h'.indices, ?_⟩
  intro j hj
  rw [h'.frame j (hd ▸ hj), h.frame j hj]

-- Only four fields of the later state matter, so anything done to the screen or to the
-- modifier flags can be ignored.
theorem safe_congr {s t t' : Term} (hoff : t.clearOffset = t'.clearOffset)
    (hidx : t.keyIndex = t'.keyIndex) (hbuf : t.keyBuffer = t'.keyBuffer)
    (htrace : t.trace = t'.trace) : Safe s t ↔ Safe s t' := by
  have hsub : SubscriptsOk t ↔ SubscriptsOk t' := by unfold SubscriptsOk; rw [htrace]
  have hind : IndicesOk t ↔ IndicesOk t' := by unfold IndicesOk; rw [hoff, hidx]
  have hframe : RowFrame s t ↔ RowFrame s t' := by unfold RowFrame; rw [hbuf]
  constructor
  · intro h
    exact ⟨hsub.mp h.subscripts, hind.mp h.indices, hframe.mp h.frame⟩
  · intro h
    exact ⟨hsub.mpr h.subscripts, hind.mpr h.indices, hframe.mpr h.frame⟩

theorem safe_source_congr {s s₀ t : Term} (hdisp : s₀.displayTerminal = s.displayTerminal)
    (hbuf : s₀.keyBuffer = s.keyBuffer) : Safe s t ↔ Safe s₀ t := by
  have hframe : RowFrame s t ↔ RowFrame s₀ t := by unfold RowFrame; rw [hdisp, hbuf]
  constructor
  · intro h
    exact ⟨h.subscripts, h.indices, hframe.mp h.frame⟩
  · intro h
    exact ⟨h.subscripts, h.indices, hframe.mpr h.frame⟩

theorem safe_onScreen_iff {s t : Term} {f : Screen → Screen} :
    Safe s (t.onScreen f) ↔ Safe s t :=
  safe_congr rfl rfl rfl rfl

theorem SafeInv.onScreen {s : Term} (h : SafeInv s) (f : Screen → Screen) :
    SafeInv (s.onScreen f) :=
  ⟨h.display, h.subscripts, h.indices⟩

theorem subscriptsOk_append {s s' : Term} {new : List Access} (h : SubscriptsOk s)
    (htrace : s'.trace = s.trace ++ new) : SubscriptsOk s' ↔ ∀ a ∈ new, a.InRange := by
  unfold SubscriptsOk
  rw [htrace]
  constructor
  · intro hall a ha
    exact hall a (List.mem_append_right _ ha)
  · intro hnew a ha
    exact (List.mem_append.mp ha).elim (h a) (hnew a)

-- An update of the displayed terminal's two indices only has to be checked there.
theorem indicesOk_update {s : Term} (s' : Term) (h : IndicesOk s)
    (hd : s.displayTerminal < MAX_TERMINAL_NUM)
    (hoff : ∀ t, t ≠ s.displayTerminal → s'.clearOffset t = s.clearOffset t)
    (hidx : ∀ t, t ≠ s.displayTerminal → s'.keyIndex t = s.keyIndex t) :
    IndicesOk s' ↔ s'.clearOffset s.displayTerminal ≤ s'.keyIndex s.displayTerminal ∧
      s'.keyIndex s.displayTerminal ≤ MAX_BUFF_LENGTH := by
  constructor
  · intro hall
    exact hall _ hd
  · intro hone t ht
    by_cases htd : t = s.displayTerminal
    · subst htd; exact hone
    · rw [hoff t htd, hidx t htd]; exact h t ht

theorem rowFrame_storeKey {s : Term} {sub : Nat} (b : UInt8) (hsub : sub < MAX_BUFF_LENGTH) :
    RowFrame s (s.storeKey sub b) := by
  intro j hj
  rw [storeKey_keyBuffer, if_neg]
  intro he
  apply hj
  rw [he, Nat.mul_add_div (by decide), Nat.div_eq_of_lt hsub, Nat.add_zero]

theorem keyIndex_le {s : Term} (h : SafeInv s) : s.getKeyIndex ≤ 128 :=
  (h.indices _ h.display).2

-- The branches that store one byte at the 8-bit copy of the index, whatever they then do to the
-- displayed terminal's indices.
theorem store_safe_iff {s : Term} (s' : Term) (b : UInt8) (h : SafeInv s)
    (hbuf : s'.keyBuffer = (s.storeKey (s.getKeyIndex % 256) b).keyBuffer)
    (htrace : s'.trace = (s.storeKey (s.getKeyIndex % 256) b).trace)
    (hoff : ∀ t, t ≠ s.displayTerminal → s'.clearOffset t = s.clearOffset t)
    (hidx : ∀ t, t ≠ s.displayTerminal → s'.keyIndex t = s.keyIndex t)
    (hnew : s.getKeyIndex < 128 →
      s'.clearOffset s.displayTerminal ≤ s'.keyIndex s.displayTerminal ∧
        s'.keyIndex s.displayTerminal ≤ 128) :
    Safe s s' ↔ s.getKeyIndex < 128 := by
  have hmod : s.getKeyIndex % 256 = s.getKeyIndex := by
    have hle := keyIndex_le h
    omega
  rw [hmod] at hbuf htrace
  constructor
  · intro hsafe
    have hsub := (subscriptsOk_append h.subscripts htrace).mp hsafe.subscripts _ List.mem_cons_self
    exact hsub.2
  · intro hlt
    have hsub : SubscriptsOk s' := by
      apply (subscriptsOk_append h.subscripts htrace).mpr
      intro a ha
      rw [List.mem_singleton.mp ha]
      exact ⟨h.display, hlt⟩
    have hind : IndicesOk s' := (indicesOk_update s' h.indices h.display hoff hidx).mpr (hnew hlt)
    have hframe : RowFrame s s' := by
      intro j hj
      rw [hbuf]
      exact rowFrame_storeKey b hlt j hj
    exact ⟨hsub, hind, hframe⟩

theorem appendKey_safe_iff {s : Term} (h : SafeInv s) (b : UInt8) :
    Safe s (s.appendKey b) ↔ s.getKeyIndex < 128 := by
  apply store_safe_iff (s.appendKey b) b h rfl rfl (fun _ _ => rfl)
  · intro t ht
    exact if_neg ht
  · intro hlt
    have hoff : s.clearOffset s.displayTerminal ≤ s.getKeyIndex := (h.indices _ h.display).1
    have hidx : (s.appendKey b).keyIndex s.displayTerminal = (s.getKeyIndex + 1) % 2 ^ 32 :=
      if_pos rfl
    change s.clearOffset s.displayTerminal ≤ _ ∧ _
    omega

-- What is shown before and after the store does not matter.
theorem echoed_safe_iff {s : Term} (h : SafeInv s) (f g : Screen → Screen) (b : UInt8) :
    Safe s (((s.onScreen f).appendKey b).onScreen g) ↔ s.getKeyIndex < 128 := by
  have hsame : Safe s (((s.onScreen f).appendKey b).onScreen g) ↔ Safe s (s.appendKey b) :=
    safe_congr rfl rfl rfl rfl
  rw [hsame, appendKey_safe_iff h]

theorem onSpace_safe_iff {s : Term} (h : SafeInv s) :
    Safe s s.onSpace ↔ s.getKeyIndex < 128 := by
  unfold onSpace putc syncCursor
  exact echoed_safe_iff h _ _ 0x20

theorem onSpace_displayTerminal (s : Term) : s.onSpace.displayTerminal = s.displayTerminal := by
  have hscreen : ∀ (f g : Screen → Screen),
      (((s.onScreen f).appendKey 0x20).onScreen g).displayTerminal = s.displayTerminal :=
    fun _ _ => rfl
  unfold onSpace putc syncCursor
  exact hscreen _ _

theorem onSpace_inv {s : Term} (h : SafeInv s) (hlt : s.getKeyIndex < 128) :
    SafeInv s.onSpace := by
  have hsafe := (onSpace_safe_iff h).mpr hlt
  refine ⟨?_, hsafe.subscripts, hsafe.indices⟩
  rw [onSpace_displayTerminal]
  exact h.display

theorem safe_of_onSpace {s u : Term} (h : SafeInv s) (hlt : s.getKeyIndex < 128)
    (hu : Safe s.onSpace u) : Safe s u :=
  ((onSpace_safe_iff h).mpr hlt).trans (onSpace_displayTerminal s) hu

theorem getKeyIndex_onSpace (s : Term) :
    s.onSpace.getKeyIndex = (s.getKeyIndex + 1) % 2 ^ 32 :=
  if_pos rfl

theorem onEnter_safe_iff {s : Term} (h : SafeInv s) :
    Safe s s.onEnter ↔ s.getKeyIndex < 128 := by
  apply store_safe_iff s.onEnter 0x0A h rfl rfl
  · intro t ht
    exact if_neg ht
  · intro t ht
    exact if_neg ht
  · intro _
    have hoff : s.onEnter.clearOffset s.displayTerminal = 0 := if_pos rfl
    have hidx : s.onEnter.keyIndex s.displayTerminal = 0 := if_pos rfl
    omega

theorem onBack_safe_iff {s : Term} (h : SafeInv s) :
    Safe s s.onBack ↔
      s.getKeyIndex = s.clearOffset s.displayTerminal ∨ s.getKeyIndex < 128 := by
  have hoff : s.clearOffset s.displayTerminal ≤ s.getKeyIndex := (h.indices _ h.display).1
  have hle := keyIndex_le h
  unfold onBack
  by_cases heq : s.getKeyIndex = s.clearOffset s.displayTerminal
  · rw [if_neg (by omega)]
    exact iff_of_true h.safe_refl (.inl heq)
  · rw [if_pos (by omega)]
    have hstore : Safe s ((s.printBackspace.storeKey (s.getKeyIndex % 256) 0).setKeyIndex
        ((s.getKeyIndex + 2 ^ 32 - 1) % 2 ^ 32)) ↔ s.getKeyIndex < 128 := by
      refine store_safe_iff _ 0 h rfl rfl (fun _ _ => rfl) ?_ ?_
      · intro t ht
        exact if_neg ht
      · intro _
        have hidx : ((s.printBackspace.storeKey (s.getKeyIndex % 256) 0).setKeyIndex
            ((s.getKeyIndex + 2 ^ 32 - 1) % 2 ^ 32)).keyIndex s.displayTerminal =
            (s.getKeyIndex + 2 ^ 32 - 1) % 2 ^ 32 := if_pos rfl
        rw [hidx]
        change s.clearOffset s.displayTerminal ≤ _ ∧ _
        omega
    rw [hstore, or_iff_right heq]

theorem onSpace_trace (s : Term) : s.onSpace.trace =
    s.trace ++ [.keyBuffer s.displayTerminal (s.getKeyIndex % 256)] := by
  have hscreen : ∀ (f g : Screen → Screen), (((s.onScreen f).appendKey 0x20).onScreen g).trace =
      s.trace ++ [.keyBuffer s.displayTerminal (s.getKeyIndex % 256)] := fun _ _ => rfl
  unfold onSpace putc syncCursor
  exact hscreen _ _

-- Four characters in a row: the last of them has to fit.
theorem onTab_safe_iff {s : Term} (h : SafeInv s) :
    Safe s s.onTab ↔ s.getKeyIndex ≤ 124 := by
  have hle := keyIndex_le h
  have h₁ := getKeyIndex_onSpace s
  have h₂ := getKeyIndex_onSpace s.onSpace
  have h₃ := getKeyIndex_onSpace s.onSpace.onSpace
  have htab : s.onTab = s.onSpace.onSpace.onSpace.onSpace := rfl
  have htrace := onSpace_trace s.onSpace.onSpace.onSpace
  rw [htab]
  constructor
  · intro hsafe
    have hsub := hsafe.subscripts _ (htrace ▸ List.mem_append_right _ List.mem_cons_self)
    have hlt : s.onSpace.onSpace.onSpace.getKeyIndex % 256 < 128 := hsub.2
    omega
  · intro hfit
    have i₁ : SafeInv s.onSpace := onSpace_inv h (by omega)
    have i₂ : SafeInv s.onSpace.onSpace := onSpace_inv i₁ (by omega)
    have i₃ : SafeInv s.onSpace.onSpace.onSpace := onSpace_inv i₂ (by omega)
    have f₃ := (onSpace_safe_iff i₃).mpr (by omega)
    have f₂ := safe_of_onSpace i₂ (by omega) f₃
    have f₁ := safe_of_onSpace i₁ (by omega) f₂
    exact safe_of_onSpace h (by omega) f₁

/-! ## Clearing the row -/

theorem rowReads_inRange {s : Term} (h : SafeInv s) {n : Nat} (hn : n ≤ MAX_BUFF_LENGTH) :
    ∀ a ∈ (List.range n).map (Access.keyBuffer s.displayTerminal), a.InRange := by
  intro a ha
  rcases List.mem_map.mp ha with ⟨x, hx, rfl⟩
  exact ⟨h.display, Nat.lt_of_lt_of_le (List.mem_range.mp hx) hn⟩

-- `clear_buffer` resets the index and leaves `clear_offset` behind.
theorem clearBuffer_safe_iff {s : Term} (h : SafeInv s) :
    Safe s s.clearBuffer ↔ s.clearOffset s.displayTerminal = 0 := by
  have hoff : s.clearBuffer.clearOffset = s.clearOffset := by rw [clearBuffer_eq]
  have hidx : ∀ t, s.clearBuffer.keyIndex t = if t = s.displayTerminal then 0 else s.keyIndex t := by
    intro t
    rw [clearBuffer_eq]
  constructor
  · intro hsafe
    have hind := (hsafe.indices _ h.display).1
    rw [hoff, hidx, if_pos rfl] at hind
    exact Nat.le_zero.mp hind
  · intro hzero
    have hsub : SubscriptsOk s.clearBuffer := by
      rw [clearBuffer_eq]
      exact (subscriptsOk_append h.subscripts rfl).mpr (rowReads_inRange h (Nat.le_refl _))
    have hind : IndicesOk s.clearBuffer := by
      rw [indicesOk_update _ h.indices h.display (fun t _ => by rw [hoff])
        (fun t ht => by rw [hidx, if_neg ht]), hoff, hidx, if_pos rfl, hzero]
      exact ⟨Nat.le_refl 0, Nat.zero_le _⟩
    have hframe : RowFrame s s.clearBuffer := by
      intro j hj
      rw [clearBuffer_eq]
      apply if_neg
      intro hrow
      apply hj
      have hsplit : j = MAX_BUFF_LENGTH * s.displayTerminal +
          (j - MAX_BUFF_LENGTH * s.displayTerminal) := by omega
      rw [hsplit, Nat.mul_add_div (by decide), Nat.div_eq_of_lt (by omega), Nat.add_zero]
    exact ⟨hsub, hind, hframe⟩

theorem markCleared_safe {s : Term} (h : SafeInv s) : Safe s s.markCleared := by
  unfold markCleared
  by_cases hzero : s.getKeyIndex = 0
  · rw [if_neg (not_not.mpr hzero)]
    apply (clearBuffer_safe_iff h).mpr
    exact Nat.le_zero.mp (hzero ▸ (h.indices _ h.display).1)
  · rw [if_pos hzero]
    refine ⟨h.subscripts, ?_, fun _ _ => rfl⟩
    rw [indicesOk_update (s.setClearOffset (s.getKeyIndex % 256)) h.indices h.display
      (fun t ht => if_neg ht) (fun _ _ => rfl), setClearOffset_clearOffset, if_pos rfl]
    exact ⟨Nat.mod_le _ _, (h.indices _ h.display).2⟩

theorem onCtrlL_safe {s : Term} (h : SafeInv s) : Safe s s.onCtrlL := by
  unfold onCtrlL showPrompt
  rw [safe_onScreen_iff]
  generalize Screen.clear = f
  have hmark := markCleared_safe (h.onScreen f)
  exact ⟨hmark.subscripts, hmark.indices, hmark.frame⟩

/-! ## Typing a character -/

theorem typePlain_safe_iff {s : Term} (h : SafeInv s) (input : UInt8) :
    Safe s (s.typePlain input) ↔ s.getKeyIndex < 128 := by
  unfold typePlain putc syncCursor
  exact echoed_safe_iff h _ _ input

theorem typeWrapping_safe_iff {s : Term} (h : SafeInv s) (input : UInt8) (tempY : Int) :
    Safe s (s.typeWrapping input tempY) ↔ s.getKeyIndex < 128 := by
  have hwrapped : ∀ u : Term, Safe s { u with wrapped := true } ↔ Safe s u :=
    fun _ => safe_congr rfl rfl rfl rfl
  unfold typeWrapping putc
  rw [hwrapped, safe_onScreen_iff]
  exact echoed_safe_iff h _ _ input

-- Only the branch at the end of a line appends without looking at the index.
theorem typeInput_safe_iff {s : Term} (h : SafeInv s) (input : UInt8) :
    Safe s (s.typeInput input) ↔
      (¬(s.ctrlCheck = true ∧ (input = 0x6C ∨ input = 0x4C)) → s.atLineEnd = true →
        s.getKeyIndex < 128) := by
  unfold typeInput
  by_cases hctrl : s.ctrlCheck = true ∧ (input = 0x6C ∨ input = 0x4C)
  · rw [if_pos (by simpa using hctrl)]
    exact iff_of_true (onCtrlL_safe h) (fun hn => absurd hctrl hn)
  · rw [if_neg (by simpa using hctrl)]
    by_cases hend : s.atLineEnd = true
    · rw [if_pos hend, typeWrapping_safe_iff h]
      exact ⟨fun hlt _ _ => hlt, fun himp => himp hctrl hend⟩
    · rw [if_neg hend]
      refine iff_of_true ?_ (fun _ he => absurd he hend)
      by_cases hlt : s.getKeyIndex < MAX_BUFF_LENGTH
      · rw [if_pos hlt]
        exact (typePlain_safe_iff h input).mpr hlt
      · rw [if_neg hlt]
        exact h.safe_refl

theorem markCleared_trace (s : Term) : ∃ new, s.markCleared.trace = s.trace ++ new := by
  unfold markCleared
  split
  · exact ⟨[], (List.append_nil _).symm⟩
  · rw [clearBuffer_eq]
    exact ⟨_, rfl⟩

theorem typeInput_trace (s : Term) (input : UInt8) :
    ∃ new, (s.typeInput input).trace = s.trace ++ new := by
  unfold typeInput
  split
  · unfold onCtrlL showPrompt
    rw [onScreen_trace]
    have hmark := markCleared_trace (s.onScreen Screen.clear)
    rwa [onScreen_trace] at hmark
  · split
    · exact ⟨_, rfl⟩
    · split
      · exact ⟨_, rfl⟩
      · exact ⟨[], (List.append_nil _).symm⟩

-- The subscript of `KEY_TABLE`, over all scancodes that reach the table.
theorem tableIndexOf_lt_iff : ∀ n, n < INPUT_CUTOFF → keyLabel (UInt8.ofNat n) = .other →
    ∀ shift capslock, tableIndexOf n shift capslock < KEY_SIZE ↔ TableOk n shift := by
  unfold TableOk
  decide +kernel

-- The only key that types an l is the l key.
theorem keyTable_l_iff : ∀ n, n < INPUT_CUTOFF → keyLabel (UInt8.ofNat n) = .other →
    ∀ shift capslock, (KEY_TABLE.getD (tableIndexOf n shift capslock) 0 = 0x6C ∨
      KEY_TABLE.getD (tableIndexOf n shift capslock) 0 = 0x4C) ↔ n = 0x26 := by
  decide +kernel

theorem keyTableAt_eq (rom : Nat → UInt8) {sub : Nat} (hsub : sub < KEY_SIZE) :
    keyTableAt rom sub = KEY_TABLE.getD sub 0 := by
  have hlen : KEY_TABLE.length = KEY_SIZE := by decide
  unfold keyTableAt
  rw [List.getD_eq_getElem?_getD, List.getElem?_eq_getElem (hlen ▸ hsub)]
  rfl

theorem onDefault_safe_iff (rom : Nat → UInt8) {s : Term} (h : SafeInv s) {scancode : UInt8}
    (hlabel : keyLabel scancode = .other) :
    Safe s (s.onDefault rom scancode.toNat) ↔ KeyOk scancode s := by
  unfold KeyOk
  rw [hlabel]
  unfold onDefault
  by_cases hcut : scancode.toNat < INPUT_CUTOFF
  · have hofNat : UInt8.ofNat scancode.toNat = scancode := UInt8.ofNat_toNat
    have hindex := tableIndexOf_lt_iff scancode.toNat hcut (by rw [hofNat]; exact hlabel)
      s.shiftHeld s.capslockCheck
    have hl := keyTable_l_iff scancode.toNat hcut (by rw [hofNat]; exact hlabel)
      s.shiftHeld s.capslockCheck
    rw [if_pos hcut]
    generalize htable : tableIndexOf scancode.toNat s.shiftHeld s.capslockCheck = sub at hindex hl
    simp only [hcut, true_implies]
    by_cases hsub : sub < KEY_SIZE
    · have hinv : SafeInv { s with trace := s.trace ++ [Access.keyTable sub] } := by
        refine ⟨h.display, (subscriptsOk_append h.subscripts rfl).mpr ?_, h.indices⟩
        intro a ha
        rw [List.mem_singleton.mp ha]
        exact hsub
      have htype := typeInput_safe_iff hinv (keyTableAt rom sub)
      have hframe : ∀ t, Safe { s with trace := s.trace ++ [Access.keyTable sub] } t ↔ Safe s t :=
        fun t => ⟨fun ht => ⟨ht.1, ht.2, ht.3⟩, fun ht => ⟨ht.1, ht.2, ht.3⟩⟩
      rw [← hframe, htype, keyTableAt_eq rom hsub, hl]
      exact (and_iff_right (hindex.mp hsub)).symm
    · refine iff_of_false ?_ (fun hok => hsub (hindex.mpr hok.1))
      intro hsafe
      obtain ⟨new, hnew⟩ := typeInput_trace { s with trace := s.trace ++ [Access.keyTable sub] }
        (keyTableAt rom sub)
      apply hsub
      apply hsafe.subscripts (.keyTable sub)
      rw [hnew]
      simp
  · rw [if_neg hcut]
    exact iff_of_true h.safe_refl (fun hc => absurd hc hcut)

/-! ## The reader and the output routines -/

theorem lineLoop_length_le (row : Nat → UInt8) :
    ∀ fuel x, (lineLoop row fuel x).length ≤ fuel
  | 0, _ => Nat.le_refl 0
  | fuel + 1, x => by
      unfold lineLoop
      split
      · exact Nat.succ_le_succ (Nat.zero_le fuel)
      · exact Nat.succ_le_succ (lineLoop_length_le row fuel (x + 1))

theorem resume_safe_iff {s s' : Term} {nbytes : Int} (h : SafeInv s) (hdown : s.enterDown = true)
    (hres : (s.terminalReadResume nbytes).map Prod.snd = some s') :
    Safe s s' ↔ (0 < nbytes → s.clearOffset s.displayTerminal = 0) := by
  unfold terminalReadResume at hres
  rw [if_pos hdown] at hres
  by_cases hn : nbytes ≤ 0
  · rw [if_pos hn] at hres
    rcases Option.some.inj hres with rfl
    exact iff_of_true ⟨h.subscripts, h.indices, fun _ _ => rfl⟩ (fun hpos => by omega)
  · rw [if_neg hn] at hres
    rcases Option.some.inj hres with rfl
    let copied := lineLoop s.displayedRow MAX_BUFF_LENGTH 0
    let reads := (List.range copied.length).map (Access.keyBuffer s.displayTerminal)
    have hreads : SubscriptsOk { s with enterDown := false, trace := s.trace ++ reads } :=
      (subscriptsOk_append h.subscripts rfl).mpr
        (rowReads_inRange h (lineLoop_length_le s.displayedRow MAX_BUFF_LENGTH 0))
    have hclear := clearBuffer_safe_iff (s := { s with enterDown := false, trace := s.trace ++ reads })
      ⟨h.display, hreads, h.indices⟩
    rw [show (0 < nbytes → s.clearOffset s.displayTerminal = 0) ↔
      s.clearOffset s.displayTerminal = 0 from ⟨fun hi => hi (by omega), fun hz _ => hz⟩, ← hclear]
    exact safe_source_congr rfl rfl

theorem switchDisplay_safe {s : Term} (h : SafeInv s) (t : Nat) :
    Safe s (s.switchDisplayTerminal t) :=
  ⟨h.subscripts, h.indices, fun _ _ => rfl⟩

/-! ## Runs -/

/-- What the keyboard code owes on one event: a completed event is safe. -/
def EventSafe (rom : Nat → UInt8) (s : Term) (e : TermEvent) : Prop :=
  ∀ s', termStep rom s e = some s' → Safe s s'

theorem eventSafe_some_iff {rom : Nat → UInt8} {s s' : Term} {e : TermEvent}
    (he : termStep rom s e = some s') : EventSafe rom s e ↔ Safe s s' := by
  unfold EventSafe
  rw [he]
  constructor
  · intro h
    exact h s' rfl
  · intro h t ht
    exact Option.some.inj ht ▸ h

theorem key_safe_iff (rom : Nat → UInt8) {s : Term} (h : SafeInv s) (scancode : UInt8) :
    Safe s (s.keyboardHandler rom scancode) ↔ KeyOk scancode s := by
  have hflags : ∀ t : Term, t.clearOffset = s.clearOffset → t.keyIndex = s.keyIndex →
      t.keyBuffer = s.keyBuffer → t.trace = s.trace → Safe s t :=
    fun t hoff hidx hbuf htrace => (safe_congr hoff hidx hbuf htrace).mpr h.safe_refl
  cases hlabel : keyLabel scancode with
  | space => simpa only [keyboardHandler, KeyOk, hlabel] using onSpace_safe_iff h
  | tab => simpa only [keyboardHandler, KeyOk, hlabel] using onTab_safe_iff h
  | back => simpa only [keyboardHandler, KeyOk, hlabel] using onBack_safe_iff h
  | enter => simpa only [keyboardHandler, KeyOk, hlabel] using onEnter_safe_iff h
  | other =>
    have hdefault := onDefault_safe_iff rom h hlabel
    unfold keyboardHandler
    rw [hlabel]
    exact hdefault
  | f t =>
    simp only [keyboardHandler, KeyOk, hlabel, iff_true]
    unfold onFunctionKey
    split
    · exact switchDisplay_safe h t
    · exact h.safe_refl
  | _ =>
    -- the modifier keys and the release of ENTER only touch flags
    simp only [keyboardHandler, KeyOk, hlabel, iff_true]
    exact hflags _ rfl rfl rfl rfl

/-- The condition on an event is exact in every state that satisfies the invariant. -/
theorem eventSafe_iff (rom : Nat → UInt8) {s : Term} (h : SafeInv s) (e : TermEvent) :
    EventSafe rom s e ↔ StepOk s e := by
  cases e with
  | key scancode => exact (eventSafe_some_iff rfl).trans (key_safe_iff rom h scancode)
  | clearBuffer => exact (eventSafe_some_iff rfl).trans (clearBuffer_safe_iff h)
  | readStart =>
    rw [eventSafe_some_iff rfl]
    exact iff_of_true ⟨h.subscripts, h.indices, fun _ _ => rfl⟩ trivial
  | readResume nbytes =>
    by_cases hdown : s.enterDown = true
    · obtain ⟨s', hs'⟩ : ∃ s', termStep rom s (.readResume nbytes) = some s' := by
        simp only [termStep, terminalReadResume, if_pos hdown]
        split <;> exact ⟨_, rfl⟩
      rw [eventSafe_some_iff hs', resume_safe_iff h hdown hs']
      exact ⟨fun hok _ => hok, fun hok => hok hdown⟩
    · refine iff_of_true ?_ (fun hd => absurd hd hdown)
      intro s' hs'
      simp [termStep, terminalReadResume, hdown] at hs'
  | switchDisplay t =>
      exact iff_of_true ((eventSafe_some_iff rfl).mpr (switchDisplay_safe h t)) trivial
  | write buf nbytes =>
    rw [eventSafe_some_iff rfl, terminalWrite_eq, safe_onScreen_iff]
    exact iff_of_true h.safe_refl trivial
  | setVideoMem addr =>
    rw [eventSafe_some_iff rfl, safe_onScreen_iff]
    exact iff_of_true h.safe_refl trivial

theorem termStep_display {rom : Nat → UInt8} {s s' : Term} {e : TermEvent}
    (h : s.displayTerminal < MAX_TERMINAL_NUM) (he : termStep rom s e = some s') :
    s'.displayTerminal < MAX_TERMINAL_NUM := by
  cases e with
  | key scancode =>
    rw [← Option.some.inj he]
    exact keyboardHandler_display_lt rom scancode h
  | clearBuffer =>
    rw [← Option.some.inj he, (sameView_clearBuffer s).display]
    exact h
  | readStart =>
    rw [← Option.some.inj he]
    exact h
  | readResume nbytes =>
    rcases Option.map_eq_some_iff.mp he with ⟨r, hr, hs'⟩
    rw [← hs', (sameView_resume hr).display]
    exact h
  | switchDisplay t =>
    rw [← Option.some.inj he]
    exact t.isLt
  | write buf nbytes =>
    rw [← Option.some.inj he, (sameView_terminalWrite buf nbytes s).display]
    exact h
  | setVideoMem addr =>
    rw [← Option.some.inj he]
    exact h

theorem termStep_inv (rom : Nat → UInt8) (s : Term) (e : TermEvent) (s' : Term) (h : SafeInv s)
    (hok : StepOk s e) (he : termStep rom s e = some s') : SafeInv s' :=
  have hsafe := (eventSafe_iff rom h e).mpr hok s' he
  ⟨termStep_display h.display he, hsafe.subscripts, hsafe.indices⟩

theorem bootTerm_inv (screen : Screen) : SafeInv (bootTerm screen) :=
  ⟨Nat.zero_lt_succ 2, fun _ ha => absurd ha List.not_mem_nil,
    fun _ _ => ⟨Nat.le_refl 0, Nat.zero_le _⟩⟩

theorem terminalInit_inv (screen : Screen) : SafeInv (bootTerm screen).terminalInit := by
  unfold terminalInit
  generalize Screen.clear = f
  have hinv := (bootTerm_inv screen).onScreen f
  have hclear := (clearBuffer_safe_iff hinv).mpr rfl
  have hdisplay := (sameView_clearBuffer ((bootTerm screen).onScreen f)).display
  generalize ((bootTerm screen).onScreen f).clearBuffer = s at hclear hdisplay
  refine ⟨?_, hclear.subscripts, ?_⟩
  · exact hdisplay ▸ hinv.display
  · intro t ht
    refine ⟨?_, (hclear.indices t ht).2⟩
    simp only [if_pos ht]
    exact Nat.zero_le _

/-- From `terminal_init` on, the keyboard code is safe along exactly the runs whose events meet
the condition in the states they arrive in. -/
theorem keyboard_run_safe_iff (rom : Nat → UInt8) (screen : Screen) (es : List TermEvent) :
    (SubscriptsOk (bootTerm screen).terminalInit ∧ IndicesOk (bootTerm screen).terminalInit ∧
        Along (termStep rom) (EventSafe rom) (bootTerm screen).terminalInit es) ↔
      Along (termStep rom) StepOk (bootTerm screen).terminalInit es := by
  have hinit := terminalInit_inv screen
  have hruns : Along (termStep rom) (EventSafe rom) (bootTerm screen).terminalInit es ↔
      Along (termStep rom) StepOk (bootTerm screen).terminalInit es :=
    along_iff_of_invariant (termStep_inv rom) (fun s e h => eventSafe_iff rom h e) hinit
  rw [hruns]
  exact ⟨fun h => h.2.2, fun h => ⟨hinit.subscripts, hinit.indices, h⟩⟩

/-- The escape key, pressed first thing after boot, reads before the start of the table. -/
theorem escape_reads_before_table :
    ¬(SubscriptsOk (bootTerm blankScreen).terminalInit ∧
        IndicesOk (bootTerm blankScreen).terminalInit ∧
        Along (termStep fun _ => 0) (EventSafe fun _ => 0) (bootTerm blankScreen).terminalInit
          [.key 0x01]) ∧
      tableIndexOf 0x01 (bootTerm blankScreen).terminalInit.shiftHeld false = 2 ^ 32 - 1 := by
  have hshift : (bootTerm blankScreen).terminalInit.shiftHeld = false := rfl
  rw [hshift]
  refine ⟨?_, by decide⟩
  intro h
  have hok := (eventSafe_iff _ (terminalInit_inv blankScreen) _).mp h.2.2.1
  have htable : TableOk 0x01 (bootTerm blankScreen).terminalInit.shiftHeld := (hok (by decide)).1
  rw [hshift] at htable
  exact absurd (htable.1 (by decide)) (by decide)

end Kernel391
