import Kernel391.ScreenMemory
import Kernel391.TerminalFrame

/-!
# One screen, three terminals

The terminals take turns on the video page; while one is displayed the others' pages and cursors are
kept aside.  What a terminal shows is what it would show if the others did not exist: the run of the
machine, projected to one terminal, is the run of that terminal's operations alone.
-/

namespace Kernel391

open Term VideoBytes

/-! ## Operations on the displayed page -/

/-- What `putc`, `terminal_write`, `print_backspace`, `clear` and `scroll_handle` are called with. -/
inductive ScreenOp where
  | putc (c : UInt8)
  | write (buf : Option CStr) (nbytes : Int)
  | backspace
  | clear
  | scroll

def ScreenOp.apply (s : Term) : ScreenOp → Term
  | .putc c => s.putc c
  | .write buf nbytes => (s.terminalWrite buf nbytes).2
  | .backspace => s.printBackspace
  | .clear => s.onScreen Screen.clear
  | .scroll => s.onScreen Screen.scrollHandle

/-- Two memories with the same video page. -/
def SamePage (m m' : VideoBytes) : Prop :=
  ∀ a, (VIDEO.toNat : Int) ≤ a → a < VIDEO.toNat + PAGE_SIZE_KB → m a = m' a

/-- A change of memory that reads the video page alone and writes nothing above it. -/
structure PageLocal (g : VideoBytes → VideoBytes) : Prop where
  page : ∀ m m', SamePage m m' → SamePage (g m) (g m')
  above : ∀ m a, (VIDEO.toNat : Int) + PAGE_SIZE_KB ≤ a → g m a = m a

/-- The cursor is in a column and not below the last row; `scroll_handle` can take it above the
first. -/
def OnGrid (x y : Int) : Prop := 0 ≤ x ∧ x < NUM_COLS ∧ y < NUM_ROWS

/-- Where a function moves the cursor, and what it does to memory, is determined by the cursor and
local to the page. -/
def Confined (f : Screen → Screen) : Prop :=
  ∀ x y, OnGrid x y → ∃ g x' y', PageLocal g ∧ OnGrid x' y' ∧
    ∀ scr : Screen, scr.videoMem = VIDEO.toNat → scr.screenX = x → scr.screenY = y →
      (f scr).mem = g scr.mem ∧ (f scr).screenX = x' ∧ (f scr).screenY = y' ∧
        (f scr).videoMem = VIDEO.toNat

theorem pageLocal_id : PageLocal id :=
  ⟨fun _ _ h => h, fun _ _ _ => rfl⟩

theorem pageLocal_store {addr : Int} (haddr : addr < VIDEO.toNat + PAGE_SIZE_KB) (b : UInt8) :
    PageLocal (VideoBytes.store addr b) where
  page m m' h a hlo hhi := by
    rw [store_apply, store_apply, h a hlo hhi]
  above m a ha := by
    rw [store_apply, if_neg (by omega)]

theorem PageLocal.comp {f g : VideoBytes → VideoBytes} (hf : PageLocal f) (hg : PageLocal g) :
    PageLocal fun m => g (f m) where
  page m m' h := hg.page _ _ (hf.page _ _ h)
  above m a ha := by
    rw [hg.above _ _ ha, hf.above _ _ ha]

-- The last cell of the grid ends 96 bytes before the page does.
theorem pageLocal_storeCell {x y : Int} (h : OnGrid x y) (c : UInt8) :
    PageLocal (VideoBytes.storeCell VIDEO.toNat (NUM_COLS * y + x) c) := by
  have hsize : PAGE_SIZE_KB = 4096 := rfl
  have hcell : NUM_COLS * y + x < 2000 := by
    simp only [OnGrid, NUM_COLS, NUM_ROWS] at h ⊢
    omega
  exact (pageLocal_store (by omega) c).comp (pageLocal_store (by omega) ATTRIB)

theorem pageLocal_blanked {lo : Int} {n : Nat} (h : lo + n ≤ 2000) :
    PageLocal (VideoBytes.blanked VIDEO.toNat lo n) where
  page m m' h a hlo hhi := by
    rw [blanked, blanked, h a hlo hhi]
  above m a ha := by
    have hsize : PAGE_SIZE_KB = 4096 := rfl
    rw [blanked, if_neg (by omega)]

theorem pageLocal_shifted : PageLocal (VideoBytes.shifted VIDEO.toNat 1920) where
  page m m' h a hlo hhi := by
    have hsize : PAGE_SIZE_KB = 4096 := rfl
    have hcols : NUM_COLS = 80 := rfl
    rw [shifted, shifted, h a hlo hhi]
    split
    · rw [h (a + 2 * NUM_COLS) (by omega) (by omega)]
    · rfl
  above m a ha := by
    have hsize : PAGE_SIZE_KB = 4096 := rfl
    rw [shifted, if_neg (by omega)]

theorem Confined.comp {f g : Screen → Screen} (hf : Confined f) (hg : Confined g) :
    Confined fun scr => g (f scr) := by
  intro x y hxy
  rcases hf x y hxy with ⟨gf, x₁, y₁, hlocal, hgrid, heffect⟩
  rcases hg x₁ y₁ hgrid with ⟨gg, x₂, y₂, hlocal₂, hgrid₂, heffect₂⟩
  refine ⟨fun m => gg (gf m), x₂, y₂, hlocal.comp hlocal₂, hgrid₂, fun scr hvideo hx hy => ?_⟩
  rcases heffect scr hvideo hx hy with ⟨hmem, hx₁, hy₁, hvideo₁⟩
  rcases heffect₂ (f scr) hvideo₁ hx₁ hy₁ with ⟨hmem₂, hrest⟩
  rw [hmem] at hmem₂
  exact ⟨hmem₂, hrest⟩

theorem confined_id : Confined fun scr => scr := by
  intro x y hxy
  exact ⟨id, x, y, pageLocal_id, hxy, fun scr hvideo hx hy => ⟨rfl, hx, hy, hvideo⟩⟩

def scrolled (m : VideoBytes) : VideoBytes :=
  (m.shifted VIDEO.toNat 1920).blanked VIDEO.toNat 1920 80

theorem pageLocal_scrolled : PageLocal scrolled :=
  pageLocal_shifted.comp (pageLocal_blanked (by decide))

theorem scrollHandle_effect {scr : Screen} (hvideo : scr.videoMem = VIDEO.toNat) :
    scr.scrollHandle.mem = scrolled scr.mem ∧ scr.scrollHandle.screenX = 0 ∧
      scr.scrollHandle.screenY = scr.screenY - 1 ∧ scr.scrollHandle.videoMem = VIDEO.toNat := by
  refine ⟨?_, rfl, rfl, ?_⟩
  · rw [Screen.scrollHandle_mem, hvideo, scrolled]
  · rw [Screen.scrollHandle_videoMem, hvideo]

theorem confined_scrollHandle : Confined Screen.scrollHandle := by
  intro x y hxy
  refine ⟨scrolled, 0, y - 1, pageLocal_scrolled, ?_, fun scr hvideo hx hy => ?_⟩
  · simp only [OnGrid, NUM_COLS, NUM_ROWS] at hxy ⊢
    omega
  · rw [← hy]
    exact scrollHandle_effect hvideo

theorem confined_clear : Confined Screen.clear := by
  intro x y _
  refine ⟨VideoBytes.blanked VIDEO.toNat 0 2000, 0, 0, pageLocal_blanked (by decide),
    ⟨by decide, by decide, by decide⟩, fun scr hvideo hx hy => ⟨?_, ?_, ?_, ?_⟩⟩
  · rw [Screen.clear_mem, hvideo]
  · simp only [Screen.clear, Screen.updateCursor]
  · simp only [Screen.clear, Screen.updateCursor]
  · rw [Screen.clear_videoMem, hvideo]

theorem confined_newRow : Confined Screen.newRow := by
  intro x y hxy
  by_cases hlast : y + 1 = NUM_ROWS
  · refine ⟨scrolled, 0, y, pageLocal_scrolled, ?_, fun scr hvideo hx hy => ?_⟩
    · simp only [OnGrid, NUM_COLS, NUM_ROWS] at hxy ⊢
      omega
    · have heffect := @scrollHandle_effect (scr.setScreenY (scr.screenY + 1)) hvideo
      rw [Screen.newRow, hy, if_pos hlast]
      rw [hy] at heffect
      refine ⟨heffect.1, heffect.2.1, ?_, heffect.2.2.2⟩
      rw [heffect.2.2.1]
      exact Int.add_sub_cancel y 1
  · refine ⟨id, 0, y + 1, pageLocal_id, ?_, fun scr hvideo hx hy => ?_⟩
    · simp only [OnGrid, NUM_COLS, NUM_ROWS] at hxy hlast ⊢
      omega
    · rw [Screen.newRow, hy, if_neg hlast]
      exact ⟨rfl, rfl, congrArg (· + 1) hy, hvideo⟩

theorem confined_putCell (c : UInt8) : Confined (Screen.putCell c) := by
  intro x y hxy
  refine ⟨VideoBytes.storeCell VIDEO.toNat (NUM_COLS * y + x) c, Int.tmod (x + 1) NUM_COLS,
    Int.tmod (y + Int.tdiv (Int.tmod (x + 1) NUM_COLS) NUM_COLS) NUM_ROWS,
    pageLocal_storeCell hxy c, ?_, fun scr hvideo hx hy => ?_⟩
  · simp only [OnGrid, NUM_COLS, NUM_ROWS] at hxy ⊢
    exact ⟨Int.tmod_nonneg _ (by omega), Int.tmod_lt_of_pos _ (by decide),
      Int.tmod_lt_of_pos _ (by decide)⟩
  · rw [Screen.putCell, hx, hy, hvideo]
    exact ⟨rfl, rfl, rfl, rfl⟩

theorem confined_putc (keyIndex : Nat) (c : UInt8) : Confined (Screen.putc keyIndex c) := by
  have hputc : Screen.putc keyIndex c = fun scr => if c = 0x0A ∨ c = 0x0D then scr.newRow
      else if keyIndex < MAX_BUFF_LENGTH then scr.putCell c else scr :=
    funext (Screen.putc_eq keyIndex c)
  rw [hputc]
  split
  · exact confined_newRow
  · split
    · exact confined_putCell c
    · exact confined_id

theorem confined_printBackspace : Confined Screen.printBackspace := by
  intro x y hxy
  have hgrid : OnGrid (Screen.backCell x y).1 (Screen.backCell x y).2 := by
    simp only [OnGrid, Screen.backCell, NUM_COLS, NUM_ROWS] at hxy ⊢
    split
    · simp
    · split <;> simp only <;> omega
  have hcell : NUM_COLS * (Screen.backCell x y).2 + (Screen.backCell x y).1 < 2000 := by
    simp only [OnGrid, NUM_COLS, NUM_ROWS] at hgrid ⊢
    omega
  have hsize : PAGE_SIZE_KB = 4096 := rfl
  refine ⟨VideoBytes.store (VIDEO.toNat + 2 * (NUM_COLS * (Screen.backCell x y).2 +
    (Screen.backCell x y).1)) 0x20, _, _, pageLocal_store (by omega) 0x20, hgrid,
    fun scr hvideo hx hy => ?_⟩
  rw [Screen.printBackspace_eq, hx, hy, hvideo]
  exact ⟨rfl, rfl, rfl, rfl⟩

theorem confined_write (keyIndex : Nat) (buf : Option CStr) (nbytes : Int) :
    Confined (Screen.write keyIndex buf nbytes) := by
  have hrow : ∀ x, Confined (Screen.startRow x) := by
    intro x
    unfold Screen.startRow
    split
    · exact confined_newRow
    · exact confined_id
  have hbyte : ∀ x b, Confined (Screen.writeByte keyIndex x b) := by
    intro x b
    unfold Screen.writeByte
    split
    · exact (hrow x).comp (confined_putc keyIndex b)
    · exact hrow x
  have hloop : ∀ l, Confined (Screen.writeLoop keyIndex l) := by
    intro l
    induction l with
    | nil => exact confined_id
    | cons p l ih => exact (hbyte p.2 p.1).comp ih
  unfold Screen.write
  split
  · exact confined_id
  · split
    · exact confined_id
    · exact hloop _

theorem onScreen_rest (f : Screen → Screen) (s : Term) :
    (s.onScreen f).displayTerminal = s.displayTerminal ∧ (s.onScreen f).keyIndex = s.keyIndex ∧
      (s.onScreen f).lastScreenX = s.lastScreenX ∧ (s.onScreen f).lastScreenY = s.lastScreenY :=
  ⟨rfl, rfl, rfl, rfl⟩

/-- An operation is confined to the screen, and leaves the rest of the terminal data alone. -/
theorem ScreenOp.apply_effect (s : Term) (o : ScreenOp) :
    (∃ f, Confined f ∧ ∀ s' : Term, s'.getKeyIndex = s.getKeyIndex →
      (o.apply s').screen = f s'.screen) ∧ (o.apply s).displayTerminal = s.displayTerminal ∧
      (o.apply s).keyIndex = s.keyIndex ∧ (o.apply s).lastScreenX = s.lastScreenX ∧
      (o.apply s).lastScreenY = s.lastScreenY := by
  cases o with
  | putc c =>
    refine ⟨⟨Screen.putc s.getKeyIndex c, confined_putc _ c, fun s' hkey => ?_⟩, onScreen_rest _ s⟩
    rw [ScreenOp.apply, Term.putc, hkey, onScreen_screen]
  | write buf nbytes =>
    refine ⟨⟨Screen.write s.getKeyIndex buf nbytes, confined_write _ buf nbytes,
      fun s' hkey => ?_⟩, ?_⟩
    · rw [ScreenOp.apply, terminalWrite_eq, hkey, onScreen_screen]
    · rw [ScreenOp.apply, terminalWrite_eq]
      exact onScreen_rest _ s
  | backspace =>
    exact ⟨⟨Screen.printBackspace, confined_printBackspace, fun _ _ => rfl⟩,
      onScreen_rest Screen.printBackspace s⟩
  | clear =>
    refine ⟨⟨Screen.clear, confined_clear, fun s' _ => ?_⟩, onScreen_rest Screen.clear s⟩
    rw [ScreenOp.apply, onScreen_screen]
  | scroll =>
    refine ⟨⟨Screen.scrollHandle, confined_scrollHandle, fun s' _ => ?_⟩,
      onScreen_rest Screen.scrollHandle s⟩
    rw [ScreenOp.apply, onScreen_screen]

/-! ## What a terminal shows -/

/-- Where the page of terminal `t` is. -/
def Term.pageAddr (s : Term) (t : Nat) : Int :=
  if t = s.displayTerminal then VIDEO.toNat else getTermVidAddr t

/-- The cursor of terminal `t`. -/
def Term.cursorOf (s : Term) (t : Nat) : Int × Int :=
  if t = s.displayTerminal then (s.screen.screenX, s.screen.screenY)
  else (s.lastScreenX t, s.lastScreenY t)

/-- Terminal `t` has the same page and the same cursor. -/
structure SameShown (t : Nat) (s s' : Term) : Prop where
  page : ∀ i < PAGE_SIZE_KB, s.screen.mem (s.pageAddr t + i) = s'.screen.mem (s'.pageAddr t + i)
  cursor : s.cursorOf t = s'.cursorOf t

/-- The video page is in use, and every cursor is on the grid. -/
structure Placed (s : Term) : Prop where
  display : s.displayTerminal < MAX_TERMINAL_NUM
  video : s.screen.videoMem = VIDEO.toNat
  cursors : ∀ t < MAX_TERMINAL_NUM, OnGrid (s.cursorOf t).1 (s.cursorOf t).2

theorem SameShown.trans {t : Nat} {s₁ s₂ s₃ : Term} (h : SameShown t s₁ s₂)
    (h' : SameShown t s₂ s₃) : SameShown t s₁ s₃ :=
  ⟨fun i hi => (h.page i hi).trans (h'.page i hi), h.cursor.trans h'.cursor⟩

theorem SameShown.symm {t : Nat} {s s' : Term} (h : SameShown t s s') : SameShown t s' s :=
  ⟨fun i hi => (h.page i hi).symm, h.cursor.symm⟩

theorem pageAddr_display (s : Term) : s.pageAddr s.displayTerminal = VIDEO.toNat := if_pos rfl

theorem getTermVidAddr_eq {t : Nat} (ht : t < MAX_TERMINAL_NUM) :
    getTermVidAddr t = 0xD0000 + 4096 * t := by
  have hthree : MAX_TERMINAL_NUM = 3 := rfl
  rw [getTermVidAddr, if_neg (by omega)]
  rfl

/-- The video page goes to the place of the terminal that leaves, and the place of the one that
comes is copied to the video page. -/
theorem switchDisplayTerminal_mem {s : Term} (hdisp : s.displayTerminal < MAX_TERMINAL_NUM)
    {u : Nat} (hu : u < MAX_TERMINAL_NUM) {t i : Nat} (ht : t < MAX_TERMINAL_NUM)
    (hi : i < PAGE_SIZE_KB) :
    (s.switchDisplayTerminal u).screen.mem (if t = u then VIDEO.toNat + i else getTermVidAddr t + i) =
      s.screen.mem (if t = s.displayTerminal then VIDEO.toNat + i else getTermVidAddr t + i) := by
  have hthree : MAX_TERMINAL_NUM = 3 := rfl
  have hsize : PAGE_SIZE_KB = 4096 := rfl
  have hvideo : (VIDEO.toNat : Int) = 0xB8000 := by decide
  have hmem : (s.switchDisplayTerminal u).screen.mem =
      (s.screen.mem.memcpy (getTermVidAddr s.displayTerminal) VIDEO.toNat PAGE_SIZE_KB).memcpy
        VIDEO.toNat (getTermVidAddr u) PAGE_SIZE_KB := by
    simp only [switchDisplayTerminal, Screen.updateCursor]
  rw [hmem, getTermVidAddr_eq hdisp, getTermVidAddr_eq hu, getTermVidAddr_eq ht, hvideo,
    memcpy_apply (by omega), memcpy_apply (by omega), memcpy_apply (by omega)]
  by_cases htu : t = u
  · subst htu
    rw [if_pos rfl, if_pos (by omega)]
    by_cases htd : t = s.displayTerminal
    · rw [if_pos (by omega), if_pos htd]
      exact congrArg s.screen.mem (by omega)
    · rw [if_neg (by omega), if_neg htd]
      exact congrArg s.screen.mem (by omega)
  · rw [if_neg htu, if_neg (by omega)]
    by_cases htd : t = s.displayTerminal
    · rw [if_pos (by omega), if_pos htd]
      exact congrArg s.screen.mem (by omega)
    · rw [if_neg (by omega), if_neg htd]

/-- A switch moves pages about and shows the same. -/
theorem sameShown_switchDisplayTerminal {s : Term} (hdisp : s.displayTerminal < MAX_TERMINAL_NUM)
    {u t : Nat} (hu : u < MAX_TERMINAL_NUM) (ht : t < MAX_TERMINAL_NUM) :
    SameShown t (s.switchDisplayTerminal u) s where
  page i hi := by
    have hmem := switchDisplayTerminal_mem hdisp hu ht hi
    have hadd : ∀ c : Prop, ∀ _ : Decidable c, (if c then (VIDEO.toNat : Int) + i
        else getTermVidAddr t + i) = (if c then (VIDEO.toNat : Int) else getTermVidAddr t) + i := by
      intro c _
      split <;> rfl
    rw [hadd, hadd] at hmem
    exact hmem
  cursor := by
    have hdisplay : (s.switchDisplayTerminal u).displayTerminal = u := rfl
    rw [Term.cursorOf, Term.cursorOf, hdisplay]
    by_cases htu : t = u
    · rw [if_pos htu, htu]
      simp only [switchDisplayTerminal, Screen.updateCursor]
      split <;> rfl
    · rw [if_neg htu]
      simp only [switchDisplayTerminal]
      split <;> rfl

theorem Placed.switchDisplayTerminal {s : Term} (h : Placed s) {u : Nat}
    (hu : u < MAX_TERMINAL_NUM) : Placed (s.switchDisplayTerminal u) where
  display := hu
  video := by
    rw [switchDisplayTerminal_videoMem]
    exact h.video
  cursors t ht := by
    rw [(sameShown_switchDisplayTerminal h.display hu ht).cursor]
    exact h.cursors t ht

theorem cursorOf_display (s : Term) :
    s.cursorOf s.displayTerminal = (s.screen.screenX, s.screen.screenY) := if_pos rfl

theorem Placed.onGrid {s : Term} (h : Placed s) : OnGrid s.screen.screenX s.screen.screenY := by
  have hcursor := h.cursors _ h.display
  rw [cursorOf_display] at hcursor
  exact hcursor

-- The saved pages lie above the video page.
theorem ScreenOp.sameShown_other {s : Term} (h : Placed s) (o : ScreenOp) {t : Nat}
    (ht : t < MAX_TERMINAL_NUM) (hne : t ≠ s.displayTerminal) : SameShown t (o.apply s) s := by
  rcases o.apply_effect s with ⟨⟨f, hf, hscreen⟩, hdisp, -, hlastX, hlastY⟩
  rcases hf _ _ h.onGrid with ⟨g, x', y', hlocal, -, heffect⟩
  have hsize : PAGE_SIZE_KB = 4096 := rfl
  have hvideo : (VIDEO.toNat : Int) = 0xB8000 := by decide
  constructor
  · intro i _
    rw [Term.pageAddr, Term.pageAddr, hdisp, if_neg hne, hscreen s rfl,
      (heffect s.screen h.video rfl rfl).1]
    apply hlocal.above
    rw [getTermVidAddr_eq ht]
    omega
  · rw [Term.cursorOf, Term.cursorOf, hdisp, if_neg hne, if_neg hne, hlastX, hlastY]

theorem ScreenOp.placed {s : Term} (h : Placed s) (o : ScreenOp) : Placed (o.apply s) := by
  rcases o.apply_effect s with ⟨⟨f, hf, hscreen⟩, hdisp, -, hlastX, hlastY⟩
  rcases hf _ _ h.onGrid with ⟨g, x', y', -, hgrid, heffect⟩
  rcases heffect s.screen h.video rfl rfl with ⟨-, hx, hy, hvideo⟩
  rw [← hscreen s rfl] at hx hy hvideo
  refine ⟨hdisp ▸ h.display, hvideo, fun t ht => ?_⟩
  rw [Term.cursorOf, hdisp]
  by_cases htd : t = s.displayTerminal
  · rw [if_pos htd, hx, hy]
    exact hgrid
  · have hsaved := h.cursors t ht
    rw [Term.cursorOf, if_neg htd] at hsaved
    rw [if_neg htd, hlastX, hlastY]
    exact hsaved

/-- Two runs that show the same on the displayed terminal still do after the same operation. -/
theorem ScreenOp.sameShown_own {s s' : Term} (h : Placed s) (h' : Placed s') (o : ScreenOp)
    (hdisp : s'.displayTerminal = s.displayTerminal) (hkey : s'.keyIndex = s.keyIndex)
    (hsame : SameShown s.displayTerminal s s') :
    SameShown s.displayTerminal (o.apply s) (o.apply s') := by
  rcases o.apply_effect s with ⟨⟨f, hf, hscreen⟩, hdisp₁, -⟩
  rcases hf _ _ h.onGrid with ⟨g, x', y', hlocal, -, heffect⟩
  have hdisp₂ := (o.apply_effect s').2.1
  have hkeys : s'.getKeyIndex = s.getKeyIndex := by
    rw [getKeyIndex, getKeyIndex, hkey, hdisp]
  have hcursor := hsame.cursor
  rw [cursorOf_display, ← hdisp, cursorOf_display] at hcursor
  have hone := heffect s.screen h.video rfl rfl
  have htwo := heffect s'.screen h'.video (congrArg Prod.fst hcursor).symm
    (congrArg Prod.snd hcursor).symm
  rw [← hscreen s rfl] at hone
  rw [← hscreen s' hkeys] at htwo
  have hsize : PAGE_SIZE_KB = 4096 := rfl
  constructor
  · intro i hi
    rw [Term.pageAddr, Term.pageAddr, hdisp₁, hdisp₂, hdisp, if_pos rfl, hone.1, htwo.1]
    apply hlocal.page _ _ _ _ (by omega) (by omega)
    intro a hlo hhi
    have hpage := hsame.page (a - VIDEO.toNat).toNat (by omega)
    rw [pageAddr_display, ← hdisp, pageAddr_display, Int.toNat_of_nonneg (by omega),
      show (VIDEO.toNat : Int) + (a - VIDEO.toNat) = a by omega] at hpage
    exact hpage
  · rw [Term.cursorOf, Term.cursorOf, hdisp₁, hdisp₂, hdisp, if_pos rfl, if_pos rfl, hone.2.1,
      hone.2.2.1, htwo.2.1, htwo.2.2.1]

/-! ## Interleavings -/

inductive ScreenEvent where
  | op (o : ScreenOp)
  | switch (t : Fin 3)

def screenStep (s : Term) : ScreenEvent → Term
  | .op o => o.apply s
  | .switch t => s.switchDisplayTerminal t

/-- The operations issued while terminal `t` was displayed, for a run that starts with terminal
`shown` on the screen. -/
def opsWhile (t : Nat) : Nat → List ScreenEvent → List ScreenOp
  | _, [] => []
  | shown, .op o :: es => if shown = t then o :: opsWhile t shown es else opsWhile t shown es
  | _, .switch u :: es => opsWhile t u es

/-- Terminal `t` on its own: its page and cursor on the screen from the start, and only its own
operations. -/
def solo (t : Nat) (es : List ScreenEvent) (s : Term) : Term :=
  (opsWhile t s.displayTerminal es).foldl ScreenOp.apply (s.switchDisplayTerminal t)

theorem Placed.run {s : Term} (h : Placed s) (es : List ScreenEvent) :
    Placed (es.foldl screenStep s) := by
  induction es generalizing s with
  | nil => exact h
  | cons e es ih =>
    cases e with
    | op o => exact ih (o.placed h)
    | switch u => exact ih (h.switchDisplayTerminal u.isLt)

-- The induction is on the events; the lone terminal takes a step or waits.
theorem sameShown_run {t : Nat} (ht : t < MAX_TERMINAL_NUM) (es : List ScreenEvent) {s alone : Term}
    (h : Placed s) (halone : Placed alone) (hdisp : alone.displayTerminal = t)
    (hkey : alone.keyIndex = s.keyIndex) (hsame : SameShown t s alone) :
    SameShown t (es.foldl screenStep s)
      ((opsWhile t s.displayTerminal es).foldl ScreenOp.apply alone) := by
  induction es generalizing s alone with
  | nil => exact hsame
  | cons e es ih =>
    rw [List.foldl_cons]
    cases e with
    | op o =>
      rcases o.apply_effect s with ⟨-, hshown, hkeys, -⟩
      rcases o.apply_effect alone with ⟨-, hshown', hkeys', -⟩
      have hnext := @ih (o.apply s)
      rw [hshown] at hnext
      rw [opsWhile]
      by_cases htd : s.displayTerminal = t
      · rw [if_pos htd, List.foldl_cons]
        apply hnext (o.placed h) (o.placed halone) (hshown'.trans hdisp)
        · rw [hkeys, hkeys', hkey]
        · rw [← htd]
          exact o.sameShown_own h halone (hdisp.trans htd.symm) hkey (htd.symm ▸ hsame)
      · rw [if_neg htd]
        apply hnext (o.placed h) halone hdisp
        · rw [hkeys, hkey]
        · exact (o.sameShown_other h ht (Ne.symm htd)).trans hsame
    | switch u =>
      have hu : (u : Nat) < MAX_TERMINAL_NUM := u.isLt
      exact ih (h.switchDisplayTerminal hu) halone hdisp hkey
        ((sameShown_switchDisplayTerminal h.display hu ht).trans hsame)

/-- The same bytes in the video page and the same place for the next character. -/
structure OnScreenAlike (s s' : Term) : Prop where
  page : ∀ i < PAGE_SIZE_KB, s.screen.mem (VIDEO.toNat + i) = s'.screen.mem (VIDEO.toNat + i)
  column : s.screen.screenX = s'.screen.screenX
  row : s.screen.screenY = s'.screen.screenY

theorem SameShown.onScreenAlike {t : Nat} {s s' : Term} (h : SameShown t s s')
    (hs : s.displayTerminal = t) (hs' : s'.displayTerminal = t) : OnScreenAlike s s' := by
  have hpage := h.page
  have hcursor := h.cursor
  rw [← hs, cursorOf_display, hs, ← hs', cursorOf_display] at hcursor
  refine ⟨fun i hi => ?_, congrArg Prod.fst hcursor, congrArg Prod.snd hcursor⟩
  have hbyte := hpage i hi
  rw [← hs, pageAddr_display, hs, ← hs', pageAddr_display] at hbyte
  exact hbyte

theorem solo_displayTerminal (t : Nat) (es : List ScreenEvent) (s : Term) :
    (solo t es s).displayTerminal = t := by
  have hops : ∀ (ops : List ScreenOp) (s : Term),
      (ops.foldl ScreenOp.apply s).displayTerminal = s.displayTerminal := by
    intro ops
    induction ops with
    | nil => exact fun _ => rfl
    | cons o ops ih =>
      intro s
      rw [List.foldl_cons, ih, (o.apply_effect s).2.1]
  rw [solo, hops]
  rfl

/-- Whatever the three terminals do in turn, each shows what it would show alone, while it is
displayed and again whenever it is brought back, with the display's cursor where it left off. -/
theorem screens_isolated (s : Term) (hdisp : s.displayTerminal < MAX_TERMINAL_NUM)
    (hvideo : s.screen.videoMem = VIDEO.toNat)
    (hcursors : ∀ t < MAX_TERMINAL_NUM, OnGrid (s.cursorOf t).1 (s.cursorOf t).2)
    (es : List ScreenEvent) (t : Fin 3) :
    ((es.foldl screenStep s).displayTerminal = t →
        OnScreenAlike (es.foldl screenStep s) (solo t es s)) ∧
      OnScreenAlike ((es.foldl screenStep s).switchDisplayTerminal t) (solo t es s) ∧
      ((es.foldl screenStep s).switchDisplayTerminal t).screen.cursor =
        ((solo t es s).screen.screenY * NUM_COLS + (solo t es s).screen.screenX) % 65536 := by
  have h : Placed s := ⟨hdisp, hvideo, hcursors⟩
  have ht : (t : Nat) < MAX_TERMINAL_NUM := t.isLt
  have hsame : SameShown t (es.foldl screenStep s) (solo t es s) :=
    sameShown_run ht es h (h.switchDisplayTerminal ht) rfl rfl
      (sameShown_switchDisplayTerminal hdisp ht ht).symm
  have hback := ((sameShown_switchDisplayTerminal (h.run es).display ht ht).trans hsame).onScreenAlike rfl
    (solo_displayTerminal t es s)
  refine ⟨fun hshown => hsame.onScreenAlike hshown (solo_displayTerminal t es s), hback, ?_⟩
  rw [← hback.column, ← hback.row]
  simp only [switchDisplayTerminal, Screen.updateCursor]

-- The second terminal writes where the first one did, and the first one comes back.
theorem screens_isolated_return :
    (solo 0 [.op (.putc 0x61), .switch 1, .op (.putc 0x62), .op (.putc 0x0A)]
        (bootTerm blankScreen)).screen.screenX = 1 ∧
      OnScreenAlike (([ScreenEvent.op (.putc 0x61), .switch 1, .op (.putc 0x62),
          .op (.putc 0x0A)].foldl screenStep (bootTerm blankScreen)).switchDisplayTerminal 0)
        (solo 0 [.op (.putc 0x61), .switch 1, .op (.putc 0x62), .op (.putc 0x0A)]
          (bootTerm blankScreen)) := by
  have hcursors : ∀ t < MAX_TERMINAL_NUM, OnGrid ((bootTerm blankScreen).cursorOf t).1
      ((bootTerm blankScreen).cursorOf t).2 := by
    intro t _
    have hzero : (bootTerm blankScreen).cursorOf t = (0, 0) := by
      rw [Term.cursorOf]
      split <;> rfl
    rw [hzero]
    exact ⟨by decide, by decide, by decide⟩
  exact ⟨by rfl, (screens_isolated (bootTerm blankScreen) (by decide) rfl hcursors _ 0).2.1⟩

end Kernel391
