import Kernel391.BlinkTable
import Kernel391.Lib.Lines
import Kernel391.TerminalFrame
import Kernel391.UserLibrary

/-!
# The frames of the fish (`fish/fish.c`)

`add_frames` reads two text files in step, a row of each at a time, and adds an entry for every
place where one of them has a character.  A file that ends before the other, or a row that is
shorter, counts as blank from there on.
-/

namespace Kernel391

open Machine

/-! ## The program -/

/-- The variables of the program, beside the kernel.  The page that it writes on is not one of them:
it is the kernel's video memory.  `beyond` is what lies behind that page, where it never writes. -/
structure FishWorld where
  world : World
  blinkArray : Nat → BlinkStruct
  mp1ListHead : Nat
  beyond : Nat → UInt8

-- video memory, by offset
def videoPage (k : Kernel) (i : Nat) : UInt8 := k.dev.term.screen.mem (VIDEO.toNat + i)

def storePage (page : Nat → UInt8) (k : Kernel) : Kernel :=
  { k with dev := { k.dev with term := k.dev.term.onScreen fun scr => { scr with
    mem := fun a =>
      if VIDEO.toNat ≤ a ∧ a < VIDEO.toNat + 4096 then page (a - VIDEO.toNat).toNat
      else scr.mem a } } }

/-- The address that `vidmap` returned leads to video memory. -/
def PageMapped (img : Image) (k : Kernel) : Prop :=
  translate img.pageTableAddr (fun _ _ => 0) k.paging USER_VIDMAP = some ⟨VIDEO, true, true⟩

instance (img : Image) (k : Kernel) : Decidable (PageMapped img k) :=
  inferInstanceAs (Decidable (_ = _))

namespace FishWorld

variable {α : Type}

/-- What the functions of `blink.S` see. -/
def fish (w : FishWorld) : Fish :=
  ⟨w.blinkArray, w.mp1ListHead,
    fun i => if i < 4096 then videoPage w.world.kernel i else w.beyond i⟩

def setFish (f : Fish) (w : FishWorld) : FishWorld :=
  ⟨{ w.world with kernel := storePage f.vmem w.world.kernel }, f.blinkArray, f.mp1ListHead, f.vmem⟩

theorem setFish_fish (f : Fish) (w : FishWorld) : (w.setFish f).fish = f := by
  refine Fish.ext rfl rfl ?_
  funext i
  show (if i < 4096 then (if _ then f.vmem _ else _) else f.vmem i) = f.vmem i
  split
  · rw [if_pos (by omega), show ((VIDEO.toNat : Int) + i - VIDEO.toNat).toNat = i by omega]
  · rfl

def system (c : User α) : Program FishWorld α := c.zoom world fun w s => { s with world := w }

-- on the variables of the program alone
def own (c : Program Fish α) : Program FishWorld α := c.zoom fish setFish

/-- A function of `blink.S`; without its page it faults. -/
def blinks (img : Image) (c : Program Fish α) : Program FishWorld α := fun w =>
  if PageMapped img w.world.kernel then own c w else none

end FishWorld

open FishWorld

/-- What `add_frames` keeps of a file: its descriptor, the last character and the mark of the
end. -/
structure FrameFile where
  fd : Int
  c : UInt8
  eof : Bool

section

variable (os : Os)

def readFrame (f : FrameFile) : Program FishWorld FrameFile :=
  if f.c ≠ 0x0A then do
    let (numBytes, stored) ← system (os.read f.fd 1)
    if numBytes = 0 then return { f with c := 0x0A, eof := true }
    return { f with c := stored.headD f.c }
  else return f

/-- The structure that is added for two characters. -/
def frameStruct (blink : BlinkStruct) (row col : Nat) (c0 c1 : UInt8) : BlinkStruct :=
  { blink with
    onChar := if c0 = 0x0A then 0x20 else c0
    offChar := if c1 = 0x0A then 0x20 else c1
    location := BitVec.ofNat 16 (row * 80 + col + 40) }

/-- The loop over the columns of a row. -/
def rowLoop (blink : BlinkStruct) (row : Nat) :
    Nat → Nat → FrameFile → FrameFile → Program FishWorld (FrameFile × FrameFile)
  | 0, _, _, _ => failure
  | k + 1, col, f0, f1 => do
      let f0 ← readFrame os f0
      let f1 ← readFrame os f1
      if f0.c = 0x0A ∧ f1.c = 0x0A then return (f0, f1)
      else if (f0.c ≠ 0x20 ∧ f0.c ≠ 0x0A) ∨ (f1.c ≠ 0x20 ∧ f1.c ≠ 0x0A) then do
        let _ ← blinks os.img (Fish.mp1IoctlAdd (frameStruct blink row col f0.c f1.c))
        rowLoop blink row k (col + 1) f0 f1
      else rowLoop blink row k (col + 1) f0 f1

def endRow (f : FrameFile) : Program FishWorld FrameFile :=
  if f.eof then do
    let _ ← system (os.close f.fd)
    return { f with c := 0x0A }
  else return { f with c := 0x30 }

/-- The loop over the rows; each row takes at most `cols` iterations. -/
def framesLoop (blink : BlinkStruct) (cols : Nat) :
    Nat → Nat → FrameFile → FrameFile → Program FishWorld Unit
  | 0, _, _, _ => failure
  | k + 1, row, f0, f1 =>
      if f0.eof = false ∨ f1.eof = false then do
        let (f0, f1) ← rowLoop os blink row cols 0 f0 f1
        let f0 ← endRow os f0
        let f1 ← endRow os f1
        framesLoop blink cols k (row + 1) f0 f1
      else return

/-- `add_frames`, with its uninitialised structure; `false` when it has halted the program. -/
def addFrames (file0 file1 : List UInt8) (blink : BlinkStruct) (k : Nat) :
    Program FishWorld Bool := do
  let fd0 ← system (os.openFile file0)
  if fd0 < 0 then return false
  let fd1 ← system (os.openFile file1)
  if fd1 < 0 then return false
  framesLoop os { blink with onLength := 15, offLength := 15 } k k 0 ⟨fd0, 0x30, false⟩
    ⟨fd1, 0x30, false⟩
  return true

end

/-! ## The picture -/

/-- The entries for a place of the two frames: none where both are blank. -/
def frameCell (row col : Nat) (c0 c1 : UInt8) : List BlinkEntry :=
  if c0 = 0x20 ∧ c1 = 0x20 then []
  else [⟨BitVec.ofNat 16 (row * 80 + col + 40), c0, c1, 15, 15, 15, 1⟩]

/-- The entries of a row, from a column on. -/
def rowCells (row : Nat) : Nat → List UInt8 → List UInt8 → List BlinkEntry :=
  inStep 0x20 (frameCell row)

/-- The entries of all rows, from one on. -/
def picture : Nat → List (List UInt8) → List (List UInt8) → List BlinkEntry :=
  inStep [] fun row => rowCells row 0

/-- A table after entries have been added to it in order. -/
def BlinkTable.addAll (t : BlinkTable) (es : List BlinkEntry) : BlinkTable :=
  es.foldl (fun t e => (t.add e).2) t

theorem BlinkTable.addAll_append (t : BlinkTable) (es es' : List BlinkEntry) :
    t.addAll (es ++ es') = (t.addAll es).addAll es' := List.foldl_append

/-- Whatever is in the clock of an entry that is added is overwritten. -/
theorem BlinkTable.add_congr (t : BlinkTable) {e e' : BlinkEntry} (h : e.started = e'.started) :
    t.add e = t.add e' := by
  have hloc : e.location = e'.location := show e.started.location = _ by rw [h]; rfl
  have hon : e.onChar = e'.onChar := show e.started.onChar = _ by rw [h]; rfl
  unfold BlinkTable.add BlinkEntry.offset
  rw [h, hloc, hon]

/-! ## The page -/

/-- Neither video memory nor the page tables have changed. -/
structure SameVideo (k k' : Kernel) : Prop where
  paging : k'.paging = k.paging
  page : ∀ i < 4096, videoPage k' i = videoPage k i

/-- Nobody else writes on the page, or maps pages, between the calls of the program. -/
def Os.KeepsVideo (os : Os) : Prop := ∀ n k, SameVideo k (os.between n k)

section Video

variable {os : Os} {w : World}

/-- A call whose driver leaves the screen alone. -/
theorem Os.descriptorCall_video {call : Pcb → Devices → Option CallResult} (hkeeps : os.KeepsVideo)
    (hcall : ∀ r, call ((os.arrive w).pcbs (os.arrive w).current) (os.arrive w).dev = some r →
      r.dev.term.screen = (os.arrive w).dev.term.screen) :
    IfEnds (os.descriptorCall call) w fun _ w' => SameVideo w.kernel w'.kernel := by
  intro r w' hrun
  obtain ⟨r', hr', heq⟩ := Option.map_eq_some_iff.mp hrun
  obtain ⟨rfl, rfl⟩ := Prod.mk.inj heq
  have hbetween := hkeeps w.calls w.kernel
  refine ⟨hbetween.paging, fun i hi => ?_⟩
  rw [← hbetween.page i hi]
  show r'.dev.term.screen.mem _ = _
  rw [hcall r' hr']
  rfl

theorem Os.openFile_video (hkeeps : os.KeepsVideo) (name : List UInt8) :
    IfEnds (os.openFile name) w fun _ w' => SameVideo w.kernel w'.kernel := by
  refine IfEnds.bind fun r w' hrun => IfEnds.pure (os.descriptorCall_video hkeeps ?_ r w' hrun)
  intro r hr
  rw [← Option.some.inj hr]

theorem Os.close_video (hkeeps : os.KeepsVideo) (fd : Int) :
    IfEnds (os.close fd) w fun _ w' => SameVideo w.kernel w'.kernel := by
  refine IfEnds.bind fun r w' hrun => IfEnds.pure (os.descriptorCall_video hkeeps ?_ r w' hrun)
  intro r hr
  obtain ⟨_, -, rfl⟩ := Option.map_eq_some_iff.mp hr
  rfl

theorem Driver.read_screen {fs : FileSys} {fd : Nat} {nbytes : Int} {pcb : Pcb} {dev : Devices}
    {d : Driver} {r : CallResult} (h : d.read fs fd nbytes pcb dev = some r) :
    r.dev.term.screen = dev.term.screen := by
  cases d with
  | terminal =>
    obtain ⟨s, hs, rfl⟩ := Option.map_eq_some_iff.mp h
    unfold Term.terminalReadResume at hs
    split at hs
    · split at hs <;> rw [← Option.some.inj hs]
      show (Term.clearBuffer _).screen = _
      rw [clearBuffer_eq]
    · cases hs
  | rtc =>
    obtain ⟨s, -, rfl⟩ := Option.map_eq_some_iff.mp h
    rfl
  | fsys =>
    rw [← Option.some.inj h]
    simp only [fileRead]
    split <;> rfl
  | dir =>
    rw [← Option.some.inj h]
    unfold dirRead
    split <;> rfl

theorem Os.read_video (hkeeps : os.KeepsVideo) (fd nbytes : Int) :
    IfEnds (os.read fd nbytes) w fun _ w' => SameVideo w.kernel w'.kernel := by
  refine IfEnds.bind fun r w' hrun => IfEnds.pure (os.descriptorCall_video hkeeps ?_ r w' hrun)
  intro r hr
  unfold sysRead at hr
  split at hr
  · rw [← Option.some.inj hr]
  · split at hr
    · rw [← Option.some.inj hr]
    · obtain ⟨d, -, hd⟩ := Option.bind_eq_some_iff.mp hr
      exact Driver.read_screen hd

end Video

/-- The program has neither drawn nor lost its page. -/
structure Untouched (w w' : FishWorld) : Prop where
  fish : w'.fish = w.fish
  paging : w'.world.kernel.paging = w.world.kernel.paging

theorem Untouched.refl (w : FishWorld) : Untouched w w := ⟨rfl, rfl⟩

theorem Untouched.trans {w w' w'' : FishWorld} (h : Untouched w w') (h' : Untouched w' w'') :
    Untouched w w'' :=
  ⟨h'.fish.trans h.fish, h'.paging.trans h.paging⟩

/-- The page is there, and shows a table. -/
structure PageShows (os : Os) (t : BlinkTable) (w : FishWorld) : Prop where
  mapped : PageMapped os.img w.world.kernel
  held : w.fish.Holds t

theorem Untouched.pageShows {os : Os} {t : BlinkTable} {w w' : FishWorld} (h : Untouched w w')
    (hw : PageShows os t w) : PageShows os t w' := by
  refine ⟨?_, ?_⟩
  · unfold PageMapped
    rw [h.paging]
    exact hw.mapped
  · rw [h.fish]
    exact hw.held

theorem untouched_of_sameVideo {w : FishWorld} {w' : World}
    (h : SameVideo w.world.kernel w'.kernel) : Untouched w { w with world := w' } := by
  refine ⟨Fish.ext rfl rfl ?_, h.paging⟩
  funext i
  show (if i < 4096 then videoPage w'.kernel i else w.beyond i) = _
  split
  · rename_i hi
    rw [h.page i hi]
    exact (if_pos hi).symm
  · rename_i hi
    exact (if_neg hi).symm

theorem system_ends {α : Type} {c : User α} {w : FishWorld} {P : α → World → Prop}
    (h : Ends c w.world P)
    (hvideo : IfEnds c w.world fun _ w' => SameVideo w.world.kernel w'.kernel) :
    Ends (system c) w fun a w' => P a w'.world ∧ Untouched w w' := by
  refine Ends.zoom ((h.and_if hvideo).mono ?_)
  rintro a w' ⟨hP, hsame⟩
  exact ⟨hP, untouched_of_sameVideo hsame⟩

/-- A function of `blink.S` sees the table and leaves the next one. -/
theorem blinks_ends {α : Type} {os : Os} {c : Program Fish α} {w : FishWorld} {t t' : BlinkTable}
    {p : Int} {files : Nat → FdT} {index : Nat} (hw : Running os p files index w.world)
    (ht : PageShows os t w) (h : Ends c w.fish fun _ s => s.Holds t') :
    Ends (blinks os.img c) w fun _ w' =>
      PageShows os t' w' ∧ Running os p files index w'.world := by
  have hown : Ends (own c) w fun _ w' => PageShows os t' w' ∧
      Running os p files index w'.world := by
    refine Ends.zoom (h.mono ?_)
    intro a s hs
    refine ⟨⟨ht.mapped, ?_⟩, hw.current, hw.files, hw.index⟩
    rw [setFish_fish]
    exact hs
  obtain ⟨a, w', hrun, hw'⟩ := hown
  exact ⟨a, w', (if_pos ht.mapped).trans hrun, hw'⟩

/-! ## Reading in step -/

/-- Where `add_frames` is in a file: `line` is what is left of the row, and `lines` are the rows
after it. -/
inductive FrameAt (os : Os) (fd : Nat) (inode : BitVec 32) (files : Nat → FdT) (f : FrameFile) :
    List UInt8 → List (List UInt8) → Prop
  | reading {pos : Nat} {line : List UInt8} {lines : List (List UInt8)} (hc : f.c ≠ 0x0A)
      (heof : f.eof = false) (hslot : FileSlot os.img.lay inode pos (files fd))
      (hpos : pos ≤ (os.img.fs.inodes inode.toNat).length.toNat)
      (hsplit : ((contents os.img.fs (os.img.fs.inodes inode.toNat)).drop pos).splitOn 0x0A =
        line :: lines) : FrameAt os fd inode files f line lines
  | lineEnd {pos : Nat} {lines : List (List UInt8)} (hc : f.c = 0x0A) (heof : f.eof = false)
      (hslot : FileSlot os.img.lay inode pos (files fd))
      (hpos : pos ≤ (os.img.fs.inodes inode.toNat).length.toNat)
      (hsplit : ((contents os.img.fs (os.img.fs.inodes inode.toNat)).drop pos).splitOn 0x0A =
        lines) : FrameAt os fd inode files f [] lines
  | ended (hc : f.c = 0x0A) (heof : f.eof = true)
      (hfile : (files fd).flags = 0 ∨ (files fd).fops = os.img.lay.addr .fsys) :
      FrameAt os fd inode files f [] []

section Frames

variable {os : Os} {p : Int} {files : Nat → FdT} {index : Nat} {w : FishWorld} {fd : Nat}
  {inode : BitVec 32} {f : FrameFile} {line : List UInt8} {lines : List (List UInt8)}

theorem FrameAt.congr {files' : Nat → FdT} (h : FrameAt os fd inode files f line lines)
    (heq : files' fd = files fd) : FrameAt os fd inode files' f line lines := by
  cases h with
  | reading hc heof hslot hpos hsplit => exact .reading hc heof (heq ▸ hslot) hpos hsplit
  | lineEnd hc heof hslot hpos hsplit => exact .lineEnd hc heof (heq ▸ hslot) hpos hsplit
  | ended hc heof hfile => exact .ended hc heof (heq ▸ hfile)

/-- The file after one of its reads: the next character of the row, or the end of the row. -/
theorem readFrame_ends (hos : os.Undisturbed p) (hkeeps : os.KeepsVideo)
    (hw : Running os p files index w.world) (hfd : f.fd = fd) (hrange : 2 ≤ fd ∧ fd < 8)
    (hinode : inode.toNat < os.img.fs.bootBlock.inodeCount.toNat)
    (h : FrameAt os fd inode files f line lines) :
    Ends (readFrame os f) w fun f' w' => f'.fd = fd ∧
      (f'.c = line.headD 0x0A ∧ (line = [] ↔ f'.c = 0x0A)) ∧
      Untouched w w' ∧ ∃ files', Running os p files' index w'.world ∧
        FrameAt os fd inode files' f' line.tail lines ∧ ∀ j, j ≠ fd → files' j = files j := by
  unfold readFrame
  cases h with
  | lineEnd hc heof hslot hpos hsplit =>
    rw [if_neg (not_not.mpr hc)]
    exact Ends.pure ⟨hfd, ⟨hc, by simp [hc]⟩, .refl w, files, hw,
      .lineEnd hc heof hslot hpos hsplit, fun _ _ => rfl⟩
  | ended hc heof hfile =>
    rw [if_neg (not_not.mpr hc)]
    exact Ends.pure ⟨hfd, ⟨hc, by simp [hc]⟩, .refl w, files, hw, .ended hc heof hfile,
      fun _ _ => rfl⟩
  | @reading pos _ _ hc heof hslot hpos hsplit =>
    have hread : Ends (os.read fd 1) w.world _ :=
      os.read_ends hos hw hrange hinode hslot hpos 1 rfl
    have hbound := (os.img.fs.inodes inode.toNat).length.isLt
    have hlength := length_contents os.img.fs (os.img.fs.inodes inode.toNat)
    rw [if_pos hc, hfd]
    refine Ends.bind_of (system_ends hread (os.read_video hkeeps fd 1)) ?_
    rintro ⟨n, stored⟩ w₁ ⟨⟨hr, hw₁, -⟩, hsame⟩
    obtain ⟨rfl, rfl⟩ := Prod.mk.inj hr
    have hother : ∀ m j, j ≠ fd → advanced fd m files j = files j :=
      fun m j hj => Function.update_of_ne hj _ _
    cases hrest : (contents os.img.fs (os.img.fs.inodes inode.toNat)).drop pos with
    | nil =>
      rw [hrest] at hsplit hw₁
      obtain ⟨rfl, rfl⟩ := List.cons.inj hsplit
      refine Ends.pure ⟨rfl, ⟨rfl, by simp⟩, hsame, _, hw₁, .ended rfl rfl (.inr ?_), hother _⟩
      exact (hslot.advanced (by simp; omega)).fops
    | cons b rest =>
      have hpos' : pos + 1 ≤ (os.img.fs.inodes inode.toNat).length.toNat := by
        have hlt := congrArg List.length hrest
        rw [List.length_drop, List.length_cons] at hlt
        omega
      have hrest' : (contents os.img.fs (os.img.fs.inodes inode.toNat)).drop (pos + 1) = rest := by
        rw [← List.drop_drop, hrest]
        rfl
      have hslot' := hslot.advanced (n := 1) (by omega)
      rw [hrest, List.splitOn_cons_eq_if_modifyHead] at hsplit
      rw [hrest] at hw₁
      refine Ends.pure ?_
      by_cases hb : b = 0x0A
      · subst hb
        obtain ⟨rfl, hlines⟩ := List.cons.inj hsplit
        refine ⟨rfl, ⟨rfl, by simp⟩, hsame, _, hw₁, .lineEnd rfl heof hslot' hpos' ?_, hother _⟩
        rw [hrest', hlines]
      · rw [if_neg (by simpa using hb)] at hsplit
        obtain ⟨line', lines', hsplit'⟩ :=
          List.exists_cons_of_ne_nil (List.splitOn_ne_nil 0x0A rest)
        rw [hsplit', List.modifyHead_cons] at hsplit
        obtain ⟨rfl, rfl⟩ := List.cons.inj hsplit
        refine ⟨rfl, ⟨rfl, by simp [hb]⟩, hsame, _, hw₁, .reading hb heof hslot' hpos' ?_,
          hother _⟩
        rw [hrest', hsplit']
        rfl

/-- Closing a file that may have been closed before. -/
theorem closeFile_ends {w : World} (hos : os.Undisturbed p) (hw : Running os p files index w)
    (hrange : 2 ≤ fd ∧ fd < 8)
    (hfile : (files fd).flags = 0 ∨ (files fd).fops = os.img.lay.addr .fsys) :
    Ends (os.close fd) w fun _ w' => ∃ files', Running os p files' index w' ∧
      (files' fd).flags = 0 ∧ ∀ j, j ≠ fd → files' j = files j := by
  by_cases hflags : (files fd).flags = 0
  · refine Ends.bind_of (os.descriptorCall_ends (i := index)
      (R := fun r => r.pcb.fileArray = files) hos hw ?_) ?_
    · intro pcb dev hpcb _ hdev
      refine ⟨⟨-1, [], pcb, dev⟩, ?_, hdev, hpcb⟩
      have hclose : sysClose os.img.lay fd pcb = some (-1, pcb) := by
        unfold sysClose
        rw [Int.toNat_natCast, hpcb]
        exact if_pos (.inr (.inr hflags))
      rw [hclose]
      rfl
    · rintro r w' ⟨hr, hw', -⟩
      rw [hr] at hw'
      exact Ends.pure ⟨files, hw', hflags, fun _ _ => rfl⟩
  · refine (os.close_ends hos hw hrange (hfile.resolve_left hflags) hflags).mono ?_
    rintro r w' ⟨-, hw', -⟩
    refine ⟨_, hw', ?_, fun j hj => Function.update_of_ne hj _ _⟩
    rw [Function.update_self]
    rfl

/-- The end of a row: the next one begins, or the file is closed. -/
theorem endRow_ends (hos : os.Undisturbed p) (hkeeps : os.KeepsVideo)
    (hw : Running os p files index w.world) (hfd : f.fd = fd) (hrange : 2 ≤ fd ∧ fd < 8)
    (hc : f.c = 0x0A) (h : FrameAt os fd inode files f [] lines) :
    Ends (endRow os f) w fun f' w' => f'.fd = fd ∧ Untouched w w' ∧
      (lines = [] ↔ f'.eof = true) ∧ ∃ files', Running os p files' index w'.world ∧
        FrameAt os fd inode files' f' (lines.headD []) lines.tail ∧
        ∀ j, j ≠ fd → files' j = files j := by
  unfold endRow
  cases h with
  | reading hne => exact absurd hc hne
  | lineEnd _ heof hslot hpos hsplit =>
    rw [if_neg (by rw [heof]; decide)]
    obtain ⟨line, rest, hlines⟩ := List.exists_cons_of_ne_nil
      (List.splitOn_ne_nil 0x0A ((contents os.img.fs (os.img.fs.inodes inode.toNat)).drop _))
    rw [hsplit] at hlines
    subst hlines
    refine Ends.pure ⟨hfd, .refl w, by simp [heof], files, hw, ?_, fun _ _ => rfl⟩
    exact .reading (show (0x30 : UInt8) ≠ 0x0A by decide) heof hslot hpos hsplit
  | ended _ heof hfile =>
    rw [if_pos heof, hfd]
    refine Ends.bind_of (system_ends (closeFile_ends hos hw hrange hfile)
      (os.close_video hkeeps fd)) ?_
    rintro _ w' ⟨⟨files', hw', hflags, hother⟩, hsame⟩
    exact Ends.pure ⟨rfl, hsame, by simp [heof], files', hw', .ended rfl heof (.inl hflags), hother⟩

end Frames

/-- The two files of `add_frames`: their descriptors and inodes. -/
structure TwoFiles (os : Os) where
  fd0 : Nat
  fd1 : Nat
  inode0 : BitVec 32
  inode1 : BitVec 32
  range0 : 2 ≤ fd0 ∧ fd0 < 8
  range1 : 2 ≤ fd1 ∧ fd1 < 8
  ne : fd0 ≠ fd1
  inode0_lt : inode0.toNat < os.img.fs.bootBlock.inodeCount.toNat
  inode1_lt : inode1.toNat < os.img.fs.bootBlock.inodeCount.toNat

/-- The program between two of its steps: where it is in either file, its table so far, and its
other descriptors. -/
structure FramesAt (os : Os) (p : Int) (index : Nat) (base : Nat → FdT) (two : TwoFiles os)
    (f0 f1 : FrameFile) (line0 line1 : List UInt8) (lines0 lines1 : List (List UInt8))
    (t : BlinkTable) (w : FishWorld) : Prop where
  first : f0.fd = two.fd0
  second : f1.fd = two.fd1
  table : PageShows os t w
  files : ∃ files, Running os p files index w.world ∧
    (∀ j, j ≠ two.fd0 → j ≠ two.fd1 → files j = base j) ∧
    FrameAt os two.fd0 two.inode0 files f0 line0 lines0 ∧
    FrameAt os two.fd1 two.inode1 files f1 line1 lines1

section Picture

variable {os : Os} {p : Int} {index : Nat} {base : Nat → FdT} {two : TwoFiles os}
  {f0 f1 : FrameFile} {line0 line1 : List UInt8} {lines0 lines1 : List (List UInt8)}
  {t : BlinkTable} {w : FishWorld}

/-- Both reads of a column. -/
theorem readFrames_ends (hos : os.Undisturbed p) (hkeeps : os.KeepsVideo)
    (h : FramesAt os p index base two f0 f1 line0 line1 lines0 lines1 t w)
    {α : Type} {next : FrameFile → FrameFile → Program FishWorld α} {Q : α → FishWorld → Prop}
    (hnext : ∀ f0' f1' w', f0'.c = line0.headD 0x0A → (line0 = [] ↔ f0'.c = 0x0A) →
      f1'.c = line1.headD 0x0A → (line1 = [] ↔ f1'.c = 0x0A) →
      FramesAt os p index base two f0' f1' line0.tail line1.tail lines0 lines1 t w' →
      Ends (next f0' f1') w' Q) :
    Ends (readFrame os f0 >>= fun f0 => readFrame os f1 >>= fun f1 => next f0 f1) w Q := by
  obtain ⟨hf0, hf1, htable, files, hw, hbase, hframe0, hframe1⟩ := h
  refine Ends.bind_of (readFrame_ends hos hkeeps hw hf0 two.range0 two.inode0_lt hframe0) ?_
  rintro f0' w₁ ⟨hf0', ⟨hc0, hend0⟩, hsame₁, files₁, hw₁, hframe0', hother₁⟩
  have hframe1₁ := hframe1.congr (hother₁ two.fd1 two.ne.symm)
  refine Ends.bind_of (readFrame_ends hos hkeeps hw₁ hf1 two.range1 two.inode1_lt hframe1₁) ?_
  rintro f1' w₂ ⟨hf1', ⟨hc1, hend1⟩, hsame₂, files₂, hw₂, hframe1', hother₂⟩
  refine hnext f0' f1' w₂ hc0 hend0 hc1 hend1 ⟨hf0', hf1', ?_, files₂, hw₂, ?_, ?_, hframe1'⟩
  · exact (hsame₁.trans hsame₂).pageShows htable
  · intro j hj0 hj1
    rw [hother₂ j hj1, hother₁ j hj0, hbase j hj0 hj1]
  · exact hframe0'.congr (hother₂ two.fd0 two.ne)

/-- Blank where the row has ended. -/
theorem blank_headD {line : List UInt8} {c : UInt8} (hc : c = line.headD 0x0A)
    (hend : line = [] ↔ c = 0x0A) : (if c = 0x0A then 0x20 else c) = line.headD 0x20 := by
  cases line with
  | nil => exact if_pos hc
  | cons b line =>
    rw [if_neg fun h => absurd (hend.mpr h) (by simp)]
    exact hc

theorem ne_blank_iff (c : UInt8) :
    c ≠ 0x20 ∧ c ≠ 0x0A ↔ ¬(if c = 0x0A then 0x20 else c) = 0x20 := by
  by_cases hc : c = 0x0A
  · simp [hc]
  · simp [hc]

/-- The entry for two characters that are not both blank. -/
theorem add_frameStruct {blink : BlinkStruct} {row col : Nat} {c0 c1 : UInt8} {s : Fish}
    (hon : blink.onLength = 15) (hoff : blink.offLength = 15) (h : s.Holds t)
    (hloc : BitVec.ofNat 16 (row * 80 + col + 40) ≠ 0) :
    Ends (Fish.mp1IoctlAdd (frameStruct blink row col c0 c1)) s fun _ s' =>
      s'.Holds (t.add ⟨BitVec.ofNat 16 (row * 80 + col + 40), if c0 = 0x0A then 0x20 else c0,
        if c1 = 0x0A then 0x20 else c1, 15, 15, 15, 1⟩).2 := by
  refine (@Fish.Holds.add s t h (frameStruct blink row col c0 c1) hloc).mono ?_
  rintro r s' ⟨-, hs'⟩
  rw [t.add_congr] at hs'
  · exact hs'
  · unfold frameStruct BlinkEntry.started
    simp only [hon, hoff]

/-- A row is read to its end in both files, and its entries are added. -/
theorem rowLoop_ends {blink : BlinkStruct} {row col k : Nat} (hos : os.Undisturbed p)
    (hkeeps : os.KeepsVideo) (hon : blink.onLength = 15) (hoff : blink.offLength = 15)
    (h : FramesAt os p index base two f0 f1 line0 line1 lines0 lines1 t w)
    (hproper : ∀ e ∈ rowCells row col line0 line1, e.location ≠ 0)
    (hk : max line0.length line1.length < k) :
    Ends (rowLoop os blink row k col f0 f1) w fun fs w' => fs.1.c = 0x0A ∧ fs.2.c = 0x0A ∧
      FramesAt os p index base two fs.1 fs.2 [] [] lines0 lines1
        (t.addAll (rowCells row col line0 line1)) w' := by
  induction k generalizing col f0 f1 line0 line1 t w with
  | zero => omega
  | succ k ih =>
    unfold rowLoop
    refine readFrames_ends hos hkeeps h ?_
    intro f0' f1' w' hc0 hend0 hc1 hend1 h'
    by_cases hdone : line0 = [] ∧ line1 = []
    · obtain ⟨rfl, rfl⟩ := hdone
      rw [if_pos ⟨hc0, hc1⟩]
      exact Ends.pure ⟨hc0, hc1, h'⟩
    · rw [rowCells, inStep_cons hdone] at hproper ⊢
      have hlen : max line0.tail.length line1.tail.length < k := by
        rw [← List.length_eq_zero_iff, ← List.length_eq_zero_iff] at hdone
        rw [List.length_tail, List.length_tail]
        omega
      rw [if_neg (by rw [← hend0, ← hend1]; exact hdone)]
      rw [← blank_headD hc0 hend0, ← blank_headD hc1 hend1] at hproper ⊢
      rw [BlinkTable.addAll_append]
      rw [List.forall_mem_append] at hproper
      by_cases hblank : (f0'.c ≠ 0x20 ∧ f0'.c ≠ 0x0A) ∨ (f1'.c ≠ 0x20 ∧ f1'.c ≠ 0x0A)
      · rw [if_pos hblank]
        rw [ne_blank_iff, ne_blank_iff, ← not_and_or] at hblank
        rw [frameCell, if_neg hblank] at hproper ⊢
        obtain ⟨hf0, hf1, htable, files, hw, hframes⟩ := h'
        refine Ends.bind_of (blinks_ends hw htable (add_frameStruct hon hoff htable.held
          (hproper.1 _ List.mem_cons_self))) ?_
        rintro _ w₁ ⟨htable₁, hw₁⟩
        exact ih ⟨hf0, hf1, htable₁, files, hw₁, hframes⟩ hproper.2 hlen
      · rw [if_neg hblank]
        rw [ne_blank_iff, ne_blank_iff, ← not_and_or, not_not] at hblank
        rw [frameCell, if_pos hblank]
        exact ih h' hproper.2 hlen

theorem length_headD_lt {lines : List (List UInt8)} {n : Nat} (h : ∀ line ∈ lines, line.length < n)
    (hn : 0 < n) : (lines.headD []).length < n := by
  cases lines with
  | nil => exact hn
  | cons line lines => exact h line List.mem_cons_self

/-- Row by row the entries of the picture are added. -/
theorem framesLoop_ends {blink : BlinkStruct} {cols row k : Nat} (hos : os.Undisturbed p)
    (hkeeps : os.KeepsVideo) (hon : blink.onLength = 15) (hoff : blink.offLength = 15)
    (h : FramesAt os p index base two f0 f1 (lines0.headD []) (lines1.headD []) lines0.tail
      lines1.tail t w) (heof0 : lines0 = [] ↔ f0.eof = true) (heof1 : lines1 = [] ↔ f1.eof = true)
    (hproper : ∀ e ∈ picture row lines0 lines1, e.location ≠ 0)
    (hcols : (∀ line ∈ lines0, line.length < cols) ∧ (∀ line ∈ lines1, line.length < cols) ∧
      0 < cols)
    (hk : max lines0.length lines1.length < k) :
    Ends (framesLoop os blink cols k row f0 f1) w fun _ w' =>
      PageShows os (t.addAll (picture row lines0 lines1)) w' ∧
      ∃ files, Running os p files index w'.world ∧
        ∀ j, j ≠ two.fd0 → j ≠ two.fd1 → files j = base j := by
  induction k generalizing row f0 f1 lines0 lines1 t w with
  | zero => omega
  | succ k ih =>
    unfold framesLoop
    by_cases hdone : lines0 = [] ∧ lines1 = []
    · rw [if_neg (by simp [heof0.mp hdone.1, heof1.mp hdone.2])]
      obtain ⟨rfl, rfl⟩ := hdone
      obtain ⟨files, hw, hbase, -⟩ := h.files
      exact Ends.pure ⟨h.table, files, hw, hbase⟩
    · have hmore : f0.eof = false ∨ f1.eof = false := by
        rw [← Bool.not_eq_true, ← Bool.not_eq_true, ← heof0, ← heof1]
        exact not_and_or.mp hdone
      rw [picture, inStep_cons hdone] at hproper ⊢
      rw [List.forall_mem_append] at hproper
      rw [BlinkTable.addAll_append, if_pos hmore]
      have hlen : max lines0.tail.length lines1.tail.length < k := by
        rw [← List.length_eq_zero_iff, ← List.length_eq_zero_iff] at hdone
        rw [List.length_tail, List.length_tail]
        omega
      have hhead0 := length_headD_lt hcols.1 hcols.2.2
      have hhead1 := length_headD_lt hcols.2.1 hcols.2.2
      refine Ends.bind_of (rowLoop_ends hos hkeeps hon hoff h hproper.1 (by omega)) ?_
      rintro ⟨f0₁, f1₁⟩ w₁ ⟨hc0, hc1, hf0, hf1, htable, files₁, hw₁, hbase, hframe0, hframe1⟩
      refine Ends.bind_of (endRow_ends hos hkeeps hw₁ hf0 two.range0 hc0 hframe0) ?_
      rintro f0₂ w₂ ⟨hf0₂, hsame₂, heof0₂, files₂, hw₂, hframe0₂, hother₂⟩
      have hframe1₂ := hframe1.congr (hother₂ two.fd1 two.ne.symm)
      refine Ends.bind_of (endRow_ends hos hkeeps hw₂ hf1 two.range1 hc1 hframe1₂) ?_
      rintro f1₃ w₃ ⟨hf1₃, hsame₃, heof1₃, files₃, hw₃, hframe1₃, hother₃⟩
      refine ih ⟨hf0₂, hf1₃, ?_, files₃, hw₃, ?_, ?_, hframe1₃⟩ heof0₂ heof1₃ hproper.2 ?_ hlen
      · exact (hsame₂.trans hsame₃).pageShows htable
      · intro j hj0 hj1
        rw [hother₃ j hj1, hother₂ j hj0, hbase j hj0 hj1]
      · exact hframe0₂.congr (hother₃ two.fd0 two.ne)
      · exact ⟨fun line hline => hcols.1 line (List.mem_of_mem_tail hline),
          fun line hline => hcols.2.1 line (List.mem_of_mem_tail hline), hcols.2.2⟩

/-- A regular file that `open` finds under a name that fits its slot. -/
structure FrameName (fs : FileSys) (name : List UInt8) (dentry : Dentry) : Prop where
  short : ∃ n < 32, IsCStr (cstring name) n
  found : (readDentryByName fs.bootBlock (some (cstring name))).found = some dentry
  regular : dentry.fileType = 2
  inode : dentry.inodeIndex.toNat < fs.bootBlock.inodeCount.toNat

/-- The rows of a file. -/
def frameLines (fs : FileSys) (dentry : Dentry) : List (List UInt8) :=
  (contents fs (fs.inodes dentry.inodeIndex.toNat)).splitOn 0x0A

/-- Opening a frame. -/
theorem openFrame_ends {files : Nat → FdT} {fd : Nat} {name : List UInt8} {dentry : Dentry}
    (hos : os.Undisturbed p) (hkeeps : os.KeepsVideo) (hw : Running os p files index w.world)
    (hfree : FirstFree files fd) (hname : FrameName os.img.fs name dentry) :
    Ends (system (os.openFile name)) w fun r w' => r = fd ∧ Untouched w w' ∧
      ∃ files', Running os p files' index w'.world ∧
        FileSlot os.img.lay dentry.inodeIndex 0 (files' fd) ∧ ∀ j, j ≠ fd → files' j = files j := by
  obtain ⟨n, hn, hcstr⟩ := hname.short
  have hlen := stringLength_eq hcstr (by omega)
  have hdrv : driverOfType dentry.fileType = some .fsys := by
    rw [hname.regular]
    rfl
  refine (system_ends (os.open_ends hos hw hfree hcstr (by omega) hname.found hdrv)
    (os.openFile_video hkeeps name)).mono ?_
  rintro r w' ⟨⟨hr, -, pcb, hpcb, hw'⟩, hsame⟩
  refine ⟨hr, hsame, _, hw', ?_, ?_⟩
  · exact fileSlot_openedPcb hfree.2.2.1 (by omega) dentry pcb
  · intro j hj
    rw [openedPcb_other (.inr ⟨hj, by omega⟩), hpcb]

theorem frameAt_start {files : Nat → FdT} {fd : Nat} {dentry : Dentry}
    (h : FileSlot os.img.lay dentry.inodeIndex 0 (files fd)) :
    FrameAt os fd dentry.inodeIndex files ⟨fd, 0x30, false⟩ ((frameLines os.img.fs dentry).headD [])
      (frameLines os.img.fs dentry).tail := by
  obtain ⟨line, lines, hlines⟩ := List.exists_cons_of_ne_nil
    (List.splitOn_ne_nil 0x0A (contents os.img.fs (os.img.fs.inodes dentry.inodeIndex.toNat)))
  unfold frameLines
  rw [hlines]
  exact .reading (show (0x30 : UInt8) ≠ 0x0A by decide) rfl h (Nat.zero_le _) hlines

theorem frameLines_bounds (fs : FileSys) {dentry : Dentry} {k : Nat}
    (hk : (fs.inodes dentry.inodeIndex.toNat).length.toNat + 1 < k) :
    (frameLines fs dentry).length < k ∧ ∀ line ∈ frameLines fs dentry, line.length < k := by
  have hlength := length_contents fs (fs.inodes dentry.inodeIndex.toNat)
  have hcount := length_splitOn_le 0x0A (contents fs (fs.inodes dentry.inodeIndex.toNat))
  refine ⟨by unfold frameLines; omega, ?_⟩
  intro line hline
  have hle := length_le_of_mem_splitOn hline
  omega

/-- The two slots that the files are opened in. -/
structure TwoFree (files : Nat → FdT) (fd0 fd1 : Nat) : Prop where
  first : FirstFree files fd0
  second : (files fd1).flags = 0
  lt : fd0 < fd1
  lt_eight : fd1 < 8
  between : ∀ j, fd0 < j → j < fd1 → (files j).flags ≠ 0

/-- Of any two files `add_frames` makes the picture they show together. -/
theorem addFrames_ends {files : Nat → FdT} {fd0 fd1 k : Nat} {file0 file1 : List UInt8}
    {dentry0 dentry1 : Dentry} (blink : BlinkStruct) (hos : os.Undisturbed p)
    (hkeeps : os.KeepsVideo) (hw : Running os p files index w.world)
    (hfree : TwoFree files fd0 fd1)
    (hname0 : FrameName os.img.fs file0 dentry0) (hname1 : FrameName os.img.fs file1 dentry1)
    (hheld : PageShows os t w)
    (hproper : ∀ e ∈ picture 0 (frameLines os.img.fs dentry0) (frameLines os.img.fs dentry1),
      e.location ≠ 0)
    (hk0 : (os.img.fs.inodes dentry0.inodeIndex.toNat).length.toNat + 1 < k)
    (hk1 : (os.img.fs.inodes dentry1.inodeIndex.toNat).length.toNat + 1 < k) :
    Ends (addFrames os file0 file1 blink k) w fun r w' => r = true ∧
      PageShows os (t.addAll (picture 0 (frameLines os.img.fs dentry0)
        (frameLines os.img.fs dentry1))) w' ∧
      ∃ files', Running os p files' index w'.world ∧
        ∀ j, j ≠ fd0 → j ≠ fd1 → files' j = files j := by
  have hfree0 := hfree.first
  have hlt := hfree.lt
  refine Ends.bind_of (openFrame_ends hos hkeeps hw hfree0 hname0) ?_
  rintro r w₁ ⟨rfl, hsame₁, files₁, hw₁, hslot0, hother₁⟩
  have hfirst1 : FirstFree files₁ fd1 := by
    refine ⟨?_, by have := hfree0.2.1; omega, hfree.lt_eight, ?_⟩
    · rw [hother₁ fd1 (by omega)]
      exact hfree.second
    · intro j hlo hhi
      rcases Nat.lt_trichotomy j fd0 with hj | rfl | hj
      · rw [hother₁ j (by omega)]
        exact hfree0.2.2.2 j hlo hj
      · rw [hslot0.flags]
        decide
      · rw [hother₁ j (by omega)]
        exact hfree.between j hj hhi
  rw [if_neg (by omega)]
  refine Ends.bind_of (openFrame_ends hos hkeeps hw₁ hfirst1 hname1) ?_
  rintro r w₂ ⟨rfl, hsame₂, files₂, hw₂, hslot1, hother₂⟩
  rw [if_neg (by omega)]
  have hslot0₂ : FileSlot os.img.lay dentry0.inodeIndex 0 (files₂ fd0) := by
    rw [hother₂ fd0 (by omega)]
    exact hslot0
  let two : TwoFiles os := ⟨fd0, fd1, dentry0.inodeIndex, dentry1.inodeIndex,
    ⟨hfree0.2.1, hfree0.2.2.1⟩, ⟨hfirst1.2.1, hfirst1.2.2.1⟩, by omega, hname0.inode, hname1.inode⟩
  have hstart : FramesAt os p index files two ⟨fd0, 0x30, false⟩ ⟨fd1, 0x30, false⟩ _ _ _ _ t w₂ :=
    ⟨rfl, rfl, (hsame₁.trans hsame₂).pageShows hheld, files₂, hw₂,
      fun j hj0 hj1 => (hother₂ j hj1).trans (hother₁ j hj0),
      frameAt_start hslot0₂, frameAt_start hslot1⟩
  have hlines0 := frameLines_bounds os.img.fs hk0
  have hlines1 := frameLines_bounds os.img.fs hk1
  refine Ends.bind_of (framesLoop_ends hos hkeeps rfl rfl hstart (by simp [frameLines])
    (by simp [frameLines]) hproper ⟨hlines0.2, hlines1.2, by omega⟩ (by omega)) ?_
  rintro - w₃ ⟨hheld₃, files₃, hw₃, hbase⟩
  exact Ends.pure ⟨rfl, hheld₃, files₃, hw₃, hbase⟩

end Picture

end Kernel391
