import Kernel391.FishFrames
import Kernel391.UserPrograms
import Kernel391.Vidmap

/-!
# The fish program (`fish/fish.c`)

`main` asks for the video page, adds the picture of the two frames, and then lets the clock blink
it, with a letter added, synchronised and removed in between.
-/

namespace Kernel391

open Machine FishWorld

/-! ## The program -/

/-- `ece391_vidmap` of the address of `vmem_base_addr`. -/
def Os.vidmap (os : Os) (screenStart : BitVec 32) : User Int := fun w =>
  let k := os.arrive w
  some (if VidmapRefuses screenStart then -1 else USER_VIDMAP.toNat,
    ⟨k.vidmap os.img screenStart, w.calls + 1, w.written⟩)

/-- The call of `ece391_memset` for the whole array. -/
def Fish.clearArray : Program Fish Unit := fun s =>
  some ((), { s with
    blinkArray := fun p => if InArray p then ⟨⟨0, 0, 0, 0, 0, 0, 0⟩, 0⟩ else s.blinkArray p })

def WAIT : Nat := 100

/-- A loop that waits for the clock, with `n` iterations left. -/
def waitLoop (os : Os) (rtcFd : Int) : Nat → Program FishWorld Unit
  | 0 => return
  | n + 1 => do
      let _ ← system (os.read rtcFd 4)
      blinks os.img Fish.mp1RtcTasklet
      waitLoop os rtcFd n

/-- `main`, with the uninitialised structures of `add_frames` and its own; no result when
`add_frames` has halted it. -/
def fish (os : Os) (vmemBaseAddr : BitVec 32) (frames blink : BlinkStruct) (k : Nat) :
    Program FishWorld (Option Int) := do
  own Fish.clearArray
  let video ← system (os.vidmap vmemBaseAddr)
  if video = -1 then return some (-1)
  let rtcFd ← system (os.openFile (literal "rtc"))
  let added ← addFrames os (literal "frame0.txt") (literal "frame1.txt") frames k
  if added = false then return none
  let _ ← system (os.write rtcFd [32, 0, 0, 0])
  waitLoop os rtcFd WAIT
  let _ ← blinks os.img (Fish.mp1IoctlAdd { blink with
    onChar := 0x49, offChar := 0x4D, onLength := 7, offLength := 6, location := 6 * 80 + 60 })
  waitLoop os rtcFd WAIT
  let _ ← blinks os.img (Fish.mp1IoctlSync (40#32 <<< 16 ||| 6 * 80 + 60))
  waitLoop os rtcFd WAIT
  let _ ← blinks os.img (Fish.mp1IoctlRemove (6 * 80 + 60))
  waitLoop os rtcFd WAIT
  let _ ← system (os.close rtcFd)
  return some 0

/-! ## What becomes of the table -/

/-- The table at the end of `main`, from the one that holds the picture. -/
def fishShow (t : BlinkTable) : BlinkTable :=
  let lit := (((BlinkTable.tick^[WAIT] t).add letterBlink.toBlinkEntry).2)
  let synced := ((BlinkTable.tick^[WAIT] lit).sync 40 540).2
  BlinkTable.tick^[WAIT] ((BlinkTable.tick^[WAIT] synced).remove 540).2

section

variable {os : Os} {p : Int} {files : Nat → FdT} {index : Nat} {w : FishWorld} {t : BlinkTable}

/-- The clock has been opened. -/
def RtcSlot (lay : FopsLayout) (f : FdT) : Prop := f.fops = lay.addr .rtc ∧ f.flags ≠ 0

theorem waitLoop_ends {fd n : Nat} (hos : os.Undisturbed p) (hkeeps : os.KeepsVideo)
    (hticks : os.ClockTicks) (hw : Running os p files index w.world) (hfd : 2 ≤ fd ∧ fd < 8)
    (hrtc : RtcSlot os.img.lay (files fd)) (h : PageShows os t w) :
    Ends (waitLoop os fd n) w fun _ w' => PageShows os (BlinkTable.tick^[n] t) w' ∧
      ∃ files', Running os p files' index w'.world ∧ RtcSlot os.img.lay (files' fd) := by
  induction n generalizing files w t with
  | zero => exact Ends.pure ⟨h, files, hw, hrtc⟩
  | succ n ih =>
    have hread : Ends (os.read fd 4) w.world _ :=
      @(delivers_rtc hos hticks hfd).read 0 files index w.world 4 hrtc (Nat.zero_le _) hw
    refine Ends.bind_of (system_ends hread (os.read_video hkeeps fd 4)) ?_
    rintro r w₁ ⟨⟨-, -, files₁, hrtc₁, hw₁, -⟩, hsame⟩
    have h₁ := hsame.pageShows h
    refine Ends.bind_of (blinks_ends hw₁ h₁ h₁.held.tasklet) ?_
    rintro - w₂ ⟨h₂, hw₂⟩
    exact ih hw₂ hrtc₁ h₂

/-- The page is mapped, and shows what was on the screen. -/
theorem vidmap_ends {screenStart : BitVec 32} (hos : os.Undisturbed p) (hkeeps : os.KeepsVideo)
    (hw : Running os p files index w.world)
    (hpaging : PagingInv os.img.pageTableAddr w.world.kernel.paging)
    (h : ¬VidmapRefuses screenStart) :
    Ends (system (os.vidmap screenStart)) w fun r w' => r ≠ -1 ∧
      Running os p files index w'.world ∧ PageMapped os.img w'.world.kernel ∧
      w'.fish = w.fish := by
  have hbetween := hkeeps w.world.calls w.world.kernel
  have hkernel : (os.arrive w.world).vidmap os.img screenStart =
      { os.arrive w.world with vidmapCalled := true }.mapVP os.img USER_VIDMAP VIDEO 0 := if_neg h
  have hmapped := (translate_vidmap os.img { os.arrive w.world with vidmapCalled := true }
    (show PagingInv _ (os.arrive w.world).paging from hbetween.paging ▸ hpaging)).2
    (fun _ _ => 0) USER_VIDMAP ⟨Nat.le_refl _, by decide⟩
  refine Ends.zoom ⟨_, _, rfl, ?_, ⟨?_, ?_, ?_⟩, ?_, Fish.ext rfl rfl ?_⟩
  · rw [if_neg h]
    decide
  · rw [hkernel]
    exact hos.current _ _ hw.current
  · rw [hkernel]
    exact (hos.files _ _ hw.current).trans hw.files
  · intro hsole
    rw [hkernel]
    exact (hsole _ _).trans (hw.index hsole)
  · show translate _ _ ((os.arrive w.world).vidmap os.img screenStart).paging _ = _
    rw [hkernel, hmapped, BitVec.sub_self, BitVec.add_zero]
  · funext i
    show (if i < 4096 then videoPage ((os.arrive w.world).vidmap os.img screenStart) i
      else w.beyond i) = if i < 4096 then videoPage w.world.kernel i else w.beyond i
    split
    · rename_i hi
      rw [hkernel, ← hbetween.page i hi]
      rfl
    · rfl

/-- A write to the clock sets its frequency or fails. -/
theorem sysWrite_rtc {lay : FopsLayout} {fd : Nat} {pcb : Pcb} (hfd : 2 ≤ fd ∧ fd < 8)
    (hrtc : RtcSlot lay (pcb.fileArray fd)) (buf : CStr) (n : Nat) (dev : Devices) :
    sysWrite lay fd (some buf) n pcb dev =
      some ⟨(Driver.rtc.write buf n dev).1, [], pcb, (Driver.rtc.write buf n dev).2⟩ := by
  have hmax : MAX_FD = 7 := rfl
  unfold sysWrite
  dsimp only
  rw [if_neg (by omega), Int.toNat_natCast, if_neg hrtc.2, hrtc.1, FopsLayout.driverAt_addr]
  rfl

/-- Whether it fails or not, nothing else changes. -/
theorem writeRtc_ends {fd : Nat} (hos : os.Undisturbed p) (hkeeps : os.KeepsVideo)
    (hw : Running os p files index w.world) (hfd : 2 ≤ fd ∧ fd < 8)
    (hrtc : RtcSlot os.img.lay (files fd)) (bytes : List UInt8) :
    Ends (system (os.write fd bytes)) w fun _ w' => Running os p files index w'.world ∧
      Untouched w w' := by
  have hfiles : ((os.arrive w.world).pcbs (os.arrive w.world).current).fileArray = files := by
    rw [show (os.arrive w.world).current = p from hos.current _ _ hw.current]
    exact (hos.files _ _ hw.current).trans hw.files
  refine system_ends ?_ ?_
  · refine Ends.bind_of (os.descriptorCall_ends (i := index)
      (R := fun r => r.pcb.fileArray = files) hos hw ?_) ?_
    · intro pcb dev hpcb _ hdev
      exact ⟨_, sysWrite_rtc hfd (hpcb ▸ hrtc) _ _ dev, hdev, hpcb⟩
    · rintro r w' ⟨hr, hw', -⟩
      rw [hr] at hw'
      split
      · exact Ends.bind ⟨(), _, rfl, Ends.pure ⟨hw'.current, hw'.files, hw'.index⟩⟩
      · exact Ends.pure hw'
  · refine IfEnds.bind fun r w' hrun => ?_
    have hsame := os.descriptorCall_video hkeeps (by
      intro r hr
      rw [sysWrite_rtc hfd (hfiles ▸ hrtc)] at hr
      rw [← Option.some.inj hr]
      rfl) r w' hrun
    dsimp only
    split
    · refine IfEnds.bind ?_
      intro _ w'' hrecord
      rw [← (Prod.mk.inj (Option.some.inj hrecord)).2]
      exact IfEnds.pure hsame
    · exact IfEnds.pure hsame

theorem clearArray_ends {s : Fish} (h : s.mp1ListHead = 0) :
    Ends Fish.clearArray s fun _ s' => s'.Holds ⟨[], s.vmem⟩ := by
  refine ⟨(), _, rfl, [], ⟨⟨?_, List.nodup_nil, by simp⟩, ?_, by simp⟩, rfl⟩
  · show Visits _ 0 s.mp1ListHead []
    rw [h]
    exact .done
  · intro p hp
    dsimp only
    rw [if_pos hp]
    simp

/-- The program starts with an empty table, on whatever the screen shows. -/
theorem clearOwn_ends (hw : Running os p files index w.world) (h : w.mp1ListHead = 0) :
    Ends (own Fish.clearArray) w fun _ w' => w'.fish.Holds ⟨[], w.fish.vmem⟩ ∧
      Running os p files index w'.world ∧ w'.world.kernel.paging = w.world.kernel.paging := by
  refine Ends.zoom ((@clearArray_ends w.fish h).mono ?_)
  intro _ s hs
  refine ⟨?_, ⟨hw.current, hw.files, hw.index⟩, rfl⟩
  rw [setFish_fish]
  exact hs

theorem openRtc_ends {dentry : Dentry} (hos : os.Undisturbed p) (hkeeps : os.KeepsVideo)
    (hw : Running os p files index w.world) (hfree : ∀ j, 2 ≤ j → j < 8 → (files j).flags = 0)
    (hfound : (readDentryByName os.img.fs.bootBlock (some (cstring (literal "rtc")))).found =
      some dentry) (htype : dentry.fileType = 0) :
    Ends (system (os.openFile (literal "rtc"))) w fun r w' => r = ((2 : Nat) : Int) ∧
      Untouched w w' ∧ ∃ files', Running os p files' index w'.world ∧
        RtcSlot os.img.lay (files' 2) ∧ ∀ j, j ≠ 2 → files' j = files j := by
  have hname : IsCStr (cstring (literal "rtc")) 3 :=
    @isCStr_cstring (message "rtc") [] (List.forall_mem_ne'.mpr (by decide))
  have hdrv : driverOfType dentry.fileType = some .rtc := by
    rw [htype]
    rfl
  have hfirst : FirstFree files 2 :=
    ⟨hfree 2 (by omega) (by omega), by omega, by omega, fun j _ _ => by omega⟩
  refine (system_ends (os.open_ends hos hw hfirst hname (by omega) hfound hdrv)
    (os.openFile_video hkeeps _)).mono ?_
  rintro r w' ⟨⟨hr, -, pcb, hpcb, hw'⟩, hsame⟩
  have hopened : ∀ j, (openedPcb os.img.lay pokeName 2 .rtc (cstring (literal "rtc")) dentry
      pcb).fileArray j = if j = 2 then openedFd os.img.lay .rtc dentry (pcb.fileArray 2)
        else files j := by
    intro j
    rw [← hpcb]
    rfl
  refine ⟨hr, hsame, _, hw', ?_, ?_⟩
  · rw [hopened, if_pos rfl]
    exact ⟨rfl, show (1 : BitVec 32) ≠ 0 by decide⟩
  · intro j hj
    rw [hopened, if_neg hj]

/-- From a fresh process, with the clock ticking and nobody else writing on the screen, the program
runs to its end: it shows the picture of the two frames and blinks it, and the letter with it. -/
theorem fish_runs {vmemBaseAddr : BitVec 32} {frames blink : BlinkStruct} {k : Nat}
    {rtc dentry0 dentry1 : Dentry} (hos : os.Undisturbed p) (hkeeps : os.KeepsVideo)
    (hticks : os.ClockTicks) (hw : Running os p files index w.world)
    (hpaging : PagingInv os.img.pageTableAddr w.world.kernel.paging)
    (hfree : ∀ j, 2 ≤ j → j < 8 → (files j).flags = 0)
    (hhead : w.mp1ListHead = 0) (hvideo : ¬VidmapRefuses vmemBaseAddr)
    (hrtc : (readDentryByName os.img.fs.bootBlock (some (cstring (literal "rtc")))).found =
      some rtc)
    (htype : rtc.fileType = 0) (hname0 : FrameName os.img.fs (literal "frame0.txt") dentry0)
    (hname1 : FrameName os.img.fs (literal "frame1.txt") dentry1)
    (hproper : ∀ e ∈ picture 0 (frameLines os.img.fs dentry0) (frameLines os.img.fs dentry1),
      e.location ≠ 0)
    (hk0 : (os.img.fs.inodes dentry0.inodeIndex.toNat).length.toNat + 1 < k)
    (hk1 : (os.img.fs.inodes dentry1.inodeIndex.toNat).length.toNat + 1 < k) :
    Ends (fish os vmemBaseAddr frames blink k) w fun r w' => r = some 0 ∧
      PageShows os (fishShow (BlinkTable.addAll ⟨[], w.fish.vmem⟩
        (picture 0 (frameLines os.img.fs dentry0) (frameLines os.img.fs dentry1)))) w' := by
  refine Ends.bind_of (clearOwn_ends hw hhead) ?_
  rintro - w₁ ⟨hs₁, hw₁, hpaging₁⟩
  refine Ends.bind_of (vidmap_ends hos hkeeps hw₁ (hpaging₁ ▸ hpaging) hvideo) ?_
  rintro video w₂ ⟨hok, hw₂, hmapped₂, hfish₂⟩
  have hs₂ : PageShows os ⟨[], w.fish.vmem⟩ w₂ := ⟨hmapped₂, hfish₂ ▸ hs₁⟩
  rw [if_neg hok]
  refine Ends.bind_of (openRtc_ends hos hkeeps hw₂ hfree hrtc htype) ?_
  rintro r w₃ ⟨rfl, hsame₃, files₃, hw₃, hslot₃, hother₃⟩
  have htwo : TwoFree files₃ 3 4 := by
    have hfree₃ : ∀ j, 3 ≤ j → j < 8 → (files₃ j).flags = 0 := by
      intro j hlo hhi
      rw [hother₃ j (by omega)]
      exact hfree j (by omega) hhi
    refine ⟨⟨hfree₃ 3 (by omega) (by omega), by omega, by omega, ?_⟩,
      hfree₃ 4 (by omega) (by omega), by omega, by omega, fun j _ _ => by omega⟩
    intro j hlo hhi
    rw [show j = 2 by omega]
    exact hslot₃.2
  refine Ends.bind_of (addFrames_ends frames hos hkeeps hw₃ htwo hname0 hname1
    (hsame₃.pageShows hs₂) hproper hk0 hk1) ?_
  rintro r w₄ ⟨rfl, hs₄, files₄, hw₄, hother₄⟩
  have hslot₄ : RtcSlot os.img.lay (files₄ 2) := by
    rw [hother₄ 2 (by omega) (by omega)]
    exact hslot₃
  rw [if_neg (by decide)]
  refine Ends.bind_of (writeRtc_ends hos hkeeps hw₄ (by omega) hslot₄ _) ?_
  rintro - w₅ ⟨hw₅, hsame₅⟩
  refine Ends.bind_of (waitLoop_ends hos hkeeps hticks hw₅ (by omega) hslot₄
    (hsame₅.pageShows hs₄)) ?_
  rintro - w₆ ⟨hs₆, files₆, hw₆, hslot₆⟩
  refine Ends.bind_of (blinks_ends hw₆ hs₆ ((hs₆.held.add
    (show (6 * 80 + 60 : BitVec 16) ≠ 0 by decide)).mono fun _ _ h => h.2)) ?_
  rintro - w₇ ⟨hs₇, hw₇⟩
  refine Ends.bind_of (waitLoop_ends hos hkeeps hticks hw₇ (by omega) hslot₆ hs₇) ?_
  rintro - w₈ ⟨hs₈, files₈, hw₈, hslot₈⟩
  refine Ends.bind_of (blinks_ends hw₈ hs₈ ((hs₈.held.sync _).mono fun _ _ h => h.2)) ?_
  rintro - w₉ ⟨hs₉, hw₉⟩
  refine Ends.bind_of (waitLoop_ends hos hkeeps hticks hw₉ (by omega) hslot₈ hs₉) ?_
  rintro - w₁₀ ⟨hs₁₀, files₁₀, hw₁₀, hslot₁₀⟩
  refine Ends.bind_of (blinks_ends hw₁₀ hs₁₀ ((hs₁₀.held.remove _).mono fun _ _ h => h.2)) ?_
  rintro - w₁₁ ⟨hs₁₁, hw₁₁⟩
  refine Ends.bind_of (waitLoop_ends hos hkeeps hticks hw₁₁ (by omega) hslot₁₀ hs₁₁) ?_
  rintro - w₁₂ ⟨hs₁₂, files₁₂, hw₁₂, hslot₁₂⟩
  refine Ends.bind_of (system_ends (os.close_ends hos hw₁₂ (by omega) hslot₁₂.1 hslot₁₂.2)
    (os.close_video hkeeps _)) ?_
  rintro - w₁₃ ⟨-, hsame₁₃⟩
  exact Ends.pure ⟨rfl, hsame₁₃.pageShows hs₁₂⟩

end

-- The clock and two small frames.
def framesFs : FileSys where
  bootBlock := ⟨3, 3, 2, fun
    | 0 => ⟨nameBytes ['r', 't', 'c'], 0, 0, fun _ => 0⟩
    | 1 => ⟨fun i => (message "frame0.txt").getD i 0, 2, 1, fun _ => 0⟩
    | _ => ⟨fun i => (message "frame1.txt").getD i 0, 2, 2, fun _ => 0⟩⟩
  inodes
    | 1 => ⟨5, fun _ => 0⟩
    | _ => ⟨3, fun _ => 1⟩
  blocks
    | 0 => fun i => (message "ab\n c").getD i 0
    | _ => fun i => (message "a\nd").getD i 0

-- The program before it starts, on a blank screen.
def startedFish : FishWorld := ⟨startedWorld [], fun _ => ⟨⟨0, 0, 0, 0, 0, 0, 0⟩, 0⟩, 0, fun _ => 0⟩

theorem pendingOs_keepsVideo (fs : FileSys) : (pendingOs fs).KeepsVideo :=
  fun _ _ => ⟨rfl, fun _ _ => rfl⟩

theorem fish_runs_small :
    ∃ w', fish (pendingOs framesFs) 0x8049000 letterBlink letterBlink 10 startedFish =
        some (some 0, w') ∧
      PageShows (pendingOs framesFs) (fishShow (BlinkTable.addAll ⟨[], startedFish.fish.vmem⟩
        [⟨40, 0x61, 0x61, 15, 15, 15, 1⟩, ⟨41, 0x62, 0x20, 15, 15, 15, 1⟩,
          ⟨120, 0x20, 0x64, 15, 15, 15, 1⟩, ⟨121, 0x63, 0x20, 15, 15, 15, 1⟩])) w' := by
  have hname0 : FrameName framesFs (literal "frame0.txt") (framesFs.bootBlock.dentries 1) :=
    ⟨⟨10, by decide, @isCStr_cstring (message "frame0.txt") []
      (List.forall_mem_ne'.mpr (by decide))⟩, rfl, rfl, by decide⟩
  have hname1 : FrameName framesFs (literal "frame1.txt") (framesFs.bootBlock.dentries 2) :=
    ⟨⟨10, by decide, @isCStr_cstring (message "frame1.txt") []
      (List.forall_mem_ne'.mpr (by decide))⟩, rfl, rfl, by decide⟩
  have hpicture : picture 0 (frameLines framesFs (framesFs.bootBlock.dentries 1))
      (frameLines framesFs (framesFs.bootBlock.dentries 2)) =
        [⟨40, 0x61, 0x61, 15, 15, 15, 1⟩, ⟨41, 0x62, 0x20, 15, 15, 15, 1⟩,
          ⟨120, 0x20, 0x64, 15, 15, 15, 1⟩, ⟨121, 0x63, 0x20, 15, 15, 15, 1⟩] := by
    decide +kernel
  have hfish := @fish_runs (pendingOs framesFs) 0 _ 0 startedFish 0x8049000 letterBlink letterBlink
    10 (framesFs.bootBlock.dentries 0) _ _ (pendingOs_undisturbed _ 0) (pendingOs_keepsVideo _)
    (pendingOs_ticks _) ⟨rfl, rfl, fun _ => rfl⟩ (@refines_init _ (fun _ _ => 0) 0 0).inv
    (by
      intro j hlo hhi
      interval_cases j <;> rfl)
    rfl (by decide) rfl rfl hname0 hname1
    (by
      intro e he
      rw [show (pendingOs framesFs).img.fs = framesFs from rfl, hpicture] at he
      revert e
      decide +kernel)
    (by decide) (by decide)
  obtain ⟨r, w', hrun, hr, hheld⟩ := hfish
  rw [show (pendingOs framesFs).img.fs = framesFs from rfl, hpicture] at hheld
  exact ⟨w', by rw [hrun, hr], hheld⟩

end Kernel391
