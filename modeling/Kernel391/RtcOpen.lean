import Kernel391.KernelMoves
import Kernel391.ProcessForest
import Kernel391.FilesysLookup
import Kernel391.RtcRate

/-!
# Opening the clock

`open` fills in a descriptor and does not call the driver.  The rate and the count of the clock are
therefore those the earlier processes left, and `rtc_open` has run only once, at boot.
-/

namespace Kernel391

open Machine

/-- The kernel with two notes on its past: the frequency last accepted by `rtc_write`, and the
number of clock interrupts. -/
structure Noted where
  kernel : Kernel
  rate : BitVec 32
  ticks : Nat

variable (img : Image)

/-- The frequency a call of `write` sets, if the call reaches `rtc_write` and is accepted. -/
def rateSet (k : Kernel) : Event → Option (BitVec 32)
  | .write fd (some buf) nbytes =>
      if ¬(fd < 0 ∨ fd > MAX_FD ∨ fd = 0 ∨ nbytes < 0) ∧
          ((k.pcbs k.current).fileArray fd.toNat).flags ≠ 0 ∧
          img.lay.driverAt ((k.pcbs k.current).fileArray fd.toNat).fops = some .rtc ∧
          (rtcWrite (some (wordAt buf)) nbytes k.dev.rtc).1 ≠ -1 then
        some (wordAt buf)
      else none
  | _ => none

def isTick : Event → Bool
  | .tick => true
  | _ => false

def notedStep (s : Noted) (e : Event) : Option Noted :=
  (kernelStep img s.kernel e).map fun k =>
    ⟨k, (rateSet img s.kernel e).getD s.rate, if isTick e then s.ticks + 1 else s.ticks⟩

/-- A process opens this name, and gets a descriptor for an entry of type 0. -/
def OpensRtc (k : Kernel) (filename : Option CStr) : Prop :=
  0 ≤ k.current ∧ (readDentryByName img.fs.bootBlock filename).found.map Dentry.fileType = some 0 ∧
    0 ≤ (sysOpen img.lay img.fs pokeName filename (k.pcbs k.current)).1

instance (k : Kernel) (filename : Option CStr) : Decidable (OpensRtc img k filename) :=
  inferInstanceAs (Decidable (_ ∧ _ ∧ _))

/-- After the clock has been opened it ticks at the default rate, from zero. -/
def OpenResetsRtc (s : Noted) : Event → Prop
  | .open filename => OpensRtc img s.kernel filename →
      ∀ k', kernelStep img s.kernel (.open filename) = some k' →
        k'.dev.rtc.virtualFreq = 2 ∧ k'.dev.rtc.clk = 0
  | _ => True

/-- The clock is opened only while the last frequency set is 2 Hz and after full seconds. -/
def OpensAtDefault (s : Noted) : Event → Prop
  | .open filename => OpensRtc img s.kernel filename → s.rate = 2 ∧ s.ticks % 1024 = 0
  | _ => True

/-! ## What leaves the clock alone -/

variable {img} {k k' : Kernel}

theorem printf_rtc (text : List UInt8) (k : Kernel) : (k.printf text).dev.rtc = k.dev.rtc := rfl

theorem execute_rtc (fr : ExecFrame) (allArguments : Option CStr) (k : Kernel) :
    (k.execute img fr allArguments).2.dev.rtc = k.dev.rtc := by
  rcases h : k.execute img fr allArguments with ⟨value | pid, k'⟩
  · obtain ⟨text, heq⟩ := execute_returned h
    rw [heq, printf_rtc]
  · obtain ⟨i, executable, -, -, -, -, -, heq⟩ := execute_entered h
    rw [heq, Kernel.startProcess]
    split <;> rfl

theorem execRet_rtc (fr : ExecFrame) (k : Kernel) : (k.execRet img fr).dev.rtc = k.dev.rtc := by
  unfold Kernel.execRet
  split
  · rw [execute_rtc, printf_rtc]
  · rfl

theorem closeSlot_dev {child : Int} {i : Nat} (h : k.closeSlot img child i = some k') :
    k'.dev = k.dev := by
  unfold Kernel.closeSlot at h
  obtain ⟨k₁, hclose, rfl⟩ := Option.map_eq_some_iff.mp h
  show k₁.dev = k.dev
  split at hclose
  · obtain ⟨r, -, rfl⟩ := Option.map_eq_some_iff.mp hclose
    rfl
  · rw [← Option.some.inj hclose]

theorem closeAll_dev {child : Int} {slots : List Nat} (h : k.closeAll img child slots = some k') :
    k'.dev = k.dev := by
  induction slots generalizing k with
  | nil => rw [← Option.some.inj h]
  | cons i slots ih =>
    obtain ⟨k₁, hslot, hrest⟩ := Option.bind_eq_some_iff.mp h
    rw [ih hrest, closeSlot_dev hslot]

theorem halt_rtc {fr : ExecFrame} (h : k.halt img fr = some k') : k'.dev.rtc = k.dev.rtc := by
  have hdelete : ∀ (k : Kernel) (pid : Int), (k.deleteProcess pid).dev = k.dev :=
    fun k pid => (deleteProcess_frame k pid).2.1
  obtain ⟨-, ⟨-, k₁, hclose, rfl⟩ | ⟨-, rfl⟩⟩ := halt_eq_some h
  · have hdev := closeAll_dev hclose
    rw [hdelete] at hdev
    rw [execRet_rtc]
    show (k₁.unmapVideo img).dev.rtc = _
    unfold Kernel.unmapVideo
    split <;> exact congrArg Devices.rtc hdev
  · rw [execRet_rtc, hdelete]

theorem switchRunningTerminal_rtc {next : Nat} {r : Regs} {s : Bool × Kernel}
    (h : k.switchRunningTerminal img next r = some s) : s.2.dev.rtc = k.dev.rtc := by
  obtain ⟨-, rfl⟩ | ⟨-, -, rfl⟩ := switchRunningTerminal_cases h
  · rfl
  · rfl

theorem selectTerminal_rtc {t : Nat} {r : Regs} {fr : ExecFrame}
    (h : k.selectTerminal img t r fr = some k') : k'.dev.rtc = k.dev.rtc := by
  unfold Kernel.selectTerminal at h
  split at h
  · obtain ⟨s, hswitch, rfl⟩ := Option.map_eq_some_iff.mp h
    have hrtc := switchRunningTerminal_rtc hswitch
    split
    · rw [execute_rtc]
      exact hrtc
    · exact hrtc
  · rw [← Option.some.inj h]

theorem keyboardHandler_rtc {scancode : UInt8} {entry switch : Regs} {fr : ExecFrame}
    (h : k.keyboardHandler img scancode entry switch fr = some k') :
    k'.dev.rtc = k.dev.rtc := by
  obtain ⟨s, hswitch, hrest⟩ := Option.bind_eq_some_iff.mp h
  rw [← switchRunningTerminal_rtc hswitch]
  split at hrest
  · exact selectTerminal_rtc hrest
  · rw [← Option.some.inj hrest]
    rfl

theorem withCurrent_eq_some {call : Pcb → Devices → Option CallResult}
    (h : k.withCurrent call = some k') :
    ∃ r, call (k.pcbs k.current) k.dev = some r ∧ k'.dev = r.dev := by
  unfold Kernel.withCurrent at h
  split at h
  · cases h
  · obtain ⟨r, hr, rfl⟩ := Option.map_eq_some_iff.mp h
    exact ⟨r, hr, rfl⟩

-- A read takes the flag of the clock at most.
theorem sysRead_clock {fd : Int} {null : Bool} {nbytes : Int} {pcb : Pcb} {dev : Devices}
    {r : CallResult} (h : sysRead img.lay img.fs fd null nbytes pcb dev = some r) :
    r.dev.rtc.virtualFreq = dev.rtc.virtualFreq ∧ r.dev.rtc.clk = dev.rtc.clk := by
  unfold sysRead at h
  split at h
  · rw [← Option.some.inj h]
    exact ⟨rfl, rfl⟩
  · split at h
    · rw [← Option.some.inj h]
      exact ⟨rfl, rfl⟩
    · obtain ⟨d, -, hd⟩ := Option.bind_eq_some_iff.mp h
      cases d with
      | terminal =>
        obtain ⟨s, -, rfl⟩ := Option.map_eq_some_iff.mp hd
        exact ⟨rfl, rfl⟩
      | rtc =>
        obtain ⟨c, hc, rfl⟩ := Option.map_eq_some_iff.mp hd
        unfold rtcRead at hc
        split at hc
        · cases hc
        · rw [← Option.some.inj hc]
          exact ⟨rfl, rfl⟩
      | fsys =>
        rw [← Option.some.inj hd]
        unfold fileRead
        dsimp only
        split <;> exact ⟨rfl, rfl⟩
      | dir =>
        rw [← Option.some.inj hd]
        unfold dirRead
        split <;> exact ⟨rfl, rfl⟩

-- The frequency changes with the result: a call that fails keeps it.
theorem rtcWrite_rate (f : BitVec 32) (nbytes : Int) (r : Rtc) :
    (rtcWrite (some f) nbytes r).2.virtualFreq =
      if (rtcWrite (some f) nbytes r).1 ≠ -1 then f else r.virtualFreq := by
  obtain ⟨f', hf, h4, -, hw⟩ | ⟨-, hw⟩ := rtcWrite_eq (some f) nbytes r
  · cases hf
    rw [hw, if_pos (by omega)]
  · rw [hw, if_neg (by simp)]

theorem rtcHandler_clock {r r' : Rtc} (h : rtcHandler r = some r') :
    r'.virtualFreq = r.virtualFreq ∧ r'.clk = Int.tmod (r.clk + 1) MAX_FREQ := by
  rw [rtcHandler_eq_some h]
  exact ⟨rfl, rfl⟩

/-! ## One event -/

theorem write_clock {fd : Int} {buf : Option CStr} {nbytes : Int}
    (h : kernelStep img k (.write fd buf nbytes) = some k') :
    k'.dev.rtc.virtualFreq =
        (rateSet img k (.write fd buf nbytes)).getD k.dev.rtc.virtualFreq ∧
      k'.dev.rtc.clk = k.dev.rtc.clk := by
  obtain ⟨r, hr, hdev⟩ := withCurrent_eq_some h
  rw [hdev]
  cases buf with
  | none =>
    cases hr
    exact ⟨rfl, rfl⟩
  | some buf =>
    simp only [sysWrite] at hr
    simp only [rateSet]
    split at hr
    case isTrue hargs =>
      rw [if_neg (fun hc => hc.1 hargs), ← Option.some.inj hr]
      exact ⟨rfl, rfl⟩
    case isFalse hargs =>
      split at hr
      case isTrue hflags =>
        rw [if_neg (fun hc => hc.2.1 hflags), ← Option.some.inj hr]
        exact ⟨rfl, rfl⟩
      case isFalse hflags =>
        obtain ⟨d, hd, rfl⟩ := Option.map_eq_some_iff.mp hr
        rw [hd]
        cases d with
        | rtc =>
          refine ⟨?_, (rtcWrite_frame _ _ _).2⟩
          show (rtcWrite (some (wordAt buf)) nbytes k.dev.rtc).2.virtualFreq = _
          rw [rtcWrite_rate]
          by_cases hret : (rtcWrite (some (wordAt buf)) nbytes k.dev.rtc).1 = -1
          · rw [if_neg (not_not_intro hret), if_neg (fun hc => hc.2.2.2 hret)]
            rfl
          · rw [if_pos hret, if_pos ⟨hargs, hflags, rfl, hret⟩]
            rfl
        | terminal =>
          rw [if_neg (fun hc => by cases hc.2.2.1)]
          exact ⟨rfl, rfl⟩
        | fsys =>
          rw [if_neg (fun hc => by cases hc.2.2.1)]
          exact ⟨rfl, rfl⟩
        | dir =>
          rw [if_neg (fun hc => by cases hc.2.2.1)]
          exact ⟨rfl, rfl⟩

theorem open_rtc {filename : Option CStr} (h : kernelStep img k (.open filename) = some k') :
    k'.dev.rtc = k.dev.rtc := by
  unfold kernelStep at h
  obtain ⟨r, hr, hdev⟩ := withCurrent_eq_some h
  rw [hdev, ← Option.some.inj hr]

/-- What an event does to the frequency and the count of the clock. -/
theorem kernelStep_clock {e : Event} (h : kernelStep img k e = some k') :
    k'.dev.rtc.virtualFreq = (rateSet img k e).getD k.dev.rtc.virtualFreq ∧
      k'.dev.rtc.clk =
        if isTick e then Int.tmod (k.dev.rtc.clk + 1) MAX_FREQ else k.dev.rtc.clk := by
  have hkept : k'.dev.rtc = k.dev.rtc → k'.dev.rtc.virtualFreq = k.dev.rtc.virtualFreq ∧
      k'.dev.rtc.clk = k.dev.rtc.clk := fun heq => by rw [heq]; exact ⟨rfl, rfl⟩
  cases e with
  | execute allArguments fr =>
    rw [← Option.some.inj h]
    exact ⟨by rw [execute_rtc]; rfl, by rw [execute_rtc]; rfl⟩
  | halt fr => exact hkept (halt_rtc h)
  | key scancode entry switch fr => exact hkept (keyboardHandler_rtc h)
  | tick =>
    obtain ⟨r, hr, rfl⟩ := Option.map_eq_some_iff.mp h
    exact rtcHandler_clock hr
  | «open» filename => exact hkept (open_rtc h)
  | readStart =>
    rw [← Option.some.inj h]
    exact ⟨rfl, rfl⟩
  | read fd null nbytes =>
    obtain ⟨r, hr, hdev⟩ := withCurrent_eq_some h
    rw [hdev]
    exact sysRead_clock hr
  | write fd buf nbytes => exact write_clock h
  | close fd =>
    unfold kernelStep at h
    obtain ⟨r, hr, hdev⟩ := withCurrent_eq_some h
    obtain ⟨c, -, rfl⟩ := Option.map_eq_some_iff.mp hr
    exact hkept (congrArg Devices.rtc hdev)
  | vidmap screenStart =>
    rw [← Option.some.inj h]
    unfold Kernel.vidmap
    split <;> exact ⟨rfl, rfl⟩

/-! ## Histories -/

/-- The notes tell the state of the clock. -/
structure ClockNoted (s : Noted) : Prop where
  rate : s.kernel.dev.rtc.virtualFreq = s.rate
  clk : s.kernel.dev.rtc.clk = (s.ticks % 1024 : Nat)

theorem ClockNoted.step {s s' : Noted} {e : Event} (h : ClockNoted s)
    (hstep : notedStep img s e = some s') : ClockNoted s' := by
  obtain ⟨k', hk, rfl⟩ := Option.map_eq_some_iff.mp hstep
  obtain ⟨hrate, hclk⟩ := kernelStep_clock hk
  constructor
  · rw [hrate, h.rate]
  · rw [hclk, h.clk]
    by_cases htick : isTick e = true
    · rw [if_pos htick, if_pos htick, next_clk]
    · rw [if_neg htick, if_neg htick]

theorem ClockNoted.openResets_iff {s : Noted} (h : ClockNoted s) (e : Event) :
    OpenResetsRtc img s e ↔ OpensAtDefault img s e := by
  cases e with
  | «open» filename =>
    show (OpensRtc img s.kernel filename → _) ↔ (OpensRtc img s.kernel filename → _)
    apply imp_congr_right
    intro hopens
    have hclk : s.kernel.dev.rtc.clk = 0 ↔ s.ticks % 1024 = 0 := by
      rw [h.clk]
      omega
    rw [← h.rate, ← hclk]
    constructor
    · intro hreset
      have hstep : ∃ k', kernelStep img s.kernel (.open filename) = some k' := by
        simp only [kernelStep, Kernel.withCurrent, if_neg (Int.not_lt.mpr hopens.1)]
        exact ⟨_, rfl⟩
      obtain ⟨k', hk⟩ := hstep
      have hres := hreset k' hk
      rw [open_rtc hk] at hres
      exact hres
    · intro hdef k' hk
      rw [open_rtc hk]
      exact hdef
  | _ => exact Iff.rfl

theorem ClockNoted.along_iff {s : Noted} (h : ClockNoted s) (es : List Event) :
    Along (notedStep img) (OpenResetsRtc img) s es ↔
      Along (notedStep img) (OpensAtDefault img) s es :=
  along_iff_of_invariant (fun _ _ _ h _ hstep => h.step hstep) (fun _ e h => h.openResets_iff e) h

theorem clockNoted_boot (img : Image) {dev : Devices} {r : Rtc} (hinit : dev.rtc = rtcInit r)
    (pcbs : Int → Pcb) (paging : Paging) (esp0 : BitVec 32) :
    ClockNoted ⟨(bootKernel dev pcbs paging esp0).schedInit img, 2, 0⟩ := by
  have hboot : ((bootKernel dev pcbs paging esp0).schedInit img).dev.rtc = dev.rtc := rfl
  constructor
  · show ((bootKernel dev pcbs paging esp0).schedInit img).dev.rtc.virtualFreq = 2
    rw [hboot, hinit]
    rfl
  · show ((bootKernel dev pcbs paging esp0).schedInit img).dev.rtc.clk = 0
    rw [hboot, hinit]
    rfl

/-- Over every history from boot on, opening the clock leaves it at 2 Hz and at the start of its
count exactly where it was so already: where 2 Hz is the last frequency anybody has set, and the
interrupts since boot make full seconds. -/
theorem open_resets_rtc_iff (img : Image) (dev : Devices) (r : Rtc) (hinit : dev.rtc = rtcInit r)
    (pcbs : Int → Pcb) (paging : Paging) (esp0 : BitVec 32) (es : List Event) :
    Along (notedStep img) (OpenResetsRtc img)
        ⟨(bootKernel dev pcbs paging esp0).schedInit img, 2, 0⟩ es ↔
      Along (notedStep img) (OpensAtDefault img)
        ⟨(bootKernel dev pcbs paging esp0).schedInit img, 2, 0⟩ es :=
  (clockNoted_boot img hinit pcbs paging esp0).along_iff es

instance (s : Noted) : (e : Event) → Decidable (OpensAtDefault img s e)
  | .open _ => inferInstanceAs (Decidable (_ → _))
  | .execute _ _ | .halt _ | .key _ _ _ _ | .tick | .readStart | .read _ _ _ | .write _ _ _
  | .close _ | .vidmap _ => isTrue trivial

/-- The image with the shell, and the clock beside it. -/
def clockImage : Image :=
  { shellImage with
    fs := { shellFs with
      bootBlock := ⟨2, 2, 1, fun i =>
        if i = 0 then ⟨shellName, 2, 0, fun _ => 0⟩
        else ⟨nameBytes ['r', 't', 'c'], 0, 0, fun _ => 0⟩⟩ } }

def clockDevices : Devices := { idleDevices with rtc := rtcInit ⟨0, 0, 0⟩ }

def openRtc : Event := .open (some (nameBytes ['r', 't', 'c']))

/-- A shell opens the clock, and again after it has set 1024 Hz and then 2 Hz. -/
theorem open_resets_rtc_default : clockDevices.rtc = rtcInit ⟨0, 0, 0⟩ ∧
    Along (notedStep clockImage) (OpenResetsRtc clockImage)
      ⟨(bootKernel clockDevices (fun _ => zeroPcb) (initPaging 0x403000 0 0) 0).schedInit clockImage,
        2, 0⟩
      [.execute (some shellName) zeroFrame, openRtc,
        .write 2 (some (storeBytes [0, 4, 0, 0] fun _ => 0)) 4,
        .write 2 (some (storeBytes [2, 0, 0, 0] fun _ => 0)) 4, .close 2, openRtc] := by
  refine ⟨rfl, (open_resets_rtc_iff clockImage clockDevices ⟨0, 0, 0⟩ rfl _ _ _ _).mpr ?_⟩
  decide +kernel

/-- It sets 1024 Hz, closes the clock and opens it again. -/
theorem open_keeps_rtc_rate :
    ¬Along (notedStep clockImage) (OpenResetsRtc clockImage)
      ⟨(bootKernel clockDevices (fun _ => zeroPcb) (initPaging 0x403000 0 0) 0).schedInit clockImage,
        2, 0⟩
      [.execute (some shellName) zeroFrame, openRtc,
        .write 2 (some (storeBytes [0, 4, 0, 0] fun _ => 0)) 4, .close 2, openRtc] := by
  have hboot := clockNoted_boot clockImage (show clockDevices.rtc = rtcInit ⟨0, 0, 0⟩ by rfl)
    (fun _ => zeroPcb) (initPaging 0x403000 0 0) 0
  rw [hboot.along_iff]
  decide +kernel

end Kernel391
