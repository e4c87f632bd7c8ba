import Kernel391.CommandLine
import Kernel391.FileSyscalls

/-!
# Processes (`execute`, `halt` and the process tables of `syscalls.c`, `sched.c`, and the
terminal-switch keys of `terminal.c`)

The state holds the redundant tables in which the kernel keeps its processes, the control blocks
by process number (`find_PCB`), and what the same functions do to paging, the task-state segment
and the devices.  Kernel stacks are not part of it: an operation runs to the point where control
reaches user mode or returns to its caller, and the registers it saves, like the contents of its
uninitialised locals, are given from outside.  Local arrays are as wide as what is stored in them.
The page above the kernel's is never mapped, so an access to the block of process `-1` is a fault,
after which the machine hangs; such a step has no result.
-/

namespace Kernel391

/-- What the linker and the boot loader fix once and for all. -/
structure Image where
  lay : FopsLayout
  fs : FileSys
  rom : Nat → UInt8
  pageTableAddr : BitVec 32

structure Kernel where
  procs : Nat → Int
  termProcs : Nat → Int
  runningProcs : Nat → Int
  processCount : Nat
  runningTerminal : Nat
  dev : Devices
  pcbs : Int → Pcb
  paging : Paging
  esp0 : BitVec 32
  vidmapCalled : Bool

def MAX_DEVICES : Nat := 6

def MB_4 : Int := 0x400000

def USER_PROCESS_START_PHYSICAL : Int := 0x800000

def USER_PROCESS_SIZE : Int := MB_4

def USER_PROCESS_START_VIRTUAL : BitVec 32 := 0x8000000

def USER_PROCESS_IMAGE_OFFSET : BitVec 32 := 0x48000

def USER_VIDMAP : BitVec 32 := 0xF8000

def PCB_SIZE : Int := 0x2000

-- The value of `tss.esp0` for a process.
def kernelStackTop (pid : Int) : BitVec 32 :=
  BitVec.ofInt 32 (KERNEL_MEMORY_ADDR.toNat + MB_4 - pid * PCB_SIZE - 4)

/-- Saved stack and frame pointers. -/
structure Regs where
  esp : BitVec 32
  ebp : BitVec 32

namespace Kernel

def displayTerminal (k : Kernel) : Nat := k.dev.term.displayTerminal

def onTerm (f : Term → Term) (k : Kernel) : Kernel :=
  { k with dev := { k.dev with term := f k.dev.term } }

def setVideoMem (addr : Int) : Kernel → Kernel := onTerm (Term.onScreen (Screen.setVideoMem addr))

-- `printf` of a text without conversions
def printf (text : List UInt8) : Kernel → Kernel :=
  onTerm fun s => text.foldl (fun s c => s.putc c) s

def setPcb (pid : Int) (pcb : Pcb) (k : Kernel) : Kernel :=
  { k with pcbs := Function.update k.pcbs pid pcb }

def saveRegs (pid : Int) (r : Regs) (k : Kernel) : Kernel :=
  k.setPcb pid { k.pcbs pid with esp := r.esp, ebp := r.ebp }

def mapVP (img : Image) (virtualAddr physicalAddr kbOrMb : BitVec 32) (k : Kernel) : Kernel :=
  { k with
    paging := (Kernel391.mapVP img.pageTableAddr virtualAddr physicalAddr kbOrMb 1 1 k.paging).2 }

-- The program page of a process.
def mapUser (img : Image) (pid : Int) : Kernel → Kernel :=
  mapVP img USER_PROCESS_START_VIRTUAL
    (BitVec.ofInt 32 (USER_PROCESS_START_PHYSICAL + pid * USER_PROCESS_SIZE)) 1

def setEsp0 (pid : Int) (k : Kernel) : Kernel := { k with esp0 := kernelStackTop pid }

-- `running_procs[running_terminal]`, whose block is `get_current_PCB()`
def current (k : Kernel) : Int := k.runningProcs k.runningTerminal

/-! ## The process tables -/

def numProcsPerTerm (k : Kernel) (t : Nat) : Nat :=
  (List.range MAX_DEVICES).countP fun i => k.termProcs i = t

-- An empty terminal counts as one process: its shell is still to come.
def numProcsVirt (k : Kernel) : Nat :=
  ((List.range MAX_TERMINAL_NUM).map fun t =>
    if k.numProcsPerTerm t = 0 then 1 else k.numProcsPerTerm t).sum

def freePid (k : Kernel) : Option Nat :=
  (List.range MAX_DEVICES).find? fun i => k.procs i = 0

-- The entries of a new process, on the running terminal.
def takePid (i : Nat) (k : Kernel) : Kernel :=
  { k with
    procs := Function.update k.procs i 1
    processCount := (k.processCount + 1) % 2 ^ 32
    runningProcs := Function.update k.runningProcs k.runningTerminal i
    termProcs := Function.update k.termProcs i k.runningTerminal }

/-- `add_process`. -/
def addProcess (k : Kernel) : Int × Kernel :=
  if k.numProcsPerTerm k.runningTerminal ≠ 0 ∧ k.numProcsVirt ≥ MAX_DEVICES then (-1, k)
  else
    match k.freePid with
    | none => (-1, k)
    | some i => (i, k.takePid i)

/-- `delete_process`; it repoints the entry of the displayed terminal. -/
def deleteProcess (pid : Int) (k : Kernel) : Kernel :=
  if pid < 0 ∨ pid ≥ MAX_DEVICES then k
  else
    { k with
      procs := Function.update k.procs pid.toNat 0
      processCount := (k.processCount + 2 ^ 32 - 1) % 2 ^ 32
      runningProcs := Function.update k.runningProcs k.displayTerminal (k.pcbs pid).parPId
      termProcs := Function.update k.termProcs pid.toNat (-1) }

end Kernel

/-! ## `execute` -/

/-- What `execute` and the functions it calls find in their uninitialised locals, and the
registers it saves for the parent. -/
structure ExecFrame where
  allArgumentsCopy : Int → UInt8
  executable : CStr
  data : CStr
  buf : CStr
  stdinName : Nat → UInt8
  stdoutName : Nat → UInt8
  regs : Regs

inductive ExecOutcome where
  | returned (value : Int)
  | entered (pid : Int)
deriving DecidableEq

-- `copy_string` does nothing with a NULL source.
def copyArguments (allArguments : Option CStr) (copy : Int → UInt8) : CStr :=
  let copy :=
    match allArguments with
    | none => copy
    | some source => copyString (fun i b (m : Int → UInt8) => Function.update m i b) source copy
  fun i => copy i

/-- The buffer `executable`, unless one of the two calls that look for the first word fails. -/
def commandName (executable args : CStr) : Option CStr :=
  if getArgumentLength args 0 < 0 then none
  else
    (getArgument args 0).map fun bytes =>
      storeBytes bytes fun i => if (i : Int) = getArgumentLength args 0 then 0 else executable i

-- A long text runs on into the words behind the buffer; bytes behind the block are not part of it.
def Pcb.storeArgs (bytes : List UInt8) (pcb : Pcb) : Pcb :=
  bytes.zipIdx.foldl
    (fun pcb p => if 384 + p.2 < Pcb.SIZE then pcb.poke (384 + p.2) p.1 else pcb) pcb

-- "You can't do that!\n"
def refusalText : List UInt8 :=
  [0x59, 0x6F, 0x75, 0x20, 0x63, 0x61, 0x6E, 0x27, 0x74, 0x20, 0x64, 0x6F, 0x20, 0x74, 0x68,
    0x61, 0x74, 0x21, 0x0A]

-- "Haha! Nice try. Restarting shell...\n"
def restartText : List UInt8 :=
  [0x48, 0x61, 0x68, 0x61, 0x21, 0x20, 0x4E, 0x69, 0x63, 0x65, 0x20, 0x74, 0x72, 0x79, 0x2E,
    0x20, 0x52, 0x65, 0x73, 0x74, 0x61, 0x72, 0x74, 0x69, 0x6E, 0x67, 0x20, 0x73, 0x68, 0x65,
    0x6C, 0x6C, 0x2E, 0x2E, 0x2E, 0x0A]

-- "shell"
def shellName : CStr := storeBytes [0x73, 0x68, 0x65, 0x6C, 0x6C] fun _ => 0

namespace Kernel

/-- The control block `execute` sets up for process `pid`. -/
def newPcb (img : Image) (fr : ExecFrame) (args : CStr) (pid parent : Int) (k : Kernel) : Pcb :=
  let pcb := (k.pcbs pid).storeArgs ((getNextArguments args).getD [])
  { initFileArray img.lay fr.stdinName fr.stdoutName pcb with pId := pid, parPId := parent }

-- `execute` once it has a process number, up to the jump to user mode.
def startProcess (img : Image) (fr : ExecFrame) (args : CStr) (pid parent : Int) (k : Kernel) :
    Kernel :=
  let k := ((k.setPcb pid (k.newPcb img fr args pid parent)).mapUser img pid).setEsp0 pid
  if 0 ≤ parent then k.saveRegs parent fr.regs else k

/-- `execute`. -/
def execute (img : Image) (fr : ExecFrame) (allArguments : Option CStr) (k : Kernel) :
    ExecOutcome × Kernel :=
  let args := copyArguments allArguments fr.allArgumentsCopy
  match commandName fr.executable args with
  | none => (.returned 0, k)
  | some executable =>
      if isExecutable img.fs fr.data fr.buf executable then
        let added := k.addProcess
        if added.1 < 0 then (.returned 0, added.2.printf refusalText)
        else (.entered added.1, added.2.startProcess img fr args added.1 k.current)
      else (.returned (-1), k)

/-! ## `halt` -/

/-- `execute` from the label `exec_ret` on. -/
def execRet (img : Image) (fr : ExecFrame) (k : Kernel) : Kernel :=
  if k.runningProcs k.displayTerminal < 0 then
    ((k.printf restartText).execute img fr (some shellName)).2
  else k

/-- One iteration of the loop over the child's descriptors: the call of `close` acts on the
current process. -/
def closeSlot (img : Image) (child : Int) (i : Nat) (k : Kernel) : Option Kernel :=
  let closed :=
    if ((k.pcbs child).fileArray i).flags = 1 then
      (sysClose img.lay i (k.pcbs k.current)).map fun r => k.setPcb k.current r.2
    else some k
  closed.map fun k =>
    let pcb := k.pcbs child
    k.setPcb child (pcb.setFd i { pcb.fileArray i with fops := 0, flags := 0 })

def closeAll (img : Image) (child : Int) : List Nat → Kernel → Option Kernel
  | [], k => some k
  | i :: slots, k => (k.closeSlot img child i).bind (closeAll img child slots)

def unmapVideo (img : Image) (k : Kernel) : Kernel :=
  if k.vidmapCalled then k.mapVP img USER_VIDMAP 0 0 else k

/-- `halt`; `fr` is for the shell it may have to restart. -/
def halt (img : Image) (fr : ExecFrame) (k : Kernel) : Option Kernel :=
  let cur := k.current
  let child := k.pcbs cur
  if cur < 0 then none
  else if 0 ≤ child.parPId then
    let parent := k.pcbs child.parPId
    let k := ((k.mapUser img parent.pId).setEsp0 parent.pId).deleteProcess child.pId
    (k.closeAll img cur (List.range FILE_ARRAY_LEN)).map fun k =>
      ((k.unmapVideo img).onTerm (Term.putc 0x0A)).execRet img fr
  else some ((k.deleteProcess child.pId).execRet img fr)

/-! ## Terminal switches -/

-- Where a terminal's output goes: the screen, or the page it is kept in while not displayed.
def videoAddr (k : Kernel) (term : Int) : Int :=
  if term = k.displayTerminal then VIDEO.toNat else getTermVidAddr term.toNat

def idleTerminal (next : Nat) (k : Kernel) : Kernel :=
  { k with runningTerminal := next }.setVideoMem (k.videoAddr next)

def switchTask (img : Image) (next : Nat) (pid : Int) (r : Regs) (k : Kernel) : Kernel :=
  let k := ({ k with runningTerminal := next }.saveRegs k.current r).mapUser img pid
  { k.setVideoMem (k.videoAddr (k.termProcs pid.toNat)) with esp0 := (k.pcbs pid).esp }

/-- `switch_running_terminal`; the flag tells whether the terminal had nothing to run. -/
def switchRunningTerminal (img : Image) (next : Nat) (r : Regs) (k : Kernel) :
    Option (Bool × Kernel) :=
  if k.runningProcs next < 0 then some (true, k.idleTerminal next)
  else if k.current < 0 then none
  else some (false, k.switchTask img next (k.runningProcs next) r)

-- The F1, F2 and F3 cases of `keyboard_handler`.
def selectTerminal (img : Image) (t : Nat) (r : Regs) (fr : ExecFrame) (k : Kernel) :
    Option Kernel :=
  if k.dev.term.altCheck ∧ k.displayTerminal ≠ t then
    ((k.onTerm (Term.switchDisplayTerminal t)).switchRunningTerminal img t r).map fun s =>
      if s.1 then (s.2.execute img fr (some shellName)).2 else s.2
  else some k

/-- `keyboard_handler`.  Its two calls of `switch_running_terminal` save different registers. -/
def keyboardHandler (img : Image) (scancode : UInt8) (entry switch : Regs) (fr : ExecFrame)
    (k : Kernel) : Option Kernel :=
  (k.switchRunningTerminal img k.displayTerminal entry).bind fun s =>
    match keyLabel scancode with
    | .f t => s.2.selectTerminal img t switch fr
    | _ => some (s.2.onTerm (Term.keyboardHandler img.rom scancode))

-- One iteration of the loop of `sched_init` over the terminals.
def initTerminal (img : Image) (k : Kernel) (t : Nat) : Kernel :=
  let page := BitVec.ofInt 32 (getTermVidAddr t)
  let k := { k with runningProcs := Function.update k.runningProcs t (-1) }
  (k.mapVP img page page 0).onTerm (Term.onScreen fun scr =>
    { scr with mem := scr.mem.memcpy (getTermVidAddr t) VIDEO.toNat PAGE_SIZE_KB })

/-- `sched_init`, with `USING_PIT` zero. -/
def schedInit (img : Image) (k : Kernel) : Kernel :=
  let k := k.onTerm fun s => { s with displayTerminal := 0 }
  let k := { k with
    runningTerminal := 0
    termProcs := fun i => if i < MAX_DEVICES then -1 else k.termProcs i }
  (List.range MAX_TERMINAL_NUM).foldl (initTerminal img) k

/-! ## Other system calls -/

-- A descriptor call of the current process; without one there is no caller.
def withCurrent (k : Kernel) (call : Pcb → Devices → Option CallResult) : Option Kernel :=
  if k.current < 0 then none
  else (call (k.pcbs k.current) k.dev).map fun r => { k.setPcb k.current r.pcb with dev := r.dev }

/-- `vidmap`, apart from the store through its argument. -/
def vidmap (img : Image) (screenStart : BitVec 32) (k : Kernel) : Kernel :=
  if screenStart = 0 ∨ screenStart < USER_PROCESS_START_VIRTUAL + USER_PROCESS_IMAGE_OFFSET ∨
      USER_PROCESS_START_VIRTUAL + 0x400000 ≤ screenStart then k
  else { k with vidmapCalled := true }.mapVP img USER_VIDMAP VIDEO 0

end Kernel

/-! ## Events

A `read` is a call of `read` from its driver's polling loop on; `readStart` is what
`terminal_read` does before it. -/

inductive Event where
  | execute (allArguments : Option CStr) (fr : ExecFrame)
  | halt (fr : ExecFrame)
  | key (scancode : UInt8) (entry switch : Regs) (fr : ExecFrame)
  | tick
  | open (filename : Option CStr)
  | readStart
  | read (fd : Int) (null : Bool) (nbytes : Int)
  | write (fd : Int) (buf : Option CStr) (nbytes : Int)
  | close (fd : Int)
  | vidmap (screenStart : BitVec 32)

def kernelStep (img : Image) (k : Kernel) : Event → Option Kernel
  | .execute allArguments fr => some (k.execute img fr allArguments).2
  | .halt fr => k.halt img fr
  | .key scancode entry switch fr => k.keyboardHandler img scancode entry switch fr
  | .tick => (rtcHandler k.dev.rtc).map fun rtc => { k with dev := { k.dev with rtc := rtc } }
  | .open filename =>
      k.withCurrent fun pcb dev =>
        let r := sysOpen img.lay img.fs pokeName filename pcb
        some ⟨r.1, [], r.2, dev⟩
  | .readStart => some (k.onTerm Term.terminalReadStart)
  | .read fd null nbytes => k.withCurrent (sysRead img.lay img.fs fd null nbytes)
  | .write fd buf nbytes => k.withCurrent (sysWrite img.lay fd buf nbytes)
  | .close fd =>
      k.withCurrent fun pcb dev => (sysClose img.lay fd pcb).map fun r => ⟨r.1, [], r.2, dev⟩
  | .vidmap screenStart => some (k.vidmap img screenStart)

/-- Globals at boot.  The process table and the counter have initialisers and are zero, as are
the other tables; devices, control blocks and paging are as the boot code left them. -/
def bootKernel (dev : Devices) (pcbs : Int → Pcb) (paging : Paging) (esp0 : BitVec 32) : Kernel where
  procs _ := 0
  termProcs _ := 0
  runningProcs _ := 0
  processCount := 0
  runningTerminal := 0
  dev := dev
  pcbs := pcbs
  paging := paging
  esp0 := esp0
  vidmapCalled := false

end Kernel391
