import Kernel391.Pcb
import Kernel391.Rtc
import Kernel391.Terminal

/-!
# The descriptor system calls (`open`, `read`, `write` and `close` of `syscalls.c`)

Calls act on the control block of the current process and on the devices.  A call through a
`fops` pointer that is none of the four driver tables jumps to an arbitrary address, and a
driver that polls may find its device not ready; in both cases the call has no completed
transition and the result is `none`.
-/

namespace Kernel391

inductive Driver where
  | terminal | rtc | fsys | dir
deriving DecidableEq

/-- Where the linker put the four `fops_t` tables. -/
structure FopsLayout where
  addr : Driver → BitVec 32
  ne_null : ∀ d, addr d ≠ 0
  injective : ∀ d e, addr d = addr e → d = e

/-- The table a `fops` pointer refers to. -/
def FopsLayout.driverAt (lay : FopsLayout) (fops : BitVec 32) : Option Driver :=
  [Driver.terminal, .rtc, .fsys, .dir].find? fun d => lay.addr d = fops

/-- What the drivers share with the rest of the kernel.  `stack` is the memory above a driver's
local variables, reachable only by reading past the end of one of them. -/
structure Devices where
  term : Term
  rtc : Rtc
  drIndex : Nat
  stack : Nat → UInt8

/-- A completed call: its return value, the bytes stored from the start of the caller's buffer,
and the state left behind. -/
structure CallResult where
  ret : Int
  stored : List UInt8
  pcb : Pcb
  dev : Devices

/-- Four driver tables one after the other, as the linker might place them. -/
def sampleLayout : FopsLayout where
  addr
    | .terminal => 0x410004
    | .rtc => 0x410014
    | .fsys => 0x410024
    | .dir => 0x410034
  ne_null d := by cases d <;> decide
  injective d e := by cases d <;> cases e <;> decide

def idleDevices : Devices := ⟨bootTerm blankScreen, ⟨0, 0, 0⟩, 0, fun _ => 0⟩

/-! ## Drivers -/

/-- A local `dentry_t` seen through a byte pointer to its name. -/
def Dentry.bytes (d : Dentry) (stack : Nat → UInt8) (o : Nat) : UInt8 :=
  if o < 32 then d.name o
  else if o < 36 then wordByte d.fileType (o - 32)
  else if o < 40 then wordByte d.inodeIndex (o - 36)
  else if o < 64 then wordByte (d.reserved ((o - 40) / 4)) (o - 40)
  else stack (o - 64)

def dirRead (fs : FileSys) (nbytes : Int) (pcb : Pcb) (dev : Devices) : CallResult :=
  match readDentryByIndex fs.bootBlock dev.drIndex with
  | none => ⟨0, [], pcb, { dev with drIndex := 0 }⟩
  | some dentry =>
      ⟨nbytes, copyBuf (dentry.bytes dev.stack) nbytes.toNat, pcb,
        { dev with drIndex := (dev.drIndex + 1) % 2 ^ 32 }⟩

/-- `file_read`: the position moves by whatever `read_data` returned. -/
def fileRead (fs : FileSys) (fd : Nat) (nbytes : Int) (pcb : Pcb) (dev : Devices) : CallResult :=
  let file := pcb.fileArray fd
  match readData fs file.inode.toNat file.pos.toNat false nbytes.toNat with
  | none => ⟨-1, [], pcb.setFd fd { file with pos := file.pos - 1 }, dev⟩
  | some data =>
      ⟨data.length, data,
        pcb.setFd fd { file with pos := file.pos + BitVec.ofNat 32 data.length }, dev⟩

def Driver.read (fs : FileSys) (fd : Nat) (nbytes : Int) (pcb : Pcb) (dev : Devices) :
    Driver → Option CallResult
  | .terminal =>
      (dev.term.terminalReadResume nbytes).map fun r =>
        ⟨r.1.ret, r.1.stored, pcb, { dev with term := r.2 }⟩
  | .rtc => (rtcRead dev.rtc).map fun r => ⟨0, [], pcb, { dev with rtc := r }⟩
  | .fsys => some (fileRead fs fd nbytes pcb dev)
  | .dir => some (dirRead fs nbytes pcb dev)

-- The little-endian word a pointer refers to.
def wordAt (buf : CStr) : BitVec 32 :=
  (buf 3).toBitVec ++ (buf 2).toBitVec ++ (buf 1).toBitVec ++ (buf 0).toBitVec

def Driver.write (buf : CStr) (nbytes : Int) (dev : Devices) : Driver → Int × Devices
  | .terminal =>
      let r := dev.term.terminalWrite (some buf) nbytes
      (r.1, { dev with term := r.2 })
  | .rtc =>
      let r := rtcWrite (some (wordAt buf)) nbytes dev.rtc
      (r.1, { dev with rtc := r.2 })
  | .fsys | .dir => (-1, dev)

def Driver.close (fd : Int) : Driver → Int
  | .terminal => if fd = 0 ∨ fd = 1 then -1 else 0
  | .rtc | .fsys | .dir => 0

/-! ## System calls -/

variable (lay : FopsLayout) (fs : FileSys)

/-- `read`; `null` tells whether the buffer is NULL. -/
def sysRead (fd : Int) (null : Bool) (nbytes : Int) (pcb : Pcb) (dev : Devices) :
    Option CallResult :=
  if null ∨ fd < 0 ∨ fd > MAX_FD ∨ fd = 1 ∨ nbytes < 0 then some ⟨-1, [], pcb, dev⟩
  else if (pcb.fileArray fd.toNat).flags = 0 then some ⟨-1, [], pcb, dev⟩
  else (lay.driverAt (pcb.fileArray fd.toNat).fops).bind (Driver.read fs fd.toNat nbytes pcb dev)

/-- `write`; `buf = none` is the NULL pointer. -/
def sysWrite (fd : Int) (buf : Option CStr) (nbytes : Int) (pcb : Pcb) (dev : Devices) :
    Option CallResult :=
  match buf with
  | none => some ⟨-1, [], pcb, dev⟩
  | some buf =>
      if fd < 0 ∨ fd > MAX_FD ∨ fd = 0 ∨ nbytes < 0 then some ⟨-1, [], pcb, dev⟩
      else if (pcb.fileArray fd.toNat).flags = 0 then some ⟨-1, [], pcb, dev⟩
      else
        (lay.driverAt (pcb.fileArray fd.toNat).fops).map fun d =>
          let r := d.write buf nbytes dev
          ⟨r.1, [], pcb, r.2⟩

/-- The search for an unused slot. -/
def freeSlot (pcb : Pcb) : Option Nat :=
  (List.range' 2 6).find? fun index => (pcb.fileArray index).flags = 0

/-- Where `open` stores byte `i` of the name of slot `fd`. -/
abbrev NameWriter := Nat → Int → UInt8 → Pcb → Pcb

-- The store as compiled: subscript `i` of `file_name`, wherever that lies.
def pokeName : NameWriter := fun fd i b pcb => pcb.poke (48 * fd + 16 + i).toNat b

-- The driver for a directory entry's type.
def driverOfType (fileType : BitVec 32) : Option Driver :=
  if fileType = 0 then some .rtc
  else if fileType = 1 then some .dir
  else if fileType = 2 then some .fsys
  else none

-- The slot as `open` fills it in; only a regular file keeps its inode number.
def openedFd (d : Driver) (dentry : Dentry) (old : FdT) : FdT :=
  { old with
    inode := if d = .fsys then dentry.inodeIndex else 0
    pos := 0, flags := 1, fops := lay.addr d }

/-- `open` with an entry already looked up, into slot `fd`. -/
def openEntry (writeName : NameWriter) (fd : Nat) (filename : CStr) (dentry : Dentry) (pcb : Pcb) :
    Int × Pcb :=
  match driverOfType dentry.fileType with
  | none => (-1, pcb)
  | some d =>
      let pcb := pcb.setFd fd (openedFd lay d dentry (pcb.fileArray fd))
      (fd, if d = .fsys then copyString (writeName fd) filename pcb else pcb)

/-- `open`. -/
def sysOpen (writeName : NameWriter) (filename : Option CStr) (pcb : Pcb) : Int × Pcb :=
  if stringLength filename > 32 then (-1, pcb)
  else
    match freeSlot pcb, filename, (readDentryByName fs.bootBlock filename).found with
    | some fd, some name, some dentry => openEntry lay writeName fd name dentry pcb
    | _, _, _ => (-1, pcb)

-- A descriptor after `close`: the inode number stays behind.
def closedFd (f : FdT) : FdT :=
  { f with
    fops := 0, pos := 0, flags := 0
    fileName := fun i => if i < FNAME_MAX_LEN then 0 else f.fileName i }

/-- `close`. -/
def sysClose (fd : Int) (pcb : Pcb) : Option (Int × Pcb) :=
  if fd < MIN_FD ∨ fd > MAX_FD ∨ (pcb.fileArray fd.toNat).flags = 0 then some (-1, pcb)
  else
    (lay.driverAt (pcb.fileArray fd.toNat).fops).map fun d =>
      if d.close fd ≠ 0 then (-1, pcb)
      else (0, pcb.setFd fd.toNat (closedFd (pcb.fileArray fd.toNat)))

/-- The descriptors `execute` gives a new process.  The two terminal records are built on the
stack, where their names are never set, and the other six keep the names the block held. -/
def initFileArray (stdinName stdoutName : Nat → UInt8) (pcb : Pcb) : Pcb :=
  { pcb with
    fileArray := fun i =>
      if i = 0 then ⟨lay.addr .terminal, 0, 0, 1, stdinName⟩
      else if i = 1 then ⟨lay.addr .terminal, 0, 0, 1, stdoutName⟩
      else if i < FILE_ARRAY_LEN then ⟨0, 0, 0, 0, (pcb.fileArray i).fileName⟩
      else pcb.fileArray i }

/-! ## Calls as events

A read or write comes with the devices as its driver finds them: anything may have happened to
them since the previous call. -/

inductive Call where
  | open (filename : Option CStr)
  | read (fd : Int) (null : Bool) (nbytes : Int) (dev : Devices)
  | write (fd : Int) (buf : Option CStr) (nbytes : Int) (dev : Devices)
  | close (fd : Int)

/-- What the caller sees of a completed call, with the control block it leaves. -/
structure Outcome where
  ret : Int
  stored : List UInt8
  pcb : Pcb

def CallResult.outcome (r : CallResult) : Outcome := ⟨r.ret, r.stored, r.pcb⟩

def doCall (writeName : NameWriter) (pcb : Pcb) : Call → Option Outcome
  | .open filename =>
      let r := sysOpen lay fs writeName filename pcb
      some ⟨r.1, [], r.2⟩
  | .read fd null nbytes dev => (sysRead lay fs fd null nbytes pcb dev).map CallResult.outcome
  | .write fd buf nbytes dev => (sysWrite lay fd buf nbytes pcb dev).map CallResult.outcome
  | .close fd => (sysClose lay fd pcb).map fun r => ⟨r.1, [], r.2⟩

/-! ## Specifications -/

theorem FopsLayout.driverAt_addr (d : Driver) : lay.driverAt (lay.addr d) = some d := by
  unfold FopsLayout.driverAt
  have hfind : ∀ e, decide (lay.addr e = lay.addr d) = decide (e = d) := by
    intro e
    exact decide_eq_decide.mpr ⟨lay.injective e d, fun h => h ▸ rfl⟩
  simp only [hfind]
  cases d <;> decide

theorem freeSlot_eq_some {pcb : Pcb} {fd : Nat} :
    freeSlot pcb = some fd ↔ (pcb.fileArray fd).flags = 0 ∧ 2 ≤ fd ∧ fd < 8 ∧
      ∀ j, 2 ≤ j → j < fd → (pcb.fileArray j).flags ≠ 0 := by
  unfold freeSlot
  rw [List.find?_range'_eq_some, List.mem_range'_1]
  simp only [decide_eq_true_eq, Bool.not_eq_eq_eq_not, Bool.not_true, decide_eq_false_iff_not]
  constructor
  · rintro ⟨hflags, ⟨hlo, hhi⟩, hmin⟩
    exact ⟨hflags, hlo, by omega, hmin⟩
  · rintro ⟨hflags, hlo, hhi, hmin⟩
    exact ⟨hflags, ⟨hlo, by omega⟩, hmin⟩

theorem freeSlot_eq_none {pcb : Pcb} :
    freeSlot pcb = none ↔ ∀ j, 2 ≤ j → j < 8 → (pcb.fileArray j).flags ≠ 0 := by
  unfold freeSlot
  rw [List.find?_range'_eq_none]
  constructor
  · intro h j hlo hhi
    simpa using h j hlo (by omega)
  · intro h j hlo hhi
    simpa using h j hlo (by omega)

/-- At most the record of one descriptor changed. -/
def OnlySlot (fd : Int) (pcb pcb' : Pcb) : Prop :=
  pcb' = pcb ∨ 0 ≤ fd ∧ ∃ f, pcb' = pcb.setFd fd.toNat f

theorem OnlySlot.pids {fd : Int} {pcb pcb' : Pcb} (h : OnlySlot fd pcb pcb') :
    pcb'.pId = pcb.pId ∧ pcb'.parPId = pcb.parPId := by
  rcases h with rfl | ⟨-, f, rfl⟩ <;> exact ⟨rfl, rfl⟩

theorem OnlySlot.other {fd : Int} {pcb pcb' : Pcb} (h : OnlySlot fd pcb pcb') {i : Nat}
    (hi : fd ≠ i) : pcb'.fileArray i = pcb.fileArray i := by
  rcases h with rfl | ⟨hfd, f, rfl⟩
  · rfl
  · rw [Pcb.setFd_fileArray, if_neg (by omega)]

theorem Driver.read_onlySlot {fs : FileSys} {fd nbytes : Int} {pcb : Pcb}
    {dev : Devices} {d : Driver} {r : CallResult} (hfd : 0 ≤ fd)
    (h : d.read fs fd.toNat nbytes pcb dev = some r) : OnlySlot fd pcb r.pcb := by
  cases d with
  | terminal =>
    rcases Option.map_eq_some_iff.mp h with ⟨s, -, rfl⟩
    exact .inl rfl
  | rtc =>
    rcases Option.map_eq_some_iff.mp h with ⟨s, -, rfl⟩
    exact .inl rfl
  | fsys =>
    rw [← Option.some.inj h]
    simp only [fileRead]
    split <;> exact .inr ⟨hfd, _, rfl⟩
  | dir =>
    rw [← Option.some.inj h]
    unfold dirRead
    split <;> exact .inl rfl

theorem sysRead_onlySlot {lay : FopsLayout} {fs : FileSys} {fd : Int} {null : Bool} {nbytes : Int}
    {pcb : Pcb} {dev : Devices} {r : CallResult}
    (h : sysRead lay fs fd null nbytes pcb dev = some r) : OnlySlot fd pcb r.pcb := by
  unfold sysRead at h
  split at h
  · rw [← Option.some.inj h]
    exact .inl rfl
  · rename_i hargs
    split at h
    · rw [← Option.some.inj h]
      exact .inl rfl
    · rcases Option.bind_eq_some_iff.mp h with ⟨d, -, hd⟩
      exact Driver.read_onlySlot (by omega) hd

theorem sysWrite_pcb {lay : FopsLayout} {fd : Int} {buf : Option CStr} {nbytes : Int} {pcb : Pcb}
    {dev : Devices} {r : CallResult} (h : sysWrite lay fd buf nbytes pcb dev = some r) :
    r.pcb = pcb := by
  unfold sysWrite at h
  split at h
  · rw [← Option.some.inj h]
  · split at h
    · rw [← Option.some.inj h]
    · split at h
      · rw [← Option.some.inj h]
      · rcases Option.map_eq_some_iff.mp h with ⟨d, -, rfl⟩
        rfl

theorem sysClose_eq_some {lay : FopsLayout} {fd : Int} {pcb : Pcb} {r : Int × Pcb}
    (h : sysClose lay fd pcb = some r) :
    r.2 = pcb ∨ 0 ≤ fd ∧ r.2 = pcb.setFd fd.toNat (closedFd (pcb.fileArray fd.toNat)) := by
  unfold sysClose at h
  split at h
  · rw [← Option.some.inj h]
    exact .inl rfl
  · rename_i hargs
    have hmin : MIN_FD = 2 := rfl
    rcases Option.map_eq_some_iff.mp h with ⟨d, -, rfl⟩
    split
    · exact .inl rfl
    · exact .inr ⟨by omega, rfl⟩

theorem sysClose_onlySlot {lay : FopsLayout} {fd : Int} {pcb : Pcb} {r : Int × Pcb}
    (h : sysClose lay fd pcb = some r) : OnlySlot fd pcb r.2 :=
  (sysClose_eq_some h).imp_right fun hclosed => ⟨hclosed.1, _, hclosed.2⟩

/-- The block after `open` has chosen slot `fd` and driver `d` for an entry. -/
def openedPcb (writeName : NameWriter) (fd : Nat) (d : Driver) (name : CStr) (dentry : Dentry)
    (pcb : Pcb) : Pcb :=
  let pcb := pcb.setFd fd (openedFd lay d dentry (pcb.fileArray fd))
  if d = .fsys then copyString (writeName fd) name pcb else pcb

/-- Every way `open` can go. -/
theorem sysOpen_cases (writeName : NameWriter) (filename : Option CStr) (pcb : Pcb) :
    (∃ fd name dentry d, filename = some name ∧ stringLength filename ≤ 32 ∧
        freeSlot pcb = some fd ∧ (readDentryByName fs.bootBlock filename).found = some dentry ∧
        driverOfType dentry.fileType = some d ∧
        sysOpen lay fs writeName filename pcb =
          ((fd : Int), openedPcb lay writeName fd d name dentry pcb)) ∨
      ((stringLength filename > 32 ∨ freeSlot pcb = none ∨
          ∀ dentry, (readDentryByName fs.bootBlock filename).found = some dentry →
            driverOfType dentry.fileType = none) ∧
        sysOpen lay fs writeName filename pcb = (-1, pcb)) := by
  unfold sysOpen
  by_cases hlen : stringLength filename > 32
  · exact .inr ⟨.inl hlen, if_pos hlen⟩
  rw [if_neg hlen]
  cases hfree : freeSlot pcb with
  | none => exact .inr ⟨.inr (.inl rfl), rfl⟩
  | some fd =>
    cases hfound : (readDentryByName fs.bootBlock filename).found with
    | none => exact .inr ⟨.inr (.inr fun _ h => nomatch h), by cases filename <;> rfl⟩
    | some dentry =>
      cases hfile : filename with
      | none =>
        rw [hfile] at hfound
        cases hfound
      | some name =>
        simp only [openEntry]
        cases hdrv : driverOfType dentry.fileType with
        | none =>
          refine .inr ⟨.inr (.inr ?_), rfl⟩
          intro dentry' h
          cases h
          exact hdrv
        | some d =>
          refine .inl ⟨fd, name, dentry, d, rfl, ?_, rfl, rfl, hdrv, rfl⟩
          rw [← hfile]
          exact Int.not_lt.mp hlen

theorem sysOpen_eq (writeName : NameWriter) {name : CStr} {pcb : Pcb} {fd : Nat} {dentry : Dentry}
    {d : Driver} (hlen : stringLength (some name) ≤ 32) (hfree : freeSlot pcb = some fd)
    (hfound : (readDentryByName fs.bootBlock (some name)).found = some dentry)
    (hdrv : driverOfType dentry.fileType = some d) :
    sysOpen lay fs writeName (some name) pcb =
      ((fd : Int), openedPcb lay writeName fd d name dentry pcb) := by
  unfold sysOpen
  rw [if_neg (Int.not_lt.mpr hlen), hfree, hfound]
  simp only [openEntry, hdrv]
  rfl

end Kernel391
