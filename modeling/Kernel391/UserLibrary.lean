import Kernel391.Getargs
import Kernel391.Lib.Program
import Kernel391.ReadData
import Kernel391.SequentialRead

/-!
# User programs and their library (`syscalls/ece391support.c`)

A user program is a sequential program over the kernel.  Before each of its system calls anything
may happen in the kernel: `Os.between` gives the state in which the call arrives.  Arrays of a
program have a size, and an access outside of one has no result; neither has a call whose driver
does not return.  Beside the kernel the state records what the program has written so far through
each of its descriptors.
-/

namespace Kernel391

open Machine

/-! ## System calls -/

/-- What a program runs on: the image, the memory behind its control block, and what happens
before its `n`-th system call. -/
structure Os where
  img : Image
  beyond : CStr
  between : Nat → Kernel → Kernel

/-- `written` holds the bytes of all the writes that did not fail. -/
structure World where
  kernel : Kernel
  calls : Nat
  written : Int → List UInt8

abbrev User (α : Type) := Program World α

/-- An array as the kernel reads it, which stops at a terminator or a given length. -/
def cstring (buf : List UInt8) : CStr := fun i => buf.getD i 0

/-- The bytes of an array from an offset on. -/
def bytesAt (buf : List UInt8) (offset n : Nat) : Option (List UInt8) :=
  if offset + n ≤ buf.length then some ((buf.drop offset).take n) else none

def storeAt (offset : Nat) (bytes buf : List UInt8) : Option (List UInt8) :=
  if offset + bytes.length ≤ buf.length then
    some (buf.take offset ++ bytes ++ buf.drop (offset + bytes.length))
  else none

namespace Os

variable (os : Os)

/-- The kernel as the next call finds it. -/
def arrive (w : World) : Kernel := os.between w.calls w.kernel

def descriptorCall (call : Pcb → Devices → Option CallResult) : User CallResult := fun w =>
  let k := os.arrive w
  (call (k.pcbs k.current) k.dev).map fun r =>
    (r, ⟨{ k.setPcb k.current r.pcb with dev := r.dev }, w.calls + 1, w.written⟩)

/-- `ece391_getargs` into an array. -/
def getargs (buf : List UInt8) (nbytes : BitVec 32) : User (Int × List UInt8) := fun w =>
  let r := (os.arrive w).getargs (fun i b m => Function.update m i b) false nbytes os.beyond
    fun i => buf.getD i.toNat 0
  some ((r.1, (List.range buf.length).map fun i : Nat => r.2.1 i), ⟨r.2.2, w.calls + 1, w.written⟩)

/-- `ece391_open` of a name that ends within its array. -/
def openFile (name : List UInt8) : User Int := do
  let r ← os.descriptorCall fun pcb dev =>
    let r := sysOpen os.img.lay os.img.fs pokeName (some (cstring name)) pcb
    some ⟨r.1, [], r.2, dev⟩
  return r.ret

/-- `ece391_read`: the result and the bytes stored. -/
def read (fd nbytes : Int) : User (Int × List UInt8) := do
  let r ← os.descriptorCall (sysRead os.img.lay os.img.fs fd false nbytes)
  return (r.ret, r.stored)

def record (fd : Int) (bytes : List UInt8) : User Unit := fun w =>
  some ((), { w with written := Function.update w.written fd (w.written fd ++ bytes) })

def write (fd : Int) (bytes : List UInt8) : User Int := do
  let r ← os.descriptorCall
    (sysWrite os.img.lay fd (some (cstring bytes)) bytes.length)
  if r.ret ≠ -1 then record fd bytes
  return r.ret

def close (fd : Int) : User Int := do
  let r ← os.descriptorCall fun pcb dev =>
    (sysClose os.img.lay fd pcb).map fun r => ⟨r.1, [], r.2, dev⟩
  return r.ret

end Os

/-! ## Strings -/

/-- What a pointer into an array sees. -/
abbrev Pointer := Nat → Option UInt8

def pointer (buf : List UInt8) (offset : Nat) : Pointer := fun i => buf[offset + i]?

-- the bytes of a string constant, and the array that holds it
def message (text : String) : List UInt8 := text.toList.map Char.toUInt8

def literal (text : String) : List UInt8 := message text ++ [0]

/-- The loop of `ece391_strlen`, with `k` iterations left in the address space. -/
def ece391StrlenLoop (s : Pointer) : Nat → Nat → Option Nat
  | 0, _ => none
  | k + 1, len => do
      let c ← s len
      if c = 0 then return len
      ece391StrlenLoop s k (len + 1)

def ece391Strlen (s : Pointer) : Option Nat := ece391StrlenLoop s (2 ^ 32) 0

/-- The loop of `ece391_strncmp`, with `n` not yet zero. -/
def strncmpLoop (s1 s2 : Pointer) : Nat → Nat → Option Int
  | 0, _ => some 0
  | n + 1, i => do
      let c1 ← s1 i
      let c2 ← s2 i
      if c1 = c2 then
        if c1 = 0 ∨ n = 0 then return 0
        strncmpLoop s1 s2 n (i + 1)
      else return (c1.toNat : Int) - c2.toNat

def ece391Strncmp (s1 s2 : Pointer) (n : Nat) : Option Int :=
  if n = 0 then some 0 else strncmpLoop s1 s2 n 0

/-- The loop of `ece391_strcpy` inside one array. -/
def strcpyLoop : Nat → Nat → Nat → List UInt8 → Option (List UInt8)
  | 0, _, _, _ => none
  | k + 1, dst, src, buf => do
      let c ← buf[src]?
      let buf ← storeAt dst [c] buf
      if c = 0 then return buf
      strcpyLoop k (dst + 1) (src + 1) buf

def ece391Strcpy (dst src : Nat) (buf : List UInt8) : Option (List UInt8) :=
  strcpyLoop (2 ^ 32) dst src buf

/-- `ece391_fdputs` of the string at an offset of an array. -/
def ece391Fdputs (os : Os) (fd : Int) (buf : List UInt8) (offset : Nat) : User Unit := do
  let len ← ece391Strlen (pointer buf offset)
  let bytes ← bytesAt buf offset len
  let _ ← os.write fd bytes

/-! ## Specifications -/

/-- Nothing that happens between the calls of the program reads a directory: the position in it is
one for the whole system. -/
def Os.SoleReader (os : Os) : Prop := ∀ n k, (os.between n k).dev.drIndex = k.dev.drIndex

/-- Process `p` is the current one and has the given descriptors; for a sole reader the position
in the directory is known too. -/
structure Running (os : Os) (p : Int) (files : Nat → FdT) (index : Nat) (w : World) : Prop where
  current : w.kernel.current = p
  files : (w.kernel.pcbs p).fileArray = files
  index : os.SoleReader → w.kernel.dev.drIndex = index

/-- Whatever happens before a call of process `p`, its call finds it current, with its descriptors
and arguments as they were. -/
structure Os.Undisturbed (os : Os) (p : Int) : Prop where
  current : ∀ n k, k.current = p → (os.between n k).current = p
  files : ∀ n k, k.current = p → ((os.between n k).pcbs p).fileArray = (k.pcbs p).fileArray
  args : ∀ n k, k.current = p → ((os.between n k).pcbs p).argBuffer = (k.pcbs p).argBuffer

/-- Descriptor 1 is the terminal. -/
structure Stdout (lay : FopsLayout) (f : FdT) : Prop where
  fops : f.fops = lay.addr .terminal
  flags : f.flags ≠ 0

theorem isCStr_cstring {text rest : List UInt8} (h0 : ∀ c ∈ text, c ≠ 0) :
    IsCStr (cstring (text ++ 0 :: rest)) text.length := by
  constructor
  · show (text ++ 0 :: rest).getD text.length 0 = 0
    rw [List.getD_append_right _ _ _ _ (Nat.le_refl _), Nat.sub_self]
    rfl
  · intro j hj
    show (text ++ 0 :: rest).getD j 0 ≠ 0
    rw [List.getD_append _ _ _ _ hj, List.getD_eq_getElem _ _ hj]
    exact h0 _ (List.getElem_mem hj)

theorem ece391StrlenLoop_eq {s : Pointer} {text : List UInt8} (h0 : ∀ c ∈ text, c ≠ 0) (k : Nat)
    (len : Nat) (hk : text.length < k) (hs : ∀ i ≤ text.length, s (len + i) = (text ++ [0])[i]?) :
    ece391StrlenLoop s k len = some (len + text.length) := by
  induction text generalizing k len with
  | nil =>
    cases k with
    | zero => simp at hk
    | succ k =>
      have hc : s len = some 0 := hs 0 (Nat.le_refl 0)
      simp [ece391StrlenLoop, hc]
  | cons c text ih =>
    cases k with
    | zero => simp at hk
    | succ k =>
      have hc : s len = some c := hs 0 (Nat.zero_le _)
      have hne : c ≠ 0 := h0 c List.mem_cons_self
      have hrest := ih (fun b hb => h0 b (List.mem_cons_of_mem c hb)) k (len + 1)
        (by rw [List.length_cons] at hk; omega) (by
          intro i hi
          rw [Nat.add_assoc, Nat.add_comm 1 i, hs (i + 1) (by rw [List.length_cons]; omega)]
          rfl)
      simp only [ece391StrlenLoop, hc, Option.bind_eq_bind, Option.bind_some, if_neg hne, hrest,
        List.length_cons]
      congr 1
      omega

/-- A string in an array: its bytes, its terminator and the rest of the array. -/
theorem ece391Strlen_eq {buf text rest : List UInt8} {offset : Nat}
    (h : buf.drop offset = text ++ 0 :: rest) (h0 : ∀ c ∈ text, c ≠ 0)
    (hlen : text.length < 2 ^ 32) : ece391Strlen (pointer buf offset) = some text.length := by
  unfold ece391Strlen
  rw [ece391StrlenLoop_eq h0 (2 ^ 32) 0 hlen, Nat.zero_add]
  intro i hi
  unfold pointer
  rw [Nat.zero_add, ← List.getElem?_drop, h]
  grind

theorem bytesAt_eq {buf text rest : List UInt8} {offset : Nat}
    (h : buf.drop offset = text ++ rest) (hoff : offset ≤ buf.length) :
    bytesAt buf offset text.length = some text := by
  have hlen : buf.length - offset = text.length + rest.length := by
    rw [← List.length_drop, h, List.length_append]
  unfold bytesAt
  rw [if_pos (by omega), h, List.take_left]

section Calls

variable {os : Os} {p : Int} {files : Nat → FdT} {index : Nat} {w : World}

/-- A descriptor call that returns is one step of the process. -/
theorem Os.descriptorCall_ends {call : Pcb → Devices → Option CallResult} {R : CallResult → Prop}
    {i : Nat} (hos : os.Undisturbed p) (hw : Running os p files index w)
    (hcall : ∀ pcb dev, pcb.fileArray = files → dev = (os.arrive w).dev →
      (os.SoleReader → dev.drIndex = index) → ∃ r, call pcb dev = some r ∧
        (os.SoleReader → r.dev.drIndex = i) ∧ R r) :
    Ends (os.descriptorCall call) w fun r w' =>
      R r ∧ Running os p r.pcb.fileArray i w' ∧ w'.written = w.written := by
  have hcurrent : (os.arrive w).current = p := hos.current _ _ hw.current
  obtain ⟨r, hr, hindex, hR⟩ := hcall ((os.arrive w).pcbs p) (os.arrive w).dev
    ((hos.files _ _ hw.current).trans hw.files) rfl fun h => (h _ _).trans (hw.index h)
  refine ⟨r, ⟨{ (os.arrive w).setPcb p r.pcb with dev := r.dev }, w.calls + 1, w.written⟩,
    ?_, hR, ⟨hcurrent, ?_, hindex⟩, rfl⟩
  · unfold Os.descriptorCall
    simp only [hcurrent, hr, Option.map_some]
  · show (Function.update (os.arrive w).pcbs p r.pcb p).fileArray = _
    rw [Function.update_self]

theorem sysWrite_stdout {lay : FopsLayout} {pcb : Pcb} (hout : Stdout lay (pcb.fileArray 1))
    (buf : CStr) (n : Nat) (dev : Devices) :
    ∃ r, sysWrite lay 1 (some buf) n pcb dev = some r ∧ r.dev.drIndex = dev.drIndex ∧
      r.pcb = pcb ∧ (r.ret = -1 ↔ n = 0) := by
  have hdriver : lay.driverAt (pcb.fileArray 1).fops = some .terminal := by
    rw [hout.fops, FopsLayout.driverAt_addr]
  have hcall : sysWrite lay 1 (some buf) n pcb dev =
      some ⟨(Driver.terminal.write buf n dev).1, [], pcb, (Driver.terminal.write buf n dev).2⟩ := by
    have hmax : MAX_FD = 7 := rfl
    unfold sysWrite
    dsimp only
    rw [if_neg (by omega), show Int.toNat 1 = 1 from rfl, if_neg hout.flags, hdriver]
    rfl
  refine ⟨_, hcall, rfl, rfl, ?_⟩
  show (dev.term.terminalWrite (some buf) n).1 = -1 ↔ n = 0
  unfold Term.terminalWrite
  by_cases hn : n = 0
  · simp [hn]
  · simp only [if_neg (show ¬(n : Int) ≤ 0 by omega), hn, iff_false]
    omega

/-- A write to the terminal takes all its bytes. -/
theorem Os.write_ends (hos : os.Undisturbed p) (hw : Running os p files index w)
    (hout : Stdout os.img.lay (files 1)) (bytes : List UInt8) :
    Ends (os.write 1 bytes) w fun r w' => (bytes ≠ [] → r ≠ -1) ∧ Running os p files index w' ∧
      w'.written = Function.update w.written 1 (w.written 1 ++ bytes) := by
  unfold Os.write
  refine Ends.bind_of (os.descriptorCall_ends (i := index)
    (R := fun r => r.pcb.fileArray = files ∧ (r.ret = -1 ↔ bytes.length = 0)) hos hw ?_) ?_
  · intro pcb dev hfiles _ hdev
    obtain ⟨r, hr, hindex, hpcb, hret⟩ := sysWrite_stdout (hfiles ▸ hout)
      (cstring bytes) bytes.length dev
    exact ⟨r, hr, fun h => hindex.trans (hdev h), hpcb ▸ hfiles, hret⟩
  · rintro r w' ⟨⟨hfiles, hret⟩, hw', hwritten⟩
    rw [hfiles] at hw'
    by_cases hfail : r.ret = -1
    · have hnil : bytes = [] := List.length_eq_zero_iff.mp (hret.mp hfail)
      simp only [hfail, ne_eq, not_true, if_false]
      refine Ends.bind (Ends.pure (Ends.pure ⟨fun h => absurd hnil h, hw', ?_⟩))
      rw [hnil, List.append_nil, Function.update_eq_self, hwritten]
    · simp only [ne_eq, hfail, not_false_iff, if_true]
      refine Ends.bind ⟨(), _, rfl, Ends.pure ⟨fun _ => hfail,
        ⟨hw'.current, hw'.files, hw'.index⟩, ?_⟩⟩
      show Function.update w'.written 1 _ = _
      rw [hwritten]

theorem ece391Fdputs_ends {buf text rest : List UInt8} {offset : Nat} (hos : os.Undisturbed p)
    (hw : Running os p files index w) (hout : Stdout os.img.lay (files 1))
    (h : buf.drop offset = text ++ 0 :: rest) (h0 : ∀ c ∈ text, c ≠ 0)
    (hlen : text.length < 2 ^ 32) :
    Ends (ece391Fdputs os 1 buf offset) w fun _ w' => Running os p files index w' ∧
      w'.written = Function.update w.written 1 (w.written 1 ++ text) := by
  have hoff : offset ≤ buf.length := by
    by_contra hgt
    rw [List.drop_of_length_le (by omega)] at h
    exact absurd h.symm (by simp)
  unfold ece391Fdputs
  refine Ends.bind (Ends.lift (ece391Strlen_eq h h0 hlen) ?_)
  refine Ends.bind (Ends.lift (bytesAt_eq h hoff) ?_)
  refine Ends.bind_of (os.write_ends hos hw hout text) ?_
  rintro r w' ⟨-, hw', hwritten⟩
  exact Ends.pure ⟨hw', hwritten⟩

theorem fdputs_literal_ends {text : String} (hos : os.Undisturbed p)
    (hw : Running os p files index w) (hout : Stdout os.img.lay (files 1))
    (h0 : 0 ∉ message text) (hlen : (message text).length < 2 ^ 32) :
    Ends (ece391Fdputs os 1 (literal text) 0) w fun _ w' => Running os p files index w' ∧
      w'.written = Function.update w.written 1 (w.written 1 ++ message text) :=
  ece391Fdputs_ends hos hw hout rfl (List.forall_mem_ne'.mpr h0) hlen

/-- The descriptors after `n` bytes have been read from one of them. -/
def advanced (fd n : Nat) (files : Nat → FdT) : Nat → FdT :=
  Function.update files fd { files fd with pos := (files fd).pos + BitVec.ofNat 32 n }

theorem FileSlot.advanced {lay : FopsLayout} {inode : BitVec 32} {pos fd n : Nat}
    (h : FileSlot lay inode pos (files fd)) (hn : pos + n < 2 ^ 32) :
    FileSlot lay inode (pos + n) (advanced fd n files fd) := by
  unfold Kernel391.advanced
  rw [Function.update_self]
  refine ⟨h.fops, h.inode, ?_, h.flags⟩
  show ((files fd).pos + BitVec.ofNat 32 n).toNat = _
  rw [BitVec.toNat_add, BitVec.toNat_ofNat, h.pos]
  omega

/-- A read of a regular file. -/
theorem Os.read_ends {fd : Nat} {inode : BitVec 32} {pos : Nat} (hos : os.Undisturbed p)
    (hw : Running os p files index w) (hfd : 2 ≤ fd ∧ fd < 8)
    (hinode : inode.toNat < os.img.fs.bootBlock.inodeCount.toNat)
    (hslot : FileSlot os.img.lay inode pos (files fd))
    (hpos : pos ≤ (os.img.fs.inodes inode.toNat).length.toNat) (n : Nat) {data : List UInt8}
    (hdata : data = ((contents os.img.fs (os.img.fs.inodes inode.toNat)).drop pos).take n) :
    Ends (os.read fd n) w fun r w' => r = ((data.length : Int), data) ∧
      Running os p (advanced fd data.length files) index w' ∧ w'.written = w.written := by
  unfold Os.read
  refine Ends.bind_of (os.descriptorCall_ends (i := index) (R := fun r => r.ret = data.length ∧
    r.stored = data ∧ r.pcb.fileArray = advanced fd data.length files) hos hw ?_) ?_
  · intro pcb dev hfiles _ hdev
    have hslot' : FileSlot os.img.lay inode pos (pcb.fileArray fd) := hfiles ▸ hslot
    refine ⟨_, (sysRead_file hfd hslot' (Int.natCast_nonneg n) dev).trans
      (congrArg some (fileRead_slot hinode hslot' hpos n dev)), hdev, ?_, ?_, ?_⟩
    · rw [hdata, Int.toNat_natCast]
    · rw [hdata, Int.toNat_natCast]
    · rw [hdata, ← hfiles, Int.toNat_natCast]
      funext i
      unfold advanced
      rw [Pcb.setFd_fileArray, Function.update_apply]
  · rintro r w' ⟨⟨hret, hstored, hfiles⟩, hw', hwritten⟩
    rw [hfiles] at hw'
    exact Ends.pure ⟨by rw [hret, hstored], hw', hwritten⟩

/-- A read of a file whose inode does not exist. -/
theorem Os.read_fails {fd : Nat} {inode : BitVec 32} {pos : Nat} (hos : os.Undisturbed p)
    (hw : Running os p files index w) (hfd : 2 ≤ fd ∧ fd < 8)
    (hinode : os.img.fs.bootBlock.inodeCount.toNat ≤ inode.toNat)
    (hslot : FileSlot os.img.lay inode pos (files fd)) (n : Nat) :
    Ends (os.read fd n) w fun r w' => r = (-1, []) ∧ w'.written = w.written ∧
      ∃ files', Running os p files' index w' ∧ ∀ j, j ≠ fd → files' j = files j := by
  unfold Os.read
  refine Ends.bind_of (os.descriptorCall_ends (i := index) (R := fun r => r.ret = -1 ∧
    r.stored = [] ∧ ∀ j, j ≠ fd → r.pcb.fileArray j = files j) hos hw ?_) ?_
  · intro pcb dev hfiles _ hdev
    have hslot' : FileSlot os.img.lay inode pos (pcb.fileArray fd) := hfiles ▸ hslot
    refine ⟨_, sysRead_file hfd hslot' (Int.natCast_nonneg n) dev, ?_⟩
    simp only [fileRead, hslot'.inode, readData_none (.inl hinode)]
    refine ⟨hdev, trivial, trivial, ?_⟩
    intro j hj
    rw [Pcb.setFd_fileArray, if_neg hj, hfiles]
  · rintro r w' ⟨⟨hret, hstored, hother⟩, hw', hwritten⟩
    exact Ends.pure ⟨by rw [hret, hstored], hwritten, _, hw', hother⟩

-- A name written into slot `fd` does not reach the slots before it, and a short one no other slot.
theorem openedPcb_other {lay : FopsLayout} {fd j : Nat} {name : CStr}
    (hj : j < fd ∨ j ≠ fd ∧ stringLength (some name) < 32) (d : Driver) (dentry : Dentry)
    (pcb : Pcb) :
    (openedPcb lay pokeName fd d name dentry pcb).fileArray j = pcb.fileArray j := by
  have hset : (pcb.setFd fd (openedFd lay d dentry (pcb.fileArray fd))).fileArray j =
      pcb.fileArray j := by
    rw [Pcb.setFd_fileArray, if_neg (by omega)]
  unfold openedPcb
  split
  · refine copyString_induct (P := fun q : Pcb => q.fileArray j = pcb.fileArray j) ?_ hset
    intro i b q hlo hhi _ hq
    unfold pokeName Pcb.poke
    split
    · rw [Pcb.setFd_fileArray, if_neg, hq]
      show j ≠ (48 * (fd : Int) + 16 + i).toNat / 48
      omega
    · split
      · exact hq
      · unfold Pcb.setWord
        split <;> exact hq
  · exact hset

/-- The slot that `open` takes. -/
def FirstFree (files : Nat → FdT) (fd : Nat) : Prop :=
  (files fd).flags = 0 ∧ 2 ≤ fd ∧ fd < 8 ∧ ∀ j, 2 ≤ j → j < fd → (files j).flags ≠ 0

/-- Opening a file that is found. -/
theorem Os.open_ends {fd n : Nat} {name : List UInt8} {dentry : Dentry} {d : Driver}
    (hos : os.Undisturbed p) (hw : Running os p files index w) (hfree : FirstFree files fd)
    (hname : IsCStr (cstring name) n) (hn : n ≤ 32)
    (hfound : (readDentryByName os.img.fs.bootBlock (some (cstring name))).found =
      some dentry) (hdrv : driverOfType dentry.fileType = some d) :
    Ends (os.openFile name) w fun r w' => r = fd ∧ w'.written = w.written ∧
      ∃ pcb, pcb.fileArray = files ∧ Running os p (openedPcb os.img.lay pokeName fd d
        (cstring name) dentry pcb).fileArray index w' := by
  unfold Os.openFile
  refine Ends.bind_of (os.descriptorCall_ends (i := index) (R := fun r => r.ret = fd ∧
    ∃ pcb, pcb.fileArray = files ∧ r.pcb = openedPcb os.img.lay pokeName fd d
      (cstring name) dentry pcb) hos hw ?_) ?_
  · intro pcb dev hfiles _ hdev
    have hlen : stringLength (some (cstring name)) ≤ 32 := by
      rw [stringLength_eq hname (by omega)]
      omega
    have hslot : freeSlot pcb = some fd := by
      rw [freeSlot_eq_some, hfiles]
      exact hfree
    refine ⟨_, rfl, hdev, ?_⟩
    rw [sysOpen_eq os.img.lay os.img.fs pokeName hlen hslot hfound hdrv]
    exact ⟨rfl, pcb, hfiles, rfl⟩
  · rintro r w' ⟨⟨hret, pcb, hfiles, hpcb⟩, hw', hwritten⟩
    rw [hpcb] at hw'
    exact Ends.pure ⟨hret, hwritten, pcb, hfiles, hw'⟩

/-- Opening a name that is too long, that the directory does not have, or whose entry has no known
type. -/
theorem Os.open_fails {name : List UInt8} (hos : os.Undisturbed p) (hw : Running os p files index w)
    (hfound : stringLength (some (cstring name)) ≤ 32 → ∀ dentry,
      (readDentryByName os.img.fs.bootBlock (some (cstring name))).found = some dentry →
      driverOfType dentry.fileType = none) :
    Ends (os.openFile name) w fun r w' => r = -1 ∧ Running os p files index w' ∧
      w'.written = w.written := by
  unfold Os.openFile
  refine Ends.bind_of (os.descriptorCall_ends (i := index)
    (R := fun r => r.ret = -1 ∧ r.pcb.fileArray = files) hos hw ?_) ?_
  · intro pcb dev hfiles _ hdev
    refine ⟨_, rfl, hdev, ?_⟩
    rcases sysOpen_cases os.img.lay os.img.fs pokeName (some (cstring name)) pcb with
      ⟨_, _, dentry, _, _, hlen, _, hsome, hdrv, _⟩ | ⟨-, heq⟩
    · rw [hfound hlen dentry hsome] at hdrv
      cases hdrv
    · rw [heq]
      exact ⟨rfl, hfiles⟩
  · rintro r w' ⟨⟨hret, hfiles⟩, hw', hwritten⟩
    rw [hfiles] at hw'
    exact Ends.pure ⟨hret, hw', hwritten⟩

/-- Closing a descriptor other than the terminal's. -/
theorem Os.close_ends {fd : Nat} {d : Driver} (hos : os.Undisturbed p)
    (hw : Running os p files index w) (hfd : 2 ≤ fd ∧ fd < 8)
    (hfops : (files fd).fops = os.img.lay.addr d)
    (hflags : (files fd).flags ≠ 0) :
    Ends (os.close fd) w fun r w' => r = 0 ∧
      Running os p (Function.update files fd (closedFd (files fd))) index w' ∧
      w'.written = w.written := by
  unfold Os.close
  refine Ends.bind_of (os.descriptorCall_ends (i := index) (R := fun r => r.ret = 0 ∧
    r.pcb.fileArray = Function.update files fd (closedFd (files fd))) hos hw ?_) ?_
  · intro pcb dev hfiles _ hdev
    have hmin : MIN_FD = 2 := rfl
    have hmax : MAX_FD = 7 := rfl
    have hclose : d.close fd = 0 := by
      cases d with
      | terminal => exact if_neg (by omega)
      | rtc | fsys | dir => rfl
    have hcall : sysClose os.img.lay fd pcb =
        some (0, pcb.setFd fd (closedFd (pcb.fileArray fd))) := by
      have hargs : ¬((fd : Int) < MIN_FD ∨ (fd : Int) > MAX_FD ∨ (files fd).flags = 0) := by
        rintro (h | h | h)
        · omega
        · omega
        · exact hflags h
      unfold sysClose
      rw [Int.toNat_natCast, hfiles, if_neg hargs, hfops, FopsLayout.driverAt_addr]
      simp [hclose]
    refine ⟨_, by rw [hcall]; rfl, hdev, rfl, ?_⟩
    funext i
    rw [← hfiles, Function.update_apply]
    rfl
  · rintro r w' ⟨⟨hret, hfiles⟩, hw', hwritten⟩
    rw [hfiles] at hw'
    exact Ends.pure ⟨hret, hw', hwritten⟩

theorem map_getD (buf : List UInt8) :
    ((List.range buf.length).map fun i : Nat => buf.getD (i : Int).toNat 0) = buf := by
  apply List.ext_getElem
  · rw [List.length_map, List.length_range]
  · intro i hi hi'
    rw [List.getElem_map, List.getElem_range, Int.toNat_natCast, List.getD_eq_getElem]

/-- An array after `getargs` has stored a text in it. -/
theorem map_storeText {buf l : List UInt8} (h : l.length + 1 ≤ buf.length) :
    ((List.range buf.length).map fun i : Nat =>
      storeText l (fun i => buf.getD i.toNat 0) i) = l ++ 0 :: buf.drop (l.length + 1) := by
  apply List.ext_getElem
  · simp
    omega
  · intro i hi hi'
    rw [List.length_map, List.length_range] at hi
    rw [List.getElem_map, List.getElem_range]
    unfold storeText
    rw [Int.toNat_natCast]
    by_cases hin : i ≤ l.length
    · rw [if_pos (by omega), List.getD_eq_getElem _ _ (by simp; omega)]
      grind
    · rw [if_neg (by omega)]
      show buf.getD (i : Int).toNat 0 = _
      rw [Int.toNat_natCast, List.getD_eq_getElem _ _ hi]
      grind

/-- The text behind the command's name, if there is one and it fits. -/
theorem Os.getargs_ends {buf l : List UInt8} {n : BitVec 32} {old : CStr}
    (hos : os.Undisturbed p) (hw : Running os p files index w) (hl : ∀ c ∈ l, c ≠ 0)
    (hlen : l.length ≤ 127)
    (hargs : (w.kernel.pcbs p).argBuffer = storeBytes (l ++ [0]) old) (hn : n.toNat = buf.length) :
    Ends (os.getargs buf n) w fun r w' =>
      r = (if l ≠ [] ∧ l.length + 1 ≤ buf.length then (0, l ++ 0 :: buf.drop (l.length + 1))
        else (-1, buf)) ∧
      Running os p files index w' ∧ w'.written = w.written := by
  have hcurrent : (os.arrive w).current = p := hos.current _ _ hw.current
  have hfiles : ((os.arrive w).pcbs p).fileArray = files :=
    (hos.files _ _ hw.current).trans hw.files
  have harg : ((os.arrive w).pcbs (os.arrive w).current).argBuffer = storeBytes (l ++ [0]) old := by
    rw [hcurrent, ← hargs]
    exact hos.args _ _ hw.current
  have hcall := getargs_eq hl hlen harg os.beyond (fun i => buf.getD i.toNat 0) n
  have hindex : os.SoleReader → (os.arrive w).dev.drIndex = index :=
    fun h => (h _ _).trans (hw.index h)
  have hkernel : ∀ (dest : Int → UInt8) calls written, Running os p files index
      ⟨((os.arrive w).getargs (fun i b m => Function.update m i b) false n os.beyond dest).2.2,
        calls, written⟩ := by
    intro dest calls written
    constructor <;> unfold Kernel.getargs <;> dsimp only <;> split
    · exact hcurrent
    · exact hcurrent
    · exact hfiles
    · exact hfiles
    · exact hindex
    · exact hindex
  refine ⟨_, _, rfl, ?_, hkernel _ _ _, rfl⟩
  rw [Prod.ext_iff] at hcall
  obtain ⟨hret, hdest⟩ := hcall
  dsimp only at hret hdest ⊢
  rw [hret, hdest, hn]
  by_cases hok : l ≠ [] ∧ l.length + 1 ≤ buf.length
  · rw [if_pos hok, if_pos hok, map_storeText hok.2]
  · rw [if_neg hok, if_neg hok, map_getD]

/-- While `S` holds of the position and the descriptors, descriptor `fd` delivers a file. -/
structure FileDelivers (os : Os) (p : Int) (fd : Nat) (file : List UInt8)
    (S : Nat → (Nat → FdT) → Prop) : Prop where
  read : ∀ {pos files index w} (n : Nat), S pos files → pos ≤ file.length →
    Running os p files index w →
    Ends (os.read fd n) w fun r w' =>
      r = ((((file.drop pos).take n).length : Int), (file.drop pos).take n) ∧
      w'.written = w.written ∧ ∃ files', S (pos + ((file.drop pos).take n).length) files' ∧
        Running os p files' index w' ∧ ∀ j, j ≠ fd → files' j = files j
  fops : ∀ {pos files}, S pos files → ∃ d, (files fd).fops = os.img.lay.addr d
  flags : ∀ {pos files}, S pos files → (files fd).flags ≠ 0

theorem delivers_file {fd : Nat} {inode : BitVec 32} (hos : os.Undisturbed p)
    (hfd : 2 ≤ fd ∧ fd < 8)
    (hinode : inode.toNat < os.img.fs.bootBlock.inodeCount.toNat) :
    FileDelivers os p fd (contents os.img.fs (os.img.fs.inodes inode.toNat))
      fun pos files => FileSlot os.img.lay inode pos (files fd) where
  read n hS hpos hw := by
    rw [length_contents] at hpos
    refine (os.read_ends hos hw hfd hinode hS hpos n rfl).mono ?_
    rintro r w' ⟨hr, hw', hwritten⟩
    refine ⟨hr, hwritten, _, hS.advanced ?_, hw', ?_⟩
    · have hbound := (os.img.fs.inodes inode.toNat).length.isLt
      rw [List.length_take, List.length_drop, length_contents]
      omega
    · intro j hj
      exact Function.update_of_ne hj _ _
  fops hS := ⟨.fsys, hS.fops⟩
  flags hS := by
    rw [hS.flags]
    decide

/-- Whenever a call arrives a tick of the clock is pending. -/
def Os.ClockTicks (os : Os) : Prop := ∀ n k, (os.between n k).dev.rtc.irFlag ≠ 0

/-- The clock delivers nothing. -/
theorem delivers_rtc {fd : Nat} (hos : os.Undisturbed p) (hticks : os.ClockTicks)
    (hfd : 2 ≤ fd ∧ fd < 8) :
    FileDelivers os p fd [] fun _ files => (files fd).fops = os.img.lay.addr .rtc ∧
      (files fd).flags ≠ 0 where
  read {pos files index w} n hS hpos hw := by
    unfold Os.read
    refine Ends.bind_of (os.descriptorCall_ends (i := index) (R := fun r => r.ret = 0 ∧
      r.stored = [] ∧ r.pcb.fileArray = files) hos hw ?_) ?_
    · intro pcb dev hfiles harrive hdev
      have hmax : MAX_FD = 7 := rfl
      have hpending : dev.rtc.irFlag ≠ 0 := harrive ▸ hticks _ _
      refine ⟨⟨0, [], pcb, { dev with rtc := { dev.rtc with irFlag := 0 } }⟩, ?_, hdev, rfl, rfl,
        hfiles⟩
      unfold sysRead
      rw [if_neg (by simp; omega), Int.toNat_natCast, hfiles, if_neg hS.2, hS.1,
        FopsLayout.driverAt_addr]
      simp [Driver.read, rtcRead, hpending]
    · rintro r w' ⟨⟨hret, hstored, hfiles⟩, hw', hwritten⟩
      rw [hfiles] at hw'
      refine Ends.pure ⟨?_, hwritten, files, hS, hw', fun _ _ => rfl⟩
      rw [hret, hstored]
      simp
  fops hS := ⟨.rtc, hS.1⟩
  flags hS := hS.2

/-- What reading the file of a directory entry delivers. -/
def deliveredBy (fs : FileSys) (dentry : Dentry) : List UInt8 :=
  if dentry.fileType = 2 then contents fs (fs.inodes dentry.inodeIndex.toNat) else []

/-- The clock, or a regular file. -/
structure Readable (fs : FileSys) (dentry : Dentry) : Prop where
  kind : dentry.fileType = 0 ∨ dentry.fileType = 2
  inode : dentry.fileType = 2 → dentry.inodeIndex.toNat < fs.bootBlock.inodeCount.toNat

/-- Opening a file that can be read: all that matters of it is what its descriptor delivers. -/
theorem Os.open_readable {fd n : Nat} {name : List UInt8} {dentry : Dentry}
    (hos : os.Undisturbed p) (hticks : dentry.fileType = 0 → os.ClockTicks)
    (hw : Running os p files index w) (hfree : FirstFree files fd)
    (hname : IsCStr (cstring name) n) (hn : n ≤ 32)
    (hfound : (readDentryByName os.img.fs.bootBlock (some (cstring name))).found = some dentry)
    (hread : Readable os.img.fs dentry) :
    Ends (os.openFile name) w fun r w' => r = fd ∧ w'.written = w.written ∧ ∃ S files',
      FileDelivers os p fd (deliveredBy os.img.fs dentry) S ∧ S 0 files' ∧
      Running os p files' index w' ∧ ∀ j, j < fd → files' j = files j := by
  obtain ⟨-, hlo, hhi, -⟩ := id hfree
  have hopen : ∀ d, driverOfType dentry.fileType = some d →
      (∀ pcb, ∃ S, FileDelivers os p fd (deliveredBy os.img.fs dentry) S ∧
        S 0 (openedPcb os.img.lay pokeName fd d (cstring name) dentry pcb).fileArray) →
      Ends (os.openFile name) w fun r w' => r = fd ∧ w'.written = w.written ∧ ∃ S files',
        FileDelivers os p fd (deliveredBy os.img.fs dentry) S ∧ S 0 files' ∧
        Running os p files' index w' ∧ ∀ j, j < fd → files' j = files j := by
    intro d hdrv hdelivers
    refine (os.open_ends hos hw hfree hname hn hfound hdrv).mono ?_
    rintro r w₁ ⟨hr, hwritten, pcb, hpcb, hw₁⟩
    obtain ⟨S, hdel, hS⟩ := hdelivers pcb
    refine ⟨hr, hwritten, S, _, hdel, hS, hw₁, ?_⟩
    intro j hj
    rw [openedPcb_other (.inl hj), hpcb]
  rcases hread.kind with htype | htype
  · refine hopen .rtc (by rw [htype]; rfl) fun pcb => ?_
    have hnothing : deliveredBy os.img.fs dentry = [] := if_neg (by rw [htype]; decide)
    rw [hnothing]
    refine ⟨_, delivers_rtc hos (hticks htype) ⟨hlo, hhi⟩, ?_⟩
    have hopened : (openedPcb os.img.lay pokeName fd .rtc (cstring name) dentry pcb).fileArray fd =
        openedFd os.img.lay .rtc dentry (pcb.fileArray fd) := if_pos rfl
    rw [hopened]
    exact ⟨rfl, show (1 : BitVec 32) ≠ 0 by decide⟩
  · refine hopen .fsys (by rw [htype]; rfl) fun pcb => ?_
    have hcontents : deliveredBy os.img.fs dentry =
        contents os.img.fs (os.img.fs.inodes dentry.inodeIndex.toNat) := if_pos htype
    rw [hcontents]
    refine ⟨_, delivers_file hos ⟨hlo, hhi⟩ (hread.inode htype), ?_⟩
    apply fileSlot_openedPcb hhi
    rw [stringLength_eq hname (by omega)]
    omega

end Calls

end Kernel391
