import Kernel391.OpenFrame
import Kernel391.Lib.Run

/-!
# Reading the directory

`dir_read` keeps its position in one global, `dr_index`, whoever reads.  A scan therefore sees the
entries in order when the reads made so far, by everyone and since boot, put the global where the
descriptor itself has got to.
-/

namespace Kernel391

open Machine

/-- Processes with their descriptors.  Two counters that no function reads are kept beside them: for
each descriptor the directory reads made through it since it was opened, and the directory reads
made altogether. -/
structure Scans where
  pcbs : Int → Pcb
  dev : Devices
  scanned : Int → Nat → Nat
  total : Nat

inductive ScanEvent where
  | open (pid : Int) (filename : Option CStr)
  | read (pid fd : Int) (null : Bool) (nbytes : Int)
  | close (pid fd : Int)

variable (lay : FopsLayout) (fs : FileSys)

/-- A call of `read` that reaches `dir_read`. -/
def DirRead (fd : Int) (null : Bool) (nbytes : Int) (pcb : Pcb) : Prop :=
  ¬(null ∨ fd < 0 ∨ fd > MAX_FD ∨ fd = 1 ∨ nbytes < 0) ∧ (pcb.fileArray fd.toNat).flags ≠ 0 ∧
    lay.driverAt (pcb.fileArray fd.toNat).fops = some .dir

instance (fd : Int) (null : Bool) (nbytes : Int) (pcb : Pcb) :
    Decidable (DirRead lay fd null nbytes pcb) :=
  inferInstanceAs (Decidable (_ ∧ _ ∧ _))

def Scans.setCount (pid : Int) (fd n : Nat) (s : Scans) : Scans :=
  { s with scanned := fun p i => if p = pid ∧ i = fd then n else s.scanned p i }

def scanStep (s : Scans) : ScanEvent → Option Scans
  | .open pid filename =>
      let r := sysOpen lay fs pokeName filename (s.pcbs pid)
      let s := { s with pcbs := Function.update s.pcbs pid r.2 }
      some (if 0 ≤ r.1 then s.setCount pid r.1.toNat 0 else s)
  | .read pid fd null nbytes =>
      (sysRead lay fs fd null nbytes (s.pcbs pid) s.dev).map fun r =>
        let s' := { s with pcbs := Function.update s.pcbs pid r.pcb, dev := r.dev }
        if DirRead lay fd null nbytes (s.pcbs pid) then
          { s'.setCount pid fd.toNat (s.scanned pid fd.toNat + 1) with total := s.total + 1 }
        else s'
  | .close pid fd =>
      (sysClose lay fd (s.pcbs pid)).map fun r =>
        { s with pcbs := Function.update s.pcbs pid r.2 }

/-- What read number `n` of a scan is to return, and the bytes of the name it is to store: as many
as fit of entry `n`, and nothing at the end. -/
def listed (nbytes : Int) (n : Nat) : Int × List UInt8 :=
  if n < fs.bootBlock.dentryCount.toNat then
    (nbytes, (List.range (min FNAME_MAX_LEN nbytes.toNat)).map (fs.bootBlock.dentries n).name)
  else (0, [])

/-- A directory read delivers the entry its own descriptor has got to. -/
def ReadsOwnEntry (s : Scans) : ScanEvent → Prop
  | .read pid fd null nbytes => DirRead lay fd null nbytes (s.pcbs pid) →
      ∀ r, sysRead lay fs fd null nbytes (s.pcbs pid) s.dev = some r →
        (r.ret, r.stored.take FNAME_MAX_LEN) = listed fs nbytes (s.scanned pid fd.toNat)
  | _ => True

/-- The reads made so far, counted round and round through the entries and the end, have come to an
entry that reads the same as the descriptor's own. -/
def ScansInStep (s : Scans) : ScanEvent → Prop
  | .read pid fd null nbytes => DirRead lay fd null nbytes (s.pcbs pid) →
      listed fs nbytes (s.total % (fs.bootBlock.dentryCount.toNat + 1)) =
        listed fs nbytes (s.scanned pid fd.toNat)
  | _ => True

/-! ## `dir_read` -/

variable {lay fs}

theorem dentryBytes_take (d : Dentry) (stack : Nat → UInt8) (n : Nat) :
    (copyBuf (d.bytes stack) n).take FNAME_MAX_LEN =
      (List.range (min FNAME_MAX_LEN n)).map d.name := by
  rw [copyBuf, ← List.map_take, List.take_range]
  apply List.map_congr_left
  intro i hi
  have hlt : i < 32 := by
    have hmin := List.mem_range.mp hi
    simp only [FNAME_MAX_LEN] at hmin
    omega
  rw [Dentry.bytes, if_pos hlt]

theorem dirRead_listed (nbytes : Int) (pcb : Pcb) (dev : Devices) :
    ((dirRead fs nbytes pcb dev).ret, (dirRead fs nbytes pcb dev).stored.take FNAME_MAX_LEN) =
      listed fs nbytes dev.drIndex := by
  unfold dirRead readDentryByIndex listed
  by_cases hend : fs.bootBlock.dentryCount.toNat ≤ dev.drIndex
  · rw [if_pos hend, if_neg (Nat.not_lt.mpr hend)]
    rfl
  · rw [if_neg hend, if_pos (Nat.not_le.mp hend)]
    simp only [dentryBytes_take]

-- The index walks through the entries and one step beyond.
theorem dirRead_drIndex (hcount : fs.bootBlock.dentryCount.toNat ≤ DENTRY_COUNT) (nbytes : Int)
    (pcb : Pcb) {dev : Devices} {total : Nat}
    (hindex : dev.drIndex = total % (fs.bootBlock.dentryCount.toNat + 1)) :
    (dirRead fs nbytes pcb dev).dev.drIndex =
      (total + 1) % (fs.bootBlock.dentryCount.toNat + 1) := by
  have hmax : DENTRY_COUNT = 63 := rfl
  have hlt : total % (fs.bootBlock.dentryCount.toNat + 1) < fs.bootBlock.dentryCount.toNat + 1 :=
    Nat.mod_lt total (Nat.succ_pos _)
  have hnext : (total + 1) % (fs.bootBlock.dentryCount.toNat + 1) =
      (dev.drIndex + 1) % (fs.bootBlock.dentryCount.toNat + 1) := by
    rw [hindex, Nat.mod_add_mod]
  unfold dirRead readDentryByIndex
  rw [hnext]
  by_cases hend : fs.bootBlock.dentryCount.toNat ≤ dev.drIndex
  · have heq : dev.drIndex = fs.bootBlock.dentryCount.toNat := by omega
    rw [if_pos hend, heq, Nat.mod_self]
  · rw [if_neg hend, Nat.mod_eq_of_lt (show dev.drIndex + 1 <
      fs.bootBlock.dentryCount.toNat + 1 by omega)]
    exact Nat.mod_eq_of_lt (by omega)

-- The other drivers do not know the index.
theorem Driver.read_drIndex {fd : Nat} {nbytes : Int} {pcb : Pcb} {dev : Devices} {d : Driver}
    {r : CallResult} (hd : d ≠ .dir) (h : d.read fs fd nbytes pcb dev = some r) :
    r.dev.drIndex = dev.drIndex := by
  cases d with
  | terminal =>
    rcases Option.map_eq_some_iff.mp h with ⟨s, -, rfl⟩
    rfl
  | rtc =>
    rcases Option.map_eq_some_iff.mp h with ⟨s, -, rfl⟩
    rfl
  | fsys =>
    rw [← Option.some.inj h]
    simp only [fileRead]
    split <;> rfl
  | dir => exact absurd rfl hd

theorem sysRead_dir {fd : Int} {null : Bool} {nbytes : Int} {pcb : Pcb}
    (hdir : DirRead lay fd null nbytes pcb) (dev : Devices) :
    sysRead lay fs fd null nbytes pcb dev = some (dirRead fs nbytes pcb dev) := by
  rcases hdir with ⟨hargs, hflags, hdriver⟩
  rw [sysRead, if_neg hargs, if_neg hflags, hdriver]
  rfl

theorem sysRead_drIndex {fd : Int} {null : Bool} {nbytes : Int} {pcb : Pcb} {dev : Devices}
    {r : CallResult} (hdir : ¬DirRead lay fd null nbytes pcb)
    (h : sysRead lay fs fd null nbytes pcb dev = some r) : r.dev.drIndex = dev.drIndex := by
  unfold sysRead at h
  split at h
  · rw [← Option.some.inj h]
  · rename_i hargs
    split at h
    · rw [← Option.some.inj h]
    · rename_i hflags
      rcases Option.bind_eq_some_iff.mp h with ⟨d, hdriver, hread⟩
      apply Driver.read_drIndex _ hread
      intro hd
      exact hdir ⟨hargs, hflags, hd ▸ hdriver⟩

/-! ## Runs -/

/-- The global as a function of the reads made so far. -/
def IndexCounts (fs : FileSys) (s : Scans) : Prop :=
  s.dev.drIndex = s.total % (fs.bootBlock.dentryCount.toNat + 1)

theorem IndexCounts.step (hcount : fs.bootBlock.dentryCount.toNat ≤ DENTRY_COUNT) {s s' : Scans}
    {e : ScanEvent} (h : IndexCounts fs s) (hstep : scanStep lay fs s e = some s') :
    IndexCounts fs s' := by
  cases e with
  | «open» pid filename =>
    rw [← Option.some.inj hstep]
    split <;> exact h
  | read pid fd null nbytes =>
    rcases Option.map_eq_some_iff.mp hstep with ⟨r, hr, rfl⟩
    simp only
    split
    · rename_i hdir
      show r.dev.drIndex = (s.total + 1) % _
      rw [← Option.some.inj ((sysRead_dir hdir s.dev).symm.trans hr)]
      exact dirRead_drIndex hcount nbytes (s.pcbs pid) h
    · rename_i hdir
      show r.dev.drIndex = s.total % _
      rw [sysRead_drIndex hdir hr]
      exact h
  | close pid fd =>
    rcases Option.map_eq_some_iff.mp hstep with ⟨r, -, rfl⟩
    exact h

theorem IndexCounts.readsOwnEntry_iff {s : Scans} (h : IndexCounts fs s) (e : ScanEvent) :
    ReadsOwnEntry lay fs s e ↔ ScansInStep lay fs s e := by
  cases e with
  | read pid fd null nbytes =>
    show (DirRead lay fd null nbytes (s.pcbs pid) → _) ↔ _
    apply imp_congr_right
    intro hdir
    rw [sysRead_dir hdir, ← h, ← dirRead_listed nbytes (s.pcbs pid) s.dev]
    simp
  | _ => exact Iff.rfl

theorem IndexCounts.along_iff (hcount : fs.bootBlock.dentryCount.toNat ≤ DENTRY_COUNT) {s : Scans}
    (h : IndexCounts fs s) (es : List ScanEvent) :
    Along (scanStep lay fs) (ReadsOwnEntry lay fs) s es ↔
      Along (scanStep lay fs) (ScansInStep lay fs) s es :=
  along_iff_of_invariant (fun _ _ _ h _ hstep => h.step hcount hstep)
    (fun _ e h => h.readsOwnEntry_iff e) h

/-- Whatever processes read the directory and in whatever order, each descriptor sees the entries in
order, exactly in the runs in which the reads of all of them stay in step with its own. -/
theorem directory_reads_in_order (lay : FopsLayout) (fs : FileSys)
    (hcount : fs.bootBlock.dentryCount.toNat ≤ DENTRY_COUNT) (pcbs : Int → Pcb) (dev : Devices)
    (hboot : dev.drIndex = 0) (es : List ScanEvent) :
    Along (scanStep lay fs) (ReadsOwnEntry lay fs) ⟨pcbs, dev, fun _ _ => 0, 0⟩ es ↔
      Along (scanStep lay fs) (ScansInStep lay fs) ⟨pcbs, dev, fun _ _ => 0, 0⟩ es := by
  have hstart : IndexCounts fs ⟨pcbs, dev, fun _ _ => 0, 0⟩ := by
    show dev.drIndex = 0 % _
    rw [hboot, Nat.zero_mod]
  exact hstart.along_iff hcount es

instance (s : Scans) (e : ScanEvent) : Decidable (ScansInStep lay fs s e) :=
  match e with
  | .open _ _ => isTrue trivial
  | .read _ _ _ _ => inferInstanceAs (Decidable (_ → _))
  | .close _ _ => isTrue trivial

/-- The directory lists itself and one file. -/
def listingFs : FileSys where
  bootBlock := ⟨2, 2, 0, fun i =>
    if i = 0 then ⟨storeBytes [0x2E] fun _ => 0, 1, 0, fun _ => 0⟩
    else ⟨storeBytes [0x61] fun _ => 0, 2, 0, fun _ => 0⟩⟩
  inodes _ := ⟨0, fun _ => 0⟩
  blocks _ _ := 0

def listingStart : Scans := ⟨fun _ => samplePcb false, idleDevices, fun _ _ => 0, 0⟩

def openDot (pid : Int) : ScanEvent := .open pid (some (storeBytes [0x2E] fun _ => 0))

-- One process lists the directory to its end, then another does.
theorem directory_reads_in_order_listing :
    Along (scanStep sampleLayout listingFs) (ReadsOwnEntry sampleLayout listingFs) listingStart
      [openDot 0, .read 0 2 false 32, .read 0 2 false 32, openDot 1, .read 0 2 false 32,
        .read 1 2 false 32, .close 0 2, .read 1 2 false 32, .read 1 2 false 32] := by
  apply (directory_reads_in_order sampleLayout listingFs (by decide) _ _ rfl _).mpr
  decide +kernel

-- The second descriptor's first read gets the second entry.
theorem directory_reads_out_of_order :
    ¬Along (scanStep sampleLayout listingFs) (ReadsOwnEntry sampleLayout listingFs) listingStart
      [openDot 0, openDot 0, .read 0 2 false 32, .read 0 3 false 32] := by
  have hstart : IndexCounts listingFs listingStart := rfl
  rw [hstart.along_iff (by decide)]
  decide +kernel

/-! ## What a read reveals -/

/-- The caller gets bytes of the entry's name and nothing behind it, and is told how many. -/
structure NameOnly (dentry : Dentry) (nbytes : Int) (r : CallResult) : Prop where
  bytes : ∃ n, n ≤ FNAME_MAX_LEN ∧ r.stored = (List.range n).map dentry.name
  count : r.ret = r.stored.length
  bound : r.ret ≤ min nbytes FNAME_MAX_LEN

theorem dirRead_delivers {nbytes : Int} {pcb : Pcb} {dev : Devices} {dentry : Dentry}
    (hentry : readDentryByIndex fs.bootBlock dev.drIndex = some dentry) :
    (dirRead fs nbytes pcb dev).ret = nbytes ∧
      (dirRead fs nbytes pcb dev).stored = copyBuf (dentry.bytes dev.stack) nbytes.toNat := by
  simp only [dirRead, hentry, and_self]

/-- The copy stops where the caller wants it to and not where the name ends, so it stays inside
the name exactly for the sizes up to that of the field. -/
theorem dir_read_name_only_iff (fs : FileSys) (nbytes : Int) (pcb : Pcb) (dev : Devices)
    (dentry : Dentry) (hsize : 0 ≤ nbytes)
    (hentry : readDentryByIndex fs.bootBlock dev.drIndex = some dentry) :
    NameOnly dentry nbytes (dirRead fs nbytes pcb dev) ↔ nbytes ≤ 32 := by
  obtain ⟨hret, hstored⟩ := @dirRead_delivers fs nbytes pcb dev dentry hentry
  have hmax : FNAME_MAX_LEN = 32 := rfl
  constructor
  · intro h
    have hbound := h.bound
    rw [hret, hmax] at hbound
    omega
  · intro hle
    refine ⟨⟨nbytes.toNat, by omega, ?_⟩, ?_, ?_⟩
    · have hname := dentryBytes_take dentry dev.stack nbytes.toNat
      rw [show min FNAME_MAX_LEN nbytes.toNat = nbytes.toNat by omega] at hname
      rw [hstored, ← hname, List.take_of_length_le]
      simp only [copyBuf, List.length_map, List.length_range]
      omega
    · rw [hret, hstored, copyBuf, List.length_map, List.length_range]
      omega
    · rw [hret, hmax]
      omega

theorem dir_read_name_only_listing :
    readDentryByIndex listingFs.bootBlock idleDevices.drIndex =
        some (listingFs.bootBlock.dentries 0) ∧
      NameOnly (listingFs.bootBlock.dentries 0) 32
        (dirRead listingFs 32 (samplePcb false) idleDevices) := by
  have hentry : readDentryByIndex listingFs.bootBlock idleDevices.drIndex =
      some (listingFs.bootBlock.dentries 0) := rfl
  exact ⟨hentry, (dir_read_name_only_iff _ _ _ _ _ (by decide) hentry).mpr (by decide)⟩

/-- With room for 40 bytes the type and the inode number follow the name. -/
theorem dir_read_reveals_type :
    (dirRead listingFs 40 (samplePcb false) idleDevices).stored.drop 32 =
        [1, 0, 0, 0, 0, 0, 0, 0] ∧
      ¬NameOnly (listingFs.bootBlock.dentries 0) 40
        (dirRead listingFs 40 (samplePcb false) idleDevices) := by
  constructor
  · decide +kernel
  · intro h
    exact absurd h.bound (by decide)

end Kernel391
