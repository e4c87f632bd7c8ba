import Kernel391.FilesysSafety

/-!
# Reads that fail

`file_read` adds to the position whatever `read_data` returns.  A descriptor can be open on an
inode number that `read_data` refuses, since `open` takes the number from the directory as it is.
-/

namespace Kernel391

open Machine

/-- A call of `read` on the descriptor, with the devices as it finds them. -/
structure ReadCall where
  null : Bool
  nbytes : Int
  dev : Devices

-- The arguments `read` itself turns down, before any driver is asked.
def ReadCall.Refused (c : ReadCall) : Prop := c.null = true ∨ c.nbytes < 0

variable (lay : FopsLayout) (fs : FileSys) (fd : Nat)

def readStep (pcb : Pcb) (c : ReadCall) : Option Pcb :=
  (sysRead lay fs fd c.null c.nbytes pcb c.dev).map CallResult.pcb

/-- The call returns.  When it returns `-1` it has left the position and the buffer alone, and in
any case the position has moved by the bytes stored, without wrapping around, and is still inside
the file. -/
def FailureMovesNothing (inode : Inode) (pcb : Pcb) (c : ReadCall) : Prop :=
  ∃ r, sysRead lay fs fd c.null c.nbytes pcb c.dev = some r ∧
    (r.ret = -1 → (r.pcb.fileArray fd).pos = (pcb.fileArray fd).pos ∧ r.stored = []) ∧
    (r.pcb.fileArray fd).pos.toNat = (pcb.fileArray fd).pos.toNat + r.stored.length ∧
    (r.pcb.fileArray fd).pos.toNat ≤ inode.length.toNat

/-- The descriptor is open on the inode, at a position inside the file. -/
def InsideFile (index : BitVec 32) (pcb : Pcb) : Prop :=
  ∃ pos, FileSlot lay index pos (pcb.fileArray fd) ∧ pos ≤ (fs.inodes index.toNat).length.toNat

variable {lay fs fd} {index : BitVec 32} {pcb : Pcb} {c : ReadCall}

/-! ## One call -/

theorem sysRead_refused (h : c.Refused) :
    sysRead lay fs fd c.null c.nbytes pcb c.dev = some ⟨-1, [], pcb, c.dev⟩ := by
  unfold sysRead
  rw [if_pos]
  exact h.elim .inl fun hneg => .inr (.inr (.inr (.inr hneg)))

theorem sysRead_passed (hfd : 2 ≤ fd ∧ fd < 8) (h : ¬c.Refused) {pos : Nat}
    (hslot : FileSlot lay index pos (pcb.fileArray fd)) :
    sysRead lay fs fd c.null c.nbytes pcb c.dev = some (fileRead fs fd c.nbytes pcb c.dev) := by
  obtain ⟨hnull, hneg⟩ := not_or.mp h
  rw [Bool.not_eq_true] at hnull
  rw [hnull]
  exact sysRead_file hfd hslot (by omega) c.dev

-- The inode is missing: the position moves by the error code.
theorem fileRead_missing {pos : Nat} (hindex : ¬index < fs.bootBlock.inodeCount)
    (hslot : FileSlot lay index pos (pcb.fileArray fd)) (nbytes : Int) (dev : Devices) :
    fileRead fs fd nbytes pcb dev =
      ⟨-1, [], pcb.setFd fd { pcb.fileArray fd with pos := (pcb.fileArray fd).pos - 1 }, dev⟩ := by
  have hnone : readData fs (pcb.fileArray fd).inode.toNat (pcb.fileArray fd).pos.toNat false
      nbytes.toNat = none := by
    rw [hslot.inode]
    exact readData_none (.inl (BitVec.le_def.mp (BitVec.not_lt.mp hindex))) _ _
  simp only [fileRead, hnone]

/-- A refused call, or one on an inode that exists, keeps the contract and stays inside. -/
theorem InsideFile.read (hfd : 2 ≤ fd ∧ fd < 8) (h : InsideFile lay fs fd index pcb)
    (hok : index < fs.bootBlock.inodeCount ∨ c.Refused) :
    FailureMovesNothing lay fs fd (fs.inodes index.toNat) pcb c ∧
      ∃ pcb', readStep lay fs fd pcb c = some pcb' ∧ InsideFile lay fs fd index pcb' := by
  obtain ⟨pos, hslot, hpos⟩ := h
  have hposNat := hslot.pos
  by_cases href : c.Refused
  · have hread := @sysRead_refused lay fs fd pcb c href
    constructor
    · refine ⟨_, hread, fun _ => ⟨rfl, rfl⟩, rfl, ?_⟩
      rw [hposNat]
      exact hpos
    · refine ⟨pcb, ?_, pos, hslot, hpos⟩
      rw [readStep, hread, Option.map_some]
  · have hindex := hok.resolve_right href
    have hread := @sysRead_passed lay fs fd index pcb c hfd href pos hslot
    rw [fileRead_slot hindex hslot hpos c.nbytes c.dev] at hread
    generalize hdata : ((contents fs (fs.inodes index.toNat)).drop pos).take c.nbytes.toNat = data
      at hread
    have hsize : pos + data.length ≤ (fs.inodes index.toNat).length.toNat := by
      rw [← hdata, List.length_take, List.length_drop, length_contents]
      omega
    have hnext : ((pcb.fileArray fd).pos + BitVec.ofNat 32 data.length).toNat =
        pos + data.length := by
      rw [@advanced_pos _ _ (fs.inodes index.toNat) (by omega), hposNat]
    have hset : ∀ f, (pcb.setFd fd f).fileArray fd = f := by
      intro f
      rw [Pcb.setFd_fileArray, if_pos rfl]
    constructor
    · refine ⟨_, hread, ?_, ?_, ?_⟩
      · intro hfail
        have hlen : (data.length : Int) = -1 := hfail
        omega
      · show (Pcb.fileArray (pcb.setFd fd _) fd).pos.toNat = _
        rw [hset, hnext, hposNat]
      · show (Pcb.fileArray (pcb.setFd fd _) fd).pos.toNat ≤ _
        rw [hset, hnext]
        exact hsize
    · refine ⟨_, by rw [readStep, hread, Option.map_some], pos + data.length, ?_, hsize⟩
      rw [hset]
      exact ⟨hslot.fops, hslot.inode, hnext, hslot.flags⟩

/-- On a missing inode every call that reaches the driver moves the position. -/
theorem InsideFile.read_missing (hfd : 2 ≤ fd ∧ fd < 8) (h : InsideFile lay fs fd index pcb)
    (hindex : ¬index < fs.bootBlock.inodeCount) (href : ¬c.Refused) :
    ¬FailureMovesNothing lay fs fd (fs.inodes index.toNat) pcb c := by
  obtain ⟨pos, hslot, -⟩ := h
  rintro ⟨r, hr, hfail, -⟩
  rw [sysRead_passed hfd href hslot, fileRead_missing hindex hslot] at hr
  cases hr
  obtain ⟨hpos, -⟩ := hfail rfl
  rw [Pcb.setFd_fileArray, if_pos rfl] at hpos
  change (pcb.fileArray fd).pos - 1 = (pcb.fileArray fd).pos at hpos
  bv_omega

/-! ## Sequences of calls -/

/-- On a descriptor that has just been opened, failed reads move nothing exactly when the inode
exists or no call gets as far as the driver. -/
theorem failed_reads_move_nothing (lay : FopsLayout) (fs : FileSys) (pcb₀ pcb : Pcb) (name : CStr)
    (fd : Nat) (dentry : Dentry)
    (hfound : (readDentryByName fs.bootBlock (some name)).found = some dentry)
    (hreg : dentry.fileType = 2)
    (hopen : sysOpen lay fs pokeName (some name) pcb₀ = ((fd : Int), pcb))
    (calls : List ReadCall) :
    Along (readStep lay fs fd)
        (FailureMovesNothing lay fs fd (fs.inodes dentry.inodeIndex.toNat)) pcb calls ↔
      dentry.inodeIndex < fs.bootBlock.inodeCount ∨ ∀ c ∈ calls, c.Refused := by
  obtain ⟨slot, hfd, hlo, hhi, hlen, rfl⟩ := sysOpen_file lay fs hfound hreg hopen (by omega)
  obtain rfl : fd = slot := by omega
  have hstart : InsideFile lay fs fd dentry.inodeIndex
      (openedPcb lay pokeName fd .fsys name dentry pcb₀) :=
    ⟨0, fileSlot_openedPcb hhi hlen dentry pcb₀, Nat.zero_le _⟩
  have hstep : ∀ p (c : ReadCall), InsideFile lay fs fd dentry.inodeIndex p →
      dentry.inodeIndex < fs.bootBlock.inodeCount ∨ c.Refused →
      ∃ p', readStep lay fs fd p c = some p' ∧ InsideFile lay fs fd dentry.inodeIndex p' :=
    fun p c hin hok => (hin.read ⟨hlo, hhi⟩ hok).2
  have halong := @along_iff_of_invariant _ _ (readStep lay fs fd)
    (InsideFile lay fs fd dentry.inodeIndex)
    (fun _ c => dentry.inodeIndex < fs.bootBlock.inodeCount ∨ c.Refused)
    (FailureMovesNothing lay fs fd (fs.inodes dentry.inodeIndex.toNat))
    (fun p c p' hin hok hp => by
      obtain ⟨q, hq, hinside⟩ := hstep p c hin hok
      rw [hp] at hq
      cases hq
      exact hinside)
    (fun p c hin => by
      constructor
      · intro hmoves
        by_contra hbad
        obtain ⟨hindex, href⟩ := not_or.mp hbad
        exact hin.read_missing ⟨hlo, hhi⟩ hindex href hmoves
      · intro hok
        exact (hin.read ⟨hlo, hhi⟩ hok).1)
    _ calls hstart
  rw [halong]
  constructor
  · intro h
    by_cases hindex : dentry.inodeIndex < fs.bootBlock.inodeCount
    · exact .inl hindex
    · right
      intro c hc
      exact (forall_of_along hstep hstart h c hc).resolve_left hindex
  · intro h
    apply along_of_forall
    intro c hc
    exact h.imp_right fun hall => hall c hc

/-- Reading the note, with a call in between that is turned down. -/
theorem failed_reads_move_nothing_note :
    sysOpen sampleLayout noteFs pokeName (some (nameBytes ['n', 'o', 't', 'e'])) (samplePcb true) =
        (2, notePcb) ∧
      Along (readStep sampleLayout noteFs 2)
        (FailureMovesNothing sampleLayout noteFs 2 (noteFs.inodes 0)) notePcb
        [⟨false, 2, idleDevices⟩, ⟨true, 2, idleDevices⟩, ⟨false, 10, idleDevices⟩] := by
  have hnote : sysOpen sampleLayout noteFs pokeName (some (nameBytes ['n', 'o', 't', 'e']))
      (samplePcb true) = (2, notePcb) := Prod.ext (congrArg Prod.fst sysOpen_note) rfl
  refine ⟨hnote, ?_⟩
  exact (failed_reads_move_nothing sampleLayout noteFs (samplePcb true) notePcb
    (nameBytes ['n', 'o', 't', 'e']) 2 (noteFs.bootBlock.dentries 0) rfl rfl hnote _).mpr
    (.inl (by decide))

def strayPcb : Pcb :=
  (sysOpen sampleLayout strayFs pokeName (some (nameBytes ['a'])) (samplePcb true)).2

/-- One read of the entry that names a missing inode leaves the position just below `2 ^ 32`. -/
theorem failed_read_wraps :
    (readStep sampleLayout strayFs 2 strayPcb ⟨false, 1, idleDevices⟩).map
        (fun pcb => (pcb.fileArray 2).pos) = some 0xFFFFFFFF ∧
      ¬Along (readStep sampleLayout strayFs 2)
        (FailureMovesNothing sampleLayout strayFs 2 (strayFs.inodes 5)) strayPcb
        [⟨false, 1, idleDevices⟩] := by
  have hlen : stringLength (some (nameBytes ['a'])) ≤ 32 := by
    rw [@stringLength_eq _ 1 ⟨by decide, by decide⟩ (by decide)]
    decide
  have hfree : freeSlot (samplePcb true) = some 2 := by decide
  have hopen := sysOpen_eq sampleLayout strayFs pokeName hlen hfree rfl rfl
  have hpcb : strayPcb = openedPcb sampleLayout pokeName 2 .fsys (nameBytes ['a'])
      (strayFs.bootBlock.dentries 0) (samplePcb true) := by
    unfold strayPcb
    rw [hopen]
  have hslot := @fileSlot_openedPcb sampleLayout 2 (by decide) _ hlen
    (strayFs.bootBlock.dentries 0) (samplePcb true)
  rw [← hpcb] at hslot
  have hmissing : ¬(5 : BitVec 32) < strayFs.bootBlock.inodeCount := by decide
  have hinside : InsideFile sampleLayout strayFs 2 5 strayPcb := ⟨0, hslot, Nat.zero_le _⟩
  have hpasses : ¬ReadCall.Refused ⟨false, 1, idleDevices⟩ := by
    show ¬(false = true ∨ (1 : Int) < 0)
    decide
  constructor
  · have hzero : (strayPcb.fileArray 2).pos = 0 := BitVec.eq_of_toNat_eq hslot.pos
    rw [readStep, sysRead_passed (by decide) hpasses hslot, fileRead_missing hmissing hslot]
    show some (Pcb.fileArray (strayPcb.setFd 2 _) 2).pos = _
    rw [Pcb.setFd_fileArray, if_pos rfl, hzero]
    decide
  · intro h
    exact hinside.read_missing (by decide) hmissing hpasses h.1

end Kernel391
