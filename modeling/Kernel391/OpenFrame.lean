import Kernel391.FileSyscalls
import Kernel391.FilesysLookup

/-!
# What `open` writes

The name of a regular file goes into the last field of the descriptor record, with a
terminating NUL.  A name of the full 32 bytes leaves no room for the NUL, which lands on the
first byte after the record: the low byte of the next record's `fops`, or the first byte of the
argument buffer.
-/

namespace Kernel391

/-- Every byte of the control block outside record `fd` is the same in both. -/
def SlotFrame (fd : Nat) (pcb pcb' : Pcb) : Prop :=
  ∀ o, o < Pcb.SIZE → o / FD_SIZE ≠ fd → pcb'.peek o = pcb.peek o

-- The copy loop, `n` bytes to consecutive offsets.
theorem peek_pokeLoop (src : CStr) (base : Nat) (pcb : Pcb) (n : Nat) (hn : base + n ≤ 512)
    (o : Nat) :
    ((List.range n).foldl (fun p i => p.poke (base + i) (src i)) pcb).peek o =
      if base ≤ o ∧ o < base + n then src (o - base) else pcb.peek o := by
  induction n with
  | zero => rw [if_neg (by omega)]; rfl
  | succ n ih =>
    rw [List.range_succ, List.foldl_append, List.foldl_cons, List.foldl_nil,
      Pcb.peek_poke _ _ (by omega)]
    by_cases ho : o = base + n
    · rw [if_pos ho, if_pos (by omega), ho, Nat.add_sub_cancel_left]
    · rw [if_neg ho, ih (by omega)]
      congr 1
      apply propext
      omega

theorem peek_copyName (fd : Nat) (hfd : fd < FILE_ARRAY_LEN) {name : CStr} {n : Nat}
    (hname : IsCStr name n) (hn : n ≤ 32) (pcb : Pcb) (o : Nat) :
    (copyString (pokeName fd) name pcb).peek o =
      if o = 48 * fd + 16 + n then 0
      else if 48 * fd + 16 ≤ o ∧ o < 48 * fd + 16 + n then name (o - (48 * fd + 16))
      else pcb.peek o := by
  have hfd8 : fd < 8 := hfd
  have hoff : ∀ i : Nat, (48 * (fd : Int) + 16 + i).toNat = 48 * fd + 16 + i := by
    intro i
    omega
  unfold copyString
  rw [stringLength_eq hname (by omega)]
  simp only [pokeName, hoff, Int.toNat_natCast]
  rw [Pcb.peek_poke _ _ (by omega), peek_pokeLoop _ _ _ _ (by omega)]

variable (lay : FopsLayout) (fs : FileSys)

-- Outside the record only the byte right after it can change, and only to NUL.
theorem peek_openedPcb {fd : Nat} (hfd : fd < FILE_ARRAY_LEN) {name : CStr} {n : Nat}
    (hname : IsCStr name n) (hn : n ≤ 32) (dentry : Dentry) (pcb : Pcb) {o : Nat}
    (ho : o / FD_SIZE ≠ fd) :
    (openedPcb lay pokeName fd .fsys name dentry pcb).peek o =
      if n = 32 ∧ o = 48 * fd + 48 then 0 else pcb.peek o := by
  have hout : ¬(48 * fd ≤ o ∧ o < 48 * fd + 48) := by
    intro h
    apply ho
    change o / 48 = fd
    omega
  unfold openedPcb
  rw [if_pos rfl, peek_copyName fd hfd hname hn, Pcb.peek_setFd,
    if_neg (fun h : o < 384 ∧ o / FD_SIZE = fd => ho h.2)]
  by_cases hlast : o = 48 * fd + 16 + n
  · rw [if_pos hlast, if_pos (by omega)]
  · rw [if_neg hlast, if_neg (by omega), if_neg (by omega)]

/-- What a successful open of a regular file has found and done. -/
theorem sysOpen_file {pcb pcb' : Pcb} {name : CStr} {fd : Int} {dentry : Dentry}
    (hfound : (readDentryByName fs.bootBlock (some name)).found = some dentry)
    (hreg : dentry.fileType = 2) (hopen : sysOpen lay fs pokeName (some name) pcb = (fd, pcb'))
    (hok : fd ≠ -1) :
    ∃ slot : Nat, fd = slot ∧ 2 ≤ slot ∧ slot < 8 ∧ stringLength (some name) ≤ 32 ∧
      pcb' = openedPcb lay pokeName slot .fsys name dentry pcb := by
  rcases sysOpen_cases lay fs pokeName (some name) pcb with
    ⟨slot, name', dentry', d, hsome, hlen, hfree, hfound', hdrv, heq⟩ | ⟨-, heq⟩
  · cases hsome
    rw [hfound'] at hfound
    cases hfound
    rw [hopen] at heq
    cases heq
    have hd : d = .fsys := by
      rw [hreg] at hdrv
      exact (Option.some.inj hdrv).symm
    subst hd
    obtain ⟨-, hlo, hhi, -⟩ := freeSlot_eq_some.mp hfree
    exact ⟨slot, rfl, hlo, hhi, hlen, rfl⟩
  · rw [hopen] at heq
    cases heq
    exact absurd rfl hok

/-- A successful open of a regular file writes only its own record, except when the name fills
the field and the byte after the record is not already NUL. -/
theorem open_frame_iff (pcb pcb' : Pcb) (name : CStr) (n : Nat) (fd : Int) (dentry : Dentry)
    (hname : IsCStr name n) (hn : n ≤ 32)
    (hfound : (readDentryByName fs.bootBlock (some name)).found = some dentry)
    (hreg : dentry.fileType = 2) (hopen : sysOpen lay fs pokeName (some name) pcb = (fd, pcb'))
    (hok : fd ≠ -1) :
    SlotFrame fd.toNat pcb pcb' ↔ n < 32 ∨ pcb.peek (48 * fd.toNat + 48) = 0 := by
  obtain ⟨slot, rfl, -, hslot, -, rfl⟩ := sysOpen_file lay fs hfound hreg hopen hok
  have hpeek : ∀ o, o / FD_SIZE ≠ slot →
      (openedPcb lay pokeName slot .fsys name dentry pcb).peek o =
        if n = 32 ∧ o = 48 * slot + 48 then 0 else pcb.peek o :=
    fun o ho => peek_openedPcb lay hslot hname hn dentry pcb ho
  rw [Int.toNat_natCast]
  constructor
  · intro hframe
    by_cases hlt : n < 32
    · exact .inl hlt
    · right
      have hnext : (48 * slot + 48) / FD_SIZE ≠ slot := by
        change (48 * slot + 48) / 48 ≠ slot
        omega
      rw [← hframe (48 * slot + 48) (by change _ < 528; omega) hnext, hpeek _ hnext,
        if_pos ⟨by omega, rfl⟩]
  · intro hcond o hsize ho
    rw [hpeek o ho]
    by_cases hbyte : n = 32 ∧ o = 48 * slot + 48
    · rw [if_pos hbyte, hbyte.2]
      exact (hcond.resolve_left (by omega)).symm
    · rw [if_neg hbyte]

/-! ## The shortest overrun -/

/-- `n` copies of the letter a. -/
def letters (n : Nat) : CStr := fun i => if i < n then 0x61 else 0

theorem isCStr_letters (n : Nat) : IsCStr (letters n) n := by
  refine ⟨if_neg (Nat.lt_irrefl n), ?_⟩
  intro j hj
  have hletter : letters n j = 0x61 := if_pos hj
  rw [hletter]
  decide

/-- An image with one regular file, whose name has no room for a NUL. -/
def fullNameFs : FileSys where
  bootBlock := ⟨1, 1, 0, fun _ => ⟨letters 32, 2, 0, fun _ => 0⟩⟩
  inodes _ := ⟨0, fun _ => 0⟩
  blocks _ _ := 0

/-- A process with the two terminal descriptors, and with slot 3 open on the directory if
`dir` holds. -/
def samplePcb (dir : Bool) : Pcb where
  fileArray i :=
    ⟨if i < 2 then sampleLayout.addr .terminal
      else if i = 3 ∧ dir then sampleLayout.addr .dir else 0,
      0, 0, if i < 2 ∨ (i = 3 ∧ dir) then 1 else 0, fun _ => 0⟩
  argBuffer _ := 0
  pId := 1
  parPId := 0
  esp := 0
  ebp := 0

theorem samplePcb_open (dir : Bool) :
    sysOpen sampleLayout fullNameFs pokeName (some (letters 32)) (samplePcb dir) =
      (2, openedPcb sampleLayout pokeName 2 .fsys (letters 32) (fullNameFs.bootBlock.dentries 0)
        (samplePcb dir)) := by
  have hlen : stringLength (some (letters 32)) ≤ 32 := by
    rw [stringLength_eq (isCStr_letters 32) (by decide)]
    decide
  have hfree : freeSlot (samplePcb dir) = some 2 := by cases dir <;> decide
  have hfound : (readDentryByName fullNameFs.bootBlock (some (letters 32))).found =
      some (fullNameFs.bootBlock.dentries 0) := rfl
  exact sysOpen_eq sampleLayout fullNameFs pokeName hlen hfree hfound rfl

/-- After two directories were opened and the first one closed, opening the full-length name
into slot 2 clears the low byte of slot 3's `fops`. -/
theorem open_overruns_slot :
    (sysOpen sampleLayout fullNameFs pokeName (some (letters 32)) (samplePcb true)).1 = 2 ∧
      ¬SlotFrame 2 (samplePcb true)
        (sysOpen sampleLayout fullNameFs pokeName (some (letters 32)) (samplePcb true)).2 := by
  rw [samplePcb_open]
  refine ⟨rfl, ?_⟩
  intro hframe
  have hbyte := hframe 144 (by decide) (by decide)
  rw [peek_openedPcb sampleLayout (by decide) (isCStr_letters 32) (by decide) _ _ (by decide)] at hbyte
  revert hbyte
  decide

/-- With slot 3 closed the byte is already NUL and the same open writes its own record only. -/
theorem open_frame_closed_next : SlotFrame 2 (samplePcb false)
    (sysOpen sampleLayout fullNameFs pokeName (some (letters 32)) (samplePcb false)).2 := by
  have hret : (sysOpen sampleLayout fullNameFs pokeName (some (letters 32)) (samplePcb false)).1 =
      2 := by rw [samplePcb_open]
  have hframe := open_frame_iff sampleLayout fullNameFs (samplePcb false) _ (letters 32) 32 2
    (fullNameFs.bootBlock.dentries 0) (isCStr_letters 32) (by decide) rfl rfl (Prod.ext hret rfl)
    (by decide)
  exact hframe.mpr (.inr (by decide))

end Kernel391
