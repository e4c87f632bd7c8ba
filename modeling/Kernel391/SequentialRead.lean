import Kernel391.OpenFrame
import Kernel391.FilesysLookup
import Kernel391.Lib.Run

/-!
# Reading a file piece by piece

However a file is split into `read` calls, and whatever happens on other descriptors in
between, the pieces delivered are consecutive and start at the beginning.
-/

namespace Kernel391

open Machine

/-- An image a file system builder would write: directory entries name existing inodes, a file
fits its block table and the blocks in use exist.  The entries are those the directory lists and
those that `read_dentry_by_name` looks at, which are as many as there are inodes. -/
structure WellFormed (fs : FileSys) : Prop where
  inodes : ∀ i, i < fs.bootBlock.dentryCount.toNat ∨ i < fs.bootBlock.inodeCount.toNat →
    (fs.bootBlock.dentries i).inodeIndex.toNat < fs.bootBlock.inodeCount.toNat
  lengths : ∀ k, k < fs.bootBlock.inodeCount.toNat → (fs.inodes k).length.toNat ≤ 1023 * 4096
  blocks : ∀ k, k < fs.bootBlock.inodeCount.toNat → ∀ j, 4096 * j < (fs.inodes k).length.toNat →
    ((fs.inodes k).dataIndices j).toNat < fs.bootBlock.dataCount.toNat

/-- The bytes of a file, block after block. -/
def contents (fs : FileSys) (inode : Inode) : List UInt8 :=
  (List.range inode.length.toNat).map fun p =>
    fs.blocks (inode.dataIndices (p / 4096)).toNat (p % 4096)

theorem length_contents (fs : FileSys) (inode : Inode) :
    (contents fs inode).length = inode.length.toNat := by
  unfold contents
  rw [List.length_map, List.length_range]

theorem byteAt_eq (fs : FileSys) (inode : Inode) {p : Nat} (hp : p < (contents fs inode).length) :
    inode.byteAt fs p = (contents fs inode)[p] := by
  simp only [Inode.byteAt, contents, List.getElem_map, List.getElem_range]
  rw [Nat.shiftRight_eq_div_pow, show (0xFFF : Nat) = 2 ^ 12 - 1 by rfl,
    Nat.and_two_pow_sub_one_eq_mod]

-- The copy loop delivers consecutive bytes; the induction is on the iterations left.
theorem readLoop_eq (fs : FileSys) (inode : Inode) (offset : Nat) :
    ∀ k byteCount, byteCount + offset ≤ inode.length.toNat →
      readLoop fs inode offset k byteCount =
        ((contents fs inode).drop (byteCount + offset)).take k
  | 0, _, _ => by
      rw [List.take_zero]
      rfl
  | k + 1, byteCount, hle => by
      have hlen := length_contents fs inode
      have hmod : (byteCount + offset) % 2 ^ 32 = byteCount + offset := by
        have := inode.length.isLt
        omega
      unfold readLoop
      simp only [hmod]
      by_cases hlt : byteCount + offset < inode.length.toNat
      · have hpos : byteCount + offset < (contents fs inode).length := hlen ▸ hlt
        rw [if_pos hlt, readLoop_eq fs inode offset k (byteCount + 1) (by omega),
          List.drop_eq_getElem_cons hpos, List.take_succ_cons, byteAt_eq fs inode hpos,
          show byteCount + 1 + offset = byteCount + offset + 1 by omega]
      · rw [if_neg hlt, List.drop_of_length_le (by omega), List.take_nil]

theorem readData_eq {fs : FileSys} {inodeI offset : Nat}
    (hinode : inodeI < fs.bootBlock.inodeCount.toNat)
    (hoff : offset ≤ (fs.inodes inodeI).length.toNat) (n : Nat) :
    readData fs inodeI offset false n =
      some (((contents fs (fs.inodes inodeI)).drop offset).take n) := by
  unfold readData
  rw [if_neg (by omega), if_neg (by decide), readLoop_eq fs _ offset n 0 (by omega), Nat.zero_add]

/-! ## The slot after `open` -/

/-- Slot `fd` is an open regular file with the given inode number and position. -/
structure FileSlot (lay : FopsLayout) (inode : BitVec 32) (pos : Nat) (f : FdT) : Prop where
  fops : f.fops = lay.addr .fsys
  inode : f.inode = inode
  pos : f.pos.toNat = pos
  flags : f.flags = 1

variable {lay : FopsLayout} {fs : FileSys}

-- A name byte never reaches the words of its own record.
theorem FileSlot.pokeName {inode : BitVec 32} {pos fd : Nat} {pcb : Pcb} (hfd : fd < 8) (i : Nat)
    (hi : i ≤ 32) (b : UInt8) (h : FileSlot lay inode pos (pcb.fileArray fd)) :
    FileSlot lay inode pos ((pokeName fd i b pcb).fileArray fd) := by
  have hoff : (48 * (fd : Int) + 16 + i).toNat = 48 * fd + 16 + i := by omega
  unfold Kernel391.pokeName Pcb.poke
  rw [hoff]
  by_cases hin : i < 32
  · have hslot : (48 * fd + 16 + i) / FD_SIZE = fd := by
      change (48 * fd + 16 + i) / 48 = fd
      omega
    have hmod : (48 * fd + 16 + i) % FD_SIZE = 16 + i := by
      change (48 * fd + 16 + i) % 48 = 16 + i
      omega
    rw [if_pos (by omega), Pcb.setFd_fileArray, hslot, if_pos rfl, hmod]
    unfold FdT.poke
    rw [if_neg (by omega)]
    exact ⟨h.fops, h.inode, h.pos, h.flags⟩
  · by_cases hnext : 48 * fd + 16 + i < 384
    · rw [if_pos hnext, Pcb.setFd_fileArray, if_neg]
      · exact h
      · change fd ≠ (48 * fd + 16 + i) / 48
        omega
    · rw [if_neg hnext, if_pos (by omega)]
      exact h

-- An overlong name stores only its terminator, into the top byte of `flags`, which is 0 already.
theorem FileSlot.pokeTerminator {inode : BitVec 32} {pos fd : Nat} {pcb : Pcb} (hfd : fd < 8)
    (h : FileSlot lay inode pos (pcb.fileArray fd)) :
    FileSlot lay inode pos ((Kernel391.pokeName fd (-1) 0 pcb).fileArray fd) := by
  have hoff : (48 * (fd : Int) + 16 + -1).toNat = 48 * fd + 15 := by omega
  have hdiv : (48 * fd + 15) / FD_SIZE = fd := by
    change (48 * fd + 15) / 48 = fd
    omega
  have hmod : (48 * fd + 15) % FD_SIZE = 15 := by
    change (48 * fd + 15) % 48 = 15
    omega
  unfold Kernel391.pokeName Pcb.poke
  rw [hoff, if_pos (by omega), Pcb.setFd_fileArray, hdiv, if_pos rfl, hmod]
  refine ⟨h.fops, h.inode, h.pos, ?_⟩
  change setWordByte 15 0 (pcb.fileArray fd).flags = 1
  rw [h.flags]
  decide

/-- Whatever name it was given, a successful `open` leaves its own slot ready to read. -/
theorem fileSlot_openedPcb {fd : Nat} (hfd : fd < 8) {name : CStr}
    (hlen : stringLength (some name) ≤ 32) (dentry : Dentry) (pcb : Pcb) :
    FileSlot lay dentry.inodeIndex 0
      ((openedPcb lay pokeName fd .fsys name dentry pcb).fileArray fd) := by
  have hslot : FileSlot lay dentry.inodeIndex 0
      ((pcb.setFd fd (openedFd lay .fsys dentry (pcb.fileArray fd))).fileArray fd) := by
    rw [Pcb.setFd_fileArray, if_pos rfl]
    exact ⟨rfl, rfl, rfl, rfl⟩
  unfold openedPcb
  rw [if_pos rfl]
  refine copyString_induct
    (P := fun p : Pcb => FileSlot lay dentry.inodeIndex 0 (p.fileArray fd)) ?_ hslot
  intro i b d hlo hhi hb h
  by_cases hneg : i = -1
  · rw [hneg, hb hneg]
    exact h.pokeTerminator hfd
  · rcases Int.eq_ofNat_of_zero_le (by omega : 0 ≤ i) with ⟨n, rfl⟩
    exact h.pokeName hfd n (by omega) b

/-! ## Sessions -/

/-- The state of a process reading from descriptor `fd`, with the bytes delivered through it and
the number of bytes asked for so far. -/
structure Session where
  pcb : Pcb
  delivered : List UInt8
  asked : Nat

/-- Take note of a completed call. -/
def Session.record (fd : Nat) (s : Session) (c : Call) (o : Outcome) : Session :=
  match c with
  | .read fd' _ nbytes _ =>
      if fd' = fd then ⟨o.pcb, s.delivered ++ o.stored, s.asked + nbytes.toNat⟩
      else ⟨o.pcb, s.delivered, s.asked⟩
  | _ => ⟨o.pcb, s.delivered, s.asked⟩

def sessionStep (lay : FopsLayout) (fs : FileSys) (fd : Nat) (s : Session) (c : Call) :
    Option Session :=
  (doCall lay fs pokeName s.pcb c).map (s.record fd c)

/-- Reads of `fd` into a buffer, and any reads, writes and closes of other descriptors. -/
def SessionCall (fd : Nat) : Call → Prop
  | .open _ => False
  | .read fd' null nbytes _ => fd' = fd → null = false ∧ 0 ≤ nbytes
  | .write fd' _ _ _ => fd' ≠ fd
  | .close fd' => fd' ≠ fd

/-- A read of `fd` returns, says how many bytes it stored, and stores none at the end. -/
def ReadContract (lay : FopsLayout) (fs : FileSys) (fd : Nat) (inode : Inode) (s : Session)
    (c : Call) : Prop :=
  ∀ null nbytes dev, c = .read fd null nbytes dev → ∃ o, doCall lay fs pokeName s.pcb c = some o ∧
    o.ret = o.stored.length ∧
    ((s.pcb.fileArray fd).pos.toNat = inode.length.toNat → o.ret = 0)

/-- The bytes delivered are the file's prefix of the length asked for, as far as it goes, and
`pos` counts them. -/
structure SessionOk (fs : FileSys) (fd : Nat) (inode : Inode) (s : Session) : Prop where
  delivered : s.delivered = (contents fs inode).take (min s.asked inode.length.toNat)
  pos : (s.pcb.fileArray fd).pos.toNat = s.delivered.length

structure SessionInv (lay : FopsLayout) (fs : FileSys) (fd : Nat) (index : BitVec 32)
    (s : Session) : Prop where
  slot : FileSlot lay index s.delivered.length (s.pcb.fileArray fd)
  ok : SessionOk fs fd (fs.inodes index.toNat) s

variable {fd : Nat} {index : BitVec 32}

-- Calls on another descriptor leave the slot alone.
theorem doCall_other_slot {pcb : Pcb} {c : Call} {o : Outcome} (hc : SessionCall fd c)
    (hnot : ∀ null nbytes dev, c ≠ .read fd null nbytes dev)
    (ho : doCall lay fs pokeName pcb c = some o) : o.pcb.fileArray fd = pcb.fileArray fd := by
  cases c with
  | «open» filename => exact hc.elim
  | read fd' null nbytes dev =>
    rcases Option.map_eq_some_iff.mp ho with ⟨r, hr, rfl⟩
    exact (sysRead_onlySlot hr).other fun he => hnot null nbytes dev (he ▸ rfl)
  | write fd' buf nbytes dev =>
    rcases Option.map_eq_some_iff.mp ho with ⟨r, hr, rfl⟩
    exact congrFun (congrArg Pcb.fileArray (sysWrite_pcb hr)) fd
  | close fd' =>
    rcases Option.map_eq_some_iff.mp ho with ⟨r, hr, rfl⟩
    exact (sysClose_onlySlot hr).other hc

-- A read of the descriptor itself that `read` lets pass reaches the driver.
theorem sysRead_file {pcb : Pcb} {pos : Nat} (hfd : 2 ≤ fd ∧ fd < 8)
    (hslot : FileSlot lay index pos (pcb.fileArray fd)) {nbytes : Int} (hn : 0 ≤ nbytes)
    (dev : Devices) :
    sysRead lay fs fd false nbytes pcb dev = some (fileRead fs fd nbytes pcb dev) := by
  have hmax : MAX_FD = 7 := rfl
  have hopen : (pcb.fileArray ((fd : Int).toNat)).flags ≠ 0 := by
    rw [Int.toNat_natCast, hslot.flags]
    decide
  have hdriver : lay.driverAt (pcb.fileArray ((fd : Int).toNat)).fops = some .fsys := by
    rw [Int.toNat_natCast, hslot.fops, FopsLayout.driverAt_addr]
  unfold sysRead
  rw [if_neg (by simp; omega), if_neg hopen, hdriver, Option.bind_some, Int.toNat_natCast]
  rfl

theorem fileRead_slot {pcb : Pcb} {pos : Nat}
    (hindex : index.toNat < fs.bootBlock.inodeCount.toNat)
    (hslot : FileSlot lay index pos (pcb.fileArray fd))
    (hpos : pos ≤ (fs.inodes index.toNat).length.toNat) (nbytes : Int) (dev : Devices) :
    let data := ((contents fs (fs.inodes index.toNat)).drop pos).take nbytes.toNat
    fileRead fs fd nbytes pcb dev =
      ⟨data.length, data, pcb.setFd fd
        { pcb.fileArray fd with pos := (pcb.fileArray fd).pos + BitVec.ofNat 32 data.length },
        dev⟩ := by
  simp only [fileRead, hslot.inode, hslot.pos, readData_eq hindex hpos nbytes.toNat]

-- A position inside the file does not wrap around.
theorem advanced_pos {pos : BitVec 32} {n : Nat} {inode : Inode}
    (h : pos.toNat + n ≤ inode.length.toNat) :
    (pos + BitVec.ofNat 32 n).toNat = pos.toNat + n := by
  have hbound := inode.length.isLt
  rw [BitVec.toNat_add, BitVec.toNat_ofNat]
  omega

-- A read of the descriptor itself, in full.
theorem doCall_read_slot {pcb : Pcb} {pos : Nat} (hfd : 2 ≤ fd ∧ fd < 8)
    (hindex : index.toNat < fs.bootBlock.inodeCount.toNat)
    (hslot : FileSlot lay index pos (pcb.fileArray fd))
    (hpos : pos ≤ (fs.inodes index.toNat).length.toNat) {nbytes : Int} (hn : 0 ≤ nbytes)
    (dev : Devices) :
    let data := ((contents fs (fs.inodes index.toNat)).drop pos).take nbytes.toNat
    doCall lay fs pokeName pcb (.read fd false nbytes dev) =
      some ⟨data.length, data, pcb.setFd fd
        { pcb.fileArray fd with pos := (pcb.fileArray fd).pos + BitVec.ofNat 32 data.length }⟩ := by
  simp only [doCall, sysRead_file hfd hslot hn dev, fileRead_slot hindex hslot hpos nbytes dev,
    Option.map_some, CallResult.outcome]

theorem delivered_length {s : Session} (hinv : SessionInv lay fs fd index s) :
    s.delivered.length = min s.asked (fs.inodes index.toNat).length.toNat := by
  rw [hinv.ok.delivered, List.length_take, length_contents, Nat.min_eq_left (Nat.min_le_right _ _)]

theorem session_read {s : Session} (hfd : 2 ≤ fd ∧ fd < 8)
    (hindex : index.toNat < fs.bootBlock.inodeCount.toNat)
    (hinv : SessionInv lay fs fd index s) {nbytes : Int} (hn : 0 ≤ nbytes) (dev : Devices) :
    ∃ o, doCall lay fs pokeName s.pcb (.read fd false nbytes dev) = some o ∧
      o.ret = o.stored.length ∧
      (s.delivered.length = (fs.inodes index.toNat).length.toNat → o.ret = 0) ∧
      SessionInv lay fs fd index (s.record fd (.read fd false nbytes dev) o) := by
  have hlen := delivered_length hinv
  have hcontents := length_contents fs (fs.inodes index.toNat)
  have hcall := doCall_read_slot hfd hindex hinv.slot (by omega) hn dev
  have hdelivered := hinv.ok.delivered
  generalize hdata : ((contents fs (fs.inodes index.toNat)).drop s.delivered.length).take
    nbytes.toNat = data at hcall
  have hsize : data.length =
      min nbytes.toNat ((fs.inodes index.toNat).length.toNat - s.delivered.length) := by
    rw [← hdata, List.length_take, List.length_drop, hcontents]
  refine ⟨_, hcall, rfl, ?_, ?_⟩
  · intro hend
    have hzero : data.length = 0 := by omega
    change (data.length : Int) = 0
    rw [hzero]
    rfl
  · -- the new bytes continue the prefix, and `pos` has moved by their number
    have hnext : s.delivered ++ data =
        (contents fs (fs.inodes index.toNat)).take
          (min (s.asked + nbytes.toNat) (fs.inodes index.toNat).length.toNat) := by
      rw [hdelivered, ← hlen, ← hdata, ← List.take_add]
      apply List.take_eq_take_iff.mpr
      omega
    have hpos : ((s.pcb.fileArray fd).pos + BitVec.ofNat 32 data.length).toNat =
        (s.delivered ++ data).length := by
      have hslot := hinv.slot.pos
      rw [@advanced_pos _ _ (fs.inodes index.toNat) (by omega), hslot, List.length_append]
    have hrecord : s.record fd (.read fd false nbytes dev) ⟨data.length, data, s.pcb.setFd fd
        { s.pcb.fileArray fd with
          pos := (s.pcb.fileArray fd).pos + BitVec.ofNat 32 data.length }⟩ =
        ⟨s.pcb.setFd fd { s.pcb.fileArray fd with
            pos := (s.pcb.fileArray fd).pos + BitVec.ofNat 32 data.length },
          s.delivered ++ data, s.asked + nbytes.toNat⟩ := if_pos rfl
    rw [hrecord]
    refine ⟨?_, hnext, ?_⟩
    · rw [Pcb.setFd_fileArray, if_pos rfl]
      exact ⟨hinv.slot.fops, hinv.slot.inode, hpos, hinv.slot.flags⟩
    · rw [Pcb.setFd_fileArray, if_pos rfl]
      exact hpos

theorem session_step {s s' : Session} {c : Call} (hfd : 2 ≤ fd ∧ fd < 8)
    (hindex : index.toNat < fs.bootBlock.inodeCount.toNat) (hc : SessionCall fd c)
    (hinv : SessionInv lay fs fd index s) (hstep : sessionStep lay fs fd s c = some s') :
    SessionInv lay fs fd index s' := by
  rcases Option.map_eq_some_iff.mp hstep with ⟨o, ho, rfl⟩
  by_cases hread : ∃ null nbytes dev, c = .read fd null nbytes dev
  · rcases hread with ⟨null, nbytes, dev, rfl⟩
    rcases hc rfl with ⟨rfl, hn⟩
    rcases session_read hfd hindex hinv hn dev with ⟨o', ho', -, -, hnext⟩
    rw [ho] at ho'
    cases ho'
    exact hnext
  · have hnot : ∀ null nbytes dev, c ≠ .read fd null nbytes dev :=
      fun null nbytes dev he => hread ⟨null, nbytes, dev, he⟩
    have hsame := doCall_other_slot hc hnot ho
    have hrecord : s.record fd c o = ⟨o.pcb, s.delivered, s.asked⟩ := by
      cases c with
      | read fd' null nbytes dev => exact if_neg fun he : fd' = fd => hnot null nbytes dev (he ▸ rfl)
      | _ => rfl
    rw [hrecord]
    exact ⟨hsame ▸ hinv.slot, hinv.ok.delivered, hsame ▸ hinv.ok.pos⟩

-- The entry found is one that the scan looks at.
theorem found_inode_lt (hwf : WellFormed fs) {name : CStr} {dentry : Dentry}
    (hfound : (readDentryByName fs.bootBlock (some name)).found = some dentry) :
    dentry.inodeIndex.toNat < fs.bootBlock.inodeCount.toNat := by
  have hne : name 0 ≠ 0 := by
    intro hz
    simp [readDentryByName, hz] at hfound
  rcases byName_cases fs.bootBlock hne with ⟨m, hm, -, -, hlook⟩ | ⟨-, hlook⟩
  · rw [hlook] at hfound
    cases hfound
    exact hwf.inodes m (.inr hm)
  · rw [hlook] at hfound
    cases hfound

/-- After a successful `open` of a regular file, every sequence of reads of it, mixed
with calls on other descriptors, reassembles the file. -/
theorem sequential_reads (lay : FopsLayout) (fs : FileSys) (hwf : WellFormed fs) (pcb₀ pcb : Pcb)
    (name : CStr) (fd : Nat) (dentry : Dentry)
    (hfound : (readDentryByName fs.bootBlock (some name)).found = some dentry)
    (hreg : dentry.fileType = 2)
    (hopen : sysOpen lay fs pokeName (some name) pcb₀ = ((fd : Int), pcb))
    (calls : List Call) (hcalls : ∀ c ∈ calls, SessionCall fd c) :
    Along (sessionStep lay fs fd) (ReadContract lay fs fd (fs.inodes dentry.inodeIndex.toNat))
        ⟨pcb, [], 0⟩ calls ∧
      ∀ s, run (sessionStep lay fs fd) ⟨pcb, [], 0⟩ calls = some s →
        SessionOk fs fd (fs.inodes dentry.inodeIndex.toNat) s := by
  have hindex := found_inode_lt hwf hfound
  have hok : (fd : Int) ≠ -1 := by omega
  obtain ⟨slot, hfd, hlo, hhi, hlen, rfl⟩ := sysOpen_file lay fs hfound hreg hopen hok
  obtain rfl : fd = slot := by omega
  have hslot : FileSlot lay dentry.inodeIndex 0
      ((openedPcb lay pokeName fd .fsys name dentry pcb₀).fileArray fd) :=
    fileSlot_openedPcb hhi hlen dentry pcb₀
  have hinit : SessionInv lay fs fd dentry.inodeIndex
      ⟨openedPcb lay pokeName fd .fsys name dentry pcb₀, [], 0⟩ :=
    ⟨hslot, by rw [Nat.zero_min, List.take_zero], hslot.pos⟩
  have hok : Along (sessionStep lay fs fd) (fun _ c => SessionCall fd c)
      ⟨openedPcb lay pokeName fd .fsys name dentry pcb₀, [], 0⟩ calls := along_of_forall hcalls
  have hstep : ∀ s c s', SessionInv lay fs fd dentry.inodeIndex s → SessionCall fd c →
      sessionStep lay fs fd s c = some s' → SessionInv lay fs fd dentry.inodeIndex s' :=
    fun s c s' hinv hc hs => session_step ⟨hlo, hhi⟩ hindex hc hinv hs
  refine ⟨along_of_invariant hstep ?_ hinit hok, ?_⟩
  · intro s c hinv hc null nbytes dev he
    subst he
    rcases hc rfl with ⟨rfl, hn⟩
    rcases session_read ⟨hlo, hhi⟩ hindex hinv hn dev with ⟨o, ho, hret, hend, -⟩
    refine ⟨o, ho, hret, fun hpos => hend ?_⟩
    rw [← hinv.ok.pos, hpos]
  · intro s hs
    exact (run_invariant hstep hinit hok hs).ok

/-! ## An image with one short file -/

def noteFs : FileSys where
  bootBlock := ⟨1, 1, 1, fun _ => ⟨nameBytes ['n', 'o', 't', 'e'], 2, 0, fun _ => 0⟩⟩
  inodes _ := ⟨5, fun _ => 0⟩
  blocks _ p := nameBytes ['h', 'e', 'l', 'l', 'o'] p

theorem noteFs_wellFormed : WellFormed noteFs :=
  ⟨fun _ _ => Nat.zero_lt_one, fun _ _ => show 5 ≤ 1023 * 4096 by decide,
    fun _ _ _ _ => Nat.zero_lt_one⟩

def noteCalls : List Call :=
  [.read 2 false 2 idleDevices, .close 3, .read 2 false 10 idleDevices]

def notePcb : Pcb :=
  (sysOpen sampleLayout noteFs pokeName (some (nameBytes ['n', 'o', 't', 'e'])) (samplePcb true)).2

theorem sysOpen_note :
    sysOpen sampleLayout noteFs pokeName (some (nameBytes ['n', 'o', 't', 'e'])) (samplePcb true) =
      (2, openedPcb sampleLayout pokeName 2 .fsys (nameBytes ['n', 'o', 't', 'e'])
        (noteFs.bootBlock.dentries 0) (samplePcb true)) := by
  have hstr : IsCStr (nameBytes ['n', 'o', 't', 'e']) 4 := ⟨by decide, by decide⟩
  have hlen : stringLength (some (nameBytes ['n', 'o', 't', 'e'])) ≤ 32 := by
    rw [stringLength_eq hstr (by decide)]
    decide
  have hfree : freeSlot (samplePcb true) = some 2 := by decide
  exact sysOpen_eq sampleLayout noteFs pokeName hlen hfree rfl rfl

/-- Reading the note two bytes and then ten bytes at a time. -/
theorem sequential_reads_note :
    ∃ s, run (sessionStep sampleLayout noteFs 2) ⟨notePcb, [], 0⟩ noteCalls = some s ∧
      s.delivered = [0x68, 0x65, 0x6C, 0x6C, 0x6F] ∧ SessionOk noteFs 2 (noteFs.inodes 0) s := by
  have hcalls : ∀ c ∈ noteCalls, SessionCall 2 c := by
    simp [noteCalls, SessionCall]
  have hreads := sequential_reads sampleLayout noteFs noteFs_wellFormed (samplePcb true) notePcb
    (nameBytes ['n', 'o', 't', 'e']) 2 (noteFs.bootBlock.dentries 0) rfl rfl
    (Prod.ext (congrArg Prod.fst sysOpen_note) rfl) noteCalls hcalls
  have hrun : (run (sessionStep sampleLayout noteFs 2) ⟨notePcb, [], 0⟩ noteCalls).map
      Session.delivered = some [0x68, 0x65, 0x6C, 0x6C, 0x6F] := by
    unfold notePcb
    rw [sysOpen_note]
    rfl
  rcases Option.map_eq_some_iff.mp hrun with ⟨s, hs, hdelivered⟩
  exact ⟨s, hs, hdelivered, hreads.2 s hs⟩

end Kernel391
