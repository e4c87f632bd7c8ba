import Kernel391.OpenFrame
import Kernel391.Lib.Run

/-!
# The descriptor table as a partial map

Seen from outside, a process has a partial map from descriptors to open files.  `tableOf` reads
that map off the control block, and every call acts on it as its specification says, as long as
no name of more than a million bytes is opened: `string_length` gives up on such a name and the
length check of `open` lets it pass.  Here the copy of a name is confined to its own record.
-/

namespace Kernel391

open Machine

structure OpenFile where
  driver : Driver
  inode : BitVec 32
  pos : BitVec 32
deriving DecidableEq

def fileOf (lay : FopsLayout) (f : FdT) : Option OpenFile :=
  if f.flags = 0 then none else (lay.driverAt f.fops).map fun d => ⟨d, f.inode, f.pos⟩

def tableOf (lay : FopsLayout) (pcb : Pcb) (fd : Nat) : Option OpenFile :=
  if fd < FILE_ARRAY_LEN then fileOf lay (pcb.fileArray fd) else none

/-- The first directory entry that carries the name. -/
def firstListed (bb : BootBlock) (name : CStr) : Option Dentry :=
  ((List.range bb.dentryCount.toNat).find? fun i => NameAt bb name i).map bb.dentries

/-- The name has more than `n` bytes. -/
def LongerThan (name : CStr) (n : Nat) : Prop := ∀ j, j ≤ n → name j ≠ 0

/-- An image whose directory is as long as its inode table and names only inodes of it. -/
structure DirectoryOk (fs : FileSys) : Prop where
  counts : fs.bootBlock.dentryCount = fs.bootBlock.inodeCount
  bound : fs.bootBlock.dentryCount.toNat ≤ DENTRY_COUNT
  inodes : ∀ i, i < fs.bootBlock.dentryCount.toNat →
    (fs.bootBlock.dentries i).inodeIndex.toNat < fs.bootBlock.inodeCount.toNat

-- Only the 32 bytes of the record's own name are written.
def confinedName : NameWriter := fun fd i b pcb =>
  if 0 ≤ i ∧ i < FNAME_MAX_LEN then
    pcb.setFd fd { pcb.fileArray fd with
      fileName := fun k => if k = i.toNat then b else (pcb.fileArray fd).fileName k }
  else pcb

/-! ## What each call owes -/

section Spec

variable (lay : FopsLayout) (fs : FileSys)

/-- The reasons for which `open` has to fail. -/
def OpenRefused (pcb : Pcb) : Option CStr → Prop
  | none => True
  | some name =>
      (∀ fd, 2 ≤ fd → fd < 8 → tableOf lay pcb fd ≠ none) ∨ name 0 = 0 ∨ LongerThan name 32 ∨
        ∀ dentry, firstListed fs.bootBlock name = some dentry →
          driverOfType dentry.fileType = none

structure OpenSpec (pcb : Pcb) (filename : Option CStr) (o : Outcome) : Prop where
  fails_iff : o.ret = -1 ↔ OpenRefused lay fs pcb filename
  opens : o.ret ≠ -1 → ∃ fd name dentry d, filename = some name ∧ o.ret = (fd : Nat) ∧
    firstListed fs.bootBlock name = some dentry ∧ driverOfType dentry.fileType = some d ∧
    (2 ≤ fd ∧ fd < 8 ∧ tableOf lay pcb fd = none ∧
      ∀ j, 2 ≤ j → j < fd → tableOf lay pcb j ≠ none) ∧
    (o.pcb.fileArray fd).fops = lay.addr d ∧
    ∀ i, tableOf lay o.pcb i = if i = fd
      then some ⟨d, if d = .fsys then dentry.inodeIndex else 0, 0⟩ else tableOf lay pcb i

structure CloseSpec (pcb : Pcb) (fd : Int) (o : Outcome) : Prop where
  succeeds_iff : o.ret = 0 ↔ 2 ≤ fd ∧ fd ≤ 7 ∧ tableOf lay pcb fd.toNat ≠ none
  fails : o.ret = 0 ∨ o.ret = -1
  closes : o.ret = 0 →
    ∀ i, tableOf lay o.pcb i = if i = fd.toNat then none else tableOf lay pcb i

/-- A position moves only on a regular file, by the number of bytes returned. -/
def advance (n : Int) (f : OpenFile) : OpenFile :=
  if f.driver = .fsys then { f with pos := f.pos + BitVec.ofInt 32 n } else f

structure ReadSpec (pcb : Pcb) (fd : Int) (o : Outcome) : Prop where
  refused : fd < 0 ∨ fd > 7 ∨ fd = 1 ∨ tableOf lay pcb fd.toNat = none → o.ret = -1
  moves : o.ret ≠ -1 → ∀ i, tableOf lay o.pcb i =
    if i = fd.toNat then (tableOf lay pcb i).map (advance o.ret) else tableOf lay pcb i

structure WriteSpec (pcb : Pcb) (fd : Int) (o : Outcome) : Prop where
  refused : fd < 0 ∨ fd > 7 ∨ fd = 0 ∨ tableOf lay pcb fd.toNat = none → o.ret = -1
  keeps : ∀ i, tableOf lay o.pcb i = tableOf lay pcb i

def CallSpec (pcb : Pcb) (c : Call) (o : Outcome) : Prop :=
  match c with
  | .open filename => OpenSpec lay fs pcb filename o
  | .read fd _ _ _ => ReadSpec lay pcb fd o
  | .write fd _ _ _ => WriteSpec lay pcb fd o
  | .close fd => CloseSpec lay pcb fd o

/-- Slots 0 and 1 are open terminal descriptors, and a slot is marked in use exactly when it
has a driver. -/
structure TableShape (pcb : Pcb) : Prop where
  std : ∀ i, i < 2 → (pcb.fileArray i).flags = 1 ∧ (pcb.fileArray i).fops = lay.addr .terminal
  used_iff : ∀ i, i < 8 → ((pcb.fileArray i).flags = 1 ↔ (pcb.fileArray i).fops ≠ 0)

/-- A read of a terminal or of the clock whose device has nothing to deliver yet. -/
def Waiting (pcb : Pcb) (c : Call) : Prop :=
  ∃ fd null nbytes dev f, c = .read fd null nbytes dev ∧ tableOf lay pcb fd.toNat = some f ∧
    (f.driver = .terminal ∧ dev.term.enterDown = false ∨ f.driver = .rtc ∧ dev.rtc.irFlag = 0)

/-- A call that need not wait returns; what it returns and does to the table is as specified;
the table keeps its shape; and a call that returns -1 leaves it as it was. -/
structure CallOk (pcb : Pcb) (c : Call) : Prop where
  returns : Waiting lay pcb c ∨ ∃ o, doCall lay fs confinedName pcb c = some o
  spec : ∀ o, doCall lay fs confinedName pcb c = some o → CallSpec lay fs pcb c o
  shape : ∀ o, doCall lay fs confinedName pcb c = some o → TableShape lay o.pcb
  unchanged : ∀ o, doCall lay fs confinedName pcb c = some o → o.ret = -1 →
    o.pcb.fileArray = pcb.fileArray

/-- The opens that slip through: the name has more than a million bytes, a slot is free and the
first 32 bytes of the name are those of a listed entry that can be opened. -/
def OverlongOpen (pcb : Pcb) (c : Call) : Prop :=
  ∃ name dentry, c = .open (some name) ∧ LongerThan name 1000000 ∧ (freeSlot pcb).isSome ∧
    firstListed fs.bootBlock name = some dentry ∧ (driverOfType dentry.fileType).isSome

def callStep (pcb : Pcb) (c : Call) : Option Pcb :=
  (doCall lay fs confinedName pcb c).map Outcome.pcb

end Spec

/-! ## The invariant -/

variable {lay : FopsLayout} {fs : FileSys}

/-- A record is closed, or open with a driver and, for a regular file, an existing inode. -/
def SlotOk (lay : FopsLayout) (fs : FileSys) (f : FdT) : Prop :=
  (f.flags = 0 ∧ f.fops = 0) ∨
    (f.flags = 1 ∧ ∃ d, f.fops = lay.addr d ∧
      (d = .fsys → f.inode.toNat < fs.bootBlock.inodeCount.toNat))

structure TableInv (lay : FopsLayout) (fs : FileSys) (pcb : Pcb) : Prop where
  std : ∀ i, i < 2 → (pcb.fileArray i).flags = 1 ∧ (pcb.fileArray i).fops = lay.addr .terminal
  slots : ∀ i, i < 8 → SlotOk lay fs (pcb.fileArray i)

theorem TableInv.shape {pcb : Pcb} (h : TableInv lay fs pcb) : TableShape lay pcb := by
  refine ⟨h.std, ?_⟩
  intro i hi
  rcases h.slots i hi with ⟨hflags, hfops⟩ | ⟨hflags, d, hfops, -⟩
  · rw [hflags, hfops]
    decide
  · rw [hflags, hfops]
    exact iff_of_true rfl (lay.ne_null d)

theorem SlotOk.fileOf_closed {f : FdT} (h : f.flags = 0) : fileOf lay f = none := if_pos h

theorem SlotOk.fileOf_open {f : FdT} {d : Driver} (h : f.flags = 1) (hd : f.fops = lay.addr d) :
    fileOf lay f = some ⟨d, f.inode, f.pos⟩ := by
  unfold fileOf
  rw [if_neg (by rw [h]; decide), hd, FopsLayout.driverAt_addr]
  rfl

theorem SlotOk.fileOf_eq_none_iff {f : FdT} (h : SlotOk lay fs f) :
    fileOf lay f = none ↔ f.flags = 0 := by
  rcases h with ⟨hflags, -⟩ | ⟨hflags, d, hfops, -⟩
  · exact iff_of_true (SlotOk.fileOf_closed hflags) hflags
  · rw [SlotOk.fileOf_open hflags hfops, hflags]
    exact iff_of_false (fun h => nomatch h) (by decide)

theorem tableOf_eq {pcb : Pcb} {fd : Nat} (hfd : fd < 8) :
    tableOf lay pcb fd = fileOf lay (pcb.fileArray fd) := if_pos hfd

theorem TableInv.tableOf_eq_none_iff {pcb : Pcb} (h : TableInv lay fs pcb) {fd : Nat}
    (hfd : fd < 8) : tableOf lay pcb fd = none ↔ (pcb.fileArray fd).flags = 0 := by
  rw [tableOf_eq hfd, (h.slots fd hfd).fileOf_eq_none_iff]

-- An open record, seen on both sides.
theorem TableInv.open_slot {pcb : Pcb} (h : TableInv lay fs pcb) {fd : Nat} (hfd : fd < 8)
    (hopen : (pcb.fileArray fd).flags ≠ 0) :
    ∃ d, lay.driverAt (pcb.fileArray fd).fops = some d ∧
      tableOf lay pcb fd = some ⟨d, (pcb.fileArray fd).inode, (pcb.fileArray fd).pos⟩ ∧
      (pcb.fileArray fd).flags = 1 ∧ (pcb.fileArray fd).fops = lay.addr d ∧
      (d = .fsys → (pcb.fileArray fd).inode.toNat < fs.bootBlock.inodeCount.toNat) := by
  rcases h.slots fd hfd with ⟨hflags, -⟩ | ⟨hflags, d, hfops, hinode⟩
  · exact absurd hflags hopen
  · refine ⟨d, ?_, ?_, hflags, hfops, hinode⟩
    · rw [hfops, FopsLayout.driverAt_addr]
    · rw [tableOf_eq hfd, SlotOk.fileOf_open hflags hfops]

theorem tableOf_setFd (pcb : Pcb) {fd : Nat} (hfd : fd < 8) (f : FdT) (i : Nat) :
    tableOf lay (pcb.setFd fd f) i = if i = fd then fileOf lay f else tableOf lay pcb i := by
  unfold tableOf
  rw [Pcb.setFd_fileArray]
  by_cases hi : i = fd
  · rw [if_pos hi, if_pos hi, if_pos (hi ▸ hfd)]
  · rw [if_neg hi, if_neg hi]

theorem TableInv.setFd {pcb : Pcb} (h : TableInv lay fs pcb) {fd : Nat} (hfd : 2 ≤ fd) {f : FdT}
    (hf : SlotOk lay fs f) : TableInv lay fs (pcb.setFd fd f) := by
  refine ⟨?_, ?_⟩
  · intro i hi
    rw [Pcb.setFd_fileArray, if_neg (by omega)]
    exact h.std i hi
  · intro i hi
    rw [Pcb.setFd_fileArray]
    by_cases hfd' : i = fd
    · rw [if_pos hfd']
      exact hf
    · rw [if_neg hfd']
      exact h.slots i hi

theorem tableInv_init (stdinName stdoutName : Nat → UInt8) (pcb : Pcb) :
    TableInv lay fs (initFileArray lay stdinName stdoutName pcb) := by
  refine ⟨?_, ?_⟩
  · intro i hi
    interval_cases i <;> exact ⟨rfl, rfl⟩
  · intro i hi
    by_cases hlo : i < 2
    · right
      interval_cases i <;> exact ⟨rfl, .terminal, rfl, fun h => nomatch h⟩
    · left
      have hslot : (initFileArray lay stdinName stdoutName pcb).fileArray i =
          ⟨0, 0, 0, 0, (pcb.fileArray i).fileName⟩ := by
        unfold initFileArray
        dsimp only
        rw [if_neg (by omega), if_neg (by omega), if_pos (show i < FILE_ARRAY_LEN from hi)]
      rw [hslot]
      exact ⟨rfl, rfl⟩

/-! ## Names -/

theorem setFd_setFd (pcb : Pcb) (fd : Nat) (f g : FdT) :
    (pcb.setFd fd f).setFd fd g = pcb.setFd fd g := by
  unfold Pcb.setFd
  congr 1
  ext i
  by_cases hi : i = fd
  · rw [if_pos hi, if_pos hi]
  · simp only [if_neg hi]

theorem setFd_self (pcb : Pcb) (fd : Nat) : pcb.setFd fd (pcb.fileArray fd) = pcb := by
  unfold Pcb.setFd
  have harray :
      (fun i => if i = fd then pcb.fileArray fd else pcb.fileArray i) = pcb.fileArray := by
    ext i
    by_cases hi : i = fd
    · rw [if_pos hi, hi]
    · rw [if_neg hi]
  rw [harray]

-- A confined store changes the record's name and nothing else.
theorem confinedName_eq (fd : Nat) (i : Int) (b : UInt8) (pcb : Pcb) :
    ∃ fileName, confinedName fd i b pcb =
      pcb.setFd fd { pcb.fileArray fd with fileName := fileName } := by
  unfold confinedName
  by_cases hi : 0 ≤ i ∧ i < FNAME_MAX_LEN
  · rw [if_pos hi]
    exact ⟨_, rfl⟩
  · rw [if_neg hi]
    exact ⟨(pcb.fileArray fd).fileName, (setFd_self pcb fd).symm⟩

theorem confinedName_setFd (fd : Nat) (i : Int) (b : UInt8) (pcb : Pcb) (f : FdT) :
    ∃ fileName, confinedName fd i b (pcb.setFd fd f) =
      pcb.setFd fd { f with fileName := fileName } := by
  rcases confinedName_eq fd i b (pcb.setFd fd f) with ⟨fileName, heq⟩
  refine ⟨fileName, ?_⟩
  rw [heq, setFd_setFd, Pcb.setFd_fileArray, if_pos rfl]

theorem copyString_confined (fd : Nat) (name : CStr) (pcb : Pcb) (f : FdT) :
    ∃ fileName, copyString (confinedName fd) name (pcb.setFd fd f) =
      pcb.setFd fd { f with fileName := fileName } := by
  refine copyString_induct
    (P := fun d => ∃ fileName, d = pcb.setFd fd { f with fileName := fileName }) ?_
    ⟨f.fileName, rfl⟩
  rintro i b _ - - - ⟨fileName, rfl⟩
  exact confinedName_setFd fd i b pcb _

theorem openedPcb_confined (lay : FopsLayout) (fd : Nat) (d : Driver) (name : CStr)
    (dentry : Dentry) (pcb : Pcb) :
    ∃ fileName, openedPcb lay confinedName fd d name dentry pcb =
      pcb.setFd fd { openedFd lay d dentry (pcb.fileArray fd) with fileName := fileName } := by
  unfold openedPcb
  by_cases hd : d = .fsys
  · simp only [if_pos hd]
    exact copyString_confined fd name pcb _
  · simp only [if_neg hd]
    exact ⟨_, rfl⟩

-- On a directory as long as the inode table the lookup finds the first listed entry.
theorem found_eq_firstListed (hdir : DirectoryOk fs) {name : CStr} (hne : name 0 ≠ 0) :
    (readDentryByName fs.bootBlock (some name)).found = firstListed fs.bootBlock name := by
  unfold firstListed
  rw [hdir.counts]
  rcases byName_cases fs.bootBlock hne with ⟨m, hm, hname, hfirst, hlook⟩ | ⟨habs, hlook⟩
  · have hfind : ((List.range fs.bootBlock.inodeCount.toNat).find?
        fun i => NameAt fs.bootBlock name i) = some m := by
      rw [List.find?_range_eq_some]
      refine ⟨decide_eq_true hname, List.mem_range.mpr hm, ?_⟩
      intro j hj
      simpa using hfirst j hj
    rw [hlook, hfind]
    rfl
  · have hfind : ((List.range fs.bootBlock.inodeCount.toNat).find?
        fun i => NameAt fs.bootBlock name i) = none := by
      rw [List.find?_range_eq_none]
      intro j hj
      simpa using habs j hj
    rw [hlook, hfind]
    rfl

theorem firstListed_inode_lt (hdir : DirectoryOk fs) {name : CStr} {dentry : Dentry}
    (h : firstListed fs.bootBlock name = some dentry) :
    dentry.inodeIndex.toNat < fs.bootBlock.inodeCount.toNat := by
  rcases Option.map_eq_some_iff.mp h with ⟨i, hi, rfl⟩
  exact hdir.inodes i (List.mem_range.mp (List.mem_of_find?_eq_some hi))

/-! ## Meeting the specification -/

/-- Whatever the call returns, the invariant holds again afterwards. -/
def KeepsInv (lay : FopsLayout) (fs : FileSys) (pcb : Pcb) (c : Call) : Prop :=
  ∀ o, doCall lay fs confinedName pcb c = some o → TableInv lay fs o.pcb

/-- A call that returns, keeps the invariant, and changes nothing when it returns -1 owes only
its own specification. -/
theorem callOk_of_returns {pcb : Pcb} {c : Call} {o : Outcome}
    (hcall : doCall lay fs confinedName pcb c = some o) (h : TableInv lay fs o.pcb)
    (hfail : o.ret = -1 → o.pcb = pcb) (hspec : CallSpec lay fs pcb c o) :
    CallOk lay fs pcb c ∧ KeepsInv lay fs pcb c := by
  have hout : ∀ o', doCall lay fs confinedName pcb c = some o' → o' = o :=
    fun o' ho' => (Option.some.inj (hcall.symm.trans ho')).symm
  refine ⟨⟨.inr ⟨o, hcall⟩, ?_, ?_, ?_⟩, ?_⟩
  · intro o' ho'
    exact hout o' ho' ▸ hspec
  · intro o' ho'
    exact hout o' ho' ▸ h.shape
  · intro o' ho' hret
    rw [hout o' ho'] at hret ⊢
    rw [hfail hret]
  · intro o' ho'
    exact hout o' ho' ▸ h

theorem callOk_of_waiting {pcb : Pcb} {c : Call}
    (hnone : doCall lay fs confinedName pcb c = none) (hwait : Waiting lay pcb c) :
    CallOk lay fs pcb c ∧ KeepsInv lay fs pcb c := by
  have hout : ∀ o, doCall lay fs confinedName pcb c ≠ some o := by
    intro o ho
    rw [hnone] at ho
    cases ho
  exact ⟨⟨.inl hwait, fun o ho => absurd ho (hout o), fun o ho => absurd ho (hout o),
    fun o ho => absurd ho (hout o)⟩, fun o ho => absurd ho (hout o)⟩

/-! ## `open` -/

theorem TableInv.no_free_iff {pcb : Pcb} (h : TableInv lay fs pcb) :
    freeSlot pcb = none ↔ ∀ fd, 2 ≤ fd → fd < 8 → tableOf lay pcb fd ≠ none := by
  rw [freeSlot_eq_none]
  constructor
  · intro hall fd hlo hhi
    rw [ne_eq, h.tableOf_eq_none_iff hhi]
    exact hall fd hlo hhi
  · intro hall fd hlo hhi hflags
    exact hall fd hlo hhi ((h.tableOf_eq_none_iff hhi).mpr hflags)

theorem slotOk_opened (hdir : DirectoryOk fs) {name : CStr} {dentry : Dentry} {d : Driver}
    (hlisted : firstListed fs.bootBlock name = some dentry) (old : FdT)
    (fileName : Nat → UInt8) :
    SlotOk lay fs { openedFd lay d dentry old with fileName := fileName } := by
  refine .inr ⟨rfl, d, rfl, ?_⟩
  intro hd
  subst hd
  exact firstListed_inode_lt hdir hlisted

-- What a successful `open` does, whether or not it should have succeeded.
theorem open_effect (hdir : DirectoryOk fs) {pcb : Pcb} (h : TableInv lay fs pcb) {fd : Nat}
    {name : CStr} {dentry : Dentry} {d : Driver} (hfree : freeSlot pcb = some fd)
    (hlisted : firstListed fs.bootBlock name = some dentry) :
    TableInv lay fs (openedPcb lay confinedName fd d name dentry pcb) ∧
      ((openedPcb lay confinedName fd d name dentry pcb).fileArray fd).fops = lay.addr d ∧
      ∀ i, tableOf lay (openedPcb lay confinedName fd d name dentry pcb) i = if i = fd
        then some ⟨d, if d = .fsys then dentry.inodeIndex else 0, 0⟩ else tableOf lay pcb i := by
  rcases freeSlot_eq_some.mp hfree with ⟨-, hlo, hhi, -⟩
  rcases openedPcb_confined lay fd d name dentry pcb with ⟨fileName, heq⟩
  rw [heq]
  refine ⟨h.setFd hlo (slotOk_opened hdir hlisted _ fileName), ?_, ?_⟩
  · rw [Pcb.setFd_fileArray, if_pos rfl]
    rfl
  · intro i
    rw [tableOf_setFd pcb hhi, SlotOk.fileOf_open rfl rfl]
    rfl

theorem longerThan_of_length {name : CStr} {n k : Nat} (h : IsCStr name n) (hk : k < n) :
    LongerThan name k :=
  fun j hj => h.2 j (by omega)

theorem not_longerThan_of_length {name : CStr} {n k : Nat} (h : IsCStr name n) (hk : n ≤ k) :
    ¬LongerThan name k :=
  fun hlong => hlong n hk h.1

-- Every failure of `open` has one of the reasons for which it has to fail.
theorem openRefused_of_failure (hdir : DirectoryOk fs) {pcb : Pcb} (h : TableInv lay fs pcb)
    {filename : Option CStr}
    (hwhy : stringLength filename > 32 ∨ freeSlot pcb = none ∨
      ∀ dentry, (readDentryByName fs.bootBlock filename).found = some dentry →
        driverOfType dentry.fileType = none) :
    OpenRefused lay fs pcb filename := by
  cases filename with
  | none => trivial
  | some name =>
    by_cases hne : name 0 = 0
    · exact .inr (.inl hne)
    · rcases hwhy with hlen | hfull | hbad
      · rcases stringLength_cases name with ⟨n, -, hstr, hn⟩ | ⟨-, hn⟩
        · rw [hn] at hlen
          exact .inr (.inr (.inl (longerThan_of_length hstr (by omega))))
        · rw [hn] at hlen
          omega
      · exact .inl (h.no_free_iff.mp hfull)
      · rw [found_eq_firstListed hdir hne] at hbad
        exact .inr (.inr (.inr hbad))

theorem not_overlong_of_failure (hdir : DirectoryOk fs) {pcb : Pcb} {filename : Option CStr}
    (hwhy : stringLength filename > 32 ∨ freeSlot pcb = none ∨
      ∀ dentry, (readDentryByName fs.bootBlock filename).found = some dentry →
        driverOfType dentry.fileType = none) :
    ¬OverlongOpen fs pcb (.open filename) := by
  rintro ⟨name, dentry, he, hlong, hfree, hlisted, hdrv⟩
  cases he
  rcases hwhy with hlen | hfull | hbad
  · rw [stringLength_long hlong] at hlen
    omega
  · rw [hfull] at hfree
    cases hfree
  · rw [found_eq_firstListed hdir (hlong 0 (Nat.zero_le _))] at hbad
    rw [hbad dentry hlisted] at hdrv
    cases hdrv

theorem not_openRefused {pcb : Pcb} (h : TableInv lay fs pcb) {fd : Nat} {name : CStr}
    {dentry : Dentry} {d : Driver} (hfree : freeSlot pcb = some fd) (hne : name 0 ≠ 0)
    (hshort : ¬LongerThan name 32) (hlisted : firstListed fs.bootBlock name = some dentry)
    (hdrv : driverOfType dentry.fileType = some d) : ¬OpenRefused lay fs pcb (some name) := by
  rintro (hfull | hempty | hlong | hbad)
  · rw [h.no_free_iff.mpr hfull] at hfree
    cases hfree
  · exact hne hempty
  · exact hshort hlong
  · rw [hbad dentry hlisted] at hdrv
    cases hdrv

theorem openSpec_of_accepted (hdir : DirectoryOk fs) {pcb : Pcb} (h : TableInv lay fs pcb)
    {fd : Nat} {name : CStr} {dentry : Dentry} {d : Driver} (hfree : freeSlot pcb = some fd)
    (hlisted : firstListed fs.bootBlock name = some dentry)
    (hdrv : driverOfType dentry.fileType = some d)
    (haccept : ¬OpenRefused lay fs pcb (some name)) :
    OpenSpec lay fs pcb (some name)
      ⟨(fd : Int), [], openedPcb lay confinedName fd d name dentry pcb⟩ := by
  rcases open_effect (d := d) hdir h hfree hlisted with ⟨-, hfops, htable⟩
  rcases freeSlot_eq_some.mp hfree with ⟨hflags, hlo, hhi, hmin⟩
  have hret : (fd : Int) ≠ -1 := by omega
  refine ⟨iff_of_false hret haccept, ?_⟩
  intro _
  have hslot : tableOf lay pcb fd = none := (h.tableOf_eq_none_iff hhi).mpr hflags
  refine ⟨fd, name, dentry, d, rfl, rfl, hlisted, hdrv, ⟨hlo, hhi, hslot, ?_⟩, hfops, htable⟩
  intro j hj hlt
  rw [ne_eq, h.tableOf_eq_none_iff (by omega)]
  exact hmin j hj hlt

/-- `open` meets its specification except on the overlong names it should refuse. -/
theorem open_ok (hdir : DirectoryOk fs) {pcb : Pcb} (h : TableInv lay fs pcb)
    (filename : Option CStr) :
    (CallOk lay fs pcb (.open filename) ↔ ¬OverlongOpen fs pcb (.open filename)) ∧
      KeepsInv lay fs pcb (.open filename) := by
  rcases sysOpen_cases lay fs confinedName filename pcb with
    ⟨fd, name, dentry, d, rfl, hlen, hfree, hfound, hdrv, heq⟩ | ⟨hwhy, heq⟩
  · have hne : name 0 ≠ 0 := by
      intro hz
      simp [readDentryByName, hz] at hfound
    have hlisted := found_eq_firstListed hdir hne ▸ hfound
    have hinv := (open_effect (d := d) hdir h hfree hlisted).1
    have hcall : doCall lay fs confinedName pcb (.open (some name)) =
        some ⟨(fd : Int), [], openedPcb lay confinedName fd d name dentry pcb⟩ := by
      simp only [doCall, heq]
    have hret : (fd : Int) ≠ -1 := by omega
    rcases stringLength_cases name with ⟨n, hle, hstr, hn⟩ | ⟨hlong, -⟩
    · have hshort : ¬LongerThan name 32 := not_longerThan_of_length hstr (by omega)
      have hok := callOk_of_returns hcall hinv (fun hneg => absurd hneg hret)
        (openSpec_of_accepted hdir h hfree hlisted hdrv
          (not_openRefused h hfree hne hshort hlisted hdrv))
      refine ⟨iff_of_true hok.1 ?_, hok.2⟩
      rintro ⟨name', -, he, hlong, -⟩
      cases he
      exact not_longerThan_of_length hstr hle hlong
    · -- the length check has been passed by a name too long to measure
      have hover : OverlongOpen fs pcb (.open (some name)) :=
        ⟨name, dentry, rfl, hlong, by rw [hfree]; rfl, hlisted, by rw [hdrv]; rfl⟩
      refine ⟨iff_of_false ?_ (not_not.mpr hover), ?_⟩
      · intro hok
        have hspec := (hok.spec _ hcall).fails_iff
        exact hret (hspec.mpr (.inr (.inr (.inl fun j hj => hlong j (by omega)))))
      · intro o ho
        cases hcall.symm.trans ho
        exact hinv
  · have hcall : doCall lay fs confinedName pcb (.open filename) = some ⟨-1, [], pcb⟩ := by
      simp only [doCall, heq]
    have hok := callOk_of_returns hcall h (fun _ => rfl)
      ⟨iff_of_true rfl (openRefused_of_failure hdir h hwhy), fun hne => absurd rfl hne⟩
    exact ⟨iff_of_true hok.1 (not_overlong_of_failure hdir hwhy), hok.2⟩

/-! ## `close`, `read` and `write` -/

theorem slotOk_closed (f : FdT) : SlotOk lay fs (closedFd f) := .inl ⟨rfl, rfl⟩

/-- Every way `close` can go: it refuses, or it empties an open slot. -/
theorem close_cases {pcb : Pcb} (h : TableInv lay fs pcb) (fd : Int) :
    (¬(2 ≤ fd ∧ fd ≤ 7 ∧ tableOf lay pcb fd.toNat ≠ none) ∧
        sysClose lay fd pcb = some (-1, pcb)) ∨
      ((2 ≤ fd ∧ fd ≤ 7 ∧ tableOf lay pcb fd.toNat ≠ none) ∧
        sysClose lay fd pcb =
          some (0, pcb.setFd fd.toNat (closedFd (pcb.fileArray fd.toNat)))) := by
  have hmin : MIN_FD = 2 := rfl
  have hmax : MAX_FD = 7 := rfl
  unfold sysClose
  by_cases hrefuse : fd < MIN_FD ∨ fd > MAX_FD ∨ (pcb.fileArray fd.toNat).flags = 0
  · left
    rw [if_pos hrefuse]
    refine ⟨?_, rfl⟩
    rintro ⟨hlo, hhi, hopen⟩
    rcases hrefuse with hlt | hgt | hflags
    · omega
    · omega
    · exact hopen ((h.tableOf_eq_none_iff (by omega)).mpr hflags)
  · right
    simp only [not_or] at hrefuse
    have hlo : 2 ≤ fd := by omega
    have hhi : fd ≤ 7 := by omega
    rcases h.open_slot (by omega) hrefuse.2.2 with ⟨d, hdrv, htable, -⟩
    rw [if_neg (by simp only [not_or]; exact hrefuse), hdrv, Option.map_some]
    have hclose : d.close fd = 0 := by
      cases d with
      | terminal => exact if_neg (by omega)
      | _ => rfl
    rw [if_neg (not_not.mpr hclose)]
    exact ⟨⟨hlo, hhi, by rw [htable]; exact fun hn => nomatch hn⟩, rfl⟩

theorem close_ok {pcb : Pcb} (h : TableInv lay fs pcb) (fd : Int) :
    CallOk lay fs pcb (.close fd) ∧ KeepsInv lay fs pcb (.close fd) := by
  rcases close_cases h fd with ⟨hbad, heq⟩ | ⟨hgood, heq⟩
  · have hcall : doCall lay fs confinedName pcb (.close fd) = some ⟨-1, [], pcb⟩ := by
      simp only [doCall, heq, Option.map_some]
    apply callOk_of_returns hcall h fun _ => rfl
    exact ⟨iff_of_false (show (-1 : Int) ≠ 0 by decide) hbad, .inr rfl,
      fun hz => absurd hz (show (-1 : Int) ≠ 0 by decide)⟩
  · have hcall : doCall lay fs confinedName pcb (.close fd) =
        some ⟨0, [], pcb.setFd fd.toNat (closedFd (pcb.fileArray fd.toNat))⟩ := by
      simp only [doCall, heq, Option.map_some]
    apply callOk_of_returns hcall (h.setFd (by omega) (slotOk_closed _)) fun hneg => by cases hneg
    refine ⟨iff_of_true rfl hgood, .inl rfl, ?_⟩
    intro _ i
    rw [tableOf_setFd pcb (by omega), SlotOk.fileOf_closed rfl]

/-- The descriptors on which `read` has to fail whatever the other arguments are. -/
def ReadRefused (lay : FopsLayout) (pcb : Pcb) (fd : Int) : Prop :=
  fd < 0 ∨ fd > 7 ∨ fd = 1 ∨ tableOf lay pcb fd.toNat = none

-- A read that fails before reaching the driver, or reaches it.
theorem read_cases {pcb : Pcb} (h : TableInv lay fs pcb) (fd : Int) (null : Bool) (nbytes : Int)
    (dev : Devices) :
    sysRead lay fs fd null nbytes pcb dev = some ⟨-1, [], pcb, dev⟩ ∨
      (¬ReadRefused lay pcb fd ∧ 0 ≤ nbytes ∧ fd.toNat < 8 ∧ (pcb.fileArray fd.toNat).flags ≠ 0 ∧
        sysRead lay fs fd null nbytes pcb dev =
          (lay.driverAt (pcb.fileArray fd.toNat).fops).bind
            (Driver.read fs fd.toNat nbytes pcb dev)) := by
  have hmax : MAX_FD = 7 := rfl
  unfold sysRead
  by_cases hrefuse : null = true ∨ fd < 0 ∨ fd > MAX_FD ∨ fd = 1 ∨ nbytes < 0
  · rw [if_pos hrefuse]
    exact .inl rfl
  · rw [if_neg hrefuse]
    simp only [not_or] at hrefuse
    by_cases hflags : (pcb.fileArray fd.toNat).flags = 0
    · rw [if_pos hflags]
      exact .inl rfl
    · rw [if_neg hflags]
      have hfd : fd.toNat < 8 := by omega
      refine .inr ⟨?_, by omega, hfd, hflags, rfl⟩
      rintro (hlt | hgt | hone | hnone)
      · omega
      · omega
      · omega
      · exact hflags ((h.tableOf_eq_none_iff hfd).mp hnone)

-- Reading through a driver that leaves the table alone.
theorem read_same_ok {pcb : Pcb} (h : TableInv lay fs pcb) {fd : Int} {null : Bool} {nbytes : Int}
    {dev : Devices} {f : OpenFile} {r : CallResult}
    (hread : sysRead lay fs fd null nbytes pcb dev = some r) (hpcb : r.pcb = pcb)
    (htable : tableOf lay pcb fd.toNat = some f) (hdrv : f.driver ≠ .fsys)
    (haccept : ¬ReadRefused lay pcb fd) : CallOk lay fs pcb (.read fd null nbytes dev) ∧
      KeepsInv lay fs pcb (.read fd null nbytes dev) := by
  have hcall : doCall lay fs confinedName pcb (.read fd null nbytes dev) =
      some ⟨r.ret, r.stored, pcb⟩ := by
    simp only [doCall, hread, Option.map_some, CallResult.outcome, hpcb]
  apply callOk_of_returns hcall h fun _ => rfl
  refine ⟨fun hno => absurd hno haccept, ?_⟩
  intro _ i
  by_cases hi : i = fd.toNat
  · have hadvance : advance r.ret f = f := if_neg hdrv
    rw [if_pos hi, hi, htable, Option.map_some, hadvance]
  · rw [if_neg hi]

-- A regular file: the position moves, and with it the record.
theorem read_file_ok {pcb : Pcb} (h : TableInv lay fs pcb) {fd : Int} {null : Bool} {nbytes : Int}
    {dev : Devices} (hfd : fd.toNat < 8) (hflags : (pcb.fileArray fd.toNat).flags = 1)
    (hfops : (pcb.fileArray fd.toNat).fops = lay.addr .fsys)
    (hinode : (pcb.fileArray fd.toNat).inode.toNat < fs.bootBlock.inodeCount.toNat)
    (hread : sysRead lay fs fd null nbytes pcb dev = some (fileRead fs fd.toNat nbytes pcb dev))
    (haccept : ¬ReadRefused lay pcb fd) : CallOk lay fs pcb (.read fd null nbytes dev) ∧
      KeepsInv lay fs pcb (.read fd null nbytes dev) := by
  have hlo : 2 ≤ fd.toNat := by
    by_contra hlt
    have hterm := (h.std fd.toNat (by omega)).2
    rw [hfops] at hterm
    cases lay.injective _ _ hterm
  obtain ⟨data, hdata⟩ : ∃ data, readData fs (pcb.fileArray fd.toNat).inode.toNat
      (pcb.fileArray fd.toNat).pos.toNat false nbytes.toNat = some data := by
    unfold readData
    rw [if_neg (by omega), if_neg (by decide)]
    exact ⟨_, rfl⟩
  have hcall : doCall lay fs confinedName pcb (.read fd null nbytes dev) =
      some ⟨data.length, data, pcb.setFd fd.toNat { pcb.fileArray fd.toNat with
        pos := (pcb.fileArray fd.toNat).pos + BitVec.ofNat 32 data.length }⟩ := by
    simp only [doCall, hread, fileRead, hdata, Option.map_some, CallResult.outcome]
  have hslot : SlotOk lay fs { pcb.fileArray fd.toNat with
      pos := (pcb.fileArray fd.toNat).pos + BitVec.ofNat 32 data.length } :=
    .inr ⟨hflags, .fsys, hfops, fun _ => hinode⟩
  have hret : (data.length : Int) ≠ -1 := by omega
  apply callOk_of_returns hcall (h.setFd hlo hslot) fun hneg => absurd hneg hret
  refine ⟨fun hno => absurd hno haccept, ?_⟩
  intro _ i
  rw [tableOf_setFd pcb hfd]
  by_cases hi : i = fd.toNat
  · rw [if_pos hi, if_pos hi, hi, tableOf_eq hfd, SlotOk.fileOf_open hflags hfops, Option.map_some]
    exact SlotOk.fileOf_open hflags hfops
  · rw [if_neg hi, if_neg hi]

theorem read_ok {pcb : Pcb} (h : TableInv lay fs pcb) (fd : Int) (null : Bool) (nbytes : Int)
    (dev : Devices) : CallOk lay fs pcb (.read fd null nbytes dev) ∧
      KeepsInv lay fs pcb (.read fd null nbytes dev) := by
  rcases read_cases h fd null nbytes dev with hfail | ⟨haccept, -, hfd, hopen, heq⟩
  · have hcall : doCall lay fs confinedName pcb (.read fd null nbytes dev) =
        some ⟨-1, [], pcb⟩ := by
      simp only [doCall, hfail, Option.map_some, CallResult.outcome]
    apply callOk_of_returns hcall h fun _ => rfl
    exact ⟨fun _ => rfl, fun hne => absurd rfl hne⟩
  · rcases h.open_slot hfd hopen with ⟨d, hdrv, htable, hflags, hfops, hinode⟩
    rw [hdrv, Option.bind_some] at heq
    cases d with
    | terminal =>
      cases hres : dev.term.terminalReadResume nbytes with
      | none =>
        have hdown : dev.term.enterDown = false := by
          by_contra hdown
          unfold Term.terminalReadResume at hres
          rw [if_pos (Bool.eq_true_of_not_eq_false hdown)] at hres
          split at hres <;> cases hres
        exact callOk_of_waiting (by simp only [doCall, heq, Driver.read, hres, Option.map_none])
          ⟨fd, null, nbytes, dev, _, rfl, htable, .inl ⟨rfl, hdown⟩⟩
      | some r =>
        rw [Driver.read, hres, Option.map_some] at heq
        exact read_same_ok h heq rfl htable (fun hd => nomatch hd) haccept
    | rtc =>
      cases hres : rtcRead dev.rtc with
      | none =>
        have hflag : dev.rtc.irFlag = 0 := by
          by_contra hflag
          unfold rtcRead at hres
          rw [if_neg hflag] at hres
          cases hres
        exact callOk_of_waiting (by simp only [doCall, heq, Driver.read, hres, Option.map_none])
          ⟨fd, null, nbytes, dev, _, rfl, htable, .inr ⟨rfl, hflag⟩⟩
      | some r =>
        rw [Driver.read, hres, Option.map_some] at heq
        exact read_same_ok h heq rfl htable (fun hd => nomatch hd) haccept
    | dir =>
      have hpcb : (dirRead fs nbytes pcb dev).pcb = pcb := by
        unfold dirRead
        split <;> rfl
      exact read_same_ok h heq hpcb htable (fun hd => nomatch hd) haccept
    | fsys => exact read_file_ok h hfd hflags hfops (hinode rfl) heq haccept

theorem write_ok {pcb : Pcb} (h : TableInv lay fs pcb) (fd : Int) (buf : Option CStr)
    (nbytes : Int) (dev : Devices) : CallOk lay fs pcb (.write fd buf nbytes dev) ∧
      KeepsInv lay fs pcb (.write fd buf nbytes dev) := by
  have hmax : MAX_FD = 7 := rfl
  have hfail : sysWrite lay fd buf nbytes pcb dev = some ⟨-1, [], pcb, dev⟩ →
      CallOk lay fs pcb (.write fd buf nbytes dev) ∧
        KeepsInv lay fs pcb (.write fd buf nbytes dev) := by
    intro heq
    have hcall : doCall lay fs confinedName pcb (.write fd buf nbytes dev) =
        some ⟨-1, [], pcb⟩ := by
      simp only [doCall, heq, Option.map_some, CallResult.outcome]
    apply callOk_of_returns hcall h fun _ => rfl
    exact ⟨fun _ => rfl, fun _ => rfl⟩
  cases buf with
  | none => exact hfail rfl
  | some buf =>
    by_cases hrefuse : fd < 0 ∨ fd > MAX_FD ∨ fd = 0 ∨ nbytes < 0
    · exact hfail (if_pos hrefuse)
    · by_cases hclosed : (pcb.fileArray fd.toNat).flags = 0
      · apply hfail
        simp only [sysWrite, if_neg hrefuse, if_pos hclosed]
      · have hfd : fd.toNat < 8 := by omega
        rcases h.open_slot hfd hclosed with ⟨d, hdrv, htable, -⟩
        have hcall : doCall lay fs confinedName pcb (.write fd (some buf) nbytes dev) =
            some ⟨(d.write buf nbytes dev).1, [], pcb⟩ := by
          simp only [doCall, sysWrite, if_neg hrefuse, if_neg hclosed, hdrv, Option.map_some,
            CallResult.outcome]
        apply callOk_of_returns hcall h fun _ => rfl
        refine ⟨?_, fun _ => rfl⟩
        rintro (hlt | hgt | hzero | hnone)
        · omega
        · omega
        · omega
        · rw [htable] at hnone
          cases hnone

/-! ## Runs -/

theorem callOk_iff (hdir : DirectoryOk fs) {pcb : Pcb} (h : TableInv lay fs pcb) (c : Call) :
    (CallOk lay fs pcb c ↔ ¬OverlongOpen fs pcb c) ∧ KeepsInv lay fs pcb c := by
  have hother : (∀ filename, c ≠ .open filename) → ¬OverlongOpen fs pcb c := by
    rintro hne ⟨name, -, he, -⟩
    exact hne (some name) he
  cases c with
  | «open» filename => exact open_ok hdir h filename
  | read fd null nbytes dev =>
    have hok := read_ok h fd null nbytes dev
    exact ⟨iff_of_true hok.1 (hother fun _ he => nomatch he), hok.2⟩
  | write fd buf nbytes dev =>
    have hok := write_ok h fd buf nbytes dev
    exact ⟨iff_of_true hok.1 (hother fun _ he => nomatch he), hok.2⟩
  | close fd =>
    have hok := close_ok h fd
    exact ⟨iff_of_true hok.1 (hother fun _ he => nomatch he), hok.2⟩

/-- From the descriptors a new process gets, the table behaves as a partial map along exactly
the runs that open no overlong name a listed entry would match. -/
theorem descriptor_table_iff (lay : FopsLayout) (fs : FileSys) (hdir : DirectoryOk fs)
    (stdinName stdoutName : Nat → UInt8) (pcb : Pcb) (calls : List Call) :
    (TableShape lay (initFileArray lay stdinName stdoutName pcb) ∧
        Along (callStep lay fs) (CallOk lay fs) (initFileArray lay stdinName stdoutName pcb) calls) ↔
      Along (callStep lay fs) (fun pcb c => ¬OverlongOpen fs pcb c)
        (initFileArray lay stdinName stdoutName pcb) calls := by
  have hinit : TableInv lay fs (initFileArray lay stdinName stdoutName pcb) :=
    tableInv_init stdinName stdoutName pcb
  have hstep : ∀ s c s', TableInv lay fs s → ¬OverlongOpen fs s c → callStep lay fs s c = some s' →
      TableInv lay fs s' := by
    intro s c s' hs _ hs'
    rcases Option.map_eq_some_iff.mp hs' with ⟨o, ho, rfl⟩
    exact (callOk_iff hdir hs c).2 o ho
  rw [along_iff_of_invariant hstep (fun s c hs => (callOk_iff hdir hs c).1) hinit]
  exact and_iff_right hinit.shape

theorem fullNameFs_directoryOk : DirectoryOk fullNameFs :=
  ⟨rfl, by decide, fun _ _ => Nat.zero_lt_one⟩

def noName : Nat → UInt8 := fun _ => 0

/-- Opening a 32-byte name and closing the descriptor again, on an image that lists it. -/
theorem descriptor_table_open_close :
    Along (callStep sampleLayout fullNameFs) (CallOk sampleLayout fullNameFs)
      (initFileArray sampleLayout noName noName (samplePcb false))
      [.open (some (letters 32)), .close 2] := by
  have hshort : ¬OverlongOpen fullNameFs (initFileArray sampleLayout noName noName (samplePcb false))
      (.open (some (letters 32))) := by
    rintro ⟨name, -, he, hlong, -⟩
    cases he
    exact hlong 32 (by decide) rfl
  have hclose : ∀ pcb, ¬OverlongOpen fullNameFs pcb (.close 2) := by
    rintro pcb ⟨name, -, he, -⟩
    cases he
  exact ((descriptor_table_iff sampleLayout fullNameFs fullNameFs_directoryOk noName noName
    (samplePcb false) [.open (some (letters 32)), .close 2]).mpr
    ⟨hshort, fun pcb _ => ⟨hclose pcb, fun _ _ => trivial⟩⟩).2

/-- A name of a million and one letters is opened as the 32-letter entry it starts like. -/
theorem overlong_name_opens :
    DirectoryOk fullNameFs ∧ LongerThan (letters 1000001) 32 ∧
      ¬Along (callStep sampleLayout fullNameFs) (CallOk sampleLayout fullNameFs)
        (initFileArray sampleLayout noName noName (samplePcb false))
        [.open (some (letters 1000001))] := by
  have hlong : LongerThan (letters 1000001) 1000000 :=
    longerThan_of_length (isCStr_letters 1000001) (by decide)
  have hinit : TableInv sampleLayout fullNameFs
      (initFileArray sampleLayout noName noName (samplePcb false)) :=
    tableInv_init noName noName (samplePcb false)
  have hlisted : firstListed fullNameFs.bootBlock (letters 1000001) =
      some (fullNameFs.bootBlock.dentries 0) := by
    have hfind : ((List.range fullNameFs.bootBlock.dentryCount.toNat).find?
        fun i => NameAt fullNameFs.bootBlock (letters 1000001) i) = some 0 := by decide +kernel
    unfold firstListed
    rw [hfind]
    rfl
  have hfree : (freeSlot (initFileArray sampleLayout noName noName (samplePcb false))).isSome := by
    decide
  refine ⟨fullNameFs_directoryOk, fun j hj => hlong j (by omega), ?_⟩
  intro halong
  apply (callOk_iff fullNameFs_directoryOk hinit _).1.mp halong.1
  exact ⟨letters 1000001, fullNameFs.bootBlock.dentries 0, rfl, hlong, hfree, hlisted, rfl⟩

end Kernel391
