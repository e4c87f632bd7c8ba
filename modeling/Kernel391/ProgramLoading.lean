import Kernel391.Executable
import Kernel391.UserPages
import Kernel391.Getargs

/-!
# Loading a program

`execute` maps the page of the new process and lets `read_data` store the file there, from 0x48000
bytes above the start of the page.  How long a file may be is decided by its block table; nothing
compares that with the room above the start.
-/

namespace Kernel391

def ELF_OFFSET : BitVec 32 := 24

abbrev PhysMem := BitVec 32 → UInt8

-- Where the file is stored from.
def programStart : BitVec 32 := USER_PROCESS_START_VIRTUAL + USER_PROCESS_IMAGE_OFFSET

/-- The addresses stored to, in order, and the memory afterwards; `none` is a page fault. -/
structure LoadResult where
  stores : List (BitVec 32)
  mem : Option PhysMem

/-- The stores `buffer[byte_count] = ...` of `read_data` under an address translation. -/
def loadLoop (tr : BitVec 32 → Option (BitVec 32)) (buffer : BitVec 32) :
    List UInt8 → Nat → PhysMem → LoadResult
  | [], _, mem => ⟨[], some mem⟩
  | b :: bytes, byteCount, mem =>
      let a := buffer + BitVec.ofNat 32 byteCount
      match tr a with
      | none => ⟨[a], none⟩
      | some p =>
          let rest := loadLoop tr buffer bytes (byteCount + 1) (Function.update mem p b)
          ⟨a :: rest.stores, rest.mem⟩

/-- The physical address of a virtual one. -/
def physAddr (img : Image) (other : BitVec 20 → BitVec 10 → BitVec 32) (s : Paging)
    (a : BitVec 32) : Option (BitVec 32) :=
  (translate img.pageTableAddr other s a).map Mapping.phys

/-- The load of `execute`, with the page already mapped; the result of the call that reads the file
is not looked at. -/
def loadProgram (img : Image) (tr : BitVec 32 → Option (BitVec 32)) (fr : ExecFrame)
    (allArguments : Option CStr) (mem : PhysMem) : LoadResult :=
  match commandName fr.executable (copyArguments allArguments fr.allArgumentsCopy) with
  | none => ⟨[], some mem⟩
  | some executable =>
      match readFileBytesByName img.fs executable (fileSize img.fs executable) with
      | none => ⟨[], some mem⟩
      | some bytes => loadLoop tr programStart bytes 0 mem

/-- `*(uint32_t*)eip_ptr`, an aligned word. -/
def entryPoint (tr : BitVec 32 → Option (BitVec 32)) (mem : PhysMem) : Option (BitVec 32) :=
  (tr (programStart + ELF_OFFSET)).map fun p => wordAt fun i => mem (p + BitVec.ofNat 32 i)

/-- The whole file is at its place in the page of process `pid`, nothing has been stored elsewhere,
and the program is entered at the address in its header, where there is one. -/
structure ProgramLoaded (fs : FileSys) (tr : BitVec 32 → Option (BitVec 32)) (pid : Nat)
    (inode : Inode) (r : LoadResult) : Prop where
  loaded : ∃ mem, r.mem = some mem ∧
    (∀ j, j < inode.length.toNat → ∃ p, tr (programStart + BitVec.ofNat 32 j) = some p ∧
      p.toNat = 0x800000 + 0x400000 * pid + 0x48000 + j ∧ mem p = (contents fs inode).getD j 0) ∧
    (28 ≤ inode.length.toNat →
      entryPoint tr mem = some (wordAt fun i => (contents fs inode).getD (24 + i) 0))
  confined : ∀ a ∈ r.stores, InUserPage a

/-! ## The copy loop -/

section

variable {tr : BitVec 32 → Option (BitVec 32)} {buffer q : BitVec 32}

/-- A buffer that is mapped in one piece receives the bytes one after the other.  The invariant is
about the part stored so far; the addresses of a piece of at most `2 ^ 32` bytes differ. -/
theorem loadLoop_mapped : ∀ (bytes : List UInt8) (byteCount : Nat) (mem : PhysMem),
    (∀ i, byteCount ≤ i → i < byteCount + bytes.length →
      tr (buffer + BitVec.ofNat 32 i) = some (q + BitVec.ofNat 32 i)) →
    byteCount + bytes.length ≤ 2 ^ 32 →
    (loadLoop tr buffer bytes byteCount mem).stores =
        (List.range' byteCount bytes.length).map (fun i => buffer + BitVec.ofNat 32 i) ∧
      ∃ mem', (loadLoop tr buffer bytes byteCount mem).mem = some mem' ∧
        (∀ i, i < bytes.length → mem' (q + BitVec.ofNat 32 (byteCount + i)) = bytes.getD i 0) ∧
        (∀ x, (∀ i, byteCount ≤ i → i < byteCount + bytes.length → x ≠ q + BitVec.ofNat 32 i) →
          mem' x = mem x)
  | [], byteCount, mem, _, _ => by
      refine ⟨rfl, mem, rfl, ?_, fun _ _ => rfl⟩
      intro i hi
      cases hi
  | b :: bytes, byteCount, mem, htr, hsize => by
      rw [List.length_cons] at htr hsize
      have hhere := htr byteCount (Nat.le_refl _) (by omega)
      obtain ⟨hstores, mem', hmem, hbytes, hframe⟩ := loadLoop_mapped bytes (byteCount + 1)
        (Function.update mem (q + BitVec.ofNat 32 byteCount) b)
        (fun i hlo hhi => htr i (by omega) (by omega)) (by omega)
      have hapart : ∀ i, byteCount < i → i < 2 ^ 32 →
          q + BitVec.ofNat 32 byteCount ≠ q + BitVec.ofNat 32 i := by
        intro i hlo hhi heq
        have hsame := congrArg BitVec.toNat (BitVec.add_right_inj q |>.mp heq)
        rw [BitVec.toNat_ofNat, BitVec.toNat_ofNat] at hsame
        omega
      unfold loadLoop
      simp only [hhere]
      refine ⟨?_, mem', hmem, ?_, ?_⟩
      · rw [hstores, List.length_cons, List.range'_succ, List.map_cons]
      · intro i hi
        cases i with
        | zero =>
          rw [Nat.add_zero, hframe _ fun i hlo hhi => hapart i (by omega) (by omega),
            Function.update_self, List.getD_cons_zero]
        | succ i =>
          rw [List.length_cons] at hi
          rw [← Nat.add_assoc, Nat.add_right_comm, hbytes i (by omega), List.getD_cons_succ]
      · intro x hx
        rw [List.length_cons] at hx
        rw [hframe x fun i hlo hhi => hx i (by omega) (by omega),
          Function.update_of_ne (hx byteCount (Nat.le_refl _) (by omega))]

-- The loop gets to the first address behind a mapped piece, if the bytes go on.
theorem loadLoop_reaches : ∀ (bytes : List UInt8) (byteCount n : Nat) (mem : PhysMem),
    (∀ i, byteCount ≤ i → i < byteCount + n → (tr (buffer + BitVec.ofNat 32 i)).isSome) →
    n < bytes.length →
    buffer + BitVec.ofNat 32 (byteCount + n) ∈ (loadLoop tr buffer bytes byteCount mem).stores
  | [], byteCount, n, mem, _, hn => by cases hn
  | b :: bytes, byteCount, n, mem, htr, hn => by
      unfold loadLoop
      dsimp only
      cases n with
      | zero =>
        cases tr (buffer + BitVec.ofNat 32 byteCount) with
        | none => exact List.mem_singleton_self _
        | some p => exact List.mem_cons_self
      | succ n =>
        obtain ⟨p, hp⟩ := Option.isSome_iff_exists.mp (htr byteCount (Nat.le_refl _) (by omega))
        rw [List.length_cons] at hn
        rw [hp, ← Nat.add_assoc, Nat.add_right_comm]
        exact List.mem_cons_of_mem _ (loadLoop_reaches bytes (byteCount + 1) n _
          (fun i hlo hhi => htr i (by omega) (by omega)) (by omega))

end

/-! ## The file -/

theorem fileNamed_eq_some {fs : FileSys} {fname : CStr} {inode : Inode}
    (hfile : fileNamed fs fname = some inode) :
    ∃ dentry, (readDentryByName fs.bootBlock (some fname)).found = some dentry ∧
      fs.inodes dentry.inodeIndex.toNat = inode := by
  obtain ⟨dentry, hfound, hin⟩ := Option.bind_eq_some_iff.mp hfile
  split at hin
  · exact ⟨dentry, hfound, Option.some_inj.mp hin⟩
  · cases hin

theorem fileSize_eq {fs : FileSys} {fname : CStr} {inode : Inode}
    (hfile : fileNamed fs fname = some inode) : fileSize fs fname = inode.length.toNat := by
  obtain ⟨dentry, hfound, rfl⟩ := fileNamed_eq_some hfile
  unfold fileSize
  rw [hfound]

-- `file_size` and `read_data` agree on the length.
theorem loadProgram_eq {img : Image} {fr : ExecFrame} {allArguments : Option CStr}
    {executable : CStr} {inode : Inode}
    (hname : commandName fr.executable (copyArguments allArguments fr.allArgumentsCopy) =
      some executable)
    (hfile : fileNamed img.fs executable = some inode) (tr : BitVec 32 → Option (BitVec 32))
    (mem : PhysMem) :
    loadProgram img tr fr allArguments mem =
      loadLoop tr programStart (contents img.fs inode) 0 mem := by
  have hall : (contents img.fs inode).take (fileSize img.fs executable) =
      contents img.fs inode := by
    apply List.take_of_length_le
    rw [fileSize_eq hfile, length_contents]
  unfold loadProgram
  rw [hname]
  dsimp only
  rw [readFileBytesByName_eq, hfile, Option.map_some, hall]

/-! ## The page -/

theorem startProcess_paging (img : Image) (k : Kernel) (fr : ExecFrame) (args : CStr)
    (pid parent : Int) :
    (k.startProcess img fr args pid parent).paging = (k.mapUser img pid).paging := by
  have hmapped : (((k.setPcb pid (k.newPcb img fr args pid parent)).mapUser img pid).setEsp0
      pid).paging = (k.mapUser img pid).paging := by
    rw [setEsp0_paging]
    exact mapUser_congr img pid rfl
  unfold Kernel.startProcess
  split
  · exact hmapped
  · exact hmapped

/-- The room above the place the file is stored from. -/
def programRoom : Nat := 0x400000 - 0x48000

-- The physical address the file is stored from.
def programFrame (i : Nat) : BitVec 32 := BitVec.ofNat 32 (0x800000 + 0x400000 * i + 0x48000)

theorem programStart_add {j : Nat} (hj : j ≤ programRoom) :
    (programStart + BitVec.ofNat 32 j).toNat = 0x8048000 + j := by
  have hstart : programStart.toNat = 0x8048000 := by decide
  have hroom : programRoom = 0x3B8000 := by decide
  rw [BitVec.toNat_add, hstart, BitVec.toNat_ofNat]
  omega

theorem inUserPage_programStart {j : Nat} (hj : j ≤ programRoom) :
    InUserPage (programStart + BitVec.ofNat 32 j) ↔ j < programRoom := by
  have hstart : USER_PROCESS_START_VIRTUAL.toNat = 0x8000000 := by decide
  have hroom : programRoom = 0x3B8000 := by decide
  unfold InUserPage
  rw [programStart_add hj, hstart]
  omega

theorem physAddr_program {img : Image} {i : Nat} {s : Paging}
    (hpage : UserPage img.pageTableAddr i s) (other : BitVec 20 → BitVec 10 → BitVec 32) {j : Nat}
    (hj : j < programRoom) :
    physAddr img other s (programStart + BitVec.ofNat 32 j) =
      some (programFrame i + BitVec.ofNat 32 j) := by
  have hin := (inUserPage_programStart (Nat.le_of_lt hj)).mpr hj
  have hbase : BitVec.ofInt 32 (USER_PROCESS_START_PHYSICAL + (i : Int) * USER_PROCESS_SIZE) +
      USER_PROCESS_IMAGE_OFFSET = programFrame i := by
    have hint : USER_PROCESS_START_PHYSICAL + (i : Int) * USER_PROCESS_SIZE =
        ((0x800000 + 0x400000 * i : Nat) : Int) := by
      show (0x800000 : Int) + (i : Int) * 0x400000 = _
      push_cast
      omega
    rw [hint, BitVec.ofInt_natCast, programFrame]
    exact (BitVec.ofNat_add (0x800000 + 0x400000 * i) 0x48000).symm
  have hoffset : programStart + BitVec.ofNat 32 j - USER_PROCESS_START_VIRTUAL =
      USER_PROCESS_IMAGE_OFFSET + BitVec.ofNat 32 j := by
    unfold programStart
    rw [BitVec.add_assoc, BitVec.add_comm USER_PROCESS_START_VIRTUAL, BitVec.add_sub_cancel]
  unfold physAddr
  rw [hpage other _ hin.1 hin.2, Option.map_some, hoffset, ← BitVec.add_assoc, hbase]

theorem programFrame_add {i j : Nat} (hi : i < MAX_DEVICES) (hj : j < programRoom) :
    (programFrame i + BitVec.ofNat 32 j).toNat = 0x800000 + 0x400000 * i + 0x48000 + j := by
  have hdevices : MAX_DEVICES = 6 := by decide
  have hroom : programRoom = 0x3B8000 := by decide
  unfold programFrame
  rw [← BitVec.ofNat_add, BitVec.toNat_ofNat]
  omega

/-! ## The load -/

theorem wordAt_congr {buf buf' : CStr} (h : ∀ n, n < 4 → buf n = buf' n) :
    wordAt buf = wordAt buf' := by
  unfold wordAt
  rw [h 0 (by decide), h 1 (by decide), h 2 (by decide), h 3 (by decide)]

section

variable {img : Image} {i : Nat} {s : Paging} {inode : Inode}

/-- A file that fits is loaded. -/
theorem programLoaded_of_fits (hpage : UserPage img.pageTableAddr i s) (hi : i < MAX_DEVICES)
    (hfits : inode.length.toNat ≤ programRoom) (other : BitVec 20 → BitVec 10 → BitVec 32)
    (mem : PhysMem) :
    ProgramLoaded img.fs (physAddr img other s) i inode
      (loadLoop (physAddr img other s) programStart (contents img.fs inode) 0 mem) := by
  have hroom : programRoom = 0x3B8000 := by decide
  have hlength := length_contents img.fs inode
  have htr : ∀ j, j < inode.length.toNat →
      physAddr img other s (programStart + BitVec.ofNat 32 j) =
        some (programFrame i + BitVec.ofNat 32 j) :=
    fun j hj => physAddr_program hpage other (by omega)
  obtain ⟨hstores, mem', hmem, hbytes, -⟩ := @loadLoop_mapped (physAddr img other s) programStart
    (programFrame i) (contents img.fs inode) 0 mem (fun j _ hj => htr j (by omega)) (by omega)
  constructor
  · refine ⟨mem', hmem, ?_, ?_⟩
    · intro j hj
      have hbyte := hbytes j (by omega)
      rw [Nat.zero_add] at hbyte
      exact ⟨_, htr j hj, programFrame_add hi (by omega), hbyte⟩
    · intro hheader
      have hfield : physAddr img other s (programStart + ELF_OFFSET) = some (programFrame i + 24) :=
        htr 24 (by omega)
      have hword : ∀ n, n < 4 → mem' (programFrame i + 24 + BitVec.ofNat 32 n) =
          (contents img.fs inode).getD (24 + n) 0 := by
        intro n hn
        rw [← hbytes (24 + n) (by omega), Nat.zero_add, BitVec.ofNat_add, BitVec.add_assoc]
        rfl
      unfold entryPoint
      rw [hfield, Option.map_some, wordAt_congr hword]
  · intro a ha
    rw [hstores] at ha
    obtain ⟨j, hj, rfl⟩ := List.mem_map.mp ha
    have hlt := (List.mem_range'_1.mp hj).2
    exact (inUserPage_programStart (by omega)).mpr (by omega)

/-- A file that does not fit is stored past the end of the page. -/
theorem not_programLoaded_of_long (hpage : UserPage img.pageTableAddr i s)
    (hlong : programRoom < inode.length.toNat) (other : BitVec 20 → BitVec 10 → BitVec 32)
    (pid : Nat) (mem : PhysMem) :
    ¬ProgramLoaded img.fs (physAddr img other s) pid inode
      (loadLoop (physAddr img other s) programStart (contents img.fs inode) 0 mem) := by
  intro h
  have hpast := @loadLoop_reaches (physAddr img other s) programStart (contents img.fs inode) 0
    programRoom mem (fun j _ hj => by
      rw [physAddr_program hpage other (by omega)]
      exact Option.isSome_some) (by rw [length_contents]; exact hlong)
  have hin := h.confined _ hpast
  rw [Nat.zero_add, inUserPage_programStart (Nat.le_refl _)] at hin
  exact Nat.lt_irrefl _ hin

end

/-- The load of a process that is entered has a file, and a page to store it to. -/
theorem loadProgram_entered {img : Image} {fr : ExecFrame} {allArguments : Option CStr}
    {k k₁ : Kernel} {pid : Int} (hexec : k.execute img fr allArguments = (.entered pid, k₁)) :
    ∃ (i : Nat) (executable : CStr) (inode : Inode), pid = i ∧ i < MAX_DEVICES ∧
      commandName fr.executable (copyArguments allArguments fr.allArgumentsCopy) =
        some executable ∧
      fileNamed img.fs executable = some inode ∧ UserPage img.pageTableAddr i k₁.paging ∧
      ∀ tr mem, loadProgram img tr fr allArguments mem =
        loadLoop tr programStart (contents img.fs inode) 0 mem := by
  rcases execute_entered hexec with ⟨i, executable, hpid, -, hfree, hname, hcheck, rfl⟩
  have hi := (freePid_eq_some hfree).1
  cases hfile : fileNamed img.fs executable with
  | none =>
    rw [isExecutable_missing hfile] at hcheck
    cases hcheck
  | some inode =>
    refine ⟨i, executable, inode, hpid, hi, hname, hfile, ?_, loadProgram_eq hname hfile⟩
    rw [startProcess_paging]
    exact userPage_mapUser img (k.takePid i) hi

/-- `execute` loads a program completely and into the page of its process exactly when the file
has at most 0x400000 - 0x48000 bytes. -/
theorem program_loading_iff (img : Image) (other : BitVec 20 → BitVec 10 → BitVec 32)
    (fr : ExecFrame) (allArguments : Option CStr) (k k₁ : Kernel) (pid : Int)
    (hexec : k.execute img fr allArguments = (.entered pid, k₁)) (mem : PhysMem) :
    ∃ executable inode,
      commandName fr.executable (copyArguments allArguments fr.allArgumentsCopy) =
        some executable ∧
      fileNamed img.fs executable = some inode ∧
      (ProgramLoaded img.fs (physAddr img other k₁.paging) pid.toNat inode
          (loadProgram img (physAddr img other k₁.paging) fr allArguments mem) ↔
        inode.length.toNat ≤ 0x400000 - 0x48000) := by
  rcases loadProgram_entered hexec with ⟨i, executable, inode, rfl, hi, hname, hfile, hpage, hload⟩
  refine ⟨executable, inode, hname, hfile, ?_⟩
  rw [hload]
  constructor
  · intro h
    by_contra hlong
    exact not_programLoaded_of_long hpage (Nat.lt_of_not_le hlong) other _ mem h
  · intro hfits
    exact programLoaded_of_fits hpage hi hfits other mem

/-! ## A short and a long program -/

/-- An image whose only file is a `shell` of the given length. -/
def programFs (length : BitVec 32) : FileSys where
  bootBlock := ⟨1, 1, 1, fun _ => ⟨shellName, 2, 0, fun _ => 0⟩⟩
  inodes _ := ⟨length, fun _ => 0⟩
  blocks _ := storeBytes [0x7F, 0x45, 0x4C, 0x46] fun _ => 0

def programImg (length : BitVec 32) : Image :=
  ⟨sampleLayout, programFs length, fun _ => 0, 0x403000⟩

theorem programFs_wellFormed {length : BitVec 32} (h : length.toNat ≤ 1023 * 4096) :
    WellFormed (programFs length) :=
  ⟨fun _ _ => Nat.zero_lt_one, fun _ _ => h, fun _ _ _ _ => Nat.zero_lt_one⟩

theorem programFs_length {length : BitVec 32} {fname : CStr} {inode : Inode}
    (hfile : fileNamed (programFs length) fname = some inode) : inode.length = length := by
  obtain ⟨dentry, -, hinode⟩ := fileNamed_eq_some hfile
  rw [← hinode]
  rfl

theorem program_loading_short :
    ∃ k₁ executable inode,
      freshKernel.execute (programImg 64) zeroFrame (some shellName) = (.entered 0, k₁) ∧
      fileNamed (programFs 64) executable = some inode ∧ inode.length.toNat = 64 ∧
      ProgramLoaded (programFs 64) (physAddr (programImg 64) (fun _ _ => 0) k₁.paging) 0 inode
        (loadProgram (programImg 64) (physAddr (programImg 64) (fun _ _ => 0) k₁.paging) zeroFrame
          (some shellName) fun _ => 0) := by
  have houtcome : (freshKernel.execute (programImg 64) zeroFrame (some shellName)).1 =
      .entered 0 := by
    decide +kernel
  have hexec : freshKernel.execute (programImg 64) zeroFrame (some shellName) = (.entered 0,
      (freshKernel.execute (programImg 64) zeroFrame (some shellName)).2) := by
    rw [← houtcome]
  obtain ⟨executable, inode, -, hfile, hiff⟩ := program_loading_iff (programImg 64) (fun _ _ => 0)
    zeroFrame (some shellName) freshKernel _ 0 hexec fun _ => 0
  have hlength : inode.length.toNat = 64 := by
    rw [programFs_length hfile]
    decide
  exact ⟨_, executable, inode, hexec, hfile, hlength, hiff.mpr (by omega)⟩

-- One byte more than there is room for.
theorem program_loading_overruns :
    WellFormed (programFs 3899393) ∧
    ∃ k₁ executable inode,
      freshKernel.execute (programImg 3899393) zeroFrame (some shellName) = (.entered 0, k₁) ∧
      fileNamed (programFs 3899393) executable = some inode ∧ inode.length.toNat = 3899393 ∧
      ¬ProgramLoaded (programFs 3899393) (physAddr (programImg 3899393) (fun _ _ => 0) k₁.paging) 0
        inode (loadProgram (programImg 3899393)
          (physAddr (programImg 3899393) (fun _ _ => 0) k₁.paging) zeroFrame (some shellName)
            fun _ => 0) := by
  refine ⟨programFs_wellFormed (by decide), ?_⟩
  have houtcome : (freshKernel.execute (programImg 3899393) zeroFrame (some shellName)).1 =
      .entered 0 := by
    decide +kernel
  have hexec : freshKernel.execute (programImg 3899393) zeroFrame (some shellName) = (.entered 0,
      (freshKernel.execute (programImg 3899393) zeroFrame (some shellName)).2) := by
    rw [← houtcome]
  rcases loadProgram_entered hexec with ⟨i, executable, inode, -, -, -, hfile, hpage, hload⟩
  have hlength : inode.length.toNat = 3899393 := by
    rw [programFs_length hfile]
    decide
  refine ⟨_, executable, inode, hexec, hfile, hlength, ?_⟩
  rw [hload]
  apply not_programLoaded_of_long hpage
  rw [hlength]
  decide

end Kernel391
